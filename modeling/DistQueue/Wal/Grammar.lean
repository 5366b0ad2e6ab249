import DistQueue.Wal.Durable

/-!
# The grammar of the log

Which files the reader takes in full. A well-formed record is what `encodeRecord` makes of
an operation and a payload that is within the reader's cap – and that can be decoded, if
the operation is an `OpEnqueue` (`DistQueue.Wal.Record`). The reader accepts exactly these:
the length and the checksum that it has read are the ones that the writer would have put
there (`DistQueue.Wal.Record.exists_of_isRecord`). So of *any* file, however it has come
about, `Replay` keeps the longest beginning that is a log of such records
(`DistQueue.Wal.replay_grammar`).

The writer accepts more than that: it has no cap, and does not look whether the operation
goes with the payload. What it has accepted is read back if, and – as long as the length
fits into its four bytes – only if every record is a well-formed one of the kind that its
call is for (`DistQueue.Wal.replay_appended`).
-/

namespace DistQueue

namespace Wal

open Broker Frames

/-! ### Well-formed records -/

/-- **A well-formed record.** -/
structure Record (γ : Codec) where
  op : UInt8
  payload : List UInt8
  capped : payload.length ≤ maxPayload
  decodable : op = opEnqueue → (γ.decodeTask payload).isSome

variable {γ : Codec} {e : LogEntry} {bs : List UInt8} {ps : List (List UInt8 × LogEntry)}

namespace Record

/-- The bytes of the record in the file. -/
def bytes (r : Record γ) : List UInt8 := encodeRecord r.op r.payload

/-- What the record says. -/
def entry (r : Record γ) : LogEntry :=
  if hop : r.op = opEnqueue then .record ((γ.decodeTask r.payload).get (r.decodable hop))
  else .mark r.op (γ.decodeID r.payload) hop

theorem decodeEntry_eq (r : Record γ) : decodeEntry γ r.op r.payload = some r.entry := by
  unfold decodeEntry entry
  split
  · rename_i hop
    exact Option.map_eq_some_iff.mpr ⟨_, (Option.some_get (r.decodable hop)).symm, rfl⟩
  · rfl

theorem isRecord (r : Record γ) : IsRecord (readRecord γ) r.bytes r.entry :=
  isRecord_encodeRecord r.capped r.decodeEntry_eq

/-- A record that is decoded is a well-formed one. -/
theorem exists_of_decodeEntry {op : UInt8} {payload : List UInt8}
    (hcap : payload.length ≤ maxPayload) (hdec : decodeEntry γ op payload = some e) :
    ∃ r : Record γ, r.bytes = encodeRecord op payload ∧ r.entry = e := by
  have hsome : op = opEnqueue → (γ.decodeTask payload).isSome := by
    intro hop
    rw [decodeEntry, dif_pos hop, Option.map_eq_some_iff] at hdec
    obtain ⟨t, ht, -⟩ := hdec
    rw [ht, Option.isSome_some]
  refine ⟨⟨op, payload, hcap, hsome⟩, rfl, Option.some.inj ?_⟩
  rw [← hdec, ← decodeEntry_eq]

end Record

/-- Four bytes are the bytes of their number. -/
theorem appendUint32_uint32 (b₀ b₁ b₂ b₃ : UInt8) :
    appendUint32 (uint32 b₀ b₁ b₂ b₃) = [b₀, b₁, b₂, b₃] := by
  have h₀ := b₀.toNat_lt
  have h₁ := b₁.toNat_lt
  have h₂ := b₂.toNat_lt
  have h₃ := b₃.toNat_lt
  simp only [appendUint32, uint32, List.cons.injEq, and_true, ← UInt8.toNat_inj,
    UInt8.toNat_ofNat']
  omega

/-- The body that has been read is a payload with its checksum. -/
theorem readBody_eq_record {op : UInt8} {plen : ℕ} {r rest : List UInt8}
    (h : readBody γ op plen r = .record e rest) :
    (r.take plen).length = plen ∧ decodeEntry γ op (r.take plen) = some e ∧
      r = r.take plen ++ appendUint32 (crc32 (op :: r.take plen)).toNat ++ rest := by
  unfold readBody at h
  split at h
  · rename_i c₀ c₁ c₂ c₃ rest₀ hdrop
    split at h
    · cases h
    rename_i hcrc
    split at h
    · rename_i e' hdec
      cases h
      refine ⟨?_, hdec, ?_⟩
      · have hlen := congrArg List.length hdrop
        simp only [List.length_drop, List.length_cons] at hlen
        rw [List.length_take]
        omega
      · rw [Decidable.not_not.mp hcrc, appendUint32_uint32, List.append_assoc]
        simp only [List.cons_append, List.nil_append]
        rw [← hdrop, List.take_append_drop]
    · cases h
  · cases h

/-- **The reader accepts well-formed records only.** -/
theorem Record.exists_of_isRecord (h : IsRecord (readRecord γ) bs e) :
    ∃ r : Record γ, r.bytes = bs ∧ r.entry = e := by
  have hread := h.read_append []
  rw [List.append_nil] at hread
  unfold readRecord at hread
  split at hread
  · cases hread
  · rename_i m₀ m₁ m₂ m₃ op l₀ l₁ l₂ l₃ r
    split at hread
    · cases hread
    rename_i hmagic
    split at hread
    · cases hread
    rename_i hcap
    obtain ⟨hlen, hdec, hr⟩ := readBody_eq_record hread
    obtain ⟨q, hq, hentry⟩ := exists_of_decodeEntry (hlen.trans_le (Nat.not_lt.mp hcap)) hdec
    refine ⟨q, ?_, hentry⟩
    rw [hq, encodeRecord, hlen, appendUint32_uint32, ← Decidable.not_not.mp hmagic]
    rw [List.append_nil] at hr
    conv_rhs => rw [hr]
    simp
  · cases hread

/-! ### Logs of well-formed records -/

/-- The file that the records make up. -/
def log (rs : List (Record γ)) : List UInt8 := rs.flatMap Record.bytes

/-- The records, as the reader sees them. -/
def pieces (rs : List (Record γ)) : List (List UInt8 × LogEntry) :=
  rs.map fun r => (r.bytes, r.entry)

theorem bytes_pieces (rs : List (Record γ)) : bytes (pieces rs) = log rs := by
  simp [bytes, pieces, log, List.flatMap_map]

theorem entries_pieces (rs : List (Record γ)) : entries (pieces rs) = rs.map Record.entry := by
  simp [entries, pieces]

/-- Records are pieces that can be read. -/
theorem written_pieces (rs : List (Record γ)) : Written (readRecord γ) (pieces rs) := by
  intro p hp
  obtain ⟨r, -, rfl⟩ := List.mem_map.mp hp
  exact r.isRecord

theorem exists_pieces_eq (h : Written (readRecord γ) ps) :
    ∃ rs : List (Record γ), pieces rs = ps := by
  induction ps with
  | nil => exact ⟨[], rfl⟩
  | cons p ps ih =>
    obtain ⟨hp, hps⟩ := List.forall_mem_cons.mp h
    obtain ⟨r, hbytes, hentry⟩ := Record.exists_of_isRecord hp
    obtain ⟨rs, rfl⟩ := ih hps
    exact ⟨r :: rs, by rw [pieces, List.map_cons, hbytes, hentry]; rfl⟩

theorem replay_log_append (rs : List (Record γ)) (bs : List UInt8) :
    replay γ (log rs ++ bs) =
      (rs.map Record.entry ++ (replay γ bs).1, log rs ++ (replay γ bs).2) := by
  have hscan := scan_append (local_readRecord γ) (written_pieces rs) bs
  rw [bytes_pieces, entries_pieces] at hscan
  rw [replay, hscan, replay]
  dsimp only
  rw [List.take_length_add_append]

/-- **Replay reads back a log that is written in records.** -/
theorem replay_log (rs : List (Record γ)) : replay γ (log rs) = (rs.map Record.entry, log rs) := by
  have hnil : replay γ [] = ([], []) := by
    rw [replay, scan_nil (local_readRecord γ)]
    rfl
  have h := replay_log_append rs []
  rwa [hnil, List.append_nil, List.append_nil] at h

theorem exists_replay_eq (γ : Codec) (file : List UInt8) :
    ∃ rs : List (Record γ), replay γ file = (rs.map Record.entry, log rs) ∧ log rs <+: file := by
  obtain ⟨ps, tail, hps, rfl, hscan⟩ := exists_pieces (local_readRecord γ) file
  obtain ⟨rs, rfl⟩ := exists_pieces_eq hps
  refine ⟨rs, ?_, ?_⟩
  · rw [replay, hscan, entries_pieces, List.take_left, bytes_pieces]
  · rw [bytes_pieces]
    exact List.prefix_append _ _

/-- **A log that is cut is read up to the last record that is wholly before the cut.** -/
theorem replay_log_take (rs : List (Record γ)) (c : ℕ) :
    ∃ k, replay γ ((log rs).take c) = ((rs.take k).map Record.entry, log (rs.take k)) ∧
      ∀ d ≤ rs.length, (log (rs.take d)).length ≤ c ↔ d ≤ k := by
  obtain ⟨k, hscan, hle, hmax⟩ := scan_take (local_readRecord γ) (written_pieces rs) c
  have htake : ∀ d, (pieces rs).take d = pieces (rs.take d) := fun d => List.map_take.symm
  simp only [htake, bytes_pieces, entries_pieces] at hscan hle hmax
  have hbegin : ∀ {d}, d ≤ k → log (rs.take d) <+: log (rs.take k) := by
    intro d hd
    rw [← bytes_pieces, ← bytes_pieces, ← htake, ← htake]
    exact bytes_mono (List.take_prefix_take_left hd)
  have hkept : log (rs.take k) <+: log rs := by
    rw [← bytes_pieces, ← bytes_pieces, ← htake]
    exact bytes_mono (List.take_prefix _ _)
  refine ⟨k, ?_, fun d hd => ⟨hmax d (by rwa [pieces, List.length_map]), fun hdk => ?_⟩⟩
  · rw [replay, hscan]
    dsimp only
    rw [List.take_take, Nat.min_eq_left hle, ← List.prefix_iff_eq_take.mp hkept]
  · exact (hbegin hdk).length_le.trans hle

/-! ### Appends -/

/-- A number of appends that all succeed, each with its operation and its payload. -/
def WAL.appendAll (w : WAL) (cs : List (UInt8 × List UInt8)) : WAL :=
  cs.foldl (fun w c => (w.appendNoSync c.1 c.2 none).1) w

theorem WAL.file_appendAll (w : WAL) (cs : List (UInt8 × List UInt8)) :
    (w.appendAll cs).file = w.file ++ cs.flatMap fun c => encodeRecord c.1 c.2 := by
  induction cs generalizing w with
  | nil => exact (List.append_nil _).symm
  | cons c cs ih =>
    rw [appendAll, List.foldl_cons, ← appendAll, ih, List.flatMap_cons, ← List.append_assoc]
    rfl

/-- **What `Replay` makes of any file.** -/
theorem replay_grammar (γ : Codec) (file : List UInt8) :
    (∃ rs : List (Record γ),
      replay γ file = (rs.map Record.entry, log rs) ∧ log rs <+: file ∧
      (∀ qs : List (Record γ), log qs <+: file → log qs <+: log rs) ∧
      replay γ (replay γ file).2 = replay γ file ∧
      ∀ (w : WAL) (qs : List (Record γ)), w.file = (replay γ file).2 →
        replay γ (w.appendAll (qs.map fun r => (r.op, r.payload))).file =
          ((replay γ file).1 ++ qs.map Record.entry,
            (w.appendAll (qs.map fun r => (r.op, r.payload))).file)) ∧
    ∀ (qs : List (Record γ)) (c : ℕ), file = log qs → ∃ k,
      replay γ (file.take c) = ((qs.take k).map Record.entry, log (qs.take k)) ∧
      ∀ d ≤ qs.length, (log (qs.take d)).length ≤ c ↔ d ≤ k := by
  constructor
  · obtain ⟨rs, hreplay, hbegin⟩ := exists_replay_eq γ file
    refine ⟨rs, hreplay, hbegin, ?_, ?_, ?_⟩
    · -- a log that the file begins with is read first
      rintro qs ⟨bs, rfl⟩
      rw [replay_log_append] at hreplay
      rw [← (Prod.mk.inj hreplay).2]
      exact List.prefix_append _ _
    · rw [hreplay, replay_log]
    · intro w qs hfile
      have hnew : (qs.map fun r => (r.op, r.payload)).flatMap (fun c => encodeRecord c.1 c.2) =
          log qs := by
        rw [List.flatMap_map]
        rfl
      rw [WAL.file_appendAll, hnew, hfile, hreplay, replay_log_append, replay_log]
  · rintro qs c rfl
    exact replay_log_take qs c

/-! ### What the writer accepts -/

/-- A call of `AppendTaskNoSync` or of `AppendIDNoSync`. -/
inductive Append
  | task (op : UInt8) (t : Task)
  | id (op : UInt8) (taskID : TaskID)

/-- The fields of an entry: `Op`, `TaskID` and `Task`. -/
def LogEntry.fields : LogEntry → UInt8 × TaskID × Option WrittenTask
  | .record t => (opEnqueue, t.val.id, some t)
  | .mark op id _ => (op, id, none)

namespace Append

/-- The operation of the record. -/
def op : Append → UInt8
  | task op _ | id op _ => op

/-- The payload of the record. -/
def payload (γ : Codec) : Append → List UInt8
  | task _ t => γ.encodeTask t.written
  | id _ taskID => γ.encodeID taskID

/-- The entry that the caller expects to find: the task is the same, as far as it can be
written. -/
def fields : Append → UInt8 × TaskID × Option WrittenTask
  | task op t => (op, t.id, some t.written)
  | id op taskID => (op, taskID, none)

/-- **The call is used for what it is there for**: a task is enqueued, an identifier goes with
one of the other operations. -/
def Proper : Append → Prop
  | task op _ => op = opEnqueue
  | id op _ => op ≠ opEnqueue

/-- A proper record can be decoded. -/
theorem Proper.decodeEntry {c : Append} (h : c.Proper) (γ : Codec) :
    ∃ e, decodeEntry γ c.op (c.payload γ) = some e ∧ e.fields = c.fields := by
  cases c with
  | task op t =>
    obtain rfl : op = opEnqueue := h
    exact ⟨_, decodeEntry_payload γ (.enqueue t), rfl⟩
  | id op taskID => exact ⟨_, decodeEntry_payload γ (.mark op taskID h), rfl⟩

/-- An entry with the expected fields comes from a proper call. -/
theorem proper_of_fields {c : Append} (hdec : Wal.decodeEntry γ c.op (c.payload γ) = some e)
    (hfields : e.fields = c.fields) : c.Proper := by
  unfold Wal.decodeEntry at hdec
  cases c with
  | task op t =>
    split at hdec
    · assumption
    · -- an entry without a task
      cases hdec
      exact absurd (congrArg (·.2.2) hfields) (by simp [LogEntry.fields, fields])
  | id op taskID =>
    split at hdec
    · -- an entry with one
      obtain ⟨t, -, rfl⟩ := Option.map_eq_some_iff.mp hdec
      exact absurd (congrArg (·.2.2) hfields) (by simp [LogEntry.fields, fields])
    · assumption

end Append

/-- The file after the calls, from an empty one. -/
def appended (γ : Codec) (cs : List Append) : List UInt8 :=
  ((openWAL [] 0).appendAll (cs.map fun c => (c.op, c.payload γ))).file

theorem appended_eq (γ : Codec) (cs : List Append) :
    appended γ cs = cs.flatMap fun c => encodeRecord c.op (c.payload γ) := by
  rw [appended, WAL.file_appendAll, List.flatMap_map]
  rfl

theorem appended_cons (γ : Codec) (c : Append) (cs : List Append) :
    appended γ (c :: cs) = encodeRecord c.op (c.payload γ) ++ appended γ cs := by
  rw [appended_eq, appended_eq, List.flatMap_cons]

/-- **What has been written is what is read**: every record, and nothing is cut off. -/
def ReadBack (γ : Codec) (cs : List Append) : Prop :=
  (replay γ (appended γ cs)).1.map LogEntry.fields = cs.map Append.fields ∧
    (replay γ (appended γ cs)).2 = appended γ cs

/-- Proper records within the limit are read back. -/
theorem readBack_of_proper {cs : List Append}
    (h : ∀ c ∈ cs, c.Proper ∧ (c.payload γ).length ≤ maxPayload) : ReadBack γ cs := by
  -- the file is a log of well-formed records
  have hlog : ∃ rs : List (Record γ), log rs = appended γ cs ∧
      (rs.map Record.entry).map LogEntry.fields = cs.map Append.fields := by
    induction cs with
    | nil => exact ⟨[], rfl, rfl⟩
    | cons c cs ih =>
      obtain ⟨⟨hproper, hcap⟩, hcs⟩ := List.forall_mem_cons.mp h
      obtain ⟨rs, hrs, hfields⟩ := ih hcs
      obtain ⟨e, hdec, he⟩ := hproper.decodeEntry γ
      obtain ⟨r, hr, rfl⟩ := Record.exists_of_decodeEntry hcap hdec
      refine ⟨r :: rs, ?_, ?_⟩
      · rw [appended_cons, ← hrs, ← hr]
        rfl
      · rw [List.map_cons, List.map_cons, he, hfields, List.map_cons]
  obtain ⟨rs, hrs, hfields⟩ := hlog
  rw [ReadBack, ← hrs, replay_log]
  exact ⟨hfields, rfl⟩

/-- **Only those are.** -/
theorem proper_of_readBack {cs : List Append} (hshort : ∀ c ∈ cs, (c.payload γ).length < 2 ^ 32)
    (h : (replay γ (appended γ cs)).1.map LogEntry.fields = cs.map Append.fields) :
    ∀ c ∈ cs, c.Proper ∧ (c.payload γ).length ≤ maxPayload := by
  induction cs with
  | nil =>
    intro c hc
    cases hc
  | cons c cs ih =>
    obtain ⟨hc, hcs⟩ := List.forall_mem_cons.mp hshort
    rw [appended_cons, replay] at h
    -- a record that is not accepted would end the log
    have hstop : readRecord γ (encodeRecord c.op (c.payload γ) ++ appended γ cs) ≠ .corrupt := by
      intro hcorrupt
      rw [scan_of_not_record (by simp [hcorrupt])] at h
      cases h
    have hcap : (c.payload γ).length ≤ maxPayload :=
      Nat.not_lt.mp fun hlong => hstop (readRecord_oversized hlong hc _)
    cases hdec : decodeEntry γ c.op (c.payload γ) with
    | none =>
      rw [readRecord_encodeRecord hcap, hdec] at hstop
      exact absurd rfl hstop
    | some e =>
      rw [scan_record (local_readRecord γ) (isRecord_encodeRecord hcap hdec)] at h
      obtain ⟨hhead, htail⟩ := List.cons.inj h
      exact List.forall_mem_cons.mpr
        ⟨⟨Append.proper_of_fields hdec hhead, hcap⟩, ih hcs htail⟩

/-- **What has been appended is read back**, if every call is a proper one with a payload
within the reader's cap; and only then, as long as the length of a payload fits into its
field. -/
theorem replay_appended (γ : Codec) (cs : List Append) :
    ((∀ c ∈ cs, c.Proper ∧ (c.payload γ).length ≤ maxPayload) → ReadBack γ cs) ∧
      ((∀ c ∈ cs, (c.payload γ).length < 2 ^ 32) → ReadBack γ cs →
        ∀ c ∈ cs, c.Proper ∧ (c.payload γ).length ≤ maxPayload) :=
  ⟨readBack_of_proper, fun hshort h => proper_of_readBack hshort h.1⟩

/-- A task with a payload of 64 MiB. -/
def bulky : Task := { Task.named "b" with payload := List.replicate maxPayload 0 }

/-- **A record that the writer has accepted hides itself and what follows it**, although both
calls are proper ones. -/
theorem oversized_record_not_read :
    ∃ cs : List Append, (∀ c ∈ cs, c.Proper) ∧ ¬ReadBack plainCodec cs := by
  refine ⟨[.task opEnqueue bulky, .id opAck "a"], by simp [Append.Proper]; decide, fun hread => ?_⟩
  have hlen : (plainCodec.encodeTask bulky.written).length =
      2 + (maxPayload / 255 + 1 + maxPayload) + 10 := length_encodeTask_zeros rfl
  have hall := proper_of_readBack (γ := plainCodec) (by
    simp only [List.forall_mem_cons, Append.payload, hlen]
    decide) hread.1
  have hcap : (plainCodec.encodeTask bulky.written).length ≤ maxPayload :=
    (hall (.task opEnqueue bulky) List.mem_cons_self).2
  rw [hlen] at hcap
  omega

end Wal

end DistQueue
