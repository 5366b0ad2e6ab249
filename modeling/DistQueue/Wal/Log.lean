import DistQueue.Run
import DistQueue.Wal.Record

/-!
# The write-ahead log

The log object of a broker: appends under the file lock, and the group commit of
`WaitSync`, in which one of the waiting goroutines syncs the file on behalf of all. What
interleaves is the sections under the object's two locks. Besides the fields of the source
the object has the number of bytes of the file that are known to be on disk
(`DistQueue.Wal.WAL.durable`): a crash leaves some beginning of the file that is at least
as long.

A write may fail with any part of the record on disk, and the next one goes right behind
it. The reader stops at the first record that is not whole, so that a record behind such a
part is lost, although its append and its sync have succeeded
(`DistQueue.Wal.torn_append_loses`). As long as every append starts behind a whole record,
and with a payload that the reader accepts, what has been synced is read back, in order,
after any crash (`DistQueue.Wal.synced_replayed`).
-/

namespace DistQueue

namespace Wal

open Broker Frames

variable {γ : Codec}

/-! ### The object -/

/-- Where the goroutine is that syncs the file: there is none, it is about to look how
much has been written, or it waits for the file, having found `covered` records and
`length` bytes. -/
inductive Syncing
  | idle
  | leading
  | fsync (covered length : ℕ)
  deriving DecidableEq

/-- **The log object**: its file, and the counters of the source. -/
structure WAL where
  file : List UInt8
  /-- The bytes that a crash is sure to leave. -/
  durable : ℕ
  /-- Appends since the log was opened or compacted. -/
  entries : ℕ
  /-- Records fully written to the file. -/
  writeSeq : ℕ
  /-- Records known to be durable. -/
  syncedSeq : ℕ
  syncing : Syncing
  /-- A failed sync poisons the log. -/
  syncErr : Bool

/-- A log opened on a file of which the given number of bytes is on disk. -/
def openWAL (file : List UInt8) (durable : ℕ) : WAL :=
  { file, durable, entries := 0, writeSeq := 0, syncedSeq := 0, syncing := .idle, syncErr := false }

namespace WAL

/-- Write a record behind what is there. The write fails after `n` bytes if the fault says
so; otherwise the record's sequence number is returned. -/
def appendNoSync (w : WAL) (op : UInt8) (payload : List UInt8) (fault : Option ℕ) :
    WAL × Option ℕ :=
  match fault with
  | some n => ({ w with file := w.file ++ (encodeRecord op payload).take n }, none)
  | none =>
    ({ w with
      file := w.file ++ encodeRecord op payload
      entries := w.entries + 1
      writeSeq := w.writeSeq + 1 }, some (w.writeSeq + 1))

/-- `AppendTaskNoSync` and `AppendIDNoSync`, by the entry. -/
def append (γ : Codec) (w : WAL) (e : LogEntry) (fault : Option ℕ) : WAL × Option ℕ :=
  w.appendNoSync e.op (e.payload γ) fault

/-- What a waiting goroutine finds: the log is poisoned, its record is durable, or it has to
wait on – or sync the file itself, if nobody does. -/
inductive Waited
  | failed
  | synced
  | waits
  deriving DecidableEq

/-- What a goroutine finds that waits for the record `seq`. -/
def waitSync (w : WAL) (seq : ℕ) : Waited :=
  if w.syncErr then .failed else if seq ≤ w.syncedSeq then .synced else .waits

/-- A goroutine starts to sync the file. -/
def lead (w : WAL) : Option WAL :=
  if w.syncErr = false ∧ w.syncing = .idle then some { w with syncing := .leading } else none

/-- It looks how much has been written. -/
def capture (w : WAL) : Option WAL :=
  match w.syncing with
  | .leading => some { w with syncing := .fsync w.writeSeq w.file.length }
  | _ => none

/-- The file has been synced, or the sync has failed. -/
def fsynced (w : WAL) (ok : Bool) : Option WAL :=
  match w.syncing with
  | .fsync covered length =>
    some (if ok then
      { w with
        syncing := .idle
        syncedSeq := max w.syncedSeq covered
        durable := max w.durable length }
    else { w with syncing := .idle, syncErr := true })
  | _ => none

/-- Replace the contents by the given entries, atomically. Whoever syncs the file must have
finished. -/
def rewrite (γ : Codec) (w : WAL) (es : List LogEntry) : Option WAL :=
  if w.syncing = .idle then
    some { w with
      file := es.flatMap (encodeEntry γ)
      durable := (es.flatMap (encodeEntry γ)).length
      entries := 0
      syncedSeq := w.writeSeq }
  else none

/-- The log after a crash that has left `c` bytes of the file, opened and replayed. -/
def reopen (γ : Codec) (w : WAL) (c : ℕ) : WAL :=
  let file := (replay γ (w.file.take c)).2
  openWAL file (min w.durable file.length)

end WAL

/-! ### Appends, syncs and crashes -/

/-- An entry whose append has returned a sequence number, and whether a `WaitSync` for it
has returned without an error. -/
structure Item where
  seq : ℕ
  entry : LogEntry
  synced : Bool
  deriving DecidableEq

/-- The log, with the entries appended to it so far, in order. After a crash, those are
forgotten that nobody has been told were durable. -/
structure Journal where
  wal : WAL
  items : List Item

/-- What happens next. -/
inductive Op
  | append (e : LogEntry) (fault : Option ℕ)
  | lead
  | capture
  | fsync (ok : Bool)
  /-- A `WaitSync` returns without an error. -/
  | waitSync (seq : ℕ)
  /-- A crash leaves `c` bytes, and the log is opened again. -/
  | crash (c : ℕ)

namespace Journal

/-- The entries known to be durable. -/
def confirmed (s : Journal) : List LogEntry := (s.items.filter Item.synced).map Item.entry

/-- The item of this number is durable. -/
def confirm (seq : ℕ) (x : Item) : Item := if x.seq = seq then { x with synced := true } else x

/-- **One step of the log**, as it is used: appends with the items they add, the sections of a
sync, a `WaitSync` that returns, a crash. -/
def step (γ : Codec) (s : Journal) : Op → Option Journal
  | .append e fault =>
    let r := s.wal.append γ e fault
    some ⟨r.1, s.items ++ (r.2.map fun seq => (⟨seq, e, false⟩ : Item)).toList⟩
  | .lead => s.wal.lead.map fun w => { s with wal := w }
  | .capture => s.wal.capture.map fun w => { s with wal := w }
  | .fsync ok => (s.wal.fsynced ok).map fun w => { s with wal := w }
  | .waitSync seq =>
    if (∃ x ∈ s.items, x.seq = seq) ∧ s.wal.waitSync seq = .synced then
      some { s with items := s.items.map (confirm seq) }
    else none
  | .crash c =>
    if s.wal.durable ≤ c ∧ c ≤ s.wal.file.length then
      some ⟨s.wal.reopen γ c, (s.items.filter Item.synced).map fun x => { x with seq := 0 }⟩
    else none

/-- A log on an empty file. -/
def start : Journal := ⟨openWAL [] 0, []⟩

/-- **An append that succeeds starts behind a whole record**: a replay would not truncate
the file. Its payload is within the reader's cap. -/
def StartsWhole (γ : Codec) (s : Journal) : Op → Prop
  | .append e none => (replay γ s.wal.file).2 = s.wal.file ∧ e.Fits γ
  | _ => True

instance (γ : Codec) (s : Journal) (x : Op) : Decidable (s.StartsWhole γ x) := by
  unfold Journal.StartsWhole
  split <;> infer_instance

end Journal

/-! ### What is read back -/

/-- A file that begins with a log is read as that log and more. -/
theorem replay_of_log {ps : List (List UInt8 × LogEntry)} {bs : List UInt8}
    (hw : Written (readRecord γ) ps) (h : bytes ps <+: bs) :
    ∃ qs, Written (readRecord γ) qs ∧ replay γ bs = (entries (ps ++ qs), bytes (ps ++ qs)) := by
  obtain ⟨x, rfl⟩ := h
  obtain ⟨qs, tail, hqs, rfl, hscan⟩ := exists_pieces (local_readRecord γ) x
  refine ⟨qs, hqs, ?_⟩
  rw [replay, scan_append (local_readRecord γ) hw, hscan, entries_append, bytes_append]
  dsimp only
  rw [← List.append_assoc, ← List.length_append, List.take_left]

/-- The items up to a number are found, in order, in the first bytes of a log. -/
def Backs (ps : List (List UInt8 × LogEntry)) (items : List Item) (seq length : ℕ) : Prop :=
  ∃ qs, qs <+: ps ∧ ((items.filter (·.seq ≤ seq)).map Item.entry).Sublist (entries qs) ∧
    (bytes qs).length ≤ length

variable {ps ps' : List (List UInt8 × LogEntry)} {items : List Item} {seq length : ℕ}

theorem Backs.mono (h : Backs ps items seq length) (hp : ps <+: ps') {length' : ℕ}
    (hl : length ≤ length') : Backs ps' items seq length' := by
  obtain ⟨qs, hqs, hsub, hlen⟩ := h
  exact ⟨qs, hqs.trans hp, hsub, le_trans hlen hl⟩

/-- A later item is of no concern. -/
theorem Backs.concat (h : Backs ps items seq length) {x : Item} (hx : seq < x.seq) :
    Backs ps (items ++ [x]) seq length := by
  obtain ⟨qs, hqs, hsub, hlen⟩ := h
  refine ⟨qs, hqs, ?_, hlen⟩
  rw [List.filter_append, List.filter_singleton]
  simpa [Nat.not_le.mpr hx] using hsub

theorem confirm_seq (k : ℕ) (x : Item) : (Journal.confirm k x).seq = x.seq := by
  unfold Journal.confirm
  split <;> rfl

theorem confirm_entry (k : ℕ) (x : Item) : (Journal.confirm k x).entry = x.entry := by
  unfold Journal.confirm
  split <;> rfl

/-- So is what anyone has been told. -/
theorem Backs.confirm (h : Backs ps items seq length) (k : ℕ) :
    Backs ps (items.map (Journal.confirm k)) seq length := by
  obtain ⟨qs, hqs, hsub, hlen⟩ := h
  refine ⟨qs, hqs, ?_, hlen⟩
  simpa [List.filter_map, Function.comp_def, confirm_seq, confirm_entry] using hsub

/-- **What has been synced is on disk.** The file begins with the log `ps`; in it are all
the items, those that count as synced in its durable part. -/
structure Kept (γ : Codec) (s : Journal) (ps : List (List UInt8 × LogEntry)) : Prop where
  written : Written (readRecord γ) ps
  file : bytes ps <+: s.wal.file
  seq_le : ∀ x ∈ s.items, x.seq ≤ s.wal.writeSeq
  synced_le : s.wal.syncedSeq ≤ s.wal.writeSeq
  all : (s.items.map Item.entry).Sublist (entries ps)
  durable : Backs ps s.items s.wal.syncedSeq s.wal.durable
  fsync : ∀ covered length, s.wal.syncing = .fsync covered length →
    covered ≤ s.wal.writeSeq ∧ Backs ps s.items covered length
  told : ∀ x ∈ s.items, x.synced = true → x.seq ≤ s.wal.syncedSeq

theorem kept_start (γ : Codec) : Kept γ Journal.start [] where
  written p hp := by cases hp
  file := List.nil_prefix
  seq_le x hx := by cases hx
  synced_le := le_rfl
  all := List.Sublist.refl _
  durable := ⟨[], List.nil_prefix, List.Sublist.refl _, le_rfl⟩
  fsync covered length h := by cases h
  told x hx := by cases hx

variable {s s' : Journal}

/-- The entries that were confirmed are within the durable part. -/
theorem Kept.confirmed (h : Kept γ s ps) :
    ∃ qs, qs <+: ps ∧ s.confirmed.Sublist (entries qs) ∧ (bytes qs).length ≤ s.wal.durable := by
  obtain ⟨qs, hqs, hsub, hlen⟩ := h.durable
  refine ⟨qs, hqs, List.Sublist.trans ?_ hsub, hlen⟩
  have hfilter : s.items.filter Item.synced =
      (s.items.filter (·.seq ≤ s.wal.syncedSeq)).filter Item.synced := by
    rw [List.filter_filter]
    refine List.filter_congr fun x hx => ?_
    cases hs : x.synced with
    | false => simp
    | true => simp [h.told x hx hs]
  rw [Journal.confirmed, hfilter]
  exact List.filter_sublist.map _

/-- **What was confirmed is read back after a crash.** -/
theorem Kept.read (h : Kept γ s ps) {c : ℕ} (hc : s.wal.durable ≤ c) :
    ∃ qs rs, Written (readRecord γ) (qs ++ rs) ∧ s.confirmed.Sublist (entries qs) ∧
      (bytes qs).length ≤ s.wal.durable ∧
      replay γ (s.wal.file.take c) = (entries (qs ++ rs), bytes (qs ++ rs)) := by
  obtain ⟨qs, hqs, hsub, hlen⟩ := h.confirmed
  have hwritten := h.written.of_prefix hqs
  have htake : bytes qs <+: s.wal.file.take c :=
    List.prefix_take_iff.mpr ⟨(bytes_mono hqs).trans h.file, le_trans hlen hc⟩
  obtain ⟨rs, hrs, hreplay⟩ := replay_of_log hwritten htake
  exact ⟨qs, rs, hwritten.append hrs, hsub, hlen, hreplay⟩

/-! ### The steps -/

/-- An append fails, and leaves some bytes behind. -/
theorem Kept.appendFails (h : Kept γ s ps) (x : List UInt8) :
    Kept γ ⟨{ s.wal with file := s.wal.file ++ x }, s.items⟩ ps :=
  ⟨h.written, h.file.trans (List.prefix_append _ _), h.seq_le, h.synced_le, h.all, h.durable,
    h.fsync, h.told⟩

/-- An append succeeds, behind a whole record. -/
theorem Kept.append (h : Kept γ s ps) {e : LogEntry}
    (hwhole : (replay γ s.wal.file).2 = s.wal.file)
    (hfit : e.Fits γ) :
    ∃ ps', Kept γ ⟨(s.wal.append γ e none).1, s.items ++ [⟨s.wal.writeSeq + 1, e, false⟩]⟩ ps' := by
  -- what follows the log in the file are whole records as well
  obtain ⟨qs, hqs, hreplay⟩ := replay_of_log h.written h.file
  have hfile : s.wal.file = bytes (ps ++ qs) := by rw [← hwhole, hreplay]
  have hmore : ps <+: ps ++ qs ++ [(encodeEntry γ e, e)] := by
    rw [List.append_assoc]
    exact List.prefix_append _ _
  refine ⟨ps ++ qs ++ [(encodeEntry γ e, e)], ?_, ?_, ?_, Nat.le_succ_of_le h.synced_le, ?_, ?_, ?_,
    ?_⟩
  · refine (h.written.append hqs).append fun p hp => ?_
    rw [List.mem_singleton.mp hp]
    exact isRecord_of_fits hfit
  · have hone : bytes [(encodeEntry γ e, e)] = encodeEntry γ e := List.append_nil _
    rw [bytes_append, ← hfile, hone]
    exact List.prefix_refl _
  · intro x hx
    obtain hx | hx := List.mem_append.mp hx
    · exact Nat.le_succ_of_le (h.seq_le x hx)
    · rw [List.mem_singleton.mp hx]
      exact le_rfl
  · rw [List.map_append, entries_append, entries_append]
    exact (h.all.trans (List.sublist_append_left _ _)).append (List.Sublist.refl _)
  · exact (h.durable.concat (Nat.lt_succ_of_le h.synced_le)).mono hmore le_rfl
  · intro covered length hsync
    obtain ⟨hcov, hback⟩ := h.fsync covered length hsync
    exact ⟨Nat.le_succ_of_le hcov, (hback.concat (Nat.lt_succ_of_le hcov)).mono hmore le_rfl⟩
  · intro x hx ht
    obtain hx | hx := List.mem_append.mp hx
    · exact h.told x hx ht
    · rw [List.mem_singleton.mp hx] at ht
      cases ht

/-- A goroutine looks how much has been written: all the items. -/
theorem Kept.capture (h : Kept γ s ps) {w : WAL} (hw : s.wal.capture = some w) :
    Kept γ { s with wal := w } ps := by
  unfold WAL.capture at hw
  split at hw
  · cases hw
    refine ⟨h.written, h.file, h.seq_le, h.synced_le, h.all, h.durable, ?_, h.told⟩
    rintro covered length ⟨⟩
    refine ⟨le_rfl, ps, List.prefix_refl _, ?_, h.file.length_le⟩
    rw [List.filter_eq_self.mpr fun x hx => decide_eq_true (h.seq_le x hx)]
    exact h.all
  · cases hw

theorem Kept.lead (h : Kept γ s ps) {w : WAL} (hw : s.wal.lead = some w) :
    Kept γ { s with wal := w } ps := by
  simp only [WAL.lead, Option.ite_none_right_eq_some, Option.some.injEq] at hw
  obtain ⟨-, rfl⟩ := hw
  exact ⟨h.written, h.file, h.seq_le, h.synced_le, h.all, h.durable, fun _ _ hs => (by cases hs),
    h.told⟩

/-- The file has been synced: what the goroutine had found is durable. -/
theorem Kept.fsynced (h : Kept γ s ps) {w : WAL} {ok : Bool} (hw : s.wal.fsynced ok = some w) :
    Kept γ { s with wal := w } ps := by
  unfold WAL.fsynced at hw
  split at hw
  · rename_i covered length hsync
    obtain ⟨hcov, hback⟩ := h.fsync covered length hsync
    cases hw
    cases ok with
    | false =>
      exact ⟨h.written, h.file, h.seq_le, h.synced_le, h.all, h.durable,
        fun _ _ hs => (by cases hs), h.told⟩
    | true =>
      refine ⟨h.written, h.file, h.seq_le, max_le h.synced_le hcov, h.all, ?_,
        fun _ _ hs => (by cases hs), fun x hx ht => le_trans (h.told x hx ht) (le_max_left _ _)⟩
      dsimp only
      rcases le_total covered s.wal.syncedSeq with hle | hle
      · rw [max_eq_left hle]
        exact h.durable.mono (List.prefix_refl _) (le_max_left _ _)
      · rw [max_eq_right hle]
        exact hback.mono (List.prefix_refl _) (le_max_right _ _)
  · cases hw

theorem le_syncedSeq_of_waitSync {w : WAL} (h : w.waitSync seq = .synced) : seq ≤ w.syncedSeq := by
  unfold WAL.waitSync at h
  split at h
  · cases h
  · split at h
    · assumption
    · cases h

/-- A waiting goroutine is told. -/
theorem Kept.waitSync (h : Kept γ s ps) (hseq : s.wal.waitSync seq = .synced) :
    Kept γ { s with items := s.items.map (Journal.confirm seq) } ps := by
  have hle : seq ≤ s.wal.syncedSeq := le_syncedSeq_of_waitSync hseq
  refine ⟨h.written, h.file, ?_, h.synced_le, ?_, h.durable.confirm seq, ?_, ?_⟩
  · intro x hx
    obtain ⟨y, hy, rfl⟩ := List.mem_map.mp hx
    rw [confirm_seq]
    exact h.seq_le y hy
  · simpa [Function.comp_def, confirm_entry] using h.all
  · intro covered length hsync
    obtain ⟨hcov, hback⟩ := h.fsync covered length hsync
    exact ⟨hcov, hback.confirm seq⟩
  · intro x hx ht
    obtain ⟨y, hy, rfl⟩ := List.mem_map.mp hx
    rw [confirm_seq]
    by_cases hys : y.seq = seq
    · rw [hys]
      exact hle
    · rw [Journal.confirm, if_neg hys] at ht
      exact h.told y hy ht

/-- **A crash**: the log is opened again with what was durable, and maybe more. -/
theorem Kept.crash (h : Kept γ s ps) {c : ℕ} (hc : s.wal.durable ≤ c) :
    ∃ ps', Kept γ ⟨s.wal.reopen γ c,
      (s.items.filter Item.synced).map fun x => { x with seq := 0 }⟩ ps' := by
  obtain ⟨qs, rs, hwritten, hsub, hlen, hreplay⟩ := h.read hc
  have hfile : (s.wal.reopen γ c).file = bytes (qs ++ rs) := by
    rw [WAL.reopen, hreplay]
    rfl
  have hentries : ((s.items.filter Item.synced).map fun x => ({ x with seq := 0 } : Item)).map
      Item.entry = s.confirmed := by
    rw [List.map_map]
    rfl
  have hzero : ∀ x ∈ (s.items.filter Item.synced).map fun x => ({ x with seq := 0 } : Item),
      x.seq = 0 := by
    intro x hx
    obtain ⟨y, -, rfl⟩ := List.mem_map.mp hx
    rfl
  refine ⟨qs ++ rs, hwritten, hfile ▸ List.prefix_refl _, fun x hx => (hzero x hx).le, le_rfl,
    ?_, ?_, fun _ _ hs => (by cases hs), fun x hx _ => (hzero x hx).le⟩
  · rw [hentries, entries_append]
    exact hsub.trans (List.sublist_append_left _ _)
  · refine ⟨qs, List.prefix_append _ _, ?_, ?_⟩
    · have hseq : (s.wal.reopen γ c).syncedSeq = 0 := rfl
      dsimp only
      rw [hseq, List.filter_eq_self.mpr fun x hx => decide_eq_true (hzero x hx).le, hentries]
      exact hsub
    · have hdur : (s.wal.reopen γ c).durable =
          min s.wal.durable (s.wal.reopen γ c).file.length := rfl
      rw [hdur, hfile, bytes_append, List.length_append]
      omega

/-- **Every step keeps the journal.** -/
theorem Kept.step {x : Op} (h : ∃ ps, Kept γ s ps) (hx : s.StartsWhole γ x)
    (hs : s.step γ x = some s') : ∃ ps, Kept γ s' ps := by
  obtain ⟨ps, h⟩ := h
  cases x with
  | append e fault =>
    cases hs
    cases fault with
    | none => exact h.append hx.1 hx.2
    | some n =>
      refine ⟨ps, ?_⟩
      have hitems : s.items ++ (Option.map (fun seq => (⟨seq, e, false⟩ : Item))
          (s.wal.append γ e (some n)).2).toList = s.items := List.append_nil _
      rw [hitems]
      exact h.appendFails _
  | lead =>
    obtain ⟨w, hw, rfl⟩ := Option.map_eq_some_iff.mp hs
    exact ⟨ps, h.lead hw⟩
  | capture =>
    obtain ⟨w, hw, rfl⟩ := Option.map_eq_some_iff.mp hs
    exact ⟨ps, h.capture hw⟩
  | fsync ok =>
    obtain ⟨w, hw, rfl⟩ := Option.map_eq_some_iff.mp hs
    exact ⟨ps, h.fsynced hw⟩
  | waitSync seq =>
    simp only [Journal.step, Option.ite_none_right_eq_some, Option.some.injEq] at hs
    obtain ⟨⟨-, hseq⟩, rfl⟩ := hs
    exact ⟨ps, h.waitSync hseq⟩
  | crash c =>
    simp only [Journal.step, Option.ite_none_right_eq_some, Option.some.injEq] at hs
    obtain ⟨⟨hc, -⟩, rfl⟩ := hs
    exact h.crash hc

/-- **What was synced is read back.** In a run in which every append that succeeds starts
behind a whole record, with a payload within the reader's cap, a crash at any moment leaves
a file from which a replay returns, in order, every entry whose append returned a sequence
number and whose `WaitSync` returned without an error. -/
theorem synced_replayed {xs : List Op}
    (hwhole : Run.Guarded (Journal.step γ) (Journal.StartsWhole γ) Journal.start xs)
    (h : Run.exec (Journal.step γ) Journal.start xs = some s) {c : ℕ} (hc : s.wal.durable ≤ c) :
    s.confirmed.Sublist (replay γ (s.wal.file.take c)).1 := by
  obtain ⟨ps, hkept⟩ := Run.invariant_of_guarded (P := fun s => ∃ ps, Kept γ s ps)
    ⟨[], kept_start γ⟩ (fun u x u' => Kept.step) hwhole h
  obtain ⟨qs, rs, -, hsub, -, hreplay⟩ := hkept.read hc
  rw [hreplay, entries_append]
  exact hsub.trans (List.sublist_append_left _ _)

/-! ### A run to read it on

The task `a` is appended and synced; the write of the task `b` fails after three bytes; the
task `c` is appended and synced. -/

/-- An entry is appended, and its `WaitSync` returns. -/
def saved (e : LogEntry) (seq : ℕ) : List Op :=
  [.append e none, .lead, .capture, .fsync true, .waitSync seq]

/-- The record of `a` is synced, and of that of `b` three bytes are written. -/
def tornWrite : List Op :=
  saved (.enqueue (.named "a")) 1 ++ [.append (.enqueue (.named "b")) (some 3)]

/-- The theorem at a run with a torn write and a restart. -/
theorem synced_replayed_restart :
    ∃ s, Run.exec (Journal.step plainCodec) Journal.start
        (tornWrite ++ [.crash 29] ++ saved (.enqueue (.named "c")) 1) = some s ∧
      s.confirmed = [.enqueue (.named "a"), .enqueue (.named "c")] ∧
      s.confirmed.Sublist (replay plainCodec (s.wal.file.take s.wal.durable)).1 := by
  have hend : (Run.exec (Journal.step plainCodec) Journal.start
      (tornWrite ++ [.crash 29] ++ saved (.enqueue (.named "c")) 1)).map Journal.confirmed =
      some [.enqueue (.named "a"), .enqueue (.named "c")] := by
    decide +kernel
  have hwhole : Run.Guarded (Journal.step plainCodec) (Journal.StartsWhole plainCodec) Journal.start
      (tornWrite ++ [.crash 29] ++ saved (.enqueue (.named "c")) 1) := by
    decide +kernel
  obtain ⟨s, hs, hend⟩ := Option.map_eq_some_iff.mp hend
  exact ⟨s, hs, hend, synced_replayed hwhole hs le_rfl⟩

/-- **A record behind a torn one is lost.** The append of `c` succeeds, and so does its
`WaitSync`; but the file, of which nothing is lost, is read back up to `a` only. -/
theorem torn_append_loses :
    ∃ s, Run.exec (Journal.step plainCodec) Journal.start
        (tornWrite ++ saved (.enqueue (.named "c")) 2) = some s ∧
      s.confirmed = [.enqueue (.named "a"), .enqueue (.named "c")] ∧
      s.wal.durable = s.wal.file.length ∧
      (replay plainCodec (s.wal.file.take s.wal.file.length)).1 = [.enqueue (.named "a")] ∧
      ¬s.confirmed.Sublist (replay plainCodec (s.wal.file.take s.wal.file.length)).1 := by
  have hend : (Run.exec (Journal.step plainCodec) Journal.start
      (tornWrite ++ saved (.enqueue (.named "c")) 2)).map (fun s => (s.confirmed,
        decide (s.wal.durable = s.wal.file.length),
        (replay plainCodec (s.wal.file.take s.wal.file.length)).1)) =
      some ([.enqueue (.named "a"), .enqueue (.named "c")], true, [.enqueue (.named "a")]) := by
    decide +kernel
  obtain ⟨s, hs, hend⟩ := Option.map_eq_some_iff.mp hend
  simp only [Prod.mk.injEq, decide_eq_true_eq] at hend
  obtain ⟨hconf, hdur, hreplay⟩ := hend
  refine ⟨s, hs, hconf, hdur, hreplay, ?_⟩
  rw [hconf, hreplay]
  intro hsub
  exact absurd hsub.length_le (by decide)

end Wal

end DistQueue
