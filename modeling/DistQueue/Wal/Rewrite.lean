import DistQueue.Wal.Durable

/-!
# Compaction, step by step

`Rewrite` writes the new contents to a temporary file, syncs and closes it, renames it over
the log and opens the log again; it holds both locks meanwhile, and returns at the first
step that fails. The rest of the development takes it as one atomic operation
(`DistQueue.Wal.WAL.rewrite`), and so it is if no step fails (`DistQueue.Wal.exec_rewriting`).

The object writes to the file that it has open, a restart reads the one at the path. These
are two files from the rename until the log has been opened again
(`DistQueue.Wal.Shelf.other`). If any step before that fails, the log is what it was, and
everything that is appended and synced from then on is read back after a crash
(`DistQueue.Wal.rewrite_keeps_log`). If the opening fails, the two stay apart: the object goes
on appending to a file that nobody will ever read (`DistQueue.Wal.detached_log_loses`).
-/

namespace DistQueue

namespace Wal

open Broker Frames

/-! ### The steps -/

/-- Where a `Rewrite` is that has been given the entries `es`: there is none, it writes the
temporary file and has `rest` still to write, or it has synced, closed or renamed it. -/
inductive Stage
  | idle
  | writing (es rest : List LogEntry) (temp : List UInt8)
  | synced (es : List LogEntry) (temp : List UInt8)
  | closed (es : List LogEntry) (temp : List UInt8)
  | renamed (es : List LogEntry) (temp : List UInt8)
  deriving DecidableEq

/-- The log, with the records that it holds, in order. Those that were there when it was
opened or rewritten have the number `0`. -/
structure Shelf where
  wal : WAL
  /-- The file at the path, if it is not the one that the object has open. -/
  other : Option (List UInt8)
  stage : Stage
  items : List Item

/-- A step of the log, or of a `Rewrite`, each of which may fail. -/
inductive ShelfOp
  | append (e : LogEntry)
  | lead
  | capture
  | fsync (ok : Bool)
  /-- A `WaitSync` returns without an error. -/
  | waitSync (seq : ℕ)
  /-- The steps of a `Rewrite`, in their order. -/
  | create (es : List LogEntry) (ok : Bool)
  | write (fault : Option ℕ)
  | syncTemp (ok : Bool)
  | closeTemp (ok : Bool)
  | rename (ok : Bool)
  | openNew (ok : Bool)
  /-- A crash leaves `c` bytes of the file that is open, and the log is opened again. -/
  | crash (c : ℕ)

/-- Forget the number of a record. -/
def Item.unnumbered (x : Item) : Item := { x with seq := 0 }

namespace Shelf

/-- What a restart finds at the path. The file that has been renamed there is on disk in
full. -/
def atPath (s : Shelf) (c : ℕ) : List UInt8 := s.other.getD (s.wal.file.take c)

/-- A section for which no `Rewrite` may hold the locks. -/
def unlocked (s : Shelf) (w : Option WAL) : Option Shelf :=
  if s.stage = .idle then w.map fun w => { s with wal := w } else none

/-- A step of a `Rewrite`, which returns if it fails; the temporary file is removed. -/
def proceed (s : Shelf) (ok : Bool) (next : Stage) : Shelf :=
  { s with stage := if ok then next else .idle }

/-- **One step of the log and its directory**, down to the system calls of `Rewrite`. -/
def step (γ : Codec) (s : Shelf) : ShelfOp → Option Shelf
  | .append e =>
    (s.unlocked (some (s.wal.append γ e none).1)).map fun s' =>
      { s' with items := s.items ++ [⟨s.wal.writeSeq + 1, e, false⟩] }
  | .lead => s.unlocked s.wal.lead
  | .capture => s.unlocked s.wal.capture
  | .fsync ok => s.unlocked (s.wal.fsynced ok)
  | .waitSync seq =>
    if s.stage = .idle ∧ 0 < seq ∧ (∃ x ∈ s.items, x.seq = seq) ∧ s.wal.waitSync seq = .synced then
      some { s with items := s.items.map (Journal.confirm seq) }
    else none
  | .create es ok =>
    -- a sync that is going on is waited for
    if s.stage = .idle ∧ s.wal.syncing = .idle then some (s.proceed ok (.writing es es []))
    else none
  | .write fault =>
    match s.stage with
    | .writing es (e :: rest) temp =>
      some (s.proceed fault.isNone (.writing es rest (temp ++ encodeEntry γ e)))
    | _ => none
  | .syncTemp ok =>
    match s.stage with
    | .writing es [] temp => some (s.proceed ok (.synced es temp))
    | _ => none
  | .closeTemp ok =>
    match s.stage with
    | .synced es temp => some (s.proceed ok (.closed es temp))
    | _ => none
  | .rename ok =>
    match s.stage with
    | .closed es temp =>
      if ok then
        some { s with
          other := some temp
          stage := .renamed es temp
          items := es.map fun e => ⟨0, e, true⟩ }
      else some (s.proceed false .idle)
    | _ => none
  | .openNew ok =>
    match s.stage with
    | .renamed _ temp =>
      if ok then
        some { s with
          wal := { s.wal with
            file := temp
            durable := temp.length
            entries := 0
            syncedSeq := s.wal.writeSeq }
          other := none
          stage := .idle }
      else some (s.proceed false .idle)
    | _ => none
  | .crash c =>
    if s.wal.durable ≤ c ∧ c ≤ s.wal.file.length then
      let r := replay γ (s.atPath c)
      some
        { wal := openWAL r.2 (min (s.other.elim s.wal.durable List.length) r.2.length)
          other := none
          stage := .idle
          items := (s.items.take r.1.length).map Item.unnumbered }
    else none

/-- The log, opened on a file and replayed. -/
def start (γ : Codec) (file : List UInt8) : Shelf :=
  { wal := openWAL (replay γ file).2 0
    other := none
    stage := .idle
    items := (replay γ file).1.map fun e => ⟨0, e, false⟩ }

end Shelf

/-- **Nothing but the last step of a `Rewrite` must succeed.** All payloads that are written
are within the reader's cap. -/
def ShelfOp.Reopens (γ : Codec) : ShelfOp → Prop
  | .append e => e.Fits γ
  | .create es _ => ∀ e ∈ es, e.Fits γ
  | .openNew ok => ok = true
  | _ => True

instance (γ : Codec) (x : ShelfOp) : Decidable (x.Reopens γ) := by
  cases x <;> dsimp only [ShelfOp.Reopens] <;> infer_instance

variable {γ : Codec} {w w' : WAL} {s s' : Shelf} {items : List Item} {e : LogEntry}
  {es rest : List LogEntry} {ps : List (List UInt8 × LogEntry)}

/-! ### A `Rewrite` that succeeds -/

/-- The steps of a `Rewrite` none of which fails. -/
def rewriting (es : List LogEntry) : List ShelfOp :=
  .create es true :: es.map (fun _ => .write none) ++
    [.syncTemp true, .closeTemp true, .rename true, .openNew true]

theorem exec_writing {temp : List UInt8} :
    Run.exec (Shelf.step γ) { s with stage := .writing es rest temp }
        (rest.map fun _ => .write none) =
      some { s with stage := .writing es [] (temp ++ image γ rest) } := by
  induction rest generalizing temp with
  | nil => rw [image, List.flatMap_nil, List.append_nil]; rfl
  | cons e rest ih =>
    rw [List.map_cons, Run.exec_cons]
    have hone : Shelf.step γ { s with stage := .writing es (e :: rest) temp } (.write none) =
        some { s with stage := .writing es rest (temp ++ encodeEntry γ e) } := rfl
    rw [hone, Option.bind_some, ih, image, image, List.flatMap_cons, List.append_assoc]

/-- **A `Rewrite` that succeeds replaces the log atomically.** -/
theorem exec_rewriting (hstage : s.stage = .idle) (hsync : s.wal.syncing = .idle) :
    Run.exec (Shelf.step γ) s (rewriting es) = (s.wal.rewrite γ es).map fun w =>
      { wal := w, other := none, stage := .idle, items := es.map fun e => ⟨0, e, true⟩ } := by
  have hcreate : Shelf.step γ s (.create es true) = some { s with stage := .writing es es [] } := by
    rw [Shelf.step, if_pos ⟨hstage, hsync⟩]
    rfl
  rw [rewriting, List.cons_append, Run.exec_cons, hcreate, Option.bind_some, Run.exec_append,
    exec_writing, Option.bind_some, WAL.rewrite, if_pos hsync, List.nil_append]
  rfl

/-! ### The file that is open -/

/-- **The file holds the items**: what counts as synced in its durable part. -/
structure Filed (γ : Codec) (w : WAL) (items : List Item) (ps : List (List UInt8 × LogEntry)) :
    Prop where
  written : Written (readRecord γ) ps
  file : w.file = bytes ps
  holds : entries ps = items.map Item.entry
  seq_le : ∀ x ∈ items, x.seq ≤ w.writeSeq
  synced_le : w.syncedSeq ≤ w.writeSeq
  durable : ∀ i x, items[i]? = some x → x.synced = true ∨ 0 < x.seq ∧ x.seq ≤ w.syncedSeq →
    (bytes (ps.take (i + 1))).length ≤ w.durable
  fsync : ∀ covered length, w.syncing = .fsync covered length → covered ≤ w.writeSeq ∧
    ∀ i x, items[i]? = some x → 0 < x.seq → x.seq ≤ covered →
      (bytes (ps.take (i + 1))).length ≤ length

theorem length_bytes_take_le (ps : List (List UInt8 × LogEntry)) (i : ℕ) :
    (bytes (ps.take i)).length ≤ (bytes ps).length :=
  (bytes_mono (List.take_prefix i ps)).length_le

theorem Filed.length_eq (h : Filed γ w items ps) : ps.length = items.length := by
  have hlen := congrArg List.length h.holds
  rwa [entries, List.length_map, List.length_map] at hlen

theorem Filed.append (h : Filed γ w items ps) (hfit : e.Fits γ) :
    Filed γ (w.append γ e none).1 (items ++ [⟨w.writeSeq + 1, e, false⟩])
      (ps ++ [(encodeEntry γ e, e)]) := by
  -- an old item is where it was, the new one has the next number
  have hcases : ∀ i x, (items ++ [(⟨w.writeSeq + 1, e, false⟩ : Item)])[i]? = some x →
      (items[i]? = some x ∧ (ps ++ [(encodeEntry γ e, e)]).take (i + 1) = ps.take (i + 1)) ∨
        x = ⟨w.writeSeq + 1, e, false⟩ := by
    intro i x hx
    rcases Nat.lt_or_ge i items.length with hi | hi
    · rw [List.getElem?_append_left hi] at hx
      exact .inl ⟨hx, List.take_append_of_le_length (by rw [h.length_eq]; exact hi)⟩
    · rw [List.getElem?_append_right hi] at hx
      exact .inr (List.mem_singleton.mp (List.mem_of_getElem? hx))
  refine ⟨?_, ?_, ?_, ?_, Nat.le_succ_of_le h.synced_le, ?_, ?_⟩
  · refine h.written.append fun p hp => ?_
    rw [List.mem_singleton.mp hp]
    exact isRecord_of_fits hfit
  · rw [bytes_append, ← h.file]
    exact congrArg _ (List.append_nil _).symm
  · rw [entries_append, h.holds, List.map_append]
    rfl
  · intro x hx
    rcases List.mem_append.mp hx with hx | hx
    · exact Nat.le_succ_of_le (h.seq_le x hx)
    · rw [List.mem_singleton.mp hx]
      exact le_rfl
  · intro i x hx hmark
    rcases hcases i x hx with ⟨hold, htake⟩ | rfl
    · rw [htake]
      exact h.durable i x hold hmark
    · rcases hmark with hmark | ⟨-, hle⟩
      · cases hmark
      · exact absurd (le_trans hle h.synced_le) (Nat.not_succ_le_self _)
  · intro covered length hs
    obtain ⟨hcov, hin⟩ := h.fsync covered length hs
    refine ⟨Nat.le_succ_of_le hcov, fun i x hx hpos hle => ?_⟩
    rcases hcases i x hx with ⟨hold, htake⟩ | rfl
    · rw [htake]
      exact hin i x hold hpos hle
    · exact absurd (le_trans hle hcov) (Nat.not_succ_le_self _)

theorem Filed.lead (h : Filed γ w items ps) (hw : w.lead = some w') : Filed γ w' items ps := by
  simp only [WAL.lead, Option.ite_none_right_eq_some, Option.some.injEq] at hw
  obtain ⟨-, rfl⟩ := hw
  exact ⟨h.written, h.file, h.holds, h.seq_le, h.synced_le, h.durable,
    fun _ _ hs => (by cases hs)⟩

theorem Filed.capture (h : Filed γ w items ps) (hw : w.capture = some w') :
    Filed γ w' items ps := by
  unfold WAL.capture at hw
  split at hw
  · cases hw
    refine ⟨h.written, h.file, h.holds, h.seq_le, h.synced_le, h.durable, ?_⟩
    rintro covered length ⟨⟩
    refine ⟨le_rfl, fun i x _ _ _ => ?_⟩
    rw [h.file]
    exact length_bytes_take_le ps _
  · cases hw

theorem Filed.fsynced (h : Filed γ w items ps) {ok : Bool} (hw : w.fsynced ok = some w') :
    Filed γ w' items ps := by
  unfold WAL.fsynced at hw
  split at hw
  · rename_i covered length hsync
    obtain ⟨hcov, hin⟩ := h.fsync covered length hsync
    cases hw
    cases ok with
    | false =>
      exact ⟨h.written, h.file, h.holds, h.seq_le, h.synced_le, h.durable,
        fun _ _ hs => (by cases hs)⟩
    | true =>
      refine ⟨h.written, h.file, h.holds, h.seq_le, max_le h.synced_le hcov, ?_,
        fun _ _ hs => (by cases hs)⟩
      intro i x hx hmark
      rcases hmark with hmark | ⟨hpos, hle⟩
      · exact le_trans (h.durable i x hx (.inl hmark)) (le_max_left _ _)
      · rcases le_max_iff.mp hle with hle | hle
        · exact le_trans (h.durable i x hx (.inr ⟨hpos, hle⟩)) (le_max_left _ _)
        · exact le_trans (hin i x hx hpos hle) (le_max_right _ _)
  · cases hw

/-- A waiting goroutine is told. -/
theorem Filed.waitSync (h : Filed γ w items ps) {seq : ℕ} (hpos : 0 < seq)
    (hseq : seq ≤ w.syncedSeq) : Filed γ w (items.map (Journal.confirm seq)) ps := by
  have hget : ∀ (i : ℕ) (x : Item), (items.map (Journal.confirm seq))[i]? = some x →
      ∃ y, items[i]? = some y ∧ Journal.confirm seq y = x := by
    intro i x hx
    rw [List.getElem?_map] at hx
    exact Option.map_eq_some_iff.mp hx
  refine ⟨h.written, h.file, ?_, ?_, h.synced_le, ?_, ?_⟩
  · rw [h.holds, List.map_map]
    exact List.map_congr_left fun x _ => (confirm_entry seq x).symm
  · intro x hx
    obtain ⟨y, hy, rfl⟩ := List.mem_map.mp hx
    rw [confirm_seq]
    exact h.seq_le y hy
  · intro i x hx hmark
    obtain ⟨y, hy, rfl⟩ := hget i x hx
    refine h.durable i y hy ?_
    rw [confirm_seq] at hmark
    by_cases hys : y.seq = seq
    · exact .inr ⟨hys ▸ hpos, hys ▸ hseq⟩
    · rwa [Journal.confirm, if_neg hys] at hmark
  · intro covered length hs
    obtain ⟨hcov, hin⟩ := h.fsync covered length hs
    refine ⟨hcov, fun i x hx hpos' hle => ?_⟩
    obtain ⟨y, hy, rfl⟩ := hget i x hx
    rw [confirm_seq] at hpos' hle
    exact hin i y hy hpos' hle

/-- What a crash leaves: a beginning of the log, with everything in it that anyone has been
told is durable. -/
theorem Filed.read (h : Filed γ w items ps) {c : ℕ} (hc : w.durable ≤ c) :
    ∃ k ≤ items.length, replay γ (w.file.take c) = (entries (ps.take k), bytes (ps.take k)) ∧
      ∀ i x, items[i]? = some x → x.synced = true → i < k := by
  obtain ⟨k, hscan, hle, hmax⟩ := scan_take (local_readRecord γ) h.written c
  have hkept : bytes (ps.take k) <+: bytes ps := bytes_mono (List.take_prefix _ _)
  have hmin : ps.take (min k items.length) = ps.take k := by
    rw [← h.length_eq, ← List.take_take, List.take_length]
  refine ⟨min k items.length, min_le_right _ _, ?_, fun i x hx hmark => ?_⟩
  · rw [hmin, replay, h.file, hscan]
    dsimp only
    rw [List.take_take, Nat.min_eq_left hle, ← List.prefix_iff_eq_take.mp hkept]
  · have hi : i < items.length := (List.getElem?_eq_some_iff.mp hx).1
    have hlen := le_trans (h.durable i x hx (.inl hmark)) hc
    exact lt_min (hmax (i + 1) (by rw [h.length_eq]; exact hi) hlen) hi

/-- The log that has been read is opened again. -/
theorem Filed.restart (hwritten : Written (readRecord γ) ps) {d : ℕ}
    (hentries : entries ps = items.map Item.entry)
    (hdurable : ∀ i x, items[i]? = some x → x.synced = true →
      (bytes (ps.take (i + 1))).length ≤ d) :
    Filed γ (openWAL (bytes ps) (min d (bytes ps).length)) (items.map Item.unnumbered) ps where
  written := hwritten
  file := rfl
  holds := by
    rw [hentries, List.map_map]
    rfl
  seq_le x hx := by
    obtain ⟨y, -, rfl⟩ := List.mem_map.mp hx
    exact Nat.zero_le _
  synced_le := le_rfl
  durable i x hx hmark := by
    rw [List.getElem?_map] at hx
    obtain ⟨y, hy, rfl⟩ := Option.map_eq_some_iff.mp hx
    rcases hmark with hmark | ⟨hpos, -⟩
    · exact le_min (hdurable i y hy hmark) (length_bytes_take_le ps _)
    · exact absurd hpos (Nat.lt_irrefl 0)
  fsync _ _ hs := by cases hs

/-- A new file is on disk in full. -/
theorem filed_image (hfit : ∀ e ∈ es, e.Fits γ) (hw : w.file = image γ es)
    (hdur : w.durable = (image γ es).length) (hseq : w.syncedSeq ≤ w.writeSeq)
    (hsync : w.syncing = .idle) :
    Filed γ w (es.map fun e => ⟨0, e, true⟩) (records γ es) where
  written p hp := by
    obtain ⟨e, he, rfl⟩ := List.mem_map.mp hp
    exact isRecord_of_fits (hfit e he)
  file := by rw [hw, bytes_records]
  holds := by
    rw [entries_records, List.map_map]
    exact (List.map_id es).symm
  seq_le x hx := by
    obtain ⟨e, -, rfl⟩ := List.mem_map.mp hx
    exact Nat.zero_le _
  synced_le := hseq
  durable i x _ _ := by
    rw [hdur, ← bytes_records]
    exact length_bytes_take_le _ _
  fsync _ _ hs := by
    rw [hsync] at hs
    cases hs

/-! ### What every step keeps -/

/-- The file that is open is the one at the path. -/
def Attached (γ : Codec) (s : Shelf) : Prop := s.other = none ∧ ∃ ps, Filed γ s.wal s.items ps

/-- A `Rewrite` is under way, with good entries. -/
def UnderWay (γ : Codec) (s : Shelf) (es : List LogEntry) : Prop :=
  s.wal.syncing = .idle ∧ ∀ e ∈ es, e.Fits γ

/-- **The log is intact**, wherever a `Rewrite` is. From the rename to the opening of the new
file, it is that file which counts. -/
def Intact (γ : Codec) (s : Shelf) : Prop :=
  match s.stage with
  | .idle => Attached γ s
  | .writing es rest temp => Attached γ s ∧ UnderWay γ s es ∧
      ∃ done, es = done ++ rest ∧ temp = image γ done
  | .synced es temp | .closed es temp => Attached γ s ∧ UnderWay γ s es ∧ temp = image γ es
  | .renamed es temp => UnderWay γ s es ∧ temp = image γ es ∧ s.other = some temp ∧
      s.items = es.map fun e => ⟨0, e, true⟩

theorem Intact.attached (h : Intact γ s) (hstage : s.stage = .idle) : Attached γ s := by
  rw [Intact, hstage] at h
  exact h

/-- A step of a `Rewrite` that may fail. -/
theorem Attached.proceed (h : Attached γ s) {ok : Bool} {next : Stage}
    (hnext : Intact γ { s with stage := next }) : Intact γ (s.proceed ok next) := by
  cases ok with
  | false => exact h
  | true => exact hnext

/-- A section of the log that leaves the items alone. -/
theorem Intact.unlocked (h : Intact γ s) {w : Option WAL}
    (hw : ∀ ps w', Filed γ s.wal s.items ps → w = some w' → Filed γ w' s.items ps)
    (hs : s.unlocked w = some s') : Intact γ s' := by
  simp only [Shelf.unlocked, Option.ite_none_right_eq_some] at hs
  obtain ⟨hstage, hs⟩ := hs
  obtain ⟨w', hw', rfl⟩ := Option.map_eq_some_iff.mp hs
  obtain ⟨hother, ps, hps⟩ := h.attached hstage
  rw [Intact, hstage]
  exact ⟨hother, ps, hw ps w' hps hw'⟩

/-- A restart reads the records `ps`, which are the first `k` of the log, with all those that
anyone has been told are durable. -/
structure Leaves (γ : Codec) (s : Shelf) (c k : ℕ) (ps : List (List UInt8 × LogEntry)) : Prop where
  le : k ≤ s.items.length
  written : Written (readRecord γ) ps
  replay_eq : replay γ (s.atPath c) = (entries ps, bytes ps)
  holds : entries ps = (s.items.take k).map Item.entry
  marked : ∀ i x, s.items[i]? = some x → x.synced = true →
    i < k ∧ (bytes (ps.take (i + 1))).length ≤ s.other.elim s.wal.durable List.length

theorem Attached.read (h : Attached γ s) {c : ℕ} (hc : s.wal.durable ≤ c) :
    ∃ k ps, Leaves γ s c k ps := by
  obtain ⟨hother, ps, hps⟩ := h
  obtain ⟨k, hk, hreplay, hmark⟩ := hps.read hc
  refine ⟨k, ps.take k, hk, hps.written.of_prefix (List.take_prefix _ _), ?_, ?_, ?_⟩
  · rw [Shelf.atPath, hother, Option.getD_none, hreplay]
  · rw [List.map_take, ← hps.holds]
    exact List.map_take
  · intro i x hx hsync
    refine ⟨hmark i x hx hsync, ?_⟩
    rw [List.take_take, Nat.min_eq_left (hmark i x hx hsync), hother]
    exact hps.durable i x hx (.inl hsync)

/-- The new file is at the path, all of it. -/
theorem leaves_renamed (hfit : ∀ e ∈ es, e.Fits γ) (hother : s.other = some (image γ es))
    (hitems : s.items = es.map fun e => ⟨0, e, true⟩) (c : ℕ) :
    Leaves γ s c es.length (records γ es) := by
  have hnew := filed_image (w := openWAL (image γ es) (image γ es).length) hfit rfl rfl le_rfl rfl
  have hlen : s.items.length = es.length := by rw [hitems, List.length_map]
  have hreplay : replay γ (image γ es) = (entries (records γ es), bytes (records γ es)) := by
    have hscan := scan_append (local_readRecord γ) hnew.written []
    rw [scan_nil (local_readRecord γ), List.append_nil, List.append_nil] at hscan
    rw [replay, ← bytes_records, hscan]
    exact congrArg _ List.take_length
  refine ⟨hlen.ge, hnew.written, ?_, ?_, ?_⟩
  · rw [Shelf.atPath, hother, Option.getD_some, hreplay]
  · rw [List.take_of_length_le hlen.le, hitems]
    exact hnew.holds
  · intro i x hx hsync
    refine ⟨hlen ▸ (List.getElem?_eq_some_iff.mp hx).1, ?_⟩
    rw [hitems] at hx
    rw [hother]
    exact hnew.durable i x hx (.inl hsync)

/-- **What a restart reads**, in whatever stage the crash has come. -/
theorem Intact.read (h : Intact γ s) {c : ℕ} (hc : s.wal.durable ≤ c) :
    ∃ k ps, Leaves γ s c k ps := by
  unfold Intact at h
  split at h
  · exact h.read hc
  · exact h.1.read hc
  · exact h.1.read hc
  · exact h.1.read hc
  · obtain ⟨⟨-, hfit⟩, rfl, hother, hitems⟩ := h
    exact ⟨_, _, leaves_renamed hfit hother hitems c⟩

theorem Intact.crash (h : Intact γ s) {c : ℕ} (hs : s.step γ (.crash c) = some s') :
    Intact γ s' := by
  simp only [Shelf.step, Option.ite_none_right_eq_some, Option.some.injEq] at hs
  obtain ⟨⟨hc, -⟩, rfl⟩ := hs
  obtain ⟨k, ps, hps⟩ := h.read hc
  have hlen : (entries ps).length = k := by
    rw [hps.holds, List.length_map, List.length_take, Nat.min_eq_left hps.le]
  rw [hps.replay_eq]
  refine ⟨rfl, ps, ?_⟩
  dsimp only
  rw [hlen]
  refine Filed.restart hps.written hps.holds fun i x hx hsync => ?_
  rw [List.getElem?_take] at hx
  split at hx
  · exact (hps.marked i x hx hsync).2
  · cases hx

theorem Intact.step {x : ShelfOp} (h : Intact γ s) (hx : x.Reopens γ)
    (hs : s.step γ x = some s') : Intact γ s' := by
  cases x with
  | append e =>
    obtain ⟨s₁, hs₁, rfl⟩ := Option.map_eq_some_iff.mp hs
    simp only [Shelf.unlocked, Option.ite_none_right_eq_some, Option.map_some,
      Option.some.injEq] at hs₁
    obtain ⟨hstage, rfl⟩ := hs₁
    obtain ⟨hother, ps, hps⟩ := h.attached hstage
    rw [Intact, hstage]
    exact ⟨hother, _, hps.append hx⟩
  | lead => exact h.unlocked (fun ps w hps hw => hps.lead hw) hs
  | capture => exact h.unlocked (fun ps w hps hw => hps.capture hw) hs
  | fsync ok => exact h.unlocked (fun ps w hps hw => hps.fsynced hw) hs
  | waitSync seq =>
    simp only [Shelf.step, Option.ite_none_right_eq_some, Option.some.injEq] at hs
    obtain ⟨⟨hstage, hpos, -, hseq⟩, rfl⟩ := hs
    obtain ⟨hother, ps, hps⟩ := h.attached hstage
    rw [Intact, hstage]
    exact ⟨hother, ps, hps.waitSync hpos (le_syncedSeq_of_waitSync hseq)⟩
  | create es ok =>
    simp only [Shelf.step, Option.ite_none_right_eq_some, Option.some.injEq] at hs
    obtain ⟨⟨hstage, hsync⟩, rfl⟩ := hs
    have hatt := h.attached hstage
    exact hatt.proceed ⟨hatt, ⟨hsync, hx⟩, [], rfl, rfl⟩
  | write fault =>
    simp only [Shelf.step] at hs
    split at hs
    · rename_i es e rest temp hstage
      rw [Intact, hstage] at h
      obtain ⟨hatt, hway, done, rfl, rfl⟩ := h
      cases hs
      refine hatt.proceed ⟨hatt, hway, done ++ [e], by simp, ?_⟩
      simp [image]
    · cases hs
  | syncTemp ok =>
    simp only [Shelf.step] at hs
    split at hs
    · rename_i es temp hstage
      rw [Intact, hstage] at h
      obtain ⟨hatt, hway, done, rfl, rfl⟩ := h
      cases hs
      exact hatt.proceed ⟨hatt, hway, by rw [List.append_nil]⟩
    · cases hs
  | closeTemp ok =>
    simp only [Shelf.step] at hs
    split at hs
    · rename_i es temp hstage
      rw [Intact, hstage] at h
      cases hs
      exact h.1.proceed h
    · cases hs
  | rename ok =>
    simp only [Shelf.step] at hs
    split at hs
    · rename_i es temp hstage
      rw [Intact, hstage] at h
      obtain ⟨hatt, hway, rfl⟩ := h
      cases ok with
      | false =>
        cases hs
        exact hatt
      | true =>
        cases hs
        exact ⟨hway, rfl, rfl, rfl⟩
    · cases hs
  | openNew ok =>
    simp only [Shelf.step] at hs
    split at hs
    · rename_i es temp hstage
      rw [Intact, hstage] at h
      obtain ⟨⟨hsync, hfit⟩, rfl, hother, hitems⟩ := h
      obtain rfl : ok = true := hx
      cases hs
      refine ⟨rfl, records γ es, ?_⟩
      rw [hitems]
      exact filed_image hfit rfl rfl le_rfl hsync
    · cases hs
  | crash c => exact h.crash hs

theorem intact_start (γ : Codec) (file : List UInt8) : Intact γ (Shelf.start γ file) := by
  obtain ⟨ps, tail, hps, rfl, hscan⟩ := exists_pieces (local_readRecord γ) file
  have hreplay : replay γ (bytes ps ++ tail) = (entries ps, bytes ps) := by
    rw [replay, hscan]
    dsimp only
    rw [List.take_left]
  refine ⟨rfl, ps, ?_⟩
  have hentries : entries ps =
      ((entries ps).map fun e => (⟨0, e, false⟩ : Item)).map Item.entry := by
    rw [List.map_map]
    exact (List.map_id _).symm
  have h := Filed.restart (d := 0) hps hentries fun i x hx hsync => by
    -- nobody has been told anything yet
    rw [List.getElem?_map] at hx
    obtain ⟨e, -, rfl⟩ := Option.map_eq_some_iff.mp hx
    cases hsync
  rw [Nat.zero_min, List.map_map] at h
  rw [Shelf.start, hreplay]
  exact h

/-! ### A failed compaction -/

/-- **A failed `Rewrite` does no harm**, if it is not the opening of the new file that fails.
In every run in which any other step of a `Rewrite` may fail, a crash at any moment leaves at
the path a file that is read back as a beginning of the log, with all the records whose
`WaitSync` has returned without an error, and everything before them. -/
theorem rewrite_keeps_log {file : List UInt8} {xs : List ShelfOp}
    (hok : Run.Guarded (Shelf.step γ) (fun _ x => x.Reopens γ) (Shelf.start γ file) xs)
    (h : Run.exec (Shelf.step γ) (Shelf.start γ file) xs = some s) {c : ℕ}
    (hc : s.wal.durable ≤ c) :
    ∃ k, (replay γ (s.atPath c)).1 = (s.items.take k).map Item.entry ∧
      ∀ i x, s.items[i]? = some x → x.synced = true → i < k := by
  have hintact : Intact γ s := Run.invariant_of_guarded (P := Intact γ) (intact_start γ file)
    (fun u x u' => Intact.step) hok h
  obtain ⟨k, ps, hps⟩ := hintact.read hc
  exact ⟨k, by rw [hps.replay_eq, hps.holds], fun i x hx hsync => (hps.marked i x hx hsync).1⟩

/-! ### A run to read it on

The task `a` is appended and synced, the log is compacted, and the task `b` is appended and
synced. -/

/-- An entry is appended, and its `WaitSync` returns. -/
def shelved (e : LogEntry) (seq : ℕ) : List ShelfOp :=
  [.append e, .lead, .capture, .fsync true, .waitSync seq]

/-- A `Rewrite` that gets past the close of the temporary file. -/
def compacting : List ShelfOp :=
  [.create [.enqueue (.named "a")] true, .write none, .syncTemp true, .closeTemp true]

theorem rewrite_keeps_log_rename :
    ∃ s, Run.exec (Shelf.step plainCodec) (Shelf.start plainCodec [])
        (shelved (.enqueue (.named "a")) 1 ++ compacting ++ [.rename false] ++
          shelved (.enqueue (.named "b")) 2) = some s ∧
      s.items = [⟨1, .enqueue (.named "a"), true⟩, ⟨2, .enqueue (.named "b"), true⟩] ∧
      ∃ k, (replay plainCodec (s.atPath s.wal.durable)).1 = (s.items.take k).map Item.entry ∧
        ∀ i x, s.items[i]? = some x → x.synced = true → i < k := by
  have hend : (Run.exec (Shelf.step plainCodec) (Shelf.start plainCodec [])
      (shelved (.enqueue (.named "a")) 1 ++ compacting ++ [.rename false] ++
        shelved (.enqueue (.named "b")) 2)).map Shelf.items =
      some [⟨1, .enqueue (.named "a"), true⟩, ⟨2, .enqueue (.named "b"), true⟩] := by
    decide +kernel
  have hok : Run.Guarded (Shelf.step plainCodec) (fun _ x => x.Reopens plainCodec)
      (Shelf.start plainCodec [])
      (shelved (.enqueue (.named "a")) 1 ++ compacting ++ [.rename false] ++
        shelved (.enqueue (.named "b")) 2) := by
    decide +kernel
  obtain ⟨s, hs, hend⟩ := Option.map_eq_some_iff.mp hend
  exact ⟨s, hs, hend, rewrite_keeps_log hok hs le_rfl⟩

/-- **A `Rewrite` that cannot open the new file detaches the log.** The append of `b` succeeds,
and so does its `WaitSync`; but the file at the path, of which nothing is lost, holds `a`
only. -/
theorem detached_log_loses :
    ∃ s, Run.exec (Shelf.step plainCodec) (Shelf.start plainCodec [])
        (shelved (.enqueue (.named "a")) 1 ++ compacting ++ [.rename true, .openNew false] ++
          shelved (.enqueue (.named "b")) 2) = some s ∧
      s.items[1]? = some ⟨2, .enqueue (.named "b"), true⟩ ∧
      ∀ c, (replay plainCodec (s.atPath c)).1 = [.enqueue (.named "a")] := by
  have hend : (Run.exec (Shelf.step plainCodec) (Shelf.start plainCodec [])
      (shelved (.enqueue (.named "a")) 1 ++ compacting ++ [.rename true, .openNew false] ++
        shelved (.enqueue (.named "b")) 2)).map (fun s => (s.items[1]?,
          s.other.map fun file => (replay plainCodec file).1)) =
      some (some ⟨2, .enqueue (.named "b"), true⟩, some [.enqueue (.named "a")]) := by
    decide +kernel
  obtain ⟨s, hs, hend⟩ := Option.map_eq_some_iff.mp hend
  obtain ⟨hitem, hother⟩ := Prod.mk.inj hend
  obtain ⟨file, hfile, hread⟩ := Option.map_eq_some_iff.mp hother
  refine ⟨s, hs, hitem, fun c => ?_⟩
  rw [Shelf.atPath, hfile, Option.getD_some, hread]

end Wal

end DistQueue
