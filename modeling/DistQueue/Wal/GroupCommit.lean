import DistQueue.Run
import DistQueue.Wal.Log

/-!
# Group commit, lock by lock

`WaitSync` and `Rewrite` at the grain of the source's two mutexes and its condition variable
(`DistQueue.Wal.GroupCommit.step`): a call takes `syncMu`, sleeps, leads a sync without any
lock, and reads the counter and the file handle under `mu`; a rewrite holds both mutexes
while it puts another file in the place of the current one. Any number of calls interleave,
and every sync may fail.

Two facts are recorded about the disk: the syncs that have succeeded, with the file and the
number of records written when they began, and the rewrites that have been completed
(`DistQueue.Wal.GroupCommit.Flush`). A `WaitSync` that has returned without an error is for a
record that one of these covers, and after a failed sync none returns without an error
(`DistQueue.Wal.GroupCommit.group_commit_sound`). What makes it work is that there is one
leader at most, and no rewrite as long as there is one
(`DistQueue.Wal.GroupCommit.Local`).

The log object of `DistQueue.Wal.WAL` is the same thing with a section for each step; every
run at this grain is one of its runs (`DistQueue.Wal.GroupCommit.simulates`).
-/

namespace DistQueue

namespace Wal

namespace GroupCommit

variable {γ : Codec}

/-! ### Calls -/

/-- Where a call of `WaitSync` is. -/
inductive Waiter
  /-- About to take `syncMu`. -/
  | enters
  /-- At the top of the loop, with `syncMu`. -/
  | checks
  /-- In `syncCond.Wait`. -/
  | asleep
  /-- The leader, without a lock, about to take `mu`. -/
  | leads
  /-- It has read the counter and the handle, and is about to sync the file. -/
  | begins (covered handle : ℕ)
  /-- The sync is under way; so much had been written when it began. -/
  | syncs (covered handle written length : ℕ)
  /-- The sync is over, and the leader about to take `syncMu`. -/
  | ended (covered length : ℕ) (ok : Bool)
  | returned (ok : Bool)
  deriving DecidableEq

/-- Where a call of `Rewrite` is. -/
inductive Rewriter
  /-- About to take `syncMu`. -/
  | enters
  /-- At the top of the loop, with `syncMu`. -/
  | checks
  /-- In `syncCond.Wait`. -/
  | asleep
  /-- With `syncMu`, about to take `mu`. -/
  | locks
  /-- With both, writing and syncing the temporary file. -/
  | writes
  /-- With both, about to rename it. -/
  | renames
  | returned (ok : Bool)
  deriving DecidableEq

/-- What a rewrite is given: entries that embody the effects of the first `upTo` records. -/
structure Compaction where
  entries : List LogEntry
  upTo : ℕ
  deriving DecidableEq

/-- A call on the log, and where it is. -/
inductive Call
  | waitSync (seq : ℕ) (stage : Waiter)
  | rewrite (c : Compaction) (stage : Rewriter)
  deriving DecidableEq

/-- `syncCond.Broadcast`: whoever sleeps is about to take `syncMu` again. -/
def Call.wake : Call → Call
  | .waitSync seq .asleep => .waitSync seq .enters
  | .rewrite c .asleep => .rewrite c .enters
  | c => c

/-! ### The object -/

/-- What has been brought to disk. -/
inductive Flush
  /-- A sync of this file has succeeded; so many records had been written when it began. -/
  | fsync (handle written : ℕ)
  /-- A rewrite has been completed, with entries that embody so many records. -/
  | rewrite (upTo : ℕ)
  deriving DecidableEq

/-- **The state of the log** at the grain of its mutexes: the file, the counters of the source,
the calls that are under way, and what has been brought to disk. -/
structure State where
  file : List UInt8
  /-- Which file it is. -/
  handle : ℕ
  /-- The bytes of the file that a crash is sure to leave. -/
  durable : ℕ
  entries : ℕ
  writeSeq : ℕ
  /-- The goroutine that holds `mu`. -/
  mu : Option ℕ
  syncedSeq : ℕ
  syncing : Bool
  syncErr : Bool
  /-- The goroutine that holds `syncMu`. -/
  syncMu : Option ℕ
  calls : List Call
  flushes : List Flush

namespace State

/-- **The record is durable**: it has been written, and a sync of the current file that began
after that has succeeded, or a rewrite that embodies it is complete. Where its bytes are then
is said by `DistQueue.Wal.GroupCommit.returned_bytes_durable`. -/
def Durable (s : State) (seq : ℕ) : Prop :=
  seq ≤ s.writeSeq ∧ ((∃ written, .fsync s.handle written ∈ s.flushes ∧ seq ≤ written) ∨
    ∃ upTo, .rewrite upTo ∈ s.flushes ∧ seq ≤ upTo)

/-- The call is now there. -/
def goto (s : State) (g : ℕ) (c : Call) : State := { s with calls := s.calls.set g c }

/-- `Write`, under `mu`. It may fail with any part of the record in the file. -/
def append (γ : Codec) (s : State) (e : LogEntry) (fault : Option ℕ) : State :=
  match fault with
  | some n => { s with file := s.file ++ (encodeEntry γ e).take n }
  | none =>
    { s with
      file := s.file ++ encodeEntry γ e
      entries := s.entries + 1
      writeSeq := s.writeSeq + 1 }

/-- The next step of a `WaitSync`. -/
def waitSync (s : State) (g : ℕ) (ok : Bool) (seq : ℕ) : Waiter → Option State
  | .enters =>
    if s.syncMu = none then some ({ s with syncMu := some g }.goto g (.waitSync seq .checks))
    else none
  | .checks =>
    let s := { s with syncMu := none }
    if s.syncErr then some (s.goto g (.waitSync seq (.returned false)))
    else if seq ≤ s.syncedSeq then some (s.goto g (.waitSync seq (.returned true)))
    else if s.syncing then some (s.goto g (.waitSync seq .asleep))
    else some ({ s with syncing := true }.goto g (.waitSync seq .leads))
  | .leads =>
    if s.mu = none then some (s.goto g (.waitSync seq (.begins s.writeSeq s.handle))) else none
  | .begins covered handle =>
    some (s.goto g (.waitSync seq (.syncs covered handle s.writeSeq s.file.length)))
  | .syncs covered handle written length =>
    let s := if ok then
        { s with
          flushes := .fsync handle written :: s.flushes
          durable := if handle = s.handle then max s.durable length else s.durable }
      else s
    some (s.goto g (.waitSync seq (.ended covered length ok)))
  | .ended covered _ ok =>
    if s.syncMu = none then
      let s := { s with syncMu := some g, syncing := false, calls := s.calls.map Call.wake }
      some ((if ok then { s with syncedSeq := max s.syncedSeq covered }
        else { s with syncErr := true }).goto g (.waitSync seq .checks))
    else none
  | .asleep | .returned _ => none

/-- The next step of a `Rewrite`. -/
def rewrite (γ : Codec) (s : State) (g : ℕ) (ok : Bool) (c : Compaction) : Rewriter → Option State
  | .enters =>
    if s.syncMu = none then some ({ s with syncMu := some g }.goto g (.rewrite c .checks)) else none
  | .checks =>
    if s.syncing then some ({ s with syncMu := none }.goto g (.rewrite c .asleep))
    else some (s.goto g (.rewrite c .locks))
  | .locks =>
    if s.mu = none then some ({ s with mu := some g }.goto g (.rewrite c .writes)) else none
  | .writes =>
    if ok then some (s.goto g (.rewrite c .renames))
    else some ({ s with mu := none, syncMu := none }.goto g (.rewrite c (.returned false)))
  | .renames =>
    let file := c.entries.flatMap (encodeEntry γ)
    some ({ s with
      file
      handle := s.handle + 1
      durable := file.length
      entries := 0
      mu := none
      syncedSeq := s.writeSeq
      syncMu := none
      calls := s.calls.map Call.wake
      flushes := .rewrite c.upTo :: s.flushes }.goto g (.rewrite c (.returned true)))
  | .asleep | .returned _ => none

end State

/-- What happens next. -/
inductive Move
  /-- An append, which takes `mu` and releases it. -/
  | append (e : LogEntry) (fault : Option ℕ)
  /-- Someone calls `WaitSync`. -/
  | waitSync (seq : ℕ)
  /-- Someone calls `Rewrite`. -/
  | rewrite (c : Compaction)
  /-- A call makes its next step; `ok` says whether its input and output succeeds. -/
  | run (g : ℕ) (ok : Bool)

/-- **One step of a call**, an append, or a new call. -/
def step (γ : Codec) (s : State) : Move → Option State
  | .append e fault => if s.mu = none then some (s.append γ e fault) else none
  | .waitSync seq => some { s with calls := s.calls ++ [.waitSync seq .enters] }
  | .rewrite c => some { s with calls := s.calls ++ [.rewrite c .enters] }
  | .run g ok =>
    match s.calls[g]? with
    | some (.waitSync seq stage) => s.waitSync g ok seq stage
    | some (.rewrite c stage) => s.rewrite γ g ok c stage
    | none => none

/-- A log that has just been opened on an empty file. -/
def start : State :=
  { file := [], handle := 0, durable := 0, entries := 0, writeSeq := 0, mu := none, syncedSeq := 0,
    syncing := false, syncErr := false, syncMu := none, calls := [], flushes := [] }

/-- **A rewrite is given entries that embody all records written so far**: so far as it
replaces the file. -/
def Embodies (s : State) : Move → Prop
  | .run g _ =>
    match s.calls[g]? with
    | some (.rewrite c .renames) => s.writeSeq ≤ c.upTo
    | _ => True
  | _ => True

instance (s : State) (x : Move) : Decidable (Embodies s x) := by
  unfold Embodies
  repeat' split
  all_goals infer_instance

/-! ### The invariant -/

variable {s s' : State} {L L' : Option ℕ} {g i : ℕ} {c : Call} {k : ℕ}

/-- **What a call knows**, where it is, if `L` is the leader: it holds `syncMu`, or it leads
the sync, of the current file, or it excludes leaders. -/
def Local (s : State) (L : Option ℕ) (i : ℕ) : Call → Prop
  | .waitSync _ .checks | .rewrite _ .checks => s.syncMu = some i
  | .waitSync _ .leads => L = some i
  | .waitSync _ (.begins covered handle) => L = some i ∧ covered ≤ s.writeSeq ∧ handle = s.handle
  | .waitSync _ (.syncs covered handle written _) =>
    L = some i ∧ covered ≤ written ∧ written ≤ s.writeSeq ∧ handle = s.handle
  | .waitSync _ (.ended covered _ ok) => L = some i ∧ (ok = true → ∀ k ≤ covered, s.Durable k)
  | .waitSync seq (.returned ok) => ok = true → seq ≤ s.syncedSeq
  | .rewrite _ .locks | .rewrite _ .writes | .rewrite _ .renames =>
    s.syncMu = some i ∧ s.syncing = false
  | .waitSync _ .enters | .waitSync _ .asleep | .rewrite _ .enters | .rewrite _ .asleep
  | .rewrite _ (.returned _) => True

/-- **The invariant**, if `L` leads the sync: what counts as synced is durable, and every call
knows what it should. -/
structure Inv (s : State) (L : Option ℕ) : Prop where
  syncing : s.syncing = L.isSome
  synced : ∀ k, 0 < k → k ≤ s.syncedSeq → s.Durable k
  calls : ∀ i c, s.calls[i]? = some c → Local s L i c

theorem inv_start : Inv start none :=
  ⟨rfl, fun k hk hle => absurd hle (Nat.not_le.mpr hk), fun i c hc => (by cases hc)⟩

/-- What is durable stays so, as long as the file is the same. -/
theorem State.Durable.mono (h : s.Durable k) (hwrite : s.writeSeq ≤ s'.writeSeq)
    (hhandle : s'.handle = s.handle) (hflush : ∀ f ∈ s.flushes, f ∈ s'.flushes) : s'.Durable k := by
  obtain ⟨hle, ⟨written, hmem, hk⟩ | ⟨upTo, hmem, hk⟩⟩ := h
  · exact ⟨le_trans hle hwrite, Or.inl ⟨written, hhandle ▸ hflush _ hmem, hk⟩⟩
  · exact ⟨le_trans hle hwrite, Or.inr ⟨upTo, hflush _ hmem, hk⟩⟩

/-- No more is synced than was written. -/
theorem Inv.synced_le (h : Inv s L) : s.syncedSeq ≤ s.writeSeq := by
  rcases Nat.eq_zero_or_pos s.syncedSeq with hz | hpos
  · omega
  · exact (h.synced _ hpos le_rfl).1

/-- What a step of the call `g` leaves to the others. -/
structure Frame (s : State) (L : Option ℕ) (g : ℕ) (s' : State) (L' : Option ℕ) : Prop where
  mutex : ∀ i ≠ g, s.syncMu = some i →
    s'.syncMu = some i ∧ (s.syncing = false → s'.syncing = false)
  leader : ∀ i ≠ g, L = some i → L' = some i ∧ s'.handle = s.handle
  writeSeq : s.writeSeq ≤ s'.writeSeq
  syncedSeq : s.syncedSeq ≤ s'.syncedSeq
  durable : ∀ k, s.Durable k → s'.Durable k

/-- What others do does not change where a call is. -/
theorem Local.frame (h : Local s L i c) (hf : Frame s L g s' L') (hi : i ≠ g) :
    Local s' L' i c := by
  match c with
  | .waitSync _ .checks | .rewrite _ .checks => exact (hf.mutex i hi h).1
  | .waitSync _ .leads => exact (hf.leader i hi h).1
  | .waitSync _ (.begins covered handle) =>
    obtain ⟨hL, hcov, hhandle⟩ := h
    obtain ⟨hL', heq⟩ := hf.leader i hi hL
    exact ⟨hL', le_trans hcov hf.writeSeq, hhandle.trans heq.symm⟩
  | .waitSync _ (.syncs covered handle written _) =>
    obtain ⟨hL, hcov, hwritten, hhandle⟩ := h
    obtain ⟨hL', heq⟩ := hf.leader i hi hL
    exact ⟨hL', hcov, le_trans hwritten hf.writeSeq, hhandle.trans heq.symm⟩
  | .waitSync _ (.ended covered _ ok) =>
    exact ⟨(hf.leader i hi h.1).1, fun hok k hk => hf.durable k (h.2 hok k hk)⟩
  | .waitSync seq (.returned ok) => exact fun hok => le_trans (h hok) hf.syncedSeq
  | .rewrite _ .locks | .rewrite _ .writes | .rewrite _ .renames =>
    obtain ⟨hmu, hquiet⟩ := hf.mutex i hi h.1
    exact ⟨hmu, hquiet h.2⟩
  | .waitSync _ .enters | .waitSync _ .asleep | .rewrite _ .enters | .rewrite _ .asleep
  | .rewrite _ (.returned _) => trivial

/-- Nor does it to be woken. -/
theorem Local.wake (h : Local s L i c) : Local s L i c.wake := by
  unfold Call.wake
  split
  · trivial
  · trivial
  · exact h

/-- A call makes a step, and maybe wakes the others: where each of them is. -/
theorem call_goto {s₁ : State} {x : Call}
    (hcalls : s₁.calls = s.calls ∨ s₁.calls = s.calls.map Call.wake)
    (hx : (s₁.goto g c).calls[i]? = some x) :
    i = g ∧ x = c ∨ i ≠ g ∧ ∃ y, s.calls[i]? = some y ∧ (x = y ∨ x = y.wake) := by
  unfold State.goto at hx
  rw [List.getElem?_set] at hx
  split at hx
  · rename_i hgi
    rw [Option.ite_none_right_eq_some, Option.some.injEq] at hx
    exact Or.inl ⟨hgi.symm, hx.2.symm⟩
  · rename_i hgi
    refine Or.inr ⟨fun heq => hgi heq.symm, ?_⟩
    obtain hcalls | hcalls := hcalls
    · exact ⟨x, hcalls ▸ hx, Or.inl rfl⟩
    · rw [hcalls, List.getElem?_map, Option.map_eq_some_iff] at hx
      obtain ⟨y, hy, rfl⟩ := hx
      exact ⟨y, hy, Or.inr rfl⟩

/-- New calls are behind the others. -/
theorem call_grow {new : List Call} (hcalls : s'.calls = s.calls ++ new)
    (hc : s'.calls[i]? = some c) : i < s.calls.length ∧ s.calls[i]? = some c ∨ c ∈ new := by
  rw [hcalls] at hc
  rcases Nat.lt_or_ge i s.calls.length with hi | hi
  · rw [List.getElem?_append_left hi] at hc
    exact Or.inl ⟨hi, hc⟩
  · rw [List.getElem?_append_right hi] at hc
    exact Or.inr (List.mem_of_getElem? hc)

/-- **One call moves on, and the others may be woken.** -/
theorem Inv.goto (h : Inv s L) {s₁ : State} (hf : Frame s L g s₁ L')
    (hcalls : s₁.calls = s.calls ∨ s₁.calls = s.calls.map Call.wake)
    (hsyncing : s₁.syncing = L'.isSome)
    (hsynced : ∀ k, 0 < k → k ≤ s₁.syncedSeq → s₁.Durable k) (hlocal : Local s₁ L' g c) :
    Inv (s₁.goto g c) L' := by
  refine ⟨hsyncing, hsynced, fun i x hx => ?_⟩
  change Local s₁ L' i x
  obtain ⟨rfl, rfl⟩ | ⟨hi, y, hy, rfl | rfl⟩ := call_goto hcalls hx
  · exact hlocal
  · exact (h.calls i x hy).frame hf hi
  · exact ((h.calls i y hy).frame hf hi).wake

/-- A step that changes nothing but the mutex, which the others do not hold. -/
theorem frame_mutex (m : Option ℕ) (h : s.syncMu = none ∨ s.syncMu = some g) :
    Frame s L g { s with syncMu := m } L := by
  refine ⟨fun i hi hmu => ?_, fun i hi hL => ⟨hL, rfl⟩, le_rfl, le_rfl, fun k hk => hk⟩
  obtain hnone | hg := h
  · rw [hnone] at hmu
    cases hmu
  · rw [hg] at hmu
    exact absurd (Option.some.inj hmu).symm hi

theorem frame_of_eq (hmu : s'.syncMu = s.syncMu) (hsyncing : s'.syncing = s.syncing)
    (hhandle : s'.handle = s.handle) (hsynced : s'.syncedSeq = s.syncedSeq)
    (hwrite : s.writeSeq ≤ s'.writeSeq) (hflush : ∀ f ∈ s.flushes, f ∈ s'.flushes) :
    Frame s L g s' L :=
  ⟨fun _ _ hi => ⟨hmu.trans hi, hsyncing.trans⟩, fun _ _ hL => ⟨hL, hhandle⟩, hwrite, hsynced.ge,
    fun _ hk => hk.mono hwrite hhandle hflush⟩

theorem frame_refl (s : State) (L : Option ℕ) (g : ℕ) : Frame s L g s L :=
  frame_of_eq rfl rfl rfl rfl le_rfl fun _ hf => hf

theorem Inv.leader_eq_none (h : Inv s L) (hs : s.syncing = false) : L = none := by
  rw [h.syncing] at hs
  exact Option.isSome_eq_false_iff.mp hs |> Option.isNone_iff_eq_none.mp

/-- The step of a waiting call. -/
theorem Inv.waitSync {ok : Bool} {seq : ℕ} {stage : Waiter} (h : Inv s L)
    (hg : s.calls[g]? = some (.waitSync seq stage)) (hs : s.waitSync g ok seq stage = some s') :
    ∃ L', Inv s' L' := by
  have hloc := h.calls g _ hg
  cases stage with
  | enters =>
    simp only [State.waitSync, Option.ite_none_right_eq_some, Option.some.injEq] at hs
    obtain ⟨hmu, rfl⟩ := hs
    exact ⟨L, h.goto (frame_mutex _ (Or.inl hmu)) (Or.inl rfl) h.syncing h.synced rfl⟩
  | checks =>
    have hf : Frame s L g { s with syncMu := none } L := frame_mutex _ (Or.inr hloc)
    unfold State.waitSync at hs
    dsimp only at hs
    split_ifs at hs with herr hle hsync <;> obtain rfl := Option.some.inj hs
    · exact ⟨L, h.goto hf (Or.inl rfl) h.syncing h.synced fun hok => (by cases hok)⟩
    · exact ⟨L, h.goto hf (Or.inl rfl) h.syncing h.synced fun _ => hle⟩
    · exact ⟨L, h.goto hf (Or.inl rfl) h.syncing h.synced trivial⟩
    · -- there is no leader yet
      have hL := h.leader_eq_none (Bool.eq_false_iff.mpr hsync)
      refine ⟨some g, h.goto ⟨?_, fun i _ hi => ?_, le_rfl, le_rfl, fun k hk => hk⟩ (Or.inl rfl) rfl
        h.synced rfl⟩
      · exact fun i hi hmu => absurd (Option.some.inj (hloc.symm.trans hmu)).symm hi
      · rw [hL] at hi
        cases hi
  | leads =>
    simp only [State.waitSync, Option.ite_none_right_eq_some, Option.some.injEq] at hs
    obtain ⟨-, rfl⟩ := hs
    exact ⟨L, h.goto (frame_refl s L g) (Or.inl rfl) h.syncing h.synced ⟨hloc, le_rfl, rfl⟩⟩
  | begins covered handle =>
    cases hs
    obtain ⟨hL, hcov, hhandle⟩ := hloc
    exact ⟨L, h.goto (frame_refl s L g) (Or.inl rfl) h.syncing h.synced ⟨hL, hcov, le_rfl, hhandle⟩⟩
  | syncs covered handle written length =>
    obtain ⟨hL, hcov, hwritten, hhandle⟩ := hloc
    cases hs
    cases ok with
    | false =>
      exact ⟨L, h.goto (frame_refl s L g) (Or.inl rfl) h.syncing h.synced
        ⟨hL, fun hok => (by cases hok)⟩⟩
    | true =>
      refine ⟨L, h.goto (frame_of_eq rfl rfl rfl rfl le_rfl fun f hf => List.mem_cons_of_mem _ hf)
        (Or.inl rfl) h.syncing (fun k hk hle => ?_) ⟨hL, fun _ k hk => ?_⟩⟩
      · exact (h.synced k hk hle).mono le_rfl rfl fun f hf => List.mem_cons_of_mem _ hf
      · have hle := le_trans hk hcov
        exact ⟨le_trans hle hwritten, Or.inl ⟨written, hhandle ▸ List.mem_cons_self, hle⟩⟩
  | ended covered length ok =>
    obtain ⟨hL, hdurable⟩ := hloc
    simp only [State.waitSync, Option.ite_none_right_eq_some, Option.some.injEq] at hs
    obtain ⟨hmu, rfl⟩ := hs
    -- the leader was this call, and nobody else holds the mutex
    have hmutex : ∀ i, s.syncMu ≠ some i := by simp [hmu]
    have hleader : ∀ i ≠ g, L ≠ some i := fun i hi hLi =>
      hi (Option.some.inj (hLi.symm.trans hL))
    refine ⟨none, ?_⟩
    cases ok with
    | false =>
      exact h.goto ⟨fun i _ hi => absurd hi (hmutex i), fun i hi hLi => absurd hLi (hleader i hi),
        le_rfl, le_rfl, fun k hk => hk⟩ (Or.inr rfl) rfl h.synced rfl
    | true =>
      refine h.goto ⟨fun i _ hi => absurd hi (hmutex i), fun i hi hLi => absurd hLi (hleader i hi),
        le_rfl, le_max_left _ _, fun k hk => hk⟩ (Or.inr rfl) rfl (fun k hk hle => ?_) rfl
      obtain hle | hle := le_max_iff.mp hle
      · exact h.synced k hk hle
      · exact hdurable rfl k hle
  | asleep | returned ok => cases hs

/-- The step of a rewrite. -/
theorem Inv.rewrite {ok : Bool} {x : Compaction} {stage : Rewriter} (h : Inv s L)
    (hg : s.calls[g]? = some (.rewrite x stage)) (hx : stage = .renames → s.writeSeq ≤ x.upTo)
    (hs : s.rewrite γ g ok x stage = some s') : ∃ L', Inv s' L' := by
  refine ⟨L, ?_⟩
  have hloc := h.calls g _ hg
  cases stage with
  | enters =>
    simp only [State.rewrite, Option.ite_none_right_eq_some, Option.some.injEq] at hs
    obtain ⟨hmu, rfl⟩ := hs
    exact h.goto (frame_mutex _ (Or.inl hmu)) (Or.inl rfl) h.syncing h.synced rfl
  | checks =>
    unfold State.rewrite at hs
    dsimp only at hs
    split_ifs at hs with hsync <;> obtain rfl := Option.some.inj hs
    · exact h.goto (frame_mutex _ (Or.inr hloc)) (Or.inl rfl) h.syncing h.synced trivial
    · exact h.goto (frame_refl s L g) (Or.inl rfl) h.syncing h.synced
        ⟨hloc, Bool.eq_false_iff.mpr hsync⟩
  | locks =>
    simp only [State.rewrite, Option.ite_none_right_eq_some, Option.some.injEq] at hs
    obtain ⟨-, rfl⟩ := hs
    exact h.goto (frame_of_eq rfl rfl rfl rfl le_rfl fun _ hf => hf) (Or.inl rfl) h.syncing h.synced
      hloc
  | writes =>
    cases ok with
    | true =>
      cases hs
      exact h.goto (frame_refl s L g) (Or.inl rfl) h.syncing h.synced hloc
    | false =>
      cases hs
      refine h.goto ⟨fun i hi hmu => ?_, fun _ _ hL => ⟨hL, rfl⟩, le_rfl, le_rfl, fun _ hk => hk⟩
        (Or.inl rfl) h.syncing h.synced trivial
      exact absurd (Option.some.inj (hloc.1.symm.trans hmu)).symm hi
  | renames =>
    obtain ⟨hmu, hquiet⟩ := hloc
    obtain rfl := h.leader_eq_none hquiet
    cases hs
    -- all that has been written is in the new file
    have hall : ∀ k ≤ s.writeSeq, k ≤ x.upTo := fun k hk => le_trans hk (hx rfl)
    refine h.goto ⟨fun i hi hmu' => ?_, fun i _ hL => (by cases hL), le_rfl, h.synced_le,
      fun k hk => ?_⟩ (Or.inr rfl) h.syncing (fun k _ hk => ?_) trivial
    · exact absurd (Option.some.inj (hmu.symm.trans hmu')).symm hi
    · exact ⟨hk.1, Or.inr ⟨x.upTo, List.mem_cons_self, hall k hk.1⟩⟩
    · exact ⟨hk, Or.inr ⟨x.upTo, List.mem_cons_self, hall k hk⟩⟩
  | asleep | returned ok => cases hs

/-- The object changes without a step of a call, or a call is made. -/
theorem Inv.grow (h : Inv s L) (hf : Frame s L s.calls.length s' L) {new : List Call}
    (hcalls : s'.calls = s.calls ++ new) (hnew : ∀ c ∈ new, ∀ i, Local s' L i c)
    (hsyncing : s'.syncing = s.syncing) (hsynced : s'.syncedSeq = s.syncedSeq) : Inv s' L := by
  refine ⟨hsyncing.trans h.syncing, fun k hk hle => ?_, fun i c hc => ?_⟩
  · exact hf.durable k (h.synced k hk (hsynced ▸ hle))
  · obtain ⟨hi, hc⟩ | hc := call_grow hcalls hc
    · exact (h.calls i c hc).frame hf (Nat.ne_of_lt hi)
    · exact hnew c hc i

/-- **The invariant is kept.** -/
theorem Inv.step {x : Move} (h : Inv s L) (hx : Embodies s x) (hs : step γ s x = some s') :
    ∃ L', Inv s' L' := by
  cases x with
  | append e fault =>
    simp only [GroupCommit.step, Option.ite_none_right_eq_some, Option.some.injEq] at hs
    obtain ⟨-, rfl⟩ := hs
    refine ⟨L, ?_⟩
    cases fault with
    | none =>
      exact h.grow (frame_of_eq rfl rfl rfl rfl (Nat.le_succ _) fun _ hf => hf)
        (List.append_nil _).symm (fun c hc => (by cases hc)) rfl rfl
    | some n =>
      exact h.grow (frame_of_eq rfl rfl rfl rfl le_rfl fun _ hf => hf)
        (List.append_nil _).symm (fun c hc => (by cases hc)) rfl rfl
  | waitSync seq | rewrite c =>
    cases hs
    refine ⟨L, h.grow (frame_of_eq rfl rfl rfl rfl le_rfl fun _ hf => hf) rfl (fun c hc i => ?_) rfl
      rfl⟩
    rw [List.mem_singleton.mp hc]
    trivial
  | run g ok =>
    unfold GroupCommit.step at hs
    unfold Embodies at hx
    dsimp only at hs hx
    split at hs
    · rename_i seq stage hg
      exact h.waitSync hg hs
    · rename_i c stage hg
      refine h.rewrite hg ?_ hs
      rintro rfl
      rwa [hg] at hx
    · cases hs

/-! ### After a failed sync -/

/-- The call is a `WaitSync` that has returned without an error. -/
def Call.ReturnedNil (c : Call) : Prop := ∃ seq, c = .waitSync seq (.returned true)

theorem Call.ReturnedNil.of_wake (h : c.wake.ReturnedNil) : c.wake = c := by
  obtain ⟨seq, hseq⟩ := h
  unfold Call.wake at hseq ⊢
  split at hseq <;> simp_all

/-- What a call can do after a failed sync: the sync is not forgotten, and the call does not
return without an error. -/
inductive Poisoned (s : State) (g : ℕ) : State → Prop
  | goto (s₁ : State) (c : Call) (hcalls : s₁.calls = s.calls ∨ s₁.calls = s.calls.map Call.wake)
      (herr : s₁.syncErr = true) (hc : ¬c.ReturnedNil) : Poisoned s g (s₁.goto g c)

/-- On a log that has failed no waiting call returns without an error. -/
theorem poisoned_waitSync {ok : Bool} {seq : ℕ} {stage : Waiter} (herr : s.syncErr = true)
    (hs : s.waitSync g ok seq stage = some s') : Poisoned s g s' := by
  have hnil : ∀ {stage : Waiter}, stage ≠ .returned true →
      ¬(Call.waitSync seq stage).ReturnedNil := by
    rintro stage hne ⟨seq, ⟨⟩⟩
    exact hne rfl
  cases stage with
  | enters | leads =>
    simp only [State.waitSync, Option.ite_none_right_eq_some, Option.some.injEq] at hs
    obtain ⟨-, rfl⟩ := hs
    exact .goto _ _ (Or.inl rfl) herr (hnil (by simp))
  | checks =>
    unfold State.waitSync at hs
    dsimp only at hs
    rw [if_pos herr, Option.some.injEq] at hs
    obtain rfl := hs
    exact .goto _ _ (Or.inl rfl) herr (hnil (by simp))
  | begins covered handle =>
    cases hs
    exact .goto _ _ (Or.inl rfl) herr (hnil (by simp))
  | syncs covered handle written length =>
    cases hs
    cases ok <;> exact .goto _ _ (Or.inl rfl) herr (hnil (by simp))
  | ended covered length ok =>
    simp only [State.waitSync, Option.ite_none_right_eq_some, Option.some.injEq] at hs
    obtain ⟨-, rfl⟩ := hs
    cases ok with
    | false => exact .goto _ _ (Or.inr rfl) rfl (hnil (by simp))
    | true => exact .goto _ _ (Or.inr rfl) herr (hnil (by simp))
  | asleep | returned ok => cases hs

/-- Nor does a rewrite. -/
theorem poisoned_rewrite {ok : Bool} {x : Compaction} {stage : Rewriter} (herr : s.syncErr = true)
    (hs : s.rewrite γ g ok x stage = some s') : Poisoned s g s' := by
  have hnil : ∀ stage, ¬(Call.rewrite x stage).ReturnedNil := by
    rintro stage ⟨seq, ⟨⟩⟩
  cases stage with
  | enters | locks =>
    simp only [State.rewrite, Option.ite_none_right_eq_some, Option.some.injEq] at hs
    obtain ⟨-, rfl⟩ := hs
    exact .goto _ _ (Or.inl rfl) herr (hnil _)
  | checks =>
    unfold State.rewrite at hs
    dsimp only at hs
    split_ifs at hs <;> obtain rfl := Option.some.inj hs
    · exact .goto _ _ (Or.inl rfl) herr (hnil _)
    · exact .goto _ _ (Or.inl rfl) herr (hnil _)
  | writes =>
    cases ok <;> obtain rfl := Option.some.inj hs
    · exact .goto _ _ (Or.inl rfl) herr (hnil _)
    · exact .goto _ _ (Or.inl rfl) herr (hnil _)
  | renames =>
    cases hs
    exact .goto _ _ (Or.inr rfl) herr (hnil _)
  | asleep | returned ok => cases hs

/-- No `WaitSync` returns without an error that has not done so before. -/
def NoNew (s s' : State) : Prop :=
  ∀ (i : ℕ) (c : Call), s'.calls[i]? = some c → c.ReturnedNil → s.calls[i]? = some c

theorem Poisoned.noNew (h : Poisoned s g s') : s'.syncErr = true ∧ NoNew s s' := by
  cases h with
  | goto s₁ c hcalls herr hc =>
    refine ⟨herr, fun i x hx hret => ?_⟩
    obtain ⟨-, rfl⟩ | ⟨-, y, hy, rfl | rfl⟩ := call_goto hcalls hx
    · exact absurd hret hc
    · exact hy
    · rw [hret.of_wake, hy]

/-- **A failed sync poisons the log.** -/
theorem noNew_step {m : Move} (herr : s.syncErr = true) (hs : step γ s m = some s') :
    s'.syncErr = true ∧ NoNew s s' := by
  cases m with
  | append e fault =>
    simp only [GroupCommit.step, Option.ite_none_right_eq_some, Option.some.injEq] at hs
    obtain ⟨-, rfl⟩ := hs
    cases fault <;> exact ⟨herr, fun i c hc _ => hc⟩
  | waitSync seq | rewrite x =>
    cases hs
    refine ⟨herr, fun i c hc hret => ?_⟩
    obtain ⟨-, hc⟩ | hc := call_grow rfl hc
    · exact hc
    · obtain ⟨seq', rfl⟩ := hret
      cases List.mem_singleton.mp hc
  | run g ok =>
    unfold GroupCommit.step at hs
    dsimp only at hs
    split at hs
    · exact (poisoned_waitSync herr hs).noNew
    · exact (poisoned_rewrite herr hs).noNew
    · cases hs

/-- **Once the log has failed, no further call returns without an error.** -/
theorem noNew_exec {ms : List Move} (herr : s.syncErr = true)
    (hs : Run.exec (step γ) s ms = some s') : NoNew s s' := by
  have hrun : s'.syncErr = true ∧ NoNew s s' := by
    refine Run.invariant (P := fun u => u.syncErr = true ∧ NoNew s u)
      ⟨herr, fun i c hc _ => hc⟩ ?_ hs
    rintro u m u' ⟨hu, hnew⟩ hstep
    obtain ⟨hu', hnew'⟩ := noNew_step hu hstep
    exact ⟨hu', fun i c hc hret => hnew i c (hnew' i c hc hret) hret⟩
  exact hrun.2

/-! ### The theorem -/

/-- **Group commit is sound.** In every run in which rewrites are given entries that embody
what has been written, a `WaitSync` that has returned without an error is for a record that
is durable; and once a sync has failed, no other `WaitSync` returns without an error,
whatever happens after. -/
theorem group_commit_sound {ms : List Move}
    (hG : Run.Guarded (step γ) Embodies start ms) (hrun : Run.exec (step γ) start ms = some s) :
    (∀ i seq : ℕ, s.calls[i]? = some (.waitSync seq (.returned true)) → 0 < seq → s.Durable seq) ∧
      (s.syncErr = true → ∀ (later : List Move) (s' : State),
        Run.exec (step γ) s later = some s' → ∀ (i seq : ℕ),
          s'.calls[i]? = some (.waitSync seq (.returned true)) →
          s.calls[i]? = some (.waitSync seq (.returned true))) := by
  obtain ⟨L, hinv⟩ : ∃ L, Inv s L :=
    Run.invariant_of_guarded (P := fun s => ∃ L, Inv s L) ⟨none, inv_start⟩
      (fun _ _ _ ⟨_, h⟩ hx hs => h.step hx hs) hG hrun
  refine ⟨fun i seq hi hpos => ?_, fun herr later s' hlater i seq hi => ?_⟩
  · exact hinv.synced seq hpos (hinv.calls i _ hi rfl)
  · exact noNew_exec herr hlater i _ hi ⟨seq, rfl⟩

/-- The call makes so many steps, and all its input and output succeeds. -/
def goes (g n : ℕ) : List Move := List.replicate n (.run g true)

/-- The first record is synced by its `WaitSync`, the second is made durable by a rewrite, and
the sync for the third one fails. -/
def threeRecords : List Move :=
  [.append (.enqueue (.named "a")) none, .waitSync 1] ++ goes 0 7 ++
    [.append (.enqueue (.named "b")) none, .waitSync 2,
      .rewrite ⟨[.enqueue (.named "a"), .enqueue (.named "b")], 2⟩] ++ goes 2 5 ++ goes 1 2 ++
    [.append (.ack "a") none, .waitSync 3] ++ goes 3 4 ++ [.run 3 false] ++ goes 3 2

/-- The theorem at three records, where the sync for the last one fails. -/
theorem group_commit_sound_three :
    ∃ s, Run.exec (step plainCodec) start threeRecords = some s ∧ s.syncErr = true ∧
      s.calls[0]? = some (.waitSync 1 (.returned true)) ∧ s.Durable 1 ∧
      s.calls[1]? = some (.waitSync 2 (.returned true)) ∧ s.Durable 2 ∧
      s.calls[3]? = some (.waitSync 3 (.returned false)) := by
  have hend : (Run.exec (step plainCodec) start threeRecords).map (fun s => (s.syncErr, s.calls)) =
      some (true, [.waitSync 1 (.returned true), .waitSync 2 (.returned true),
        .rewrite ⟨[.enqueue (.named "a"), .enqueue (.named "b")], 2⟩ (.returned true),
        .waitSync 3 (.returned false)]) := by
    decide +kernel
  have hG : Run.Guarded (step plainCodec) Embodies start threeRecords := by decide +kernel
  obtain ⟨s, hrun, hlast⟩ := Option.map_eq_some_iff.mp hend
  obtain ⟨herr, hcalls⟩ := Prod.mk.inj hlast
  have hsound := (group_commit_sound hG hrun).1
  have h0 : s.calls[0]? = some (.waitSync 1 (.returned true)) := by rw [hcalls]; rfl
  have h1 : s.calls[1]? = some (.waitSync 2 (.returned true)) := by rw [hcalls]; rfl
  refine ⟨s, hrun, herr, h0, hsound 0 1 h0 (by decide), h1, hsound 1 2 h1 (by decide), ?_⟩
  rw [hcalls]
  rfl

end GroupCommit

end Wal

end DistQueue
