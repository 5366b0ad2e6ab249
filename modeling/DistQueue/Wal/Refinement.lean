import DistQueue.Wal.Durable
import DistQueue.Wal.GroupCommit
import Mathlib.Logic.Relation

/-!
# The sections of the log object

The log object `DistQueue.Wal.WAL` makes one step for each section under a lock. Here it is
compared with the calls and mutexes of `DistQueue.Wal.GroupCommit.step`: a run of these is a
run of the object (`DistQueue.Wal.GroupCommit.simulates`), with the same file, the same
counters, and no more of the file known to be durable. The steps that take a mutex, sleep, or
wait for the disk are no steps of the object, and a sync leader's state is the object's
(`DistQueue.Wal.GroupCommit.Leads`).

Of the object it is plain which part of its file a sync makes durable
(`DistQueue.Wal.HoldsBytes`), and by the simulation a `WaitSync` that has returned without an
error is for a record whose bytes are in the durable part of the file
(`DistQueue.Wal.GroupCommit.returned_bytes_durable`).
-/

namespace DistQueue

namespace Wal

variable {γ : Codec} {w w' : WAL} {E E' : List LogEntry → Prop} {e : LogEntry} {seq : ℕ}

/-- One section of the log object. A rewrite is given entries of which `E` holds. -/
inductive Section (γ : Codec) (E : List LogEntry → Prop) (w : WAL) : WAL → Prop
  | append (e : LogEntry) (fault : Option ℕ) : Section γ E w (w.append γ e fault).1
  | lead {w' : WAL} (h : w.lead = some w') : Section γ E w w'
  | capture {w' : WAL} (h : w.capture = some w') : Section γ E w w'
  | fsynced {w' : WAL} (ok : Bool) (h : w.fsynced ok = some w') : Section γ E w w'
  | rewrite {w' : WAL} (es : List LogEntry) (hes : E es) (h : w.rewrite γ es = some w') :
    Section γ E w w'

theorem Section.mono (h : Section γ E w w') (hE : ∀ es, E es → E' es) : Section γ E' w w' := by
  cases h with
  | append e fault => exact .append e fault
  | lead h => exact .lead h
  | capture h => exact .capture h
  | fsynced ok h => exact .fsynced ok h
  | rewrite es hes h => exact .rewrite es (hE es hes) h

/-! ### Bytes in the file -/

/-- The counters are those of records that have been written. -/
structure Counted (w : WAL) : Prop where
  synced_le : w.syncedSeq ≤ w.writeSeq
  covered_le : ∀ covered length, w.syncing = .fsync covered length → covered ≤ w.writeSeq

theorem Counted.of_section (h : Counted w) (hsec : Section γ E w w') : Counted w' := by
  cases hsec with
  | append e fault =>
    cases fault with
    | none =>
      exact ⟨Nat.le_succ_of_le h.synced_le, fun c l hs => Nat.le_succ_of_le (h.covered_le c l hs)⟩
    | some n => exact ⟨h.synced_le, h.covered_le⟩
  | lead hw =>
    rw [lead_eq hw]
    exact ⟨h.synced_le, fun _ _ hs => (by cases hs)⟩
  | capture hw =>
    rw [capture_eq hw]
    refine ⟨h.synced_le, ?_⟩
    rintro covered length ⟨⟩
    exact le_rfl
  | fsynced ok hw =>
    unfold WAL.fsynced at hw
    split at hw
    · rename_i covered length hs
      cases hw
      cases ok with
      | false => exact ⟨h.synced_le, fun _ _ hs => (by cases hs)⟩
      | true =>
        exact ⟨max_le h.synced_le (h.covered_le covered length hs), fun _ _ hs => (by cases hs)⟩
    · cases hw
  | rewrite es hes hw =>
    obtain ⟨hidle, rfl⟩ := rewrite_eq hw
    exact ⟨le_rfl, fun _ _ hs => (by rw [hidle] at hs; cases hs)⟩

/-- **The file begins with these bytes**, and they are durable once the record is synced. -/
structure HoldsBytes (bytes : List UInt8) (seq : ℕ) (w : WAL) : Prop where
  file : bytes <+: w.file
  seq_le : seq ≤ w.writeSeq
  synced : seq ≤ w.syncedSeq → bytes.length ≤ w.durable
  fsync : ∀ covered length, w.syncing = .fsync covered length → seq ≤ covered →
    bytes.length ≤ length

variable {bytes : List UInt8}

/-- A record is written, and nothing has been synced that comes after it. -/
theorem Counted.holdsBytes_append (h : Counted w) (e : LogEntry) :
    HoldsBytes (w.file ++ encodeEntry γ e) (w.writeSeq + 1) (w.append γ e none).1 where
  file := List.prefix_refl _
  seq_le := le_rfl
  synced hs := absurd (le_trans hs h.synced_le) (Nat.not_succ_le_self _)
  fsync covered length hs hc :=
    absurd (le_trans hc (h.covered_le covered length hs)) (Nat.not_succ_le_self _)

/-- **Every section keeps the bytes where they are**, unless it puts another file in the
place of the current one, all of which is durable. -/
theorem HoldsBytes.of_section (h : HoldsBytes bytes seq w) (hsec : Section γ E w w') :
    HoldsBytes bytes seq w' ∨ ∃ es, E es ∧ HoldsBytes (image γ es) seq w' := by
  cases hsec with
  | append e fault =>
    cases fault with
    | none =>
      exact .inl ⟨h.file.trans (List.prefix_append _ _), Nat.le_succ_of_le h.seq_le, h.synced,
        h.fsync⟩
    | some n => exact .inl ⟨h.file.trans (List.prefix_append _ _), h.seq_le, h.synced, h.fsync⟩
  | lead hw =>
    rw [lead_eq hw]
    exact .inl ⟨h.file, h.seq_le, h.synced, fun _ _ hs => (by cases hs)⟩
  | capture hw =>
    rw [capture_eq hw]
    refine .inl ⟨h.file, h.seq_le, h.synced, ?_⟩
    rintro covered length ⟨⟩ -
    exact h.file.length_le
  | fsynced ok hw =>
    unfold WAL.fsynced at hw
    split at hw
    · rename_i covered length hs
      cases hw
      cases ok with
      | false => exact .inl ⟨h.file, h.seq_le, h.synced, fun _ _ hs => (by cases hs)⟩
      | true =>
        refine .inl ⟨h.file, h.seq_le, fun hle => ?_, fun _ _ hs => (by cases hs)⟩
        obtain hle | hle := le_max_iff.mp hle
        · exact le_trans (h.synced hle) (le_max_left _ _)
        · exact le_trans (h.fsync covered length hs hle) (le_max_right _ _)
    · cases hw
  | rewrite es hes hw =>
    obtain ⟨hidle, rfl⟩ := rewrite_eq hw
    refine .inr ⟨es, hes, List.prefix_refl _, h.seq_le, fun _ => le_rfl, fun _ _ hs => ?_⟩
    rw [hidle] at hs
    cases hs

namespace GroupCommit

variable {s s' : State} {L : Option ℕ} {g i : ℕ} {c : Call}

/-- **What the object knows of a leader**, which may have found more in the file. -/
def Leads (s : State) (w : WAL) : Call → Prop
  | .waitSync _ .leads => w.syncing = .leading
  | .waitSync _ (.begins covered _) =>
    ∃ length ≤ s.file.length, w.syncing = .fsync covered length
  | .waitSync _ (.syncs covered handle _ length) =>
    handle = s.handle ∧ ∃ length' ≤ length, w.syncing = .fsync covered length'
  | .waitSync _ (.ended covered length ok) =>
    (ok = true → length ≤ s.durable) ∧ ∃ length' ≤ length, w.syncing = .fsync covered length'
  | _ => True

/-- The object has the same file and the same counters. -/
structure SameFields (s : State) (w : WAL) : Prop where
  file : w.file = s.file
  durable : w.durable ≤ s.durable
  entries : w.entries = s.entries
  writeSeq : w.writeSeq = s.writeSeq
  syncedSeq : w.syncedSeq = s.syncedSeq
  syncErr : w.syncErr = s.syncErr
  idle : s.syncing = false → w.syncing = .idle

/-- **The object agrees with the calls and the mutexes.** -/
structure Agrees (s : State) (w : WAL) : Prop extends SameFields s w where
  calls : ∀ (i : ℕ) (c : Call), s.calls[i]? = some c → Leads s w c

theorem agrees_start : Agrees start (openWAL [] 0) :=
  ⟨⟨rfl, le_rfl, rfl, rfl, rfl, rfl, fun _ => rfl⟩, fun i c hc => (by cases hc)⟩

theorem Leads.wake (h : Leads s w c) : Leads s w c.wake := by
  unfold Call.wake
  split
  · trivial
  · trivial
  · exact h

/-- A call that is not the leader is of no concern to the object. -/
theorem Leads.frame (h : Leads s w c) (hloc : Local s L i c)
    (hf : L = some i → w'.syncing = w.syncing ∧ s'.handle = s.handle ∧
      s.file.length ≤ s'.file.length ∧ s.durable ≤ s'.durable) : Leads s' w' c := by
  match c with
  | .waitSync _ .leads =>
    obtain ⟨hw, -⟩ := hf hloc
    exact hw.trans h
  | .waitSync _ (.begins covered handle) =>
    obtain ⟨hw, -, hfile, -⟩ := hf hloc.1
    obtain ⟨length, hle, hs⟩ := h
    exact ⟨length, le_trans hle hfile, hw.trans hs⟩
  | .waitSync _ (.syncs covered handle written length) =>
    obtain ⟨hw, hhandle, -⟩ := hf hloc.1
    obtain ⟨heq, length', hle, hs⟩ := h
    exact ⟨heq.trans hhandle.symm, length', hle, hw.trans hs⟩
  | .waitSync _ (.ended covered length ok) =>
    obtain ⟨hw, -, -, hdur⟩ := hf hloc.1
    obtain ⟨hok, length', hle, hs⟩ := h
    exact ⟨fun h => le_trans (hok h) hdur, length', hle, hw.trans hs⟩
  | .waitSync _ .enters | .waitSync _ .checks | .waitSync _ .asleep | .waitSync _ (.returned _)
  | .rewrite _ _ => trivial

/-- **One call moves on, and the log with it.** -/
theorem Agrees.goto (h : Agrees s w) (hinv : Inv s L) {s₁ : State} (hsame : SameFields s₁ w')
    (hcalls : s₁.calls = s.calls ∨ s₁.calls = s.calls.map Call.wake)
    (hf : ∀ i ≠ g, L = some i → w'.syncing = w.syncing ∧ s₁.handle = s.handle ∧
      s.file.length ≤ s₁.file.length ∧ s.durable ≤ s₁.durable)
    (hlead : Leads s₁ w' c) : Agrees (s₁.goto g c) w' := by
  refine ⟨⟨hsame.file, hsame.durable, hsame.entries, hsame.writeSeq, hsame.syncedSeq, hsame.syncErr,
    hsame.idle⟩, fun i x hx => ?_⟩
  change Leads s₁ w' x
  obtain ⟨rfl, rfl⟩ | ⟨hi, y, hy, rfl | rfl⟩ := call_goto hcalls hx
  · exact hlead
  · exact (h.calls i x hy).frame (hinv.calls i x hy) (hf i hi)
  · exact ((h.calls i y hy).frame (hinv.calls i y hy) (hf i hi)).wake

/-- A step that the object does not see. -/
theorem Agrees.stutter (h : Agrees s w) (hinv : Inv s L) {s₁ : State} (hsame : SameFields s₁ w)
    (hcalls : s₁.calls = s.calls) (hhandle : s₁.handle = s.handle) (hfile : s₁.file = s.file)
    (hdurable : s.durable ≤ s₁.durable) (hlead : Leads s₁ w c) :
    ∃ w', (w' = w ∨ Section γ E w w') ∧ Agrees (s₁.goto g c) w' :=
  ⟨w, Or.inl rfl, h.goto hinv hsame (Or.inl hcalls)
    (fun _ _ _ => ⟨rfl, hhandle, by rw [hfile], hdurable⟩) hlead⟩

/-- The step of a waiting call is nothing for the log, or one of its sections. -/
theorem Agrees.waitSync {ok : Bool} {seq : ℕ} {stage : Waiter} (h : Agrees s w) (hinv : Inv s L)
    (hg : s.calls[g]? = some (.waitSync seq stage)) (hs : s.waitSync g ok seq stage = some s') :
    ∃ w', (w' = w ∨ Section γ E w w') ∧ Agrees s' w' := by
  have hloc := hinv.calls g _ hg
  have hlead := h.calls g _ hg
  have hsame : ∀ m, SameFields { s with syncMu := m } w := fun m =>
    ⟨h.file, h.durable, h.entries, h.writeSeq, h.syncedSeq, h.syncErr, h.idle⟩
  cases stage with
  | enters =>
    simp only [State.waitSync, Option.ite_none_right_eq_some, Option.some.injEq] at hs
    obtain ⟨-, rfl⟩ := hs
    exact h.stutter hinv (hsame _) rfl rfl rfl le_rfl trivial
  | checks =>
    unfold State.waitSync at hs
    dsimp only at hs
    split_ifs at hs with herr hle hsync <;> obtain rfl := Option.some.inj hs
    · exact h.stutter hinv (hsame _) rfl rfl rfl le_rfl trivial
    · exact h.stutter hinv (hsame _) rfl rfl rfl le_rfl trivial
    · exact h.stutter hinv (hsame _) rfl rfl rfl le_rfl trivial
    · -- the call becomes the leader
      have hquiet := Bool.eq_false_iff.mpr hsync
      obtain rfl := hinv.leader_eq_none hquiet
      have hw : w.lead = some { w with syncing := .leading } :=
        if_pos ⟨h.syncErr.trans (Bool.eq_false_iff.mpr herr), h.idle hquiet⟩
      refine ⟨_, Or.inr (.lead hw), h.goto hinv ?_ (Or.inl rfl) (fun i _ hi => (by cases hi)) rfl⟩
      exact ⟨h.file, h.durable, h.entries, h.writeSeq, h.syncedSeq, h.syncErr,
        fun hf => (by cases hf)⟩
  | leads =>
    simp only [State.waitSync, Option.ite_none_right_eq_some, Option.some.injEq] at hs
    obtain ⟨-, rfl⟩ := hs
    have hw : w.capture = some { w with syncing := .fsync w.writeSeq w.file.length } := by
      have hlead : w.syncing = .leading := hlead
      rw [WAL.capture, hlead]
    refine ⟨_, Or.inr (.capture hw), h.goto hinv ?_ (Or.inl rfl) (fun i hi hL => ?_) ?_⟩
    · refine ⟨h.file, h.durable, h.entries, h.writeSeq, h.syncedSeq, h.syncErr, fun hf => ?_⟩
      rw [hinv.leader_eq_none hf] at hloc
      cases hloc
    · exact absurd (Option.some.inj (hL.symm.trans hloc)) hi
    · exact ⟨w.file.length, by rw [h.file], by rw [h.writeSeq]⟩
  | begins covered handle =>
    cases hs
    exact h.stutter hinv (hsame s.syncMu) rfl rfl rfl le_rfl ⟨hloc.2.2, hlead⟩
  | syncs covered handle written length =>
    obtain ⟨hhandle, hlen⟩ := hlead
    cases hs
    cases ok with
    | false =>
      exact h.stutter hinv (hsame s.syncMu) rfl rfl rfl le_rfl ⟨fun hok => (by cases hok), hlen⟩
    | true =>
      have hdur : s.durable ≤ if handle = s.handle then max s.durable length else s.durable := by
        rw [if_pos hhandle]
        exact le_max_left _ _
      refine h.stutter hinv ⟨h.file, le_trans h.durable hdur, h.entries, h.writeSeq, h.syncedSeq,
        h.syncErr, h.idle⟩ rfl rfl rfl hdur ⟨fun _ => ?_, hlen⟩
      exact le_trans (le_max_right _ _) (if_pos hhandle).ge
  | ended covered length ok =>
    obtain ⟨hok, length', hle, hsyncing⟩ := hlead
    simp only [State.waitSync, Option.ite_none_right_eq_some, Option.some.injEq] at hs
    obtain ⟨-, rfl⟩ := hs
    have hothers : ∀ i ≠ g, L ≠ some i := fun i hi hL =>
      hi (Option.some.inj (hL.symm.trans hloc.1))
    cases ok with
    | false =>
      have hw : w.fsynced false = some { w with syncing := .idle, syncErr := true } := by
        rw [WAL.fsynced, hsyncing]
        rfl
      refine ⟨_, Or.inr (.fsynced false hw), h.goto hinv ?_ (Or.inr rfl)
        (fun i hi hL => absurd hL (hothers i hi)) trivial⟩
      exact ⟨h.file, h.durable, h.entries, h.writeSeq, h.syncedSeq, rfl, fun _ => rfl⟩
    | true =>
      have hw : w.fsynced true = some { w with
          syncing := .idle
          syncedSeq := max w.syncedSeq covered
          durable := max w.durable length' } := by
        rw [WAL.fsynced, hsyncing]
        rfl
      refine ⟨_, Or.inr (.fsynced true hw), h.goto hinv ?_ (Or.inr rfl)
        (fun i hi hL => absurd hL (hothers i hi)) trivial⟩
      exact ⟨h.file, max_le h.durable (le_trans hle (hok rfl)), h.entries, h.writeSeq,
        congrArg (max · covered) h.syncedSeq, h.syncErr, fun _ => rfl⟩
  | asleep | returned ok => cases hs

theorem Agrees.rewrite {ok : Bool} {x : Compaction} {stage : Rewriter} (h : Agrees s w)
    (hinv : Inv s L) (hg : s.calls[g]? = some (.rewrite x stage))
    (hs : s.rewrite γ g ok x stage = some s') :
    ∃ w', (w' = w ∨ Section γ (fun es => stage = .renames ∧ es = x.entries) w w') ∧
      Agrees s' w' := by
  have hloc := hinv.calls g _ hg
  have hsame : ∀ m m', SameFields { s with mu := m, syncMu := m' } w := fun m m' =>
    ⟨h.file, h.durable, h.entries, h.writeSeq, h.syncedSeq, h.syncErr, h.idle⟩
  cases stage with
  | enters =>
    simp only [State.rewrite, Option.ite_none_right_eq_some, Option.some.injEq] at hs
    obtain ⟨-, rfl⟩ := hs
    exact h.stutter hinv (hsame s.mu _) rfl rfl rfl le_rfl trivial
  | checks =>
    unfold State.rewrite at hs
    dsimp only at hs
    split_ifs at hs <;> obtain rfl := Option.some.inj hs
    · exact h.stutter hinv (hsame s.mu _) rfl rfl rfl le_rfl trivial
    · exact h.stutter hinv (hsame s.mu s.syncMu) rfl rfl rfl le_rfl trivial
  | locks =>
    simp only [State.rewrite, Option.ite_none_right_eq_some, Option.some.injEq] at hs
    obtain ⟨-, rfl⟩ := hs
    exact h.stutter hinv (hsame _ s.syncMu) rfl rfl rfl le_rfl trivial
  | writes =>
    cases ok <;> obtain rfl := Option.some.inj hs
    · exact h.stutter hinv (hsame _ _) rfl rfl rfl le_rfl trivial
    · exact h.stutter hinv (hsame s.mu s.syncMu) rfl rfl rfl le_rfl trivial
  | renames =>
    obtain rfl := hinv.leader_eq_none hloc.2
    cases hs
    have hw : w.rewrite γ x.entries = some _ := if_pos (h.idle hloc.2)
    refine ⟨_, Or.inr (.rewrite x.entries ⟨rfl, rfl⟩ hw), h.goto hinv ?_ (Or.inr rfl)
      (fun i _ hL => (by cases hL)) trivial⟩
    exact ⟨rfl, le_rfl, rfl, h.writeSeq, h.writeSeq, h.syncErr, h.idle⟩
  | asleep | returned ok => cases hs

/-- A call is made, or a record appended. -/
theorem Agrees.grow (h : Agrees s w) (hinv : Inv s L) (hsame : SameFields s' w')
    {new : List Call} (hcalls : s'.calls = s.calls ++ new) (hnew : ∀ c ∈ new, Leads s' w' c)
    (hsyncing : w'.syncing = w.syncing) (hhandle : s'.handle = s.handle)
    (hfile : s.file.length ≤ s'.file.length) (hdurable : s'.durable = s.durable) :
    Agrees s' w' := by
  refine ⟨hsame, fun i c hc => ?_⟩
  obtain ⟨-, hc⟩ | hc := call_grow hcalls hc
  · exact (h.calls i c hc).frame (hinv.calls i c hc) fun _ =>
      ⟨hsyncing, hhandle, hfile, hdurable.ge⟩
  · exact hnew c hc

theorem Agrees.append (h : Agrees s w) (hinv : Inv s L) (e : LogEntry) (fault : Option ℕ) :
    Agrees (s.append γ e fault) (w.append γ e fault).1 := by
  cases fault with
  | none =>
    refine h.grow hinv ?_ (List.append_nil _).symm (fun c hc => (by cases hc)) rfl rfl ?_ rfl
    · exact ⟨congrArg (· ++ encodeEntry γ e) h.file, h.durable, congrArg (· + 1) h.entries,
        congrArg (· + 1) h.writeSeq, h.syncedSeq, h.syncErr, h.idle⟩
    · exact (List.prefix_append _ _).length_le
  | some n =>
    refine h.grow hinv ?_ (List.append_nil _).symm (fun c hc => (by cases hc)) rfl rfl ?_ rfl
    · exact ⟨congrArg (· ++ (encodeEntry γ e).take n) h.file, h.durable, h.entries, h.writeSeq,
        h.syncedSeq, h.syncErr, h.idle⟩
    · exact (List.prefix_append _ _).length_le

/-- The move is the one in which a rewrite renames the file with its entries. -/
def Renames (s : State) (x : Move) (c : Compaction) : Prop :=
  ∃ g ok, x = .run g ok ∧ s.calls[g]? = some (.rewrite c .renames)

/-- **Every step is a section of the object**, or the object does not see it. The object
rewrites its file when a call renames the new one. -/
theorem Agrees.step {x : Move} (h : Agrees s w) (hinv : Inv s L) (hs : step γ s x = some s') :
    ∃ w', (w' = w ∨ Section γ (fun es => ∃ c, Renames s x c ∧ es = c.entries) w w') ∧
      Agrees s' w' := by
  cases x with
  | append e fault =>
    simp only [GroupCommit.step, Option.ite_none_right_eq_some, Option.some.injEq] at hs
    obtain ⟨-, rfl⟩ := hs
    exact ⟨_, Or.inr (.append e fault), h.append hinv e fault⟩
  | waitSync seq | rewrite c =>
    cases hs
    refine ⟨w, Or.inl rfl, h.grow hinv ?_ rfl (fun c hc => ?_) rfl rfl le_rfl rfl⟩
    · exact ⟨h.file, h.durable, h.entries, h.writeSeq, h.syncedSeq, h.syncErr, h.idle⟩
    · rw [List.mem_singleton.mp hc]
      trivial
  | run g ok =>
    unfold GroupCommit.step at hs
    dsimp only at hs
    split at hs
    · rename_i seq stage hg
      exact h.waitSync hinv hg hs
    · rename_i c stage hg
      obtain ⟨w', hw, hagree⟩ := h.rewrite hinv hg hs
      refine ⟨w', hw.imp_right fun hsec => hsec.mono ?_, hagree⟩
      rintro es ⟨rfl, rfl⟩
      exact ⟨c, ⟨g, ok, rfl, hg⟩, rfl⟩
    · cases hs

/-- **The log object simulates its calls and mutexes.** After every run of these, a run of the
object has the same file and the same counters, so that its `waitSync` finds what a call of
`WaitSync` finds; and what the object counts on after a crash is durable. -/
theorem simulates {ms : List Move} (hG : Run.Guarded (GroupCommit.step γ) Embodies start ms)
    (hrun : Run.exec (GroupCommit.step γ) start ms = some s) :
    ∃ L w, Inv s L ∧ Relation.ReflTransGen (Section γ fun _ => True) (openWAL [] 0) w ∧
      Agrees s w := by
  refine Run.invariant_of_guarded (P := fun s => ∃ L w, Inv s L ∧
    Relation.ReflTransGen (Section γ fun _ => True) (openWAL [] 0) w ∧ Agrees s w)
    ⟨none, openWAL [] 0, inv_start, .refl, agrees_start⟩ ?_ hG hrun
  rintro u x u' ⟨L, w, hinv, hw, hagree⟩ hx hs
  obtain ⟨L', hinv'⟩ := hinv.step hx hs
  obtain ⟨w', rfl | hsec, hagree'⟩ := hagree.step hinv hs
  · exact ⟨L', w', hinv', hw, hagree'⟩
  · exact ⟨L', w', hinv', hw.tail (hsec.mono fun _ _ => trivial), hagree'⟩

/-! ### Records in the file -/

/-- A rewrite with these entries has renamed its file in the run. -/
def Renamed (γ : Codec) (s : State) (ms : List Move) (c : Compaction) : Prop :=
  ∃ ms₁ x ms₂ v, ms = ms₁ ++ x :: ms₂ ∧ Run.exec (GroupCommit.step γ) s ms₁ = some v ∧
    Renames v x c

theorem Renamed.snoc {ms : List Move} {r : Compaction} (h : Renamed γ s ms r) (x : Move) :
    Renamed γ s (ms ++ [x]) r := by
  obtain ⟨ms₁, y, ms₂, v, rfl, h⟩ := h
  exact ⟨ms₁, y, ms₂ ++ [x], v, by simp, h⟩

/-- The object holds the bytes, or those of a rewrite of the run that embodies the record. -/
def Kept (γ : Codec) (bytes : List UInt8) (seq : ℕ) (u : State) (ms : List Move) (w : WAL) :
    Prop :=
  HoldsBytes bytes seq w ∨
    ∃ r, Renamed γ u ms r ∧ seq ≤ r.upTo ∧ HoldsBytes (image γ r.entries) seq w

/-- A step keeps them, if a rewrite embodies what has been written. -/
theorem Kept.snoc {u : State} {ms : List Move} {x : Move} (h : Kept γ bytes seq u ms w)
    (hu : Run.exec (GroupCommit.step γ) u ms = some s) (hx : Embodies s x)
    (hwrite : w.writeSeq = s.writeSeq)
    (hw : w' = w ∨ Section γ (fun es => ∃ r, Renames s x r ∧ es = r.entries) w w') :
    Kept γ bytes seq u (ms ++ [x]) w' := by
  -- another file in the place of the current one is that of a rewrite of this step
  have hrenames : ∀ es, (∃ r, Renames s x r ∧ es = r.entries) → seq ≤ w.writeSeq →
      HoldsBytes (image γ es) seq w' → Kept γ bytes seq u (ms ++ [x]) w' := by
    rintro es ⟨r, hr, rfl⟩ hseq hbytes
    refine .inr ⟨r, ⟨ms, x, [], s, rfl, hu, hr⟩, ?_, hbytes⟩
    obtain ⟨g, ok, rfl, hg⟩ := hr
    have hle : s.writeSeq ≤ r.upTo := by
      unfold Embodies at hx
      dsimp only at hx
      rwa [hg] at hx
    omega
  obtain hbytes | ⟨r, hr, hle, hbytes⟩ := h
  · obtain rfl | hsec := hw
    · exact .inl hbytes
    · obtain hbytes' | ⟨es, hes, hbytes'⟩ := hbytes.of_section hsec
      · exact .inl hbytes'
      · exact hrenames es hes hbytes.seq_le hbytes'
  · obtain rfl | hsec := hw
    · exact .inr ⟨r, hr.snoc x, hle, hbytes⟩
    · obtain hbytes' | ⟨es, hes, hbytes'⟩ := hbytes.of_section hsec
      · exact .inr ⟨r, hr.snoc x, hle, hbytes'⟩
      · exact hrenames es hes hbytes.seq_le hbytes'

/-- **The bytes of a synced record are in the durable part of the file.** A record is
appended in the state `v`. Whatever happens after, if a `WaitSync` for this record has
returned without an error, then the file as it was with the record at its end is the
beginning of what a crash is sure to leave, or the file of a completed rewrite that embodies
the record is. -/
theorem returned_bytes_durable {ms ms' : List Move} {v : State}
    (hG : Run.Guarded (GroupCommit.step γ) Embodies start (ms ++ .append e none :: ms'))
    (hv : Run.exec (GroupCommit.step γ) start ms = some v)
    (hs : Run.exec (GroupCommit.step γ) v (.append e none :: ms') = some s)
    (hi : s.calls[i]? = some (.waitSync (v.writeSeq + 1) (.returned true))) :
    v.file ++ encodeEntry γ e <+: s.file.take s.durable ∨
      ∃ r, Renamed γ (v.append γ e none) ms' r ∧ v.writeSeq + 1 ≤ r.upTo ∧
        image γ r.entries <+: s.file.take s.durable := by
  obtain ⟨L, w, hinv, hreach, hagree⟩ := simulates hG.left hv
  have hcounted : Counted w := by
    clear hagree
    induction hreach with
    | refl => exact ⟨le_rfl, fun _ _ hs => (by cases hs)⟩
    | tail _ hsec ih => exact ih.of_section hsec
  -- the record is written
  have hG := hG.of_append hv
  obtain ⟨u, hu, hs⟩ := Option.bind_eq_some_iff.mp hs
  rw [Run.Guarded, hu] at hG
  obtain ⟨L', hinv'⟩ := hinv.step hG.1 hu
  simp only [GroupCommit.step, Option.ite_none_right_eq_some, Option.some.injEq] at hu
  obtain ⟨-, rfl⟩ := hu
  have hbytes := hcounted.holdsBytes_append (γ := γ) e
  rw [hagree.file, hagree.writeSeq] at hbytes
  -- and is kept from there on
  obtain ⟨L, w', hinv, hagree', hkept⟩ : ∃ L w', Inv s L ∧ Agrees s w' ∧
      Kept γ (v.file ++ encodeEntry γ e) (v.writeSeq + 1) (v.append γ e none) ms' w' := by
    refine Run.induction_of_guarded (P := fun ms s => ∃ L w', Inv s L ∧ Agrees s w' ∧
      Kept γ (v.file ++ encodeEntry γ e) (v.writeSeq + 1) (v.append γ e none) ms w')
      ⟨L', _, hinv', hagree.append hinv e none, .inl hbytes⟩ ?_ hG.2 hs
    rintro ys y x y' hy ⟨L, w', hinv, hagree, hkept⟩ hx hstep
    obtain ⟨L', hinv'⟩ := hinv.step hx hstep
    obtain ⟨w'', hw, hagree'⟩ := hagree.step hinv hstep
    exact ⟨L', w'', hinv', hagree', hkept.snoc hy hx hagree.writeSeq hw⟩
  have hdurable : ∀ bytes, HoldsBytes bytes (v.writeSeq + 1) w' →
      bytes <+: s.file.take s.durable := by
    intro bytes h
    have hsynced := hinv.calls i _ hi rfl
    rw [← hagree'.syncedSeq] at hsynced
    exact List.prefix_take_iff.mpr
      ⟨hagree'.file ▸ h.file, le_trans (h.synced hsynced) hagree'.durable⟩
  obtain hbytes | ⟨r, hr, hle, hbytes⟩ := hkept
  · exact .inl (hdurable _ hbytes)
  · exact .inr ⟨r, hr, hle, hdurable _ hbytes⟩

end GroupCommit

end Wal

end DistQueue
