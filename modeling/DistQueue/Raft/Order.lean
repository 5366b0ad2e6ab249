import DistQueue.Raft.Stability

/-!
# The order of one incarnation's messages

What one incarnation of a node sends on its apply channel, from the boundary its log had
when it was started. A command takes up where the message before it ended, a snapshot goes
beyond it (`DistQueue.Raft.Follows`). The only message that does neither is the stored
snapshot, which a restarted node sends first and which brings the reader to the boundary.

A restarted node does not always get to send it: a snapshot of the leader that arrives
before the applier has looked takes its place
(`DistQueue.Raft.stored_snapshot_superseded`). It covers what the stored one does, so the
reader misses nothing.

The applier works without the node's lock while it sends, and the boundary, the commit
index and the waiting snapshot may all change meanwhile. What keeps it in line
(`DistQueue.Raft.Paced`) is that a snapshot is only installed if it reaches past the commit
index, and with that past everything the applier holds.
-/

namespace DistQueue

namespace Raft

open Consensus

variable {Blob : Type} {nd nd' : Node Blob} {cfg : Config} {b : ℕ}
  {stored : Option (SnapshotMsg Blob)} {msgs : List (ApplyMsg Blob)}

/-! ### The channel -/

/-- The index the messages bring a reader to that starts at `b`. -/
def progressFrom (b : ℕ) (msgs : List (ApplyMsg Blob)) : ℕ :=
  (msgs.getLast?.map ApplyMsg.index).getD b

/-- The last message says how far the channel has got. -/
@[simp] theorem progressFrom_concat (b : ℕ) (msgs : List (ApplyMsg Blob)) (msg : ApplyMsg Blob) :
    progressFrom b (msgs ++ [msg]) = msg.index := by
  simp [progressFrom]

/-- **A message follows the ones before it**: a command is the next one, a snapshot reaches
further. The stored snapshot may open the channel, and if there is one, no command does. -/
def Follows (b : ℕ) (stored : Option (SnapshotMsg Blob)) (pre : List (ApplyMsg Blob)) :
    ApplyMsg Blob → Prop
  | .command _ index _ => index = progressFrom b pre + 1 ∧ (pre = [] → stored = none)
  | .snapshot msg => progressFrom b pre < msg.index ∨ pre = [] ∧ stored = some msg

/-- Every message follows the ones before it. -/
def InOrder (b : ℕ) (stored : Option (SnapshotMsg Blob)) (msgs : List (ApplyMsg Blob)) : Prop :=
  ∀ pre msg, pre ++ [msg] <+: msgs → Follows b stored pre msg

theorem inOrder_nil : InOrder b stored ([] : List (ApplyMsg Blob)) := by
  intro pre msg h
  simp at h

/-- A message that follows may be sent. -/
theorem InOrder.concat {msg : ApplyMsg Blob} (h : InOrder b stored msgs)
    (hmsg : Follows b stored msgs msg) : InOrder b stored (msgs ++ [msg]) := by
  intro pre msg' hp
  rcases List.prefix_concat_iff.mp hp with heq | hp
  · obtain ⟨rfl, hlast⟩ := List.append_inj' heq rfl
    rw [List.singleton_inj.mp hlast]
    exact hmsg
  · exact h pre msg' hp

/-! ### The applier -/

/-- Where the applier is, compared to what it has sent. -/
def OnCourse (b : ℕ) (stored : Option (SnapshotMsg Blob)) (nd : Node Blob) : Prop :=
  match nd.applier with
  | .waiting => progressFrom b nd.applyCh = nd.lastApplied
  | .snapshot msg => msg.index = nd.lastApplied ∧ Follows b stored nd.applyCh (.snapshot msg)
  | .sending batch => progressFrom b nd.applyCh = nd.lastApplied ∧ Consecutive nd.lastApplied batch
  | .sent e batch => progressFrom b nd.applyCh = e.index ∧ e.index = nd.lastApplied + 1 ∧
      Consecutive e.index batch

/-- **A node delivers in order from the boundary it was started at.** -/
structure Paced (b : ℕ) (stored : Option (SnapshotMsg Blob)) (nd : Node Blob) : Prop where
  inOrder : InOrder b stored nd.applyCh
  onCourse : OnCourse b stored nd
  /-- A snapshot that waits is at the boundary of the log, -/
  boundary : ∀ msg, nd.pendingSnapshot = some msg →
    nd.log.firstIndex = msg.index ∧ nd.lastApplied ≤ msg.index
  /-- and reaches past what the applier has and holds, unless it is the stored one. -/
  ahead : ∀ msg, nd.pendingSnapshot = some msg →
    (nd.lastApplied < msg.index ∧ ∀ e ∈ nd.applier.entries, e.index < msg.index) ∨
      stored = some msg ∧ nd.applyCh = [] ∧ nd.applier = .waiting
  first : nd.pendingSnapshot = none → nd.log.firstIndex ≤ nd.lastApplied
  /-- A stored snapshot is not passed over by a command. -/
  opening : nd.applyCh = [] → stored = none ∨
    (nd.applier = .waiting ∧ nd.pendingSnapshot.isSome) ∨ ∃ msg, nd.applier = .snapshot msg

/-- What has nothing to do with the applier keeps its pace. -/
theorem Paced.same (h : Paced b stored nd) (hs : SameDelivery nd nd') : Paced b stored nd' := by
  obtain ⟨h₁, h₂, h₃, h₄, -, h₆⟩ := hs
  refine ⟨?_, ?_, ?_, ?_, ?_, ?_⟩
  · rw [h₂]
    exact h.inOrder
  · have := h.onCourse
    rw [OnCourse] at this ⊢
    rw [h₁, h₂, h₃]
    exact this
  · rw [h₃, h₄, h₆]
    exact h.boundary
  · rw [h₁, h₂, h₃, h₄]
    exact h.ahead
  · rw [h₃, h₄, h₆]
    exact h.first
  · rw [h₁, h₂, h₄]
    exact h.opening

/-- **The applier takes** the snapshot that waits, or the entries that are committed. -/
theorem Paced.applierTake (h : Paced b stored nd)
    (hl : ∀ i e, nd.log.firstIndex < i → nd.log.entryAt i = some e → e.index = i)
    (hs : applierTake nd = some nd') : Paced b stored nd' := by
  obtain ⟨hwait, htake⟩ := applierTake_cases hs
  have hcourse := h.onCourse
  simp only [OnCourse, hwait] at hcourse
  obtain ⟨msg, hmsg, rfl⟩ | ⟨hnone, batch, hbatch, rfl⟩ := htake
  · obtain ⟨hfirst, hle⟩ := h.boundary msg hmsg
    refine ⟨h.inOrder, ⟨(max_eq_right hle).symm, ?_⟩, fun _ hm => (by cases hm),
      fun _ hm => (by cases hm), fun _ => le_of_eq_of_le hfirst (le_max_right _ _),
      fun _ => .inr (.inr ⟨msg, rfl⟩)⟩
    rcases h.ahead msg hmsg with ⟨hlt, -⟩ | ⟨hstored, hch, -⟩
    · exact .inl (by dsimp only; omega)
    · exact .inr ⟨hch, hstored⟩
  · -- nothing waits, so what is compacted away has been applied
    have hcons := entriesFrom_consecutive (fun i e hi => hl i e (by omega)) hbatch
    rw [max_eq_left (h.first hnone)] at hcons
    refine ⟨h.inOrder, ⟨hcourse, hcons⟩, h.boundary, fun msg hm => ?_, h.first, fun hch => ?_⟩
    · rw [hnone] at hm
      cases hm
    · rcases h.opening hch with hstored | ⟨-, hpend⟩ | ⟨msg, happ⟩
      · exact .inl hstored
      · rw [hnone] at hpend
        cases hpend
      · rw [hwait] at happ
        cases happ

/-- A snapshot that waits while the applier is at work is not the stored one. -/
theorem Paced.ahead_of_ne (h : Paced b stored nd) (hne : nd.applier ≠ .waiting)
    {msg : SnapshotMsg Blob} (hm : nd.pendingSnapshot = some msg) :
    nd.lastApplied < msg.index ∧ ∀ e ∈ nd.applier.entries, e.index < msg.index :=
  (h.ahead msg hm).resolve_right fun hfresh => hne hfresh.2.2

/-- A command in the applier's hands has let a stored snapshot pass. -/
theorem Paced.stored_eq_none (h : Paced b stored nd) {batch : List (LogEntry Blob)}
    (happ : nd.applier = .sending batch) (hch : nd.applyCh = []) : stored = none := by
  rcases h.opening hch with hstored | ⟨hwait, -⟩ | ⟨msg, hmsg⟩
  · exact hstored
  · rw [happ] at hwait
    cases hwait
  · rw [happ] at hmsg
    cases hmsg

/-- **The applier sends.** -/
theorem Paced.applierSend (h : Paced b stored nd) (hs : applierSend nd = some nd') :
    Paced b stored nd' := by
  have hcourse := h.onCourse
  unfold Raft.applierSend at hs
  split at hs
  · rename_i msg happ
    cases hs
    simp only [OnCourse, happ] at hcourse
    refine ⟨h.inOrder.concat hcourse.2, ?_, h.boundary, fun m hm => .inl ⟨?_, fun e he => ?_⟩,
      h.first, fun hch => ?_⟩
    · simp only [OnCourse, progressFrom_concat]
      exact hcourse.1
    · exact (h.ahead_of_ne (by rw [happ]; simp) hm).1
    · cases he
    · simp at hch
  · rename_i happ
    cases hs
    simp only [OnCourse, happ] at hcourse
    refine ⟨h.inOrder, hcourse.1, h.boundary, fun m hm => .inl ⟨?_, fun e he => ?_⟩, h.first,
      fun hch => ?_⟩
    · exact (h.ahead_of_ne (by rw [happ]; simp) hm).1
    · cases he
    · exact .inl (h.stored_eq_none happ hch)
  · rename_i e es happ
    cases hs
    simp only [OnCourse, happ] at hcourse
    obtain ⟨hprog, he, hes⟩ := hcourse
    refine ⟨h.inOrder.concat ⟨by omega, h.stored_eq_none happ⟩, ⟨progressFrom_concat _ _ _, he, ?_⟩,
      h.boundary, fun m hm => ?_, h.first, fun hch => ?_⟩
    · rw [he]
      exact hes
    · have hahead := h.ahead_of_ne (by rw [happ]; simp) hm
      rw [happ] at hahead
      exact .inl hahead
    · simp at hch
  · cases hs

/-- **The applier records** what it has sent. -/
theorem Paced.applierAdvance (h : Paced b stored nd) (hs : applierAdvance nd = some nd') :
    Paced b stored nd' := by
  have hcourse := h.onCourse
  unfold Raft.applierAdvance at hs
  split at hs
  · rename_i e es happ
    cases hs
    simp only [OnCourse, happ] at hcourse
    obtain ⟨hprog, he, hes⟩ := hcourse
    have hmax : max nd.lastApplied e.index = e.index := max_eq_right (by omega)
    have hahead : ∀ msg, nd.pendingSnapshot = some msg →
        max nd.lastApplied e.index < msg.index ∧ ∀ e' ∈ es, e'.index < msg.index := by
      intro msg hm
      have hahead := (h.ahead_of_ne (by rw [happ]; simp) hm).2
      rw [happ] at hahead
      obtain ⟨he', hes'⟩ := List.forall_mem_cons.mp hahead
      exact ⟨by rw [hmax]; exact he', hes'⟩
    refine ⟨h.inOrder, ?_, fun msg hm => ⟨(h.boundary msg hm).1, le_of_lt (hahead msg hm).1⟩,
      fun msg hm => .inl (hahead msg hm), fun hn => le_trans (h.first hn) (le_max_left _ _),
      fun hch => ?_⟩
    · simp only [OnCourse, hmax]
      exact ⟨hprog, hes⟩
    · -- the command is on the channel
      rcases h.opening hch with hstored | ⟨hwait, -⟩ | ⟨msg, hmsg⟩
      · exact .inl hstored
      · rw [happ] at hwait
        cases hwait
      · rw [happ] at hmsg
        cases hmsg
  · cases hs

/-! ### Snapshots -/

section Snapshots

variable [Inhabited Blob]

/-- **The state machine hands over a snapshot**; none is waiting then. -/
theorem Paced.snapshot (h : Paced b stored nd) {index : ℕ} {data : Blob}
    {r : Node Blob × List (Write Blob)} (hr : snapshot cfg nd index data = some r) :
    Paced b stored r.1 := by
  obtain ⟨-, rfl⟩ | ⟨⟨hlt, hle⟩, t, tail, -, -, rfl⟩ := snapshot_cases hr
  · exact h
  · refine ⟨h.inOrder, h.onCourse, fun msg hm => ?_, h.ahead, fun _ => hle, h.opening⟩
    obtain ⟨hfirst, hla⟩ := h.boundary msg hm
    omega

/-- **A snapshot of the leader is installed.** It reaches past the commit index. -/
theorem Paced.installSnapshot (h : Paced b stored nd) {args : InstallSnapshotArgs Blob}
    (happlied : nd.lastApplied ≤ nd.commitIndex)
    (htaken : ∀ e ∈ nd.applier.entries, e.index ≤ nd.commitIndex)
    (hnew : nd.commitIndex < args.lastIncludedIndex) {r : Node Blob × List (Write Blob)}
    (hr : installSnapshot cfg nd args = some r) : Paced b stored r.1 := by
  unfold Raft.installSnapshot at hr
  obtain ⟨tail, -, hr⟩ := Option.bind_eq_some_iff.mp hr
  cases hr
  refine ⟨h.inOrder, h.onCourse, fun msg hm => ?_, fun msg hm => .inl ⟨?_, fun e he => ?_⟩,
    fun hm => (by cases hm), fun hch => ?_⟩
  · cases hm
    exact ⟨rfl, by dsimp only; omega⟩
  · cases hm
    dsimp only
    omega
  · cases hm
    have := htaken e he
    dsimp only
    omega
  · rcases h.opening hch with hstored | ⟨hwait, -⟩ | hmsg
    · exact .inl hstored
    · exact .inr (.inl ⟨hwait, rfl⟩)
    · exact .inr (.inr hmsg)

theorem Paced.handleInstallSnapshot (h : Paced b stored nd) {args : InstallSnapshotArgs Blob}
    (happlied : nd.lastApplied ≤ nd.commitIndex)
    (htaken : ∀ e ∈ nd.applier.entries, e.index ≤ nd.commitIndex)
    {r : Node Blob × List (Write Blob) × InstallSnapshotReply}
    (hr : handleInstallSnapshot cfg nd args = some r) : Paced b stored r.1 := by
  have hobs : SameDelivery nd (observeLeader cfg nd args.term args.leaderID).1 :=
    (quiet_observeLeader nd args.term args.leaderID).same
  have hci := observeLeader_commitIndex cfg nd args.term args.leaderID
  obtain ⟨-, rfl⟩ | ⟨reply, rfl⟩ | ⟨r', reply, hnew, hr', rfl⟩ := handleInstallSnapshot_cases hr
  · exact h
  · exact h.same hobs
  · have hla := hobs.lastApplied
    have hpaced := (h.same hobs).installSnapshot (by omega)
      (by rw [hobs.applier, hci]; exact htaken) (by omega) hr'
    exact hpaced

end Snapshots

/-! ### A node in the cluster -/

section Cluster

variable [Inhabited Blob] {M : Membership} {w w' u : World Blob}
  {a : Ledger NodeID (LogEntry Blob)} {n : NodeID} {x : Effect Blob}

/-- What a node does by itself. -/
theorem Paced.act (h : Paced b stored (w.nodes n)) (hsim : Sim M w a) (hn : n ∈ M.ids)
    {t : Trigger Blob} (hx : act (M.config n) (w.nodes n) t = some x) :
    Paced b stored x.node := by
  cases acts_of_act hx with
  | electionTimeout hs => exact h.same (quiet_startElection _).same
  | propose command => exact h.same (quiet_propose _ _).same
  | sendAppendEntries hpeer hargs => exact h
  | sendInstallSnapshot hpeer hargs => exact h
  | snapshot hr => exact h.snapshot hr
  | applierTake hnd' =>
    refine h.applierTake (fun i e hi he => ?_) hnd'
    obtain ⟨j, rfl⟩ : ∃ j, i = j + 1 := ⟨i - 1, by omega⟩
    rw [(hsim.node n hn).log_eq, compact_entryAt (by omega)] at he
    exact (hsim.node n hn).numbered j e he
  | applierSend hnd' => exact h.applierSend hnd'
  | applierAdvance hnd' => exact h.applierAdvance hnd'

/-- **Every section of the node keeps its messages in order.** -/
theorem Paced.effect (h : Paced b stored (w.nodes n)) (hsim : Sim M w a) {e : Event Blob}
    (hx : effect M w e = some x) (hactor : x.actor = n) : Paced b stored x.node := by
  subst hactor
  refine (effect_rule (P := fun n x => Paced b stored (w.nodes n) → Paced b stored x.node)
    ?_ ?_ ?_ hx).2 h
  · intro n hn t x _ hx h
    exact h.act hsim hn hx
  · intro k c x hc hx h
    have himpl := (hsim.node _ (hsim.call c (List.mem_of_getElem? hc)).callee).impl
    cases hq : c.request with
    | requestVote args =>
      rw [hq] at hx
      cases hx
      exact h.same (quiet_handleRequestVote _ _).same
    | appendEntries args =>
      rw [hq] at hx
      obtain ⟨r, hr, hx⟩ := Option.bind_eq_some_iff.mp hx
      cases hx
      exact h.same (quiet_handleAppendEntries hr).same
    | installSnapshot args =>
      rw [hq] at hx
      obtain ⟨r, hr, hx⟩ := Option.bind_eq_some_iff.mp hx
      cases hx
      exact h.handleInstallSnapshot himpl.applied_le (fun e he => (himpl.taken e he).2) hr
  · intro k c reply x _ _ hx h
    unfold Raft.onReply at hx
    split at hx
    · cases hx
      exact h.same (quiet_onRequestVoteReply _ _ _).same
    · obtain ⟨r, hr, hx⟩ := Option.bind_eq_some_iff.mp hx
      cases hx
      exact h.same (quiet_onAppendEntriesReply hr).same
    · cases hx
      exact h.same (quiet_onInstallSnapshotReply _ _ _ _).same
    · cases hx

variable [DecidableEq Blob]

/-- A node that has just been started is at its boundary, with the stored snapshot to
send. -/
theorem paced_newNode (cfg : Config) (d : Disk Blob) :
    Paced (newNode cfg d).log.firstIndex (newNode cfg d).pendingSnapshot (newNode cfg d) := by
  obtain ⟨-, happ, hch, hpend⟩ := newNode_fields cfg d
  have hla : (newNode cfg d).lastApplied = (newNode cfg d).log.firstIndex := rfl
  refine ⟨?_, ?_, fun msg hm => ?_, fun msg hm => .inr ⟨hm, hch, happ⟩, fun _ => le_of_eq hla.symm,
    fun _ => ?_⟩
  · rw [hch]
    exact inOrder_nil
  · simp only [OnCourse, happ, hch, hla]
    rfl
  · rw [hla, hpend msg hm]
    exact ⟨rfl, le_refl _⟩
  · cases hp : (newNode cfg d).pendingSnapshot with
    | none => exact .inl rfl
    | some msg => exact .inr (.inl ⟨happ, rfl⟩)

/-- What a node finds waiting when it is started is the snapshot of its file. -/
theorem newNode_stored {cfg : Config} {d : Disk Blob} {msg : SnapshotMsg Blob}
    (h : (newNode cfg d).pendingSnapshot = some msg) : d.snapshot = some msg.data := by
  unfold newNode readPersist at h
  split at h
  · cases h
  cases hstate : d.state with
  | none =>
    rw [hstate] at h
    cases h
  | some ps =>
    rw [hstate] at h
    cases hsnap : d.snapshot with
    | none =>
      rw [hsnap] at h
      cases h
    | some snap =>
      simp only [hsnap] at h
      split at h
      · cases h
      · rw [← Option.some.inj h]

/-- **The node has just been started**, on the files it has. -/
def Starts (M : Membership) (n : NodeID) (w : World Blob) : Prop :=
  w.nodes n = newNode (M.config n) (w.disks n)

/-- **Delivery is in order and without gaps.** A node has just been started in state `u`, and
does not crash until state `w`. From the boundary it was started at, every command that it
delivers is the next one, and every snapshot reaches further than the message before it; the
stored snapshot, if there is one, comes first, unless a snapshot that reaches further does;
and every command is the one that is committed at its index. -/
theorem delivery_in_order {ys zs : List (Action Blob)} (hu : run M ys = some u) (hn : n ∈ M.ids)
    (hstart : Starts M n u) (hw : Run.exec (step M) u zs = some w)
    (hspares : Run.Guarded (step M) (Spares M n) u zs) :
    InOrder (u.nodes n).log.firstIndex (u.nodes n).pendingSnapshot (w.nodes n).applyCh ∧
      (∀ msg, (u.nodes n).pendingSnapshot = some msg →
        msg.index = (u.nodes n).log.firstIndex ∧ (u.disks n).snapshot = some msg.data) ∧
      ∀ command index term, ApplyMsg.command command index term ∈ (w.nodes n).applyCh →
        (∃ t, CommittedIn M (ys ++ zs) t index ⟨index, term, command⟩) ∧
        ∀ t e, CommittedIn M (ys ++ zs) t index e → e = ⟨index, term, command⟩ := by
  obtain ⟨a, ha⟩ := exists_traced hu
  have hpaced : (∃ a, Sim M w a) ∧
      Paced (u.nodes n).log.firstIndex (u.nodes n).pendingSnapshot (w.nodes n) := by
    refine Run.invariant_of_guarded (P := fun v => (∃ a, Sim M v a) ∧
      Paced (u.nodes n).log.firstIndex (u.nodes n).pendingSnapshot (v.nodes n))
      ⟨⟨a, ha.sim⟩, ?_⟩ ?_ hspares hw
    · rw [hstart]
      exact paced_newNode _ _
    · rintro v x v' ⟨⟨c, hc⟩, hv⟩ hx hstep
      obtain ⟨c', -, hc', -⟩ := hc.step hstep
      refine ⟨⟨c', hc'⟩, ?_⟩
      rcases step_of_spares hx hstep with heq | ⟨e, y, hy, hactor, heq⟩
      · rw [heq]
        exact hv
      · rw [heq]
        exact hv.effect hc hy hactor
  have hrun : run M (ys ++ zs) = some w := by
    rw [run, Run.exec_append]
    exact Option.bind_eq_some_iff.mpr ⟨u, hu, hw⟩
  obtain ⟨a', ha'⟩ := exists_traced hrun
  refine ⟨hpaced.2.inOrder, fun msg hm => ⟨?_, ?_⟩, fun command index term hm => ⟨?_, fun t e he =>
    ha'.eq_of_delivered hn hm he⟩⟩
  · rw [hstart] at hm ⊢
    exact (newNode_fields _ _).2.2.2 msg hm
  · rw [hstart] at hm
    exact newNode_stored hm
  · obtain ⟨hpos, t, P, hP, hk⟩ := (ha'.sim.node n hn).impl.sent command index term hm
    obtain ⟨s, -, hs⟩ := ha'.committed hP hk
    refine ⟨s, ?_⟩
    have hindex : index - 1 + 1 = index := Nat.sub_add_cancel hpos
    dsimp only at hs
    rw [hindex] at hs
    exact hs

/-- A node that has crashed has just been started. -/
theorem starts_of_crash (h : step M w (.crash n) = some w') : Starts M n w' := by
  simp only [Raft.step, Option.ite_none_right_eq_some, Option.some.injEq] at h
  obtain ⟨-, rfl⟩ := h
  simp only [Starts, World.restart, Function.update_self]

/-- A node that an action does not leave running has just been started after it. -/
theorem starts_of_not_spares {x : Action Blob} (hspares : ¬Spares M n w x)
    (hx : step M w x = some w') : Starts M n w' := by
  have hcrashed : crashed M w x = some n := not_not.mp hspares
  cases x with
  | run e => cases hcrashed
  | crash m =>
    cases hcrashed
    exact starts_of_crash hx
  | crashIn e k =>
    obtain ⟨y, hy, rfl⟩ := Option.map_eq_some_iff.mp hx
    rw [crashed, hy] at hcrashed
    cases hcrashed
    simp only [Starts, World.restart, Function.update_self]

end Cluster

/-! ### A stored snapshot that is not delivered -/

/-- Node `b` has compacted the first entry of the log when it crashes; `a`, the leader, has
sent it no more than that. -/
def compactedAndCrashed : List (Action ℕ) :=
  electionOf "a" 0 0 ++ replicationTo "a" "b" 2 1 ++ replicationTo "a" "b" 3 2 ++
    [.run (.trigger "b" .applierTake), .run (.trigger "b" .applierSend),
      .run (.trigger "b" .applierAdvance), .run (.trigger "b" (.snapshot 1 5))] ++ [.crash "b"]

/-- The leader goes on with `c`, compacts what it has committed, and finds that `b` needs the
snapshot. It arrives before the applier of `b` has looked. -/
def installedFirst : List (Action ℕ) :=
  [.run (.trigger "a" (.propose 7))] ++ replicationTo "a" "c" 4 3 ++ applyTwo "a" ++
    [.run (.trigger "a" .applierAdvance), .run (.trigger "a" (.snapshot 2 9)),
      .run (.trigger "a" (.sendInstallSnapshot "b")), .run (.deliver 5),
      .run (.trigger "b" .applierTake), .run (.trigger "b" .applierSend)]

/-- The two halves of the run, with what is to be seen of `b` at the end of each. -/
theorem installedFirst_runs :
    ∃ u w, run threeNodes compactedAndCrashed = some u ∧ Starts threeNodes "b" u ∧
      Run.exec (step threeNodes) u installedFirst = some w ∧
      Run.Guarded (step threeNodes) (Spares threeNodes "b") u installedFirst ∧
      (u.nodes "b").pendingSnapshot = some ⟨5, 1, 1⟩ ∧
      (w.nodes "b").applyCh = [.snapshot ⟨9, 2, 1⟩] := by
  have hu : (run threeNodes compactedAndCrashed).map (fun u => (u.nodes "b").pendingSnapshot) =
      some (some ⟨5, 1, 1⟩) := by
    decide +kernel
  obtain ⟨u, hu, hstored⟩ := Option.map_eq_some_iff.mp hu
  have hw : ((run threeNodes compactedAndCrashed).bind fun u =>
      Run.exec (step threeNodes) u installedFirst).map (fun w => (w.nodes "b").applyCh) =
      some [.snapshot ⟨9, 2, 1⟩] := by
    decide +kernel
  rw [hu, Option.bind_some] at hw
  obtain ⟨w, hw, hch⟩ := Option.map_eq_some_iff.mp hw
  have hspares : (run threeNodes compactedAndCrashed).any (fun u =>
      decide (Run.Guarded (step threeNodes) (Spares threeNodes "b") u installedFirst)) = true := by
    decide +kernel
  rw [hu] at hspares
  obtain ⟨v, -, hcrash⟩ := Run.exec_snoc.mp hu
  exact ⟨u, w, hu, starts_of_crash hcrash, hw, of_decide_eq_true hspares, hstored, hch⟩

/-- The theorem at a node that is sent a snapshot before it has applied anything. -/
theorem delivery_in_order_installedFirst :
    ∃ u w, run threeNodes compactedAndCrashed = some u ∧ Starts threeNodes "b" u ∧
      Run.exec (step threeNodes) u installedFirst = some w ∧
      Run.Guarded (step threeNodes) (Spares threeNodes "b") u installedFirst ∧
      InOrder (u.nodes "b").log.firstIndex (u.nodes "b").pendingSnapshot
        (w.nodes "b").applyCh := by
  obtain ⟨u, w, hu, hstart, hw, hspares, -, -⟩ := installedFirst_runs
  exact ⟨u, w, hu, hstart, hw, hspares,
    (delivery_in_order hu (by decide) hstart hw hspares).1⟩

/-- **A restarted node does not deliver its stored snapshot.** It has one, and the first
message that it sends is another. -/
theorem stored_snapshot_superseded :
    ∃ u w msg msg', run threeNodes compactedAndCrashed = some u ∧ Starts threeNodes "b" u ∧
      Run.exec (step threeNodes) u installedFirst = some w ∧
      Run.Guarded (step threeNodes) (Spares threeNodes "b") u installedFirst ∧
      (u.nodes "b").pendingSnapshot = some msg ∧ (w.nodes "b").applyCh.head? = some msg' ∧
      msg' ≠ .snapshot msg := by
  obtain ⟨u, w, hu, hstart, hw, hspares, hstored, hch⟩ := installedFirst_runs
  refine ⟨u, w, _, .snapshot ⟨9, 2, 1⟩, hu, hstart, hw, hspares, hstored, ?_, by decide⟩
  rw [hch]
  rfl

end Raft

end DistQueue
