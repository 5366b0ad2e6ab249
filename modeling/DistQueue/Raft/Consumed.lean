import DistQueue.Raft.Order

/-!
# Snapshots of what has just been consumed

The state machine may hand over a snapshot of an index as soon as it has consumed the command of
that index, says the applier's comment, which is why `lastApplied` advances with every entry and
not with every batch. But it advances behind the send, in a section of its own. A state machine
that is faster than that calls `Snapshot` in between, with an index that is not applied yet as
far as the node knows, and the call is ignored (`DistQueue.Raft.consumed_snapshot_ignored`).

This is the only case in which it is (`DistQueue.Raft.consumed_snapshot_iff`): the indices on the
channel increase, so all but the last one have been recorded.
-/

namespace DistQueue

namespace Raft

open Consensus

variable {Blob : Type}

/-- The messages of a channel bring their reader on and never back. -/
theorem InOrder.index_le {b : ℕ} {stored : Option (SnapshotMsg Blob)} {msgs : List (ApplyMsg Blob)}
    (h : InOrder b stored msgs) {msg : ApplyMsg Blob} (hmsg : msg ∈ msgs) :
    msg.index ≤ progressFrom b msgs := by
  induction msgs using List.reverseRecOn with
  | nil => cases hmsg
  | append_singleton msgs last ih =>
    rw [progressFrom_concat]
    rcases List.mem_append.mp hmsg with hmsg | hmsg
    · have hle := ih (fun pre m hp => h pre m (hp.trans (List.prefix_append _ _))) hmsg
      have hne : msgs ≠ [] := List.ne_nil_of_mem hmsg
      have hlast := h msgs last (List.prefix_refl _)
      cases last with
      | command command index term =>
        obtain ⟨rfl, -⟩ := hlast
        exact hle.trans (Nat.le_succ _)
      | snapshot snap =>
        rcases hlast with hlt | ⟨hnil, -⟩
        · exact hle.trans hlt.le
        · exact absurd hnil hne
    · rw [List.mem_singleton.mp hmsg]

/-- **What has been sent is recorded as applied**, but for the entry that the applier has sent
last. -/
theorem Paced.lastApplied_cases {b : ℕ} {stored : Option (SnapshotMsg Blob)} {nd : Node Blob}
    (h : Paced b stored nd) {msg : ApplyMsg Blob} (hmsg : msg ∈ nd.applyCh) :
    msg.index ≤ nd.lastApplied ∨
      ∃ e batch, nd.applier = .sent e batch ∧ e.index = msg.index ∧ nd.lastApplied < e.index := by
  have hle := h.inOrder.index_le hmsg
  have hcourse := h.onCourse
  unfold OnCourse at hcourse
  cases happ : nd.applier with
  | waiting =>
    simp only [happ] at hcourse
    exact .inl (hle.trans_eq hcourse)
  | snapshot snap =>
    simp only [happ] at hcourse
    obtain ⟨hindex, hlt | ⟨hnil, -⟩⟩ := hcourse
    · exact .inl (hle.trans (hlt.le.trans_eq hindex))
    · exact absurd hnil (List.ne_nil_of_mem hmsg)
  | sending batch =>
    simp only [happ] at hcourse
    exact .inl (hle.trans_eq hcourse.1)
  | sent e batch =>
    simp only [happ] at hcourse
    obtain ⟨hprogress, hnext, -⟩ := hcourse
    by_cases heq : e.index = msg.index
    · exact .inr ⟨e, batch, rfl, heq, by omega⟩
    · exact .inl (by omega)

section Cluster

variable [Inhabited Blob] [DecidableEq Blob] {M : Membership} {w w' : World Blob} {n : NodeID}

/-- **Every incarnation of every member delivers in order.** -/
theorem exists_paced {as : List (Action Blob)} (hrun : run M as = some w) (n : NodeID) :
    (∃ a, Sim M w a) ∧ ∃ b stored, Paced b stored (w.nodes n) := by
  refine Run.invariant (P := fun v => (∃ a, Sim M v a) ∧ ∃ b stored, Paced b stored (v.nodes n))
    ⟨⟨_, sim_start M⟩, _, _, paced_newNode _ _⟩ ?_ hrun
  rintro v x v' ⟨⟨a, ha⟩, b, stored, hv⟩ hx
  obtain ⟨a', -, ha', -⟩ := ha.step hx
  refine ⟨⟨a', ha'⟩, ?_⟩
  by_cases hspares : Spares M n v x
  · rcases step_of_spares hspares hx with heq | ⟨e, y, hy, hactor, heq⟩
    · rw [heq]
      exact ⟨b, stored, hv⟩
    · rw [heq]
      exact ⟨b, stored, hv.effect ha hy hactor⟩
  · rw [starts_of_not_spares hspares hx]
    exact ⟨_, _, paced_newNode _ _⟩

omit [DecidableEq Blob] in
/-- The call takes effect if the index is above the boundary and recorded as applied, and
otherwise it is ignored. -/
theorem snapshot_of_applied {cfg : Config} {nd : Node Blob} {index : ℕ} {data : Blob}
    {r : Node Blob × List (Write Blob)} (hr : snapshot cfg nd index data = some r)
    (hfirst : nd.log.firstIndex < index) :
    (r.1.log.firstIndex = index ∧ r.1.snapshot = some data) ∧ index ≤ nd.lastApplied ∨
      r.1.log.firstIndex ≠ index ∧ nd.lastApplied < index := by
  obtain ⟨hno, rfl⟩ | ⟨⟨-, hle⟩, t, tail, -, -, rfl⟩ := snapshot_cases hr
  · exact .inr ⟨hfirst.ne, by omega⟩
  · exact .inl ⟨⟨rfl, rfl⟩, hle⟩

/-- **When a consumed index can be snapshotted.** In every state of every run, a node has sent the
command of an index, its boundary is below the index, and its state machine hands over a snapshot
of the index. The boundary becomes the index, and the data the snapshot of the node, if and only
if the applier is not between the send of the command and recording it in `lastApplied`. -/
theorem consumed_snapshot_iff {as : List (Action Blob)} (hrun : run M as = some w)
    (hn : n ∈ M.ids) {command : Blob} {index term : ℕ}
    (hsent : ApplyMsg.command command index term ∈ (w.nodes n).applyCh)
    (hfirst : (w.nodes n).log.firstIndex < index) (data : Blob) :
    (∃ w', step M w (.run (.trigger n (.snapshot index data))) = some w' ∧
      (w'.nodes n).log.firstIndex = index ∧ (w'.nodes n).snapshot = some data) ↔
    ∀ e batch, (w.nodes n).applier = .sent e batch → e.index ≠ index := by
  obtain ⟨⟨a, hsim⟩, b, stored, hpaced⟩ := exists_paced hrun n
  obtain ⟨r, hr, -⟩ := (hsim.node n hn).snapshot index data
  -- what the step makes of the node is what the section does
  have hstep : ∃ w', step M w (.run (.trigger n (.snapshot index data))) = some w' ∧
      w'.nodes n = r.1 := by
    refine ⟨_, by simp only [step, effect, if_pos hn, act, hr]; rfl, ?_⟩
    simp only [World.commit, M.config_id n hn, Function.update_self]
  obtain ⟨w', hw', hnode⟩ := hstep
  have hcases := snapshot_of_applied hr hfirst
  constructor
  · rintro ⟨w'', hw'', hindex, -⟩ e batch happ rfl
    obtain rfl := Option.some.inj (hw'.symm.trans hw'')
    rw [hnode] at hindex
    rcases hcases with ⟨-, happlied⟩ | ⟨hne, -⟩
    · have hcourse := hpaced.onCourse
      simp only [OnCourse, happ] at hcourse
      omega
    · exact hne hindex
  · intro hrecorded
    refine ⟨w', hw', ?_⟩
    rw [hnode]
    rcases hcases with ⟨htaken, -⟩ | ⟨-, hlt⟩
    · exact htaken
    · rcases hpaced.lastApplied_cases hsent with hle | ⟨e, batch, happ, heq, -⟩
      · exact absurd hle (Nat.not_le.mpr hlt)
      · exact absurd heq (hrecorded e batch happ)

end Cluster

/-- `a` has committed the first entry of its term, and its applier has sent it. -/
def sentFirst : List (Action ℕ) :=
  electionOf "a" 0 0 ++ replicationTo "a" "b" 2 1 ++
    [.run (.trigger "a" .applierTake), .run (.trigger "a" .applierSend)]

theorem consumed_snapshot_iff_recorded :
    ∃ w w', run threeNodes (sentFirst ++ [.run (.trigger "a" .applierAdvance)]) = some w ∧
      ApplyMsg.command 0 1 1 ∈ (w.nodes "a").applyCh ∧ (w.nodes "a").log.firstIndex < 1 ∧
      step threeNodes w (.run (.trigger "a" (.snapshot 1 9))) = some w' ∧
      (w'.nodes "a").log.firstIndex = 1 ∧ (w'.nodes "a").snapshot = some 9 := by
  obtain ⟨w, hrun, hobs⟩ : ∃ w,
      run threeNodes (sentFirst ++ [.run (.trigger "a" .applierAdvance)]) = some w ∧
      ((w.nodes "a").applyCh, (w.nodes "a").log.firstIndex, (w.nodes "a").applier) =
        ([.command 0 1 1], 0, .sending []) :=
    Option.map_eq_some_iff.mp (by decide +kernel)
  obtain ⟨hch, hobs⟩ := Prod.mk.inj hobs
  obtain ⟨hfirst, happ⟩ := Prod.mk.inj hobs
  have hsent : ApplyMsg.command 0 1 1 ∈ (w.nodes "a").applyCh := hch ▸ List.mem_cons_self
  have hlt : (w.nodes "a").log.firstIndex < 1 := by omega
  obtain ⟨w', hw', htaken⟩ := (consumed_snapshot_iff hrun (by decide) hsent hlt 9).mpr
    fun e batch hsent' => by rw [happ] at hsent'; cases hsent'
  exact ⟨w, w', hrun, hsent, hlt, hw', htaken⟩

/-- The state machine of `a` has consumed the first command, and hands over a snapshot of it
before the applier has taken the lock again: the node keeps its log and has no snapshot. -/
theorem consumed_snapshot_ignored :
    ∃ w w', run threeNodes sentFirst = some w ∧
      (w.nodes "a").applyCh = [.command 0 1 1] ∧ (w.nodes "a").log.firstIndex = 0 ∧
      step threeNodes w (.run (.trigger "a" (.snapshot 1 9))) = some w' ∧
      (w'.nodes "a").log.firstIndex = 0 ∧ (w'.nodes "a").snapshot = none := by
  obtain ⟨⟨w, w'⟩, hpair, hobs⟩ : ∃ p : World ℕ × World ℕ,
      ((run threeNodes sentFirst).bind fun w =>
        (step threeNodes w (.run (.trigger "a" (.snapshot 1 9)))).map fun w' => (w, w')) = some p ∧
      ((p.1.nodes "a").applyCh, (p.1.nodes "a").log.firstIndex, (p.2.nodes "a").log.firstIndex,
        (p.2.nodes "a").snapshot) = ([.command 0 1 1], 0, 0, none) :=
    Option.map_eq_some_iff.mp (by decide +kernel)
  obtain ⟨u, hrun, hpair⟩ := Option.bind_eq_some_iff.mp hpair
  obtain ⟨u', hstep, hpair⟩ := Option.map_eq_some_iff.mp hpair
  obtain ⟨rfl, rfl⟩ := Prod.mk.inj hpair
  obtain ⟨hch, hobs⟩ := Prod.mk.inj hobs
  obtain ⟨hfirst, hobs⟩ := Prod.mk.inj hobs
  obtain ⟨hfirst', hsnap⟩ := Prod.mk.inj hobs
  exact ⟨u, u', hrun, hch, hfirst, hstep, hfirst', hsnap⟩

end Raft

end DistQueue
