import DistQueue.Raft.Labels
import DistQueue.Raft.Safety

/-!
# What a node can rely on

Two things that a node believes and never has to take back.

A **leader** believes of every peer that its log agrees with its own up to `matchIndex`.
That is what the peer has accepted in the term, and a member's log carries what it has
accepted as long as it stays in the term (`DistQueue.Raft.matchIndex_sound`), whatever
became of the reply on its way and of the peer in between.

Every **node** believes of the entries up to `commitIndex` that they stay. The handler of
`AppendEntries` assigns the commit index without comparing it to the one before, so that it
does not go back is a property of the requests: a batch reaches past the commit index that
it carries (`DistQueue.Raft.handleAppendEntries_commitIndex_le`). That the entries below it
are not cut off is a property of the ledger: a member does not give up what was chosen by
its term (`DistQueue.Consensus.Moves.keeps_chosen`).
-/

namespace DistQueue

namespace Raft

open Consensus

variable {Blob : Type} {nd : Node Blob} {cfg : Config}

/-! ### The commit index of one node -/

/-- The search for a commit index does not go back. -/
theorem advanceCommitFrom_le {idx ci : ℕ} (h : advanceCommitFrom cfg nd idx = some ci) :
    nd.commitIndex ≤ ci := by
  induction idx with
  | zero => exact le_of_eq (Option.some.inj h)
  | succ idx ih =>
    rw [advanceCommitFrom] at h
    split at h
    · rename_i hrange
      obtain ⟨t, -, h⟩ := Option.bind_eq_some_iff.mp h
      split at h
      · exact le_of_eq (Option.some.inj h)
      split at h
      · cases h
        exact le_of_lt hrange.1
      · exact ih h
    · exact le_of_eq (Option.some.inj h)

/-- A leader learns how far a peer has come. -/
theorem onAppendEntriesReply_commitIndex_le {peer : NodeID} {args : AppendEntriesArgs Blob}
    {reply : AppendEntriesReply} {r : Node Blob × List (Write Blob)}
    (h : onAppendEntriesReply cfg nd peer args reply = some r) :
    nd.commitIndex ≤ r.1.commitIndex := by
  obtain ⟨-, rfl⟩ | ⟨-, rfl⟩ | ⟨-, ⟨-, ci, hci, rfl⟩ | ⟨-, next, -, rfl⟩⟩ :=
    onAppendEntriesReply_cases h
  · exact le_of_eq (becomeFollowerLocked_commitIndex nd reply.term).symm
  · exact le_refl _
  · have hle := advanceCommitFrom_le hci
    exact hle
  · exact le_refl _

/-- The shift of the window leaves its end where it is. -/
theorem shiftWindow_end {l : Log Blob} {args args' : AppendEntriesArgs Blob}
    (h : shiftWindow l args = some args') : args'.leaderCommit = args.leaderCommit ∧
      args'.prevLogIndex + args'.entries.length = args.prevLogIndex + args.entries.length := by
  obtain rfl | ⟨cut, hcut, hle, rfl⟩ := shiftWindow_cases h
  · exact ⟨rfl, rfl⟩
  · refine ⟨rfl, ?_⟩
    dsimp only
    rw [List.length_drop]
    omega

/-- Entries that are taken do not take the commit index back. -/
theorem appendShifted_commitIndex_le {args : AppendEntriesArgs Blob}
    (hlast : args.leaderCommit ≤ args.prevLogIndex + args.entries.length)
    {r : Node Blob × List (Write Blob) × AppendEntriesReply}
    (h : appendShifted cfg nd args = some r) : nd.commitIndex ≤ r.1.commitIndex := by
  obtain ⟨reply, -, -, rfl⟩ | ⟨log, changed, ci, -, -, rfl, rfl⟩ := appendShifted_cases h
  · exact le_refl _
  · dsimp only
    split <;> omega

/-- **A batch that reaches past its commit index does not move the follower's back.** -/
theorem handleAppendEntries_commitIndex_le {args : AppendEntriesArgs Blob}
    (hlast : args.leaderCommit ≤ args.prevLogIndex + args.entries.length)
    {r : Node Blob × List (Write Blob) × AppendEntriesReply}
    (h : handleAppendEntries cfg nd args = some r) : nd.commitIndex ≤ r.1.commitIndex := by
  have hci := observeLeader_commitIndex cfg nd args.term args.leaderID
  obtain ⟨-, rfl⟩ | ⟨reply, -, rfl⟩ | ⟨args', r', hshift, hr', rfl⟩ := handleAppendEntries_cases h
  · exact le_refl _
  · exact le_of_eq hci.symm
  · obtain ⟨hlc, hend⟩ := shiftWindow_end hshift
    have hle := appendShifted_commitIndex_le (by omega) hr'
    exact le_of_eq_of_le hci.symm hle

variable [Inhabited Blob]

/-- **Nor does a snapshot.** -/
theorem handleInstallSnapshot_commitIndex_le {args : InstallSnapshotArgs Blob}
    {r : Node Blob × List (Write Blob) × InstallSnapshotReply}
    (h : handleInstallSnapshot cfg nd args = some r) : nd.commitIndex ≤ r.1.commitIndex := by
  have hci := observeLeader_commitIndex cfg nd args.term args.leaderID
  obtain ⟨-, rfl⟩ | ⟨reply, rfl⟩ | ⟨r', reply, hnew, hr', rfl⟩ := handleInstallSnapshot_cases h
  · exact le_refl _
  · exact le_of_eq hci.symm
  · obtain ⟨tail, -, hr'⟩ := Option.bind_eq_some_iff.mp hr'
    cases hr'
    dsimp only
    omega

variable {M : Membership} {w w' u : World Blob} {a : Ledger NodeID (LogEntry Blob)} {n p : NodeID}
  {x : Effect Blob}

/-- What a node does by itself has no part in the commit index. -/
theorem act_commitIndex {t : Trigger Blob} (h : act cfg nd t = some x) :
    x.node.commitIndex = nd.commitIndex := by
  cases acts_of_act h with
  | electionTimeout hs => rfl
  | propose command =>
    unfold propose
    split <;> rfl
  | sendAppendEntries hpeer hargs => rfl
  | sendInstallSnapshot hpeer hargs => rfl
  | snapshot hr =>
    obtain ⟨-, rfl⟩ | ⟨-, t, tail, -, -, rfl⟩ := snapshot_cases hr
    · rfl
    · rfl
  | applierTake hnd' => rw [applierTake_eq hnd']
  | applierSend hnd' => rw [applierSend_eq hnd']
  | applierAdvance hnd' => rw [applierAdvance_eq hnd']

omit [Inhabited Blob] in
/-- A vote request commits nothing. -/
theorem handleRequestVote_commitIndex (cfg : Config) (nd : Node Blob) (args : RequestVoteArgs) :
    (handleRequestVote cfg nd args).1.commitIndex = nd.commitIndex := by
  have hobs : (observeTerm cfg nd args.term).1.commitIndex = nd.commitIndex := by
    unfold observeTerm
    split
    · exact becomeFollowerLocked_commitIndex nd args.term
    · rfl
  rw [← hobs, handleRequestVote]
  dsimp only
  unfold castVote
  split
  · rfl
  · split <;> rfl

/-- A vote commits nothing. -/
theorem onRequestVoteReply_commitIndex (cfg : Config) (nd : Node Blob) (term : ℕ)
    (reply : RequestVoteReply) :
    (onRequestVoteReply cfg nd term reply).1.commitIndex = nd.commitIndex := by
  have hobs : ∀ {r}, onRequestVoteReply cfg nd term reply = r →
      (onRequestVoteReply cfg nd term reply).1.commitIndex = r.1.commitIndex :=
    fun heq => congrArg (fun r => r.1.commitIndex) heq
  rcases onRequestVoteReply_cases cfg nd term reply with
    ⟨-, heq⟩ | ⟨-, heq⟩ | ⟨-, ⟨-, heq⟩ | ⟨-, heq⟩⟩
  · exact (hobs heq).trans (becomeFollowerLocked_commitIndex nd reply.term)
  · exact hobs heq
  · exact hobs heq
  · exact hobs heq

omit [Inhabited Blob] in
/-- The answer to a snapshot commits nothing. -/
theorem onInstallSnapshotReply_commitIndex (cfg : Config) (nd : Node Blob) (peer : NodeID)
    (args : InstallSnapshotArgs Blob) (reply : InstallSnapshotReply) :
    (onInstallSnapshotReply cfg nd peer args reply).1.commitIndex = nd.commitIndex := by
  rcases onInstallSnapshotReply_cases cfg nd peer args reply with
    ⟨-, heq⟩ | ⟨-, heq⟩ | ⟨-, heq⟩ <;> rw [heq]
  · exact becomeFollowerLocked_commitIndex nd reply.term
  · rfl

/-- **No section moves a commit index back.** -/
theorem Sim.commitIndex_le (hsim : Sim M w a) {e : Event Blob} (hx : Raft.effect M w e = some x) :
    (w.nodes x.actor).commitIndex ≤ x.node.commitIndex := by
  refine (effect_rule (P := fun n x => (w.nodes n).commitIndex ≤ x.node.commitIndex)
    ?_ ?_ ?_ hx).2
  · intro n _ t x _ hx
    exact le_of_eq (act_commitIndex hx).symm
  · intro k c x hc hx
    have hreq := (hsim.call c (List.mem_of_getElem? hc)).request
    cases hq : c.request with
    | requestVote args =>
      rw [hq] at hx
      rw [← Option.some.inj hx]
      exact le_of_eq (handleRequestVote_commitIndex _ _ args).symm
    | appendEntries args =>
      rw [hq] at hx hreq
      obtain ⟨r, hr, hx⟩ := Option.bind_eq_some_iff.mp hx
      rw [← Option.some.inj hx]
      -- the batch is the rest of a list that the commit index lies within
      obtain ⟨L, G, -, -, hprev, -, hes, hlc, -⟩ := hreq
      refine handleAppendEntries_commitIndex_le ?_ hr
      rw [hes, List.length_drop]
      omega
    | installSnapshot args =>
      rw [hq] at hx
      obtain ⟨r, hr, hx⟩ := Option.bind_eq_some_iff.mp hx
      rw [← Option.some.inj hx]
      exact handleInstallSnapshot_commitIndex_le hr
  · intro k c reply x _ _ hx
    unfold Raft.onReply at hx
    split at hx
    · rw [← Option.some.inj hx]
      exact le_of_eq (onRequestVoteReply_commitIndex _ _ _ _).symm
    · obtain ⟨r, hr, hx⟩ := Option.bind_eq_some_iff.mp hx
      rw [← Option.some.inj hx]
      exact onAppendEntriesReply_commitIndex_le hr
    · rw [← Option.some.inj hx]
      exact le_of_eq (onInstallSnapshotReply_commitIndex _ _ _ _ _).symm
    · cases hx

/-! ### The committed entries -/

variable [DecidableEq Blob]

/-- Whether an action leaves a node running. -/
def Spares (M : Membership) (n : NodeID) (w : World Blob) (x : Action Blob) : Prop :=
  crashed M w x ≠ some n

instance (n : NodeID) (w : World Blob) (x : Action Blob) : Decidable (Spares M n w x) :=
  inferInstanceAs (Decidable (crashed M w x ≠ some n))

/-- What an action is for a node that it spares: a section of its own, or nothing. -/
theorem step_of_spares {x : Action Blob} (hspares : Spares M n w x) (hx : step M w x = some w') :
    w'.nodes n = w.nodes n ∨ ∃ e y, effect M w e = some y ∧ y.actor = n ∧ w'.nodes n = y.node := by
  cases x with
  | run e =>
    obtain ⟨y, hy, rfl⟩ := Option.map_eq_some_iff.mp hx
    rcases eq_or_ne n y.actor with rfl | hne
    · exact .inr ⟨e, y, hy, rfl, Function.update_self ..⟩
    · exact .inl (Function.update_of_ne hne _ _)
  | crash m =>
    simp only [Raft.step, Option.ite_none_right_eq_some, Option.some.injEq] at hx
    obtain ⟨-, rfl⟩ := hx
    have hne : n ≠ m := fun heq => hspares (congrArg some heq.symm)
    exact .inl (Function.update_of_ne hne _ _)
  | crashIn e k =>
    obtain ⟨y, hy, rfl⟩ := Option.map_eq_some_iff.mp hx
    have hne : n ≠ y.actor := by
      rintro rfl
      exact hspares (by rw [crashed, hy]; rfl)
    exact .inl (Function.update_of_ne hne _ _)

/-- Every action moves the ledger by steps of one member. -/
theorem Sim.moves (hsim : Sim M w a) {x : Action Blob} (hx : Raft.step M w x = some w') :
    ∃ a' m, Moves M.rules m a a' ∧ Sim M w' a' := by
  cases x with
  | run e =>
    obtain ⟨y, hy, rfl⟩ := Option.map_eq_some_iff.mp hx
    obtain ⟨a', hout, hsim'⟩ := hsim.effect hy
    exact ⟨a', _, hout.moves, hsim'⟩
  | crash m =>
    simp only [Raft.step, Option.ite_none_right_eq_some, Option.some.injEq] at hx
    obtain ⟨hm, rfl⟩ := hx
    exact ⟨a, m, Moves.refl a, hsim.restart hm (Moves.refl a) hsim.good (hsim.node m hm).stored⟩
  | crashIn e k =>
    obtain ⟨y, hy, rfl⟩ := Option.map_eq_some_iff.mp hx
    obtain ⟨a', hout, -⟩ := hsim.effect hy
    obtain ⟨b, hm, hg, hp, -⟩ := hout.crash k
    exact ⟨b, _, hm, hsim.restart hout.after.mem hm hg hp⟩

/-- **A list that a member holds and that is chosen by its term.** -/
def Secured (M : Membership) (n : NodeID) (P : List (LogEntry Blob)) (w : World Blob) : Prop :=
  ∃ a, Sim M w a ∧ Chosen a (a.cur n) P ∧ P <+: a.log n

/-- **Every action leaves it secured**, a crash of the member included. -/
theorem Secured.step {P : List (LogEntry Blob)} (h : Secured M n P w) {x : Action Blob}
    (hx : Raft.step M w x = some w') : Secured M n P w' := by
  obtain ⟨a, hsim, hc, hp⟩ := h
  obtain ⟨a', m, hm, hsim'⟩ := hsim.moves hx
  refine ⟨a', hsim', ?_⟩
  rcases eq_or_ne n m with rfl | hne
  · exact hm.keeps_chosen hsim.good.inv hc hp
  · -- another member's moves leave the log alone
    have hu := hm.frame hne
    rw [hu.cur, hu.log]
    exact ⟨hc.mono (hm.inv_le hsim.good.inv).2, hp⟩

omit [DecidableEq Blob] in
/-- An entry that is secured is held, unless it is compacted away. -/
theorem Secured.entryAt {P : List (LogEntry Blob)} (h : Secured M n P w) (hn : n ∈ M.ids) {i : ℕ}
    {e : LogEntry Blob} (he : P[i - 1]? = some e) :
    i ≤ (w.nodes n).log.firstIndex ∨ (w.nodes n).log.entryAt i = some e := by
  obtain ⟨a, hsim, -, hp⟩ := h
  rcases Nat.lt_or_ge (w.nodes n).log.firstIndex i with hlt | hge
  · right
    rw [hsim.entryAt_eq hn hlt]
    exact prefix_getElem?_some hp he
  · exact .inl hge

/-- **The committed prefix of a node is stable.** From any state of a run, whatever happens
next: as long as the node does not crash its commit index does not go back, and an entry at
or below the commit index is neither cut off nor replaced, by a crash of the node or
anything else, unless it is compacted away. -/
theorem committed_prefix_stable {xs ys : List (Action Blob)} (hu : run M xs = some u)
    (hw : Run.exec (step M) u ys = some w) (hn : n ∈ M.ids) :
    (Run.Guarded (step M) (Spares M n) u ys →
      (u.nodes n).commitIndex ≤ (w.nodes n).commitIndex) ∧
    ∀ i e, (u.nodes n).log.firstIndex < i → i ≤ (u.nodes n).commitIndex →
      (u.nodes n).log.entryAt i = some e →
      i ≤ (w.nodes n).log.firstIndex ∨ (w.nodes n).log.entryAt i = some e := by
  obtain ⟨a, ha⟩ := exists_traced hu
  have hsim := ha.sim
  constructor
  · intro hspares
    have hrun : (∃ b, Sim M w b) ∧ (u.nodes n).commitIndex ≤ (w.nodes n).commitIndex := by
      refine Run.invariant_of_guarded
        (P := fun v => (∃ b, Sim M v b) ∧ (u.nodes n).commitIndex ≤ (v.nodes n).commitIndex)
        ⟨⟨a, hsim⟩, le_refl _⟩ ?_ hspares hw
      rintro v x v' ⟨⟨b, hb⟩, hle⟩ hx hstep
      obtain ⟨b', -, hb', -⟩ := hb.step hstep
      refine ⟨⟨b', hb'⟩, le_trans hle ?_⟩
      rcases step_of_spares hx hstep with heq | ⟨e, y, hy, rfl, heq⟩
      · rw [heq]
      · rw [heq]
        exact hb.commitIndex_le hy
    exact hrun.2
  · intro i e hlo hhi he
    rw [hsim.entryAt_eq hn hlo] at he
    have himpl := (hsim.node n hn).impl
    have hsecured : Secured M n ((a.log n).take (u.nodes n).commitIndex) w :=
      Run.invariant (P := Secured M n _) ⟨a, hsim, himpl.commit_chosen, List.take_prefix _ _⟩
        (fun v x v' hv hstep => hv.step hstep) hw
    refine hsecured.entryAt hn ?_
    rw [List.getElem?_take_of_lt (by omega)]
    exact he

/-- Node `a` is elected and replicates a command to `b`, which does not know yet that it is
committed. -/
def replicated : List (Action ℕ) :=
  electionOf "a" 0 0 ++ [.run (.trigger "a" (.propose 7))] ++ replicationTo "a" "b" 2 1

/-- It applies the command and hands over a snapshot, and `b` hears of the commit index from
a request that was sent before. -/
def compacted : List (Action ℕ) :=
  applyTwo "a" ++ [.run (.trigger "a" .applierAdvance),
    .run (.trigger "a" (.sendAppendEntries "b")), .run (.trigger "a" (.snapshot 1 5)),
    .run (.deliver 3), .crash "b"]

/-- The theorem at a run in which the log is compacted. -/
theorem committed_prefix_stable_compacted :
    ∃ u w, run threeNodes replicated = some u ∧ Run.exec (step threeNodes) u compacted = some w ∧
      (u.nodes "a").commitIndex = 2 ∧ (w.nodes "a").log.firstIndex = 1 ∧
      (u.nodes "a").commitIndex ≤ (w.nodes "a").commitIndex ∧
      ∀ i e, (u.nodes "a").log.firstIndex < i → i ≤ (u.nodes "a").commitIndex →
        (u.nodes "a").log.entryAt i = some e →
        i ≤ (w.nodes "a").log.firstIndex ∨ (w.nodes "a").log.entryAt i = some e := by
  have hu : (run threeNodes replicated).map (fun u => (u.nodes "a").commitIndex) = some 2 := by
    decide +kernel
  obtain ⟨u, hu, hcommit⟩ := Option.map_eq_some_iff.mp hu
  have hw : ((run threeNodes replicated).bind fun u => Run.exec (step threeNodes) u compacted).map
      (fun w => (w.nodes "a").log.firstIndex) = some 1 := by
    decide +kernel
  rw [hu, Option.bind_some] at hw
  obtain ⟨w, hw, hfirst⟩ := Option.map_eq_some_iff.mp hw
  have hspares : (run threeNodes replicated).any (fun u =>
      decide (Run.Guarded (step threeNodes) (Spares threeNodes "a") u compacted)) = true := by
    decide +kernel
  rw [hu] at hspares
  obtain ⟨hle, hkept⟩ := committed_prefix_stable hu hw (n := "a") (by decide)
  exact ⟨u, w, hu, hw, hcommit, hfirst, hle (of_decide_eq_true hspares), hkept⟩

/-! ### What a leader believes of its peers -/

/-- **The match index is sound.** A peer in the term of a leader has a log that reaches to
the leader's match index for it, and up to there the two logs hold the same entries, as far
as neither has compacted them away. -/
theorem matchIndex_sound {as : List (Action Blob)} (hw : Visits M as w) (hn : n ∈ M.ids)
    (hp : p ∈ M.ids) (hs : (w.nodes n).state = .leader)
    (hterm : (w.nodes p).currentTerm = (w.nodes n).currentTerm) :
    (w.nodes n).matchIndex p ≤ (w.nodes p).log.lastIndex ∧
      ∀ i, (w.nodes p).log.firstIndex < i → (w.nodes n).log.firstIndex < i →
        i ≤ (w.nodes n).matchIndex p →
        ∃ e, (w.nodes p).log.entryAt i = some e ∧ (w.nodes n).log.entryAt i = some e := by
  obtain ⟨a, -, hvisit, -⟩ := exists_ledger hw.1
  obtain ⟨b, hsim, -⟩ := hvisit w hw
  have hnode := hsim.node n hn
  have hpeer := hsim.node p hp
  rw [hnode.term_eq, hpeer.term_eq] at hterm
  have hlead := hnode.impl.leader hs
  have hmatch := hnode.impl.matched hs p hp
  -- no term lies between the leader's and the peer's, so the peer holds what it accepted
  have hheld : (b.log n).take ((w.nodes n).matchIndex p) <+: b.log p := by
    refine hsim.good.inv.acked_log p (b.cur n) n (b.log n) _ (by omega) hlead hmatch ?_
    intro t c L hlo hhi
    omega
  have hlen : (w.nodes n).matchIndex p ≤ (b.log n).length :=
    le_trans hmatch (hsim.good.inv.acked_le hlead p)
  have hheldLen := hheld.length_le
  rw [List.length_take_of_le hlen] at hheldLen
  refine ⟨by rw [hpeer.lastIndex_eq]; exact hheldLen, fun i hpi hni hi => ?_⟩
  obtain ⟨e, he⟩ := hsim.exists_entryAt hn hni (le_trans hi hlen)
  refine ⟨e, ?_, he⟩
  rw [hsim.entryAt_eq hn hni] at he
  rw [hsim.entryAt_eq hp hpi]
  refine prefix_getElem?_some hheld ?_
  rw [List.getElem?_take_of_lt (by omega)]
  exact he

/-- The theorem at a leader whose follower has acknowledged two entries. -/
theorem matchIndex_sound_replicated :
    ∃ w, run threeNodes replicated = some w ∧ (w.nodes "a").state = .leader ∧
      (w.nodes "b").currentTerm = (w.nodes "a").currentTerm ∧ (w.nodes "a").matchIndex "b" = 2 ∧
      (w.nodes "a").matchIndex "b" ≤ (w.nodes "b").log.lastIndex ∧
      ∀ i, (w.nodes "b").log.firstIndex < i → (w.nodes "a").log.firstIndex < i →
        i ≤ (w.nodes "a").matchIndex "b" →
        ∃ e, (w.nodes "b").log.entryAt i = some e ∧ (w.nodes "a").log.entryAt i = some e := by
  have hend : (run threeNodes replicated).map (fun w => ((w.nodes "a").state,
      (w.nodes "a").currentTerm, (w.nodes "b").currentTerm, (w.nodes "a").matchIndex "b")) =
      some (.leader, 1, 1, 2) := by
    decide +kernel
  obtain ⟨w, hw, hend⟩ := Option.map_eq_some_iff.mp hend
  obtain ⟨hs, ht, ht', hmatch⟩ : (w.nodes "a").state = .leader ∧ (w.nodes "a").currentTerm = 1 ∧
      (w.nodes "b").currentTerm = 1 ∧ (w.nodes "a").matchIndex "b" = 2 := by
    simpa using hend
  have hvisits : Visits threeNodes replicated w := ⟨by rw [hw]; rfl, _, List.prefix_refl _, hw⟩
  exact ⟨w, hw, hs, ht'.trans ht.symm, hmatch,
    matchIndex_sound hvisits (by decide) (by decide) hs (ht'.trans ht.symm)⟩

end Raft

end DistQueue
