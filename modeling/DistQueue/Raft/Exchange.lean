import DistQueue.Raft.Backtracking
import DistQueue.Raft.Order

/-!
# The exchange between a leader and one follower

A leader sends a peer its entries from the next index on, or its snapshot if they are compacted
away; the peer handles the request, and the leader processes the reply
(`DistQueue.Raft.round`). Repeated in this way, without anything in between, the exchange brings
the peer's log in line with the leader's (`DistQueue.Raft.exchange_converges`).

The measure is the next index, which every rejection decreases. It may fall to the boundary of
the leader's log. Then the snapshot is shipped, and the next index is one past what the leader
knows to be in agreement, where it is not refused.

That there always is something to send is an invariant of the node alone
(`DistQueue.Raft.Equipped`), except that a node that is started again needs its snapshot file not
to be empty.
-/

namespace DistQueue

namespace Raft

open Consensus

variable {Blob : Type} {nd nd' : Node Blob} {cfg : Config}

/-! ### What a leader has to send -/

/-- **A leader has something to send**: its entries, or a snapshot of what it has compacted
away. -/
structure Equipped (cfg : Config) (nd : Node Blob) : Prop where
  next : nd.state = .leader → ∀ p ∈ cfg.peers, 0 < nd.nextIndex p
  snapshot : nd.log.firstIndex ≠ 0 → nd.snapshot.isSome

namespace Equipped

/-- Indices that are kept are still positive. -/
theorem next_of_keeps (h : Equipped cfg nd) (hk : KeepsNext nd nd') :
    nd'.state = .leader → ∀ p ∈ cfg.peers, 0 < nd'.nextIndex p := by
  intro hs p hp
  obtain ⟨hs', hnext, -⟩ := hk hs
  rw [hnext]
  exact h.next hs' p hp

/-- The snapshot is still there. -/
theorem snapshot_of_same (h : Equipped cfg nd) (hsame : SameDelivery nd nd') :
    nd'.log.firstIndex ≠ 0 → nd'.snapshot.isSome := by
  rw [hsame.firstIndex, hsame.snapshot]
  exact h.snapshot

/-- **What leaves indices and snapshot alone keeps the node equipped.** -/
theorem keeps (h : Equipped cfg nd) (hk : KeepsNext nd nd') (hsame : SameDelivery nd nd') :
    Equipped cfg nd' := ⟨h.next_of_keeps hk, h.snapshot_of_same hsame⟩

/-- One index moves, to a positive one. -/
theorem next_update (h : Equipped cfg nd) (hs : nd.state = .leader) {peer : NodeID} {next : ℕ}
    (hnext : 0 < next) : ∀ p ∈ cfg.peers, 0 < Function.update nd.nextIndex peer next p := by
  intro p hp
  rcases eq_or_ne p peer with rfl | hne
  · rw [Function.update_self]
    exact hnext
  · rw [Function.update_of_ne hne]
    exact h.next hs p hp

end Equipped

/-- No rejection leaves the next index at `0`. -/
theorem nextAfterConflict_pos {reply : AppendEntriesReply} {next : ℕ}
    (h : nextAfterConflict nd reply = some next) : 0 < next := by
  obtain ⟨k, rfl, -⟩ := nextAfterConflict_cases h
  omega

/-- The answer to a snapshot that is not stale is of the term of the request. -/
theorem handleInstallSnapshot_term [Inhabited Blob] {args : InstallSnapshotArgs Blob}
    {r : Node Blob × List (Write Blob) × InstallSnapshotReply}
    (hterm : nd.currentTerm ≤ args.term) (h : handleInstallSnapshot cfg nd args = some r) :
    r.1.currentTerm = args.term ∧ r.2.2.term = args.term := by
  have hcur := (observeLeader_currentTerm cfg nd args.term args.leaderID).trans (max_eq_right hterm)
  unfold handleInstallSnapshot at h
  rw [if_neg (Nat.not_lt.mpr hterm)] at h
  generalize observeLeader cfg nd args.term args.leaderID = o at h hcur
  obtain ⟨nd₁, ws₁⟩ := o
  dsimp only at h hcur
  split at h
  · cases h
    exact ⟨hcur, hcur⟩
  · obtain ⟨r', hr', h⟩ := Option.bind_eq_some_iff.mp h
    obtain ⟨tail, -, hr'⟩ := Option.bind_eq_some_iff.mp hr'
    cases hr'
    cases h
    exact ⟨hcur, hcur⟩

/-! What a reply says to a leader that is still in the term of its request. -/

/-- What a leader makes of an answer of its own term. -/
theorem onAppendEntriesReply_current {peer : NodeID} {args : AppendEntriesArgs Blob}
    {reply : AppendEntriesReply} {r : Node Blob × List (Write Blob)} (hs : nd.state = .leader)
    (hargs : args.term = nd.currentTerm) (hreply : reply.term ≤ nd.currentTerm)
    (h : onAppendEntriesReply cfg nd peer args reply = some r) :
    (reply.success = true ∧ ∃ ci,
      advanceCommitFrom cfg (nd.learn peer (args.prevLogIndex + args.entries.length))
        nd.log.lastIndex = some ci ∧
      r = ({ nd.learn peer (args.prevLogIndex + args.entries.length) with
        commitIndex := ci }, [])) ∨
    (reply.success = false ∧ ∃ next, nextAfterConflict nd reply = some next ∧
      r = ({ nd with nextIndex := Function.update nd.nextIndex peer next }, [])) := by
  obtain ⟨hlater, -⟩ | ⟨hstale, -⟩ | ⟨-, hcur⟩ := onAppendEntriesReply_cases h
  · exact absurd hlater (Nat.not_lt.mpr hreply)
  · exact absurd ⟨hs, hargs⟩ hstale
  · exact hcur

/-- What it makes of the answer to a snapshot. -/
theorem onInstallSnapshotReply_current {peer : NodeID} {args : InstallSnapshotArgs Blob}
    {reply : InstallSnapshotReply} (hs : nd.state = .leader) (hargs : args.term = nd.currentTerm)
    (hreply : reply.term ≤ nd.currentTerm) :
    onInstallSnapshotReply cfg nd peer args reply = (nd.learn peer args.lastIncludedIndex, []) := by
  obtain ⟨hlater, -⟩ | ⟨hstale, -⟩ | ⟨-, hcur⟩ :=
    onInstallSnapshotReply_cases cfg nd peer args reply
  · exact absurd hlater (Nat.not_lt.mpr hreply)
  · exact absurd ⟨hs, hargs⟩ hstale
  · exact hcur

section Sections

variable [Inhabited Blob] {x : Effect Blob}

/-- **A candidate that wins** begins at the end of its log. -/
theorem Equipped.onRequestVoteReply (h : Equipped cfg nd) (term : ℕ) (reply : RequestVoteReply) :
    Equipped cfg (onRequestVoteReply cfg nd term reply).1 := by
  refine ⟨?_, h.snapshot_of_same (quiet_onRequestVoteReply nd term reply).same⟩
  rcases onRequestVoteReply_cases cfg nd term reply with
    ⟨-, heq⟩ | ⟨-, heq⟩ | ⟨-, ⟨-, heq⟩ | ⟨-, heq⟩⟩ <;> rw [heq]
  · exact h.next_of_keeps (keepsNext_becomeFollower nd reply.term)
  · exact h.next
  · intro _ p hp
    simp only [becomeLeaderLocked, if_pos hp]
    exact Nat.succ_pos _
  · exact h.next_of_keeps (keepsNext_of_eq rfl rfl rfl)

omit [Inhabited Blob] in
/-- An answer leaves the leader equipped. -/
theorem Equipped.onAppendEntriesReply (h : Equipped cfg nd) {peer : NodeID}
    {args : AppendEntriesArgs Blob} {reply : AppendEntriesReply}
    {r : Node Blob × List (Write Blob)}
    (hr : onAppendEntriesReply cfg nd peer args reply = some r) : Equipped cfg r.1 := by
  refine ⟨?_, h.snapshot_of_same (quiet_onAppendEntriesReply hr).same⟩
  obtain ⟨-, rfl⟩ | ⟨-, rfl⟩ | ⟨⟨hs, -⟩, ⟨-, ci, -, rfl⟩ | ⟨-, next, hnext, rfl⟩⟩ :=
    onAppendEntriesReply_cases hr
  · exact h.next_of_keeps (keepsNext_becomeFollower nd reply.term)
  · exact h.next
  · exact fun _ => h.next_update hs (Nat.succ_pos _)
  · exact fun _ => h.next_update hs (nextAfterConflict_pos hnext)

omit [Inhabited Blob] in
/-- The answer to a snapshot leaves the leader equipped. -/
theorem Equipped.onInstallSnapshotReply (h : Equipped cfg nd) (peer : NodeID)
    (args : InstallSnapshotArgs Blob) (reply : InstallSnapshotReply) :
    Equipped cfg (onInstallSnapshotReply cfg nd peer args reply).1 := by
  refine ⟨?_, h.snapshot_of_same (quiet_onInstallSnapshotReply nd peer args reply).same⟩
  rcases onInstallSnapshotReply_cases cfg nd peer args reply with
    ⟨-, heq⟩ | ⟨-, heq⟩ | ⟨⟨hs, -⟩, heq⟩ <;> rw [heq]
  · exact h.next_of_keeps (keepsNext_becomeFollower nd reply.term)
  · exact h.next
  · exact fun _ => h.next_update hs (Nat.succ_pos _)

/-- A follower that installs a snapshot has it. -/
theorem Equipped.handleInstallSnapshot (h : Equipped cfg nd) {args : InstallSnapshotArgs Blob}
    {r : Node Blob × List (Write Blob) × InstallSnapshotReply}
    (hr : handleInstallSnapshot cfg nd args = some r) : Equipped cfg r.1 := by
  refine ⟨h.next_of_keeps (keepsNext_handleInstallSnapshot hr), ?_⟩
  obtain ⟨-, rfl⟩ | ⟨reply, rfl⟩ | ⟨r', reply, -, hr', rfl⟩ := handleInstallSnapshot_cases hr
  · exact h.snapshot
  · exact h.snapshot_of_same (quiet_observeLeader nd args.term args.leaderID).same
  · obtain ⟨tail, -, hr'⟩ := Option.bind_eq_some_iff.mp hr'
    cases hr'
    exact fun _ => rfl

/-- What a node does by itself. -/
theorem Equipped.act (h : Equipped cfg nd) {t : Trigger Blob} (hx : act cfg nd t = some x) :
    Equipped cfg x.node := by
  cases acts_of_act hx with
  | electionTimeout hs =>
    exact h.keeps (keepsNext_of_ne (by simp [startElectionLocked])) (quiet_startElection nd).same
  | propose command =>
    exact h.keeps (keepsNext_propose cfg nd command) (quiet_propose nd command).same
  | sendAppendEntries hpeer hargs => exact h
  | sendInstallSnapshot hpeer hargs => exact h
  | snapshot hr =>
    obtain ⟨-, rfl⟩ | ⟨-, t, tail, -, -, rfl⟩ := snapshot_cases hr
    · exact h
    · exact ⟨h.next, fun _ => rfl⟩
  | applierTake hnd' =>
    rw [applierTake_eq hnd']
    exact ⟨h.next, h.snapshot⟩
  | applierSend hnd' =>
    rw [applierSend_eq hnd']
    exact ⟨h.next, h.snapshot⟩
  | applierAdvance hnd' =>
    rw [applierAdvance_eq hnd']
    exact ⟨h.next, h.snapshot⟩

/-- The callee's end of a call. -/
theorem Equipped.handle (h : Equipped cfg nd) {k : ℕ} {request : Request Blob}
    (hx : handle cfg nd k request = some x) : Equipped cfg x.node := by
  cases request with
  | requestVote args =>
    cases hx
    exact h.keeps (keepsNext_handleRequestVote cfg nd args) (quiet_handleRequestVote nd args).same
  | appendEntries args =>
    obtain ⟨r, hr, hx⟩ := Option.bind_eq_some_iff.mp hx
    cases hx
    exact h.keeps (keepsNext_handleAppendEntries hr) (quiet_handleAppendEntries hr).same
  | installSnapshot args =>
    obtain ⟨r, hr, hx⟩ := Option.bind_eq_some_iff.mp hx
    cases hx
    exact h.handleInstallSnapshot hr

/-- The caller's end. -/
theorem Equipped.onReply (h : Equipped cfg nd) {k : ℕ} {peer : NodeID} {request : Request Blob}
    {reply : Reply} (hx : onReply cfg nd k peer request reply = some x) : Equipped cfg x.node := by
  unfold Raft.onReply at hx
  split at hx
  · cases hx
    exact h.onRequestVoteReply _ _
  · obtain ⟨r, hr, hx⟩ := Option.bind_eq_some_iff.mp hx
    cases hx
    exact h.onAppendEntriesReply hr
  · cases hx
    exact h.onInstallSnapshotReply _ _ _
  · cases hx

/-- **A node started on its files** has the snapshot file, if its log has been compacted and the
file is not empty. -/
theorem equipped_newNode [DecidableEq Blob] {d : Disk Blob} (hcfg : cfg.dataDir ≠ "")
    (h : Shelved (fun _ data => data ≠ default) d) : Equipped cfg (newNode cfg d) := by
  refine ⟨fun hs => ?_, fun hfirst => ?_⟩
  · rw [(newNode_fields cfg d).1] at hs
    cases hs
  · have hlog : (newNode cfg d).log.firstIndex = d.boundary :=
      congrArg (fun ps => ps.log.firstIndex) (newNode_persistentState hcfg d)
    rw [hlog] at hfirst
    obtain ⟨data, hdata⟩ := h.present hfirst
    cases hstate : d.state with
    | none => exact absurd (by rw [Disk.boundary, Disk.persistentState, hstate]; rfl) hfirst
    | some ps =>
      simp only [newNode, readPersist, if_neg hcfg, hstate, hdata, if_neg (h.labelled data hdata)]
      rfl

end Sections

section Cluster

variable [Inhabited Blob] [DecidableEq Blob] {M : Membership} {w w' : World Blob}
  {a : Ledger NodeID (LogEntry Blob)} {n p : NodeID} {as : List (Action Blob)}

/-- **Every leader has something to send**, in every state of a run in which no state machine
hands over an empty snapshot. -/
theorem equipped_run (hrun : run M as = some w)
    (hdata : ∀ x ∈ as, x.Supplies fun _ data => data ≠ default) (hn : n ∈ M.ids) :
    Equipped (M.config n) (w.nodes n) := by
  let P : World Blob → Prop := fun v => (∃ a, Sim M v a) ∧
    Labelled M (fun _ data => data ≠ default) v ∧ ∀ m ∈ M.ids, Equipped (M.config m) (v.nodes m)
  have hstart : P (start M) := by
    have hlabelled : Labelled M (fun _ data => data ≠ default) (start M : World Blob) :=
      labelled_start fun _ _ h => h
    exact ⟨⟨_, sim_start M⟩, hlabelled,
      fun m hm => equipped_newNode (M.persistent m hm) (hlabelled.disk m hm)⟩
  refine (Run.invariant_of_guarded (P := P)
    (G := fun _ x => x.Supplies fun _ data => data ≠ default) hstart ?_
    (Run.guarded_of_forall fun x hx _ => hdata x hx) hrun).2.2 n hn
  rintro v x v' ⟨⟨b, hsim⟩, hlabelled, hequipped⟩ hsupplies hx
  obtain ⟨b', -, hsim', -⟩ := hsim.step hx
  have hlabelled' := hlabelled.step hsim (fun _ _ h => h) hsupplies (fun _ _ _ _ _ h => h) hx
  refine ⟨⟨b', hsim'⟩, hlabelled', fun m hm => ?_⟩
  by_cases hspares : Spares M m v x
  · rcases step_of_spares hspares hx with heq | ⟨e, y, hy, rfl, heq⟩
    · rw [heq]
      exact hequipped m hm
    · rw [heq]
      refine (effect_rule (P := fun m y => Equipped (M.config m) y.node) ?_ ?_ ?_ hy).2
      · intro k hk t y _ hy
        exact (hequipped k hk).act hy
      · intro k c y hc hy
        exact (hequipped _ (hsim.call c (List.mem_of_getElem? hc)).callee).handle hy
      · intro k c reply y hc _ hy
        exact (hequipped _ (hsim.call c (List.mem_of_getElem? hc)).caller).onReply hy
  · rw [starts_of_not_spares hspares hx]
    exact equipped_newNode (M.persistent m hm) (hlabelled'.disk m hm)

/-! ### One round -/

omit [DecidableEq Blob] [Inhabited Blob] in
/-- What the leader's goroutine for a peer comes to: the entries from the next index on, or the
snapshot if they are compacted away. -/
def sendTrigger (nd : Node Blob) (p : NodeID) : Trigger Blob :=
  if nd.nextIndex p ≤ nd.log.firstIndex then .sendInstallSnapshot p else .sendAppendEntries p

omit [DecidableEq Blob] [Inhabited Blob] in
/-- The leader sends, the peer handles the request, and the leader processes the reply. -/
def roundActions (w : World Blob) (n p : NodeID) : List (Action Blob) :=
  [.run (.trigger n (sendTrigger (w.nodes n) p)), .run (.deliver w.calls.length),
    .run (.answer w.replies.length)]

/-- **One round of the exchange** of `n` with `p`. -/
def round (M : Membership) (n p : NodeID) (w : World Blob) : Option (World Blob) :=
  Run.exec (step M) w (roundActions w n p)

omit [DecidableEq Blob] [Inhabited Blob] in
/-- The reply that was given last. -/
def World.lastReply (w : World Blob) : Option Reply := w.replies.getLast?.map Prod.snd

/-- A round is a part of a run. -/
theorem run_round (hrun : run M as = some w) (hround : round M n p w = some w') :
    run M (as ++ roundActions w n p) = some w' := by
  rw [run, Run.exec_append]
  exact Option.bind_eq_some_iff.mpr ⟨w, hrun, hround⟩

/-- Rounds are parts of a run. -/
theorem exists_run_of_iterate {k : ℕ} (hrun : run M as = some w)
    (hk : Run.iterate (round M n p) k w = some w') : ∃ bs, run M bs = some w' := by
  induction k generalizing as w with
  | zero =>
    cases hk
    exact ⟨as, hrun⟩
  | succ k ih =>
    obtain ⟨v, hv, hk⟩ := Option.bind_eq_some_iff.mp hk
    exact ih (run_round hrun hv) hk

/-- A call from its request to its reply, with nothing in between. -/
theorem exec_call {t : Trigger Blob} {request : Request Blob} {reply : Reply}
    {callee caller : Node Blob} {ws ws' : List (Write Blob)} (hn : n ∈ M.ids) (hp : p ∈ M.ids)
    (hne : n ≠ p)
    (hsend : act (M.config n) (w.nodes n) t =
      some { actor := n, node := w.nodes n, calls := [⟨n, p, request, true⟩] })
    (hhandle : handle (M.config p) (w.nodes p) w.calls.length request =
      some { actor := p, node := callee, writes := ws, replies := [(w.calls.length, reply)] })
    (hanswer : onReply (M.config n) (w.nodes n) w.calls.length p request reply =
      some { actor := n, node := caller, writes := ws', finished := some w.calls.length }) :
    ∃ w', Run.exec (step M) w [.run (.trigger n t), .run (.deliver w.calls.length),
        .run (.answer w.replies.length)] = some w' ∧
      w'.nodes n = caller ∧ w'.nodes p = callee ∧ w'.lastReply = some reply := by
  -- the request is sent, and nothing else changes
  let w₁ := w.commit { actor := n, node := w.nodes n, calls := [⟨n, p, request, true⟩] }
  have hw₁ : step M w (.run (.trigger n t)) = some w₁ := by
    rw [step, effect, if_pos hn, hsend]
    rfl
  have hnodes : w₁.nodes = w.nodes := Function.update_eq_self n w.nodes
  have hcalls : w₁.calls[w.calls.length]? = some ⟨n, p, request, true⟩ :=
    List.getElem?_concat_length
  -- the peer handles it
  let w₂ := w₁.commit
    { actor := p, node := callee, writes := ws, replies := [(w.calls.length, reply)] }
  have hw₂ : step M w₁ (.run (.deliver w.calls.length)) = some w₂ := by
    rw [step, effect_deliver_eq hcalls hp, hnodes, hhandle]
    rfl
  have hcalls₂ : w₂.calls[w.calls.length]? = some ⟨n, p, request, true⟩ := by
    rw [← hcalls]
    exact congrArg (fun cs => cs[w.calls.length]?) (List.append_nil w₁.calls)
  have hreplies : w₂.replies = w.replies ++ [(w.calls.length, reply)] :=
    congrArg (· ++ [(w.calls.length, reply)]) (List.append_nil w.replies)
  have hcaller : w₂.nodes n = w.nodes n :=
    (Function.update_of_ne hne _ _).trans (congrFun hnodes n)
  -- and the leader processes the reply
  let w₃ := w₂.commit
    { actor := n, node := caller, writes := ws', finished := some w.calls.length }
  have hw₃ : step M w₂ (.run (.answer w.replies.length)) = some w₃ := by
    have hreply : w₂.replies[w.replies.length]? = some (w.calls.length, reply) := by
      rw [hreplies]
      exact List.getElem?_concat_length
    rw [step, effect_answer_eq hreply hcalls₂ rfl hn, hcaller, hanswer]
    rfl
  refine ⟨w₃, ?_, ?_, ?_, ?_⟩
  · simp only [Run.exec_cons, hw₁, hw₂, hw₃, Option.bind_some, Run.exec_nil]
  · exact Function.update_self ..
  · exact (Function.update_of_ne hne.symm _ _).trans (Function.update_self ..)
  · have hlast : w₃.replies = w.replies ++ [(w.calls.length, reply)] :=
      (List.append_nil w₂.replies).trans hreplies
    rw [World.lastReply, hlast, List.getLast?_concat]
    rfl

/-- A round in which entries are sent. -/
theorem Sim.appendRound (hsim : Sim M w a) (hn : n ∈ M.ids) (hp : p ∈ (M.config n).peers)
    {args : AppendEntriesArgs Blob}
    (hargs : sendAppendEntries (M.config n) (w.nodes n) p = some args) :
    ∃ r q w', handleAppendEntries (M.config p) (w.nodes p) args = some r ∧
      onAppendEntriesReply (M.config n) (w.nodes n) p args r.2.2 = some q ∧
      round M n p w = some w' ∧ w'.nodes n = q.1 ∧ w'.nodes p = r.1 ∧
      w'.lastReply = some (.appendEntries r.2.2) := by
  obtain ⟨hpid, hne⟩ := (M.mem_peers n hn p).mp hp
  have hat := hsim.node n hn
  obtain ⟨a', r, hr, hout, -, hreply⟩ :=
    (hsim.node p hpid).handleAppendEntries (hat.sendAppendEntries hargs)
  -- the leader stands as before in the ledger that the follower has moved
  have hat' := hat.frame hout.after.good (hout.moves.inv_le hsim.good.inv).2
    (hout.moves.frame hne.symm)
  obtain ⟨q, hq⟩ := Option.isSome_iff_exists.mp (hat'.onAppendEntriesReply_isSome hreply)
  have hfirst : ¬(w.nodes n).nextIndex p ≤ (w.nodes n).log.firstIndex := by
    obtain ⟨-, i, t, es, hnext, hlo, -⟩ := sendAppendEntries_eq hargs
    omega
  have hsend : Raft.act (M.config n) (w.nodes n) (.sendAppendEntries p) =
      some { actor := n, node := w.nodes n, calls := [⟨n, p, .appendEntries args, true⟩] } := by
    rw [Raft.act, if_pos hp, hargs, M.config_id n hn]
    rfl
  have hhandle : Raft.handle (M.config p) (w.nodes p) w.calls.length (.appendEntries args) =
      some { actor := p, node := r.1, writes := r.2.1,
             replies := [(w.calls.length, .appendEntries r.2.2)] } := by
    rw [Raft.handle, hr, M.config_id p hpid]
    rfl
  have hanswer : Raft.onReply (M.config n) (w.nodes n) w.calls.length p (.appendEntries args)
      (.appendEntries r.2.2) =
      some { actor := n, node := q.1, writes := q.2, finished := some w.calls.length } := by
    rw [Raft.onReply, hq, M.config_id n hn]
    rfl
  obtain ⟨w', hw', hnode, hpeer, hlast⟩ := exec_call hn hpid hne.symm hsend hhandle hanswer
  refine ⟨r, q, w', hr, hq, ?_, hnode, hpeer, hlast⟩
  rw [round, roundActions, sendTrigger, if_neg hfirst]
  exact hw'

/-- A round in which the snapshot is shipped. -/
theorem Sim.installRound (hsim : Sim M w a) (hn : n ∈ M.ids) (hp : p ∈ (M.config n).peers)
    (hfirst : (w.nodes n).nextIndex p ≤ (w.nodes n).log.firstIndex)
    {args : InstallSnapshotArgs Blob}
    (hargs : sendInstallSnapshot (M.config n) (w.nodes n) = some args) :
    ∃ r w', handleInstallSnapshot (M.config p) (w.nodes p) args = some r ∧
      round M n p w = some w' ∧
      w'.nodes n = (onInstallSnapshotReply (M.config n) (w.nodes n) p args r.2.2).1 ∧
      w'.nodes p = r.1 ∧ w'.lastReply = some (.installSnapshot r.2.2) := by
  obtain ⟨hpid, hne⟩ := (M.mem_peers n hn p).mp hp
  obtain ⟨a', r, hr, -⟩ :=
    (hsim.node p hpid).handleInstallSnapshot ((hsim.node n hn).sendInstallSnapshot hargs)
  have hsend : Raft.act (M.config n) (w.nodes n) (.sendInstallSnapshot p) =
      some { actor := n, node := w.nodes n, calls := [⟨n, p, .installSnapshot args, true⟩] } := by
    rw [Raft.act, if_pos hp, hargs, M.config_id n hn]
    rfl
  have hhandle : Raft.handle (M.config p) (w.nodes p) w.calls.length (.installSnapshot args) =
      some { actor := p, node := r.1, writes := r.2.1,
             replies := [(w.calls.length, .installSnapshot r.2.2)] } := by
    rw [Raft.handle, hr, M.config_id p hpid]
    rfl
  have hanswer : Raft.onReply (M.config n) (w.nodes n) w.calls.length p (.installSnapshot args)
      (.installSnapshot r.2.2) = some {
        actor := n
        node := (onInstallSnapshotReply (M.config n) (w.nodes n) p args r.2.2).1
        writes := (onInstallSnapshotReply (M.config n) (w.nodes n) p args r.2.2).2
        finished := some w.calls.length } := by
    rw [Raft.onReply, M.config_id n hn]
  obtain ⟨w', hw', hnode, hpeer, hlast⟩ := exec_call hn hpid hne.symm hsend hhandle hanswer
  refine ⟨r, w', hr, ?_, hnode, hpeer, hlast⟩
  rw [round, roundActions, sendTrigger, if_pos hfirst]
  exact hw'

/-! ### What a round comes to -/

omit [DecidableEq Blob] [Inhabited Blob] in
/-- **The exchange can go on**: `n` leads with the log `l`, and `p` is not in a later term. -/
structure Leads (n p : NodeID) (l : Log Blob) (w : World Blob) : Prop where
  state : (w.nodes n).state = .leader
  log : (w.nodes n).log = l
  term : (w.nodes p).currentTerm ≤ (w.nodes n).currentTerm

omit [DecidableEq Blob] in
/-- **A leader can always send.** -/
theorem Ranged.send_isSome (h : Ranged M w) (hsim : Sim M w a) (hn : n ∈ M.ids)
    (hp : p ∈ (M.config n).peers) (hs : (w.nodes n).state = .leader)
    (hequipped : Equipped (M.config n) (w.nodes n)) :
    (w.nodes n).nextIndex p ≤ (w.nodes n).log.firstIndex ∧
        (sendInstallSnapshot (M.config n) (w.nodes n)).isSome ∨
      (sendAppendEntries (M.config n) (w.nodes n) p).isSome := by
  by_cases hfirst : (w.nodes n).nextIndex p ≤ (w.nodes n).log.firstIndex
  · have hpos := hequipped.next hs p hp
    obtain ⟨data, hdata⟩ := Option.isSome_iff_exists.mp (hequipped.snapshot (by omega))
    refine .inl ⟨hfirst, ?_⟩
    simp only [sendInstallSnapshot, hdata, hs, ne_eq, not_true_eq_false, if_false]
    rfl
  · exact .inr ((hsim.node n hn).sendAppendEntries_isSome hs (Nat.lt_of_not_le hfirst)
      (h.next n hn hs p hp))

/-- **A round with entries**: the peer takes them all, or the leader goes back. -/
theorem Sim.appendRound_cases (hsim : Sim M w a) (hn : n ∈ M.ids) (hp : p ∈ (M.config n).peers)
    {l : Log Blob} (h : Leads n p l w) {args : AppendEntriesArgs Blob}
    (hargs : sendAppendEntries (M.config n) (w.nodes n) p = some args) :
    ∃ w' reply, round M n p w = some w' ∧ Leads n p l w' ∧
      w'.lastReply = some (.appendEntries reply) ∧
      (reply.success = true ∧ l.lastIndex ≤ (w'.nodes n).matchIndex p ∨
        reply.success = false ∧ Rejects (w.nodes p).log args reply ∧
          0 < (w'.nodes n).nextIndex p ∧ (w'.nodes n).nextIndex p < (w.nodes n).nextIndex p) := by
  have hat := hsim.node n hn
  have hat' := hsim.node p ((M.mem_peers n hn p).mp hp).1
  obtain ⟨hterm, -, -, -, -, hend⟩ := hat.sendAppendEntries_eq hargs
  obtain ⟨r, q, w', hr, hq, hround, hnode, hpeer, hlast⟩ := hsim.appendRound hn hp hargs
  obtain ⟨⟨hcur, hreply⟩, hcases⟩ :=
    handleAppendEntries_rejects hat'.first_le_last (h.term.trans_eq hterm.symm) hr
  refine ⟨w', r.2.2, hround, ?_, hlast, ?_⟩
  · obtain ⟨-, ci, -, rfl⟩ | ⟨-, next, -, rfl⟩ :=
      onAppendEntriesReply_current h.state hterm (hreply.trans hterm).le hq
    all_goals
      refine ⟨by rw [hnode]; exact h.state, by rw [hnode]; exact h.log, ?_⟩
      rw [hnode, hpeer]
      exact (hcur.trans hterm).le
  · obtain ⟨hsucc, ci, -, rfl⟩ | ⟨hsucc, next, hnext, rfl⟩ :=
      onAppendEntriesReply_current h.state hterm (hreply.trans hterm).le hq
    · refine .inl ⟨hsucc, ?_⟩
      rw [hnode, ← h.log, hat.lastIndex_eq, ← hend]
      simp only [Node.learn, Function.update_self]
      exact le_max_right _ _
    · have hrej := hcases.resolve_left (by rw [hsucc]; decide)
      have hlt := hat.rejected_lt hat' hargs hrej hnext
      refine .inr ⟨hsucc, hrej, ?_⟩
      rw [hnode]
      simp only [Function.update_self]
      exact hlt

/-- **A round with the snapshot**: the leader goes on from what it knows to be in agreement. -/
theorem Sim.installRound_next (hsim : Sim M w a) (hn : n ∈ M.ids) (hp : p ∈ (M.config n).peers)
    {l : Log Blob} (h : Leads n p l w)
    (hfirst : (w.nodes n).nextIndex p ≤ (w.nodes n).log.firstIndex)
    {args : InstallSnapshotArgs Blob}
    (hargs : sendInstallSnapshot (M.config n) (w.nodes n) = some args) :
    ∃ w', round M n p w = some w' ∧ Leads n p l w' ∧ l.firstIndex < (w'.nodes n).nextIndex p ∧
      (w'.nodes n).nextIndex p = (w'.nodes n).matchIndex p + 1 := by
  obtain ⟨r, w', hr, hround, hnode, hpeer, -⟩ := hsim.installRound hn hp hfirst hargs
  obtain ⟨hterm, hindex⟩ : args.term = (w.nodes n).currentTerm ∧
      args.lastIncludedIndex = (w.nodes n).log.firstIndex := by
    obtain ⟨-, data, -, rfl⟩ := sendInstallSnapshot_eq hargs
    exact ⟨rfl, rfl⟩
  obtain ⟨hcur, hreply⟩ := handleInstallSnapshot_term (h.term.trans_eq hterm.symm) hr
  rw [onInstallSnapshotReply_current h.state hterm (hreply.trans hterm).le] at hnode
  refine ⟨w', hround, ⟨?_, ?_, ?_⟩, ?_, ?_⟩
  · rw [hnode]
    exact h.state
  · rw [hnode]
    exact h.log
  · rw [hnode, hpeer]
    exact (hcur.trans hterm).le
  · rw [hnode, ← h.log, ← hindex]
    simp only [Node.learn, Function.update_self]
    exact Nat.lt_succ_of_le (le_max_right _ _)
  · rw [hnode]
    simp only [Node.learn, Function.update_self]

/-- A round with entries, to a peer in a later term. -/
theorem Sim.appendRound_deposed (hsim : Sim M w a) (hn : n ∈ M.ids) (hp : p ∈ (M.config n).peers)
    {args : AppendEntriesArgs Blob}
    (hargs : sendAppendEntries (M.config n) (w.nodes n) p = some args)
    (hlater : (w.nodes n).currentTerm < (w.nodes p).currentTerm) :
    ∃ w', round M n p w = some w' ∧ w'.nodes p = w.nodes p ∧
      w'.nodes n = becomeFollowerLocked (w.nodes n) (w.nodes p).currentTerm := by
  obtain ⟨r, q, w', hr, hq, hround, hnode, hpeer, -⟩ := hsim.appendRound hn hp hargs
  obtain ⟨hterm, -⟩ := (hsim.node n hn).sendAppendEntries_eq hargs
  rw [handleAppendEntries, if_pos (hterm.trans_lt hlater)] at hr
  cases hr
  rw [Raft.onAppendEntriesReply, if_pos hlater] at hq
  cases hq
  exact ⟨w', hround, hpeer, hnode⟩

/-- **A peer in a later term** ends the exchange: the leader steps down when it hears of the term,
and neither log changes. -/
theorem Ranged.round_deposed (h : Ranged M w) (hsim : Sim M w a) (hn : n ∈ M.ids)
    (hp : p ∈ (M.config n).peers) (hs : (w.nodes n).state = .leader)
    (hequipped : Equipped (M.config n) (w.nodes n))
    (hlater : (w.nodes n).currentTerm < (w.nodes p).currentTerm) :
    ∃ w', round M n p w = some w' ∧ w'.nodes p = w.nodes p ∧
      w'.nodes n = becomeFollowerLocked (w.nodes n) (w.nodes p).currentTerm := by
  rcases h.send_isSome hsim hn hp hs hequipped with ⟨hfirst, hsend⟩ | hsend
  · obtain ⟨args, hargs⟩ := Option.isSome_iff_exists.mp hsend
    obtain ⟨r, w', hr, hround, hnode, hpeer, -⟩ := hsim.installRound hn hp hfirst hargs
    obtain ⟨-, data, -, rfl⟩ := sendInstallSnapshot_eq hargs
    rw [handleInstallSnapshot, if_pos hlater] at hr
    cases hr
    rw [onInstallSnapshotReply, if_pos hlater] at hnode
    exact ⟨w', hround, hpeer, hnode⟩
  · obtain ⟨args, hargs⟩ := Option.isSome_iff_exists.mp hsend
    exact hsim.appendRound_deposed hn hp hargs hlater

/-! ### The exchange -/

omit [DecidableEq Blob] [Inhabited Blob] in
/-- The log `l'` agrees with `l` up to the end of `l`, where neither is compacted away. -/
def AgreesUpTo (l l' : Log Blob) : Prop :=
  l.lastIndex ≤ l'.lastIndex ∧ ∀ i, l.firstIndex < i → l'.firstIndex < i → i ≤ l.lastIndex →
    ∃ e, l.entryAt i = some e ∧ l'.entryAt i = some e

omit [DecidableEq Blob] in
/-- **What the leader knows**: a peer that has matched all of the leader's log agrees with it. -/
theorem Sim.agreesUpTo (hsim : Sim M w a) (hn : n ∈ M.ids) (hp : p ∈ M.ids) {l : Log Blob}
    (h : Leads n p l w) (hmatch : l.lastIndex ≤ (w.nodes n).matchIndex p) :
    AgreesUpTo l (w.nodes p).log := by
  have hat := hsim.node n hn
  have hat' := hsim.node p hp
  have hpre : a.log n <+: a.log p := by
    have hprefix := hat.matched_prefix hat' h.state h.term
    rw [← h.log, hat.lastIndex_eq] at hmatch
    rwa [List.take_of_length_le hmatch] at hprefix
  rw [← h.log]
  refine ⟨?_, fun i hlo hlo' hhi => ?_⟩
  · rw [hat.lastIndex_eq, hat'.lastIndex_eq]
    exact hpre.length_le
  · rw [hat.lastIndex_eq] at hhi
    obtain ⟨e, he⟩ := hsim.exists_entryAt hn hlo hhi
    refine ⟨e, he, ?_⟩
    rw [hsim.entryAt_eq hn hlo] at he
    rw [hsim.entryAt_eq hp hlo']
    exact prefix_getElem?_some hpre he

omit [DecidableEq Blob] [Inhabited Blob] in
/-- How far the exchange is from its end, as the leader sees it. -/
def distance (nd : Node Blob) (p : NodeID) : ℕ :=
  if nd.nextIndex p ≤ nd.log.firstIndex then 1
  else if nd.nextIndex p = nd.matchIndex p + 1 then 0
  else nd.nextIndex p

omit [DecidableEq Blob] [Inhabited Blob] in
/-- A round brings no snapshots from outside. -/
theorem supplies_roundActions {Q : ℕ → Blob → Prop} (w : World Blob) (n p : NodeID) :
    ∀ x ∈ roundActions w n p, x.Supplies Q := by
  intro x hx
  simp only [roundActions, List.mem_cons, List.not_mem_nil, or_false] at hx
  rcases hx with rfl | rfl | rfl
  · rw [sendTrigger]
    split <;> exact trivial
  · exact trivial
  · exact trivial

/-- **Every round** brings the exchange to its end, or closer to it. -/
theorem round_progress {l : Log Blob} (hrun : run M as = some w)
    (hdata : ∀ x ∈ as, x.Supplies fun _ data => data ≠ default) (hn : n ∈ M.ids)
    (hp : p ∈ (M.config n).peers) (h : Leads n p l w) :
    ∃ w', round M n p w = some w' ∧
      ((∃ reply, w'.lastReply = some (.appendEntries reply) ∧ reply.success = true) ∧
          AgreesUpTo l (w'.nodes p).log ∨
        Leads n p l w' ∧ distance (w'.nodes n) p < distance (w.nodes n) p) := by
  obtain ⟨⟨a, hsim⟩, hranged⟩ := exists_ranged hrun
  have hpid := ((M.mem_peers n hn p).mp hp).1
  rcases hranged.send_isSome hsim hn hp h.state (equipped_run hrun hdata hn) with
    ⟨hfirst, hsend⟩ | hsend
  · obtain ⟨args, hargs⟩ := Option.isSome_iff_exists.mp hsend
    obtain ⟨w', hround, hleads, hfirst', hnext⟩ := hsim.installRound_next hn hp h hfirst hargs
    refine ⟨w', hround, .inr ⟨hleads, ?_⟩⟩
    rw [distance, distance, if_pos hfirst, hleads.log, if_neg (Nat.not_le.mpr hfirst'),
      if_pos hnext]
    exact Nat.one_pos
  · obtain ⟨args, hargs⟩ := Option.isSome_iff_exists.mp hsend
    obtain ⟨w', reply, hround, hleads, hlast, ⟨hsucc, hmatch⟩ | ⟨-, hrej, hpos, hlt⟩⟩ :=
      hsim.appendRound_cases hn hp h hargs
    · obtain ⟨⟨a', hsim'⟩, -⟩ := exists_ranged (run_round hrun hround)
      exact ⟨w', hround, .inl ⟨⟨reply, hlast, hsucc⟩, hsim'.agreesUpTo hn hpid hleads hmatch⟩⟩
    · have hmatched : (w.nodes n).nextIndex p ≠ (w.nodes n).matchIndex p + 1 := fun heq =>
        (hsim.node n hn).not_rejects_of_matched (hsim.node p hpid) h.state h.term hargs heq hrej
      have hfirst : ¬(w.nodes n).nextIndex p ≤ (w.nodes n).log.firstIndex := by
        obtain ⟨-, i, t, es, hnext, hlo, -⟩ := sendAppendEntries_eq hargs
        omega
      refine ⟨w', hround, .inr ⟨hleads, ?_⟩⟩
      rw [distance, distance, if_neg hfirst, if_neg hmatched]
      split_ifs <;> omega

/-- A round begins with a request of the leader's. -/
theorem send_of_round (hn : n ∈ M.ids) (hround : round M n p w = some w') :
    (w.nodes n).state = .leader ∧
      ((w.nodes n).nextIndex p ≤ (w.nodes n).log.firstIndex ∧
          (sendInstallSnapshot (M.config n) (w.nodes n)).isSome ∨
        (sendAppendEntries (M.config n) (w.nodes n) p).isSome) := by
  obtain ⟨v, hv, -⟩ := Option.bind_eq_some_iff.mp hround
  obtain ⟨x, hx, -⟩ := Option.map_eq_some_iff.mp hv
  rw [effect, if_pos hn, sendTrigger] at hx
  split at hx
  · rename_i hfirst
    cases acts_of_act hx with
    | sendInstallSnapshot hpeer hargs =>
      exact ⟨(sendInstallSnapshot_eq hargs).1, .inl ⟨hfirst, by rw [hargs]; rfl⟩⟩
  · cases acts_of_act hx with
    | sendAppendEntries hpeer hargs =>
      exact ⟨(sendAppendEntries_eq hargs).1, .inr (by rw [hargs]; rfl)⟩

/-- **Every rejection** makes the leader go back, unless it makes it step down. -/
theorem round_rejected (hrun : run M as = some w) (hn : n ∈ M.ids) (hp : p ∈ (M.config n).peers)
    (hround : round M n p w = some w') {reply : AppendEntriesReply}
    (hlast : w'.lastReply = some (.appendEntries reply)) (hsucc : reply.success = false)
    (hs' : (w'.nodes n).state = .leader) :
    0 < (w'.nodes n).nextIndex p ∧ (w'.nodes n).nextIndex p < (w.nodes n).nextIndex p := by
  obtain ⟨⟨a, hsim⟩, -⟩ := exists_ranged hrun
  obtain ⟨hs, ⟨hfirst, hsend⟩ | hsend⟩ := send_of_round hn hround
  · -- the reply to a snapshot is none to entries
    obtain ⟨args, hargs⟩ := Option.isSome_iff_exists.mp hsend
    obtain ⟨r, u, -, hu, -, -, hlast'⟩ := hsim.installRound hn hp hfirst hargs
    obtain rfl := Option.some.inj (hround.symm.trans hu)
    cases hlast.symm.trans hlast'
  · obtain ⟨args, hargs⟩ := Option.isSome_iff_exists.mp hsend
    rcases Nat.lt_or_ge (w.nodes n).currentTerm (w.nodes p).currentTerm with hlater | hterm
    · obtain ⟨u, hu, -, hdown⟩ := hsim.appendRound_deposed hn hp hargs hlater
      obtain rfl := Option.some.inj (hround.symm.trans hu)
      rw [hdown, becomeFollowerLocked_state] at hs'
      cases hs'
    · obtain ⟨u, reply', hu, -, hlast', ⟨hsucc', -⟩ | ⟨-, -, hback⟩⟩ :=
        hsim.appendRound_cases hn hp ⟨hs, rfl, hterm⟩ hargs
      · obtain rfl := Option.some.inj (hround.symm.trans hu)
        cases hlast.symm.trans hlast'
        cases hsucc.symm.trans hsucc'
      · obtain rfl := Option.some.inj (hround.symm.trans hu)
        exact hback

/-- **The exchange converges.** A leader whose peer is not in a later term gets a success in at
most `nextIndex + 1` rounds, and the log of the peer then agrees with its own up to its last index,
provided that no state machine has handed over an empty snapshot. -/
theorem exchange_converges (hrun : run M as = some w)
    (hdata : ∀ x ∈ as, x.Supplies fun _ data => data ≠ default) (hn : n ∈ M.ids)
    (hp : p ∈ (M.config n).peers) (hs : (w.nodes n).state = .leader)
    (hterm : (w.nodes p).currentTerm ≤ (w.nodes n).currentTerm) :
    ∃ k ≤ (w.nodes n).nextIndex p + 1, ∃ u, Run.iterate (round M n p) k w = some u ∧
      (∃ reply, u.lastReply = some (.appendEntries reply) ∧ reply.success = true) ∧
      AgreesUpTo (w.nodes n).log (u.nodes p).log := by
  let P : World Blob → Prop := fun v => Leads n p (w.nodes n).log v ∧
    ∃ bs, run M bs = some v ∧ ∀ x ∈ bs, x.Supplies fun _ data => data ≠ default
  have hround : ∀ v, P v → ∃ v', round M n p v = some v' ∧
      (((∃ reply, v'.lastReply = some (.appendEntries reply) ∧ reply.success = true) ∧
        AgreesUpTo (w.nodes n).log (v'.nodes p).log) ∨
      P v' ∧ distance (v'.nodes n) p < distance (v.nodes n) p) := by
    rintro v ⟨hleads, bs, hbs, hsupplies⟩
    obtain ⟨v', hv', hgoal | ⟨hleads', hlt⟩⟩ := round_progress hbs hsupplies hn hp hleads
    · exact ⟨v', hv', .inl hgoal⟩
    · refine ⟨v', hv', .inr ⟨⟨hleads', _, run_round hbs hv', fun x hx => ?_⟩, hlt⟩⟩
      rcases List.mem_append.mp hx with hx | hx
      · exact hsupplies x hx
      · exact supplies_roundActions v n p x hx
  obtain ⟨k, hk, u, hu, hgoal⟩ := Run.iterate_reaches (P := P) hround
    (μ := fun v => distance (v.nodes n) p) (s := w) ⟨⟨hs, rfl, hterm⟩, as, hrun, hdata⟩
  have hpos := (equipped_run hrun hdata hn).next hs p hp
  have hdist : distance (w.nodes n) p ≤ (w.nodes n).nextIndex p := by
    rw [distance]
    split_ifs <;> omega
  exact ⟨k, by omega, u, hu, hgoal⟩

end Cluster

end Raft

end DistQueue
