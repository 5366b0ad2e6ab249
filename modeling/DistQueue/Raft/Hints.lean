import DistQueue.Raft.Bounds
import DistQueue.Raft.Safety

/-!
# Leader hints

A node that is not the leader sends its clients to `leaderID`, the leader it has last heard of.
A leader has itself in that field, and `becomeFollowerLocked` leaves it there. So whether a node
that steps down redirects its clients to itself is a question of what it steps down for. The
request of a new leader names that leader. A vote request, or a reply of a later term, names
nobody, and the node goes on naming itself (`DistQueue.Raft.redirects_to_itself`).

These are the only ways to a wrong hint: as long as no leader learns of a later term in one of
them, a node names itself if and only if it leads (`DistQueue.Raft.KnowsItself`), and the first
time it happens the node does (`DistQueue.Raft.hint_not_self`).
-/

namespace DistQueue

namespace Raft

variable {Blob : Type}

/-- **The node names itself as the leader if and only if it is.** -/
def KnowsItself (cfg : Config) (nd : Node Blob) : Prop := nd.state = .leader ↔ nd.leaderID = cfg.id

/-- The node does not name itself, unless it is the leader. -/
theorem KnowsItself.leaderHint_ne {cfg : Config} {nd : Node Blob} (h : KnowsItself cfg nd)
    (hs : nd.state ≠ .leader) : nd.leaderHint cfg ≠ cfg.id := by
  rw [Node.leaderHint, if_neg hs]
  exact fun hid => hs (h.mpr hid)

/-! ### The sections of one node -/

section Sections

variable {cfg : Config} {nd nd' : Node Blob}

/-- A section that has nothing to do with who leads. -/
theorem KnowsItself.same (h : KnowsItself cfg nd) (hid : nd'.leaderID = nd.leaderID)
    (hs : nd'.state = .leader ↔ nd.state = .leader) : KnowsItself cfg nd' := by
  rw [KnowsItself, hs, hid]
  exact h

/-- **Stepping down keeps the hint**, which is how a node may come to hint at itself. -/
theorem becomeFollowerLocked_leaderID (nd : Node Blob) (term : ℕ) :
    (becomeFollowerLocked nd term).leaderID = nd.leaderID := by
  rw [becomeFollowerLocked_eq]

/-- Who does not lead may step down. -/
theorem KnowsItself.becomeFollowerLocked (h : KnowsItself cfg nd) (hs : nd.state ≠ .leader)
    (term : ℕ) : KnowsItself cfg (becomeFollowerLocked nd term) := by
  refine h.same (becomeFollowerLocked_leaderID nd term) ?_
  rw [becomeFollowerLocked_state]
  exact iff_of_false (by decide) hs

/-- A leader that steps down goes on naming itself. -/
theorem KnowsItself.leaderHint_becomeFollowerLocked (h : KnowsItself cfg nd)
    (hs : nd.state = .leader) (term : ℕ) :
    (Raft.becomeFollowerLocked nd term).leaderHint cfg = cfg.id := by
  rw [Node.leaderHint, if_neg (by rw [becomeFollowerLocked_state]; decide),
    becomeFollowerLocked_leaderID]
  exact h.mp hs

/-- Who leads as far as the node knows is settled by the comparison of the terms. -/
theorem castVote_hint (cfg : Config) (nd : Node Blob) (args : RequestVoteArgs) :
    (castVote cfg nd args).1.leaderID = nd.leaderID ∧
      (castVote cfg nd args).1.state = nd.state := by
  unfold castVote
  split
  · exact ⟨rfl, rfl⟩
  · split <;> exact ⟨rfl, rfl⟩

/-- A vote request of no later term does not depose a leader. -/
theorem KnowsItself.handleRequestVote (h : KnowsItself cfg nd) (args : RequestVoteArgs)
    (hterm : nd.state = .leader → args.term ≤ nd.currentTerm) :
    KnowsItself cfg (handleRequestVote cfg nd args).1 := by
  have hobserve : KnowsItself cfg (observeTerm cfg nd args.term).1 := by
    unfold observeTerm
    split
    · rename_i hlater
      exact h.becomeFollowerLocked (fun hs => Nat.not_lt.mpr (hterm hs) hlater) args.term
    · exact h
  obtain ⟨hid, hs⟩ := castVote_hint cfg (observeTerm cfg nd args.term).1 args
  exact hobserve.same hid (iff_of_eq (congrArg (· = State.leader) hs))

/-- A leader that a candidate deposes hints at itself. -/
theorem KnowsItself.leaderHint_handleRequestVote (h : KnowsItself cfg nd) (hs : nd.state = .leader)
    {args : RequestVoteArgs} (hlater : nd.currentTerm < args.term) :
    (Raft.handleRequestVote cfg nd args).1.state ≠ .leader ∧
      (Raft.handleRequestVote cfg nd args).1.leaderHint cfg = cfg.id := by
  have hobserve : (observeTerm cfg nd args.term).1 =
      Raft.becomeFollowerLocked nd args.term := by
    rw [observeTerm, if_pos hlater]
  obtain ⟨hid, hstate⟩ := castVote_hint cfg (observeTerm cfg nd args.term).1 args
  have hne : (Raft.handleRequestVote cfg nd args).1.state ≠ .leader := by
    unfold Raft.handleRequestVote
    rw [hstate, hobserve, becomeFollowerLocked_state]
    decide
  refine ⟨hne, ?_⟩
  rw [Node.leaderHint, if_neg hne]
  unfold Raft.handleRequestVote
  rw [hid, hobserve, becomeFollowerLocked_leaderID]
  exact h.mp hs

/-- Whoever hears of the leader names the leader. -/
theorem knowsItself_observeLeader {term : ℕ} {leaderID : NodeID} (hid : leaderID ≠ cfg.id) :
    KnowsItself cfg (observeLeader cfg nd term leaderID).1 := by
  have hleader : (observeLeader cfg nd term leaderID).1.leaderID = leaderID := rfl
  rw [KnowsItself, hleader, observeLeader_state]
  exact iff_of_false (by decide) hid

/-- Entries do not change the hint. -/
theorem KnowsItself.appendShifted {args : AppendEntriesArgs Blob}
    {r : Node Blob × List (Write Blob) × AppendEntriesReply} (h : KnowsItself cfg nd)
    (hr : appendShifted cfg nd args = some r) : KnowsItself cfg r.1 := by
  obtain ⟨reply, -, -, rfl⟩ | ⟨log, changed, ci, -, -, -, rfl⟩ := appendShifted_cases hr
  · exact h
  · exact h

/-- Who hears from a leader hints at that one. -/
theorem KnowsItself.handleAppendEntries {args : AppendEntriesArgs Blob}
    {r : Node Blob × List (Write Blob) × AppendEntriesReply} (h : KnowsItself cfg nd)
    (hid : args.leaderID ≠ cfg.id) (hr : handleAppendEntries cfg nd args = some r) :
    KnowsItself cfg r.1 := by
  rcases handleAppendEntries_cases hr with ⟨-, rfl⟩ | ⟨reply, -, rfl⟩ | ⟨args', r', -, hr', rfl⟩
  · exact h
  · exact knowsItself_observeLeader hid
  · have hobserve : KnowsItself cfg (observeLeader cfg nd args.term args.leaderID).1 :=
      knowsItself_observeLeader hid
    have hafter := hobserve.appendShifted hr'
    exact hafter

variable [Inhabited Blob]

/-- So does who is sent a snapshot. -/
theorem KnowsItself.handleInstallSnapshot {args : InstallSnapshotArgs Blob}
    {r : Node Blob × List (Write Blob) × InstallSnapshotReply} (h : KnowsItself cfg nd)
    (hid : args.leaderID ≠ cfg.id) (hr : handleInstallSnapshot cfg nd args = some r) :
    KnowsItself cfg r.1 := by
  rcases handleInstallSnapshot_cases hr with ⟨-, rfl⟩ | ⟨reply, rfl⟩ | ⟨r', reply, -, hr', rfl⟩
  · exact h
  · exact knowsItself_observeLeader hid
  · obtain ⟨tail, -, hr'⟩ := Option.bind_eq_some_iff.mp hr'
    rw [← Option.some.inj hr']
    have hobserve : KnowsItself cfg (observeLeader cfg nd args.term args.leaderID).1 :=
      knowsItself_observeLeader hid
    exact hobserve

/-! The three kinds of reply differ in what they do in the term of the request only. -/

/-- A vote that comes in may make a leader, who hints at itself and knows it. -/
theorem KnowsItself.onRequestVoteReply (h : KnowsItself cfg nd) (term : ℕ)
    {reply : RequestVoteReply} (hterm : nd.state = .leader → reply.term ≤ nd.currentTerm) :
    KnowsItself cfg (onRequestVoteReply cfg nd term reply).1 := by
  rcases onRequestVoteReply_cases cfg nd term reply with
    ⟨hlater, heq⟩ | ⟨-, heq⟩ | ⟨-, ⟨-, heq⟩ | ⟨-, heq⟩⟩ <;> rw [heq]
  · exact h.becomeFollowerLocked (fun hs => Nat.not_lt.mpr (hterm hs) hlater) reply.term
  · exact h
  · -- the node is elected
    exact iff_of_true rfl rfl
  · exact h

omit [Inhabited Blob] in
/-- An answer of no later term deposes nobody. -/
theorem KnowsItself.onAppendEntriesReply {peer : NodeID} {args : AppendEntriesArgs Blob}
    {reply : AppendEntriesReply} {r : Node Blob × List (Write Blob)} (h : KnowsItself cfg nd)
    (hterm : nd.state = .leader → reply.term ≤ nd.currentTerm)
    (hr : onAppendEntriesReply cfg nd peer args reply = some r) : KnowsItself cfg r.1 := by
  obtain ⟨hlater, rfl⟩ | ⟨-, rfl⟩ | ⟨-, ⟨-, ci, -, rfl⟩ | ⟨-, next, -, rfl⟩⟩ :=
    onAppendEntriesReply_cases hr
  · exact h.becomeFollowerLocked (fun hs => Nat.not_lt.mpr (hterm hs) hlater) reply.term
  · exact h
  · exact h
  · exact h

omit [Inhabited Blob] in
/-- Nor does the answer to a snapshot. -/
theorem KnowsItself.onInstallSnapshotReply (h : KnowsItself cfg nd) (peer : NodeID)
    (args : InstallSnapshotArgs Blob) {reply : InstallSnapshotReply}
    (hterm : nd.state = .leader → reply.term ≤ nd.currentTerm) :
    KnowsItself cfg (onInstallSnapshotReply cfg nd peer args reply).1 := by
  rcases onInstallSnapshotReply_cases cfg nd peer args reply with
    ⟨hlater, heq⟩ | ⟨-, heq⟩ | ⟨-, heq⟩ <;> rw [heq]
  · exact h.becomeFollowerLocked (fun hs => Nat.not_lt.mpr (hterm hs) hlater) reply.term
  · exact h
  · exact h

end Sections

/-! ### Calls -/

/-- The leader that a request names. -/
def Request.leaderID : Request Blob → Option NodeID
  | .requestVote _ => none
  | .appendEntries args => some args.leaderID
  | .installSnapshot args => some args.leaderID

/-- The term that a reply is of. -/
def Reply.term : Reply → ℕ
  | .requestVote reply => reply.term
  | .appendEntries reply => reply.term
  | .installSnapshot reply => reply.term

variable [Inhabited Blob] {cfg : Config} {nd : Node Blob} {x : Effect Blob}

/-- Another member handles a call than the one that made it, and that one is the leader which
the request names. -/
structure Introduces (M : Membership) (c : Call Blob) : Prop where
  caller : c.caller ∈ M.ids
  callee : c.callee ∈ M.ids
  ne : c.caller ≠ c.callee
  leader : ∀ id, c.request.leaderID = some id → id = c.caller

/-- What a node does by itself does not depose it. -/
theorem KnowsItself.act (h : KnowsItself cfg nd) {t : Trigger Blob}
    (hx : act cfg nd t = some x) : KnowsItself cfg x.node := by
  cases acts_of_act hx with
  | electionTimeout hs => exact h.same rfl (iff_of_false (fun hs' => (by cases hs')) hs)
  | propose command =>
    unfold Raft.propose
    split
    · exact h
    · exact h
  | sendAppendEntries hpeer hargs => exact h
  | sendInstallSnapshot hpeer hargs => exact h
  | snapshot hr =>
    obtain ⟨-, rfl⟩ | ⟨-, t, tail, -, -, rfl⟩ := snapshot_cases hr
    · exact h
    · exact h
  | applierTake hnd' =>
    rw [applierTake_eq hnd']
    exact h
  | applierSend hnd' =>
    rw [applierSend_eq hnd']
    exact h
  | applierAdvance hnd' =>
    rw [applierAdvance_eq hnd']
    exact h

/-- The calls that a member makes. -/
theorem introduces_act {M : Membership} {n : NodeID} (hn : n ∈ M.ids) {t : Trigger Blob}
    (hx : act (M.config n) nd t = some x) : ∀ c ∈ x.calls, Introduces M c := by
  have hpeer : ∀ p ∈ (M.config n).peers, ∀ request : Request Blob,
      (∀ id, request.leaderID = some id → id = (M.config n).id) →
      Introduces M ⟨(M.config n).id, p, request, true⟩ := by
    intro p hp request hleader
    obtain ⟨hp, hne⟩ := (M.mem_peers n hn p).mp hp
    have hid := M.config_id n hn
    exact ⟨hid.symm ▸ hn, hp, fun heq => hne (heq.symm.trans hid), hleader⟩
  have hnone : ∀ c ∈ ([] : List (Call Blob)), Introduces M c := fun c hc => by cases hc
  cases acts_of_act hx with
  | electionTimeout hs =>
    intro c hc
    obtain ⟨p, hp, rfl⟩ := List.mem_map.mp hc
    exact hpeer p hp _ fun id hid => (by cases hid)
  | sendAppendEntries hp hargs =>
    intro c hc
    obtain rfl := List.mem_singleton.mp hc
    refine hpeer _ hp _ fun id hid => ?_
    cases hid
    obtain ⟨-, i, t, es, -, -, -, -, rfl⟩ := sendAppendEntries_eq hargs
    rfl
  | sendInstallSnapshot hp hargs =>
    intro c hc
    obtain rfl := List.mem_singleton.mp hc
    refine hpeer _ hp _ fun id hid => ?_
    cases hid
    obtain ⟨-, data, -, rfl⟩ := sendInstallSnapshot_eq hargs
    rfl
  | propose command => exact hnone
  | snapshot hr => exact hnone
  | applierTake hnd' | applierSend hnd' | applierAdvance hnd' => exact hnone

/-- The callee's end of a call. -/
theorem KnowsItself.handle (h : KnowsItself cfg nd) {k : ℕ} {request : Request Blob}
    (hleader : ∀ id, request.leaderID = some id → id ≠ cfg.id)
    (hterm : ∀ args, request = .requestVote args → nd.state = .leader →
      args.term ≤ nd.currentTerm)
    (hx : handle cfg nd k request = some x) : KnowsItself cfg x.node ∧ x.calls = [] := by
  cases request with
  | requestVote args =>
    rw [← Option.some.inj hx]
    exact ⟨h.handleRequestVote args (hterm args rfl), rfl⟩
  | appendEntries args =>
    obtain ⟨r, hr, hx⟩ := Option.bind_eq_some_iff.mp hx
    rw [← Option.some.inj hx]
    exact ⟨h.handleAppendEntries (hleader _ rfl) hr, rfl⟩
  | installSnapshot args =>
    obtain ⟨r, hr, hx⟩ := Option.bind_eq_some_iff.mp hx
    rw [← Option.some.inj hx]
    exact ⟨h.handleInstallSnapshot (hleader _ rfl) hr, rfl⟩

/-- The caller's end of a call. -/
theorem KnowsItself.onReply (h : KnowsItself cfg nd) {k : ℕ} {peer : NodeID}
    {request : Request Blob} {reply : Reply}
    (hterm : nd.state = .leader → reply.term ≤ nd.currentTerm)
    (hx : onReply cfg nd k peer request reply = some x) :
    KnowsItself cfg x.node ∧ x.calls = [] := by
  unfold Raft.onReply at hx
  split at hx
  · rw [← Option.some.inj hx]
    exact ⟨h.onRequestVoteReply _ hterm, rfl⟩
  · obtain ⟨r, hr, hx⟩ := Option.bind_eq_some_iff.mp hx
    rw [← Option.some.inj hx]
    exact ⟨h.onAppendEntriesReply hterm hr, rfl⟩
  · rw [← Option.some.inj hx]
    exact ⟨h.onInstallSnapshotReply peer _ hterm, rfl⟩
  · cases hx

/-- A leader that learns of a later term from a reply steps down, whatever the reply is to. -/
theorem onReply_of_later {k : ℕ} {peer : NodeID} {request : Request Blob} {reply : Reply}
    (hlater : nd.currentTerm < reply.term)
    (hx : onReply cfg nd k peer request reply = some x) :
    x.node = becomeFollowerLocked nd reply.term := by
  unfold Raft.onReply at hx
  split at hx
  · rw [← Option.some.inj hx]
    exact congrArg Prod.fst (if_pos hlater)
  · obtain ⟨r, hr, hx⟩ := Option.bind_eq_some_iff.mp hx
    have hr := (if_pos hlater).symm.trans hr
    rw [← Option.some.inj hx, ← Option.some.inj hr]
    rfl
  · rw [← Option.some.inj hx]
    exact congrArg Prod.fst (if_pos hlater)
  · cases hx

/-! ### Runs -/

section Runs

variable {M : Membership} {w w' : World Blob} {n : NodeID}

/-- The node that hears of a term from a candidate or from a reply, and the term. -/
def Event.tells (w : World Blob) : Event Blob → Option (NodeID × ℕ)
  | .trigger _ _ => none
  | .deliver k => (w.calls[k]?).bind fun c =>
    match c.request with
    | .requestVote args => some (c.callee, args.term)
    | _ => none
  | .answer j => (w.replies[j]?).bind fun (k, reply) =>
    (w.calls[k]?).map fun c => (c.caller, reply.term)

/-- **No leader learns of a later term in this step**, but perhaps from the request of a new
leader. -/
def LearnsFromLeader (w : World Blob) : Action Blob → Prop
  | .run e => ∀ p ∈ e.tells w, (w.nodes p.1).state = .leader → p.2 ≤ (w.nodes p.1).currentTerm
  | .crash _ | .crashIn _ _ => True

instance (w : World Blob) (x : Action Blob) : Decidable (LearnsFromLeader w x) := by
  cases x <;> dsimp only [LearnsFromLeader] <;> infer_instance

/-- **Every member knows itself**, and every call introduces its caller. -/
structure Hinted (M : Membership) (w : World Blob) : Prop where
  node : ∀ n ∈ M.ids, KnowsItself (M.config n) (w.nodes n)
  call : ∀ c ∈ w.calls, Introduces M c

/-- No member that is not the leader names itself. -/
def NoSelfHint (M : Membership) (w : World Blob) : Prop :=
  ∀ n ∈ M.ids, (w.nodes n).state ≠ .leader → (w.nodes n).leaderHint (M.config n) ≠ n

omit [Inhabited Blob] in
/-- A node that does not lead does not hint at itself. -/
theorem Hinted.noSelfHint (h : Hinted M w) : NoSelfHint M w := by
  intro n hn hs
  have hne := (h.node n hn).leaderHint_ne hs
  rwa [M.config_id n hn] at hne

/-- A section in which no leader learns of a later term. -/
theorem Hinted.effect (h : Hinted M w) {e : Event Blob} (hG : LearnsFromLeader w (.run e))
    (hx : effect M w e = some x) :
    KnowsItself (M.config x.actor) x.node ∧ ∀ c ∈ x.calls, Introduces M c := by
  have hnone : x.calls = [] → ∀ c ∈ x.calls, Introduces M c := by
    intro hcalls c hc
    rw [hcalls] at hc
    cases hc
  cases e with
  | trigger n t =>
    simp only [Raft.effect, Option.ite_none_right_eq_some] at hx
    obtain ⟨hn, hx⟩ := hx
    rw [act_actor hx, M.config_id n hn]
    exact ⟨(h.node n hn).act hx, introduces_act hn hx⟩
  | deliver k =>
    obtain ⟨c, hc, -, hx⟩ := effect_deliver hx
    have hcall := h.call c (List.mem_of_getElem? hc)
    rw [handle_actor hx, M.config_id _ hcall.callee]
    refine ((h.node _ hcall.callee).handle ?_ ?_ hx).imp_right hnone
    · rintro id hid rfl
      rw [M.config_id _ hcall.callee] at hid
      exact hcall.ne (hcall.leader _ hid).symm
    · intro args hargs
      exact hG (c.callee, args.term) (by simp [Event.tells, hc, hargs])
  | answer j =>
    obtain ⟨k, reply, c, hj, hc, -, hn, hx⟩ := effect_answer hx
    rw [onReply_actor hx, M.config_id _ hn]
    refine ((h.node _ hn).onReply ?_ hx).imp_right hnone
    exact hG (c.caller, reply.term) (by simp [Event.tells, hj, hc])

omit [Inhabited Blob] in
/-- A call that goes on introduces the same caller. -/
theorem Hinted.continues (h : Hinted M w) {cs : List (Call Blob)} (hcs : Continues w.calls cs) :
    ∀ c ∈ cs, Introduces M c := by
  intro c hc
  obtain ⟨c', hc', hcaller, hcallee, hreq, -⟩ := hcs.mem hc
  have hcall := h.call c' hc'
  exact ⟨hcaller ▸ hcall.caller, hcallee ▸ hcall.callee, hcaller ▸ hcallee ▸ hcall.ne,
    hcaller ▸ hreq ▸ hcall.leader⟩

omit [Inhabited Blob] in
/-- A section runs to its end. -/
theorem Hinted.commit (h : Hinted M w) (hnode : KnowsItself (M.config x.actor) x.node)
    (hcalls : ∀ c ∈ x.calls, Introduces M c) : Hinted M (w.commit x) := by
  refine ⟨fun n hn => ?_, fun c hc => ?_⟩
  · rcases eq_or_ne n x.actor with rfl | hne
    · simp only [World.commit, Function.update_self]
      exact hnode
    · simp only [World.commit, Function.update_of_ne hne]
      exact h.node n hn
  · rcases List.mem_append.mp hc with hc | hc
    · exact h.continues (continues_closeCall w.calls x.finished) c hc
    · exact hcalls c hc

variable [DecidableEq Blob]

/-- A node that has just been started knows of no leader. -/
theorem knowsItself_newNode (hn : n ∈ M.ids) (d : Disk Blob) :
    KnowsItself (M.config n) (newNode (M.config n) d) := by
  have hid : (newNode (M.config n) d).leaderID = "" := by
    unfold newNode readPersist
    dsimp only
    split
    · rfl
    · split
      · rfl
      · split
        · rfl
        · split <;> rfl
  rw [KnowsItself, (newNode_fields (M.config n) d).1, hid, M.config_id n hn]
  exact iff_of_false (by decide) fun heq => M.ne_empty n hn heq.symm

/-- Who restarts has no hint. -/
theorem Hinted.restart (h : Hinted M w) (hn : n ∈ M.ids) (ws : List (Write Blob)) :
    Hinted M (w.restart M n ws) := by
  refine ⟨fun m hm => ?_, h.continues (continues_map w.calls n)⟩
  rcases eq_or_ne m n with rfl | hne
  · simp only [World.restart, Function.update_self]
    exact knowsItself_newNode hm _
  · simp only [World.restart, Function.update_of_ne hne]
    exact h.node m hm

theorem hinted_start (M : Membership) : Hinted M (start M : World Blob) :=
  ⟨fun _ hn => knowsItself_newNode hn emptyDisk, fun c hc => by cases hc⟩

/-- **A step in which no leader learns of a later term** leaves every member knowing itself. -/
theorem Hinted.step (h : Hinted M w) {y : Action Blob} (hG : LearnsFromLeader w y)
    (hy : step M w y = some w') : Hinted M w' := by
  cases y with
  | run e =>
    obtain ⟨x, hx, rfl⟩ := Option.map_eq_some_iff.mp hy
    obtain ⟨hnode, hcalls⟩ := h.effect hG hx
    exact h.commit hnode hcalls
  | crash n =>
    simp only [Raft.step, Option.ite_none_right_eq_some, Option.some.injEq] at hy
    obtain ⟨hn, rfl⟩ := hy
    exact h.restart hn []
  | crashIn e k =>
    obtain ⟨x, hx, rfl⟩ := Option.map_eq_some_iff.mp hy
    exact h.restart (effect_actor_mem hx) _

/-- **A leader that learns of a later term** steps down and names itself. -/
theorem Hinted.learnsFromLeader (h : Hinted M w) {y : Action Blob}
    (hy : Raft.step M w y = some w') (hw' : NoSelfHint M w') : LearnsFromLeader w y := by
  cases y with
  | crash n => trivial
  | crashIn e k => trivial
  | run e =>
    obtain ⟨x, hx, rfl⟩ := Option.map_eq_some_iff.mp hy
    -- it is enough to see what the section makes of the node that runs it
    have hactor : x.node.state ≠ .leader → x.node.leaderHint (M.config x.actor) ≠ x.actor := by
      have hno := hw' x.actor (effect_actor_mem hx)
      simpa only [World.commit, Function.update_self] using hno
    rintro ⟨n, term⟩ hp hs
    by_contra hlater
    have hlater := Nat.lt_of_not_le hlater
    cases e with
    | trigger n t => cases hp
    | deliver k =>
      obtain ⟨c, hc, hp⟩ := Option.bind_eq_some_iff.mp hp
      obtain ⟨c', hc', -, hx⟩ := effect_deliver hx
      obtain rfl := Option.some.inj (hc.symm.trans hc')
      have hcall := h.call c (List.mem_of_getElem? hc)
      have hid := (handle_actor hx).trans (M.config_id _ hcall.callee)
      cases hreq : c.request with
      | requestVote args =>
        rw [hreq] at hp hx
        obtain ⟨rfl, rfl⟩ := Prod.mk.inj (Option.some.inj hp)
        obtain ⟨hdown, hself⟩ :=
          (h.node _ hcall.callee).leaderHint_handleRequestVote hs hlater
        rw [hid, ← Option.some.inj hx] at hactor
        exact hactor hdown (hself.trans (M.config_id _ hcall.callee))
      | appendEntries args => rw [hreq] at hp; cases hp
      | installSnapshot args => rw [hreq] at hp; cases hp
    | answer j =>
      obtain ⟨⟨k, reply⟩, hj, hp⟩ := Option.bind_eq_some_iff.mp hp
      obtain ⟨c, hc, hp⟩ := Option.map_eq_some_iff.mp hp
      obtain ⟨rfl, rfl⟩ := Prod.mk.inj hp
      obtain ⟨k', reply', c', hj', hc', -, -, hx⟩ := effect_answer hx
      obtain ⟨rfl, rfl⟩ := Prod.mk.inj (Option.some.inj (hj.symm.trans hj'))
      obtain rfl := Option.some.inj (hc.symm.trans hc')
      have hcall := h.call c (List.mem_of_getElem? hc)
      have hid := (onReply_actor hx).trans (M.config_id _ hcall.caller)
      rw [hid, onReply_of_later hlater hx] at hactor
      have hself := (h.node _ hcall.caller).leaderHint_becomeFollowerLocked hs reply.term
      refine hactor ?_ (hself.trans (M.config_id _ hcall.caller))
      rw [becomeFollowerLocked_state]
      decide

end Runs

/-- **When a node redirects its clients to itself.** In every run in which no leader learns of a
later term from a vote request or from a reply, no node that is not the leader names itself; and
the next step makes one do so if and only if a leader learns of a later term in this way. -/
theorem hint_not_self [DecidableEq Blob] {M : Membership} {as : List (Action Blob)}
    {w : World Blob} (hrun : run M as = some w)
    (hG : Run.Guarded (step M) LearnsFromLeader (start M) as) :
    (∀ n ∈ M.ids, (w.nodes n).state ≠ .leader → (w.nodes n).leaderHint (M.config n) ≠ n) ∧
      ∀ y w', step M w y = some w' → (NoSelfHint M w' ↔ LearnsFromLeader w y) := by
  have hhinted : Hinted M w := Run.invariant_of_guarded (P := Hinted M) (hinted_start M)
    (fun _ _ _ h hG hs => h.step hG hs) hG hrun
  exact ⟨hhinted.noSelfHint, fun y w' hy =>
    ⟨hhinted.learnsFromLeader hy, fun hG => (hhinted.step hG hy).noSelfHint⟩⟩

/-- After the failover the old leader hears from the new one. -/
def heardFromLeader : List (Action ℕ) :=
  failover ++ [.run (.trigger "b" (.sendAppendEntries "a")), .run (.deliver 6)]

theorem hint_not_self_heardFromLeader :
    ∃ w, run threeNodes heardFromLeader = some w ∧
      ((w.nodes "a").state, (w.nodes "a").leaderHint (threeNodes.config "a")) =
        (.follower, "b") ∧
      (∀ n ∈ threeNodes.ids, (w.nodes n).state ≠ .leader →
        (w.nodes n).leaderHint (threeNodes.config n) ≠ n) := by
  obtain ⟨w, hrun, hobs⟩ : ∃ w, run threeNodes heardFromLeader = some w ∧
      ((w.nodes "a").state, (w.nodes "a").leaderHint (threeNodes.config "a")) =
        (.follower, "b") :=
    Option.map_eq_some_iff.mp (by decide +kernel)
  exact ⟨w, hrun, hobs, (hint_not_self hrun (by decide +kernel)).1⟩

/-- `a` is elected, and then hears of the next term from `b`, which stands for election. -/
def deposedByCandidate : List (Action ℕ) :=
  electionOf "a" 0 0 ++ [.run (.trigger "b" .electionTimeout), .run (.deliver 2)]

/-- The deposed leader sends its clients to itself. -/
theorem redirects_to_itself :
    ∃ w, run threeNodes deposedByCandidate = some w ∧ (w.nodes "a").state = .follower ∧
      (w.nodes "a").currentTerm = 2 ∧ (w.nodes "a").leaderHint (threeNodes.config "a") = "a" := by
  obtain ⟨w, hrun, hobs⟩ : ∃ w, run threeNodes deposedByCandidate = some w ∧
      ((w.nodes "a").state, (w.nodes "a").currentTerm,
        (w.nodes "a").leaderHint (threeNodes.config "a")) = (.follower, 2, "a") :=
    Option.map_eq_some_iff.mp (by decide +kernel)
  obtain ⟨hs, hobs⟩ := Prod.mk.inj hobs
  obtain ⟨hterm, hhint⟩ := Prod.mk.inj hobs
  exact ⟨w, hrun, hs, hterm, hhint⟩

end Raft

end DistQueue
