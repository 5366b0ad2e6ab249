import DistQueue.Raft.Exchange
import DistQueue.Raft.Orderly
import Mathlib.Data.Finset.Max
import Mathlib.Data.Prod.Lex

/-!
# A majority can always go on

Nothing a run has done can leave the cluster in a state it does not get out of. Take any state
that a run comes to, with whatever calls are under way, and any majority of the members. Then the
members of that majority alone can go on so that one of them leads, appends a new command and
commits it, and has all of them agree with its log
(`DistQueue.Raft.majority_can_commit`). No one crashes in this, and the nodes outside the majority
do not change, so that it does not matter whether they are up.

The way there has two phases, each put together from calls that are answered at once.

* **The election** (`DistQueue.Raft.Reached.elects`). The member whose log is the most up to date
  is made to step down if it leads and is behind. Its timer then runs out until its term is later
  than all the others', and every vote it asks for is granted.
* **The replication** (`DistQueue.Raft.Reached.commits`). The leader exchanges entries with one
  member after the other until each has matched its log. The reply that completes the majority
  moves the commit index to the end of the log, as the last entry is of the leader's term.
-/

namespace DistQueue

namespace Raft

open Consensus

variable {Blob : Type} {nd : Node Blob} {cfg : Config}

/-! ### Grants and the commit index -/

/-- Who has not voted in the term grants its vote to a log as good as its own. -/
theorem castVote_grants {args : RequestVoteArgs} (hterm : nd.currentTerm = args.term)
    (hvoted : nd.votedFor = "") (hlog : UpToDateWith nd.log args) :
    castVote cfg nd args = ({ nd with votedFor := args.candidateID },
      persistLocked cfg { nd with votedFor := args.candidateID }, ⟨args.term, true⟩) := by
  rw [castVote, if_neg (by omega), if_pos ⟨.inl hvoted, hlog⟩, hterm]

/-- **A vote is granted** to a candidate of a later term whose log is at least as up to date. -/
theorem handleRequestVote_grants {args : RequestVoteArgs} (hlater : nd.currentTerm < args.term)
    (hlog : UpToDateWith nd.log args) :
    (handleRequestVote cfg nd args).2.2 = ⟨args.term, true⟩ ∧
      (handleRequestVote cfg nd args).1.currentTerm = args.term := by
  have hobserve : (observeTerm cfg nd args.term).1.currentTerm = args.term ∧
      (observeTerm cfg nd args.term).1.votedFor = "" ∧
      (observeTerm cfg nd args.term).1.log = nd.log := by
    rw [observeTerm, if_pos hlater, becomeFollowerLocked, if_pos hlater]
    exact ⟨rfl, rfl, rfl⟩
  obtain ⟨hterm, hvoted, hsame⟩ := hobserve
  have hcast : castVote cfg (observeTerm cfg nd args.term).1 args = _ :=
    castVote_grants hterm hvoted (by rwa [hsame])
  constructor
  · exact congrArg (fun r => r.2.2) hcast
  · exact (congrArg (fun r => r.1.currentTerm) hcast).trans hterm

/-- The members known to hold the log up to `idx` are counted. -/
theorem card_le_matchCount {q : Finset NodeID} {idx : ℕ}
    (hq : ∀ m ∈ q, m ∈ cfg.members ∧ idx ≤ nd.matchIndex m) : q.card ≤ matchCount cfg nd idx := by
  rw [matchCount, List.countP_eq_length_filter]
  refine le_trans (Finset.card_le_card fun m hm => ?_) (List.toFinset_card_le _)
  simpa using hq m hm

/-- **The end of the log is committed** once a majority has reached it, if the last entry is of
the leader's term. -/
theorem lastIndex_le_of_advanceCommitFrom {ci : ℕ}
    (hfirst : nd.log.firstIndex < nd.log.lastIndex)
    (hterm : nd.log.termAt nd.log.lastIndex = some nd.currentTerm)
    (hcount : cfg.majority ≤ matchCount cfg nd nd.log.lastIndex)
    (h : advanceCommitFrom cfg nd nd.log.lastIndex = some ci) : nd.log.lastIndex ≤ ci := by
  obtain ⟨k, hk⟩ : ∃ k, nd.log.lastIndex = k + 1 := ⟨nd.log.lastIndex - 1, by omega⟩
  rw [hk] at hfirst hterm hcount h ⊢
  rw [advanceCommitFrom] at h
  by_cases hcond : nd.commitIndex < k + 1 ∧ nd.log.firstIndex < k + 1
  · rw [if_pos hcond, hterm, Option.bind_eq_bind, Option.bind_some, if_neg (not_not.mpr rfl),
      if_pos hcount] at h
    exact (Option.some.inj h).le
  · rw [if_neg hcond] at h
    cases h
    exact Nat.le_of_not_lt fun hlt => hcond ⟨hlt, hfirst⟩

section Cluster

variable [Inhabited Blob] [DecidableEq Blob] {M : Membership} {w w' w'' : World Blob}
  {a : Ledger NodeID (LogEntry Blob)} {q : Finset NodeID} {n p : NodeID} {l : Log Blob}

/-! ### Going on -/

/-- The state at the end of a run in which no state machine hands over an empty snapshot. -/
def Reached (M : Membership) (w : World Blob) : Prop :=
  ∃ as, run M as = some w ∧ ∀ x ∈ as, x.Supplies fun _ data => data ≠ default

omit [Inhabited Blob] [DecidableEq Blob] in
/-- The `k`-th call is one of a member in `q` to another. -/
def CallAmong (q : Finset NodeID) (w : World Blob) (k : ℕ) : Prop :=
  ∃ c, w.calls[k]? = some c ∧ c.caller ∈ q ∧ c.callee ∈ q

omit [Inhabited Blob] [DecidableEq Blob] in
/-- **What the members in `q` do by themselves**: their timers run out, they send requests, and
they handle the calls among them and the replies to these. Nobody else does anything. -/
def Spontaneous (q : Finset NodeID) (w : World Blob) : Action Blob → Prop
  | .run (.trigger n .electionTimeout) => n ∈ q
  | .run (.trigger n (.sendAppendEntries _)) => n ∈ q
  | .run (.trigger n (.sendInstallSnapshot _)) => n ∈ q
  | .run (.deliver k) => CallAmong q w k
  | .run (.answer j) => ∃ k reply, w.replies[j]? = some (k, reply) ∧ CallAmong q w k
  | _ => False

/-- **The members in `q` can get from `w` to `w'`** by themselves: every step of the way is one of
theirs, and the other nodes are as they were. -/
def Gets (M : Membership) (q : Finset NodeID) (w w' : World Blob) : Prop :=
  ∃ bs, Run.exec (step M) w bs = some w' ∧ Run.Guarded (step M) (Spontaneous q) w bs ∧
    ∀ m ∉ q, w'.nodes m = w.nodes m

omit [Inhabited Blob] [DecidableEq Blob] in
/-- No state machine hands over a snapshot in this. -/
theorem Spontaneous.supplies {Q : ℕ → Blob → Prop} {x : Action Blob} (h : Spontaneous q w x) :
    x.Supplies Q := by
  unfold Spontaneous at h
  split at h
  any_goals exact trivial
  cases h

namespace Reached

/-- A reached world has a ledger. -/
theorem sim (hw : Reached M w) : ∃ a, Sim M w a := by
  obtain ⟨as, has, -⟩ := hw
  exact (exists_ranged has).1

/-- What is reached from a reached world is reached. -/
theorem exec {bs : List (Action Blob)} (hw : Reached M w)
    (hbs : Run.exec (step M) w bs = some w')
    (hdata : ∀ x ∈ bs, x.Supplies fun _ data => data ≠ default) : Reached M w' := by
  obtain ⟨as, has, hall⟩ := hw
  refine ⟨as ++ bs, ?_, fun x hx => (List.mem_append.mp hx).elim (hall x) (hdata x)⟩
  rw [run, Run.exec_append]
  exact Option.bind_eq_some_iff.mpr ⟨w, has, hbs⟩

/-- So it is after one step. -/
theorem after {x : Action Blob} (hw : Reached M w) (hx : step M w x = some w')
    (hdata : x.Supplies fun _ data => data ≠ default) : Reached M w' := by
  refine hw.exec (show Run.exec (step M) w [x] = some w' from ?_) fun y hy => ?_
  · rw [Run.exec_cons, hx, Option.bind_some, Run.exec_nil]
  · rw [List.mem_singleton.mp hy]
    exact hdata

end Reached

namespace Gets

theorem refl (w : World Blob) : Gets M q w w :=
  ⟨[], rfl, trivial, fun _ _ => rfl⟩

/-- One part of the run after the other. -/
theorem trans (h : Gets M q w w') (h' : Gets M q w' w'') : Gets M q w w'' := by
  obtain ⟨bs, hbs, hown, hframe⟩ := h
  obtain ⟨cs, hcs, hown', hframe'⟩ := h'
  refine ⟨bs ++ cs, ?_, hown.append hbs hown', fun m hm => (hframe' m hm).trans (hframe m hm)⟩
  rw [Run.exec_append]
  exact Option.bind_eq_some_iff.mpr ⟨w', hbs, hcs⟩

/-- What the members get to is reached. -/
theorem reached (h : Gets M q w w') (hw : Reached M w) : Reached M w' := by
  obtain ⟨bs, hbs, hown, -⟩ := h
  exact hw.exec hbs (hown.forall_mem (fun _ _ hx => hx.supplies) hbs)

end Gets

/-! ### Calls -/

omit [DecidableEq Blob] in
/-- The callee sends one reply, to the call it handles. -/
theorem handle_replies {nd : Node Blob} {k : ℕ} {request : Request Blob} {x : Effect Blob}
    (h : handle cfg nd k request = some x) :
    x.calls = [] ∧ x.finished = none ∧ ∃ reply, x.replies = [(k, reply)] := by
  cases request with
  | requestVote args =>
    cases h
    exact ⟨rfl, rfl, _, rfl⟩
  | appendEntries args =>
    obtain ⟨r, -, h⟩ := Option.bind_eq_some_iff.mp h
    cases h
    exact ⟨rfl, rfl, _, rfl⟩
  | installSnapshot args =>
    obtain ⟨r, -, h⟩ := Option.bind_eq_some_iff.mp h
    cases h
    exact ⟨rfl, rfl, _, rfl⟩

/-- **Once a call has been delivered** there is a reply to it, and the callee alone has changed. -/
theorem replied_of_deliver {k : ℕ} {request : Request Blob} (hp : p ∈ M.ids)
    (hcall : w.calls[k]? = some ⟨n, p, request, true⟩)
    (h : step M w (.run (.deliver k)) = some w') :
    (∃ reply, w'.replies[w.replies.length]? = some (k, reply)) ∧
      w'.calls[k]? = some ⟨n, p, request, true⟩ ∧ ∀ m ≠ p, w'.nodes m = w.nodes m := by
  obtain ⟨x, hx, rfl⟩ := Option.map_eq_some_iff.mp h
  rw [effect_deliver_eq hcall hp] at hx
  obtain ⟨hcalls, hfinished, reply, hreplies⟩ := handle_replies hx
  have hxid : x.actor = p := (handle_actor hx).trans (M.config_id p hp)
  refine ⟨⟨reply, ?_⟩, ?_, fun m hm => ?_⟩
  · simp only [World.commit, hreplies, List.getElem?_concat_length]
  · simp only [World.commit, hfinished, hcalls, closeCall, List.append_nil, hcall]
  · rw [World.commit, hxid]
    exact Function.update_of_ne hm _ _

/-- **A call changes its two ends only.** -/
theorem nodes_of_call {k : ℕ} {request : Request Blob} (hn : n ∈ M.ids) (hp : p ∈ M.ids)
    (hcall : w.calls[k]? = some ⟨n, p, request, true⟩)
    (h : Run.exec (step M) w [.run (.deliver k), .run (.answer w.replies.length)] = some w')
    {m : NodeID} (hmn : m ≠ n) (hmp : m ≠ p) : w'.nodes m = w.nodes m := by
  obtain ⟨v, hv, h⟩ := Option.bind_eq_some_iff.mp h
  obtain ⟨v', hv', h⟩ := Option.bind_eq_some_iff.mp h
  cases h
  obtain ⟨⟨reply, hreply⟩, hcall', hother⟩ := replied_of_deliver hp hcall hv
  -- the caller runs the second section
  obtain ⟨y, hy, rfl⟩ := Option.map_eq_some_iff.mp hv'
  rw [effect_answer_eq hreply hcall' rfl hn] at hy
  have hyid : y.actor = n := (onReply_actor hy).trans (M.config_id n hn)
  rw [World.commit, hyid]
  simp only [Function.update_of_ne hmn]
  exact hother m hmp

/-- A call among the members in `q` is their own doing. -/
theorem guarded_call {k : ℕ} {request : Request Blob} (hp : p ∈ M.ids)
    (hcall : w.calls[k]? = some ⟨n, p, request, true⟩) (hnq : n ∈ q) (hpq : p ∈ q) :
    Run.Guarded (step M) (Spontaneous q) w
      [.run (.deliver k), .run (.answer w.replies.length)] := by
  refine ⟨⟨_, hcall, hnq, hpq⟩, ?_⟩
  cases hv : step M w (.run (.deliver k)) with
  | none => trivial
  | some v =>
    obtain ⟨⟨reply, hreply⟩, hcall', -⟩ := replied_of_deliver hp hcall hv
    exact Run.guarded_singleton ⟨k, reply, hreply, _, hcall', hnq, hpq⟩

/-- A round begins with a request, and nothing else changes in this. -/
theorem sent_of_round (hn : n ∈ M.ids) (hround : round M n p w = some w') :
    ∃ v request, step M w (.run (.trigger n (sendTrigger (w.nodes n) p))) = some v ∧
      Run.exec (step M) v [.run (.deliver w.calls.length), .run (.answer v.replies.length)] =
        some w' ∧
      p ∈ M.ids ∧ v.calls[w.calls.length]? = some ⟨n, p, request, true⟩ ∧ v.nodes = w.nodes ∧
      v.replies.length = w.replies.length := by
  obtain ⟨v, hv, h⟩ := Option.bind_eq_some_iff.mp hround
  have hsent := hv
  obtain ⟨x, hx, rfl⟩ := Option.map_eq_some_iff.mp hv
  rw [effect, if_pos hn, sendTrigger] at hx
  obtain ⟨hp, request, rfl⟩ : p ∈ (M.config n).peers ∧ ∃ request, x =
      { actor := n, node := w.nodes n, calls := [⟨n, p, request, true⟩] } := by
    split at hx
    · cases acts_of_act hx with
      | sendInstallSnapshot hp hargs => exact ⟨hp, _, by rw [M.config_id n hn]⟩
    · cases acts_of_act hx with
      | sendAppendEntries hp hargs => exact ⟨hp, _, by rw [M.config_id n hn]⟩
  set v := w.commit { actor := n, node := w.nodes n, calls := [⟨n, p, request, true⟩] }
  have hreplies : v.replies.length = w.replies.length :=
    congrArg List.length (List.append_nil w.replies)
  refine ⟨v, request, hsent, ?_, ((M.mem_peers n hn p).mp hp).1, List.getElem?_concat_length,
    Function.update_eq_self n w.nodes, hreplies⟩
  rw [hreplies]
  exact h

/-- A round is between two nodes. -/
theorem nodes_of_round (hn : n ∈ M.ids) (hround : round M n p w = some w') {m : NodeID}
    (hmn : m ≠ n) (hmp : m ≠ p) : w'.nodes m = w.nodes m := by
  obtain ⟨v, request, -, hcalled, hp, hcall, hnodes, -⟩ := sent_of_round hn hround
  rw [nodes_of_call hn hp hcall hcalled hmn hmp, hnodes]

/-- **A round between two of the members is theirs.** -/
theorem Gets.of_round (hn : n ∈ M.ids) (hround : round M n p w = some w') (hnq : n ∈ q)
    (hpq : p ∈ q) : Gets M q w w' := by
  obtain ⟨v, request, hsent, -, hp, hcall, -, hreplies⟩ := sent_of_round hn hround
  refine ⟨_, hround, ⟨?_, ?_⟩, fun m hm => nodes_of_round hn hround ?_ ?_⟩
  · rw [sendTrigger]
    split <;> exact hnq
  · rw [hsent, ← hreplies]
    exact guarded_call hp hcall hnq hpq
  · rintro rfl
    exact hm hnq
  · rintro rfl
    exact hm hpq

/-- A call that has been made, from its delivery to its reply. -/
theorem exec_answer {k : ℕ} {request : Request Blob} {reply : Reply} {callee caller : Node Blob}
    {ws ws' : List (Write Blob)} (hn : n ∈ M.ids) (hp : p ∈ M.ids) (hne : n ≠ p)
    (hcall : w.calls[k]? = some ⟨n, p, request, true⟩)
    (hhandle : handle (M.config p) (w.nodes p) k request =
      some { actor := p, node := callee, writes := ws, replies := [(k, reply)] })
    (hanswer : onReply (M.config n) (w.nodes n) k p request reply =
      some { actor := n, node := caller, writes := ws', finished := some k }) :
    ∃ w', Run.exec (step M) w [.run (.deliver k), .run (.answer w.replies.length)] = some w' ∧
      w'.nodes = Function.update (Function.update w.nodes p callee) n caller ∧
      w'.calls = w.calls.modify k Call.close := by
  let v := w.commit { actor := p, node := callee, writes := ws, replies := [(k, reply)] }
  have hv : step M w (.run (.deliver k)) = some v := by
    rw [step, effect_deliver_eq hcall hp, hhandle]
    rfl
  have hcalls : v.calls = w.calls := List.append_nil w.calls
  have hreply : v.replies[w.replies.length]? = some (k, reply) := List.getElem?_concat_length
  have hcaller : v.nodes n = w.nodes n := Function.update_of_ne hne _ _
  let v' := v.commit { actor := n, node := caller, writes := ws', finished := some k }
  have hv' : step M v (.run (.answer w.replies.length)) = some v' := by
    rw [step, effect_answer_eq hreply (hcalls ▸ hcall) rfl hn, hcaller, hanswer]
    rfl
  refine ⟨v', ?_, rfl, ?_⟩
  · simp only [Run.exec_cons, hv, hv', Option.bind_some, Run.exec_nil]
  · exact (List.append_nil _).trans (congrArg (·.modify k Call.close) hcalls)

/-! ### The election -/

/-- **The timer of a node that does not lead runs out.** -/
theorem gets_electionTimeout (hn : n ∈ M.ids) (hnq : n ∈ q) (hs : (w.nodes n).state ≠ .leader) :
    ∃ w', Gets M q w w' ∧
      w'.nodes = Function.update w.nodes n (startElectionLocked (M.config n) (w.nodes n)).1 ∧
      w'.calls = w.calls ++ (M.config n).peers.map fun p =>
        ⟨n, p, .requestVote (startElectionLocked (M.config n) (w.nodes n)).2.2, true⟩ := by
  obtain ⟨w', hw', hnodes, hcalls⟩ : ∃ w', step M w (.run (.trigger n .electionTimeout)) = some w' ∧
      w'.nodes = Function.update w.nodes n (startElectionLocked (M.config n) (w.nodes n)).1 ∧
      w'.calls = w.calls ++ (M.config n).peers.map fun p =>
        ⟨n, p, .requestVote (startElectionLocked (M.config n) (w.nodes n)).2.2, true⟩ := by
    refine ⟨_, by rw [step, effect, if_pos hn, act, if_neg hs]; rfl, ?_, ?_⟩
    · rw [World.commit, M.config_id n hn]
    · rw [World.commit, M.config_id n hn]
      rfl
  refine ⟨w', ⟨[.run (.trigger n .electionTimeout)], ?_, Run.guarded_singleton hnq,
    fun m hm => ?_⟩, hnodes, hcalls⟩
  · rw [Run.exec_cons, hw', Option.bind_some, Run.exec_nil]
  · rw [hnodes, Function.update_of_ne]
    rintro rfl
    exact hm hnq

/-- **A node that does not lead** can get to any term. -/
theorem gets_term (hn : n ∈ M.ids) (hnq : n ∈ q) (hs : (w.nodes n).state ≠ .leader) (t : ℕ) :
    ∃ w', Gets M q w w' ∧ (∀ m ≠ n, w'.nodes m = w.nodes m) ∧
      (w'.nodes n).state ≠ .leader ∧ (w'.nodes n).log = (w.nodes n).log ∧
      t ≤ (w'.nodes n).currentTerm := by
  induction t with
  | zero => exact ⟨w, .refl w, fun _ _ => rfl, hs, rfl, Nat.zero_le _⟩
  | succ t ih =>
    obtain ⟨v, hv, hframe, hs', hlog, hterm⟩ := ih
    obtain ⟨w', hw', hnodes, -⟩ := gets_electionTimeout hn hnq hs'
    have hself := congrFun hnodes n
    rw [Function.update_self] at hself
    refine ⟨w', hv.trans hw', fun m hm => ?_, ?_, ?_, ?_⟩
    · rw [hnodes, Function.update_of_ne hm, hframe m hm]
    · rw [hself, startElectionLocked]
      exact State.noConfusion
    · rw [hself, startElectionLocked]
      exact hlog
    · rw [hself, startElectionLocked]
      exact Nat.succ_le_succ hterm

omit [Inhabited Blob] [DecidableEq Blob] in
/-- The request a candidate has sent to all its peers. -/
def ballot (n : NodeID) (nd : Node Blob) : RequestVoteArgs where
  term := nd.currentTerm
  candidateID := n
  lastLogIndex := nd.log.lastIndex
  lastLogTerm := nd.log.lastTerm

omit [Inhabited Blob] [DecidableEq Blob] in
/-- **`n` stands for election**, and can still ask the members in `ps`: they are in earlier terms,
their logs are no more up to date, and the requests to them are under way. -/
structure Stands (n : NodeID) (ps : List NodeID) (votes : ℕ) (w : World Blob) : Prop where
  state : (w.nodes n).state = .candidate
  votes_eq : (w.nodes n).votes (w.nodes n).currentTerm = votes
  earlier : ∀ p ∈ ps, (w.nodes p).currentTerm < (w.nodes n).currentTerm
  upToDate : ∀ p ∈ ps, UpToDateWith (w.nodes p).log (ballot n (w.nodes n))
  asked : ∀ p ∈ ps, ∃ k : ℕ, w.calls[k]? = some ⟨n, p, .requestVote (ballot n (w.nodes n)), true⟩

omit [DecidableEq Blob] in
/-- **A grant** elects the candidate, or is counted. -/
theorem onRequestVoteReply_granted {term : ℕ} (hs : nd.state = .candidate)
    (hterm : nd.currentTerm = term) :
    (cfg.majority ≤ nd.votes term + 1 ∧ onRequestVoteReply cfg nd term ⟨term, true⟩ =
        becomeLeaderLocked cfg
          { nd with votes := Function.update nd.votes term (nd.votes term + 1) }) ∨
      nd.votes term + 1 < cfg.majority ∧ onRequestVoteReply cfg nd term ⟨term, true⟩ =
        ({ nd with votes := Function.update nd.votes term (nd.votes term + 1) }, []) := by
  rcases onRequestVoteReply_cases cfg nd term ⟨term, true⟩ with
    ⟨hlater, -⟩ | ⟨hnot, -⟩ | ⟨-, hcases⟩
  · exact absurd hlater hterm.not_lt
  · exact absurd ⟨hs, hterm, rfl⟩ hnot
  · exact hcases

/-- **One vote**: the member asked next grants it, and the candidate leads or goes on asking. -/
theorem Stands.vote {ps : List NodeID} {votes : ℕ} (h : Stands n (p :: ps) votes w)
    (hn : n ∈ M.ids) (hp : p ∈ M.ids) (hne : n ≠ p) (hnps : n ∉ ps) (hpps : p ∉ ps)
    (hnq : n ∈ q) (hpq : p ∈ q) :
    ∃ w', Gets M q w w' ∧ (w'.nodes n).currentTerm = (w.nodes n).currentTerm ∧
      (w'.nodes p).currentTerm = (w.nodes n).currentTerm ∧
      (∀ m, m ≠ n → m ≠ p → w'.nodes m = w.nodes m) ∧
      ((w'.nodes n).state = .leader ∨
        votes + 1 < (M.config n).majority ∧ Stands n ps (votes + 1) w') := by
  obtain ⟨k, hk⟩ := h.asked p List.mem_cons_self
  obtain ⟨hreply, hterm⟩ : _ ∧ (handleRequestVote (M.config p) (w.nodes p) _).1.currentTerm = _ :=
    handleRequestVote_grants (h.earlier p List.mem_cons_self) (h.upToDate p List.mem_cons_self)
  have hhandle : handle (M.config p) (w.nodes p) k (.requestVote (ballot n (w.nodes n))) = some
      { actor := p
        node := (handleRequestVote (M.config p) (w.nodes p) (ballot n (w.nodes n))).1
        writes := (handleRequestVote (M.config p) (w.nodes p) (ballot n (w.nodes n))).2.1
        replies := [(k, .requestVote ⟨(w.nodes n).currentTerm, true⟩)] } := by
    rw [handle, hreply, M.config_id p hp]
    rfl
  set r := onRequestVoteReply (M.config n) (w.nodes n) (w.nodes n).currentTerm
    ⟨(w.nodes n).currentTerm, true⟩ with hr
  have hanswer : onReply (M.config n) (w.nodes n) k p (.requestVote (ballot n (w.nodes n)))
      (.requestVote ⟨(w.nodes n).currentTerm, true⟩) =
      some { actor := n, node := r.1, writes := r.2, finished := some k } := by
    rw [onReply, M.config_id n hn]
    rfl
  obtain ⟨w', hw', hnodes, hcalls⟩ := exec_answer hn hp hne hk hhandle hanswer
  have hnode : w'.nodes n = r.1 := by rw [hnodes, Function.update_self]
  have hpeer : (w'.nodes p).currentTerm = (w.nodes n).currentTerm := by
    rw [hnodes, Function.update_of_ne hne.symm, Function.update_self, hterm]
    rfl
  have hother : ∀ m, m ≠ n → m ≠ p → w'.nodes m = w.nodes m := fun m hmn hmp => by
    rw [hnodes, Function.update_of_ne hmn, Function.update_of_ne hmp]
  have hgets : Gets M q w w' := by
    refine ⟨_, hw', guarded_call hp hk hnq hpq, fun m hm => hother m ?_ ?_⟩
    · rintro rfl
      exact hm hnq
    · rintro rfl
      exact hm hpq
  rcases onRequestVoteReply_granted h.state rfl with ⟨-, heq⟩ | ⟨hfew, heq⟩
  · rw [hr, heq] at hnode
    refine ⟨w', hgets, ?_, hpeer, hother, .inl ?_⟩ <;> rw [hnode] <;> rfl
  · rw [hr, heq] at hnode
    have hballot : ballot n (w'.nodes n) = ballot n (w.nodes n) := by rw [hnode]; rfl
    have hterm' : (w'.nodes n).currentTerm = (w.nodes n).currentTerm := by rw [hnode]
    rw [h.votes_eq] at hfew
    have hsame : ∀ m ∈ ps, w'.nodes m = w.nodes m := fun m hm =>
      hother m (fun hmn => hnps (hmn ▸ hm)) (fun hmp => hpps (hmp ▸ hm))
    refine ⟨w', hgets, hterm', hpeer, hother, .inr ⟨hfew, ?_, ?_, ?_, ?_, ?_⟩⟩
    · rw [hnode]
      exact h.state
    · rw [hnode]
      simp only [Function.update_self, h.votes_eq]
    · intro m hm
      rw [hsame m hm, hterm']
      exact h.earlier m (List.mem_cons_of_mem _ hm)
    · intro m hm
      rw [hsame m hm, hballot]
      exact h.upToDate m (List.mem_cons_of_mem _ hm)
    · -- the call that has been answered went to another member
      intro m hm
      obtain ⟨j, hj⟩ := h.asked m (List.mem_cons_of_mem _ hm)
      have hjk : k ≠ j := by
        rintro rfl
        cases hk.symm.trans hj
        exact hpps hm
      refine ⟨j, ?_⟩
      rw [hcalls, List.getElem?_modify_ne _ _ hjk, hballot]
      exact hj

/-- **The votes of the members left suffice**, and the candidate is elected. -/
theorem Stands.elected {ps : List NodeID} {votes : ℕ} (h : Stands n ps votes w) (hn : n ∈ M.ids)
    (hnps : n ∉ ps) (hnodup : ps.Nodup) (hnq : n ∈ q) (hps : ∀ p ∈ ps, p ∈ q ∧ p ∈ M.ids)
    (hterm : ∀ m ∈ q, (w.nodes m).currentTerm ≤ (w.nodes n).currentTerm)
    (hfew : votes < (M.config n).majority) (hmany : (M.config n).majority ≤ votes + ps.length) :
    ∃ w', Gets M q w w' ∧ (w'.nodes n).state = .leader ∧
      ∀ m ∈ q, (w'.nodes m).currentTerm ≤ (w'.nodes n).currentTerm := by
  induction ps generalizing w votes with
  | nil => exact absurd hmany (Nat.not_le.mpr hfew)
  | cons p ps ih =>
    obtain ⟨hpps, hnodup⟩ := List.nodup_cons.mp hnodup
    obtain ⟨hpq, hp⟩ := hps p List.mem_cons_self
    have hne : n ≠ p := fun hnp => hnps (hnp ▸ List.mem_cons_self)
    have hnps' : n ∉ ps := fun hmem => hnps (List.mem_cons_of_mem _ hmem)
    obtain ⟨w', hgets, hself, hpeer, hother, hcases⟩ :=
      h.vote hn hp hne hnps' hpps hnq hpq
    have hterm' : ∀ m ∈ q, (w'.nodes m).currentTerm ≤ (w'.nodes n).currentTerm := by
      intro m hm
      by_cases hmn : m = n
      · rw [hmn]
      by_cases hmp : m = p
      · rw [hmp, hpeer, hself]
      · rw [hother m hmn hmp, hself]
        exact hterm m hm
    rcases hcases with hleader | ⟨hfew', hstands⟩
    · exact ⟨w', hgets, hleader, hterm'⟩
    · obtain ⟨w'', hgets', hend⟩ := ih hstands hnps' hnodup
        (fun m hm => hps m (List.mem_cons_of_mem _ hm)) hterm' hfew' (by
          rw [List.length_cons] at hmany
          omega)
      exact ⟨w'', hgets.trans hgets', hend⟩

/-- A member of `q` leads with a term no member of `q` is ahead of, or can be made not to lead
while the logs stay as they are. -/
theorem Reached.leads_or_down (hw : Reached M w) (hq : q ⊆ M.ids.toFinset) (hnq : n ∈ q) :
    ((w.nodes n).state = .leader ∧ ∀ m ∈ q, (w.nodes m).currentTerm ≤ (w.nodes n).currentTerm) ∨
      ∃ v, Gets M q w v ∧ (v.nodes n).state ≠ .leader ∧ ∀ m, (v.nodes m).log = (w.nodes m).log := by
  have hn : n ∈ M.ids := List.mem_toFinset.mp (hq hnq)
  by_cases hs : (w.nodes n).state = .leader
  · by_cases hbound : ∀ m ∈ q, (w.nodes m).currentTerm ≤ (w.nodes n).currentTerm
    · exact .inl ⟨hs, hbound⟩
    · push Not at hbound
      obtain ⟨p, hpq, hlater⟩ := hbound
      have hne : p ≠ n := by
        rintro rfl
        exact Nat.lt_irrefl _ hlater
      have hp : p ∈ (M.config n).peers :=
        (M.mem_peers n hn p).mpr ⟨List.mem_toFinset.mp (hq hpq), hne⟩
      obtain ⟨as, has, hdata⟩ := hw
      obtain ⟨⟨a, hsim⟩, hranged⟩ := exists_ranged has
      obtain ⟨v, hround, hpeer, hnode⟩ :=
        hranged.round_deposed hsim hn hp hs (equipped_run has hdata hn) hlater
      refine .inr ⟨v, .of_round hn hround hnq hpq, ?_, fun m => ?_⟩
      · rw [hnode, becomeFollowerLocked_state]
        exact State.noConfusion
      · by_cases hmn : m = n
        · rw [hmn, hnode, becomeFollowerLocked_log]
        by_cases hmp : m = p
        · rw [hmp, hpeer]
        · rw [nodes_of_round hn hround hmn hmp]
  · exact .inr ⟨w, .refl w, hs, fun _ => rfl⟩

/-- **A majority can elect a leader** that no member of it is ahead of. -/
theorem Reached.elects (hw : Reached M w) (hq : q ⊆ M.ids.toFinset)
    (hmaj : M.ids.length / 2 + 1 ≤ q.card) (htwo : 2 ≤ M.ids.length) :
    ∃ w' n, n ∈ q ∧ Gets M q w w' ∧ (w'.nodes n).state = .leader ∧
      ∀ m ∈ q, (w'.nodes m).currentTerm ≤ (w'.nodes n).currentTerm := by
  -- the member whose log is the most up to date
  obtain ⟨n, hnq, hmax⟩ := q.exists_max_image
    (fun m => toLex ((w.nodes m).log.lastTerm, (w.nodes m).log.lastIndex))
    (Finset.card_pos.mp (by omega))
  have hn : n ∈ M.ids := List.mem_toFinset.mp (hq hnq)
  rcases hw.leads_or_down hq hnq with ⟨hs, hbound⟩ | ⟨v, hv, hs, hlogs⟩
  · exact ⟨w, n, hnq, .refl w, hs, hbound⟩
  -- its timer runs out until its term is the latest
  obtain ⟨u, hu, hframe, hs, hlog, hterm⟩ :=
    gets_term hn hnq hs (q.sup fun m => (v.nodes m).currentTerm)
  obtain ⟨u', hu', hnodes, hcalls⟩ := gets_electionTimeout hn hnq hs
  have hself : u'.nodes n = (startElectionLocked (M.config n) (u.nodes n)).1 := by
    rw [hnodes, Function.update_self]
  have hother : ∀ m ≠ n, u'.nodes m = v.nodes m := fun m hm => by
    rw [hnodes, Function.update_of_ne hm, hframe m hm]
  have hlater : ∀ m ∈ q, m ≠ n → (u'.nodes m).currentTerm < (u'.nodes n).currentTerm := by
    intro m hm hne
    rw [hother m hne, hself, startElectionLocked]
    exact Nat.lt_succ_of_le
      ((Finset.le_sup (f := fun m => (v.nodes m).currentTerm) hm).trans hterm)
  have hlog' : (u'.nodes n).log = (w.nodes n).log := by
    rw [hself, startElectionLocked]
    exact hlog.trans (hlogs n)
  have hballot : ballot n (u'.nodes n) = (startElectionLocked (M.config n) (u.nodes n)).2.2 := by
    rw [hself, startElectionLocked, M.config_id n hn]
    rfl
  have hstands : Stands n (q.erase n).toList 1 u' := by
    refine ⟨?_, ?_, ?_, ?_, ?_⟩
    · rw [hself, startElectionLocked]
    · rw [hself, startElectionLocked]
      exact Function.update_self ..
    · intro m hm
      obtain ⟨hne, hmq⟩ := Finset.mem_erase.mp (Finset.mem_toList.mp hm)
      exact hlater m hmq hne
    · intro m hm
      obtain ⟨hne, hmq⟩ := Finset.mem_erase.mp (Finset.mem_toList.mp hm)
      have hle := Prod.Lex.toLex_le_toLex.mp (hmax m hmq)
      rw [UpToDateWith, ballot, hlog', hother m hne, hlogs m]
      rcases hle with hlt | ⟨heq, hle⟩
      · exact .inl hlt
      · exact .inr ⟨heq.symm, hle⟩
    · intro m hm
      obtain ⟨hne, hmq⟩ := Finset.mem_erase.mp (Finset.mem_toList.mp hm)
      have hmem : m ∈ (M.config n).peers :=
        (M.mem_peers n hn m).mpr ⟨List.mem_toFinset.mp (hq hmq), hne⟩
      refine List.mem_iff_getElem?.mp ?_
      rw [hcalls, hballot]
      exact List.mem_append_right _ (List.mem_map_of_mem hmem)
  have hcard : (q.erase n).toList.length = q.card - 1 := by
    rw [Finset.length_toList, Finset.card_erase_of_mem hnq]
  rw [← M.majority_eq hn] at hmaj
  have hpeers : 2 ≤ (M.config n).majority := by
    rw [M.majority_eq hn]
    omega
  obtain ⟨w', hw', hend⟩ := hstands.elected (M := M) (q := q) hn
    (fun hmem => Finset.notMem_erase n q (Finset.mem_toList.mp hmem)) (Finset.nodup_toList _) hnq
    (fun m hm => by
      obtain ⟨-, hmq⟩ := Finset.mem_erase.mp (Finset.mem_toList.mp hm)
      exact ⟨hmq, List.mem_toFinset.mp (hq hmq)⟩)
    (fun m hm => by
      by_cases hne : m = n
      · rw [hne]
      · exact (hlater m hm hne).le) (by omega) (by omega)
  exact ⟨w', n, hnq, ((hv.trans hu).trans hu').trans hw', hend⟩

/-! ### The replication -/

/-- **What a round teaches the leader** about its peer and about no one else. -/
theorem Sim.round_learns (hsim : Sim M w a) (hn : n ∈ M.ids) (hp : p ∈ (M.config n).peers)
    (h : Leads n p l w) (hround : round M n p w = some w') :
    Leads n p l w' ∧ (w'.nodes n).currentTerm = (w.nodes n).currentTerm ∧
      SameDelivery (w.nodes n) (w'.nodes n) ∧
      (∀ m ≠ p, (w'.nodes n).matchIndex m = (w.nodes n).matchIndex m) ∧
      ∀ reply, w'.lastReply = some (.appendEntries reply) → reply.success = true →
        l.lastIndex ≤ (w'.nodes n).matchIndex p ∧
        advanceCommitFrom (M.config n)
          { w'.nodes n with commitIndex := (w.nodes n).commitIndex } l.lastIndex =
            some (w'.nodes n).commitIndex := by
  obtain ⟨-, ⟨hfirst, hsend⟩ | hsend⟩ := send_of_round hn hround
  · obtain ⟨args, hargs⟩ := Option.isSome_iff_exists.mp hsend
    obtain ⟨u, hu, hleads, -⟩ := hsim.installRound_next hn hp h hfirst hargs
    obtain rfl := Option.some.inj (hround.symm.trans hu)
    obtain ⟨r, u, hr, hu, hnode, -, hlast⟩ := hsim.installRound hn hp hfirst hargs
    obtain rfl := Option.some.inj (hround.symm.trans hu)
    have hterm : args.term = (w.nodes n).currentTerm := by
      obtain ⟨-, data, -, rfl⟩ := sendInstallSnapshot_eq hargs
      rfl
    have hsame : SameDelivery (w.nodes n) (w'.nodes n) := by
      rw [hnode]
      exact (quiet_onInstallSnapshotReply (w.nodes n) p args _).same
    obtain ⟨-, hreply⟩ := handleInstallSnapshot_term (h.term.trans_eq hterm.symm) hr
    rw [onInstallSnapshotReply_current h.state hterm (hreply.trans hterm).le] at hnode
    refine ⟨hleads, by rw [hnode]; rfl, hsame, fun m hm => ?_, fun reply hreply => ?_⟩
    · rw [hnode]
      exact Function.update_of_ne hm _ _
    · cases hreply.symm.trans hlast
  · obtain ⟨args, hargs⟩ := Option.isSome_iff_exists.mp hsend
    obtain ⟨u, reply, hu, hleads, hlast, hcases⟩ := hsim.appendRound_cases hn hp h hargs
    obtain rfl := Option.some.inj (hround.symm.trans hu)
    obtain ⟨r, o, u, hr, ho, hu, hnode, -, hlast'⟩ := hsim.appendRound hn hp hargs
    obtain rfl := Option.some.inj (hround.symm.trans hu)
    cases hlast.symm.trans hlast'
    have hsame : SameDelivery (w.nodes n) (w'.nodes n) := by
      rw [hnode]
      exact (quiet_onAppendEntriesReply ho).same
    obtain ⟨hterm, -⟩ := (hsim.node n hn).sendAppendEntries_eq hargs
    obtain ⟨⟨-, hreply⟩, -⟩ := handleAppendEntries_rejects
      (hsim.node p ((M.mem_peers n hn p).mp hp).1).first_le_last (h.term.trans_eq hterm.symm) hr
    obtain ⟨hsucc, ci, hci, rfl⟩ | ⟨hsucc, next, -, rfl⟩ :=
      onAppendEntriesReply_current h.state hterm (hreply.trans hterm).le ho
    · refine ⟨hleads, by rw [hnode]; rfl, hsame, fun m hm => ?_, fun _ _ _ => ⟨?_, ?_⟩⟩
      · rw [hnode]
        exact Function.update_of_ne hm _ _
      · rcases hcases with ⟨-, hmatch⟩ | ⟨hfail, -⟩
        · exact hmatch
        · cases hsucc.symm.trans hfail
      · rw [hnode, ← h.log]
        exact hci
    · refine ⟨hleads, by rw [hnode], hsame, fun m _ => by rw [hnode], fun reply hreply hok => ?_⟩
      cases hreply.symm.trans hlast
      cases hok.symm.trans hsucc

omit [Inhabited Blob] [DecidableEq Blob] in
/-- **`n` leads in term `t` with the log `l`**, and no member of `q` is in a later term. -/
structure Leading (q : Finset NodeID) (n : NodeID) (l : Log Blob) (t : ℕ) (w : World Blob) :
    Prop where
  state : (w.nodes n).state = .leader
  log : (w.nodes n).log = l
  term : (w.nodes n).currentTerm = t
  bound : ∀ m ∈ q, (w.nodes m).currentTerm ≤ t

omit [Inhabited Blob] [DecidableEq Blob] in
/-- Who leads the members leads each of them. -/
theorem Leading.leads {t : ℕ} (h : Leading q n l t w) (hp : p ∈ q) : Leads n p l w :=
  ⟨h.state, h.log, (h.bound p hp).trans_eq h.term.symm⟩

/-- **The exchange with one member**: the leader learns that it has all of its log, and looks
whether that commits it. -/
theorem Leading.exchange {t : ℕ} (h : Leading q n l t w) (hw : Reached M w) (hn : n ∈ M.ids)
    (hp : p ∈ (M.config n).peers) (hnq : n ∈ q) (hpq : p ∈ q) :
    ∃ w', Gets M q w w' ∧ Leading q n l t w' ∧ SameDelivery (w.nodes n) (w'.nodes n) ∧
      (∀ m ≠ p, (w'.nodes n).matchIndex m = (w.nodes n).matchIndex m) ∧
      l.lastIndex ≤ (w'.nodes n).matchIndex p ∧ ∃ nd : Node Blob, nd.log = l ∧
        nd.currentTerm = t ∧ nd.matchIndex = (w'.nodes n).matchIndex ∧
        advanceCommitFrom (M.config n) nd l.lastIndex = some (w'.nodes n).commitIndex := by
  generalize hd : distance (w.nodes n) p = d
  induction d using Nat.strong_induction_on generalizing w with
  | _ d ih =>
    obtain ⟨a, hsim⟩ := hw.sim
    have hleads := h.leads hpq
    obtain ⟨as, has, hdata⟩ := id hw
    obtain ⟨w', hround, hcases⟩ := round_progress has hdata hn hp hleads
    obtain ⟨hleads', hterm, hsame, hmatch, hlearn⟩ := hsim.round_learns hn hp hleads hround
    have hgets : Gets M q w w' := .of_round hn hround hnq hpq
    have hlead : Leading q n l t w' := by
      refine ⟨hleads'.state, hleads'.log, hterm.trans h.term, fun m hm => ?_⟩
      by_cases hmn : m = n
      · rw [hmn, hterm, h.term]
      by_cases hmp : m = p
      · rw [hmp]
        exact hleads'.term.trans_eq (hterm.trans h.term)
      · rw [nodes_of_round hn hround hmn hmp]
        exact h.bound m hm
    rcases hcases with ⟨⟨reply, hlast, hsucc⟩, -⟩ | ⟨-, hlt⟩
    · obtain ⟨hall, hci⟩ := hlearn reply hlast hsucc
      exact ⟨w', hgets, hlead, hsame, hmatch, hall,
        { w'.nodes n with commitIndex := (w.nodes n).commitIndex }, hlead.log, hlead.term, rfl, hci⟩
    · obtain ⟨w'', hgets', hlead', hsame', hmatch', hrest⟩ :=
        ih _ (hd ▸ hlt) hlead (hgets.reached hw) rfl
      exact ⟨w'', hgets.trans hgets', hlead', hsame.trans hsame',
        fun m hm => (hmatch' m hm).trans (hmatch m hm), hrest⟩

/-- **The exchanges with all members left.** The one that completes the majority commits the log up
to its end. -/
theorem Leading.committed {t : ℕ} {ps : List NodeID} (h : Leading q n l t w) (hw : Reached M w)
    (hq : q ⊆ M.ids.toFinset) (hmaj : (M.config n).majority ≤ q.card) (hnq : n ∈ q)
    (hfirst : l.firstIndex < l.lastIndex) (hlast : l.termAt l.lastIndex = some t)
    (hps : ∀ p ∈ ps, p ∈ q ∧ p ≠ n)
    (hmatch : ∀ m ∈ q, m ∉ ps → l.lastIndex ≤ (w.nodes n).matchIndex m) (hne : ps ≠ []) :
    ∃ w', Gets M q w w' ∧ Leading q n l t w' ∧ SameDelivery (w.nodes n) (w'.nodes n) ∧
      (∀ m ∈ q, l.lastIndex ≤ (w'.nodes n).matchIndex m) ∧
      l.lastIndex ≤ (w'.nodes n).commitIndex := by
  have hn : n ∈ M.ids := List.mem_toFinset.mp (hq hnq)
  induction ps generalizing w with
  | nil => exact absurd rfl hne
  | cons p ps ih =>
    obtain ⟨hpq, hpn⟩ := hps p List.mem_cons_self
    have hp : p ∈ (M.config n).peers :=
      (M.mem_peers n hn p).mpr ⟨List.mem_toFinset.mp (hq hpq), hpn⟩
    obtain ⟨w', hgets, hlead, hsame, hothers, hall, nd, hlog, hterm, hknown, hci⟩ :=
      h.exchange hw hn hp hnq hpq
    have hmatch' : ∀ m ∈ q, m ∉ ps → l.lastIndex ≤ (w'.nodes n).matchIndex m := by
      intro m hm hmps
      by_cases hmp : m = p
      · rw [hmp]
        exact hall
      · rw [hothers m hmp]
        exact hmatch m hm fun hmem => (List.mem_cons.mp hmem).elim hmp hmps
    by_cases hnil : ps = []
    · subst hnil
      have hmatch'' := fun m hm => hmatch' m hm List.not_mem_nil
      refine ⟨w', hgets, hlead, hsame, hmatch'', ?_⟩
      rw [← hlog] at hfirst hlast hmatch'' hci ⊢
      rw [← hterm] at hlast
      refine lastIndex_le_of_advanceCommitFrom hfirst hlast
        (hmaj.trans (card_le_matchCount fun m hm => ⟨?_, ?_⟩)) hci
      · rw [Config.members, List.mem_insert_iff, M.config_id n hn, M.mem_peers n hn]
        by_cases hmn : m = n
        · exact .inl hmn
        · exact .inr ⟨List.mem_toFinset.mp (hq hm), hmn⟩
      · rw [hknown]
        exact hmatch'' m hm
    · obtain ⟨w'', hgets', hlead', hsame', hrest⟩ := ih hlead (hgets.reached hw)
        (fun m hm => hps m (List.mem_cons_of_mem _ hm)) hmatch' hnil
      exact ⟨w'', hgets.trans hgets', hlead', hsame.trans hsame', hrest⟩

/-- **A leader can commit its log**, if it ends in an entry of its term. -/
theorem Leading.commits {t : ℕ} (h : Leading q n l t w) (hw : Reached M w)
    (hq : q ⊆ M.ids.toFinset) (hmaj : M.ids.length / 2 + 1 ≤ q.card) (htwo : 2 ≤ M.ids.length)
    (hnq : n ∈ q) (hfirst : l.firstIndex < l.lastIndex) (hlast : l.termAt l.lastIndex = some t)
    (hself : l.lastIndex ≤ (w.nodes n).matchIndex n) :
    ∃ w', Gets M q w w' ∧ Leading q n l t w' ∧ SameDelivery (w.nodes n) (w'.nodes n) ∧
      l.lastIndex ≤ (w'.nodes n).commitIndex ∧ ∀ m ∈ q, AgreesUpTo l (w'.nodes m).log := by
  have hn : n ∈ M.ids := List.mem_toFinset.mp (hq hnq)
  have hcard : 0 < (q.erase n).card := by
    rw [Finset.card_erase_of_mem hnq]
    omega
  obtain ⟨w', hgets, hlead, hsame, hmatch, hci⟩ := h.committed hw hq
    (by rwa [M.majority_eq hn]) hnq hfirst hlast
    (fun p (hp : p ∈ (q.erase n).toList) => (Finset.mem_erase.mp (Finset.mem_toList.mp hp)).symm)
    (fun m hm hmps => by
      by_cases hmn : m = n
      · rw [hmn]
        exact hself
      · exact absurd (Finset.mem_toList.mpr (Finset.mem_erase.mpr ⟨hmn, hm⟩)) hmps)
    (fun hnil => by
      rw [Finset.toList_eq_nil] at hnil
      rw [hnil] at hcard
      exact absurd hcard (Nat.lt_irrefl 0))
  obtain ⟨a, hsim⟩ := (hgets.reached hw).sim
  exact ⟨w', hgets, hlead, hsame, hci, fun m hm =>
    hsim.agreesUpTo hn (List.mem_toFinset.mp (hq hm)) (hlead.leads hm) (hmatch m hm)⟩

/-! ### The way on -/

omit [DecidableEq Blob] in
/-- The entry a node appends is at the end of its log. -/
theorem At.append_singleton {d : Disk Blob} (h : At M a n nd d) (e : LogEntry Blob)
    (he : e.index = nd.log.lastIndex + 1) :
    (nd.log.append [e]).lastIndex = nd.log.lastIndex + 1 ∧
      (nd.log.append [e]).firstIndex < nd.log.lastIndex + 1 ∧
      (nd.log.append [e]).entryAt (nd.log.lastIndex + 1) = some e := by
  have hfirst : (nd.log.append [e]).firstIndex < nd.log.lastIndex + 1 :=
    Nat.lt_succ_of_le h.first_le_last
  refine ⟨(lastIndex_append_singleton _ _).trans he, hfirst, ?_⟩
  have hlen : nd.log.entries.length = nd.log.lastIndex - nd.log.firstIndex := by
    rw [h.lastIndex_eq, h.log_eq, compact_entries, List.length_drop, compact_firstIndex]
  rw [Log.entryAt_of_lt hfirst]
  have hpos : nd.log.lastIndex + 1 - (nd.log.append [e]).firstIndex - 1 =
      nd.log.entries.length := by
    have : (nd.log.append [e]).firstIndex = nd.log.firstIndex := rfl
    omega
  rw [hpos]
  exact List.getElem?_concat_length

/-- **What is proposed to a leader** can be committed by a majority that is not ahead of it. -/
theorem Reached.proposes (hw : Reached M w) (hq : q ⊆ M.ids.toFinset)
    (hmaj : M.ids.length / 2 + 1 ≤ q.card) (htwo : 2 ≤ M.ids.length) (hnq : n ∈ q)
    (hs : (w.nodes n).state = .leader)
    (hbound : ∀ m ∈ q, (w.nodes m).currentTerm ≤ (w.nodes n).currentTerm) (command : Blob) :
    ∃ v w', step M w (.run (.trigger n (.propose command))) = some v ∧ Gets M q v w' ∧
      (w'.nodes n).currentTerm = (w.nodes n).currentTerm ∧
      SameDelivery (w.nodes n) (w'.nodes n) ∧
      (∀ m ∉ q, w'.nodes m = w.nodes m) ∧ (w'.nodes n).state = .leader ∧
      (w'.nodes n).log.lastIndex = (w.nodes n).log.lastIndex + 1 ∧
      (w'.nodes n).log.entryAt (w'.nodes n).log.lastIndex =
        some ⟨(w'.nodes n).log.lastIndex, (w'.nodes n).currentTerm, command⟩ ∧
      (w'.nodes n).log.lastIndex ≤ (w'.nodes n).commitIndex ∧
      ∀ m ∈ q, AgreesUpTo (w'.nodes n).log (w'.nodes m).log := by
  have hn : n ∈ M.ids := List.mem_toFinset.mp (hq hnq)
  obtain ⟨a, hsim⟩ := hw.sim
  set nd := w.nodes n with hnd
  set e : LogEntry Blob := ⟨nd.log.lastIndex + 1, nd.currentTerm, command⟩ with he
  obtain ⟨hlast, hfirst, hentry⟩ := (hsim.node n hn).append_singleton e rfl
  -- the leader appends the command
  obtain ⟨v, hv, hself, hother⟩ : ∃ v, step M w (.run (.trigger n (.propose command))) = some v ∧
      v.nodes n = { nd with
        log := nd.log.append [e]
        matchIndex := Function.update nd.matchIndex n (nd.log.lastIndex + 1) } ∧
      ∀ m ≠ n, v.nodes m = w.nodes m := by
    refine ⟨_, by rw [step, effect, if_pos hn]; rfl, ?_, fun m hm => ?_⟩
    · simp only [World.commit, M.config_id n hn, Function.update_self, propose, ← hnd, hs,
        ne_eq, not_true_eq_false, if_false, ← he]
    · simp only [World.commit, M.config_id n hn, Function.update_of_ne hm]
  have hreached : Reached M v := hw.after hv trivial
  have hleading : Leading q n (nd.log.append [e]) nd.currentTerm v := by
    refine ⟨by rw [hself]; exact hs, by rw [hself], by rw [hself], fun m hm => ?_⟩
    by_cases hmn : m = n
    · rw [hmn, hself]
    · rw [hother m hmn]
      exact hbound m hm
  -- and commits it
  obtain ⟨w', hgets, hlead, hsame, hci, hagree⟩ := hleading.commits hreached hq hmaj htwo hnq
    (by rw [hlast]; exact hfirst) (by rw [hlast, Log.termAt, hentry]; rfl)
    (by rw [hlast, hself]; simp only [Function.update_self]; exact le_rfl)
  have hdelivery : SameDelivery nd (v.nodes n) := by
    rw [hself]
    exact ⟨rfl, rfl, rfl, rfl, rfl, rfl⟩
  have hframe : ∀ m ∉ q, w'.nodes m = w.nodes m := by
    obtain ⟨-, -, -, hothers⟩ := id hgets
    intro m hm
    rw [hothers m hm]
    refine hother m ?_
    rintro rfl
    exact hm hnq
  refine ⟨v, w', hv, hgets, hlead.term, hdelivery.trans hsame, hframe, hlead.state, ?_, ?_, ?_, ?_⟩
  · rw [hlead.log, hlast]
  · rw [hlead.log, hlead.term, hlast, hentry]
  · rw [hlead.log]
    exact hci
  · rw [hlead.log]
    exact hagree

/-- **A majority can always go on.** From every state of every run in which no state machine has
handed over an empty snapshot, the members of any majority can get by themselves to a state in
which one of them leads, and whatever is proposed to it there they can commit: it becomes the last
entry of the leader's log, the commit index reaches it, and all of them agree with that log. The
other members need not take part. -/
theorem majority_can_commit {as : List (Action Blob)} (hrun : run M as = some w)
    (hdata : ∀ x ∈ as, x.Supplies fun _ data => data ≠ default) (hq : q ⊆ M.ids.toFinset)
    (hmaj : M.ids.length / 2 + 1 ≤ q.card) (htwo : 2 ≤ M.ids.length) :
    ∃ n v, n ∈ q ∧ Gets M q w v ∧ (v.nodes n).state = .leader ∧ ∀ command, ∃ v' w',
      step M v (.run (.trigger n (.propose command))) = some v' ∧ Gets M q v' w' ∧
      (∀ m ∉ q, w'.nodes m = w.nodes m) ∧ (w'.nodes n).state = .leader ∧
      (w'.nodes n).log.lastIndex = (v.nodes n).log.lastIndex + 1 ∧
      (w'.nodes n).log.entryAt (w'.nodes n).log.lastIndex =
        some ⟨(w'.nodes n).log.lastIndex, (w'.nodes n).currentTerm, command⟩ ∧
      (w'.nodes n).log.lastIndex ≤ (w'.nodes n).commitIndex ∧
      ∀ m ∈ q, AgreesUpTo (w'.nodes n).log (w'.nodes m).log := by
  have hw : Reached M w := ⟨as, hrun, hdata⟩
  obtain ⟨v, n, hnq, hv, hs, hbound⟩ := hw.elects hq hmaj htwo
  refine ⟨n, v, hnq, hv, hs, fun command => ?_⟩
  obtain ⟨v', w', hv', hgets, -, -, hframe, hrest⟩ :=
    (hv.reached hw).proposes hq hmaj htwo hnq hs hbound command
  obtain ⟨-, -, -, hsame⟩ := hv
  exact ⟨v', w', hv', hgets, fun m hm => (hframe m hm).trans (hsame m hm), hrest⟩

end Cluster

/-- After the failover `a` still takes itself for the leader of term 1, and `c` has voted for `b` in
term 2: the two can go on without `b`. -/
theorem majority_can_commit_failover :
    ∃ w, run threeNodes failover = some w ∧ (w.nodes "a").state = .leader ∧
      (w.nodes "a").currentTerm = 1 ∧ (w.nodes "c").currentTerm = 2 ∧
      ∃ n v, n ∈ ({"a", "c"} : Finset NodeID) ∧ Gets threeNodes {"a", "c"} w v ∧
        (v.nodes n).state = .leader ∧ ∀ command, ∃ v' w',
        step threeNodes v (.run (.trigger n (.propose command))) = some v' ∧
        Gets threeNodes {"a", "c"} v' w' ∧
        (∀ m ∉ ({"a", "c"} : Finset NodeID), w'.nodes m = w.nodes m) ∧
        (w'.nodes n).state = .leader ∧
        (w'.nodes n).log.lastIndex = (v.nodes n).log.lastIndex + 1 ∧
        (w'.nodes n).log.entryAt (w'.nodes n).log.lastIndex =
          some ⟨(w'.nodes n).log.lastIndex, (w'.nodes n).currentTerm, command⟩ ∧
        (w'.nodes n).log.lastIndex ≤ (w'.nodes n).commitIndex ∧
        ∀ m ∈ ({"a", "c"} : Finset NodeID), AgreesUpTo (w'.nodes n).log (w'.nodes m).log := by
  have hend : (run threeNodes failover).map (fun w => ((w.nodes "a").state,
      (w.nodes "a").currentTerm, (w.nodes "c").currentTerm)) = some (.leader, 1, 2) := by
    decide +kernel
  obtain ⟨w, hw, hend⟩ := Option.map_eq_some_iff.mp hend
  simp only [Prod.mk.injEq] at hend
  have hdata : ∀ x ∈ failover, x.Supplies fun _ data => data ≠ default := by
    simp [failover, electionOf, replicationTo, applyTwo, Action.Supplies, Event.Supplies]
  exact ⟨w, hw, hend.1, hend.2.1, hend.2.2,
    majority_can_commit hw hdata (by decide) (by decide) (by decide)⟩

end Raft

end DistQueue
