import DistQueue.Server.Proposals

/-!
# The order of the calls

The log orders the commands, and clients see an order as well: a call of `propose` that has
returned before another one proposes. The two orders agree. When the second call proposes, the
entry of the first is committed, and the leader that takes the second command has everything
that is committed in its log – if its own term comes to anything. A leader that has been deposed
and does not know it yet may take a command for an earlier index than that of the first call,
and then nobody ever applies it (`DistQueue.Server.calls_in_order`).

What the servers apply is therefore a sequence of the commands that respects the order of the
calls, whatever nodes the calls were made at: the commands of the queue are linearizable.
-/

namespace DistQueue

namespace Server

open Broker Raft Consensus

variable {M : Membership} {a a' : Ledger NodeID (LogEntry Payload)} {n : NodeID}
  {cfg : ClusterConfig} {maxRetries : ℤ} {s s' : System} {op : QueueOp} {index term : ℕ}

/-- **What is decided of a leader's own term is in its log.** -/
theorem index_le_of_decided {w : World Payload} (h : Sim M w a) (hn : n ∈ M.ids)
    (hs : (w.nodes n).state = .leader) {e : LogEntry Payload} (hd : Decided a e)
    (hterm : e.term = (w.nodes n).currentTerm) : e.index ≤ (w.nodes n).log.lastIndex := by
  have hat := h.node n hn
  obtain ⟨-, c, L, hL, hi⟩ := hd.led h.good
  rw [hterm, hat.term_eq, hat.impl.leader hs] at hL
  obtain ⟨-, rfl⟩ := Prod.mk.inj (Option.some.inj hL)
  have hlt := (List.getElem?_eq_some_iff.mp hi).1
  rw [hat.lastIndex_eq]
  omega

/-- **A leader takes a new command for an index after everything that is decided**, unless
nothing will ever be decided of its term at that index. -/
theorem index_lt_of_delivered {w : World Payload} (h : Sim M w a) (hn : n ∈ M.ids)
    (hs : (w.nodes n).state = .leader) {e : LogEntry Payload} (hd : Decided a e) (hle : Le a a')
    (hgood : Good M a')
    (hdel : Delivered a' ((w.nodes n).log.lastIndex + 1) (w.nodes n).currentTerm) :
    e.index < (w.nodes n).log.lastIndex + 1 := by
  by_contra hge
  rw [not_lt] at hge
  -- the entry that will be delivered there is decided already, so the leader would have it
  obtain ⟨command, -, hset⟩ := hdel
  obtain ⟨e', he'⟩ := hd.2.below (show (w.nodes n).log.lastIndex ≤ e.index - 1 by omega)
  obtain rfl := Settled.unique hgood.inv (he'.mono hle) hset
  have hdec : Decided a ⟨(w.nodes n).log.lastIndex + 1, (w.nodes n).currentTerm, command⟩ :=
    ⟨Nat.succ_pos _, he'⟩
  exact absurd (index_le_of_decided h hn hs hdec rfl) (Nat.not_succ_le_self _)

/-- A proposal that a node accepts: the node is the leader, and the entry is the next one. -/
theorem accepted_eq {nd : Node Payload} {config : Config}
    (h : (Raft.propose config nd (encodeOp op)).2.2.isLeader = true) :
    nd.state = .leader ∧
      (Raft.propose config nd (encodeOp op)).2.2.index = nd.log.lastIndex + 1 ∧
      (Raft.propose config nd (encodeOp op)).2.2.term = nd.currentTerm := by
  unfold Raft.propose at h ⊢
  split at h
  · cases h
  · rename_i hs
    rw [if_neg hs]
    exact ⟨not_not.mp hs, rfl, rfl⟩

/-- What a call of `Propose` does to the node. -/
theorem node_of_propose {p : Proposer} (hop : (s.server n).proposal p = some op)
    (hx : s.step cfg maxRetries M (.propose n p) = some s') :
    n ∈ M.ids ∧
      s'.world.nodes n = (Raft.propose (M.config n) (s.world.nodes n) (encodeOp op)).1 := by
  obtain ⟨m, e, heq, -⟩ | ⟨y, hcall, -⟩ | ⟨m, e, y, s₁, sv, hcall, hs₁, hsv, rfl⟩ := step_cases hx
  · cases heq
  · rw [System.call, hop] at hcall
    cases hcall
  · rw [System.call, hop] at hcall
    cases hcall
    obtain ⟨hn, ⟨z, hz, hnode⟩, -, -⟩ := perform_trigger hs₁
    cases hz
    exact ⟨hn, hnode⟩

/-- **A call that has been accepted** is in the log of its term, and it was a leader that took
its command for the next index. -/
theorem verdict_accepted {x : SystemMove} {v : Verdict}
    (hx : s.step cfg maxRetries M x = some s') (hv : s.verdict M x = some v)
    (hres : v.result = .more (.accepted index term)) :
    v.node ∈ M.ids ∧ (s.world.nodes v.node).state = .leader ∧
      index = (s.world.nodes v.node).log.lastIndex + 1 ∧
      term = (s.world.nodes v.node).currentTerm ∧
      ∀ b, Sim M s'.world b → InLog b v.node v.op index term := by
  obtain ⟨p, op, rfl, hop, hv⟩ | ⟨hn, p, ans, hans, hv⟩ := verdict_cases hx hv
  · obtain ⟨-, hp, -⟩ := hears_eq hv
    obtain ⟨-, hif⟩ := hears_answer hop hv
    rw [proposing_of_proposal hop] at hp
    obtain ⟨hop', -⟩ := Prod.mk.inj (Option.some.inj hp)
    rw [hres] at hif
    split at hif
    · rename_i hlead
      obtain ⟨rfl, rfl⟩ := Proposal.accepted.inj (Progress.more.inj hif)
      obtain ⟨hn, hnode⟩ := node_of_propose hop hx
      obtain ⟨hstate, hindex, hterm⟩ := accepted_eq hlead
      exact ⟨hn, hstate, hindex, hterm, fun b hb => hop' ▸ inLog_of_propose hb hn hnode hlead⟩
    · cases hif
  · -- without an answer of the node, a call is not accepted
    obtain ⟨-, -, sv, hr⟩ := hears_eq hv
    obtain ⟨t, -, rfl, -⟩ | ⟨i, u, -, -, heq⟩ | ⟨i, u, c, out, -, -, -, heq⟩ |
      ⟨i, u, c, -, -, heq⟩ := proposeSection_cases hr
    · exact absurd rfl (hans t)
    all_goals
      have hbad := (Prod.mk.inj heq).2
      rw [hres] at hbad
    · cases hbad
    · split at hbad <;> cases hbad
    · cases hbad

/-- **A call that returns success**: its command is decided at the index. -/
theorem verdict_committed {x : SystemMove} {v : Verdict} {i : ℕ} (h : Honest M s a)
    (hx : s.step cfg maxRetries M x = some s') (hv : s.verdict M x = some v)
    (hres : v.result = .committed i) : ∃ term, Decided a ⟨i, term, encodeOp v.op⟩ := by
  obtain ⟨p, op, rfl, hop, hv⟩ | ⟨hn, p, ans, hans, hv⟩ := verdict_cases hx hv
  · obtain ⟨-, hif⟩ := hears_answer hop hv
    rw [hres] at hif
    split at hif <;> cases hif
  · obtain ⟨index, term, c, out, -, hp, hout, hif⟩ :=
      hears_wake hans hv (by simp [hres]) (by simp [hres])
    rw [hres] at hif
    split at hif
    · rename_i hterm
      subst hterm
      cases hif
      obtain ⟨hm, -⟩ := h.applied hn hp hout
      exact ⟨out, (h.sound.traced.sim.node _ hn).impl.sent _ _ _ ((List.take_prefix _ _).subset hm)⟩
    · cases hif

/-- **The log respects the order of the calls.** A call of `propose` returns success, its
command standing at index `i`. Later a call at some node – the same or another – has its command
accepted, for index `j` and term `t`. If ever, in the run that follows, a node delivers a command
of this index and term, then it is that of the second call, and `i < j`. -/
theorem calls_in_order {xs ys zs : List SystemMove} {x x' : SystemMove} {v v' : Verdict}
    {s₁ u u₁ w : System} {i j t : ℕ} {command : Payload}
    (hs : Run.exec (System.step cfg maxRetries M) (System.start maxRetries M) xs = some s)
    (hx : s.step cfg maxRetries M x = some s₁) (hv : s.verdict M x = some v)
    (hres : v.result = .committed i)
    (hu : Run.exec (System.step cfg maxRetries M) s₁ ys = some u)
    (hx' : u.step cfg maxRetries M x' = some u₁) (hv' : u.verdict M x' = some v')
    (hres' : v'.result = .more (.accepted j t))
    (hw : Run.exec (System.step cfg maxRetries M) u₁ zs = some w) (hn : n ∈ M.ids)
    (hdel : .command command j t ∈ (w.world.nodes n).applyCh) :
    i < j ∧ command = encodeOp v'.op := by
  -- the ledgers of the four moments
  obtain ⟨a, ha⟩ := exists_honest hs
  obtain ⟨term, hd⟩ := verdict_committed ha hx hv hres
  obtain ⟨a₁, hle₁, ha₁⟩ := ha.sound.step hx
  obtain ⟨b, hle₂, hb⟩ := ha₁.exec hu
  obtain ⟨b₁, hle₃, hb₁⟩ := hb.step hx'
  obtain ⟨c, hle₄, hc⟩ := hb₁.exec hw
  obtain ⟨hm, hlead, rfl, rfl, hin⟩ := verdict_accepted hx' hv' hres'
  have hsent := (hc.traced.sim.node n hn).impl.sent _ _ _ hdel
  refine ⟨index_lt_of_delivered hb.traced.sim hm hlead (hd.mono (hle₁.trans hle₂))
    (hle₃.trans hle₄) hc.traced.sim.good ⟨command, hsent⟩, ?_⟩
  have hown := ((hin b₁ hb₁.traced.sim).mono hle₄).decided hc.traced.sim.good ⟨command, hsent⟩
  exact congrArg LogEntry.command (Settled.unique hc.traced.sim.good.inv hsent.2 hown.2)

/-- The ack of `x` has been applied at `a`, and its call of `propose` is about to return. -/
def ackApplied : List SystemMove := ackedX.dropLast.dropLast

/-- `b`, elected with the vote of `c`, is asked to enqueue `z`. -/
def askedB : List SystemMove :=
  clusterActs (electionOf "b" 6 4) ++ [.serve "b" (.call (.enqueue (some (.named "z")) "" 3))]

/-- `b` has the entry replicated at `a`, and delivers it. -/
def deliveredB : List SystemMove :=
  [.serve "b" (.handler 0 .silent)] ++ clusterActs (replicationTo "b" "a" 7 5) ++
    applying "b" [.command (encodeOp (.ack "x")) 4 1, .command .empty 5 2,
      .command (encodeOp (.enqueue { Task.named "z" with createdAt := 3 })) 6 2]

/-- The theorem at a second leader. -/
theorem calls_in_order_takeover :
    ∃ s s₁ u u₁ w v v', Run.exec (System.step plainConfig 3 threeNodes) (System.start 3 threeNodes)
        ackApplied = some s ∧
      s.step plainConfig 3 threeNodes (.serve "a" (.handler 2 .silent)) = some s₁ ∧
      s.verdict threeNodes (.serve "a" (.handler 2 .silent)) = some v ∧ v.result = .committed 4 ∧
      Run.exec (System.step plainConfig 3 threeNodes) s₁ askedB = some u ∧
      u.step plainConfig 3 threeNodes (.propose "b" (.handler 0)) = some u₁ ∧
      u.verdict threeNodes (.propose "b" (.handler 0)) = some v' ∧
      v'.result = .more (.accepted 6 2) ∧
      Run.exec (System.step plainConfig 3 threeNodes) u₁ deliveredB = some w ∧
      (w.world.nodes "b").applyCh[5]? =
        some (.command (encodeOp (.enqueue { Task.named "z" with createdAt := 3 })) 6 2) ∧
      4 < 6 ∧ encodeOp (.enqueue { Task.named "z" with createdAt := 3 }) = encodeOp v'.op := by
  have hend : ((Run.exec (System.step plainConfig 3 threeNodes) (System.start 3 threeNodes)
      ackApplied).bind fun s =>
      (s.step plainConfig 3 threeNodes (.serve "a" (.handler 2 .silent))).bind fun s₁ =>
      (s.verdict threeNodes (.serve "a" (.handler 2 .silent))).bind fun v =>
      (Run.exec (System.step plainConfig 3 threeNodes) s₁ askedB).bind fun u =>
      (u.step plainConfig 3 threeNodes (.propose "b" (.handler 0))).bind fun u₁ =>
      (u.verdict threeNodes (.propose "b" (.handler 0))).bind fun v' =>
      (Run.exec (System.step plainConfig 3 threeNodes) u₁ deliveredB).map fun w =>
        (v.result, v'.result, (w.world.nodes "b").applyCh[5]?)) =
      some (.committed 4, .more (.accepted 6 2),
        some (.command (encodeOp (.enqueue { Task.named "z" with createdAt := 3 })) 6 2)) := by
    decide +kernel
  obtain ⟨s, hs, hend⟩ := Option.bind_eq_some_iff.mp hend
  obtain ⟨s₁, hx, hend⟩ := Option.bind_eq_some_iff.mp hend
  obtain ⟨v, hv, hend⟩ := Option.bind_eq_some_iff.mp hend
  obtain ⟨u, hu, hend⟩ := Option.bind_eq_some_iff.mp hend
  obtain ⟨u₁, hx', hend⟩ := Option.bind_eq_some_iff.mp hend
  obtain ⟨v', hv', hend⟩ := Option.bind_eq_some_iff.mp hend
  obtain ⟨w, hw, hend⟩ := Option.map_eq_some_iff.mp hend
  simp only [Prod.mk.injEq] at hend
  obtain ⟨hres, hres', hdel⟩ := hend
  exact ⟨s, s₁, u, u₁, w, v, v', hs, hx, hv, hres, hu, hx', hv', hres', hw, hdel,
    calls_in_order hs hx hv hres hu hx' hv' hres' hw (by decide) (List.mem_of_getElem? hdel)⟩

end Server

end DistQueue
