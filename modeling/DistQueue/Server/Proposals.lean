import DistQueue.Raft.Sent
import DistQueue.Server.Acked
import DistQueue.Server.Calls

/-!
# What a call of `propose` is told

A call of `propose` knows two numbers, the index and the term that `Propose` gave it, and
hears a third one, the term of the entry that was applied at the index. Whether the two
terms agree decides between success and “not leader”
(`DistQueue.Server.propose_outcomes_honest`).

What the calls hear comes from their own server (`DistQueue.Server.Heeds`), and the rest
is the log's: an index has one decided entry, and an index and a term have one entry at
all. The two are put together in `DistQueue.Server.Honest`. A command that a server has
received has gone through its state machine (`DistQueue.Server.appliedIn_of_received`).
-/

namespace DistQueue

namespace Server

open Broker Raft Consensus

variable {M : Membership} {a : Ledger NodeID (LogEntry Payload)} {n : NodeID}
  {cfg : ClusterConfig} {maxRetries : ℤ} {s s' : System} {op : QueueOp} {index term : ℕ}

/-- **What is so in every state of the system**: what the calls hear comes from the log,
and their entries are in it. -/
structure Honest (M : Membership) (s : System) (a : Ledger NodeID (LogEntry Payload)) : Prop where
  sound : Sound M s a
  labelled : Labelled M Filled s.world
  sent : Sent M s.world a
  heeds : ∀ n ∈ M.ids, Heeds (s.world.nodes n).applyCh (s.received n) (s.server n)
  entered : ∀ n ∈ M.ids, Entered a n (s.server n)

theorem honest_start (maxRetries : ℤ) (M : Membership) :
    ∃ a, Honest M (System.start maxRetries M) a := by
  obtain ⟨a, ha⟩ := sound_start maxRetries M
  exact ⟨a, ha, labelled_start fun _ _ h => h, sent_start M a, fun n _ => heeds_new _ _,
    fun n _ => entered_new a n _⟩

/-- **Every step of the system keeps it so.** -/
theorem Honest.step {x : SystemMove} (h : Honest M s a)
    (hs : s.step cfg maxRetries M x = some s') : ∃ a', Le a a' ∧ Honest M s' a' := by
  obtain ⟨a', hle, hsound⟩ := h.sound.step hs
  have hsim := h.sound.traced.sim
  have hsent : Sent M s'.world a' := by
    obtain ⟨heq, -⟩ | ⟨y, o, hcall, hy, -⟩ := step_world hs
    · rw [heq]
      exact fun n hn command index term hm => Sent.lift hle (h.sent n hn command index term hm)
    · exact h.sent.step hsim h.labelled hle
        (call_supplies hcall hy fun _ _ _ _ _ => Payload.noConfusion) hy
  refine ⟨a', hle, hsound, labelled_step h.labelled hsim (fun _ _ hd => hd) (fun _ _ _ _ hd => hd)
    (fun _ _ _ _ _ => Payload.noConfusion) hs, hsent, fun n hn => ?_, fun n hn => ?_⟩
  · have hold := h.heeds n hn
    exact (happens hsim h.labelled hs n).keeps hold (heeds_new · _) Heeds.grow
      (fun msg sv _ _ hmsg _ hsv => hold.receive hmsg hsv) fun e sv _ he _ hsv => hold.step he hsv
  · have hold := (h.entered n hn).mono hle
    refine (happens hsim h.labelled hs n).keeps (I := fun _ _ sv => Entered a' n sv) hold
      (fun _ => entered_new a' n _) (fun h _ => h)
      (fun msg sv _ _ _ _ hsv => hold.receive hsv) fun e sv _ he hruns hsv => ?_
    refine hold.affects (affects_of_step he hsv) fun p op t htold hp hlead => ?_
    cases hruns with
    | serves e hx htrue =>
      -- only the node itself tells of a proposal
      subst htold
      cases p <;> exact htrue.elim
    | proposes p' op' hop hnode =>
      obtain ⟨rfl, rfl⟩ : p = p' ∧
          t = (Raft.propose (M.config n) (s.world.nodes n) (encodeOp op')).2.2 := by
        cases p <;> cases p' <;> cases htold <;> exact ⟨rfl, rfl⟩
      rw [proposing_of_proposal hop] at hp
      cases hp
      exact inLog_of_propose hsound.traced.sim hn hnode hlead
    | submits => cases p <;> cases htold

/-- **Every run has a ledger that its servers are honest about.** -/
theorem exists_honest {xs : List SystemMove}
    (hs : Run.exec (System.step cfg maxRetries M) (System.start maxRetries M) xs = some s) :
    ∃ a, Honest M s a := by
  refine Run.invariant (P := fun v => ∃ a, Honest M v a) (honest_start maxRetries M) ?_ hs
  rintro v x v' ⟨b, hb⟩ hv
  obtain ⟨b', -, hb'⟩ := hb.step hv
  exact ⟨b', hb'⟩

/-! ### Commands that have been applied -/

/-- **The state machine of a node has applied the command** in the run: a step of the run
is the section in which the apply loop takes the entry off the apply channel, and it hands
the command to `Apply`. -/
def AppliedIn (cfg : ClusterConfig) (maxRetries : ℤ) (M : Membership) (xs : List SystemMove)
    (n : NodeID) (op : QueueOp) (index term : ℕ) : Prop :=
  ∃ ys zs u u', xs = ys ++ .serve n (.receive (.command (encodeOp op) index term)) :: zs ∧
    Run.exec (System.step cfg maxRetries M) (System.start maxRetries M) ys = some u ∧
    u.step cfg maxRetries M (.serve n (.receive (.command (encodeOp op) index term))) = some u' ∧
    (u'.server n).sm = (u.server n).sm.apply op

/-- What has been applied in a run has been so in a longer one. -/
theorem AppliedIn.snoc {xs : List SystemMove} (h : AppliedIn cfg maxRetries M xs n op index term)
    (x : SystemMove) : AppliedIn cfg maxRetries M (xs ++ [x]) n op index term := by
  obtain ⟨ys, zs, u, u', rfl, h⟩ := h
  exact ⟨ys, zs ++ [x], u, u', by simp, h⟩

/-- **A command that the server of a node has received has gone through `Apply`.** -/
theorem appliedIn_of_received {xs : List SystemMove}
    (hs : Run.exec (System.step cfg maxRetries M) (System.start maxRetries M) xs = some s)
    (hn : n ∈ M.ids) : .command (encodeOp op) index term ∈
      (s.world.nodes n).applyCh.take (s.received n) →
    AppliedIn cfg maxRetries M xs n op index term := by
  refine Run.induction (P := fun xs s => .command (encodeOp op) index term ∈
    (s.world.nodes n).applyCh.take (s.received n) →
      AppliedIn cfg maxRetries M xs n op index term) ?_ ?_ hs
  · exact fun hm => absurd hm List.not_mem_nil
  · intro ys u x u' hu ih hx hm
    obtain ⟨a, ha⟩ := exists_honest hu
    have hle := (ha.heeds n hn).received_le
    cases happens ha.sound.traced.sim ha.labelled hx n with
    | elsewhere hserver hreceived hch =>
      rw [hreceived, prefix_take_eq hch hle] at hm
      exact (ih hm).snoc x
    | restarts hserver hreceived =>
      rw [hreceived] at hm
      exact absurd hm List.not_mem_nil
    | receives msg _ hx' hmsg hidle hreceive hreceived hch =>
      rw [hreceived, hch, List.take_add_one, hmsg, List.mem_append] at hm
      obtain hm | hm := hm
      · exact (ih hm).snoc x
      · obtain rfl := List.mem_singleton.mp hm
        subst hx'
        obtain ⟨sm, hsm, ⟨m, st, hmsg', -⟩ | ⟨i, t, hmsg', -⟩ | ⟨op', i, t, hmsg', rfl⟩⟩ :=
          ClusterServer.receive_cases hreceive
        · cases hmsg'
        · cases hmsg'
        · cases hmsg'
          exact ⟨ys, [], u, u', rfl, hu, hx, by rw [hsm]⟩
    | runs e _ he hruns hstep hreceived hch =>
      rw [hreceived, prefix_take_eq hch hle] at hm
      exact (ih hm).snoc x

/-! ### The outcomes -/

/-- What a call of `propose` is told in a section: the node and the command, where the
call was, and what the section leads to. -/
structure Verdict where
  node : NodeID
  op : QueueOp
  place : Proposal
  result : Progress
  deriving DecidableEq

/-- What a call is told in a section in which it gets the answer. -/
def System.hears (s : System) (n : NodeID) (p : Proposer) (ans : Answer) : Option Verdict := do
  let c ← (s.server n).proposing p
  let r ← (s.server n).proposeSection c.2 ans
  return ⟨n, c.1, c.2, r.2⟩

/-- The part of a call of `propose` that a move is. -/
def System.verdict (M : Membership) (s : System) : SystemMove → Option Verdict
  | .serve n (.handler k ans) => s.hears n (.handler k) ans
  | .serve n (.scanner ans) => s.hears n .scanner ans
  | .propose n p => ((s.server n).proposal p).bind fun op =>
    s.hears n p (.proposed (Raft.propose (M.config n) (s.world.nodes n) (encodeOp op)).2.2)
  | _ => none

theorem hears_eq {p : Proposer} {ans : Answer} {v : Verdict} (h : s.hears n p ans = some v) :
    v.node = n ∧ (s.server n).proposing p = some (v.op, v.place) ∧
      ∃ sv, (s.server n).proposeSection v.place ans = some (sv, v.result) := by
  obtain ⟨c, hc, h⟩ := Option.bind_eq_some_iff.mp h
  obtain ⟨r, hr, h⟩ := Option.bind_eq_some_iff.mp h
  cases h
  exact ⟨rfl, hc, r.1, hr⟩

/-- The node answers: the call goes on, or is over. -/
theorem hears_answer {p : Proposer} {t : ProposeResult} {v : Verdict}
    (hop : (s.server n).proposal p = some op) (h : s.hears n p (.proposed t) = some v) :
    v.place = .ready ∧
      v.result = if t.isLeader then .more (.accepted t.index t.term) else .notLeader := by
  obtain ⟨-, hp, sv, hr⟩ := hears_eq h
  rw [proposing_of_proposal hop] at hp
  obtain ⟨-, hplace⟩ := Prod.mk.inj (Option.some.inj hp)
  rw [← hplace] at hr
  exact ⟨hplace.symm, (Prod.mk.inj (Option.some.inj hr)).2.symm⟩

/-- A call that returns otherwise, and not by its timer, has heard a term. -/
theorem hears_wake {p : Proposer} {ans : Answer} {v : Verdict} (hans : ∀ t, ans ≠ .proposed t)
    (h : s.hears n p ans = some v) (hmore : ∀ q, v.result ≠ .more q)
    (htimer : v.result ≠ .timedOut) :
    ∃ index term c out, v.place = .waiting index term c ∧
      (s.server n).proposing p = some (v.op, .waiting index term c) ∧
      (s.server n).channel c = some out ∧
      v.result = if out = term then .committed index else .notLeader := by
  obtain ⟨-, hp, sv, hr⟩ := hears_eq h
  obtain ⟨t, -, rfl, -⟩ | ⟨i, u, -, -, heq⟩ | ⟨index, term, c, out, hq, -, hout, heq⟩ |
    ⟨i, u, c, -, -, heq⟩ := proposeSection_cases hr
  · exact absurd rfl (hans t)
  · exact absurd (Prod.mk.inj heq).2 (hmore _)
  · exact ⟨index, term, c, out, hq, hq ▸ hp, hout, (Prod.mk.inj heq).2⟩
  · exact absurd (Prod.mk.inj heq).2 htimer

/-- A part of a call is the answer of the node, or comes without any. -/
theorem verdict_cases {x : SystemMove} {v : Verdict} (hx : s.step cfg maxRetries M x = some s')
    (hv : s.verdict M x = some v) :
    (∃ p op, x = .propose v.node p ∧ (s.server v.node).proposal p = some op ∧
      s.hears v.node p (.proposed (Raft.propose (M.config v.node) (s.world.nodes v.node)
        (encodeOp op)).2.2) = some v) ∨
    v.node ∈ M.ids ∧ ∃ p ans, (∀ t, ans ≠ .proposed t) ∧ s.hears v.node p ans = some v := by
  have hserve : ∀ {n e}, s.step cfg maxRetries M (.serve n e) = some s' →
      n ∈ M.ids ∧ s.Truthful M n e := by
    intro n e h
    simp only [System.step, System.serve, Option.ite_none_right_eq_some] at h
    exact h.1
  unfold System.verdict at hv
  split at hv
  · obtain ⟨rfl, -, -⟩ := hears_eq hv
    obtain ⟨hn, htrue⟩ := hserve hx
    refine .inr ⟨hn, _, _, ?_, hv⟩
    rintro t rfl
    exact htrue
  · obtain ⟨rfl, -, -⟩ := hears_eq hv
    obtain ⟨hn, htrue⟩ := hserve hx
    refine .inr ⟨hn, _, _, ?_, hv⟩
    rintro t rfl
    exact htrue
  · obtain ⟨op, hop, hv⟩ := Option.bind_eq_some_iff.mp hv
    obtain ⟨rfl, -, -⟩ := hears_eq hv
    exact .inl ⟨_, op, rfl, hop, hv⟩
  · cases hv

/-- A command that the server of a node has taken is decided. -/
theorem Honest.decided (h : Honest M s a) (hn : n ∈ M.ids)
    (htook : Took (s.world.nodes n).applyCh (s.received n) index term) :
    ∃ command, .command command index term ∈ (s.world.nodes n).applyCh.take (s.received n) ∧
      Decided a ⟨index, term, command⟩ := by
  obtain ⟨command, hm⟩ := htook
  exact ⟨command, hm, (h.sound.traced.sim.node n hn).impl.sent command index term
    ((List.take_prefix _ _).subset hm)⟩

/-- **The call hears its own term**: its command has been applied. -/
theorem Honest.applied (h : Honest M s a) (hn : n ∈ M.ids) {p : Proposer} {c : ℕ}
    (hp : (s.server n).proposing p = some (op, .waiting index term c))
    (hc : (s.server n).channel c = some term) :
    .command (encodeOp op) index term ∈ (s.world.nodes n).applyCh.take (s.received n) ∧
      ∃ t, CommittedIn M s.trace t index ⟨index, term, encodeOp op⟩ := by
  obtain ⟨command, hm, hd⟩ :=
    h.decided hn (((h.heeds n hn).waiting p op index term c hp).2.2 term hc)
  have hown := InLog.decided h.sound.traced.sim.good (h.entered n hn p op _ index term hp rfl)
    ⟨command, hd⟩
  have heq := Settled.unique h.sound.traced.sim.good.inv hd.2 hown.2
  cases heq
  refine ⟨hm, ?_⟩
  obtain ⟨hpos, t, P, hP, hk⟩ := hd
  obtain ⟨t', -, hcommitted⟩ := h.sound.traced.committed hP hk
  exact ⟨t', by rwa [Nat.sub_add_cancel hpos] at hcommitted⟩

/-- Two commands of one index, sent at any two moments of a run, are of one term. -/
theorem Sound.term_eq {u v : System} {b : Ledger NodeID (LogEntry Payload)} {m : NodeID}
    {ys : List SystemMove} (h : Sound M u b)
    (hv : Run.exec (System.step cfg maxRetries M) u ys = some v) (hm : m ∈ M.ids) (hn : n ∈ M.ids)
    {command command' : Payload} {t t' : ℕ}
    (hu : .command command index t ∈ (u.world.nodes m).applyCh)
    (hv' : .command command' index t' ∈ (v.world.nodes n).applyCh) : t = t' := by
  obtain ⟨b', hle, h'⟩ := h.exec hv
  have hd := ((h.traced.sim.node m hm).impl.sent command index t hu).mono hle
  have hd' := (h'.traced.sim.node n hn).impl.sent command' index t' hv'
  exact congrArg LogEntry.term (Settled.unique h'.traced.sim.good.inv hd.2 hd'.2)

/-- A refused proposal leaves the cluster as it was. -/
theorem world_of_refused {p : Proposer} (hop : (s.server n).proposal p = some op)
    (href : (Raft.propose (M.config n) (s.world.nodes n) (encodeOp op)).2.2.isLeader = false)
    (hx : s.step cfg maxRetries M (.propose n p) = some s') : s'.world = s.world := by
  obtain ⟨heq, -⟩ | ⟨y, o, hcall, hy, -⟩ := step_world hx
  · exact heq
  · rw [System.call, hop] at hcall
    cases hcall
    obtain ⟨z, hz, hw⟩ := Option.map_eq_some_iff.mp hy
    simp only [effect, Option.ite_none_right_eq_some] at hz
    obtain ⟨hn, hz⟩ := hz
    cases hz
    have hstate : (s.world.nodes n).state ≠ .leader := by
      intro hlead
      simp [Raft.propose, hlead] at href
    rw [← hw]
    simp only [World.commit, Raft.propose, if_pos hstate, M.config_id n hn, Disk.write,
      List.foldl_nil, Function.update_eq_self, closeCall, List.append_nil]

/-- **A call of `propose` is told the truth.** If it returns success, then its command has
been committed at the index and in the term that `Propose` gave, and the state machine of
its node has applied it there: its server has received the entry, and a step of the run has
handed it to `Apply`. If it returns “not leader”, then either no entry was made
for it, or no node ever has a command of this index and term on its apply channel, in any
state of the run before or after. -/
theorem propose_outcomes_honest {xs : List SystemMove} {x : SystemMove} {v : Verdict}
    (hs : Run.exec (System.step cfg maxRetries M) (System.start maxRetries M) xs = some s)
    (hx : s.step cfg maxRetries M x = some s') (hv : s.verdict M x = some v) :
    (∀ i, v.result = .committed i → ∃ index term c, v.place = .waiting index term c ∧ i = index ∧
      (∃ t, CommittedIn M s.trace t index ⟨index, term, encodeOp v.op⟩) ∧
      .command (encodeOp v.op) index term ∈
        (s.world.nodes v.node).applyCh.take (s.received v.node) ∧
      AppliedIn cfg maxRetries M xs v.node v.op index term) ∧
    (v.result = .notLeader → (v.place = .ready ∧ s'.world = s.world) ∨
      ∃ index term c, v.place = .waiting index term c ∧
        ∀ ys u, ys <+: xs ∨ xs <+: ys →
          Run.exec (System.step cfg maxRetries M) (System.start maxRetries M) ys = some u →
          ∀ m ∈ M.ids, ∀ command, .command command index term ∉ (u.world.nodes m).applyCh) := by
  obtain ⟨a, ha⟩ := exists_honest hs
  obtain ⟨p, op, rfl, hop, hv⟩ | ⟨hn, p, ans, hans, hv⟩ := verdict_cases hx hv
  · obtain ⟨hplace, hres⟩ := hears_answer hop hv
    refine ⟨fun i hi => ?_, fun hi => .inl ⟨hplace, ?_⟩⟩ <;> rw [hi] at hres <;> split at hres
    · cases hres
    · cases hres
    · cases hres
    · rename_i href
      exact world_of_refused hop (Bool.eq_false_iff.mpr href) hx
  · refine ⟨fun i hi => ?_, fun hi => .inr ?_⟩
    · obtain ⟨index, term, c, out, hq, hp, hout, hres⟩ :=
        hears_wake hans hv (by simp [hi]) (by simp [hi])
      rw [hi] at hres
      split at hres
      · rename_i hterm
        subst hterm
        obtain ⟨hm, hcommitted⟩ := ha.applied hn hp hout
        exact ⟨index, out, c, hq, Progress.committed.inj hres, hcommitted, hm,
          appliedIn_of_received hs hn hm⟩
      · cases hres
    · obtain ⟨index, term, c, out, hq, hp, hout, hres⟩ :=
        hears_wake hans hv (by simp [hi]) (by simp [hi])
      rw [hi] at hres
      split at hres
      · cases hres
      rename_i hne
      -- another entry has been delivered at the index, and the index has only one
      refine ⟨index, term, c, hq, fun ys u hys hu m hm command hmem => hne ?_⟩
      obtain ⟨command', htook⟩ := ((ha.heeds _ hn).waiting p v.op index term c hp).2.2 out hout
      have hmem' := (List.take_prefix _ _).subset htook
      obtain ⟨a₀, h₀⟩ := sound_start maxRetries M
      obtain ⟨zs, rfl⟩ | ⟨zs, rfl⟩ := hys
      · obtain ⟨b, -, hb⟩ := h₀.exec hu
        rw [Run.exec_append, hu, Option.bind_some] at hs
        exact (hb.term_eq hs hm hn hmem hmem').symm
      · rw [Run.exec_append, hs, Option.bind_some] at hu
        exact ha.sound.term_eq hu hn hm hmem' hmem

/-- Node `a`, elected first, is given the task `x` and cannot replicate it. Node `b` is
elected by `c`, is given the task `y` for the same index, and replicates that to `a`. -/
def overtaken : List SystemMove :=
  clusterActs (electionOf "a" 0 0) ++
    [.serve "a" (.call (.enqueue (some (.named "x")) "" 1))] ++ proposing "a" 0 ++
    clusterActs (electionOf "b" 3 1) ++
    [.serve "b" (.call (.enqueue (some (.named "y")) "" 2))] ++ proposing "b" 0 ++
    clusterActs (replicationTo "b" "a" 4 2) ++ clusterActs (replicationTo "b" "a" 5 3) ++
    applying "a" [.command .empty 1 2, .command (encodeOp
      (.enqueue { Task.named "y" with createdAt := 2 })) 2 2] ++
    applying "b" [.command .empty 1 2, .command (encodeOp
      (.enqueue { Task.named "y" with createdAt := 2 })) 2 2]

/-- The calls at `a` and at `b` hear of the same entry. -/
theorem propose_outcomes_honest_overtaken :
    ∃ s, Run.exec (System.step plainConfig 3 threeNodes) (System.start 3 threeNodes) overtaken =
        some s ∧
      s.verdict threeNodes (.serve "a" (.handler 0 .silent)) = some ⟨"a",
        .enqueue { Task.named "x" with createdAt := 1 }, .waiting 2 1 0, .notLeader⟩ ∧
      s.verdict threeNodes (.serve "b" (.handler 0 .silent)) = some ⟨"b",
        .enqueue { Task.named "y" with createdAt := 2 }, .waiting 2 2 0, .committed 2⟩ ∧
      (∀ m ∈ threeNodes.ids, ∀ command, .command command 2 1 ∉ (s.world.nodes m).applyCh) ∧
      ∃ t, CommittedIn threeNodes s.trace t 2
        ⟨2, 2, encodeOp (.enqueue { Task.named "y" with createdAt := 2 })⟩ := by
  have hend : (Run.exec (System.step plainConfig 3 threeNodes) (System.start 3 threeNodes)
      overtaken).map (fun s => (s.verdict threeNodes (.serve "a" (.handler 0 .silent)),
        s.verdict threeNodes (.serve "b" (.handler 0 .silent)),
        (s.step plainConfig 3 threeNodes (.serve "a" (.handler 0 .silent))).isSome,
        (s.step plainConfig 3 threeNodes (.serve "b" (.handler 0 .silent))).isSome)) =
      some (some ⟨"a", .enqueue { Task.named "x" with createdAt := 1 }, .waiting 2 1 0,
          .notLeader⟩,
        some ⟨"b", .enqueue { Task.named "y" with createdAt := 2 }, .waiting 2 2 0,
          .committed 2⟩, true, true) := by
    decide +kernel
  obtain ⟨s, hs, hend⟩ := Option.map_eq_some_iff.mp hend
  obtain ⟨ha, hb, hsa, hsb⟩ : _ ∧ _ ∧ _ ∧ _ := by simpa only [Prod.mk.injEq] using hend
  obtain ⟨sa, hsa⟩ := Option.isSome_iff_exists.mp hsa
  obtain ⟨sb, hsb⟩ := Option.isSome_iff_exists.mp hsb
  refine ⟨s, hs, ha, hb, ?_, ?_⟩
  · obtain ⟨hplace, -⟩ | ⟨index, term, c, hplace, hnever⟩ :=
      (propose_outcomes_honest hs hsa ha).2 rfl
    · cases hplace
    · cases hplace
      exact hnever overtaken s (.inl (List.prefix_refl _)) hs
  · obtain ⟨index, term, c, hplace, -, hcommitted, -⟩ :=
      (propose_outcomes_honest hs hsb hb).1 2 rfl
    cases hplace
    exact hcommitted

end Server

end DistQueue
