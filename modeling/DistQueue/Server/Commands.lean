import DistQueue.Server.Calls
import DistQueue.Server.Queues

/-!
# Where the commands come from

Everything in the logs of the cluster is the no-op of a new leader or a command that a server
has proposed, and a server proposes what an RPC asks for, or nacks a task whose deadline has
passed (`DistQueue.Server.Asked`). What has been asked for is read off the moves of the run, so
that the committed commands can be traced back to the calls of the clients
(`DistQueue.Server.commands_were_asked`): no crash, no change of leader and no snapshot makes up
an enqueue or an ack.

The same argument shows that the apply loop of a server can decode whatever its node sends it,
commands and snapshots, so that the two panics in it are never reached
(`DistQueue.Server.apply_loop_never_panics`).
-/

namespace DistQueue

namespace Server

open Broker Raft Consensus

variable {M : Membership} {a : Ledger NodeID (LogEntry Payload)} {n : NodeID}
  {sv sv' : ClusterServer} {cfg : ClusterConfig} {maxRetries : ℤ} {s s' : System}
  {xs xs' : List SystemMove} {x : SystemMove} {op : QueueOp}

/-! ### What clients ask for -/

/-- The command that an RPC asks for. -/
def Rpc.command? : Rpc → Option QueueOp
  | .enqueue task newTaskID now => task.map fun t => .enqueue (enqueuedTask t newTaskID now)
  | .dequeue => none
  | .ack id => some (.ack id)
  | .nack id => some (.nack id)

/-- In the run, a client has asked some node for the command. -/
def Asked (xs : List SystemMove) (op : QueueOp) : Prop :=
  ∃ m rpc, SystemMove.serve m (.call rpc) ∈ xs ∧ rpc.command? = some op

theorem Asked.mono (h : Asked xs op) (hxs : xs <+: xs') : Asked xs' op := by
  obtain ⟨m, rpc, hm, hop⟩ := h
  exact ⟨m, rpc, hxs.subset hm, hop⟩

/-- What a handler is going to propose, or has proposed. -/
def Handler.wants : Handler → Option QueueOp
  | .finish type id | .finishChecked type id => some { type, taskID := id }
  | .proposing op _ => some op
  | _ => none

/-- A handler that begins wants what its call asks for. -/
theorem wants_begin (rpc : Rpc) : ∀ op ∈ rpc.begin.wants, rpc.command? = some op := by
  intro op hop
  cases rpc with
  | enqueue task newTaskID now =>
    cases task with
    | none => cases hop
    | some t => exact hop
  | dequeue => cases hop
  | ack id => exact hop
  | nack id => exact hop

/-- A handler proposes what it was called for. -/
theorem wants_handlerSection {h : Handler} {ans : Answer} {q : ClusterServer × Handler}
    (hq : sv.handlerSection cfg h ans = some q) : ∀ op ∈ q.2.wants, h.wants = some op := by
  intro op hop
  unfold ClusterServer.handlerSection at hq
  split at hq
  case h_2 now =>
    cases hq
    unfold ClusterServer.takeTask at hop
    dsimp only at hop
    split at hop <;> cases hop
  case h_6 =>
    obtain ⟨r, -, rfl⟩ := Option.map_eq_some_iff.mp hq
    unfold ClusterServer.afterPropose at hop
    split at hop
    · exact hop
    · split at hop <;> cases hop
    · cases hop
    · cases hop
  case h_9 => cases hq
  all_goals obtain rfl := Option.some.inj hq
  case h_3 | h_7 | h_8 => cases hop
  case h_1 =>
    dsimp only at hop
    split at hop <;> cases hop
  all_goals
    dsimp only at hop
    split at hop
    · exact hop
    · cases hop

/-- **The handlers of a server want what was asked for.** -/
def Requested (xs : List SystemMove) (sv : ClusterServer) : Prop :=
  ∀ h ∈ sv.handlers, ∀ op ∈ h.wants, Asked xs op

theorem Requested.mono (h : Requested xs sv) (hxs : xs <+: xs') : Requested xs' sv :=
  fun y hy op hop => (h y hy op hop).mono hxs

/-- A section; if it is the arrival of an RPC, then the RPC is one of the run. -/
theorem Requested.step {e : Section} (h : Requested xs sv) (he : ∀ msg, e ≠ .receive msg)
    (hcall : ∀ rpc, e = .call rpc → SystemMove.serve n (.call rpc) ∈ xs)
    (hs : sv.step cfg e = some sv') : Requested xs sv' := by
  obtain ⟨rpc, rfl⟩ | ⟨k, ans, rfl⟩ | hsame := (keeps_of_step he hs).handlers
  · cases hs
    intro y hy op hop
    obtain hy | hy := List.mem_append.mp hy
    · exact h y hy op hop
    · obtain rfl := List.mem_singleton.mp hy
      exact ⟨n, rpc, hcall rpc rfl, wants_begin rpc op hop⟩
  · obtain ⟨y, hy, hs⟩ := Option.bind_eq_some_iff.mp hs
    obtain ⟨q, hq, hs⟩ := Option.bind_eq_some_iff.mp hs
    cases hs
    intro z hz op hop
    rw [(handlerSection_cases hq).1] at hz
    obtain hz | rfl := List.mem_or_eq_of_mem_set hz
    · exact h z hz op hop
    · exact h y (List.mem_of_getElem? hy) op (wants_handlerSection hq op hop)
  · rw [Requested, hsame]
    exact h

/-! ### What is in the logs -/

/-- **An entry with a reason**: the no-op of a leader, a command that a client has asked for, or
the nack of a task whose deadline has passed. -/
def Justified (xs : List SystemMove) (e : LogEntry Payload) : Prop :=
  e.command = .empty ∨ ∃ op, e.command = encodeOp op ∧ (Asked xs op ∨ op.type = .nack)

theorem Justified.mono {e : LogEntry Payload} (h : Justified xs e) (hxs : xs <+: xs') :
    Justified xs' e :=
  h.imp_right fun ⟨op, he, hop⟩ => ⟨op, he, hop.imp_left fun hop => hop.mono hxs⟩

/-- What a server proposes has been asked for, or is the nack of the timeout loop. -/
theorem Requested.proposal (h : Requested xs sv) {p : Proposer} (hop : sv.proposal p = some op) :
    Asked xs op ∨ op.type = .nack := by
  cases p with
  | handler k =>
    have hk := proposing_handler.mp (proposing_of_proposal hop)
    exact .inl (h _ (List.mem_of_getElem? hk) op rfl)
  | scanner =>
    obtain ⟨id, rest, -, rfl⟩ := proposing_scanner.mp (proposing_of_proposal hop)
    exact .inr rfl

/-- What one more action of the cluster commits is in the log of a member then. -/
theorem committedIn_concat {T : List (Action Payload)} {y : Action Payload} {t i : ℕ}
    {e : LogEntry Payload} (h : CommittedIn M (T ++ [y]) t i e) :
    CommittedIn M T t i e ∨ ∃ w w', Raft.run M T = some w ∧ Raft.step M w y = some w' ∧
      ∃ n ∈ M.ids, (w'.nodes n).log.firstIndex < i ∧ (w'.nodes n).log.entryAt i = some e := by
  obtain ⟨ys, z, w, w', n, hys, hw, hz, hn, hrest⟩ := h
  obtain heq | hys := List.prefix_concat_iff.mp hys
  · obtain ⟨rfl, hzy⟩ := List.append_inj' heq rfl
    obtain rfl := List.singleton_inj.mp hzy
    obtain ⟨-, -, -, -, -, -, hfirst, he⟩ := hrest
    exact .inr ⟨w, w', hw, hz, n, hn, hfirst, he⟩
  · exact .inl ⟨ys, z, w, w', n, hys, hw, hz, hn, hrest⟩

/-! ### The system -/

/-- **Everything in the cluster has its reason**: what the servers are about to propose, what is
in the logs and on its way, what has been committed, and the snapshots are snapshots. -/
structure Reasoned (M : Membership) (xs : List SystemMove) (s : System) : Prop where
  sound : ∃ a, Sound M s a
  filled : Labelled M Filled s.world
  requested : ∀ n ∈ M.ids, Requested xs (s.server n)
  stocked : Stocked M (Justified xs) s.world
  committed : ∀ t i e, CommittedIn M s.trace t i e → Justified xs e

theorem reasoned_start (M : Membership) (maxRetries : ℤ) :
    Reasoned M [] (System.start maxRetries M) where
  sound := sound_start maxRetries M
  filled := labelled_start fun _ _ h => h
  requested _ _ h hh := by cases hh
  stocked := stocked_start M _
  committed t i e h := by
    obtain ⟨ys, y, w, w', n, hys, -⟩ := h
    simp [System.start] at hys

/-- The logs after a move. -/
theorem Reasoned.stocked_step (h : Reasoned M xs s) (hs : s.step cfg maxRetries M x = some s') :
    Stocked M (Justified (xs ++ [x])) s'.world := by
  have hxs : xs <+: xs ++ [x] := List.prefix_append _ _
  have hold : Stocked M (Justified (xs ++ [x])) s.world :=
    h.stocked.and h.stocked fun e he _ => he.mono hxs
  obtain ⟨a, ha⟩ := h.sound
  obtain ⟨heq, -⟩ | ⟨y, o, hcall, hy, -⟩ := step_world hs
  · rw [heq]
    exact hold
  · refine hold.step ha.traced.sim (fun i t => .inl rfl) (fun e he => ?_) hy
    obtain ⟨n, hn, p, op, -, hop, -, rfl⟩ := proposal_of_makes hcall hy he
    exact .inr ⟨op, rfl, ((h.requested n hn).mono hxs).proposal hop⟩

/-- **Every step of the system.** -/
theorem Reasoned.step (h : Reasoned M xs s) (hs : s.step cfg maxRetries M x = some s') :
    Reasoned M (xs ++ [x]) s' := by
  have hxs : xs <+: xs ++ [x] := List.prefix_append _ _
  obtain ⟨a, ha⟩ := h.sound
  obtain ⟨a', -, ha'⟩ := ha.step hs
  have hsim := ha.traced.sim
  have hstocked := h.stocked_step hs
  refine ⟨⟨a', ha'⟩, labelled_step h.filled hsim (fun _ _ hd => hd) (fun _ _ _ _ hd => hd)
    (fun _ _ _ _ _ => Payload.noConfusion) hs, fun n hn => ?_, hstocked, fun t i e hc => ?_⟩
  · have hold := (h.requested n hn).mono hxs
    refine (happens hsim h.filled hs n).keeps (I := fun _ _ sv => Requested (xs ++ [x]) sv) hold
      (fun _ _ hh => by cases hh) (fun h _ => h) (fun msg sv _ _ _ _ hsv => ?_)
      fun e sv _ he hruns hsv => hold.step he (n := n) (fun rpc hrpc => ?_) hsv
    · obtain ⟨sm, rfl, -⟩ := ClusterServer.receive_cases hsv
      exact hold
    · -- an RPC arrives by a move of its own
      cases hruns with
      | serves _ hx _ =>
        rw [hx, hrpc]
        exact List.mem_append_right _ (List.mem_singleton_self _)
      | proposes p _ _ _ => cases p <;> cases hrpc
      | submits => cases hrpc
  · obtain ⟨-, htrace⟩ | ⟨y, o, -, hy, htrace⟩ := step_world hs
    · rw [htrace] at hc
      exact (h.committed t i e hc).mono hxs
    · rw [htrace] at hc
      obtain hc | ⟨w, w', hw, hw', n, hn, hfirst, he⟩ := committedIn_concat hc
      · exact (h.committed t i e hc).mono hxs
      · obtain rfl := Option.some.inj (ha.traced.run_eq.symm.trans hw)
        obtain rfl := Option.some.inj (hy.symm.trans hw')
        exact (hstocked.node n hn).log.entryAt hfirst he

/-- **Every command of a run has a reason.** -/
theorem reasoned_run
    (hs : Run.exec (System.step cfg maxRetries M) (System.start maxRetries M) xs = some s) :
    Reasoned M xs s :=
  Run.induction (P := Reasoned M) (reasoned_start M maxRetries)
    (fun _ _ _ _ _ h hx => h.step hx) hs

/-- **Every committed command has been asked for.** In every run, an entry that is committed is
the no-op of a leader, or the command of an RPC that a client has sent to some node before, or
the nack of a task. -/
theorem commands_were_asked {t i : ℕ} {e : LogEntry Payload}
    (hs : Run.exec (System.step cfg maxRetries M) (System.start maxRetries M) xs = some s)
    (he : CommittedIn M s.trace t i e) :
    e.command = .empty ∨ ∃ op, e.command = encodeOp op ∧ (Asked xs op ∨ op.type = .nack) :=
  (reasoned_run hs).committed t i e he

/-- The ack of `x` is the fourth entry. -/
theorem commands_were_asked_ackedX :
    ∃ s t, Run.exec (System.step plainConfig 3 threeNodes) (System.start 3 threeNodes) ackedX =
        some s ∧ CommittedIn threeNodes s.trace t 4 ⟨4, 1, encodeOp (.ack "x")⟩ ∧
      (encodeOp (.ack "x") = .empty ∨ ∃ op, encodeOp (.ack "x") = encodeOp op ∧
        (Asked ackedX op ∨ op.type = .nack)) := by
  have hend : (Run.exec (System.step plainConfig 3 threeNodes) (System.start 3 threeNodes)
      ackedX).map (fun s => (s.world.nodes "a").applyCh[3]?) =
      some (some (.command (encodeOp (.ack "x")) 4 1)) := by
    decide +kernel
  obtain ⟨s, hs, hend⟩ := Option.map_eq_some_iff.mp hend
  obtain ⟨a, ha⟩ := (reasoned_run hs).sound
  obtain ⟨t, ht⟩ := ha.committed_of_sent (n := "a") (by decide) (List.mem_of_getElem? hend)
  exact ⟨s, t, hs, ht, commands_were_asked hs ht⟩

/-! ### The apply loop -/

/-- Anything at all holds of a queue. -/
theorem followsLog_true (maxRetries : ℤ) :
    FollowsLog (fun _ _ _ => True) maxRetries fun _ _ => True :=
  ⟨trivial, fun _ _ _ _ => trivial, fun _ _ _ _ _ => trivial, fun _ _ _ _ => trivial⟩

/-- **What a node sends decodes.** -/
theorem receive_isSome {msg : ApplyMsg Payload}
    (hs : Run.exec (System.step cfg maxRetries M) (System.start maxRetries M) xs = some s)
    (hn : n ∈ M.ids) (hmsg : msg ∈ (s.world.nodes n).applyCh) (sv : ClusterServer) :
    ∃ sv', sv.receive msg = some sv' := by
  cases msg with
  | snapshot m =>
    have hfol := (followsLog_true maxRetries).following hs (List.prefix_refl _)
      (fun _ _ _ _ _ => trivial) (.inl fun _ _ _ _ _ => trivial)
    obtain ⟨st, hdata, -⟩ := (hfol.labelled.node n hn).sent m hmsg
    exact ⟨_, by rw [ClusterServer.receive, hdata]; rfl⟩
  | command command index term =>
    obtain hempty | ⟨op, hop, -⟩ :=
      ((reasoned_run hs).stocked.node n hn).sent command index term hmsg
    · dsimp only at hempty
      exact ⟨_, by rw [ClusterServer.receive, hempty]; rfl⟩
    · dsimp only at hop
      exact ⟨_, by rw [ClusterServer.receive, hop]; rfl⟩

/-- **The apply loop never panics.** Whenever it waits for a message and its node has sent one,
the message decodes, and the loop goes on. -/
theorem apply_loop_never_panics {msg : ApplyMsg Payload}
    (hs : Run.exec (System.step cfg maxRetries M) (System.start maxRetries M) xs = some s)
    (hn : n ∈ M.ids) (hidle : (s.server n).applyLoop = .idle)
    (hmsg : (s.world.nodes n).applyCh[s.received n]? = some msg) :
    ∃ s', s.step cfg maxRetries M (.serve n (.receive msg)) = some s' ∧
      s'.applied n = msg.index ∧ s'.received n = s.received n + 1 := by
  obtain ⟨sv, hsv⟩ := receive_isSome hs hn (List.mem_of_getElem? hmsg) (s.server n)
  have hstep : (s.server n).step cfg (.receive msg) = some sv := by
    rw [ClusterServer.step, if_pos hidle, hsv]
  have htrue : n ∈ M.ids ∧ s.Truthful M n (.receive msg) := ⟨hn, hmsg⟩
  refine ⟨_, by rw [System.step, System.serve, if_pos htrue, hstep]; rfl, ?_, ?_⟩
  · simp only [System.applied, System.receivedAfter, Function.update_self]
    exact progress_take_succ hmsg
  · simp only [System.receivedAfter, Function.update_self]

/-- The enqueue of `x` waits on the channel of `a`. -/
theorem apply_loop_never_panics_enqueue :
    ∃ s s', Run.exec (System.step plainConfig 3 threeNodes) (System.start 3 threeNodes)
        (ackedX.take 19) = some s ∧
      s.step plainConfig 3 threeNodes (.serve "a" (.receive (.command
        (encodeOp (.enqueue { Task.named "x" with createdAt := 1 })) 2 1))) = some s' ∧
      s'.applied "a" = 2 ∧ s'.received "a" = s.received "a" + 1 := by
  have hend : (Run.exec (System.step plainConfig 3 threeNodes) (System.start 3 threeNodes)
      (ackedX.take 19)).map (fun s => ((s.server "a").applyLoop,
        (s.world.nodes "a").applyCh[s.received "a"]?)) =
      some (.idle, some (.command (encodeOp (.enqueue { Task.named "x" with createdAt := 1 })) 2 1))
      := by
    decide +kernel
  obtain ⟨s, hs, hend⟩ := Option.map_eq_some_iff.mp hend
  obtain ⟨hidle, hmsg⟩ := Prod.mk.inj hend
  obtain ⟨s', hs'⟩ := apply_loop_never_panics hs (by decide) hidle hmsg
  exact ⟨s, s', hs, hs'⟩

end Server

end DistQueue
