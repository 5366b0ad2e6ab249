import DistQueue.Broker.Stays
import DistQueue.Server.Queues

/-!
# Acked tasks

Once the entry of an ack has been applied, the task is gone from the queue, and no later
entry but an enqueue of its identifier brings it back. That is a property of the queue that
follows the log (`DistQueue.Server.Finished.followsLog`), so it holds at every replica that has
got as far as the ack – by the commands themselves, or by a snapshot that was taken later. A
snapshot under too small a label, as a crash between its two writes leaves it, does no harm here:
the commands in between only bring the replica to the ack once more.

A `Dequeue` reads the queue of its own node, though, and asks no more than whether the node
is a leader. A leader that was elected on its log may not have applied it yet, and hands
out a task whose ack has succeeded elsewhere (`DistQueue.Server.stale_leader_redelivers`).
Where the node has applied the ack when a `Dequeue` takes a task, the acked task does not
resurface (`DistQueue.Server.acked_never_redelivered`).
-/

namespace DistQueue

namespace Server

open Broker Raft Consensus

variable {M : Membership} {a : Ledger NodeID (LogEntry Payload)} {n : NodeID}
  {sv sv' : ClusterServer} {cfg : ClusterConfig} {maxRetries : ℤ} {s s' : System}
  {id : TaskID} {i₀ : ℕ} {T : List (Action Payload)}

/-! ### The queue after the ack -/

/-- The command enqueues a task of the identifier. -/
def Enqueues (id : TaskID) : Payload → Prop
  | .op op => op.type = .enqueue ∧ op.task.map Task.id = some id
  | _ => False

/-- The command acks the task. -/
def Acks (id : TaskID) : Payload → Prop
  | .op op => op.type = .ack ∧ op.taskID = id
  | _ => False

/-- In the run, the task is acked at the index and not enqueued after it. -/
structure Finished (M : Membership) (T : List (Action Payload)) (id : TaskID) (i₀ : ℕ) : Prop where
  ack : ∀ t e, CommittedIn M T t i₀ e → Acks id e.command
  later : ∀ t j e, i₀ < j → CommittedIn M T t j e → ¬Enqueues id e.command

/-- **From the index on the queue has no live task of the identifier.** -/
def Gone (id : TaskID) (i₀ i : ℕ) (q : Queue) : Prop := i₀ ≤ i → q.live id = none

theorem Gone.anti (i j : ℕ) (q : Queue) (hij : i ≤ j) (h : Gone id i₀ j q) : Gone id i₀ i q :=
  fun hi => h (hi.trans hij)

/-- Only an enqueue brings a task back. -/
theorem live_apply_of_not_enqueues {q : Queue} {op : QueueOp} (hop : ¬Enqueues id (.op op))
    (hid : q.live id = none) : (q.apply maxRetries op).live id = none := by
  have heach : q.Each (fun id' _ => id' ≠ id) fun _ => True := by
    refine ⟨fun id' d hd => ?_, fun _ _ => trivial⟩
    rintro rfl
    rw [hid] at hd
    cases hd
  have happly : (q.apply maxRetries op).Each (fun id' _ => id' ≠ id) fun _ => True :=
    heach.apply (fun t hty htask hid' => hop ⟨hty, by rw [htask, Option.map_some, hid']⟩)
      (fun _ h _ => h) fun _ _ => trivial
  exact Option.eq_none_iff_forall_ne_some.mpr fun d hd => happly.live id d hd rfl

/-- **After the ack the task is gone**, whatever else is committed. -/
theorem Finished.followsLog (hfin : Finished M T id i₀) (maxRetries : ℤ) :
    FollowsLog (fun i command _ => ∃ t e, CommittedIn M T t i e ∧ e.command = command) maxRetries
      (Gone id i₀) where
  empty _ := rfl
  noop := by
    rintro i q ⟨t, e, hc, he⟩ h hi
    -- a no-op is not the ack
    rcases eq_or_ne i₀ (i + 1) with rfl | hne
    · have hack := hfin.ack t e hc
      rw [he] at hack
      exact hack.elim
    · exact h (by omega)
  apply := by
    rintro i q op ⟨t, e, hc, he⟩ h hi
    rcases eq_or_ne i₀ (i + 1) with rfl | hne
    · obtain ⟨hty, rfl⟩ := show Acks id (.op op) from he ▸ hfin.ack t e hc
      exact (q.apply_ack maxRetries hty).1
    · exact live_apply_of_not_enqueues (he ▸ hfin.later t (i + 1) e (by omega) hc) (h (by omega))
  nacked i q k h := h

/-! ### The handlers of `Dequeue` -/

/-- **The queue that a `Dequeue` takes a task from has got to the index.** -/
def System.CaughtUp (i : ℕ) (s : System) : SystemMove → Prop
  | .serve n (.handler k (.now _)) =>
    (s.server n).handlers[k]? = some .dequeueChecked → i ≤ s.applied n
  | _ => True

instance (i : ℕ) (s : System) (x : SystemMove) : Decidable (s.CaughtUp i x) := by
  unfold System.CaughtUp
  split <;> infer_instance

/-- No handler from the `j`-th on has taken a task of the identifier. -/
def Spares (id : TaskID) (j : ℕ) (sv : ClusterServer) : Prop :=
  ∀ k h t, j ≤ k → sv.handlers[k]? = some h → h.handed? = some t → t.id ≠ id

/-- A section on a queue that does not have the task if a `Dequeue` takes one. -/
theorem Spares.step {j : ℕ} {e : Section} (h : Spares id j sv) (he : ∀ msg, e ≠ .receive msg)
    (hgone : ∀ k now, e = .handler k (.now now) → sv.handlers[k]? = some .dequeueChecked →
      sv.sm.content.live id = none)
    (hs : sv.step cfg e = some sv') : Spares id j sv' := by
  intro k x p hjk hx hp
  obtain ⟨y, hy, hp⟩ | ⟨now, t, rfl, hk, ht, rfl⟩ := handed_of_step he hs hx hp
  · exact h k y p hjk hy hp
  · -- a task is taken from the queue, which has none of the identifier
    rintro rfl
    cases (hgone k now rfl hk).symm.trans (StateMachine.live_of_dequeue ht)

/-- **Every step of the system** in which the queues have got to the ack where they must. -/
theorem Spares.systemStep {m : NodeID} {j : ℕ} {x : SystemMove}
    (h : Spares id j (s.server m)) (hsound : Sound M s a)
    (hfol : Following M maxRetries (Gone id i₀) s) (hx : s.CaughtUp i₀ x)
    (hs : s.step cfg maxRetries M x = some s') : Spares id j (s'.server m) := by
  refine (happens hsound.traced.sim hfol.filled hs m).keeps
    (I := fun _ _ sv => Spares id j sv) h (fun _ k x t _ hk => by cases hk) (fun h _ => h)
    (fun msg sv _ _ _ _ hsv => ?_) fun e sv hm he hruns hsv => ?_
  · obtain ⟨sm, rfl, -⟩ := ClusterServer.receive_cases hsv
    exact h
  · obtain ⟨q, hq, hgone⟩ := (hfol.reads m hm).holds
    refine h.step he (fun k now hnow hk => ?_) hsv
    rw [hq.content]
    refine hgone ?_
    cases hruns with
    | serves e hserve htrue =>
      subst hnow hserve
      exact hx hk
    | proposes p op hop hnode => cases p <;> cases hnow
    | submits => cases hnow

/-! ### Runs -/

/-- What is committed at the index of a decided ack is the ack. -/
theorem Sound.acks (h : Sound M s a) {op : QueueOp} {term : ℕ}
    (hd : Decided a ⟨i₀, term, encodeOp op⟩) (hty : op.type = .ack) (hid : op.taskID = id) {t : ℕ}
    {e : LogEntry Payload} (he : CommittedIn M s.trace t i₀ e) : Acks id e.command := by
  obtain ⟨P, hP, -, hk⟩ := he.exists_chosen (by rw [h.traced.run_eq]; rfl)
    fun v ⟨_, ys, hys, hv⟩ => h.traced.visited ys v hys hv
  obtain rfl := Settled.unique h.traced.sim.good.inv ⟨t, P, hP, hk⟩ hd.2
  exact ⟨hty, hid⟩

/-- **Acked tasks do not resurface.** The Ack of a task has returned success in the state
`u`, its entry standing at index `i`, and no enqueue of the identifier is committed after
it, be it one that had been accepted before `u` or one accepted later. If from `u` on every
`Dequeue` takes its task from a queue that has got to index `i`, then no handler of `Dequeue`
that is called after `u`, on any node, returns the task. -/
theorem acked_never_redelivered {as bs : List SystemMove} {u w : System} {i : ℕ}
    (hu : Run.exec (System.step cfg maxRetries M) (System.start maxRetries M) as = some u)
    (hack : (id, i) ∈ u.acked)
    (hcaught : Run.Guarded (System.step cfg maxRetries M) (System.CaughtUp i) u bs)
    (hw : Run.exec (System.step cfg maxRetries M) u bs = some w)
    (hno : ∀ t j e, i < j → CommittedIn M w.trace t j e → ¬Enqueues id e.command)
    {m : NodeID} {j : ℕ} {t : ProtoTask} (hj : (u.server m).handlers.length ≤ j)
    (hret : (w.server m).handlers[j]? = some (.returned (.dequeued t))) : t.id ≠ id := by
  obtain ⟨a₀, h₀⟩ := sound_start maxRetries M
  obtain ⟨a, -, ha⟩ := h₀.exec hu
  obtain ⟨op, term, hty, hid, hd⟩ := ha.acked id i hack
  obtain ⟨a', hle, ha'⟩ := ha.exec hw
  have hfin : Finished M w.trace id i :=
    ⟨fun t e he => ha'.acks (hd.mono hle) hty hid he, hno⟩
  have hK := hfin.followsLog maxRetries
  have hstep : ∀ (v : System) x v', Tracks M maxRetries (Gone id i) w.trace v →
      v.step cfg maxRetries M x = some v' → Tracks M maxRetries (Gone id i) w.trace v' :=
    fun v x v' hv => hv.step hK (fun n command index term q _ _ t hc => ⟨t, _, hc, rfl⟩)
      (.inl Gone.anti)
  have htracks : Tracks M maxRetries (Gone id i) w.trace u :=
    Run.invariant (hK.tracks_start M w.trace) hstep hu
  -- in `u` none of the handlers has been called yet
  have hnew : Spares id (u.server m).handlers.length (u.server m) := by
    intro k x t' hk hx
    rw [List.getElem?_eq_none hk] at hx
    cases hx
  have hspare : Tracks M maxRetries (Gone id i) w.trace w ∧
      (w.trace <+: w.trace → Spares id (u.server m).handlers.length (w.server m)) := by
    refine Run.invariant_of_guarded (P := fun v => Tracks M maxRetries (Gone id i) w.trace v ∧
      (v.trace <+: w.trace → Spares id (u.server m).handlers.length (v.server m)))
      ⟨htracks, fun _ => hnew⟩ ?_ hcaught hw
    rintro v x v' ⟨htr, hsp⟩ hx hv
    refine ⟨hstep v x v' htr hv, fun hT => ?_⟩
    have hT' := (trace_mono hv).trans hT
    obtain ⟨b, hb⟩ := htr.1
    exact (hsp hT').systemStep hb (htr.2 hT') hx hv
  exact hspare.2 (List.prefix_refl _) j _ t hj hret rfl

/-! ### The election of a node that has not applied the ack -/

/-- A `Dequeue` at `b`. -/
def dequeueB : List SystemMove :=
  [.serve "b" (.call .dequeue), .serve "b" (.handler 0 (.isLeader true)),
    .serve "b" (.handler 0 (.now 10)), .serve "b" (.handler 0 .silent)]

/-- `b` wins the election at once. -/
def takeover : List SystemMove := clusterActs (electionOf "b" 6 4) ++ dequeueB

/-- `b` learns that the ack is committed and applies it before it wins the election. -/
def lateTakeover : List SystemMove :=
  clusterActs (replicationTo "a" "b" 5 4) ++ applying "b" ackMsgs ++
    clusterActs (electionOf "b" 7 5) ++ dequeueB

/-- No commit index of a member gets past `k` in the action. -/
def CommitsUpTo (M : Membership) (k : ℕ) (w : World Payload) (x : Action Payload) : Prop :=
  ∀ w' ∈ Raft.step M w x, ∀ n ∈ M.ids, (w'.nodes n).commitIndex ≤ k

instance (M : Membership) (k : ℕ) (w : World Payload) (x : Action Payload) :
    Decidable (CommitsUpTo M k w x) :=
  inferInstanceAs (Decidable (∀ w' ∈ Raft.step M w x, ∀ n ∈ M.ids, _ ≤ k))

/-- Nothing is committed beyond the bound of a run. -/
theorem index_le_of_committedIn {k t j : ℕ} {e : LogEntry Payload}
    (hk : Run.Guarded (Raft.step M) (CommitsUpTo M k) (Raft.start M) T)
    (h : CommittedIn M T t j e) : j ≤ k := by
  obtain ⟨ys, x, w, w', n, ⟨zs, rfl⟩, hw, hx, hn, -, -, -, -, -, hj, -⟩ := h
  rw [List.append_assoc] at hk
  exact le_trans hj ((hk.of_append hw).1 w' hx n hn)

/-- What is looked at in the last state. -/
structure Sight where
  acked : List (TaskID × ℕ)
  isLeader : Bool
  bounded : Bool
  handlers : List Handler
  deriving DecidableEq

/-- What the run has come to, in the end. -/
def sight (s : System) : Sight :=
  ⟨s.acked, (s.world.nodes "b").isLeader,
    decide (Run.Guarded (Raft.step threeNodes) (CommitsUpTo threeNodes 4) (Raft.start threeNodes)
      s.trace), (s.server "b").handlers⟩

theorem sight_ackedX :
    (Run.exec (System.step plainConfig 3 threeNodes) (System.start 3 threeNodes) ackedX).map sight =
      some ⟨[("x", 4)], false, true, []⟩ := by
  decide +kernel

/-- The theorem at a later leader that has applied the `Ack`. -/
theorem acked_never_redelivered_caughtUp :
    ∃ u w t, Run.exec (System.step plainConfig 3 threeNodes) (System.start 3 threeNodes) ackedX =
        some u ∧ ("x", 4) ∈ u.acked ∧
      Run.exec (System.step plainConfig 3 threeNodes) u lateTakeover = some w ∧
      (w.server "b").handlers[0]? = some (.returned (.dequeued t)) ∧ t.id ≠ "x" := by
  obtain ⟨u, hu, hsight⟩ := Option.map_eq_some_iff.mp sight_ackedX
  have hend : (Run.exec (System.step plainConfig 3 threeNodes) (System.start 3 threeNodes)
      (ackedX ++ lateTakeover)).map sight = some ⟨[("x", 4)], true, true, [.returned (.dequeued
        ⟨"y", [], 0, 0, some 2⟩)]⟩ := by
    decide +kernel
  obtain ⟨w, hw, hend⟩ := Option.map_eq_some_iff.mp hend
  rw [Run.exec_append, hu, Option.bind_some] at hw
  have hcaught : Run.Guarded (System.step plainConfig 3 threeNodes) (System.CaughtUp 4)
      (System.start 3 threeNodes) (ackedX ++ lateTakeover) := by
    decide +kernel
  have hack : ("x", 4) ∈ u.acked := by
    rw [show u.acked = [("x", 4)] from congrArg Sight.acked hsight]
    exact List.mem_singleton_self _
  have hbound := of_decide_eq_true (congrArg Sight.bounded hend)
  have hret : (w.server "b").handlers[0]? = some (.returned (.dequeued
      ⟨"y", [], 0, 0, some 2⟩)) := by
    rw [show (w.server "b").handlers = _ from congrArg Sight.handlers hend]
    rfl
  refine ⟨u, w, _, hu, hack, hw, hret, ?_⟩
  refine acked_never_redelivered hu hack (hcaught.of_append hu) hw (fun t j e hj hc => ?_) ?_ hret
  · exact absurd (index_le_of_committedIn hbound hc) (by omega)
  · rw [show (u.server "b").handlers = [] from congrArg Sight.handlers hsight]
    exact Nat.le_refl 0

/-- **A new leader hands out an acked task.** The ack of `x` has returned success at `a`,
and nothing is enqueued after it. Node `b`, which holds the ack's entry and has not applied
it, is elected; the `Dequeue` it is sent then returns `x`. -/
theorem stale_leader_redelivers :
    ∃ u w t, Run.exec (System.step plainConfig 3 threeNodes) (System.start 3 threeNodes) ackedX =
        some u ∧ ("x", 4) ∈ u.acked ∧
      Run.exec (System.step plainConfig 3 threeNodes) u takeover = some w ∧
      (∀ t j e, 4 < j → CommittedIn threeNodes w.trace t j e → ¬Enqueues "x" e.command) ∧
      (w.world.nodes "b").isLeader = true ∧ (u.server "b").handlers.length ≤ 0 ∧
      (w.server "b").handlers[0]? = some (.returned (.dequeued t)) ∧ t.id = "x" := by
  obtain ⟨u, hu, hsight⟩ := Option.map_eq_some_iff.mp sight_ackedX
  have hend : (Run.exec (System.step plainConfig 3 threeNodes) (System.start 3 threeNodes)
      (ackedX ++ takeover)).map sight = some ⟨[("x", 4)], true, true, [.returned (.dequeued
        ⟨"x", [], 0, 0, some 1⟩)]⟩ := by
    decide +kernel
  obtain ⟨w, hw, hend⟩ := Option.map_eq_some_iff.mp hend
  rw [Run.exec_append, hu, Option.bind_some] at hw
  have hbound := of_decide_eq_true (congrArg Sight.bounded hend)
  have hret : (w.server "b").handlers[0]? = some (.returned (.dequeued
      ⟨"x", [], 0, 0, some 1⟩)) := by
    rw [show (w.server "b").handlers = _ from congrArg Sight.handlers hend]
    rfl
  refine ⟨u, w, _, hu, ?_, hw, fun t j e hj hc => ?_, congrArg Sight.isLeader hend, ?_, hret, rfl⟩
  · rw [show u.acked = [("x", 4)] from congrArg Sight.acked hsight]
    exact List.mem_singleton_self _
  · exact absurd (index_le_of_committedIn hbound hc) (by omega)
  · rw [show (u.server "b").handlers = [] from congrArg Sight.handlers hsight]
    exact Nat.le_refl 0

end Server

end DistQueue
