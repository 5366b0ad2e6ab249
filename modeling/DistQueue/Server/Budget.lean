import DistQueue.Broker.Convergence
import DistQueue.Server.ClusterServer

/-!
# The retry budget

A task may be nacked `maxRetries` times, and with the last of these nacks it moves to the
dead-letter queue. What is compared with `maxRetries` is the task's own retry count. It is part
of the queue that the replicas agree on: it counts the nacks that were applied to the task,
starting from what the task came with (`DistQueue.Broker.Queue.live_foldl`,
`DistQueue.Broker.Queue.bury`), on every replica and past every snapshot.

A task comes with the retry count of the request. `fromProto` resets the status and the deadline
that a client has no say in, but takes over the retry count, so the budget of a task is what the
client has left of it (`DistQueue.Server.dead_on_budget_iff`). A request whose count is used up
already dies at the first nack (`DistQueue.Server.dead_at_first_nack`).
-/

namespace DistQueue

namespace Broker

variable {maxRetries : ℤ} {id : TaskID} {op : QueueOp} {ops : List QueueOp} {t : Task}

/-- The command is an ack of the task. -/
def QueueOp.Acks (id : TaskID) (op : QueueOp) : Prop := op.type = .ack ∧ op.taskID = id

/-- The command is a nack of the task. -/
def QueueOp.Nacks (id : TaskID) (op : QueueOp) : Prop := op.type = .nack ∧ op.taskID = id

instance (id : TaskID) : DecidablePred (QueueOp.Nacks id) :=
  fun op => inferInstanceAs (Decidable (op.type = .nack ∧ op.taskID = id))

/-- How often the commands nack the task. -/
def nacks (id : TaskID) (ops : List QueueOp) : ℕ := ops.countP (QueueOp.Nacks id)

theorem nacks_concat (hop : op.Nacks id) : nacks id (ops ++ [op]) = nacks id ops + 1 := by
  simp [nacks, List.countP_append, hop]

theorem nacks_concat_of_not (hop : ¬op.Nacks id) : nacks id (ops ++ [op]) = nacks id ops := by
  simp [nacks, List.countP_append, hop]

theorem nacks_replicate (id : TaskID) (k : ℕ) : nacks id (List.replicate k (.nack id)) = k := by
  induction k with
  | zero => rfl
  | succ k ih =>
    have hop : (QueueOp.nack id).Nacks id := ⟨rfl, rfl⟩
    rw [List.replicate_succ', nacks_concat hop, ih]

/-- The task after a number of nacks. -/
def TaskData.nacked (d : TaskData) (k : ℕ) : TaskData := { d with retryCount := d.retryCount + k }

@[simp] theorem TaskData.nacked_zero (d : TaskData) : d.nacked 0 = d := by
  simp [nacked]

theorem TaskData.nacked_succ (d : TaskData) (k : ℕ) :
    { d.nacked k with retryCount := (d.nacked k).retryCount + 1 } = d.nacked (k + 1) := by
  simp [nacked, Int.add_assoc]

/-! ### What the commands do to one task -/

namespace Queue

variable {q : Queue} {d : TaskData}

/-- Only acks and nacks of it change a live task. -/
theorem live_apply (hd : q.live id = some d) (hack : ¬op.Acks id) (hnack : ¬op.Nacks id) :
    (q.apply maxRetries op).live id = some d := by
  have hset : ∀ {id'} (x : Option TaskData), id' ≠ id → (q.set id' x).live id = some d :=
    fun x hne => (q.set_live_of_ne x hne.symm).trans hd
  unfold apply
  cases hty : op.type with
  | enqueue =>
    cases op.task with
    | none => exact hd
    | some t =>
      dsimp only [Option.elim_some]
      split
      · exact hd
      · rename_i hnew
        refine hset _ ?_
        rintro rfl
        exact hnew (.inr (by simp [hd]))
  | ack =>
    dsimp only
    cases q.live op.taskID with
    | none => exact hd
    | some e => exact hset none fun hid => hack ⟨hty, hid⟩
  | nack =>
    dsimp only
    cases q.live op.taskID with
    | none => exact hd
    | some e =>
      dsimp only [Option.elim_some, nack]
      split <;> exact hset _ fun hid => hnack ⟨hty, hid⟩
  | dead => exact hd

/-- A nack of a live task charges it. -/
theorem apply_nack (hd : q.live id = some d) (hop : op.Nacks id) :
    q.apply maxRetries op = q.nack maxRetries id d := by
  obtain ⟨hty, rfl⟩ := hop
  simp [apply, hty, hd]

/-- **A task stays live, and its nacks are counted**, for as long as its retry count does not
reach the maximum. -/
theorem live_foldl (hd : q.live id = some d) (hack : ∀ op ∈ ops, ¬op.Acks id)
    (hn : nacks id ops = 0 ∨ d.retryCount + nacks id ops < maxRetries) :
    (ops.foldl (apply maxRetries) q).live id = some (d.nacked (nacks id ops)) := by
  induction ops using List.reverseRecOn with
  | nil => simpa [nacks] using hd
  | append_singleton ops op ih =>
    have hack' : ∀ op ∈ ops, ¬op.Acks id := fun op hop => hack op (List.mem_append_left _ hop)
    rw [List.foldl_append, List.foldl_cons, List.foldl_nil]
    by_cases hop : op.Nacks id
    · rw [nacks_concat hop] at hn ⊢
      have hlive := ih hack' (.inr (by omega))
      -- the count has not reached the maximum with this nack either
      have hspared : ¬maxRetries ≤ (d.nacked (nacks id ops)).retryCount + 1 := by
        simp only [TaskData.nacked]
        omega
      rw [apply_nack hlive hop, nack]
      dsimp only
      rw [if_neg hspared, set_live_self, TaskData.nacked_succ]
    · rw [nacks_concat_of_not hop] at hn ⊢
      exact live_apply (ih hack' hn) (hack op (List.mem_append_right _ List.mem_cons_self)) hop

/-- **A task dies** when a nack makes its retry count reach the maximum. -/
theorem bury (hd : q.live id = some d) (hop : op.Nacks id) (hm : maxRetries ≤ d.retryCount + 1) :
    (q.apply maxRetries op).live id = none ∧
      (q.apply maxRetries op).dlq = q.dlq ++ [{ d with retryCount := d.retryCount + 1 }] := by
  rw [apply_nack hd hop, nack]
  dsimp only
  rw [if_pos hm]
  exact ⟨q.set_live_self id none, rfl⟩

/-- An accepted task, once it is enqueued. -/
theorem live_enqueue (hid : t.id ≠ "") (hfresh : q.live t.id = none) :
    (q.apply maxRetries (.enqueue t)).live t.id = some t.data := by
  simp [apply, QueueOp.enqueue, hid, hfresh, set]

end Queue

/-! ### The task on a replica -/

namespace StateMachine

/-- The task is live, and has been nacked so often. -/
def HasLive (sm : StateMachine) (t : Task) (k : ℕ) : Prop :=
  (sm.tasks.lookup t.id).map sm.dataAt = some (t.data.nacked k)

/-- The task is not live any more, but the last of the dead-letter queue. -/
def HasBuried (sm : StateMachine) (t : Task) (k : ℕ) : Prop :=
  sm.has t.id = false ∧ (sm.listDLQ.map Task.data).getLast? = some (t.data.nacked k)

theorem HasLive.has {sm : StateMachine} {k : ℕ} (h : sm.HasLive t k) : sm.has t.id = true := by
  obtain ⟨r, hr, -⟩ := Option.map_eq_some_iff.mp h
  rw [StateMachine.has, hr]
  rfl

/-- A live task is not buried. -/
theorem HasLive.not_hasBuried {sm : StateMachine} {k k' : ℕ} (h : sm.HasLive t k) :
    ¬sm.HasBuried t k' := by
  rintro ⟨hhas, -⟩
  exact Bool.false_ne_true (hhas.symm.trans h.has)

/-- The machine holds the queue of its log. -/
theorem holds_replay (maxRetries : ℤ) (ops : List QueueOp) :
    (ops.foldl apply (newStateMachine maxRetries)).Holds maxRetries
      (Queue.replay maxRetries ops) := by
  induction ops using List.reverseRecOn with
  | nil => exact holds_newStateMachine maxRetries
  | append_singleton ops op ih =>
    rw [List.foldl_append, Queue.replay_concat]
    exact ih.apply op

end StateMachine

/-- **The enqueue is accepted** by a replica that has applied these commands. -/
def Accepted (maxRetries : ℤ) (ops : List QueueOp) (t : Task) : Prop :=
  t.id ≠ "" ∧ (ops.foldl StateMachine.apply (newStateMachine maxRetries)).has t.id = false

variable {before after : List QueueOp}

/-- An accepted task is live as it came. -/
theorem Accepted.live (h : Accepted maxRetries before t) :
    ((Queue.replay maxRetries before).apply maxRetries (.enqueue t)).live t.id = some t.data := by
  obtain ⟨hid, hnew⟩ := h
  refine Queue.live_enqueue hid ?_
  rw [← (StateMachine.holds_replay maxRetries before).content]
  exact StateMachine.live_eq_none hnew

theorem replay_enqueue (maxRetries : ℤ) (before after : List QueueOp) (t : Task) :
    Queue.replay maxRetries (before ++ .enqueue t :: after) = after.foldl (Queue.apply maxRetries)
      ((Queue.replay maxRetries before).apply maxRetries (.enqueue t)) := by
  simp [Queue.replay, List.foldl_append]

namespace Logged

variable {f : Logged} {i : ℕ}

/-- A replica has the live task that the commands it has consumed have left. -/
theorem Sound.hasLive (h : f.Sound maxRetries) (hi : f.consumed i = before ++ .enqueue t :: after)
    (ht : Accepted maxRetries before t) (hack : ∀ op ∈ after, ¬op.Acks t.id)
    (hn : nacks t.id after = 0 ∨ t.retryCount + nacks t.id after < maxRetries) :
    (f.fleet.machine i).HasLive t (nacks t.id after) := by
  obtain ⟨n, hsm⟩ := h.machine i
  have hlive := Queue.live_foldl ht.live hack hn
  rw [hi, replay_enqueue] at hsm
  exact (congrFun (congrArg Queue.live hsm.content) t.id).trans hlive

/-- A replica has buried the task if the commands it has consumed end with the nack that made
the task's retry count reach the maximum. -/
theorem Sound.hasBuried (h : f.Sound maxRetries)
    (hi : f.consumed i = before ++ .enqueue t :: (after ++ [op]))
    (ht : Accepted maxRetries before t) (hack : ∀ op ∈ after, ¬op.Acks t.id) (hop : op.Nacks t.id)
    (hn : nacks t.id after = 0 ∨ t.retryCount + nacks t.id after < maxRetries)
    (hm : maxRetries ≤ t.retryCount + nacks t.id after + 1) :
    (f.fleet.machine i).HasBuried t (nacks t.id after + 1) := by
  obtain ⟨n, hsm⟩ := h.machine i
  obtain ⟨hlive, hdlq⟩ := Queue.bury (Queue.live_foldl ht.live hack hn) hop hm
  rw [hi, replay_enqueue, List.foldl_append, List.foldl_cons, List.foldl_nil] at hsm
  constructor
  · have hnone : (f.fleet.machine i).content.live t.id = none := by
      rw [hsm.content]
      exact hlive
    rw [StateMachine.has, Option.map_eq_none_iff.mp hnone]
    rfl
  · have hlist : (f.fleet.machine i).listDLQ.map Task.data = (f.fleet.machine i).content.dlq :=
      List.map_map ..
    rw [hlist, hsm.content]
    dsimp only
    rw [hdlq, List.getLast?_concat, TaskData.nacked_succ]

/-- One replica can consume any commands. -/
theorem exists_exec (maxRetries : ℤ) (ops : List QueueOp) :
    ∃ xs f, Run.exec step (start maxRetries) xs = some f ∧ f.consumed 0 = ops := by
  induction ops using List.reverseRecOn with
  | nil => exact ⟨[], _, rfl, rfl⟩
  | append_singleton ops op ih =>
    obtain ⟨xs, f, hrun, hf⟩ := ih
    refine ⟨xs ++ [.apply 0 op], _, Run.exec_snoc.mpr ⟨f, hrun, rfl⟩, ?_⟩
    simp [record, hf]

end Logged

/-- **The task dies on its budget.** In every run of the replicas, one that has consumed an
accepted enqueue of the task, and then no ack of it, has the task for as long as it has consumed
fewer than `maxRetries` nacks of it, and with the nack that makes them `maxRetries` it buries the
task. -/
def DeadOnBudget (maxRetries : ℤ) (t : Task) : Prop :=
  ∀ xs f i before after, Run.exec Logged.step (Logged.start maxRetries) xs = some f →
    f.consumed i = before ++ .enqueue t :: after → Accepted maxRetries before t →
    (∀ op ∈ after, ¬op.Acks t.id) →
    (nacks t.id after < maxRetries → (f.fleet.machine i).HasLive t (nacks t.id after)) ∧
    ∀ ops op, after = ops ++ [op] → op.Nacks t.id → nacks t.id after = maxRetries →
      (f.fleet.machine i).HasBuried t (nacks t.id after)

/-- **Every run of the log is sound.** -/
theorem sound_of_exec {xs : List FleetOp} {f : Logged}
    (hrun : Run.exec Logged.step (Logged.start maxRetries) xs = some f) : f.Sound maxRetries :=
  Run.invariant (P := Logged.Sound maxRetries) (Logged.sound_start maxRetries)
    (fun _ _ _ h hs => h.step hs) hrun

/-- **With a count of zero, or a limit of one, the budget is kept.** -/
theorem deadOnBudget (h : t.retryCount = 0 ∨ maxRetries = 1 ∧ 0 ≤ t.retryCount) :
    DeadOnBudget maxRetries t := by
  intro xs f i before after hrun hi ht hack
  have hsound := sound_of_exec hrun
  refine ⟨fun hn => hsound.hasLive hi ht hack (by omega), ?_⟩
  rintro ops op rfl hop hn
  rw [nacks_concat hop] at hn ⊢
  exact hsound.hasBuried hi ht (fun op hop => hack op (List.mem_append_left _ hop)) hop
    (by omega) (by omega)

/-- What happens to a task that is only nacked. -/
theorem exists_nacked (maxRetries : ℤ) (hid : t.id ≠ "") (k : ℕ) :
    ∃ xs f, Run.exec Logged.step (Logged.start maxRetries) xs = some f ∧
      f.consumed 0 = [] ++ .enqueue t :: List.replicate k (.nack t.id) ∧
      Accepted maxRetries [] t ∧ ∀ op ∈ List.replicate k (QueueOp.nack t.id), ¬op.Acks t.id := by
  obtain ⟨xs, f, hrun, hf⟩ :=
    Logged.exists_exec maxRetries (.enqueue t :: List.replicate k (.nack t.id))
  refine ⟨xs, f, hrun, hf, ⟨hid, rfl⟩, fun op hop => ?_⟩
  rw [List.eq_of_mem_replicate hop]
  rintro ⟨hty, -⟩
  cases hty

/-- A task that comes with less than nothing outlives its budget. -/
theorem DeadOnBudget.nonneg (h : DeadOnBudget maxRetries t) (hid : t.id ≠ "")
    (hm : 1 ≤ maxRetries) : 0 ≤ t.retryCount := by
  by_contra hneg
  obtain ⟨k, hk⟩ : ∃ k : ℕ, maxRetries = k + 1 := ⟨(maxRetries - 1).toNat, by omega⟩
  obtain ⟨xs, f, hrun, hf, ht, hack⟩ := exists_nacked maxRetries hid (k + 1)
  have hlive := (sound_of_exec hrun).hasLive hf ht hack
    (by rw [nacks_replicate]; omega)
  refine hlive.not_hasBuried ((h xs f 0 [] _ hrun hf ht hack).2 (.replicate k (.nack t.id))
    (.nack t.id) List.replicate_succ' ⟨rfl, rfl⟩ ?_)
  rw [nacks_replicate, hk]
  rfl

/-- A task that comes with a retry count dies before it has used up its budget. -/
theorem DeadOnBudget.eq_one (h : DeadOnBudget maxRetries t) (hid : t.id ≠ "")
    (hm : 1 ≤ maxRetries) (hpos : 0 < t.retryCount) : maxRetries = 1 := by
  by_contra hne
  -- the nack with which the task dies is number `k + 1`
  obtain ⟨k, hk, hspared, hlast⟩ : ∃ k : ℕ, (k : ℤ) + 1 < maxRetries ∧
      (k = 0 ∨ t.retryCount + k < maxRetries) ∧ maxRetries ≤ t.retryCount + k + 1 :=
    ⟨(maxRetries - t.retryCount - 1).toNat, by omega, by omega, by omega⟩
  obtain ⟨xs, f, hrun, hf, ht, hack⟩ := exists_nacked maxRetries hid (k + 1)
  have hlive := (h xs f 0 [] _ hrun hf ht hack).1 (by rw [nacks_replicate]; omega)
  rw [List.replicate_succ'] at hf hack
  refine hlive.not_hasBuried ((sound_of_exec hrun).hasBuried hf ht
    (fun op hop => hack op (List.mem_append_left _ hop)) ⟨rfl, rfl⟩ ?_ ?_)
  · rwa [nacks_replicate]
  · rwa [nacks_replicate]

end Broker

namespace Server

open Broker

/-! ### The request -/

/-- The command that `Enqueue` proposes for a request. -/
theorem begin_fromProto {p : ProtoTask} {newTaskID : TaskID} {now : Time} {t : Task}
    (h : (Rpc.enqueue (some (fromProto p)) newTaskID now).begin = .proposing (.enqueue t) .ready) :
    t.retryCount = p.retryCount.toInt := by
  simp only [Rpc.begin, Handler.proposing.injEq, QueueOp.enqueue, QueueOp.mk.injEq,
    Option.some.injEq, true_and, and_true] at h
  rw [← h]
  rfl

/-- **Which requests die on their budget.** A task that is enqueued by an RPC moves to the
dead-letter queue with nack number `maxRetries`, not before and not later, if and only if the
request had the retry count zero – or there is only one retry, and the count of the request was
not negative. -/
theorem dead_on_budget_iff {maxRetries : ℤ} (hm : 1 ≤ maxRetries) {p : ProtoTask}
    {newTaskID : TaskID} {now : Time} {t : Task}
    (hreq : (Rpc.enqueue (some (fromProto p)) newTaskID now).begin =
      .proposing (.enqueue t) .ready)
    (hid : t.id ≠ "") :
    DeadOnBudget maxRetries t ↔
      p.retryCount.toInt = 0 ∨ maxRetries = 1 ∧ 0 ≤ p.retryCount.toInt := by
  rw [← begin_fromProto hreq]
  refine ⟨fun h => ?_, deadOnBudget⟩
  rcases (h.nonneg hid hm).eq_or_lt with hzero | hpos
  · exact .inl hzero.symm
  · exact .inr ⟨h.eq_one hid hm hpos, hpos.le⟩

/-- A request that has the retry count of the task it was copied from. -/
def copied : ProtoTask := ⟨"a", [], 0, 2, none⟩

/-- The task that is enqueued for it. -/
def copiedTask : Task := { fromProto copied with createdAt := 7 }

/-- The theorem at a task that a client copied with its count. -/
theorem dead_on_budget_iff_copied :
    (Rpc.enqueue (some (fromProto copied)) "b" 7).begin = .proposing (.enqueue copiedTask) .ready ∧
      (DeadOnBudget 1 copiedTask ↔ copied.retryCount.toInt = 0 ∨ (1 : ℤ) = 1 ∧
        0 ≤ copied.retryCount.toInt) ∧ DeadOnBudget 1 copiedTask := by
  have hreq : (Rpc.enqueue (some (fromProto copied)) "b" 7).begin =
      .proposing (.enqueue copiedTask) .ready := rfl
  have hone : (1 : ℤ) ≤ 1 := le_rfl
  have hiff := dead_on_budget_iff hone hreq (by decide)
  exact ⟨hreq, hiff, hiff.mpr (.inr ⟨rfl, by decide⟩)⟩

/-- The task is enqueued, delivered and nacked. -/
def nackedOnce : List FleetOp :=
  [.apply 0 (.enqueue copiedTask), .dequeue 0 10, .apply 0 (.nack "a")]

/-- With three retries, a task whose request had the retry count two is dead after one nack. -/
theorem dead_at_first_nack :
    (Rpc.enqueue (some (fromProto copied)) "b" 7).begin = .proposing (.enqueue copiedTask) .ready ∧
      (∃ f, Run.exec Logged.step (Logged.start 3) nackedOnce = some f ∧
        f.consumed 0 = [.enqueue copiedTask, .nack "a"] ∧ (f.fleet.machine 0).has "a" = false ∧
        (f.fleet.machine 0).listDLQ.map Task.id = ["a"]) ∧ ¬DeadOnBudget 3 copiedTask := by
  obtain ⟨f, hrun, hobs⟩ : ∃ f, Run.exec Logged.step (Logged.start 3) nackedOnce = some f ∧
      (f.consumed 0, (f.fleet.machine 0).has "a", (f.fleet.machine 0).listDLQ.map Task.id) =
        ([.enqueue copiedTask, .nack "a"], false, ["a"]) :=
    Option.map_eq_some_iff.mp (by decide +kernel)
  obtain ⟨hf, hobs⟩ := Prod.mk.inj hobs
  obtain ⟨hhas, hdlq⟩ := Prod.mk.inj hobs
  refine ⟨rfl, ⟨f, hrun, hf, hhas, hdlq⟩, fun h => ?_⟩
  have hlive := (h nackedOnce f 0 [] [.nack "a"] hrun hf ⟨by decide, rfl⟩ ?_).1 (by decide)
  · exact Bool.false_ne_true (hhas.symm.trans hlive.has)
  · intro op hop
    obtain rfl := List.mem_singleton.mp hop
    rintro ⟨hty, -⟩
    cases hty

end Server

end DistQueue
