import DistQueue.Broker.Convergence

/-!
# Stays in the queue

Once a task is acked or dead, its identifier may be used again. What tells the tasks of one
identifier apart is the command that enqueued them. A *stay* (`DistQueue.Broker.Stay`) is a
task together with the index of that command, and a register
(`DistQueue.Broker.Register`) is the queue of `DistQueue.Broker.Queue` with stays for tasks:
forgetting the indices, it goes through the same states
(`DistQueue.Broker.Register.Of.apply`).

With the deliveries of a queue recorded by stay, one can say what each retry was paid for
with. A retry is paid for by a delivery of the same stay (`DistQueue.Broker.Stay.Paid`). All
retries of a register stay paid for as long as nacks are only applied to tasks that have a
delivery to spare (`DistQueue.Broker.Register.Paid.apply`), and a replica has a delivery to
spare for every task it holds in flight (`DistQueue.Broker.StateMachine.Accounts`).
-/

namespace DistQueue

namespace Broker

/-- The command is about the task of the identifier. -/
def QueueOp.Concerns (id : TaskID) (op : QueueOp) : Prop :=
  match op.type with
  | .enqueue => op.task.map Task.id = some id
  | .ack | .nack => op.taskID = id
  | .dead => False

instance (id : TaskID) (op : QueueOp) : Decidable (op.Concerns id) := by
  unfold QueueOp.Concerns
  cases op.type <;> infer_instance

/-! ### The register -/

/-- A task, the index of the command that enqueued it, and the retry count it came with. -/
structure Stay where
  data : TaskData
  index : ℕ
  initial : ℤ
  deriving DecidableEq

/-- The task has been nacked. -/
def Stay.retried (k : Stay) : Stay :=
  { k with data := { k.data with retryCount := k.data.retryCount + 1 } }

/-- The live and the dead tasks after a number of commands. -/
structure Register where
  length : ℕ
  live : TaskID → Option Stay
  dlq : List Stay

namespace Register

variable {R : Register} {q : Queue} {maxRetries : ℤ} {op : QueueOp} {id : TaskID}

/-- The register before any command. -/
def empty : Register := ⟨0, fun _ => none, []⟩

/-- What there is now under an identifier. -/
def set (R : Register) (id : TaskID) (k : Option Stay) : Register :=
  { R with live := Function.update R.live id k }

/-- A live task is nacked. -/
def nack (maxRetries : ℤ) (R : Register) (id : TaskID) (k : Stay) : Register :=
  if maxRetries ≤ k.retried.data.retryCount then
    { R.set id none with dlq := R.dlq ++ [k.retried] }
  else R.set id (some k.retried)

/-- A command that has no part in the queue. -/
def skip (R : Register) : Register := { R with length := R.length + 1 }

/-- What a command means, as in `DistQueue.Broker.Queue.apply`. -/
def apply (maxRetries : ℤ) (R : Register) (op : QueueOp) : Register :=
  let R := R.skip
  match op.type with
  | .enqueue => op.task.elim R fun t =>
    -- the enqueue of a live task is a client's retry
    if t.id = "" ∨ (R.live t.id).isSome then R
    else R.set t.id (some ⟨t.data, R.length, t.retryCount⟩)
  | .ack => (R.live op.taskID).elim R fun _ => R.set op.taskID none
  | .nack => (R.live op.taskID).elim R (R.nack maxRetries op.taskID)
  | .dead => R

/-- **The register is one of the queue**: its stays are the queue's tasks. -/
structure Of (R : Register) (q : Queue) : Prop where
  live : q.live = fun id => (R.live id).map Stay.data
  dlq : q.dlq = R.dlq.map Stay.data

/-- The register and the queue change under the same identifier. -/
theorem Of.set (h : R.Of q) (id : TaskID) (k : Option Stay) :
    (R.set id k).Of (q.set id (k.map Stay.data)) := by
  refine ⟨funext fun id' => ?_, h.dlq⟩
  simp only [Queue.set, Register.set, h.live]
  rcases eq_or_ne id' id with rfl | hne
  · simp
  · simp [hne]

/-- A nack does the same to both. -/
theorem Of.nack (h : R.Of q) (id : TaskID) (k : Stay) :
    (R.nack maxRetries id k).Of (q.nack maxRetries id k.data) := by
  have hretried : k.retried.data = { k.data with retryCount := k.data.retryCount + 1 } := rfl
  unfold Register.nack Queue.nack
  dsimp only
  rw [hretried]
  by_cases hdead : maxRetries ≤ k.data.retryCount + 1
  · rw [if_pos hdead, if_pos hdead]
    exact ⟨(h.set id none).live, by simp [h.dlq, hretried]⟩
  · rw [if_neg hdead, if_neg hdead]
    exact ⟨(h.set id (some k.retried)).live, h.dlq⟩

/-- **A command does to the register what it does to the queue.** -/
theorem Of.apply (h : R.Of q) (op : QueueOp) :
    (R.apply maxRetries op).Of (q.apply maxRetries op) := by
  have hskip : R.skip.Of q := ⟨h.live, h.dlq⟩
  have hlive : ∀ id, q.live id = (R.skip.live id).map Stay.data := congrFun hskip.live
  unfold Register.apply Queue.apply
  dsimp only
  cases op.type with
  | enqueue =>
    cases op.task with
    | none => exact hskip
    | some t =>
      simp only [Option.elim_some, hlive, Option.isSome_map]
      split
      · exact hskip
      · exact hskip.set t.id (some ⟨t.data, R.skip.length, t.retryCount⟩)
  | ack =>
    dsimp only
    rw [hlive]
    cases R.skip.live op.taskID with
    | none => exact hskip
    | some k => exact ⟨(hskip.set op.taskID none).live, hskip.dlq⟩
  | nack =>
    dsimp only
    rw [hlive]
    cases R.skip.live op.taskID with
    | none => exact hskip
    | some k => exact hskip.nack op.taskID k
  | dead => exact hskip

/-- A command leaves a task alone that it is not about, and an enqueue one that is live. -/
theorem live_apply (hop : op.Concerns id → op.type = .enqueue ∧ (R.live id).isSome) :
    (R.apply maxRetries op).live id = R.live id := by
  have hset : ∀ {id'} (k : Option Stay), (id' = id → False) →
      (R.skip.set id' k).live id = R.live id :=
    fun k hne => Function.update_of_ne (fun heq => hne heq.symm) _ _
  unfold QueueOp.Concerns at hop
  unfold apply
  dsimp only
  cases hty : op.type with
  | enqueue =>
    simp only [hty, true_and] at hop
    cases htask : op.task with
    | none => rfl
    | some t =>
      simp only [Option.elim_some]
      split
      · rfl
      · rename_i hnew
        refine hset _ fun heq => hnew (.inr ?_)
        exact heq ▸ hop (by rw [htask, ← heq]; rfl)
  | ack =>
    simp only [hty, reduceCtorEq, false_and] at hop
    cases R.skip.live op.taskID with
    | none => rfl
    | some k => exact hset none hop
  | nack =>
    simp only [hty, reduceCtorEq, false_and] at hop
    cases R.skip.live op.taskID with
    | none => rfl
    | some k =>
      simp only [Option.elim_some, nack]
      split <;> exact hset _ hop
  | dead => rfl

end Register

/-! ### What the retries are paid for with -/

/-- The deliveries of a stay, among those recorded by identifier and index. -/
def Stay.deliveries (H : List (TaskID × ℕ)) (k : Stay) : ℕ := H.count (k.data.id, k.index)

/-- **Every retry of the stay is paid for**, by a delivery of its own. -/
def Stay.Paid (H : List (TaskID × ℕ)) (k : Stay) : Prop :=
  k.data.retryCount ≤ k.initial + k.deliveries H

variable {H H' : List (TaskID × ℕ)}

theorem Stay.Paid.mono {k : Stay} (h : k.Paid H) (hH : H <+: H') : k.Paid H' := by
  have hcount : k.deliveries H ≤ k.deliveries H' := hH.sublist.count_le _
  unfold Stay.Paid at h ⊢
  omega

/-- A delivery pays for one retry more. -/
theorem Stay.Paid.deliver {k : Stay} (h : k.Paid H) :
    k.retried.Paid (H ++ [(k.data.id, k.index)]) := by
  unfold Stay.Paid Stay.deliveries at h ⊢
  simp only [Stay.retried, List.count_append, List.count_singleton_self]
  omega

namespace Register

variable {R : Register} {maxRetries : ℤ} {op : QueueOp} {id : TaskID}

/-- **Every retry that the register knows of is paid for.** -/
structure Paid (H : List (TaskID × ℕ)) (R : Register) : Prop where
  live : ∀ id k, R.live id = some k → k.Paid H
  dlq : ∀ k ∈ R.dlq, k.Paid H

/-- The task has a delivery to spare. -/
def Covers (H : List (TaskID × ℕ)) (R : Register) (id : TaskID) : Prop :=
  ∀ k, R.live id = some k → k.retried.Paid H

/-- An empty register owes nothing. -/
theorem paid_empty (H : List (TaskID × ℕ)) : Register.empty.Paid H :=
  ⟨fun id k hk => (by cases hk), fun k hk => (by cases hk)⟩

theorem Paid.mono (h : R.Paid H) (hH : H <+: H') : R.Paid H' :=
  ⟨fun id k hk => (h.live id k hk).mono hH, fun k hk => (h.dlq k hk).mono hH⟩

theorem Covers.mono (h : R.Covers H id) (hH : H <+: H') : R.Covers H' id :=
  fun k hk => (h k hk).mono hH

/-- A stay that is entered has its retries paid for. -/
theorem Paid.set (h : R.Paid H) {k : Option Stay} (hk : ∀ k' ∈ k, k'.Paid H) :
    (R.set id k).Paid H := by
  refine ⟨fun id' k' hk' => ?_, h.dlq⟩
  rcases eq_or_ne id' id with rfl | hne
  · simp only [Register.set, Function.update_self] at hk'
    exact hk k' hk'
  · simp only [Register.set, Function.update_of_ne hne] at hk'
    exact h.live id' k' hk'

/-- **A command**: a nack needs a delivery to spare, and nothing else costs any. -/
theorem Paid.apply (h : R.Paid H) (hop : op.type = .nack → R.Covers H op.taskID) :
    (R.apply maxRetries op).Paid H := by
  have hskip : R.skip.Paid H := ⟨h.live, h.dlq⟩
  unfold Register.apply
  dsimp only
  cases hty : op.type with
  | enqueue =>
    cases op.task with
    | none => exact hskip
    | some t =>
      simp only [Option.elim_some]
      split
      · exact hskip
      · refine hskip.set fun k hk => ?_
        cases hk
        change t.retryCount ≤ t.retryCount + _
        omega
  | ack =>
    dsimp only
    cases R.skip.live op.taskID with
    | none => exact hskip
    | some k => exact hskip.set fun k' hk' => (by cases hk')
  | nack =>
    dsimp only
    cases hk : R.skip.live op.taskID with
    | none => exact hskip
    | some k =>
      have hpaid := hop hty k hk
      simp only [Option.elim_some, nack]
      split
      · refine ⟨(hskip.set fun k' hk' => (by cases hk')).live, fun k' hk' => ?_⟩
        obtain hk' | hk' := List.mem_append.mp hk'
        · exact hskip.dlq k' hk'
        · exact List.mem_singleton.mp hk' ▸ hpaid
      · exact hskip.set fun k' hk' => Option.some.inj hk' ▸ hpaid
  | dead => exact hskip

end Register

/-! ### Replicas -/

/-- **The snapshot shows the queue of the register.** -/
structure SnapshotState.Shows (st : SnapshotState) (R : Register) : Prop where
  proper : st.Proper
  live : st.live = fun id => (R.live id).map Stay.data
  dlq : st.dlq.map Task.data = R.dlq.map Stay.data

namespace StateMachine

variable {sm : StateMachine} {R : Register} {maxRetries : ℤ} {id : TaskID}

/-- **The replica accounts for its deliveries**: it has the tasks of the register, and those it
holds in flight have a delivery to spare. -/
structure Accounts (maxRetries : ℤ) (H : List (TaskID × ℕ)) (R : Register) (sm : StateMachine) :
    Prop where
  tidy : sm.Tidy
  maxRetries_eq : sm.maxRetries = maxRetries
  of : R.Of sm.content
  covered : ∀ id, sm.statusOf id = some .inFlight → R.Covers H id

/-- A new machine and the empty register. -/
theorem accounts_newStateMachine (maxRetries : ℤ) (H : List (TaskID × ℕ)) :
    (newStateMachine maxRetries).Accounts maxRetries H .empty :=
  ⟨tidy_newStateMachine maxRetries, rfl, ⟨rfl, rfl⟩, fun id hid => (by cases hid)⟩

theorem Accounts.mono (h : sm.Accounts maxRetries H R) (hH : H <+: H') :
    sm.Accounts maxRetries H' R :=
  ⟨h.tidy, h.maxRetries_eq, h.of, fun id hid => (h.covered id hid).mono hH⟩

/-- The replica has a task where the register has one. -/
theorem Accounts.isSome_live (h : sm.Accounts maxRetries H R) (hid : sm.statusOf id ≠ none) :
    (R.live id).isSome := by
  have hlive : (sm.content.live id).isSome := by
    rw [statusOf, ne_eq, Option.map_eq_none_iff] at hid
    simpa [content] using Option.isSome_iff_ne_none.mpr hid
  rwa [h.of.live, Option.isSome_map] at hlive

/-- A live task is a stay, -/
theorem Accounts.live (h : sm.Accounts maxRetries H R) {t : Task}
    (ht : (sm.tasks.lookup id).map sm.store = some t) :
    ∃ k, R.live id = some k ∧ k.data = t.data := by
  obtain ⟨r, hr, rfl⟩ := Option.map_eq_some_iff.mp ht
  refine Option.map_eq_some_iff.mp ?_
  rw [← congrFun h.of.live id]
  simp only [content, hr, Option.map_some]
  rfl

/-- and so is a dead one. -/
theorem Accounts.dead (h : sm.Accounts maxRetries H R) {i : ℕ} {t : Task}
    (ht : sm.listDLQ[i]? = some t) : ∃ k, R.dlq[i]? = some k ∧ k.data = t.data := by
  rw [listDLQ, List.getElem?_map] at ht
  obtain ⟨r, hr, rfl⟩ := Option.map_eq_some_iff.mp ht
  refine Option.map_eq_some_iff.mp ?_
  rw [← List.getElem?_map, ← h.of.dlq, content, List.getElem?_map, hr]
  rfl

/-- A no-op of the log only makes it longer. -/
theorem Accounts.skip (h : sm.Accounts maxRetries H R) : sm.Accounts maxRetries H R.skip :=
  ⟨h.tidy, h.maxRetries_eq, ⟨h.of.live, h.of.dlq⟩, h.covered⟩

/-- **A command.** -/
theorem Accounts.apply (h : sm.Accounts maxRetries H R) (op : QueueOp) :
    (sm.apply op).Accounts maxRetries H (R.apply maxRetries op) := by
  refine ⟨h.tidy.apply op, (apply_maxRetries sm op).trans h.maxRetries_eq, ?_, fun id hid => ?_⟩
  · rw [content_apply h.tidy, h.maxRetries_eq]
    exact h.of.apply op
  · obtain ⟨hold, hop⟩ := statusOf_apply_inFlight h.tidy.keyed hid
    have hlive : (R.live id).isSome := h.isSome_live (by rw [hold]; simp)
    intro k hk
    rw [Register.live_apply fun hc => ⟨?_, hlive⟩] at hk
    · exact h.covered id hold k hk
    · -- the command has left the task in flight, so it is no ack or nack of it
      unfold QueueOp.Concerns at hc
      split at hc
      · assumption
      · exact absurd hc (hop (.inl ‹_›))
      · exact absurd hc (hop (.inr ‹_›))
      · exact hc.elim

/-- A reset of the overlay takes back what is held, not what has been delivered. -/
theorem Accounts.requeueInFlight (h : sm.Accounts maxRetries H R) (order : List TaskID) :
    (sm.requeueInFlight order).Accounts maxRetries H R := by
  have hholds := Holds.requeueInFlight ⟨h.tidy, h.maxRetries_eq, rfl⟩ order
  refine ⟨hholds.tidy, hholds.maxRetries, hholds.content ▸ h.of, fun id hid => h.covered id ?_⟩
  rw [statusOf_requeueInFlight h.tidy.keyed] at hid
  split at hid
  · cases hid
  · exact hid

/-- **A delivery** is recorded with the stay it is of. -/
theorem Accounts.dequeue (h : sm.Accounts maxRetries H R) (hpaid : R.Paid H) (deadline : Time)
    {index : TaskID → ℕ} (hindex : ∀ id k, R.live id = some k → index id = k.index) :
    (sm.dequeue deadline).2.Accounts maxRetries
      (H ++ ((sm.dequeue deadline).1.map fun t => (t.id, index t.id)).toList) R := by
  have hholds := Holds.dequeue ⟨h.tidy, h.maxRetries_eq, rfl⟩ deadline
  refine ⟨hholds.tidy, hholds.maxRetries, hholds.content ▸ h.of, fun id hid => ?_⟩
  -- of the tasks in flight, only the one that is handed out was not before
  obtain ⟨hnone, heq⟩ | ⟨t, ht, -, heq⟩ := statusOf_dequeue h.tidy.keyed deadline
  · rw [heq] at hid
    exact (h.covered id hid).mono (List.prefix_append _ _)
  · rw [heq] at hid
    rcases eq_or_ne id t.id with rfl | hne
    · intro k hk
      have hdata := live_of_dequeue ht
      rw [h.of.live] at hdata
      simp only [hk, Option.map_some, Option.some.injEq] at hdata
      have hkid : k.data.id = t.id := by rw [hdata]; rfl
      rw [ht, Option.map_some, Option.toList_some, hindex _ k hk, ← hkid]
      exact (hpaid.live _ k hk).deliver
    · rw [Function.update_of_ne hne] at hid
      exact (h.covered id hid).mono (List.prefix_append _ _)

/-- A snapshot shows the register. -/
theorem Accounts.snapshot (h : sm.Accounts maxRetries H R) {order : List TaskID}
    (ho : order.Perm sm.tasks.keys) : (sm.snapshot order).Shows R := by
  refine ⟨h.tidy.keyed.snapshot_proper ho, ?_, ?_⟩
  · rw [h.tidy.snapshot_live ho, h.of.live]
  · have hdlq : (sm.snapshot order).dlq.map Task.data = sm.content.dlq := List.map_map ..
    rw [hdlq, h.of.dlq]

/-- A restored replica has nothing in flight. -/
theorem accounts_restore {st : SnapshotState} (hst : st.Shows R)
    (hmax : sm.maxRetries = maxRetries) : (sm.restore st).Accounts maxRetries H R := by
  have hholds := holds_restore sm hst.proper
  refine ⟨hholds.tidy, hholds.maxRetries.trans hmax, ?_, fun id hid => ?_⟩
  · rw [hholds.content]
    exact ⟨hst.live, hst.dlq⟩
  · rw [statusOf_restore hst.proper.pending] at hid
    split at hid <;> cases hid

end StateMachine

end Broker

end DistQueue
