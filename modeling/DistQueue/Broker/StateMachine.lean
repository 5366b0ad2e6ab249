import DistQueue.Broker.Task
import Mathlib.Data.List.AList
import Mathlib.Logic.Function.Basic

/-!
# The replicated queue

The queue state every replica keeps by applying committed commands in log order
(`DistQueue.Broker.StateMachine`), together with the delivery overlay of the leader.

Tasks are shared objects in the source: the live map, the heap and the dead-letter
queue hold pointers, and a task that is acked while it waits in the heap stays there
as a stale pointer. The model keeps the objects in a `store`, and the other fields
hold their addresses (`DistQueue.Broker.Ref`), so that "the same object" means the
same thing here as there. Heap membership is recorded a second time, by *identifier*,
in `inHeap`. A command is decoded into a fresh task, so an enqueue allocates.

The methods run under the machine's lock and are functions here. Two of them range
over a map, whose order the language leaves open: they take the order as an argument.
-/

namespace DistQueue

section Maps

variable {α β : Type} [DecidableEq α] {m : AList fun _ : α => β} {i j : α} {v w : β}

/-- What is found after an erasure is another key's, and was there before. -/
theorem lookup_erase_some (h : (m.erase i).lookup j = some v) : j ≠ i ∧ m.lookup j = some v := by
  rcases eq_or_ne j i with rfl | hne
  · rw [AList.lookup_erase] at h
    cases h
  · exact ⟨hne, by rwa [AList.lookup_erase_ne hne] at h⟩

/-- What is found after an insertion is the new value, or was there before. -/
theorem lookup_insert_some (h : (m.insert i v).lookup j = some w) :
    j = i ∧ w = v ∨ j ≠ i ∧ m.lookup j = some w := by
  rcases eq_or_ne j i with rfl | hne
  · rw [AList.lookup_insert] at h
    exact .inl ⟨rfl, (Option.some.inj h).symm⟩
  · exact .inr ⟨hne, by rwa [AList.lookup_insert_ne hne] at h⟩

end Maps

namespace Broker

/-- The address of a task object. -/
abbrev Ref := ℕ

/-- The queue state of a replica. -/
structure StateMachine where
  maxRetries : ℤ
  /-- The task objects, by address; those from `next` on are not allocated yet. -/
  store : Ref → Task
  next : Ref
  /-- The live tasks: pending, or in flight on the leader. -/
  tasks : AList fun _ : TaskID => Ref
  /-- The heap; it may hold stale tasks, which `dequeue` skips. -/
  pq : List Ref
  /-- Which identifiers the heap holds a task of. -/
  inHeap : TaskID → Bool
  dlq : List Ref
  acked : ℤ
  nacked : ℤ

/-- What a replica hands to the log for compaction. -/
structure SnapshotState where
  tasks : List Task
  dlq : List Task
  acked : ℤ
  deriving DecidableEq

/-- A snapshot as the replicas take them: its tasks are pending and have different
identifiers. -/
structure SnapshotState.Proper (st : SnapshotState) : Prop where
  pending : ∀ t ∈ st.tasks, t.status = .pending
  nodup : (st.tasks.map Task.id).Nodup

/-- A queue without tasks. Memory nobody has written to holds a task without a name. -/
def newStateMachine (maxRetries : ℤ) : StateMachine :=
  { maxRetries, store := fun _ => Task.named "", next := 0, tasks := ∅, pq := [],
    inHeap := fun _ => false, dlq := [], acked := 0, nacked := 0 }

namespace StateMachine

variable {sm sm' : StateMachine} {r r' : Ref} {id : TaskID} {t : Task}

/-- The order of the heap, on addresses. -/
def less (sm : StateMachine) (r r' : Ref) : Bool := (sm.store r).less (sm.store r')

/-- Change one task object. -/
def update (sm : StateMachine) (r : Ref) (f : Task → Task) : StateMachine :=
  { sm with store := Function.update sm.store r (f (sm.store r)) }

/-- Put a new task object into memory; its address is the old `next`. -/
def alloc (sm : StateMachine) (t : Task) : StateMachine :=
  { sm with store := Function.update sm.store sm.next t, next := sm.next + 1 }

/-- Put a task into the heap unless one with its identifier is recorded there. -/
def pushLocked (sm : StateMachine) (r : Ref) : StateMachine :=
  if sm.inHeap (sm.store r).id then sm
  else
    { sm with
      pq := Heap.push sm.less sm.pq r
      inHeap := Function.update sm.inHeap (sm.store r).id true }

/-- Make a task deliverable again, as a nack and a loss of leadership do. -/
def requeue (sm : StateMachine) (r : Ref) : StateMachine :=
  (sm.update r fun t => { t with status := .pending, deadline := 0 }).pushLocked r

/-- Make a new task object the live task of its identifier and push it. -/
def file (sm : StateMachine) (t : Task) : StateMachine :=
  let sm₁ := sm.alloc t
  { sm₁ with tasks := sm₁.tasks.insert t.id sm.next }.pushLocked sm.next

/-- The enqueue case of `apply`: a duplicate of a live task is dropped. -/
def applyEnqueue (sm : StateMachine) (t : Task) : StateMachine :=
  if t.id = "" ∨ (sm.tasks.lookup t.id).isSome then sm
  else sm.file { t with status := .pending }

/-- The ack case of `apply`, for the live task `r`. -/
def applyAck (sm : StateMachine) (id : TaskID) (r : Ref) : StateMachine :=
  let sm₁ := sm.update r fun t => { t with status := .done }
  { sm₁ with tasks := sm₁.tasks.erase id, acked := sm₁.acked + 1 }

/-- The nack case of `apply`, for the live task `r`: it is dead-lettered once its
retries are used up. -/
def applyNack (sm : StateMachine) (id : TaskID) (r : Ref) : StateMachine :=
  let sm₁ := { sm with nacked := sm.nacked + 1 }.update r
    fun t => { t with retryCount := t.retryCount + 1 }
  if sm.maxRetries ≤ (sm₁.store r).retryCount then
    let sm₂ := sm₁.update r fun t => { t with status := .dead }
    { sm₂ with tasks := sm₂.tasks.erase id, dlq := sm₂.dlq ++ [r] }
  else sm₁.requeue r

/-- Execute one committed command. -/
def apply (sm : StateMachine) (op : QueueOp) : StateMachine :=
  match op.type with
  | .enqueue => op.task.elim sm sm.applyEnqueue
  | .ack => (sm.tasks.lookup op.taskID).elim sm (sm.applyAck op.taskID)
  | .nack => (sm.tasks.lookup op.taskID).elim sm (sm.applyNack op.taskID)
  | .dead => sm

/-- Whether a task taken from the heap is the live task of its identifier, and
pending. -/
def Deliverable (sm : StateMachine) (r : Ref) : Prop :=
  sm.tasks.lookup (sm.store r).id = some r ∧ (sm.store r).status = .pending

instance (sm : StateMachine) (r : Ref) : Decidable (sm.Deliverable r) :=
  inferInstanceAs (Decidable (_ ∧ _))

/-- The state after the heap's root `r` has been taken out, leaving `pq`. -/
def popped (sm : StateMachine) (r : Ref) (pq : List Ref) : StateMachine :=
  { sm with pq, inHeap := Function.update sm.inHeap (sm.store r).id false }

/-- Hand a task out. -/
def deliver (sm : StateMachine) (r : Ref) (deadline : Time) : StateMachine :=
  sm.update r fun t => { t with status := .inFlight, deadline }

/-- The loop of `dequeue`: it ends because every round takes one task from the heap. -/
def dequeueLoop (deadline : Time) : ℕ → StateMachine → Option Task × StateMachine
  | 0, sm => (none, sm)
  | fuel + 1, sm =>
    match Heap.pop sm.less sm.pq with
    | none => (none, sm)
    | some (r, pq) =>
      if sm.Deliverable r then
        let sm' := (sm.popped r pq).deliver r deadline
        (some (sm'.store r), sm')
      else dequeueLoop deadline fuel (sm.popped r pq)

/-- Hand out the pending task of the highest priority, skipping what is stale in the
heap; `deadline` is the time of the call plus the configured timeout. -/
def dequeue (sm : StateMachine) (deadline : Time) : Option Task × StateMachine :=
  sm.dequeueLoop deadline sm.pq.length

/-- Whether the task is live on this replica. -/
def has (sm : StateMachine) (id : TaskID) : Bool := (sm.tasks.lookup id).isSome

/-- The dead-lettered tasks, in the order of their deaths. -/
def listDLQ (sm : StateMachine) : List Task := sm.dlq.map sm.store

/-- One round of `requeueInFlight`. -/
def requeueIfInFlight (sm : StateMachine) (id : TaskID) : StateMachine :=
  match sm.tasks.lookup id with
  | some r => if (sm.store r).status = .inFlight then sm.requeue r else sm
  | none => sm

/-- Return every task in flight to pending, ranging over the live tasks in the given
order. -/
def requeueInFlight (sm : StateMachine) (order : List TaskID) : StateMachine :=
  order.foldl requeueIfInFlight sm

/-- The full queue state, the live tasks captured as pending and listed in the given
order. It is encoded, so that times have no monotonic readings. -/
def snapshot (sm : StateMachine) (order : List TaskID) : SnapshotState :=
  { tasks := (order.filterMap sm.tasks.lookup).map fun r =>
      { sm.store r with status := .pending, deadline := 0, mono := none }
    dlq := sm.dlq.map fun r => (sm.store r).written.val
    acked := sm.acked }

/-- One dead-lettered task of a snapshot. -/
def restoreDead (sm : StateMachine) (t : Task) : StateMachine :=
  let sm₁ := sm.alloc t
  { sm₁ with dlq := sm₁.dlq ++ [sm.next] }

/-- Replace all state from a snapshot. Decoding it has made fresh task objects. -/
def restore (sm : StateMachine) (st : SnapshotState) : StateMachine :=
  let sm₁ := st.tasks.foldl file
    { sm with tasks := ∅, pq := [], inHeap := fun _ => false, dlq := [], acked := st.acked }
  st.dlq.foldl restoreDead sm₁

/-! ### The live tasks -/

/-- The status of the live task of an identifier, if there is one. -/
def statusOf (sm : StateMachine) (id : TaskID) : Option TaskStatus :=
  (sm.tasks.lookup id).map fun r => (sm.store r).status

/-- Every live task has been allocated and is filed under its own identifier. -/
structure Keyed (sm : StateMachine) : Prop where
  id_eq : ∀ {id r}, sm.tasks.lookup id = some r → (sm.store r).id = id
  lt_next : ∀ {id r}, sm.tasks.lookup id = some r → r < sm.next

/-- A new machine has no tasks. -/
theorem keyed_newStateMachine (maxRetries : ℤ) : (newStateMachine maxRetries).Keyed := by
  constructor <;> intro id r h <;> cases h

/-- `Has` finds the tasks that have a status. -/
theorem has_iff : sm.has id = true ↔ ∃ s, sm.statusOf id = some s := by
  rw [has, statusOf, Option.isSome_iff_exists]
  constructor
  · rintro ⟨r, hr⟩
    exact ⟨_, by rw [hr]; rfl⟩
  · rintro ⟨s, hs⟩
    obtain ⟨r, hr, -⟩ := Option.map_eq_some_iff.mp hs
    exact ⟨r, hr⟩

@[simp] theorem pushLocked_tasks : (sm.pushLocked r).tasks = sm.tasks := by
  unfold pushLocked
  split <;> rfl

@[simp] theorem pushLocked_store : (sm.pushLocked r).store = sm.store := by
  unfold pushLocked
  split <;> rfl

@[simp] theorem pushLocked_next : (sm.pushLocked r).next = sm.next := by
  unfold pushLocked
  split <;> rfl

/-- Both views depend on the live map and on memory only. -/
theorem statusOf_congr (ht : sm'.tasks = sm.tasks) (hs : sm'.store = sm.store) :
    sm'.statusOf = sm.statusOf := by
  funext id
  rw [statusOf, statusOf, ht, hs]

/-- The heap and the counters have no part in it. -/
theorem Keyed.congr (h : sm.Keyed) (ht : sm'.tasks = sm.tasks) (hs : sm'.store = sm.store)
    (hn : sm.next ≤ sm'.next) : sm'.Keyed := by
  constructor
  · intro id r hr
    rw [hs]
    exact h.id_eq (ht ▸ hr)
  · intro id r hr
    exact Nat.lt_of_lt_of_le (h.lt_next (ht ▸ hr)) hn

/-- A live task is live under one identifier only. -/
theorem Keyed.lookup_inj (h : sm.Keyed) {id' : TaskID} (hr : sm.tasks.lookup id = some r)
    (hr' : sm.tasks.lookup id' = some r) : id = id' :=
  (h.id_eq hr).symm.trans (h.id_eq hr')

/-- A task may change in place, but for its identifier. -/
theorem Keyed.update {f : Task → Task} (h : sm.Keyed) (hf : ∀ t, (f t).id = t.id) :
    (sm.update r f).Keyed := by
  refine ⟨fun {id r'} hr' => ?_, h.lt_next⟩
  by_cases hrr : r' = r
  · subst hrr
    simp only [StateMachine.update, Function.update_self, hf]
    exact h.id_eq hr'
  · simp only [StateMachine.update, Function.update_of_ne hrr]
    exact h.id_eq hr'

/-- **The change of a task in place** is seen under its identifier only. -/
theorem statusOf_update {f : Task → Task} (h : sm.Keyed) (hr : sm.tasks.lookup id = some r) :
    (sm.update r f).statusOf = Function.update sm.statusOf id (some (f (sm.store r)).status) := by
  funext id'
  by_cases hid : id' = id
  · subst hid
    simp [statusOf, update, hr]
  · rw [Function.update_of_ne hid]
    refine Option.map_congr fun r' hr' => ?_
    have hrr : r' ≠ r := fun hrr => hid (h.lookup_inj hr' (hrr ▸ hr))
    simp [StateMachine.update, hrr]

/-- A task may be taken out. -/
theorem Keyed.erase {acked : ℤ} {dlq : List Ref} (h : sm.Keyed) (id : TaskID) :
    { sm with tasks := sm.tasks.erase id, acked, dlq }.Keyed :=
  ⟨fun hr => h.id_eq (lookup_erase_some hr).2, fun hr => h.lt_next (lookup_erase_some hr).2⟩

/-- What is taken out has no status any more. -/
theorem statusOf_erase {acked : ℤ} {dlq : List Ref} (sm : StateMachine) (id : TaskID) :
    { sm with tasks := sm.tasks.erase id, acked, dlq }.statusOf =
      Function.update sm.statusOf id none := by
  funext id'
  by_cases hid : id' = id
  · subst hid
    simp [statusOf]
  · rw [Function.update_of_ne hid]
    simp only [statusOf, AList.lookup_erase_ne hid]

/-- An allocation is not seen by the index. -/
theorem Keyed.alloc (h : sm.Keyed) : (sm.alloc t).Keyed := by
  constructor
  · intro id r hr
    have hne : r ≠ sm.next := Nat.ne_of_lt (h.lt_next hr)
    simp only [StateMachine.alloc, Function.update_of_ne hne]
    exact h.id_eq hr
  · intro id r hr
    exact Nat.lt_succ_of_lt (h.lt_next hr)

/-- A task that is allocated is not filed yet. -/
theorem statusOf_alloc (h : sm.Keyed) : (sm.alloc t).statusOf = sm.statusOf := by
  funext id
  refine Option.map_congr fun r hr => ?_
  have hne : r ≠ sm.next := Nat.ne_of_lt (h.lt_next hr)
  simp [StateMachine.alloc, hne]

/-- A new task is filed under its own identifier. -/
theorem Keyed.file (h : sm.Keyed) : (sm.file t).Keyed := by
  refine Keyed.congr ⟨?_, ?_⟩ pushLocked_tasks pushLocked_store (Nat.le_of_eq pushLocked_next.symm)
  · intro id r hr
    obtain ⟨rfl, rfl⟩ | ⟨-, hr⟩ := lookup_insert_some hr
    · simp [StateMachine.alloc]
    · exact (h.alloc (t := t)).id_eq hr
  · intro id r hr
    obtain ⟨-, rfl⟩ | ⟨-, hr⟩ := lookup_insert_some hr
    · exact Nat.lt_succ_self _
    · exact (h.alloc (t := t)).lt_next hr

/-- A filed task is live with the status it came with. -/
theorem statusOf_file (h : sm.Keyed) :
    (sm.file t).statusOf = Function.update sm.statusOf t.id (some t.status) := by
  rw [file, statusOf_congr pushLocked_tasks pushLocked_store, ← statusOf_alloc (t := t) h]
  funext id
  by_cases hid : id = t.id
  · subst hid
    simp [statusOf, alloc]
  · rw [Function.update_of_ne hid]
    simp only [statusOf, AList.lookup_insert_ne hid]

/-! ### What the methods do to the live tasks -/

/-- Requeueing a task keeps it where it is. -/
theorem Keyed.requeue (h : sm.Keyed) : (sm.requeue r).Keyed := by
  refine Keyed.congr (Keyed.update h ?_) pushLocked_tasks pushLocked_store
    (Nat.le_of_eq pushLocked_next.symm)
  exact fun t => rfl

/-- A task that is requeued is pending. -/
theorem statusOf_requeue (h : sm.Keyed) (hr : sm.tasks.lookup id = some r) :
    (sm.requeue r).statusOf = Function.update sm.statusOf id (some .pending) := by
  rw [requeue, statusOf_congr pushLocked_tasks pushLocked_store, statusOf_update h hr]

/-- A nack keeps the others where they are. -/
theorem Keyed.applyNack (h : sm.Keyed) : (sm.applyNack id r).Keyed := by
  have h₁ : { sm with nacked := sm.nacked + 1 }.Keyed := h.congr rfl rfl le_rfl
  unfold StateMachine.applyNack
  dsimp only
  split
  · refine Keyed.erase (Keyed.update (Keyed.update h₁ ?_) ?_) id <;> exact fun t => rfl
  · refine Keyed.requeue (Keyed.update h₁ ?_)
    exact fun t => rfl

/-- **A nacked task is pending again, or gone from the queue.** -/
theorem statusOf_applyNack (h : sm.Keyed) (hr : sm.tasks.lookup id = some r) :
    (sm.applyNack id r).statusOf = Function.update sm.statusOf id none ∨
      (sm.applyNack id r).statusOf = Function.update sm.statusOf id (some .pending) := by
  have h₁ : { sm with nacked := sm.nacked + 1 }.Keyed := h.congr rfl rfl le_rfl
  have h₂ := h₁.update (r := r) (f := fun t => { t with retryCount := t.retryCount + 1 })
    fun _ => rfl
  unfold applyNack
  dsimp only
  split
  · left
    rw [statusOf_erase, statusOf_update h₂ hr, statusOf_update h₁ hr]
    simp only [Function.update_idem]
    rfl
  · right
    rw [statusOf_requeue h₂ hr, statusOf_update h₁ hr]
    simp only [Function.update_idem]
    rfl

/-- **Every command keeps the tasks under their identifiers.** -/
theorem Keyed.apply (h : sm.Keyed) (op : QueueOp) : (sm.apply op).Keyed := by
  unfold StateMachine.apply
  split
  · cases op.task with
    | none => exact h
    | some t =>
      simp only [Option.elim_some, applyEnqueue]
      split
      · exact h
      · exact h.file
  · cases sm.tasks.lookup op.taskID with
    | none => exact h
    | some r =>
      refine Keyed.erase (Keyed.update h ?_) op.taskID
      exact fun t => rfl
  · cases sm.tasks.lookup op.taskID with
    | none => exact h
    | some r => exact h.applyNack
  · exact h

/-- **What a command does to the live tasks**: an enqueue makes a task live that was
not, an ack or a nack settles a live task, and everything else changes nothing. -/
theorem apply_cases (h : sm.Keyed) (op : QueueOp) :
    (∃ t, op.type = .enqueue ∧ op.task = some t ∧ sm.statusOf t.id = none ∧
      (sm.apply op).statusOf = Function.update sm.statusOf t.id (some .pending)) ∨
    (∃ s, (op.type = .ack ∧ s = none ∨ op.type = .nack ∧ (s = none ∨ s = some .pending)) ∧
      sm.statusOf op.taskID ≠ none ∧
      (sm.apply op).statusOf = Function.update sm.statusOf op.taskID s) ∨
    ((op.type = .ack ∨ op.type = .nack → sm.statusOf op.taskID = none) ∧
      (sm.apply op).statusOf = sm.statusOf) := by
  cases hty : op.type with
  | enqueue =>
    simp only [apply, hty]
    cases htask : op.task with
    | none => exact .inr (.inr ⟨by simp, rfl⟩)
    | some t =>
      simp only [Option.elim_some, applyEnqueue]
      split
      · exact .inr (.inr ⟨by simp, rfl⟩)
      · rename_i hnew
        obtain ⟨-, hnone⟩ := not_or.mp hnew
        refine .inl ⟨t, trivial, rfl, ?_, statusOf_file h⟩
        rw [statusOf, Option.not_isSome_iff_eq_none.mp hnone]
        rfl
  | ack =>
    simp only [apply, hty]
    cases hr : sm.tasks.lookup op.taskID with
    | none => exact .inr (.inr ⟨fun _ => by rw [statusOf, hr]; rfl, rfl⟩)
    | some r =>
      refine .inr (.inl ⟨none, .inl ⟨trivial, rfl⟩, by simp [statusOf, hr], ?_⟩)
      simp only [Option.elim_some, applyAck]
      rw [statusOf_erase, statusOf_update h hr]
      simp only [Function.update_idem]
  | nack =>
    simp only [apply, hty]
    cases hr : sm.tasks.lookup op.taskID with
    | none => exact .inr (.inr ⟨fun _ => by rw [statusOf, hr]; rfl, rfl⟩)
    | some r =>
      have hlive : sm.statusOf op.taskID ≠ none := by simp [statusOf, hr]
      obtain hs | hs := statusOf_applyNack h hr
      · exact .inr (.inl ⟨none, .inr ⟨trivial, .inl rfl⟩, hlive, hs⟩)
      · exact .inr (.inl ⟨some .pending, .inr ⟨trivial, .inr rfl⟩, hlive, hs⟩)
  | dead => exact .inr (.inr ⟨by simp, by simp only [apply, hty]⟩)

/-- No command puts a task in flight, and one that is in flight after an ack or a nack is
another's. -/
theorem statusOf_apply_inFlight (h : sm.Keyed) {op : QueueOp}
    (hid : (sm.apply op).statusOf id = some .inFlight) :
    sm.statusOf id = some .inFlight ∧ (op.type = .ack ∨ op.type = .nack → op.taskID ≠ id) := by
  obtain ⟨t, hty, -, -, heq⟩ | ⟨s, hs, -, heq⟩ | ⟨hnone, heq⟩ := apply_cases h op <;>
    rw [heq] at hid
  · refine ⟨?_, by simp [hty]⟩
    by_cases hne : id = t.id
    · subst hne
      simp at hid
    · rwa [Function.update_of_ne hne] at hid
  · by_cases hne : id = op.taskID
    · subst hne
      rw [Function.update_self] at hid
      subst hid
      simp at hs
    · rw [Function.update_of_ne hne] at hid
      exact ⟨hid, fun _ heq => hne heq.symm⟩
  · refine ⟨hid, ?_⟩
    rintro hty rfl
    rw [hnone hty] at hid
    cases hid

/-- The loop of `dequeue` takes tasks out of the heap, and hands out at most one, which
is the live task of its identifier. -/
theorem dequeueLoop_cases (deadline : Time) (fuel : ℕ) (sm : StateMachine) :
    ∃ pq inHeap, (sm.dequeueLoop deadline fuel = (none, { sm with pq, inHeap })) ∨
      ∃ r, sm.Deliverable r ∧ sm.dequeueLoop deadline fuel =
        (some { sm.store r with status := .inFlight, deadline },
          { sm with pq, inHeap }.deliver r deadline) := by
  induction fuel generalizing sm with
  | zero => exact ⟨sm.pq, sm.inHeap, .inl rfl⟩
  | succ fuel ih =>
    unfold dequeueLoop
    split
    · exact ⟨sm.pq, sm.inHeap, .inl rfl⟩
    · rename_i r pq hpop
      split
      · rename_i hr
        refine ⟨pq, (sm.popped r pq).inHeap, .inr ⟨r, hr, ?_⟩⟩
        simp [popped, deliver, update]
      · exact ih (sm.popped r pq)

theorem Keyed.deliver {deadline : Time} (h : sm.Keyed) : (sm.deliver r deadline).Keyed := by
  refine Keyed.update h ?_
  exact fun t => rfl

/-- A `Dequeue` keeps the tasks under their identifiers. -/
theorem Keyed.dequeue (h : sm.Keyed) (deadline : Time) : (sm.dequeue deadline).2.Keyed := by
  obtain ⟨pq, inHeap, heq | ⟨r, -, heq⟩⟩ := dequeueLoop_cases deadline sm.pq.length sm
  · rw [StateMachine.dequeue, heq]
    exact h.congr rfl rfl le_rfl
  · rw [StateMachine.dequeue, heq]
    exact Keyed.deliver (h.congr rfl rfl le_rfl)

/-- **What a dequeue does to the live tasks**: it takes the task it returns from pending
to in flight. -/
theorem statusOf_dequeue (h : sm.Keyed) (deadline : Time) :
    ((sm.dequeue deadline).1 = none ∧ (sm.dequeue deadline).2.statusOf = sm.statusOf) ∨
    ∃ t, (sm.dequeue deadline).1 = some t ∧ sm.statusOf t.id = some .pending ∧
      (sm.dequeue deadline).2.statusOf = Function.update sm.statusOf t.id (some .inFlight) := by
  obtain ⟨pq, inHeap, heq | ⟨r, ⟨hr, hs⟩, heq⟩⟩ := dequeueLoop_cases deadline sm.pq.length sm
  · rw [dequeue, heq]
    exact .inl ⟨rfl, rfl⟩
  · rw [dequeue, heq]
    have h' : { sm with pq, inHeap }.Keyed := h.congr rfl rfl le_rfl
    refine .inr ⟨_, rfl, ?_, statusOf_update h' hr⟩
    simp only [statusOf, hr, Option.map_some, hs]

theorem Keyed.requeueIfInFlight (h : sm.Keyed) : (sm.requeueIfInFlight id).Keyed := by
  unfold StateMachine.requeueIfInFlight
  split
  · split
    · exact h.requeue
    · exact h
  · exact h

/-- A task in flight becomes pending, and nothing else changes. -/
theorem statusOf_requeueIfInFlight (h : sm.Keyed) (id' : TaskID) :
    (sm.requeueIfInFlight id).statusOf id' =
      if id' = id ∧ sm.statusOf id' = some .inFlight then some .pending else sm.statusOf id' := by
  unfold requeueIfInFlight
  cases hr : sm.tasks.lookup id with
  | none =>
    have hnone : sm.statusOf id = none := by rw [statusOf, hr]; rfl
    rw [if_neg]
    rintro ⟨rfl, hs⟩
    rw [hnone] at hs
    cases hs
  | some r =>
    have hst : sm.statusOf id = some (sm.store r).status := by rw [statusOf, hr]; rfl
    dsimp only
    split
    · rename_i hin
      rw [statusOf_requeue h hr]
      by_cases hid : id' = id
      · subst hid
        rw [Function.update_self, if_pos ⟨rfl, by rw [hst, hin]⟩]
      · rw [Function.update_of_ne hid, if_neg fun h => hid h.1]
    · rename_i hin
      rw [if_neg]
      rintro ⟨rfl, hs⟩
      exact hin (Option.some.inj (hst.symm.trans hs))

/-- A reset of the overlay keeps the tasks under their identifiers. -/
theorem Keyed.requeueInFlight (h : sm.Keyed) (order : List TaskID) :
    (sm.requeueInFlight order).Keyed := by
  induction order generalizing sm with
  | nil => exact h
  | cons id order ih => exact ih h.requeueIfInFlight

/-- **What a loss of leadership does to the live tasks**: those in flight are pending
again. -/
theorem statusOf_requeueInFlight (h : sm.Keyed) {order : List TaskID} :
    (sm.requeueInFlight order).statusOf id =
      if id ∈ order ∧ sm.statusOf id = some .inFlight then some .pending else sm.statusOf id := by
  induction order generalizing sm with
  | nil => simp [requeueInFlight]
  | cons id' order ih =>
    rw [requeueInFlight, List.foldl_cons, ← requeueInFlight, ih h.requeueIfInFlight,
      statusOf_requeueIfInFlight h]
    by_cases hid : id = id'
    · subst hid
      by_cases hs : sm.statusOf id = some .inFlight <;> simp [hs]
    · simp [hid]

theorem Keyed.foldl_file (h : sm.Keyed) (l : List Task) : (l.foldl StateMachine.file sm).Keyed := by
  induction l generalizing sm with
  | nil => exact h
  | cons t l ih => exact ih h.file

/-- Tasks that are filed are pending. -/
theorem statusOf_foldl_file {l : List Task} (h : sm.Keyed) (hl : ∀ t ∈ l, t.status = .pending) :
    (l.foldl file sm).statusOf id =
      if id ∈ l.map Task.id then some .pending else sm.statusOf id := by
  induction l generalizing sm with
  | nil => simp
  | cons t l ih =>
    obtain ⟨ht, hl⟩ := List.forall_mem_cons.mp hl
    rw [List.foldl_cons, ih h.file hl, statusOf_file h, ht, List.map_cons]
    by_cases hmem : id ∈ l.map Task.id
    · rw [if_pos hmem, if_pos (List.mem_cons_of_mem _ hmem)]
    · by_cases hid : id = t.id
      · simp [hid]
      · rw [if_neg hmem, Function.update_of_ne hid, if_neg (by simp [hid, hmem])]

/-- The dead tasks of a snapshot are in no index. -/
theorem Keyed.foldl_restoreDead (h : sm.Keyed) (l : List Task) :
    (l.foldl restoreDead sm).Keyed ∧ (l.foldl restoreDead sm).statusOf = sm.statusOf := by
  induction l generalizing sm with
  | nil => exact ⟨h, rfl⟩
  | cons t l ih =>
    have h' : (sm.restoreDead t).Keyed := (h.alloc (t := t)).congr rfl rfl le_rfl
    obtain ⟨hkeyed, hstatus⟩ := ih h'
    exact ⟨hkeyed, hstatus.trans (statusOf_alloc h)⟩

/-- What `restore` starts from. -/
theorem keyed_cleared (sm : StateMachine) (acked : ℤ) :
    { sm with tasks := ∅, pq := [], inHeap := fun _ => false, dlq := [], acked }.Keyed := by
  constructor <;> intro id r h <;> cases h

/-- A restored machine has its tasks under their identifiers, whatever it was before. -/
theorem keyed_restore (sm : StateMachine) (st : SnapshotState) : (sm.restore st).Keyed :=
  (((keyed_cleared sm st.acked).foldl_file st.tasks).foldl_restoreDead st.dlq).1

/-- The live tasks after a snapshot has been restored are those of the snapshot. -/
theorem statusOf_restore {st : SnapshotState} (hst : ∀ t ∈ st.tasks, t.status = .pending) :
    (sm.restore st).statusOf id = if id ∈ st.tasks.map Task.id then some .pending else none := by
  have h := keyed_cleared sm st.acked
  rw [restore, ((h.foldl_file st.tasks).foldl_restoreDead st.dlq).2, statusOf_foldl_file h hst]
  rfl

/-- **A snapshot lists its live tasks as pending**, also those in flight. -/
theorem status_of_mem_snapshot {order : List TaskID} (ht : t ∈ (sm.snapshot order).tasks) :
    t.status = .pending := by
  obtain ⟨r, -, rfl⟩ := List.mem_map.mp ht
  rfl

theorem Keyed.filterMap_lookup (h : sm.Keyed) {order : List TaskID}
    (ho : ∀ id ∈ order, id ∈ sm.tasks) :
    (order.filterMap sm.tasks.lookup).map (fun r => (sm.store r).id) = order := by
  induction order with
  | nil => rfl
  | cons id order ih =>
    obtain ⟨hid, ho⟩ := List.forall_mem_cons.mp ho
    obtain ⟨r, hr⟩ := Option.isSome_iff_exists.mp (AList.lookup_isSome.mpr hid)
    simp only [List.filterMap_cons, hr, List.map_cons, ih ho, h.id_eq hr]

/-- A snapshot lists the live tasks. -/
theorem Keyed.snapshot_ids (h : sm.Keyed) {order : List TaskID}
    (ho : order.Perm sm.tasks.keys) : (sm.snapshot order).tasks.map Task.id = order := by
  have hids : (sm.snapshot order).tasks.map Task.id =
      (order.filterMap sm.tasks.lookup).map fun r => (sm.store r).id := by
    rw [snapshot, List.map_map]
    rfl
  rw [hids]
  exact h.filterMap_lookup fun id hid => AList.mem_keys.mpr (ho.mem_iff.mp hid)

/-- A snapshot lists every task once. -/
theorem Keyed.snapshot_proper (h : sm.Keyed) {order : List TaskID}
    (ho : order.Perm sm.tasks.keys) : (sm.snapshot order).Proper := by
  refine ⟨fun t ht => status_of_mem_snapshot ht, ?_⟩
  rw [h.snapshot_ids ho, ho.nodup_iff]
  exact sm.tasks.keys_nodup

end StateMachine

end Broker

end DistQueue
