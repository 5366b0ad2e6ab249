import DistQueue.Broker.StateMachine
import DistQueue.Run

/-!
# Every pending task can be delivered

The heap of a replica keeps stale tasks, and it decides by *identifier* whether a
task needs to be pushed. This file is about when the two go together: every live
pending task is in the heap, itself and once, so that a dequeue comes back empty only
if nothing is pending.

A run is any sequence of method calls on any number of replicas, where what is
restored is one of the snapshots the replicas have taken (`DistQueue.Broker.Fleet`).
The invariant `DistQueue.Broker.StateMachine.Valid` says where a live task is: in the
heap if it is pending, and if it is in flight the heap holds nothing of its
identifier. One method can break it. An enqueue of an identifier that is not live, but
of which an acked or dead-lettered task still sits in the heap, files the new task and
does not push it (`DistQueue.Broker.reenqueue_undeliverable`). Runs without such an
enqueue keep the invariant (`DistQueue.Broker.pending_deliverable`).
-/

namespace DistQueue

namespace Broker

namespace StateMachine

variable {sm sm' : StateMachine} {r r' : Ref} {id : TaskID} {t : Task} {f : Task → Task}

/-! ### The heap and its record -/

/-- The record of what is in the heap is right: the heap holds allocated tasks with
different identifiers, and `inHeap` marks these identifiers. -/
structure Recorded (sm : StateMachine) : Prop where
  inHeap_iff : ∀ id, sm.inHeap id = true ↔ ∃ r ∈ sm.pq, (sm.store r).id = id
  nodup : (sm.pq.map fun r => (sm.store r).id).Nodup
  lt_next : ∀ r ∈ sm.pq, r < sm.next

/-- Only the identifiers of the tasks matter. -/
theorem Recorded.congr (h : sm.Recorded) (hpq : sm'.pq = sm.pq) (hin : sm'.inHeap = sm.inHeap)
    (hid : ∀ r ∈ sm.pq, (sm'.store r).id = (sm.store r).id) (hn : sm.next ≤ sm'.next) :
    sm'.Recorded := by
  constructor
  · intro id
    rw [hin, hpq, h.inHeap_iff]
    exact exists_congr fun r => and_congr_right fun hr => by rw [hid r hr]
  · rw [hpq, List.map_congr_left hid]
    exact h.nodup
  · intro r hr
    exact Nat.lt_of_lt_of_le (h.lt_next r (hpq ▸ hr)) hn

theorem update_store_id (hf : ∀ t, (f t).id = t.id) (r' : Ref) :
    ((sm.update r f).store r').id = (sm.store r').id := by
  by_cases hr : r' = r
  · subst hr
    simp [update, hf]
  · simp [update, hr]

/-- The record of what is in the heap is by identifiers, and these stay. -/
theorem Recorded.update (h : sm.Recorded) (hf : ∀ t, (f t).id = t.id) :
    (sm.update r f).Recorded :=
  h.congr rfl rfl (fun r' _ => update_store_id hf r') le_rfl

/-- A task that is allocated is not in the heap yet. -/
theorem Recorded.alloc (h : sm.Recorded) : (sm.alloc t).Recorded := by
  refine h.congr rfl rfl (fun r hr => ?_) (Nat.le_succ _)
  simp [StateMachine.alloc, Nat.ne_of_lt (h.lt_next r hr)]

/-- A push marks the identifier, whether or not it was marked before. -/
@[simp] theorem pushLocked_inHeap :
    (sm.pushLocked r).inHeap = Function.update sm.inHeap (sm.store r).id true := by
  unfold pushLocked
  split
  · rename_i hin
    exact (Function.update_eq_self_iff.mpr hin.symm).symm
  · rfl

/-- **A push adds the task only if its identifier is not marked.** -/
theorem mem_pushLocked_pq :
    r' ∈ (sm.pushLocked r).pq ↔ r' ∈ sm.pq ∨ r' = r ∧ sm.inHeap (sm.store r).id = false := by
  unfold pushLocked
  split
  · rename_i hin
    simp [hin]
  · rename_i hin
    simp only [(Heap.push_perm _ _).mem_iff, List.mem_cons, hin, and_true]
    exact or_comm

/-- A push keeps the record. -/
theorem Recorded.pushLocked (h : sm.Recorded) (hr : r < sm.next) : (sm.pushLocked r).Recorded := by
  refine ⟨fun id => ?_, ?_, fun r' hr' => ?_⟩
  · simp only [pushLocked_inHeap, pushLocked_store, mem_pushLocked_pq]
    by_cases hid : id = (sm.store r).id
    · subst hid
      simp only [Function.update_self, true_iff]
      cases hin : sm.inHeap (sm.store r).id with
      | true =>
        obtain ⟨r', hr', hid⟩ := (h.inHeap_iff _).mp hin
        exact ⟨r', .inl hr', hid⟩
      | false => exact ⟨r, .inr ⟨rfl, rfl⟩, rfl⟩
    · rw [Function.update_of_ne hid, h.inHeap_iff]
      constructor
      · rintro ⟨r', hr', rfl⟩
        exact ⟨r', .inl hr', rfl⟩
      · rintro ⟨r', hr' | ⟨rfl, -⟩, rfl⟩
        · exact ⟨r', hr', rfl⟩
        · exact absurd rfl hid
  · unfold StateMachine.pushLocked
    split
    · exact h.nodup
    · rename_i hin
      rw [((Heap.push_perm _ _).map _).nodup_iff, List.map_cons, List.nodup_cons]
      refine ⟨fun hmem => hin ?_, h.nodup⟩
      obtain ⟨r', hr', hid⟩ := List.mem_map.mp hmem
      exact (h.inHeap_iff _).mpr ⟨r', hr', hid⟩
  · rw [pushLocked_next]
    obtain hr' | ⟨rfl, -⟩ := mem_pushLocked_pq.mp hr'
    · exact h.lt_next r' hr'
    · exact hr

/-- Taking a task out of the heap takes its identifier out of the record. -/
theorem Recorded.popped (h : sm.Recorded) {pq : List Ref}
    (hpop : Heap.pop sm.less sm.pq = some (r, pq)) : (sm.popped r pq).Recorded := by
  have hperm := Heap.perm_of_pop hpop
  have hnodup := (hperm.map fun r => (sm.store r).id).nodup_iff.mp h.nodup
  rw [List.map_cons, List.nodup_cons] at hnodup
  refine ⟨fun id => ?_, hnodup.2, fun r' hr' => h.lt_next r' ?_⟩
  · by_cases hid : id = (sm.store r).id
    · subst hid
      simp only [StateMachine.popped, Function.update_self, Bool.false_eq_true, false_iff]
      rintro ⟨r', hr', hid⟩
      exact hnodup.1 (List.mem_map.mpr ⟨r', hr', hid⟩)
    · simp only [StateMachine.popped, Function.update_of_ne hid, h.inHeap_iff, hperm.mem_iff,
        List.mem_cons]
      constructor
      · rintro ⟨r', rfl | hr', rfl⟩
        · exact absurd rfl hid
        · exact ⟨r', hr', rfl⟩
      · rintro ⟨r', hr', rfl⟩
        exact ⟨r', .inr hr', rfl⟩
  · exact hperm.mem_iff.mpr (List.mem_cons_of_mem _ hr')

/-! ### Where the live tasks are -/

/-- **The invariant**: a live task is in the heap if it is pending, and if it is in
flight the heap holds nothing of its identifier. -/
structure Valid (sm : StateMachine) : Prop where
  keyed : sm.Keyed
  recorded : sm.Recorded
  placed : ∀ {id r}, sm.tasks.lookup id = some r →
    (sm.store r).status = .pending ∧ r ∈ sm.pq ∨
      (sm.store r).status = .inFlight ∧ sm.inHeap id = false

/-- A new machine is valid: there is nothing to deliver. -/
theorem valid_newStateMachine (maxRetries : ℤ) : (newStateMachine maxRetries).Valid := by
  refine ⟨keyed_newStateMachine maxRetries, ⟨fun id => ?_, ?_, ?_⟩, ?_⟩
  · simp [newStateMachine]
  · exact List.nodup_nil
  · intro r hr
    cases hr
  · intro id r hr
    cases hr

theorem Valid.congr (h : sm.Valid) (ht : sm'.tasks = sm.tasks) (hs : sm'.store = sm.store)
    (hn : sm'.next = sm.next) (hpq : sm'.pq = sm.pq) (hin : sm'.inHeap = sm.inHeap) :
    sm'.Valid := by
  refine ⟨h.keyed.congr ht hs (Nat.le_of_eq hn.symm),
    h.recorded.congr hpq hin (fun r _ => by rw [hs]) (Nat.le_of_eq hn.symm), ?_⟩
  intro id r hr
  rw [hs, hpq, hin]
  exact h.placed (ht ▸ hr)

/-- Changing what neither the heap nor the lifecycle depends on. -/
theorem Valid.update (h : sm.Valid) (hf : ∀ t, (f t).id = t.id)
    (hfs : ∀ t, (f t).status = t.status) : (sm.update r f).Valid := by
  refine ⟨h.keyed.update hf, h.recorded.update hf, fun {id r'} hr' => ?_⟩
  have hst : ((sm.update r f).store r').status = (sm.store r').status := by
    by_cases hrr : r' = r
    · subst hrr
      simp [StateMachine.update, hfs]
    · simp [StateMachine.update, hrr]
  rw [hst]
  exact h.placed hr'

/-- A task leaves the queue; what is left of it in the heap is stale. -/
theorem Valid.erase {acked : ℤ} {dlq : List Ref} (h : sm.Valid) (hr : sm.tasks.lookup id = some r)
    (hf : ∀ t, (f t).id = t.id) :
    { sm.update r f with tasks := (sm.update r f).tasks.erase id, acked, dlq }.Valid := by
  refine ⟨(h.keyed.update hf).erase id, (h.recorded.update (r := r) hf).congr rfl rfl
    (fun _ _ => rfl) le_rfl, fun {id' r'} hr' => ?_⟩
  obtain ⟨hid, hr''⟩ := lookup_erase_some hr'
  have hrr : r' ≠ r := fun hrr => hid (h.keyed.lookup_inj hr'' (hrr ▸ hr))
  simp only [StateMachine.update, Function.update_of_ne hrr]
  exact h.placed hr''

/-- A live task becomes pending and is in the heap, whether it was there or not. -/
theorem Valid.requeue (h : sm.Valid) (hr : sm.tasks.lookup id = some r) : (sm.requeue r).Valid := by
  have hid : (sm.store r).id = id := h.keyed.id_eq hr
  refine ⟨h.keyed.requeue, ?_, fun {id' r'} hr' => ?_⟩
  · refine (Recorded.update h.recorded ?_).pushLocked (h.keyed.lt_next hr)
    exact fun t => rfl
  · have hr'' : sm.tasks.lookup id' = some r' := by
      rw [StateMachine.requeue, pushLocked_tasks] at hr'
      exact hr'
    simp only [StateMachine.requeue, pushLocked_store, pushLocked_inHeap, mem_pushLocked_pq,
      StateMachine.update]
    by_cases hrr : r' = r
    · subst hrr
      simp only [Function.update_self, true_and, hid]
      obtain ⟨-, hmem⟩ | ⟨-, hout⟩ := h.placed hr
      · exact .inl (.inl hmem)
      · exact .inl (.inr hout)
    · have hne : id' ≠ id := by
        rintro rfl
        exact hrr (Option.some.inj (hr''.symm.trans hr))
      simp only [Function.update_of_ne hrr, Function.update_self, hid, Function.update_of_ne hne,
        hrr, false_and, or_false]
      exact h.placed hr''

/-- A new task is filed and pushed, if the heap holds nothing of its identifier. -/
theorem Valid.file (h : sm.Valid) (ht : t.status = .pending) (hout : sm.inHeap t.id = false) :
    (sm.file t).Valid := by
  refine ⟨h.keyed.file, ?_, fun {id r} hr => ?_⟩
  · have h₁ : { sm.alloc t with tasks := (sm.alloc t).tasks.insert t.id sm.next }.Recorded :=
      (h.recorded.alloc (t := t)).congr rfl rfl (fun _ _ => rfl) le_rfl
    exact h₁.pushLocked (Nat.lt_succ_self _)
  · simp only [StateMachine.file, pushLocked_tasks] at hr
    simp only [StateMachine.file, pushLocked_store, pushLocked_inHeap, mem_pushLocked_pq,
      StateMachine.alloc, Function.update_self]
    obtain ⟨rfl, rfl⟩ | ⟨hid, hr⟩ := lookup_insert_some hr
    · exact .inl ⟨by simp [ht], .inr ⟨rfl, hout⟩⟩
    · have hne : r ≠ sm.next := Nat.ne_of_lt (h.keyed.lt_next hr)
      simp only [Function.update_of_ne hne, Function.update_of_ne hid, hne, false_and, or_false]
      exact h.placed hr

/-! ### The methods keep the invariant -/

/-- The enqueues that find nothing stale: if the identifier is not live, the heap holds
nothing of it. -/
def CleanEnqueue (sm : StateMachine) (op : QueueOp) : Prop :=
  op.type = .enqueue → ∀ t ∈ op.task, t.id ≠ "" → sm.has t.id = false → sm.inHeap t.id = false

instance (sm : StateMachine) (op : QueueOp) : Decidable (sm.CleanEnqueue op) :=
  inferInstanceAs (Decidable (_ → _))

/-- A task that is nacked is deliverable again, or dead. -/
theorem Valid.applyNack (h : sm.Valid) (hr : sm.tasks.lookup id = some r) :
    (sm.applyNack id r).Valid := by
  have h₁ : { sm with nacked := sm.nacked + 1 }.Valid := h.congr rfl rfl rfl rfl rfl
  have h₂ := h₁.update (r := r) (f := fun t => { t with retryCount := t.retryCount + 1 })
    (fun _ => rfl) fun _ => rfl
  unfold StateMachine.applyNack
  dsimp only
  split
  · refine Valid.erase h₂ hr ?_
    exact fun t => rfl
  · exact h₂.requeue hr

/-- **Every command keeps the machine valid**, unless it enqueues a task that is marked as in the
heap. -/
theorem Valid.apply (h : sm.Valid) {op : QueueOp} (hop : sm.CleanEnqueue op) :
    (sm.apply op).Valid := by
  cases hty : op.type with
  | enqueue =>
    simp only [StateMachine.apply, hty]
    cases htask : op.task with
    | none => exact h
    | some t =>
      simp only [Option.elim_some, applyEnqueue]
      split
      · exact h
      · rename_i hnew
        obtain ⟨hne, hnone⟩ := not_or.mp hnew
        refine Valid.file h rfl (hop hty t htask hne ?_)
        rwa [Bool.not_eq_true] at hnone
  | ack =>
    simp only [StateMachine.apply, hty]
    cases hr : sm.tasks.lookup op.taskID with
    | none => exact h
    | some r =>
      refine Valid.erase h hr ?_
      exact fun t => rfl
  | nack =>
    simp only [StateMachine.apply, hty]
    cases hr : sm.tasks.lookup op.taskID with
    | none => exact h
    | some r => exact h.applyNack hr
  | dead =>
    simp only [StateMachine.apply, hty]
    exact h

/-- A stale task may leave the heap. -/
theorem Valid.popped (h : sm.Valid) {pq : List Ref}
    (hpop : Heap.pop sm.less sm.pq = some (r, pq)) (hr : ¬sm.Deliverable r) :
    (sm.popped r pq).Valid := by
  refine ⟨h.keyed.congr rfl rfl le_rfl, h.recorded.popped hpop, fun {id r'} hr' => ?_⟩
  simp only [StateMachine.popped]
  obtain ⟨hs, hmem⟩ | ⟨hs, hout⟩ := h.placed hr'
  · refine .inl ⟨hs, ?_⟩
    obtain rfl | hmem := List.mem_cons.mp ((Heap.perm_of_pop hpop).mem_iff.mp hmem)
    · refine absurd ⟨?_, hs⟩ hr
      rw [h.keyed.id_eq hr']
      exact hr'
    · exact hmem
  · refine .inr ⟨hs, ?_⟩
    by_cases hid : id = (sm.store r).id
    · rw [hid, Function.update_self]
    · rw [Function.update_of_ne hid, hout]

/-- The task that is handed out was in the heap once, so nothing of its identifier is
left there. -/
theorem Valid.deliver (h : sm.Valid) {pq : List Ref} {deadline : Time}
    (hpop : Heap.pop sm.less sm.pq = some (r, pq)) (hr : sm.Deliverable r) :
    ((sm.popped r pq).deliver r deadline).Valid := by
  have hlive := hr.1
  refine ⟨Keyed.deliver (h.keyed.congr rfl rfl le_rfl), ?_, fun {id r'} hr' => ?_⟩
  · refine Recorded.update (h.recorded.popped hpop) ?_
    exact fun t => rfl
  · simp only [StateMachine.deliver, StateMachine.update, StateMachine.popped]
    by_cases hrr : r' = r
    · subst hrr
      refine .inr ⟨by simp, ?_⟩
      rw [← h.keyed.id_eq hr', Function.update_self]
    · have hne : id ≠ (sm.store r).id := by
        rintro rfl
        exact hrr (Option.some.inj (hr'.symm.trans hlive))
      simp only [Function.update_of_ne hrr, Function.update_of_ne hne]
      obtain ⟨hs, hmem⟩ | hout := h.placed hr'
      · have hmem := List.mem_cons.mp ((Heap.perm_of_pop hpop).mem_iff.mp hmem)
        exact .inl ⟨hs, hmem.resolve_left hrr⟩
      · exact .inr hout

/-- The loop of `dequeue` keeps the invariant, and comes back empty only with the heap
emptied. -/
theorem Valid.dequeueLoop (deadline : Time) {fuel : ℕ} (h : sm.Valid)
    (hfuel : sm.pq.length ≤ fuel) :
    (sm.dequeueLoop deadline fuel).2.Valid ∧
      ((sm.dequeueLoop deadline fuel).1 = none → (sm.dequeueLoop deadline fuel).2.pq = []) := by
  induction fuel generalizing sm with
  | zero => exact ⟨h, fun _ => List.length_eq_zero_iff.mp (Nat.le_zero.mp hfuel)⟩
  | succ fuel ih =>
    unfold StateMachine.dequeueLoop
    split
    · rename_i hpop
      exact ⟨h, fun _ => Heap.pop_eq_none.mp hpop⟩
    · rename_i r pq hpop
      split
      · rename_i hr
        exact ⟨h.deliver hpop hr, fun hnone => by cases hnone⟩
      · rename_i hr
        refine ih (h.popped hpop hr) ?_
        have := Heap.length_of_pop hpop
        simp only [StateMachine.popped]
        omega

/-- A dequeue comes back empty only if no live task is pending. -/
theorem Valid.statusOf_ne_pending {deadline : Time} (h : sm.Valid)
    (hnone : (sm.dequeue deadline).1 = none) (id : TaskID) : sm.statusOf id ≠ some .pending := by
  obtain ⟨hvalid, hempty⟩ := h.dequeueLoop deadline le_rfl
  obtain ⟨-, hsame⟩ | ⟨t, hsome, -⟩ := statusOf_dequeue h.keyed deadline
  · rw [← hsame]
    intro hs
    obtain ⟨r, hr, hst⟩ := Option.map_eq_some_iff.mp hs
    obtain ⟨-, hmem⟩ | ⟨hst', -⟩ := hvalid.placed hr
    · rw [hempty hnone] at hmem
      cases hmem
    · rw [dequeue, hst'] at hst
      cases hst
  · rw [hnone] at hsome
    cases hsome

/-- A live pending task is in the heap once. -/
theorem Valid.count_pq (h : sm.Valid) (hr : sm.tasks.lookup id = some r)
    (hs : (sm.store r).status = .pending) : sm.pq.count r = 1 := by
  obtain ⟨-, hmem⟩ | ⟨hs', -⟩ := h.placed hr
  · exact List.count_eq_one_of_mem (h.recorded.nodup.of_map _) hmem
  · rw [hs] at hs'
    cases hs'

/-- After a reset of the overlay every live task is deliverable. -/
theorem Valid.requeueInFlight (h : sm.Valid) (order : List TaskID) :
    (sm.requeueInFlight order).Valid := by
  induction order generalizing sm with
  | nil => exact h
  | cons id order ih =>
    refine ih ?_
    unfold requeueIfInFlight
    split
    · rename_i hr
      split
      · exact h.requeue hr
      · exact h
    · exact h

theorem file_inHeap_of_ne (hid : id ≠ t.id) : (sm.file t).inHeap id = sm.inHeap id := by
  simp [file, alloc, hid]

/-- The live tasks of a snapshot are filed one after the other. -/
theorem Valid.foldl_file {l : List Task} (h : sm.Valid) (hl : ∀ t ∈ l, t.status = .pending)
    (hnodup : (l.map Task.id).Nodup) (hout : ∀ t ∈ l, sm.inHeap t.id = false) :
    (l.foldl StateMachine.file sm).Valid := by
  induction l generalizing sm with
  | nil => exact h
  | cons t l ih =>
    obtain ⟨ht, hl⟩ := List.forall_mem_cons.mp hl
    obtain ⟨hout₁, hout⟩ := List.forall_mem_cons.mp hout
    obtain ⟨hnew, hnodup⟩ := List.nodup_cons.mp hnodup
    refine ih (h.file ht hout₁) hl hnodup fun u hu => ?_
    rw [file_inHeap_of_ne fun huv => hnew (huv ▸ List.mem_map_of_mem hu)]
    exact hout u hu

/-- The dead ones do not matter to it. -/
theorem Valid.foldl_restoreDead (h : sm.Valid) (l : List Task) :
    (l.foldl restoreDead sm).Valid := by
  induction l generalizing sm with
  | nil => exact h
  | cons t l ih =>
    have halloc : (sm.alloc t).Valid := by
      refine ⟨h.keyed.alloc, h.recorded.alloc, fun {id r} hr => ?_⟩
      have hne : r ≠ sm.next := Nat.ne_of_lt (h.keyed.lt_next hr)
      simp only [alloc, Function.update_of_ne hne]
      exact h.placed hr
    exact ih (halloc.congr rfl rfl rfl rfl rfl)

/-- **A machine that restores a snapshot is valid**, whatever it was before. -/
theorem valid_restore (sm : StateMachine) {st : SnapshotState} (hst : st.Proper) :
    (sm.restore st).Valid := by
  refine Valid.foldl_restoreDead (Valid.foldl_file ?_ hst.pending hst.nodup fun t _ => rfl) st.dlq
  refine ⟨keyed_cleared sm st.acked, ⟨fun id => ?_, List.nodup_nil, ?_⟩, ?_⟩
  · simp
  · intro r hr
    cases hr
  · intro id r hr
    cases hr

end StateMachine

/-! ### Runs of the replicas -/

/-- The replicas of a queue, and the snapshots they have taken. -/
structure Fleet where
  machine : ℕ → StateMachine
  taken : List SnapshotState

/-- A method call on one replica. The order is that in which the method ranges over the
live tasks; a restore names one of the snapshots taken. -/
inductive FleetOp
  | apply (i : ℕ) (op : QueueOp)
  | dequeue (i : ℕ) (deadline : Time)
  | requeueInFlight (i : ℕ) (order : List TaskID)
  | snapshot (i : ℕ) (order : List TaskID)
  | restore (i k : ℕ)

namespace Fleet

/-- Every replica is new, and nothing has been proposed. -/
def start (maxRetries : ℤ) : Fleet := ⟨fun _ => newStateMachine maxRetries, []⟩

/-- Replace the state of one replica. -/
def setMachine (f : Fleet) (i : ℕ) (sm : StateMachine) : Fleet :=
  { f with machine := Function.update f.machine i sm }

/-- One method call. -/
def step (f : Fleet) : FleetOp → Option Fleet
  | .apply i op => some (f.setMachine i ((f.machine i).apply op))
  | .dequeue i deadline => some (f.setMachine i ((f.machine i).dequeue deadline).2)
  | .requeueInFlight i order =>
    if order.Perm (f.machine i).tasks.keys then
      some (f.setMachine i ((f.machine i).requeueInFlight order))
    else none
  | .snapshot i order =>
    if order.Perm (f.machine i).tasks.keys then
      some { f with taken := f.taken ++ [(f.machine i).snapshot order] }
    else none
  | .restore i k => (f.taken[k]?).map fun st => f.setMachine i ((f.machine i).restore st)

/-- No call enqueues an identifier that is not live and of which the heap still holds a
task. -/
def Clean (f : Fleet) : FleetOp → Prop
  | .apply i op => (f.machine i).CleanEnqueue op
  | _ => True

instance (f : Fleet) (x : FleetOp) : Decidable (f.Clean x) := by
  cases x <;> dsimp only [Fleet.Clean] <;> infer_instance

/-- Every replica keeps its invariant, and every snapshot taken is a proper one. -/
structure Valid (f : Fleet) : Prop where
  machine : ∀ i, (f.machine i).Valid
  taken : ∀ st ∈ f.taken, st.Proper

theorem Valid.setMachine {f : Fleet} (h : f.Valid) {i : ℕ} {sm : StateMachine} (hsm : sm.Valid) :
    (f.setMachine i sm).Valid := by
  refine ⟨fun j => ?_, h.taken⟩
  by_cases hj : j = i
  · subst hj
    simpa [Fleet.setMachine] using hsm
  · simpa [Fleet.setMachine, hj] using h.machine j

/-- **Every operation of the fleet keeps all its machines valid.** -/
theorem Valid.step {f f' : Fleet} {x : FleetOp} (h : f.Valid) (hx : f.Clean x)
    (hstep : f.step x = some f') : f'.Valid := by
  cases x with
  | apply i op =>
    cases hstep
    exact h.setMachine ((h.machine i).apply hx)
  | dequeue i deadline =>
    cases hstep
    exact h.setMachine ((h.machine i).dequeueLoop _ le_rfl).1
  | requeueInFlight i order =>
    simp only [Fleet.step, Option.ite_none_right_eq_some, Option.some.injEq] at hstep
    obtain ⟨-, rfl⟩ := hstep
    exact h.setMachine ((h.machine i).requeueInFlight order)
  | snapshot i order =>
    simp only [Fleet.step, Option.ite_none_right_eq_some, Option.some.injEq] at hstep
    obtain ⟨ho, rfl⟩ := hstep
    refine ⟨h.machine, fun st hst => ?_⟩
    obtain hst | hst := List.mem_append.mp hst
    · exact h.taken st hst
    · rw [List.mem_singleton.mp hst]
      exact (h.machine i).keyed.snapshot_proper ho
  | restore i k =>
    obtain ⟨st, hst, rfl⟩ := Option.map_eq_some_iff.mp hstep
    exact h.setMachine (StateMachine.valid_restore _ (h.taken st (List.mem_of_getElem? hst)))

end Fleet

/-- **Every pending task can be delivered.** In a run whose enqueues all find nothing
stale of their identifier in the heap, every live pending task is in the heap once, and
a dequeue comes back empty only if no live task is pending. -/
theorem pending_deliverable {maxRetries : ℤ} {ops : List FleetOp} {f : Fleet}
    (hclean : Run.Guarded Fleet.step Fleet.Clean (Fleet.start maxRetries) ops)
    (h : Run.exec Fleet.step (Fleet.start maxRetries) ops = some f) (i : ℕ) :
    (∀ id r, (f.machine i).tasks.lookup id = some r →
      ((f.machine i).store r).status = .pending → (f.machine i).pq.count r = 1) ∧
    ∀ deadline, ((f.machine i).dequeue deadline).1 = none →
      ∀ id, (f.machine i).statusOf id ≠ some .pending := by
  have hstart : (Fleet.start maxRetries).Valid :=
    ⟨fun _ => StateMachine.valid_newStateMachine maxRetries, fun st hst => by cases hst⟩
  have hvalid :=
    (Run.invariant_of_guarded hstart (fun u x u' => Fleet.Valid.step) hclean h).machine i
  exact ⟨fun id r hr hs => hvalid.count_pq hr hs,
    fun deadline hnone id => hvalid.statusOf_ne_pending hnone id⟩

/-- A replica on which a task is delivered and acked and then enqueued anew, next to one
that it is nacked on and that is restored from a snapshot. -/
def reuseAfterDelivery : List FleetOp :=
  [.apply 0 (.enqueue (.named "a")), .apply 1 (.enqueue (.named "a")), .dequeue 0 10,
    .apply 0 (.ack "a"),
    .apply 0 (.enqueue (.named "a")), .dequeue 1 10, .apply 1 (.nack "a"), .snapshot 0 ["a"],
    .restore 1 0]

theorem pending_deliverable_reuse :
    ∃ f, Run.exec Fleet.step (Fleet.start 3) reuseAfterDelivery = some f ∧
      (f.machine 1).pq.count 1 = 1 ∧ ((f.machine 1).dequeue 20).1 ≠ none := by
  obtain ⟨f, hf⟩ : ∃ f, Run.exec Fleet.step (Fleet.start 3) reuseAfterDelivery = some f := ⟨_, rfl⟩
  have hclean : Run.Guarded Fleet.step Fleet.Clean (Fleet.start 3) reuseAfterDelivery := by
    decide +kernel
  have hlive : (Run.exec Fleet.step (Fleet.start 3) reuseAfterDelivery).map (fun f =>
      ((f.machine 1).tasks.lookup "a", ((f.machine 1).store 1).status,
        (f.machine 1).statusOf "a")) = some (some 1, .pending, some .pending) := by
    decide +kernel
  simp only [hf, Option.map_some, Option.some.injEq, Prod.mk.injEq] at hlive
  obtain ⟨hlookup, hstatus, hpending⟩ := hlive
  obtain ⟨hcount, hempty⟩ := pending_deliverable hclean hf 1
  exact ⟨f, hf, hcount "a" 1 hlookup hstatus, fun hnone => hempty 20 hnone "a" hpending⟩

/-- **A re-enqueued task can get lost.** The task "a" is acked while it waits in the heap
and then enqueued again: the new task is live and pending, the heap holds only the old
one, and the dequeue that skips the old one finds nothing. -/
theorem reenqueue_undeliverable :
    ∃ f, Run.exec Fleet.step (Fleet.start 3)
        [.apply 0 (.enqueue (.named "a")), .apply 0 (.ack "a"),
          .apply 0 (.enqueue (.named "a"))] = some f ∧
      (f.machine 0).tasks.lookup "a" = some 1 ∧ ((f.machine 0).store 1).status = .pending ∧
      (f.machine 0).pq.count 1 = 0 ∧ ((f.machine 0).dequeue 10).1 = none :=
  ⟨_, rfl, by decide +kernel, by decide +kernel, by decide +kernel, by decide +kernel⟩

end Broker

end DistQueue
