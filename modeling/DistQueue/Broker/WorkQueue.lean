import DistQueue.Broker.StateMachine

/-!
# What a queue does

The queue as its clients know it (`DistQueue.Broker.WorkQueue`): a heap of pending tasks, the tasks
in flight, the tasks that were given up, and two counters, with the calls that change them
(`DistQueue.Broker.WorkQueue.Next`). It has neither a log nor addresses, and the tasks in flight
are in no particular order.

The replicated queue of `DistQueue.Broker.StateMachine` is an implementation of it
(`DistQueue.Broker.StateMachine.Implements.call`), as long as tasks are acked and nacked while
they are in flight only: then there is nothing stale in its heap, which is laid out just as
the queue's is, address for task.
-/

namespace DistQueue

namespace Broker

/-- **A work queue**, as the two modes are meant to implement it: the pending tasks, the tasks
that workers hold, and the dead ones. -/
structure WorkQueue where
  pq : List Task
  inFlight : List Task
  /-- In the order of their deaths. -/
  dlq : List Task
  /-- Lifetime acks. -/
  acked : ℤ
  /-- Lifetime nacks and timeouts. -/
  nacked : ℤ

namespace WorkQueue

/-- Nothing has been enqueued yet. -/
def empty : WorkQueue := ⟨[], [], [], 0, 0⟩

/-- The tasks that are live. -/
def live (q : WorkQueue) : List Task := q.pq ++ q.inFlight

/-- What is asked of a queue. A timeout is a nack that nobody has sent. -/
inductive Call
  | enqueue (t : Task)
  | dequeue (deadline : Time)
  | ack (id : TaskID)
  | nack (id : TaskID)

variable {q q' : WorkQueue} {maxRetries : ℤ} {c : Call} {res : Option Task}

/-- **What a call does**, and what it returns. -/
inductive Next (maxRetries : ℤ) (q : WorkQueue) : Call → Option Task → WorkQueue → Prop
  | enqueue (t : Task) (hid : t.id ≠ "") (hnew : t.id ∉ q.live.map Task.id)
      (hstatus : t.status = .pending) :
      Next maxRetries q (.enqueue t) none { q with pq := Heap.push Task.less q.pq t }
  | empty (deadline : Time) (hpop : Heap.pop Task.less q.pq = none) :
      Next maxRetries q (.dequeue deadline) none q
  | dequeue (deadline : Time) (t : Task) (pq : List Task)
      (hpop : Heap.pop Task.less q.pq = some (t, pq)) :
      Next maxRetries q (.dequeue deadline) (some { t with status := .inFlight, deadline })
        { q with pq, inFlight := { t with status := .inFlight, deadline } :: q.inFlight }
  | ack (t : Task) (rest : List Task) (hperm : q.inFlight.Perm (t :: rest)) :
      Next maxRetries q (.ack t.id) none { q with inFlight := rest, acked := q.acked + 1 }
  | nack (t : Task) (rest : List Task) (hperm : q.inFlight.Perm (t :: rest))
      (hbudget : t.retryCount + 1 < maxRetries) :
      Next maxRetries q (.nack t.id) none
        { q with
          pq := Heap.push Task.less q.pq
            { t with retryCount := t.retryCount + 1, status := .pending, deadline := 0 }
          inFlight := rest
          nacked := q.nacked + 1 }
  | dead (t : Task) (rest : List Task) (hperm : q.inFlight.Perm (t :: rest))
      (hbudget : maxRetries ≤ t.retryCount + 1) :
      Next maxRetries q (.nack t.id) none
        { q with
          inFlight := rest
          dlq := q.dlq ++ [{ t with retryCount := t.retryCount + 1, status := .dead }]
          nacked := q.nacked + 1 }

/-- The same queue, but for the order of the tasks in flight. -/
structure Same (q q' : WorkQueue) : Prop where
  pq : q'.pq = q.pq
  inFlight : q'.inFlight.Perm q.inFlight
  dlq : q'.dlq = q.dlq
  acked : q'.acked = q.acked
  nacked : q'.nacked = q.nacked

/-- The same queue has the same live tasks. -/
theorem Same.live (h : Same q q') : q'.live.Perm q.live := by
  rw [WorkQueue.live, h.pq]
  exact h.inFlight.append_left _

/-! ### What holds of every queue -/

/-- Live tasks have different identifiers, and the status that goes with where they are. -/
structure Sound (q : WorkQueue) : Prop where
  pending : ∀ t ∈ q.pq, t.status = .pending
  inFlight : ∀ t ∈ q.inFlight, t.status = .inFlight
  nodup : (q.live.map Task.id).Nodup

/-- The empty queue is sound. -/
theorem sound_empty : empty.Sound :=
  ⟨fun t ht => (by cases ht), fun t ht => (by cases ht), List.nodup_nil⟩

theorem Sound.same (h : q.Sound) (hs : Same q q') : q'.Sound := by
  refine ⟨?_, fun t ht => h.inFlight t (hs.inFlight.mem_iff.mp ht), ?_⟩
  · rw [hs.pq]
    exact h.pending
  · exact ((hs.live.map _).nodup_iff).mpr h.nodup

/-- A task in flight, and the other live tasks. -/
theorem live_perm {t : Task} {rest : List Task} (hperm : q.inFlight.Perm (t :: rest)) :
    q.live.Perm (t :: (q.pq ++ rest)) :=
  (hperm.append_left _).trans List.perm_middle

/-- A task in flight is not in the heap. -/
theorem Sound.not_mem_pq (h : q.Sound) {t : Task} (ht : t ∈ q.inFlight) :
    t.id ∉ q.pq.map Task.id := by
  intro hmem
  have hnodup := h.nodup
  rw [live, List.map_append] at hnodup
  exact (List.nodup_append.mp hnodup).2.2 _ hmem _ (List.mem_map.mpr ⟨t, ht, rfl⟩) rfl

/-- **Every call keeps the queue sound.** -/
theorem Sound.next (h : q.Sound) (hn : Next maxRetries q c res q') : q'.Sound := by
  cases hn with
  | enqueue t hid hnew hstatus =>
    have hperm : (Heap.push Task.less q.pq t).Perm (t :: q.pq) := Heap.push_perm q.pq t
    refine ⟨fun u hu => ?_, h.inFlight, ?_⟩
    · rcases List.mem_cons.mp (hperm.mem_iff.mp hu) with rfl | hu
      · exact hstatus
      · exact h.pending u hu
    · refine (((hperm.append_right q.inFlight).map Task.id).nodup_iff).mpr ?_
      exact List.nodup_cons.mpr ⟨hnew, h.nodup⟩
  | empty deadline hpop => exact h
  | dequeue deadline t pq hpop =>
    have hperm := Heap.perm_of_pop hpop
    refine ⟨fun u hu => h.pending u (hperm.mem_iff.mpr (List.mem_cons_of_mem _ hu)), ?_, ?_⟩
    · intro u hu
      rcases List.mem_cons.mp hu with rfl | hu
      · rfl
      · exact h.inFlight u hu
    · have hids : (q.live.map Task.id).Perm (t.id :: (pq ++ q.inFlight).map Task.id) :=
        (hperm.append_right _).map _
      refine List.Perm.nodup_iff ?_ |>.mpr (hids.nodup_iff.mp h.nodup)
      exact List.perm_middle.map Task.id
  | ack t rest hperm =>
    refine ⟨h.pending, fun u hu => h.inFlight u (hperm.mem_iff.mpr (List.mem_cons_of_mem _ hu)),
      ?_⟩
    exact (List.nodup_cons.mp (((live_perm hperm).map _).nodup_iff.mp h.nodup)).2
  | nack t rest hperm hbudget =>
    have hpush := fun u : Task => (Heap.push_perm q.pq u : (Heap.push Task.less q.pq u).Perm _)
    refine ⟨fun u hu => ?_,
      fun u hu => h.inFlight u (hperm.mem_iff.mpr (List.mem_cons_of_mem _ hu)), ?_⟩
    · rcases List.mem_cons.mp ((hpush _).mem_iff.mp hu) with rfl | hu
      · rfl
      · exact h.pending u hu
    · refine ((((hpush _).append_right rest).map Task.id).nodup_iff).mpr ?_
      exact ((live_perm hperm).map _).nodup_iff.mp h.nodup
  | dead t rest hperm hbudget =>
    refine ⟨h.pending, fun u hu => h.inFlight u (hperm.mem_iff.mpr (List.mem_cons_of_mem _ hu)),
      ?_⟩
    exact (List.nodup_cons.mp (((live_perm hperm).map _).nodup_iff.mp h.nodup)).2

end WorkQueue

namespace StateMachine

variable {sm sm' : StateMachine} {r r' : Ref} {id : TaskID} {t : Task}
  {pq dlq live rest : List Task}

/-- Execute a call. -/
def call (sm : StateMachine) : WorkQueue.Call → Option Task × StateMachine
  | .enqueue t => (none, sm.apply (.enqueue t))
  | .dequeue deadline => sm.dequeue deadline
  | .ack id => (none, sm.apply (.ack id))
  | .nack id => (none, sm.apply (.nack id))

/-! ### The heap and the live tasks, by address -/

/-- **The machine holds these tasks**: its heap is laid out as `pq` is, without anything
stale in it, and no task that is dead is live. -/
structure Keeps (sm : StateMachine) (pq dlq live : List Task) : Prop where
  keyed : sm.Keyed
  heap : sm.pq.map sm.store = pq
  inHeap : ∀ id, sm.inHeap id = true ↔ id ∈ pq.map Task.id
  queued : ∀ r ∈ sm.pq, sm.tasks.lookup (sm.store r).id = some r
  alive : ∀ t, t ∈ live ↔ ∃ r, sm.tasks.lookup t.id = some r ∧ sm.store r = t
  dead : sm.dlq.map sm.store = dlq
  buried : ∀ r ∈ sm.dlq, r < sm.next ∧ ∀ id, sm.tasks.lookup id ≠ some r

/-- A new machine keeps nothing. -/
theorem keeps_newStateMachine (maxRetries : ℤ) : (newStateMachine maxRetries).Keeps [] [] [] where
  keyed := keyed_newStateMachine maxRetries
  heap := rfl
  inHeap id := by simp [newStateMachine]
  queued r hr := by cases hr
  alive t := by
    constructor
    · intro ht
      cases ht
    · rintro ⟨r, hr, -⟩
      cases hr
  dead := rfl
  buried r hr := by cases hr

/-- Of the live tasks only the set matters. -/
theorem Keeps.congr (h : sm.Keeps pq dlq live) {live' : List Task}
    (hlive : ∀ t, t ∈ live' ↔ t ∈ live) : sm.Keeps pq dlq live' :=
  ⟨h.keyed, h.heap, h.inHeap, h.queued, fun t => (hlive t).trans (h.alive t), h.dead, h.buried⟩

/-- The counters do not matter. -/
theorem Keeps.counters (h : sm.Keeps pq dlq live) (acked nacked : ℤ) :
    { sm with acked, nacked }.Keeps pq dlq live :=
  ⟨h.keyed.congr rfl rfl le_rfl, h.heap, h.inHeap, h.queued, h.alive, h.dead, h.buried⟩

/-- What the index has is live. -/
theorem Keeps.mem_of_lookup (h : sm.Keeps pq dlq live) (hr : sm.tasks.lookup id = some r) :
    sm.store r ∈ live :=
  (h.alive _).mpr ⟨r, by rw [h.keyed.id_eq hr]; exact hr, rfl⟩

theorem Keeps.lookup_eq_none (h : sm.Keeps pq dlq live) (hid : id ∉ live.map Task.id) :
    sm.tasks.lookup id = none := by
  cases hr : sm.tasks.lookup id with
  | none => rfl
  | some r => exact absurd (List.mem_map.mpr ⟨_, h.mem_of_lookup hr, h.keyed.id_eq hr⟩) hid

theorem Keeps.lt_next (h : sm.Keeps pq dlq live) (hr : r ∈ sm.pq) : r < sm.next :=
  h.keyed.lt_next (h.queued r hr)

/-- A task of the heap has its place there. -/
theorem Keeps.not_mem_pq (h : sm.Keeps pq dlq live) (hr : (sm.store r).id ∉ pq.map Task.id) :
    r ∉ sm.pq := by
  intro hmem
  rw [← h.heap, List.map_map] at hr
  exact hr (List.mem_map.mpr ⟨r, hmem, rfl⟩)

/-- Memory that neither the heap nor the dead-letter queue refers to may change. -/
theorem Keeps.map_update (h : sm.Keeps pq dlq live) (hpq : r ∉ sm.pq) (hdlq : r ∉ sm.dlq)
    (t : Task) : sm.pq.map (Function.update sm.store r t) = pq ∧
      sm.dlq.map (Function.update sm.store r t) = dlq := by
  constructor
  · rw [← h.heap]
    exact List.map_congr_left fun r' hr' =>
      Function.update_of_ne (ne_of_mem_of_not_mem hr' hpq) _ _
  · rw [← h.dead]
    exact List.map_congr_left fun r' hr' =>
      Function.update_of_ne (ne_of_mem_of_not_mem hr' hdlq) _ _

/-- The heap sees the tasks. -/
theorem less_store (sm : StateMachine) (r r' : Ref) :
    Task.less (sm.store r) (sm.store r') = sm.less r r' := rfl

/-- A live task that is not in the heap is pushed. -/
theorem Keeps.push (h : sm.Keeps pq dlq live) (hr : sm.tasks.lookup (sm.store r).id = some r)
    (hnew : (sm.store r).id ∉ pq.map Task.id) :
    (sm.pushLocked r).Keeps (Heap.push Task.less pq (sm.store r)) dlq live := by
  have hin : ¬sm.inHeap (sm.store r).id = true := fun hin => hnew ((h.inHeap _).mp hin)
  have hpush : sm.pushLocked r =
      { sm with
        pq := Heap.push sm.less sm.pq r
        inHeap := Function.update sm.inHeap (sm.store r).id true } := by
    rw [pushLocked, if_neg hin]
  rw [hpush]
  refine ⟨h.keyed.congr rfl rfl le_rfl, ?_, ?_, ?_, h.alive, h.dead, h.buried⟩
  · rw [← h.heap]
    exact (Heap.push_map sm.less_store sm.pq r).symm
  · intro id
    rw [((Heap.push_perm pq (sm.store r)).map Task.id).mem_iff, List.map_cons, List.mem_cons,
      ← h.inHeap]
    dsimp only
    rcases eq_or_ne id (sm.store r).id with rfl | hne
    · simp
    · simp [hne]
  · intro r' hr'
    rcases List.mem_cons.mp ((Heap.push_perm sm.pq r).mem_iff.mp hr') with rfl | hr'
    · exact hr
    · exact h.queued r' hr'

/-- A new task is made live. -/
theorem Keeps.insert (h : sm.Keeps pq dlq live) (hnew : t.id ∉ live.map Task.id) :
    { sm.alloc t with tasks := sm.tasks.insert t.id sm.next }.Keeps pq dlq (t :: live) := by
  have hpq : sm.next ∉ sm.pq := fun hr => Nat.lt_irrefl _ (h.lt_next hr)
  have hdlq : sm.next ∉ sm.dlq := fun hr => Nat.lt_irrefl _ (h.buried _ hr).1
  have hold : ∀ {id r}, sm.tasks.lookup id = some r → (sm.alloc t).store r = sm.store r := by
    intro id r hr
    exact Function.update_of_ne (Nat.ne_of_lt (h.keyed.lt_next hr)) _ _
  have hself : (sm.alloc t).store sm.next = t := Function.update_self _ _ _
  refine ⟨?_, (h.map_update hpq hdlq t).1, h.inHeap, ?_, ?_, (h.map_update hpq hdlq t).2, ?_⟩
  · exact (h.keyed.file (t := t)).congr pushLocked_tasks.symm pushLocked_store.symm
      (Nat.le_of_eq pushLocked_next)
  · intro r hr
    have hlook := h.queued r hr
    dsimp only
    have hmem : (sm.store r).id ∈ live.map Task.id := List.mem_map_of_mem (h.mem_of_lookup hlook)
    rw [hold hlook, AList.lookup_insert_ne (ne_of_mem_of_not_mem hmem hnew), hlook]
  · intro u
    rw [List.mem_cons]
    constructor
    · rintro (rfl | hu)
      · exact ⟨sm.next, AList.lookup_insert _, hself⟩
      · obtain ⟨r, hr, hstore⟩ := (h.alive u).mp hu
        refine ⟨r, ?_, (hold hr).trans hstore⟩
        rwa [AList.lookup_insert_ne (ne_of_mem_of_not_mem (List.mem_map.mpr ⟨u, hu, rfl⟩) hnew)]
    · rintro ⟨r, hr, hstore⟩
      rcases lookup_insert_some hr with ⟨-, rfl⟩ | ⟨-, hr⟩
      · exact .inl (hstore.symm.trans hself)
      · exact .inr ((h.alive u).mpr ⟨r, hr, (hold hr).symm.trans hstore⟩)
  · intro r hr
    obtain ⟨hlt, hdead⟩ := h.buried r hr
    refine ⟨Nat.lt_succ_of_lt hlt, fun id hlook => ?_⟩
    rcases lookup_insert_some hlook with ⟨-, rfl⟩ | ⟨-, hlook⟩
    · exact Nat.lt_irrefl _ hlt
    · exact hdead id hlook

/-! ### A live task that is not in the heap -/

section Outside

variable (h : sm.Keeps pq dlq live) (hr : sm.tasks.lookup t.id = some r) (hstore : sm.store r = t)
  (hperm : live.Perm (t :: rest)) (hnodup : (live.map Task.id).Nodup)
  (hout : t.id ∉ pq.map Task.id)
include h hr hstore hperm hnodup hout

omit h hr hstore hout in
/-- The task is not among the others. -/
theorem id_not_mem_rest : t.id ∉ rest.map Task.id :=
  (List.nodup_cons.mp ((hperm.map Task.id).nodup_iff.mp hnodup)).1

/-- It is changed in place. -/
theorem Keeps.update {f : Task → Task} (hf : ∀ t, (f t).id = t.id) :
    (sm.update r f).Keeps pq dlq (f t :: rest) := by
  have hpq : r ∉ sm.pq := h.not_mem_pq (hstore ▸ hout)
  have hdlq : r ∉ sm.dlq := fun hmem => (h.buried r hmem).2 _ hr
  have hother : ∀ {r'}, r' ≠ r → (sm.update r f).store r' = sm.store r' :=
    fun hne => Function.update_of_ne hne _ _
  have hself : (sm.update r f).store r = f t := by
    rw [← hstore]
    exact Function.update_self _ _ _
  refine ⟨h.keyed.update hf, (h.map_update hpq hdlq _).1, h.inHeap, ?_, ?_,
    (h.map_update hpq hdlq _).2, h.buried⟩
  · intro r' hr'
    rw [hother (ne_of_mem_of_not_mem hr' hpq)]
    exact h.queued r' hr'
  · intro u
    rw [List.mem_cons]
    constructor
    · rintro (rfl | hu)
      · exact ⟨r, by rw [hf]; exact hr, hself⟩
      · obtain ⟨r', hr', hu'⟩ := (h.alive u).mp (hperm.mem_iff.mpr (List.mem_cons_of_mem _ hu))
        refine ⟨r', hr', (hother ?_).trans hu'⟩
        rintro rfl
        obtain rfl : t = u := hstore.symm.trans hu'
        exact id_not_mem_rest hperm hnodup (List.mem_map.mpr ⟨t, hu, rfl⟩)
    · rintro ⟨r', hr', hu⟩
      rcases eq_or_ne r' r with rfl | hne
      · exact .inl (hu.symm.trans hself)
      · rw [hother hne] at hu
        rcases List.mem_cons.mp (hperm.mem_iff.mp ((h.alive u).mpr ⟨r', hr', hu⟩)) with rfl | hu'
        · exact absurd (Option.some.inj (hr'.symm.trans hr)) hne
        · exact .inr hu'

omit hr hstore in
/-- It is live no more. -/
theorem Keeps.erase : { sm with tasks := sm.tasks.erase t.id }.Keeps pq dlq rest := by
  refine ⟨h.keyed.erase t.id, h.heap, h.inHeap, ?_, ?_, h.dead, ?_⟩
  · intro r' hr'
    dsimp only
    have hmem : (sm.store r').id ∈ pq.map Task.id := by
      rw [← h.heap, List.map_map]
      exact List.mem_map.mpr ⟨r', hr', rfl⟩
    rw [AList.lookup_erase_ne (ne_of_mem_of_not_mem hmem hout), h.queued r' hr']
  · intro u
    constructor
    · intro hu
      obtain ⟨r', hr', hu'⟩ := (h.alive u).mp (hperm.mem_iff.mpr (List.mem_cons_of_mem _ hu))
      refine ⟨r', ?_, hu'⟩
      have hmem : u.id ∈ rest.map Task.id := List.mem_map_of_mem hu
      rwa [AList.lookup_erase_ne (ne_of_mem_of_not_mem hmem (id_not_mem_rest hperm hnodup))]
    · rintro ⟨r', hr', hu⟩
      obtain ⟨hne, hr'⟩ := lookup_erase_some hr'
      rcases List.mem_cons.mp (hperm.mem_iff.mp ((h.alive u).mpr ⟨r', hr', hu⟩)) with rfl | hu'
      · exact absurd rfl hne
      · exact hu'
  · intro r' hr'
    exact ⟨(h.buried r' hr').1, fun id hlook => (h.buried r' hr').2 id (lookup_erase_some hlook).2⟩

end Outside

/-- A task that is not live comes to the dead-letter queue. -/
theorem Keeps.bury (h : sm.Keeps pq dlq live) (hlt : r < sm.next)
    (hdead : ∀ id, sm.tasks.lookup id ≠ some r) :
    { sm with dlq := sm.dlq ++ [r] }.Keeps pq (dlq ++ [sm.store r]) live := by
  refine ⟨h.keyed.congr rfl rfl le_rfl, h.heap, h.inHeap, h.queued, h.alive, ?_, ?_⟩
  · rw [← h.dead, List.map_append]
    rfl
  · intro r' hr'
    rcases List.mem_append.mp hr' with hr' | hr'
    · exact h.buried r' hr'
    · rw [List.mem_singleton.mp hr']
      exact ⟨hlt, hdead⟩

/-- The first task is taken from the heap. -/
theorem Keeps.pop (h : sm.Keeps pq dlq live) (hnodup : (pq.map Task.id).Nodup) {pq' : List Task}
    (hpop : Heap.pop Task.less pq = some (t, pq')) :
    ∃ r rs, Heap.pop sm.less sm.pq = some (r, rs) ∧ sm.store r = t ∧
      sm.tasks.lookup t.id = some r ∧ (sm.popped r rs).Keeps pq' dlq live := by
  have hmap := Heap.pop_map sm.less_store sm.pq
  rw [h.heap, hpop] at hmap
  obtain ⟨⟨r, rs⟩, hrs, hpair⟩ := Option.map_eq_some_iff.mp hmap.symm
  obtain ⟨rfl, rfl⟩ := Prod.mk.inj hpair
  dsimp only at hpop ⊢
  have hmem := fun r' => (Heap.perm_of_pop hrs).mem_iff (a := r')
  have hids := (Heap.perm_of_pop hpop).map Task.id
  refine ⟨r, rs, hrs, rfl, h.queued r ((hmem r).mpr List.mem_cons_self), ?_⟩
  refine ⟨h.keyed.congr rfl rfl le_rfl, rfl, ?_, ?_, h.alive, h.dead, h.buried⟩
  · intro id
    have hnot := (List.nodup_cons.mp (hids.nodup_iff.mp hnodup)).1
    rw [popped]
    dsimp only
    rcases eq_or_ne id (sm.store r).id with rfl | hne
    · simp only [Function.update_self, Bool.false_eq_true, false_iff]
      exact hnot
    · rw [Function.update_of_ne hne, h.inHeap, hids.mem_iff, List.map_cons, List.mem_cons]
      simp [hne]
  · intro r' hr'
    exact h.queued r' ((hmem r').mpr (List.mem_cons_of_mem _ hr'))

/-! ### The calls -/

/-- **The machine is an implementation of the queue.** -/
structure Implements (maxRetries : ℤ) (sm : StateMachine) (q : WorkQueue) : Prop where
  sound : q.Sound
  keeps : sm.Keeps q.pq q.dlq q.live
  maxRetries_eq : sm.maxRetries = maxRetries
  acked : sm.acked = q.acked
  nacked : sm.nacked = q.nacked

variable {q q' : WorkQueue} {maxRetries : ℤ}

theorem implements_new (maxRetries : ℤ) :
    Implements maxRetries (newStateMachine maxRetries) WorkQueue.empty :=
  ⟨WorkQueue.sound_empty, keeps_newStateMachine maxRetries, rfl, rfl, rfl⟩

/-- It implements every queue that is the same. -/
theorem Implements.same (h : Implements maxRetries sm q) (hs : q.Same q') :
    Implements maxRetries sm q' := by
  refine ⟨h.sound.same hs, ?_, h.maxRetries_eq, h.acked.trans hs.acked.symm,
    h.nacked.trans hs.nacked.symm⟩
  rw [hs.pq, hs.dlq]
  exact h.keeps.congr fun t => hs.live.mem_iff

/-- A fresh task is filed. -/
theorem apply_enqueue (h : Implements maxRetries sm q) (hid : t.id ≠ "")
    (hnew : t.id ∉ q.live.map Task.id) (hstatus : t.status = .pending) :
    sm.apply (.enqueue t) = sm.file t := by
  have hsame : ({ t with status := .pending } : Task) = t := by rw [← hstatus]
  rw [apply, QueueOp.enqueue]
  simp only [Option.elim_some, applyEnqueue, h.keeps.lookup_eq_none hnew, Option.isSome_none,
    Bool.false_eq_true, or_false, if_neg hid, hsame]

/-- **A new task is filed and pushed.** -/
theorem Keeps.file (h : sm.Keeps pq dlq live) (hnew : t.id ∉ live.map Task.id)
    (hpq : ∀ u ∈ pq, u ∈ live) : (sm.file t).Keeps (Heap.push Task.less pq t) dlq (t :: live) := by
  have hself : (sm.alloc t).store sm.next = t := Function.update_self _ _ _
  have hpush := (h.insert hnew).push (r := sm.next)
  dsimp only at hpush
  rw [hself] at hpush
  refine hpush (AList.lookup_insert _) fun hmem => hnew ?_
  obtain ⟨u, hu, hid⟩ := List.mem_map.mp hmem
  exact List.mem_map.mpr ⟨u, hpq u hu, hid⟩

/-- A task that is pushed changes no counter. -/
theorem pushLocked_counters (sm : StateMachine) (r : Ref) :
    (sm.pushLocked r).maxRetries = sm.maxRetries ∧ (sm.pushLocked r).acked = sm.acked ∧
      (sm.pushLocked r).nacked = sm.nacked := by
  unfold pushLocked
  split <;> exact ⟨rfl, rfl, rfl⟩

/-- The address of a task in flight. -/
theorem Implements.lookup (h : Implements maxRetries sm q) (ht : t ∈ q.inFlight) :
    ∃ r, sm.tasks.lookup t.id = some r ∧ sm.store r = t :=
  (h.keeps.alive t).mp (List.mem_append_right _ ht)

/-- The tasks in flight are those that the status says are. -/
theorem Implements.statusOf_inFlight (h : Implements maxRetries sm q) :
    sm.statusOf id = some .inFlight ↔ id ∈ q.inFlight.map Task.id := by
  constructor
  · intro hs
    obtain ⟨r, hr, hstatus⟩ := Option.map_eq_some_iff.mp hs
    rcases List.mem_append.mp (h.keeps.mem_of_lookup hr) with hmem | hmem
    · rw [h.sound.pending _ hmem] at hstatus
      cases hstatus
    · exact List.mem_map.mpr ⟨_, hmem, h.keeps.keyed.id_eq hr⟩
  · intro hmem
    obtain ⟨t, ht, rfl⟩ := List.mem_map.mp hmem
    obtain ⟨r, hr, hstore⟩ := h.lookup ht
    rw [statusOf, hr, Option.map_some, hstore, h.sound.inFlight t ht]

/-- A retry is counted, and the task dead-lettered or made deliverable again. -/
theorem Implements.nack (h : Implements maxRetries sm q) (hperm : q.inFlight.Perm (t :: rest))
    (hr : sm.tasks.lookup t.id = some r) (hstore : sm.store r = t) :
    (maxRetries ≤ t.retryCount + 1 → (sm.applyNack t.id r).Keeps q.pq
        (q.dlq ++ [{ t with retryCount := t.retryCount + 1, status := .dead }]) (q.pq ++ rest)) ∧
      (t.retryCount + 1 < maxRetries → (sm.applyNack t.id r).Keeps
        (Heap.push Task.less q.pq
          { t with retryCount := t.retryCount + 1, status := .pending, deadline := 0 })
        q.dlq ({ t with retryCount := t.retryCount + 1, status := .pending, deadline := 0 } ::
          (q.pq ++ rest))) ∧
      (sm.applyNack t.id r).maxRetries = sm.maxRetries ∧
      (sm.applyNack t.id r).acked = sm.acked ∧
      (sm.applyNack t.id r).nacked = sm.nacked + 1 := by
  obtain rfl := h.maxRetries_eq
  have ht : t ∈ q.inFlight := hperm.mem_iff.mpr List.mem_cons_self
  have hout := h.sound.not_mem_pq ht
  have hlive := WorkQueue.live_perm hperm
  have hnodup := h.sound.nodup
  have hnodup' : ((t :: (q.pq ++ rest)).map Task.id).Nodup := (hlive.map _).nodup_iff.mp hnodup
  -- the retry
  have h₀ := h.keeps.counters sm.acked (sm.nacked + 1)
  have h₁ := h₀.update hr hstore hlive hnodup hout
    (f := fun t => { t with retryCount := t.retryCount + 1 }) fun _ => rfl
  have hcount : ({ sm with nacked := sm.nacked + 1 }.update r
      fun t => { t with retryCount := t.retryCount + 1 }).store r =
      { t with retryCount := t.retryCount + 1 } := by
    rw [← hstore]
    exact Function.update_self _ _ _
  unfold applyNack
  dsimp only
  rw [hcount]
  split
  · rename_i hle
    refine ⟨fun _ => ?_, fun hlt => absurd hle (Int.not_le.mpr hlt), rfl, rfl, rfl⟩
    -- the task is dead, no longer live, and buried
    have h₂ := h₁.update (t := { t with retryCount := t.retryCount + 1 }) hr hcount
      (List.Perm.refl _) hnodup' hout
      (f := fun t => { t with status := .dead }) fun _ => rfl
    have h₃ := h₂.erase (List.Perm.refl _) hnodup' hout
    have hstore₃ : (({ sm with nacked := sm.nacked + 1 }.update r
        fun t => { t with retryCount := t.retryCount + 1 }).update r
        fun t => { t with status := .dead }).store r =
        { t with retryCount := t.retryCount + 1, status := .dead } := by
      rw [update, hcount]
      exact Function.update_self _ _ _
    have h₄ := h₃.bury (r := r) (h.keeps.keyed.lt_next hr) fun id hlook => by
      obtain ⟨hne, hlook⟩ := lookup_erase_some hlook
      exact hne (h.keeps.keyed.lookup_inj hlook hr)
    rw [← hstore₃]
    exact h₄
  · rename_i hle
    refine ⟨fun hm => absurd hm hle, fun _ => ?_, ?_⟩
    · have h₂ := h₁.update (t := { t with retryCount := t.retryCount + 1 }) hr hcount
        (List.Perm.refl _) hnodup' hout
        (f := fun t => { t with status := .pending, deadline := 0 }) fun _ => rfl
      have hstore₂ : (({ sm with nacked := sm.nacked + 1 }.update r
          fun t => { t with retryCount := t.retryCount + 1 }).update r
          fun t => { t with status := .pending, deadline := 0 }).store r =
          { t with retryCount := t.retryCount + 1, status := .pending, deadline := 0 } := by
        rw [update, hcount]
        exact Function.update_self _ _ _
      have h₃ := h₂.push (r := r) (by rw [hstore₂]; exact hr) (by rw [hstore₂]; exact hout)
      rw [hstore₂] at h₃
      exact h₃
    · exact pushLocked_counters _ _

/-- The nack of a live task. -/
theorem call_nack (hr : sm.tasks.lookup t.id = some r) :
    (sm.call (.nack t.id)).2 = sm.applyNack t.id r := by
  simp only [call, apply, QueueOp.nack, hr, Option.elim_some]

/-- The task at the top of the heap is live and pending, and is handed out. -/
theorem call_dequeue {deadline : Time} {rs : List Ref}
    (hrs : Heap.pop sm.less sm.pq = some (r, rs)) (hdeliver : sm.Deliverable r)
    (hstore : sm.store r = t) : sm.call (.dequeue deadline) =
      (some { t with status := .inFlight, deadline }, (sm.popped r rs).deliver r deadline) := by
  rw [call, dequeue, Heap.length_of_pop hrs, dequeueLoop, hrs]
  dsimp only
  rw [if_pos hdeliver]
  simp [popped, deliver, update, hstore]

/-- The task is handed out. -/
theorem Implements.dequeue (h : Implements maxRetries sm q) (deadline : Time) {pq : List Task}
    (hpop : Heap.pop Task.less q.pq = some (t, pq)) : ∃ sm',
    sm.call (.dequeue deadline) = (some { t with status := .inFlight, deadline }, sm') ∧
      sm'.Keeps pq q.dlq ({ t with status := .inFlight, deadline } :: (pq ++ q.inFlight)) ∧
      sm'.maxRetries = sm.maxRetries ∧ sm'.acked = sm.acked ∧ sm'.nacked = sm.nacked := by
  have hpq : (q.pq.map Task.id).Nodup := by
    have hnodup := h.sound.nodup
    rw [WorkQueue.live, List.map_append] at hnodup
    exact (List.nodup_append.mp hnodup).1
  obtain ⟨r, rs, hrs, hstore, hr, hkeeps⟩ := h.keeps.pop hpq hpop
  have hperm := Heap.perm_of_pop hpop
  have hdeliver : sm.Deliverable r := by
    rw [Deliverable, hstore]
    exact ⟨hr, h.sound.pending t (hperm.mem_iff.mpr List.mem_cons_self)⟩
  have hlive : q.live.Perm (t :: (pq ++ q.inFlight)) := hperm.append_right _
  have hout : t.id ∉ pq.map Task.id :=
    (List.nodup_cons.mp ((hperm.map Task.id).nodup_iff.mp hpq)).1
  exact ⟨_, call_dequeue hrs hdeliver hstore, hkeeps.update hr hstore hlive h.sound.nodup hout
    (f := fun t => { t with status := .inFlight, deadline }) fun _ => rfl, rfl, rfl, rfl⟩

/-- The task is no longer live. -/
theorem Implements.ack (h : Implements maxRetries sm q) (hperm : q.inFlight.Perm (t :: rest)) :
    ∃ sm', (sm.call (.ack t.id)).2 = sm' ∧ sm'.Keeps q.pq q.dlq (q.pq ++ rest) ∧
      sm'.maxRetries = sm.maxRetries ∧ sm'.acked = sm.acked + 1 ∧ sm'.nacked = sm.nacked := by
  have ht : t ∈ q.inFlight := hperm.mem_iff.mpr List.mem_cons_self
  obtain ⟨r, hr, hstore⟩ := h.lookup ht
  have hout := h.sound.not_mem_pq ht
  have hlive := WorkQueue.live_perm hperm
  have hcall : (sm.call (.ack t.id)).2 = sm.applyAck t.id r := by
    simp only [call, apply, QueueOp.ack, hr, Option.elim_some]
  have h₁ := h.keeps.update hr hstore hlive h.sound.nodup hout
    (f := fun t => { t with status := .done }) fun _ => rfl
  have h₂ := (h₁.erase (List.Perm.refl _) ((hlive.map _).nodup_iff.mp h.sound.nodup)
    hout).counters (sm.acked + 1) sm.nacked
  exact ⟨_, hcall, h₂, rfl, rfl, rfl⟩

/-- **A call to the machine does what the call to the queue does**, and returns the same. -/
theorem Implements.call (h : Implements maxRetries sm q) {c : WorkQueue.Call} {res : Option Task}
    (hn : WorkQueue.Next maxRetries q c res q') :
    (sm.call c).1 = res ∧ Implements maxRetries (sm.call c).2 q' := by
  have hsound := h.sound.next hn
  cases hn with
  | enqueue t hid hnew hstatus =>
    have happly := apply_enqueue h hid hnew hstatus
    have hkeeps := h.keeps.file hnew fun u hu => List.mem_append_left _ hu
    obtain ⟨hmax, hacked, hnacked⟩ := pushLocked_counters
      { sm.alloc t with tasks := sm.tasks.insert t.id sm.next } sm.next
    refine ⟨rfl, hsound, ?_, ?_, ?_, ?_⟩ <;> rw [StateMachine.call, happly]
    · refine hkeeps.congr fun u => ?_
      exact ((Heap.push_perm q.pq t).append_right q.inFlight).mem_iff
    · exact hmax.trans h.maxRetries_eq
    · exact hacked.trans h.acked
    · exact hnacked.trans h.nacked
  | empty deadline hpop =>
    have hnil : sm.pq = [] := by
      have hheap := h.keeps.heap
      rwa [Heap.pop_eq_none.mp hpop, List.map_eq_nil_iff] at hheap
    have hcall : sm.call (.dequeue deadline) = (none, sm) := by
      rw [StateMachine.call, StateMachine.dequeue, hnil]
      rfl
    rw [hcall]
    exact ⟨rfl, h⟩
  | dequeue deadline t pq hpop =>
    obtain ⟨sm', hcall, hkeeps, hmax, hacked, hnacked⟩ := h.dequeue deadline hpop
    rw [hcall]
    exact ⟨rfl, hsound, hkeeps.congr fun u => List.perm_middle.mem_iff,
      hmax.trans h.maxRetries_eq, hacked.trans h.acked, hnacked.trans h.nacked⟩
  | ack t rest hperm =>
    obtain ⟨sm', hcall, hkeeps, hmax, hacked, hnacked⟩ := h.ack hperm
    rw [hcall]
    refine ⟨rfl, hsound, hkeeps, hmax.trans h.maxRetries_eq, ?_, hnacked.trans h.nacked⟩
    rw [hacked, h.acked]
  | nack t rest hperm hbudget =>
    obtain ⟨r, hr, hstore⟩ := h.lookup (hperm.mem_iff.mpr List.mem_cons_self)
    obtain ⟨-, hkeeps, hmax, hacked, hnacked⟩ := h.nack hperm hr hstore
    rw [call_nack hr]
    refine ⟨rfl, hsound, ?_, hmax.trans h.maxRetries_eq, hacked.trans h.acked, ?_⟩
    · refine (hkeeps hbudget).congr fun u => ?_
      exact ((Heap.push_perm q.pq _).append_right rest).mem_iff
    · rw [hnacked, h.nacked]
  | dead t rest hperm hbudget =>
    obtain ⟨r, hr, hstore⟩ := h.lookup (hperm.mem_iff.mpr List.mem_cons_self)
    obtain ⟨hkeeps, -, hmax, hacked, hnacked⟩ := h.nack hperm hr hstore
    rw [call_nack hr]
    refine ⟨rfl, hsound, hkeeps hbudget, hmax.trans h.maxRetries_eq, hacked.trans h.acked, ?_⟩
    rw [hnacked, h.nacked]

end StateMachine

end Broker

end DistQueue
