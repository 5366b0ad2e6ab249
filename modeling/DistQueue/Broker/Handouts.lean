import DistQueue.Broker.StateMachine
import DistQueue.Run

/-!
# No task is handed out twice

`Dequeue` of the replicated queue is local to the leader. The heap that it takes tasks from
may hold stale ones, of tasks that were acked, dead-lettered or replaced, and it is the check
on the popped task – that it is the live task of its identifier, and pending – that keeps them
from being handed out.

So a task that is handed out is in flight, and is not handed out again before something has
made it pending: a nack, a loss of leadership, a restored snapshot, or an ack and a new task of
the same identifier (`DistQueue.Broker.handed_out_once`). Snapshots may hold anything here.
-/

namespace DistQueue

namespace Broker

/-- A method call on a state machine. -/
inductive MachineCall
  | apply (op : QueueOp)
  | dequeue (deadline : Time)
  | requeueInFlight (order : List TaskID)
  | restore (st : SnapshotState)

namespace MachineCall

/-- A call on the machine, which can always be made; a snapshot is restored as it comes. -/
def step (sm : StateMachine) : MachineCall → Option StateMachine
  | .apply op => some (sm.apply op)
  | .dequeue deadline => some (sm.dequeue deadline).2
  | .requeueInFlight order => some (sm.requeueInFlight order)
  | .restore st => some (sm.restore st)

/-- **Something among the calls allows a task of the identifier to be handed out again.** -/
inductive Releases (id : TaskID) (cs : List MachineCall) : Prop
  | nack (op : QueueOp) (hop : .apply op ∈ cs) (hty : op.type = .nack) (hid : op.taskID = id)
  | requeueInFlight (order : List TaskID) (hop : .requeueInFlight order ∈ cs)
  | restore (st : SnapshotState) (hop : .restore st ∈ cs)
  /-- The task is acked, and later there is another of the identifier. -/
  | replaced (xs ys zs : List MachineCall) (op op' : QueueOp) (t : Task)
      (hcs : cs = xs ++ .apply op :: (ys ++ .apply op' :: zs)) (hty : op.type = .ack)
      (hid : op.taskID = id) (hty' : op'.type = .enqueue) (htask : op'.task = some t)
      (hid' : t.id = id)

variable {id : TaskID} {cs : List MachineCall} {sm sm' : StateMachine} {c : MachineCall}

/-- What has been released stays released. -/
theorem Releases.concat (h : Releases id cs) (c : MachineCall) : Releases id (cs ++ [c]) := by
  cases h with
  | nack op hop hty hid => exact .nack op (List.mem_append_left _ hop) hty hid
  | requeueInFlight order hop => exact .requeueInFlight order (List.mem_append_left _ hop)
  | restore st hop => exact .restore st (List.mem_append_left _ hop)
  | replaced xs ys zs op op' t hcs hty hid hty' htask hid' =>
    refine .replaced xs ys (zs ++ [c]) op op' t ?_ hty hid hty' htask hid'
    rw [hcs]
    simp

/-- Where a task is that has been handed out, as long as nothing has released it: still in
flight, or acked and gone. -/
inductive Held (id : TaskID) (cs : List MachineCall) (sm : StateMachine) : Prop
  | inFlight (hs : sm.statusOf id = some .inFlight)
  | acked (op : QueueOp) (hop : .apply op ∈ cs) (hty : op.type = .ack) (hid : op.taskID = id)
      (hs : sm.statusOf id = none)

/-- A task that is held is not deliverable. -/
theorem Held.not_pending (h : Held id cs sm) : sm.statusOf id ≠ some .pending := by
  cases h with
  | inFlight hs => simp [hs]
  | acked op hop hty hid hs => simp [hs]

/-- A call that does not change the status of the task. -/
theorem Held.same (h : Held id cs sm) (c : MachineCall) (hs : sm'.statusOf id = sm.statusOf id) :
    Held id (cs ++ [c]) sm' := by
  cases h with
  | inFlight hin => exact .inFlight (hs.trans hin)
  | acked op hop hty hid hout =>
    exact .acked op (List.mem_append_left _ hop) hty hid (hs.trans hout)

/-- A command releases the task, or the task is still held. -/
theorem Held.apply (h : Held id cs sm) (hkeyed : sm.Keyed) (op : QueueOp) :
    Releases id (cs ++ [.apply op]) ∨ Held id (cs ++ [.apply op]) (sm.apply op) := by
  have hlast : MachineCall.apply op ∈ cs ++ [.apply op] :=
    List.mem_append_right _ List.mem_cons_self
  rcases sm.apply_cases hkeyed op with
    ⟨t, hty, htask, hnone, heq⟩ | ⟨s, hs, -, heq⟩ | ⟨-, heq⟩
  · rcases eq_or_ne t.id id with rfl | hne
    · -- a new task of the identifier: the old one has been acked
      cases h with
      | inFlight hin => rw [hnone] at hin; cases hin
      | acked op₀ hop hty₀ hid hout =>
        obtain ⟨xs, ys, rfl⟩ := List.append_of_mem hop
        refine .inl (.replaced xs ys [] op₀ op t ?_ hty₀ hid hty htask rfl)
        simp
    · exact .inr (h.same _ (by rw [heq, Function.update_of_ne hne.symm]))
  · rcases eq_or_ne op.taskID id with hid | hne
    · rcases hs with ⟨hack, rfl⟩ | ⟨hnack, -⟩
      · exact .inr (.acked op hlast hack hid (by rw [heq, ← hid, Function.update_self]))
      · exact .inl (.nack op hlast hnack hid)
    · exact .inr (h.same _ (by rw [heq, Function.update_of_ne hne.symm]))
  · exact .inr (h.same _ (by rw [heq]))

/-- A `Dequeue` hands out a pending task, which is another one. -/
theorem Held.dequeue (h : Held id cs sm) (hkeyed : sm.Keyed) (deadline : Time) :
    Held id (cs ++ [.dequeue deadline]) (sm.dequeue deadline).2 := by
  rcases sm.statusOf_dequeue hkeyed deadline with ⟨-, heq⟩ | ⟨t, -, hpending, heq⟩
  · exact h.same _ (by rw [heq])
  · have hne : id ≠ t.id := by
      rintro rfl
      exact h.not_pending hpending
    exact h.same _ (by rw [heq, Function.update_of_ne hne])

/-- Every call keeps the identifiers where they belong. -/
theorem keyed_step (h : sm.Keyed) (hs : step sm c = some sm') : sm'.Keyed := by
  cases c with
  | apply op =>
    cases hs
    exact h.apply op
  | dequeue deadline =>
    cases hs
    exact h.dequeue deadline
  | requeueInFlight order =>
    cases hs
    exact h.requeueInFlight order
  | restore st =>
    cases hs
    exact StateMachine.keyed_restore _ st

/-- One call: the task is released, or it stays where it is. -/
theorem Held.step (h : Held id cs sm) (hkeyed : sm.Keyed) (hs : step sm c = some sm') :
    Releases id (cs ++ [c]) ∨ Held id (cs ++ [c]) sm' := by
  have hlast : c ∈ cs ++ [c] := List.mem_append_right _ List.mem_cons_self
  cases c with
  | apply op =>
    cases hs
    exact h.apply hkeyed op
  | dequeue deadline =>
    cases hs
    exact .inr (h.dequeue hkeyed deadline)
  | requeueInFlight order => exact .inl (.requeueInFlight order hlast)
  | restore st => exact .inl (.restore st hlast)

/-- Any number of calls. -/
theorem releases_or_held (hkeyed : sm.Keyed) (hs : sm.statusOf id = some .inFlight)
    (hrun : Run.exec step sm cs = some sm') : Releases id cs ∨ Held id cs sm' := by
  refine (Run.induction (P := fun cs u => u.Keyed ∧ (Releases id cs ∨ Held id cs u))
    ⟨hkeyed, .inr (.inFlight hs)⟩ (fun cs u c u' _ hu hstep => ?_) hrun).2
  obtain ⟨hu, hcs⟩ := hu
  refine ⟨keyed_step hu hstep, ?_⟩
  rcases hcs with hrel | hheld
  · exact .inl (hrel.concat c)
  · exact hheld.step hu hstep

end MachineCall

/-- What a `Dequeue` returns is the live task of its identifier, which was pending. -/
theorem StateMachine.pending_of_dequeue {sm : StateMachine} {deadline : Time} {t : Task}
    (ht : (sm.dequeue deadline).1 = some t) :
    ∃ r, sm.tasks.lookup t.id = some r ∧ (sm.store r).status = .pending ∧
      t = { sm.store r with status := .inFlight, deadline } := by
  obtain ⟨pq, inHeap, heq | ⟨r, ⟨hr, hs⟩, heq⟩⟩ := dequeueLoop_cases deadline sm.pq.length sm <;>
    rw [dequeue, heq] at ht
  · cases ht
  · cases ht
    exact ⟨r, hr, hs, rfl⟩

/-- The status of the task that a `Dequeue` returns, before and after. -/
theorem StateMachine.Keyed.statusOf_of_dequeue {sm : StateMachine} (hkeyed : sm.Keyed)
    {deadline : Time} {t : Task} (ht : (sm.dequeue deadline).1 = some t) :
    sm.statusOf t.id = some .pending ∧
      (sm.dequeue deadline).2.statusOf t.id = some .inFlight := by
  rcases sm.statusOf_dequeue hkeyed deadline with ⟨hnone, -⟩ | ⟨u, hu, hpending, heq⟩
  · rw [hnone] at ht
    cases ht
  · obtain rfl := Option.some.inj (hu.symm.trans ht)
    exact ⟨hpending, by rw [heq, Function.update_self]⟩

open MachineCall in
/-- **No task is handed out twice.** After any calls, what a `Dequeue` returns is the live task of
its identifier, which was pending and is in flight now. Until another `Dequeue` returns a task of
the same identifier there is a nack of it, a `RequeueInFlight`, a `Restore`, or an ack of it and
then an enqueue. -/
theorem handed_out_once {maxRetries : ℤ} {cs : List MachineCall} {sm : StateMachine}
    (hrun : Run.exec step (newStateMachine maxRetries) cs = some sm) {deadline : Time} {t : Task}
    (ht : (sm.dequeue deadline).1 = some t) :
    (∃ r, sm.tasks.lookup t.id = some r ∧ (sm.store r).status = .pending ∧
      t = { sm.store r with status := .inFlight, deadline }) ∧
    ∀ cs' sm' deadline' t', Run.exec step (sm.dequeue deadline).2 cs' = some sm' →
      (sm'.dequeue deadline').1 = some t' → t'.id = t.id → Releases t.id cs' := by
  have hkeyed : sm.Keyed := Run.invariant (P := StateMachine.Keyed)
    (StateMachine.keyed_newStateMachine maxRetries) (fun _ _ _ => keyed_step) hrun
  refine ⟨StateMachine.pending_of_dequeue ht, fun cs' sm' deadline' t' hrun' ht' hid => ?_⟩
  have hkeyed' : sm'.Keyed := Run.invariant (P := StateMachine.Keyed)
    (hkeyed.dequeue deadline) (fun _ _ _ => keyed_step) hrun'
  have hin := (hkeyed.statusOf_of_dequeue ht).2
  refine (releases_or_held (hkeyed.dequeue deadline) hin hrun').resolve_right fun hheld => ?_
  -- the second `Dequeue` has found the task pending
  exact hheld.not_pending (hid ▸ (hkeyed'.statusOf_of_dequeue ht').1)

/-- Tasks `a` and `b` are enqueued. -/
def twoEnqueued : StateMachine :=
  ((newStateMachine 3).apply (.enqueue (.named "a"))).apply (.enqueue (.named "b"))

/-- `b` is handed out after `a`, which is acked and enqueued again. -/
def replacesA : List MachineCall :=
  [.dequeue 11, .apply (.ack "a"), .apply (.enqueue (.named "a"))]

theorem handed_out_once_replacesA :
    ∃ sm' t t', (twoEnqueued.dequeue 10).1 = some t ∧
      Run.exec MachineCall.step (twoEnqueued.dequeue 10).2 replacesA = some sm' ∧
      (sm'.dequeue 20).1 = some t' ∧ t'.id = t.id ∧ MachineCall.Releases t.id replacesA := by
  obtain ⟨⟨sm', t'⟩, hobs, hid⟩ : ∃ x : StateMachine × Task,
      ((Run.exec MachineCall.step (twoEnqueued.dequeue 10).2 replacesA).bind fun u =>
        (u.dequeue 20).1.map fun t' => (u, t')) = some x ∧ x.2.id = "a" :=
    Option.map_eq_some_iff.mp (by decide +kernel)
  obtain ⟨t, ht, hat⟩ : ∃ t, (twoEnqueued.dequeue 10).1 = some t ∧ t.id = "a" :=
    Option.map_eq_some_iff.mp (by decide +kernel)
  obtain ⟨u, hrun', hu⟩ := Option.bind_eq_some_iff.mp hobs
  obtain ⟨v, hv, hpair⟩ := Option.map_eq_some_iff.mp hu
  obtain ⟨rfl, rfl⟩ := Prod.mk.inj hpair
  have hrun : Run.exec MachineCall.step (newStateMachine 3)
      [.apply (.enqueue (.named "a")), .apply (.enqueue (.named "b"))] = some twoEnqueued := rfl
  exact ⟨u, t, v, ht, hrun', hv, hid.trans hat.symm,
    (handed_out_once hrun ht).2 _ _ _ _ hrun' hv (hid.trans hat.symm)⟩

end Broker

end DistQueue
