import DistQueue.Broker.PriorityQueue
import DistQueue.SingleNode.Invariant

/-!
# The task that is first in order

What `Dequeue` of the single-node broker is meant to hand out: no pending task has a smaller
priority value, and none of the same priority is older.

Which of two tasks is older is decided by the monotonic readings of their times if both have
one, and by the wall clock otherwise. Tasks of this process and tasks that were recovered from
the log, or whose time a client has set, are pending together, and if the wall clock is set back
in between, that comparison is no order: of three tasks each may be before the next. The
heap then hands a task out while an older one is pending
(`DistQueue.SingleNode.dequeue_not_first`). As long as the two clocks do not contradict each
other on what is pending (`DistQueue.Broker.ClocksAgree`), it does what it is meant to do
(`DistQueue.SingleNode.dequeue_first`).

This rests on the order of the heap, which only pushes and pops touch
(`DistQueue.SingleNode.Broker.Feeds`): a task that waits in the heap is not changed, wherever it
has come from – a client, a nack, a timeout, or the log of the broker's predecessor, whose tasks
are pushed in the order in which a map yields them.
-/

namespace DistQueue

open Broker Wal

namespace Broker

/-- **The clocks agree**: among tasks of one priority, every time has a monotonic reading,
or the readings that there are go with the wall clock. -/
def ClocksAgree (l : List Task) : Prop :=
  ∀ v ∈ l, (∀ t ∈ l, t.priority = v.priority → t.mono.isSome) ∨
    ∀ t ∈ l, t.priority = v.priority → ∀ u ∈ l, u.priority = v.priority →
      ∀ a ∈ t.mono, ∀ c ∈ u.mono, a < c ↔ t.createdAt < u.createdAt

instance (l : List Task) : Decidable (ClocksAgree l) :=
  inferInstanceAs (Decidable (∀ v ∈ l, _ ∨ _))

/-- What the times of a priority are compared by: the readings, if all have one. -/
def clock (l : List Task) (t : Task) : Time :=
  if ∀ u ∈ l, u.priority = t.priority → u.mono.isSome then t.mono.getD 0 else t.createdAt

/-- **Where the clocks agree, `Before` compares numbers.** -/
theorem ClocksAgree.before_iff {l : List Task} (h : ClocksAgree l) {t u : Task} (ht : t ∈ l)
    (hu : u ∈ l) (hp : t.priority = u.priority) : t.before u = true ↔ clock l t < clock l u := by
  unfold clock
  rw [hp]
  split
  · rename_i hall
    obtain ⟨a, ha⟩ := Option.isSome_iff_exists.mp (hall t ht hp)
    obtain ⟨c, hc⟩ := Option.isSome_iff_exists.mp (hall u hu rfl)
    rw [Task.before_of_readings ha hc, ha, hc]
    exact decide_eq_true_iff
  · rename_i hmixed
    have hwall := (h u hu).resolve_left hmixed
    cases ha : t.mono with
    | none => rw [Task.before_of_wall (.inl ha), decide_eq_true_iff]
    | some a =>
      cases hc : u.mono with
      | none => rw [Task.before_of_wall (.inr hc), decide_eq_true_iff]
      | some c =>
        rw [Task.before_of_readings ha hc, decide_eq_true_iff]
        exact hwall t ht hp u hu rfl a ha c hc

/-- **Clocks that agree make the order of the queue an order** on the tasks. -/
theorem ClocksAgree.weakOrderOn {l : List Task} (h : ClocksAgree l) :
    Heap.WeakOrderOn Task.less l := by
  refine Heap.weakOrderOn_of_key (fun t => toLex (t.priority, clock l t)) fun t ht u hu => ?_
  rw [Task.less_iff, Prod.Lex.toLex_lt_toLex]
  exact or_congr_right (and_congr_right fun hp => h.before_iff ht hu hp)

end Broker

namespace SingleNode

variable {γ : Codec} {b b' : Broker} {h h' : History} {m : Move} {t : Task}

namespace Broker

/-! ### How sections change the heap -/

/-- What a section may do to the heap: nothing, a push, a pop, or fill a new one. -/
inductive Feeds (b b' : Broker) : Prop
  | same (h : b'.pq = b.pq)
  | push (t : Task) (h : b'.pq = Heap.push Task.less b.pq t)
  | pop (t : Task) (h : Heap.pop Task.less b.pq = some (t, b'.pq))
  | fill (order : List Task) (h : b'.pq = order.foldl (Heap.push Task.less) [])

/-- Nothing but the heaps matters. -/
theorem Feeds.congr {b₁ b₁' : Broker} (hb : Feeds b b') (hpq : b₁.pq = b.pq)
    (hpq' : b₁'.pq = b'.pq) : Feeds b₁ b₁' := by
  cases hb with
  | same h => exact .same (hpq'.trans (h.trans hpq.symm))
  | push t h => exact .push t (by rw [hpq', h, hpq])
  | pop t h => exact .pop t (by rw [hpq, h, hpq'])
  | fill order h => exact .fill order (hpq'.trans h)

/-- Compaction has nothing to do with the heap. -/
theorem Feeds.compact (hb : Feeds b b') (c : Caller) : Feeds b (b'.maybeCompactLocked c) :=
  hb.congr rfl (sameTasks_maybeCompactLocked b' c).pq

/-- `Enqueue` pushes its task. -/
theorem feeds_enqueue (b : Broker) (t : Task) (fault : Option ℕ) :
    Feeds b (b.enqueue γ t fault) := by
  cases fault with
  | some n => exact .same rfl
  | none => exact Feeds.compact (.push t rfl) _

/-- `Dequeue` pops one. -/
theorem feeds_dequeue (b : Broker) (now : Time) : Feeds b (b.dequeue now).2 := by
  unfold Broker.dequeue
  split
  · exact .same rfl
  · rename_i t pq hpop
    exact .pop t hpop

/-- `Ack` leaves the heap alone. -/
theorem feeds_ack (b : Broker) (id : TaskID) (fault : Option ℕ) : Feeds b (b.ack γ id fault) := by
  unfold Broker.ack
  split
  · exact .same rfl
  · cases fault with
    | some n => exact .same rfl
    | none =>
      refine Feeds.compact ?_ _
      exact .same rfl

theorem feeds_requeueLocked (b : Broker) (t : Task) (fault : Option ℕ) (caller : ℕ → Caller) :
    Feeds b (b.requeueLocked γ t fault caller) := by
  unfold Broker.requeueLocked
  dsimp only
  cases fault with
  | some n => split <;> exact .same rfl
  | none =>
    split
    · refine Feeds.compact ?_ _
      exact .same rfl
    · exact Feeds.compact (.push _ rfl) _

/-- `Nack` pushes its task back, or leaves the heap alone. -/
theorem feeds_nack (b : Broker) (id : TaskID) (fault : Option ℕ) :
    Feeds b (b.nack γ id fault) := by
  unfold Broker.nack
  split
  · exact .same rfl
  · refine (feeds_requeueLocked { b with tracker := b.tracker.erase id } _ fault _).congr ?_ rfl
    rfl

theorem feeds_onTimeout (b : Broker) (t : Task) (rest : List Task) (fault : Option ℕ) :
    Feeds b (b.onTimeout γ t rest fault) := by
  have hpq : (b.onTimeout γ t rest fault).pq =
      (({ b with scanner := .locked rest } : Broker).requeueLocked γ t fault .scanner).pq := by
    unfold Broker.onTimeout
    dsimp only
    split <;> rfl
  exact (feeds_requeueLocked { b with scanner := .locked rest } t fault .scanner).congr rfl hpq

/-- Recovery pushes the live tasks into an empty heap, in whatever order. -/
theorem feeds_recover {cfg : Config} {w : WAL} {c : ℕ} {order : List Task}
    (hb : recover γ cfg w c order = some b') : Feeds b b' := by
  unfold recover at hb
  dsimp only at hb
  split at hb
  · cases hb
    exact .fill order rfl
  · obtain ⟨w', -, rfl⟩ := Option.map_eq_some_iff.mp hb
    exact .fill order rfl

/-- **Everything a section can do to the heap.** -/
theorem feeds_step (hstep : step γ h m = some h') : Feeds h.broker h'.broker := by
  cases m with
  | enqueue t newID now fault =>
    obtain ⟨-, rfl⟩ := eq_of_locked hstep
    exact feeds_enqueue _ _ fault
  | dequeue now =>
    obtain ⟨-, rfl⟩ := eq_of_locked hstep
    exact feeds_dequeue _ now
  | ack id fault =>
    obtain ⟨-, rfl⟩ := eq_of_locked hstep
    exact feeds_ack _ id fault
  | nack id fault =>
    obtain ⟨-, rfl⟩ := eq_of_locked hstep
    exact feeds_nack _ id fault
  | applyTuning taskTimeout maxRetries =>
    obtain ⟨-, rfl⟩ := eq_of_locked hstep
    exact .same rfl
  | expired now inFlight =>
    simp only [SingleNode.step, Option.ite_none_right_eq_some, Option.some.injEq] at hstep
    obtain ⟨-, rfl⟩ := hstep
    exact .same rfl
  | onTimeout fault =>
    unfold SingleNode.step at hstep
    dsimp only at hstep
    split at hstep
    · obtain ⟨-, rfl⟩ := eq_of_locked hstep
      exact feeds_onTimeout _ _ _ fault
    · cases hstep
  | compact inFlight | rewrite | lead | capture | fsync ok | returns k | resume =>
    exact .same (sameTasks_of_log hstep trivial).pq
  | crash c order cfg =>
    simp only [SingleNode.step, Option.ite_none_right_eq_some, Option.map_eq_some_iff] at hstep
    obtain ⟨-, b', hb', rfl⟩ := hstep
    exact feeds_recover hb'

/-! ### The order of the heap -/

/-- The heap of the broker is in order, and will stay so as tasks are taken out. -/
structure InOrder (b : Broker) : Prop where
  ordered : Heap.Ordered Task.less b.pq
  agree : ClocksAgree b.pq

/-- **Pushes one after the other build an ordered heap.** -/
theorem ordered_foldl_push {l : List Task} (hl : Heap.Ordered Task.less l) {order : List Task}
    (hless : Heap.WeakOrderOn Task.less (order ++ l)) :
    Heap.Ordered Task.less (order.foldl (Heap.push Task.less) l) := by
  induction order generalizing l with
  | nil => exact hl
  | cons t order ih =>
    refine ih (hl.push (hless.of_subset fun u hu => ?_)) (hless.of_subset fun u hu => ?_)
    · rcases List.mem_cons.mp hu with rfl | hu
      · exact List.mem_append_left _ List.mem_cons_self
      · exact List.mem_append_right _ hu
    · rcases List.mem_append.mp hu with hu | hu
      · exact List.mem_append_left _ (List.mem_cons_of_mem _ hu)
      · rcases List.mem_cons.mp ((Heap.push_perm l t).mem_iff.mp hu) with rfl | hu
        · exact List.mem_append_left _ List.mem_cons_self
        · exact List.mem_append_right _ hu

/-- **Every section keeps the heap in order**, if the clocks agree after it. -/
theorem InOrder.feeds (hb : b.InOrder) (hclocks : ClocksAgree b'.pq) (hfeeds : Feeds b b') :
    b'.InOrder := by
  refine ⟨?_, hclocks⟩
  cases hfeeds with
  | same h =>
    rw [h]
    exact hb.ordered
  | push t h =>
    rw [h] at hclocks ⊢
    exact hb.ordered.push (hclocks.weakOrderOn.of_perm (Heap.push_perm b.pq t).symm)
  | pop t h => exact (hb.ordered.pop hb.agree.weakOrderOn h).1
  | fill order h =>
    rw [h] at hclocks ⊢
    refine ordered_foldl_push (fun _ _ => rfl) (hclocks.weakOrderOn.of_perm ?_)
    simpa using (foldl_push [] order).symm

end Broker

/-- The clocks agree on what is pending after the section. -/
def PendingAgree (γ : Codec) (h : History) (m : Move) : Prop :=
  ∀ h' ∈ step γ h m, ClocksAgree h'.broker.pq

instance (γ : Codec) (h : History) (m : Move) : Decidable (PendingAgree γ h m) :=
  inferInstanceAs (Decidable (∀ h' ∈ step γ h m, ClocksAgree h'.broker.pq))

/-- **Priority dispatch.** In every state that a broker comes to while the clocks agree on
what is pending, the task that a `Dequeue` hands out has been pending, what is pending afterwards
is what was pending without it, and none of it has a smaller priority value, or the same one and
an earlier time of creation. -/
theorem dequeue_first {cfg : Config} {ms : List Move} {now : Time} {b' : Broker}
    (hrun : Run.exec (step γ) (History.start cfg) ms = some h)
    (hclocks : Run.Guarded (step γ) (PendingAgree γ) (History.start cfg) ms)
    (hdeq : h.broker.dequeue now = (some t, b')) :
    ∃ t₀, t = { t₀ with status := .inFlight, deadline := now + h.broker.cfg.taskTimeout } ∧
      h.broker.pq.Perm (t₀ :: b'.pq) ∧
      ∀ u ∈ b'.pq,
        ¬(u.priority < t.priority ∨ u.priority = t.priority ∧ u.before t = true) := by
  have horder : h.broker.InOrder := Run.invariant_of_guarded (P := fun h => h.broker.InOrder)
    ⟨fun _ _ => rfl, fun v hv => absurd hv List.not_mem_nil⟩
    (fun _ _ _ hb hG hstep => hb.feeds (hG _ hstep) (Broker.feeds_step hstep)) hclocks hrun
  unfold Broker.dequeue at hdeq
  split at hdeq
  · cases (Prod.mk.inj hdeq).1
  · rename_i t₀ pq hpop
    obtain ⟨ht, rfl⟩ := Prod.mk.inj hdeq
    cases ht
    have hperm := Heap.perm_of_pop hpop
    refine ⟨t₀, rfl, hperm, fun u hu hfirst => ?_⟩
    have hless := (horder.ordered.pop horder.agree.weakOrderOn hpop).2 u
      (hperm.mem_iff.mpr (List.mem_cons_of_mem _ hu))
    have hlt : u.less t₀ = true := Task.less_iff.mpr hfirst
    rw [hless] at hlt
    cases hlt

/-- The task `c` is delivered and nacked, and the broker crashes. The log is read back into a map
that yields `a` first. Then a task is enqueued without a time. -/
def mixedPriorities : List Move :=
  [.enqueue (.timed "a" 5 1) "" 9 none, .enqueue (.timed "b" 1 3) "" 9 none,
    .enqueue (.timed "c" 1 2) "" 9 none, .dequeue 10, .nack "c" none, .lead, .capture, .fsync true,
    .crash 93 [.timed "a" 5 1, .timed "b" 1 3, { Task.timed "c" 1 2 with retryCount := 1 }]
      ⟨5, 30, 0⟩, .enqueue (.timed "d" 1 0) "" 12 none]

/-- The theorem at a run with four tasks of different priorities. -/
theorem dequeue_first_mixed :
    ∃ h t b', Run.exec (step plainCodec) (History.start ⟨5, 30, 0⟩) mixedPriorities = some h ∧
      h.broker.dequeue 50 = (some t, b') ∧ t.id = "c" ∧ b'.pq.map Task.id = ["b", "d", "a"] ∧
      ∀ u ∈ b'.pq,
        ¬(u.priority < t.priority ∨ u.priority = t.priority ∧ u.before t = true) := by
  have hend : (Run.exec (step plainCodec) (History.start ⟨5, 30, 0⟩) mixedPriorities).map
      (fun h => ((h.broker.dequeue 50).1.map Task.id, (h.broker.dequeue 50).2.pq.map Task.id)) =
      some (some "c", ["b", "d", "a"]) := by
    decide +kernel
  have hclocks : Run.Guarded (step plainCodec) (PendingAgree plainCodec)
      (History.start ⟨5, 30, 0⟩) mixedPriorities := by
    decide +kernel
  obtain ⟨h, hrun, hend⟩ := Option.map_eq_some_iff.mp hend
  obtain ⟨hid, hrest⟩ := Prod.mk.inj hend
  obtain ⟨t, ht, hid⟩ := Option.map_eq_some_iff.mp hid
  have hdeq : h.broker.dequeue 50 = (some t, (h.broker.dequeue 50).2) := Prod.ext ht rfl
  obtain ⟨-, -, -, hfirst⟩ := dequeue_first hrun hclocks hdeq
  exact ⟨h, t, _, hrun, hdeq, hid, hrest, hfirst⟩

/-- The task `a` has been recovered from the log and is in flight. The wall clock is set back
between the enqueues of `c` and `b`, and `a` is nacked. -/
def clockSetBack : List Move :=
  [.enqueue (.named "a") "" ⟨10, 10⟩ none, .lead, .capture, .fsync true,
    .crash 26 [.timed "a" 0 10] ⟨5, 30, 0⟩, .dequeue 15,
    .enqueue (.named "c") "" ⟨20, 50⟩ none, .enqueue (.named "b") "" ⟨5, 100⟩ none, .nack "a" none]

/-- What is pending beside `a`: the times of both tasks have monotonic readings. -/
def besideA : List Task :=
  [{ Task.timed "c" 0 20 with mono := some 50 }, { Task.timed "b" 0 5 with mono := some 100 }]

/-- **A clock that is set back hides an older task.** The task `b` goes below `c`, by their
readings, and `a` above `c`, by the wall clock; so `a` is handed out, and is never compared with
`b`, which is before it by the wall clock. -/
theorem dequeue_not_first :
    ∃ h t b', Run.exec (step plainCodec) (History.start ⟨5, 30, 0⟩) clockSetBack = some h ∧
      h.broker.dequeue 120 = (some t, b') ∧
      ∃ u ∈ b'.pq, u.priority = t.priority ∧ u.before t = true := by
  have hend : (Run.exec (step plainCodec) (History.start ⟨5, 30, 0⟩) clockSetBack).map
      (fun h => ((h.broker.dequeue 120).1, (h.broker.dequeue 120).2.pq)) =
      some (some { Task.timed "a" 0 10 with retryCount := 1, status := .inFlight, deadline := 150 },
        besideA) := by
    decide +kernel
  obtain ⟨h, hrun, hend⟩ := Option.map_eq_some_iff.mp hend
  obtain ⟨ht, hrest⟩ := Prod.mk.inj hend
  refine ⟨h, _, (h.broker.dequeue 120).2, hrun, Prod.ext ht rfl, ?_⟩
  rw [hrest]
  decide

end SingleNode

end DistQueue
