import DistQueue.Broker.Task
import DistQueue.Run
import Mathlib.Data.Int.Order.Basic
import Mathlib.Data.List.Nodup
import Mathlib.Data.Prod.Lex

/-!
# First come, first served

The priority queue by itself: a heap of tasks under `DistQueue.Broker.Task.less`, pushed to and
popped from in any order. It is meant to be first come first served among tasks of one
priority, with the time of creation as the tiebreak.

The tiebreak does that as long as no two tasks of one priority and one time are in the queue
together (`DistQueue.Broker.served_in_turn`). If they are, nothing in the order tells them apart,
and a binary heap is not stable: of three such tasks, the one that was pushed last is popped
second (`DistQueue.Broker.pops_out_of_turn`).

To say which push a popped task came from, the queue here holds each task with the number of
its push. The heap routines look at the tasks only (`DistQueue.Heap.pop_map`).
-/

namespace DistQueue

namespace Broker

/-- The order of the queue compares by priority and time. -/
theorem Task.less_iff {t u : Task} :
    t.less u = true ↔ t.priority < u.priority ∨ t.priority = u.priority ∧ t.before u = true := by
  unfold less
  split
  · rename_i hne
    rw [decide_eq_true_iff]
    constructor
    · exact .inl
    · rintro (hlt | ⟨heq, -⟩)
      · exact hlt
      · exact absurd heq hne
  · rename_i heq
    rw [ne_eq, not_not] at heq
    constructor
    · exact fun hbefore => .inr ⟨heq, hbefore⟩
    · rintro (hlt | ⟨-, hbefore⟩)
      · exact absurd heq hlt.ne
      · exact hbefore

/-- Two monotonic readings are compared with each other. -/
theorem Task.before_of_readings {t u : Task} {a b : Time} (ht : t.mono = some a)
    (hu : u.mono = some b) : t.before u = decide (a < b) := by
  rw [before, ht, hu]

/-- Without one of them the wall clocks are compared. -/
theorem Task.before_of_wall {t u : Task} (h : t.mono = none ∨ u.mono = none) :
    t.before u = decide (t.createdAt < u.createdAt) := by
  unfold before
  split
  · rename_i a b ht hu
    rw [ht, hu] at h
    rcases h with h | h <;> cases h
  · rfl

/-- No time is before another that is before it. -/
theorem Task.before_asymm {t u : Task} (h : t.before u = true) : u.before t = false := by
  cases ht : t.mono with
  | none =>
    rw [before_of_wall (.inl ht), decide_eq_true_iff] at h
    rw [before_of_wall (.inr ht), decide_eq_false_iff_not]
    exact h.not_gt
  | some a =>
    cases hu : u.mono with
    | none =>
      rw [before_of_wall (.inr hu), decide_eq_true_iff] at h
      rw [before_of_wall (.inl hu), decide_eq_false_iff_not]
      exact h.not_gt
    | some b =>
      rw [before_of_readings ht hu, decide_eq_true_iff] at h
      rw [before_of_readings hu ht, decide_eq_false_iff_not]
      exact h.not_gt

/-- A task and the number of its push. -/
structure Pushed where
  task : Task
  number : ℕ
  deriving DecidableEq

/-- The order of the queue, on numbered tasks. -/
def Pushed.less (x y : Pushed) : Bool := x.task.less y.task

/-- If tasks of one priority are in the order of their numbers, the queue's order compares by
priority and number. -/
theorem Pushed.weakOrderOn_less {l : List Pushed} (hnodup : (l.map number).Nodup)
    (hearlier : ∀ x ∈ l, ∀ y ∈ l, x.task.priority = y.task.priority → x.number < y.number →
      x.task.before y.task = true) : Heap.WeakOrderOn less l := by
  refine Heap.weakOrderOn_of_key (fun x => toLex (x.task.priority, x.number)) fun x hx y hy => ?_
  rw [less, Task.less_iff, Prod.Lex.toLex_lt_toLex]
  refine or_congr_right (and_congr_right fun hp => ⟨fun hbefore => ?_, hearlier x hx y hy hp⟩)
  by_contra hle
  rcases (Nat.not_lt.mp hle).lt_or_eq with hlt | heq
  · rw [Task.before_asymm (hearlier y hy x hx hp.symm hlt)] at hbefore
    cases hbefore
  · obtain rfl := List.inj_on_of_nodup_map hnodup hy hx heq
    rw [Task.before_asymm hbefore] at hbefore
    cases hbefore

/-- The queue, with what has been pushed and what has been popped, in order. -/
structure PriorityQueue where
  heap : List Pushed
  pushed : List Task
  popped : List Pushed

/-- A call of the queue. -/
inductive QueueCall
  | push (t : Task)
  | pop

namespace PriorityQueue

variable {q q' : PriorityQueue} {c : QueueCall}

/-- The empty queue. -/
def new : PriorityQueue := ⟨[], [], []⟩

/-- One call. A pop from the empty queue returns nil. -/
def step (q : PriorityQueue) : QueueCall → Option PriorityQueue
  | .push t => some { q with
      heap := Heap.push Pushed.less q.heap ⟨t, q.pushed.length⟩
      pushed := q.pushed ++ [t] }
  | .pop =>
    match Heap.pop Pushed.less q.heap with
    | none => some q
    | some (x, heap) => some { q with heap, popped := q.popped ++ [x] }

/-- **Tasks of one priority come out in the order in which they were pushed**: those that have
been popped did, and none that is still in the queue was pushed before one of them. -/
structure InTurn (q : PriorityQueue) : Prop where
  popped : q.popped.Pairwise fun x y => x.task.priority = y.task.priority → x.number < y.number
  waiting : ∀ x ∈ q.popped, ∀ y ∈ q.heap, x.task.priority = y.task.priority → x.number < y.number

/-- Tasks are pushed in the order of their times of creation: the time of none is before that
of one pushed earlier. -/
def Clocked (q : PriorityQueue) : QueueCall → Prop
  | .push t => ∀ u ∈ q.pushed, t.before u = false
  | .pop => True

/-- **No task is pushed while one of its priority and its time is in the queue**: of two tasks of
one priority, the time of one is before that of the other. -/
def Distinct (q : PriorityQueue) : QueueCall → Prop
  | .push t => ∀ x ∈ q.heap, x.task.priority = t.priority →
      x.task.before t = true ∨ t.before x.task = true
  | .pop => True

instance (q : PriorityQueue) (c : QueueCall) : Decidable (q.Clocked c ∧ q.Distinct c) := by
  cases c <;> dsimp only [Clocked, Distinct] <;> infer_instance

/-- What the pushes keep: the numbers tell the tasks in the queue apart, and go with the times
among tasks of one priority. -/
structure Dated (q : PriorityQueue) : Prop where
  ordered : Heap.Ordered Pushed.less q.heap
  known : ∀ x ∈ q.heap, q.pushed[x.number]? = some x.task
  nodup : (q.heap.map Pushed.number).Nodup
  earlier : ∀ x ∈ q.heap, ∀ y ∈ q.heap, x.task.priority = y.task.priority →
    x.number < y.number → x.task.before y.task = true
  past : ∀ x ∈ q.popped, x.number < q.pushed.length
  inTurn : q.InTurn

theorem dated_new : new.Dated := by
  refine ⟨?_, ?_, List.nodup_nil, ?_, ?_, List.Pairwise.nil, ?_⟩
  · exact fun k _ => rfl
  all_goals exact fun x hx => absurd hx List.not_mem_nil

/-- A push keeps the order of the clock and of the numbers. -/
theorem Dated.push {t : Task} (h : q.Dated) (hclock : q.Clocked (.push t))
    (hnew : q.Distinct (.push t)) :
    Dated { q with
      heap := Heap.push Pushed.less q.heap ⟨t, q.pushed.length⟩
      pushed := q.pushed ++ [t] } := by
  have hperm : (Heap.push Pushed.less q.heap ⟨t, q.pushed.length⟩).Perm _ := Heap.push_perm ..
  have hlt : ∀ x ∈ q.heap, x.number < q.pushed.length := fun x hx =>
    (List.getElem?_eq_some_iff.mp (h.known x hx)).1
  have hnodup : ((⟨t, q.pushed.length⟩ :: q.heap).map Pushed.number).Nodup := by
    rw [List.map_cons, List.nodup_cons]
    refine ⟨fun hmem => ?_, h.nodup⟩
    obtain ⟨x, hx, hxn⟩ := List.mem_map.mp hmem
    exact absurd (hlt x hx) (by rw [hxn]; exact Nat.lt_irrefl _)
  have hearlier : ∀ x ∈ ⟨t, q.pushed.length⟩ :: q.heap, ∀ y ∈ ⟨t, q.pushed.length⟩ :: q.heap,
      x.task.priority = y.task.priority → x.number < y.number →
        x.task.before y.task = true := by
    intro x hx y hy hp hn
    rcases List.mem_cons.mp hx with rfl | hx
    · rcases List.mem_cons.mp hy with rfl | hy
      · exact absurd hn (Nat.lt_irrefl _)
      · exact absurd hn (Nat.not_lt.mpr (hlt y hy).le)
    · rcases List.mem_cons.mp hy with rfl | hy
      · refine (hnew x hx hp).resolve_right fun hback => ?_
        rw [hclock x.task (List.mem_of_getElem? (h.known x hx))] at hback
        cases hback
      · exact h.earlier x hx y hy hp hn
  refine ⟨h.ordered.push (Pushed.weakOrderOn_less hnodup hearlier), fun x hx => ?_,
    (hperm.map _).nodup_iff.mpr hnodup,
    fun x hx y hy => hearlier x (hperm.mem_iff.mp hx) y (hperm.mem_iff.mp hy),
    fun x hx => ?_, h.inTurn.popped, fun x hx y hy hp => ?_⟩
  · rcases List.mem_cons.mp (hperm.mem_iff.mp hx) with rfl | hx
    · simp
    · rw [List.getElem?_append_left (hlt x hx)]
      exact h.known x hx
  · rw [List.length_append]
    exact Nat.lt_add_right _ (h.past x hx)
  · rcases List.mem_cons.mp (hperm.mem_iff.mp hy) with rfl | hy
    · exact h.past x hx
    · exact h.inTurn.waiting x hx y hy hp

/-- A pop takes the first in the order of both. -/
theorem Dated.pop {x : Pushed} {heap : List Pushed} (h : q.Dated)
    (hpop : Heap.pop Pushed.less q.heap = some (x, heap)) :
    Dated { q with heap, popped := q.popped ++ [x] } := by
  obtain ⟨hord, hmin⟩ := h.ordered.pop (Pushed.weakOrderOn_less h.nodup h.earlier) hpop
  have hperm := Heap.perm_of_pop hpop
  have hx : x ∈ q.heap := hperm.mem_iff.mpr List.mem_cons_self
  have hsub : ∀ y ∈ heap, y ∈ q.heap := fun y hy => hperm.mem_iff.mpr (List.mem_cons_of_mem _ hy)
  have hnodup := (hperm.map Pushed.number).nodup_iff.mp h.nodup
  rw [List.map_cons, List.nodup_cons] at hnodup
  -- a task of the same priority that was pushed before would be smaller in the heap
  have hfirst : ∀ y ∈ heap, x.task.priority = y.task.priority → x.number < y.number := by
    intro y hy hp
    by_contra hle
    have hne : y.number ≠ x.number := fun heq => hnodup.1 (heq ▸ List.mem_map_of_mem hy)
    have htime := h.earlier y (hsub y hy) x hx hp.symm (by omega)
    have hless : y.less x = true := Task.less_iff.mpr (.inr ⟨hp.symm, htime⟩)
    rw [hmin y (hsub y hy)] at hless
    cases hless
  refine ⟨hord, fun y hy => h.known y (hsub y hy), hnodup.2,
    fun y hy z hz => h.earlier y (hsub y hy) z (hsub z hz), fun y hy => ?_, ?_, fun y hy z hz => ?_⟩
  · rcases List.mem_append.mp hy with hy | hy
    · exact h.past y hy
    · rw [List.mem_singleton.mp hy]
      exact (List.getElem?_eq_some_iff.mp (h.known x hx)).1
  · refine List.pairwise_append.mpr ⟨h.inTurn.popped, List.pairwise_singleton _ _,
      fun y hy z hz => ?_⟩
    rw [List.mem_singleton.mp hz]
    exact h.inTurn.waiting y hy x hx
  · rcases List.mem_append.mp hy with hy | hy
    · exact h.inTurn.waiting y hy z (hsub z hz)
    · rw [List.mem_singleton.mp hy]
      exact hfirst z hz

/-- **Every call keeps it so**, as long as the clock does not go back and no two tasks are alike. -/
theorem Dated.step (h : q.Dated) (hc : q.Clocked c ∧ q.Distinct c) (hs : q.step c = some q') :
    q'.Dated := by
  cases c with
  | push t =>
    cases hs
    exact h.push hc.1 hc.2
  | pop =>
    simp only [PriorityQueue.step] at hs
    split at hs
    · cases hs
      exact h
    · rename_i x heap hpop
      cases hs
      exact h.pop hpop

end PriorityQueue

/-- **First come, first served.** In every sequence of pushes and pops in which tasks are pushed
in the order of their times, and none while one of its priority and its time is in the queue,
tasks of one priority are popped in the order in which they were pushed. -/
theorem served_in_turn {cs : List QueueCall} {q : PriorityQueue}
    (hrun : Run.exec PriorityQueue.step .new cs = some q)
    (hcs : Run.Guarded PriorityQueue.step (fun q c => q.Clocked c ∧ q.Distinct c) .new cs) :
    q.InTurn :=
  (Run.invariant_of_guarded PriorityQueue.dated_new (fun _ _ _ h hc hs => h.step hc hs) hcs
    hrun).inTurn

/-- A task of the given priority and time. -/
def Task.timed (id : TaskID) (priority : ℤ) (createdAt : Time) : Task :=
  { Task.named id with priority, createdAt }

/-- Tasks of two priorities, two of one priority and one time but not in the queue together. -/
def takenInTurn : List QueueCall :=
  [.push (.timed "a" 1 5), .push (.timed "b" 1 6), .push (.timed "c" 0 6), .pop, .pop, .pop,
    .push (.timed "d" 1 6), .push (.timed "e" 1 7), .pop, .pop]

theorem served_in_turn_taken :
    ∃ q, Run.exec PriorityQueue.step .new takenInTurn = some q ∧
      q.popped.map (·.task.id) = ["c", "a", "b", "d", "e"] ∧ q.InTurn := by
  obtain ⟨q, hq⟩ : ∃ q, Run.exec PriorityQueue.step .new takenInTurn = some q := ⟨_, rfl⟩
  have hids : (Run.exec PriorityQueue.step .new takenInTurn).map
      (fun q => q.popped.map (·.task.id)) = some ["c", "a", "b", "d", "e"] := by
    decide +kernel
  rw [hq, Option.map_some, Option.some.injEq] at hids
  exact ⟨q, hq, hids, served_in_turn hq (by decide +kernel)⟩

/-- **A heap is not stable.** Three tasks of one priority and one time are pushed. The first is
popped; the last is moved to the root, which the second is not smaller than, and popped next. -/
theorem pops_out_of_turn :
    ∃ q, Run.exec PriorityQueue.step .new
        [.push (.timed "a" 1 5), .push (.timed "b" 1 5), .push (.timed "c" 1 5), .pop, .pop, .pop] =
        some q ∧
      q.popped.map (·.number) = [0, 2, 1] ∧ ¬q.InTurn := by
  refine ⟨_, rfl, by decide +kernel, fun h => ?_⟩
  have hpairs := h.popped
  revert hpairs
  decide +kernel

end Broker

end DistQueue
