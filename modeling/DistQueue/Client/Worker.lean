import DistQueue.Client.Failover
import Mathlib.Algebra.Order.Ring.Int
import Mathlib.Tactic.Linarith

/-!
# The worker

The loop of the worker SDK: it asks for a task, runs the handler, and acks or nacks the task; while
there is nothing to do or the cluster cannot be reached, it waits, twice as long each time, up to a
bound. Durations are the 64-bit integers of the source, in nanoseconds.

The loop is a machine whose states are the places at which it waits for something from outside
(`DistQueue.Client.Loop`): the context, a reply of the client, the end of a sleep, the handler. A
panic in the handler counts as its failure, but nothing catches the panic of a random number that
is asked for out of an empty range, and this is what a sleep of less than two nanoseconds comes to.

For the ordinary configurations the loop does not get there, and the waits are what they should be:
after `k` failures in a row, between half and all of the `k`-th doubling of the least wait, or of
the greatest (`DistQueue.Client.backoff_doubles`).
-/

namespace DistQueue

namespace Client

open Broker Server

/-- A 64-bit duration. -/
def duration (d : ℤ) : ℤ := Int.bmod d (2 ^ 64)

/-- The settings of a worker pool. -/
structure WorkerConfig where
  concurrency : ℤ
  minBackoff : ℤ
  maxBackoff : ℤ

/-- The configuration with its defaults. -/
def newWorker (cfg : WorkerConfig) : WorkerConfig where
  concurrency := if cfg.concurrency ≤ 0 then 1 else cfg.concurrency
  minBackoff := if cfg.minBackoff ≤ 0 then 50000000 else cfg.minBackoff
  maxBackoff := if cfg.maxBackoff ≤ 0 then 5000000000 else cfg.maxBackoff

/-- A random number below `n`, by what the generator has drawn; it panics if there is none. -/
def int63n (n : ℤ) (draw : ℕ) : Option ℤ := if n ≤ 0 then none else some (draw % n)

/-- A duration between half of `d` and `d`. -/
def jitter (d : ℤ) (draw : ℕ) : Option ℤ :=
  (int63n (d.tdiv 2) draw).map fun r => duration (d.tdiv 2 + r)

/-- What a handler comes to. -/
inductive Outcome
  | done
  | failed
  | panicked
  deriving DecidableEq

/-- How a task is finished. -/
inductive Verdict
  | ack
  | nack
  deriving DecidableEq

/-- The handler's error, with a panic turned into one. -/
def safeHandle : Outcome → Verdict
  | .done => .ack
  | .failed | .panicked => .nack

/-- Where the loop is. -/
inductive Loop
  /-- About to look at the context. -/
  | polling (backoff : ℤ)
  /-- In the call of `Dequeue`. -/
  | dequeuing (backoff : ℤ)
  | sleeping (backoff d : ℤ)
  | handling (task : ProtoTask)
  /-- In the call of `Ack` or `Nack`. -/
  | finishing (v : Verdict) (task : ProtoTask)
  | stopped
  /-- A panic that nothing catches. -/
  | panicked

/-- What the loop is told. -/
inductive Event
  /-- Whether the context is done. -/
  | context (done : Bool)
  /-- The result of `Dequeue`, with whether the context is done then, and a random number. -/
  | dequeued (r : Except Error ProtoTask) (done : Bool) (draw : ℕ)
  /-- Whether the sleep was cut short by the context. -/
  | slept (done : Bool)
  | handled (o : Outcome)
  /-- The result of `Ack` or `Nack`, which is only logged. -/
  | finished (r : Except Error Unit)

/-- **The loop of one goroutine**: poll, handle, report, and back off when there is nothing to
do. -/
def Loop.step (cfg : WorkerConfig) : Loop → Event → Option Loop
  | .polling backoff, .context done => some (if done then .stopped else .dequeuing backoff)
  | .dequeuing _, .dequeued (.ok task) _ _ => some (.handling task)
  | .dequeuing backoff, .dequeued (.error _) done draw =>
    some (if done then .stopped
      else match jitter backoff draw with
        | some d => .sleeping backoff d
        | none => .panicked)
  | .sleeping backoff _, .slept done =>
    some (if done then .stopped else .polling (min (duration (backoff * 2)) cfg.maxBackoff))
  | .handling task, .handled o => some (.finishing (safeHandle o) task)
  | .finishing _ _, .finished _ => some (.polling cfg.minBackoff)
  | _, _ => none

/-- The handler is given what `Dequeue` has returned. -/
theorem Loop.step_handling {cfg : WorkerConfig} {l : Loop} {e : Event} {task : ProtoTask}
    (h : l.step cfg e = some (.handling task)) :
    ∃ backoff done draw, l = .dequeuing backoff ∧ e = .dequeued (.ok task) done draw := by
  unfold Loop.step at h
  split at h
  case h_2 backoff task' done draw =>
    cases h
    exact ⟨backoff, done, draw, rfl, rfl⟩
  case h_3 =>
    have h := Option.some.inj h
    split at h
    · cases h
    · split at h <;> cases h
  case h_5 | h_6 | h_7 => cases h
  all_goals
    have h := Option.some.inj h
    split at h <;> cases h

/-- A task is finished by what its handler came to. -/
theorem Loop.step_finishing {cfg : WorkerConfig} {l : Loop} {e : Event} {v : Verdict}
    {task : ProtoTask} (h : l.step cfg e = some (.finishing v task)) :
    ∃ o, l = .handling task ∧ e = .handled o ∧ v = safeHandle o := by
  unfold Loop.step at h
  split at h
  case h_5 task' o =>
    cases h
    exact ⟨o, rfl, rfl, rfl⟩
  case h_3 =>
    have h := Option.some.inj h
    split at h
    · cases h
    · split at h <;> cases h
  case h_2 | h_6 | h_7 => cases h
  all_goals
    have h := Option.some.inj h
    split at h <;> cases h

/-- A goroutine before its first poll. -/
def Loop.start (cfg : WorkerConfig) : Loop := .polling cfg.minBackoff

/-- The failures of `Dequeue` since a task was handed out. -/
def failures (xs : List Event) : ℕ :=
  xs.foldl (fun k x => match x with
    | .dequeued (.ok _) _ _ => 0
    | .dequeued (.error _) _ _ => k + 1
    | _ => k) 0

/-- The wait after `k` failures in a row. -/
def backoffAfter (cfg : WorkerConfig) (k : ℕ) : ℤ :=
  if k = 0 then cfg.minBackoff else min (cfg.minBackoff * 2 ^ k) cfg.maxBackoff

section Backoff

variable {cfg : WorkerConfig} {xs : List Event} {x : Event} {l l' : Loop} {b d : ℤ}

/-- **A configuration of ordinary size**: twice a wait is still a duration. -/
structure Ordinary (cfg : WorkerConfig) : Prop where
  min_lt : cfg.minBackoff < 2 ^ 62
  max_lt : cfg.maxBackoff < 2 ^ 62

/-- A duration in range is not cut off. -/
theorem duration_of_lt (hd : 0 ≤ d) (hlt : d < 2 ^ 63) : duration d = d := by
  rw [duration]
  exact Int.bmod_eq_of_le (by omega) (by omega)

/-- **A sleep** is between half of the wait and the wait. -/
theorem jitter_eq (hb : 2 ≤ b) (hlt : b < 2 ^ 62) (draw : ℕ) :
    ∃ d, jitter b draw = some d ∧ b / 2 ≤ d ∧ d < b := by
  have hdiv : b.tdiv 2 = b / 2 := Int.tdiv_eq_ediv_of_nonneg (by omega)
  have hpos : 0 < b / 2 := by omega
  have hr := Int.emod_nonneg (draw : ℤ) hpos.ne'
  have hr' := Int.emod_lt_of_pos (draw : ℤ) hpos
  refine ⟨b / 2 + draw % (b / 2), ?_, by omega, by omega⟩
  rw [jitter, hdiv, int63n, if_neg (by omega), Option.map_some,
    duration_of_lt (by omega) (by omega)]

/-- A wait that is too short for half of it to be anything. -/
theorem jitter_one (draw : ℕ) : jitter 1 draw = none := rfl

/-- The backoffs of a worker leave room for a doubling. -/
theorem newWorker_bounds (hcfg : Ordinary cfg) :
    1 ≤ (newWorker cfg).minBackoff ∧ 1 ≤ (newWorker cfg).maxBackoff ∧
      (newWorker cfg).minBackoff < 2 ^ 62 ∧ (newWorker cfg).maxBackoff < 2 ^ 62 := by
  obtain ⟨hmin, hmax⟩ := hcfg
  simp only [newWorker]
  refine ⟨?_, ?_, ?_, ?_⟩ <;> split <;> omega

/-- The waits are in range. -/
theorem backoffAfter_bounds (hcfg : Ordinary cfg) (hmin : cfg.minBackoff ≠ 1)
    (hmax : cfg.maxBackoff ≠ 1) (k : ℕ) :
    2 ≤ backoffAfter (newWorker cfg) k ∧ backoffAfter (newWorker cfg) k < 2 ^ 62 := by
  have hmin' : 2 ≤ (newWorker cfg).minBackoff := by
    simp only [newWorker]
    split <;> omega
  have hmax' : 2 ≤ (newWorker cfg).maxBackoff := by
    simp only [newWorker]
    split <;> omega
  obtain ⟨-, -, hmin, hmax⟩ := newWorker_bounds hcfg
  have hpow : (1 : ℤ) ≤ 2 ^ k := one_le_pow₀ (by norm_num)
  rw [backoffAfter]
  split
  · exact ⟨hmin', hmin⟩
  · refine ⟨le_min ?_ hmax', lt_of_le_of_lt (min_le_right _ _) hmax⟩
    nlinarith

/-- The next wait. -/
theorem backoffAfter_succ (hcfg : Ordinary cfg) (hmin : cfg.minBackoff ≠ 1)
    (hmax : cfg.maxBackoff ≠ 1) (k : ℕ) :
    min (duration (backoffAfter (newWorker cfg) k * 2)) (newWorker cfg).maxBackoff =
      backoffAfter (newWorker cfg) (k + 1) := by
  obtain ⟨hlo, hhi⟩ := backoffAfter_bounds hcfg hmin hmax k
  obtain ⟨-, hpos, -⟩ := newWorker_bounds hcfg
  rw [duration_of_lt (by omega) (by omega), backoffAfter, backoffAfter, if_neg (Nat.succ_ne_zero k)]
  split
  · rename_i hk
    rw [hk, zero_add, pow_one]
  · rw [pow_succ, ← mul_assoc]
    omega

/-- **The loop after `k` failures in a row.** -/
def Loop.Waits (cfg : WorkerConfig) (k : ℕ) : Loop → Prop
  | .polling b | .dequeuing b => b = backoffAfter cfg k
  | .sleeping b d => ∃ j, k = j + 1 ∧ b = backoffAfter cfg j ∧ b / 2 ≤ d ∧ d < b
  | .handling _ | .finishing _ _ => k = 0
  | .stopped => True
  | .panicked => False

/-- **Every step of the loop.** -/
theorem Loop.Waits.step (hcfg : Ordinary cfg) (hmin : cfg.minBackoff ≠ 1)
    (hmax : cfg.maxBackoff ≠ 1) (h : l.Waits (newWorker cfg) (failures xs))
    (hs : l.step (newWorker cfg) x = some l') :
    l'.Waits (newWorker cfg) (failures (xs ++ [x])) := by
  rw [failures, List.foldl_append, ← failures]
  cases l with
  | polling b =>
    cases x with
    | context done =>
      cases hs
      cases done with
      | true => trivial
      | false => exact h
    | _ => cases hs
  | dequeuing b =>
    cases x with
    | dequeued r done draw =>
      cases r with
      | ok task =>
        cases hs
        rfl
      | error err =>
        cases hs
        cases done with
        | true => trivial
        | false =>
          obtain rfl : b = _ := h
          obtain ⟨hlo, hhi⟩ := backoffAfter_bounds hcfg hmin hmax (failures xs)
          obtain ⟨d, hd, hrange⟩ := jitter_eq hlo hhi draw
          simp only [hd]
          exact ⟨failures xs, rfl, rfl, hrange⟩
    | _ => cases hs
  | sleeping b d =>
    cases x with
    | slept done =>
      cases hs
      cases done with
      | true => trivial
      | false =>
        obtain ⟨j, hj, rfl, -⟩ := h
        exact (backoffAfter_succ hcfg hmin hmax j).trans (congrArg _ hj.symm)
    | _ => cases hs
  | handling task =>
    cases x with
    | handled o =>
      cases hs
      exact h
    | _ => cases hs
  | finishing v task =>
    cases x with
    | finished r =>
      cases hs
      exact (if_pos h).symm
    | _ => cases hs
  | stopped => cases x <;> cases hs
  | panicked => exact h.elim

/-- **Whatever happens, the loop waits as the failures in a row say.** -/
theorem waits_of_exec (hcfg : Ordinary cfg) (hmin : cfg.minBackoff ≠ 1)
    (hmax : cfg.maxBackoff ≠ 1)
    (hl : Run.exec (Loop.step (newWorker cfg)) (Loop.start (newWorker cfg)) xs = some l) :
    l.Waits (newWorker cfg) (failures xs) := by
  have hstart : (Loop.start (newWorker cfg)).Waits (newWorker cfg) (failures []) := rfl
  exact Run.induction (P := fun xs l => Loop.Waits (newWorker cfg) (failures xs) l) hstart
    (fun _ _ _ _ _ h hx => h.step hcfg hmin hmax hx) hl

/-- **The waits double.** Let the least and the greatest wait be of ordinary size, and neither of
them one nanosecond. In every run of the loop, when `Dequeue` has failed `k` times in a row, the
next wait is the least one doubled `k` times, but not more than the greatest one; every sleep is
between half of its wait and the wait; after a task the waits begin anew; and nothing panics. -/
theorem backoff_doubles (hcfg : Ordinary cfg) (hmin : cfg.minBackoff ≠ 1)
    (hmax : cfg.maxBackoff ≠ 1)
    (hl : Run.exec (Loop.step (newWorker cfg)) (Loop.start (newWorker cfg)) xs = some l) :
    l ≠ .panicked ∧
      (∀ b, l = .polling b ∨ l = .dequeuing b →
        b = backoffAfter (newWorker cfg) (failures xs)) ∧
      (∀ b d, l = .sleeping b d → 0 < failures xs ∧
        b = backoffAfter (newWorker cfg) (failures xs - 1) ∧ b / 2 ≤ d ∧ d < b) ∧
      ∀ v task, l = .handling task ∨ l = .finishing v task → failures xs = 0 := by
  have hwaits := waits_of_exec hcfg hmin hmax hl
  refine ⟨?_, ?_, ?_, ?_⟩
  · rintro rfl
    exact hwaits
  · rintro b (rfl | rfl) <;> exact hwaits
  · rintro b d rfl
    obtain ⟨j, hj, hb, hrange⟩ := hwaits
    rw [hj]
    exact ⟨Nat.succ_pos j, hb, hrange⟩
  · rintro v task (rfl | rfl) <;> exact hwaits

/-- The queue is empty three times. -/
def threeTimesEmpty : List Event :=
  let empty : Event := .dequeued (.error ⟨.notFound, "queue is empty"⟩) false 0
  [.context false, empty, .slept false, .context false, empty, .slept false, .context false,
    empty, .slept false]

theorem backoff_doubles_threeTimesEmpty :
    ∃ l, Run.exec (Loop.step (newWorker ⟨0, 0, 0⟩)) (Loop.start (newWorker ⟨0, 0, 0⟩))
        threeTimesEmpty = some l ∧ l ≠ .panicked ∧
      (∀ b, l = .polling b ∨ l = .dequeuing b →
        b = backoffAfter (newWorker ⟨0, 0, 0⟩) (failures threeTimesEmpty)) ∧
      (∀ b d, l = .sleeping b d → 0 < failures threeTimesEmpty ∧
        b = backoffAfter (newWorker ⟨0, 0, 0⟩) (failures threeTimesEmpty - 1) ∧ b / 2 ≤ d ∧
          d < b) ∧
      ∀ v task, l = .handling task ∨ l = .finishing v task → failures threeTimesEmpty = 0 :=
  ⟨.polling 400000000, rfl,
    backoff_doubles ⟨by decide, by decide⟩ (by decide) (by decide) rfl⟩

/-- **When a worker panics.** A loop with waits of ordinary size can panic – outside the handler,
where nothing catches it – if and only if its least or its greatest wait is one nanosecond. -/
theorem worker_panics_iff (hcfg : Ordinary cfg) :
    (∃ xs, Run.exec (Loop.step (newWorker cfg)) (Loop.start (newWorker cfg)) xs =
      some .panicked) ↔ cfg.minBackoff = 1 ∨ cfg.maxBackoff = 1 := by
  constructor
  · rintro ⟨xs, hxs⟩
    by_contra hnot
    obtain ⟨hmin, hmax⟩ := not_or.mp hnot
    exact waits_of_exec hcfg hmin hmax hxs
  · intro h
    let fails : List Event := [.context false, .dequeued (.error ⟨.unavailable, ""⟩) false 0]
    by_cases hmin : cfg.minBackoff = 1
    · refine ⟨fails, ?_⟩
      have hone : (newWorker cfg).minBackoff = 1 := by simp [newWorker, hmin]
      simp only [fails, Run.exec_cons, Run.exec_nil, Loop.start, Loop.step, hone, jitter_one,
        Option.bind_some, Bool.false_eq_true, if_false]
    · -- the first sleep is long enough, and the second one is not
      have hmax : cfg.maxBackoff = 1 := h.resolve_left hmin
      refine ⟨fails ++ .slept false :: fails, ?_⟩
      obtain ⟨hlo, -, hhi, -⟩ := newWorker_bounds hcfg
      have hmin' : 2 ≤ (newWorker cfg).minBackoff := by
        have hne : (newWorker cfg).minBackoff ≠ 1 := by
          simp only [newWorker]
          split <;> omega
        omega
      have hone : (newWorker cfg).maxBackoff = 1 := by simp [newWorker, hmax]
      obtain ⟨d, hd, -⟩ := jitter_eq hmin' hhi 0
      have hnext :
          min (duration ((newWorker cfg).minBackoff * 2)) (newWorker cfg).maxBackoff = 1 := by
        rw [hone, duration_of_lt (by omega) (by omega)]
        omega
      simp only [fails, List.cons_append, List.nil_append, Run.exec_cons, Run.exec_nil, Loop.start,
        Loop.step, hd, hnext, jitter_one, Option.bind_some, Bool.false_eq_true, if_false]

theorem worker_panics_iff_one :
    ∃ xs, Run.exec (Loop.step (newWorker ⟨1, 50, 1⟩)) (Loop.start (newWorker ⟨1, 50, 1⟩)) xs =
      some .panicked :=
  (worker_panics_iff ⟨by decide, by decide⟩).mpr (.inr rfl)

end Backoff

end Client

end DistQueue
