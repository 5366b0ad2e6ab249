import DistQueue.Heap
import Mathlib.Data.Int.Notation

/-!
# Tasks

The unit of work of the queue, its lifecycle, the commands the replicated queue
executes, and the order in which the priority queue hands tasks out.

Times are counted in nanoseconds from the zero time, so that `0` is the source's
`time.Time{}`. A time that `time.Now` returned also has a monotonic reading, and
`Time.Before` compares two times by their readings if both have one, and by the wall
clock otherwise (`DistQueue.Broker.Task.before`). Encoding a task drops the reading
(`DistQueue.Broker.Task.written`).

The machine integers of a task are unbounded here: nothing in the queue computes with them
except for the retry counter, which is compared with the configured bound after every
increment.
-/

namespace DistQueue

namespace Broker

/-- A point in time; `0` is the zero time. -/
abbrev Time := ℤ

/-- What `time.Now` returns: the time of day, which may be set back, and the reading of a
clock that is not. -/
structure Instant where
  wall : Time
  mono : Time

/-- Both clocks show `n`. -/
instance (n : ℕ) : OfNat Instant n := ⟨⟨n, n⟩⟩

/-- A task's identifier. -/
abbrev TaskID := String

/-- Where a task is in its lifecycle. -/
inductive TaskStatus
  | pending
  | inFlight
  | done
  | dead
  deriving DecidableEq

/-- The unit of work flowing through the queue. Lower priority values are dequeued
first; the deadline is set when the task is dequeued and zero while it is pending. -/
structure Task where
  id : TaskID
  payload : List UInt8
  priority : ℤ
  status : TaskStatus
  /-- An `int`, of 64 bits; here without a bound. In the runs of a cluster it does not wrap
  (`DistQueue.Server.retryCounts_fit`). -/
  retryCount : ℤ
  /-- The wall clock of `CreatedAt`. -/
  createdAt : Time
  /-- The monotonic reading of `CreatedAt`, if it has one. -/
  mono : Option Time := none
  deadline : Time
  deriving DecidableEq

/-- The task of which nothing but the identifier is given. -/
def Task.named (id : TaskID) : Task :=
  { id, payload := [], priority := 0, status := .pending, retryCount := 0, createdAt := 0,
    deadline := 0 }

/-- `t.CreatedAt.Before(u.CreatedAt)`: by the monotonic readings if both times have one, by
the wall clock otherwise. -/
def Task.before (t u : Task) : Bool :=
  match t.mono, u.mono with
  | some a, some b => a < b
  | _, _ => t.createdAt < u.createdAt

/-- The order of the priority queue: by priority, and first come first served among
equals. -/
def Task.less (t u : Task) : Bool :=
  if t.priority ≠ u.priority then t.priority < u.priority else t.before u

/-- A task as it can be encoded: times are written without their monotonic readings. -/
def WrittenTask := { t : Task // t.mono = none }

instance : DecidableEq WrittenTask := inferInstanceAs (DecidableEq { t : Task // t.mono = none })

/-- What is written of a task. -/
def Task.written (t : Task) : WrittenTask := ⟨{ t with mono := none }, rfl⟩

/-- What is written is read back as it is. -/
@[simp] theorem WrittenTask.written_val (t : WrittenTask) : t.val.written = t := by
  obtain ⟨⟨id, payload, priority, status, retryCount, createdAt, mono, deadline⟩, hmono⟩ := t
  cases hmono
  rfl

/-- The kinds of operation of the queue, `OpEnqueue` to `OpDead`. -/
inductive OpType
  | enqueue
  | ack
  | nack
  | dead
  deriving DecidableEq

/-- One replicated queue command: the task of an enqueue, or the identifier of the task
that is acked or nacked. There is no replicated dead command, although the type could
say so. -/
structure QueueOp where
  type : OpType
  task : Option Task := none
  taskID : TaskID := ""
  deriving DecidableEq

namespace QueueOp

/-- Put the task into the queue. -/
def enqueue (t : Task) : QueueOp := { type := .enqueue, task := some t }

/-- The task is done. -/
def ack (id : TaskID) : QueueOp := { type := .ack, taskID := id }

/-- The task has failed. -/
def nack (id : TaskID) : QueueOp := { type := .nack, taskID := id }

end QueueOp

end Broker

end DistQueue
