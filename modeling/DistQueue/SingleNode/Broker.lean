import DistQueue.Table
import DistQueue.Wal.Log

/-!
# The single-node broker

A priority heap of pending tasks, a tracker of the tasks in flight with its timeout
scanner, a dead-letter queue, and the write-ahead log that every change goes to before it
is made in memory.

The broker's lock is held for the whole of an operation but its wait for the log to be
synced, and by the scanner for each task it requeues. Two things happen without that lock:
the scanner takes the expired tasks out of the tracker, and the log is synced. So a
goroutine that holds the lock is atomic except where it compacts the log, which it may do
at the end of an operation: it reads the tracker, under the tracker's own lock, and then
replaces the file, under the locks of the log. `DistQueue.SingleNode.Broker.holder` is the
goroutine that is there; `DistQueue.SingleNode.step` runs one section.

Writes and syncs may fail, as the schedule decides; the replacement of the file does not. A
crash leaves a beginning of the file, from which a new broker recovers
(`DistQueue.SingleNode.recover`). Closing the broker is left to
`DistQueue.SingleNode.Service`.
-/

namespace DistQueue

open Broker Wal

namespace SingleNode

/-- The knobs of a broker, the first two of which can be changed while it runs. -/
structure Config where
  /-- Nacks and timeouts before a task is dead-lettered. -/
  maxRetries : ℤ
  /-- How long a worker may hold a task. -/
  taskTimeout : ℤ
  /-- Compact the log every so many appends; never, unless it is positive. -/
  compactEvery : ℤ

/-- What a client has called. -/
inductive Request
  | enqueue (t : Task)
  | ack (id : TaskID)
  | nack (id : TaskID)
  deriving DecidableEq

/-- A call that is past its section under the lock, and waits for its record. -/
structure Call where
  request : Request
  seq : ℕ
  deriving DecidableEq

/-- Who requeues or changes something under the lock: a client's call, or the scanner. -/
inductive Caller
  | api (c : Call)
  | scanner (seq : ℕ)
  deriving DecidableEq

/-- Where the timeout scanner is: waiting for its tick, about to requeue the first of the
expired tasks, under the lock, or waiting for the record of a task it has requeued. -/
inductive Scanner
  | idle
  | batch (t : Task) (rest : List Task)
  | locked (rest : List Task)
  | waiting (seq : ℕ) (rest : List Task)
  deriving DecidableEq

/-- The expired tasks that have been taken from the tracker and not been requeued yet. -/
def Scanner.pending : Scanner → List Task
  | .idle => []
  | .batch t rest => t :: rest
  | .locked rest | .waiting _ rest => rest

/-- The scanner goes on with the next expired task, if there is one. -/
def Scanner.next : List Task → Scanner
  | [] => .idle
  | t :: rest => .batch t rest

/-- The goroutine that holds the broker's lock to compact the log: about to read the
tracker, or with the entries to be written. -/
structure Holder where
  caller : Caller
  entries : Option (List LogEntry)
  deriving DecidableEq

/-- **The state of a broker**: its tasks, its log, who holds its lock, and who waits for the log. -/
structure Broker where
  pq : List Task
  /-- The tasks in flight, by their identifiers. -/
  tracker : Table Task.id
  dlq : List Task
  wal : WAL
  cfg : Config
  /-- Lifetime acks. -/
  acked : ℤ
  /-- Lifetime nacks and timeout redeliveries. -/
  nacked : ℤ
  holder : Option Holder
  scanner : Scanner
  /-- The calls that wait for their records. -/
  calls : List Call

namespace Broker

variable (γ : Codec) (b : Broker)

/-! ### Under the lock -/

/-- The lock is released; what is left is to wait for the record. -/
def release (c : Caller) : Broker :=
  match c with
  | .api call => { b with holder := none, calls := b.calls ++ [call] }
  | .scanner seq => { b with holder := none, scanner := .waiting seq b.scanner.pending }

/-- Compact the log if it has grown enough. -/
def maybeCompactLocked (c : Caller) : Broker :=
  if b.cfg.compactEvery ≤ 0 ∨ (b.wal.entries : ℤ) < b.cfg.compactEvery then b.release c
  else { b with holder := some ⟨c, none⟩ }

/-- The task as it is enqueued: a missing identifier and a missing time are filled in. The
time that is filled in has a monotonic reading. -/
def prepare (t : Task) (newID : TaskID) (now : Instant) : Task :=
  { t with
    id := if t.id = "" then newID else t.id
    createdAt := if t.createdAt = 0 then now.wall else t.createdAt
    mono := if t.createdAt = 0 then some now.mono else t.mono
    status := .pending }

/-- A failed append is returned to the caller as it is. -/
def enqueue (t : Task) (fault : Option ℕ) : Broker :=
  match b.wal.append γ (.enqueue t) fault with
  | (w, none) => { b with wal := w }
  | (w, some seq) =>
    { b with wal := w, pq := Heap.push Task.less b.pq t }.maybeCompactLocked
      (.api ⟨.enqueue t, seq⟩)

/-- Take the first task and track it. Nothing goes to the log: a crash redelivers it. -/
def dequeue (now : Time) : Option Task × Broker :=
  match Heap.pop Task.less b.pq with
  | none => (none, b)
  | some (t, pq) =>
    let t := { t with status := .inFlight, deadline := now + b.cfg.taskTimeout }
    (some t, { b with pq, tracker := b.tracker.put t })

/-- If the record did not get to the log, the task is put back. -/
def ack (id : TaskID) (fault : Option ℕ) : Broker :=
  match b.tracker.find id with
  | none => b
  | some t =>
    match b.wal.append γ (.ack id) fault with
    | (w, none) => { b with wal := w, tracker := (b.tracker.erase id).put t }
    | (w, some seq) =>
      { b with wal := w, tracker := b.tracker.erase id, acked := b.acked + 1 }.maybeCompactLocked
        (.api ⟨.ack id, seq⟩)

/-- The shared path of nacks and timeouts: count the retry, then dead-letter the task or
put it back into the heap. A task whose record did not get to the log is tracked again. -/
def requeueLocked (t : Task) (fault : Option ℕ) (caller : ℕ → Caller) : Broker :=
  let b := { b with nacked := b.nacked + 1 }
  let t := { t with retryCount := t.retryCount + 1 }
  if b.cfg.maxRetries ≤ t.retryCount then
    match b.wal.append γ (.dead t.id) fault with
    | (w, none) => { b with wal := w, tracker := b.tracker.put t }
    | (w, some seq) =>
      { b with wal := w, dlq := b.dlq ++ [{ t with status := .dead }] }.maybeCompactLocked
        (caller seq)
  else
    match b.wal.append γ (.nack t.id) fault with
    | (w, none) => { b with wal := w, tracker := b.tracker.put t }
    | (w, some seq) =>
      let requeued := { t with status := .pending, deadline := 0 }
      { b with wal := w, pq := Heap.push Task.less b.pq requeued }.maybeCompactLocked
        (caller seq)

/-- A task that is not in flight is not requeued. -/
def nack (id : TaskID) (fault : Option ℕ) : Broker :=
  match b.tracker.find id with
  | none => b
  | some t =>
    { b with tracker := b.tracker.erase id }.requeueLocked γ t fault fun seq => .api ⟨.nack id, seq⟩

/-- Hot-update the two knobs; what is not positive is left as it is. -/
def applyTuning (taskTimeout maxRetries : ℤ) : Broker :=
  { b with cfg := { b.cfg with
    taskTimeout := if 0 < taskTimeout then taskTimeout else b.cfg.taskTimeout
    maxRetries := if 0 < maxRetries then maxRetries else b.cfg.maxRetries } }

/-- What the compacted log says: every pending task and every task in flight, those in the
order in which the tracker's map yields them, and the dead-letter queue. -/
def compactEntries (inFlight : List Task) : List LogEntry :=
  b.pq.map .enqueue ++ inFlight.map .enqueue ++ b.dlq.flatMap fun t => [.enqueue t, .dead t.id]

/-! ### The scanner -/

/-- Take the expired tasks out of the tracker, in the order in which its map yields them,
without the broker's lock. -/
def expired (now : Time) (inFlight : List Task) : Broker :=
  { b with
    tracker := b.tracker.filter fun t => !decide (t.deadline < now)
    scanner := .next (inFlight.filter fun t => t.deadline < now) }

/-- Requeue one expired task. After a failed append there is no record to wait for. -/
def onTimeout (t : Task) (rest : List Task) (fault : Option ℕ) : Broker :=
  let b := { b with scanner := .locked rest }.requeueLocked γ t fault .scanner
  if fault.isSome then { b with scanner := .next rest } else b

end Broker

end SingleNode

end DistQueue
