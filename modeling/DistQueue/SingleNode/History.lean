import DistQueue.SingleNode.Broker

/-!
# Runs of the single-node broker

What a restarted broker makes of its log – one pass over the entries, by identifier
(`DistQueue.SingleNode.Contents.apply`) – and the broker as a system: clients, scanner and
log, one section at a time (`DistQueue.SingleNode.step`).

The history of a run records what was asked of the broker and what it answered
(`DistQueue.SingleNode.Event`); it goes on across crashes.
-/

namespace DistQueue

namespace Broker

/-- A task as it is read back from the log, where its time has no monotonic reading. -/
def Task.recovered (t : Task) : Task := { t with status := .pending, deadline := 0, mono := none }

/-- A task with one more retry on its account. -/
def Task.retried (t : Task) : Task := { t with retryCount := t.retryCount + 1 }

end Broker

open Broker Wal

namespace SingleNode

/-! ### Recovery -/

/-- What a log stands for: the tasks that are live, and the dead-letter queue. -/
structure Contents where
  live : Table Task.id
  dlq : List Task

namespace Contents

/-- The contents of an empty log. -/
def empty : Contents := ⟨.empty, []⟩

/-- Read one entry. Operations that are not known are skipped. -/
def apply (s : Contents) : LogEntry → Contents
  | .record t => { s with live := s.live.put t.val.recovered }
  | .mark op taskID _ =>
    if op = opAck then { s with live := s.live.erase taskID }
    else if op = opNack then
      match s.live.find taskID with
      | some t => { s with live := s.live.put t.retried }
      | none => s
    else if op = opDead then
      match s.live.find taskID with
      | some t => ⟨s.live.erase taskID, s.dlq ++ [{ t with status := .dead }]⟩
      | none => s
    else s

end Contents

/-- **What a log stands for**: its entries, read one after the other. -/
def fold (es : List LogEntry) : Contents := es.foldl Contents.apply .empty

/-- A new broker on what a crash has left of the log, `c` bytes. The live tasks are put into
the heap in the order in which their map yields them; the log is compacted at once, unless
it is empty. -/
def recover (γ : Codec) (cfg : Config) (w : WAL) (c : ℕ) (order : List Task) : Option Broker :=
  let es := (replay γ (w.file.take c)).1
  let b : Broker :=
    { pq := order.foldl (Heap.push Task.less) []
      tracker := .empty
      dlq := (fold es).dlq
      wal := w.reopen γ c
      cfg
      acked := 0
      nacked := 0
      holder := none
      scanner := .idle
      calls := [] }
  if es = [] then some b
  else (b.wal.rewrite γ (b.compactEntries [])).map fun w => { b with wal := w }

/-! ### One section after the other -/

/-- What the clients see. -/
inductive Event
  | issued (r : Request)
  /-- The call has returned without an error. -/
  | returned (r : Request)
  /-- A `Dequeue` has returned the task. -/
  | delivered (t : Task)
  deriving DecidableEq

/-- A broker with all that its clients have seen. -/
structure History where
  broker : Broker
  trace : List Event

/-- What happens next; `fault` says how much of a record a failed append has written. -/
inductive Move
  | enqueue (t : Task) (newID : TaskID) (now : Instant) (fault : Option ℕ)
  | dequeue (now : Time)
  | ack (id : TaskID) (fault : Option ℕ)
  | nack (id : TaskID) (fault : Option ℕ)
  | applyTuning (taskTimeout maxRetries : ℤ)
  /-- The scanner takes the expired tasks. -/
  | expired (now : Time) (inFlight : List Task)
  | onTimeout (fault : Option ℕ)
  /-- Compaction, in two sections. -/
  | compact (inFlight : List Task)
  | rewrite
  /-- The sync of the file, in three. -/
  | lead
  | capture
  | fsync (ok : Bool)
  /-- The `k`-th of the waiting calls returns. -/
  | returns (k : ℕ)
  /-- The scanner has waited for its record, and goes on. -/
  | resume
  | crash (c : ℕ) (order : List Task) (cfg : Config)

/-- The numbers of the records that someone waits for. -/
def Broker.awaited (b : Broker) : List ℕ :=
  b.calls.map Call.seq ++ match b.scanner with
    | .waiting seq _ => [seq]
    | _ => []

namespace History

/-- A section under the broker's lock. -/
def locked (h : History) (b : Broker) (evs : List Event) : Option History :=
  if h.broker.holder = none then some ⟨b, h.trace ++ evs⟩ else none

/-- A section that is not, and that clients do not see. -/
def silent (h : History) (b : Broker) : History := { h with broker := b }

/-- A new broker on an empty log. -/
def start (cfg : Config) : History :=
  { broker :=
      { pq := [], tracker := .empty, dlq := [], wal := openWAL [] 0, cfg, acked := 0, nacked := 0,
        holder := none, scanner := .idle, calls := [] }
    trace := [] }

end History

/-- **One section of the broker.** A move is taken only where its goroutine can be: the operations
of the API when nobody holds the lock, the scanner's when it has a task to requeue, a sync when
somebody waits for one. -/
def step (γ : Codec) (h : History) : Move → Option History
  | .enqueue t newID now fault =>
    let t := Broker.prepare t newID now
    h.locked (h.broker.enqueue γ t fault) [.issued (.enqueue t)]
  | .dequeue now =>
    let r := h.broker.dequeue now
    h.locked r.2 (r.1.map Event.delivered).toList
  | .ack id fault => h.locked (h.broker.ack γ id fault) [.issued (.ack id)]
  | .nack id fault => h.locked (h.broker.nack γ id fault) [.issued (.nack id)]
  | .applyTuning taskTimeout maxRetries =>
    h.locked (h.broker.applyTuning taskTimeout maxRetries) []
  | .expired now inFlight =>
    if h.broker.scanner = .idle ∧ inFlight.Perm h.broker.tracker.vals then
      some (h.silent (h.broker.expired now inFlight))
    else none
  | .onTimeout fault =>
    match h.broker.scanner with
    | .batch t rest => h.locked (h.broker.onTimeout γ t rest fault) []
    | _ => none
  | .compact inFlight =>
    match h.broker.holder with
    | some ⟨c, none⟩ =>
      if inFlight.Perm h.broker.tracker.vals then
        some (h.silent
          { h.broker with holder := some ⟨c, some (h.broker.compactEntries inFlight)⟩ })
      else none
    | _ => none
  | .rewrite =>
    match h.broker.holder with
    | some ⟨c, some es⟩ =>
      (h.broker.wal.rewrite γ es).map fun w => h.silent ({ h.broker with wal := w }.release c)
    | _ => none
  | .lead =>
    if ∃ seq ∈ h.broker.awaited, h.broker.wal.waitSync seq = .waits then
      h.broker.wal.lead.map fun w => h.silent { h.broker with wal := w }
    else none
  | .capture => h.broker.wal.capture.map fun w => h.silent { h.broker with wal := w }
  | .fsync ok => (h.broker.wal.fsynced ok).map fun w => h.silent { h.broker with wal := w }
  | .returns k =>
    match h.broker.calls[k]? with
    | none => none
    | some c =>
      let b := { h.broker with calls := h.broker.calls.eraseIdx k }
      match h.broker.wal.waitSync c.seq with
      | .synced => some ⟨b, h.trace ++ [.returned c.request]⟩
      | .failed => some (h.silent b)
      | .waits => none
  | .resume =>
    match h.broker.scanner with
    | .waiting seq rest =>
      if h.broker.wal.waitSync seq = .waits then none
      else some (h.silent { h.broker with scanner := .next rest })
    | _ => none
  | .crash c order cfg =>
    if h.broker.wal.durable ≤ c ∧ c ≤ h.broker.wal.file.length ∧
        order.Perm (fold (replay γ (h.broker.wal.file.take c)).1).live.vals then
      (recover γ cfg h.broker.wal c order).map h.silent
    else none

/-! ### Conditions on a run -/

namespace Move

/-- All input and output succeeds. -/
def Succeeds : Move → Prop
  | .enqueue _ _ _ fault | .ack _ fault | .nack _ fault | .onTimeout fault => fault = none
  | .fsync ok => ok = true
  | _ => True

instance (m : Move) : Decidable m.Succeeds := by
  cases m <;> dsimp only [Move.Succeeds] <;> infer_instance

end Move

namespace Broker

/-- The live tasks in memory: pending, in flight, or in the hands of the scanner. -/
def tasks (b : Broker) : List Task := b.pq ++ b.tracker.vals ++ b.scanner.pending

/-- The identifiers of all tasks in memory. -/
def ids (b : Broker) : List TaskID := b.tasks.map Task.id ++ b.dlq.map Task.id

/-- **No `Enqueue` takes the identifier of a task that is still there.** -/
def Fresh (b : Broker) : Move → Prop
  | .enqueue t newID now _ => (prepare t newID now).id ∉ b.ids
  | _ => True

instance (b : Broker) (m : Move) : Decidable (b.Fresh m) := by
  cases m <;> dsimp only [Fresh] <;> infer_instance

/-- **No compaction reads the tracker while the scanner holds expired tasks.** -/
def ReadsAll (b : Broker) : Move → Prop
  | .compact _ => b.scanner.pending = []
  | _ => True

instance (b : Broker) (m : Move) : Decidable (b.ReadsAll m) := by
  cases m <;> dsimp only [ReadsAll] <;> infer_instance

/-- The entries a move may write. -/
def writes (γ : Codec) (b : Broker) : Move → List LogEntry
  | .enqueue t newID now _ => [.enqueue (prepare t newID now)]
  | .ack id _ => [.ack id]
  | .nack id _ => [.nack id, .dead id]
  | .onTimeout _ => (b.scanner.pending.take 1).flatMap fun t => [.nack t.id, .dead t.id]
  | .compact inFlight => b.compactEntries inFlight
  | .crash c order cfg => ((recover γ cfg b.wal c order).map (·.compactEntries [])).getD []
  | _ => []

/-- **Every record that is written is within the reader's cap.** -/
def Capped (γ : Codec) (b : Broker) (m : Move) : Prop := ∀ e ∈ b.writes γ m, e.Fits γ

instance (γ : Codec) (b : Broker) (m : Move) : Decidable (b.Capped γ m) :=
  inferInstanceAs (Decidable (∀ e ∈ b.writes γ m, e.Fits γ))

end Broker

namespace History

/-- The identifiers that were ever given to `Enqueue`. -/
def enqueued (h : History) : List TaskID :=
  h.trace.filterMap fun
    | .issued (.enqueue t) => some t.id
    | _ => none

/-- **No `Enqueue` reuses an identifier.** -/
def NoReuse (h : History) : Move → Prop
  | .enqueue t newID now _ => (Broker.prepare t newID now).id ∉ h.enqueued
  | _ => True

instance (h : History) (m : Move) : Decidable (h.NoReuse m) := by
  cases m <;> dsimp only [History.NoReuse] <;> infer_instance

end History

end SingleNode

end DistQueue
