import DistQueue.Broker.StateMachine
import DistQueue.Raft.Node

/-!
# The cluster server

The task queue service of one cluster member: it proposes enqueues, acks and nacks to
the log and answers once they are applied, and hands out tasks from the local queue
while the node believes it is the leader.

The server's goroutines share its state under two locks, that of the server and that
of the queue, so that what interleaves is the *sections* between taking a lock and
releasing it. Each goroutine is a small machine whose states are the places between
two of its sections: any number of RPC handlers (`DistQueue.Server.Handler`), the
timeout scanner (`DistQueue.Server.Scanner`), the leadership watch
(`DistQueue.Server.Watcher`) and the apply loop (`DistQueue.Server.ApplyLoop`).
`DistQueue.Server.ClusterServer.step` runs one section.

What a section learns from outside – whether the node is the leader, what `Propose`
answered, the time, a message of the apply channel – is part of its label. Shutting
the server down is left out.
-/

namespace DistQueue

namespace Server

open Broker Raft

/-! ### What the log carries -/

/-- The byte strings of the log and of snapshots: the empty one, which only a new
leader's no-op carries, and the encodings of a command and of a queue state. -/
inductive Payload
  | empty
  | op (op : QueueOp)
  | state (st : SnapshotState)
  deriving DecidableEq

instance : Inhabited Payload := ⟨.empty⟩

/-- The encoding of a command. -/
def encodeOp (op : QueueOp) : Payload := .op op

/-- The error of decoding anything else panics in the apply loop. -/
def decodeOp : Payload → Option QueueOp
  | .op op => some op
  | _ => none

/-- The queue state of a snapshot. -/
def decodeSnapshot : Payload → Option SnapshotState
  | .state st => some st
  | _ => none

/-! ### Requests and responses -/

/-- A task on the wire. -/
structure ProtoTask where
  id : String
  payload : List UInt8
  priority : Int32
  retryCount : Int32
  createdAt : Option Time
  deriving DecidableEq

/-- The task of a request. The status and the deadline are the zero values. -/
def fromProto (p : ProtoTask) : Task :=
  { id := p.id
    payload := p.payload
    priority := p.priority.toInt
    status := .pending
    retryCount := p.retryCount.toInt
    createdAt := p.createdAt.getD 0
    deadline := 0 }

/-- The task of a reply. What does not fit into 32 bits is cut off. -/
def toProto (t : Task) : ProtoTask :=
  { id := t.id
    payload := t.payload
    priority := .ofInt t.priority
    retryCount := .ofInt t.retryCount
    createdAt := some t.createdAt }

/-- The settings of a server. -/
structure ClusterConfig where
  /-- Redeliver unacked tasks after this. -/
  taskTimeout : ℤ
  /-- Snapshot every so many applied entries; never, unless it is positive. -/
  snapshotThreshold : ℤ
  /-- The client-facing addresses of the nodes, for redirects. -/
  clientAddrs : NodeID → Option String

/-- A configuration without snapshots and client addresses. -/
def plainConfig : ClusterConfig := ⟨30, 0, fun _ => none⟩

/-- The status codes the server uses. -/
inductive Code
  | invalidArgument
  | notFound
  | failedPrecondition
  | deadlineExceeded
  deriving DecidableEq

/-- The error of an RPC. -/
structure Status where
  code : Code
  message : String
  deriving DecidableEq

/-- A request, with what the handler draws from its surroundings: the identifier and
the time for a task that comes without them. -/
inductive Rpc
  | enqueue (task : Option Task) (newTaskID : TaskID) (now : Time)
  | dequeue
  | ack (id : TaskID)
  | nack (id : TaskID)

/-- What an RPC returns. The response of an enqueue has the identifier of the task, and those
of acks and nacks are empty; the task or the command, and its place in the log, are recorded to
speak about them. -/
inductive Response
  | enqueued (t : Task) (index : ℕ)
  | dequeued (t : ProtoTask)
  | finished (op : QueueOp) (index : ℕ)
  | failed (status : Status)
  deriving DecidableEq

/-- Converts “not leader” into a status that carries the leader's client address. -/
def redirect (cfg : ClusterConfig) (hint : NodeID) : Status :=
  match cfg.clientAddrs hint with
  | some addr =>
    if hint ≠ "" then ⟨.failedPrecondition, "not leader; leader=" ++ addr⟩
    else ⟨.failedPrecondition, "not leader; leader unknown"⟩
  | none => ⟨.failedPrecondition, "not leader; leader unknown"⟩

/-! ### The goroutines -/

/-- Where a call of `propose` is: about to call the node, about to register for the
entry, or waiting on its channel. -/
inductive Proposal
  | ready
  | accepted (index term : ℕ)
  | waiting (index term channel : ℕ)
  deriving DecidableEq

/-- What a section of `propose` leads to. -/
inductive Progress
  | more (p : Proposal)
  | committed (index : ℕ)
  | notLeader
  | timedOut
  deriving DecidableEq

/-- Where an RPC handler is. -/
inductive Handler
  /-- `Dequeue` is about to ask for leadership. -/
  | dequeue
  /-- It is about to take a task from the queue. -/
  | dequeueChecked
  /-- It has taken a task and is about to record the deadline. -/
  | dequeueTaken (t : Task)
  /-- `finish` is about to ask for leadership. -/
  | finish (type : OpType) (id : TaskID)
  /-- It is about to look the task up. -/
  | finishChecked (type : OpType) (id : TaskID)
  | proposing (op : QueueOp) (p : Proposal)
  /-- `finish` is about to forget the deadline. -/
  | untrack (op : QueueOp) (index : ℕ)
  /-- The handler is about to ask for the leader to redirect to. -/
  | redirect
  | returned (r : Response)
  deriving DecidableEq

/-- Where the timeout loop is. -/
inductive Scanner
  /-- Waiting for the next tick. -/
  | idle
  /-- About to ask for leadership, for the first of the expired tasks. -/
  | batch (id : TaskID) (rest : List TaskID)
  /-- About to look that task up. -/
  | checked (id : TaskID) (rest : List TaskID)
  /-- Proposing `QueueOp.nack` of that task. -/
  | proposing (id : TaskID) (rest : List TaskID) (p : Proposal)
  deriving DecidableEq

/-- The loop goes on with the next expired task, if there is one. -/
def Scanner.next : List TaskID → Scanner
  | [] => .idle
  | id :: rest => .batch id rest

/-- Where the leadership watch is: waiting for its tick, past asking the node, or about
to reset the queue's overlay. -/
inductive Watcher
  | idle
  | asked (isLeader : Bool)
  | requeue
  deriving DecidableEq

/-- Where the apply loop is: waiting for a message, past a restore, past an apply, about
to capture the queue, or about to hand the snapshot to the node. -/
inductive ApplyLoop
  | idle
  | restored
  | applied (index term : ℕ)
  | snapshotting (index : ℕ)
  | captured (index : ℕ) (st : SnapshotState)
  deriving DecidableEq

/-- Where the apply loop is once it has taken a message. -/
def loopAfter : ApplyMsg Payload → ApplyLoop
  | .snapshot _ => .restored
  | .command _ index term => .applied index term

theorem loopAfter_ne_captured (msg : ApplyMsg Payload) (index : ℕ) (st : SnapshotState) :
    loopAfter msg ≠ .captured index st := by
  cases msg <;> exact ApplyLoop.noConfusion

/-- The state of a server. -/
structure ClusterServer where
  sm : StateMachine
  /-- The channel that waits for the entry at an index. -/
  waiters : AList fun _ : ℕ => ℕ
  /-- The redelivery deadlines of the tasks handed out. -/
  inflight : AList fun _ : TaskID => Time
  wasLeader : Bool
  appliedSinceSnap : ℤ
  /-- The term each channel holds, and the number of the next channel made. -/
  channel : ℕ → Option ℕ
  nextChannel : ℕ
  /-- The RPCs received so far, in order. -/
  handlers : List Handler
  scanner : Scanner
  watcher : Watcher
  applyLoop : ApplyLoop

/-- A server before any of its goroutines has run. -/
def newClusterServer (sm : StateMachine) : ClusterServer :=
  { sm, waiters := ∅, inflight := ∅, wasLeader := false, appliedSinceSnap := 0,
    channel := fun _ => none, nextChannel := 0, handlers := [], scanner := .idle,
    watcher := .idle, applyLoop := .idle }

/-- What a section is told from outside. -/
inductive Answer
  /-- Nothing. -/
  | silent
  | isLeader (b : Bool)
  | proposed (r : ProposeResult)
  | leaderHint (hint : NodeID)
  | now (t : Time)
  /-- The five seconds of `propose` are over. -/
  | timer
  deriving DecidableEq

/-! ### The sections of the handlers -/

/-- The task that `Enqueue` makes of the one in the request: a missing identifier and a missing
creation time are filled in. The command is encoded before it is proposed, so that the time
keeps no monotonic reading. -/
def enqueuedTask (t : Task) (newTaskID : TaskID) (now : Time) : Task :=
  { t with
    id := if t.id = "" then newTaskID else t.id
    createdAt := if t.createdAt = 0 then now else t.createdAt
    mono := none
    status := .pending
    deadline := 0 }

/-- What a handler starts with. -/
def Rpc.begin : Rpc → Handler
  | .enqueue none _ _ => .returned (.failed ⟨.invalidArgument, "task is required"⟩)
  | .enqueue (some t) newTaskID now => .proposing (.enqueue (enqueuedTask t newTaskID now)) .ready
  | .dequeue => .dequeue
  | .ack id => .finish .ack id
  | .nack id => .finish .nack id

namespace ClusterServer

/-- One section of `propose`. The wake-up and the timer may both be ready; then either
can be taken. -/
def proposeSection (s : ClusterServer) : Proposal → Answer → Option (ClusterServer × Progress)
  | .ready, .proposed r =>
    some (s, if r.isLeader then .more (.accepted r.index r.term) else .notLeader)
  | .accepted index term, .silent =>
    some ({ s with
      waiters := s.waiters.insert index s.nextChannel
      nextChannel := s.nextChannel + 1 }, .more (.waiting index term s.nextChannel))
  | .waiting index term ch, .silent =>
    (s.channel ch).map fun out => (s, if out = term then .committed index else .notLeader)
  | .waiting index _ _, .timer => some ({ s with waiters := s.waiters.erase index }, .timedOut)
  | _, _ => none

theorem proposeSection_eq {s : ClusterServer} {p : Proposal} {a : Answer}
    {r : ClusterServer × Progress}
    (h : s.proposeSection p a = some r) :
    r.1 = { s with waiters := r.1.waiters, nextChannel := r.1.nextChannel } := by
  unfold proposeSection at h
  split at h
  · cases h
    rfl
  · cases h
    rfl
  · obtain ⟨out, -, rfl⟩ := Option.map_eq_some_iff.mp h
    rfl
  · cases h
    rfl
  · cases h

/-- How a handler goes on after a section of `propose`. -/
def afterPropose (op : QueueOp) : Progress → Handler
  | .more p => .proposing op p
  | .committed index =>
    match op.type, op.task with
    | .enqueue, some t => .returned (.enqueued t index)
    | _, _ => .untrack op index
  | .notLeader => .redirect
  | .timedOut => .returned (.failed ⟨.deadlineExceeded, "commit timed out (lost quorum?)"⟩)

/-- The section in which `Dequeue` takes a task from the queue. -/
def takeTask (cfg : ClusterConfig) (s : ClusterServer) (now : Time) : ClusterServer × Handler :=
  let r := s.sm.dequeue (now + cfg.taskTimeout)
  ({ s with sm := r.2 }, match r.1 with
    | some t => .dequeueTaken t
    | none => .returned (.failed ⟨.notFound, "queue is empty"⟩))

/-- One section of an RPC handler. -/
def handlerSection (cfg : ClusterConfig) (s : ClusterServer) :
    Handler → Answer → Option (ClusterServer × Handler)
  | .dequeue, .isLeader b => some (s, if b then .dequeueChecked else .redirect)
  | .dequeueChecked, .now t => some (s.takeTask cfg t)
  | .dequeueTaken t, .silent =>
    some ({ s with inflight := s.inflight.insert t.id t.deadline },
      .returned (.dequeued (toProto t)))
  | .finish type id, .isLeader b => some (s, if b then .finishChecked type id else .redirect)
  | .finishChecked type id, .silent =>
    some (s, if s.sm.has id then .proposing { type, taskID := id } .ready
      else .returned (.failed
        ⟨.notFound, "unknown task (already acked, dead, or never existed)"⟩))
  | .proposing op p, a => (s.proposeSection p a).map fun r => (r.1, afterPropose op r.2)
  | .untrack op index, .silent =>
    some ({ s with inflight := s.inflight.erase op.taskID }, .returned (.finished op index))
  | .redirect, .leaderHint hint => some (s, .returned (.failed (Server.redirect cfg hint)))
  | _, _ => none

/-- The reply of `ListDLQ`. -/
def listDLQ (s : ClusterServer) : List ProtoTask := s.sm.listDLQ.map toProto

/-! ### The sections of the loops -/

/-- The tick of the timeout loop: the expired tasks lose their deadline, in the order in
which the loop ranges over the map. -/
def scan (s : ClusterServer) (now : Time) (order : List TaskID) : ClusterServer :=
  let expired := order.filter fun id => (s.inflight.lookup id).any (· < now)
  { s with
    inflight := expired.foldl (fun m id => m.erase id) s.inflight
    scanner := .next expired }

/-- One section of the timeout loop past its tick. A proposal that fails is not tried
again, and the loop stops once the node is no longer the leader. -/
def scannerSection (s : ClusterServer) : Scanner → Answer → Option ClusterServer
  | .batch id rest, .isLeader b => some { s with scanner := if b then .checked id rest else .idle }
  | .checked id rest, .silent =>
    some { s with scanner := if s.sm.has id then .proposing id rest .ready else .next rest }
  | .proposing id rest p, a => (s.proposeSection p a).map fun r =>
    { r.1 with scanner := match r.2 with
      | .more p => .proposing id rest p
      | _ => .next rest }
  | _, _ => none

/-- The sections of the leadership watch up to the reset of the deadlines. -/
def watcherSection (s : ClusterServer) : Watcher → Answer → Option ClusterServer
  | .idle, .isLeader b => some { s with watcher := .asked b }
  | .asked b, .silent =>
    some (if s.wasLeader && !b then
      { s with wasLeader := b, inflight := ∅, watcher := .requeue }
    else { s with wasLeader := b, watcher := .idle })
  | _, _ => none

/-- The apply loop takes a message: a snapshot is restored, a command applied. -/
def receive (s : ClusterServer) : ApplyMsg Payload → Option ClusterServer
  | .snapshot msg => (decodeSnapshot msg.data).map fun st =>
    { s with sm := s.sm.restore st, applyLoop := .restored }
  | .command command index term =>
    if command = default then some { s with applyLoop := .applied index term }
    else (decodeOp command).map fun op =>
      { s with sm := s.sm.apply op, applyLoop := .applied index term }

/-- The receipt of a message changes the queue, and where the apply loop is. -/
theorem receive_cases {s s' : ClusterServer} {msg : ApplyMsg Payload}
    (h : s.receive msg = some s') :
    ∃ sm, s' = { s with sm, applyLoop := loopAfter msg } ∧
      ((∃ m st, msg = .snapshot m ∧ m.data = .state st ∧ sm = s.sm.restore st) ∨
        (∃ index term, msg = .command .empty index term ∧ sm = s.sm) ∨
        ∃ op index term, msg = .command (.op op) index term ∧ sm = s.sm.apply op) := by
  cases msg with
  | snapshot m =>
    obtain ⟨st, hst, rfl⟩ := Option.map_eq_some_iff.mp h
    unfold decodeSnapshot at hst
    split at hst
    · rename_i st' hdata
      obtain rfl := Option.some.inj hst
      exact ⟨_, rfl, .inl ⟨m, st', rfl, hdata, rfl⟩⟩
    · cases hst
  | command command index term =>
    cases command with
    | empty =>
      cases h
      exact ⟨_, rfl, .inr (.inl ⟨index, term, rfl, rfl⟩)⟩
    | op op =>
      cases h
      exact ⟨_, rfl, .inr (.inr ⟨op, index, term, rfl, rfl⟩)⟩
    | state st => cases h

/-- Wake the RPC that waits for the entry at an index. -/
def wake (s : ClusterServer) (index term : ℕ) : ClusterServer :=
  match s.waiters.lookup index with
  | some ch =>
    { s with
      waiters := s.waiters.erase index
      channel := Function.update s.channel ch (some term) }
  | none => s

/-- The section of the apply loop after an apply: it wakes the waiter, and counts. -/
def afterApply (cfg : ClusterConfig) (s : ClusterServer) (index term : ℕ) : ClusterServer :=
  let s := s.wake index term
  let n := s.appliedSinceSnap + 1
  if 0 < cfg.snapshotThreshold ∧ cfg.snapshotThreshold ≤ n then
    { s with appliedSinceSnap := 0, applyLoop := .snapshotting index }
  else { s with appliedSinceSnap := n, applyLoop := .idle }

/-- The sections of the apply loop that involve neither the channel nor the node's
lock. -/
def applyLoopSection (cfg : ClusterConfig) (s : ClusterServer) : ApplyLoop → Option ClusterServer
  | .restored => some { s with appliedSinceSnap := 0, applyLoop := .idle }
  | .applied index term => some (s.afterApply cfg index term)
  | _ => none

end ClusterServer

/-! ### Steps -/

/-- One section of one goroutine, with what it is told. -/
inductive Section
  /-- A new RPC arrives. -/
  | call (rpc : Rpc)
  /-- The `k`-th RPC's handler. -/
  | handler (k : ℕ) (a : Answer)
  | scan (now : Time) (order : List TaskID)
  | scanner (a : Answer)
  | watcher (a : Answer)
  | requeue (order : List TaskID)
  | receive (msg : ApplyMsg Payload)
  | applyLoop
  | capture (order : List TaskID)
  /-- The apply loop hands a snapshot to the node. -/
  | submit

/-- Run one section. A handler that has returned has none left, and a method that ranges
over a map does so in some order of its keys. -/
def ClusterServer.step (cfg : ClusterConfig) (s : ClusterServer) : Section → Option ClusterServer
  | .call rpc => some { s with handlers := s.handlers ++ [rpc.begin] }
  | .handler k a => do
    let h ← s.handlers[k]?
    let r ← s.handlerSection cfg h a
    return { r.1 with handlers := r.1.handlers.set k r.2 }
  | .scan now order =>
    if s.scanner = .idle ∧ order.Perm s.inflight.keys then some (s.scan now order) else none
  | .scanner a => s.scannerSection s.scanner a
  | .watcher a => s.watcherSection s.watcher a
  | .requeue order =>
    if s.watcher = .requeue ∧ order.Perm s.sm.tasks.keys then
      some { s with sm := s.sm.requeueInFlight order, watcher := .idle }
    else none
  | .receive msg => if s.applyLoop = .idle then s.receive msg else none
  | .applyLoop => s.applyLoopSection cfg s.applyLoop
  | .capture order =>
    match s.applyLoop with
    | .snapshotting index =>
      if order.Perm s.sm.tasks.keys then
        some { s with applyLoop := .captured index (s.sm.snapshot order) }
      else none
    | _ => none
  | .submit =>
    match s.applyLoop with
    | .captured _ _ => some { s with applyLoop := .idle }
    | _ => none

/-! ### What a section changes -/

namespace ClusterServer

variable {cfg : ClusterConfig} {s s' : ClusterServer}

theorem wake_eq (s : ClusterServer) (index term : ℕ) : s.wake index term =
    { s with
      waiters := (s.wake index term).waiters
      channel := (s.wake index term).channel } := by
  unfold wake
  split <;> rfl

/-- The timeout loop touches, of what it does not share with `propose`, only itself. -/
theorem scannerSection_eq {sc : Scanner} {a : Answer} (h : s.scannerSection sc a = some s') :
    s' = { s with
      scanner := s'.scanner
      waiters := s'.waiters
      nextChannel := s'.nextChannel } := by
  unfold scannerSection at h
  split at h
  · cases h
    rfl
  · cases h
    rfl
  · obtain ⟨r, hr, rfl⟩ := Option.map_eq_some_iff.mp h
    dsimp only
    rw [proposeSection_eq hr]
  · cases h

theorem watcherSection_eq {x : Watcher} {a : Answer} (h : s.watcherSection x a = some s') :
    s' = { s with
      wasLeader := s'.wasLeader
      inflight := s'.inflight
      watcher := s'.watcher } := by
  unfold watcherSection at h
  split at h
  · cases h
    rfl
  · cases h
    split <;> rfl
  · cases h

/-- The apply loop is done with a restore, or it wakes the waiter of an index. -/
theorem applyLoopSection_cases (h : s.applyLoopSection cfg s.applyLoop = some s') :
    (s.applyLoop = .restored ∧ s' = { s with appliedSinceSnap := 0, applyLoop := .idle }) ∨
    ∃ index term n al, s.applyLoop = .applied index term ∧
      (al = .snapshotting index ∨ al = .idle) ∧
      s' = { s.wake index term with appliedSinceSnap := n, applyLoop := al } := by
  unfold applyLoopSection at h
  split at h
  · rename_i hal
    exact .inl ⟨hal, (Option.some.inj h).symm⟩
  · rename_i index term hal
    cases h
    unfold afterApply
    dsimp only
    split
    · exact .inr ⟨index, term, _, _, hal, .inl rfl, rfl⟩
    · exact .inr ⟨index, term, _, _, hal, .inr rfl, rfl⟩
  · cases h

/-- The scan looks at every task in flight. -/
theorem step_scan {now : Time} {order : List TaskID} (h : s.step cfg (.scan now order) = some s') :
    s.scanner = .idle ∧ order.Perm s.inflight.keys ∧ s' = s.scan now order := by
  simp only [step, Option.ite_none_right_eq_some, Option.some.injEq] at h
  exact ⟨h.1.1, h.1.2, h.2.symm⟩

/-- The requeue looks at every task. -/
theorem step_requeue {order : List TaskID} (h : s.step cfg (.requeue order) = some s') :
    order.Perm s.sm.tasks.keys ∧
      s' = { s with sm := s.sm.requeueInFlight order, watcher := .idle } := by
  simp only [step, Option.ite_none_right_eq_some, Option.some.injEq] at h
  exact ⟨h.1.2, h.2.symm⟩

/-- A snapshot is taken of the machine as it is. -/
theorem step_capture {order : List TaskID} (h : s.step cfg (.capture order) = some s') :
    ∃ index, s.applyLoop = .snapshotting index ∧ order.Perm s.sm.tasks.keys ∧
      s' = { s with applyLoop := .captured index (s.sm.snapshot order) } := by
  simp only [step] at h
  split at h
  · rename_i index hal
    simp only [Option.ite_none_right_eq_some, Option.some.injEq] at h
    exact ⟨index, hal, h.1, h.2.symm⟩
  · cases h

/-- The snapshot is handed over, and the loop is idle again. -/
theorem step_submit (h : s.step cfg .submit = some s') :
    ∃ index st, s.applyLoop = .captured index st ∧ s' = { s with applyLoop := .idle } := by
  simp only [step] at h
  split at h
  · rename_i index st hal
    exact ⟨index, st, hal, (Option.some.inj h).symm⟩
  · cases h

end ClusterServer

end Server

end DistQueue
