import DistQueue.Raft.Labels
import DistQueue.Raft.Safety
import DistQueue.Server.ClusterServer

/-!
# The cluster with its servers

Every node of the cluster with the queue server on top of it. The servers' sections and
the actions of the cluster interleave freely; where a section asks the node something,
the answer is the node's: whether it is the leader, what its proposal came to, which
message the apply channel holds next. A crash takes the server along.

Two things are recorded besides (`DistQueue.Server.System`): the actions of the cluster
so far, and the acks that have returned success, with the place of their command in the
log.
-/

namespace DistQueue

namespace Server

open Broker Raft

/-- The cluster, the server of every node and how many messages of the apply channel it
has received, the actions of the cluster so far, and the acks that have succeeded. -/
structure System where
  world : World Payload
  server : NodeID → ClusterServer
  received : NodeID → ℕ
  trace : List (Action Payload)
  acked : List (TaskID × ℕ)

/-- Who proposes: the handler of an RPC, or the timeout loop. -/
inductive Proposer
  | handler (k : ℕ)
  | scanner

/-- What happens next. -/
inductive SystemMove
  /-- An action of the cluster in which no server has a part. -/
  | act (x : Action Payload)
  /-- A section of a server. -/
  | serve (n : NodeID) (e : Section)
  /-- A server's goroutine calls `Propose` on the node. -/
  | propose (n : NodeID) (p : Proposer)
  /-- The node crashes in this call, after `k` of its writes. -/
  | proposeCrash (n : NodeID) (p : Proposer) (k : ℕ)
  /-- The apply loop calls `Snapshot` on the node. -/
  | submit (n : NodeID)
  | submitCrash (n : NodeID) (k : ℕ)

/-- Whether the event is a call of a server to its node. -/
def isServerCall : Event Payload → Bool
  | .trigger _ (.propose _) => true
  | .trigger _ (.snapshot _ _) => true
  | _ => false

/-- Whether the action is a call of a server to its node, which is not an action of the cluster by
itself. -/
def isServerAction : Action Payload → Bool
  | .run e | .crashIn e _ => isServerCall e
  | .crash _ => false

/-- The command a goroutine is about to propose. -/
def ClusterServer.proposal (s : ClusterServer) : Proposer → Option QueueOp
  | .handler k =>
    match s.handlers[k]? with
    | some (.proposing op .ready) => some op
    | _ => none
  | .scanner =>
    match s.scanner with
    | .proposing id _ .ready => some (.nack id)
    | _ => none

/-- The section in which a goroutine learns what its proposal came to. -/
def Proposer.section (p : Proposer) (r : ProposeResult) : Section :=
  match p with
  | .handler k => .handler k (.proposed r)
  | .scanner => .scanner (.proposed r)

namespace System

/-- Whether what the section is told is what the node says. -/
def Truthful (s : System) (M : Membership) (n : NodeID) : Section → Prop
  | .handler _ a | .scanner a | .watcher a =>
    match a with
    | .isLeader b => b = (s.world.nodes n).isLeader
    | .leaderHint hint => hint = (s.world.nodes n).leaderHint (M.config n)
    | .proposed _ => False
    | .silent | .now _ | .timer => True
  | .receive msg => (s.world.nodes n).applyCh[s.received n]? = some msg
  | .submit => False
  | .call _ | .scan _ _ | .requeue _ | .applyLoop | .capture _ => True

instance (s : System) (M : Membership) (n : NodeID) (e : Section) :
    Decidable (s.Truthful M n e) := by
  unfold System.Truthful
  repeat' split
  all_goals infer_instance

/-- The ack whose RPC returns success with this section. -/
def ackOf (s : System) (n : NodeID) : Section → List (TaskID × ℕ)
  | .handler k _ =>
    match (s.server n).handlers[k]? with
    | some (.untrack op index) => if op.type = .ack then [(op.taskID, index)] else []
    | _ => []
  | _ => []

/-- The messages received after a section. -/
def receivedAfter (s : System) (n : NodeID) : Section → (NodeID → ℕ)
  | .receive _ => Function.update s.received n (s.received n + 1)
  | _ => s.received

/-- A section of a server. -/
def serve (cfg : ClusterConfig) (M : Membership) (s : System) (n : NodeID) (e : Section) :
    Option System :=
  if n ∈ M.ids ∧ s.Truthful M n e then
    ((s.server n).step cfg e).map fun sv =>
      { s with
        server := Function.update s.server n sv
        received := s.receivedAfter n e
        acked := s.acked ++ s.ackOf n e }
  else none

/-- An action of the cluster. The server of a node that crashes starts anew. -/
def perform (maxRetries : ℤ) (M : Membership) (s : System) (x : Action Payload) : Option System :=
  (Raft.step M s.world x).map fun w =>
    match crashed M s.world x with
    | some n =>
      { s with
        world := w
        server := Function.update s.server n (newClusterServer (newStateMachine maxRetries))
        received := Function.update s.received n 0
        trace := s.trace ++ [x] }
    | none => { s with world := w, trace := s.trace ++ [x] }

/-- The action of the cluster that a move is, with the section of the server that goes
with it. -/
def call (M : Membership) (s : System) :
    SystemMove → Option (Action Payload × Option (NodeID × Section))
  | .act x => if isServerAction x then none else some (x, none)
  | .serve _ _ => none
  | .propose n p => ((s.server n).proposal p).map fun op =>
    (.run (.trigger n (.propose (encodeOp op))), some (n, p.section
      (Raft.propose (M.config n) (s.world.nodes n) (encodeOp op)).2.2))
  | .proposeCrash n p k => ((s.server n).proposal p).map fun op =>
    (.crashIn (.trigger n (.propose (encodeOp op))) k, none)
  | .submit n =>
    match (s.server n).applyLoop with
    | .captured index st =>
      some (.run (.trigger n (.snapshot index (.state st))), some (n, .submit))
    | _ => none
  | .submitCrash n k =>
    match (s.server n).applyLoop with
    | .captured index st => some (.crashIn (.trigger n (.snapshot index (.state st))) k, none)
    | _ => none

/-- A server's own part of a move. -/
def finishCall (cfg : ClusterConfig) (s : System) : Option (NodeID × Section) → Option System
  | none => some s
  | some (n, e) => ((s.server n).step cfg e).map fun sv =>
    { s with server := Function.update s.server n sv }

/-- **One step of the system.** A call to the node is an action of the cluster and a section of
the server in one. -/
def step (cfg : ClusterConfig) (maxRetries : ℤ) (M : Membership) (s : System) (x : SystemMove) :
    Option System :=
  match x with
  | .serve n e => s.serve cfg M n e
  | x => do
    let c ← s.call M x
    let s ← s.perform maxRetries M c.1
    s.finishCall cfg c.2

/-- The cluster starts, with a new server on every node. -/
def start (maxRetries : ℤ) (M : Membership) : System :=
  { world := Raft.start M
    server := fun _ => newClusterServer (newStateMachine maxRetries)
    received := fun _ => 0
    trace := []
    acked := [] }

end System

end Server

end DistQueue
