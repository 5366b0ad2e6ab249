import DistQueue.Run
import DistQueue.Rounding
import DistQueue.Consensus.Invariant
import DistQueue.Consensus.Chosen
import DistQueue.Raft.Log
import DistQueue.Raft.Election
import DistQueue.Raft.Replication
import DistQueue.Raft.Snapshot
import DistQueue.Raft.Cluster
import DistQueue.Raft.Implements
import DistQueue.Raft.Simulation.Election
import DistQueue.Raft.Simulation.Replication
import DistQueue.Raft.Simulation.Snapshot
import DistQueue.Raft.Simulation.Cluster
import DistQueue.Raft.Safety
import DistQueue.Broker.StateMachine
import DistQueue.Broker.Fleet
import DistQueue.Server.ClusterServer
import DistQueue.Server.Deadlines
import DistQueue.Raft.Delivery
import DistQueue.Raft.Labels
import DistQueue.Raft.Replicas
import DistQueue.Server.System
import DistQueue.Server.Answers
import DistQueue.Server.Acked
import DistQueue.Frames
import DistQueue.Wal.Record
import DistQueue.Wal.Log
import DistQueue.SingleNode.Broker
import DistQueue.SingleNode.History
import DistQueue.SingleNode.Contents
import DistQueue.SingleNode.Sections
import DistQueue.SingleNode.Invariant
import DistQueue.SingleNode.Compaction
import DistQueue.SingleNode.Growth
import DistQueue.SingleNode.Replay
import DistQueue.SingleNode.Finality
import DistQueue.SingleNode.Durability
import DistQueue.SingleNode.Sequential
import DistQueue.Wal.GroupCommit
import DistQueue.Wal.Refinement
import DistQueue.Broker.Convergence
import DistQueue.Raft.Sent
import DistQueue.Server.Proposals
import DistQueue.Server.Notifications
import DistQueue.Server.Final
import DistQueue.Raft.Bounds
import DistQueue.Raft.Order
import DistQueue.Wal.Grammar
import DistQueue.Wal.Rewrite
import DistQueue.SingleNode.Ownership
import DistQueue.Broker.WorkQueue
import DistQueue.SingleNode.Modes
import DistQueue.Broker.Stays
import DistQueue.Raft.Provenance
import DistQueue.Server.Retries
import DistQueue.Broker.PriorityQueue
import DistQueue.SingleNode.Dispatch
import DistQueue.SingleNode.Rollback
import DistQueue.Broker.Handouts
import DistQueue.Server.Budget
import DistQueue.Raft.Hints
import DistQueue.Raft.Consumed
import DistQueue.Raft.Backtracking
import DistQueue.Raft.Exchange
import DistQueue.Raft.Deployment
import DistQueue.Raft.Orderly
import DistQueue.Raft.Quorums
import DistQueue.Server.Catchup
import DistQueue.Raft.Continuity
import DistQueue.Server.Order
import DistQueue.Server.Queues
import DistQueue.Server.Commands
import DistQueue.Server.Tasks
import DistQueue.Raft.Recovery
import DistQueue.Client.Failover
import DistQueue.Client.Worker
import DistQueue.Client.Pool
import DistQueue.Control.Models
import DistQueue.Control.Config
import DistQueue.Control.Reload
import DistQueue.Control.Pressure
import DistQueue.SingleNode.Shutdown
import DistQueue.SingleNode.Drain
