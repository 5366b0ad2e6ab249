import DistQueue.Raft.Log

/-!
# A node: its state, its files, its start

The state of one Raft node as the source keeps it behind the node's mutex, and
the two files it survives a crash by. Everything that runs with the mutex held is
a function of the node's state here, and a function that writes a file also
returns the writes, in order (`DistQueue.Raft.Write`): a crash may fall after any
of them.

Byte strings are opaque to Raft. They are elements of a type `Blob`, of which only
two things are ever asked: whether they are equal, and whether they are empty,
which `default` is.

The wall clock is left out. Which of its timers fires when is a choice of the
schedule (`DistQueue.Raft.Event`), so the fields that only hold times – the last
reset of the election timer and its randomized window – have no counterpart.
-/

namespace DistQueue

namespace Raft

variable {Blob : Type}

/-- The name of a node; the empty string is no node's name, and stands for “none”
in `votedFor` and `leaderID`. -/
abbrev NodeID := String

/-- The three roles of a node. -/
inductive State where
  | follower
  | candidate
  | leader
  deriving DecidableEq

/-- A snapshot the state machine must restore: the fields `Snapshot`, `SnapshotIndex`
and `SnapshotTerm` of a message. -/
structure SnapshotMsg (Blob : Type) where
  data : Blob
  index : ℕ
  term : ℕ
  deriving DecidableEq

/-- What is delivered on the apply channel: one committed command, or a snapshot. -/
inductive ApplyMsg (Blob : Type) where
  | command (command : Blob) (index term : ℕ)
  | snapshot (msg : SnapshotMsg Blob)
  deriving DecidableEq

/-- What a node is given when it is created. -/
structure Config where
  id : NodeID
  /-- The other nodes, not including this one. -/
  peers : List NodeID
  /-- Holds `raft-state.gob` and `snapshot.bin`; an empty path makes the node
  ephemeral. -/
  dataDir : String
  deriving DecidableEq

/-- The quorum size of the cluster. -/
def Config.majority (cfg : Config) : ℕ := (cfg.peers.length + 1) / 2 + 1

/-- Where the applier goroutine is: waiting at the top of its loop, about to send a
snapshot, about to send the first entry of a batch, or past the send of an entry
and about to record it in `lastApplied`. -/
inductive Applier (Blob : Type) where
  | waiting
  | snapshot (msg : SnapshotMsg Blob)
  | sending (batch : List (LogEntry Blob))
  | sent (entry : LogEntry Blob) (batch : List (LogEntry Blob))
  deriving DecidableEq

/-- The state of a node. -/
structure Node (Blob : Type) where
  state : State
  currentTerm : ℕ
  votedFor : NodeID
  log : Log Blob
  commitIndex : ℕ
  lastApplied : ℕ
  nextIndex : NodeID → ℕ
  matchIndex : NodeID → ℕ
  /-- The last known leader, for client redirects. -/
  leaderID : NodeID
  /-- The latest snapshot bytes; `none` is a nil slice. -/
  snapshot : Option Blob
  /-- Must be delivered before any further command. -/
  pendingSnapshot : Option (SnapshotMsg Blob)
  /-- The vote counter of each election, by its term: the variable `votes` that the
  goroutines of `startElectionLocked` share. -/
  votes : ℕ → ℕ
  /-- The applier goroutine's position. -/
  applier : Applier Blob
  /-- What has been sent on the apply channel since the node was started. -/
  applyCh : List (ApplyMsg Blob)

/-! ### The files -/

/-- What goes to `raft-state.gob`: all that a node must not forget. -/
structure PersistentState (Blob : Type) where
  currentTerm : ℕ
  votedFor : NodeID
  log : Log Blob

/-- The two files of a node, each absent until it is first written. -/
structure Disk (Blob : Type) where
  /-- `raft-state.gob`. -/
  state : Option (PersistentState Blob)
  /-- `snapshot.bin`. -/
  snapshot : Option Blob

/-- Nothing has been written yet. -/
def emptyDisk : Disk Blob := ⟨none, none⟩

/-- One `atomicWrite`: the file is fully old before it and fully new after it. -/
inductive Write (Blob : Type) where
  | state (ps : PersistentState Blob)
  | snapshot (data : Blob)

/-- A write replaces the file it is for. -/
def Write.apply (d : Disk Blob) : Write Blob → Disk Blob
  | .state ps => { d with state := some ps }
  | .snapshot data => { d with snapshot := some data }

/-- The files after a list of writes. -/
def Disk.write (d : Disk Blob) (ws : List (Write Blob)) : Disk Blob := ws.foldl Write.apply d

@[simp] theorem Disk.write_nil (d : Disk Blob) : d.write [] = d := rfl

@[simp] theorem Disk.write_cons (d : Disk Blob) (x : Write Blob) (ws : List (Write Blob)) :
    d.write (x :: ws) = (x.apply d).write ws := rfl

theorem Disk.write_append (d : Disk Blob) (ws ws' : List (Write Blob)) :
    d.write (ws ++ ws') = (d.write ws).write ws' := List.foldl_append ..

/-- What a node saves. -/
def Node.persistentState (n : Node Blob) : PersistentState Blob :=
  ⟨n.currentTerm, n.votedFor, n.log⟩

/-- Durably saves term, vote and log. -/
def persistLocked (cfg : Config) (n : Node Blob) : List (Write Blob) :=
  if cfg.dataDir = "" then [] else [.state n.persistentState]

/-- Saves the snapshot, then the state: two files, one after the other. -/
def persistWithSnapshotLocked (cfg : Config) (n : Node Blob) (snapshot : Blob) :
    List (Write Blob) :=
  if cfg.dataDir = "" then [] else .snapshot snapshot :: persistLocked cfg n

theorem persistWithSnapshotLocked_of_ne {cfg : Config} (hcfg : cfg.dataDir ≠ "") (n : Node Blob)
    (data : Blob) :
    persistWithSnapshotLocked cfg n data = [.snapshot data, .state n.persistentState] := by
  rw [persistWithSnapshotLocked, if_neg hcfg, persistLocked, if_neg hcfg]

section Start

variable [Inhabited Blob] [DecidableEq Blob]

/-- Restores the state from the files. A missing state file means a fresh node, and
then the snapshot file is not looked at; the snapshot is paired with whatever
boundary the state file's log has. -/
def readPersist (cfg : Config) (d : Disk Blob) (n : Node Blob) : Node Blob :=
  if cfg.dataDir = "" then n
  else match d.state with
    | none => n
    | some ps =>
      let n := { n with currentTerm := ps.currentTerm, votedFor := ps.votedFor, log := ps.log }
      match d.snapshot with
      | none => n
      | some snap =>
        if snap = default then n
        else { n with
          snapshot := some snap
          pendingSnapshot := some ⟨snap, n.log.sentinel.index, n.log.sentinel.term⟩ }

/-- The node `NewNode` builds before it reads the files. -/
def blankNode : Node Blob where
  state := .follower
  currentTerm := 0
  votedFor := ""
  log := emptyLog
  commitIndex := 0
  lastApplied := 0
  nextIndex := fun _ => 0
  matchIndex := fun _ => 0
  leaderID := ""
  snapshot := none
  pendingSnapshot := none
  votes := fun _ => 0
  applier := .waiting
  applyCh := []

/-- A node started on the given files. Nothing below the snapshot boundary needs
re-applying. -/
def newNode (cfg : Config) (d : Disk Blob) : Node Blob :=
  let n := readPersist cfg d blankNode
  { n with commitIndex := n.log.firstIndex, lastApplied := n.log.firstIndex }

end Start

/-! ### State transitions and proposals -/

/-- Steps down into term `term`; the caller persists. -/
def becomeFollowerLocked (n : Node Blob) (term : ℕ) : Node Blob :=
  if n.currentTerm < term then
    { n with state := .follower, currentTerm := term, votedFor := "" }
  else { n with state := .follower }

/-- Stepping down, as an update of the node. -/
theorem becomeFollowerLocked_eq (n : Node Blob) (t : ℕ) : becomeFollowerLocked n t =
    { n with
      state := .follower
      currentTerm := max n.currentTerm t
      votedFor := if n.currentTerm < t then "" else n.votedFor } := by
  rw [becomeFollowerLocked]
  split
  · rename_i hlt
    rw [max_eq_right (le_of_lt hlt)]
  · rename_i hge
    rw [max_eq_left (by omega)]

theorem becomeFollowerLocked_state (n : Node Blob) (t : ℕ) :
    (becomeFollowerLocked n t).state = .follower := by rw [becomeFollowerLocked_eq]

theorem becomeFollowerLocked_log (n : Node Blob) (t : ℕ) :
    (becomeFollowerLocked n t).log = n.log := by rw [becomeFollowerLocked_eq]

theorem becomeFollowerLocked_commitIndex (n : Node Blob) (t : ℕ) :
    (becomeFollowerLocked n t).commitIndex = n.commitIndex := by rw [becomeFollowerLocked_eq]

/-- What `Propose` answers: the entry's index and term, and whether the node is the
leader. -/
structure ProposeResult where
  index : ℕ
  term : ℕ
  isLeader : Bool
  deriving DecidableEq

/-- Appends a command to the log if this node is the leader. -/
def propose (cfg : Config) (n : Node Blob) (command : Blob) :
    Node Blob × List (Write Blob) × ProposeResult :=
  if n.state ≠ .leader then (n, [], ⟨0, n.currentTerm, false⟩)
  else
    let index := n.log.lastIndex + 1
    let n := { n with log := n.log.append [⟨index, n.currentTerm, command⟩] }
    ({ n with matchIndex := Function.update n.matchIndex cfg.id index }, persistLocked cfg n,
      ⟨index, n.currentTerm, true⟩)

/-- Whether the node believes it is the leader. -/
def Node.isLeader (n : Node Blob) : Bool := n.state = .leader

/-- The most recently observed leader, `""` if unknown. -/
def Node.leaderHint (cfg : Config) (n : Node Blob) : NodeID :=
  if n.state = .leader then cfg.id else n.leaderID

end Raft

end DistQueue
