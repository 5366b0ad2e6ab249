import DistQueue.Raft.Snapshot
import DistQueue.Run

/-!
# The cluster

The nodes of one fixed membership, their files, and the calls between them. The
network loses, delays, repeats and reorders: a request that was ever sent may be
handled at any later time, any number of times or never, and so may a reply be
processed, but only once for each call, and not after the process that made the
call has crashed.

What happens next is always one `DistQueue.Raft.Action`, chosen by the schedule:

* an `DistQueue.Raft.Event` – one section of the source between taking a node's
  mutex and releasing it – runs to its end;
* a node crashes between two such sections and is started again on its files;
* a node crashes inside a section, after the first `k` of the writes the section
  makes, and is started again on the files as they are then.

`DistQueue.Raft.step` is partial: an action is refused if the schedule names a
call that does not exist, a node that is not a member, or a section the node is
not about to run.
-/

namespace DistQueue

namespace Raft

variable {Blob : Type}

/-- **The nodes of a cluster**, with the configuration that each was started with. -/
structure Nodes where
  ids : List NodeID
  config : NodeID → Config

/-- **One fixed, consistent membership of persistent nodes**: every member's peers
are exactly the other members. The command line refuses an empty node name. -/
structure Membership extends Nodes where
  nodup : ids.Nodup
  ne_empty : ∀ n ∈ ids, n ≠ ""
  config_id : ∀ n ∈ ids, (config n).id = n
  peers_nodup : ∀ n ∈ ids, (config n).peers.Nodup
  mem_peers : ∀ n ∈ ids, ∀ p, p ∈ (config n).peers ↔ p ∈ ids ∧ p ≠ n
  persistent : ∀ n ∈ ids, (config n).dataDir ≠ ""

instance : Coe Membership Nodes := ⟨Membership.toNodes⟩

/-- The membership of the given names, each node with the others as its peers. -/
def Membership.ofIDs (ids : List NodeID) (dataDir : String) (nodup : ids.Nodup)
    (ne_empty : ∀ n ∈ ids, n ≠ "") (persistent : dataDir ≠ "") : Membership where
  ids := ids
  config := fun n => ⟨n, ids.erase n, dataDir⟩
  nodup := nodup
  ne_empty := ne_empty
  config_id := fun _ _ => rfl
  peers_nodup := fun _ _ => nodup.erase _
  mem_peers := fun n _ p => by rw [nodup.mem_erase_iff, and_comm]
  persistent := fun _ _ => persistent

/-! ### Calls -/

/-- What a node asks of another one: one of the three RPCs of the protocol. -/
inductive Request (Blob : Type) where
  | requestVote (args : RequestVoteArgs)
  | appendEntries (args : AppendEntriesArgs Blob)
  | installSnapshot (args : InstallSnapshotArgs Blob)

/-- What it is answered. -/
inductive Reply where
  | requestVote (reply : RequestVoteReply)
  | appendEntries (reply : AppendEntriesReply)
  | installSnapshot (reply : InstallSnapshotReply)

/-- A call: its two ends, the request, and whether the goroutine that made it still
waits for the reply. -/
structure Call (Blob : Type) where
  caller : NodeID
  callee : NodeID
  request : Request Blob
  waiting : Bool

/-- The state of the cluster. A reply carries the number of its call. -/
structure World (Blob : Type) where
  nodes : NodeID → Node Blob
  disks : NodeID → Disk Blob
  calls : List (Call Blob)
  replies : List (ℕ × Reply)

/-- What makes a node act by itself: a timer, a client, the state machine, or one of
its goroutines reaching its next section. -/
inductive Trigger (Blob : Type) where
  /-- The election timer of a node that is not the leader has run out. -/
  | electionTimeout
  | propose (command : Blob)
  | sendAppendEntries (peer : NodeID)
  /-- Follows a `sendAppendEntries` that found the entries compacted away, after the
  mutex was released, and so at any time. -/
  | sendInstallSnapshot (peer : NodeID)
  | snapshot (index : ℕ) (data : Blob)
  | applierTake
  | applierSend
  | applierAdvance

/-- One section under a node's mutex. -/
inductive Event (Blob : Type) where
  | trigger (n : NodeID) (t : Trigger Blob)
  /-- The callee of call `k` handles its request. -/
  | deliver (k : ℕ)
  /-- The `j`-th reply reaches the goroutine that waits for it. -/
  | answer (j : ℕ)

/-- What an event does: the node it runs on, the node's new state, the writes in
order, the calls it makes, the replies it sends and the call it has finished. -/
structure Effect (Blob : Type) where
  actor : NodeID
  node : Node Blob
  writes : List (Write Blob) := []
  calls : List (Call Blob) := []
  replies : List (ℕ × Reply) := []
  finished : Option ℕ := none

section Effects

variable [Inhabited Blob]

/-- The callee's end of call `k`. -/
def handle (cfg : Config) (n : Node Blob) (k : ℕ) : Request Blob → Option (Effect Blob)
  | .requestVote args =>
    let r := handleRequestVote cfg n args
    some { actor := cfg.id, node := r.1, writes := r.2.1, replies := [(k, .requestVote r.2.2)] }
  | .appendEntries args => do
    let r ← handleAppendEntries cfg n args
    return { actor := cfg.id, node := r.1, writes := r.2.1, replies := [(k, .appendEntries r.2.2)] }
  | .installSnapshot args => do
    let r ← handleInstallSnapshot cfg n args
    return {
      actor := cfg.id, node := r.1, writes := r.2.1, replies := [(k, .installSnapshot r.2.2)] }

/-- The caller's end of call `k`, made to `peer`. -/
def onReply (cfg : Config) (n : Node Blob) (k : ℕ) (peer : NodeID) :
    Request Blob → Reply → Option (Effect Blob)
  | .requestVote args, .requestVote reply =>
    let r := onRequestVoteReply cfg n args.term reply
    some { actor := cfg.id, node := r.1, writes := r.2, finished := some k }
  | .appendEntries args, .appendEntries reply => do
    let r ← onAppendEntriesReply cfg n peer args reply
    return { actor := cfg.id, node := r.1, writes := r.2, finished := some k }
  | .installSnapshot args, .installSnapshot reply =>
    let r := onInstallSnapshotReply cfg n peer args reply
    some { actor := cfg.id, node := r.1, writes := r.2, finished := some k }
  | _, _ => none

/-- A node acts by itself. -/
def act (cfg : Config) (n : Node Blob) : Trigger Blob → Option (Effect Blob)
  | .electionTimeout =>
    if n.state = .leader then none
    else
      let r := startElectionLocked cfg n
      some {
        actor := cfg.id, node := r.1, writes := r.2.1
        calls := cfg.peers.map fun p => ⟨cfg.id, p, .requestVote r.2.2, true⟩ }
  | .propose command =>
    let r := propose cfg n command
    some { actor := cfg.id, node := r.1, writes := r.2.1 }
  | .sendAppendEntries peer =>
    if peer ∈ cfg.peers then do
      let args ← sendAppendEntries cfg n peer
      return { actor := cfg.id, node := n, calls := [⟨cfg.id, peer, .appendEntries args, true⟩] }
    else none
  | .sendInstallSnapshot peer =>
    if peer ∈ cfg.peers then do
      let args ← sendInstallSnapshot cfg n
      return { actor := cfg.id, node := n, calls := [⟨cfg.id, peer, .installSnapshot args, true⟩] }
    else none
  | .snapshot index data => do
    let r ← snapshot cfg n index data
    return { actor := cfg.id, node := r.1, writes := r.2 }
  | .applierTake => (applierTake n).map fun n => { actor := cfg.id, node := n }
  | .applierSend => (applierSend n).map fun n => { actor := cfg.id, node := n }
  | .applierAdvance => (applierAdvance n).map fun n => { actor := cfg.id, node := n }

/-- What a node does by itself, trigger by trigger. -/
inductive Acts (cfg : Config) (n : Node Blob) : Trigger Blob → Effect Blob → Prop
  | electionTimeout (hs : n.state ≠ .leader) : Acts cfg n .electionTimeout
      { actor := cfg.id
        node := (startElectionLocked cfg n).1
        writes := (startElectionLocked cfg n).2.1
        calls := cfg.peers.map fun p =>
          ⟨cfg.id, p, .requestVote (startElectionLocked cfg n).2.2, true⟩ }
  | propose (command : Blob) : Acts cfg n (.propose command)
      { actor := cfg.id
        node := (propose cfg n command).1
        writes := (propose cfg n command).2.1 }
  | sendAppendEntries {peer : NodeID} {args : AppendEntriesArgs Blob} (hpeer : peer ∈ cfg.peers)
      (hargs : sendAppendEntries cfg n peer = some args) : Acts cfg n (.sendAppendEntries peer)
      { actor := cfg.id, node := n, calls := [⟨cfg.id, peer, .appendEntries args, true⟩] }
  | sendInstallSnapshot {peer : NodeID} {args : InstallSnapshotArgs Blob} (hpeer : peer ∈ cfg.peers)
      (hargs : sendInstallSnapshot cfg n = some args) : Acts cfg n (.sendInstallSnapshot peer)
      { actor := cfg.id, node := n, calls := [⟨cfg.id, peer, .installSnapshot args, true⟩] }
  | snapshot {index : ℕ} {data : Blob} {r : Node Blob × List (Write Blob)}
      (hr : snapshot cfg n index data = some r) : Acts cfg n (.snapshot index data)
      { actor := cfg.id, node := r.1, writes := r.2 }
  | applierTake {n' : Node Blob} (hn' : applierTake n = some n') :
      Acts cfg n .applierTake { actor := cfg.id, node := n' }
  | applierSend {n' : Node Blob} (hn' : applierSend n = some n') :
      Acts cfg n .applierSend { actor := cfg.id, node := n' }
  | applierAdvance {n' : Node Blob} (hn' : applierAdvance n = some n') :
      Acts cfg n .applierAdvance { actor := cfg.id, node := n' }

/-- What a node does by itself, case by case. -/
theorem acts_of_act {cfg : Config} {n : Node Blob} {t : Trigger Blob} {x : Effect Blob}
    (h : act cfg n t = some x) : Acts cfg n t x := by
  cases t with
  | electionTimeout =>
    simp only [act, Option.ite_none_left_eq_some, Option.some.injEq] at h
    obtain ⟨hs, rfl⟩ := h
    exact .electionTimeout hs
  | propose command =>
    cases h
    exact .propose command
  | sendAppendEntries peer =>
    simp only [act, Option.ite_none_right_eq_some] at h
    obtain ⟨hpeer, h⟩ := h
    obtain ⟨args, hargs, h⟩ := Option.bind_eq_some_iff.mp h
    cases h
    exact .sendAppendEntries hpeer hargs
  | sendInstallSnapshot peer =>
    simp only [act, Option.ite_none_right_eq_some] at h
    obtain ⟨hpeer, h⟩ := h
    obtain ⟨args, hargs, h⟩ := Option.bind_eq_some_iff.mp h
    cases h
    exact .sendInstallSnapshot hpeer hargs
  | snapshot index data =>
    obtain ⟨r, hr, h⟩ := Option.bind_eq_some_iff.mp h
    cases h
    exact .snapshot hr
  | applierTake =>
    obtain ⟨n', hn', rfl⟩ := Option.map_eq_some_iff.mp h
    exact .applierTake hn'
  | applierSend =>
    obtain ⟨n', hn', rfl⟩ := Option.map_eq_some_iff.mp h
    exact .applierSend hn'
  | applierAdvance =>
    obtain ⟨n', hn', rfl⟩ := Option.map_eq_some_iff.mp h
    exact .applierAdvance hn'

/-- What an event does in a state of the cluster. A request to a node that does not exist is
never handled. -/
def effect (N : Nodes) (w : World Blob) : Event Blob → Option (Effect Blob)
  | .trigger n t => if n ∈ N.ids then act (N.config n) (w.nodes n) t else none
  | .deliver k => do
    let c ← w.calls[k]?
    if c.callee ∈ N.ids then handle (N.config c.callee) (w.nodes c.callee) k c.request else none
  | .answer j => do
    let (k, reply) ← w.replies[j]?
    let c ← w.calls[k]?
    if c.waiting ∧ c.caller ∈ N.ids then
      onReply (N.config c.caller) (w.nodes c.caller) k c.callee c.request reply
    else none

section Ends

variable {N : Nodes} {w : World Blob} {x : Effect Blob} {c : Call Blob} {k j : ℕ} {reply : Reply}

/-- The callee's end of a call is run by a node that exists. -/
theorem effect_deliver (h : effect N w (.deliver k) = some x) :
    ∃ c, w.calls[k]? = some c ∧ c.callee ∈ N.ids ∧
      handle (N.config c.callee) (w.nodes c.callee) k c.request = some x := by
  obtain ⟨c, hc, h⟩ := Option.bind_eq_some_iff.mp h
  exact ⟨c, hc, Option.ite_none_right_eq_some.mp h⟩

/-- The caller's end is run if the caller waits. -/
theorem effect_answer (h : effect N w (.answer j) = some x) :
    ∃ k reply c, w.replies[j]? = some (k, reply) ∧ w.calls[k]? = some c ∧ c.waiting = true ∧
      c.caller ∈ N.ids ∧
      onReply (N.config c.caller) (w.nodes c.caller) k c.callee c.request reply = some x := by
  obtain ⟨⟨k, reply⟩, hj, h⟩ := Option.bind_eq_some_iff.mp h
  obtain ⟨c, hc, h⟩ := Option.bind_eq_some_iff.mp h
  obtain ⟨⟨hwaiting, hn⟩, h⟩ := Option.ite_none_right_eq_some.mp h
  exact ⟨k, reply, c, hj, hc, hwaiting, hn, h⟩

theorem effect_deliver_eq (hc : w.calls[k]? = some c) (hn : c.callee ∈ N.ids) :
    effect N w (.deliver k) = handle (N.config c.callee) (w.nodes c.callee) k c.request := by
  simp only [effect, hc, Option.bind_eq_bind, Option.bind_some, if_pos hn]

theorem effect_answer_eq (hj : w.replies[j]? = some (k, reply)) (hc : w.calls[k]? = some c)
    (hwaiting : c.waiting = true) (hn : c.caller ∈ N.ids) : effect N w (.answer j) =
      onReply (N.config c.caller) (w.nodes c.caller) k c.callee c.request reply := by
  simp only [effect, hj, hc, Option.bind_eq_bind, Option.bind_some, if_pos (And.intro hwaiting hn)]

end Ends

end Effects

/-! ### Steps -/

/-- The goroutine of a call no longer waits. -/
def Call.close (c : Call Blob) : Call Blob := { c with waiting := false }

/-- Close the call with the given number, if there is one. -/
def closeCall (calls : List (Call Blob)) : Option ℕ → List (Call Blob)
  | none => calls
  | some k => calls.modify k Call.close

/-- The event runs to its end. -/
def World.commit (w : World Blob) (x : Effect Blob) : World Blob where
  nodes := Function.update w.nodes x.actor x.node
  disks := Function.update w.disks x.actor ((w.disks x.actor).write x.writes)
  calls := closeCall w.calls x.finished ++ x.calls
  replies := w.replies ++ x.replies

variable [Inhabited Blob] [DecidableEq Blob]

/-- Node `n` crashes, its last writes having been `ws`, and is started again. -/
def World.restart (N : Nodes) (w : World Blob) (n : NodeID) (ws : List (Write Blob)) :
    World Blob where
  nodes := Function.update w.nodes n (newNode (N.config n) ((w.disks n).write ws))
  disks := Function.update w.disks n ((w.disks n).write ws)
  calls := w.calls.map fun c => if c.caller = n then c.close else c
  replies := w.replies

/-- What the schedule decides. -/
inductive Action (Blob : Type) where
  | run (e : Event Blob)
  | crash (n : NodeID)
  /-- The node that runs `e` crashes after the first `k` writes of it. -/
  | crashIn (e : Event Blob) (k : ℕ)

/-- One action of the cluster. -/
def step (N : Nodes) (w : World Blob) : Action Blob → Option (World Blob)
  | .run e => (effect N w e).map w.commit
  | .crash n => if n ∈ N.ids then some (w.restart N n []) else none
  | .crashIn e k => (effect N w e).map fun x => w.restart N x.actor (x.writes.take k)

/-- The cluster before anything has run: every node started on empty files. -/
def start (N : Nodes) : World Blob where
  nodes := fun n => newNode (N.config n) emptyDisk
  disks := fun _ => emptyDisk
  calls := []
  replies := []

/-- The state a schedule leads to, if every one of its actions can be taken. -/
def run (N : Nodes) (as : List (Action Blob)) : Option (World Blob) :=
  Run.exec (step N) (start N) as

end Raft

end DistQueue
