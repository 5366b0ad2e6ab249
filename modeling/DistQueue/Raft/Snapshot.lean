import DistQueue.Raft.Replication

/-!
# Snapshots

Compaction of a node's own log, and the call that ships a snapshot to a follower
whose entries are gone. Both ends replace the log's sentinel, and both write the
snapshot file before the state file.
-/

namespace DistQueue

namespace Raft

variable {Blob : Type}

/-- The arguments of `InstallSnapshot`: the leader's term, and the snapshot with the entry it ends
with. -/
structure InstallSnapshotArgs (Blob : Type) where
  term : ℕ
  leaderID : NodeID
  lastIncludedIndex : ℕ
  lastIncludedTerm : ℕ
  data : Blob
  deriving DecidableEq

/-- The reply: the follower's term. -/
structure InstallSnapshotReply where
  term : ℕ
  deriving DecidableEq

/-- The log with everything up to `index` replaced by a sentinel. -/
def sentinelLog [Inhabited Blob] (index term : ℕ) (tail : List (LogEntry Blob)) : Log Blob :=
  ⟨⟨index, term, default⟩, tail⟩

variable [Inhabited Blob]

/-- The state machine has serialized its state through `index`. -/
def snapshot (cfg : Config) (n : Node Blob) (index : ℕ) (snapshot : Blob) :
    Option (Node Blob × List (Write Blob)) :=
  if index ≤ n.log.firstIndex ∨ n.lastApplied < index then some (n, [])
  else do
    let boundaryTerm ← n.log.termAt index
    let tail ← n.log.sliceFrom (index + 1)
    let n := { n with
      log := sentinelLog index boundaryTerm tail
      snapshot := some snapshot }
    return (n, persistWithSnapshotLocked cfg n snapshot)

/-- The call takes effect if the index is above the boundary and has been applied. -/
theorem snapshot_cases {cfg : Config} {n : Node Blob} {index : ℕ} {data : Blob}
    {r : Node Blob × List (Write Blob)} (h : snapshot cfg n index data = some r) :
    ((index ≤ n.log.firstIndex ∨ n.lastApplied < index) ∧ r = (n, [])) ∨
    (n.log.firstIndex < index ∧ index ≤ n.lastApplied) ∧ ∃ t tail,
      n.log.termAt index = some t ∧ n.log.sliceFrom (index + 1) = some tail ∧
      r = ({ n with log := sentinelLog index t tail, snapshot := some data },
        persistWithSnapshotLocked cfg
          { n with log := sentinelLog index t tail, snapshot := some data } data) := by
  unfold snapshot at h
  split at h
  · rename_i hno
    exact .inl ⟨hno, (Option.some.inj h).symm⟩
  · rename_i hyes
    obtain ⟨t, ht, h⟩ := Option.bind_eq_some_iff.mp h
    obtain ⟨tail, htail, h⟩ := Option.bind_eq_some_iff.mp h
    exact .inr ⟨by omega, t, tail, ht, htail, (Option.some.inj h).symm⟩

omit [Inhabited Blob] in
/-- The request `sendInstallSnapshot` builds, if the node is the leader and has a
snapshot. -/
def sendInstallSnapshot (cfg : Config) (n : Node Blob) : Option (InstallSnapshotArgs Blob) :=
  match n.snapshot with
  | none => none
  | some data =>
    if n.state ≠ .leader then none
    else some {
      term := n.currentTerm
      leaderID := cfg.id
      lastIncludedIndex := n.log.firstIndex
      lastIncludedTerm := n.log.sentinel.term
      data := data }

omit [Inhabited Blob] in
/-- Only a leader that has a snapshot sends it, with the boundary of its log. -/
theorem sendInstallSnapshot_eq {cfg : Config} {n : Node Blob} {args : InstallSnapshotArgs Blob}
    (h : sendInstallSnapshot cfg n = some args) :
    n.state = .leader ∧ ∃ data, n.snapshot = some data ∧ args = {
      term := n.currentTerm
      leaderID := cfg.id
      lastIncludedIndex := n.log.firstIndex
      lastIncludedTerm := n.log.sentinel.term
      data := data } := by
  unfold sendInstallSnapshot at h
  split at h
  · cases h
  · rename_i data hdata
    split at h
    · cases h
    · rename_i hs
      exact ⟨not_not.mp hs, data, hdata, (Option.some.inj h).symm⟩

omit [Inhabited Blob] in
/-- An `InstallSnapshot` reply of `peer` reaches the goroutine that sent `args`. -/
def onInstallSnapshotReply (cfg : Config) (n : Node Blob) (peer : NodeID)
    (args : InstallSnapshotArgs Blob) (reply : InstallSnapshotReply) :
    Node Blob × List (Write Blob) :=
  if n.currentTerm < reply.term then
    let n := becomeFollowerLocked n reply.term
    (n, persistLocked cfg n)
  else if n.state ≠ .leader ∨ n.currentTerm ≠ args.term then (n, [])
  else
    let newMatch := max (n.matchIndex peer) args.lastIncludedIndex
    let n := { n with matchIndex := Function.update n.matchIndex peer newMatch }
    ({ n with nextIndex := Function.update n.nextIndex peer (n.matchIndex peer + 1) }, [])

omit [Inhabited Blob] in
/-- A reply of a later term makes the node step down. One that finds it the leader of the term of
the request tells it that the peer has the snapshot. Otherwise nothing happens. -/
theorem onInstallSnapshotReply_cases (cfg : Config) (n : Node Blob) (peer : NodeID)
    (args : InstallSnapshotArgs Blob) (reply : InstallSnapshotReply) :
    (n.currentTerm < reply.term ∧ onInstallSnapshotReply cfg n peer args reply =
      (becomeFollowerLocked n reply.term,
        persistLocked cfg (becomeFollowerLocked n reply.term))) ∨
    (¬(n.state = .leader ∧ args.term = n.currentTerm) ∧
      onInstallSnapshotReply cfg n peer args reply = (n, [])) ∨
    (n.state = .leader ∧ args.term = n.currentTerm ∧ reply.term ≤ n.currentTerm) ∧
      onInstallSnapshotReply cfg n peer args reply =
        (n.learn peer args.lastIncludedIndex, []) := by
  unfold onInstallSnapshotReply
  by_cases hlater : n.currentTerm < reply.term
  · exact .inl ⟨hlater, if_pos hlater⟩
  rw [if_neg hlater]
  by_cases hstale : n.state ≠ .leader ∨ n.currentTerm ≠ args.term
  · refine .inr (.inl ⟨fun hc => ?_, if_pos hstale⟩)
    exact hstale.elim (fun hs => hs hc.1) fun ht => ht hc.2.symm
  rw [if_neg hstale]
  obtain ⟨hs, hterm⟩ := not_or.mp hstale
  refine .inr (.inr ⟨⟨not_not.mp hs, (not_not.mp hterm).symm, Nat.le_of_not_lt hlater⟩, ?_⟩)
  dsimp only
  rw [Function.update_self]
  rfl

omit [Inhabited Blob] in
/-- What a follower keeps of its log behind a snapshot: the tail, if the log extends
past it with a matching boundary entry. -/
def keptTail (l : Log Blob) (index term : ℕ) : Option (List (LogEntry Blob)) :=
  if index ≤ l.lastIndex then do
    let t ← l.termAt index
    if t = term then l.sliceFrom (index + 1) else some []
  else some []

/-- The part of `HandleInstallSnapshot` that replaces the log. -/
def installSnapshot (cfg : Config) (n : Node Blob) (args : InstallSnapshotArgs Blob) :
    Option (Node Blob × List (Write Blob)) := do
  let tail ← keptTail n.log args.lastIncludedIndex args.lastIncludedTerm
  let n := { n with
    log := sentinelLog args.lastIncludedIndex args.lastIncludedTerm tail
    snapshot := some args.data }
  return ({ n with
      commitIndex := args.lastIncludedIndex
      pendingSnapshot := some ⟨args.data, args.lastIncludedIndex, args.lastIncludedTerm⟩ },
    persistWithSnapshotLocked cfg n args.data)

/-- The handler on the receiving follower. -/
def handleInstallSnapshot (cfg : Config) (n : Node Blob) (args : InstallSnapshotArgs Blob) :
    Option (Node Blob × List (Write Blob) × InstallSnapshotReply) :=
  if args.term < n.currentTerm then some (n, [], ⟨n.currentTerm⟩)
  else
    let (n, ws) := observeLeader cfg n args.term args.leaderID
    if args.lastIncludedIndex ≤ n.commitIndex then some (n, ws, ⟨n.currentTerm⟩)
    else do
      let (n, ws') ← installSnapshot cfg n args
      return (n, ws ++ ws', ⟨n.currentTerm⟩)

/-- A stale request is refused; the others are from the leader, and may bring nothing that is
not committed already. -/
theorem handleInstallSnapshot_cases {cfg : Config} {n : Node Blob}
    {args : InstallSnapshotArgs Blob} {r : Node Blob × List (Write Blob) × InstallSnapshotReply}
    (h : handleInstallSnapshot cfg n args = some r) :
    (args.term < n.currentTerm ∧ r = (n, [], ⟨n.currentTerm⟩)) ∨
    (∃ reply, r = ((observeLeader cfg n args.term args.leaderID).1,
      (observeLeader cfg n args.term args.leaderID).2, reply)) ∨
    ∃ r' reply, (observeLeader cfg n args.term args.leaderID).1.commitIndex <
        args.lastIncludedIndex ∧
      installSnapshot cfg (observeLeader cfg n args.term args.leaderID).1 args = some r' ∧
      r = (r'.1, (observeLeader cfg n args.term args.leaderID).2 ++ r'.2, reply) := by
  unfold handleInstallSnapshot at h
  split at h
  · rename_i hstale
    exact .inl ⟨hstale, (Option.some.inj h).symm⟩
  · dsimp only at h
    split at h
    · exact .inr (.inl ⟨_, (Option.some.inj h).symm⟩)
    · rename_i hnew
      obtain ⟨r', hr', h⟩ := Option.bind_eq_some_iff.mp h
      exact .inr (.inr ⟨r', _, Nat.lt_of_not_le hnew, hr', (Option.some.inj h).symm⟩)

end Raft

end DistQueue
