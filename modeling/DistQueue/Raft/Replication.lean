import DistQueue.Raft.Election

/-!
# Replication

The leader's end of an `AppendEntries` call, before and after the network, and the
follower's end. The loops of the source are structural recursions here, on the
list of entries or on the index they count down.
-/

namespace DistQueue

namespace Raft

variable {Blob : Type}

/-- The arguments of `AppendEntries`: the leader's term and commit index, and the entries with the
one they follow. -/
structure AppendEntriesArgs (Blob : Type) where
  term : ℕ
  leaderID : NodeID
  /-- Index of the entry immediately preceding `entries`. -/
  prevLogIndex : ℕ
  /-- Term of that entry. -/
  prevLogTerm : ℕ
  /-- Empty for a heartbeat. -/
  entries : List (LogEntry Blob)
  leaderCommit : ℕ
  deriving DecidableEq

/-- The reply; a refusal says where the leader may resume. -/
structure AppendEntriesReply where
  term : ℕ
  success : Bool := false
  /-- `0` if the follower's log is just too short. -/
  conflictTerm : ℕ := 0
  conflictIndex : ℕ := 0
  deriving DecidableEq

/-! ### The leader -/

/-- The request `sendAppendEntries` builds for a peer. There is none if the node is
not the leader, or if the entries the peer needs are compacted away: then the
snapshot is shipped instead. -/
def sendAppendEntries (cfg : Config) (n : Node Blob) (peer : NodeID) :
    Option (AppendEntriesArgs Blob) :=
  let next := n.nextIndex peer
  if n.state ≠ .leader ∨ next ≤ n.log.firstIndex then none
  else do
    let prevLogTerm ← n.log.termAt (next - 1)
    let entries ← n.log.sliceFrom next
    return {
      term := n.currentTerm
      leaderID := cfg.id
      prevLogIndex := next - 1
      prevLogTerm := prevLogTerm
      entries := entries
      leaderCommit := n.commitIndex }

/-- Only a leader that has not compacted them away sends its entries, and it sends all of them. -/
theorem sendAppendEntries_eq {cfg : Config} {n : Node Blob} {peer : NodeID}
    {args : AppendEntriesArgs Blob} (h : sendAppendEntries cfg n peer = some args) :
    n.state = .leader ∧ ∃ i t es, n.nextIndex peer = i + 1 ∧ n.log.firstIndex ≤ i ∧
      n.log.termAt i = some t ∧ n.log.sliceFrom (i + 1) = some es ∧
      args = {
        term := n.currentTerm
        leaderID := cfg.id
        prevLogIndex := i
        prevLogTerm := t
        entries := es
        leaderCommit := n.commitIndex } := by
  unfold sendAppendEntries at h
  dsimp only at h
  split at h
  · cases h
  rename_i hcond
  obtain ⟨hs, hnext⟩ := not_or.mp hcond
  obtain ⟨i, hi⟩ : ∃ i, n.nextIndex peer = i + 1 := ⟨n.nextIndex peer - 1, by omega⟩
  rw [hi] at h hnext
  obtain ⟨t, ht, h⟩ := Option.bind_eq_some_iff.mp h
  obtain ⟨es, hes, h⟩ := Option.bind_eq_some_iff.mp h
  exact ⟨not_not.mp hs, i, t, es, hi, by omega, ht, hes, (Option.some.inj h).symm⟩

/-- The keys of a leader's `matchIndex`: the peers, and the node itself if it is not among
them. -/
def Config.members (cfg : Config) : List NodeID := cfg.peers.insert cfg.id

/-- How many members hold the log up to `idx`, as far as the leader knows. -/
def matchCount (cfg : Config) (n : Node Blob) (idx : ℕ) : ℕ :=
  cfg.members.countP fun p => decide (idx ≤ n.matchIndex p)

/-- The loop of `advanceCommitLocked` from `idx` downwards: the new `commitIndex`. -/
def advanceCommitFrom (cfg : Config) (n : Node Blob) : ℕ → Option ℕ
  | 0 => some n.commitIndex
  | idx + 1 =>
    if n.commitIndex < idx + 1 ∧ n.log.firstIndex < idx + 1 then do
      let t ← n.log.termAt (idx + 1)
      if t ≠ n.currentTerm then
        -- older-term entries commit implicitly once a newer one does
        some n.commitIndex
      else if cfg.majority ≤ matchCount cfg n (idx + 1) then some (idx + 1)
      else advanceCommitFrom cfg n idx
    else some n.commitIndex

/-- Moves `commitIndex` to the highest index replicated on a majority, but only for
entries of the current term. -/
def advanceCommitLocked (cfg : Config) (n : Node Blob) : Option (Node Blob) := do
  let commitIndex ← advanceCommitFrom cfg n n.log.lastIndex
  return { n with commitIndex := commitIndex }

/-- The search for the last entry of term `t`, from `i` downwards; `0` if there is
none. -/
def lastOfTerm (l : Log Blob) (t : ℕ) : ℕ → Option ℕ
  | 0 => some 0
  | i + 1 =>
    if l.firstIndex < i + 1 then do
      let t' ← l.termAt (i + 1)
      if t' = t then some (i + 1)
      else if t' < t then some 0
      else lastOfTerm l t i
    else some 0

/-- The `nextIndex` a rejection leaves, from the follower's hint. -/
def nextAfterConflict (n : Node Blob) (reply : AppendEntriesReply) : Option ℕ := do
  let next ←
    if 0 < reply.conflictTerm then do
      let last ← lastOfTerm n.log reply.conflictTerm n.log.lastIndex
      if 0 < last then some (last + 1) else some reply.conflictIndex
    else some reply.conflictIndex
  let next := if next ≤ n.log.firstIndex then n.log.firstIndex else next
  return if next < 1 then 1 else next

/-- An `AppendEntries` reply of `peer` reaches the goroutine that sent `args`. -/
def onAppendEntriesReply (cfg : Config) (n : Node Blob) (peer : NodeID)
    (args : AppendEntriesArgs Blob) (reply : AppendEntriesReply) :
    Option (Node Blob × List (Write Blob)) :=
  if n.currentTerm < reply.term then
    let n := becomeFollowerLocked n reply.term
    some (n, persistLocked cfg n)
  else if n.state ≠ .leader ∨ n.currentTerm ≠ args.term then some (n, [])
  else if reply.success then do
    let newMatch := max (n.matchIndex peer) (args.prevLogIndex + args.entries.length)
    let n := { n with matchIndex := Function.update n.matchIndex peer newMatch }
    let n := { n with nextIndex := Function.update n.nextIndex peer (n.matchIndex peer + 1) }
    let n ← advanceCommitLocked cfg n
    return (n, [])
  else do
    let next ← nextAfterConflict n reply
    return ({ n with nextIndex := Function.update n.nextIndex peer next }, [])

/-- A leader learns that a peer holds its log up to `k`. -/
def Node.learn (n : Node Blob) (peer : NodeID) (k : ℕ) : Node Blob :=
  { n with
    matchIndex := Function.update n.matchIndex peer (max (n.matchIndex peer) k)
    nextIndex := Function.update n.nextIndex peer (max (n.matchIndex peer) k + 1) }

/-- A reply of a later term makes the node step down. One that finds it the leader of the term of
the request tells it how far the peer has come, or where to go back to. Otherwise nothing
happens. -/
theorem onAppendEntriesReply_cases {cfg : Config} {n : Node Blob} {peer : NodeID}
    {args : AppendEntriesArgs Blob} {reply : AppendEntriesReply}
    {r : Node Blob × List (Write Blob)}
    (h : onAppendEntriesReply cfg n peer args reply = some r) :
    (n.currentTerm < reply.term ∧ r = (becomeFollowerLocked n reply.term,
      persistLocked cfg (becomeFollowerLocked n reply.term))) ∨
    (¬(n.state = .leader ∧ args.term = n.currentTerm) ∧ r = (n, [])) ∨
    (n.state = .leader ∧ args.term = n.currentTerm) ∧
      ((reply.success = true ∧ ∃ ci,
        advanceCommitFrom cfg (n.learn peer (args.prevLogIndex + args.entries.length))
          n.log.lastIndex = some ci ∧
        r = ({ n.learn peer (args.prevLogIndex + args.entries.length) with
          commitIndex := ci }, [])) ∨
      (reply.success = false ∧ ∃ next, nextAfterConflict n reply = some next ∧
        r = ({ n with nextIndex := Function.update n.nextIndex peer next }, []))) := by
  unfold onAppendEntriesReply at h
  split at h
  · rename_i hlater
    exact .inl ⟨hlater, (Option.some.inj h).symm⟩
  split at h
  · rename_i hstale
    refine .inr (.inl ⟨fun hc => ?_, (Option.some.inj h).symm⟩)
    exact hstale.elim (fun hs => hs hc.1) fun ht => ht hc.2.symm
  rename_i hcurrent
  obtain ⟨hs, hterm⟩ := not_or.mp hcurrent
  refine .inr (.inr ⟨⟨not_not.mp hs, (not_not.mp hterm).symm⟩, ?_⟩)
  split at h
  · rename_i hsucc
    simp only [Function.update_self] at h
    obtain ⟨n₁, hn₁, h⟩ := Option.bind_eq_some_iff.mp h
    obtain ⟨ci, hci, hn₁⟩ := Option.bind_eq_some_iff.mp hn₁
    cases hn₁
    exact .inl ⟨hsucc, ci, hci, (Option.some.inj h).symm⟩
  · rename_i hsucc
    obtain ⟨next, hnext, h⟩ := Option.bind_eq_some_iff.mp h
    exact .inr ⟨Bool.not_eq_true _ ▸ hsucc, next, hnext, (Option.some.inj h).symm⟩

/-! ### The follower -/

/-- A request of a leader whose term is not stale: step down if need be, and
remember it. The first lines of both of a follower's handlers. -/
def observeLeader (cfg : Config) (n : Node Blob) (term : ℕ) (leaderID : NodeID) :
    Node Blob × List (Write Blob) :=
  let (n, ws) :=
    if n.currentTerm < term ∨ n.state ≠ .follower then
      let n := becomeFollowerLocked n term
      (n, persistLocked cfg n)
    else (n, [])
  ({ n with leaderID := leaderID }, ws)

/-- The first lines of the handlers: the node steps down, or follows already. -/
theorem observeLeader_cases (cfg : Config) (n : Node Blob) (term : ℕ) (leaderID : NodeID) :
    ((n.currentTerm < term ∨ n.state ≠ .follower) ∧ observeLeader cfg n term leaderID =
      ({ becomeFollowerLocked n term with leaderID },
        persistLocked cfg (becomeFollowerLocked n term))) ∨
    (term ≤ n.currentTerm ∧ n.state = .follower ∧
      observeLeader cfg n term leaderID = ({ n with leaderID }, [])) := by
  by_cases hc : n.currentTerm < term ∨ n.state ≠ .follower
  · exact .inl ⟨hc, by rw [observeLeader, if_pos hc]⟩
  · obtain ⟨hterm, hs⟩ := not_or.mp hc
    exact .inr ⟨Nat.le_of_not_lt hterm, not_not.mp hs, by rw [observeLeader, if_neg hc]⟩

/-- Shifts a window that begins inside the snapshot to the boundary; `none` if the
entire batch is below it. -/
def shiftWindow (l : Log Blob) (args : AppendEntriesArgs Blob) : Option (AppendEntriesArgs Blob) :=
  if args.prevLogIndex < l.firstIndex then
    let cut := l.firstIndex - args.prevLogIndex
    if args.entries.length < cut then none
    else some { args with
      entries := args.entries.drop cut
      prevLogIndex := l.firstIndex
      prevLogTerm := l.sentinel.term }
  else some args

/-- The window stays as it is, or is cut and begins at the sentinel. -/
theorem shiftWindow_cases {l : Log Blob} {args args' : AppendEntriesArgs Blob}
    (h : shiftWindow l args = some args') :
    args' = args ∨ ∃ cut, args.prevLogIndex + cut = l.firstIndex ∧ cut ≤ args.entries.length ∧
      args' = { args with
        entries := args.entries.drop cut
        prevLogIndex := l.firstIndex
        prevLogTerm := l.sentinel.term } := by
  unfold shiftWindow at h
  split at h
  · dsimp only at h
    split at h
    · cases h
    · exact .inr ⟨_, by omega, by omega, (Option.some.inj h).symm⟩
  · exact .inl (Option.some.inj h).symm

/-- The first index of the run of term `t` that ends at `i`. -/
def conflictStart (l : Log Blob) (t : ℕ) : ℕ → Option ℕ
  | 0 => some 0
  | i + 1 =>
    if l.firstIndex + 1 < i + 1 then do
      let t' ← l.termAt i
      if t' = t then conflictStart l t i else some (i + 1)
    else some (i + 1)

/-- Appends the entries that are not held yet: skips those that are, and at the
first term conflict cuts the tail and takes the leader's entries from there. Also
says whether the log changed. -/
def appendMissing (l : Log Blob) : List (LogEntry Blob) → Option (Log Blob × Bool)
  | [] => some (l, false)
  | e :: es =>
    if e.index ≤ l.lastIndex then do
      let t ← l.termAt e.index
      if t = e.term then appendMissing l es
      else do
        let l ← l.truncateFrom e.index
        return (l.append (e :: es), true)
    else some (l.append (e :: es), true)

/-- The part of `HandleAppendEntries` behind the window shift. -/
def appendShifted (cfg : Config) (n : Node Blob) (args : AppendEntriesArgs Blob) :
    Option (Node Blob × List (Write Blob) × AppendEntriesReply) :=
  if n.log.lastIndex < args.prevLogIndex then
    some (n, [], { term := n.currentTerm, conflictIndex := n.log.lastIndex + 1 })
  else do
    let t ← n.log.termAt args.prevLogIndex
    if t ≠ args.prevLogTerm then do
      let i ← conflictStart n.log t args.prevLogIndex
      return (n, [], { term := n.currentTerm, conflictTerm := t, conflictIndex := i })
    else do
      let (log, changed) ← appendMissing n.log args.entries
      let n := { n with log := log }
      let ws := if changed then persistLocked cfg n else []
      let lastNew := args.prevLogIndex + args.entries.length
      let commitIndex :=
        if n.commitIndex < args.leaderCommit then min args.leaderCommit lastNew else n.commitIndex
      return ({ n with commitIndex := commitIndex }, ws, { term := n.currentTerm, success := true })

/-- **Why a follower refuses**, and what it answers: its log ends before the entries, or has an
entry of another term right before them. -/
inductive Rejects (l : Log Blob) (args : AppendEntriesArgs Blob) (reply : AppendEntriesReply) : Prop
  | short (hlen : l.lastIndex < args.prevLogIndex) (hterm : reply.conflictTerm = 0)
      (hindex : reply.conflictIndex = l.lastIndex + 1)
  | conflict (t : ℕ) (ht : l.termAt args.prevLogIndex = some t) (hne : t ≠ args.prevLogTerm)
      (hterm : reply.conflictTerm = t)
      (hindex : conflictStart l t args.prevLogIndex = some reply.conflictIndex)

/-- The entries are refused, and nothing is changed; or those that are missing are appended. -/
theorem appendShifted_cases {cfg : Config} {n : Node Blob} {args : AppendEntriesArgs Blob}
    {r : Node Blob × List (Write Blob) × AppendEntriesReply}
    (h : appendShifted cfg n args = some r) :
    (∃ reply, reply.term = n.currentTerm ∧ Rejects n.log args reply ∧ r = (n, [], reply)) ∨
    ∃ log changed commitIndex, args.prevLogIndex ≤ n.log.lastIndex ∧
      appendMissing n.log args.entries = some (log, changed) ∧
      commitIndex = (if n.commitIndex < args.leaderCommit then
        min args.leaderCommit (args.prevLogIndex + args.entries.length) else n.commitIndex) ∧
      r = ({ n with log, commitIndex }, if changed then persistLocked cfg { n with log } else [],
        { term := n.currentTerm, success := true }) := by
  unfold appendShifted at h
  split at h
  · rename_i hlen
    exact .inl ⟨_, rfl, .short hlen rfl rfl, (Option.some.inj h).symm⟩
  rename_i hlen
  obtain ⟨t, ht, h⟩ := Option.bind_eq_some_iff.mp h
  split at h
  · rename_i hne
    obtain ⟨i, hi, h⟩ := Option.bind_eq_some_iff.mp h
    exact .inl ⟨_, rfl, .conflict t ht hne rfl hi, (Option.some.inj h).symm⟩
  · obtain ⟨⟨log, changed⟩, hlog, h⟩ := Option.bind_eq_some_iff.mp h
    exact .inr ⟨log, changed, _, Nat.le_of_not_lt hlen, hlog, rfl, (Option.some.inj h).symm⟩

/-- The handler on the receiving side. -/
def handleAppendEntries (cfg : Config) (n : Node Blob) (args : AppendEntriesArgs Blob) :
    Option (Node Blob × List (Write Blob) × AppendEntriesReply) :=
  if args.term < n.currentTerm then some (n, [], { term := n.currentTerm })
  else
    let (n, ws) := observeLeader cfg n args.term args.leaderID
    match shiftWindow n.log args with
    | none => some (n, ws, { term := n.currentTerm, success := true })
    | some args => do
      let (n, ws', reply) ← appendShifted cfg n args
      return (n, ws ++ ws', reply)

/-- A stale request is refused; the others are from the leader, and may bring nothing that is
not compacted away already. -/
theorem handleAppendEntries_cases {cfg : Config} {n : Node Blob} {args : AppendEntriesArgs Blob}
    {r : Node Blob × List (Write Blob) × AppendEntriesReply}
    (h : handleAppendEntries cfg n args = some r) :
    (args.term < n.currentTerm ∧ r = (n, [], { term := n.currentTerm })) ∨
    (∃ reply, reply.conflictIndex = 0 ∧ r = ((observeLeader cfg n args.term args.leaderID).1,
      (observeLeader cfg n args.term args.leaderID).2, reply)) ∨
    ∃ args' r', shiftWindow (observeLeader cfg n args.term args.leaderID).1.log args = some args' ∧
      appendShifted cfg (observeLeader cfg n args.term args.leaderID).1 args' = some r' ∧
      r = (r'.1, (observeLeader cfg n args.term args.leaderID).2 ++ r'.2.1, r'.2.2) := by
  unfold handleAppendEntries at h
  split at h
  · rename_i hstale
    exact .inl ⟨hstale, (Option.some.inj h).symm⟩
  · dsimp only at h
    split at h
    · exact .inr (.inl ⟨_, rfl, (Option.some.inj h).symm⟩)
    · rename_i args' hshift
      obtain ⟨r', hr', h⟩ := Option.bind_eq_some_iff.mp h
      exact .inr (.inr ⟨args', r', hshift, hr', (Option.some.inj h).symm⟩)

/-! ### The applier -/

/-- `batch[i] = n.entryAt(i)` for `from`, `from + 1`, …, `count` of them. -/
def entriesFrom (l : Log Blob) (start : ℕ) : ℕ → Option (List (LogEntry Blob))
  | 0 => some []
  | count + 1 => do
    let e ← l.entryAt start
    let es ← entriesFrom l (start + 1) count
    return e :: es

/-- The top of the applier's loop: take the pending snapshot, or else everything
that is committed and not yet applied. -/
def applierTake (n : Node Blob) : Option (Node Blob) :=
  match n.applier with
  | .waiting =>
    match n.pendingSnapshot with
    | some snap => some { n with
        pendingSnapshot := none
        lastApplied := max n.lastApplied snap.index
        applier := .snapshot snap }
    | none =>
      if n.commitIndex ≤ n.lastApplied then none
      else do
        let start := if n.lastApplied + 1 ≤ n.log.firstIndex then n.log.firstIndex + 1
          else n.lastApplied + 1
        let batch ← entriesFrom n.log start (n.commitIndex + 1 - start)
        return { n with applier := .sending batch }
  | _ => none

/-- A send on the apply channel, made without the lock. -/
def applierSend (n : Node Blob) : Option (Node Blob) :=
  match n.applier with
  | .snapshot msg => some { n with applier := .waiting, applyCh := n.applyCh ++ [.snapshot msg] }
  | .sending [] => some { n with applier := .waiting }
  | .sending (e :: es) => some { n with
      applier := .sent e es
      applyCh := n.applyCh ++ [.command e.command e.index e.term] }
  | _ => none

/-- The lock is taken again after the send of a command. -/
def applierAdvance (n : Node Blob) : Option (Node Blob) :=
  match n.applier with
  | .sent e es => some { n with
      lastApplied := max n.lastApplied e.index
      applier := .sending es }
  | _ => none

/-- **What the applier can take**: the snapshot that waits, or else the committed entries
above both `lastApplied` and the boundary of the log. -/
theorem applierTake_cases {n n' : Node Blob} (h : applierTake n = some n') :
    n.applier = .waiting ∧
      ((∃ snap, n.pendingSnapshot = some snap ∧ n' = { n with
          pendingSnapshot := none
          lastApplied := max n.lastApplied snap.index
          applier := .snapshot snap }) ∨
        n.pendingSnapshot = none ∧
          ∃ batch, entriesFrom n.log (max n.lastApplied n.log.firstIndex + 1)
              (n.commitIndex - max n.lastApplied n.log.firstIndex) = some batch ∧
            n' = { n with applier := .sending batch }) := by
  have hstart : (if n.lastApplied + 1 ≤ n.log.firstIndex then n.log.firstIndex + 1
      else n.lastApplied + 1) = max n.lastApplied n.log.firstIndex + 1 := by
    split <;> omega
  unfold applierTake at h
  split at h
  · rename_i hwait
    split at h
    · rename_i snap hsnap
      exact ⟨hwait, .inl ⟨snap, hsnap, (Option.some.inj h).symm⟩⟩
    · rename_i hnone
      split at h
      · cases h
      · simp only [hstart, Nat.add_sub_add_right] at h
        obtain ⟨batch, hbatch, h⟩ := Option.bind_eq_some_iff.mp h
        exact ⟨hwait, .inr ⟨hnone, batch, hbatch, (Option.some.inj h).symm⟩⟩
  · cases h

/-! What the applier's sections leave alone. -/

theorem applierTake_eq {n n' : Node Blob} (h : applierTake n = some n') :
    n' = { n with
      pendingSnapshot := n'.pendingSnapshot
      lastApplied := n'.lastApplied
      applier := n'.applier } := by
  obtain ⟨-, ⟨snap, -, rfl⟩ | ⟨-, batch, -, rfl⟩⟩ := applierTake_cases h <;> rfl

theorem applierSend_eq {n n' : Node Blob} (h : applierSend n = some n') :
    n' = { n with applier := n'.applier, applyCh := n'.applyCh } := by
  unfold applierSend at h
  split at h
  · rw [← Option.some.inj h]
  · rw [← Option.some.inj h]
  · rw [← Option.some.inj h]
  · cases h

/-- The applier counts its batch as applied and changes nothing else. -/
theorem applierAdvance_eq {n n' : Node Blob} (h : applierAdvance n = some n') :
    n' = { n with lastApplied := n'.lastApplied, applier := n'.applier } := by
  unfold applierAdvance at h
  split at h
  · rw [← Option.some.inj h]
  · cases h

end Raft

end DistQueue
