import DistQueue.Raft.Node

/-!
# Elections

The vote request and its two ends: the candidate that starts an election and
counts the grants, and the voter. The goroutines that wait for the replies may
outlive the election they belong to; `DistQueue.Raft.onRequestVoteReply` is what
such a goroutine does when its reply arrives, whatever the node is by then.
-/

namespace DistQueue

namespace Raft

variable {Blob : Type}

/-- The arguments of `RequestVote`: the candidate, its term, and how far its log reaches. -/
structure RequestVoteArgs where
  term : ℕ
  candidateID : NodeID
  lastLogIndex : ℕ
  lastLogTerm : ℕ
  deriving DecidableEq

/-- The reply: the voter's term, and whether it votes for the candidate. -/
structure RequestVoteReply where
  term : ℕ
  voteGranted : Bool
  deriving DecidableEq

/-- The election restriction: the candidate's log is at least as up to date as ours. -/
def UpToDateWith (l : Log Blob) (args : RequestVoteArgs) : Prop :=
  l.lastTerm < args.lastLogTerm ∨
    (args.lastLogTerm = l.lastTerm ∧ l.lastIndex ≤ args.lastLogIndex)

instance (l : Log Blob) (args : RequestVoteArgs) : Decidable (UpToDateWith l args) :=
  inferInstanceAs (Decidable (_ ∨ _))

/-- Becomes a candidate and asks every peer for its vote: the node, the writes, and
the request that goes to each peer. -/
def startElectionLocked (cfg : Config) (n : Node Blob) :
    Node Blob × List (Write Blob) × RequestVoteArgs :=
  let n := { n with
    state := .candidate, currentTerm := n.currentTerm + 1, votedFor := cfg.id }
  ({ n with votes := Function.update n.votes n.currentTerm 1 }, persistLocked cfg n,
    { term := n.currentTerm
      candidateID := cfg.id
      lastLogIndex := n.log.lastIndex
      lastLogTerm := n.log.lastTerm })

variable [Inhabited Blob]

/-- Initializes the leader's volatile state and appends the no-op of the new
term. -/
def becomeLeaderLocked (cfg : Config) (n : Node Blob) : Node Blob × List (Write Blob) :=
  let n := { n with
    state := .leader
    leaderID := cfg.id
    nextIndex := fun p => if p ∈ cfg.peers then n.log.lastIndex + 1 else n.nextIndex p
    matchIndex := fun p => if p ∈ cfg.peers then 0 else n.matchIndex p }
  let n := { n with log := n.log.append [⟨n.log.lastIndex + 1, n.currentTerm, default⟩] }
  ({ n with matchIndex := Function.update n.matchIndex cfg.id n.log.lastIndex },
    persistLocked cfg n)

/-- One more vote in the election of term `term`. -/
def countVote (cfg : Config) (n : Node Blob) (term : ℕ) : Node Blob × List (Write Blob) :=
  let votes := Function.update n.votes term (n.votes term + 1)
  if cfg.majority ≤ n.votes term + 1 then becomeLeaderLocked cfg { n with votes := votes }
  else ({ n with votes := votes }, [])

/-- A vote reply reaches the goroutine of the election of term `term`. -/
def onRequestVoteReply (cfg : Config) (n : Node Blob) (term : ℕ) (reply : RequestVoteReply) :
    Node Blob × List (Write Blob) :=
  if n.currentTerm < reply.term then
    let n := becomeFollowerLocked n reply.term
    (n, persistLocked cfg n)
  else if n.state ≠ .candidate ∨ n.currentTerm ≠ term then (n, [])
  else if reply.voteGranted then countVote cfg n term
  else (n, [])

/-- A vote reply of a later term makes the node step down. A grant in the election of the term may
elect the node or only be counted. Otherwise nothing happens. -/
theorem onRequestVoteReply_cases (cfg : Config) (n : Node Blob) (term : ℕ)
    (reply : RequestVoteReply) :
    (n.currentTerm < reply.term ∧ onRequestVoteReply cfg n term reply =
      (becomeFollowerLocked n reply.term,
        persistLocked cfg (becomeFollowerLocked n reply.term))) ∨
    (¬(n.state = .candidate ∧ n.currentTerm = term ∧ reply.voteGranted = true) ∧
      onRequestVoteReply cfg n term reply = (n, [])) ∨
    (n.state = .candidate ∧ n.currentTerm = term ∧ reply.voteGranted = true) ∧
      ((cfg.majority ≤ n.votes term + 1 ∧ onRequestVoteReply cfg n term reply =
        becomeLeaderLocked cfg
          { n with votes := Function.update n.votes term (n.votes term + 1) }) ∨
      (n.votes term + 1 < cfg.majority ∧ onRequestVoteReply cfg n term reply =
        ({ n with votes := Function.update n.votes term (n.votes term + 1) }, []))) := by
  unfold onRequestVoteReply
  by_cases hlater : n.currentTerm < reply.term
  · exact .inl ⟨hlater, if_pos hlater⟩
  rw [if_neg hlater]
  by_cases hstale : n.state ≠ .candidate ∨ n.currentTerm ≠ term
  · refine .inr (.inl ⟨fun hc => ?_, if_pos hstale⟩)
    exact hstale.elim (fun hs => hs hc.1) fun ht => ht hc.2.1
  rw [if_neg hstale]
  obtain ⟨hs, hterm⟩ := not_or.mp hstale
  by_cases hgrant : reply.voteGranted = true
  · rw [if_pos hgrant, countVote]
    refine .inr (.inr ⟨⟨not_not.mp hs, not_not.mp hterm, hgrant⟩, ?_⟩)
    by_cases hmaj : cfg.majority ≤ n.votes term + 1
    · exact .inl ⟨hmaj, if_pos hmaj⟩
    · exact .inr ⟨Nat.lt_of_not_le hmaj, if_neg hmaj⟩
  · exact .inr (.inl ⟨fun hc => hgrant hc.2.2, if_neg hgrant⟩)

omit [Inhabited Blob] in
/-- A request of a later term: step down and save. -/
def observeTerm (cfg : Config) (n : Node Blob) (term : ℕ) : Node Blob × List (Write Blob) :=
  if n.currentTerm < term then
    let n := becomeFollowerLocked n term
    (n, persistLocked cfg n)
  else (n, [])

omit [Inhabited Blob] in
/-- The part of `HandleRequestVote` behind the comparison of the terms. -/
def castVote (cfg : Config) (n : Node Blob) (args : RequestVoteArgs) :
    Node Blob × List (Write Blob) × RequestVoteReply :=
  if args.term < n.currentTerm then (n, [], ⟨n.currentTerm, false⟩)
  else if (n.votedFor = "" ∨ n.votedFor = args.candidateID) ∧ UpToDateWith n.log args then
    let n := { n with votedFor := args.candidateID }
    (n, persistLocked cfg n, ⟨n.currentTerm, true⟩)
  else (n, [], ⟨n.currentTerm, false⟩)

omit [Inhabited Blob] in
/-- The voter's end. -/
def handleRequestVote (cfg : Config) (n : Node Blob) (args : RequestVoteArgs) :
    Node Blob × List (Write Blob) × RequestVoteReply :=
  let (n, ws) := observeTerm cfg n args.term
  let (n, ws', reply) := castVote cfg n args
  (n, ws ++ ws', reply)

end Raft

end DistQueue
