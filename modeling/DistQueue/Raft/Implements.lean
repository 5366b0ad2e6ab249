import DistQueue.Consensus.Chosen
import DistQueue.Raft.Cluster
import Mathlib.Data.Finset.Card

/-!
# What a node implements

The abstract ledger of `DistQueue.Consensus` has a log, a term and a vote for every
member. This file says what it means that a node, with its compacted log, its
`commitIndex` and its applier, implements the part of the ledger that is its own
(`DistQueue.Raft.Implements`), and that its files do (`DistQueue.Raft.Persisted`).

Every section of the source is then shown to move the ledger by steps of its own
member, and to implement the ledger it leads to. `DistQueue.Raft.Outcome` is the form
all these results have. It also covers the crash inside the section: after any number
of the writes, the files implement a ledger that the member could have moved to.
-/

namespace DistQueue

namespace Raft

open Consensus

variable {Blob : Type}

/-! ### The membership as a consensus group -/

namespace Membership

variable (M : Membership)

/-- The quorums are the majorities of the members. -/
def rules : Rules NodeID (LogEntry Blob) where
  term := LogEntry.term
  Quorum q := q ⊆ M.ids.toFinset ∧ M.ids.length / 2 + 1 ≤ q.card
  meet := by
    rintro q q' ⟨hq, hcard⟩ ⟨hq', hcard'⟩
    have hlen : M.ids.toFinset.card = M.ids.length := List.toFinset_card_of_nodup M.nodup
    obtain ⟨v, hv⟩ := Finset.inter_nonempty_of_card_lt_card_add_card hq hq' (by omega)
    exact ⟨v, Finset.mem_inter.mp hv⟩

@[simp] theorem rules_term : (M.rules : Rules NodeID (LogEntry Blob)).term = LogEntry.term := rfl

variable {M} {n : NodeID}

/-- A node and its peers are the members. -/
theorem perm (hn : n ∈ M.ids) : (n :: (M.config n).peers).Perm M.ids := by
  have hnot : n ∉ (M.config n).peers := fun h => ((M.mem_peers n hn n).mp h).2 rfl
  refine (List.perm_ext_iff_of_nodup (List.nodup_cons.mpr ⟨hnot, M.peers_nodup n hn⟩)
    M.nodup).mpr fun p => ?_
  rw [List.mem_cons, M.mem_peers n hn]
  constructor
  · rintro (rfl | ⟨hp, -⟩)
    · exact hn
    · exact hp
  · intro hp
    exact (eq_or_ne p n).imp_right fun hne => ⟨hp, hne⟩

/-- **A majority of the peers and the node is a majority of the members.** -/
theorem majority_eq (hn : n ∈ M.ids) : (M.config n).majority = M.ids.length / 2 + 1 := by
  rw [Config.majority, ← (perm hn).length_eq, List.length_cons]

end Membership

/-! ### Files and nodes -/

/-- The vote that `votedFor` stands for. -/
def voteOf (id : NodeID) : Option NodeID := if id = "" then none else some id

@[simp] theorem voteOf_empty : voteOf "" = none := rfl

theorem voteOf_of_ne {id : NodeID} (h : id ≠ "") : voteOf id = some id := if_neg h

/-- What the files say a node was; without a state file, that it never ran. -/
def Disk.persistentState [Inhabited Blob] (d : Disk Blob) : PersistentState Blob :=
  d.state.getD ⟨0, "", emptyLog⟩

/-- An entry that is decided, at the position its index says. -/
def Decided (a : Ledger NodeID (LogEntry Blob)) (e : LogEntry Blob) : Prop :=
  0 < e.index ∧ Settled a (e.index - 1) e

/-- The entries the applier has taken and not recorded in `lastApplied` yet. -/
def Applier.entries : Applier Blob → List (LogEntry Blob)
  | .waiting => []
  | .snapshot _ => []
  | .sending batch => batch
  | .sent e batch => e :: batch

variable [Inhabited Blob]

/-- **The saved state implements its part of the ledger.** The entries below the
boundary of the log are decided. -/
structure Persisted (a : Ledger NodeID (LogEntry Blob)) (n : NodeID) (ps : PersistentState Blob) :
    Prop where
  term : ps.currentTerm = a.cur n
  vote : voteOf ps.votedFor = a.vote n (a.cur n)
  le : ps.log.firstIndex ≤ (a.log n).length
  log : ps.log = compact (a.log n) ps.log.firstIndex
  chosen : Chosen a (a.cur n) ((a.log n).take ps.log.firstIndex)

/-- **A node implements its part of the ledger.** -/
structure Implements (M : Membership) (a : Ledger NodeID (LogEntry Blob)) (n : NodeID)
    (nd : Node Blob) : Prop where
  persisted : Persisted a n nd.persistentState
  first_le : nd.log.firstIndex ≤ nd.commitIndex
  commit_le : nd.commitIndex ≤ (a.log n).length
  /-- What is committed is decided. -/
  commit_chosen : Chosen a (a.cur n) ((a.log n).take nd.commitIndex)
  applied_le : nd.lastApplied ≤ nd.commitIndex
  pending_le : ∀ msg, nd.pendingSnapshot = some msg → msg.index ≤ nd.commitIndex
  /-- A candidate still has the log it stood with, and has not won. -/
  candidate : nd.state = .candidate →
    a.stand n (a.cur n) = some (a.log n) ∧ ∀ L, a.lead (a.cur n) ≠ some (n, L)
  /-- A leader's log is the log of its term, -/
  leader : nd.state = .leader → a.lead (a.cur n) = some (n, a.log n)
  /-- and what it believes of the others is true. -/
  matched : nd.state = .leader → ∀ p ∈ M.ids, nd.matchIndex p ≤ a.acked p (a.cur n)
  taken : ∀ e ∈ nd.applier.entries, Decided a e ∧ e.index ≤ nd.commitIndex
  sent : ∀ command index term, ApplyMsg.command command index term ∈ nd.applyCh →
    Decided a ⟨index, term, command⟩

/-- The ledger's own invariant, and the numbering of its entries. -/
structure Good (M : Membership) (a : Ledger NodeID (LogEntry Blob)) : Prop where
  inv : Inv M.rules a
  log_numbered : ∀ n, Numbered (a.log n)
  lead_numbered : ∀ t c L, a.lead t = some (c, L) → Numbered L

/-- **A member between two sections**: the node implements the ledger, and its files
hold what it would save. -/
structure At (M : Membership) (a : Ledger NodeID (LogEntry Blob)) (n : NodeID) (nd : Node Blob)
    (d : Disk Blob) : Prop where
  mem : n ∈ M.ids
  good : Good M a
  impl : Implements M a n nd
  synced : d.persistentState = nd.persistentState

/-- The leader of term `t` has moved its `commitIndex`, and `k` is what is decided
now. -/
structure Advances (nd nd' : Node Blob) (t j k : ℕ) : Prop where
  state : nd.state = .leader
  state' : nd'.state = .leader
  term : nd.currentTerm = t
  term' : nd'.currentTerm = t
  log : nd'.log = nd.log
  le : k ≤ max j nd'.commitIndex

/-- **The outcome of a section** that took node `nd` to `nd'` and wrote `ws`. -/
structure Outcome (M : Membership) (a a' : Ledger NodeID (LogEntry Blob)) (n : NodeID)
    (nd nd' : Node Blob) (d : Disk Blob) (ws : List (Write Blob)) : Prop where
  moves : Moves M.rules n a a'
  after : At M a' n nd' (d.write ws)
  /-- After any number of the writes, the files implement a ledger the member could
  have moved to, without deciding anything. -/
  crash : ∀ k, ∃ b, Moves M.rules n a b ∧ Good M b ∧
    Persisted b n (d.write (ws.take k)).persistentState ∧ ∀ t, b.decided t ≤ a.decided t
  /-- Only a leader that moves its `commitIndex` decides. -/
  decided : ∀ t, a.decided t < a'.decided t → Advances nd nd' t (a.decided t) (a'.decided t)

/-! ### Calls -/

/-- **A request says what is in the ledger.** The log of a term only grows, so an old
request is about a prefix of it. -/
def RequestOf (a : Ledger NodeID (LogEntry Blob)) (caller : NodeID) : Request Blob → Prop
  | .requestVote args => args.candidateID = caller ∧ ∃ B, a.stand caller args.term = some B ∧
      args.lastLogIndex = B.length ∧ args.lastLogTerm = lastTerm LogEntry.term B
  | .appendEntries args => ∃ L G, a.lead args.term = some (caller, L) ∧ G <+: L ∧
      args.prevLogIndex ≤ G.length ∧ args.prevLogTerm = termAt LogEntry.term G args.prevLogIndex ∧
      args.entries = G.drop args.prevLogIndex ∧ args.leaderCommit ≤ G.length ∧
      Chosen a args.term (G.take args.leaderCommit)
  | .installSnapshot args => ∃ L, a.lead args.term = some (caller, L) ∧
      args.lastIncludedIndex ≤ L.length ∧
      args.lastIncludedTerm = termAt LogEntry.term L args.lastIncludedIndex ∧
      Chosen a args.term (L.take args.lastIncludedIndex)

/-- **A reply says what is in the ledger.** A snapshot's reply does not say whether it
was installed, but a reply of a later term is not looked at. -/
def ReplyOf (a : Ledger NodeID (LogEntry Blob)) (caller callee : NodeID) :
    Request Blob → Reply → Prop
  | .requestVote args, .requestVote reply =>
    reply.voteGranted = true → a.vote callee args.term = some caller
  | .appendEntries args, .appendEntries reply =>
    reply.success = true → args.prevLogIndex + args.entries.length ≤ a.acked callee args.term
  | .installSnapshot args, .installSnapshot reply =>
    reply.term ≤ args.term → args.lastIncludedIndex ≤ a.acked callee args.term
  | _, _ => True

variable {M : Membership} {a a' b : Ledger NodeID (LogEntry Blob)} {n : NodeID}
  {nd nd' nd'' : Node Blob} {d : Disk Blob} {ws ws' : List (Write Blob)}

/-! ### The steps of the others -/

omit [Inhabited Blob] in
theorem Decided.mono (hle : Le a a') {e : LogEntry Blob} (h : Decided a e) : Decided a' e :=
  ⟨h.1, h.2.mono hle⟩

/-- What a node has written is right for as long as it does nothing. -/
theorem Persisted.frame {ps : PersistentState Blob} (h : Persisted a n ps) (hle : Le a a')
    (hu : Untouched a a' n) : Persisted a' n ps where
  term := by rw [hu.cur]; exact h.term
  vote := by rw [hu.cur, hu.vote]; exact h.vote
  le := by rw [hu.log]; exact h.le
  log := by rw [hu.log]; exact h.log
  chosen := by rw [hu.cur, hu.log]; exact h.chosen.mono hle

/-- So is what it has in memory. -/
theorem Implements.frame (h : Implements M a n nd) (hle : Le a a') (hu : Untouched a a' n) :
    Implements M a' n nd where
  persisted := h.persisted.frame hle hu
  first_le := h.first_le
  commit_le := by rw [hu.log]; exact h.commit_le
  commit_chosen := by rw [hu.cur, hu.log]; exact h.commit_chosen.mono hle
  applied_le := h.applied_le
  pending_le := h.pending_le
  candidate := fun hs => by
    rw [hu.cur, hu.log, hu.stand]
    refine ⟨(h.candidate hs).1, fun L hL => (h.candidate hs).2 L ((hu.lead _ L).mp hL)⟩
  leader := fun hs => by
    rw [hu.cur, hu.log]
    exact (hu.lead _ _).mpr (h.leader hs)
  matched := fun hs p hp => by
    rw [hu.cur]
    exact le_trans (h.matched hs p hp) (hle.acked p _)
  taken := fun e he => ⟨(h.taken e he).1.mono hle, (h.taken e he).2⟩
  sent := fun command index term hm => (h.sent command index term hm).mono hle

/-- **A node is where it was, if others move.** -/
theorem At.frame (h : At M a n nd d) (hg : Good M a') (hle : Le a a') (hu : Untouched a a' n) :
    At M a' n nd d where
  mem := h.mem
  good := hg
  impl := h.impl.frame hle hu
  synced := h.synced

omit [Inhabited Blob] in
theorem RequestOf.mono (hle : Le a a') {caller : NodeID} {request : Request Blob}
    (h : RequestOf a caller request) : RequestOf a' caller request := by
  cases request with
  | requestVote args =>
    obtain ⟨hid, B, hB, hargs⟩ := h
    exact ⟨hid, B, hle.stand _ _ B hB, hargs⟩
  | appendEntries args =>
    obtain ⟨L, G, hL, hG, hprev, hterm, hes, hlc, hc⟩ := h
    obtain ⟨L', hL', hLL'⟩ := hle.lead _ _ L hL
    exact ⟨L', G, hL', hG.trans hLL', hprev, hterm, hes, hlc, hc.mono hle⟩
  | installSnapshot args =>
    obtain ⟨L, hL, hi, hterm, hc⟩ := h
    obtain ⟨L', hL', hLL'⟩ := hle.lead _ _ L hL
    refine ⟨L', hL', le_trans hi hLL'.length_le, ?_, ?_⟩
    · rw [hterm, prefix_termAt_eq _ hLL' hi]
    · rw [prefix_take_eq hLL' hi]
      exact hc.mono hle

omit [Inhabited Blob] in
theorem ReplyOf.mono (hle : Le a a') {caller callee : NodeID} {request : Request Blob}
    {reply : Reply} (h : ReplyOf a caller callee request reply) :
    ReplyOf a' caller callee request reply := by
  cases request <;> cases reply
  case requestVote.requestVote => exact fun hg => hle.vote _ _ _ (h hg)
  case appendEntries.appendEntries => exact fun hs => le_trans (h hs) (hle.acked _ _)
  case installSnapshot.installSnapshot => exact fun ht => le_trans (h ht) (hle.acked _ _)
  all_goals trivial

/-! ### The log of a member -/

namespace At

/-- The snapshot of a node ends within its log. -/
theorem first_le (h : At M a n nd d) : nd.log.firstIndex ≤ (a.log n).length := h.impl.persisted.le

/-- **The log in memory is the node's log, with its beginning cut off.** -/
theorem log_eq (h : At M a n nd d) : nd.log = compact (a.log n) nd.log.firstIndex :=
  h.impl.persisted.log

theorem term_eq (h : At M a n nd d) : nd.currentTerm = a.cur n := h.impl.persisted.term

theorem numbered (h : At M a n nd d) : Numbered (a.log n) := h.good.log_numbered n

theorem lastIndex_eq (h : At M a n nd d) : nd.log.lastIndex = (a.log n).length := by
  rw [h.log_eq]
  exact compact_lastIndex h.numbered h.first_le

theorem lastTerm_eq (h : At M a n nd d) : nd.log.lastTerm = lastTerm LogEntry.term (a.log n) := by
  rw [h.log_eq]
  exact compact_lastTerm h.numbered h.first_le

theorem termAt_eq_some (h : At M a n nd d) {i t : ℕ} : nd.log.termAt i = some t ↔
    nd.log.firstIndex ≤ i ∧ i ≤ (a.log n).length ∧ termAt LogEntry.term (a.log n) i = t := by
  conv_lhs => rw [h.log_eq]
  exact compact_termAt_eq_some h.first_le

theorem termAt_some (h : At M a n nd d) {i : ℕ} (hlo : nd.log.firstIndex ≤ i)
    (hhi : i ≤ (a.log n).length) :
    nd.log.termAt i = some (termAt LogEntry.term (a.log n) i) :=
  h.termAt_eq_some.mpr ⟨hlo, hhi, rfl⟩

theorem dataDir_ne (h : At M a n nd d) : (M.config n).dataDir ≠ "" := M.persistent n h.mem

theorem id_eq (h : At M a n nd d) : (M.config n).id = n := M.config_id n h.mem

/-- What is on disk is right. -/
theorem stored (h : At M a n nd d) : Persisted a n d.persistentState := by
  rw [h.synced]
  exact h.impl.persisted

theorem persistLocked_eq (h : At M a n nd d) (nd' : Node Blob) :
    persistLocked (M.config n) nd' = [.state nd'.persistentState] := if_neg h.dataDir_ne

end At

/-! ### Outcomes -/

namespace Outcome

/-- A section that writes nothing, because it changes nothing that is saved. -/
theorem unsaved (h : At M a n nd d) (hm : Moves M.rules n a a') (hg : Good M a')
    (hi : Implements M a' n nd') (hp : nd'.persistentState = nd.persistentState)
    (hdec : ∀ t, a.decided t < a'.decided t → Advances nd nd' t (a.decided t) (a'.decided t)) :
    Outcome M a a' n nd nd' d [] where
  moves := hm
  after := ⟨h.mem, hg, hi, h.synced.trans hp.symm⟩
  crash := fun _ => ⟨a, Moves.refl a, h.good, by simpa using h.stored, fun _ => le_refl _⟩
  decided := hdec

/-- A section that leaves the ledger alone as well. -/
theorem quiet (h : At M a n nd d) (hi : Implements M a n nd')
    (hp : nd'.persistentState = nd.persistentState) : Outcome M a a n nd nd' d [] :=
  unsaved h (Moves.refl a) h.good hi hp fun _ ht => absurd ht (lt_irrefl _)

/-- A section that moves the ledger, and saves what the node is at its end. -/
theorem saved (h : At M a n nd d) (hm : Moves M.rules n a a') (hg : Good M a')
    (hi : Implements M a' n nd') (hdec : a'.decided = a.decided)
    (hws : ws = persistLocked (M.config n) nd') : Outcome M a a' n nd nd' d ws where
  moves := hm
  after := by
    rw [hws, h.persistLocked_eq]
    exact ⟨h.mem, hg, hi, rfl⟩
  crash := fun k => by
    rw [hws, h.persistLocked_eq]
    cases k with
    | zero => exact ⟨a, Moves.refl a, h.good, h.stored, fun _ => le_refl _⟩
    | succ k =>
      rw [List.take_of_length_le (by simp)]
      exact ⟨a', hm, hg, hi.persisted, fun _ => by rw [hdec]⟩
  decided := fun t ht => absurd ht (by rw [hdec]; exact lt_irrefl _)

/-- A section that also saves a snapshot, first. -/
theorem savedWithSnapshot (h : At M a n nd d) (hm : Moves M.rules n a a') (hg : Good M a')
    (hi : Implements M a' n nd') (hdec : a'.decided = a.decided) {data : Blob}
    (hws : ws = persistWithSnapshotLocked (M.config n) nd' data) :
    Outcome M a a' n nd nd' d ws where
  moves := hm
  after := by
    rw [hws, persistWithSnapshotLocked_of_ne h.dataDir_ne]
    exact ⟨h.mem, hg, hi, rfl⟩
  crash := fun k => by
    rw [hws, persistWithSnapshotLocked_of_ne h.dataDir_ne]
    match k with
    | 0 => exact ⟨a, Moves.refl a, h.good, h.stored, fun _ => le_refl _⟩
    | 1 => exact ⟨a, Moves.refl a, h.good, h.stored, fun _ => le_refl _⟩
    | k + 2 =>
      rw [List.take_of_length_le (by simp)]
      exact ⟨a', hm, hg, hi.persisted, fun _ => by rw [hdec]⟩
  decided := fun t ht => absurd ht (by rw [hdec]; exact lt_irrefl _)

/-- Two sections run in one go, of which the first one left a node that does not
lead. -/
theorem trans (h₁ : Outcome M a b n nd nd' d ws) (hs : nd'.state ≠ .leader)
    (h₂ : Outcome M b a' n nd' nd'' (d.write ws) ws') :
    Outcome M a a' n nd nd'' d (ws ++ ws') where
  moves := h₁.moves.trans h₂.moves
  after := by
    rw [Disk.write_append]
    exact h₂.after
  crash := fun k => by
    rw [List.take_append]
    rcases Nat.lt_or_ge k ws.length with hlt | hge
    · obtain ⟨c, hm, hg, hc, hdec⟩ := h₁.crash k
      rw [show k - ws.length = 0 by omega, List.take_zero, List.append_nil]
      exact ⟨c, hm, hg, hc, hdec⟩
    · obtain ⟨c, hm, hg, hc, hdec⟩ := h₂.crash (k - ws.length)
      rw [List.take_of_length_le hge, Disk.write_append]
      refine ⟨c, h₁.moves.trans hm, hg, hc, fun t => le_trans (hdec t) ?_⟩
      by_contra hlt
      exact hs (h₁.decided t (not_le.mp hlt)).state'
  decided := fun t ht => by
    rcases Nat.lt_or_ge (a.decided t) (b.decided t) with hlt | hge
    · exact absurd (h₁.decided t hlt).state' hs
    · exact absurd (h₂.decided t (lt_of_le_of_lt hge ht)).state hs

end Outcome

/-! ### Starting -/

section Start

variable [DecidableEq Blob]

/-- **A node that restarts has what it has written.** -/
theorem newNode_persistentState {cfg : Config} (hcfg : cfg.dataDir ≠ "") (d : Disk Blob) :
    (newNode cfg d).persistentState = d.persistentState := by
  rw [newNode, readPersist, if_neg hcfg, Disk.persistentState]
  cases d.state with
  | none => rfl
  | some ps =>
    cases d.snapshot with
    | none => rfl
    | some data => by_cases hdata : data = default <;> simp [hdata, Node.persistentState]

/-- The fields of a node that has just been started. -/
theorem newNode_fields (cfg : Config) (d : Disk Blob) :
    (newNode cfg d).state = .follower ∧ (newNode cfg d).applier = .waiting ∧
      (newNode cfg d).applyCh = [] ∧ ∀ msg, (newNode cfg d).pendingSnapshot = some msg →
        msg.index = (newNode cfg d).log.firstIndex := by
  rw [newNode, readPersist]
  by_cases hcfg : cfg.dataDir = ""
  · simp [hcfg, blankNode]
  rw [if_neg hcfg]
  cases d.state with
  | none => simp [blankNode]
  | some ps =>
    cases d.snapshot with
    | none => simp [blankNode]
    | some data =>
      by_cases hdata : data = default
      · simp [blankNode, hdata]
      · simp [blankNode, hdata, Log.firstIndex]

/-- **A node started on files that implement the ledger implements it.** -/
theorem At.of_persisted (hn : n ∈ M.ids) (hg : Good M a) (h : Persisted a n d.persistentState) :
    At M a n (newNode (M.config n) d) d := by
  have hps := newNode_persistentState (M.persistent n hn) d
  obtain ⟨hstate, happlier, hch, hpending⟩ := newNode_fields (M.config n) d
  have hp : Persisted a n (newNode (M.config n) d).persistentState := by rw [hps]; exact h
  refine ⟨hn, hg, ?_, hps.symm⟩
  exact
    { persisted := hp
      first_le := le_refl _
      commit_le := hp.le
      commit_chosen := hp.chosen
      applied_le := le_refl _
      pending_le := fun msg hmsg => le_of_eq (hpending msg hmsg)
      candidate := fun hs => absurd (hstate.symm.trans hs) (by decide)
      leader := fun hs => absurd (hstate.symm.trans hs) (by decide)
      matched := fun hs => absurd (hstate.symm.trans hs) (by decide)
      taken := fun e he => by simp [happlier, Applier.entries] at he
      sent := fun command index term hm => by simp [hch] at hm }

end Start

end Raft

end DistQueue
