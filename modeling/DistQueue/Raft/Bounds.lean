import DistQueue.Raft.Labels
import DistQueue.Raft.Safety

/-!
# No index is out of range

The helpers of a node's log take absolute indices and subtract the boundary, and a helper
that is called outside its range ends the process. In the model such a section has no
result (`DistQueue.Raft.effect` is `none`), which is also what a section has that is not
due: a node that is not the leader sends no entries. `DistQueue.Raft.Due` says when a
section is due, and `DistQueue.Raft.indices_in_range` that every section that is due runs
to its end.

Most of the bounds are part of what a node implements. What is missing is a bound for
`nextIndex`, which a leader takes from the hint of a follower: it is at most one past the
end of the leader's log, because a hint does not exceed the index it answers
(`DistQueue.Raft.Answers`), which was in the leader's log when the request was made, and a
leader's log only grows.
-/

namespace DistQueue

namespace Raft

open Consensus

variable {Blob : Type} {nd nd' nd'' : Node Blob} {cfg : Config} {l : Log Blob}

/-! ### The hint of a follower -/

/-- The first entry of a term is not behind the one it was looked up from. -/
theorem conflictStart_le {t i j : ℕ} (h : conflictStart l t i = some j) : j ≤ i := by
  induction i with
  | zero => exact le_of_eq (Option.some.inj h).symm
  | succ i ih =>
    rw [conflictStart] at h
    split at h
    · obtain ⟨t', -, h⟩ := Option.bind_eq_some_iff.mp h
      split at h
      · exact Nat.le_succ_of_le (ih h)
      · exact le_of_eq (Option.some.inj h).symm
    · exact le_of_eq (Option.some.inj h).symm

/-- A refusal points at or before the entry that did not match. -/
theorem Rejects.conflictIndex_le {args : AppendEntriesArgs Blob} {reply : AppendEntriesReply}
    (h : Rejects l args reply) : reply.conflictIndex ≤ args.prevLogIndex := by
  cases h with
  | short hlen hterm hindex => omega
  | conflict t ht hne hterm hindex => exact conflictStart_le hindex

theorem termAt_firstIndex (l : Log Blob) : l.termAt l.firstIndex = some l.sentinel.term := by
  simp [Log.termAt, Log.entryAt, Log.toList]

/-- A window that begins at the boundary is not refused. -/
theorem not_rejects_boundary {args : AppendEntriesArgs Blob} {reply : AppendEntriesReply}
    (hprev : args.prevLogIndex = l.firstIndex) (hterm : args.prevLogTerm = l.sentinel.term)
    (hlast : l.firstIndex ≤ l.lastIndex) : ¬Rejects l args reply := by
  intro h
  cases h with
  | short hlen hzero hindex => omega
  | conflict t ht hne hconflict hindex =>
    rw [hprev, termAt_firstIndex] at ht
    exact hne ((Option.some.inj ht).symm.trans hterm.symm)

theorem observeLeader_log (cfg : Config) (nd : Node Blob) (term : ℕ) (leaderID : NodeID) :
    (observeLeader cfg nd term leaderID).1.log = nd.log := by
  obtain ⟨-, heq⟩ | ⟨-, -, heq⟩ := observeLeader_cases cfg nd term leaderID <;> rw [heq]
  exact becomeFollowerLocked_log nd term

/-- A node that hears from a leader has at least its term. -/
theorem observeLeader_currentTerm (cfg : Config) (nd : Node Blob) (term : ℕ) (leaderID : NodeID) :
    (observeLeader cfg nd term leaderID).1.currentTerm = max nd.currentTerm term := by
  obtain ⟨-, heq⟩ | ⟨hterm, -, heq⟩ := observeLeader_cases cfg nd term leaderID <;> rw [heq]
  · rw [becomeFollowerLocked_eq]
  · exact (max_eq_left hterm).symm

/-- **A hint does not exceed the index it answers.** -/
theorem handleAppendEntries_conflictIndex_le {args : AppendEntriesArgs Blob}
    (hlast : nd.log.firstIndex ≤ nd.log.lastIndex)
    {r : Node Blob × List (Write Blob) × AppendEntriesReply}
    (h : handleAppendEntries cfg nd args = some r) :
    r.2.2.conflictIndex ≤ args.prevLogIndex := by
  have hlog := observeLeader_log cfg nd args.term args.leaderID
  obtain ⟨-, rfl⟩ | ⟨reply, hreply, rfl⟩ | ⟨args', r', hshift, hr', rfl⟩ :=
    handleAppendEntries_cases h
  · exact Nat.zero_le _
  · exact le_of_eq_of_le hreply (Nat.zero_le _)
  · obtain ⟨reply, -, hrej, rfl⟩ | ⟨log, changed, ci, -, -, -, rfl⟩ := appendShifted_cases hr'
    · obtain rfl | ⟨cut, -, -, rfl⟩ := shiftWindow_cases hshift
      · exact hrej.conflictIndex_le
      · exact absurd hrej (not_rejects_boundary rfl rfl (hlog ▸ hlast))
    · exact Nat.zero_le _

/-- **A reply goes with its request**, and a hint is within the leader's log of then. -/
def Answers : Request Blob → Reply → Prop
  | .requestVote _, .requestVote _ => True
  | .appendEntries args, .appendEntries reply => reply.conflictIndex ≤ args.prevLogIndex
  | .installSnapshot _, .installSnapshot _ => True
  | _, _ => False

/-! ### The next index of a leader -/

/-- **A leader's next indices are at most one past the end of its log.** -/
def NextInRange (cfg : Config) (nd : Node Blob) : Prop :=
  nd.state = .leader → ∀ p ∈ cfg.peers, nd.nextIndex p ≤ nd.log.lastIndex + 1

/-- A section in which nobody becomes leader and no next index changes. -/
def KeepsNext (nd nd' : Node Blob) : Prop :=
  nd'.state = .leader →
    nd.state = .leader ∧ nd'.nextIndex = nd.nextIndex ∧ nd.log.lastIndex ≤ nd'.log.lastIndex

/-- What keeps the indices and does not shorten the log keeps them in range. -/
theorem NextInRange.keeps (h : NextInRange cfg nd) (hk : KeepsNext nd nd') :
    NextInRange cfg nd' := by
  intro hs p hp
  obtain ⟨hs₀, hnext, hlast⟩ := hk hs
  have := h hs₀ p hp
  rw [hnext]
  omega

/-- Only a leader's indices are looked at. -/
theorem keepsNext_of_ne (h : nd'.state ≠ .leader) : KeepsNext nd nd' := fun hs => absurd hs h

theorem keepsNext_of_eq (hs : nd'.state = nd.state) (hnext : nd'.nextIndex = nd.nextIndex)
    (hlog : nd'.log = nd.log) : KeepsNext nd nd' :=
  fun h => ⟨hs ▸ h, hnext, le_of_eq (congrArg Log.lastIndex hlog.symm)⟩

/-- Who steps down has no indices to keep. -/
theorem keepsNext_becomeFollower (nd : Node Blob) (term : ℕ) :
    KeepsNext nd (becomeFollowerLocked nd term) :=
  keepsNext_of_ne (by rw [becomeFollowerLocked_state]; decide)

theorem lastIndex_append_singleton (l : Log Blob) (e : LogEntry Blob) :
    (l.append [e]).lastIndex = e.index := by
  simp [Log.lastIndex, Log.last, Log.append]

/-- A proposal makes the log longer. -/
theorem keepsNext_propose (cfg : Config) (nd : Node Blob) (command : Blob) :
    KeepsNext nd (propose cfg nd command).1 := by
  unfold propose
  split
  · exact keepsNext_of_eq rfl rfl rfl
  · rename_i hs
    intro _
    refine ⟨not_not.mp hs, rfl, ?_⟩
    dsimp only
    rw [lastIndex_append_singleton]
    exact Nat.le_succ _

/-- A vote leaves the log alone. -/
theorem keepsNext_handleRequestVote (cfg : Config) (nd : Node Blob) (args : RequestVoteArgs) :
    KeepsNext nd (handleRequestVote cfg nd args).1 := by
  have hcast : ∀ nd : Node Blob, KeepsNext nd (castVote cfg nd args).1 := by
    intro nd
    unfold castVote
    split
    · exact keepsNext_of_eq rfl rfl rfl
    · split <;> exact keepsNext_of_eq rfl rfl rfl
  unfold handleRequestVote observeTerm
  dsimp only
  split
  · -- the node has stepped down, and a vote does not change that
    intro hs
    have hdown := (hcast _ hs).1
    rw [becomeFollowerLocked_state] at hdown
    cases hdown
  · exact hcast nd

/-- Who hears from a leader follows it. -/
theorem observeLeader_state (cfg : Config) (nd : Node Blob) (term : ℕ) (leaderID : NodeID) :
    (observeLeader cfg nd term leaderID).1.state = .follower := by
  obtain ⟨-, heq⟩ | ⟨-, hs, heq⟩ := observeLeader_cases cfg nd term leaderID <;> rw [heq]
  · exact becomeFollowerLocked_state nd term
  · exact hs

/-- The entries of a leader do not change the role. -/
theorem appendShifted_state {args : AppendEntriesArgs Blob}
    {r : Node Blob × List (Write Blob) × AppendEntriesReply}
    (h : appendShifted cfg nd args = some r) : r.1.state = nd.state := by
  obtain ⟨reply, -, -, rfl⟩ | ⟨log, changed, ci, -, -, -, rfl⟩ := appendShifted_cases h <;> rfl

/-- Who takes entries is a follower. -/
theorem keepsNext_handleAppendEntries {args : AppendEntriesArgs Blob}
    {r : Node Blob × List (Write Blob) × AppendEntriesReply}
    (h : handleAppendEntries cfg nd args = some r) : KeepsNext nd r.1 := by
  have hobs := observeLeader_state cfg nd args.term args.leaderID
  obtain ⟨-, rfl⟩ | ⟨reply, -, rfl⟩ | ⟨args', r', -, hr', rfl⟩ := handleAppendEntries_cases h
  · exact keepsNext_of_eq rfl rfl rfl
  · exact keepsNext_of_ne (by dsimp only; rw [hobs]; decide)
  · exact keepsNext_of_ne (by dsimp only; rw [appendShifted_state hr', hobs]; decide)

/-! The search for the last entry of a term, and what the leader makes of it. -/

/-- The last entry of a term is looked for from the end downwards. -/
theorem lastOfTerm_le {t i j : ℕ} (h : lastOfTerm l t i = some j) : j ≤ i := by
  induction i with
  | zero => exact le_of_eq (Option.some.inj h).symm
  | succ i ih =>
    rw [lastOfTerm] at h
    split at h
    · obtain ⟨t', -, h⟩ := Option.bind_eq_some_iff.mp h
      split at h
      · exact le_of_eq (Option.some.inj h).symm
      split at h
      · rw [← Option.some.inj h]
        exact Nat.zero_le _
      · exact Nat.le_succ_of_le (ih h)
    · rw [← Option.some.inj h]
      exact Nat.zero_le _

/-- The search meets no index that the log does not have. -/
theorem lastOfTerm_isSome {t i : ℕ} (hl : ∀ j, l.firstIndex ≤ j → j ≤ i → (l.termAt j).isSome) :
    (lastOfTerm l t i).isSome := by
  induction i with
  | zero => rfl
  | succ i ih =>
    rw [lastOfTerm]
    split
    · rename_i hlt
      obtain ⟨t', ht'⟩ := Option.isSome_iff_exists.mp (hl (i + 1) (le_of_lt hlt) (le_refl _))
      simp only [ht', Option.bind_eq_bind, Option.bind_some]
      split
      · rfl
      split
      · rfl
      · exact ih fun j hlo hhi => hl j hlo (by omega)
    · rfl

/-- Backtracking finds a place to resume. -/
theorem nextAfterConflict_isSome (reply : AppendEntriesReply)
    (hl : ∀ j, nd.log.firstIndex ≤ j → j ≤ nd.log.lastIndex → (nd.log.termAt j).isSome) :
    (nextAfterConflict nd reply).isSome := by
  unfold nextAfterConflict
  split
  · obtain ⟨last, hlast⟩ := Option.isSome_iff_exists.mp
      (lastOfTerm_isSome (t := reply.conflictTerm) hl)
    simp only [hlast, Option.bind_eq_bind, Option.bind_some]
    split <;> rfl
  · rfl

/-- **What the leader makes of a hint**: it takes it, or goes behind the last entry of the term
in question, and the result is kept between the boundary and the end. -/
theorem nextAfterConflict_cases {reply : AppendEntriesReply} {next : ℕ}
    (h : nextAfterConflict nd reply = some next) :
    ∃ k, next = max 1 (max nd.log.firstIndex k) ∧ (k = reply.conflictIndex ∨
      0 < reply.conflictTerm ∧ ∃ last, 0 < last ∧ k = last + 1 ∧
        lastOfTerm nd.log reply.conflictTerm nd.log.lastIndex = some last) := by
  have hclamp : ∀ k, some (if (if k ≤ nd.log.firstIndex then nd.log.firstIndex else k) < 1 then 1
      else if k ≤ nd.log.firstIndex then nd.log.firstIndex else k) = some next →
      next = max 1 (max nd.log.firstIndex k) := by
    intro k hnext
    rw [← Option.some.inj hnext]
    split_ifs <;> omega
  unfold nextAfterConflict at h
  simp only [Option.bind_eq_bind, Option.bind_some] at h
  split at h
  · rename_i hterm
    obtain ⟨last, hlast, h⟩ := Option.bind_eq_some_iff.mp h
    split at h
    · rename_i hfound
      exact ⟨_, hclamp _ h, .inr ⟨hterm, last, hfound, rfl, hlast⟩⟩
    · exact ⟨_, hclamp _ h, .inl rfl⟩
  · exact ⟨_, hclamp _ h, .inl rfl⟩

/-- Backtracking does not leave the log. -/
theorem nextAfterConflict_le {reply : AppendEntriesReply} {next : ℕ}
    (hfirst : nd.log.firstIndex ≤ nd.log.lastIndex)
    (hhint : reply.conflictIndex ≤ nd.log.lastIndex)
    (h : nextAfterConflict nd reply = some next) : next ≤ nd.log.lastIndex + 1 := by
  obtain ⟨k, rfl, rfl | ⟨-, last, -, rfl, hlast⟩⟩ := nextAfterConflict_cases h
  · omega
  · have := lastOfTerm_le hlast
    omega

variable [Inhabited Blob] {M : Membership} {a : Ledger NodeID (LogEntry Blob)} {n peer : NodeID}
  {d : Disk Blob}

/-- Who takes a snapshot is a follower. -/
theorem keepsNext_handleInstallSnapshot {args : InstallSnapshotArgs Blob}
    {r : Node Blob × List (Write Blob) × InstallSnapshotReply}
    (h : handleInstallSnapshot cfg nd args = some r) : KeepsNext nd r.1 := by
  have hobs := observeLeader_state cfg nd args.term args.leaderID
  obtain ⟨-, rfl⟩ | ⟨reply, rfl⟩ | ⟨r', reply, -, hr', rfl⟩ := handleInstallSnapshot_cases h
  · exact keepsNext_of_eq rfl rfl rfl
  · exact keepsNext_of_ne (by dsimp only; rw [hobs]; decide)
  · obtain ⟨tail, -, hr'⟩ := Option.bind_eq_some_iff.mp hr'
    cases hr'
    exact keepsNext_of_ne (by dsimp only; rw [hobs]; decide)

/-- **A candidate that wins** starts at the end of its log. -/
theorem NextInRange.onRequestVoteReply (h : NextInRange cfg nd) (term : ℕ)
    (reply : RequestVoteReply) : NextInRange cfg (onRequestVoteReply cfg nd term reply).1 := by
  rcases onRequestVoteReply_cases cfg nd term reply with
    ⟨-, heq⟩ | ⟨-, heq⟩ | ⟨-, ⟨-, heq⟩ | ⟨-, heq⟩⟩ <;> rw [heq]
  · exact h.keeps (keepsNext_becomeFollower nd reply.term)
  · exact h
  · intro _ p hp
    simp only [becomeLeaderLocked, if_pos hp, lastIndex_append_singleton]
    exact Nat.le_succ _
  · exact h.keeps (keepsNext_of_eq rfl rfl rfl)

/-- What a leader asked for lies within its log, as long as it leads the term. -/
theorem At.request_le (h : At M a n nd d) (hs : nd.state = .leader)
    {args : AppendEntriesArgs Blob} (ht : nd.currentTerm = args.term)
    (hreq : RequestOf a n (.appendEntries args)) :
    args.prevLogIndex + args.entries.length ≤ nd.log.lastIndex := by
  obtain ⟨L, G, hL, hG, hprev, -, hes, -⟩ := hreq
  rw [← ht, h.term_eq, h.impl.leader hs, Option.some.injEq, Prod.mk.injEq] at hL
  rw [h.lastIndex_eq, hL.2, hes, List.length_drop]
  have := hG.length_le
  omega

/-- What a follower has acknowledged the leader has. -/
theorem At.matchIndex_le (h : At M a n nd d) (hs : nd.state = .leader) (hpeer : peer ∈ M.ids) :
    nd.matchIndex peer ≤ nd.log.lastIndex := by
  rw [h.lastIndex_eq]
  exact le_trans (h.impl.matched hs peer hpeer) (h.good.inv.acked_le (h.impl.leader hs) peer)

/-- The log ends where its snapshot does, or later. -/
theorem At.first_le_last (h : At M a n nd d) : nd.log.firstIndex ≤ nd.log.lastIndex := by
  rw [h.lastIndex_eq]
  exact h.first_le

omit [Inhabited Blob] in
/-- Only the next index of the peer changes. -/
theorem NextInRange.update (h : NextInRange cfg nd) (hs : nd.state = .leader) {next : ℕ}
    (hnext : next ≤ nd.log.lastIndex + 1) :
    ∀ p ∈ cfg.peers, Function.update nd.nextIndex peer next p ≤ nd.log.lastIndex + 1 := by
  intro p hp
  rcases eq_or_ne p peer with rfl | hne
  · rw [Function.update_self]
    exact hnext
  · rw [Function.update_of_ne hne]
    exact h hs p hp

/-- **A leader takes up a reply of a follower.** -/
theorem NextInRange.onAppendEntriesReply (h : NextInRange cfg nd) (hat : At M a n nd d)
    (hpeer : peer ∈ M.ids) {args : AppendEntriesArgs Blob} {reply : AppendEntriesReply}
    (hreq : RequestOf a n (.appendEntries args)) (hhint : reply.conflictIndex ≤ args.prevLogIndex)
    {r : Node Blob × List (Write Blob)}
    (hr : onAppendEntriesReply cfg nd peer args reply = some r) : NextInRange cfg r.1 := by
  obtain ⟨-, rfl⟩ | ⟨-, rfl⟩ | ⟨⟨hs, hterm⟩, hcur⟩ := onAppendEntriesReply_cases hr
  · exact h.keeps (keepsNext_becomeFollower nd reply.term)
  · exact h
  · have hle := hat.request_le hs hterm.symm hreq
    obtain ⟨-, ci, -, rfl⟩ | ⟨-, next, hnext, rfl⟩ := hcur
    · have hmatch := hat.matchIndex_le hs hpeer
      exact fun _ => h.update hs (by omega)
    · exact fun _ => h.update hs (nextAfterConflict_le hat.first_le_last (by omega) hnext)

/-- A follower that has the snapshot is sent what comes after it. -/
theorem NextInRange.onInstallSnapshotReply (h : NextInRange cfg nd) (hat : At M a n nd d)
    (hpeer : peer ∈ M.ids) {args : InstallSnapshotArgs Blob} (reply : InstallSnapshotReply)
    (hreq : RequestOf a n (.installSnapshot args)) :
    NextInRange cfg (onInstallSnapshotReply cfg nd peer args reply).1 := by
  rcases onInstallSnapshotReply_cases cfg nd peer args reply with
    ⟨-, heq⟩ | ⟨-, heq⟩ | ⟨⟨hs, hterm, -⟩, heq⟩ <;> rw [heq]
  · exact h.keeps (keepsNext_becomeFollower nd reply.term)
  · exact h
  · have hmatch := hat.matchIndex_le hs hpeer
    obtain ⟨L, hL, hi, -⟩ := hreq
    rw [hterm, hat.term_eq, hat.impl.leader hs, Option.some.injEq, Prod.mk.injEq] at hL
    rw [← hL.2, ← hat.lastIndex_eq] at hi
    exact fun _ => h.update hs (by omega)

/-! ### The cluster -/

variable {w w' : World Blob} {x : Effect Blob}

/-- What is to be shown of a section. -/
def InRange (M : Membership) (w : World Blob) (n : NodeID) (x : Effect Blob) : Prop :=
  NextInRange (M.config n) x.node ∧
    ∀ k r, (k, r) ∈ x.replies → ∃ c, w.calls[k]? = some c ∧ Answers c.request r

/-- **The next indices of all leaders are in range, and so are the hints on their way.** -/
structure Ranged (M : Membership) (w : World Blob) : Prop where
  next : ∀ n ∈ M.ids, NextInRange (M.config n) (w.nodes n)
  reply : ∀ k r, (k, r) ∈ w.replies → ∃ c, w.calls[k]? = some c ∧ Answers c.request r

/-- What a node does by itself. -/
theorem Ranged.act (h : Ranged M w) (hsim : Sim M w a) (hn : n ∈ M.ids) {t : Trigger Blob}
    (hx : act (M.config n) (w.nodes n) t = some x) : InRange M w n x := by
  have hnext := h.next n hn
  have hnone : ∀ {Q : ℕ → Reply → Prop}, ∀ k r, (k, r) ∈ ([] : List (ℕ × Reply)) → Q k r :=
    fun k r hr => absurd hr List.not_mem_nil
  cases acts_of_act hx with
  | electionTimeout hs =>
    exact ⟨hnext.keeps (keepsNext_of_ne (by simp [startElectionLocked])), hnone⟩
  | propose command => exact ⟨hnext.keeps (keepsNext_propose _ _ _), hnone⟩
  | sendAppendEntries hpeer hargs => exact ⟨hnext, hnone⟩
  | sendInstallSnapshot hpeer hargs => exact ⟨hnext, hnone⟩
  | @snapshot index data r hr =>
    obtain ⟨r', hr', hout, -⟩ := (hsim.node n hn).snapshot index data
    obtain rfl : r' = r := Option.some.inj (hr'.symm.trans hr)
    -- the uncompacted log is the same, and so is its end
    have hlast : (w.nodes n).log.lastIndex ≤ r'.1.log.lastIndex := by
      rw [(hsim.node n hn).lastIndex_eq, hout.after.lastIndex_eq]
    obtain ⟨-, rfl⟩ | ⟨-, t, tail, -, -, rfl⟩ := snapshot_cases hr
    · exact ⟨hnext, hnone⟩
    · exact ⟨hnext.keeps fun hs => ⟨hs, rfl, hlast⟩, hnone⟩
  | applierTake hnd' =>
    rw [applierTake_eq hnd']
    exact ⟨hnext, hnone⟩
  | applierSend hnd' =>
    rw [applierSend_eq hnd']
    exact ⟨hnext, hnone⟩
  | applierAdvance hnd' =>
    rw [applierAdvance_eq hnd']
    exact ⟨hnext, hnone⟩

/-- The callee's end of a call. -/
theorem Ranged.handle (h : Ranged M w) (hsim : Sim M w a) {k : ℕ} {c : Call Blob}
    (hc : w.calls[k]? = some c)
    (hx : handle (M.config c.callee) (w.nodes c.callee) k c.request = some x) :
    InRange M w c.callee x := by
  have hn := (hsim.call c (List.mem_of_getElem? hc)).callee
  have hnext := h.next c.callee hn
  have hone : ∀ {reply : Reply}, Answers c.request reply →
      ∀ j r, (j, r) ∈ [(k, reply)] → ∃ c, w.calls[j]? = some c ∧ Answers c.request r := by
    intro reply hreply j r hr
    obtain ⟨rfl, rfl⟩ := Prod.mk.inj (List.mem_singleton.mp hr)
    exact ⟨c, hc, hreply⟩
  cases hq : c.request with
  | requestVote args =>
    rw [hq] at hx hone
    cases hx
    exact ⟨hnext.keeps (keepsNext_handleRequestVote _ _ args), hone trivial⟩
  | appendEntries args =>
    rw [hq] at hx hone
    obtain ⟨r, hr, hx⟩ := Option.bind_eq_some_iff.mp hx
    cases hx
    exact ⟨hnext.keeps (keepsNext_handleAppendEntries hr),
      hone (handleAppendEntries_conflictIndex_le (hsim.node _ hn).first_le_last hr)⟩
  | installSnapshot args =>
    rw [hq] at hx hone
    obtain ⟨r, hr, hx⟩ := Option.bind_eq_some_iff.mp hx
    cases hx
    exact ⟨hnext.keeps (keepsNext_handleInstallSnapshot hr), hone trivial⟩

/-- The caller's end. -/
theorem Ranged.onReply (h : Ranged M w) (hsim : Sim M w a) {k : ℕ} {c : Call Blob}
    (hc : w.calls[k]? = some c) {reply : Reply} (hreply : (k, reply) ∈ w.replies)
    (hx : onReply (M.config c.caller) (w.nodes c.caller) k c.callee c.request reply = some x) :
    InRange M w c.caller x := by
  have hcall := hsim.call c (List.mem_of_getElem? hc)
  have hnext := h.next c.caller hcall.caller
  have hat := hsim.node c.caller hcall.caller
  have hrequest := hcall.request
  obtain ⟨c', hc', hanswers⟩ := h.reply k reply hreply
  obtain rfl : c = c' := Option.some.inj (hc.symm.trans hc')
  have hnone : ∀ {Q : ℕ → Reply → Prop}, ∀ k r, (k, r) ∈ ([] : List (ℕ × Reply)) → Q k r :=
    fun k r hr => absurd hr List.not_mem_nil
  unfold Raft.onReply at hx
  split at hx
  · cases hx
    exact ⟨hnext.onRequestVoteReply _ _, hnone⟩
  · rename_i args reply hq
    rw [hq] at hrequest hanswers
    obtain ⟨r, hr, hx⟩ := Option.bind_eq_some_iff.mp hx
    cases hx
    exact ⟨hnext.onAppendEntriesReply hat hcall.callee hrequest hanswers hr, hnone⟩
  · rename_i args reply hq
    rw [hq] at hrequest
    cases hx
    exact ⟨hnext.onInstallSnapshotReply hat hcall.callee reply hrequest, hnone⟩
  · cases hx

/-- **Every section keeps the indices in range.** -/
theorem Ranged.effect (h : Ranged M w) (hsim : Sim M w a) {e : Event Blob}
    (hx : effect M w e = some x) : x.actor ∈ M.ids ∧ InRange M w x.actor x := by
  refine effect_rule (P := InRange M w) ?_ ?_ ?_ hx
  · intro n hn t x _ hx
    exact h.act hsim hn hx
  · intro k c x hc hx
    exact h.handle hsim hc hx
  · intro k c reply x hc hreply hx
    exact h.onReply hsim hc hreply hx

omit [Inhabited Blob] in
/-- The replies still go with their requests when some calls are closed, and others made. -/
theorem Continues.answers {cs cs' : List (Call Blob)} (hcs : Continues cs cs')
    (new : List (Call Blob)) {k : ℕ} {r : Reply}
    (hc : ∃ c, cs[k]? = some c ∧ Answers c.request r) :
    ∃ c, (cs' ++ new)[k]? = some c ∧ Answers c.request r := by
  obtain ⟨c, hc, hr⟩ := hc
  obtain ⟨c', hc', -, -, hreq⟩ := hcs.forward hc
  refine ⟨c', ?_, hreq ▸ hr⟩
  rw [List.getElem?_append_left (List.getElem?_eq_some_iff.mp hc').1]
  exact hc'

variable [DecidableEq Blob]

/-- Who restarts is no leader. -/
theorem Ranged.restart (h : Ranged M w) (n : NodeID) (ws : List (Write Blob)) :
    Ranged M (w.restart M n ws) := by
  refine ⟨fun m hm => ?_, fun k r hr => ?_⟩
  · rcases eq_or_ne m n with rfl | hne
    · simp only [World.restart, Function.update_self]
      intro hs
      rw [(newNode_fields _ _).1] at hs
      cases hs
    · simp only [World.restart, Function.update_of_ne hne]
      exact h.next m hm
  · obtain ⟨c, hc, hans⟩ := (continues_map w.calls n).answers [] (h.reply k r hr)
    rw [List.append_nil] at hc
    exact ⟨c, hc, hans⟩

/-- **Every action keeps the next indices in range.** -/
theorem Ranged.step (h : Ranged M w) (hsim : Sim M w a) {x : Action Blob}
    (hx : step M w x = some w') : Ranged M w' := by
  cases x with
  | run e =>
    obtain ⟨y, hy, rfl⟩ := Option.map_eq_some_iff.mp hx
    obtain ⟨hn, hnext, hreply⟩ := h.effect hsim hy
    refine ⟨fun m hm => ?_, fun k r hr => ?_⟩
    · rcases eq_or_ne m y.actor with rfl | hne
      · simp only [World.commit, Function.update_self]
        exact hnext
      · simp only [World.commit, Function.update_of_ne hne]
        exact h.next m hm
    · refine (continues_closeCall w.calls y.finished).answers y.calls ?_
      rcases List.mem_append.mp hr with hr | hr
      · exact h.reply k r hr
      · exact hreply k r hr
  | crash n =>
    simp only [Raft.step, Option.ite_none_right_eq_some, Option.some.injEq] at hx
    obtain ⟨-, rfl⟩ := hx
    exact h.restart n []
  | crashIn e k =>
    obtain ⟨y, -, rfl⟩ := Option.map_eq_some_iff.mp hx
    exact h.restart _ _

theorem ranged_start (M : Membership) : Ranged M (start M : World Blob) := by
  refine ⟨fun n _ hs => ?_, fun k r hr => by cases hr⟩
  rw [start, (newNode_fields _ _).1] at hs
  cases hs

/-- The indices are in range in every state of a run. -/
theorem exists_ranged {as : List (Action Blob)} (hrun : run M as = some w) :
    (∃ a, Sim M w a) ∧ Ranged M w := by
  refine Run.invariant (P := fun w => (∃ a, Sim M w a) ∧ Ranged M w)
    ⟨⟨_, sim_start M⟩, ranged_start M⟩ ?_ hrun
  rintro u x u' ⟨⟨b, hb⟩, hr⟩ hx
  obtain ⟨b', -, hb', -⟩ := hb.step hx
  exact ⟨⟨b', hb'⟩, hr.step hb hx⟩

/-! ### The sections that are due -/

omit [DecidableEq Blob] in
/-- What a node is about to do by itself. -/
def DueAt (cfg : Config) (nd : Node Blob) : Trigger Blob → Prop
  | .electionTimeout => nd.state ≠ .leader
  | .propose _ | .snapshot _ _ => True
  | .sendAppendEntries peer =>
    peer ∈ cfg.peers ∧ nd.state = .leader ∧ nd.log.firstIndex < nd.nextIndex peer
  | .sendInstallSnapshot peer => peer ∈ cfg.peers ∧ nd.state = .leader ∧ nd.snapshot.isSome
  | .applierTake => nd.applier = .waiting ∧
      (nd.pendingSnapshot.isSome ∨ nd.lastApplied < nd.commitIndex)
  | .applierSend => (∃ msg, nd.applier = .snapshot msg) ∨ ∃ batch, nd.applier = .sending batch
  | .applierAdvance => ∃ e batch, nd.applier = .sent e batch

omit [Inhabited Blob] [DecidableEq Blob] in
/-- **The section is due**: the node has come to it, the request has arrived, or the reply
has, and its goroutine still waits. -/
def Due (M : Membership) (w : World Blob) : Event Blob → Prop
  | .trigger n t => n ∈ M.ids ∧ DueAt (M.config n) (w.nodes n) t
  | .deliver k => k < w.calls.length
  | .answer j => ∃ k r c, w.replies[j]? = some (k, r) ∧ w.calls[k]? = some c ∧ c.waiting = true

omit [DecidableEq Blob] in
/-- Between its ends a log has all its entries. -/
theorem At.termAt_isSome (h : At M a n nd d) {i : ℕ} (hlo : nd.log.firstIndex ≤ i)
    (hhi : i ≤ nd.log.lastIndex) : (nd.log.termAt i).isSome := by
  rw [h.termAt_some hlo (by rw [← h.lastIndex_eq]; exact hhi)]
  rfl

omit [DecidableEq Blob] in
/-- The entries of a leader that a peer needs are there. -/
theorem At.sendAppendEntries_isSome (h : At M a n nd d) (hs : nd.state = .leader)
    (hfirst : nd.log.firstIndex < nd.nextIndex peer)
    (hnext : nd.nextIndex peer ≤ nd.log.lastIndex + 1) :
    (Raft.sendAppendEntries (M.config n) nd peer).isSome := by
  obtain ⟨i, hi⟩ : ∃ i, nd.nextIndex peer = i + 1 := ⟨nd.nextIndex peer - 1, by omega⟩
  have hlen := h.lastIndex_eq
  unfold Raft.sendAppendEntries
  dsimp only
  rw [if_neg (by rw [not_or, not_not]; exact ⟨hs, by omega⟩), hi, Nat.add_sub_cancel,
    h.termAt_some (by omega) (by omega), h.sliceFrom_some (by omega) (by omega)]
  rfl

omit [DecidableEq Blob] in
/-- The entries that the applier takes are there. -/
theorem At.entriesFrom_isSome (h : At M a n nd d) {s k : ℕ} (hlo : nd.log.firstIndex < s)
    (hhi : s + k ≤ nd.log.lastIndex + 1) : (Raft.entriesFrom nd.log s k).isSome := by
  induction k generalizing s with
  | zero => rfl
  | succ k ih =>
    have hlen := h.lastIndex_eq
    obtain ⟨i, rfl⟩ : ∃ i, s = i + 1 := ⟨s - 1, by omega⟩
    obtain ⟨e, he⟩ : ∃ e, nd.log.entryAt (i + 1) = some e := by
      rw [h.log_eq, compact_entryAt (by omega)]
      exact ⟨_, List.getElem?_eq_getElem (by omega)⟩
    obtain ⟨es, hes⟩ := Option.isSome_iff_exists.mp (ih (s := i + 1 + 1) (by omega) (by omega))
    simp only [Raft.entriesFrom, he, hes, Option.bind_eq_bind, Option.bind_some]
    rfl

omit [DecidableEq Blob] in
/-- **The applier takes what is due**, without leaving the log. -/
theorem At.applierTake_isSome (h : At M a n nd d) (hwait : nd.applier = .waiting)
    (hdue : nd.pendingSnapshot.isSome ∨ nd.lastApplied < nd.commitIndex) :
    (Raft.applierTake nd).isSome := by
  unfold Raft.applierTake
  simp only [hwait]
  cases hp : nd.pendingSnapshot with
  | some msg => rfl
  | none =>
    have hlt : nd.lastApplied < nd.commitIndex := by simpa [hp] using hdue
    have hfirst := h.impl.first_le
    have hcommit := h.impl.commit_le
    rw [← h.lastIndex_eq] at hcommit
    dsimp only
    rw [if_neg (by omega)]
    obtain ⟨batch, hbatch⟩ := Option.isSome_iff_exists.mp (h.entriesFrom_isSome
      (s := if nd.lastApplied + 1 ≤ nd.log.firstIndex then nd.log.firstIndex + 1
        else nd.lastApplied + 1)
      (k := nd.commitIndex + 1 - (if nd.lastApplied + 1 ≤ nd.log.firstIndex then
        nd.log.firstIndex + 1 else nd.lastApplied + 1)) (by split <;> omega)
      (by split <;> omega))
    simp only [hbatch, Option.bind_eq_bind, Option.bind_some]
    rfl

omit [DecidableEq Blob] in
/-- **The leader deals with every answer**, without leaving its log. -/
theorem At.onAppendEntriesReply_isSome (h : At M a n nd d) {args : AppendEntriesArgs Blob}
    {reply : AppendEntriesReply}
    (hreply : ReplyOf a n peer (.appendEntries args) (.appendEntries reply)) :
    (Raft.onAppendEntriesReply (M.config n) nd peer args reply).isSome := by
  unfold Raft.onAppendEntriesReply
  split
  · rfl
  split
  · rfl
  rename_i hcond
  obtain ⟨hs, ht⟩ := not_or.mp hcond
  split
  · -- the leader that has learnt of the peer still implements the ledger
    rename_i hsucc
    have hack : args.prevLogIndex + args.entries.length ≤ a.acked peer (a.cur n) := by
      rw [← h.term_eq, not_not.mp ht]
      exact hreply hsucc
    obtain ⟨a', nd', heq, -⟩ := (h.learn hack).advanceCommit (not_not.mp hs)
    simp only [Node.learn] at heq
    simp only [Function.update_self, heq, Option.bind_eq_bind, Option.bind_some]
    rfl
  · obtain ⟨next, hnext⟩ := Option.isSome_iff_exists.mp
      (nextAfterConflict_isSome reply fun j hlo hhi => h.termAt_isSome hlo hhi)
    simp only [hnext, Option.bind_eq_bind, Option.bind_some]
    rfl

omit [DecidableEq Blob] in
/-- **What a node is about to do by itself, it does.** -/
theorem Ranged.act_isSome (h : Ranged M w) (hsim : Sim M w a) (hn : n ∈ M.ids) {t : Trigger Blob}
    (hdue : DueAt (M.config n) (w.nodes n) t) :
    (Raft.act (M.config n) (w.nodes n) t).isSome := by
  have hat := hsim.node n hn
  cases t with
  | electionTimeout =>
    simp only [Raft.act, if_neg hdue]
    rfl
  | propose command => rfl
  | sendAppendEntries peer =>
    obtain ⟨hpeer, hs, hfirst⟩ := hdue
    obtain ⟨args, hargs⟩ := Option.isSome_iff_exists.mp
      (hat.sendAppendEntries_isSome hs hfirst (h.next n hn hs peer hpeer))
    simp only [Raft.act, if_pos hpeer, hargs]
    rfl
  | sendInstallSnapshot peer =>
    obtain ⟨hpeer, hs, hsnap⟩ := hdue
    obtain ⟨data, hdata⟩ := Option.isSome_iff_exists.mp hsnap
    simp only [Raft.act, if_pos hpeer, sendInstallSnapshot, hdata, hs, ne_eq, not_true_eq_false,
      if_false]
    rfl
  | snapshot index data =>
    obtain ⟨r, hr, -⟩ := hat.snapshot index data
    simp only [Raft.act, hr]
    rfl
  | applierTake =>
    rw [Raft.act, Option.isSome_map]
    exact hat.applierTake_isSome hdue.1 hdue.2
  | applierSend =>
    rw [Raft.act, Option.isSome_map, applierSend]
    rcases hdue with ⟨msg, happ⟩ | ⟨batch, happ⟩
    · rw [happ]
      rfl
    · rw [happ]
      cases batch <;> rfl
  | applierAdvance =>
    obtain ⟨e, batch, happ⟩ := hdue
    rw [Raft.act, Option.isSome_map, applierAdvance, happ]
    rfl

omit [DecidableEq Blob] in
/-- **Every section that is due runs to its end.** -/
theorem Ranged.effect_isSome (h : Ranged M w) (hsim : Sim M w a) {e : Event Blob}
    (hdue : Due M w e) : (Raft.effect M w e).isSome := by
  cases e with
  | trigger n t =>
    obtain ⟨hn, hdue⟩ := hdue
    rw [Raft.effect, if_pos hn]
    exact h.act_isSome hsim hn hdue
  | deliver k =>
    obtain ⟨c, hc⟩ : ∃ c, w.calls[k]? = some c := ⟨_, List.getElem?_eq_getElem hdue⟩
    have hcall := hsim.call c (List.mem_of_getElem? hc)
    have hat := hsim.node _ hcall.callee
    have hrequest := hcall.request
    rw [effect_deliver_eq hc hcall.callee]
    cases hq : c.request with
    | requestVote args => rfl
    | appendEntries args =>
      rw [hq] at hrequest
      obtain ⟨a', r, hr, -⟩ := hat.handleAppendEntries hrequest
      simp only [Raft.handle, hr]
      rfl
    | installSnapshot args =>
      rw [hq] at hrequest
      obtain ⟨a', r, hr, -⟩ := hat.handleInstallSnapshot hrequest
      simp only [Raft.handle, hr]
      rfl
  | answer j =>
    obtain ⟨k, r, c, hj, hc, hwait⟩ := hdue
    have hmem := List.mem_of_getElem? hj
    obtain ⟨c₁, hc₁, hreply⟩ := hsim.reply k r hmem
    obtain rfl : c = c₁ := Option.some.inj (hc.symm.trans hc₁)
    obtain ⟨c₂, hc₂, hans⟩ := h.reply k r hmem
    obtain rfl : c = c₂ := Option.some.inj (hc.symm.trans hc₂)
    have hn := (hsim.call c (List.mem_of_getElem? hc)).caller
    have hat := hsim.node _ hn
    rw [effect_answer_eq hj hc hwait hn]
    -- a reply goes with its request, so the goroutine can make something of it
    cases hq : c.request <;> cases r <;> rw [hq] at hans hreply
    case requestVote.requestVote => rfl
    case appendEntries.appendEntries args reply =>
      obtain ⟨r, hr⟩ := Option.isSome_iff_exists.mp (hat.onAppendEntriesReply_isSome hreply)
      simp only [Raft.onReply, hr]
      rfl
    case installSnapshot.installSnapshot => rfl
    all_goals exact hans.elim

/-- **No index is out of range.** In every state of a run, the log of every node is
contiguous, its boundary is at most the commit index and that at most the last index, the
applier has nothing to take from beyond the commit index, and a leader's next indices are
at most one past the end of its log; and every section that is due runs to its end. -/
theorem indices_in_range {as : List (Action Blob)} (hw : Visits M as w) :
    (∀ n ∈ M.ids,
      (∀ k e, (w.nodes n).log.toList[k]? = some e → e.index = (w.nodes n).log.firstIndex + k) ∧
      (w.nodes n).log.firstIndex ≤ (w.nodes n).commitIndex ∧
      (w.nodes n).commitIndex ≤ (w.nodes n).log.lastIndex ∧
      max (w.nodes n).lastApplied (w.nodes n).log.firstIndex ≤ (w.nodes n).commitIndex ∧
      ((w.nodes n).state = .leader →
        ∀ p ∈ (M.config n).peers, (w.nodes n).nextIndex p ≤ (w.nodes n).log.lastIndex + 1)) ∧
    ∀ e, Due M w e → (effect M w e).isSome := by
  obtain ⟨-, ys, -, hys⟩ := hw
  obtain ⟨⟨a, hsim⟩, hranged⟩ := exists_ranged hys
  refine ⟨fun n hn => ?_, fun e hdue => hranged.effect_isSome hsim hdue⟩
  have hat := hsim.node n hn
  refine ⟨fun k e he => ?_, hat.impl.first_le, ?_, max_le hat.impl.applied_le hat.impl.first_le,
    hranged.next n hn⟩
  · rw [hat.log_eq, Log.toList] at he
    cases k with
    | zero =>
      obtain rfl : _ = e := by simpa using he
      rfl
    | succ k =>
      rw [List.getElem?_cons_succ, compact_entries, List.getElem?_drop] at he
      rw [hat.numbered _ e he]
      omega
  · rw [hat.lastIndex_eq]
    exact hat.impl.commit_le

theorem indices_in_range_failover :
    (afterFailover.nodes "b").state = .leader ∧
      (afterFailover.nodes "b").commitIndex ≤ (afterFailover.nodes "b").log.lastIndex ∧
      (afterFailover.nodes "b").nextIndex "c" ≤ (afterFailover.nodes "b").log.lastIndex + 1 ∧
      (effect threeNodes afterFailover (.trigger "b" (.sendAppendEntries "c"))).isSome := by
  have hs : (afterFailover.nodes "b").state = .leader := by decide +kernel
  have hpeer : "c" ∈ (threeNodes.config "b").peers := by decide
  have hfirst : (afterFailover.nodes "b").log.firstIndex <
      (afterFailover.nodes "b").nextIndex "c" := by
    decide +kernel
  obtain ⟨hnode, hdue⟩ := indices_in_range visits_afterFailover
  obtain ⟨-, -, hcommit, -, hnext⟩ := hnode "b" (by decide)
  exact ⟨hs, hcommit, hnext hs "c" hpeer,
    hdue (.trigger "b" (.sendAppendEntries "c")) ⟨by decide, hpeer, hs, hfirst⟩⟩

end Raft

end DistQueue
