import DistQueue.Raft.Bounds

/-!
# Nodes in order

What a node keeps in order, whoever its peers are and whatever they believe. Its log has
consecutive indices and no entry of a later term than its own; a candidate has no entry of its
term yet; the entries of a leader's term are the last of its log, and its match indices are within
the log. These are facts about one node and the requests it is sent, and they need no consensus.

With them, one sees where quorums can come about. What a leader has just appended is matched by
itself alone, and that is no majority if it has a peer (`DistQueue.Raft.matchCount_le_one`); what
it learns from the reply to a snapshot is below the boundary of its log
(`DistQueue.Raft.matchCount_learn`); and the search that follows every reply to entries misses
nothing (`DistQueue.Raft.advanceCommitFrom_maximal`). So every section leaves the quorums of its
node acted on (`DistQueue.Raft.ActedOn`, `DistQueue.Raft.Tends`).
-/

namespace DistQueue

namespace Raft

open Consensus

variable {Blob : Type} {nd nd' : Node Blob} {cfg : Config} {l l' : Log Blob} {t t' : ℕ}
  {ws ws' : List (Write Blob)}

/-! ### Logs in order -/

/-- **A log in order**: its indices are consecutive, and no term is later than `t`. -/
structure Log.Tidy (t : ℕ) (l : Log Blob) : Prop where
  index : ∀ k e, l.entries[k]? = some e → e.index = l.firstIndex + k + 1
  term : ∀ e ∈ l.toList, e.term ≤ t

/-- The empty log is tidy in every term. -/
theorem tidy_emptyLog [Inhabited Blob] : (emptyLog : Log Blob).Tidy t := by
  refine ⟨fun k e he => by simp [emptyLog] at he, fun e he => ?_⟩
  obtain rfl := List.mem_singleton.mp he
  exact Nat.zero_le t

/-- Above the boundary, the helper looks among the entries. -/
theorem Log.entryAt_of_lt {i : ℕ} (h : l.firstIndex < i) :
    l.entryAt i = l.entries[i - l.firstIndex - 1]? := by
  obtain ⟨k, hk⟩ : ∃ k, i - l.firstIndex = k + 1 := ⟨i - l.firstIndex - 1, by omega⟩
  rw [Log.entryAt, if_neg (by omega), Log.toList, hk, List.getElem?_cons_succ, Nat.add_sub_cancel]

theorem Log.mem_of_entryAt {i : ℕ} {e : LogEntry Blob} (h : l.entryAt i = some e) :
    e ∈ l.toList := by
  rw [Log.entryAt] at h
  split at h
  · cases h
  · exact List.mem_of_getElem? h

theorem Log.firstIndex_le_of_entryAt {i : ℕ} {e : LogEntry Blob} (h : l.entryAt i = some e) :
    l.firstIndex ≤ i := by
  rw [Log.entryAt] at h
  split at h
  · cases h
  · omega

theorem Log.sliceFrom_eq {i : ℕ} {es : List (LogEntry Blob)} (h : l.sliceFrom (i + 1) = some es)
    (hi : l.firstIndex ≤ i) :
    es = l.entries.drop (i - l.firstIndex) ∧ i ≤ l.firstIndex + l.entries.length := by
  have hsub : i + 1 - l.firstIndex = i - l.firstIndex + 1 := by omega
  rw [Log.sliceFrom, Log.toList, hsub, List.length_cons, List.drop_succ_cons] at h
  split at h
  · cases h
  · exact ⟨(Option.some.inj h).symm, by omega⟩

namespace Log.Tidy

/-- A log stays tidy as the term grows. -/
theorem mono (h : l.Tidy t) (ht : t ≤ t') : l.Tidy t' :=
  ⟨h.index, fun e he => (h.term e he).trans ht⟩

theorem lastIndex_eq (h : l.Tidy t) : l.lastIndex = l.firstIndex + l.entries.length := by
  rw [Log.lastIndex, Log.last]
  cases hlast : l.entries.getLast? with
  | none =>
    rw [List.getLast?_eq_none_iff.mp hlast]
    rfl
  | some e =>
    have hlen : 0 < l.entries.length := by
      rw [List.length_pos_iff]
      rintro hnil
      rw [hnil] at hlast
      cases hlast
    rw [List.getLast?_eq_getElem?] at hlast
    rw [Option.getD_some, h.index _ e hlast]
    omega

/-- A tidy log has no entry after its last index. -/
theorem index_le (h : l.Tidy t) {i : ℕ} {e : LogEntry Blob} (he : l.entryAt i = some e) :
    i ≤ l.lastIndex := by
  have hlo := Log.firstIndex_le_of_entryAt he
  rw [h.lastIndex_eq]
  rcases Nat.eq_or_lt_of_le hlo with heq | hlt
  · omega
  · rw [Log.entryAt_of_lt hlt] at he
    have := (List.getElem?_eq_some_iff.mp he).1
    omega

/-- Entries that continue the log can be appended. -/
theorem append (h : l.Tidy t) {es : List (LogEntry Blob)}
    (hes : ∀ k e, es[k]? = some e → e.index = l.lastIndex + k + 1 ∧ e.term ≤ t) :
    (l.append es).Tidy t := by
  refine ⟨fun k e he => ?_, fun e he => ?_⟩
  · change e.index = l.firstIndex + k + 1
    rcases Nat.lt_or_ge k l.entries.length with hlt | hge
    · exact h.index k e ((List.getElem?_append_left hlt).symm.trans he)
    · have := (hes _ e ((List.getElem?_append_right hge).symm.trans he)).1
      rw [h.lastIndex_eq] at this
      omega
  · rcases List.mem_append.mp (show e ∈ l.toList ++ es from he) with he | he
    · exact h.term e he
    · obtain ⟨k, hk⟩ := List.mem_iff_getElem?.mp he
      exact (hes k e hk).2

/-- A tidy log that is cut is tidy, and ends before the cut. -/
theorem truncateFrom (h : l.Tidy t) {i : ℕ} (hl : l.truncateFrom i = some l') :
    l'.Tidy t ∧ l'.lastIndex + 1 = i := by
  unfold Log.truncateFrom at hl
  split at hl
  · cases hl
  · rename_i hrange
    cases hl
    rw [Log.toList, List.length_cons] at hrange
    have htidy : Log.Tidy t { l with entries := l.entries.take (i - l.firstIndex - 1) } := by
      refine ⟨fun k e he => h.index k e ?_, fun e he => h.term e ?_⟩
      · exact prefix_getElem?_some (List.take_prefix _ _) he
      · exact List.Sublist.subset (List.cons_sublist_cons.mpr (List.take_sublist _ _)) he
    refine ⟨htidy, ?_⟩
    rw [htidy.lastIndex_eq]
    change l.firstIndex + (l.entries.take _).length + 1 = i
    rw [List.length_take]
    omega

/-- **Entries that overlap the log**: what is missing is appended, behind a cut if need be. -/
theorem appendMissing (h : l.Tidy t) {es : List (LogEntry Blob)} {i : ℕ} (hi : i ≤ l.lastIndex)
    (hes : ∀ k e, es[k]? = some e → e.index = i + k + 1 ∧ e.term ≤ t) {r : Log Blob × Bool}
    (hr : appendMissing l es = some r) : r.1.Tidy t := by
  induction es generalizing i with
  | nil =>
    cases hr
    exact h
  | cons e es ih =>
    obtain ⟨hindex, -⟩ := hes 0 e rfl
    rw [Raft.appendMissing] at hr
    split at hr
    · rename_i hheld
      obtain ⟨t₀, -, hr⟩ := Option.bind_eq_some_iff.mp hr
      split at hr
      · refine ih (i := i + 1) (by omega) (fun k f hf => ?_) hr
        have := hes (k + 1) f hf
        exact ⟨by omega, this.2⟩
      · -- the tail is cut at the entry
        obtain ⟨l₁, hl₁, hr⟩ := Option.bind_eq_some_iff.mp hr
        cases hr
        obtain ⟨htidy, hlast⟩ := h.truncateFrom hl₁
        refine htidy.append fun k f hf => ?_
        have := hes k f hf
        exact ⟨by omega, this.2⟩
    · cases hr
      refine h.append fun k f hf => ?_
      have := hes k f hf
      exact ⟨by omega, this.2⟩

/-- The log behind a snapshot of an index that the log reaches. -/
theorem sentinelLog [Inhabited Blob] (h : l.Tidy t) {i term : ℕ} {tail : List (LogEntry Blob)}
    (hi : l.firstIndex ≤ i) (hterm : term ≤ t) (htail : l.sliceFrom (i + 1) = some tail) :
    (sentinelLog i term tail).Tidy t := by
  obtain ⟨rfl, -⟩ := Log.sliceFrom_eq htail hi
  refine ⟨fun k e he => ?_, fun e he => ?_⟩
  · have := h.index _ e ((List.getElem?_drop ..).symm.trans he)
    change e.index = i + k + 1
    omega
  · rcases List.mem_cons.mp he with rfl | he
    · exact hterm
    · exact h.term e (List.mem_cons_of_mem _ (List.mem_of_mem_drop he))

end Log.Tidy

/-! ### Counting -/

/-- Where there are peers, a node alone is no majority. -/
theorem two_le_majority (h : cfg.peers ≠ []) : 2 ≤ cfg.majority := by
  have := List.length_pos_iff.mpr h
  unfold Config.majority
  omega

/-- **What only the node itself has reached** is counted at most once. -/
theorem matchCount_le_one (hnodup : cfg.peers.Nodup) {idx : ℕ}
    (h : ∀ p ∈ cfg.members, p ≠ cfg.id → nd.matchIndex p < idx) : matchCount cfg nd idx ≤ 1 := by
  have hle : matchCount cfg nd idx ≤ cfg.members.count cfg.id := by
    rw [matchCount, List.count]
    refine List.countP_mono_left fun p hp hreached => ?_
    by_contra hne
    have := h p hp (by simpa using hne)
    have := of_decide_eq_true hreached
    omega
  exact hle.trans (List.nodup_iff_count_le_one.mp hnodup.insert _)

/-- The count at an index depends only on who has reached it. -/
theorem matchCount_congr {idx : ℕ}
    (h : ∀ p ∈ cfg.members, idx ≤ nd'.matchIndex p ↔ idx ≤ nd.matchIndex p) :
    matchCount cfg nd' idx = matchCount cfg nd idx := by
  refine List.countP_congr fun p hp => ?_
  rw [decide_eq_true_iff, decide_eq_true_iff]
  exact h p hp

/-- **The search for a commit index misses nothing**, since the entries of the leader's term are
the last of its log. -/
theorem advanceCommitFrom_maximal {i ci : ℕ} (h : advanceCommitFrom cfg nd i = some ci)
    (hsuffix : ∀ j k u, nd.log.firstIndex < j → j ≤ k → nd.log.termAt j = some nd.currentTerm →
      nd.log.termAt k = some u → u = nd.currentTerm) {idx : ℕ} (hlo : ci < idx) (hhi : idx ≤ i)
    (hfirst : nd.log.firstIndex < idx) (hterm : nd.log.termAt idx = some nd.currentTerm) :
    matchCount cfg nd idx < cfg.majority := by
  induction i with
  | zero => omega
  | succ i ih =>
    rw [advanceCommitFrom] at h
    split at h
    · obtain ⟨u, hu, h⟩ := Option.bind_eq_some_iff.mp h
      split at h
      · rename_i hne
        exact absurd (hsuffix idx (i + 1) u hfirst hhi hterm hu) hne
      · split at h
        · cases h
          omega
        · rename_i hfew
          rcases Nat.eq_or_lt_of_le hhi with rfl | hlt
          · exact Nat.lt_of_not_le hfew
          · exact ih h (by omega)
    · cases h
      omega

/-! ### A node in order -/

/-- **The quorums of a node have been acted on**: no candidate has a majority of the votes, and no
leader has an entry of its term that a majority has reached and that is not committed. -/
structure ActedOn (cfg : Config) (nd : Node Blob) : Prop where
  candidate : nd.state = .candidate → nd.votes nd.currentTerm < cfg.majority
  leader : nd.state = .leader → ∀ idx, nd.commitIndex < idx → nd.log.firstIndex < idx →
    nd.log.termAt idx = some nd.currentTerm → matchCount cfg nd idx < cfg.majority

/-- **What a leader keeps in order**: the entries of its term are the last of its log, it has
matched itself, and no one beyond that. -/
structure InCharge (cfg : Config) (nd : Node Blob) : Prop where
  suffix : nd.log.entries.Pairwise fun e f => e.term = nd.currentTerm → f.term = nd.currentTerm
  self : nd.matchIndex cfg.id = nd.log.lastIndex
  matched : ∀ p ∈ cfg.members, nd.matchIndex p ≤ nd.log.lastIndex

/-- **A node in order.** A candidate has no entry of its term. -/
structure Orderly (cfg : Config) (nd : Node Blob) : Prop where
  tidy : nd.log.Tidy nd.currentTerm
  candidate : nd.state = .candidate → ∀ e ∈ nd.log.toList, e.term < nd.currentTerm
  leader : nd.state = .leader → InCharge cfg nd
  acted : cfg.peers ≠ [] → ActedOn cfg nd

/-- How a node gets from one section to the next: a later term begins with a candidate or a
follower, and a leader has been one before, or has just won. -/
structure Progress (nd nd' : Node Blob) : Prop where
  term : nd.currentTerm ≤ nd'.currentTerm
  candidate : nd'.state = .candidate →
    nd.state = .candidate ∧ nd'.currentTerm = nd.currentTerm ∨ nd.currentTerm < nd'.currentTerm
  leader : nd'.state = .leader → nd'.currentTerm = nd.currentTerm ∧ (nd.state = .candidate ∨
    nd.state = .leader ∧ nd.log.firstIndex ≤ nd'.log.firstIndex ∧
      nd.log.lastIndex ≤ nd'.log.lastIndex)

/-- What is shown of a section: the states that it saves are in order as well. -/
structure Tends (cfg : Config) (nd nd' : Node Blob) (ws : List (Write Blob)) : Prop where
  orderly : Orderly cfg nd'
  progress : Progress nd nd'
  writes : ∀ ps, Write.state ps ∈ ws → ps.log.Tidy ps.currentTerm

/-- Nothing that quorums depend on has changed. -/
structure SameQuorum (nd nd' : Node Blob) : Prop where
  state : nd'.state = nd.state
  currentTerm : nd'.currentTerm = nd.currentTerm
  log : nd'.log = nd.log
  commitIndex : nd'.commitIndex = nd.commitIndex
  matchIndex : nd'.matchIndex = nd.matchIndex
  votes : nd'.votes = nd.votes

theorem SameQuorum.refl (nd : Node Blob) : SameQuorum nd nd := ⟨rfl, rfl, rfl, rfl, rfl, rfl⟩

/-- What leaves the quorums alone leaves the node orderly. -/
theorem Orderly.same (h : Orderly cfg nd) (hsame : SameQuorum nd nd') : Orderly cfg nd' := by
  obtain ⟨h₁, h₂, h₃, h₄, h₅, h₆⟩ := hsame
  have hcount : ∀ idx, matchCount cfg nd' idx = matchCount cfg nd idx :=
    fun idx => matchCount_congr fun p _ => by rw [h₅]
  refine ⟨?_, ?_, fun hs => ?_, fun hne => ⟨?_, ?_⟩⟩
  · rw [h₂, h₃]
    exact h.tidy
  · rw [h₁, h₂, h₃]
    exact h.candidate
  · obtain ⟨hsuffix, hself, hmatched⟩ := h.leader (h₁ ▸ hs)
    exact ⟨by rw [h₂, h₃]; exact hsuffix, by rw [h₃, h₅]; exact hself,
      by rw [h₃, h₅]; exact hmatched⟩
  · rw [h₁, h₂, h₆]
    exact (h.acted hne).candidate
  · simp only [h₁, h₂, h₃, h₄, hcount]
    exact (h.acted hne).leader

/-- Who keeps role, term and log has lost nothing. -/
theorem progress_of_log (hs : nd'.state = nd.state) (hterm : nd'.currentTerm = nd.currentTerm)
    (hlog : nd'.log = nd.log) : Progress nd nd' :=
  ⟨hterm.ge, fun hs' => .inl ⟨hs ▸ hs', hterm⟩,
    fun hs' => ⟨hterm, .inr ⟨hs ▸ hs', by rw [hlog], by rw [hlog]⟩⟩⟩

/-- All that is asked of a follower is its log. -/
theorem orderly_of_follower (hs : nd.state = .follower) (h : nd.log.Tidy nd.currentTerm) :
    Orderly cfg nd := by
  refine ⟨h, fun hs' => ?_, fun hs' => ?_, fun _ => ⟨fun hs' => ?_, fun hs' => ?_⟩⟩ <;>
    cases hs.symm.trans hs'

/-- Of who follows only the term is asked. -/
theorem progress_of_follower (hs : nd'.state = .follower)
    (hterm : nd.currentTerm ≤ nd'.currentTerm) : Progress nd nd' := by
  refine ⟨hterm, fun hs' => ?_, fun hs' => ?_⟩ <;> cases hs.symm.trans hs'

namespace Tends

/-- **What leaves the quorums alone tends the node.** -/
theorem same (h : Orderly cfg nd) (hsame : SameQuorum nd nd') : Tends cfg nd nd' [] :=
  ⟨h.same hsame, progress_of_log hsame.state hsame.currentTerm hsame.log,
    fun _ hps => absurd hps List.not_mem_nil⟩

theorem refl (h : Orderly cfg nd) : Tends cfg nd nd [] := same h (SameQuorum.refl nd)

end Tends

/-- A tidy log is written as it is. -/
theorem tidy_persistLocked (h : nd.log.Tidy nd.currentTerm) :
    ∀ ps, Write.state ps ∈ persistLocked cfg nd → ps.log.Tidy ps.currentTerm := by
  intro ps hps
  rw [persistLocked] at hps
  split at hps
  · cases hps
  · obtain rfl := Write.state.inj (List.mem_singleton.mp hps)
    exact h

/-- So it is along with a snapshot. -/
theorem tidy_persistWithSnapshotLocked {data : Blob} (h : nd.log.Tidy nd.currentTerm) :
    ∀ ps, Write.state ps ∈ persistWithSnapshotLocked cfg nd data → ps.log.Tidy ps.currentTerm := by
  intro ps hps
  rw [persistWithSnapshotLocked] at hps
  split at hps
  · cases hps
  · rcases List.mem_cons.mp hps with hps | hps
    · cases hps
    · exact tidy_persistLocked h ps hps

/-! ### The sections of a follower -/

/-- **Stepping down tends the node.** -/
theorem tends_becomeFollower (h : Orderly cfg nd) (term : ℕ) :
    Tends cfg nd (becomeFollowerLocked nd term)
      (persistLocked cfg (becomeFollowerLocked nd term)) := by
  have hs := becomeFollowerLocked_state nd term
  have hterm : nd.currentTerm ≤ (becomeFollowerLocked nd term).currentTerm := by
    rw [becomeFollowerLocked_eq]
    exact le_max_left _ _
  have htidy : (becomeFollowerLocked nd term).log.Tidy
      (becomeFollowerLocked nd term).currentTerm := by
    rw [becomeFollowerLocked_log]
    exact h.tidy.mono hterm
  exact ⟨orderly_of_follower hs htidy, progress_of_follower hs hterm, tidy_persistLocked htidy⟩

/-- A section that has left a node a follower, in the same term or a later one. -/
theorem Tends.follows (h : Tends cfg nd nd' ws) {nd'' : Node Blob} (hs : nd''.state = .follower)
    (hterm : nd''.currentTerm = nd'.currentTerm)
    (htidy : nd''.log.Tidy nd''.currentTerm)
    (hws : ∀ ps, Write.state ps ∈ ws' → ps.log.Tidy ps.currentTerm) :
    Tends cfg nd nd'' (ws ++ ws') := by
  refine ⟨orderly_of_follower hs htidy,
    progress_of_follower hs (h.progress.term.trans_eq hterm.symm), fun ps hps => ?_⟩
  rcases List.mem_append.mp hps with hps | hps
  · exact h.writes ps hps
  · exact hws ps hps

/-- So does hearing from a leader. -/
theorem tends_observeLeader (h : Orderly cfg nd) (term : ℕ) (leaderID : NodeID) :
    Tends cfg nd (observeLeader cfg nd term leaderID).1 (observeLeader cfg nd term leaderID).2 := by
  obtain ⟨-, heq⟩ | ⟨-, -, heq⟩ := observeLeader_cases cfg nd term leaderID <;> rw [heq]
  · have hdown := tends_becomeFollower h term
    exact ⟨hdown.orderly.same ⟨rfl, rfl, rfl, rfl, rfl, rfl⟩,
      progress_of_follower (becomeFollowerLocked_state nd term) hdown.progress.term, hdown.writes⟩
  · exact .same h ⟨rfl, rfl, rfl, rfl, rfl, rfl⟩

/-- A section that goes on without touching a quorum. -/
theorem Tends.trans_same (h : Tends cfg nd nd' ws) {nd'' : Node Blob} (hsame : SameQuorum nd' nd'')
    (hws : ∀ ps, Write.state ps ∈ ws' → ps.log.Tidy ps.currentTerm) :
    Tends cfg nd nd'' (ws ++ ws') := by
  obtain ⟨horderly, ⟨hterm, hcandidate, hleader⟩, hwrites⟩ := h
  refine ⟨horderly.same hsame, ⟨?_, ?_, ?_⟩, fun ps hps => ?_⟩
  · rw [hsame.currentTerm]
    exact hterm
  · rw [hsame.state, hsame.currentTerm]
    exact hcandidate
  · rw [hsame.state, hsame.currentTerm, hsame.log]
    exact hleader
  · rcases List.mem_append.mp hps with hps | hps
    · exact hwrites ps hps
    · exact hws ps hps

/-- So does a vote request. -/
theorem tends_handleRequestVote (h : Orderly cfg nd) (args : RequestVoteArgs) :
    Tends cfg nd (handleRequestVote cfg nd args).1 (handleRequestVote cfg nd args).2.1 := by
  have hobs : Tends cfg nd (observeTerm cfg nd args.term).1 (observeTerm cfg nd args.term).2 := by
    unfold observeTerm
    split
    · exact tends_becomeFollower h args.term
    · exact .refl h
  -- a vote is saved, and changes nothing else
  have hcast : ∀ nd₁ : Node Blob, nd₁.log.Tidy nd₁.currentTerm →
      SameQuorum nd₁ (castVote cfg nd₁ args).1 ∧
        ∀ ps, Write.state ps ∈ (castVote cfg nd₁ args).2.1 → ps.log.Tidy ps.currentTerm := by
    intro nd₁ htidy
    unfold castVote
    split
    · exact ⟨.refl nd₁, fun _ hps => absurd hps List.not_mem_nil⟩
    split
    · exact ⟨⟨rfl, rfl, rfl, rfl, rfl, rfl⟩, tidy_persistLocked htidy⟩
    · exact ⟨.refl nd₁, fun _ hps => absurd hps List.not_mem_nil⟩
  obtain ⟨hsame, hws⟩ := hcast _ hobs.orderly.tidy
  exact hobs.trans_same hsame hws

/-- A window that begins inside the snapshot is still in order when it has been shifted. -/
theorem shiftWindow_tidy {args args' : AppendEntriesArgs Blob}
    (h : ∀ k e, args.entries[k]? = some e → e.index = args.prevLogIndex + k + 1 ∧ e.term ≤ t)
    (hshift : shiftWindow l args = some args') :
    ∀ k e, args'.entries[k]? = some e → e.index = args'.prevLogIndex + k + 1 ∧ e.term ≤ t := by
  obtain rfl | ⟨cut, hcut, -, rfl⟩ := shiftWindow_cases hshift
  · exact h
  · intro k e he
    have := h _ e ((List.getElem?_drop ..).symm.trans he)
    exact ⟨by dsimp only; omega, this.2⟩

/-- Entries with the right indices, of no later term, leave the log tidy. -/
theorem appendShifted_tidy {args : AppendEntriesArgs Blob}
    {r : Node Blob × List (Write Blob) × AppendEntriesReply} (h : nd.log.Tidy nd.currentTerm)
    (hes : ∀ k e, args.entries[k]? = some e →
      e.index = args.prevLogIndex + k + 1 ∧ e.term ≤ nd.currentTerm)
    (hr : appendShifted cfg nd args = some r) :
    r.1.currentTerm = nd.currentTerm ∧ r.1.log.Tidy r.1.currentTerm ∧
      ∀ ps, Write.state ps ∈ r.2.1 → ps.log.Tidy ps.currentTerm := by
  obtain ⟨reply, -, -, rfl⟩ | ⟨log, changed, ci, hlen, hlog, -, rfl⟩ := appendShifted_cases hr
  · exact ⟨rfl, h, fun _ hps => absurd hps List.not_mem_nil⟩
  · have htidy := h.appendMissing hlen hes hlog
    refine ⟨rfl, htidy, fun ps hps => ?_⟩
    dsimp only at hps
    split at hps
    · exact tidy_persistLocked htidy ps hps
    · cases hps

/-- **`AppendEntries` tends the node**, if its entries have the right indices. -/
theorem tends_handleAppendEntries (h : Orderly cfg nd) {args : AppendEntriesArgs Blob}
    (hes : ∀ k e, args.entries[k]? = some e →
      e.index = args.prevLogIndex + k + 1 ∧ e.term ≤ args.term)
    {r : Node Blob × List (Write Blob) × AppendEntriesReply}
    (hr : handleAppendEntries cfg nd args = some r) : Tends cfg nd r.1 r.2.1 := by
  have hobs := tends_observeLeader h args.term args.leaderID
  have hs := observeLeader_state cfg nd args.term args.leaderID
  have hterm := observeLeader_currentTerm cfg nd args.term args.leaderID
  obtain ⟨-, rfl⟩ | ⟨reply, -, rfl⟩ | ⟨args', r', hshift, hr', rfl⟩ := handleAppendEntries_cases hr
  · exact .refl h
  · exact hobs
  · obtain ⟨hcur, htidy, hws⟩ := appendShifted_tidy hobs.orderly.tidy
      (shiftWindow_tidy (fun k e he => ⟨(hes k e he).1, by
        rw [hterm]; exact (hes k e he).2.trans (le_max_right _ _)⟩) hshift) hr'
    exact hobs.follows ((appendShifted_state hr').trans hs) hcur htidy hws

/-- The tail behind a snapshot is empty, or what the log has from there on. -/
theorem keptTail_cases {i term : ℕ} {tail : List (LogEntry Blob)}
    (h : keptTail l i term = some tail) :
    tail = [] ∨ l.firstIndex ≤ i ∧ l.sliceFrom (i + 1) = some tail := by
  unfold keptTail at h
  split at h
  · obtain ⟨t₀, ht₀, h⟩ := Option.bind_eq_some_iff.mp h
    split at h
    · obtain ⟨e, he, -⟩ := Option.map_eq_some_iff.mp ht₀
      exact .inr ⟨Log.firstIndex_le_of_entryAt he, h⟩
    · exact .inl (Option.some.inj h).symm
  · exact .inl (Option.some.inj h).symm

/-- **`InstallSnapshot` tends the node**, if the snapshot is of no later term. -/
theorem tends_handleInstallSnapshot [Inhabited Blob] (h : Orderly cfg nd)
    {args : InstallSnapshotArgs Blob} (hargs : args.lastIncludedTerm ≤ args.term)
    {r : Node Blob × List (Write Blob) × InstallSnapshotReply}
    (hr : handleInstallSnapshot cfg nd args = some r) : Tends cfg nd r.1 r.2.1 := by
  have hobs := tends_observeLeader h args.term args.leaderID
  have hs := observeLeader_state cfg nd args.term args.leaderID
  have hterm := observeLeader_currentTerm cfg nd args.term args.leaderID
  obtain ⟨-, rfl⟩ | ⟨reply, rfl⟩ | ⟨r', reply, -, hr', rfl⟩ := handleInstallSnapshot_cases hr
  · exact .refl h
  · exact hobs
  · obtain ⟨tail, htail, hr'⟩ := Option.bind_eq_some_iff.mp hr'
    have htidy : (sentinelLog args.lastIncludedIndex args.lastIncludedTerm tail).Tidy
        (observeLeader cfg nd args.term args.leaderID).1.currentTerm := by
      have hle : args.lastIncludedTerm ≤
          (observeLeader cfg nd args.term args.leaderID).1.currentTerm := by
        rw [hterm]
        exact hargs.trans (le_max_right _ _)
      rcases keptTail_cases htail with rfl | ⟨hfirst, htail⟩
      · refine ⟨fun k e he => by simp [sentinelLog] at he, fun e he => ?_⟩
        obtain rfl := List.mem_singleton.mp he
        exact hle
      · exact hobs.orderly.tidy.sentinelLog hfirst hle htail
    cases hr'
    exact hobs.follows hs rfl htidy (tidy_persistWithSnapshotLocked htidy)

/-! ### The sections of a candidate -/

/-- **An election begins** with one vote, which is not enough unless there are no peers. -/
theorem tends_startElection (h : Orderly cfg nd) :
    Tends cfg nd (startElectionLocked cfg nd).1 (startElectionLocked cfg nd).2.1 := by
  have htidy : nd.log.Tidy (nd.currentTerm + 1) := h.tidy.mono (Nat.le_succ _)
  have hleader : ¬(startElectionLocked cfg nd).1.state = .leader := by
    intro hs
    cases hs
  refine ⟨⟨htidy, fun _ e he => Nat.lt_succ_of_le (h.tidy.term e he),
    fun hs => absurd hs hleader, fun hne => ⟨fun _ => ?_, fun hs => absurd hs hleader⟩⟩,
    ⟨Nat.le_succ _, fun _ => .inr (Nat.lt_succ_self _), fun hs => absurd hs hleader⟩,
    tidy_persistLocked htidy⟩
  have := two_le_majority hne
  simp only [startElectionLocked, Function.update_self]
  omega

/-- **A leader appends an entry of its term.** It matches the entry by itself, and whatever the
others have reached is below it. -/
theorem actedOn_append {e : LogEntry Blob} {matchIndex : NodeID → ℕ} (hnodup : cfg.peers.Nodup)
    (hne : cfg.peers ≠ []) (htidy : nd.log.Tidy nd.currentTerm)
    (hold : ∀ p ∈ cfg.members, p ≠ cfg.id → matchIndex p ≤ nd.log.lastIndex)
    (hbelow : ∀ idx, nd.commitIndex < idx → nd.log.firstIndex < idx → idx ≤ nd.log.lastIndex →
      nd.log.termAt idx = some nd.currentTerm →
        matchCount cfg { nd with matchIndex := matchIndex } idx < cfg.majority) :
    ∀ idx, nd.commitIndex < idx → nd.log.firstIndex < idx →
      (nd.log.append [e]).termAt idx = some nd.currentTerm →
        matchCount cfg { nd with matchIndex := matchIndex } idx < cfg.majority := by
  intro idx hcommit hfirst hterm
  rcases Nat.lt_or_ge nd.log.lastIndex idx with hlast | hlast
  · have hone : matchCount cfg { nd with matchIndex := matchIndex } idx ≤ 1 :=
      matchCount_le_one hnodup fun p hp hpid => (hold p hp hpid).trans_lt hlast
    have := two_le_majority hne
    omega
  · refine hbelow idx hcommit hfirst hlast ?_
    have hlen := htidy.lastIndex_eq
    rw [Log.termAt, Log.entryAt_of_lt hfirst]
    rw [Log.termAt, Log.entryAt_of_lt (l := nd.log.append [e]) hfirst] at hterm
    rw [← hterm]
    exact congrArg _ (List.getElem?_append_left (by omega)).symm

/-- What an entry that is appended at the end does to the order of a log. -/
theorem Log.Tidy.concat (h : l.Tidy t) (command : Blob) :
    (l.append [⟨l.lastIndex + 1, t, command⟩]).Tidy t := by
  refine h.append fun k e he => ?_
  have hk : k < 1 := (List.getElem?_eq_some_iff.mp he).1
  obtain rfl : k = 0 := by omega
  cases he
  exact ⟨rfl, le_refl t⟩

theorem mem_peers_of_mem_members {p : NodeID} (hp : p ∈ cfg.members) (hne : p ≠ cfg.id) :
    p ∈ cfg.peers := (List.mem_insert_iff.mp hp).resolve_left hne

section Leader

variable [Inhabited Blob]

/-- **A candidate wins.** All entries but the new one are of earlier terms. -/
theorem tends_becomeLeader (hnodup : cfg.peers.Nodup) (htidy : nd.log.Tidy nd.currentTerm)
    (hs : nd.state = .candidate) (hearlier : ∀ e ∈ nd.log.toList, e.term < nd.currentTerm) :
    Tends cfg nd (becomeLeaderLocked cfg nd).1 (becomeLeaderLocked cfg nd).2 := by
  have htidy' := htidy.concat default
  have hold : ∀ p ∈ cfg.members, p ≠ cfg.id →
      (becomeLeaderLocked cfg nd).1.matchIndex p ≤ nd.log.lastIndex := by
    intro p hp hpid
    simp only [becomeLeaderLocked, Function.update_of_ne hpid,
      if_pos (mem_peers_of_mem_members hp hpid)]
    exact Nat.zero_le _
  have hself : (becomeLeaderLocked cfg nd).1.matchIndex cfg.id =
      (becomeLeaderLocked cfg nd).1.log.lastIndex := Function.update_self ..
  have hcandidate : ¬(becomeLeaderLocked cfg nd).1.state = .candidate := by
    intro hs'
    cases hs'
  have hlast : nd.log.lastIndex ≤ (becomeLeaderLocked cfg nd).1.log.lastIndex := by
    simp only [becomeLeaderLocked, lastIndex_append_singleton]
    exact Nat.le_succ _
  refine ⟨⟨htidy', fun hs' => absurd hs' hcandidate, fun _ => ⟨?_, hself, fun p hp => ?_⟩,
    fun hne => ⟨fun hs' => absurd hs' hcandidate, fun _ => ?_⟩⟩,
    ⟨le_refl _, fun hs' => absurd hs' hcandidate, fun _ => ⟨rfl, .inl hs⟩⟩,
    tidy_persistLocked htidy'⟩
  · refine List.pairwise_append.mpr ⟨?_, List.pairwise_singleton _ _, fun e he f hf => ?_⟩
    · refine List.pairwise_of_forall_mem_list fun e he f _ heq => ?_
      exact absurd heq (hearlier e (List.mem_cons_of_mem _ he)).ne
    · rw [List.mem_singleton.mp hf]
      exact fun _ => rfl
  · by_cases hpid : p = cfg.id
    · rw [hpid, hself]
    · exact (hold p hp hpid).trans hlast
  · refine actedOn_append hnodup hne htidy hold fun idx _ _ _ hterm => ?_
    obtain ⟨e, he, heq⟩ := Option.map_eq_some_iff.mp hterm
    exact absurd heq (hearlier e (Log.mem_of_entryAt he)).ne

/-- A vote that comes in tends the node. -/
theorem tends_onRequestVoteReply (h : Orderly cfg nd) (hnodup : cfg.peers.Nodup) (term : ℕ)
    (reply : RequestVoteReply) :
    Tends cfg nd (onRequestVoteReply cfg nd term reply).1
      (onRequestVoteReply cfg nd term reply).2 := by
  rcases onRequestVoteReply_cases cfg nd term reply with
    ⟨-, heq⟩ | ⟨-, heq⟩ | ⟨⟨hs, rfl, -⟩, ⟨-, heq⟩ | ⟨hfew, heq⟩⟩ <;> rw [heq]
  · exact tends_becomeFollower h reply.term
  · exact .refl h
  · -- the vote counts for nothing but the comparison
    have hwon : Tends cfg { nd with
        votes := Function.update nd.votes nd.currentTerm (nd.votes nd.currentTerm + 1) } _ _ :=
      tends_becomeLeader hnodup h.tidy hs (h.candidate hs)
    obtain ⟨horderly, ⟨hterm, hcandidate, hleader⟩, hwrites⟩ := hwon
    exact ⟨horderly, ⟨hterm, hcandidate, hleader⟩, hwrites⟩
  · have hleader : ¬nd.state = .leader := by
      rw [hs]
      decide
    refine ⟨⟨h.tidy, h.candidate, fun hs' => absurd hs' hleader,
      fun _ => ⟨fun _ => ?_, fun hs' => absurd hs' hleader⟩⟩, progress_of_log rfl rfl rfl,
      fun _ hps => absurd hps List.not_mem_nil⟩
    dsimp only
    rw [Function.update_self]
    exact hfew

/-! ### The sections of a leader -/

omit [Inhabited Blob]

/-- So does a proposal. -/
theorem tends_propose (h : Orderly cfg nd) (hnodup : cfg.peers.Nodup) (command : Blob) :
    Tends cfg nd (propose cfg nd command).1 (propose cfg nd command).2.1 := by
  unfold propose
  split
  · exact .refl h
  rename_i hs
  have hs := not_not.mp hs
  obtain ⟨hsuffix, hself, hmatched⟩ := h.leader hs
  have htidy' := h.tidy.concat command
  have hcandidate : ¬nd.state = .candidate := by
    rw [hs]
    decide
  have hlast : nd.log.lastIndex + 1 =
      (nd.log.append [⟨nd.log.lastIndex + 1, nd.currentTerm, command⟩]).lastIndex := by
    rw [lastIndex_append_singleton]
  have hold : ∀ p ∈ cfg.members, p ≠ cfg.id →
      Function.update nd.matchIndex cfg.id (nd.log.lastIndex + 1) p ≤ nd.log.lastIndex := by
    intro p hp hpid
    rw [Function.update_of_ne hpid]
    exact hmatched p hp
  refine ⟨⟨htidy', fun hs' => absurd hs' hcandidate, fun _ => ⟨?_, ?_, fun p hp => ?_⟩,
    fun hne => ⟨fun hs' => absurd hs' hcandidate, fun _ => ?_⟩⟩,
    ⟨le_refl _, fun hs' => absurd hs' hcandidate,
      fun _ => ⟨rfl, .inr ⟨hs, le_refl _, (Nat.le_succ _).trans_eq hlast⟩⟩⟩,
    tidy_persistLocked htidy'⟩
  · refine List.pairwise_append.mpr ⟨hsuffix, List.pairwise_singleton _ _, fun e he f hf => ?_⟩
    rw [List.mem_singleton.mp hf]
    exact fun _ => rfl
  · exact (Function.update_self ..).trans hlast
  · by_cases hpid : p = cfg.id
    · rw [hpid]
      exact ((Function.update_self ..).trans hlast).le
    · exact (hold p hp hpid).trans ((Nat.le_succ _).trans_eq hlast)
  · refine actedOn_append hnodup hne h.tidy hold fun idx hcommit hfirst hhi hterm => ?_
    -- below the new entry, the leader has matched itself before and after
    have hcount : matchCount cfg { nd with
        matchIndex := Function.update nd.matchIndex cfg.id (nd.log.lastIndex + 1) } idx =
        matchCount cfg nd idx := by
      refine matchCount_congr fun p hp => ?_
      by_cases hpid : p = cfg.id
      · dsimp only
        rw [hpid, Function.update_self, hself]
        omega
      · dsimp only
        rw [Function.update_of_ne hpid]
    rw [hcount]
    exact (h.acted hne).leader hs idx hcommit hfirst hterm

/-- The state machine hands over a snapshot: the boundary moves, and the end does not. -/
theorem tends_snapshot [Inhabited Blob] (h : Orderly cfg nd) {index : ℕ} {data : Blob}
    {r : Node Blob × List (Write Blob)} (hr : snapshot cfg nd index data = some r) :
    Tends cfg nd r.1 r.2 := by
  obtain ⟨-, rfl⟩ | ⟨⟨hfirst, -⟩, term, tail, hterm, htail, rfl⟩ := snapshot_cases hr
  · exact .refl h
  obtain ⟨e, he, rfl⟩ := Option.map_eq_some_iff.mp hterm
  have hmem := Log.mem_of_entryAt he
  have htidy := h.tidy.sentinelLog hfirst.le (h.tidy.term e hmem) htail
  obtain ⟨rfl, hlen⟩ := Log.sliceFrom_eq htail hfirst.le
  -- what is left of the log
  have hsub : ∀ f ∈ (sentinelLog index e.term
      (nd.log.entries.drop (index - nd.log.firstIndex))).toList,
      ∃ f' ∈ nd.log.toList, f.term = f'.term := by
    intro f hf
    rcases List.mem_cons.mp hf with rfl | hf
    · exact ⟨e, hmem, rfl⟩
    · exact ⟨f, List.mem_cons_of_mem _ (List.mem_of_mem_drop hf), rfl⟩
  have hlast : (sentinelLog index e.term
      (nd.log.entries.drop (index - nd.log.firstIndex))).lastIndex = nd.log.lastIndex := by
    rw [htidy.lastIndex_eq, h.tidy.lastIndex_eq]
    change index + (nd.log.entries.drop _).length = _
    rw [List.length_drop]
    omega
  refine ⟨⟨htidy, fun hs f hf => ?_, fun hs => ?_, fun hne => ⟨(h.acted hne).candidate, ?_⟩⟩,
    ⟨le_refl _, fun hs => .inl ⟨hs, rfl⟩,
      fun hs => ⟨rfl, .inr ⟨hs, hfirst.le, hlast.ge⟩⟩⟩, tidy_persistWithSnapshotLocked htidy⟩
  · obtain ⟨f', hf', heq⟩ := hsub f hf
    rw [heq]
    exact h.candidate hs f' hf'
  · obtain ⟨hsuffix, hself, hmatched⟩ := h.leader hs
    exact ⟨hsuffix.sublist (List.drop_sublist _ _), hself.trans hlast.symm,
      fun p hp => (hmatched p hp).trans_eq hlast.symm⟩
  · intro hs idx hcommit hidx hterm
    have hidx : index < idx := hidx
    refine (h.acted hne).leader hs idx hcommit (hfirst.trans hidx) ?_
    rw [Log.termAt, Log.entryAt_of_lt (hfirst.trans hidx)]
    rw [Log.termAt, Log.entryAt_of_lt hidx] at hterm
    rw [← hterm]
    change _ = Option.map _ (nd.log.entries.drop _)[idx - index - 1]?
    rw [List.getElem?_drop]
    congr 2
    omega

theorem InCharge.term_eq (h : InCharge cfg nd) {j k u : ℕ} (hj : nd.log.firstIndex < j)
    (hjk : j ≤ k) (hterm : nd.log.termAt j = some nd.currentTerm)
    (hu : nd.log.termAt k = some u) : u = nd.currentTerm := by
  rcases Nat.eq_or_lt_of_le hjk with rfl | hlt
  · exact Option.some.inj (hu.symm.trans hterm)
  · rw [Log.termAt, Log.entryAt_of_lt hj] at hterm
    rw [Log.termAt, Log.entryAt_of_lt (hj.trans hlt)] at hu
    obtain ⟨e, he, heq⟩ := Option.map_eq_some_iff.mp hterm
    obtain ⟨f, hf, rfl⟩ := Option.map_eq_some_iff.mp hu
    obtain ⟨hjlen, rfl⟩ := List.getElem?_eq_some_iff.mp he
    obtain ⟨hklen, rfl⟩ := List.getElem?_eq_some_iff.mp hf
    exact List.pairwise_iff_getElem.mp h.suffix _ _ hjlen hklen (by omega) heq

/-- **A leader learns how far a peer has come**, and that is not beyond its log. -/
theorem InCharge.learn (h : InCharge cfg nd) {k : ℕ} (hk : k ≤ nd.log.lastIndex) (peer : NodeID) :
    InCharge cfg (nd.learn peer k) := by
  refine ⟨h.suffix, ?_, fun p hp => ?_⟩
  · by_cases hpeer : cfg.id = peer
    · simp only [Node.learn, ← hpeer, Function.update_self, h.self]
      omega
    · simp only [Node.learn, Function.update_of_ne hpeer, h.self]
  · have := h.matched p hp
    by_cases hpeer : p = peer
    · subst hpeer
      simp only [Node.learn, Function.update_self]
      omega
    · simp only [Node.learn, Function.update_of_ne hpeer]
      exact this

/-- What is learnt of a lower index changes nothing. -/
theorem matchCount_learn {idx k : ℕ} (hk : k < idx) (peer : NodeID) :
    matchCount cfg (nd.learn peer k) idx = matchCount cfg nd idx := by
  refine matchCount_congr fun p _ => ?_
  by_cases hpeer : p = peer
  · subst hpeer
    simp only [Node.learn, Function.update_self]
    omega
  · simp only [Node.learn, Function.update_of_ne hpeer]

/-- An answer tends the leader, if it has what it was asked about. -/
theorem tends_onAppendEntriesReply (h : Orderly cfg nd) {peer : NodeID}
    {args : AppendEntriesArgs Blob} {reply : AppendEntriesReply}
    (hbound : nd.state = .leader → args.term = nd.currentTerm →
      args.prevLogIndex + args.entries.length ≤ nd.log.lastIndex)
    {r : Node Blob × List (Write Blob)}
    (hr : onAppendEntriesReply cfg nd peer args reply = some r) : Tends cfg nd r.1 r.2 := by
  obtain ⟨-, rfl⟩ | ⟨-, rfl⟩ | ⟨⟨hs, hterm⟩, ⟨-, ci, hci, rfl⟩ | ⟨-, next, -, rfl⟩⟩ :=
    onAppendEntriesReply_cases hr
  · exact tends_becomeFollower h reply.term
  · exact .refl h
  · have hcandidate : ¬nd.state = .candidate := by
      rw [hs]
      decide
    have hcharge := (h.leader hs).learn (hbound hs hterm) peer
    refine ⟨⟨h.tidy, h.candidate, fun _ => ⟨hcharge.suffix, hcharge.self, hcharge.matched⟩,
      fun _ => ⟨fun hs' => absurd hs' hcandidate, ?_⟩⟩, progress_of_log rfl rfl rfl,
      fun _ hps => absurd hps List.not_mem_nil⟩
    -- the comparison that follows every reply to entries
    intro _ idx hlo hfirst hterm
    obtain ⟨e, he, -⟩ := Option.map_eq_some_iff.mp hterm
    exact advanceCommitFrom_maximal hci (fun j k u => hcharge.term_eq) hlo (h.tidy.index_le he)
      hfirst hterm
  · exact .same h ⟨rfl, rfl, rfl, rfl, rfl, rfl⟩

/-- **The reply to a snapshot** says nothing of an entry that the leader still holds. -/
theorem tends_onInstallSnapshotReply (h : Orderly cfg nd) (peer : NodeID)
    {args : InstallSnapshotArgs Blob} (reply : InstallSnapshotReply)
    (hbound : nd.state = .leader → args.term = nd.currentTerm →
      args.lastIncludedIndex ≤ nd.log.firstIndex) :
    Tends cfg nd (onInstallSnapshotReply cfg nd peer args reply).1
      (onInstallSnapshotReply cfg nd peer args reply).2 := by
  rcases onInstallSnapshotReply_cases cfg nd peer args reply with
    ⟨-, heq⟩ | ⟨-, heq⟩ | ⟨⟨hs, hterm, -⟩, heq⟩ <;> rw [heq]
  · exact tends_becomeFollower h reply.term
  · exact .refl h
  have hle := hbound hs hterm
  have hlast : args.lastIncludedIndex ≤ nd.log.lastIndex := by
    rw [h.tidy.lastIndex_eq]
    omega
  refine ⟨⟨h.tidy, h.candidate, fun _ => (h.leader hs).learn hlast peer,
    fun hne => ⟨(h.acted hne).candidate, fun _ idx hcommit hfirst hterm => ?_⟩⟩,
    progress_of_log rfl rfl rfl, fun _ hps => absurd hps List.not_mem_nil⟩
  dsimp only
  rw [matchCount_learn (lt_of_le_of_lt hle hfirst)]
  exact (h.acted hne).leader hs idx hcommit hfirst hterm

end Leader

end Raft

end DistQueue
