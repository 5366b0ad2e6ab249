import DistQueue.Raft.Bounds

/-!
# What a rejection says

A follower refuses the entries of a leader when its log is too short for them, or has an entry of
another term right before them, and says where its log ends or where the run of that term begins.
The leader looks for the last entry of the follower's term in its own log, and goes on behind it,
or takes the follower's word if there is none.

That the leader goes *back* in this way is not to be seen from the search, which runs over the
whole log. It is a consequence of log matching: an entry of the follower's term at the index in
question or above it would put the two logs in agreement there
(`DistQueue.Consensus.Sound.take_eq_of_le`), and there would have been nothing to refuse
(`DistQueue.Raft.At.rejected_lt`). And where the leader knows that the logs agree, it is not
refused (`DistQueue.Raft.At.not_rejects_of_matched`).
-/

namespace DistQueue

namespace Raft

open Consensus

variable {Blob : Type} {nd nd' : Node Blob} {cfg : Config} {l : Log Blob}

/-! ### The follower -/

/-- **The answer of a follower** to a request that is not stale is of the term of the request; and
if it refuses, then for one of these reasons, since a window that is shifted to the boundary is not
refused. -/
theorem handleAppendEntries_rejects {args : AppendEntriesArgs Blob}
    {r : Node Blob × List (Write Blob) × AppendEntriesReply}
    (hlast : nd.log.firstIndex ≤ nd.log.lastIndex) (hterm : nd.currentTerm ≤ args.term)
    (h : handleAppendEntries cfg nd args = some r) :
    (r.1.currentTerm = args.term ∧ r.2.2.term = args.term) ∧
      (r.2.2.success = true ∨ Rejects nd.log args r.2.2) := by
  have hlog := observeLeader_log cfg nd args.term args.leaderID
  have hcur := (observeLeader_currentTerm cfg nd args.term args.leaderID).trans (max_eq_right hterm)
  unfold handleAppendEntries at h
  rw [if_neg (Nat.not_lt.mpr hterm)] at h
  generalize observeLeader cfg nd args.term args.leaderID = o at h hlog hcur
  obtain ⟨nd₁, ws₁⟩ := o
  dsimp only at h hlog hcur
  rw [← hlog]
  split at h
  · cases h
    exact ⟨⟨hcur, hcur⟩, .inl rfl⟩
  · rename_i args' hshift
    obtain ⟨r', hr', h⟩ := Option.bind_eq_some_iff.mp h
    cases h
    obtain ⟨reply, hreply, hrej, rfl⟩ | ⟨log, changed, ci, -, -, -, rfl⟩ := appendShifted_cases hr'
    · refine ⟨⟨hcur, hreply.trans hcur⟩, .inr ?_⟩
      obtain rfl | ⟨cut, -, -, rfl⟩ := shiftWindow_cases hshift
      · exact hrej
      · exact absurd hrej (not_rejects_boundary rfl rfl (hlog ▸ hlast))
    · exact ⟨⟨hcur, hcur⟩, .inl rfl⟩

/-! ### The leader -/

theorem lastOfTerm_eq_some {t i j : ℕ} (h : lastOfTerm l t i = some j) :
    j = 0 ∨ l.firstIndex < j ∧ l.termAt j = some t := by
  induction i with
  | zero => exact .inl (Option.some.inj h).symm
  | succ i ih =>
    rw [lastOfTerm] at h
    split at h
    · rename_i hlt
      obtain ⟨t', ht', h⟩ := Option.bind_eq_some_iff.mp h
      split at h
      · rename_i heq
        cases h
        exact .inr ⟨hlt, heq ▸ ht'⟩
      · split at h
        · exact .inl (Option.some.inj h).symm
        · exact ih h
    · exact .inl (Option.some.inj h).symm

/-- The index that is left by a rejection is at most the one before the entries, if the last entry
of the follower's term is before it. -/
theorem nextAfterConflict_le_prev {reply : AppendEntriesReply} {next prev : ℕ}
    (hpos : 0 < prev) (hfirst : nd.log.firstIndex ≤ prev) (hhint : reply.conflictIndex ≤ prev)
    (hlast : ∀ j, lastOfTerm nd.log reply.conflictTerm nd.log.lastIndex = some j →
      0 < reply.conflictTerm → 0 < j → j < prev)
    (h : nextAfterConflict nd reply = some next) : 0 < next ∧ next ≤ prev := by
  obtain ⟨k, rfl, rfl | ⟨hterm, last, hfound, rfl, hsearch⟩⟩ := nextAfterConflict_cases h
  · omega
  · have := hlast last hsearch hterm hfound
    omega

/-! ### Both -/

section Both

variable [Inhabited Blob] {M : Membership} {a : Ledger NodeID (LogEntry Blob)} {n p : NodeID}
  {d d' : Disk Blob} {args : AppendEntriesArgs Blob} {reply : AppendEntriesReply}

/-- The request of a leader: its entries from the next index of the peer to the end of its log. -/
theorem At.sendAppendEntries_eq (h : At M a n nd d)
    (hargs : Raft.sendAppendEntries (M.config n) nd p = some args) :
    args.term = nd.currentTerm ∧ nd.nextIndex p = args.prevLogIndex + 1 ∧
      nd.log.firstIndex ≤ args.prevLogIndex ∧ args.prevLogIndex ≤ (a.log n).length ∧
      args.prevLogTerm = termAt LogEntry.term (a.log n) args.prevLogIndex ∧
      args.prevLogIndex + args.entries.length = (a.log n).length := by
  obtain ⟨-, i, t, es, hi, -, ht, hes, rfl⟩ := Raft.sendAppendEntries_eq hargs
  obtain ⟨hlo, hhi, hterm⟩ := h.termAt_eq_some.mp ht
  rw [h.log_eq] at hes
  have hlen := congrArg List.length (compact_sliceFrom hes hlo)
  rw [List.length_drop] at hlen
  refine ⟨rfl, hi, hlo, hhi, hterm.symm, ?_⟩
  dsimp only
  omega

/-- An index that is refused is not the one before all entries. -/
theorem At.rejects_pos (h : At M a p nd' d') {F : List (LogEntry Blob)}
    (hterm : args.prevLogTerm = termAt LogEntry.term F args.prevLogIndex)
    (hrej : Rejects nd'.log args reply) : 0 < args.prevLogIndex := by
  cases hrej with
  | short hlen hzero hindex => omega
  | conflict t ht hne hconflict hindex =>
    by_contra hzero
    have hzero : args.prevLogIndex = 0 := by omega
    obtain ⟨-, -, ht⟩ := h.termAt_eq_some.mp ht
    rw [hzero, termAt_zero] at ht hterm
    exact hne (ht.symm.trans hterm.symm)

/-- **A rejection makes a leader go back.** -/
theorem At.rejected_lt (h : At M a n nd d) (hp : At M a p nd' d')
    (hargs : Raft.sendAppendEntries (M.config n) nd p = some args)
    (hrej : Rejects nd'.log args reply) {next : ℕ}
    (hnext : nextAfterConflict nd reply = some next) :
    0 < next ∧ next < nd.nextIndex p := by
  obtain ⟨-, heq, hlo, hhi, hterm, -⟩ := h.sendAppendEntries_eq hargs
  have hpos := hp.rejects_pos hterm hrej
  have hback : 0 < next ∧ next ≤ args.prevLogIndex := by
    refine nextAfterConflict_le_prev hpos hlo hrej.conflictIndex_le
      (fun j hj hconflict hfound => ?_) hnext
    -- the last entry of the follower's term in the leader's log
    rcases lastOfTerm_eq_some hj with hzero | ⟨-, hj⟩
    · omega
    obtain ⟨-, hjlen, hjterm⟩ := h.termAt_eq_some.mp hj
    cases hrej with
    | short hlen hzero hindex => omega
    | conflict t ht hne hct hindex =>
      obtain ⟨-, hlen, hterm'⟩ := hp.termAt_eq_some.mp ht
      by_contra hge
      have hagree := (h.good.inv.log_sound p).take_eq_of_le (h.good.inv.log_sound n) hpos
        (Nat.le_of_not_lt hge) hlen hjlen (by rw [Membership.rules_term, hterm', hjterm, hct])
      refine hne ?_
      rw [hterm, ← hterm', ← termAt_take _ _ (le_refl _), hagree, termAt_take _ _ (le_refl _)]
  omega

/-- **What a leader believes of a peer is true**, unless the peer is in a later term: its log
begins with what the match index says. -/
theorem At.matched_prefix (h : At M a n nd d) (hp : At M a p nd' d') (hs : nd.state = .leader)
    (hterm : nd'.currentTerm ≤ nd.currentTerm) :
    (a.log n).take (nd.matchIndex p) <+: a.log p := by
  have hack := h.impl.matched hs p hp.mem
  rcases Nat.eq_zero_or_pos (nd.matchIndex p) with hzero | hpos
  · rw [hzero, List.take_zero]
    exact List.nil_prefix
  · have hcur := h.good.inv.acked_cur p (a.cur n) (by omega)
    rw [h.term_eq, hp.term_eq] at hterm
    -- no term lies between the leader's and the peer's
    refine h.good.inv.acked_log p (a.cur n) n (a.log n) _ (by omega) (h.impl.leader hs) hack ?_
    intro t c L hlo hhi
    omega

/-- A leader counts on no entry that it does not have. -/
theorem At.matchIndex_le_log (h : At M a n nd d) (hs : nd.state = .leader) (hp : p ∈ M.ids) :
    nd.matchIndex p ≤ (a.log n).length := by
  rw [← h.lastIndex_eq]
  exact h.matchIndex_le hs hp

/-- **Where the logs are known to agree, nothing is refused.** -/
theorem At.not_rejects_of_matched (h : At M a n nd d) (hp : At M a p nd' d')
    (hs : nd.state = .leader) (hterm : nd'.currentTerm ≤ nd.currentTerm)
    (hargs : Raft.sendAppendEntries (M.config n) nd p = some args)
    (hnext : nd.nextIndex p = nd.matchIndex p + 1) : ¬Rejects nd'.log args reply := by
  obtain ⟨-, heq, -, -, hprevTerm, -⟩ := h.sendAppendEntries_eq hargs
  obtain hprev : args.prevLogIndex = nd.matchIndex p := by omega
  have hpre := h.matched_prefix hp hs hterm
  have hlen : ((a.log n).take (nd.matchIndex p)).length = nd.matchIndex p :=
    List.length_take_of_le (h.matchIndex_le_log hs hp.mem)
  intro hrej
  cases hrej with
  | short hshort hzero hindex =>
    have := hpre.length_le
    rw [hp.lastIndex_eq] at hshort
    omega
  | conflict t ht hne hct hindex =>
    obtain ⟨-, -, ht⟩ := hp.termAt_eq_some.mp ht
    refine hne ?_
    rw [← ht, hprevTerm, hprev, ← prefix_termAt_eq _ hpre (le_of_eq hlen.symm),
      termAt_take _ _ (le_refl _)]

end Both

end Raft

end DistQueue
