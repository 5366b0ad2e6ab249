import DistQueue.Raft.Implements

/-!
# Elections move the ledger

The sections of an election, one result each: stepping down is
`DistQueue.Consensus.Step.advance`, starting an election is `stand`, granting a vote
is `vote`, and the reply that completes a majority is `elect`.

The vote counter of an election is a number, and it counts *replies*. That it counts
voters is a fact about the calls of the cluster and is assumed here, as the set of
voters `S` of `DistQueue.Raft.At.onRequestVoteReply`.
-/

namespace DistQueue

namespace Raft

open Consensus

variable {Blob : Type} [Inhabited Blob] {M : Membership} {a a' : Ledger NodeID (LogEntry Blob)}
  {n : NodeID} {nd nd' nd'' : Node Blob} {d : Disk Blob}

/-- A section that leaves the campaign of the node alone: a candidate it ends with is
the candidate it began with. -/
def KeepsPoll (nd nd' : Node Blob) : Prop :=
  nd'.state = .candidate →
    nd.state = .candidate ∧ nd'.currentTerm = nd.currentTerm ∧ nd'.votes = nd.votes

omit [Inhabited Blob] in
theorem KeepsPoll.trans (h₁ : KeepsPoll nd nd') (h₂ : KeepsPoll nd' nd'') : KeepsPoll nd nd'' := by
  intro hs
  obtain ⟨hs', ht', hv'⟩ := h₂ hs
  obtain ⟨hs₀, ht, hv⟩ := h₁ hs'
  exact ⟨hs₀, ht'.trans ht, hv'.trans hv⟩

omit [Inhabited Blob] in
/-- Who is no candidate has no poll. -/
theorem keepsPoll_of_ne (h : nd'.state ≠ .candidate) : KeepsPoll nd nd' := fun hs => absurd hs h

/-! ### Stepping down -/

omit [Inhabited Blob] in
/-- A later term may be reached. -/
theorem Good.reach (h : Good M a) {t : ℕ} (ht : a.cur n ≤ t) : Good M (a.reach n t) where
  inv := h.inv.advance ht
  log_numbered := h.log_numbered
  lead_numbered := h.lead_numbered

/-- Who steps down has reached the term. -/
theorem At.implements_becomeFollower (h : At M a n nd d) {t : ℕ} (ht : nd.currentTerm ≤ t) :
    Implements M (a.reach n t) n (becomeFollowerLocked nd t) := by
  have hcur : a.cur n ≤ t := h.term_eq ▸ ht
  have hle : Le a (a.reach n t) := (Step.advance (R := M.rules) t hcur).le h.good.inv
  have hself : (a.reach n t).cur n = t := Function.update_self ..
  have hvote : voteOf (if nd.currentTerm < t then "" else nd.votedFor) = a.vote n t := by
    split
    · rename_i hlt
      -- nobody has voted in a term it has not reached
      cases hv : a.vote n t with
      | none => rfl
      | some c =>
        have := h.good.inv.vote_cur n t c hv
        have := h.term_eq
        omega
    · rename_i hge
      obtain rfl : t = a.cur n := by have := h.term_eq; omega
      exact h.impl.persisted.vote
  have hp : Persisted (a.reach n t) n (becomeFollowerLocked nd t).persistentState := by
    rw [becomeFollowerLocked_eq]
    exact
      { term := by rw [hself]; exact max_eq_right ht
        vote := by rw [hself]; exact hvote
        le := h.impl.persisted.le
        log := h.impl.persisted.log
        chosen := by rw [hself]; exact (h.impl.persisted.chosen.mono hle).later hcur }
  rw [becomeFollowerLocked_eq] at hp ⊢
  exact
    { persisted := hp
      first_le := h.impl.first_le
      commit_le := h.impl.commit_le
      commit_chosen := by rw [hself]; exact (h.impl.commit_chosen.mono hle).later hcur
      applied_le := h.impl.applied_le
      pending_le := h.impl.pending_le
      candidate := fun hs => absurd hs (by simp)
      leader := fun hs => absurd hs (by simp)
      matched := fun hs => absurd hs (by simp)
      taken := fun e he => ⟨(h.impl.taken e he).1.mono hle, (h.impl.taken e he).2⟩
      sent := fun command index term hm => (h.impl.sent command index term hm).mono hle }

/-- **Stepping down** and saving. -/
theorem At.becomeFollower (h : At M a n nd d) {t : ℕ} (ht : nd.currentTerm ≤ t) :
    Outcome M a (a.reach n t) n nd (becomeFollowerLocked nd t) d
      (persistLocked (M.config n) (becomeFollowerLocked nd t)) := by
  have hcur : a.cur n ≤ t := h.term_eq ▸ ht
  exact Outcome.saved h (Moves.one (Step.advance t hcur)) (h.good.reach hcur)
    (h.implements_becomeFollower ht) rfl rfl

omit [Inhabited Blob] in
theorem keepsPoll_becomeFollower (nd : Node Blob) (t : ℕ) :
    KeepsPoll nd (becomeFollowerLocked nd t) :=
  keepsPoll_of_ne (by simp [becomeFollowerLocked_state])

/-! ### Voting -/

/-- **Granting a vote.** -/
theorem At.grantVote (h : At M a n nd d) {c : NodeID} {B : List (LogEntry Blob)} (hc : c ≠ "")
    (hB : a.stand c (a.cur n) = some B) (hup : UpToDate LogEntry.term B (a.log n))
    (hvoted : nd.votedFor = "" ∨ nd.votedFor = c) :
    ∃ a', Outcome M a a' n nd { nd with votedFor := c } d
      (persistLocked (M.config n) { nd with votedFor := c }) ∧ a'.vote n (a.cur n) = some c := by
  have hvote := h.impl.persisted.vote
  rcases hvoted with hempty | hsame
  · have hfree : a.vote n (a.cur n) = none := by
      rw [← hvote]
      simp [Node.persistentState, hempty]
    have hs : Step M.rules n a (a.ballot n c) := Step.vote c B hfree hB hup
    have hp : Persisted (a.ballot n c) n { nd with votedFor := c }.persistentState :=
      { h.impl.persisted with vote := (voteOf_of_ne hc).trans (put_self _ _ _ _).symm }
    refine ⟨_, Outcome.saved h (Moves.one hs) ?_ { h.impl with persisted := hp } rfl rfl,
      put_self _ _ _ _⟩
    exact ⟨h.good.inv.step hs, h.good.log_numbered, h.good.lead_numbered⟩
  · -- the vote was granted before, and the reply was lost
    have hnd : { nd with votedFor := c } = nd := by rw [← hsame]
    rw [hnd]
    refine ⟨a, Outcome.saved h (Moves.refl a) h.good h.impl rfl rfl, ?_⟩
    rw [← hvote, ← voteOf_of_ne hc, ← hsame]
    rfl

/-- **A vote is a vote of the ledger.** -/
theorem At.castVote (h : At M a n nd d) {c : NodeID} {args : RequestVoteArgs} (hc : c ≠ "")
    (hreq : RequestOf a c (.requestVote args)) (hterm : args.term ≤ nd.currentTerm) :
    ∃ a', Outcome M a a' n nd (castVote (M.config n) nd args).1 d
        (castVote (M.config n) nd args).2.1 ∧
      KeepsPoll nd (castVote (M.config n) nd args).1 ∧
      ((castVote (M.config n) nd args).2.2.voteGranted = true → a'.vote n args.term = some c) := by
  obtain ⟨hid, B, hB, hlast, hlastTerm⟩ := hreq
  rw [Raft.castVote]
  split
  · exact ⟨a, Outcome.quiet h h.impl rfl, fun hs => ⟨hs, rfl, rfl⟩, by simp⟩
  rename_i hge
  have hcur : args.term = a.cur n := by have := h.term_eq; omega
  split
  · rename_i hgrant
    obtain ⟨hvoted, hup⟩ := hgrant
    rw [hid] at hvoted ⊢
    rw [UpToDateWith, hlast, hlastTerm, h.lastTerm_eq, h.lastIndex_eq] at hup
    rw [hcur] at hB ⊢
    obtain ⟨a', hout, hvote⟩ := h.grantVote hc hB (hup.imp_right fun hr => ⟨hr.1.symm, hr.2⟩) hvoted
    exact ⟨a', hout, fun hs => ⟨hs, rfl, rfl⟩, fun _ => hvote⟩
  · exact ⟨a, Outcome.quiet h h.impl rfl, fun hs => ⟨hs, rfl, rfl⟩, by simp⟩

/-- **The voter's end of a vote request.** -/
theorem At.handleRequestVote (h : At M a n nd d) {c : NodeID} {args : RequestVoteArgs}
    (hc : c ≠ "") (hreq : RequestOf a c (.requestVote args)) :
    ∃ a', Outcome M a a' n nd (handleRequestVote (M.config n) nd args).1 d
        (handleRequestVote (M.config n) nd args).2.1 ∧
      KeepsPoll nd (handleRequestVote (M.config n) nd args).1 ∧
      ReplyOf a' c n (.requestVote args)
        (.requestVote (handleRequestVote (M.config n) nd args).2.2 : Reply) := by
  rw [Raft.handleRequestVote, observeTerm]
  by_cases hlt : nd.currentTerm < args.term
  · rw [if_pos hlt]
    have hdown := h.becomeFollower (le_of_lt hlt)
    have hreach : args.term ≤ (becomeFollowerLocked nd args.term).currentTerm := by
      rw [becomeFollowerLocked_eq]
      exact le_max_right _ _
    have hreq' := hreq.mono (hdown.moves.inv_le h.good.inv).2
    obtain ⟨a', hout, hpoll, hreply⟩ := hdown.after.castVote hc hreq' hreach
    exact ⟨a', hdown.trans (by simp [becomeFollowerLocked_state]) hout,
      (keepsPoll_becomeFollower nd args.term).trans hpoll, hreply⟩
  · rw [if_neg hlt]
    exact h.castVote hc hreq (by omega)

/-! ### Standing -/

/-- **The election timer runs out.** -/
theorem At.startElection (h : At M a n nd d) :
    ∃ a', Outcome M a a' n nd (startElectionLocked (M.config n) nd).1 d
        (startElectionLocked (M.config n) nd).2.1 ∧
      RequestOf a' n (.requestVote (startElectionLocked (M.config n) nd).2.2 : Request Blob) ∧
      a'.cur n = a.cur n + 1 ∧ a'.vote n (a.cur n + 1) = some n := by
  have hlt : a.cur n < a.cur n + 1 := Nat.lt_succ_self _
  have hs : Step M.rules n a (a.candidacy n (a.cur n + 1)) := Step.stand _ hlt
  have hle := hs.le h.good.inv
  have hself : (a.candidacy n (a.cur n + 1)).cur n = a.cur n + 1 := Function.update_self ..
  have hne : n ≠ "" := M.ne_empty n h.mem
  have hlead : ∀ L, a.lead (a.cur n + 1) ≠ some (n, L) := by
    intro L hL
    obtain ⟨B, hB, -⟩ := h.good.inv.lead_base _ n L hL
    have := h.good.inv.stand_cur n _ B hB
    omega
  have hp : Persisted (a.candidacy n (a.cur n + 1)) n
      (startElectionLocked (M.config n) nd).1.persistentState :=
    { term := by rw [hself, ← h.term_eq]; rfl
      vote := by
        show voteOf (M.config n).id = put a.vote n (a.cur n + 1) (some n) n _
        rw [hself, put_self, h.id_eq, voteOf_of_ne hne]
      le := h.impl.persisted.le
      log := h.impl.persisted.log
      chosen := by rw [hself]; exact (h.impl.persisted.chosen.mono hle).later (le_of_lt hlt) }
  have hi : Implements M (a.candidacy n (a.cur n + 1)) n
      (startElectionLocked (M.config n) nd).1 :=
    { persisted := hp
      first_le := h.impl.first_le
      commit_le := h.impl.commit_le
      commit_chosen := by rw [hself]; exact (h.impl.commit_chosen.mono hle).later (le_of_lt hlt)
      applied_le := h.impl.applied_le
      pending_le := h.impl.pending_le
      candidate := fun _ => by
        rw [hself]
        exact ⟨put_self _ _ _ _, hlead⟩
      leader := fun hs => absurd hs (by simp [startElectionLocked])
      matched := fun hs => absurd hs (by simp [startElectionLocked])
      taken := fun e he => ⟨(h.impl.taken e he).1.mono hle, (h.impl.taken e he).2⟩
      sent := fun command index term hm => (h.impl.sent command index term hm).mono hle }
  have hg : Good M (a.candidacy n (a.cur n + 1)) :=
    ⟨h.good.inv.step hs, h.good.log_numbered, h.good.lead_numbered⟩
  refine ⟨_, Outcome.saved h (Moves.one hs) hg hi rfl rfl, ?_, hself, put_self _ _ _ _⟩
  refine ⟨h.id_eq, a.log n, ?_, h.lastIndex_eq, h.lastTerm_eq⟩
  show put a.stand n (a.cur n + 1) (some (a.log n)) n (nd.currentTerm + 1) = some (a.log n)
  rw [h.term_eq, put_self]

/-! ### Winning, and what a winner appends -/

omit [Inhabited Blob] in
/-- A leader's log may grow by the next entry. -/
theorem Good.grow (h : Good M a) {e : LogEntry Blob} (hs : Step M.rules n a (a.grow n e))
    (he : e.index = (a.log n).length + 1) : Good M (a.grow n e) where
  inv := h.inv.step hs
  log_numbered := fun m => by
    rcases eq_or_ne m n with rfl | hm
    · simp only [Function.update_self]
      exact (h.log_numbered m).concat he
    · simp only [Function.update_of_ne hm]
      exact h.log_numbered m
  lead_numbered := fun t c L hL => by
    rcases eq_or_ne t (a.cur n) with rfl | ht
    · simp only [Function.update_self, Option.some.injEq, Prod.mk.injEq] at hL
      rw [← hL.2]
      exact (h.log_numbered n).concat he
    · simp only [Function.update_of_ne ht] at hL
      exact h.lead_numbered t c L hL

/-- A leader whose log has grown by an entry, whatever it believes of the others. -/
theorem At.implements_grow (h : At M a n nd d) {e : LogEntry Blob}
    (hs : Step M.rules n a (a.grow n e)) (leaderID : NodeID) (nextIndex matchIndex : NodeID → ℕ)
    (votes : ℕ → ℕ) (hself : matchIndex n = (a.log n).length + 1)
    (hmatch : ∀ p ∈ M.ids, p ≠ n → matchIndex p ≤ a.acked p (a.cur n)) :
    Implements M (a.grow n e) n { nd with
      state := .leader, log := nd.log.append [e], leaderID := leaderID, nextIndex := nextIndex,
      matchIndex := matchIndex, votes := votes } := by
  have hle := hs.le h.good.inv
  have hlog : (a.grow n e).log n = a.log n ++ [e] := Function.update_self ..
  have htake : ∀ k, k ≤ (a.log n).length → (a.log n ++ [e]).take k = (a.log n).take k :=
    fun k hk => List.take_append_of_le_length hk
  have happend : nd.log.append [e] = compact (a.log n ++ [e]) nd.log.firstIndex := by
    conv_lhs => rw [h.log_eq]
    exact compact_append h.first_le
  have hlen : ∀ k, k ≤ (a.log n).length → k ≤ (a.log n ++ [e]).length := fun k hk => by
    rw [List.length_append]
    omega
  exact
    { persisted :=
        { term := h.impl.persisted.term
          vote := h.impl.persisted.vote
          le := by rw [hlog]; exact hlen _ h.first_le
          log := by rw [hlog]; exact happend
          chosen := by
            rw [hlog]
            show Chosen _ _ ((a.log n ++ [e]).take nd.log.firstIndex)
            rw [htake _ h.first_le]
            exact h.impl.persisted.chosen.mono hle }
      first_le := h.impl.first_le
      commit_le := by rw [hlog]; exact hlen _ h.impl.commit_le
      commit_chosen := by
        rw [hlog]
        show Chosen _ _ ((a.log n ++ [e]).take nd.commitIndex)
        rw [htake _ h.impl.commit_le]
        exact h.impl.commit_chosen.mono hle
      applied_le := h.impl.applied_le
      pending_le := h.impl.pending_le
      candidate := fun hc => absurd hc (by simp)
      leader := fun _ => by
        rw [hlog]
        exact Function.update_self ..
      matched := fun _ p hp => by
        rcases eq_or_ne p n with rfl | hpn
        · show matchIndex p ≤ put a.acked p (a.cur p) _ p (a.cur p)
          rw [put_self, hself]
        · exact le_trans (hmatch p hp hpn) (hle.acked p _)
      taken := fun e he => ⟨(h.impl.taken e he).1.mono hle, (h.impl.taken e he).2⟩
      sent := fun command index term hm => (h.impl.sent command index term hm).mono hle }

/-- **A candidate with the votes of a quorum becomes the leader.** -/
theorem At.becomeLeader (h : At M a n nd d) (hs : nd.state = .candidate) {S : Finset NodeID}
    (hS : S ⊆ M.ids.toFinset) (hcard : (M.config n).majority ≤ S.card)
    (hvotes : ∀ v ∈ S, a.vote v (a.cur n) = some n) (votes : ℕ → ℕ) :
    ∃ a', Outcome M a a' n nd (becomeLeaderLocked (M.config n) { nd with votes := votes }).1 d
      (becomeLeaderLocked (M.config n) { nd with votes := votes }).2 := by
  obtain ⟨hstand, hnot⟩ := h.impl.candidate hs
  have hq : (M.rules : Rules NodeID (LogEntry Blob)).Quorum S :=
    ⟨hS, Membership.majority_eq h.mem ▸ hcard⟩
  -- another leader of the term would have been elected by one of the same voters
  have hfree : a.lead (a.cur n) = none := by
    cases hlead : a.lead (a.cur n) with
    | none => rfl
    | some cL =>
      obtain ⟨c, L⟩ := cL
      obtain ⟨q, hq', hqv⟩ := h.good.inv.lead_backed _ c L hlead
      obtain ⟨v, hvS, hvq⟩ := M.rules.meet S q hq hq'
      have hvote := (hqv v hvq).1
      rw [hvotes v hvS, Option.some.injEq] at hvote
      exact absurd (hvote ▸ hlead) (hnot L)
  have hlast := h.lastIndex_eq
  set e : LogEntry Blob := ⟨nd.log.lastIndex + 1, nd.currentTerm, default⟩ with he
  have hstep : Step M.rules n a (a.grow n e) := Step.elect e S hstand hfree hq hvotes h.term_eq
  have hg := h.good.grow hstep (by rw [he, hlast])
  have hmi : (nd.log.append [e]).lastIndex = (a.log n).length + 1 := by
    simp [Log.lastIndex, Log.last, Log.append, he, ← hlast]
  refine ⟨_, Outcome.saved h (Moves.one hstep) hg (h.implements_grow hstep _ _ _ _ ?_ ?_) rfl ?_⟩
  · show Function.update (fun p => if p ∈ (M.config n).peers then 0 else nd.matchIndex p)
      (M.config n).id (nd.log.append [e]).lastIndex n = _
    rw [h.id_eq, Function.update_self, hmi]
  · intro p hp hpn
    show Function.update (fun p => if p ∈ (M.config n).peers then 0 else nd.matchIndex p)
      (M.config n).id _ p ≤ _
    rw [h.id_eq, Function.update_of_ne hpn, if_pos ((M.mem_peers n h.mem p).mpr ⟨hp, hpn⟩)]
    exact Nat.zero_le _
  · rfl

/-- **A vote reply**, granted or not, late or not. -/
theorem At.onRequestVoteReply (h : At M a n nd d) {term : ℕ} {reply : RequestVoteReply}
    (hS : nd.state = .candidate → nd.currentTerm = term → reply.voteGranted = true →
      ∃ S ⊆ M.ids.toFinset, S.card = nd.votes term + 1 ∧ ∀ v ∈ S, a.vote v term = some n) :
    ∃ a', Outcome M a a' n nd (onRequestVoteReply (M.config n) nd term reply).1 d
      (onRequestVoteReply (M.config n) nd term reply).2 := by
  rcases onRequestVoteReply_cases (M.config n) nd term reply with
    ⟨hlt, heq⟩ | ⟨-, heq⟩ | ⟨⟨hs, rfl, hgrant⟩, ⟨hmaj, heq⟩ | ⟨-, heq⟩⟩ <;> rw [heq]
  · exact ⟨_, h.becomeFollower (le_of_lt hlt)⟩
  · exact ⟨a, Outcome.quiet h h.impl rfl⟩
  · obtain ⟨S, hS, hcard, hvotes⟩ := hS hs rfl hgrant
    rw [h.term_eq] at hvotes
    exact h.becomeLeader hs hS (hcard ▸ hmaj) hvotes _
  · exact ⟨a, Outcome.quiet h { h.impl with } rfl⟩

/-- What a vote reply does to the counter of a campaign that goes on. -/
theorem onRequestVoteReply_poll (cfg : Config) (nd : Node Blob) (term : ℕ)
    (reply : RequestVoteReply)
    (hs : (onRequestVoteReply cfg nd term reply).1.state = .candidate) :
    nd.state = .candidate ∧
      (onRequestVoteReply cfg nd term reply).1.currentTerm = nd.currentTerm ∧
      (onRequestVoteReply cfg nd term reply).1.votes nd.currentTerm =
        if nd.currentTerm = term ∧ reply.voteGranted = true then nd.votes nd.currentTerm + 1
        else nd.votes nd.currentTerm := by
  rcases onRequestVoteReply_cases cfg nd term reply with
    ⟨-, heq⟩ | ⟨hnot, heq⟩ | ⟨⟨hcand, rfl, hgrant⟩, ⟨-, heq⟩ | ⟨-, heq⟩⟩ <;> rw [heq] at hs ⊢
  · rw [becomeFollowerLocked_state] at hs
    cases hs
  · exact ⟨hs, rfl, (if_neg fun hc => hnot ⟨hs, hc⟩).symm⟩
  · cases hs
  · rw [if_pos (⟨rfl, hgrant⟩ : nd.currentTerm = nd.currentTerm ∧ _)]
    exact ⟨hcand, rfl, Function.update_self ..⟩

/-- **A proposal.** -/
theorem At.propose (h : At M a n nd d) (command : Blob) :
    ∃ a', Outcome M a a' n nd (propose (M.config n) nd command).1 d
        (propose (M.config n) nd command).2.1 ∧
      KeepsPoll nd (propose (M.config n) nd command).1 := by
  rw [Raft.propose]
  split
  · exact ⟨a, Outcome.quiet h h.impl rfl, fun hs => ⟨hs, rfl, rfl⟩⟩
  rename_i hnot
  have hs : nd.state = .leader := not_not.mp hnot
  set e : LogEntry Blob := ⟨nd.log.lastIndex + 1, nd.currentTerm, command⟩ with he
  have hstep : Step M.rules n a (a.grow n e) := Step.append e (h.impl.leader hs) h.term_eq
  have hg := h.good.grow hstep (by rw [he, h.lastIndex_eq])
  have hi := h.implements_grow hstep nd.leaderID nd.nextIndex
    (Function.update nd.matchIndex (M.config n).id (nd.log.lastIndex + 1)) nd.votes
    (by rw [h.id_eq, Function.update_self, h.lastIndex_eq])
    (fun p hp hpn => by rw [h.id_eq, Function.update_of_ne hpn]; exact h.impl.matched hs p hp)
  rw [← hs] at hi
  exact ⟨_, Outcome.saved h (Moves.one hstep) hg hi rfl rfl, fun hc => ⟨hc, rfl, rfl⟩⟩

end Raft

end DistQueue
