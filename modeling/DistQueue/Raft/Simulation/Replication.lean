import DistQueue.Raft.Simulation.Election

/-!
# Replication moves the ledger

A follower that answers an `AppendEntries` request with success has accepted a
prefix `G` of the log of the leader, and it holds `G`: its log is unchanged if it
held `G` already, and is `G` if it did not (`DistQueue.Raft.appendMissing_eq`). So a
request that arrives late or twice never undoes anything. When the window of the
request begins below the follower's snapshot, the two logs agree up to the boundary
because both hold what was decided there; that is what makes the shift of the window
sound, which does not look at the terms at all.

A leader that moves its `commitIndex` decides, with the quorum of the members whose
`matchIndex` it counted.
-/

namespace DistQueue

namespace Raft

open Consensus

variable {Blob : Type} [Inhabited Blob] {M : Membership} {a a' : Ledger NodeID (LogEntry Blob)}
  {n c : NodeID} {nd nd' : Node Blob} {d : Disk Blob} {L G F' : List (LogEntry Blob)}

/-! ### The leader is observed -/

/-- **Who hears from a leader has reached its term.** -/
theorem At.observeLeader (h : At M a n nd d) {t : ℕ} (ht : nd.currentTerm ≤ t)
    (leaderID : NodeID) :
    Outcome M a (a.reach n t) n nd (observeLeader (M.config n) nd t leaderID).1 d
        (observeLeader (M.config n) nd t leaderID).2 ∧
      (observeLeader (M.config n) nd t leaderID).1.state = .follower := by
  have hcur : a.cur n ≤ t := h.term_eq ▸ ht
  rw [Raft.observeLeader]
  by_cases hdown : nd.currentTerm < t ∨ nd.state ≠ .follower
  · rw [if_pos hdown]
    exact ⟨Outcome.saved h (Moves.one (Step.advance t hcur)) (h.good.reach hcur)
      { h.implements_becomeFollower ht with } rfl rfl, becomeFollowerLocked_state nd t⟩
  · rw [if_neg hdown]
    obtain ⟨hge, hs⟩ := not_or.mp hdown
    obtain rfl : t = a.cur n := by have := h.term_eq; omega
    have hself : a.reach n (a.cur n) = a := by simp only [Ledger.reach, Function.update_eq_self]
    rw [hself]
    exact ⟨Outcome.quiet h { h.impl with } rfl, not_not.mp hs⟩

/-- **Who hears from the leader of a term** follows it there. -/
theorem At.hears (h : At M a n nd d) {t : ℕ} (ht : nd.currentTerm ≤ t)
    (hL : a.lead t = some (c, L)) (leaderID : NodeID) :
    ∃ nd₁ ws₁, Raft.observeLeader (M.config n) nd t leaderID = (nd₁, ws₁) ∧
      Outcome M a (a.reach n t) n nd nd₁ d ws₁ ∧ nd₁.state = .follower ∧
      (a.reach n t).cur n = t ∧ (a.reach n t).lead ((a.reach n t).cur n) = some (c, L) := by
  obtain ⟨hobs, hfollower⟩ := h.observeLeader ht leaderID
  have hself : (a.reach n t).cur n = t := Function.update_self ..
  exact ⟨_, _, rfl, hobs, hfollower, hself, by rw [hself]; exact hL⟩

/-! ### The log of a follower -/

/-- **The entries a follower takes**: nothing if it holds `G`, and otherwise the log
becomes `G`. The two logs agree as far as the window's beginning `i`. -/
theorem appendMissing_eq {F G : List (LogEntry Blob)} {b : ℕ} (hF : Numbered F) (hG : Numbered G)
    (hmatch : ∀ j, j ≤ F.length → j ≤ G.length →
      termAt LogEntry.term F j = termAt LogEntry.term G j → F.take j = G.take j)
    {i : ℕ} (hb : b ≤ i) (hiF : i ≤ F.length) (htake : F.take i = G.take i)
    {es : List (LogEntry Blob)} (hes : es = G.drop i) :
    (appendMissing (compact F b) es = some (compact F b, false) ∧ G <+: F) ∨
      (appendMissing (compact F b) es = some (compact G b, true) ∧ ¬G <+: F) := by
  induction es generalizing i with
  | nil =>
    -- nothing is left: all of `G` was held already
    refine Or.inl ⟨rfl, ?_⟩
    have hlen : G.length ≤ i := by simpa using hes.symm
    rw [List.take_of_length_le hlen] at htake
    rw [← htake]
    exact List.take_prefix i F
  | cons e es ih =>
    have hi : i < G.length := by
      by_contra hge
      rw [List.drop_of_length_le (by omega)] at hes
      cases hes
    rw [List.drop_eq_getElem_cons hi, List.cons.injEq] at hes
    have hget : G[i]? = some e := by rw [hes.1]; exact List.getElem?_eq_getElem hi
    have hidx : e.index = i + 1 := hG i e hget
    have hterm : termAt LogEntry.term G (i + 1) = e.term := termAt_of_getElem? _ hget
    have hdrop : e :: es = G.drop i := by rw [List.drop_eq_getElem_cons hi, ← hes.1, ← hes.2]
    have hbF : b ≤ F.length := le_trans hb hiF
    rw [appendMissing, compact_lastIndex hF hbF, hidx]
    by_cases hheld : i + 1 ≤ F.length
    · rw [if_pos hheld,
        (compact_termAt_eq_some hbF).mpr ⟨by omega, hheld, rfl⟩]
      by_cases hsame : termAt LogEntry.term F (i + 1) = e.term
      · simp only [Option.bind_eq_bind, Option.bind_some, if_pos hsame]
        exact ih (by omega) hheld (hmatch (i + 1) hheld hi (hsame.trans hterm.symm)) hes.2
      · -- the first conflict: the tail is cut, and the leader's entries follow
        obtain ⟨l, hl⟩ : ∃ l, (compact F b).truncateFrom (i + 1) = some l := by
          rw [Log.truncateFrom, compact_firstIndex, compact_toList_length, if_neg (by omega)]
          exact ⟨_, rfl⟩
        have htrunc := (compact_truncateFrom hl).2
        have hcut : (F.take i).length = i := List.length_take_of_le hiF
        simp only [Option.bind_eq_bind, Option.bind_some, if_neg hsame, hl]
        refine Or.inr ⟨?_, fun hp => hsame ?_⟩
        · rw [htrunc, compact_append (by omega), hdrop, htake, List.take_append_drop]
          rfl
        · rw [← hterm, ← prefix_termAt_eq _ hp (by omega)]
    · -- the log ends where the window begins
      rw [if_neg hheld]
      have hlen : F.length = i := by omega
      refine Or.inr ⟨?_, fun hp => ?_⟩
      · rw [compact_append hbF, hdrop]
        conv_lhs => rw [← List.take_of_length_le (le_of_eq hlen), htake, List.take_append_drop]
      · have := hp.length_le
        omega

/-! ### Accepting -/

/-- What a member's log becomes when it accepts `G`. -/
def Accepts (F G F' : List (LogEntry Blob)) : Prop := (F' = F ∧ G <+: F) ∨ (F' = G ∧ ¬G <+: F)

omit [Inhabited Blob] in
/-- Who accepts entries has them. -/
theorem Accepts.prefix_right {F : List (LogEntry Blob)} (h : Accepts F G F') : G <+: F' := by
  rcases h with ⟨rfl, hp⟩ | ⟨rfl, -⟩
  · exact hp
  · exact List.prefix_refl _

omit [Inhabited Blob] in
/-- A prefix of the log that the leader holds as well survives. -/
theorem Accepts.keeps {F P : List (LogEntry Blob)} (h : Accepts F G F') (hPF : P <+: F)
    (hPL : P <+: L) (hG : G <+: L) : P <+: F' := by
  rcases h with ⟨rfl, -⟩ | ⟨rfl, hnot⟩
  · exact hPF
  · rcases List.prefix_or_prefix_of_prefix hPL hG with hp | hp
    · exact hp
    · exact absurd (hp.trans hPF) hnot

omit [Inhabited Blob] in
/-- **Entries of the leader may be taken.** -/
theorem Good.take (h : Good M a) (hlead : a.lead (a.cur n) = some (c, L)) (hG : G <+: L)
    (hF : Accepts (a.log n) G F') : Good M (a.take n F' G.length) where
  inv := h.inv.accept hlead hG hF
  log_numbered := fun m => by
    rcases eq_or_ne m n with rfl | hm
    · simp only [Function.update_self]
      rcases hF with ⟨rfl, -⟩ | ⟨rfl, -⟩
      · exact h.log_numbered m
      · exact (h.lead_numbered _ c L hlead).prefix_closed hG
    · simp only [Function.update_of_ne hm]
      exact h.log_numbered m
  lead_numbered := h.lead_numbered

/-- **A follower that has accepted `G` implements the ledger**, with its log cut at any
boundary up to its `commitIndex`, which may have moved within `G`. -/
theorem At.implements_take (h : At M a n nd d) (hs : nd.state = .follower)
    (hlead : a.lead (a.cur n) = some (c, L)) (hG : G <+: L) (hF : Accepts (a.log n) G F')
    {b ci : ℕ} (hb : b ≤ ci) (hci : ci = nd.commitIndex ∨
      nd.commitIndex < ci ∧ ci ≤ G.length ∧ Chosen a (a.cur n) (G.take ci))
    (snapshot : Option Blob) {pending : Option (SnapshotMsg Blob)}
    (hpending : ∀ msg, pending = some msg → msg.index ≤ ci) :
    Implements M (a.take n F' G.length) n { nd with
      log := compact F' b, commitIndex := ci, snapshot := snapshot,
      pendingSnapshot := pending } := by
  have hle := (Step.accept (R := M.rules) c L G F' hlead hG hF).le h.good.inv
  have hlog : (a.take n F' G.length).log n = F' := Function.update_self ..
  have hmono : nd.commitIndex ≤ ci := by omega
  -- what was committed before is in the leader's log, and stays
  have hold : (a.log n).take nd.commitIndex <+: F' :=
    hF.keeps (List.take_prefix _ _)
      (h.impl.commit_chosen.prefix_lead h.good.inv (le_refl _) hlead) hG
  have hlen : nd.commitIndex ≤ F'.length := by
    have := hold.length_le
    rw [List.length_take] at this
    have := h.impl.commit_le
    omega
  have hnew : ci ≤ F'.length ∧ Chosen a (a.cur n) (F'.take ci) := by
    rcases hci with rfl | ⟨-, hciG, hc⟩
    · refine ⟨hlen, ?_⟩
      have htake : F'.take nd.commitIndex = (a.log n).take nd.commitIndex := by
        rw [prefix_take_eq hold (by rw [List.length_take]; have := h.impl.commit_le; omega),
          List.take_take, min_self]
      rw [htake]
      exact h.impl.commit_chosen
    · refine ⟨le_trans hciG hF.prefix_right.length_le, ?_⟩
      rw [prefix_take_eq hF.prefix_right hciG]
      exact hc
  have hchosen : ∀ k, k ≤ ci → Chosen (a.take n F' G.length) (a.cur n) (F'.take k) :=
    fun k hk => (hnew.2.prefix_closed (List.take_prefix_take_left hk)).mono hle
  exact
    { persisted :=
        { term := h.impl.persisted.term
          vote := h.impl.persisted.vote
          le := by rw [hlog]; exact le_trans hb hnew.1
          log := by rw [hlog]; rfl
          chosen := by rw [hlog]; exact hchosen b hb }
      first_le := hb
      commit_le := by rw [hlog]; exact hnew.1
      commit_chosen := by rw [hlog]; exact hchosen ci (le_refl _)
      applied_le := le_trans h.impl.applied_le hmono
      pending_le := hpending
      candidate := fun hc => absurd (hs.symm.trans hc) (by decide)
      leader := fun hc => absurd (hs.symm.trans hc) (by decide)
      matched := fun hc => absurd (hs.symm.trans hc) (by decide)
      taken := fun e he =>
        ⟨(h.impl.taken e he).1.mono hle, le_trans (h.impl.taken e he).2 hmono⟩
      sent := fun command index term hm => (h.impl.sent command index term hm).mono hle }

/-- A follower that holds all of `G` accepts it by saying so. -/
theorem At.acceptHeld (h : At M a n nd d) (hs : nd.state = .follower)
    (hlead : a.lead (a.cur n) = some (c, L)) (hG : G <+: L) (hp : G <+: a.log n) :
    Outcome M a (a.take n (a.log n) G.length) n nd nd d [] := by
  have hF : Accepts (a.log n) G (a.log n) := Or.inl ⟨rfl, hp⟩
  have hi := h.implements_take hs hlead hG hF h.impl.first_le (Or.inl rfl) nd.snapshot
    h.impl.pending_le
  rw [← h.log_eq] at hi
  exact Outcome.unsaved h (Moves.one (Step.accept c L G _ hlead hG hF)) (h.good.take hlead hG hF) hi
    rfl fun t ht => absurd ht (lt_irrefl _)

/-! ### The follower's end -/

omit [Inhabited Blob] in
/-- The search for the first entry of a term stays within the log. -/
theorem conflictStart_isSome {l : Log Blob} {t : ℕ} {i : ℕ}
    (hl : ∀ j, l.firstIndex ≤ j → j < i → (l.termAt j).isSome) : (conflictStart l t i).isSome := by
  induction i with
  | zero => rfl
  | succ i ih =>
    rw [conflictStart]
    split
    · rename_i hlt
      obtain ⟨t', ht'⟩ := Option.isSome_iff_exists.mp (hl i (by omega) (Nat.lt_succ_self i))
      rw [ht']
      show (if t' = t then conflictStart l t i else some (i + 1)).isSome
      split
      · exact ih fun j hlo hhi => hl j hlo (by omega)
      · rfl
    · rfl

/-- A window into the prefix `G` of the leader's log that begins at the boundary `b` or
above it. -/
structure Window (a : Ledger NodeID (LogEntry Blob)) (n : NodeID) (G : List (LogEntry Blob)) (b : ℕ)
    (args : AppendEntriesArgs Blob) : Prop where
  first_le : b ≤ args.prevLogIndex
  prev_le : args.prevLogIndex ≤ G.length
  prevTerm : args.prevLogTerm = termAt LogEntry.term G args.prevLogIndex
  entries : args.entries = G.drop args.prevLogIndex
  commit_le : args.leaderCommit ≤ G.length
  commit : Chosen a (a.cur n) (G.take args.leaderCommit)

/-- **Who takes entries has accepted a part of the leader's log.** -/
theorem At.appendShifted (h : At M a n nd d) (hs : nd.state = .follower)
    (hlead : a.lead (a.cur n) = some (c, L)) (hG : G <+: L) {args : AppendEntriesArgs Blob}
    (hw : Window a n G nd.log.firstIndex args) :
    ∃ a' r, appendShifted (M.config n) nd args = some r ∧ Outcome M a a' n nd r.1 d r.2.1 ∧
      r.1.state = .follower ∧ (r.2.2.success = true → G.length ≤ a'.acked n (a.cur n)) := by
  have hsoundG : Sound M.rules a G := (h.good.inv.lead_sound hlead).prefix_closed hG
  have hmatch : ∀ j, j ≤ (a.log n).length → j ≤ G.length →
      termAt LogEntry.term (a.log n) j = termAt LogEntry.term G j →
        (a.log n).take j = G.take j :=
    fun j hjF hjG ht => (h.good.inv.log_sound n).take_eq hsoundG hjF hjG ht
  rw [Raft.appendShifted]
  by_cases hshort : nd.log.lastIndex < args.prevLogIndex
  · rw [if_pos hshort]
    exact ⟨a, _, rfl, Outcome.quiet h h.impl rfl, hs, by simp⟩
  have hprev : args.prevLogIndex ≤ (a.log n).length := by rw [← h.lastIndex_eq]; omega
  rw [if_neg hshort, h.termAt_some hw.first_le hprev]
  by_cases hconflict : termAt LogEntry.term (a.log n) args.prevLogIndex ≠ args.prevLogTerm
  · obtain ⟨i, hi⟩ := Option.isSome_iff_exists.mp <| conflictStart_isSome (i := args.prevLogIndex)
      (t := termAt LogEntry.term (a.log n) args.prevLogIndex) fun j hlo hhi => by
        rw [h.termAt_some hlo (by omega)]
        rfl
    simp only [Option.bind_eq_bind, Option.bind_some, if_pos hconflict, hi]
    exact ⟨a, _, rfl, Outcome.quiet h h.impl rfl, hs, by simp⟩
  -- the logs agree up to where the window begins
  have hagree : (a.log n).take args.prevLogIndex = G.take args.prevLogIndex :=
    hmatch _ hprev hw.prev_le ((not_not.mp hconflict).trans hw.prevTerm)
  have hlast : args.prevLogIndex + args.entries.length = G.length := by
    rw [hw.entries, List.length_drop]
    have := hw.prev_le
    omega
  -- every entry the leader had goes with the request, its commit index included
  obtain ⟨ci, hciEq, hci⟩ : ∃ ci,
      (if nd.commitIndex < args.leaderCommit then min args.leaderCommit G.length
        else nd.commitIndex) = ci ∧
      (ci = nd.commitIndex ∨
        nd.commitIndex < ci ∧ ci ≤ G.length ∧ Chosen a (a.cur n) (G.take ci)) := by
    by_cases hlt : nd.commitIndex < args.leaderCommit
    · rw [if_pos hlt, min_eq_left hw.commit_le]
      exact ⟨_, rfl, Or.inr ⟨hlt, hw.commit_le, hw.commit⟩⟩
    · rw [if_neg hlt]
      exact ⟨_, rfl, Or.inl rfl⟩
  have hb : nd.log.firstIndex ≤ ci := by
    have := h.impl.first_le
    omega
  have hpending : ∀ msg, nd.pendingSnapshot = some msg → msg.index ≤ ci := fun msg hm => by
    have := h.impl.pending_le msg hm
    omega
  simp only [Option.bind_eq_bind, Option.bind_some, if_neg hconflict, hlast, hciEq]
  have happend := appendMissing_eq h.numbered
    ((h.good.lead_numbered _ c L hlead).prefix_closed hG) hmatch hw.first_le hprev hagree hw.entries
  rw [← h.log_eq] at happend
  rcases happend with ⟨heq, hp⟩ | ⟨heq, hnot⟩
  · have hF : Accepts (a.log n) G (a.log n) := Or.inl ⟨rfl, hp⟩
    have hi := h.implements_take hs hlead hG hF hb hci nd.snapshot hpending
    rw [← h.log_eq] at hi
    rw [heq]
    exact ⟨_, _, rfl, Outcome.unsaved h (Moves.one (Step.accept c L G _ hlead hG hF))
      (h.good.take hlead hG hF) hi rfl fun t ht => absurd ht (lt_irrefl _), hs,
      fun _ => a.le_take_acked n _ _⟩
  · have hF : Accepts (a.log n) G G := Or.inr ⟨rfl, hnot⟩
    have hi := h.implements_take hs hlead hG hF hb hci nd.snapshot hpending
    rw [heq]
    exact ⟨_, _, rfl, Outcome.saved h (Moves.one (Step.accept c L G _ hlead hG hF))
      (h.good.take hlead hG hF) hi rfl rfl, hs, fun _ => a.le_take_acked n _ _⟩

/-- Up to its boundary, a member's log is the leader's. -/
theorem At.boundary_prefix_lead (h : At M a n nd d) (hlead : a.lead (a.cur n) = some (c, L)) :
    (a.log n).take nd.log.firstIndex <+: L :=
  h.impl.persisted.chosen.prefix_lead h.good.inv (le_refl _) hlead

/-- **The shift of the window**: either all of the request is below the boundary and
held, or what is left of it is a window above the boundary. -/
theorem At.shiftWindow (h : At M a n nd d) (hlead : a.lead (a.cur n) = some (c, L)) (hG : G <+: L)
    {args : AppendEntriesArgs Blob} (hprev : args.prevLogIndex ≤ G.length)
    (hterm : args.prevLogTerm = termAt LogEntry.term G args.prevLogIndex)
    (hes : args.entries = G.drop args.prevLogIndex) (hlc : args.leaderCommit ≤ G.length)
    (hc : Chosen a (a.cur n) (G.take args.leaderCommit)) :
    (shiftWindow nd.log args = none ∧ G <+: a.log n) ∨
      ∃ args', shiftWindow nd.log args = some args' ∧ Window a n G nd.log.firstIndex args' := by
  have hbound := h.boundary_prefix_lead hlead
  have hlen : ((a.log n).take nd.log.firstIndex).length = nd.log.firstIndex :=
    List.length_take_of_le h.first_le
  have hesLen : args.entries.length = G.length - args.prevLogIndex := by
    rw [hes, List.length_drop]
  rw [Raft.shiftWindow]
  split
  · rename_i hbelow
    dsimp only
    split
    · rename_i hcut
      refine Or.inl ⟨rfl, ?_⟩
      exact (List.prefix_of_prefix_length_le hG hbound (by omega)).trans (List.take_prefix _ _)
    · rename_i hcut
      have hbG : (a.log n).take nd.log.firstIndex <+: G :=
        List.prefix_of_prefix_length_le hbound hG (by omega)
      have hb : nd.log.firstIndex ≤ G.length := by have := hbG.length_le; omega
      refine Or.inr ⟨_, rfl, le_refl _, hb, ?_, ?_, hlc, hc⟩
      · show nd.log.sentinel.term = termAt LogEntry.term G nd.log.firstIndex
        rw [← prefix_termAt_eq _ hbG (by omega), termAt_take _ _ (le_refl _)]
        conv_lhs => rw [h.log_eq]
        rfl
      · show args.entries.drop _ = G.drop nd.log.firstIndex
        rw [hes, List.drop_drop]
        congr 1
        omega
  · rename_i habove
    exact Or.inr ⟨args, rfl, by omega, hprev, hterm, hes, hlc, hc⟩

/-- **The follower's end of an `AppendEntries` request.** It never panics. -/
theorem At.handleAppendEntries (h : At M a n nd d) {args : AppendEntriesArgs Blob}
    (hreq : RequestOf a c (.appendEntries args)) :
    ∃ a' r, handleAppendEntries (M.config n) nd args = some r ∧ Outcome M a a' n nd r.1 d r.2.1 ∧
      KeepsPoll nd r.1 ∧ ReplyOf a' c n (.appendEntries args) (.appendEntries r.2.2) := by
  obtain ⟨L, G, hL, hG, hprev, hterm, hes, hlc, hchosen⟩ := hreq
  rw [Raft.handleAppendEntries]
  by_cases hstale : args.term < nd.currentTerm
  · rw [if_pos hstale]
    exact ⟨a, _, rfl, Outcome.quiet h h.impl rfl, fun hs => ⟨hs, rfl, rfl⟩, by simp [ReplyOf]⟩
  obtain ⟨nd₁, ws₁, heq, hobs, hfollower, hself, hlead⟩ :=
    h.hears (Nat.le_of_not_lt hstale) hL args.leaderID
  rw [if_neg hstale, heq]
  have h₁ : At M (a.reach n args.term) n nd₁ (d.write ws₁) := hobs.after
  have hne : nd₁.state ≠ .leader := by rw [hfollower]; decide
  have hsum : args.prevLogIndex + args.entries.length = G.length := by
    rw [hes, List.length_drop]
    omega
  have hwin := h₁.shiftWindow hlead hG hprev hterm hes hlc
    (by rw [hself]; exact hchosen.mono (hobs.moves.inv_le h.good.inv).2)
  rcases hwin with ⟨hnone, hp⟩ | ⟨args', hsome, hw⟩
  · -- everything in the request is applied state
    have hall := hobs.trans hne (h₁.acceptHeld hfollower hlead hG hp)
    rw [List.append_nil] at hall
    refine ⟨_, (nd₁, ws₁, { term := nd₁.currentTerm, success := true }), by simp only [hnone], hall,
      keepsPoll_of_ne (by simp [hfollower]), fun _ => ?_⟩
    have hack := (a.reach n args.term).le_take_acked n ((a.reach n args.term).log n) G.length
    rw [hself] at hack
    rw [hsum]
    exact hack
  · obtain ⟨a', r, hr, hout, hs, hack⟩ := h₁.appendShifted hfollower hlead hG hw
    refine ⟨a', (r.1, ws₁ ++ r.2.1, r.2.2), by simp [hsome, hr], hobs.trans hne hout,
      keepsPoll_of_ne (by simp [hs]), fun hsucc => ?_⟩
    rw [hsum, ← hself]
    exact hack hsucc

/-! ### The leader's end -/

/-- **The request a leader builds says what is in the ledger.** -/
theorem At.sendAppendEntries (h : At M a n nd d) {peer : NodeID} {args : AppendEntriesArgs Blob}
    (hargs : sendAppendEntries (M.config n) nd peer = some args) :
    RequestOf a n (.appendEntries args) := by
  obtain ⟨hs, i, t, es, -, -, ht, hes, rfl⟩ := sendAppendEntries_eq hargs
  obtain ⟨hlo, hhi, hterm⟩ := h.termAt_eq_some.mp ht
  rw [h.log_eq] at hes
  have hdrop := compact_sliceFrom hes hlo
  refine ⟨a.log n, a.log n, ?_, List.prefix_refl _, hhi, hterm.symm, hdrop, h.impl.commit_le, ?_⟩
  · show a.lead nd.currentTerm = some (n, a.log n)
    rw [h.term_eq]
    exact h.impl.leader hs
  · show Chosen a nd.currentTerm _
    rw [h.term_eq]
    exact h.impl.commit_chosen

omit [Inhabited Blob] in
theorem matchCount_eq (hn : n ∈ M.ids) (nd : Node Blob) (idx : ℕ) :
    matchCount (M.config n) nd idx =
      (M.ids.toFinset.filter fun p => idx ≤ nd.matchIndex p).card := by
  have hself : n ∉ (M.config n).peers := fun hmem => ((M.mem_peers n hn n).mp hmem).2 rfl
  have hperm : (M.config n).members.Perm M.ids := by
    rw [Config.members, M.config_id n hn, List.insert_of_not_mem hself]
    exact Membership.perm hn
  rw [matchCount, hperm.countP_eq, List.countP_eq_length_filter,
    ← List.toFinset_card_of_nodup (M.nodup.filter _), List.toFinset_filter]
  simp only [decide_eq_true_eq]

/-- **The index a leader commits** is replicated on a majority, and the entry there is of
its own term. -/
theorem At.advanceCommitFrom (h : At M a n nd d) {idx : ℕ} (hidx : idx ≤ (a.log n).length) :
    ∃ ci, advanceCommitFrom (M.config n) nd idx = some ci ∧ (ci = nd.commitIndex ∨
      nd.commitIndex < ci ∧ ci ≤ (a.log n).length ∧ termAt LogEntry.term (a.log n) ci = a.cur n ∧
        (M.config n).majority ≤ matchCount (M.config n) nd ci) := by
  induction idx with
  | zero => exact ⟨_, rfl, Or.inl rfl⟩
  | succ idx ih =>
    rw [Raft.advanceCommitFrom]
    split
    · rename_i hrange
      rw [h.termAt_some (le_of_lt hrange.2) hidx]
      simp only [Option.bind_eq_bind, Option.bind_some]
      split
      · exact ⟨_, rfl, Or.inl rfl⟩
      rename_i hterm
      split
      · rename_i hmaj
        refine ⟨_, rfl, Or.inr ⟨hrange.1, hidx, ?_, hmaj⟩⟩
        rw [← h.term_eq]
        exact not_not.mp hterm
      · exact ih (by omega)
    · exact ⟨_, rfl, Or.inl rfl⟩

/-- **A leader moves its commit index**, and decides. -/
theorem At.advanceCommit (h : At M a n nd d) (hs : nd.state = .leader) :
    ∃ a' nd', advanceCommitLocked (M.config n) nd = some nd' ∧ Outcome M a a' n nd nd' d [] ∧
      nd'.state = .leader := by
  obtain ⟨ci, hci, hcases⟩ := h.advanceCommitFrom (le_of_eq h.lastIndex_eq)
  have heq : advanceCommitLocked (M.config n) nd = some { nd with commitIndex := ci } := by
    rw [advanceCommitLocked, hci]
    rfl
  rcases hcases with rfl | ⟨hlt, hle, hterm, hmaj⟩
  · exact ⟨a, _, heq, Outcome.quiet h h.impl rfl, hs⟩
  obtain ⟨k, rfl⟩ : ∃ k, ci = k + 1 := ⟨ci - 1, by omega⟩
  obtain ⟨e, he⟩ : ∃ e, (a.log n)[k]? = some e := ⟨_, List.getElem?_eq_getElem (by omega)⟩
  rw [termAt_of_getElem? _ he] at hterm
  have hlead := h.impl.leader hs
  rw [matchCount_eq h.mem, Membership.majority_eq h.mem] at hmaj
  have hstep : Step M.rules n a (a.settle n (k + 1)) :=
    Step.decide (a.log n) k e _ hlead he hterm ⟨Finset.filter_subset _ _, hmaj⟩ fun v hv => by
      obtain ⟨hv, hk⟩ := Finset.mem_filter.mp hv
      exact le_trans hk (h.impl.matched hs v (List.mem_toFinset.mp hv))
  have hmono := hstep.le h.good.inv
  have hchosen : Chosen (a.settle n (k + 1)) (a.cur n) ((a.log n).take (k + 1)) := by
    refine Or.inr ⟨a.cur n, n, a.log n, le_refl _, hlead, ?_⟩
    simp only [Function.update_self]
    exact List.take_prefix_take_left (le_max_right _ _)
  have hi : Implements M (a.settle n (k + 1)) n { nd with commitIndex := k + 1 } :=
    { persisted :=
        { h.impl.persisted with chosen := h.impl.persisted.chosen.mono hmono }
      first_le := le_trans h.impl.first_le (le_of_lt hlt)
      commit_le := hle
      commit_chosen := hchosen
      applied_le := le_trans h.impl.applied_le (le_of_lt hlt)
      pending_le := fun msg hm => le_trans (h.impl.pending_le msg hm) (le_of_lt hlt)
      candidate := h.impl.candidate
      leader := h.impl.leader
      matched := h.impl.matched
      taken := fun e he =>
        ⟨(h.impl.taken e he).1.mono hmono, le_trans (h.impl.taken e he).2 (le_of_lt hlt)⟩
      sent := fun command index term hm => (h.impl.sent command index term hm).mono hmono }
  have hg : Good M (a.settle n (k + 1)) :=
    ⟨h.good.inv.step hstep, h.good.log_numbered, h.good.lead_numbered⟩
  refine ⟨_, _, heq, Outcome.unsaved h (Moves.one hstep) hg hi rfl fun t ht => ?_, hs⟩
  rcases eq_or_ne t (a.cur n) with rfl | hne
  · refine ⟨hs, hs, h.term_eq, h.term_eq, rfl, ?_⟩
    simp only [Function.update_self]
    exact le_refl _
  · simp only [Function.update_of_ne hne] at ht
    exact absurd ht (lt_irrefl _)

/-- A leader that has learnt how far a peer has come. -/
theorem At.learn (h : At M a n nd d) {peer : NodeID} {k : ℕ}
    (hk : k ≤ a.acked peer (a.cur n)) : At M a n (nd.learn peer k) d where
  mem := h.mem
  good := h.good
  synced := h.synced
  impl := { h.impl with
    matched := fun hs p hp => by
      have hle := h.impl.matched hs p hp
      rcases eq_or_ne p peer with rfl | hne
      · simp only [Node.learn, Function.update_self]
        exact max_le hle hk
      · simp only [Node.learn, Function.update_of_ne hne]
        exact hle }

/-- **The reply to an `AppendEntries` request.** -/
theorem At.onAppendEntriesReply (h : At M a n nd d) {peer : NodeID} {args : AppendEntriesArgs Blob}
    {reply : AppendEntriesReply}
    (hreply : ReplyOf a n peer (.appendEntries args) (.appendEntries reply))
    {r : Node Blob × List (Write Blob)}
    (hr : onAppendEntriesReply (M.config n) nd peer args reply = some r) :
    ∃ a', Outcome M a a' n nd r.1 d r.2 ∧ KeepsPoll nd r.1 := by
  obtain ⟨hlt, rfl⟩ | ⟨-, rfl⟩ | ⟨⟨hs, hterm⟩, ⟨hsucc, ci, hci, rfl⟩ | ⟨-, next, -, rfl⟩⟩ :=
    onAppendEntriesReply_cases hr
  · exact ⟨_, h.becomeFollower (le_of_lt hlt), keepsPoll_becomeFollower nd _⟩
  · exact ⟨a, Outcome.quiet h h.impl rfl, fun hs => ⟨hs, rfl, rfl⟩⟩
  · have hack : args.prevLogIndex + args.entries.length ≤ a.acked peer (a.cur n) := by
      rw [← h.term_eq, ← hterm]
      exact hreply hsucc
    obtain ⟨a', nd', heq, hout, hs'⟩ := (h.learn hack).advanceCommit hs
    obtain ⟨ci', hci', heq⟩ := Option.bind_eq_some_iff.mp heq
    obtain rfl := Option.some.inj (hci.symm.trans hci')
    cases heq
    refine ⟨a', { hout with decided := fun t ht => ?_ },
      keepsPoll_of_ne fun hc => by cases hs'.symm.trans hc⟩
    have hadv := hout.decided t ht
    exact ⟨hs, hadv.state', hadv.term, hadv.term', hadv.log, hadv.le⟩
  · exact ⟨a, Outcome.quiet h { h.impl with } rfl, fun hs => ⟨hs, rfl, rfl⟩⟩

/-! ### The applier -/

/-- **The entries the applier takes are decided.** -/
theorem At.entriesFrom (h : At M a n nd d) {start count : ℕ} {es : List (LogEntry Blob)}
    (hlo : nd.log.firstIndex < start) (hhi : start + count ≤ nd.commitIndex + 1)
    (hes : entriesFrom nd.log start count = some es) :
    ∀ e ∈ es, Decided a e ∧ e.index ≤ nd.commitIndex := by
  induction count generalizing start es with
  | zero =>
    cases hes
    simp
  | succ count ih =>
    simp only [Raft.entriesFrom, Option.bind_eq_bind, Option.bind_eq_some_iff] at hes
    obtain ⟨e, he, es', hes', hes⟩ := hes
    cases hes
    obtain ⟨i, rfl⟩ : ∃ i, start = i + 1 := ⟨start - 1, by omega⟩
    rw [h.log_eq, compact_entryAt (by omega)] at he
    have hidx : e.index = i + 1 := h.numbered i e he
    rintro e' (_ | ⟨_, he'⟩)
    · refine ⟨⟨by omega, a.cur n, _, h.impl.commit_chosen, ?_⟩, by omega⟩
      rw [hidx, Nat.add_sub_cancel, List.getElem?_take_of_lt (by omega)]
      exact he
    · exact ih (by omega) (by omega) hes' e' he'

/-- The ledger does not notice that the applier takes a batch. -/
theorem At.applierTake (h : At M a n nd d) (hr : applierTake nd = some nd') :
    Outcome M a a n nd nd' d [] ∧ KeepsPoll nd nd' := by
  rw [Raft.applierTake] at hr
  split at hr
  · split at hr
    · rename_i snap hsnap
      cases hr
      refine ⟨Outcome.quiet h ?_ rfl, fun hs => ⟨hs, rfl, rfl⟩⟩
      exact { h.impl with
        applied_le := max_le h.impl.applied_le (h.impl.pending_le snap hsnap)
        pending_le := fun msg hm => absurd hm (by simp)
        taken := fun e he => absurd he (by simp [Applier.entries]) }
    · split at hr
      · cases hr
      rename_i hlt
      simp only [Option.bind_eq_bind, Option.bind_eq_some_iff] at hr
      obtain ⟨batch, hbatch, hr⟩ := hr
      cases hr
      refine ⟨Outcome.quiet h ?_ rfl, fun hs => ⟨hs, rfl, rfl⟩⟩
      have := h.impl.first_le
      have hstart : nd.log.firstIndex < (if nd.lastApplied + 1 ≤ nd.log.firstIndex then
          nd.log.firstIndex + 1 else nd.lastApplied + 1) := by
        split <;> omega
      refine { h.impl with taken := h.entriesFrom hstart ?_ hbatch }
      split <;> omega
  · cases hr

/-- Nor that it sends a message. -/
theorem At.applierSend (h : At M a n nd d) (hr : applierSend nd = some nd') :
    Outcome M a a n nd nd' d [] ∧ KeepsPoll nd nd' := by
  have htaken := h.impl.taken
  rw [Raft.applierSend] at hr
  split at hr
  · rename_i msg happ
    cases hr
    refine ⟨Outcome.quiet h { h.impl with taken := fun e he => ?_, sent := ?_ } rfl,
      fun hs => ⟨hs, rfl, rfl⟩⟩
    · exact absurd he (by simp [Applier.entries])
    · intro command index term hm
      exact h.impl.sent command index term (by simpa using hm)
  · cases hr
    refine ⟨Outcome.quiet h { h.impl with taken := fun e he => ?_ } rfl, fun hs => ⟨hs, rfl, rfl⟩⟩
    exact absurd he (by simp [Applier.entries])
  · rename_i e es happ
    cases hr
    rw [happ] at htaken
    refine ⟨Outcome.quiet h { h.impl with taken := htaken, sent := ?_ } rfl,
      fun hs => ⟨hs, rfl, rfl⟩⟩
    intro command index term hm
    rcases List.mem_append.mp hm with hm | hm
    · exact h.impl.sent command index term hm
    · obtain ⟨rfl, rfl, rfl⟩ : command = e.command ∧ index = e.index ∧ term = e.term := by
        simpa using hm
      exact (htaken e (by simp [Applier.entries])).1
  · cases hr

/-- Nor that it counts its batch as applied. -/
theorem At.applierAdvance (h : At M a n nd d) (hr : applierAdvance nd = some nd') :
    Outcome M a a n nd nd' d [] ∧ KeepsPoll nd nd' := by
  have htaken := h.impl.taken
  rw [Raft.applierAdvance] at hr
  split at hr
  · rename_i e es happ
    cases hr
    rw [happ] at htaken
    refine ⟨Outcome.quiet h ?_ rfl, fun hs => ⟨hs, rfl, rfl⟩⟩
    exact { h.impl with
      applied_le := max_le h.impl.applied_le (htaken e (by simp [Applier.entries])).2
      taken := fun e' he' => htaken e' (by simp [Applier.entries] at he' ⊢; exact Or.inr he') }
  · cases hr

end Raft

end DistQueue
