import DistQueue.Raft.Simulation.Replication

/-!
# Snapshots move the ledger

Compacting its own log leaves a member's part of the ledger as it is: only the
boundary moves. Installing a snapshot of the leader is accepting the prefix of the
leader's log that the snapshot covers, and so is ignoring one that covers nothing new;
that is why the leader may raise its `matchIndex` on a reply that does not tell the two
apart.
-/

namespace DistQueue

namespace Raft

open Consensus

variable {Blob : Type} [Inhabited Blob] {M : Membership} {a a' : Ledger NodeID (LogEntry Blob)}
  {n c : NodeID} {nd nd' : Node Blob} {d : Disk Blob} {L : List (LogEntry Blob)}

theorem At.sliceFrom_some (h : At M a n nd d) {i : ℕ} (hlo : nd.log.firstIndex ≤ i)
    (hhi : i ≤ (a.log n).length) : nd.log.sliceFrom (i + 1) = some ((a.log n).drop i) := by
  have hsome : ∃ es, nd.log.sliceFrom (i + 1) = some es := by
    rw [h.log_eq, Log.sliceFrom, compact_firstIndex, compact_toList_length, if_neg (by omega)]
    exact ⟨_, rfl⟩
  obtain ⟨es, hes⟩ := hsome
  rw [hes]
  rw [h.log_eq] at hes
  rw [compact_sliceFrom hes hlo]

/-- **A node compacts its log.** -/
theorem At.snapshot (h : At M a n nd d) (index : ℕ) (data : Blob) :
    ∃ r, snapshot (M.config n) nd index data = some r ∧ Outcome M a a n nd r.1 d r.2 ∧
      KeepsPoll nd r.1 := by
  rw [Raft.snapshot]
  split
  · exact ⟨_, rfl, Outcome.quiet h h.impl rfl, fun hs => ⟨hs, rfl, rfl⟩⟩
  rename_i hcond
  obtain ⟨hlo, hhi⟩ := not_or.mp hcond
  have hci : index ≤ nd.commitIndex := by have := h.impl.applied_le; omega
  have hlen : index ≤ (a.log n).length := le_trans hci h.impl.commit_le
  have hterm := h.termAt_some (le_of_lt (not_le.mp hlo)) hlen
  have htail := h.sliceFrom_some (le_of_lt (not_le.mp hlo)) hlen
  have hchosen : Chosen a (a.cur n) ((a.log n).take index) :=
    h.impl.commit_chosen.prefix_closed (List.take_prefix_take_left hci)
  have hp : Persisted a n ⟨nd.currentTerm, nd.votedFor, compact (a.log n) index⟩ :=
    { term := h.impl.persisted.term
      vote := h.impl.persisted.vote
      le := hlen
      log := rfl
      chosen := hchosen }
  rw [hterm, htail]
  refine ⟨_, rfl, Outcome.savedWithSnapshot h (Moves.refl a) h.good ?_ rfl rfl,
    fun hs => ⟨hs, rfl, rfl⟩⟩
  exact { h.impl with persisted := hp, first_le := hci }

/-- **The snapshot a leader ships covers what is decided.** -/
theorem At.sendInstallSnapshot (h : At M a n nd d) {args : InstallSnapshotArgs Blob}
    (hargs : sendInstallSnapshot (M.config n) nd = some args) :
    RequestOf a n (.installSnapshot args) := by
  obtain ⟨hs, data, -, rfl⟩ := sendInstallSnapshot_eq hargs
  have hsent : nd.log.sentinel.term = termAt LogEntry.term (a.log n) nd.log.firstIndex := by
    conv_lhs => rw [h.log_eq]
    rfl
  refine ⟨a.log n, ?_, h.first_le, hsent, ?_⟩
  · show a.lead nd.currentTerm = some (n, a.log n)
    rw [h.term_eq]
    exact h.impl.leader hs
  · show Chosen a nd.currentTerm _
    rw [h.term_eq]
    exact h.impl.persisted.chosen

/-- **What a follower keeps of its log** behind a snapshot of the leader's. -/
theorem At.keptTail (h : At M a n nd d) (hlead : a.lead (a.cur n) = some (c, L)) {i : ℕ}
    (hlo : nd.log.firstIndex ≤ i) (hi : i ≤ L.length) :
    ∃ tail F', keptTail nd.log i (termAt LogEntry.term L i) = some tail ∧
      sentinelLog i (termAt LogEntry.term L i) tail = compact F' i ∧
      Accepts (a.log n) (L.take i) F' := by
  rw [Raft.keptTail, h.lastIndex_eq]
  by_cases hlen : i ≤ (a.log n).length
  · rw [if_pos hlen, h.termAt_some hlo hlen]
    simp only [Option.bind_eq_bind, Option.bind_some]
    by_cases hterm : termAt LogEntry.term (a.log n) i = termAt LogEntry.term L i
    · -- the boundary entry matches, and so does everything below it
      have htake : (a.log n).take i = L.take i :=
        (h.good.inv.log_sound n).take_eq (h.good.inv.lead_sound hlead) hlen hi hterm
      rw [if_pos hterm, h.sliceFrom_some hlo hlen]
      refine ⟨_, a.log n, rfl, ?_, Or.inl ⟨rfl, htake ▸ List.take_prefix _ _⟩⟩
      rw [← hterm]
      rfl
    · rw [if_neg hterm]
      refine ⟨_, L.take i, rfl, ?_, Or.inr ⟨rfl, fun hp => hterm ?_⟩⟩
      · rw [compact, termAt_take _ _ (le_refl _), List.drop_of_length_le (by simp)]
        rfl
      · rw [← prefix_termAt_eq _ hp (by rw [List.length_take]; omega), termAt_take _ _ (le_refl _)]
  · rw [if_neg hlen]
    refine ⟨_, L.take i, rfl, ?_, Or.inr ⟨rfl, fun hp => hlen ?_⟩⟩
    · rw [compact, termAt_take _ _ (le_refl _), List.drop_of_length_le (by simp)]
      rfl
    · have := hp.length_le
      rw [List.length_take] at this
      omega

/-- A snapshot that reaches past the commit index is installed. -/
theorem At.installSnapshot (h : At M a n nd d) (hs : nd.state = .follower)
    (hlead : a.lead (a.cur n) = some (c, L)) {args : InstallSnapshotArgs Blob}
    (hi : args.lastIncludedIndex ≤ L.length)
    (hterm : args.lastIncludedTerm = termAt LogEntry.term L args.lastIncludedIndex)
    (hc : Chosen a (a.cur n) (L.take args.lastIncludedIndex))
    (hnew : nd.commitIndex < args.lastIncludedIndex) :
    ∃ a' r, installSnapshot (M.config n) nd args = some r ∧ Outcome M a a' n nd r.1 d r.2 ∧
      r.1.state = .follower ∧ args.lastIncludedIndex ≤ a'.acked n (a.cur n) := by
  have hlo : nd.log.firstIndex ≤ args.lastIncludedIndex := by have := h.impl.first_le; omega
  obtain ⟨tail, F', htail, hlog, hF⟩ := h.keptTail hlead hlo hi
  have hlen : (L.take args.lastIncludedIndex).length = args.lastIncludedIndex :=
    List.length_take_of_le hi
  rw [← hterm] at htail hlog
  have himpl := h.implements_take hs hlead (List.take_prefix _ L) hF
    (le_refl args.lastIncludedIndex) (Or.inr ⟨hnew, le_of_eq hlen.symm, by
      rw [List.take_take, min_self]
      exact hc⟩) (some args.data)
    (fun msg (hm : some (⟨args.data, args.lastIncludedIndex, args.lastIncludedTerm⟩ :
      SnapshotMsg Blob) = some msg) => by rw [← Option.some.inj hm])
  rw [Raft.installSnapshot, htail]
  refine ⟨_, _, rfl, Outcome.savedWithSnapshot h
    (Moves.one (Step.accept c L _ F' hlead (List.take_prefix _ L) hF))
    (h.good.take hlead (List.take_prefix _ L) hF) ?_ rfl rfl, hs, ?_⟩
  · simp only [hlog]
    exact himpl
  · have := a.le_take_acked n F' (L.take args.lastIncludedIndex).length
    omega

/-- **The follower's end of an `InstallSnapshot` request.** It never panics. -/
theorem At.handleInstallSnapshot (h : At M a n nd d) {args : InstallSnapshotArgs Blob}
    (hreq : RequestOf a c (.installSnapshot args)) :
    ∃ a' r, handleInstallSnapshot (M.config n) nd args = some r ∧
      Outcome M a a' n nd r.1 d r.2.1 ∧ KeepsPoll nd r.1 ∧
      ReplyOf a' c n (.installSnapshot args) (.installSnapshot r.2.2) := by
  obtain ⟨L, hL, hi, hterm, hchosen⟩ := hreq
  rw [Raft.handleInstallSnapshot]
  by_cases hstale : args.term < nd.currentTerm
  · rw [if_pos hstale]
    refine ⟨a, _, rfl, Outcome.quiet h h.impl rfl, fun hs => ⟨hs, rfl, rfl⟩, fun hle => ?_⟩
    have : nd.currentTerm ≤ args.term := hle
    omega
  obtain ⟨nd₁, ws₁, heq, hobs, hfollower, hself, hlead⟩ :=
    h.hears (Nat.le_of_not_lt hstale) hL args.leaderID
  rw [if_neg hstale, heq]
  have h₁ : At M (a.reach n args.term) n nd₁ (d.write ws₁) := hobs.after
  have hne : nd₁.state ≠ .leader := by rw [hfollower]; decide
  have hc : Chosen (a.reach n args.term) ((a.reach n args.term).cur n)
      (L.take args.lastIncludedIndex) := by
    rw [hself]
    exact hchosen.mono (hobs.moves.inv_le h.good.inv).2
  by_cases hold : args.lastIncludedIndex ≤ nd₁.commitIndex
  · -- ignored: the prefix is committed here, and so it is the leader's
    have hlen : (L.take args.lastIncludedIndex).length = args.lastIncludedIndex :=
      List.length_take_of_le hi
    have hp : L.take args.lastIncludedIndex <+: (a.reach n args.term).log n := by
      have hcommit := h₁.impl.commit_chosen.prefix_lead h₁.good.inv (le_refl _) hlead
      refine (List.prefix_of_prefix_length_le (List.take_prefix _ L) hcommit ?_).trans
        (List.take_prefix _ _)
      rw [hlen, List.length_take]
      exact le_min hold (le_trans hold h₁.impl.commit_le)
    have hall := hobs.trans hne (h₁.acceptHeld hfollower hlead (List.take_prefix _ L) hp)
    rw [List.append_nil] at hall
    refine ⟨_, (nd₁, ws₁, ⟨nd₁.currentTerm⟩), by simp only [if_pos hold], hall,
      keepsPoll_of_ne (by simp [hfollower]), fun _ => ?_⟩
    have hack := (a.reach n args.term).le_take_acked n ((a.reach n args.term).log n)
      (L.take args.lastIncludedIndex).length
    rw [hself] at hack
    omega
  · obtain ⟨a', r, hr, hout, hs, hack⟩ := h₁.installSnapshot hfollower hlead hi hterm hc (by omega)
    rw [hself] at hack
    exact ⟨a', (r.1, ws₁ ++ r.2, ⟨r.1.currentTerm⟩), by simp [if_neg hold, hr],
      hobs.trans hne hout, keepsPoll_of_ne (by simp [hs]), fun _ => hack⟩

/-- **The reply to an `InstallSnapshot` request.** -/
theorem At.onInstallSnapshotReply (h : At M a n nd d) {peer : NodeID}
    {args : InstallSnapshotArgs Blob} {reply : InstallSnapshotReply}
    (hreply : ReplyOf a n peer (.installSnapshot args) (.installSnapshot reply)) :
    ∃ a', Outcome M a a' n nd (onInstallSnapshotReply (M.config n) nd peer args reply).1 d
        (onInstallSnapshotReply (M.config n) nd peer args reply).2 ∧
      KeepsPoll nd (onInstallSnapshotReply (M.config n) nd peer args reply).1 := by
  rcases onInstallSnapshotReply_cases (M.config n) nd peer args reply with
    ⟨hlt, heq⟩ | ⟨-, heq⟩ | ⟨⟨-, hterm, hle⟩, heq⟩ <;> rw [heq]
  · exact ⟨_, h.becomeFollower (le_of_lt hlt), keepsPoll_becomeFollower nd _⟩
  · exact ⟨a, Outcome.quiet h h.impl rfl, fun hs => ⟨hs, rfl, rfl⟩⟩
  · have hack : args.lastIncludedIndex ≤ a.acked peer (a.cur n) := by
      rw [← h.term_eq, ← hterm]
      exact hreply (hle.trans_eq hterm.symm)
    exact ⟨a, Outcome.quiet h (h.learn hack).impl rfl, fun hs => ⟨hs, rfl, rfl⟩⟩

end Raft

end DistQueue
