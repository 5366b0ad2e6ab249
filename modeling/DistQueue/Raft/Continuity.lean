import DistQueue.Raft.Stability

/-!
# What outlives a crash

Three promises that the members of a cluster make to each other, and that a crash must not
undo.

A **leader** appends. Its log is the log of its term, and the ledger only lets the log of a
term grow; a leader that crashes comes back as a follower of the same term with the same log,
and as long as it stays in the term nobody else's log can replace it
(`DistQueue.Raft.leader_append_only`).

A **voter** keeps its word. A vote that a candidate was told of is on the voter's disk, so
that no crash makes room for a second one (`DistQueue.Raft.one_vote_per_term`).

A **majority** keeps what is committed. In every state, whatever any node takes for committed
is in the logs and in the files of a majority of the members
(`DistQueue.Raft.committed_on_majority`); the members that accepted it may be in later terms by
now, and have replaced parts of their logs since.
-/

namespace DistQueue

namespace Raft

open Consensus

variable {Blob : Type} [Inhabited Blob] [DecidableEq Blob] {M : Membership}
  {xs ys : List (Action Blob)} {u w : World Blob} {n c c' : NodeID} {t : ℕ}

/-- The ledgers of two moments of a run. -/
theorem exists_ledgers (hu : run M xs = some u) (hw : Run.exec (step M) u ys = some w) :
    ∃ a b : Ledger NodeID (LogEntry Blob), Sim M u a ∧ Sim M w b ∧ Le a b := by
  have hrun : run M (xs ++ ys) = some w := by
    rw [run, Run.exec_append]
    exact Option.bind_eq_some_iff.mpr ⟨u, hu, hw⟩
  obtain ⟨b, hb⟩ := exists_traced hrun
  obtain ⟨a, ha, hle⟩ := hb.visited xs u (List.prefix_append xs ys) hu
  exact ⟨a, b, ha, hb.sim, hle⟩

/-! ### Leaders append -/

omit [DecidableEq Blob] in
/-- A member that has led the term it is in still holds the log of that term, and the log it
had as the leader is a beginning of it. -/
theorem Sim.prefix_of_led {a b : Ledger NodeID (LogEntry Blob)} (ha : Sim M u a) (hb : Sim M w b)
    (hle : Le a b) (hn : n ∈ M.ids) (hs : (u.nodes n).state = .leader)
    (hterm : (w.nodes n).currentTerm = (u.nodes n).currentTerm) :
    a.log n <+: b.log n ∧ b.lead (b.cur n) = some (n, b.log n) := by
  have hcur : a.cur n = b.cur n := by
    rw [← (ha.node n hn).term_eq, ← (hb.node n hn).term_eq, hterm]
  obtain ⟨L, hL, hp⟩ := hle.lead _ _ _ ((ha.node n hn).impl.leader hs)
  rw [hcur] at hL
  rw [hb.good.inv.lead_log n L hL]
  exact ⟨hp, hL⟩

/-- **Leaders append only.** From a state in which `n` is the leader, whatever happens next –
crashes of `n` included – as long as `n` is in the same term: its log has not become shorter,
every entry it held is there or compacted away, and every entry that has been added is of this
term. -/
theorem leader_append_only (hu : run M xs = some u) (hw : Run.exec (step M) u ys = some w)
    (hn : n ∈ M.ids) (hs : (u.nodes n).state = .leader)
    (hterm : (w.nodes n).currentTerm = (u.nodes n).currentTerm) :
    (u.nodes n).log.lastIndex ≤ (w.nodes n).log.lastIndex ∧
    (∀ i e, (u.nodes n).log.firstIndex < i → (u.nodes n).log.entryAt i = some e →
      i ≤ (w.nodes n).log.firstIndex ∨ (w.nodes n).log.entryAt i = some e) ∧
    ∀ i e, (u.nodes n).log.lastIndex < i → (w.nodes n).log.firstIndex < i →
      (w.nodes n).log.entryAt i = some e → e.term = (u.nodes n).currentTerm := by
  obtain ⟨a, b, ha, hb, hle⟩ := exists_ledgers hu hw
  obtain ⟨hp, hlead⟩ := ha.prefix_of_led hb hle hn hs hterm
  have hat := ha.node n hn
  have hat' := hb.node n hn
  refine ⟨?_, fun i e hlo he => ?_, fun i e hold hlo he => ?_⟩
  · rw [hat.lastIndex_eq, hat'.lastIndex_eq]
    exact hp.length_le
  · rcases Nat.lt_or_ge (w.nodes n).log.firstIndex i with hlt | hge
    · right
      rw [ha.entryAt_eq hn hlo] at he
      rw [hb.entryAt_eq hn hlt]
      exact prefix_getElem?_some hp he
    · exact .inl hge
  · -- what a leader's log has beyond the log it stood with is of its term
    rw [hb.entryAt_eq hn hlo] at he
    rw [hat.lastIndex_eq] at hold
    obtain ⟨B, hB, -, hBlen, -⟩ := ha.good.inv.lead_base _ _ _ (hat.impl.leader hs)
    obtain ⟨B', hB', -, -, hown⟩ := hb.good.inv.lead_base _ _ _ hlead
    have hcur : a.cur n = b.cur n := by rw [← hat.term_eq, ← hat'.term_eq, hterm]
    have hBB' : B = B' := by
      have := hle.stand _ _ _ hB
      rw [hcur, hB'] at this
      exact (Option.some.inj this).symm
    subst hBB'
    rw [← hterm, hat'.term_eq]
    exact hown (i - 1) e (by omega) he

/-- `a` leads, applies and compacts its log while a request is under way, and crashes. -/
theorem leader_append_only_compacted :
    ∃ u w, run threeNodes replicated = some u ∧
      Run.exec (step threeNodes) u (compacted ++ [.crash "a"]) = some w ∧
      (w.nodes "a").log.firstIndex = 1 ∧ (u.nodes "a").log.lastIndex ≤ (w.nodes "a").log.lastIndex ∧
      (∀ i e, (u.nodes "a").log.firstIndex < i → (u.nodes "a").log.entryAt i = some e →
        i ≤ (w.nodes "a").log.firstIndex ∨ (w.nodes "a").log.entryAt i = some e) ∧
      ∀ i e, (u.nodes "a").log.lastIndex < i → (w.nodes "a").log.firstIndex < i →
        (w.nodes "a").log.entryAt i = some e → e.term = (u.nodes "a").currentTerm := by
  have hend : ((run threeNodes replicated).bind fun u =>
      (Run.exec (step threeNodes) u (compacted ++ [.crash "a"])).map fun w =>
        ((u.nodes "a").state, (u.nodes "a").currentTerm, (w.nodes "a").currentTerm,
          (w.nodes "a").log.firstIndex)) = some (.leader, 1, 1, 1) := by
    decide +kernel
  obtain ⟨u, hu, hend⟩ := Option.bind_eq_some_iff.mp hend
  obtain ⟨w, hw, hend⟩ := Option.map_eq_some_iff.mp hend
  simp only [Prod.mk.injEq] at hend
  obtain ⟨hs, ht, ht', hfirst⟩ := hend
  exact ⟨u, w, hu, hw, hfirst,
    leader_append_only hu hw (by decide) hs (ht'.trans ht.symm)⟩

/-! ### Voters keep their word -/

/-- **`n` has told `c` that it votes for it in term `t`**: such a reply is on its way, or has
arrived. -/
def Granted (w : World Blob) (n c : NodeID) (t : ℕ) : Prop :=
  ∃ k call args reply, (k, .requestVote reply) ∈ w.replies ∧ reply.voteGranted = true ∧
    w.calls[k]? = some call ∧ call.caller = c ∧ call.callee = n ∧
    call.request = .requestVote args ∧ args.term = t

omit [DecidableEq Blob] in
/-- The ledger has the vote. -/
theorem Sim.vote_of_granted {a : Ledger NodeID (LogEntry Blob)} (h : Sim M w a)
    (hg : Granted w n c t) : a.vote n t = some c ∧ c ≠ "" := by
  obtain ⟨k, call, args, reply, hr, hgrant, hk, rfl, rfl, hreq, rfl⟩ := hg
  obtain ⟨call', hk', hreply⟩ := h.reply k _ hr
  obtain rfl := Option.some.inj (hk.symm.trans hk')
  rw [hreq] at hreply
  exact ⟨hreply hgrant, M.ne_empty _ (h.call call (List.mem_of_getElem? hk)).caller⟩

/-- **One vote per term.** Terms do not go back. Once `n` has told `c` that it votes for it in
term `t`, then at any later time, after any number of crashes: `n` is in term `t` or a later one,
it still has its vote for `c` if it is in `t`, and whoever else it has told the same for term `t`
is `c`. -/
theorem one_vote_per_term (hu : run M xs = some u) (hw : Run.exec (step M) u ys = some w)
    (hn : n ∈ M.ids) :
    (u.nodes n).currentTerm ≤ (w.nodes n).currentTerm ∧
    ∀ c t, Granted u n c t → t ≤ (w.nodes n).currentTerm ∧
      ((w.nodes n).currentTerm = t → (w.nodes n).votedFor = c) ∧
      ∀ c', Granted w n c' t → c' = c := by
  obtain ⟨a, b, ha, hb, hle⟩ := exists_ledgers hu hw
  have hat := hb.node n hn
  refine ⟨?_, fun c t hg => ?_⟩
  · rw [(ha.node n hn).term_eq, hat.term_eq]
    exact hle.cur n
  · obtain ⟨hvote, hc⟩ := ha.vote_of_granted hg
    have hvote' := hle.vote _ _ _ hvote
    refine ⟨?_, fun hterm => ?_, fun c' hg' => ?_⟩
    · rw [hat.term_eq]
      exact hb.good.inv.vote_cur n t c hvote'
    · have hsaved : voteOf (w.nodes n).votedFor = some c := by
        rw [show voteOf (w.nodes n).votedFor = b.vote n (b.cur n) from hat.impl.persisted.vote,
          ← hat.term_eq, hterm, hvote']
      unfold voteOf at hsaved
      split at hsaved
      · cases hsaved
      · exact Option.some.inj hsaved
    · have hboth := (hb.vote_of_granted hg').1
      exact Option.some.inj (hboth.symm.trans hvote')

deriving instance DecidableEq for Request, Reply

/-- `b` votes for `a`, crashes, and is asked by `c` for its vote in the same term. -/
def askedTwice : List (Action ℕ) :=
  [.crash "b", .run (.trigger "c" .electionTimeout), .run (.deliver 3), .run (.deliver 0)]

theorem one_vote_per_term_askedTwice :
    ∃ u w, run threeNodes (electionOf "a" 0 0) = some u ∧
      Run.exec (step threeNodes) u askedTwice = some w ∧ Granted u "b" "a" 1 ∧
      w.replies.map Prod.snd = [.requestVote ⟨1, true⟩, .requestVote ⟨1, false⟩,
        .requestVote ⟨1, true⟩] ∧
      (w.nodes "b").votedFor = "a" ∧ ∀ c, Granted w "b" c 1 → c = "a" := by
  have hu : (run threeNodes (electionOf "a" 0 0 : List (Action ℕ))).map (fun u =>
      (u.replies[0]?, u.calls[0]?.map fun c => (c.caller, c.callee, c.request))) =
      some (some (0, .requestVote ⟨1, true⟩), some ("a", "b", .requestVote ⟨1, "a", 0, 0⟩)) := by
    decide +kernel
  obtain ⟨u, hu, hobs⟩ := Option.map_eq_some_iff.mp hu
  have hw : ((run threeNodes (electionOf "a" 0 0)).bind fun u =>
      Run.exec (step threeNodes) u askedTwice).map (fun w => (w.replies.map Prod.snd,
        (w.nodes "b").currentTerm)) = some ([.requestVote ⟨1, true⟩, .requestVote ⟨1, false⟩,
          .requestVote ⟨1, true⟩], 1) := by
    decide +kernel
  rw [hu, Option.bind_some] at hw
  obtain ⟨w, hw, hend⟩ := Option.map_eq_some_iff.mp hw
  simp only [Prod.mk.injEq] at hobs hend
  obtain ⟨call, hcall, hends⟩ := Option.map_eq_some_iff.mp hobs.2
  simp only [Prod.mk.injEq] at hends
  have hgranted : Granted u "b" "a" 1 :=
    ⟨0, call, _, _, List.mem_of_getElem? hobs.1, rfl, hcall, hends.1, hends.2.1, hends.2.2, rfl⟩
  obtain ⟨-, hkept⟩ := one_vote_per_term hu hw (n := "b") (by decide)
  obtain ⟨-, hvote, hunique⟩ := hkept "a" 1 hgranted
  exact ⟨u, w, hu, hw, hgranted, hend.1, hvote hend.2, hunique⟩

/-! ### Majorities keep what is committed -/

omit [DecidableEq Blob] in
/-- What a node takes for committed is a beginning of the logs of a majority. -/
theorem Sim.committed_on_quorum {a : Ledger NodeID (LogEntry Blob)} (h : Sim M w a)
    (hn : n ∈ M.ids) : ∃ q ⊆ M.ids.toFinset, (M.config n).majority ≤ q.card ∧
      ∀ p ∈ q, (a.log n).take (w.nodes n).commitIndex <+: a.log p := by
  rw [M.majority_eq hn]
  by_cases hne : (a.log n).take (w.nodes n).commitIndex = []
  · -- nothing is committed, and any majority will do
    refine ⟨M.ids.toFinset, le_refl _, ?_, fun p _ => by rw [hne]; exact List.nil_prefix⟩
    rw [List.toFinset_card_of_nodup M.nodup]
    have := List.length_pos_of_mem hn
    omega
  · obtain ⟨q, ⟨hsub, hcard⟩, hq⟩ := (h.node n hn).impl.commit_chosen.on_quorum h.good.inv hne
    exact ⟨q, hsub, hcard, hq⟩

/-- **A majority holds what is committed.** In every state of every run there is, for every node
`n`, a majority of members that have the log of `n` up to its commit index – what they have not
compacted away entry by entry – and have it on disk. -/
theorem committed_on_majority (hw : run M xs = some w) (hn : n ∈ M.ids) :
    ∃ q ⊆ M.ids.toFinset, (M.config n).majority ≤ q.card ∧ ∀ p ∈ q,
      (w.disks p).persistentState.log = (w.nodes p).log ∧
      (w.nodes n).commitIndex ≤ (w.nodes p).log.lastIndex ∧
      ∀ i, (w.nodes n).log.firstIndex < i → (w.nodes p).log.firstIndex < i →
        i ≤ (w.nodes n).commitIndex →
        ∃ e, (w.nodes n).log.entryAt i = some e ∧ (w.nodes p).log.entryAt i = some e := by
  obtain ⟨a, ha⟩ := exists_traced hw
  have hsim := ha.sim
  obtain ⟨q, hsub, hcard, hq⟩ := hsim.committed_on_quorum hn
  refine ⟨q, hsub, hcard, fun p hp => ?_⟩
  have hpid : p ∈ M.ids := List.mem_toFinset.mp (hsub hp)
  have hheld := hq p hp
  have hlen := (hsim.node n hn).impl.commit_le
  refine ⟨congrArg PersistentState.log (hsim.node p hpid).synced, ?_, fun i hlo hlo' hi => ?_⟩
  · have := hheld.length_le
    rw [List.length_take_of_le hlen] at this
    rw [(hsim.node p hpid).lastIndex_eq]
    exact this
  · obtain ⟨e, he⟩ := hsim.exists_entryAt hn hlo (le_trans hi hlen)
    refine ⟨e, he, ?_⟩
    rw [hsim.entryAt_eq hn hlo] at he
    rw [hsim.entryAt_eq hpid hlo']
    refine prefix_getElem?_some hheld ?_
    rw [List.getElem?_take_of_lt (by omega)]
    exact he

/-- After the failover `c` holds nothing yet. -/
theorem committed_on_majority_failover :
    ∃ w, run threeNodes failover = some w ∧ (w.nodes "a").commitIndex = 2 ∧
      (w.nodes "c").log.lastIndex = 0 ∧
      ∃ q ⊆ threeNodes.ids.toFinset, (threeNodes.config "a").majority ≤ q.card ∧ ∀ p ∈ q,
        (w.disks p).persistentState.log = (w.nodes p).log ∧
        (w.nodes "a").commitIndex ≤ (w.nodes p).log.lastIndex ∧
        ∀ i, (w.nodes "a").log.firstIndex < i → (w.nodes p).log.firstIndex < i →
          i ≤ (w.nodes "a").commitIndex →
          ∃ e, (w.nodes "a").log.entryAt i = some e ∧ (w.nodes p).log.entryAt i = some e := by
  have hend : (run threeNodes failover).map (fun w => ((w.nodes "a").commitIndex,
      (w.nodes "c").log.lastIndex)) = some (2, 0) := by
    decide +kernel
  obtain ⟨w, hw, hend⟩ := Option.map_eq_some_iff.mp hend
  simp only [Prod.mk.injEq] at hend
  exact ⟨w, hw, hend.1, hend.2, committed_on_majority hw (by decide)⟩

end Raft

end DistQueue
