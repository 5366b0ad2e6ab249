import DistQueue.Raft.Simulation.Cluster

/-!
# Safety of the replicated log

The four properties of the protocol, for every schedule: any order, loss and
repetition of messages, and crashes at any point, between two sections or between two
writes of one.

Each of them is read off one ledger. A run has a ledger at its end that is above the
ledgers of all the states it went through (`DistQueue.Raft.Traced`), and in a
single ledger a term has one leader, a position has one decided entry, and two logs
with the same term at an index agree below it. Statements about two moments of a run,
or two incarnations of a node, need no more than that.
-/

namespace DistQueue

namespace Raft

open Consensus

variable {Blob : Type} [Inhabited Blob] [DecidableEq Blob] {M : Membership}
  {as : List (Action Blob)} {w w' : World Blob} {m n : NodeID}

/-- `w` is one of the states that the run `as` goes through. -/
def Visits (M : Membership) (as : List (Action Blob)) (w : World Blob) : Prop :=
  (run M as).isSome ∧ ∃ ys, ys <+: as ∧ run M ys = some w

/-- **The entry `e` at index `i` is committed in term `t`**: in the run, a leader of
term `t` that holds `e` moves its commit index over `i`. -/
def CommittedIn (M : Membership) (as : List (Action Blob)) (t i : ℕ) (e : LogEntry Blob) : Prop :=
  ∃ ys x w w' n, ys ++ [x] <+: as ∧ run M ys = some w ∧ step M w x = some w' ∧ n ∈ M.ids ∧
    (w.nodes n).state = .leader ∧ (w'.nodes n).state = .leader ∧
    (w.nodes n).currentTerm = t ∧ (w'.nodes n).currentTerm = t ∧
    (w.nodes n).commitIndex < i ∧ i ≤ (w'.nodes n).commitIndex ∧
    (w'.nodes n).log.firstIndex < i ∧ (w'.nodes n).log.entryAt i = some e

theorem CommittedIn.mono {bs : List (Action Blob)} (hp : as <+: bs) {t i : ℕ} {e : LogEntry Blob}
    (h : CommittedIn M as t i e) : CommittedIn M bs t i e := by
  obtain ⟨ys, x, w, w', n, hys, hrest⟩ := h
  exact ⟨ys, x, w, w', n, hys.trans hp, hrest⟩

/-! ### The ledger of a run -/

omit [DecidableEq Blob] in
/-- A committed index of a member is a position of a decided list. -/
theorem Sim.committed {a : Ledger NodeID (LogEntry Blob)} (h : Sim M w a) (hn : n ∈ M.ids) {i : ℕ}
    (hi : i ≤ (w.nodes n).commitIndex) :
    i ≤ (a.log n).length ∧ Chosen a (w.nodes n).currentTerm ((a.log n).take i) := by
  have hnode := h.node n hn
  rw [hnode.term_eq]
  exact ⟨le_trans hi hnode.impl.commit_le,
    hnode.impl.commit_chosen.prefix_closed (List.take_prefix_take_left hi)⟩

omit [DecidableEq Blob] in
theorem Sim.entryAt_eq {a : Ledger NodeID (LogEntry Blob)} (h : Sim M w a) (hn : n ∈ M.ids) {i : ℕ}
    (hi : (w.nodes n).log.firstIndex < i) : (w.nodes n).log.entryAt i = (a.log n)[i - 1]? := by
  obtain ⟨j, rfl⟩ : ∃ j, i = j + 1 := ⟨i - 1, by omega⟩
  conv_lhs => rw [(h.node n hn).log_eq]
  exact compact_entryAt (by omega)

omit [DecidableEq Blob] in
/-- A node has every entry of its log after the sentinel in memory. -/
theorem Sim.exists_entryAt {a : Ledger NodeID (LogEntry Blob)} (h : Sim M w a) (hn : n ∈ M.ids)
    {i : ℕ} (hlo : (w.nodes n).log.firstIndex < i) (hhi : i ≤ (a.log n).length) :
    ∃ e, (w.nodes n).log.entryAt i = some e := by
  rw [h.entryAt_eq hn hlo]
  exact ⟨_, List.getElem?_eq_getElem (by omega)⟩

/-- **The ledger of a run**: it is the ledger of the state the run leads to, above the
ledger of every state it went through, and what it records as decided was committed by a
leader. -/
structure Traced (M : Membership) (as : List (Action Blob)) (w : World Blob)
    (a : Ledger NodeID (LogEntry Blob)) : Prop where
  run_eq : run M as = some w
  sim : Sim M w a
  visited : ∀ ys u, ys <+: as → run M ys = some u → ∃ b, Sim M u b ∧ Le b a
  decided : ∀ t i, 0 < i → i ≤ a.decided t → ∃ s ≤ t, ∃ e, CommittedIn M as s i e

theorem traced_start : ∃ a : Ledger NodeID (LogEntry Blob), Traced M [] (start M) a := by
  refine ⟨_, rfl, sim_start M, fun ys u hys hu => ?_, fun t i hpos hi => ?_⟩
  · rw [List.prefix_nil.mp hys] at hu
    cases hu
    exact ⟨_, sim_start M, Le.refl _⟩
  · simp [Consensus.empty] at hi
    omega

/-- Every action moves the ledger up. -/
theorem Traced.step {a : Ledger NodeID (LogEntry Blob)} (h : Traced M as w a) {x : Action Blob}
    (hx : step M w x = some w') : ∃ a', Le a a' ∧ Traced M (as ++ [x]) w' a' := by
  obtain ⟨hrun, hsim, hvisit, hdec⟩ := h
  obtain ⟨a', hle, hsim', hadv⟩ := hsim.step hx
  refine ⟨a', hle, Run.exec_snoc.mpr ⟨w, hrun, hx⟩, hsim', fun ys v hys hv => ?_,
    fun t i hpos hi => ?_⟩
  · rcases List.prefix_concat_iff.mp hys with rfl | hys
    · obtain ⟨u₀, hu₀, hx₀⟩ := Run.exec_snoc.mp hv
      obtain rfl : u₀ = w := Option.some.inj (hu₀.symm.trans hrun)
      obtain rfl : v = w' := Option.some.inj (hx₀.symm.trans hx)
      exact ⟨a', hsim', Le.refl a'⟩
    · obtain ⟨b, hb, hba⟩ := hvisit ys v hys hv
      exact ⟨b, hb, hba.trans hle⟩
  · have hold : ∀ s, i ≤ a.decided s → ∃ s' ≤ s, ∃ e, CommittedIn M (as ++ [x]) s' i e := by
      intro s his
      obtain ⟨s', hs', e, he⟩ := hdec s i hpos his
      exact ⟨s', hs', e, he.mono (List.prefix_append as [x])⟩
    rcases Nat.lt_or_ge (a.decided t) i with hlt | hge
    · obtain ⟨n, hn, hs, hs', ht, ht', hlog, hk⟩ := hadv t (by omega)
      have hi' : i ≤ (w'.nodes n).commitIndex := by omega
      rcases Nat.lt_or_ge (w.nodes n).commitIndex i with hnew | hcovered
      · -- the leader moves its commit index over `i` in this very step
        have hfirst : (w'.nodes n).log.firstIndex < i := by
          rw [hlog]
          exact lt_of_le_of_lt (hsim.node n hn).impl.first_le hnew
        obtain ⟨e, he⟩ := hsim'.exists_entryAt hn hfirst (hsim'.committed hn hi').1
        exact ⟨t, le_refl t, e, as, x, w, w', n, List.prefix_refl _, hrun, hx, hn, hs, hs', ht,
          ht', hnew, hi', hfirst, he⟩
      · -- it had covered `i` before, and so an earlier leader had decided it
        obtain ⟨hlen, hchosen⟩ := hsim.committed hn hcovered
        obtain ⟨s, hst, his⟩ := hchosen.exists_decided hpos (by rw [List.length_take]; omega)
        obtain ⟨s', hs', he⟩ := hold s his
        exact ⟨s', by omega, he⟩
    · exact hold t hge

/-- **Every run has a ledger.** -/
theorem exists_traced (h : run M as = some w) :
    ∃ a : Ledger NodeID (LogEntry Blob), Traced M as w a := by
  refine Run.induction (P := fun as w => ∃ a : Ledger NodeID (LogEntry Blob), Traced M as w a)
    traced_start ?_ h
  rintro ys u x u' - ⟨a, ha⟩ hx
  obtain ⟨a', -, ha'⟩ := ha.step hx
  exact ⟨a', ha'⟩

/-- The same for a run of which only the visited states matter. -/
theorem exists_ledger (h : (run M as).isSome) :
    ∃ a : Ledger NodeID (LogEntry Blob), Good M a ∧
      (∀ w, Visits M as w → ∃ b, Sim M w b ∧ Le b a) ∧
      ∀ t i, 0 < i → i ≤ a.decided t → ∃ s ≤ t, ∃ e, CommittedIn M as s i e := by
  obtain ⟨w, hw⟩ := Option.isSome_iff_exists.mp h
  obtain ⟨a, ha⟩ := exists_traced hw
  exact ⟨a, ha.sim.good, fun u ⟨_, ys, hys, hu⟩ => ha.visited ys u hys hu, ha.decided⟩

omit [DecidableEq Blob] in
/-- What is committed at an index, seen from a ledger above that of the state. -/
theorem Sim.exists_chosen {a b : Ledger NodeID (LogEntry Blob)} (h : Sim M w b) (hle : Le b a)
    (hn : n ∈ M.ids) {i : ℕ} (hpos : 0 < i) (hi : i ≤ (w.nodes n).commitIndex) :
    ∃ P e, Chosen a (w.nodes n).currentTerm P ∧ P.length = i ∧ P[i - 1]? = some e ∧
      ((w.nodes n).log.firstIndex < i → (w.nodes n).log.entryAt i = some e) := by
  obtain ⟨hlen, hchosen⟩ := h.committed hn hi
  obtain ⟨e, he⟩ : ∃ e, (b.log n)[i - 1]? = some e := ⟨_, List.getElem?_eq_getElem (by omega)⟩
  refine ⟨_, e, hchosen.mono hle, List.length_take_of_le hlen, ?_, fun hfirst => ?_⟩
  · rw [List.getElem?_take_of_lt (by omega)]
    exact he
  · rw [h.entryAt_eq hn hfirst]
    exact he

/-- The entry committed in a term stands in a list that is chosen by that term. -/
theorem CommittedIn.exists_chosen {a : Ledger NodeID (LogEntry Blob)} (hrun : (run M as).isSome)
    (hvisit : ∀ w, Visits M as w → ∃ b, Sim M w b ∧ Le b a) {t i : ℕ} {e : LogEntry Blob}
    (h : CommittedIn M as t i e) : ∃ P, Chosen a t P ∧ P.length = i ∧ P[i - 1]? = some e := by
  obtain ⟨ys, x, w, w', n, hys, hw, hx, hn, -, -, -, ht, hlt, hi, hfirst, he⟩ := h
  have hw' : run M (ys ++ [x]) = some w' := Run.exec_snoc.mpr ⟨w, hw, hx⟩
  obtain ⟨b, hsim, hle⟩ := hvisit w' ⟨hrun, ys ++ [x], hys, hw'⟩
  obtain ⟨P, e', hP, hlen, hget, hentry⟩ := hsim.exists_chosen hle hn (by omega) hi
  obtain rfl : e' = e := Option.some.inj ((hentry hfirst).symm.trans he)
  exact ⟨P, ht ▸ hP, hlen, hget⟩

/-- The entries of a chosen list have been committed, each at its position. -/
theorem Traced.committed {a : Ledger NodeID (LogEntry Blob)} (h : Traced M as w a) {t k : ℕ}
    {P : List (LogEntry Blob)} {e : LogEntry Blob} (hP : Chosen a t P) (hk : P[k]? = some e) :
    ∃ s ≤ t, CommittedIn M as s (k + 1) e := by
  have hlt : k < P.length := (List.getElem?_eq_some_iff.mp hk).1
  obtain ⟨s, hs, hdec⟩ := hP.exists_decided (Nat.succ_pos k) hlt
  obtain ⟨s', hs', e', he'⟩ := h.decided s (k + 1) (Nat.succ_pos k) hdec
  obtain ⟨P', hP', -, hk'⟩ := he'.exists_chosen (by rw [h.run_eq]; rfl)
    fun u ⟨_, ys, hys, hu⟩ => h.visited ys u hys hu
  obtain rfl : e' = e := Settled.unique h.sim.good.inv ⟨s', P', hP', hk'⟩ ⟨t, P, hP, hk⟩
  exact ⟨s', le_trans hs' hs, he'⟩

/-- What is delivered at an index is what was committed there. -/
theorem Traced.eq_of_delivered {a : Ledger NodeID (LogEntry Blob)} (h : Traced M as w a)
    (hn : n ∈ M.ids) {t i term : ℕ} {command : Blob} {e : LogEntry Blob}
    (hm : ApplyMsg.command command i term ∈ (w.nodes n).applyCh) (he : CommittedIn M as t i e) :
    e = ⟨i, term, command⟩ := by
  obtain ⟨P, hP, -, hk⟩ := he.exists_chosen (by rw [h.run_eq]; rfl)
    fun u ⟨_, ys, hys, hu⟩ => h.visited ys u hys hu
  exact Settled.unique h.sim.good.inv ⟨t, P, hP, hk⟩
    ((h.sim.node n hn).impl.sent command i term hm).2

omit [DecidableEq Blob] in
/-- **A leader holds what was chosen before its term.** -/
theorem Sim.leader_holds {a b : Ledger NodeID (LogEntry Blob)} (hgood : Good M a) (h : Sim M w b)
    (hle : Le b a) (hn : n ∈ M.ids) (hs : (w.nodes n).state = .leader) {t : ℕ}
    {P : List (LogEntry Blob)} (hP : Chosen a t P) (ht : t < (w.nodes n).currentTerm) :
    P <+: b.log n := by
  have hlead := (h.node n hn).impl.leader hs
  rw [(h.node n hn).term_eq] at ht
  obtain ⟨L, hL, -⟩ := hle.lead _ _ _ hlead
  -- it stood with a log that held it, and has only appended since
  obtain ⟨B, hB, hBlog, -⟩ := h.good.inv.lead_base _ _ _ hlead
  exact (hP.prefix_stand hgood.inv ht hL (hle.stand _ _ _ hB)).trans hBlog

/-! ### A run to read them on

Three nodes: `a` wins term 1 with the vote of `b`, replicates a command to `b` and
commits it, both apply it, and `b` wins term 2 with the vote of `c`, which holds
nothing. -/

/-- A cluster of three. -/
def threeNodes : Membership :=
  Membership.ofIDs ["a", "b", "c"] "data" (by decide) (by decide) (by decide)

/-- The election timer of `n` runs out, and the vote of one peer is enough. -/
def electionOf (n : NodeID) (call reply : ℕ) : List (Action Blob) :=
  [.run (.trigger n .electionTimeout), .run (.deliver call), .run (.answer reply)]

/-- The leader sends its entries to one follower, which takes them and answers. -/
def replicationTo (n peer : NodeID) (call reply : ℕ) : List (Action Blob) :=
  [.run (.trigger n (.sendAppendEntries peer)), .run (.deliver call), .run (.answer reply)]

/-- The applier takes two entries and sends them. -/
def applyTwo (n : NodeID) : List (Action Blob) :=
  [.run (.trigger n .applierTake), .run (.trigger n .applierSend),
    .run (.trigger n .applierAdvance), .run (.trigger n .applierSend)]

/-- Node `a` is elected and commits a command, which `a` and `b` apply; then `b` is elected. -/
def failover : List (Action ℕ) :=
  electionOf "a" 0 0 ++ [.run (.trigger "a" (.propose 7))] ++ replicationTo "a" "b" 2 1 ++
    replicationTo "a" "b" 3 2 ++ applyTwo "a" ++ applyTwo "b" ++ electionOf "b" 5 3

theorem failover_runs : (run threeNodes failover).isSome = true := by decide +kernel

theorem election_runs : (run threeNodes (electionOf "a" 0 0 : List (Action ℕ))).isSome = true := by
  decide +kernel

/-- The state in which `a` has just been elected. -/
def afterElection : World ℕ := (run threeNodes (electionOf "a" 0 0)).get election_runs

/-- The state at the end. -/
def afterFailover : World ℕ := (run threeNodes failover).get failover_runs

theorem visits_afterElection : Visits threeNodes failover afterElection :=
  ⟨failover_runs, _, ⟨failover.drop 3, by rfl⟩, (Option.some_get election_runs).symm⟩

theorem visits_afterFailover : Visits threeNodes failover afterFailover :=
  ⟨failover_runs, _, List.prefix_refl _, (Option.some_get failover_runs).symm⟩

/-! ### The four properties -/

/-- **Election safety**: at most one node ever leads a term. -/
theorem election_safety (hw : Visits M as w) (hw' : Visits M as w') (hm : m ∈ M.ids)
    (hn : n ∈ M.ids) (hs : (w.nodes m).state = .leader) (hs' : (w'.nodes n).state = .leader)
    (hterm : (w.nodes m).currentTerm = (w'.nodes n).currentTerm) : m = n := by
  obtain ⟨a, -, hvisit, -⟩ := exists_ledger hw.1
  obtain ⟨b, hsim, hle⟩ := hvisit w hw
  obtain ⟨b', hsim', hle'⟩ := hvisit w' hw'
  have hnode := hsim.node m hm
  have hnode' := hsim'.node n hn
  obtain ⟨L, hL, -⟩ := hle.lead _ _ _ (hnode.impl.leader hs)
  obtain ⟨L', hL', -⟩ := hle'.lead _ _ _ (hnode'.impl.leader hs')
  rw [← hnode.term_eq, hterm, hnode'.term_eq, hL'] at hL
  exact (Prod.mk.inj (Option.some.inj hL)).1.symm

/-- The theorem at the first leader of `failover`. -/
theorem election_safety_failover :
    ((afterElection.nodes "a").state = .leader ∧ (afterElection.nodes "a").currentTerm = 1) ∧
      ("a" : NodeID) = "a" :=
  ⟨by decide +kernel, election_safety visits_afterElection visits_afterElection
    (m := "a") (n := "a") (by decide) (by decide) (by decide +kernel) (by decide +kernel) rfl⟩

/-- **Log matching**: if two nodes hold an index with the same term, counting the
sentinel, they hold the same terms below it, and the same commands where both hold an
entry proper. -/
theorem log_matching (hw : Visits M as w) (hm : m ∈ M.ids) (hn : n ∈ M.ids)
    {e e' : LogEntry Blob} (he : e ∈ (w.nodes m).log.toList) (he' : e' ∈ (w.nodes n).log.toList)
    (hindex : e.index = e'.index) (hterm : e.term = e'.term) :
    ∀ f ∈ (w.nodes m).log.toList, ∀ f' ∈ (w.nodes n).log.toList, f.index = f'.index →
      f.index ≤ e.index → f.term = f'.term ∧
        (f ∈ (w.nodes m).log.entries → f' ∈ (w.nodes n).log.entries → f.command = f'.command) := by
  obtain ⟨a, -, hvisit, -⟩ := exists_ledger hw.1
  obtain ⟨b, hsim, -⟩ := hvisit w hw
  have hnode := hsim.node m hm
  have hnode' := hsim.node n hn
  rw [hnode.log_eq] at he
  rw [hnode'.log_eq] at he'
  obtain ⟨hlen, ht, -⟩ := compact_mem_toList hnode.numbered hnode.first_le he
  obtain ⟨hlen', ht', -⟩ := compact_mem_toList hnode'.numbered hnode'.first_le he'
  -- the uncompacted logs agree up to the index
  have hagree : (b.log m).take e.index = (b.log n).take e.index := by
    refine (hsim.good.inv.log_sound m).take_eq (hsim.good.inv.log_sound n) hlen
      (hindex ▸ hlen') ?_
    rw [Membership.rules_term, ← ht, hterm, ht', hindex]
  intro f hf f' hf' hff hfe
  rw [hnode.log_eq] at hf
  rw [hnode'.log_eq] at hf'
  obtain ⟨-, hft, hfget⟩ := compact_mem_toList hnode.numbered hnode.first_le hf
  obtain ⟨-, hft', hfget'⟩ := compact_mem_toList hnode'.numbered hnode'.first_le hf'
  constructor
  · rw [hft, hft', ← hff, ← termAt_take _ _ hfe, hagree, termAt_take _ _ hfe]
  · intro hentry hentry'
    rw [hnode.log_eq] at hentry
    rw [hnode'.log_eq] at hentry'
    have hget := hfget hentry
    have hget' := hfget' hentry'
    have hpos : 0 < f.index := by
      obtain ⟨j, hj⟩ := List.mem_iff_getElem?.mp hentry
      rw [compact_entries, List.getElem?_drop] at hj
      rw [hnode.numbered _ f hj]
      omega
    rw [← List.getElem?_take_of_lt (show f.index - 1 < e.index by omega), hagree,
      List.getElem?_take_of_lt (by omega), hff, hget'] at hget
    rw [Option.some.inj hget]

/-- The theorem at the old and the new leader's log. -/
theorem log_matching_failover :
    ⟨2, 1, 7⟩ ∈ (afterFailover.nodes "a").log.toList ∧
      ∀ f ∈ (afterFailover.nodes "a").log.toList, ∀ f' ∈ (afterFailover.nodes "b").log.toList,
        f.index = f'.index → f.index ≤ 2 → f.term = f'.term ∧
          (f ∈ (afterFailover.nodes "a").log.entries → f' ∈ (afterFailover.nodes "b").log.entries →
            f.command = f'.command) :=
  ⟨by decide +kernel, log_matching visits_afterFailover (by decide) (by decide)
    (e := ⟨2, 1, 7⟩) (by decide +kernel) (by decide +kernel) rfl rfl⟩

/-- **State machine safety**: two commands delivered at the same index, by any nodes or
incarnations of nodes, are the same command of the same term. -/
theorem state_machine_safety (hw : Visits M as w) (hw' : Visits M as w') (hm : m ∈ M.ids)
    (hn : n ∈ M.ids) {command command' : Blob} {index term term' : ℕ}
    (h : ApplyMsg.command command index term ∈ (w.nodes m).applyCh)
    (h' : ApplyMsg.command command' index term' ∈ (w'.nodes n).applyCh) :
    term = term' ∧ command = command' := by
  obtain ⟨a, hgood, hvisit, -⟩ := exists_ledger hw.1
  obtain ⟨b, hsim, hle⟩ := hvisit w hw
  obtain ⟨b', hsim', hle'⟩ := hvisit w' hw'
  have hdec := ((hsim.node m hm).impl.sent command index term h).mono hle
  have hdec' := ((hsim'.node n hn).impl.sent command' index term' h').mono hle'
  have heq := hdec.2.unique hgood.inv hdec'.2
  exact ⟨congrArg LogEntry.term heq, congrArg LogEntry.command heq⟩

/-- The theorem at the command that both have applied. -/
theorem state_machine_safety_failover :
    ApplyMsg.command 7 2 1 ∈ (afterFailover.nodes "a").applyCh ∧
      ApplyMsg.command 7 2 1 ∈ (afterFailover.nodes "b").applyCh ∧ 1 = 1 ∧ 7 = 7 :=
  ⟨by decide +kernel, by decide +kernel,
    state_machine_safety visits_afterFailover visits_afterFailover (m := "a") (n := "b")
      (by decide) (by decide)
      (show ApplyMsg.command 7 2 1 ∈ (afterFailover.nodes "a").applyCh by decide +kernel)
      (show ApplyMsg.command 7 2 1 ∈ (afterFailover.nodes "b").applyCh by decide +kernel)⟩

/-- **Leader completeness**: an index that some node's commit index covers was committed,
in a term the node has reached; the node holds the committed entry, unless it has
compacted it away; and so does every leader of a later term. -/
theorem leader_completeness (hw : Visits M as w) (hm : m ∈ M.ids) {i : ℕ} (hpos : 0 < i)
    (hi : i ≤ (w.nodes m).commitIndex) :
    ∃ e, (∃ t ≤ (w.nodes m).currentTerm, CommittedIn M as t i e) ∧
      ((w.nodes m).log.firstIndex < i → (w.nodes m).log.entryAt i = some e) ∧
      ∀ t e', CommittedIn M as t i e' → e' = e ∧ ∀ w', Visits M as w' → ∀ n ∈ M.ids,
        (w'.nodes n).state = .leader → t < (w'.nodes n).currentTerm →
          (w'.nodes n).log.entryAt i = some e ∨ i ≤ (w'.nodes n).log.firstIndex := by
  obtain ⟨a, hgood, hvisit, hdec⟩ := exists_ledger hw.1
  obtain ⟨b, hsim, hle⟩ := hvisit w hw
  obtain ⟨P, e, hP, hlen, hget, hentry⟩ := hsim.exists_chosen hle hm hpos hi
  have hunique : ∀ t e', CommittedIn M as t i e' → e' = e := by
    intro t e' hc
    obtain ⟨P', hP', -, hget'⟩ := hc.exists_chosen hw.1 hvisit
    exact Settled.unique hgood.inv ⟨t, P', hP', hget'⟩ ⟨_, P, hP, hget⟩
  refine ⟨e, ?_, hentry, fun t e' hc => ⟨hunique t e' hc, fun w' hw' n hn hs ht => ?_⟩⟩
  · obtain ⟨s, hs, his⟩ := hP.exists_decided hpos (le_of_eq hlen.symm)
    obtain ⟨s', hs', e', hc⟩ := hdec s i hpos his
    rw [← hunique s' e' hc]
    exact ⟨s', le_trans hs' hs, hc⟩
  · obtain ⟨P', hP', hlen', hget'⟩ := hc.exists_chosen hw.1 hvisit
    obtain ⟨b', hsim', hle'⟩ := hvisit w' hw'
    have hlog := hsim'.leader_holds hgood hle' hn hs hP' ht
    rcases Nat.lt_or_ge (w'.nodes n).log.firstIndex i with hlt | hge
    · left
      rw [hsim'.entryAt_eq hn hlt, ← hunique t e' hc]
      exact prefix_getElem?_some hlog hget'
    · exact Or.inr hge

/-- The theorem at the new leader, which has what the old one committed. -/
theorem leader_completeness_failover :
    ((afterFailover.nodes "b").state = .leader ∧ (afterFailover.nodes "b").currentTerm = 2) ∧
      ∃ e, (∃ t ≤ (afterFailover.nodes "a").currentTerm,
          CommittedIn threeNodes failover t 2 e) ∧
        ((afterFailover.nodes "a").log.firstIndex < 2 →
          (afterFailover.nodes "a").log.entryAt 2 = some e) ∧
        ∀ t e', CommittedIn threeNodes failover t 2 e' → e' = e ∧
          ∀ w', Visits threeNodes failover w' → ∀ n ∈ threeNodes.ids,
            (w'.nodes n).state = .leader → t < (w'.nodes n).currentTerm →
              (w'.nodes n).log.entryAt 2 = some e ∨ 2 ≤ (w'.nodes n).log.firstIndex :=
  ⟨by decide +kernel,
    leader_completeness visits_afterFailover (by decide) (by decide) (by decide +kernel)⟩

end Raft

end DistQueue
