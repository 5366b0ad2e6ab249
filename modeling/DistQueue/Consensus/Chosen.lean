import DistQueue.Consensus.Invariant

/-!
# What is decided stays decided

The consequences of the invariant. The central one is
`DistQueue.Consensus.Inv.decided_prefix_stand`: the log a leader stood with holds
everything decided in the terms before its own. The proof is an induction on the
later term. A quorum accepted what was decided and a quorum elected the later
leader, so some member did both, and in that order; the log it voted with carries
what it had accepted, because by the induction hypothesis every leader in between
kept it; and the new leader's log is at least as up to date as that one.

`DistQueue.Consensus.Chosen` packages the result: a list is chosen by term `t` if
it is a prefix of what some leader of a term up to `t` has decided. Chosen lists
are comparable (`DistQueue.Consensus.Chosen.comparable`), the logs of later leaders
hold them (`DistQueue.Consensus.Chosen.prefix_lead`), and they stay chosen
(`DistQueue.Consensus.Chosen.mono`).
-/

namespace DistQueue

namespace Consensus

variable {N E : Type} {R : Rules N E} {a a' : Ledger N E}

/-! ### The ledger before anything happened -/

/-- The empty ledger. -/
def empty : Ledger N E where
  cur := fun _ => 0
  log := fun _ => []
  vote := fun _ _ => none
  stand := fun _ _ => none
  lead := fun _ => none
  acked := fun _ _ => 0
  decided := fun _ => 0

/-- Nothing has been logged, voted or decided. -/
theorem inv_empty : Inv R (empty : Ledger N E) where
  log_sound := fun _ i e h => by simp [empty] at h
  log_term := fun _ e h => by simp [empty] at h
  stand_cur := fun _ _ _ h => by simp [empty] at h
  stand_sound := fun _ _ _ h => by simp [empty] at h
  stand_term := fun _ _ _ h => by simp [empty] at h
  lead_base := fun _ _ _ h => by simp [empty] at h
  lead_log := fun _ _ h => by simp [empty] at h
  vote_cur := fun _ _ _ h => by simp [empty] at h
  vote_backed := fun _ _ _ h => by simp [empty] at h
  lead_backed := fun _ _ _ h => by simp [empty] at h
  acked_lead := fun _ _ h => by simp [empty] at h
  acked_cur := fun _ _ h => by simp [empty] at h
  acked_log := fun _ _ _ _ _ _ h => by simp [empty] at h
  decided_quorum := fun _ h => by simp [empty] at h

/-! ### Sound logs are sorted -/

/-- The last term of a sound log is the term of a leader whose log it is a prefix
of, and no entry of the log is of a later term. -/
theorem Sound.last (h : Inv R a) {F : List E} (hF : Sound R a F) (hne : F ≠ []) :
    ∃ c L, a.lead (lastTerm R.term F) = some (c, L) ∧ F <+: L ∧
      ∀ e ∈ F, R.term e ≤ lastTerm R.term F := by
  obtain ⟨i, e, hlen, hi, hlast⟩ := exists_last R.term hne
  obtain ⟨c, L, hL, hp⟩ := hF i e hi
  rw [← hlen, List.take_length] at hp
  rw [← hlast] at hL
  exact ⟨c, L, hL, hp, fun e' he' => h.lead_term hL (hp.mem he')⟩

/-! ### Leader completeness -/

/-- **An up-to-date log holds what the other log held of an earlier term**, if the
leaders of the terms in between do. `P` ends in an entry of term `t`. -/
theorem UpToDate.holds (h : Inv R a) {B F P : List E} {t hi : ℕ} {e : E} (hup : UpToDate R.term B F)
    (hB : Sound R a B) (hF : Sound R a F) (hBterm : ∀ e ∈ B, R.term e < hi) (hPF : P <+: F)
    (heP : e ∈ P) (het : R.term e = t) (hP : ∀ e ∈ P, R.term e ≤ t) (hkept : Kept a P t hi) :
    P <+: B := by
  have hFne : F ≠ [] := by
    rintro rfl
    rw [List.prefix_nil.mp hPF] at heP
    cases heP
  obtain ⟨cF, LF, hLF, hFL, hFterm⟩ := hF.last h hFne
  have htF : t ≤ lastTerm R.term F := het ▸ hFterm e (hPF.mem heP)
  have hBne : B ≠ [] := by
    rintro rfl
    rcases hup with hlt | ⟨-, hlen⟩
    · simp [lastTerm] at hlt
    · exact hFne (List.length_eq_zero_iff.mp (by simpa using hlen))
  obtain ⟨cB, LB, hLB, hBL, -⟩ := hB.last h hBne
  rcases hup with hlt | ⟨heq, hlen⟩
  · -- the log ends in a later term, whose leader kept `P`
    obtain ⟨i, eB, -, hiB, hlast⟩ := exists_last R.term hBne
    have hmem := List.mem_of_getElem? hiB
    have hBhi : lastTerm R.term B < hi := by rw [hlast]; exact hBterm eB hmem
    have hPL : P <+: LB := hkept _ cB LB (by omega) hBhi hLB
    rcases List.prefix_or_prefix_of_prefix hPL hBL with hPB | hBP
    · exact hPB
    · have := hP eB (hBP.mem hmem)
      omega
  · -- the logs end in the same term, and this one is the longer
    rw [heq, hLB, Option.some.injEq, Prod.mk.injEq] at hLF
    obtain ⟨-, rfl⟩ := hLF
    exact hPF.trans (List.prefix_of_prefix_length_le hFL hBL hlen)

/-- **Leader completeness**: the log a leader stood with holds everything decided
in the terms before its own. -/
theorem Inv.decided_prefix_stand (h : Inv R a) {t : ℕ} {c : N} {L : List E}
    (hL : a.lead t = some (c, L)) : ∀ {t' : ℕ} {c' : N} {L' B' : List E}, t < t' →
      a.lead t' = some (c', L') → a.stand c' t' = some B' → L.take (a.decided t) <+: B' := by
  intro t'
  induction t' using Nat.strong_induction_on with
  | _ t' ih =>
    intro c' L' B' htt hL' hB'
    rcases Nat.eq_zero_or_pos (a.decided t) with h0 | hpos
    · simp [h0]
    obtain ⟨c₀, L₀, e, q, hL₀, hk, het, hq, hack⟩ := h.decided_quorum t hpos
    rw [hL, Option.some.injEq, Prod.mk.injEq] at hL₀
    obtain ⟨rfl, rfl⟩ := hL₀
    obtain ⟨q', hq', hvotes⟩ := h.lead_backed t' c' L' hL'
    obtain ⟨v, hvq, hvq'⟩ := R.meet q q' hq hq'
    obtain ⟨-, B, F, hB, hup, hF, hcarry⟩ := hvotes v hvq'
    obtain rfl : B' = B := by rw [hB'] at hB; exact Option.some.inj hB
    -- the leaders in between kept what was decided
    have hkept : Kept a (L.take (a.decided t)) t t' := by
      intro u cu Lu hlo hhi hLu
      obtain ⟨Bu, hBu, hBLu, -⟩ := h.lead_base u cu Lu hLu
      exact (ih u hhi hlo hLu hBu).trans hBLu
    have hPF : L.take (a.decided t) <+: F := hcarry t c L _ htt hL (hack v hvq) hkept
    have heP : e ∈ L.take (a.decided t) := by
      refine List.mem_of_getElem? (i := a.decided t - 1) ?_
      rw [List.getElem?_take_of_lt (by omega)]
      exact hk
    exact hup.holds h (h.stand_sound c' t' B' hB') hF (h.stand_term c' t' B' hB') hPF heP het
      (fun e' he' => h.lead_term hL (List.mem_of_mem_take he')) hkept

/-! ### Chosen lists -/

/-- **`P` is chosen by term `t`**: it is a prefix of what some leader of a term up to
`t` has decided. -/
def Chosen (a : Ledger N E) (t : ℕ) (P : List E) : Prop :=
  P = [] ∨ ∃ s c L, s ≤ t ∧ a.lead s = some (c, L) ∧ P <+: L.take (a.decided s)

theorem chosen_nil (a : Ledger N E) (t : ℕ) : Chosen a t [] := Or.inl rfl

/-- What comes before a chosen entry is chosen, too. -/
theorem Chosen.prefix_closed {t : ℕ} {P P' : List E} (hc : Chosen a t P) (hp : P' <+: P) :
    Chosen a t P' := by
  rcases hc with rfl | ⟨s, c, L, hs, hL, hPL⟩
  · exact Or.inl (List.prefix_nil.mp hp)
  · exact Or.inr ⟨s, c, L, hs, hL, hp.trans hPL⟩

/-- What is chosen stays chosen in later terms. -/
theorem Chosen.later {t t' : ℕ} {P : List E} (hc : Chosen a t P) (ht : t ≤ t') : Chosen a t' P := by
  rcases hc with rfl | ⟨s, c, L, hs, hL, hPL⟩
  · exact chosen_nil a t'
  · exact Or.inr ⟨s, c, L, le_trans hs ht, hL, hPL⟩

/-- **What is chosen stays chosen.** -/
theorem Chosen.mono (hle : Le a a') {t : ℕ} {P : List E} (hc : Chosen a t P) : Chosen a' t P := by
  rcases hc with rfl | ⟨s, c, L, hs, hL, hPL⟩
  · exact chosen_nil a' t
  · obtain ⟨L', hL', hLL'⟩ := hle.lead s c L hL
    refine Or.inr ⟨s, c, L', hs, hL', ?_⟩
    have hlen := hPL.length_le
    rw [List.length_take] at hlen
    refine List.prefix_take_iff.mpr ⟨(hPL.trans (List.take_prefix _ _)).trans hLL', ?_⟩
    have := hle.decided s
    omega

/-- **The leader of a term holds what was chosen by it.** -/
theorem Chosen.prefix_lead (h : Inv R a) {t t' : ℕ} {P L' : List E} {c' : N} (hc : Chosen a t P)
    (ht : t ≤ t') (hL' : a.lead t' = some (c', L')) : P <+: L' := by
  rcases hc with rfl | ⟨s, c, L, hs, hL, hPL⟩
  · simp
  · rcases Nat.lt_or_ge s t' with hlt | hge
    · obtain ⟨B', hB', hBL', -⟩ := h.lead_base t' c' L' hL'
      exact (hPL.trans (h.decided_prefix_stand hL hlt hL' hB')).trans hBL'
    · obtain rfl : s = t' := by omega
      rw [hL', Option.some.injEq, Prod.mk.injEq] at hL
      rw [hL.2]
      exact hPL.trans (List.take_prefix _ _)

/-- The log a later leader stood with already holds what was chosen. -/
theorem Chosen.prefix_stand (h : Inv R a) {t t' : ℕ} {P L' B' : List E} {c' : N}
    (hc : Chosen a t P) (ht : t < t') (hL' : a.lead t' = some (c', L'))
    (hB' : a.stand c' t' = some B') : P <+: B' := by
  rcases hc with rfl | ⟨s, c, L, hs, hL, hPL⟩
  · simp
  · exact hPL.trans (h.decided_prefix_stand hL (lt_of_le_of_lt hs ht) hL' hB')

/-- A position in a chosen list was decided in some term. -/
theorem Chosen.exists_decided {t i : ℕ} {P : List E} (hc : Chosen a t P) (hpos : 0 < i)
    (hi : i ≤ P.length) : ∃ s ≤ t, i ≤ a.decided s := by
  rcases hc with rfl | ⟨s, c, L, hs, hL, hPL⟩
  · simp at hi
    omega
  · have hlen := hPL.length_le
    rw [List.length_take] at hlen
    exact ⟨s, hs, by omega⟩

/-- **Any two chosen lists are comparable.** -/
theorem Chosen.comparable (h : Inv R a) {t t' : ℕ} {P P' : List E} (hc : Chosen a t P)
    (hc' : Chosen a t' P') : P <+: P' ∨ P' <+: P := by
  rcases hc with rfl | ⟨s, c, L, hs, hL, hPL⟩
  · exact Or.inl (by simp)
  rcases hc' with rfl | ⟨s', c', L', hs', hL', hPL'⟩
  · exact Or.inr (by simp)
  have hP : Chosen a s P := Or.inr ⟨s, c, L, le_refl _, hL, hPL⟩
  have hP' : Chosen a s' P' := Or.inr ⟨s', c', L', le_refl _, hL', hPL'⟩
  rcases Nat.le_total s s' with hle | hle
  · exact List.prefix_or_prefix_of_prefix (hP.prefix_lead h hle hL')
      (hPL'.trans (List.take_prefix _ _))
  · exact List.prefix_or_prefix_of_prefix (hPL.trans (List.take_prefix _ _))
      (hP'.prefix_lead h hle hL)

/-- **An entry is settled at a position** if it stands there in a chosen list. -/
def Settled (a : Ledger N E) (i : ℕ) (e : E) : Prop := ∃ t P, Chosen a t P ∧ P[i]? = some e

/-- **What is settled stays settled.** -/
theorem Settled.mono (hle : Le a a') {i : ℕ} {e : E} (hs : Settled a i e) : Settled a' i e := by
  obtain ⟨t, P, hP, hi⟩ := hs
  exact ⟨t, P, hP.mono hle, hi⟩

/-- What is settled is settled with everything before it. -/
theorem Settled.below {i j : ℕ} {e : E} (hs : Settled a i e) (hji : j ≤ i) :
    ∃ e', Settled a j e' := by
  obtain ⟨t, P, hP, hi⟩ := hs
  have hlt : j < P.length := lt_of_le_of_lt hji (List.getElem?_eq_some_iff.mp hi).1
  exact ⟨P[j], t, P, hP, List.getElem?_eq_getElem hlt⟩

/-- **Only one entry is ever settled at a position.** -/
theorem Settled.unique (h : Inv R a) {i : ℕ} {e e' : E} (hs : Settled a i e)
    (hs' : Settled a i e') : e = e' := by
  obtain ⟨t, P, hP, hi⟩ := hs
  obtain ⟨t', P', hP', hi'⟩ := hs'
  rcases hP.comparable h hP' with hp | hp
  · rw [prefix_getElem?_some hp hi] at hi'
    exact Option.some.inj hi'
  · rw [prefix_getElem?_some hp hi'] at hi
    exact (Option.some.inj hi).symm

/-- **What is chosen is held by a quorum**, now: the members that accepted it have kept it,
because the leaders of the later terms did. -/
theorem Chosen.on_quorum (h : Inv R a) {t : ℕ} {P : List E} (hc : Chosen a t P) (hne : P ≠ []) :
    ∃ q, R.Quorum q ∧ ∀ v ∈ q, P <+: a.log v := by
  obtain rfl | ⟨s, c, L, -, hL, hPL⟩ := hc
  · exact absurd rfl hne
  have hpos : 0 < a.decided s := by
    rcases Nat.eq_zero_or_pos (a.decided s) with h0 | hpos
    · rw [h0, List.take_zero] at hPL
      exact absurd (List.prefix_nil.mp hPL) hne
    · exact hpos
  obtain ⟨c', L', -, q, hL', -, -, hq, hack⟩ := h.decided_quorum s hpos
  obtain ⟨rfl, rfl⟩ := Prod.mk.inj (Option.some.inj (hL.symm.trans hL'))
  refine ⟨q, hq, fun v hv => hPL.trans ?_⟩
  have hcur := h.acked_cur v s (lt_of_lt_of_le hpos (hack v hv))
  refine h.acked_log v s c L _ (Nat.lt_succ_of_le hcur) hL (hack v hv) ?_
  intro u cu Lu hlo hhi hLu
  have hchosen : Chosen a s (L.take (a.decided s)) :=
    Or.inr ⟨s, c, L, le_refl _, hL, List.prefix_refl _⟩
  exact hchosen.prefix_lead h (le_of_lt hlo) hLu

/-! ### What a member keeps -/

section Keeps

variable [DecidableEq N] {n : N} {P : List E}

/-- **A member does not give up what was chosen by its term.** The log it accepts instead of
its own is a leader's, who holds it too. -/
theorem Step.keeps_chosen (h : Inv R a) (hs : Step R n a a') (hc : Chosen a (a.cur n) P)
    (hp : P <+: a.log n) : P <+: a'.log n := by
  cases hs with
  | advance | stand | vote | decide => exact hp
  | elect e | append e =>
    simp only [Function.update_self]
    exact hp.trans (List.prefix_append _ _)
  | accept c L G F hlead hG hF =>
    simp only [Function.update_self]
    rcases hF with ⟨rfl, -⟩ | ⟨rfl, hnot⟩
    · exact hp
    · -- a shorter list of the leader would be a part of `P`, and the member held it
      rcases List.prefix_or_prefix_of_prefix (hc.prefix_lead h (le_refl _) hlead) hG with hPG | hGP
      · exact hPG
      · exact absurd (hGP.trans hp) hnot

/-- A node that has what is chosen keeps it. -/
theorem Moves.keeps_chosen (h : Inv R a) (hm : Moves R n a a') (hc : Chosen a (a.cur n) P)
    (hp : P <+: a.log n) : Chosen a' (a'.cur n) P ∧ P <+: a'.log n := by
  induction hm with
  | refl => exact ⟨hc, hp⟩
  | tail hm hs ih =>
    have hinv := (Moves.inv_le h hm).1
    have hle := hs.le hinv
    exact ⟨(ih.1.mono hle).later (hle.cur n), hs.keeps_chosen hinv ih.1 ih.2⟩

end Keeps

end Consensus

end DistQueue
