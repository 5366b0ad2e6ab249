import DistQueue.Consensus.Ledger

/-!
# The invariant of the ledger

`DistQueue.Consensus.Inv` is what the steps of `DistQueue.Consensus.Step` keep,
and `DistQueue.Consensus.Inv.step` is that they do. Two of its fields carry the
argument for leader completeness, and both say the same thing of a log `F` and a
term `t` (`DistQueue.Consensus.Carries`): whatever a member had accepted in the
terms below `t`, `F` still holds – *provided* the leaders in between held it as
well (`DistQueue.Consensus.Kept`). A member's own log carries what it accepted up
to its current term, and the log it had when it voted in a term carries what it
had accepted below that term. The proviso is what makes the statement inductive;
the induction on the term in `DistQueue.Consensus.Chosen` discharges it.
-/

namespace DistQueue

namespace Consensus

variable {N E : Type} {R : Rules N E}

/-! ### What a log carries over from earlier terms -/

/-- Every leader of a term strictly between the two holds `P`. -/
def Kept (a : Ledger N E) (P : List E) (lo hi : ℕ) : Prop :=
  ∀ t c L, lo < t → t < hi → a.lead t = some (c, L) → P <+: L

/-- **The log `F` carries what `v` accepted below `t`**, as far as the leaders in
between kept it. -/
def Carries (a : Ledger N E) (v : N) (t : ℕ) (F : List E) : Prop :=
  ∀ s c L k, s < t → a.lead s = some (c, L) → k ≤ a.acked v s → Kept a (L.take k) s t →
    L.take k <+: F

variable (R) in
/-- **A vote that counts**: `c` stood in the term with a log at least as up to date
as the voter's, and the voter's log carried what it had accepted. -/
def Backed (a : Ledger N E) (v : N) (t : ℕ) (c : N) : Prop :=
  ∃ B F, a.stand c t = some B ∧ UpToDate R.term B F ∧ Sound R a F ∧ Carries a v t F

variable (R) in
/-- **The invariant of the ledger.** -/
structure Inv (a : Ledger N E) : Prop where
  /-- The logs of the members are sound, -/
  log_sound : ∀ n, Sound R a (a.log n)
  /-- and hold no entry of a later term. -/
  log_term : ∀ n, ∀ e ∈ a.log n, R.term e ≤ a.cur n
  /-- A member has reached the terms it stood in, -/
  stand_cur : ∀ n t B, a.stand n t = some B → t ≤ a.cur n
  /-- with a sound log -/
  stand_sound : ∀ n t B, a.stand n t = some B → Sound R a B
  /-- of earlier entries. -/
  stand_term : ∀ n t B, a.stand n t = some B → ∀ e ∈ B, R.term e < t
  /-- The log of a leader is the log it stood with and entries of its term. -/
  lead_base : ∀ t c L, a.lead t = some (c, L) → ∃ B, a.stand c t = some B ∧ B <+: L ∧
    B.length < L.length ∧ ∀ i e, B.length ≤ i → L[i]? = some e → R.term e = t
  /-- A leader that is still in its term holds the log of the term. -/
  lead_log : ∀ c L, a.lead (a.cur c) = some (c, L) → a.log c = L
  /-- A member has reached the terms it voted in. -/
  vote_cur : ∀ v t c, a.vote v t = some c → t ≤ a.cur v
  /-- The votes of a term that has no leader yet count, -/
  vote_backed : ∀ v t c, a.vote v t = some c → a.lead t = none → Backed R a v t c
  /-- and so do those that made a leader, which are a quorum. -/
  lead_backed : ∀ t c L, a.lead t = some (c, L) →
    ∃ q, R.Quorum q ∧ ∀ v ∈ q, a.vote v t = some c ∧ Backed R a v t c
  /-- What is accepted is part of a leader's log, -/
  acked_lead : ∀ v t, 0 < a.acked v t → ∃ c L, a.lead t = some (c, L) ∧ a.acked v t ≤ L.length
  /-- in a term the member has reached, -/
  acked_cur : ∀ v t, 0 < a.acked v t → t ≤ a.cur v
  /-- and is carried by the member's log. -/
  acked_log : ∀ v, Carries a v (a.cur v + 1) (a.log v)
  /-- What is decided ends in an entry of the term, accepted by a quorum. -/
  decided_quorum : ∀ t, 0 < a.decided t → ∃ c L e q, a.lead t = some (c, L) ∧
    L[a.decided t - 1]? = some e ∧ R.term e = t ∧ R.Quorum q ∧ ∀ v ∈ q, a.decided t ≤ a.acked v t

namespace Inv

variable {a a' : Ledger N E}

/-- The log of a leader is sound. -/
theorem lead_sound (h : Inv R a) {t : ℕ} {c : N} {L : List E} (hL : a.lead t = some (c, L)) :
    Sound R a L := by
  intro i e hi
  obtain ⟨B, hB, hBL, -, hterm⟩ := h.lead_base t c L hL
  rcases Nat.lt_or_ge i B.length with hlt | hge
  · have hBi : B[i]? = some e := by rw [prefix_getElem?_eq hBL hlt]; exact hi
    obtain ⟨c', L', hL', hp⟩ := h.stand_sound c t B hB i e hBi
    rw [← prefix_take_eq hBL (by omega)] at hp
    exact ⟨c', L', hL', hp⟩
  · rw [hterm i e hge hi]
    exact ⟨c, L, hL, List.take_prefix _ _⟩

/-- The log of a leader has no entry of a later term. -/
theorem lead_term (h : Inv R a) {t : ℕ} {c : N} {L : List E} (hL : a.lead t = some (c, L)) {e : E}
    (he : e ∈ L) : R.term e ≤ t := by
  obtain ⟨B, hB, hBL, -, hterm⟩ := h.lead_base t c L hL
  obtain ⟨i, hi⟩ := List.mem_iff_getElem?.mp he
  rcases Nat.lt_or_ge i B.length with hlt | hge
  · have hBi : B[i]? = some e := by rw [prefix_getElem?_eq hBL hlt]; exact hi
    exact le_of_lt (h.stand_term c t B hB e (List.mem_of_getElem? hBi))
  · exact le_of_eq (hterm i e hge hi)

/-- The log of a leader ends in an entry of its term. -/
theorem lead_last (h : Inv R a) {t : ℕ} {c : N} {L : List E} (hL : a.lead t = some (c, L)) :
    ∃ e ∈ L, R.term e = t := by
  obtain ⟨B, -, -, hlen, hterm⟩ := h.lead_base t c L hL
  obtain ⟨e, he⟩ : ∃ e, L[B.length]? = some e := ⟨_, List.getElem?_eq_getElem hlen⟩
  exact ⟨e, List.mem_of_getElem? he, hterm _ e (le_refl _) he⟩

/-- A member has accepted at most what the leader has written. -/
theorem acked_le (h : Inv R a) {t : ℕ} {c : N} {L : List E} (hL : a.lead t = some (c, L)) (v : N) :
    a.acked v t ≤ L.length := by
  rcases Nat.eq_zero_or_pos (a.acked v t) with h0 | hpos
  · omega
  · obtain ⟨c', L', hL', hle⟩ := h.acked_lead v t hpos
    rw [hL, Option.some.injEq, Prod.mk.injEq] at hL'
    rw [hL'.2]
    exact hle

/-- Without a leader nothing is acknowledged. -/
theorem acked_eq_zero (h : Inv R a) {t : ℕ} (hL : a.lead t = none) (v : N) : a.acked v t = 0 := by
  rcases Nat.eq_zero_or_pos (a.acked v t) with h0 | hpos
  · exact h0
  · obtain ⟨c', L', hL', -⟩ := h.acked_lead v t hpos
    rw [hL] at hL'
    cases hL'

end Inv

section Mono

variable {a a' : Ledger N E}

/-- What the leaders hold of an earlier log they held before they grew: an entry
they have added is of their own, later term. -/
theorem Kept.of_le (h : Inv R a) (hle : Le a a') {P : List E} {lo hi : ℕ}
    (hP : ∀ e ∈ P, R.term e ≤ lo) (hk : Kept a' P lo hi) : Kept a P lo hi := by
  intro t c L hlo hhi hL
  obtain ⟨L', hL', hLL'⟩ := hle.lead t c L hL
  rcases List.prefix_or_prefix_of_prefix (hk t c L' hlo hhi hL') hLL' with hPL | hLP
  · exact hPL
  · obtain ⟨e, he, hterm⟩ := h.lead_last hL
    have := hP e (hLP.mem he)
    omega

theorem Carries.mono (h : Inv R a) (hle : Le a a') {v : N} {t : ℕ} {F : List E}
    (hack : ∀ s, s < t → a'.acked v s = a.acked v s) (hc : Carries a v t F) :
    Carries a' v t F := by
  intro s c L' k hs hL' hk hkept
  rw [hack s hs] at hk
  cases hL : a.lead s with
  | none =>
    obtain rfl : k = 0 := by rw [h.acked_eq_zero hL] at hk; omega
    simp
  | some cL =>
    obtain ⟨c₀, L⟩ := cL
    obtain ⟨L'', hL'', hLL'⟩ := hle.lead s c₀ L hL
    rw [hL', Option.some.injEq, Prod.mk.injEq] at hL''
    obtain ⟨rfl, rfl⟩ := hL''
    rw [prefix_take_eq hLL' (le_trans hk (h.acked_le hL v))] at hkept ⊢
    refine hc s c L k hs hL hk (hkept.of_le h hle fun e he => ?_)
    exact h.lead_term hL (List.mem_of_mem_take he)

/-- A member that moves to a later term has accepted nothing there yet. -/
theorem Carries.widen (h : Inv R a) {v : N} {t : ℕ} {F : List E} (ht : a.cur v ≤ t)
    (hc : Carries a v (a.cur v + 1) F) : Carries a v (t + 1) F := by
  intro s c L k hs hL hk hkept
  rcases Nat.lt_or_ge (a.cur v) s with hlt | hge
  · have h0 : a.acked v s = 0 := by
      by_contra hne
      have := h.acked_cur v s (Nat.pos_of_ne_zero hne)
      omega
    obtain rfl : k = 0 := by omega
    simp
  · exact hc s c L k (by omega) hL hk fun u c' L' h₁ h₂ => hkept u c' L' h₁ (by omega)

theorem Backed.mono (h : Inv R a) (hle : Le a a') {v c : N} {t : ℕ} (ht : t ≤ a.cur v)
    (hb : Backed R a v t c) : Backed R a' v t c := by
  obtain ⟨B, F, hB, hup, hF, hc⟩ := hb
  exact ⟨B, F, hle.stand c t B hB, hup, hF.mono hle,
    hc.mono h hle fun s hs => hle.frozen v s (lt_of_lt_of_le hs ht)⟩

/-- The quorum that made a leader still backs it, -/
theorem Inv.lead_backed_mono (h : Inv R a) (hle : Le a a') {t : ℕ} {c : N} {L : List E}
    (hL : a.lead t = some (c, L)) :
    ∃ q, R.Quorum q ∧ ∀ v ∈ q, a'.vote v t = some c ∧ Backed R a' v t c := by
  obtain ⟨q, hq, hqv⟩ := h.lead_backed t c L hL
  refine ⟨q, hq, fun v hv => ?_⟩
  obtain ⟨hvote, hback⟩ := hqv v hv
  exact ⟨hle.vote v t c hvote, hback.mono h hle (h.vote_cur v t c hvote)⟩

/-- what was accepted is still part of a leader's log, -/
theorem Inv.acked_lead_mono (h : Inv R a) (hle : Le a a') {v : N} {t : ℕ}
    (hpos : 0 < a.acked v t) : ∃ c L, a'.lead t = some (c, L) ∧ a.acked v t ≤ L.length := by
  obtain ⟨c, L, hL, hlen⟩ := h.acked_lead v t hpos
  obtain ⟨L', hL', hLL'⟩ := hle.lead t c L hL
  exact ⟨c, L', hL', le_trans hlen hLL'.length_le⟩

/-- and what was decided is still accepted by its quorum. -/
theorem Inv.decided_quorum_mono (h : Inv R a) (hle : Le a a') {t : ℕ} (hpos : 0 < a.decided t) :
    ∃ c L e q, a'.lead t = some (c, L) ∧ L[a.decided t - 1]? = some e ∧ R.term e = t ∧
      R.Quorum q ∧ ∀ v ∈ q, a.decided t ≤ a'.acked v t := by
  obtain ⟨c, L, e, q, hL, hk, hterm, hq, hack⟩ := h.decided_quorum t hpos
  obtain ⟨L', hL', hLL'⟩ := hle.lead t c L hL
  exact ⟨c, L', e, q, hL', prefix_getElem?_some hLL' hk, hterm, hq,
    fun v hv => le_trans (hack v hv) (hle.acked v t)⟩

/-- The entries of a log from a position on are of one term. -/
theorem terms_concat {F : List E} {e : E} {k t : ℕ}
    (hF : ∀ i e', k ≤ i → F[i]? = some e' → R.term e' = t) (he : R.term e = t) {i : ℕ} {e' : E}
    (hi : k ≤ i) (hie : (F ++ [e])[i]? = some e') : R.term e' = t := by
  rcases Nat.lt_or_ge i F.length with hlt | hge
  · rw [List.getElem?_append_left hlt] at hie
    exact hF i e' hi hie
  · rw [List.getElem?_append_right hge] at hie
    rw [List.mem_singleton.mp (List.mem_of_getElem? hie)]
    exact he

/-- One entry more, of its leader's log. -/
theorem Sound.concat {F : List E} {e : E} {c : N} {L : List E} (hF : Sound R a F)
    (hL : a.lead (R.term e) = some (c, L)) (hp : F ++ [e] <+: L) : Sound R a (F ++ [e]) := by
  intro i e' hi
  rcases Nat.lt_or_ge i F.length with hlt | hge
  · rw [List.getElem?_append_left hlt] at hi
    obtain ⟨c', L', hL', hp'⟩ := hF i e' hi
    rw [← prefix_take_eq (List.prefix_append F [e]) (by omega)] at hp'
    exact ⟨c', L', hL', hp'⟩
  · have hlen : i < (F ++ [e]).length := (List.getElem?_eq_some_iff.mp hi).1
    have hi' : i = F.length := by simp at hlen; omega
    subst hi'
    obtain rfl : e = e' := by simpa using hi
    exact ⟨c, L, hL, (List.take_prefix _ _).trans hp⟩

end Mono

/-! ### The steps respect the order -/

section Steps

variable [DecidableEq N] {a a' : Ledger N E} {n : N}

theorem le_update {f : N → ℕ} {t : ℕ} (ht : f n ≤ t) (m : N) : f m ≤ Function.update f n t m := by
  rcases eq_or_ne m n with rfl | hm
  · simpa using ht
  · simp [Function.update_of_ne hm]

/-- The log a member is about to extend is the log of its term, if the term has
one. -/
theorem le_grow (h : Inv R a) (e : E)
    (hold : ∀ c L, a.lead (a.cur n) = some (c, L) → c = n ∧ L = a.log n) :
    Le a (a.grow n e) where
  cur := fun _ => le_refl _
  lead := fun t c L hL => by
    rcases eq_or_ne t (a.cur n) with rfl | ht
    · obtain ⟨rfl, rfl⟩ := hold c L hL
      exact ⟨a.log c ++ [e], by simp, List.prefix_append _ _⟩
    · exact ⟨L, by simpa [Function.update_of_ne ht] using hL, List.prefix_refl L⟩
  stand := fun _ _ _ hB => hB
  vote := fun _ _ _ hv => hv
  acked := fun v t => by
    by_cases hvt : v = n ∧ t = a.cur n
    · obtain ⟨rfl, rfl⟩ := hvt
      simp only [put_self]
      cases hL : a.lead (a.cur v) with
      | none => rw [h.acked_eq_zero hL]; omega
      | some cL =>
        obtain ⟨c, L⟩ := cL
        obtain ⟨rfl, rfl⟩ := hold c L hL
        have := h.acked_le hL c
        omega
    · simp [put_of_ne _ _ hvt]
  frozen := fun v t ht => put_of_ne _ _ (by rintro ⟨rfl, rfl⟩; omega)
  decided := fun _ => le_refl _

/-- **A step withdraws nothing.** -/
theorem Step.le (h : Inv R a) (hs : Step R n a a') : Le a a' := by
  cases hs with
  | advance t ht => exact { Le.refl a with cur := le_update ht }
  | stand t ht =>
    refine { Le.refl a with cur := le_update (le_of_lt ht), stand := ?_, vote := ?_ }
    · intro m s B hB
      refine (put_of_ne _ _ ?_).trans hB
      rintro ⟨rfl, rfl⟩
      exact absurd (h.stand_cur m s B hB) (by omega)
    · intro v s c hv
      refine (put_of_ne _ _ ?_).trans hv
      rintro ⟨rfl, rfl⟩
      exact absurd (h.vote_cur v s c hv) (by omega)
  | vote c B hfree hB hup =>
    refine { Le.refl a with vote := ?_ }
    intro v s c' hv
    refine (put_of_ne _ _ ?_).trans hv
    rintro ⟨rfl, rfl⟩
    rw [hfree] at hv
    cases hv
  | elect e q hB hfree hq hv he =>
    refine le_grow h e fun c L hL => ?_
    rw [hfree] at hL
    cases hL
  | append e hlead he =>
    refine le_grow h e fun c L hL => ?_
    rw [hlead, Option.some.injEq, Prod.mk.injEq] at hL
    exact ⟨hL.1.symm, hL.2.symm⟩
  | accept c L G F hlead hG hF =>
    refine { Le.refl a with acked := ?_, frozen := ?_ }
    · intro v t
      by_cases hvt : v = n ∧ t = a.cur n
      · obtain ⟨rfl, rfl⟩ := hvt
        simp
      · simp [put_of_ne _ _ hvt]
    · exact fun v t ht => put_of_ne _ _ (by rintro ⟨rfl, rfl⟩; omega)
  | decide L k e q hlead hk he hq hack =>
    refine { Le.refl a with decided := fun t => ?_ }
    rcases eq_or_ne t (a.cur n) with rfl | ht
    · simp
    · simp [Function.update_of_ne ht]

omit [DecidableEq N] in
/-- **What another member's step leaves alone**: a member's term, log, votes,
candidacies and acceptances, and the terms it leads. -/
structure Untouched (a a' : Ledger N E) (m : N) : Prop where
  cur : a'.cur m = a.cur m
  log : a'.log m = a.log m
  vote : a'.vote m = a.vote m
  stand : a'.stand m = a.stand m
  acked : a'.acked m = a.acked m
  lead : ∀ t L, a'.lead t = some (m, L) ↔ a.lead t = some (m, L)

/-- **The frame of a step.** -/
theorem Step.frame (hs : Step R n a a') {m : N} (hm : m ≠ n) : Untouched a a' m := by
  have hput : ∀ {β : Type} (f : N → ℕ → β) (t : ℕ) (v : β), put f n t v m = f m :=
    fun f t v => funext fun s => put_of_ne f v fun hc => hm hc.1
  have hgrow : ∀ L₀ : List E, (∀ c L, a.lead (a.cur n) = some (c, L) → c = n) → ∀ t L,
      Function.update a.lead (a.cur n) (some (n, L₀)) t = some (m, L) ↔
        a.lead t = some (m, L) := by
    intro L₀ hold t L
    rcases eq_or_ne t (a.cur n) with rfl | ht
    · rw [Function.update_self, Option.some.injEq, Prod.mk.injEq]
      exact ⟨fun hc => absurd hc.1.symm hm, fun hc => absurd (hold m L hc) hm⟩
    · rw [Function.update_of_ne ht]
  cases hs with
  | advance t ht => exact ⟨Function.update_of_ne hm _ _, rfl, rfl, rfl, rfl, fun _ _ => Iff.rfl⟩
  | stand t ht =>
    exact ⟨Function.update_of_ne hm _ _, rfl, hput _ _ _, hput _ _ _, rfl, fun _ _ => Iff.rfl⟩
  | vote c B hfree hB hup => exact ⟨rfl, rfl, hput _ _ _, rfl, rfl, fun _ _ => Iff.rfl⟩
  | elect e q hB hfree hq hv he =>
    refine ⟨rfl, Function.update_of_ne hm _ _, rfl, rfl, hput _ _ _, hgrow _ fun c L hL => ?_⟩
    rw [hfree] at hL
    cases hL
  | append e hlead he =>
    refine ⟨rfl, Function.update_of_ne hm _ _, rfl, rfl, hput _ _ _, hgrow _ fun c L hL => ?_⟩
    rw [hlead, Option.some.injEq, Prod.mk.injEq] at hL
    exact hL.1.symm
  | accept c L G F hlead hG hF =>
    exact ⟨rfl, Function.update_of_ne hm _ _, rfl, rfl, hput _ _ _, fun _ _ => Iff.rfl⟩
  | decide L k e q hlead hk he hq hack => exact ⟨rfl, rfl, rfl, rfl, rfl, fun _ _ => Iff.rfl⟩

/-! ### The steps keep the invariant -/

omit [DecidableEq N] in
/-- What a log carries depends only on who led what and on what was accepted. -/
theorem Carries.congr {v : N} {t : ℕ} {F : List E} (hlead : a'.lead = a.lead)
    (hack : a'.acked v = a.acked v) (hc : Carries a v t F) : Carries a' v t F := by
  intro s c L k hs hL hk hkept
  rw [hlead] at hL
  rw [hack] at hk
  refine hc s c L k hs hL hk fun u c' L' h₁ h₂ hL' => hkept u c' L' h₁ h₂ ?_
  rw [hlead]
  exact hL'

/-- **A node may learn of a later term.** -/
theorem Inv.advance (h : Inv R a) {t : ℕ} (ht : a.cur n ≤ t) :
    Inv R (a.reach n t) where
  log_sound := h.log_sound
  log_term := fun m e he => le_trans (h.log_term m e he) (le_update ht m)
  stand_cur := fun m s B hB => le_trans (h.stand_cur m s B hB) (le_update ht m)
  stand_sound := h.stand_sound
  stand_term := h.stand_term
  lead_base := h.lead_base
  lead_log := fun c L hL => by
    rcases eq_or_ne c n with rfl | hc
    · simp only [Function.update_self] at hL
      obtain ⟨B, hB, -⟩ := h.lead_base t c L hL
      obtain rfl : t = a.cur c := le_antisymm (h.stand_cur c t B hB) ht
      exact h.lead_log c L hL
    · simp only [Function.update_of_ne hc] at hL
      exact h.lead_log c L hL
  vote_cur := fun v s c hv => le_trans (h.vote_cur v s c hv) (le_update ht v)
  vote_backed := h.vote_backed
  lead_backed := h.lead_backed
  acked_lead := h.acked_lead
  acked_cur := fun v s hv => le_trans (h.acked_cur v s hv) (le_update ht v)
  acked_log := fun v => by
    rcases eq_or_ne v n with rfl | hv
    · simp only [Function.update_self]
      exact (h.acked_log v).widen h ht
    · simp only [Function.update_of_ne hv]
      exact h.acked_log v
  decided_quorum := h.decided_quorum

/-- **A node may stand in a later term.** -/
theorem Inv.stand (h : Inv R a) {t : ℕ} (ht : a.cur n < t) :
    Inv R (a.candidacy n t) := by
  have hle := Step.le h (Step.stand (R := R) (n := n) t ht)
  have ha := h.advance (n := n) (le_of_lt ht)
  -- the log the member stands with, if this is the candidacy just recorded
  have hstand : ∀ m s B, put a.stand n t (some (a.log n)) m s = some B →
      (m = n ∧ s = t ∧ B = a.log n) ∨ a.stand m s = some B := by
    intro m s B hB
    by_cases hms : m = n ∧ s = t
    · obtain ⟨rfl, rfl⟩ := hms
      rw [put_self, Option.some.injEq] at hB
      exact Or.inl ⟨rfl, rfl, hB.symm⟩
    · rw [put_of_ne _ _ hms] at hB
      exact Or.inr hB
  refine { ha with
    stand_cur := ?_, stand_sound := ?_, stand_term := ?_, lead_base := ?_, vote_cur := ?_,
    vote_backed := ?_, lead_backed := ?_ }
  · intro m s B hB
    rcases hstand m s B hB with ⟨rfl, rfl, -⟩ | hB
    · simp
    · exact ha.stand_cur m s B hB
  · intro m s B hB
    rcases hstand m s B hB with ⟨rfl, rfl, rfl⟩ | hB
    · exact h.log_sound m
    · exact h.stand_sound m s B hB
  · intro m s B hB e he
    rcases hstand m s B hB with ⟨rfl, rfl, rfl⟩ | hB
    · exact lt_of_le_of_lt (h.log_term m e he) ht
    · exact h.stand_term m s B hB e he
  · intro s c L hL
    obtain ⟨B, hB, hrest⟩ := h.lead_base s c L hL
    exact ⟨B, hle.stand c s B hB, hrest⟩
  · intro v s c hv
    by_cases hvs : v = n ∧ s = t
    · obtain ⟨rfl, rfl⟩ := hvs
      simp
    · simp only [put_of_ne _ _ hvs] at hv
      exact ha.vote_cur v s c hv
  · intro v s c hv hnone
    by_cases hvs : v = n ∧ s = t
    · obtain ⟨rfl, rfl⟩ := hvs
      simp only [put_self, Option.some.injEq] at hv
      subst hv
      refine ⟨a.log v, a.log v, by simp, upToDate_refl R.term _, h.log_sound v, ?_⟩
      obtain ⟨u, rfl⟩ : ∃ u, s = u + 1 := ⟨s - 1, by omega⟩
      exact ((h.acked_log v).widen h (by omega)).congr rfl rfl
    · simp only [put_of_ne _ _ hvs] at hv
      exact (h.vote_backed v s c hv hnone).mono h hle (h.vote_cur v s c hv)
  · exact fun s c L hL => h.lead_backed_mono hle hL

/-- **A node may vote**, once a term, for a candidate whose log is up to date. -/
theorem Inv.vote (h : Inv R a) {c : N} {B : List E} (hfree : a.vote n (a.cur n) = none)
    (hB : a.stand c (a.cur n) = some B) (hup : UpToDate R.term B (a.log n)) :
    Inv R (a.ballot n c) := by
  have hle := Step.le h (Step.vote c B hfree hB hup)
  refine { h with vote_cur := ?_, vote_backed := ?_, lead_backed := ?_ }
  · intro v s c' hv
    by_cases hvs : v = n ∧ s = a.cur n
    · obtain ⟨rfl, rfl⟩ := hvs
      exact le_refl _
    · simp only [put_of_ne _ _ hvs] at hv
      exact h.vote_cur v s c' hv
  · intro v s c' hv hnone
    by_cases hvs : v = n ∧ s = a.cur n
    · obtain ⟨rfl, rfl⟩ := hvs
      simp only [put_self, Option.some.injEq] at hv
      subst hv
      refine ⟨B, a.log v, hB, hup, h.log_sound v, fun s c' L k hs hL hk hkept => ?_⟩
      -- the term has no leader yet, so there is nothing to keep in it
      refine h.acked_log v s c' L k (by omega) hL hk fun u c'' L' h₁ h₂ hL' => ?_
      rcases eq_or_ne u (a.cur v) with rfl | hu
      · rw [hnone] at hL'
        cases hL'
      · exact hkept u c'' L' h₁ (by omega) hL'
    · simp only [put_of_ne _ _ hvs] at hv
      exact h.vote_backed v s c' hv hnone
  · exact fun s c' L hL => h.lead_backed_mono hle hL

/-- A leader's log carries what the leader has accepted. -/
theorem Inv.carries_grow (h : Inv R a) {e : E} (hle : Le a (a.grow n e)) :
    Carries (a.grow n e) n (a.cur n + 1) (a.log n ++ [e]) := by
  intro s c L k hs hL hk hkept
  rcases eq_or_ne s (a.cur n) with rfl | hsn
  · have hlead : (a.grow n e).lead (a.cur n) = some (n, a.log n ++ [e]) := Function.update_self ..
    rw [hlead, Option.some.injEq, Prod.mk.injEq] at hL
    rw [hL.2]
    exact List.take_prefix _ _
  · have hlead : (a.grow n e).lead s = a.lead s := Function.update_of_ne hsn ..
    have hack : (a.grow n e).acked n s = a.acked n s := put_of_ne _ _ fun hc => hsn hc.2
    rw [hlead] at hL
    rw [hack] at hk
    refine (h.acked_log n s c L k hs hL hk ?_).trans (List.prefix_append _ _)
    exact hkept.of_le h hle fun e' he' => h.lead_term hL (List.mem_of_mem_take he')

/-- Winning a term and appending to it are one and the same change of the ledger;
the hypotheses are what the two have in common. -/
theorem Inv.grow (h : Inv R a) {e : E} {B : List E} {q : Finset N}
    (hold : ∀ c L, a.lead (a.cur n) = some (c, L) → c = n ∧ L = a.log n)
    (hB : a.stand n (a.cur n) = some B) (hBn : B <+: a.log n)
    (hown : ∀ i e', B.length ≤ i → (a.log n)[i]? = some e' → R.term e' = a.cur n)
    (hq : R.Quorum q) (hv : ∀ v ∈ q, a.vote v (a.cur n) = some n ∧ Backed R a v (a.cur n) n)
    (he : R.term e = a.cur n) :
    Inv R (a.grow n e) := by
  have hle := le_grow h e hold
  set a' : Ledger N E := a.grow n e with ha'
  have hlead : a'.lead (a.cur n) = some (n, a.log n ++ [e]) := Function.update_self ..
  have hlead_ne : ∀ t, t ≠ a.cur n → a'.lead t = a.lead t := fun t ht => Function.update_of_ne ht ..
  have hlog : a'.log n = a.log n ++ [e] := Function.update_self ..
  have hlog_ne : ∀ m, m ≠ n → a'.log m = a.log m := fun m hm => Function.update_of_ne hm ..
  refine {
    log_sound := ?_, log_term := ?_, stand_cur := h.stand_cur,
    stand_sound := fun m t B' hB' => (h.stand_sound m t B' hB').mono hle,
    stand_term := h.stand_term, lead_base := ?_, lead_log := ?_, vote_cur := h.vote_cur,
    vote_backed := ?_, lead_backed := ?_, acked_lead := ?_, acked_cur := ?_, acked_log := ?_,
    decided_quorum := fun t hpos => h.decided_quorum_mono hle hpos }
  · intro m
    rcases eq_or_ne m n with rfl | hm
    · rw [hlog]
      exact ((h.log_sound m).mono hle).concat (by rw [he]; exact hlead) (List.prefix_refl _)
    · rw [hlog_ne m hm]
      exact (h.log_sound m).mono hle
  · intro m e' he'
    rcases eq_or_ne m n with rfl | hm
    · rw [hlog, List.mem_append, List.mem_singleton] at he'
      rcases he' with he' | rfl
      · exact h.log_term m e' he'
      · exact le_of_eq he
    · rw [hlog_ne m hm] at he'
      exact h.log_term m e' he'
  · intro t c L hL
    rcases eq_or_ne t (a.cur n) with rfl | ht
    · rw [hlead, Option.some.injEq, Prod.mk.injEq] at hL
      obtain ⟨rfl, rfl⟩ := hL
      refine ⟨B, hB, hBn.trans (List.prefix_append _ _), ?_, fun i e' => terms_concat hown he⟩
      rw [List.length_append, List.length_singleton]
      exact Nat.lt_succ_of_le hBn.length_le
    · rw [hlead_ne t ht] at hL
      exact h.lead_base t c L hL
  · intro c L hL
    change a'.lead (a.cur c) = some (c, L) at hL
    rcases eq_or_ne (a.cur c) (a.cur n) with ht | ht
    · rw [ht, hlead, Option.some.injEq, Prod.mk.injEq] at hL
      obtain ⟨rfl, rfl⟩ := hL
      exact hlog
    · rw [hlead_ne _ ht] at hL
      rw [hlog_ne c fun hc => ht (by rw [hc])]
      exact h.lead_log c L hL
  · intro v t c hvt hnone
    have ht : t ≠ a.cur n := by
      rintro rfl
      rw [hlead] at hnone
      cases hnone
    rw [hlead_ne t ht] at hnone
    exact (h.vote_backed v t c hvt hnone).mono h hle (h.vote_cur v t c hvt)
  · intro t c L hL
    rcases eq_or_ne t (a.cur n) with rfl | ht
    · rw [hlead, Option.some.injEq, Prod.mk.injEq] at hL
      obtain ⟨rfl, rfl⟩ := hL
      exact ⟨q, hq, fun v hvq =>
        ⟨(hv v hvq).1, (hv v hvq).2.mono h hle (h.vote_cur v _ n (hv v hvq).1)⟩⟩
    · rw [hlead_ne t ht] at hL
      exact h.lead_backed_mono hle hL
  · intro v t hpos
    by_cases hvt : v = n ∧ t = a.cur n
    · obtain ⟨rfl, rfl⟩ := hvt
      exact ⟨v, _, hlead, by simp [ha']⟩
    · have hack : a'.acked v t = a.acked v t := put_of_ne _ _ hvt
      rw [hack] at hpos ⊢
      exact h.acked_lead_mono hle hpos
  · intro v t hpos
    by_cases hvt : v = n ∧ t = a.cur n
    · obtain ⟨rfl, rfl⟩ := hvt
      exact le_refl _
    · have hack : a'.acked v t = a.acked v t := put_of_ne _ _ hvt
      rw [hack] at hpos
      exact h.acked_cur v t hpos
  · intro v
    rcases eq_or_ne v n with rfl | hv
    · rw [hlog]
      exact h.carries_grow hle
    · rw [hlog_ne v hv]
      exact (h.acked_log v).mono h hle fun s _ => put_of_ne _ _ fun hc => hv hc.1

omit [DecidableEq N] in
/-- The log that a member holds after it has followed a leader carries what was accepted
before, -/
theorem Inv.carries_replace (h : Inv R a) {c : N} {L G F : List E}
    (hlead : a.lead (a.cur n) = some (c, L)) (hG : G <+: L)
    (hF : (F = a.log n ∧ G <+: a.log n) ∨ (F = G ∧ ¬G <+: a.log n)) :
    Carries a n (a.cur n + 1) F := by
  intro s c' L' k hs hL' hk hkept
  have hp : L'.take k <+: a.log n := h.acked_log n s c' L' k hs hL' hk hkept
  rcases hF with ⟨rfl, -⟩ | ⟨rfl, hnot⟩
  · exact hp
  · have hpL : L'.take k <+: L := by
      rcases eq_or_ne s (a.cur n) with rfl | hsn
      · rw [hlead, Option.some.injEq, Prod.mk.injEq] at hL'
        rw [hL'.2]
        exact List.take_prefix _ _
      · exact hkept (a.cur n) c L (by omega) (Nat.lt_succ_self _) hlead
    rcases List.prefix_or_prefix_of_prefix hpL hG with hpF | hFp
    · exact hpF
    · exact absurd (hFp.trans hp) hnot

/-- and what is accepted now. -/
theorem Inv.carries_take (h : Inv R a) {c : N} {L G F : List E}
    (hlead : a.lead (a.cur n) = some (c, L)) (hG : G <+: L) (hGF : G <+: F)
    (hF : (F = a.log n ∧ G <+: a.log n) ∨ (F = G ∧ ¬G <+: a.log n)) :
    Carries (a.take n F G.length) n (a.cur n + 1) F := by
  intro s c' L' k hs hL' hk hkept
  have hold : k ≤ a.acked n s → L'.take k <+: F := fun hk =>
    h.carries_replace hlead hG hF s c' L' k hs hL' hk hkept
  rcases eq_or_ne s (a.cur n) with rfl | hsn
  · simp only [put_self] at hk
    rcases Nat.lt_or_ge (a.acked n (a.cur n)) k with hlt | hge
    · change a.lead (a.cur n) = some (c', L') at hL'
      rw [hlead, Option.some.injEq, Prod.mk.injEq] at hL'
      rw [← hL'.2]
      refine List.IsPrefix.trans ?_ hGF
      exact prefix_take_le hG (by omega)
    · exact hold hge
  · simp only [put_of_ne _ _ fun hc : n = n ∧ s = a.cur n => hsn hc.2] at hk
    exact hold hk

/-- **A node may accept what the leader has**: it keeps its own log if that has it all, and takes
the leader's otherwise. -/
theorem Inv.accept (h : Inv R a) {c : N} {L G F : List E} (hlead : a.lead (a.cur n) = some (c, L))
    (hG : G <+: L) (hF : (F = a.log n ∧ G <+: a.log n) ∨ (F = G ∧ ¬G <+: a.log n)) :
    Inv R (a.take n F G.length) := by
  have hle := Step.le h (Step.accept c L G F hlead hG hF)
  have hGF : G <+: F := by
    rcases hF with ⟨rfl, hp⟩ | ⟨rfl, -⟩
    · exact hp
    · exact List.prefix_refl _
  have hsoundG : Sound R a G := (h.lead_sound hlead).prefix_closed hG
  refine { h with
    log_sound := ?_, log_term := ?_, lead_log := ?_,
    vote_backed := fun v t c' hv hnone =>
      (h.vote_backed v t c' hv hnone).mono h hle (h.vote_cur v t c' hv),
    lead_backed := fun t c' L' hL' => h.lead_backed_mono hle hL',
    acked_lead := ?_, acked_cur := ?_, acked_log := ?_,
    decided_quorum := fun t hpos => h.decided_quorum_mono hle hpos }
  · intro m
    rcases eq_or_ne m n with rfl | hm
    · simp only [Function.update_self]
      rcases hF with ⟨rfl, -⟩ | ⟨rfl, -⟩
      · exact h.log_sound m
      · exact hsoundG
    · simp only [Function.update_of_ne hm]
      exact h.log_sound m
  · intro m e he
    rcases eq_or_ne m n with rfl | hm
    · simp only [Function.update_self] at he
      rcases hF with ⟨rfl, -⟩ | ⟨rfl, -⟩
      · exact h.log_term m e he
      · exact h.lead_term hlead (hG.mem he)
    · simp only [Function.update_of_ne hm] at he
      exact h.log_term m e he
  · intro m L' hL'
    rcases eq_or_ne m n with rfl | hm
    · -- a leader holds the whole log of its term, so it keeps its own
      have hm := h.lead_log m L' hL'
      rw [hlead, Option.some.injEq, Prod.mk.injEq] at hL'
      obtain ⟨rfl, rfl⟩ := hL'
      simp only [Function.update_self]
      rcases hF with ⟨rfl, -⟩ | ⟨rfl, hnot⟩
      · exact hm
      · exact absurd (hm ▸ hG) hnot
    · simp only [Function.update_of_ne hm]
      exact h.lead_log m L' hL'
  · intro v t hpos
    by_cases hvt : v = n ∧ t = a.cur n
    · obtain ⟨rfl, rfl⟩ := hvt
      refine ⟨c, L, hlead, ?_⟩
      simp only [put_self]
      exact max_le (h.acked_le hlead v) hG.length_le
    · simp only [put_of_ne _ _ hvt] at hpos ⊢
      exact h.acked_lead v t hpos
  · intro v t hpos
    by_cases hvt : v = n ∧ t = a.cur n
    · obtain ⟨rfl, rfl⟩ := hvt
      exact le_refl _
    · simp only [put_of_ne _ _ hvt] at hpos
      exact h.acked_cur v t hpos
  · intro v
    rcases eq_or_ne v n with rfl | hv
    · simp only [Function.update_self]
      exact h.carries_take hlead hG hGF hF
    · simp only [Function.update_of_ne hv]
      exact Carries.congr (a := a) rfl (funext fun s => put_of_ne _ _ fun hc => hv hc.1)
        (h.acked_log v)

omit [DecidableEq N] in
/-- **A leader may decide** an entry of its own term that a quorum has acknowledged. -/
theorem Inv.decide (h : Inv R a) {L : List E} {k : ℕ} {e : E} {q : Finset N}
    (hlead : a.lead (a.cur n) = some (n, L)) (hk : L[k]? = some e) (he : R.term e = a.cur n)
    (hq : R.Quorum q) (hack : ∀ v ∈ q, k + 1 ≤ a.acked v (a.cur n)) :
    Inv R (a.settle n (k + 1)) := by
  refine { h with decided_quorum := fun t hpos => ?_ }
  rcases eq_or_ne t (a.cur n) with rfl | ht
  · simp only [Function.update_self] at hpos ⊢
    rcases Nat.lt_or_ge k (a.decided (a.cur n)) with hlt | hge
    · rw [max_eq_left (by omega : k + 1 ≤ a.decided (a.cur n))]
      exact h.decided_quorum (a.cur n) (by omega)
    · rw [max_eq_right (by omega : a.decided (a.cur n) ≤ k + 1)]
      exact ⟨n, L, e, q, hlead, hk, he, hq, hack⟩
  · simp only [Function.update_of_ne ht] at hpos ⊢
    exact h.decided_quorum t hpos

/-- **Every step keeps the invariant.** -/
theorem Inv.step (h : Inv R a) (hs : Step R n a a') : Inv R a' := by
  cases hs with
  | advance t ht => exact h.advance ht
  | stand t ht => exact h.stand ht
  | vote c B hfree hB hup => exact h.vote hfree hB hup
  | elect e q hB hfree hq hv he =>
    refine h.grow (fun c L hL => ?_) hB (List.prefix_refl _) (fun i e' hi hie => ?_) hq
      (fun v hvq => ⟨hv v hvq, h.vote_backed v _ n (hv v hvq) hfree⟩) he
    · rw [hfree] at hL
      cases hL
    · exact absurd (List.getElem?_eq_some_iff.mp hie).1 (by omega)
  | append e hlead he =>
    obtain ⟨B, hB, hBn, -, hown⟩ := h.lead_base _ n _ hlead
    obtain ⟨q, hq, hqv⟩ := h.lead_backed _ n _ hlead
    refine h.grow (fun c L hL => ?_) hB hBn hown hq hqv he
    rw [hlead, Option.some.injEq, Prod.mk.injEq] at hL
    exact ⟨hL.1.symm, hL.2.symm⟩
  | accept c L G F hlead hG hF => exact h.accept hlead hG hF
  | decide L k e q hlead hk he hq hack => exact h.decide hlead hk he hq hack

/-! ### Several steps of one member -/

variable (R) in
/-- What a member may do in one go. -/
def Moves (n : N) : Ledger N E → Ledger N E → Prop := Relation.ReflTransGen (Step R n)

theorem Moves.refl (a : Ledger N E) : Moves R n a a := Relation.ReflTransGen.refl

theorem Moves.one (hs : Step R n a a') : Moves R n a a' := Relation.ReflTransGen.single hs

theorem Moves.trans {b : Ledger N E} (h₁ : Moves R n a b) (h₂ : Moves R n b a') : Moves R n a a' :=
  Relation.ReflTransGen.trans h₁ h₂

/-- **Whatever a node does, the invariant is kept, and the ledger grows.** -/
theorem Moves.inv_le (h : Inv R a) (hm : Moves R n a a') : Inv R a' ∧ Le a a' := by
  induction hm with
  | refl => exact ⟨h, Le.refl a⟩
  | tail _ hs ih => exact ⟨ih.1.step hs, ih.2.trans (hs.le ih.1)⟩

/-- What a node does touches nobody else. -/
theorem Moves.frame (hm : Moves R n a a') {m : N} (hne : m ≠ n) : Untouched a a' m := by
  induction hm with
  | refl => exact ⟨rfl, rfl, rfl, rfl, rfl, fun _ _ => Iff.rfl⟩
  | tail _ hs ih =>
    have hf := hs.frame hne
    exact ⟨hf.cur.trans ih.cur, hf.log.trans ih.log, hf.vote.trans ih.vote,
      hf.stand.trans ih.stand, hf.acked.trans ih.acked,
      fun t L => (hf.lead t L).trans (ih.lead t L)⟩

end Steps

end Consensus

end DistQueue
