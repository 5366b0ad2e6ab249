import Mathlib.Data.List.Infix
import Mathlib.Logic.Relation

/-!
# Runs of a partial step function

A system that is stepped from the outside is a function `step : σ → α → Option σ`:
the label says what happens next, and `none` says that it cannot happen in this
state. Everything a development proves about such a system is a statement about
its finite runs, and follows from one of these rules:

* `DistQueue.Run.invariant` – what holds at the start and is kept by every step
  holds in every state reached;
* `DistQueue.Run.invariant_of_guarded` – the same for the runs whose steps all meet a
  condition on the state they are taken in;
* `DistQueue.Run.induction` and `DistQueue.Run.induction_of_guarded` – the same for a
  property that also looks at the run so far, which is what statements about two moments
  of one run are proved by;
* `DistQueue.Run.iterate_reaches` – what is repeated as long as it decreases a measure comes to
  an end.
-/

namespace DistQueue

namespace Run

variable {σ α : Type*} {step : σ → α → Option σ}

/-- The state a list of labels leads to, if every one of them can be taken. -/
def exec (step : σ → α → Option σ) (s : σ) : List α → Option σ
  | [] => some s
  | x :: xs => (step s x).bind fun s' => exec step s' xs

@[simp] theorem exec_nil (s : σ) : exec step s [] = some s := rfl

theorem exec_cons (s : σ) (x : α) (xs : List α) :
    exec step s (x :: xs) = (step s x).bind fun s' => exec step s' xs := rfl

theorem exec_append (s : σ) (xs ys : List α) :
    exec step s (xs ++ ys) = (exec step s xs).bind fun s' => exec step s' ys := by
  induction xs generalizing s with
  | nil => rfl
  | cons x xs ih =>
    simp only [List.cons_append, exec_cons]
    cases hx : step s x with
    | none => rfl
    | some s' => simpa using ih s'

/-- The last step of a run. -/
theorem exec_snoc {s s' : σ} {xs : List α} {x : α} :
    exec step s (xs ++ [x]) = some s' ↔ ∃ u, exec step s xs = some u ∧ step u x = some s' := by
  rw [exec_append, Option.bind_eq_some_iff]
  refine exists_congr fun u => and_congr_right fun _ => ?_
  rw [exec_cons, Option.bind_eq_some_iff]
  constructor
  · rintro ⟨v, hv, h⟩
    rw [hv]
    exact h
  · exact fun h => ⟨s', h, rfl⟩

/-- **Induction along a run**, for a property of the state and of how it was reached. -/
theorem induction {P : List α → σ → Prop} {s s' : σ} {xs : List α} (h₀ : P [] s)
    (hstep : ∀ ys u x u', exec step s ys = some u → P ys u → step u x = some u' →
      P (ys ++ [x]) u')
    (h : exec step s xs = some s') : P xs s' := by
  induction xs using List.reverseRecOn generalizing s' with
  | nil =>
    obtain rfl : s = s' := Option.some.inj h
    exact h₀
  | append_singleton ys x ih =>
    obtain ⟨u, hu, hx⟩ := exec_snoc.mp h
    exact hstep ys u x s' hu (ih hu) hx

/-- **The invariant rule.** -/
theorem invariant {P : σ → Prop} {s s' : σ} {xs : List α} (h₀ : P s)
    (hstep : ∀ u x u', P u → step u x = some u' → P u') (h : exec step s xs = some s') : P s' :=
  induction (P := fun _ => P) h₀ (fun _ u x u' _ => hstep u x u') h

/-- Every step of the run is taken in a state in which its label meets the condition
`G`. -/
def Guarded (step : σ → α → Option σ) (G : σ → α → Prop) (s : σ) : List α → Prop
  | [] => True
  | x :: xs => G s x ∧ (step s x).elim True fun s' => Guarded step G s' xs

instance Guarded.decidable {G : σ → α → Prop} [∀ s x, Decidable (G s x)] (s : σ) :
    (xs : List α) → Decidable (Guarded step G s xs)
  | [] => .isTrue trivial
  | x :: xs =>
    match hx : step s x with
    | none => decidable_of_iff (G s x) (by simp [Guarded, hx])
    | some s' =>
      have := Guarded.decidable (G := G) s' xs
      decidable_of_iff (G s x ∧ Guarded step G s' xs) (by simp [Guarded, hx])

theorem Guarded.of_append {G : σ → α → Prop} {s u : σ} {xs ys : List α}
    (hG : Guarded step G s (xs ++ ys)) (h : exec step s xs = some u) : Guarded step G u ys := by
  induction xs generalizing s with
  | nil =>
    obtain rfl : s = u := Option.some.inj h
    exact hG
  | cons y xs ih =>
    obtain ⟨-, hG⟩ := hG
    rw [exec_cons, Option.bind_eq_some_iff] at h
    obtain ⟨v, hv, h⟩ := h
    rw [hv] at hG
    exact ih hG h

/-- Labels that are allowed in every state. -/
theorem guarded_of_forall {G : σ → α → Prop} {s : σ} {xs : List α} (h : ∀ x ∈ xs, ∀ s, G s x) :
    Guarded step G s xs := by
  induction xs generalizing s with
  | nil => trivial
  | cons x xs ih =>
    obtain ⟨hx, hxs⟩ := List.forall_mem_cons.mp h
    refine ⟨hx s, ?_⟩
    cases step s x with
    | none => trivial
    | some s' => exact ih hxs

/-- A run of one allowed step. -/
theorem guarded_singleton {G : σ → α → Prop} {s : σ} {x : α} (h : G s x) :
    Guarded step G s [x] := by
  refine ⟨h, ?_⟩
  cases step s x <;> trivial

/-- What every allowed label has, the labels of a guarded run have. -/
theorem Guarded.forall_mem {G : σ → α → Prop} {P : α → Prop} {s s' : σ} {xs : List α}
    (hG : Guarded step G s xs) (hP : ∀ s x, G s x → P x) (h : exec step s xs = some s') :
    ∀ x ∈ xs, P x := by
  induction xs generalizing s with
  | nil => exact fun x hx => absurd hx List.not_mem_nil
  | cons y xs ih =>
    obtain ⟨hy, hG⟩ := hG
    rw [exec_cons, Option.bind_eq_some_iff] at h
    obtain ⟨u, hu, h⟩ := h
    rw [hu] at hG
    exact List.forall_mem_cons.mpr ⟨hP s y hy, ih hG h⟩

/-- A guarded run goes on. -/
theorem Guarded.append {G : σ → α → Prop} {s u : σ} {xs ys : List α} (hG : Guarded step G s xs)
    (h : exec step s xs = some u) (hG' : Guarded step G u ys) : Guarded step G s (xs ++ ys) := by
  induction xs generalizing s with
  | nil =>
    obtain rfl : s = u := Option.some.inj h
    exact hG'
  | cons y xs ih =>
    obtain ⟨hy, hG⟩ := hG
    rw [exec_cons, Option.bind_eq_some_iff] at h
    obtain ⟨v, hv, h⟩ := h
    rw [hv] at hG
    refine ⟨hy, ?_⟩
    rw [hv]
    exact ih hG h

/-- The beginning of a guarded run is guarded. -/
theorem Guarded.left {G : σ → α → Prop} {s : σ} {xs ys : List α}
    (hG : Guarded step G s (xs ++ ys)) : Guarded step G s xs := by
  induction xs generalizing s with
  | nil => trivial
  | cons x xs ih =>
    obtain ⟨hx, hG⟩ := hG
    refine ⟨hx, ?_⟩
    cases hs : step s x with
    | none => trivial
    | some s' =>
      rw [hs] at hG
      exact ih hG

/-- **Induction along a guarded run**: the step may use that its label was allowed in the
state it was taken in. -/
theorem induction_of_guarded {P : List α → σ → Prop} {G : σ → α → Prop} {s s' : σ} {xs : List α}
    (h₀ : P [] s)
    (hstep : ∀ ys u x u', exec step s ys = some u → P ys u → G u x → step u x = some u' →
      P (ys ++ [x]) u')
    (hG : Guarded step G s xs) (h : exec step s xs = some s') : P xs s' := by
  refine induction (P := fun ys u => Guarded step G s ys → P ys u) (fun _ => h₀) ?_ h hG
  intro ys u x u' hu ih hx hG
  exact hstep ys u x u' hu (ih hG.left) (hG.of_append hu).1 hx

/-- **The invariant rule for guarded runs.** -/
theorem invariant_of_guarded {P : σ → Prop} {G : σ → α → Prop} {s s' : σ} {xs : List α} (h₀ : P s)
    (hstep : ∀ u x u', P u → G u x → step u x = some u' → P u') (hG : Guarded step G s xs)
    (h : exec step s xs = some s') : P s' :=
  induction_of_guarded (P := fun _ => P) h₀ (fun _ u x u' _ => hstep u x u') hG h

/-! ### Repeating one action -/

/-- `k` times in a row, if there is a result each time. -/
def iterate (f : σ → Option σ) : ℕ → σ → Option σ
  | 0, s => some s
  | k + 1, s => (f s).bind (iterate f k)

/-- **The rule for repetitions that come to an end**: every repetition reaches the goal, or keeps
the invariant and decreases the measure. -/
theorem iterate_reaches {f : σ → Option σ} {P Q : σ → Prop} {μ : σ → ℕ}
    (h : ∀ s, P s → ∃ s', f s = some s' ∧ (Q s' ∨ P s' ∧ μ s' < μ s)) {s : σ} (hs : P s) :
    ∃ k ≤ μ s + 1, ∃ s', iterate f k s = some s' ∧ Q s' := by
  induction hm : μ s using Nat.strong_induction_on generalizing s with
  | _ m ih =>
    obtain ⟨s', hs', hgoal | ⟨hP, hlt⟩⟩ := h s hs
    · exact ⟨1, by omega, s', by rw [iterate, hs', Option.bind_some, iterate], hgoal⟩
    · obtain ⟨k, hk, s'', hs'', hgoal⟩ := ih (μ s') (hm ▸ hlt) hP rfl
      exact ⟨k + 1, by omega, s'', by rw [iterate, hs', Option.bind_some, hs''], hgoal⟩

end Run

end DistQueue
