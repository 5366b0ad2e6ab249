import Mathlib.Data.List.Perm.Basic
import Mathlib.Order.Lattice

/-!
# Binary heaps on a list

The binary heap of an array, as the usual library routines compute it: the children
of position `i` are the positions `2 i + 1` and `2 i + 2`, `DistQueue.Heap.push`
appends an element and moves it up, and `DistQueue.Heap.pop` swaps the root to the
end, moves the new root down and cuts the end off. The order is a test
`less : α → α → Bool` about which nothing is assumed.

What a heap *holds* does not depend on the order: a push adds the element
(`DistQueue.Heap.push_perm`), a pop removes the element it returns
(`DistQueue.Heap.perm_of_pop`), and a pop returns nothing only from an empty heap
(`DistQueue.Heap.pop_eq_none`).

If the test is a weak order *on the elements of the heap*, then no element is smaller than its
parent (`DistQueue.Heap.Ordered`). A push and a pop keep this, and what a pop returns is not
greater than anything else (`DistQueue.Heap.Ordered.push`, `DistQueue.Heap.Ordered.pop`). The
test need not be an order on the whole type: `DistQueue.Heap.WeakOrderOn` speaks of the elements
of one list, and passes to what is left of it. Each of the two loops works on a list that is
ordered except around one position.
-/

namespace DistQueue

namespace Heap

variable {α : Type*} {less : α → α → Bool} {l l' : List α} {x : α}

/-- Exchange two positions; positions outside the list are left alone. -/
def swap (l : List α) (i j : ℕ) : List α :=
  match l[i]?, l[j]? with
  | some x, some y => (l.set i y).set j x
  | _, _ => l

/-- The order test on two positions. -/
def lessAt (less : α → α → Bool) (l : List α) (i j : ℕ) : Bool :=
  match l[i]?, l[j]? with
  | some x, some y => less x y
  | _, _ => false

/-- Move position `j` up while it is smaller than its parent. The parent's position
is smaller, so that `j` rounds are enough. -/
def up (less : α → α → Bool) : ℕ → List α → ℕ → List α
  | 0, l, _ => l
  | fuel + 1, l, j =>
    let i := (j - 1) / 2
    if i = j ∨ lessAt less l j i = false then l
    else up less fuel (swap l i j) i

/-- The smaller child of position `i` among the first `n`. -/
def child (less : α → α → Bool) (l : List α) (i n : ℕ) : ℕ :=
  if 2 * i + 2 < n ∧ lessAt less l (2 * i + 2) (2 * i + 1) = true then 2 * i + 2
  else 2 * i + 1

/-- Move position `i` down while one of its children among the first `n` is smaller.
The position at least doubles, so that `n` rounds are enough. -/
def down (less : α → α → Bool) : ℕ → List α → ℕ → ℕ → List α
  | 0, l, _, _ => l
  | fuel + 1, l, i, n =>
    let j := child less l i n
    if n ≤ 2 * i + 1 ∨ lessAt less l j i = false then l
    else down less fuel (swap l i j) j n

/-- Add an element. -/
def push (less : α → α → Bool) (l : List α) (x : α) : List α :=
  up less l.length (l ++ [x]) l.length

/-- Take the root out. -/
def pop (less : α → α → Bool) (l : List α) : Option (α × List α) :=
  let n := l.length - 1
  let l' := down less n (swap l 0 n) 0 n
  l'.getLast?.map fun x => (x, l'.dropLast)

/-! ### What a heap holds -/

/-- A swap loses nothing. -/
theorem swap_perm (l : List α) (i j : ℕ) : (swap l i j).Perm l := by
  unfold swap
  split
  · rename_i x y hx hy
    obtain ⟨hi, rfl⟩ := List.getElem?_eq_some_iff.mp hx
    obtain ⟨hj, rfl⟩ := List.getElem?_eq_some_iff.mp hy
    exact List.set_set_perm hi hj
  · rfl

/-- Sifting up loses nothing. -/
theorem up_perm (less : α → α → Bool) (fuel : ℕ) (l : List α) (j : ℕ) :
    (up less fuel l j).Perm l := by
  induction fuel generalizing l j with
  | zero => rfl
  | succ fuel ih =>
    unfold up
    dsimp only
    split
    · rfl
    · exact (ih _ _).trans (swap_perm l _ _)

/-- Sifting down loses nothing. -/
theorem down_perm (less : α → α → Bool) (fuel : ℕ) (l : List α) (i n : ℕ) :
    (down less fuel l i n).Perm l := by
  induction fuel generalizing l i with
  | zero => rfl
  | succ fuel ih =>
    unfold down
    dsimp only
    split
    · rfl
    · exact (ih _ _).trans (swap_perm l _ _)

/-- A push adds the element. -/
theorem push_perm (l : List α) (x : α) : (push less l x).Perm (x :: l) :=
  (up_perm less _ _ _).trans List.perm_append_comm

/-- A pop removes the element it returns. -/
theorem perm_of_pop (h : pop less l = some (x, l')) : l.Perm (x :: l') := by
  obtain ⟨y, hy, hxl⟩ := Option.map_eq_some_iff.mp h
  obtain ⟨rfl, rfl⟩ := Prod.mk.inj hxl
  obtain ⟨ys, hys⟩ := List.getLast?_eq_some_iff.mp hy
  have hperm := (down_perm less (l.length - 1) _ 0 (l.length - 1)).trans
    (swap_perm l 0 (l.length - 1))
  rw [hys] at hperm ⊢
  rw [List.dropLast_concat]
  exact hperm.symm.trans List.perm_append_comm

theorem pop_eq_none : pop less l = none ↔ l = [] := by
  have hperm := (down_perm less (l.length - 1) _ 0 (l.length - 1)).trans
    (swap_perm l 0 (l.length - 1))
  constructor
  · intro h
    rw [pop, Option.map_eq_none_iff, List.getLast?_eq_none_iff] at h
    rw [h] at hperm
    exact hperm.symm.eq_nil
  · rintro rfl
    rfl

/-- A pop makes the heap smaller. -/
theorem length_of_pop (h : pop less l = some (x, l')) : l.length = l'.length + 1 :=
  (perm_of_pop h).length_eq

/-! ### Heaps of names

The routines look at the elements through the order only. -/

section Map

variable {β : Type*} {less' : β → β → Bool} {f : α → β}

/-- A swap commutes with a map. -/
theorem swap_map (l : List α) (i j : ℕ) : swap (l.map f) i j = (swap l i j).map f := by
  unfold swap
  rw [List.getElem?_map, List.getElem?_map]
  cases l[i]? with
  | none => rfl
  | some x =>
    cases l[j]? with
    | none => rfl
    | some y => simp only [Option.map_some, List.map_set]

variable (hf : ∀ x y, less' (f x) (f y) = less x y)
include hf

/-- The comparison of two positions does not see a map that respects it. -/
theorem lessAt_map (l : List α) (i j : ℕ) : lessAt less' (l.map f) i j = lessAt less l i j := by
  unfold lessAt
  rw [List.getElem?_map, List.getElem?_map]
  cases l[i]? with
  | none => rfl
  | some x =>
    cases l[j]? with
    | none => rfl
    | some y => exact hf x y

/-- Sifting up commutes with such a map. -/
theorem up_map (fuel : ℕ) (l : List α) (j : ℕ) :
    up less' fuel (l.map f) j = (up less fuel l j).map f := by
  induction fuel generalizing l j with
  | zero => rfl
  | succ fuel ih =>
    unfold up
    dsimp only
    rw [lessAt_map hf]
    split
    · rfl
    · rw [swap_map, ih]

/-- The same child is chosen. -/
theorem child_map (l : List α) (i n : ℕ) : child less' (l.map f) i n = child less l i n := by
  rw [child, child, lessAt_map hf]

/-- Sifting down commutes with such a map. -/
theorem down_map (fuel : ℕ) (l : List α) (i n : ℕ) :
    down less' fuel (l.map f) i n = (down less fuel l i n).map f := by
  induction fuel generalizing l i with
  | zero => rfl
  | succ fuel ih =>
    unfold down
    dsimp only
    rw [child_map hf, lessAt_map hf]
    split
    · rfl
    · rw [swap_map, ih]

/-- **A push commutes with a map that respects the comparison.** -/
theorem push_map (l : List α) (x : α) : push less' (l.map f) (f x) = (push less l x).map f := by
  rw [push, push, List.length_map, ← up_map hf, List.map_append]
  rfl

/-- **A pop commutes with a map that respects the comparison.** -/
theorem pop_map (l : List α) :
    pop less' (l.map f) = (pop less l).map fun r => (f r.1, r.2.map f) := by
  unfold pop
  dsimp only
  rw [List.length_map, swap_map, down_map hf, List.getLast?_map, ← List.map_dropLast]
  simp only [Option.map_map]
  rfl

end Map

/-! ### The order -/

/-- Among the elements of the list, the test compares by a key: it is asymmetric, and “not
smaller” is transitive. -/
structure WeakOrderOn (less : α → α → Bool) (l : List α) : Prop where
  asymm : ∀ x ∈ l, ∀ y ∈ l, less x y = true → less y x = false
  trans : ∀ x ∈ l, ∀ y ∈ l, ∀ z ∈ l, less x y = false → less y z = false → less x z = false

theorem WeakOrderOn.of_subset (h : WeakOrderOn less l) (hsub : ∀ x ∈ l', x ∈ l) :
    WeakOrderOn less l' :=
  ⟨fun x hx y hy => h.asymm x (hsub x hx) y (hsub y hy),
    fun x hx y hy z hz => h.trans x (hsub x hx) y (hsub y hy) z (hsub z hz)⟩

/-- Only which elements there are matters. -/
theorem WeakOrderOn.of_perm (h : WeakOrderOn less l) (hperm : l'.Perm l) : WeakOrderOn less l' :=
  h.of_subset fun _ => hperm.mem_iff.mp

/-- A test that compares by a key, among the elements of the list, is a weak order on them. -/
theorem weakOrderOn_of_key {β : Type*} [LinearOrder β] (key : α → β)
    (hkey : ∀ x ∈ l, ∀ y ∈ l, less x y = true ↔ key x < key y) : WeakOrderOn less l := by
  have hfalse : ∀ x ∈ l, ∀ y ∈ l, less x y = false ↔ key y ≤ key x := fun x hx y hy => by
    rw [← Bool.not_eq_true, hkey x hx y hy, not_lt]
  constructor
  · intro x hx y hy hxy
    exact (hfalse y hy x hx).mpr (le_of_lt ((hkey x hx y hy).mp hxy))
  · intro x hx y hy z hz hxy hyz
    exact (hfalse x hx z hz).mpr
      (le_trans ((hfalse y hy z hz).mp hyz) ((hfalse x hx y hy).mp hxy))

/-- **No element is smaller than its parent.** -/
def Ordered (less : α → α → Bool) (l : List α) : Prop :=
  ∀ k, 0 < k → lessAt less l k ((k - 1) / 2) = false

/-- Two positions of different lists that hold the same compare alike. -/
theorem lessAt_congr {i j i' j' : ℕ} (hi : l'[i']? = l[i]?) (hj : l'[j']? = l[j]?) :
    lessAt less l' i' j' = lessAt less l i j := by
  rw [lessAt, lessAt, hi, hj]

/-- Positions beyond the end are below nothing. -/
theorem lessAt_of_length_le {i : ℕ} (hi : l.length ≤ i) (j : ℕ) : lessAt less l i j = false := by
  rw [lessAt, List.getElem?_eq_none hi]

/-- What is where after a swap. -/
theorem getElem?_swap {i j : ℕ} (hi : i < l.length) (hj : j < l.length) (k : ℕ) :
    (swap l i j)[k]? = if k = j then l[i]? else if k = i then l[j]? else l[k]? := by
  unfold swap
  rw [List.getElem?_eq_getElem hi, List.getElem?_eq_getElem hj]
  dsimp only
  rw [List.getElem?_set, List.getElem?_set, List.length_set]
  by_cases hkj : k = j
  · rw [if_pos hkj.symm, if_pos hkj, if_pos hj]
  · rw [if_neg (Ne.symm hkj), if_neg hkj]
    by_cases hki : k = i
    · rw [if_pos hki.symm, if_pos hki, if_pos hi]
    · rw [if_neg (Ne.symm hki), if_neg hki]

section Order

variable (hless : WeakOrderOn less l)
include hless

/-- No two positions are below each other. -/
theorem WeakOrderOn.lessAt_asymm {i j : ℕ} (h : lessAt less l i j = true) :
    lessAt less l j i = false := by
  unfold lessAt at h ⊢
  split at h
  · rename_i x y hx hy
    rw [hx, hy]
    exact hless.asymm x (List.mem_of_getElem? hx) y (List.mem_of_getElem? hy) h
  · cases h

theorem WeakOrderOn.lessAt_trans {i j k : ℕ} (hj : j < l.length)
    (hij : lessAt less l i j = false) (hjk : lessAt less l j k = false) :
    lessAt less l i k = false := by
  unfold lessAt at hij hjk ⊢
  rw [List.getElem?_eq_getElem hj] at hij hjk
  split
  · rename_i x z hx hz
    rw [hx] at hij
    rw [hz] at hjk
    exact hless.trans x (List.mem_of_getElem? hx) _ (List.getElem_mem hj) z
      (List.mem_of_getElem? hz) hij hjk
  · rfl

/-! #### Upwards -/

/-- Only the element at `j` may be smaller than its parent; its children are not smaller than
its parent either. -/
structure OrderedUpTo (less : α → α → Bool) (l : List α) (j : ℕ) : Prop where
  except : ∀ k, 0 < k → k ≠ j → lessAt less l k ((k - 1) / 2) = false
  grand : 0 < j → ∀ k, 0 < k → (k - 1) / 2 = j → lessAt less l k ((j - 1) / 2) = false

/-- One round of `up`. -/
theorem OrderedUpTo.swap {i j : ℕ} (h : OrderedUpTo less l j) (hj : j < l.length) (hpos : 0 < j)
    (hi : (j - 1) / 2 = i) (hji : lessAt less l j i = true) :
    OrderedUpTo less (Heap.swap l i j) i := by
  have hij : i < j := by omega
  have hil : i < l.length := by omega
  have hget := getElem?_swap hil hj
  have hat_j : (Heap.swap l i j)[j]? = l[i]? := by rw [hget, if_pos rfl]
  have hat_i : (Heap.swap l i j)[i]? = l[j]? := by rw [hget, if_neg (Nat.ne_of_lt hij), if_pos rfl]
  have hat : ∀ k, k ≠ i → k ≠ j → (Heap.swap l i j)[k]? = l[k]? := fun k hki hkj => by
    rw [hget, if_neg hkj, if_neg hki]
  have hup : 0 < i → lessAt less l i ((i - 1) / 2) = false := fun hi0 =>
    h.except i hi0 (Nat.ne_of_lt hij)
  constructor
  · intro k hk hki
    rcases eq_or_ne k j with rfl | hkj
    · rw [hi, lessAt_congr hat_j hat_i]
      exact hless.lessAt_asymm hji
    have hk' := h.except k hk hkj
    rcases eq_or_ne ((k - 1) / 2) j with hpj | hpj
    · -- a child of `j` gets the parent of `j`
      rw [hpj, lessAt_congr (hat k hki hkj) hat_j, ← hi]
      exact h.grand hpos k hk hpj
    rcases eq_or_ne ((k - 1) / 2) i with hpi | hpi
    · -- the sibling of `j`
      rw [hpi] at hk'
      rw [hpi, lessAt_congr (hat k hki hkj) hat_i]
      exact hless.lessAt_trans hil hk' (hless.lessAt_asymm hji)
    · rw [lessAt_congr (hat k hki hkj) (hat _ hpi hpj)]
      exact hk'
  · intro hi0 k hk hpk
    have hgrand : (Heap.swap l i j)[(i - 1) / 2]? = l[(i - 1) / 2]? := hat _ (by omega) (by omega)
    rcases eq_or_ne k j with rfl | hkj
    · rw [lessAt_congr hat_j hgrand]
      exact hup hi0
    · have hk' := h.except k hk hkj
      rw [hpk] at hk'
      rw [lessAt_congr (hat k (by omega) hkj) hgrand]
      exact hless.lessAt_trans hil hk' (hup hi0)

/-- **Sifting up restores the heap**, if only the last position is out of order. -/
theorem OrderedUpTo.up {fuel j : ℕ} (h : OrderedUpTo less l j) (hj : j < l.length)
    (hfuel : j ≤ fuel) : Ordered less (up less fuel l j) := by
  induction fuel generalizing l j with
  | zero => exact fun k hk => h.except k hk (by omega)
  | succ fuel ih =>
    unfold Heap.up
    dsimp only
    split
    · rename_i hstop
      intro k hk
      rcases eq_or_ne k j with rfl | hkj
      · exact hstop.resolve_left (by omega)
      · exact h.except k hk hkj
    · rename_i hgo
      obtain ⟨hij, hji⟩ := not_or.mp hgo
      have hpos : 0 < j := by omega
      refine ih (hless.of_perm (swap_perm l _ _))
        (h.swap hless hj hpos rfl (by simpa using hji)) ?_ (by omega)
      rw [(swap_perm l _ _).length_eq]
      omega

omit hless in
/-- **A push keeps the order**, if the test is a weak order on the elements and the new one. -/
theorem Ordered.push (h : Ordered less l) {x : α} (hless : WeakOrderOn less (x :: l)) :
    Ordered less (push less l x) := by
  refine OrderedUpTo.up (hless.of_perm List.perm_append_comm)
    ⟨fun k hk hkl => ?_, fun _ k hk hpk => ?_⟩ (by simp) (Nat.le_refl _)
  · rcases Nat.lt_or_ge k l.length with hlt | hge
    · rw [lessAt_congr (List.getElem?_append_left hlt) (List.getElem?_append_left (by omega))]
      exact h k hk
    · exact lessAt_of_length_le (by simp; omega) _
  · exact lessAt_of_length_le (by simp; omega) _

/-! #### Downwards -/

/-- The first `n` positions are in order, but the element at `i` may be greater than its
children; these are not smaller than its parent. -/
structure OrderedFrom (less : α → α → Bool) (n : ℕ) (l : List α) (i : ℕ) : Prop where
  except : ∀ k, 0 < k → k < n → (k - 1) / 2 ≠ i → lessAt less l k ((k - 1) / 2) = false
  grand : 0 < i → ∀ k, 0 < k → k < n → (k - 1) / 2 = i → lessAt less l k ((i - 1) / 2) = false

omit hless in
variable (less l) in
/-- The child that is chosen is a child. -/
theorem child_range {i n : ℕ} (hn : 2 * i + 1 < n) :
    (child less l i n - 1) / 2 = i ∧ 0 < child less l i n ∧ child less l i n < n := by
  unfold child
  split <;> omega

/-- The child that is moved up is not greater than its sibling. -/
theorem lessAt_child {i n k : ℕ} (hk : 0 < k) (hkn : k < n) (hpk : (k - 1) / 2 = i) :
    lessAt less l k (child less l i n) = false := by
  have hirrefl : lessAt less l k k = false := by
    by_contra hkk
    rw [Bool.not_eq_false] at hkk
    rw [hless.lessAt_asymm hkk] at hkk
    cases hkk
  unfold child
  split
  · rename_i hright
    rcases eq_or_ne k (2 * i + 2) with rfl | hne
    · exact hirrefl
    · obtain rfl : k = 2 * i + 1 := by omega
      exact hless.lessAt_asymm hright.2
  · rename_i hright
    rcases eq_or_ne k (2 * i + 1) with rfl | hne
    · exact hirrefl
    · obtain rfl : k = 2 * i + 2 := by omega
      simpa [hkn] using hright

/-- One round of `down`. -/
theorem OrderedFrom.swap {i j n : ℕ} (h : OrderedFrom less n l i) (hn : n ≤ l.length)
    (hin : 2 * i + 1 < n) (hj : child less l i n = j) (hji : lessAt less l j i = true) :
    OrderedFrom less n (Heap.swap l i j) j := by
  obtain ⟨hpj, hpos, hjn⟩ := hj ▸ child_range less l hin
  have hmin : ∀ k, 0 < k → k < n → (k - 1) / 2 = i → lessAt less l k j = false :=
    fun k hk hkn hpk => hj ▸ lessAt_child hless hk hkn hpk
  have hij : i < j := by omega
  have hget := getElem?_swap (l := l) (i := i) (j := j) (by omega) (by omega)
  have hat_j : (Heap.swap l i j)[j]? = l[i]? := by rw [hget, if_pos rfl]
  have hat_i : (Heap.swap l i j)[i]? = l[j]? := by rw [hget, if_neg (Nat.ne_of_lt hij), if_pos rfl]
  have hat : ∀ k, k ≠ i → k ≠ j → (Heap.swap l i j)[k]? = l[k]? := fun k hki hkj => by
    rw [hget, if_neg hkj, if_neg hki]
  constructor
  · intro k hk hkn hpk
    rcases eq_or_ne k j with rfl | hkj
    · rw [hpj, lessAt_congr hat_j hat_i]
      exact hless.lessAt_asymm hji
    rcases eq_or_ne k i with rfl | hki
    · -- the child has taken the place of `i` under the parent of `i`
      rw [lessAt_congr hat_i (hat _ (by omega) (by omega))]
      exact h.grand hk j hpos hjn hpj
    rcases eq_or_ne ((k - 1) / 2) i with hpi | hpi
    · rw [hpi, lessAt_congr (hat k hki hkj) hat_i]
      exact hmin k hk hkn hpi
    · rw [lessAt_congr (hat k hki hkj) (hat _ hpi hpk)]
      exact h.except k hk hkn hpi
  · intro _ k hk hkn hpk
    have hk' := h.except k hk hkn (by omega)
    rw [hpk] at hk'
    rw [hpj, lessAt_congr (hat k (by omega) (by omega)) hat_i]
    exact hk'

/-- The loop of `down` puts the first `n` positions in order and touches no others. -/
theorem OrderedFrom.down {i n : ℕ} (h : OrderedFrom less n l i) (fuel : ℕ) (hn : n ≤ l.length)
    (hfuel : n ≤ i + fuel) :
    (∀ k, 0 < k → k < n → lessAt less (down less fuel l i n) k ((k - 1) / 2) = false) ∧
      ∀ k, n ≤ k → (down less fuel l i n)[k]? = l[k]? := by
  induction fuel generalizing l i with
  | zero => exact ⟨fun k hk hkn => h.except k hk hkn (by omega), fun _ _ => rfl⟩
  | succ fuel ih =>
    unfold Heap.down
    dsimp only
    split
    · rename_i hstop
      refine ⟨fun k hk hkn => ?_, fun _ _ => rfl⟩
      rcases eq_or_ne ((k - 1) / 2) i with hpk | hpk
      · obtain ⟨-, -, hjn⟩ := child_range less l (i := i) (n := n) (by omega)
        rw [hpk]
        exact hless.lessAt_trans (Nat.lt_of_lt_of_le hjn hn) (lessAt_child hless hk hkn hpk)
          (hstop.resolve_left (by omega))
      · exact h.except k hk hkn hpk
    · rename_i hgo
      obtain ⟨hin, hji⟩ := not_or.mp hgo
      have hin : 2 * i + 1 < n := by omega
      obtain ⟨hpj, hpos, hjn⟩ := child_range less l hin
      have hlen := (swap_perm l i (child less l i n)).length_eq
      obtain ⟨hord, hrest⟩ := ih (hless.of_perm (swap_perm l _ _))
        (h.swap hless hn hin rfl (by simpa using hji)) (by omega) (by omega)
      refine ⟨hord, fun k hk => ?_⟩
      rw [hrest k hk, getElem?_swap (by omega) (by omega), if_neg (by omega), if_neg (by omega)]

/-- The root is not greater than anything else. -/
theorem Ordered.lessAt_root (h : Ordered less l) (k : ℕ) : lessAt less l k 0 = false := by
  induction k using Nat.strongRecOn with
  | _ k ih =>
    rcases Nat.lt_or_ge k l.length with hlt | hge
    · rcases Nat.eq_zero_or_pos k with rfl | hk
      · by_contra hself
        rw [Bool.not_eq_false] at hself
        rw [hless.lessAt_asymm hself] at hself
        cases hself
      · exact hless.lessAt_trans (by omega) (h k hk) (ih _ (by omega))
    · exact lessAt_of_length_le hge 0

/-- **A pop keeps the order and returns a least element.** -/
theorem Ordered.pop (h : Ordered less l) (hpop : pop less l = some (x, l')) :
    Ordered less l' ∧ ∀ y ∈ l, less y x = false := by
  obtain ⟨x', hx', hxl⟩ := Option.map_eq_some_iff.mp hpop
  obtain ⟨rfl, rfl⟩ := Prod.mk.inj hxl
  have hne : l ≠ [] := fun hnil => by rw [pop_eq_none.mpr hnil] at hpop; cases hpop
  have hlen : l.length = l.length - 1 + 1 := by
    have := List.length_pos_iff.mpr hne
    omega
  generalize l.length - 1 = n at *
  have hget := getElem?_swap (l := l) (i := 0) (j := n) (by omega) (by omega)
  have hswap : (Heap.swap l 0 n).length = n + 1 := (swap_perm l 0 n).length_eq.trans hlen
  -- the root is at the end now, and nothing but the new root is out of order
  have hfrom : OrderedFrom less n (Heap.swap l 0 n) 0 := by
    refine ⟨fun k hk hkn hpk => ?_, fun h0 => absurd h0 (Nat.lt_irrefl 0)⟩
    rw [lessAt_congr (i := k) (j := (k - 1) / 2)]
    · exact h k hk
    · rw [hget, if_neg (by omega), if_neg (by omega)]
    · rw [hget, if_neg (by omega), if_neg (by omega)]
  obtain ⟨hord, hrest⟩ := hfrom.down (hless.of_perm (swap_perm l 0 n)) n (by omega) (by omega)
  have hdown := (down_perm less n (Heap.swap l 0 n) 0 n).length_eq.trans hswap
  generalize down less n (Heap.swap l 0 n) 0 n = l' at *
  have hlast : l'[n]? = l[0]? := by rw [hrest n (Nat.le_refl n), hget, if_pos rfl]
  have hroot : l[0]? = some x' := by
    rw [← hlast, ← hx', List.getLast?_eq_getElem?, hdown, Nat.add_sub_cancel]
  refine ⟨fun k hk => ?_, fun y hy => ?_⟩
  · have hcut : ∀ k, k < n → l'.dropLast[k]? = l'[k]? := fun k hkn => by
      rw [List.getElem?_dropLast, hdown, Nat.add_sub_cancel, if_pos hkn]
    rcases Nat.lt_or_ge k n with hkn | hkn
    · rw [lessAt_congr (hcut k hkn) (hcut _ (by omega))]
      exact hord k hk hkn
    · exact lessAt_of_length_le (by rw [List.length_dropLast]; omega) _
  · obtain ⟨k, hk⟩ := List.mem_iff_getElem?.mp hy
    have hmin := h.lessAt_root hless k
    rwa [lessAt, hk, hroot] at hmin

end Order

end Heap

end DistQueue
