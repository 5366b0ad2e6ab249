import Mathlib.Data.List.Nodup

/-!
# Tables: values filed under their own keys

A map into which a value is always put under a key that can be read off the value itself.
Such a map is the collection of its values, no two of them with the same key, and that is
what a `DistQueue.Table` is: a list, in no particular order, with the proof that its keys
are distinct.

`DistQueue.Table.put` files a value, in the place of the one that had its key, and
`DistQueue.Table.erase` removes a key. Both are described by what they do to the list of
values, up to a permutation.
-/

namespace DistQueue

variable {τ κ : Type} {key : τ → κ}

/-- A collection of values with distinct keys. -/
structure Table (key : τ → κ) where
  vals : List τ
  nodup : (vals.map key).Nodup

namespace Table

variable [DecidableEq κ]

/-- The table without entries. -/
def empty : Table key := ⟨[], List.nodup_nil⟩

/-- The entry under a key. -/
def find (m : Table key) (k : κ) : Option τ := m.vals.find? fun v => key v = k

/-- Keep the values that pass a test. -/
def filter (m : Table key) (p : τ → Bool) : Table key :=
  ⟨m.vals.filter p, m.nodup.sublist (List.filter_sublist.map key)⟩

/-- The table without the entry under the key. -/
def erase (m : Table key) (k : κ) : Table key := m.filter fun v => key v ≠ k

/-- What is left is under other keys. -/
theorem key_ne_of_mem_erase {m : Table key} {k : κ} {v : τ} (h : v ∈ (m.erase k).vals) :
    key v ≠ k :=
  of_decide_eq_true (List.mem_filter.mp h).2

/-- What is erased is gone. -/
theorem not_mem_keys_erase (m : Table key) (k : κ) : k ∉ (m.erase k).vals.map key := by
  intro h
  obtain ⟨v, hv, hk⟩ := List.mem_map.mp h
  exact key_ne_of_mem_erase hv hk

/-- File a value under its key. -/
def put (m : Table key) (v : τ) : Table key :=
  ⟨v :: (m.erase (key v)).vals,
    List.nodup_cons.mpr ⟨not_mem_keys_erase m (key v), (m.erase (key v)).nodup⟩⟩

variable {m : Table key} {k : κ} {v : τ}

theorem vals_put (m : Table key) (v : τ) : (m.put v).vals = v :: (m.erase (key v)).vals := rfl

theorem mem_of_mem_erase (h : v ∈ (m.erase k).vals) : v ∈ m.vals := (List.mem_filter.mp h).1

/-- Other keys are not erased. -/
theorem mem_erase (h : v ∈ m.vals) (hk : key v ≠ k) : v ∈ (m.erase k).vals :=
  List.mem_filter.mpr ⟨h, decide_eq_true hk⟩

/-! ### Looking a key up -/

theorem mem_of_find (h : m.find k = some v) : v ∈ m.vals := List.mem_of_find?_eq_some h

/-- What is found has the key. -/
theorem key_of_find (h : m.find k = some v) : key v = k :=
  of_decide_eq_true (List.find?_some (p := fun v => decide (key v = k)) h)

/-- What is not found is not there. -/
theorem not_mem_of_find (h : m.find k = none) : k ∉ m.vals.map key := by
  intro hk
  obtain ⟨v, hv, rfl⟩ := List.mem_map.mp hk
  exact absurd (List.find?_eq_none.mp h v hv) (by simp)

omit [DecidableEq κ] in
/-- Only one value has a given key. -/
theorem eq_of_key (hv : v ∈ m.vals) {w : τ} (hw : w ∈ m.vals) (h : key v = key w) : v = w :=
  List.inj_on_of_nodup_map m.nodup hv hw h

/-- **What is there is found under its key.** -/
theorem find_of_mem (h : v ∈ m.vals) : m.find (key v) = some v := by
  cases hf : m.find (key v) with
  | none => exact absurd (List.mem_map.mpr ⟨v, h, rfl⟩) (not_mem_of_find hf)
  | some w => rw [eq_of_key (mem_of_find hf) h (key_of_find hf)]

/-! ### What is left -/

/-- There is nothing to erase. -/
theorem erase_of_not_mem (h : k ∉ m.vals.map key) : m.erase k = m := by
  obtain ⟨vals, hnodup⟩ := m
  simp only [erase, filter, mk.injEq, List.filter_eq_self, decide_eq_true_eq]
  rintro v hv rfl
  exact h (List.mem_map.mpr ⟨v, hv, rfl⟩)

/-- A new key is added in front. -/
theorem vals_put_of_not_mem (h : key v ∉ m.vals.map key) : (m.put v).vals = v :: m.vals := by
  rw [vals_put, erase_of_not_mem h]

/-- What is put in is found. -/
theorem find_put (m : Table key) (v : τ) : (m.put v).find (key v) = some v :=
  find_of_mem List.mem_cons_self

/-- A value that was new and is removed again leaves no trace. -/
theorem erase_put (h : key v ∉ m.vals.map key) : (m.put v).erase (key v) = m := by
  have hput : (m.put v).erase (key v) = (m.erase (key v)).erase (key v) := by
    simp [erase, filter, put]
  rw [hput, erase_of_not_mem h, erase_of_not_mem h]

/-- **What has been found, and what is left without it, is all there was.** -/
theorem perm_of_find (h : m.find k = some v) : m.vals.Perm (v :: (m.erase k).vals) := by
  have hv := mem_of_find h
  obtain rfl := key_of_find h
  refine (List.perm_ext_iff_of_nodup m.nodup.of_map (m.put v).nodup.of_map).mpr fun w => ?_
  rw [vals_put, List.mem_cons]
  constructor
  · intro hw
    rcases eq_or_ne (key w) (key v) with hk | hk
    · exact Or.inl (eq_of_key hw hv hk)
    · exact Or.inr (mem_erase hw hk)
  · rintro (rfl | hw)
    · exact hv
    · exact mem_of_mem_erase hw

end Table

end DistQueue
