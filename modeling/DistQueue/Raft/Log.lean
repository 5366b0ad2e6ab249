import DistQueue.Consensus.Ledger

/-!
# The log of a node

A node's log is a slice whose element `0` is a *sentinel*: its index and term are
those of the last entry the snapshot covers, and the entries proper follow. All
index arithmetic goes through the helpers of this file, which take absolute
indices and subtract the sentinel's. A helper called outside its range panics in
the source, which ends the process; here it returns `none`, and what is left to
happen to the node is a crash.

The second half of the file is the view the proofs take of such a log. The log a
node *would* hold, had it never been compacted, is a plain list whose entry at
position `i` has index `i + 1` (`DistQueue.Raft.Numbered`), and the log it does
hold is that list cut at a boundary `b` (`DistQueue.Raft.compact`). Each helper is
then a fact about the plain list, as long as the index is not below the boundary.
-/

namespace DistQueue

namespace Raft

open Consensus

variable {Blob : Type}

/-! ### Entries and the index helpers -/

/-- One replicated command. The command of a no-op is the empty byte string. -/
structure LogEntry (Blob : Type) where
  index : ℕ
  term : ℕ
  command : Blob
  deriving DecidableEq

/-- The log: `sentinel` is `log[0]`, and `entries` is `log[1:]`. -/
structure Log (Blob : Type) where
  sentinel : LogEntry Blob
  entries : List (LogEntry Blob)
  deriving DecidableEq

namespace Log

/-- The slice the source holds. -/
def toList (l : Log Blob) : List (LogEntry Blob) := l.sentinel :: l.entries

/-- The snapshot boundary: the index of the last entry that has been compacted
away, `0` if none has. -/
def firstIndex (l : Log Blob) : ℕ := l.sentinel.index

/-- The last element of the slice. -/
def last (l : Log Blob) : LogEntry Blob := l.entries.getLast?.getD l.sentinel

/-- The index of the last entry. -/
def lastIndex (l : Log Blob) : ℕ := l.last.index

/-- The term of the last entry. -/
def lastTerm (l : Log Blob) : ℕ := l.last.term

/-- The entry with the given absolute index; at the boundary, the sentinel. -/
def entryAt (l : Log Blob) (i : ℕ) : Option (LogEntry Blob) :=
  if i < l.firstIndex then none else l.toList[i - l.firstIndex]?

/-- The term of the entry at an index, if the log has it. -/
def termAt (l : Log Blob) (i : ℕ) : Option ℕ := (l.entryAt i).map LogEntry.term

/-- A copy of the entries with index at least `i`. -/
def sliceFrom (l : Log Blob) (i : ℕ) : Option (List (LogEntry Blob)) :=
  if i < l.firstIndex ∨ l.toList.length < i - l.firstIndex then none
  else some (l.toList.drop (i - l.firstIndex))

/-- Drop all entries with index at least `i`. A cut at the boundary itself would leave
a slice without its sentinel; it counts as out of range, and no call makes it. -/
def truncateFrom (l : Log Blob) (i : ℕ) : Option (Log Blob) :=
  if i ≤ l.firstIndex ∨ l.toList.length < i - l.firstIndex then none
  else some { l with entries := l.entries.take (i - l.firstIndex - 1) }

/-- `append(n.log, es...)`. -/
def append (l : Log Blob) (es : List (LogEntry Blob)) : Log Blob :=
  { l with entries := l.entries ++ es }

end Log

/-- The log of a node that has never run. -/
def emptyLog [Inhabited Blob] : Log Blob := ⟨⟨0, 0, default⟩, []⟩

/-! ### Logs without a boundary -/

/-- The entry at position `i` has index `i + 1`. -/
def Numbered (F : List (LogEntry Blob)) : Prop :=
  ∀ i e, F[i]? = some e → e.index = i + 1

/-- **The log a node holds once it has compacted the first `b` entries of `F`.** -/
def compact [Inhabited Blob] (F : List (LogEntry Blob)) (b : ℕ) : Log Blob :=
  ⟨⟨b, termAt LogEntry.term F b, default⟩, F.drop b⟩

theorem Numbered.prefix_closed {F G : List (LogEntry Blob)} (h : Numbered G) (hp : F <+: G) :
    Numbered F :=
  fun i e hi => h i e (prefix_getElem?_some hp hi)

/-- The next index may be appended. -/
theorem Numbered.concat {F : List (LogEntry Blob)} (h : Numbered F) {e : LogEntry Blob}
    (he : e.index = F.length + 1) : Numbered (F ++ [e]) := by
  intro i e' hi
  rcases Nat.lt_or_ge i F.length with hlt | hge
  · rw [List.getElem?_append_left hlt] at hi
    exact h i e' hi
  · have hlen : i < (F ++ [e]).length := (List.getElem?_eq_some_iff.mp hi).1
    obtain rfl : i = F.length := by simp at hlen; omega
    obtain rfl : e = e' := by simpa using hi
    exact he

section Compact

variable [Inhabited Blob] {F : List (LogEntry Blob)} {b : ℕ}

@[simp] theorem compact_firstIndex : (compact F b).firstIndex = b := rfl

@[simp] theorem compact_entries : (compact F b).entries = F.drop b := rfl

theorem compact_toList_length : (compact F b).toList.length = F.length - b + 1 := by
  simp [Log.toList, compact]

theorem compact_last (hF : Numbered F) (hb : b ≤ F.length) :
    (compact F b).lastIndex = F.length ∧
      (compact F b).lastTerm = termAt LogEntry.term F F.length := by
  rw [Log.lastIndex, Log.lastTerm, Log.last, compact_entries]
  rcases Nat.eq_or_lt_of_le hb with rfl | hlt
  · simp [compact]
  · obtain ⟨e, he⟩ : ∃ e, F[F.length - 1]? = some e := ⟨_, List.getElem?_eq_getElem (by omega)⟩
    have hlast : (F.drop b).getLast? = some e := by
      rw [List.getLast?_eq_getElem?, List.getElem?_drop, List.length_drop, ← he]
      congr 1
      omega
    have hlen : F.length = F.length - 1 + 1 := by omega
    rw [hlast, Option.getD_some, hF _ _ he]
    refine ⟨hlen.symm, ?_⟩
    rw [hlen, termAt_of_getElem? _ he]

theorem compact_lastIndex (hF : Numbered F) (hb : b ≤ F.length) :
    (compact F b).lastIndex = F.length := (compact_last hF hb).1

theorem compact_lastTerm (hF : Numbered F) (hb : b ≤ F.length) :
    (compact F b).lastTerm = termAt LogEntry.term F F.length := (compact_last hF hb).2

/-- Above the boundary, the helper finds the entry of the plain list. -/
theorem compact_entryAt {i : ℕ} (hi : b ≤ i) : (compact F b).entryAt (i + 1) = F[i]? := by
  rw [Log.entryAt, compact_firstIndex, if_neg (by omega), Log.toList, compact_entries]
  have hsub : i + 1 - b = i - b + 1 := by omega
  rw [hsub, List.getElem?_cons_succ, List.getElem?_drop]
  congr 1
  omega

theorem compact_entryAt_boundary :
    (compact F b).entryAt b = some ⟨b, termAt LogEntry.term F b, default⟩ := by
  simp [Log.entryAt, compact, Log.firstIndex, Log.toList]

/-- **The term at an index**: the helper answers exactly in its range, and with the
term of the plain list. -/
theorem compact_termAt_eq_some {i t : ℕ} (hb : b ≤ F.length) :
    (compact F b).termAt i = some t ↔ b ≤ i ∧ i ≤ F.length ∧ termAt LogEntry.term F i = t := by
  rcases Nat.lt_trichotomy i b with hlt | rfl | hgt
  · rw [Log.termAt, Log.entryAt, compact_firstIndex, if_pos hlt]
    simp only [Option.map_none, reduceCtorEq, false_iff]
    omega
  · rw [Log.termAt, compact_entryAt_boundary, Option.map_some, Option.some.injEq]
    exact ⟨fun h => ⟨le_refl _, hb, h⟩, fun h => h.2.2⟩
  · obtain ⟨j, rfl⟩ : ∃ j, i = j + 1 := ⟨i - 1, by omega⟩
    rw [Log.termAt, compact_entryAt (by omega)]
    cases hj : F[j]? with
    | none =>
      have := List.getElem?_eq_none_iff.mp hj
      simp only [Option.map_none, reduceCtorEq, false_iff]
      omega
    | some e =>
      have := (List.getElem?_eq_some_iff.mp hj).1
      rw [Option.map_some, Option.some.injEq, termAt_of_getElem? _ hj]
      exact ⟨fun h => ⟨by omega, by omega, h⟩, fun h => h.2.2⟩

/-- What a compacted log has from an index on, the whole log has. -/
theorem compact_sliceFrom {i : ℕ} {es : List (LogEntry Blob)}
    (h : (compact F b).sliceFrom (i + 1) = some es) (hi : b ≤ i) : es = F.drop i := by
  rw [Log.sliceFrom, compact_firstIndex] at h
  split at h
  · cases h
  · rw [← Option.some.inj h, Log.toList, compact_entries]
    have hsub : i + 1 - b = i - b + 1 := by omega
    rw [hsub, List.drop_succ_cons, List.drop_drop]
    congr 1
    omega

/-- Truncation and compaction commute, above the boundary. -/
theorem compact_truncateFrom {i : ℕ} {l : Log Blob}
    (h : (compact F b).truncateFrom (i + 1) = some l) : b ≤ i ∧ l = compact (F.take i) b := by
  rw [Log.truncateFrom, compact_firstIndex] at h
  split at h
  · cases h
  · rename_i hc
    have hi : b ≤ i := by omega
    refine ⟨hi, ?_⟩
    rw [← Option.some.inj h]
    have hsub : i + 1 - b - 1 = i - b := by omega
    simp only [compact, termAt_take _ F hi, hsub, List.take_drop]
    rw [show b + (i - b) = i by omega]

/-- **Appending and compaction commute.** -/
theorem compact_append {es : List (LogEntry Blob)} (hb : b ≤ F.length) :
    (compact F b).append es = compact (F ++ es) b := by
  simp only [Log.append, compact]
  rw [List.drop_append_of_le_length hb,
    ← prefix_termAt_eq _ (List.prefix_append F es) hb]

/-- The elements of the slice, by their indices: the term is that of the plain list, and
an entry proper is the entry of the plain list. -/
theorem compact_mem_toList (hF : Numbered F) (hb : b ≤ F.length) {e : LogEntry Blob}
    (he : e ∈ (compact F b).toList) :
    e.index ≤ F.length ∧ e.term = termAt LogEntry.term F e.index ∧
      (e ∈ (compact F b).entries → F[e.index - 1]? = some e) := by
  have hentry : e ∈ (compact F b).entries → F[e.index - 1]? = some e ∧ 0 < e.index := by
    intro hmem
    obtain ⟨j, hj⟩ := List.mem_iff_getElem?.mp hmem
    rw [compact_entries, List.getElem?_drop] at hj
    rw [hF _ e hj, Nat.add_sub_cancel]
    exact ⟨hj, by omega⟩
  rcases List.mem_cons.mp he with rfl | hmem
  · exact ⟨hb, rfl, fun h => (hentry h).1⟩
  · obtain ⟨hget, hpos⟩ := hentry hmem
    have hlt := (List.getElem?_eq_some_iff.mp hget).1
    refine ⟨by omega, ?_, fun _ => hget⟩
    obtain ⟨i, hi⟩ : ∃ i, e.index = i + 1 := ⟨e.index - 1, by omega⟩
    rw [hi, Nat.add_sub_cancel] at hget
    rw [hi, termAt_of_getElem? _ hget]

end Compact

end Raft

end DistQueue
