import Mathlib.Data.Finset.Basic
import Mathlib.Data.List.Infix
import Mathlib.Logic.Function.Basic

/-!
# A ledger of terms

What a consensus protocol with terms and leaders is, before there are messages.
The members share a ledger that remembers, for every term, who stood in it and
with which log, who voted for whom, who led it and what the leader's log has
grown to, how much of that log each member has accepted, and how much of it has
been decided. A member's own log is the ledger's as well, and it is never
shortened by anything but the acceptance of another leader's log.

* `DistQueue.Consensus.Step` – what one member may do to the ledger: reach a
  later term, stand, vote, win, append, accept, decide;
* `DistQueue.Consensus.Le` – the order a step respects: nothing recorded is ever
  withdrawn, and what a member accepted in a term it has left is final;
* `DistQueue.Consensus.Sound` – the one property of a log that the rest is built
  from: every prefix that ends in an entry of term `t` is a prefix of the log of
  the leader of `t`. Log matching is a corollary
  (`DistQueue.Consensus.Sound.take_eq`).

The entries are of an arbitrary type, read only through their term, and the
quorums are any family of sets that meet pairwise.
-/

namespace DistQueue

namespace Consensus

/-! ### The rules and the ledger -/

/-- What the protocol is run with: the term of an entry, and a family of quorums
any two of which meet. -/
structure Rules (N E : Type) where
  /-- The term an entry was made in. -/
  term : E → ℕ
  /-- The sets of members that may elect or decide. -/
  Quorum : Finset N → Prop
  /-- Any two quorums have a member in common. -/
  meet : ∀ q q', Quorum q → Quorum q' → ∃ v ∈ q, v ∈ q'

/-- The ledger. -/
structure Ledger (N E : Type) where
  /-- The term each member is in. -/
  cur : N → ℕ
  /-- The log each member holds. -/
  log : N → List E
  /-- The member each member voted for, term by term. -/
  vote : N → ℕ → Option N
  /-- The log each member stood with, in the terms it stood in. -/
  stand : N → ℕ → Option (List E)
  /-- The leader of each term that has one, and the log it has written. -/
  lead : ℕ → Option (N × List E)
  /-- How much of the leader's log of a term each member has accepted. -/
  acked : N → ℕ → ℕ
  /-- How much of the leader's log of a term its leader has decided. -/
  decided : ℕ → ℕ

variable {N E : Type}

/-! ### Logs -/

section Logs

variable (term : E → ℕ)

/-- The term at a one-based index of a log; index `0` stands before every entry
and has term `0`. -/
def termAt (F : List E) : ℕ → ℕ
  | 0 => 0
  | i + 1 => (F[i]?.map term).getD 0

/-- The term of the last entry, `0` for the empty log. -/
def lastTerm (F : List E) : ℕ := termAt term F F.length

/-- A log is **at least as up to date** as another: its last term is greater, or
the last terms agree and it is at least as long. -/
def UpToDate (B F : List E) : Prop :=
  lastTerm term F < lastTerm term B ∨
    (lastTerm term F = lastTerm term B ∧ F.length ≤ B.length)

@[simp] theorem termAt_zero (F : List E) : termAt term F 0 = 0 := rfl

/-- The term at an index is that of the entry there. -/
theorem termAt_of_getElem? {F : List E} {i : ℕ} {e : E} (h : F[i]? = some e) :
    termAt term F (i + 1) = term e := by
  rw [termAt, h]
  rfl

/-- The term at an index depends only on the entries up to it. -/
theorem termAt_take (F : List E) {i k : ℕ} (hik : i ≤ k) :
    termAt term (F.take k) i = termAt term F i := by
  cases i with
  | zero => rfl
  | succ i => rw [termAt, termAt, List.getElem?_take_of_lt (by omega)]

theorem prefix_termAt_eq {F G : List E} (h : F <+: G) {i : ℕ} (hi : i ≤ F.length) :
    termAt term F i = termAt term G i := by
  rw [← termAt_take term G hi, ← List.prefix_iff_eq_take.mp h]

/-- The last entry of a nonempty log, which its last term is the term of. -/
theorem exists_last {F : List E} (h : F ≠ []) :
    ∃ i e, F.length = i + 1 ∧ F[i]? = some e ∧ lastTerm term F = term e := by
  obtain ⟨i, hi⟩ : ∃ i, F.length = i + 1 :=
    Nat.exists_eq_succ_of_ne_zero fun h0 => h (List.length_eq_zero_iff.mp h0)
  obtain ⟨e, he⟩ : ∃ e, F[i]? = some e := ⟨_, List.getElem?_eq_getElem (by omega)⟩
  exact ⟨i, e, hi, he, by rw [lastTerm, hi, termAt_of_getElem? term he]⟩

theorem upToDate_refl (F : List E) : UpToDate term F F := Or.inr ⟨rfl, le_refl _⟩

end Logs

/-! ### Two prefixes of one list -/

/-- The beginnings of a longer log, as far as the shorter one goes. -/
theorem prefix_take_le {L L' : List E} {k : ℕ} (h : L <+: L') (hk : k ≤ L.length) :
    L'.take k <+: L := by
  refine List.prefix_of_prefix_length_le (List.take_prefix k L') h ?_
  rw [List.length_take]
  omega

/-- **Two logs, one a beginning of the other, agree as far as the shorter one goes.** -/
theorem prefix_take_eq {L L' : List E} {k : ℕ} (h : L <+: L') (hk : k ≤ L.length) :
    L'.take k = L.take k := by
  obtain ⟨S, rfl⟩ := h
  exact List.take_append_of_le_length hk

theorem prefix_getElem?_some {P L : List E} (h : P <+: L) {i : ℕ} {e : E} (hi : P[i]? = some e) :
    L[i]? = some e := by
  obtain ⟨S, rfl⟩ := h
  rw [List.getElem?_append_left (List.getElem?_eq_some_iff.mp hi).1]
  exact hi

theorem prefix_getElem?_eq {P L : List E} (h : P <+: L) {i : ℕ} (hlt : i < P.length) :
    P[i]? = L[i]? := by
  obtain ⟨S, rfl⟩ := h
  rw [List.getElem?_append_left hlt]

/-! ### The order -/

/-- **Nothing recorded is withdrawn**: the terms grow, the leaders keep their
terms and only append, candidacies and votes stay, and what a member accepted in
a term it has left is final. -/
structure Le (a a' : Ledger N E) : Prop where
  cur : ∀ n, a.cur n ≤ a'.cur n
  lead : ∀ t c L, a.lead t = some (c, L) → ∃ L', a'.lead t = some (c, L') ∧ L <+: L'
  stand : ∀ n t B, a.stand n t = some B → a'.stand n t = some B
  vote : ∀ v t c, a.vote v t = some c → a'.vote v t = some c
  acked : ∀ v t, a.acked v t ≤ a'.acked v t
  frozen : ∀ v t, t < a.cur v → a'.acked v t = a.acked v t
  decided : ∀ t, a.decided t ≤ a'.decided t

theorem Le.refl (a : Ledger N E) : Le a a where
  cur := fun _ => le_refl _
  lead := fun _ _ L h => ⟨L, h, List.prefix_refl L⟩
  stand := fun _ _ _ h => h
  vote := fun _ _ _ h => h
  acked := fun _ _ => le_refl _
  frozen := fun _ _ _ => rfl
  decided := fun _ => le_refl _

theorem Le.trans {a b c : Ledger N E} (h₁ : Le a b) (h₂ : Le b c) : Le a c where
  cur := fun n => le_trans (h₁.cur n) (h₂.cur n)
  lead := fun t m L h => by
    obtain ⟨L', h', hp⟩ := h₁.lead t m L h
    obtain ⟨L'', h'', hp'⟩ := h₂.lead t m L' h'
    exact ⟨L'', h'', hp.trans hp'⟩
  stand := fun n t B h => h₂.stand n t B (h₁.stand n t B h)
  vote := fun v t m h => h₂.vote v t m (h₁.vote v t m h)
  acked := fun v t => le_trans (h₁.acked v t) (h₂.acked v t)
  frozen := fun v t h => by
    rw [h₂.frozen v t (lt_of_lt_of_le h (h₁.cur v)), h₁.frozen v t h]
  decided := fun t => le_trans (h₁.decided t) (h₂.decided t)

/-! ### Sound logs -/

variable (R : Rules N E)

/-- **A sound log**: every prefix that ends in an entry of term `t` is a prefix of
the log of the leader of `t`. -/
def Sound (a : Ledger N E) (F : List E) : Prop :=
  ∀ i e, F[i]? = some e → ∃ c L, a.lead (R.term e) = some (c, L) ∧ F.take (i + 1) <+: L

variable {R}

theorem Sound.mono {a a' : Ledger N E} (hle : Le a a') {F : List E} (h : Sound R a F) :
    Sound R a' F := by
  intro i e hi
  obtain ⟨c, L, hL, hp⟩ := h i e hi
  obtain ⟨L', hL', hLL'⟩ := hle.lead _ c L hL
  exact ⟨c, L', hL', hp.trans hLL'⟩

/-- A beginning of a sound log is sound. -/
theorem Sound.prefix_closed {a : Ledger N E} {F G : List E} (h : Sound R a G) (hp : F <+: G) :
    Sound R a F := by
  intro i e hi
  obtain ⟨c, L, hL, hpL⟩ := h i e (prefix_getElem?_some hp hi)
  have hlen : i + 1 ≤ F.length := (List.getElem?_eq_some_iff.mp hi).1
  rw [prefix_take_eq hp hlen] at hpL
  exact ⟨c, L, hL, hpL⟩

/-- **Log matching below an entry**: two sound logs agree up to an entry of the one if the other
has an entry of the same term there or above. -/
theorem Sound.take_eq_of_le {a : Ledger N E} {F G : List E} (hF : Sound R a F) (hG : Sound R a G)
    {i j : ℕ} (hpos : 0 < i) (hij : i ≤ j) (hi : i ≤ F.length) (hj : j ≤ G.length)
    (ht : termAt R.term F i = termAt R.term G j) : F.take i = G.take i := by
  obtain ⟨i, rfl⟩ : ∃ k, i = k + 1 := Nat.exists_eq_succ_of_ne_zero (by omega)
  obtain ⟨j, rfl⟩ : ∃ k, j = k + 1 := Nat.exists_eq_succ_of_ne_zero (by omega)
  have heF : F[i]? = some (F.get ⟨i, hi⟩) := by simp
  have heG : G[j]? = some (G.get ⟨j, hj⟩) := by simp
  rw [termAt_of_getElem? R.term heF, termAt_of_getElem? R.term heG] at ht
  obtain ⟨c, L, hL, hp⟩ := hF i _ heF
  obtain ⟨c', L', hL', hp'⟩ := hG j _ heG
  -- both are prefixes of the log of that term's leader
  rw [ht, hL', Option.some.injEq, Prod.mk.injEq] at hL
  obtain ⟨-, rfl⟩ := hL
  have hG' : G.take (i + 1) <+: L' := (List.take_prefix_take_left hij).trans hp'
  have hlF : (F.take (i + 1)).length = i + 1 := List.length_take_of_le hi
  have hlG : (G.take (i + 1)).length = i + 1 := List.length_take_of_le (by omega)
  exact (List.prefix_of_prefix_length_le hp hG' (by omega)).eq_of_length (by omega)

/-- **Log matching**: two sound logs with the same term at an index agree up to
it. -/
theorem Sound.take_eq {a : Ledger N E} {F G : List E} (hF : Sound R a F) (hG : Sound R a G)
    {i : ℕ} (hiF : i ≤ F.length) (hiG : i ≤ G.length) (ht : termAt R.term F i = termAt R.term G i) :
    F.take i = G.take i := by
  cases i with
  | zero => simp
  | succ i => exact hF.take_eq_of_le hG (Nat.succ_pos i) (le_refl _) hiF hiG ht

/-! ### The steps -/

section Steps

variable [DecidableEq N]

/-- Replacing the value of a two-argument table at one place. -/
def put {β : Type} (f : N → ℕ → β) (n : N) (t : ℕ) (v : β) : N → ℕ → β :=
  fun m s => if m = n ∧ s = t then v else f m s

@[simp] theorem put_self {β : Type} (f : N → ℕ → β) (n : N) (t : ℕ) (v : β) :
    put f n t v n t = v := if_pos ⟨rfl, rfl⟩

theorem put_of_ne {β : Type} (f : N → ℕ → β) {n m : N} {t s : ℕ} (v : β)
    (h : ¬(m = n ∧ s = t)) : put f n t v m s = f m s := if_neg h

namespace Ledger

/-- The ledger with a member in another term. -/
abbrev reach (a : Ledger N E) (n : N) (t : ℕ) : Ledger N E :=
  { a with cur := Function.update a.cur n t }

/-- The ledger after a member has stood in a term. -/
abbrev candidacy (a : Ledger N E) (n : N) (t : ℕ) : Ledger N E :=
  { a with
    cur := Function.update a.cur n t
    vote := put a.vote n t (some n)
    stand := put a.stand n t (some (a.log n)) }

/-- The ledger after a member has voted in its term. -/
abbrev ballot (a : Ledger N E) (n c : N) : Ledger N E :=
  { a with vote := put a.vote n (a.cur n) (some c) }

/-- The ledger after a member has extended its log, as the leader of its term. -/
abbrev grow (a : Ledger N E) (n : N) (e : E) : Ledger N E :=
  { a with
    log := Function.update a.log n (a.log n ++ [e])
    lead := Function.update a.lead (a.cur n) (some (n, a.log n ++ [e]))
    acked := put a.acked n (a.cur n) ((a.log n).length + 1) }

/-- The ledger after a member with log `F` has accepted `k` entries of the log of its
term. -/
abbrev take (a : Ledger N E) (n : N) (F : List E) (k : ℕ) : Ledger N E :=
  { a with
    log := Function.update a.log n F
    acked := put a.acked n (a.cur n) (max (a.acked n (a.cur n)) k) }

/-- A node has acknowledged what it has just accepted. -/
theorem le_take_acked (a : Ledger N E) (n : N) (F : List E) (k : ℕ) :
    k ≤ (a.take n F k).acked n (a.cur n) := by
  show k ≤ put a.acked n (a.cur n) _ n (a.cur n)
  rw [put_self]
  exact le_max_right _ _

/-- The ledger after a member has decided `k` entries of the log of its term. -/
abbrev settle (a : Ledger N E) (n : N) (k : ℕ) : Ledger N E :=
  { a with decided := Function.update a.decided (a.cur n) (max (a.decided (a.cur n)) k) }

end Ledger

variable (R)

/-- **What a member may do to the ledger.** -/
inductive Step (n : N) : Ledger N E → Ledger N E → Prop
  /-- Reach a later term. -/
  | advance {a : Ledger N E} (t : ℕ) (ht : a.cur n ≤ t) : Step n a (a.reach n t)
  /-- Stand in a later term, with the log it holds, and vote for itself. -/
  | stand {a : Ledger N E} (t : ℕ) (ht : a.cur n < t) : Step n a (a.candidacy n t)
  /-- Vote, once a term, for a member that stood in it with an up-to-date log. -/
  | vote {a : Ledger N E} (c : N) (B : List E) (hfree : a.vote n (a.cur n) = none)
      (hB : a.stand c (a.cur n) = some B) (hup : UpToDate R.term B (a.log n)) :
      Step n a (a.ballot n c)
  /-- Win a term: a quorum voted for the member, its log is still the one it
  stood with, and the log of the term opens with an entry of its own. -/
  | elect {a : Ledger N E} (e : E) (q : Finset N)
      (hB : a.stand n (a.cur n) = some (a.log n)) (hfree : a.lead (a.cur n) = none)
      (hq : R.Quorum q) (hv : ∀ v ∈ q, a.vote v (a.cur n) = some n)
      (he : R.term e = a.cur n) : Step n a (a.grow n e)
  /-- Append an entry to the log of the term it leads. -/
  | append {a : Ledger N E} (e : E) (hlead : a.lead (a.cur n) = some (n, a.log n))
      (he : R.term e = a.cur n) : Step n a (a.grow n e)
  /-- Accept a prefix `G` of the leader's log: the member keeps its own log `F` if
  `G` is a prefix of it, and replaces it by `G` if not. -/
  | accept {a : Ledger N E} (c : N) (L G F : List E) (hlead : a.lead (a.cur n) = some (c, L))
      (hG : G <+: L) (hF : (F = a.log n ∧ G <+: a.log n) ∨ (F = G ∧ ¬G <+: a.log n)) :
      Step n a (a.take n F G.length)
  /-- Decide the log up to an entry of the term, accepted by a quorum. -/
  | decide {a : Ledger N E} (L : List E) (k : ℕ) (e : E) (q : Finset N)
      (hlead : a.lead (a.cur n) = some (n, L)) (hk : L[k]? = some e)
      (he : R.term e = a.cur n) (hq : R.Quorum q)
      (hack : ∀ v ∈ q, k + 1 ≤ a.acked v (a.cur n)) : Step n a (a.settle n (k + 1))

end Steps

end Consensus

end DistQueue
