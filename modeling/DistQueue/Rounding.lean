import Mathlib.Data.Int.Log
import Mathlib.Data.Rat.Floor
import Mathlib.Tactic.Linarith
import Mathlib.Tactic.Positivity
import Mathlib.Tactic.Ring

/-!
# Rounding

Numbers with a fixed number of significant binary digits, as rationals: an operation on
them is the operation on rationals, followed by `DistQueue.toPrecision`, which rounds to the
nearest such number, and to the one whose last digit is even if there are two. The exponent
is not bounded, so that nothing overflows, and nothing is lost close to zero.

Three facts are all that is used of it: a number is changed by a small part of itself
(`DistQueue.abs_toPrecision_sub_le`), integers that are not too large are not changed
(`DistQueue.toPrecision_intCast`), and the order is kept (`DistQueue.toPrecision_mono`).
-/

namespace DistQueue

/-! ### To an integer -/

/-- The nearest integer, and the even one if there are two. -/
def roundEven (x : ℚ) : ℤ :=
  if x - ⌊x⌋ < 1 / 2 then ⌊x⌋
  else if 1 / 2 < x - ⌊x⌋ then ⌊x⌋ + 1
  else if ⌊x⌋ % 2 = 0 then ⌊x⌋ else ⌊x⌋ + 1

section RoundEven

variable {x y : ℚ} {n : ℤ}

/-- It is above or below the number, and not farther than halfway to the next. -/
theorem roundEven_cases (x : ℚ) :
    roundEven x = ⌊x⌋ ∧ x ≤ ⌊x⌋ + 1 / 2 ∨ roundEven x = ⌊x⌋ + 1 ∧ (⌊x⌋ : ℚ) + 1 / 2 ≤ x := by
  unfold roundEven
  split_ifs with hlt hgt heven
  · exact Or.inl ⟨rfl, by linarith⟩
  · exact Or.inr ⟨rfl, by linarith⟩
  · exact Or.inl ⟨rfl, by linarith⟩
  · exact Or.inr ⟨rfl, by linarith⟩

/-- Rounding moves a number by half a unit at most. -/
theorem abs_roundEven_sub_le (x : ℚ) : |(roundEven x : ℚ) - x| ≤ 1 / 2 := by
  have hle := Int.floor_le x
  have hlt := Int.lt_floor_add_one x
  rw [abs_le]
  obtain ⟨heq, hx⟩ | ⟨heq, hx⟩ := roundEven_cases x <;> rw [heq] <;> push_cast <;>
    constructor <;> linarith

theorem roundEven_eq (h : |x - n| < 1 / 2) : roundEven x = n := by
  have hle := abs_le.mp (abs_roundEven_sub_le x)
  have hlt := abs_lt.mp h
  have h₁ : ((roundEven x : ℤ) : ℚ) < (n : ℚ) + 1 := by linarith
  have h₂ : (n : ℚ) < (roundEven x : ℤ) + 1 := by linarith
  have h₃ : roundEven x < n + 1 := by exact_mod_cast h₁
  have h₄ : n < roundEven x + 1 := by exact_mod_cast h₂
  omega

/-- An integer is its own rounding. -/
@[simp] theorem roundEven_intCast (n : ℤ) : roundEven n = n :=
  roundEven_eq (by simp)

/-- Rounding keeps the order. -/
theorem roundEven_mono (h : x ≤ y) : roundEven x ≤ roundEven y := by
  rcases h.eq_or_lt with rfl | hlt
  · exact le_rfl
  have hfloor := Int.floor_mono h
  have hx := roundEven_cases x
  have hy := roundEven_cases y
  rcases hfloor.eq_or_lt with heq | hstep
  · -- between the same two integers: only the upper of `x` against the lower of `y` is left
    rw [← heq] at hy
    rcases hx with ⟨hx, -⟩ | ⟨hx, hx'⟩ <;> rcases hy with ⟨hy, hy'⟩ | ⟨hy, -⟩
    · rw [hx, hy]
    · omega
    · linarith
    · rw [hx, hy]
  · omega

/-- Rounding does not go below an integer bound. -/
theorem le_roundEven (h : (n : ℚ) ≤ x) : n ≤ roundEven x := by
  have hmono := roundEven_mono h
  rwa [roundEven_intCast] at hmono

/-- Rounding does not go above an integer bound. -/
theorem roundEven_le (h : x ≤ n) : roundEven x ≤ n := by
  have hmono := roundEven_mono h
  rwa [roundEven_intCast] at hmono

end RoundEven

/-! ### To a number of digits -/

/-- The last of `p` binary digits of a number of this size. -/
def lastPlace (p : ℕ) (x : ℚ) : ℚ := 2 ^ (Int.log 2 |x| + 1 - p)

/-- The nearest number with `p` significant binary digits. -/
def toPrecision (p : ℕ) (x : ℚ) : ℚ := roundEven (x / lastPlace p x) * lastPlace p x

section ToPrecision

variable {p : ℕ} {x y : ℚ} {n : ℤ}

/-- The unit in the last place is positive. -/
theorem lastPlace_pos (p : ℕ) (x : ℚ) : 0 < lastPlace p x := zpow_pos two_pos _

@[simp] theorem toPrecision_zero (p : ℕ) : toPrecision p 0 = 0 := by
  have hzero : roundEven 0 = 0 := by exact_mod_cast roundEven_intCast 0
  rw [toPrecision, zero_div, hzero, Int.cast_zero, zero_mul]

/-- So many last places make up the next power of two. -/
theorem lastPlace_mul_pow (p : ℕ) (x : ℚ) :
    lastPlace p x * 2 ^ p = 2 ^ (Int.log 2 |x| + 1) := by
  rw [lastPlace, ← zpow_natCast (2 : ℚ) p, ← zpow_add₀ two_ne_zero]
  congr 1
  ring

/-- **The number is changed by less than its first `p` digits tell.** -/
theorem abs_toPrecision_sub_le (p : ℕ) (x : ℚ) : |toPrecision p x - x| ≤ |x| / 2 ^ p := by
  rcases eq_or_ne x 0 with rfl | hx
  · simp
  have hu := lastPlace_pos p x
  have hlog : (2 : ℚ) ^ Int.log 2 |x| ≤ |x| := by
    exact_mod_cast Int.zpow_log_le_self (b := 2) (by decide) (abs_pos.mpr hx)
  have hplace : lastPlace p x * 2 ^ p = 2 ^ Int.log 2 |x| * 2 := by
    rw [lastPlace_mul_pow, zpow_add_one₀ two_ne_zero]
  have herror : |toPrecision p x - x| ≤ 1 / 2 * lastPlace p x := by
    have hdiff : toPrecision p x - x =
        ((roundEven (x / lastPlace p x) : ℚ) - x / lastPlace p x) * lastPlace p x := by
      rw [toPrecision, sub_mul, div_mul_cancel₀ _ hu.ne']
    rw [hdiff, abs_mul, abs_of_pos hu]
    exact mul_le_mul_of_nonneg_right (abs_roundEven_sub_le _) hu.le
  rw [le_div_iff₀ (by positivity)]
  calc |toPrecision p x - x| * 2 ^ p
      ≤ 1 / 2 * lastPlace p x * 2 ^ p := by
        exact mul_le_mul_of_nonneg_right herror (by positivity)
    _ = 2 ^ Int.log 2 |x| := by
        rw [mul_assoc, hplace]
        ring
    _ ≤ |x| := hlog

/-- Rounding keeps the sign. -/
theorem toPrecision_nonneg (hx : 0 ≤ x) : 0 ≤ toPrecision p x := by
  have hu := lastPlace_pos p x
  have hround : 0 ≤ roundEven (x / lastPlace p x) := by
    refine le_roundEven ?_
    rw [Int.cast_zero]
    exact div_nonneg hx hu.le
  exact mul_nonneg (by exact_mod_cast hround) hu.le

/-- Rounding stays within the powers of two around the number. -/
theorem toPrecision_mem_binade (hp : 0 < p) (hx : 0 < x) :
    2 ^ Int.log 2 x ≤ toPrecision p x ∧ toPrecision p x ≤ 2 ^ (Int.log 2 x + 1) := by
  have hu := lastPlace_pos p x
  have habs : |x| = x := abs_of_pos hx
  have htop : lastPlace p x * (2 ^ p : ℤ) = 2 ^ (Int.log 2 x + 1) := by
    push_cast
    rw [lastPlace_mul_pow, habs]
  have hbottom : lastPlace p x * (2 ^ (p - 1) : ℤ) = 2 ^ Int.log 2 x := by
    obtain ⟨q, rfl⟩ : ∃ q, p = q + 1 := ⟨p - 1, by omega⟩
    have hdouble : lastPlace (q + 1) x * (2 ^ q : ℤ) * 2 = 2 ^ Int.log 2 x * 2 := by
      rw [← zpow_add_one₀ two_ne_zero, ← htop]
      push_cast
      ring
    exact mul_right_cancel₀ two_ne_zero hdouble
  rw [← htop, ← hbottom, toPrecision, mul_comm (lastPlace p x), mul_comm (lastPlace p x)]
  constructor
  · refine mul_le_mul_of_nonneg_right ?_ hu.le
    refine Int.cast_le.mpr (le_roundEven ?_)
    rw [le_div_iff₀ hu, mul_comm, hbottom]
    exact_mod_cast Int.zpow_log_le_self (b := 2) (by decide) hx
  · refine mul_le_mul_of_nonneg_right ?_ hu.le
    refine Int.cast_le.mpr (roundEven_le ?_)
    rw [div_le_iff₀ hu, mul_comm, htop]
    exact_mod_cast (Int.lt_zpow_succ_log_self (b := 2) (by decide) x).le

/-- **The order is kept.** -/
theorem toPrecision_mono (hp : 0 < p) (hx : 0 ≤ x) (h : x ≤ y) :
    toPrecision p x ≤ toPrecision p y := by
  rcases hx.eq_or_lt with rfl | hx
  · rw [toPrecision_zero]
    exact toPrecision_nonneg h
  have hy : 0 < y := hx.trans_le h
  rcases (Int.log_mono_right (b := 2) hx h).eq_or_lt with heq | hlt
  · have hplace : lastPlace p x = lastPlace p y := by
      rw [lastPlace, lastPlace, abs_of_pos hx, abs_of_pos hy, heq]
    rw [toPrecision, toPrecision, hplace]
    refine mul_le_mul_of_nonneg_right (Int.cast_le.mpr (roundEven_mono ?_)) (lastPlace_pos p y).le
    exact div_le_div_of_nonneg_right h (lastPlace_pos p y).le
  · calc toPrecision p x ≤ 2 ^ (Int.log 2 x + 1) := (toPrecision_mem_binade hp hx).2
      _ ≤ 2 ^ Int.log 2 y := zpow_le_zpow_right₀ one_le_two hlt
      _ ≤ toPrecision p y := (toPrecision_mem_binade hp hy).1

/-- **Integers of at most `p` digits stay as they are.** -/
theorem toPrecision_intCast (h : |n| < 2 ^ p) : toPrecision p n = n := by
  rcases eq_or_ne n 0 with rfl | hn
  · exact_mod_cast toPrecision_zero p
  have hu := lastPlace_pos p (n : ℚ)
  -- the last place is a fraction, so that the integer is a multiple of it
  have hlog : Int.log 2 |(n : ℚ)| + 1 ≤ p := by
    have hpos : 0 < |(n : ℚ)| := abs_pos.mpr (by exact_mod_cast hn)
    have hlt : |(n : ℚ)| < ((2 : ℕ) : ℚ) ^ (p : ℤ) := by
      rw [zpow_natCast]
      exact_mod_cast h
    exact (Int.lt_zpow_iff_log_lt (b := 2) (by decide) hpos).mp hlt
  obtain ⟨k, hk⟩ := Int.eq_ofNat_of_zero_le (sub_nonneg.mpr hlog)
  have hmul : (n : ℚ) / lastPlace p n = ((n * 2 ^ k : ℤ) : ℚ) := by
    rw [div_eq_iff hu.ne']
    have hone : (2 : ℚ) ^ k * lastPlace p n = 1 := by
      rw [lastPlace, ← zpow_natCast (2 : ℚ) k, ← zpow_add₀ two_ne_zero]
      have hexp : (k : ℤ) + (Int.log 2 |(n : ℚ)| + 1 - p) = 0 := by
        have hk' : (p : ℤ) - (Int.log 2 |(n : ℚ)| + 1) = k := hk
        omega
      rw [hexp, zpow_zero]
    push_cast
    rw [mul_assoc, hone, mul_one]
  rw [toPrecision, hmul, roundEven_intCast, ← hmul, div_mul_cancel₀ _ hu.ne']

end ToPrecision

end DistQueue
