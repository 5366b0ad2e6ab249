import DistQueue.Rounding
import Mathlib.Tactic.NormNum

/-!
# The models of the control plane

A controller beside the broker scrapes its counters, and learns from them what to recommend:
a timeout that goes up while tasks are given back too often, and down slowly while they are
not; a number of retries that goes down while most tasks fail; a number of workers. Numbers
are doubles, that is, every operation is followed by `DistQueue.Control.fl`; what overflows
or is not a number is left out.

A controller starts with the models that an earlier one has pickled, whatever they are, so that
their values may be any. The timeout is clamped after every observation. The number of retries
is clamped only when it is asked for; it does not get above three unless it was there, because
an average of two numbers lies between them, rounded or not (`DistQueue.Control.ema_le`). How
fast the models follow is said for any number of scrapes
(`DistQueue.Control.TimeoutModel.le_value_of_high`,
`DistQueue.Control.TimeoutModel.value_le_of_low`,
`DistQueue.Control.RetryModel.value_near`): one step at a time, with the four roundings of
a step bounded once (`DistQueue.Control.ema_near`).
-/

namespace DistQueue

namespace Control

/-! ### Doubles -/

/-- The double nearest to a number. -/
def fl (x : ℚ) : ℚ := toPrecision 53 x

section Doubles

variable {x y : ℚ} {n : ℤ}

/-- Rounding keeps the order, of numbers that are not negative. -/
theorem fl_mono (hx : 0 ≤ x) (h : x ≤ y) : fl x ≤ fl y := toPrecision_mono (by decide) hx h

/-- Integers of up to 53 bits are doubles. -/
theorem fl_intCast (h : |n| < 2 ^ 53) : fl n = n := toPrecision_intCast h

/-- The relative error of a double. -/
theorem abs_fl_sub_le (x : ℚ) : |fl x - x| ≤ |x| / 2 ^ 53 := abs_toPrecision_sub_le 53 x

/-- The error, for the numbers that occur here. -/
theorem fl_near (hx : |x| ≤ 1000) : |fl x - x| ≤ 1 / 10 ^ 12 :=
  (abs_fl_sub_le x).trans (by linarith)

/-- Rounding keeps the sign, and at most doubles a number. -/
theorem fl_between (x : ℚ) : 0 ≤ x ∧ 0 ≤ fl x ∧ fl x ≤ 101 / 100 * x ∨
    x ≤ 0 ∧ fl x ≤ 0 ∧ 101 / 100 * x ≤ fl x := by
  have hnear := abs_le.mp (abs_fl_sub_le x)
  rcases le_total 0 x with hx | hx
  · rw [abs_of_nonneg hx] at hnear
    exact Or.inl ⟨hx, by linarith, by linarith⟩
  · rw [abs_of_nonpos hx] at hnear
    exact Or.inr ⟨hx, by linarith, by linarith⟩

/-- Rounding does not lead below an integer. -/
theorem le_fl (h : |n| < 2 ^ 53) (hn : 0 ≤ n) (hx : (n : ℚ) ≤ x) : (n : ℚ) ≤ fl x := by
  have hmono := fl_mono (Int.cast_nonneg hn) hx
  rwa [fl_intCast h] at hmono

/-- Rounding does not lead above an integer. -/
theorem fl_le (h : |n| < 2 ^ 53) (hn : 0 ≤ n) (hx : x ≤ n) : fl x ≤ n := by
  rcases fl_between x with ⟨h0, -⟩ | ⟨-, hneg, -⟩
  · have hmono := fl_mono h0 hx
    rwa [fl_intCast h] at hmono
  · exact hneg.trans (Int.cast_nonneg hn)

end Doubles

section Clamp

variable {α : Type*} [LinearOrder α]

/-- `_clamp` of the models and of the writer. -/
def clamp (v lo hi : α) : α := max lo (min hi v)

/-- What is clamped is between the bounds, if these are in order. -/
theorem clamp_mem (v : α) {lo hi : α} (h : lo ≤ hi) : lo ≤ clamp v lo hi ∧ clamp v lo hi ≤ hi :=
  ⟨le_max_left _ _, max_le h (min_le_left _ _)⟩

/-- What is between the bounds is not changed. -/
theorem clamp_of_mem {v lo hi : α} (h : lo ≤ v ∧ v ≤ hi) : clamp v lo hi = v := by
  rw [clamp, min_eq_right h.2, max_eq_right h.1]

end Clamp

/-! ### The collector -/

/-- The metrics of the queue, as they are scraped; one that is missing is zero. -/
structure Metrics where
  pending : ℚ
  inFlight : ℚ
  dlqDepth : ℚ
  ackedTotal : ℚ
  nackedTotal : ℚ

/-- What a scrape has shown, with its time. -/
structure QueueSnapshot where
  ts : ℚ
  pending : ℚ
  inFlight : ℚ
  dlqDepth : ℚ
  ackedTotal : ℚ
  nackedTotal : ℚ
  /-- Per second, since the scrape before. -/
  ackRate : ℚ
  nackRate : ℚ

/-- How many tasks are given back for one that is acknowledged. -/
def QueueSnapshot.nackPressure (snap : QueueSnapshot) : ℚ :=
  fl (snap.nackRate / fl (snap.ackRate + fl (1 / 10 ^ 6)))

/-- The collector keeps the snapshot before. -/
structure Collector where
  prev : Option QueueSnapshot

namespace Collector

/-- The rates since the scrape before. A counter that has gone down belongs to a broker that
was restarted, and counts as a rate of zero. -/
def fillRates (c : Collector) (snap : QueueSnapshot) : QueueSnapshot :=
  match c.prev with
  | none => snap
  | some prev =>
    let dt := fl (snap.ts - prev.ts)
    if dt ≤ 0 then snap
    else
      { snap with
        ackRate := max 0 (fl (fl (snap.ackedTotal - prev.ackedTotal) / dt))
        nackRate := max 0 (fl (fl (snap.nackedTotal - prev.nackedTotal) / dt)) }

/-- The snapshot of a scrape, from the metrics it has found. -/
def parse (c : Collector) (values : Metrics) (now : ℚ) : QueueSnapshot × Collector :=
  let snap := c.fillRates
    { ts := now, pending := values.pending, inFlight := values.inFlight,
      dlqDepth := values.dlqDepth, ackedTotal := values.ackedTotal,
      nackedTotal := values.nackedTotal, ackRate := 0, nackRate := 0 }
  (snap, ⟨some snap⟩)

end Collector

/-! ### Moving averages -/

/-- The weight of the newest target, in all three models. -/
def emaAlpha : ℚ := fl (3 / 10)

/-- `value += EMA_ALPHA * (target - value)`. -/
def ema (value target : ℚ) : ℚ := fl (value + fl (emaAlpha * fl (target - value)))

section Ema

variable {v t : ℚ}

/-- The weight is three tenths, nearly. -/
theorem emaAlpha_near : |emaAlpha - 3 / 10| ≤ 1 / 10 ^ 12 :=
  fl_near (by norm_num [abs_of_pos])

/-- What is added to the old value does not lead past the target. -/
theorem ema_step (v t : ℚ) : 0 ≤ fl (emaAlpha * fl (t - v)) ∧ v + fl (emaAlpha * fl (t - v)) ≤ t ∨
    fl (emaAlpha * fl (t - v)) ≤ 0 ∧ t ≤ v + fl (emaAlpha * fl (t - v)) := by
  obtain ⟨hlow, hhigh⟩ := abs_le.mp emaAlpha_near
  have hα : 0 ≤ emaAlpha := by linarith
  rcases fl_between (t - v) with ⟨hd, hd0, hd1⟩ | ⟨hd, hd0, hd1⟩
  · have hprod : emaAlpha * fl (t - v) ≤ 1 / 2 * (101 / 100 * (t - v)) :=
      mul_le_mul (by linarith) hd1 hd0 (by norm_num)
    rcases fl_between (emaAlpha * fl (t - v)) with ⟨-, h0, h1⟩ | ⟨hneg, h0, h1⟩
    · exact Or.inl ⟨h0, by linarith⟩
    · have hzero : emaAlpha * fl (t - v) = 0 := le_antisymm hneg (mul_nonneg hα hd0)
      rw [hzero] at h0 h1 ⊢
      exact Or.inl ⟨by linarith, by linarith⟩
  · have hprod : 1 / 2 * (101 / 100 * (t - v)) ≤ emaAlpha * fl (t - v) := by
      have hle := mul_le_mul (by linarith : emaAlpha ≤ 1 / 2) (neg_le_neg hd1)
        (by linarith : 0 ≤ -fl (t - v)) (by norm_num)
      linarith
    rcases fl_between (emaAlpha * fl (t - v)) with ⟨hpos, h0, h1⟩ | ⟨-, h0, h1⟩
    · have hzero : emaAlpha * fl (t - v) = 0 :=
        le_antisymm (mul_nonpos_of_nonneg_of_nonpos hα hd0) hpos
      rw [hzero] at h0 h1 ⊢
      exact Or.inr ⟨by linarith, by linarith⟩
    · exact Or.inr ⟨h0, by linarith⟩

/-- **The average stays above an integer** that the value and the target are above. -/
theorem le_ema {a : ℤ} (ha : 0 ≤ a) (hlt : a < 2 ^ 53) (hv : (a : ℚ) ≤ v) (ht : (a : ℚ) ≤ t) :
    (a : ℚ) ≤ ema v t := by
  refine le_fl (by rwa [abs_of_nonneg ha]) ha ?_
  rcases ema_step v t with ⟨h0, h1⟩ | ⟨h0, h1⟩ <;> linarith

/-- **The average stays below an integer** that the value and the target are below. -/
theorem ema_le {b : ℤ} (hb : 0 ≤ b) (hlt : b < 2 ^ 53) (hv : v ≤ b) (ht : t ≤ b) :
    ema v t ≤ b := by
  refine fl_le (by rwa [abs_of_nonneg hb]) hb ?_
  rcases ema_step v t with ⟨h0, h1⟩ | ⟨h0, h1⟩ <;> linarith

/-- The average, up to what the four operations round. -/
theorem ema_near (hv : 0 ≤ v ∧ v ≤ 400) (ht : 0 ≤ t ∧ t ≤ 500) :
    |ema v t - (7 / 10 * v + 3 / 10 * t)| ≤ 1 / 10 ^ 9 := by
  obtain ⟨hα₁, hα₂⟩ := abs_le.mp emaAlpha_near
  have hd := abs_le.mp (fl_near (x := t - v) (by rw [abs_le]; constructor <;> linarith))
  have hprod : |emaAlpha * fl (t - v) - 3 / 10 * (t - v)| ≤ 6 / 10 ^ 10 := by
    have h₁ : |(emaAlpha - 3 / 10) * fl (t - v)| ≤ 1 / 10 ^ 12 * 501 := by
      rw [abs_mul]
      refine mul_le_mul emaAlpha_near ?_ (abs_nonneg _) (by norm_num)
      rw [abs_le]
      constructor <;> linarith
    have h₂ := abs_le.mp h₁
    rw [abs_le]
    constructor <;> linarith
  obtain ⟨hp₁, hp₂⟩ := abs_le.mp hprod
  have hp := abs_le.mp (fl_near (x := emaAlpha * fl (t - v))
    (by rw [abs_le]; constructor <;> linarith))
  have hs := abs_le.mp (fl_near (x := v + fl (emaAlpha * fl (t - v)))
    (by rw [abs_le]; constructor <;> linarith))
  rw [ema, abs_le]
  constructor <;> linarith

/-- **What shrinks by a factor until it is small**, along a list of observations. -/
theorem foldl_le_max {α β : Type} {f : β → α → β} {g : β → ℚ} {P : β → Prop} {b r : ℚ}
    (hb : 0 ≤ b) (hr₀ : 0 ≤ r) (hr₁ : r ≤ 1) {l : List α} {m : β} (hm : P m)
    (hstep : ∀ m, P m → ∀ x ∈ l, P (f m x) ∧ g (f m x) ≤ max b (g m * r)) :
    g (l.foldl f m) ≤ max b (g m * r ^ l.length) := by
  induction l generalizing m with
  | nil => simp
  | cons x l ih =>
    obtain ⟨hx, hone⟩ := hstep m hm x List.mem_cons_self
    refine (ih hx fun m hm y hy => hstep m hm y (List.mem_cons_of_mem _ hy)).trans
      (max_le (le_max_left _ _) ?_)
    have hpos : 0 ≤ r ^ l.length := pow_nonneg hr₀ _
    rw [List.length_cons, pow_succ']
    rcases le_max_iff.mp hone with hsmall | hmul
    · refine le_max_of_le_left ?_
      calc _ ≤ b * 1 := mul_le_mul hsmall (pow_le_one₀ hr₀ hr₁) hpos hb
        _ = b := mul_one b
    · refine le_max_of_le_right ?_
      rw [← mul_assoc]
      exact mul_le_mul_of_nonneg_right hmul hpos

end Ema

/-! ### The timeout -/

/-- More than this, and tasks are taken away too early. -/
def highPressure : ℚ := fl (1 / 10)

/-- Less than this, and there is slack. -/
def lowPressure : ℚ := fl (1 / 100)

/-- What a timeout that is too short is multiplied by. -/
def raiseFactor : ℚ := fl (6 / 5)

/-- What a timeout with slack is multiplied by. -/
def lowerFactor : ℚ := fl (19 / 20)

/-- The model of the timeout, in seconds. -/
structure TimeoutModel where
  value : ℚ
  deriving DecidableEq

namespace TimeoutModel

variable {m : TimeoutModel} {snap : QueueSnapshot}

/-- The model with its default. -/
def new : TimeoutModel := ⟨30⟩

/-- Where the pressure calls for the timeout to go. -/
def target (snap : QueueSnapshot) (current : ℚ) : ℚ :=
  if highPressure < snap.nackPressure then fl (current * raiseFactor)
  else if snap.nackPressure < lowPressure then fl (current * lowerFactor)
  else current

/-- One observation. -/
def update (m : TimeoutModel) (snap : QueueSnapshot) : TimeoutModel :=
  ⟨clamp (ema m.value (target snap m.value)) 5 300⟩

/-- What is recommended. -/
def predict (m : TimeoutModel) : ℚ := clamp m.value 5 300

/-- A model that has seen anything is within its bounds. -/
theorem foldl_mem {snaps : List QueueSnapshot} (h : snaps ≠ []) :
    5 ≤ (snaps.foldl update m).value ∧ (snaps.foldl update m).value ≤ 300 := by
  obtain ⟨init, snap, rfl⟩ := (List.eq_nil_or_concat snaps).resolve_left h
  rw [List.concat_eq_append, List.foldl_append]
  exact clamp_mem _ (by norm_num)

/-- A target that is a multiple of the value, up to what is rounded. -/
theorem fl_mul_near {v f c : ℚ} (hv : 0 ≤ v ∧ v ≤ 400) (hf : |f - c| ≤ 1 / 10 ^ 12)
    (hc : 0 ≤ c ∧ c ≤ 6 / 5) : |fl (v * f) - v * c| ≤ 1 / 10 ^ 9 := by
  have hprod : |v * f - v * c| ≤ 400 * (1 / 10 ^ 12) := by
    rw [← mul_sub, abs_mul, abs_of_nonneg hv.1]
    exact mul_le_mul hv.2 hf (abs_nonneg _) (by norm_num)
  have hexact : 0 ≤ v * c ∧ v * c ≤ 400 * (6 / 5) :=
    ⟨mul_nonneg hv.1 hc.1, mul_le_mul hv.2 hc.2 hc.1 (by norm_num)⟩
  obtain ⟨h₁, h₂⟩ := abs_le.mp hprod
  have hround := abs_le.mp (fl_near (x := v * f) (by rw [abs_le]; constructor <;> linarith))
  rw [abs_le]
  constructor <;> linarith

/-- **One scrape with pressure** raises the timeout by about a twentieth, up to its bound. -/
theorem update_high (h : highPressure < snap.nackPressure) :
    min 300 (m.value * (10599 / 10000)) ≤ (m.update snap).value := by
  have hfactor : |raiseFactor - 6 / 5| ≤ 1 / 10 ^ 12 := fl_near (by norm_num [abs_of_pos])
  obtain ⟨hraise, -⟩ := abs_le.mp hfactor
  have htarget : target snap m.value = fl (m.value * raiseFactor) := if_pos h
  rcases le_total m.value 1 with hshort | hpos
  · -- the lower bound is more than that
    exact (min_le_right _ _).trans (le_max_of_le_left (by linarith))
  refine le_max_of_le_right (le_min (min_le_left _ _) ?_)
  rw [htarget]
  rcases le_total m.value 300 with hsmall | hlarge
  · obtain ⟨ht₁, ht₂⟩ := abs_le.mp
      (fl_mul_near ⟨by linarith, by linarith⟩ hfactor ⟨by norm_num, le_rfl⟩)
    obtain ⟨he, -⟩ := abs_le.mp (ema_near (v := m.value) (t := fl (m.value * raiseFactor))
      ⟨by linarith, by linarith⟩ ⟨by linarith, by linarith⟩)
    exact (min_le_right _ _).trans (by linarith)
  · have hmul : (300 : ℚ) ≤ m.value * raiseFactor :=
      hlarge.trans (le_mul_of_one_le_right (by linarith) (by linarith))
    refine (min_le_left _ _).trans ?_
    exact_mod_cast le_ema (a := 300) (by decide) (by decide) (by exact_mod_cast hlarge)
      (le_fl (by decide) (by decide) (by exact_mod_cast hmul))

/-- **One scrape without pressure** lowers it by about a seventieth, down to its bound. -/
theorem update_low (h : snap.nackPressure < lowPressure) :
    (m.update snap).value ≤ max 5 (m.value * (985000001 / 1000000000)) := by
  have hfactor : |lowerFactor - 19 / 20| ≤ 1 / 10 ^ 12 := fl_near (by norm_num [abs_of_pos])
  obtain ⟨hlower, hlower'⟩ := abs_le.mp hfactor
  have hbands : lowPressure ≤ highPressure := fl_mono (by norm_num) (by norm_num)
  have htarget : target snap m.value = fl (m.value * lowerFactor) := by
    rw [target, if_neg (h.trans_le hbands).not_gt, if_pos h]
  refine max_le (le_max_left _ _) ?_
  rw [htarget]
  rcases le_total m.value 4 with hshort | hpos
  · have hmul : m.value * lowerFactor ≤ 4 :=
      (mul_le_mul_of_nonneg_right hshort (by linarith)).trans (by linarith)
    have hema : ema m.value (fl (m.value * lowerFactor)) ≤ 4 := by
      exact_mod_cast ema_le (b := 4) (by decide) (by decide) (by exact_mod_cast hshort)
        (fl_le (by decide) (by decide) (by exact_mod_cast hmul))
    exact (min_le_right _ _).trans (le_max_of_le_left (by linarith))
  rcases le_total m.value 400 with hsmall | hlarge
  · obtain ⟨ht₁, ht₂⟩ := abs_le.mp
      (fl_mul_near ⟨by linarith, hsmall⟩ hfactor ⟨by norm_num, by norm_num⟩)
    obtain ⟨-, he⟩ := abs_le.mp (ema_near (v := m.value) (t := fl (m.value * lowerFactor))
      ⟨by linarith, hsmall⟩ ⟨by linarith, by linarith⟩)
    exact (min_le_right _ _).trans (le_max_of_le_right (by linarith))
  · exact (min_le_left _ _).trans (le_max_of_le_right (by linarith))

/-- The timeout after `k` scrapes with pressure. -/
theorem le_value_of_high {snaps : List QueueSnapshot}
    (h : ∀ snap ∈ snaps, highPressure < snap.nackPressure) :
    min 300 (m.value * (10599 / 10000) ^ snaps.length) ≤ (snaps.foldl update m).value := by
  induction snaps generalizing m with
  | nil => simp
  | cons snap snaps ih =>
    obtain ⟨hsnap, hsnaps⟩ := List.forall_mem_cons.mp h
    refine le_trans (le_min (min_le_left _ _) ?_) (ih hsnaps)
    have hone := update_high (m := m) hsnap
    rw [List.length_cons, pow_succ']
    have hpow : (1 : ℚ) ≤ (10599 / 10000) ^ snaps.length := one_le_pow₀ (by norm_num)
    rcases min_le_iff.mp hone with h300 | hmul
    · refine (min_le_left _ _).trans ?_
      calc (300 : ℚ) ≤ (m.update snap).value * 1 := by linarith
        _ ≤ _ := mul_le_mul_of_nonneg_left hpow (by linarith)
    · refine (min_le_right _ _).trans ?_
      rw [← mul_assoc]
      exact mul_le_mul_of_nonneg_right hmul (by linarith)

/-- The timeout after `k` scrapes without. -/
theorem value_le_of_low {snaps : List QueueSnapshot}
    (h : ∀ snap ∈ snaps, snap.nackPressure < lowPressure) :
    (snaps.foldl update m).value ≤ max 5 (m.value * (985000001 / 1000000000) ^ snaps.length) :=
  foldl_le_max (P := fun _ => True) (by norm_num) (by norm_num) (by norm_num) trivial
    fun _ _ snap hsnap => ⟨trivial, update_low (h snap hsnap)⟩

end TimeoutModel

/-! ### The retries -/

/-- The model of the retries. -/
structure RetryModel where
  value : ℚ
  deriving DecidableEq

namespace RetryModel

variable {m : RetryModel} {snap : QueueSnapshot} {b : ℤ}

/-- The model with its default. -/
def new : RetryModel := ⟨3⟩

/-- Tasks that mostly fail are not worth retrying. -/
def target (snap : QueueSnapshot) : ℚ :=
  if 1 / 2 < snap.nackPressure then 1
  else if fl (1 / 10) < snap.nackPressure then 2
  else 3

/-- One observation. -/
def update (m : RetryModel) (snap : QueueSnapshot) : RetryModel := ⟨ema m.value (target snap)⟩

/-- What is recommended. -/
def predict (m : RetryModel) : ℚ := roundEven (clamp m.value 1 5)

/-- Between one and three is where the target is. -/
theorem target_mem (snap : QueueSnapshot) : 1 ≤ target snap ∧ target snap ≤ 3 := by
  unfold target
  split_ifs <;> norm_num

/-- Without pressure there are three retries. -/
theorem target_of_low (h : snap.nackPressure < lowPressure) : target snap = (3 : ℤ) := by
  have hbands : lowPressure ≤ fl (1 / 10) := fl_mono (by norm_num) (by norm_num)
  have hhalf : lowPressure ≤ 1 / 2 := hbands.trans (by decide +kernel)
  rw [target, if_neg (h.trans_le hhalf).not_gt, if_neg (h.trans_le hbands).not_gt]
  rfl

/-- **The model recommends at most `b` retries**, and will do so whatever it sees: it never
recommends more than five, and never more than three unless its value was above that. -/
def AtMost (b : ℤ) (m : RetryModel) : Prop := 5 ≤ b ∨ 3 ≤ b ∧ m.value ≤ b

instance (b : ℤ) (m : RetryModel) : Decidable (m.AtMost b) :=
  inferInstanceAs (Decidable (_ ∨ _ ∧ _))

/-- Five retries are never exceeded. -/
theorem atMost_five (m : RetryModel) : m.AtMost 5 := Or.inl le_rfl

theorem atMost_new (h : 3 ≤ b) : new.AtMost b :=
  Or.inr ⟨h, show (3 : ℚ) ≤ b by exact_mod_cast h⟩

/-- No observation raises the bound. -/
theorem AtMost.update (h : m.AtMost b) (snap : QueueSnapshot) : (m.update snap).AtMost b := by
  rcases lt_or_ge b 5 with hlt | hge
  · obtain ⟨hthree, hvalue⟩ := h.resolve_left hlt.not_ge
    have hthree' : (3 : ℚ) ≤ b := by exact_mod_cast hthree
    exact Or.inr ⟨hthree, ema_le (by omega) (by omega) hvalue ((target_mem snap).2.trans hthree')⟩
  · exact Or.inl hge

/-- **What is recommended** is at least one and at most the bound, and never more than five. -/
theorem AtMost.predict_mem (h : m.AtMost b) :
    ∃ n : ℤ, m.predict = n ∧ 1 ≤ n ∧ n ≤ b ∧ n ≤ 5 := by
  obtain ⟨hlow, hhigh⟩ := clamp_mem m.value (show (1 : ℚ) ≤ 5 by norm_num)
  refine ⟨roundEven (clamp m.value 1 5), rfl, le_roundEven (by exact_mod_cast hlow), ?_,
    roundEven_le (by exact_mod_cast hhigh)⟩
  rcases h with hfive | ⟨hthree, hvalue⟩
  · have hfive' : (5 : ℚ) ≤ b := by exact_mod_cast hfive
    exact roundEven_le (hhigh.trans hfive')
  · have hthree' : (3 : ℚ) ≤ b := by exact_mod_cast hthree
    exact roundEven_le (max_le (by linarith) ((min_le_right _ _).trans hvalue))

/-- A value between one and three stays there. -/
theorem mem_update (h : 1 ≤ m.value ∧ m.value ≤ 3) (snap : QueueSnapshot) :
    1 ≤ (m.update snap).value ∧ (m.update snap).value ≤ 3 := by
  obtain ⟨hlow, hhigh⟩ := target_mem snap
  constructor
  · exact_mod_cast le_ema (a := 1) (by decide) (by decide) (by exact_mod_cast h.1)
      (by exact_mod_cast hlow)
  · exact_mod_cast ema_le (b := 3) (by decide) (by decide) (by exact_mod_cast h.2)
      (by exact_mod_cast hhigh)

/-- **One scrape** takes the value nearer to its target. -/
theorem update_near {t : ℤ} (hmem : 1 ≤ m.value ∧ m.value ≤ 3) (h : target snap = t) :
    |(m.update snap).value - t| ≤ max (2 / 5) (|m.value - t| * (71 / 100)) := by
  obtain ⟨hlow, hhigh⟩ := hmem
  obtain ⟨htlow, hthigh⟩ := target_mem snap
  have hnear := ema_near (v := m.value) (t := target snap)
    ⟨by linarith, by linarith⟩ ⟨by linarith, by linarith⟩
  have hvalue : (m.update snap).value = ema m.value (target snap) := rfl
  rw [h] at hnear hvalue
  rw [hvalue]
  -- the distance shrinks to seven tenths, and by what is rounded
  have hdist : |ema m.value t - t| ≤ 1 / 10 ^ 9 + 7 / 10 * |m.value - t| := by
    have hsplit : ema m.value t - t =
        ema m.value t - (7 / 10 * m.value + 3 / 10 * t) + 7 / 10 * (m.value - t) := by
      ring
    rw [hsplit]
    refine (abs_add_le _ _).trans (add_le_add hnear ?_)
    rw [abs_mul, abs_of_pos (by norm_num)]
  rcases le_total |m.value - t| (1 / 10) with hsmall | hlarge
  · exact hdist.trans (le_max_of_le_left (by linarith))
  · exact hdist.trans (le_max_of_le_right (by linarith))

/-- The value after `k` scrapes that agree about its target. -/
theorem value_near {t : ℤ} {snaps : List QueueSnapshot} (hmem : 1 ≤ m.value ∧ m.value ≤ 3)
    (h : ∀ snap ∈ snaps, target snap = t) :
    |(snaps.foldl update m).value - t| ≤
      max (2 / 5) (|m.value - t| * (71 / 100) ^ snaps.length) := by
  have hstep : ∀ m : RetryModel, 1 ≤ m.value ∧ m.value ≤ 3 → ∀ snap ∈ snaps,
      (1 ≤ (m.update snap).value ∧ (m.update snap).value ≤ 3) ∧
        |(m.update snap).value - t| ≤ max (2 / 5) (|m.value - t| * (71 / 100)) :=
    fun m hm snap hsnap => ⟨mem_update hm snap, update_near hm (h snap hsnap)⟩
  refine foldl_le_max (f := update) (g := fun m => |m.value - t|) (b := 2 / 5) (r := 71 / 100)
    (P := fun m => 1 ≤ m.value ∧ m.value ≤ 3) ?_ ?_ ?_ hmem hstep <;> norm_num

/-- **What is recommended is the target**, after five scrapes that agree about it. -/
theorem predict_of_target {t : ℤ} {snaps : List QueueSnapshot}
    (hmem : 1 ≤ m.value ∧ m.value ≤ 3) (hlong : 5 ≤ snaps.length)
    (h : ∀ snap ∈ snaps, target snap = t) : (snaps.foldl update m).predict = t := by
  obtain ⟨snap, hsnap⟩ := List.exists_mem_of_length_pos (l := snaps) (by omega)
  obtain ⟨htlow, hthigh⟩ := target_mem snap
  rw [h snap hsnap] at htlow hthigh
  have hstart : |m.value - t| ≤ 2 := by
    obtain ⟨hlow, hhigh⟩ := hmem
    rw [abs_le]
    constructor <;> linarith
  have hle : |(snaps.foldl update m).value - t| ≤ 2 / 5 := by
    refine (value_near hmem h).trans (max_le le_rfl ?_)
    calc |m.value - t| * (71 / 100) ^ snaps.length ≤ 2 * (71 / 100) ^ 5 :=
          mul_le_mul hstart (pow_le_pow_of_le_one (by norm_num) (by norm_num) hlong)
            (by positivity) (by norm_num)
      _ ≤ 2 / 5 := by norm_num
  -- clamping does not lead away from a target between the bounds
  obtain ⟨hnear₁, hnear₂⟩ := abs_le.mp hle
  rw [predict]
  congr 1
  refine roundEven_eq (lt_of_le_of_lt (b := 2 / 5) ?_ (by norm_num))
  rw [clamp, abs_le]
  constructor
  · linarith [le_max_right (1 : ℚ) (min 5 (snaps.foldl update m).value),
      le_min (show (t : ℚ) - 2 / 5 ≤ 5 by linarith)
        (show (t : ℚ) - 2 / 5 ≤ (snaps.foldl update m).value by linarith)]
  · linarith [max_le (show (1 : ℚ) ≤ t + 2 / 5 by linarith)
      ((min_le_right (5 : ℚ) _).trans
        (show (snaps.foldl update m).value ≤ t + 2 / 5 by linarith))]

end RetryModel

/-! ### The workers -/

/-- The model of the workers. -/
structure WorkerModel where
  targetDrainSeconds : ℚ
  /-- Tasks per second and worker, as learned. -/
  perWorkerRate : ℚ
  assumedWorkers : ℤ

namespace WorkerModel

/-- The model with its defaults. -/
def new : WorkerModel := ⟨30, 0, 4⟩

/-- One observation: the rate is learned while there is any. -/
def update (m : WorkerModel) (snap : QueueSnapshot) : WorkerModel :=
  if snap.ackRate ≤ 0 then m
  else
    let observed := fl (snap.ackRate / max m.assumedWorkers 1)
    { m with perWorkerRate :=
        if m.perWorkerRate = 0 then observed else ema m.perWorkerRate observed }

/-- As many as would drain the queue in time. -/
def predict (m : WorkerModel) (snap : QueueSnapshot) : ℚ :=
  if m.perWorkerRate ≤ 0 then m.assumedWorkers
  else
    let drainablePerWorker := fl (m.perWorkerRate * m.targetDrainSeconds)
    clamp ⌈fl (snap.pending / max drainablePerWorker (fl (1 / 10 ^ 6)))⌉ 1 64

end WorkerModel

end Control

end DistQueue
