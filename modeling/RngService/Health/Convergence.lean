import Mathlib
import RngService.Health.SelfTest
import RngService.Lib.ContFrac

/-!
# Convergence of the incomplete gamma function

`gammaQ` breaks off both of its loops after 300 iterations, so the p-value of the block
frequency test is only computed to convergence where that many are enough. In exact rational
arithmetic:

* The series needs a partial sum `10 ^ 12` times its last term. `ratio a x k` is this
  quotient after `k` iterations; it falls as `x` and as `a` grow. For the largest `x` of a
  sample, `a + 63/64`, the bound is reached in time up to 3599 blocks, and not with 3600.
* The continued fraction compares two tails of itself, which `ContFrac.two_step` brings
  together (`gap_le`); up to 3600 blocks at most 199 iterations are enough.

So the test of every sample converges exactly for samples of less than 57600 bytes
(`converges_iff`).
-/

namespace Health

/-! ### The series -/

/-- The partial sum over the last term of the series, after `k` iterations. -/
def ratio (a x : ℚ) : ℕ → ℚ
  | 0 => 1
  | k + 1 => ratio a x k * ((a + (k + 1)) / x) + 1

variable {a x : ℚ}

theorem one_le_ratio (ha : 0 < a) (hx : 0 < x) (k : ℕ) : 1 ≤ ratio a x k := by
  induction k with
  | zero => exact le_rfl
  | succ k ih =>
    rw [ratio]
    have hterm : 0 ≤ ratio a x k * ((a + (k + 1)) / x) := by positivity
    linarith

/-- **The ratio falls** as the quotients of consecutive terms do. -/
theorem ratio_le_ratio {a' x' : ℚ} (ha : 0 < a) (hx : 0 < x)
    (h : ∀ j : ℕ, (a + (j + 1)) / x ≤ (a' + (j + 1)) / x') (k : ℕ) :
    ratio a x k ≤ ratio a' x' k := by
  induction k with
  | zero => exact le_rfl
  | succ k ih =>
    rw [ratio, ratio]
    have hone := one_le_ratio ha hx k
    have hquotient : 0 ≤ (a + (k + 1)) / x := by positivity
    have hmul := mul_le_mul ih (h k) hquotient (by linarith)
    linarith

theorem ratio_le_of_le {x' : ℚ} (ha : 0 < a) (hx' : 0 < x') (h : x' ≤ x) (k : ℕ) :
    ratio a x k ≤ ratio a x' k :=
  ratio_le_ratio ha (hx'.trans_le h) (fun j => div_le_div_of_nonneg_left (by positivity) hx' h) k

/-- At a fixed distance of at most 1, the ratio falls as the parameter grows. -/
theorem ratio_shift {a' θ : ℚ} (ha : 0 < a) (haa : a ≤ a') (hθ : 0 ≤ θ) (hθ' : θ ≤ 1) (k : ℕ) :
    ratio a' (a' + θ) k ≤ ratio a (a + θ) k := by
  refine ratio_le_ratio (ha.trans_le haa) (by linarith) (fun j => ?_) k
  have hj : (0 : ℚ) ≤ j := j.cast_nonneg
  rw [div_le_div_iff₀ (by linarith) (by linarith)]
  nlinarith

/-- Below `a + 1` the ratio grows with every iteration. -/
theorem ratio_le_succ (ha : 0 < a) (hx : 0 < x) (h : x < a + 1) (k : ℕ) :
    ratio a x k ≤ ratio a x (k + 1) := by
  have hone := one_le_ratio ha hx k
  have hquotient : 1 ≤ (a + (k + 1)) / x := by
    have hk : (0 : ℚ) ≤ k := k.cast_nonneg
    rw [one_le_div hx]
    linarith
  rw [ratio]
  nlinarith

/-- The variables of the series after `k` iterations. -/
theorem series_iterate (ha : 0 < a) (hx : 0 < x) (k : ℕ) : ∃ del, 0 < del ∧
    (Series.step x)^[k] (Series.init a) = ⟨a + k, del, del * ratio a x k⟩ := by
  induction k with
  | zero => exact ⟨1 / a, by positivity, by simp [Series.init, ratio]⟩
  | succ k ih =>
    obtain ⟨del, hdel, hstate⟩ := ih
    refine ⟨del * (x / (a + k + 1)), by positivity, ?_⟩
    rw [Function.iterate_succ_apply', hstate, Series.step]
    simp only [Series.mk.injEq]
    refine ⟨by push_cast; ring, trivial, ?_⟩
    rw [ratio]
    field_simp
    ring

theorem series_small_iff (ha : 0 < a) (hx : 0 < x) (k : ℕ) :
    ((Series.step x)^[k] (Series.init a)).small = true ↔ 10 ^ 12 < ratio a x k := by
  obtain ⟨del, hdel, hstate⟩ := series_iterate ha hx k
  have hone := one_le_ratio ha hx k
  rw [hstate, Series.small, decide_eq_true_iff]
  simp only [abs_of_pos hdel, abs_of_pos (mul_pos hdel (by linarith : 0 < ratio a x k)), eps]
  rw [mul_assoc, lt_mul_iff_one_lt_right hdel, ← div_eq_mul_inv, one_lt_div (by norm_num)]

/-- **The series converges** exactly if its last ratio is large enough. -/
theorem seriesLoop_iff (ha : 0 < a) (hx : 0 < x) (h : x < a + 1) :
    (seriesLoop a x).1 = true ↔ 10 ^ 12 < ratio a x 300 := by
  rw [seriesLoop, Loop.run_fst_iff_last (by decide), series_small_iff ha hx, maxIter]
  intro k hk
  rw [series_small_iff ha hx] at hk ⊢
  exact hk.trans_le (ratio_le_succ ha hx h (k + 1))

/-- Up to 3599 blocks the series converges in time. -/
theorem ratio_3599 : 10 ^ 12 < ratio (3599 / 2) (3599 / 2 + 63 / 64) 300 := by decide +kernel

/-- With 3600 it does not. -/
theorem ratio_3600 : ¬ 10 ^ 12 < ratio (3600 / 2) (3600 / 2 + 63 / 64) 300 := by decide +kernel

/-! ### The continued fraction -/

/-- The numerator of iteration `i`. -/
def numerator (a : ℚ) (i : ℕ) : ℚ := i * (a - i)

/-- A tail of the continued fraction after `k` iterations, from the value `u`. -/
def tail (a b u : ℚ) : ℕ → ℚ
  | 0 => u
  | k + 1 => ContFrac.next (numerator a (k + 1)) (b + 2 * ↑(k + 1)) (tail a b u k)

variable {b u : ℚ}

theorem numerator_nonneg {i : ℕ} (h : (i : ℚ) ≤ a) : 0 ≤ numerator a i :=
  mul_nonneg i.cast_nonneg (by linarith)

theorem cast_le_of_le {j k : ℕ} (hk : (k : ℚ) ≤ a) (h : j ≤ k) : (j : ℚ) ≤ a :=
  (Nat.cast_le.mpr h).trans hk

/-- As long as the numerators are not negative, a tail is positive. -/
theorem tail_pos (hb : 0 < b) (hu : 0 < u) {k : ℕ} (hk : (k : ℚ) ≤ a) : 0 < tail a b u k := by
  induction k with
  | zero => exact hu
  | succ k ih =>
    have hk' : (k : ℚ) ≤ a := cast_le_of_le hk k.le_succ
    have hstep := ContFrac.le_next (b := b + 2 * ↑(k + 1)) (numerator_nonneg hk) (ih hk')
    exact lt_of_lt_of_le (by positivity) hstep

/-- After the first step it is at least its denominator. -/
theorem le_tail (hb : 0 < b) (hu : 0 < u) {k : ℕ} (hk : ((k + 1 : ℕ) : ℚ) ≤ a) :
    b + 2 * ↑(k + 1) ≤ tail a b u (k + 1) :=
  ContFrac.le_next (numerator_nonneg hk) (tail_pos hb hu (cast_le_of_le hk k.le_succ))

/-- A number that is not small is not clamped. -/
theorem clamp_of_le {d : ℚ} (h : 1 ≤ d) : clamp d = d := by
  have hsmall : (fpmin : ℚ) ≤ 1 := inv_le_one_of_one_le₀ (one_le_pow₀ (by norm_num))
  rw [clamp, abs_of_nonneg (by linarith), if_neg (by linarith)]

theorem fpmin_inv : 1 / (fpmin : ℚ) = 10 ^ 300 := by rw [fpmin, one_div, inv_inv]

theorem fpmin_inv_pos : 0 < 1 / (fpmin : ℚ) := by
  rw [fpmin_inv]
  positivity

/-- The variables of the loop when `c` and `1 / d` are two tails. -/
def tails (a b : ℚ) (k : ℕ) (del h : ℚ) : Fraction ℚ :=
  ⟨k + 1, b + 2 * k, tail a b (1 / fpmin) k, 1 / tail a b b k, del, h⟩

/-- The quotient of the two tails. -/
def quotient (a b : ℚ) (k : ℕ) : ℚ := tail a b (1 / fpmin) k / tail a b b k

theorem init_tails : Fraction.init a x = tails a (x + 1 - a) 0 0 (1 / (x + 1 - a)) := by
  simp [Fraction.init, tails, tail]

/-- **An iteration** moves both tails on, and `del` becomes their quotient. -/
theorem step_tails (hb : 2 ≤ b) {k : ℕ} (hk : ((k + 1 : ℕ) : ℚ) ≤ a) (del h : ℚ) :
    Fraction.step a (tails a b k del h)
      = tails a b (k + 1) (quotient a b (k + 1)) (h * quotient a b (k + 1)) := by
  have hb0 : 0 < b := by linarith
  have hone : (1 : ℚ) ≤ b + 2 * ↑(k + 1) := by
    have hk0 : (0 : ℚ) ≤ ↑(k + 1) := Nat.cast_nonneg _
    linarith
  have hnumerator : -((k + 1 : ℕ) : ℚ) * ((k + 1 : ℕ) - a) = numerator a (k + 1) := by
    rw [numerator]
    ring
  have hdenominator : b + 2 * (k : ℚ) + 2 = b + 2 * ↑(k + 1) := by
    push_cast
    ring
  -- neither number is clamped
  have hc : clamp (b + 2 * ↑(k + 1) + numerator a (k + 1) / tail a b (1 / fpmin) k)
      = tail a b (1 / fpmin) (k + 1) := clamp_of_le (hone.trans (le_tail hb0 fpmin_inv_pos hk))
  have hd : clamp (numerator a (k + 1) * (1 / tail a b b k) + (b + 2 * ↑(k + 1)))
      = tail a b b (k + 1) := by
    rw [mul_one_div, add_comm]
    exact clamp_of_le (hone.trans (le_tail hb0 hb0 hk))
  unfold Fraction.step tails
  simp only [hnumerator, hdenominator, hc, hd, quotient, one_div_mul_eq_div]

/-- **The variables of the continued fraction** after some iterations. -/
theorem fraction_iterate (hb : 2 ≤ x + 1 - a) {k : ℕ} (hk : ((k + 1 : ℕ) : ℚ) ≤ a) : ∃ h,
    (Fraction.step a)^[k + 1] (Fraction.init a x)
      = tails a (x + 1 - a) (k + 1) (quotient a (x + 1 - a) (k + 1)) h := by
  induction k with
  | zero => exact ⟨_, by rw [init_tails]; exact step_tails hb hk _ _⟩
  | succ k ih =>
    obtain ⟨h, hh⟩ := ih (cast_le_of_le hk (k + 1).le_succ)
    rw [Function.iterate_succ_apply', hh, step_tails hb hk]
    exact ⟨_, rfl⟩

/-! ### The distance of the tails -/

/-- The distance of the two tails. -/
def gap (a b : ℚ) (k : ℕ) : ℚ := |tail a b (1 / fpmin) k - tail a b b k|

/-- What two more iterations leave of the distance, at most. -/
def factor (k : ℕ) (a : ℚ) : ℚ :=
  (k + 2) * (a - (k + 2)) * (a - (k + 1)) / ((k + 1) * (a + 3 * k + 7) ^ 2)

/-- After the first iteration they are as far apart as their inverses were before it. -/
theorem gap_one (hb : 2 ≤ b) (ha : 1 ≤ a) : gap a b 1 ≤ a / 2 := by
  have hU : 2 ≤ 1 / (fpmin : ℚ) := by
    rw [fpmin_inv]
    calc (2 : ℚ) ≤ 10 ^ 1 := by norm_num
      _ ≤ 10 ^ 300 := pow_le_pow_right₀ (by norm_num) (by norm_num)
  have hone : ((1 : ℕ) : ℚ) ≤ a := by exact_mod_cast ha
  have hgap : gap a b 1 = numerator a 1 * |1 / fpmin - b| / (1 / fpmin * b) :=
    ContFrac.abs_next_sub (numerator_nonneg hone) (by linarith : 0 < 1 / (fpmin : ℚ))
      (by linarith : 0 < b)
  have hnumerator : numerator a 1 = a - 1 := by
    rw [numerator, Nat.cast_one, one_mul]
  rw [hgap, hnumerator]
  generalize 1 / (fpmin : ℚ) = U at *
  have hdistance : |U - b| ≤ U * b / 2 := by
    rw [abs_le]
    constructor
    · nlinarith
    · nlinarith
  have hUb : 0 < U * b := by positivity
  rw [div_le_iff₀ hUb]
  nlinarith

/-- **Two more iterations** shrink the distance by the factor. -/
theorem gap_add_two (hb : 2 ≤ b) {k : ℕ} (hk : k ≠ 0) (hka : ((k + 2 : ℕ) : ℚ) ≤ a) :
    gap a b (k + 2) ≤ gap a b k * factor k a := by
  obtain ⟨j, rfl⟩ := Nat.exists_eq_succ_of_ne_zero hk
  have hb0 : 0 < b := by linarith
  have hka1 : ((j + 1 + 1 : ℕ) : ℚ) ≤ a := cast_le_of_le hka (by omega)
  have hka0 : ((j + 1 : ℕ) : ℚ) ≤ a := cast_le_of_le hka (by omega)
  have hj : (0 : ℚ) ≤ j := j.cast_nonneg
  -- both tails are at least twice the index
  have hden : 2 * ((j + 1 : ℕ) : ℚ) + 2 ≤ b + 2 * ↑(j + 1) := by linarith
  have htwo : gap a b (j + 1 + 2) ≤ gap a b (j + 1)
      * (numerator a (j + 1 + 2) * numerator a (j + 1 + 1)
        / ((b + 2 * ↑(j + 1 + 1)) * (2 * ((j + 1 : ℕ) : ℚ) + 2) + numerator a (j + 1 + 1)) ^ 2) :=
    ContFrac.two_step (numerator_nonneg hka1) (numerator_nonneg hka) (by positivity)
      (by positivity) (hden.trans (le_tail hb0 fpmin_inv_pos hka0))
      (hden.trans (le_tail hb0 hb0 hka0))
  refine htwo.trans (mul_le_mul_of_nonneg_left ?_ (abs_nonneg _))
  have hnumerators : 0 ≤ numerator a (j + 1 + 2) * numerator a (j + 1 + 1) :=
    mul_nonneg (numerator_nonneg hka) (numerator_nonneg hka1)
  have hleast : (↑(j + 1) + 1) * (a + 3 * ↑(j + 1) + 7)
      ≤ (b + 2 * ↑(j + 1 + 1)) * (2 * ((j + 1 : ℕ) : ℚ) + 2) + numerator a (j + 1 + 1) := by
    rw [numerator]
    push_cast
    nlinarith
  have hapos : 0 < a + 3 * ((j + 1 : ℕ) : ℚ) + 7 := by
    push_cast
    push_cast at hka
    linarith
  have hleast0 : 0 < (((j + 1 : ℕ) : ℚ) + 1) * (a + 3 * ↑(j + 1) + 7) :=
    mul_pos (by positivity) hapos
  have hsq := pow_le_pow_left₀ hleast0.le hleast 2
  refine (div_le_div_of_nonneg_left hnumerators (pow_pos hleast0 2) hsq).trans_eq ?_
  rw [numerator, numerator, factor]
  have hj1 : ((j + 1 : ℕ) : ℚ) + 1 ≠ 0 := by positivity
  rw [div_eq_div_iff (pow_ne_zero 2 hleast0.ne')
    (mul_ne_zero hj1 (pow_ne_zero 2 hapos.ne'))]
  push_cast
  ring

theorem factor_le {k : ℕ} {B : ℚ} (hk : ((k + 2 : ℕ) : ℚ) ≤ a) (hB : a ≤ B) :
    0 ≤ factor k a ∧ factor k a ≤ factor k B := by
  have hk0 : (0 : ℚ) ≤ k := k.cast_nonneg
  push_cast at hk
  -- the factor is a product of three quotients
  have hsplit : ∀ c : ℚ, k + 2 ≤ c → factor k c
      = (k + 2) / (k + 1) * ((c - (k + 2)) / (c + 3 * k + 7))
        * ((c - (k + 1)) / (c + 3 * k + 7)) := by
    intro c hc
    have hpos : c + 3 * k + 7 ≠ 0 := by linarith
    unfold factor
    field_simp
  have hquotient : ∀ d : ℚ, 0 ≤ d → d ≤ k + 2 →
      0 ≤ (a - d) / (a + 3 * k + 7) ∧ (a - d) / (a + 3 * k + 7) ≤ (B - d) / (B + 3 * k + 7) := by
    intro d hd0 hd
    refine ⟨div_nonneg (by linarith) (by linarith), ?_⟩
    rw [div_le_div_iff₀ (by linarith) (by linarith)]
    nlinarith
  obtain ⟨h2, h2'⟩ := hquotient (k + 2) (by linarith) le_rfl
  obtain ⟨h1, h1'⟩ := hquotient (k + 1) (by linarith) (by linarith)
  have hratio : (0 : ℚ) ≤ (k + 2) / (k + 1) := by positivity
  rw [hsplit a hk, hsplit B (by linarith)]
  refine ⟨mul_nonneg (mul_nonneg hratio h2) h1, ?_⟩
  exact mul_le_mul (mul_le_mul_of_nonneg_left h2' hratio) h1' h1
    (mul_nonneg hratio (h2.trans h2'))

/-- The bound on the distance that holds for every parameter up to `B`. -/
def gapBound (B : ℚ) : ℕ → ℚ
  | 0 => B / 2
  | j + 1 => gapBound B j * factor (2 * j + 1) B

theorem gap_le (hb : 2 ≤ b) {B : ℚ} (hB : a ≤ B) {j : ℕ} (hj : ((2 * j + 1 : ℕ) : ℚ) ≤ a) :
    gap a b (2 * j + 1) ≤ gapBound B j := by
  induction j with
  | zero =>
    have hone : 1 ≤ a := by simpa using hj
    exact (gap_one hb hone).trans (by rw [gapBound]; linarith)
  | succ j ih =>
    have hj' : ((2 * j + 1 : ℕ) : ℚ) ≤ a := cast_le_of_le hj (by omega)
    obtain ⟨hfactor, hle⟩ := factor_le (k := 2 * j + 1) (B := B) hj hB
    calc gap a b (2 * (j + 1) + 1)
        ≤ gap a b (2 * j + 1) * factor (2 * j + 1) a := gap_add_two hb (by omega) hj
      _ ≤ gapBound B j * factor (2 * j + 1) B :=
        mul_le_mul (ih hj') hle hfactor ((abs_nonneg _).trans (ih hj'))

/-- **The continued fraction converges** by the iteration where the bound is small enough. -/
theorem fractionLoop_of_bound (hx : a + 1 ≤ x) {B : ℚ} (hB : a ≤ B) {j : ℕ}
    (hj : ((2 * j + 1 : ℕ) : ℚ) ≤ a) (hmax : 2 * j < 300)
    (hbound : gapBound B j < eps * (4 * j + 4)) : (fractionLoop a x).1 = true := by
  have hb : 2 ≤ x + 1 - a := by linarith
  have hb0 : 0 < x + 1 - a := by linarith
  have hj0 : (0 : ℚ) ≤ j := j.cast_nonneg
  refine Loop.run_fst_iff.mpr ⟨2 * j, hmax, ?_⟩
  obtain ⟨h, hstate⟩ := fraction_iterate hb hj
  have hgap := gap_le hb hB hj
  have hden := le_tail hb0 hb0 hj
  rw [hstate, Fraction.small, decide_eq_true_iff]
  -- the quotient misses 1 by the distance over the second tail
  have hmiss : |(tails a (x + 1 - a) (2 * j + 1) (quotient a (x + 1 - a) (2 * j + 1)) h).del - 1|
      = gap a (x + 1 - a) (2 * j + 1) / tail a (x + 1 - a) (x + 1 - a) (2 * j + 1) := by
    have hpos : 0 < tail a (x + 1 - a) (x + 1 - a) (2 * j + 1) := tail_pos hb0 hb0 hj
    show |quotient a (x + 1 - a) (2 * j + 1) - 1| = _
    rw [quotient, gap, div_sub_one hpos.ne', abs_div, abs_of_pos hpos]
  rw [hmiss, div_lt_iff₀ (tail_pos hb0 hb0 hj)]
  refine (hgap.trans_lt hbound).trans_le (mul_le_mul_of_nonneg_left ?_ (by norm_num [eps]))
  push_cast at hden
  linarith

theorem fractionLoop_converges (ha : 39 ≤ a) (ha' : a ≤ 1800) (hx : a + 1 ≤ x) :
    (fractionLoop a x).1 = true := by
  rcases le_total a 80 with h80 | h80
  · exact fractionLoop_of_bound hx h80 (j := 18) (by push_cast; linarith) (by decide)
      (by decide +kernel)
  · rcases le_total a 200 with h200 | h200
    · exact fractionLoop_of_bound hx h200 (j := 39) (by push_cast; linarith) (by decide)
        (by decide +kernel)
    · exact fractionLoop_of_bound hx ha' (j := 99) (by push_cast; linarith) (by decide)
        (by decide +kernel)

/-! ### The statistic of a sample -/

/-- The square of the distance of the ones of a block from one half. -/
def excess (block : Bytes) : ℤ := ((countOnes block : ℤ) - 64) ^ 2

/-- The statistic is a multiple of 1/64. -/
theorem chi2_half (bits : Bytes) :
    (chi2 bits 128 : ℚ) / 2 = (((blocks bits 128).map excess).sum : ℤ) / 64 := by
  unfold chi2
  induction blocks bits 128 with
  | nil => simp
  | cons block rest ih =>
    have hblock : ((countOnes block : ℚ) / (128 : ℕ) - 1 / 2)
          * ((countOnes block : ℚ) / (128 : ℕ) - 1 / 2) * (4 * (128 : ℕ)) / 2
        = (excess block : ℚ) / 64 := by
      rw [excess]
      push_cast
      ring
    simp only [List.map_cons, List.sum_cons, Int.cast_add, add_mul, add_div] at ih ⊢
    rw [ih, hblock]

/-- The p-value of the block frequency test is computed to convergence, if there is anything
to compute. -/
def ConvergesOn (bits : Bytes) : Prop :=
  0 < (chi2 bits 128 : ℚ) / 2 →
    Converges ((bits.length / 128 : ℕ) / 2 : ℚ) ((chi2 bits 128 : ℚ) / 2)

/-- **Up to 3599 blocks** the test of every sample converges. -/
theorem convergesOn_of_lt {bits : Bytes} (hlo : 78 ≤ bits.length / 128)
    (hhi : bits.length / 128 ≤ 3599) : ConvergesOn bits := by
  intro hx
  have hlo' : (78 : ℚ) ≤ (bits.length / 128 : ℕ) := by exact_mod_cast hlo
  have hhi' : ((bits.length / 128 : ℕ) : ℚ) ≤ 3599 := by exact_mod_cast hhi
  rw [chi2_half] at hx ⊢
  generalize ((blocks bits 128).map excess).sum = S at *
  generalize bits.length / 128 = N at *
  unfold Converges
  split
  · next hseries =>
    -- the statistic of the series is at most 63/64 above the parameter
    have hS : S ≤ 32 * N + 63 := by
      rw [div_lt_iff₀ (by norm_num)] at hseries
      have hlt : (S : ℚ) < ((32 * N + 64 : ℕ) : ℚ) := by
        push_cast
        linarith
      have hlt' : S < ((32 * N + 64 : ℕ) : ℤ) := by exact_mod_cast hlt
      push_cast at hlt'
      omega
    have hS' : (S : ℚ) ≤ 32 * N + 63 := by exact_mod_cast hS
    have ha : (0 : ℚ) < (N : ℚ) / 2 := by linarith
    refine (seriesLoop_iff ha hx hseries).mpr ?_
    calc (10 : ℚ) ^ 12 < ratio (3599 / 2) (3599 / 2 + 63 / 64) 300 := ratio_3599
      _ ≤ ratio (N / 2) (N / 2 + 63 / 64) 300 :=
        ratio_shift ha (by linarith) (by norm_num) (by norm_num) 300
      _ ≤ ratio (N / 2) (S / 64) 300 := ratio_le_of_le ha hx (by linarith) 300
  · next hfraction =>
    exact fractionLoop_converges (by linarith) (by linarith) (not_lt.mp hfraction)

/-! ### The worst samples -/

theorem bytesToBits_append (x y : Bytes) : bytesToBits (x ++ y) = bytesToBits x ++ bytesToBits y :=
  List.flatMap_append

/-- The first block. -/
theorem blocks_append {n : ℕ} (hn : 0 < n) {x : Bytes} (hx : x.length = n) (bits : Bytes) :
    blocks (x ++ bits) n = x :: blocks bits n := by
  have hcount : (x ++ bits).length / n = bits.length / n + 1 := by
    rw [List.length_append, hx, Nat.add_div_left _ hn]
  rw [blocks, hcount, List.range_succ_eq_map, List.map_cons, List.map_map]
  refine congrArg₂ List.cons ?_ (List.map_congr_left fun i _ => ?_)
  · rw [Nat.zero_mul, List.drop_zero, List.take_left' hx]
  · have hindex : (i + 1) * n = x.length + i * n := by
      rw [hx]
      ring
    simp only [Function.comp, Nat.succ_eq_add_one]
    rw [hindex, ← List.drop_drop, List.drop_left]

/-- The blocks of a sample in chunks of sixteen bytes. -/
theorem blocks_flatten {chunks : List Bytes} (hchunks : ∀ c ∈ chunks, c.length = 16) {rest : Bytes}
    (hrest : rest.length < 16) :
    blocks (bytesToBits (chunks.flatten ++ rest)) 128 = chunks.map bytesToBits := by
  induction chunks with
  | nil =>
    have hnone : (bytesToBits rest).length / 128 = 0 := by
      rw [length_bytesToBits]
      omega
    rw [List.flatten_nil, List.nil_append, blocks, hnone]
    rfl
  | cons c chunks ih =>
    have hc : (bytesToBits c).length = 128 := by
      rw [length_bytesToBits, hchunks c List.mem_cons_self]
    rw [List.flatten_cons, List.append_assoc, bytesToBits_append, blocks_append (by decide) hc,
      ih fun c' hc' => hchunks c' (List.mem_cons_of_mem c hc'), List.map_cons]

/-- Sixteen bytes with `64 + k` ones, for `b` with `k` ones. -/
def chunk (b : UInt8) : Bytes := List.replicate 8 255 ++ [b] ++ List.replicate 7 0

/-- Chunks with 70, with 65 and with 64 ones, so that the squares of the distances add up to
`32 * N + 63`. -/
def worstChunks (N : ℕ) : List Bytes :=
  List.replicate ((32 * N + 63) / 36) (chunk 63) ++ List.replicate ((32 * N + 63) % 36) (chunk 1)
    ++ List.replicate (N - (32 * N + 63) / 36 - (32 * N + 63) % 36) (chunk 0)

/-- A sample whose statistic is as large as the series can meet. -/
def worstSample (size : ℕ) : Bytes :=
  (worstChunks (size / 16)).flatten ++ List.replicate (size % 16) 0

theorem length_worstChunks {N : ℕ} (hN : 3600 ≤ N) : (worstChunks N).length = N := by
  simp only [worstChunks, List.length_append, List.length_replicate]
  omega

theorem length_of_mem_worstChunks {N : ℕ} {c : Bytes} (hc : c ∈ worstChunks N) : c.length = 16 := by
  simp only [worstChunks, List.mem_append, List.mem_replicate] at hc
  rcases hc with (⟨-, rfl⟩ | ⟨-, rfl⟩) | ⟨-, rfl⟩ <;> rfl

theorem length_worstSample {size : ℕ} (h : 57600 ≤ size) : (worstSample size).length = size := by
  have hlengths : (worstChunks (size / 16)).map List.length = List.replicate (size / 16) 16 := by
    refine List.eq_replicate_iff.mpr ⟨?_, fun n hn => ?_⟩
    · rw [List.length_map, length_worstChunks (by omega)]
    · obtain ⟨c, hc, rfl⟩ := List.mem_map.mp hn
      exact length_of_mem_worstChunks hc
  have hchunks : ((worstChunks (size / 16)).map List.length).sum = 16 * (size / 16) := by
    rw [hlengths, List.sum_replicate, smul_eq_mul, Nat.mul_comm]
  rw [worstSample, List.length_append, List.length_flatten, hchunks, List.length_replicate]
  omega

theorem excess_worstChunks (N : ℕ) :
    (((worstChunks N).map bytesToBits).map excess).sum = 32 * N + 63 := by
  have h70 : excess (bytesToBits (chunk 63)) = 36 := by decide +kernel
  have h65 : excess (bytesToBits (chunk 1)) = 1 := by decide +kernel
  have h64 : excess (bytesToBits (chunk 0)) = 0 := by decide +kernel
  simp only [worstChunks, List.map_append, List.map_replicate, List.sum_append,
    List.sum_replicate, h70, h65, h64, nsmul_eq_mul]
  push_cast
  omega

/-- **From 3600 blocks on** there are samples whose test does not converge. -/
theorem not_convergesOn_worstSample {size : ℕ} (h : 57600 ≤ size) :
    ¬ ConvergesOn (bytesToBits (worstSample size)) := by
  intro hconv
  have hN : 3600 ≤ size / 16 := by omega
  have hN' : (3600 : ℚ) ≤ (size / 16 : ℕ) := by exact_mod_cast hN
  have hbits : (bytesToBits (worstSample size)).length / 128 = size / 16 := by
    rw [length_bytesToBits, length_worstSample h]
    omega
  have hrest : (List.replicate (size % 16) (0 : UInt8)).length < 16 := by
    rw [List.length_replicate]
    exact Nat.mod_lt _ (by decide)
  have hchi2 : (chi2 (bytesToBits (worstSample size)) 128 : ℚ) / 2
      = (size / 16 : ℕ) / 2 + 63 / 64 := by
    rw [chi2_half, worstSample, blocks_flatten (fun c hc => length_of_mem_worstChunks hc) hrest,
      excess_worstChunks]
    simp only [Int.cast_add, Int.cast_mul, Int.cast_ofNat, Int.cast_natCast]
    ring
  unfold ConvergesOn at hconv
  rw [hbits, hchi2] at hconv
  generalize ((size / 16 : ℕ) : ℚ) = N at *
  have hseries := hconv (by linarith)
  unfold Converges at hseries
  rw [if_pos (by linarith), seriesLoop_iff (by linarith) (by linarith) (by linarith)] at hseries
  -- the ratio is no larger than with 3600 blocks
  have hshift : ratio (N / 2) (N / 2 + 63 / 64) 300 ≤ ratio (3600 / 2) (3600 / 2 + 63 / 64) 300 :=
    ratio_shift (by norm_num) (by linarith) (by norm_num) (by norm_num) 300
  exact ratio_3600 (hseries.trans_le hshift)

/-- **The p-value is computed to convergence for every sample** exactly if the samples have less
than 57600 bytes, that is fewer than 3600 blocks. -/
theorem converges_iff (sampleBytes : UInt64) :
    (∀ data : Bytes, data.length = (newSelfTester sampleBytes).sampleSize.toNat →
      ConvergesOn (bytesToBits data)) ↔
    (newSelfTester sampleBytes).sampleSize.toNat < 57600 := by
  constructor
  · intro h
    by_contra hlarge
    have hsize := length_worstSample (not_lt.mp hlarge)
    exact not_convergesOn_worstSample (not_lt.mp hlarge) (h _ hsize)
  · intro hsmall data hdata
    have hsize : 1250 ≤ (newSelfTester sampleBytes).sampleSize.toNat := sampleSize_ge sampleBytes
    have hbits : (bytesToBits data).length / 128 = data.length / 16 := by
      rw [length_bytesToBits]
      omega
    exact convergesOn_of_lt (by omega) (by omega)

/-- **A sample of 57600 bytes** whose test does not converge. -/
theorem worstSample_57600 :
    (worstSample 57600).length = (newSelfTester 57600).sampleSize.toNat ∧
      ¬ ConvergesOn (bytesToBits (worstSample 57600)) :=
  ⟨length_worstSample le_rfl, not_convergesOn_worstSample le_rfl⟩

end Health
