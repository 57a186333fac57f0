import Mathlib

/-!
# Continued fractions from different tails

The denominators of a continued fraction follow `u ↦ b + a / u` (`next`). Started from two
different values the recurrence brings them together: after two steps with numerators
`a₁`, `a₂` and denominators `b₁`, `b₂` from values of at least `b₀`, the distance has shrunk by
`a₂ * a₁ / (b₁ * b₀ + a₁) ^ 2` (`two_step`). This is how fast the convergents of a continued
fraction with non-negative numerators approach each other.
-/

namespace ContFrac

variable {K : Type} [Field K]

/-- One step of the recurrence, with numerator `a` and denominator `b`. -/
def next (a b u : K) : K := b + a / u

/-- The value of a step times the value before it. -/
theorem next_mul {a b u : K} (hu : u ≠ 0) : next a b u * u = b * u + a := by
  rw [next, add_mul, div_mul_cancel₀ a hu]

variable [LinearOrder K] [IsStrictOrderedRing K] {a b a₁ a₂ b₀ b₁ b₂ u v : K}

theorem le_next (ha : 0 ≤ a) (hu : 0 < u) : b ≤ next a b u :=
  le_add_of_nonneg_right (div_nonneg ha hu.le)

/-- **One step** multiplies the distance by `a / (u * v)`. -/
theorem abs_next_sub (ha : 0 ≤ a) (hu : 0 < u) (hv : 0 < v) :
    |next a b u - next a b v| = a * |u - v| / (u * v) := by
  have hsub : next a b u - next a b v = a * (v - u) / (u * v) := by
    unfold next
    field_simp
    ring
  rw [hsub, abs_div, abs_mul, abs_of_nonneg ha, abs_of_pos (mul_pos hu hv), abs_sub_comm]

/-- **Two steps.** -/
theorem two_step (ha₁ : 0 ≤ a₁) (ha₂ : 0 ≤ a₂) (hb₀ : 0 < b₀) (hb₁ : 0 < b₁) (hu : b₀ ≤ u)
    (hv : b₀ ≤ v) : |next a₂ b₂ (next a₁ b₁ u) - next a₂ b₂ (next a₁ b₁ v)|
      ≤ |u - v| * (a₂ * a₁ / (b₁ * b₀ + a₁) ^ 2) := by
  have hu0 : 0 < u := hb₀.trans_le hu
  have hv0 : 0 < v := hb₀.trans_le hv
  have hu1 : 0 < next a₁ b₁ u := hb₁.trans_le (le_next ha₁ hu0)
  have hv1 : 0 < next a₁ b₁ v := hb₁.trans_le (le_next ha₁ hv0)
  rw [abs_next_sub ha₂ hu1 hv1, abs_next_sub ha₁ hu0 hv0]
  -- the four denominators are two products, each at least the one at `b₀`
  have hpos : 0 < b₁ * b₀ + a₁ := add_pos_of_pos_of_nonneg (mul_pos hb₁ hb₀) ha₁
  have hu2 : b₁ * b₀ + a₁ ≤ next a₁ b₁ u * u := by
    rw [next_mul hu0.ne']
    have hmul := mul_le_mul_of_nonneg_left hu hb₁.le
    linarith
  have hv2 : b₁ * b₀ + a₁ ≤ next a₁ b₁ v * v := by
    rw [next_mul hv0.ne']
    have hmul := mul_le_mul_of_nonneg_left hv hb₁.le
    linarith
  have hprod : (b₁ * b₀ + a₁) ^ 2 ≤ next a₁ b₁ u * u * (next a₁ b₁ v * v) := by
    rw [sq]
    exact mul_le_mul hu2 hv2 hpos.le (hpos.le.trans hu2)
  calc a₂ * (a₁ * |u - v| / (u * v)) / (next a₁ b₁ u * next a₁ b₁ v)
      = |u - v| * (a₂ * a₁) / (next a₁ b₁ u * u * (next a₁ b₁ v * v)) := by
        field_simp
    _ ≤ |u - v| * (a₂ * a₁) / (b₁ * b₀ + a₁) ^ 2 := by
        refine div_le_div_of_nonneg_left ?_ (pow_pos hpos 2) hprod
        exact mul_nonneg (abs_nonneg _) (mul_nonneg ha₂ ha₁)
    _ = |u - v| * (a₂ * a₁ / (b₁ * b₀ + a₁) ^ 2) := by
        rw [mul_div_assoc]

end ContFrac
