import Mathlib
import RngService.Gateway.Rest
import RngService.Lib.Loop

/-!
# The self tests

`SelfTester`, the three statistical tests and the incomplete gamma function of
`internal/health/nist_selftest.go`. The `float64` of the source is an ordered field, so that
the arithmetic is exact; what is imported from `math` is a parameter (`MathPkg`). The bits are
bytes 0 and 1. Both loops of the gamma function are runs of `Loop`: they say whether they broke
at the test for `eps` or used up their `maxIter` iterations.

The clamp of `NewSelfTester` is enough for the preconditions of every test, so `RunAll` takes
no error branch (`runAll_ok`), and the prerequisite of the runs test keeps its divisor away
from zero (`runsDivisor_ne_zero`).
-/

namespace Health

open Gateway (Status)

/-- The functions of the package `math` that the self tests use. -/
structure MathPkg (F : Type) where
  sqrt : F → F
  erfc : F → F
  exp : F → F
  log : F → F
  lgamma : F → F

variable {F : Type} [Field F] [LinearOrder F]

/-- `maxIter` -/
def maxIter : ℕ := 300

/-- `eps`, 1e-12 -/
def eps : F := (10 ^ 12)⁻¹

/-- `fpmin`, 1e-300 -/
def fpmin : F := (10 ^ 300)⁻¹

/-! ### The series of the gamma function -/

/-- The variables of the loop of `gammaPSeries`. -/
structure Series (F : Type) where
  ap : F
  del : F
  sum : F

/-- The body of the loop. -/
def Series.step (x : F) (s : Series F) : Series F :=
  let ap := s.ap + 1
  let del := s.del * (x / ap)
  ⟨ap, del, s.sum + del⟩

/-- The test of the loop. -/
def Series.small (s : Series F) : Bool := |s.del| < |s.sum| * eps

/-- The variables before the loop. -/
def Series.init (a : F) : Series F := ⟨a, 1 / a, 1 / a⟩

/-- The loop of `gammaPSeries`. -/
def seriesLoop (a x : F) : Bool × Series F :=
  Loop.run Series.small (Series.step x) maxIter (Series.init a)

/-- `gammaPSeries` -/
def gammaPSeries (m : MathPkg F) (a x : F) : F :=
  m.exp (-x + a * m.log x - m.lgamma a) * (seriesLoop a x).2.sum

/-! ### Its continued fraction -/

/-- The variables of the loop of `gammaQCF`; `del` is the one of the last iteration. -/
structure Fraction (F : Type) where
  i : ℕ
  b : F
  c : F
  d : F
  del : F
  h : F

/-- A number pushed away from zero: `if math.Abs(d) < fpmin { d = fpmin }`. -/
def clamp (d : F) : F := if |d| < fpmin then fpmin else d

/-- The body of the loop. -/
def Fraction.step (a : F) (s : Fraction F) : Fraction F :=
  let an := -(s.i : F) * ((s.i : F) - a)
  let b := s.b + 2
  let d := clamp (an * s.d + b)
  let c := clamp (b + an / s.c)
  let d := 1 / d
  let del := d * c
  ⟨s.i + 1, b, c, d, del, s.h * del⟩

/-- The test of the loop. -/
def Fraction.small (s : Fraction F) : Bool := |s.del - 1| < eps

/-- The variables before the loop, which starts with `i = 1`. -/
def Fraction.init (a x : F) : Fraction F :=
  let b := x + 1 - a
  ⟨1, b, 1 / fpmin, 1 / b, 0, 1 / b⟩

/-- The loop of `gammaQCF`. -/
def fractionLoop (a x : F) : Bool × Fraction F :=
  Loop.run Fraction.small (Fraction.step a) maxIter (Fraction.init a x)

/-- `gammaQCF` -/
def gammaQCF (m : MathPkg F) (a x : F) : F :=
  m.exp (-x + a * m.log x - m.lgamma a) * (fractionLoop a x).2.h

/-! ### The choice between the two -/

/-- `gammaQ` -/
def gammaQ (m : MathPkg F) (a x : F) : F :=
  if x < 0 ∨ a ≤ 0 then 0
  else if x = 0 then 1
  else if x < a + 1 then 1 - gammaPSeries m a x
  else gammaQCF m a x

/-- The loop that `gammaQ` selects leaves through its convergence test. -/
def Converges (a x : F) : Prop :=
  if x < a + 1 then (seriesLoop a x).1 = true else (fractionLoop a x).1 = true

/-! ### The tests -/

/-- The bits of a byte, the most significant one first. -/
def byteBits (b : UInt8) : List UInt8 :=
  [7, 6, 5, 4, 3, 2, 1, 0].map fun j : UInt8 => if b &&& (1 <<< j) ≠ 0 then 1 else 0

/-- `bytesToBits` -/
def bytesToBits (data : Bytes) : Bytes := data.flatMap byteBits

/-- The number of ones, as `runsTest` and `blockFrequencyTest` count them. -/
def countOnes (bits : Bytes) : ℕ := bits.count 1

/-- The sum of `frequencyTest`: one up for a one, one down for anything else. -/
def walk (bits : Bytes) : ℤ := (bits.map fun b => if b = 1 then 1 else -1).sum

/-- The number of runs: one more than the places where a bit changes. -/
def countRuns (bits : Bytes) : ℕ := 1 + (bits.zip bits.tail).countP fun x => x.1 ≠ x.2

variable (m : MathPkg F)

/-- `frequencyTest` -/
def frequencyTest (bits : Bytes) : Except GoError F :=
  let n := bits.length
  if n < 100 then .error (.errorf "frequency: need >= 100 bits, got %d" [.int n])
  else
    let sObs := |(walk bits : F)| / m.sqrt n
    .ok (m.erfc (sObs / m.sqrt 2))

/-- The proportion of ones. -/
def proportion (bits : Bytes) : F := countOnes bits / bits.length

/-- The prerequisite of `runsTest` fails: the ones are too many or too few. -/
def Skewed (bits : Bytes) : Prop :=
  2 / m.sqrt bits.length ≤ |(proportion bits : F) - 1 / 2|

instance (bits : Bytes) : Decidable (Skewed m bits) :=
  inferInstanceAs (Decidable (2 / m.sqrt bits.length ≤ |(proportion bits : F) - 1 / 2|))

/-- `denom` of `runsTest`. -/
def runsDivisor (bits : Bytes) : F :=
  2 * m.sqrt (2 * bits.length) * proportion bits * (1 - proportion bits)

/-- `runsTest` -/
def runsTest (bits : Bytes) : Except GoError F :=
  let n := bits.length
  if n < 100 then .error (.errorf "runs: need >= 100 bits, got %d" [.int n])
  else if Skewed m bits then .ok 0
  else
    let pi : F := proportion bits
    let num := |(countRuns bits : F) - 2 * n * pi * (1 - pi)|
    .ok (m.erfc (num / runsDivisor m bits))

/-- The blocks of `blockBits` bits; an incomplete last one is left out. -/
def blocks (bits : Bytes) (blockBits : ℕ) : List Bytes :=
  (List.range (bits.length / blockBits)).map fun i => (bits.drop (i * blockBits)).take blockBits

/-- `chi2` of `blockFrequencyTest`. -/
def chi2 (bits : Bytes) (blockBits : ℕ) : F :=
  ((blocks bits blockBits).map fun block =>
    let diff : F := countOnes block / blockBits - 1 / 2
    diff * diff).sum * (4 * blockBits)

/-- `blockFrequencyTest` -/
def blockFrequencyTest (bits : Bytes) (blockBits : ℕ) : Except GoError F :=
  let n := bits.length
  if blockBits < 20 then
    .error (.errorf "blockfreq: blockBits must be >= 20, got %d" [.int blockBits])
  else
    let numBlocks := n / blockBits
    if numBlocks < 1 then
      .error (.errorf "blockfreq: need >= %d bits, got %d" [.int blockBits, .int n])
    else .ok (gammaQ m (numBlocks / 2) (chi2 bits blockBits / 2))

/-! ### The tester -/

/-- `classify` -/
def classify (p : F) : Status :=
  if p < 1 / 1000 then .fail
  else if p < 1 / 100 then .warnLow
  else if 999 / 1000 < p then .warnHigh
  else .pass

/-- `TestResult` -/
structure TestResult (F : Type) where
  name : String
  pValue : F
  status : Status

/-- `SelfTester`: the sizes. -/
structure SelfTester where
  sampleSize : UInt64
  blockBits : ℕ

/-- `NewSelfTester` -/
def newSelfTester (sampleBytes : UInt64) : SelfTester :=
  ⟨Gateway.sampleSize sampleBytes, 128⟩

/-- The result of one test; an error is recorded as a warning. -/
def result (name : String) (outcome : Except GoError F) : TestResult F :=
  match outcome with
  | .error _ => ⟨name, 0, .warnLow⟩
  | .ok p => ⟨name, p, classify p⟩

/-- `RunAll`, with a generator `rng`. -/
def SelfTester.runAll (t : SelfTester) (rng : UInt64 → Except GoError Bytes) :
    Except GoError (List (TestResult F)) :=
  match rng t.sampleSize with
  | .error err => .error (.wrap "health: selftest generate: %w" [] err)
  | .ok data =>
    let bits := bytesToBits data
    .ok [result "Frequency" (frequencyTest m bits), result "Runs" (runsTest m bits),
      result "BlockFrequency" (blockFrequencyTest m bits t.blockBits)]

/-! ### No error branch is taken -/

variable {m}

@[simp] theorem length_bytesToBits (data : Bytes) :
    (bytesToBits data).length = 8 * data.length := by
  have hbyte : ∀ b, (byteBits b).length = 8 := fun b => rfl
  rw [bytesToBits, List.length_flatMap]
  simp only [hbyte, List.map_const', List.sum_replicate, smul_eq_mul, Nat.mul_comm]

theorem sampleSize_ge (sampleBytes : UInt64) : 1250 ≤ (Gateway.sampleSize sampleBytes).toNat := by
  unfold Gateway.sampleSize
  split
  · exact le_rfl
  · next h => exact UInt64.le_iff_toNat_le.mp (UInt64.not_lt.mp h)

theorem frequencyTest_ok {bits : Bytes} (h : 100 ≤ bits.length) :
    ∃ p, frequencyTest m bits = .ok p := ⟨_, if_neg (not_lt.mpr h)⟩

theorem runsTest_ok {bits : Bytes} (h : 100 ≤ bits.length) : ∃ p, runsTest m bits = .ok p := by
  unfold runsTest
  simp only [if_neg (not_lt.mpr h)]
  split
  · exact ⟨_, rfl⟩
  · exact ⟨_, rfl⟩

theorem blockFrequencyTest_ok {bits : Bytes} (h : 128 ≤ bits.length) :
    blockFrequencyTest m bits 128
      = .ok (gammaQ m ((bits.length / 128 : ℕ) / 2) (chi2 bits 128 / 2)) := by
  have hblocks : ¬ bits.length / 128 < 1 := by omega
  unfold blockFrequencyTest
  simp only [if_neg (by decide : ¬ 128 < 20), if_neg hblocks]

/-- **`RunAll` takes no error branch**: each of the three tests computes its p-value. -/
theorem runAll_ok (m : MathPkg F) (sampleBytes : UInt64) {rng : UInt64 → Except GoError Bytes}
    (hrng : ∀ n, ∃ data, rng n = .ok data ∧ data.length = n.toNat) :
    ∃ data p q r, rng (newSelfTester sampleBytes).sampleSize = .ok data ∧
      frequencyTest m (bytesToBits data) = .ok p ∧ runsTest m (bytesToBits data) = .ok q ∧
      blockFrequencyTest m (bytesToBits data) 128 = .ok r ∧
      (newSelfTester sampleBytes).runAll m rng
        = .ok [⟨"Frequency", p, classify p⟩, ⟨"Runs", q, classify q⟩,
            ⟨"BlockFrequency", r, classify r⟩] := by
  obtain ⟨data, hdata, hlen⟩ := hrng (newSelfTester sampleBytes).sampleSize
  have hsize : 1250 ≤ (newSelfTester sampleBytes).sampleSize.toNat := sampleSize_ge sampleBytes
  have hbits : 10000 ≤ (bytesToBits data).length := by
    rw [length_bytesToBits]
    omega
  obtain ⟨p, hp⟩ := frequencyTest_ok (m := m) (by omega : 100 ≤ (bytesToBits data).length)
  obtain ⟨q, hq⟩ := runsTest_ok (m := m) (by omega : 100 ≤ (bytesToBits data).length)
  have hr := blockFrequencyTest_ok (m := m) (by omega : 128 ≤ (bytesToBits data).length)
  refine ⟨data, p, q, _, hdata, hp, hq, hr, ?_⟩
  have hblockBits : (newSelfTester sampleBytes).blockBits = 128 := rfl
  rw [SelfTester.runAll, hdata]
  simp only [hp, hq, hblockBits, hr, result]

/-! ### The divisor of the runs test -/

/-- A square root, in exact arithmetic. -/
def MathPkg.SqrtExact (m : MathPkg F) : Prop := ∀ x, 0 ≤ x → 0 ≤ m.sqrt x ∧ m.sqrt x ^ 2 = x

theorem MathPkg.SqrtExact.pos (h : m.SqrtExact) {x : F} (hx : 0 < x) : 0 < m.sqrt x := by
  obtain ⟨hnonneg, hsq⟩ := h x hx.le
  rcases hnonneg.lt_or_eq with hpos | hzero
  · exact hpos
  · rw [← hzero, zero_pow two_ne_zero] at hsq
    exact absurd hsq hx.ne

variable [IsStrictOrderedRing F]

/-- The proportion is not far from one half when the runs test goes on. -/
theorem proportion_between (h : m.SqrtExact) {bits : Bytes} (hn : 100 ≤ bits.length)
    (hgo : ¬ Skewed m bits) : 0 < (proportion bits : F) ∧ (proportion bits : F) < 1 := by
  have hlen : (100 : F) ≤ bits.length := by exact_mod_cast hn
  obtain ⟨hnonneg, hsq⟩ := h bits.length (by linarith)
  -- the root of at least 100 is at least 10
  have hroot : 10 ≤ m.sqrt (bits.length : F) := by
    by_contra hlt
    have hlt' := not_le.mp hlt
    nlinarith
  have hbound : 2 / m.sqrt (bits.length : F) ≤ 1 / 5 := by
    rw [div_le_div_iff₀ (by linarith) (by norm_num)]
    linarith
  have hnear : |(proportion bits : F) - 1 / 2| < 1 / 5 := (not_le.mp hgo).trans_le hbound
  obtain ⟨hlo, hhi⟩ := abs_lt.mp hnear
  constructor
  · linarith
  · linarith

/-- **The ones are neither none nor all** when the runs test goes on. -/
theorem ones_between (h : m.SqrtExact) {bits : Bytes} (hn : 100 ≤ bits.length)
    (hgo : ¬ Skewed m bits) : 0 < countOnes bits ∧ countOnes bits < bits.length := by
  obtain ⟨hpos, hlt⟩ := proportion_between h hn hgo
  have hlen : (0 : F) < bits.length := Nat.cast_pos.mpr (by omega)
  unfold proportion at hpos hlt
  rw [div_lt_one hlen] at hlt
  refine ⟨?_, by exact_mod_cast hlt⟩
  by_contra hnone
  rw [Nat.eq_zero_of_not_pos hnone, Nat.cast_zero, zero_div] at hpos
  exact lt_irrefl _ hpos

/-- **The divisor of the runs test** is not zero. -/
theorem runsDivisor_ne_zero (h : m.SqrtExact) {bits : Bytes} (hn : 100 ≤ bits.length)
    (hgo : ¬ Skewed m bits) : runsDivisor m bits ≠ 0 := by
  obtain ⟨hpos, hlt⟩ := proportion_between h hn hgo
  have hlen : (0 : F) < bits.length := Nat.cast_pos.mpr (by omega)
  have hroot : 0 < m.sqrt (2 * bits.length : F) := h.pos (by linarith)
  unfold runsDivisor
  have hrest : 0 < 1 - (proportion bits : F) := by linarith
  positivity

/-- **The self tests take no error branch and divide by no zero**: `RunAll` returns the three
results of tests that succeeded, and when the prerequisite of the runs test holds, the ones
are neither none nor all and the divisor is not zero. -/
theorem selfTests_safe {F : Type} [Field F] [LinearOrder F] [IsStrictOrderedRing F]
    (m : MathPkg F) (h : m.SqrtExact) :
    (∀ (sampleBytes : UInt64) (rng : UInt64 → Except GoError Bytes),
      (∀ n, ∃ data, rng n = .ok data ∧ data.length = n.toNat) →
      ∃ data p q r, rng (newSelfTester sampleBytes).sampleSize = .ok data ∧
        frequencyTest m (bytesToBits data) = .ok p ∧ runsTest m (bytesToBits data) = .ok q ∧
        blockFrequencyTest m (bytesToBits data) 128 = .ok r ∧
        (newSelfTester sampleBytes).runAll m rng
          = .ok [⟨"Frequency", p, classify p⟩, ⟨"Runs", q, classify q⟩,
              ⟨"BlockFrequency", r, classify r⟩]) ∧
    ∀ bits : Bytes, 100 ≤ bits.length → ¬ Skewed m bits →
      0 < countOnes bits ∧ countOnes bits < bits.length ∧ runsDivisor m bits ≠ 0 := by
  refine ⟨fun sampleBytes rng hrng => runAll_ok m sampleBytes hrng, fun bits hn hgo => ?_⟩
  obtain ⟨hpos, hlt⟩ := ones_between h hn hgo
  exact ⟨hpos, hlt, runsDivisor_ne_zero h hn hgo⟩

/-- The functions of `math` on the real numbers. -/
noncomputable def MathPkg.real : MathPkg ℝ where
  sqrt := Real.sqrt
  erfc x := 2 / Real.sqrt Real.pi * ∫ t in Set.Ioi x, Real.exp (-t ^ 2)
  exp := Real.exp
  log := Real.log
  lgamma x := Real.log |Real.Gamma x|

/-- Fifty ones and fifty zeros. -/
def evenBits : Bytes := List.replicate 50 1 ++ List.replicate 50 0

/-- A sample of zeros, and a hundred bits that are balanced. -/
theorem selfTests_safe_real :
    (∃ results, (newSelfTester 10000).runAll MathPkg.real
        (fun n => .ok (List.replicate n.toNat 0)) = .ok results ∧ results.length = 3) ∧
      ¬ Skewed MathPkg.real evenBits ∧ runsDivisor MathPkg.real evenBits ≠ 0 := by
  have hsqrt : MathPkg.real.SqrtExact := fun x hx => ⟨Real.sqrt_nonneg x, Real.sq_sqrt hx⟩
  obtain ⟨hrun, hdivisor⟩ := selfTests_safe MathPkg.real hsqrt
  obtain ⟨data, p, q, r, -, -, -, -, hall⟩ := hrun 10000 (fun n => .ok (List.replicate n.toNat 0))
    fun n => ⟨_, rfl, List.length_replicate⟩
  have hhalf : (proportion evenBits : ℝ) = 1 / 2 := by
    have hones : countOnes evenBits = 50 := by decide
    have hlen : evenBits.length = 100 := by decide
    rw [proportion, hones, hlen]
    norm_num
  have hgo : ¬ Skewed MathPkg.real evenBits := by
    rw [Skewed, hhalf, sub_self, abs_zero, not_le]
    have hpos := hsqrt.pos (x := (evenBits.length : ℝ)) (by norm_num [evenBits])
    positivity
  exact ⟨⟨_, hall, rfl⟩, hgo, (hdivisor evenBits (by decide) hgo).2.2⟩

end Health
