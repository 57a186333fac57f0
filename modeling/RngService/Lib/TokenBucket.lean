import Mathlib

/-!
# Token buckets

A bucket holds at most `capacity` tokens and gains `rate` tokens for each unit of time. A
call first fills it for the time that has elapsed, and is granted when there is a whole
token, which it takes. Levels and times are in an ordered field.

The elapsed time is what the bucket believes: `Serves` only asks that it is not negative and
not more than the time that has really passed, so a clock that saturates is covered.

The calls granted in a window of length `T` are at most `capacity + rate * T`
(`Serves.granted_le`). A call is granted for certain when the capacity is a whole token and
the rate gives one in the elapsed time (`granted_of_earned`).
-/

/-- A bucket: its tokens, and the time of the last call. -/
structure Bucket (K : Type) where
  tokens : K
  lastFill : K

namespace Bucket

variable {K : Type}

/-- The number of calls granted from `s` to `u`. -/
def grantedIn [LinearOrder K] (s u : K) (l : List (K × Bool)) : ℕ :=
  l.countP fun x => x.2 && (decide (s ≤ x.1) && decide (x.1 ≤ u))

theorem grantedIn_cons [LinearOrder K] {l : List (K × Bool)} {s u now : K} {ok : Bool} :
    grantedIn s u ((now, ok) :: l)
      = grantedIn s u l + if ok = true ∧ s ≤ now ∧ now ≤ u then 1 else 0 := by
  unfold grantedIn
  rw [List.countP_cons]
  simp only [Bool.and_eq_true, decide_eq_true_eq]

variable [Field K] [LinearOrder K]

section Calls

variable (rate capacity : K)

/-- The tokens after a fill for the elapsed time. -/
def refill (b : Bucket K) (elapsed : K) : K := min capacity (b.tokens + elapsed * rate)

/-- A call at the time `now`: whether it is granted, and the bucket after it. -/
def call (b : Bucket K) (now elapsed : K) : Bool × Bucket K :=
  if b.refill rate capacity elapsed < 1 then (false, ⟨b.refill rate capacity elapsed, now⟩)
  else (true, ⟨b.refill rate capacity elapsed - 1, now⟩)

/-- **A run of calls** of one bucket, with the times and the decisions. -/
inductive Serves : Bucket K → List (K × Bool) → Bucket K → Prop
  | nil (b : Bucket K) : Serves b [] b
  | cons {b b' : Bucket K} {l : List (K × Bool)} {now elapsed : K} (nonneg : 0 ≤ elapsed)
      (le : elapsed ≤ now - b.lastFill) (rest : Serves (b.call rate capacity now elapsed).2 l b') :
      Serves b ((now, (b.call rate capacity now elapsed).1) :: l) b'

/-- The level of a bucket is in range. -/
structure Level (b : Bucket K) : Prop where
  nonneg : 0 ≤ b.tokens
  le : b.tokens ≤ capacity

end Calls

variable {rate capacity : K} {b b' : Bucket K} {l : List (K × Bool)} {now elapsed s u : K}

/-! ### One call -/

@[simp] theorem call_lastFill : (b.call rate capacity now elapsed).2.lastFill = now := by
  unfold call
  split <;> rfl

/-- **A call takes the token it is granted**, and nothing otherwise. -/
theorem call_tokens : (b.call rate capacity now elapsed).2.tokens
    = b.refill rate capacity elapsed - (if (b.call rate capacity now elapsed).1 then 1 else 0) := by
  unfold call
  split
  · simp
  · simp

theorem call_granted :
    (b.call rate capacity now elapsed).1 = true ↔ 1 ≤ b.refill rate capacity elapsed := by
  unfold call
  split
  · next h => simpa using h
  · next h => simpa using h

theorem refill_le_capacity : b.refill rate capacity elapsed ≤ capacity := min_le_left _ _

theorem refill_le_add : b.refill rate capacity elapsed ≤ b.tokens + elapsed * rate :=
  min_le_right _ _

variable [IsStrictOrderedRing K]

/-- **A call is granted** when a whole token fits and was earned since the last one. -/
theorem granted_of_earned (hcap : 1 ≤ capacity) (hb : 0 ≤ b.tokens) (h : 1 ≤ elapsed * rate) :
    (b.call rate capacity now elapsed).1 = true := by
  rw [call_granted, refill, le_min_iff]
  exact ⟨hcap, by linarith⟩

/-- The level stays in range. -/
theorem Level.call (hb : Level capacity b) (hrate : 0 ≤ rate) (helapsed : 0 ≤ elapsed) :
    Level capacity (b.call rate capacity now elapsed).2 := by
  have hfill : 0 ≤ b.refill rate capacity elapsed :=
    le_min (hb.nonneg.trans hb.le) (add_nonneg hb.nonneg (mul_nonneg helapsed hrate))
  constructor
  · rw [call_tokens]
    split
    · next hok => exact sub_nonneg.mpr (call_granted.mp hok)
    · simpa using hfill
  · rw [call_tokens]
    have htaken : (0 : K) ≤ if (b.call rate capacity now elapsed).1 then 1 else 0 := by
      split
      · exact zero_le_one
      · exact le_rfl
    have hfull : b.refill rate capacity elapsed ≤ capacity := refill_le_capacity
    linarith

/-! ### Runs -/

/-- **The level stays in range** in every run. -/
theorem Serves.level (h : Serves rate capacity b l b') (hrate : 0 ≤ rate)
    (hb : Level capacity b) : Level capacity b' := by
  induction h with
  | nil b => exact hb
  | cons nonneg _ _ ih => exact ih (hb.call hrate nonneg)

/-- After the window nothing is granted in it. -/
theorem Serves.granted_after (h : Serves rate capacity b l b') (hb : u < b.lastFill) :
    grantedIn s u l = 0 := by
  induction h with
  | nil b => rfl
  | @cons b b' l now elapsed nonneg le rest ih =>
    have hnow : u < now := by linarith
    rw [grantedIn_cons, if_neg fun h => absurd h.2.2 (not_le.mpr hnow)]
    exact ih (by rwa [call_lastFill])

/-- Nothing is granted in a window from a call after it on. -/
theorem Serves.granted_beyond {ok : Bool} (h : Serves rate capacity b ((now, ok) :: l) b')
    (hnow : u < now) : grantedIn s u ((now, ok) :: l) = 0 := by
  cases h with
  | cons nonneg le rest =>
    rw [grantedIn_cons, if_neg fun h => absurd h.2.2 (not_le.mpr hnow)]
    exact rest.granted_after (by rwa [call_lastFill])

/-- The token of a granted call is paid out of the level after the fill. -/
theorem grantedIn_cons_le
    (h : (grantedIn s u l : K)
      ≤ (b.call rate capacity now elapsed).2.tokens + rate * (u - now)) :
    (grantedIn s u ((now, (b.call rate capacity now elapsed).1) :: l) : K)
      ≤ b.refill rate capacity elapsed + rate * (u - now) := by
  rw [call_tokens] at h
  rw [grantedIn_cons, Nat.cast_add]
  split
  · next hcounted =>
    rw [if_pos hcounted.1] at h
    rw [Nat.cast_one]
    linarith
  · rw [Nat.cast_zero]
    split at h
    · linarith
    · linarith

/-- **Inside the window**, the calls are paid by the tokens and what is still to be gained. -/
theorem Serves.granted_inside (h : Serves rate capacity b l b') (hrate : 0 ≤ rate)
    (hb : Level capacity b) (hs : s ≤ b.lastFill) (hu : b.lastFill ≤ u) :
    (grantedIn s u l : K) ≤ b.tokens + rate * (u - b.lastFill) := by
  induction h with
  | nil b =>
    have hgain := mul_nonneg hrate (sub_nonneg.mpr hu)
    have hnone : grantedIn s u ([] : List (K × Bool)) = 0 := rfl
    rw [hnone, Nat.cast_zero]
    exact add_nonneg hb.nonneg hgain
  | @cons b b' l now elapsed nonneg le rest ih =>
    have hlast : b.lastFill ≤ now := by linarith
    rcases le_or_gt now u with hnow | hnow
    · -- the fill is at most what the rate gives since the last call
      have hrest := ih (hb.call hrate nonneg) (by rw [call_lastFill]; linarith)
        (by rw [call_lastFill]; exact hnow)
      rw [call_lastFill] at hrest
      refine (grantedIn_cons_le hrest).trans ?_
      have hfill : b.refill rate capacity elapsed ≤ b.tokens + elapsed * rate := refill_le_add
      have hearned : elapsed * rate ≤ (now - b.lastFill) * rate :=
        mul_le_mul_of_nonneg_right le hrate
      linarith
    · -- the call is after the window
      have hnone := (Serves.cons nonneg le rest).granted_beyond (s := s) hnow
      rw [hnone, Nat.cast_zero]
      exact add_nonneg hb.nonneg (mul_nonneg hrate (sub_nonneg.mpr hu))

/-- **At most `capacity + rate * T` calls are granted** in a window of length `T`. -/
theorem Serves.granted_le (h : Serves rate capacity b l b') (hrate : 0 ≤ rate)
    (hb : Level capacity b) (hsu : s ≤ u) :
    (grantedIn s u l : K) ≤ capacity + rate * (u - s) := by
  have hcap := hb.nonneg.trans hb.le
  have hgain := mul_nonneg hrate (sub_nonneg.mpr hsu)
  induction h with
  | nil b =>
    have hnone : grantedIn s u ([] : List (K × Bool)) = 0 := rfl
    rw [hnone, Nat.cast_zero]
    exact add_nonneg hcap hgain
  | @cons b b' l now elapsed nonneg le rest ih =>
    have hb' : Level capacity (b.call rate capacity now elapsed).2 := hb.call hrate nonneg
    rcases lt_or_ge now s with hbefore | hs
    · -- a call before the window does not count
      rw [grantedIn_cons, if_neg fun h => absurd h.2.1 (not_le.mpr hbefore), Nat.add_zero]
      exact ih hb'
    · rcases le_or_gt now u with hnow | hnow
      · -- the first call of the window finds a bucket filled up to the capacity
        have hrest := rest.granted_inside hrate hb' (s := s) (u := u)
          (by rwa [call_lastFill]) (by rwa [call_lastFill])
        rw [call_lastFill] at hrest
        refine (grantedIn_cons_le hrest).trans ?_
        have hfill : b.refill rate capacity elapsed ≤ capacity := refill_le_capacity
        have hlength : rate * (u - now) ≤ rate * (u - s) :=
          mul_le_mul_of_nonneg_left (by linarith) hrate
        linarith
      · have hnone := (Serves.cons nonneg le rest).granted_beyond (s := s) hnow
        rw [hnone, Nat.cast_zero]
        exact add_nonneg hcap hgain

end Bucket
