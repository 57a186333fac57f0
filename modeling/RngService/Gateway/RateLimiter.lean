import Mathlib
import RngService.Go.Base
import RngService.Lib.TokenBucket

/-!
# The rate limiter

`newRateLimiter` and `rateLimiter.allow` of `internal/gateway/middleware.go`: a token bucket
for each tenant, with the `float64` levels taken as exact rationals. A call of `allow` reads
the clock at its decision, and once before when it makes the bucket of its tenant.

The buckets do not interfere: the calls of a tenant are served by one bucket
(`run_filter`), which is a run of the abstract one (`serves_serveTenant`). So the bound of the
bucket is the bound of the limiter (`rate_bounded`). A tenant that keeps to the rate is served
when the capacity, two seconds of tokens, is a whole one (`neverStarves_iff`).
-/

/-- `t.Sub(u)`: the duration in nanoseconds, saturating at the ends of `int64`. -/
def Time.sub (t u : Time) : Int64 := Int64.ofInt (max (-2 ^ 63) (min (2 ^ 63 - 1) (t - u)))

/-- `d.Seconds()`, exactly. -/
def Int64.seconds (d : Int64) : ℚ := d.toInt / 10 ^ 9

/-- An instant in seconds. -/
def Time.seconds (t : Time) : ℚ := t / 10 ^ 9

namespace Gateway

/-! ### The limiter -/

/-- `tokenBucket` -/
structure TokenBucket where
  tokens : ℚ
  lastFill : Time

/-- `rateLimiter`; `rate` is in tokens for each second. -/
structure RateLimiter where
  buckets : GoString → Option TokenBucket
  rate : ℚ
  capacity : ℚ

/-- `newRateLimiter`: a burst is two seconds of requests. -/
def newRateLimiter (rps : ℚ) : RateLimiter := ⟨fun _ => none, rps, rps * 2⟩

/-- The part of `allow` that works on the bucket. -/
def TokenBucket.allow (rate capacity : ℚ) (b : TokenBucket) (now : Time) : Bool × TokenBucket :=
  let elapsed := (now.sub b.lastFill).seconds
  let tokens := min capacity (b.tokens + elapsed * rate)
  if tokens < 1 then (false, ⟨tokens, now⟩) else (true, ⟨tokens - 1, now⟩)

/-- `rateLimiter.allow`. The clock shows `created` when the bucket is made, if it is, and `now`
when the call is decided. -/
def RateLimiter.allow (rl : RateLimiter) (tenantID : GoString) (created now : Time) :
    Bool × RateLimiter :=
  let b := (rl.buckets tenantID).getD ⟨rl.capacity, created⟩
  let (ok, b') := b.allow rl.rate rl.capacity now
  (ok, { rl with buckets := Function.update rl.buckets tenantID (some b') })

/-- A call of `allow`: its tenant, and what the clock shows in it. -/
structure AllowCall where
  tenantID : GoString
  created : Time
  now : Time

/-- A run of calls, with the decisions. -/
def RateLimiter.run (rl : RateLimiter) : List AllowCall → List (AllowCall × Bool) × RateLimiter
  | [] => ([], rl)
  | c :: calls =>
    let (ok, rl') := rl.allow c.tenantID c.created c.now
    let (rest, rl'') := rl'.run calls
    ((c, ok) :: rest, rl'')

/-- The clock does not go back, neither within a call nor from a call to the next. -/
def ClockOrdered (calls : List AllowCall) : Prop :=
  (∀ c ∈ calls, c.created ≤ c.now) ∧ calls.Pairwise fun c c' => c.now ≤ c'.created

/-- The calls of a tenant. -/
def callsOf (tenantID : GoString) (calls : List AllowCall) : List AllowCall :=
  calls.filter fun c => c.tenantID = tenantID

/-- The decisions on the calls of a tenant. -/
def decisionsOf (tenantID : GoString) (decisions : List (AllowCall × Bool)) :
    List (AllowCall × Bool) :=
  decisions.filter fun x => x.1.tenantID = tenantID

/-! ### The buckets do not interfere -/

/-- One bucket that serves the calls of a tenant; `none` is a bucket still to be made. -/
def serveTenant (rate capacity : ℚ) : Option TokenBucket → List AllowCall →
    List (AllowCall × Bool) × Option TokenBucket
  | b, [] => ([], b)
  | b, c :: calls =>
    let (ok, b') := (b.getD ⟨capacity, c.created⟩).allow rate capacity c.now
    let (rest, b'') := serveTenant rate capacity (some b') calls
    ((c, ok) :: rest, b'')

variable {rl : RateLimiter} {calls : List AllowCall} {tenantID : GoString} {c : AllowCall}

/-- A call changes the bucket of its tenant only. -/
theorem allow_buckets {created now : Time} : (rl.allow tenantID created now).2.buckets
    = Function.update rl.buckets tenantID (some (((rl.buckets tenantID).getD
        ⟨rl.capacity, created⟩).allow rl.rate rl.capacity now).2) := by
  rw [RateLimiter.allow]

/-- **The limiter serves each tenant from a bucket of its own.** -/
theorem run_filter (rl : RateLimiter) (calls : List AllowCall) (tenantID : GoString) :
    decisionsOf tenantID (rl.run calls).1
      = (serveTenant rl.rate rl.capacity (rl.buckets tenantID) (callsOf tenantID calls)).1 ∧
    (rl.run calls).2.buckets tenantID
      = (serveTenant rl.rate rl.capacity (rl.buckets tenantID) (callsOf tenantID calls)).2 := by
  induction calls generalizing rl with
  | nil => exact ⟨rfl, rfl⟩
  | cons c calls ih =>
    obtain ⟨hdecisions, hbucket⟩ := ih (rl.allow c.tenantID c.created c.now).2
    by_cases h : c.tenantID = tenantID
    · -- the call of the tenant is served by its bucket
      subst h
      have hown : callsOf c.tenantID (c :: calls) = c :: callsOf c.tenantID calls :=
        List.filter_cons_of_pos (by simp)
      have hhead : decisionsOf c.tenantID (rl.run (c :: calls)).1
          = (c, (rl.allow c.tenantID c.created c.now).1) :: decisionsOf c.tenantID
            ((rl.allow c.tenantID c.created c.now).2.run calls).1 :=
        List.filter_cons_of_pos (by simp)
      rw [allow_buckets, Function.update_self] at hdecisions hbucket
      rw [hown, hhead, hdecisions]
      exact ⟨rfl, hbucket⟩
    · -- the call of another tenant is not
      have hown : callsOf tenantID (c :: calls) = callsOf tenantID calls :=
        List.filter_cons_of_neg (by simpa using h)
      have hhead : decisionsOf tenantID (rl.run (c :: calls)).1
          = decisionsOf tenantID ((rl.allow c.tenantID c.created c.now).2.run calls).1 :=
        List.filter_cons_of_neg (by simpa using h)
      rw [allow_buckets, Function.update_of_ne (Ne.symm h)] at hdecisions hbucket
      rw [hown, hhead]
      exact ⟨hdecisions, hbucket⟩

/-- A run decides on its calls, in their order. -/
theorem run_calls (rl : RateLimiter) (calls : List AllowCall) :
    (rl.run calls).1.map Prod.fst = calls := by
  induction calls generalizing rl with
  | nil => rfl
  | cons c calls ih => exact congrArg (c :: ·) (ih _)

/-- **The calls of other tenants do not change the decisions** on those of a tenant. -/
theorem decisionsOf_own (rl : RateLimiter) (calls : List AllowCall) (tenantID : GoString) :
    decisionsOf tenantID (rl.run calls).1 = (rl.run (callsOf tenantID calls)).1 := by
  -- a run of calls of the tenant has decisions on calls of the tenant only
  have hown : decisionsOf tenantID (rl.run (callsOf tenantID calls)).1
      = (rl.run (callsOf tenantID calls)).1 := by
    refine List.filter_eq_self.mpr fun x hx => ?_
    have hmem := List.mem_map_of_mem (f := Prod.fst) hx
    rw [run_calls] at hmem
    exact (List.mem_filter.mp hmem).2
  have hidem : callsOf tenantID (callsOf tenantID calls) = callsOf tenantID calls := by
    unfold callsOf
    rw [List.filter_filter]
    simp only [Bool.and_self]
  rw [← hown, (run_filter rl _ tenantID).1, (run_filter rl _ tenantID).1, hidem]

/-! ### The clock -/

theorem seconds_le_seconds {t u : ℤ} : Time.seconds u ≤ Time.seconds t ↔ u ≤ t := by
  rw [Time.seconds, Time.seconds, div_le_div_iff_of_pos_right (by norm_num), Int.cast_le]

/-- Below the end of the range, the difference is exact. -/
theorem toInt_sub {t u : ℤ} (h : u ≤ t) : (Time.sub t u).toInt = min (2 ^ 63 - 1) (t - u) := by
  have hrange : max (-2 ^ 63) (min (2 ^ 63 - 1) (t - u)) = min (2 ^ 63 - 1) (t - u) := by omega
  rw [Time.sub, hrange]
  exact Int64.toInt_ofInt_of_le (by omega) (by omega)

theorem seconds_nonneg {t u : ℤ} (h : u ≤ t) : 0 ≤ (Time.sub t u).seconds := by
  rw [Int64.seconds, toInt_sub h]
  have hnonneg : 0 ≤ min (2 ^ 63 - 1) (t - u) := by omega
  exact div_nonneg (by exact_mod_cast hnonneg) (by norm_num)

theorem seconds_le {t u : ℤ} (h : u ≤ t) :
    (Time.sub t u).seconds ≤ Time.seconds t - Time.seconds u := by
  rw [Int64.seconds, toInt_sub h, Time.seconds, Time.seconds, ← sub_div]
  have hle : min (2 ^ 63 - 1) (t - u) ≤ t - u := min_le_right _ _
  exact div_le_div_of_nonneg_right (by exact_mod_cast hle) (by norm_num)

/-- A duration that fits into the range is not cut. -/
theorem le_seconds {t u : ℤ} (h : u ≤ t) {δ : ℚ} (hδ : δ ≤ Time.seconds t - Time.seconds u)
    (hfits : δ ≤ 2) : δ ≤ (Time.sub t u).seconds := by
  rw [Int64.seconds, toInt_sub h]
  rw [Time.seconds, Time.seconds, ← sub_div] at hδ
  rcases le_total (2 ^ 63 - 1) (t - u) with hcut | hcut
  · rw [min_eq_left hcut]
    refine hfits.trans ?_
    norm_num
  · rw [min_eq_right hcut]
    exact_mod_cast hδ

/-! ### The bound -/

/-- The abstract bucket, with the time in seconds. -/
def TokenBucket.abs (b : TokenBucket) : Bucket ℚ := ⟨b.tokens, b.lastFill.seconds⟩

/-- A decision, with its time in seconds. -/
def stamp (x : AllowCall × Bool) : ℚ × Bool := (x.1.now.seconds, x.2)

/-- The bucket of the source is the abstract one. -/
theorem allow_abs (rate capacity : ℚ) (b : TokenBucket) (now : Time) :
    (b.abs.call rate capacity now.seconds (now.sub b.lastFill).seconds)
      = ((b.allow rate capacity now).1, (b.allow rate capacity now).2.abs) := by
  have hcall : b.abs.call rate capacity now.seconds (now.sub b.lastFill).seconds
      = if min capacity (b.tokens + (now.sub b.lastFill).seconds * rate) < 1
        then (false, ⟨min capacity (b.tokens + (now.sub b.lastFill).seconds * rate), now.seconds⟩)
        else (true,
          ⟨min capacity (b.tokens + (now.sub b.lastFill).seconds * rate) - 1, now.seconds⟩) := rfl
  rw [hcall, TokenBucket.allow]
  split
  · rfl
  · rfl

@[simp] theorem allow_lastFill {rate capacity : ℚ} {b : TokenBucket} {now : Time} :
    (b.allow rate capacity now).2.lastFill = now := by
  unfold TokenBucket.allow
  simp only
  split <;> rfl

theorem ClockOrdered.tail (h : ClockOrdered (c :: calls)) : ClockOrdered calls :=
  ⟨fun c' hc => h.1 c' (List.mem_cons_of_mem c hc), h.2.of_cons⟩

/-- **The calls of a tenant are a run of the abstract bucket.** -/
theorem serves_serveTenant (rate capacity : ℚ) {b : TokenBucket} (hordered : ClockOrdered calls)
    (hb : ∀ c ∈ calls, b.lastFill ≤ c.now) :
    ∃ b', (serveTenant rate capacity (some b) calls).2 = some b' ∧
      Bucket.Serves rate capacity b.abs
        ((serveTenant rate capacity (some b) calls).1.map stamp) b'.abs := by
  induction calls generalizing b with
  | nil => exact ⟨b, rfl, Bucket.Serves.nil b.abs⟩
  | cons c calls ih =>
    have hnow : b.lastFill ≤ c.now := hb c List.mem_cons_self
    have hafter : ∀ c' ∈ calls, (b.allow rate capacity c.now).2.lastFill ≤ c'.now := by
      intro c' hc'
      rw [allow_lastFill]
      exact (List.rel_of_pairwise_cons hordered.2 hc').trans
        (hordered.1 c' (List.mem_cons_of_mem c hc'))
    obtain ⟨b', hfinal, hserves⟩ := ih hordered.tail hafter
    refine ⟨b', hfinal, ?_⟩
    have hcall := allow_abs rate capacity b c.now
    have hrest : Bucket.Serves rate capacity (b.abs.call rate capacity c.now.seconds
        (c.now.sub b.lastFill).seconds).2 ((serveTenant rate capacity
          (some (b.allow rate capacity c.now).2) calls).1.map stamp) b'.abs := by
      rw [hcall]
      exact hserves
    have hle : (c.now.sub b.lastFill).seconds ≤ c.now.seconds - b.abs.lastFill :=
      seconds_le hnow
    have hserves' := hrest.cons (seconds_nonneg hnow) hle
    rw [hcall] at hserves'
    exact hserves'

/-- The number of calls of the tenant granted from `s` seconds to `s + T` seconds. -/
def grantedIn (tenantID : GoString) (s T : ℚ) (decisions : List (AllowCall × Bool)) : ℕ :=
  (decisions.filter fun x => x.1.tenantID = tenantID ∧ x.2 = true ∧
    s ≤ x.1.now.seconds ∧ x.1.now.seconds ≤ s + T).length

theorem grantedIn_eq {s T : ℚ} (decisions : List (AllowCall × Bool)) :
    grantedIn tenantID s T decisions
      = Bucket.grantedIn s (s + T) ((decisionsOf tenantID decisions).map stamp) := by
  rw [Bucket.grantedIn, List.countP_map, decisionsOf, List.countP_filter, grantedIn,
    ← List.countP_eq_length_filter]
  refine List.countP_congr fun x _ => ?_
  simp only [Function.comp, decide_eq_true_iff, Bool.and_eq_true]
  exact and_comm

theorem ClockOrdered.callsOf (h : ClockOrdered calls) : ClockOrdered (callsOf tenantID calls) :=
  ⟨fun c hc => h.1 c (List.mem_of_mem_filter hc), h.2.filter _⟩

/-- A bucket made for the first call of a tenant serves all of them. -/
theorem serves_new (rate capacity : ℚ) (hordered : ClockOrdered calls) (hne : calls ≠ []) :
    ∃ b b', b.tokens = capacity ∧ (serveTenant rate capacity none calls).2 = some b' ∧
      Bucket.Serves rate capacity b ((serveTenant rate capacity none calls).1.map stamp)
        b'.abs := by
  obtain ⟨c, rest, rfl⟩ := List.exists_cons_of_ne_nil hne
  obtain ⟨b', hfinal, hserves⟩ := serves_serveTenant rate capacity
    (b := ⟨capacity, c.created⟩) hordered fun c' hc' => by
      rcases List.mem_cons.mp hc' with rfl | hc'
      · exact hordered.1 c' List.mem_cons_self
      · have hcreated := hordered.1 c List.mem_cons_self
        have hnext := List.rel_of_pairwise_cons hordered.2 hc'
        exact hcreated.trans (hnext.trans (hordered.1 c' (List.mem_cons_of_mem c hc')))
  exact ⟨_, b', rfl, hfinal, hserves⟩

/-- The bucket of a tenant stays in range. -/
theorem level_run {r : ℚ} (hr : 0 ≤ r) (hordered : ClockOrdered calls) {b : TokenBucket}
    (hb : ((newRateLimiter r).run calls).2.buckets tenantID = some b) :
    Bucket.Level (r * 2) b.abs := by
  rw [(run_filter _ calls tenantID).2] at hb
  by_cases hne : callsOf tenantID calls = []
  · rw [hne] at hb
    cases hb
  · obtain ⟨b₀, b', hfull, hfinal, hserves⟩ := serves_new r (r * 2) hordered.callsOf hne
    obtain rfl := Option.some.inj (hfinal.symm.trans hb)
    exact hserves.level hr ⟨by rw [hfull]; linarith, hfull.le⟩

/-- **The rate limiter keeps its bound**: in every window of length `T` at most
`2 * r + r * T` calls of a tenant are granted, its bucket holds from 0 to `2 * r` tokens, and
the calls of other tenants do not change its decisions. -/
theorem rate_bounded (r : ℚ) (hr : 0 ≤ r) (calls : List AllowCall) (hordered : ClockOrdered calls)
    (tenantID : GoString) :
    (∀ s T : ℚ, 0 ≤ T →
      (grantedIn tenantID s T ((newRateLimiter r).run calls).1 : ℚ) ≤ 2 * r + r * T) ∧
    (∀ b, ((newRateLimiter r).run calls).2.buckets tenantID = some b →
      0 ≤ b.tokens ∧ b.tokens ≤ 2 * r) ∧
    decisionsOf tenantID ((newRateLimiter r).run calls).1
      = ((newRateLimiter r).run (callsOf tenantID calls)).1 := by
  refine ⟨fun s T hT => ?_, fun b hb => ?_, decisionsOf_own _ _ _⟩
  · rw [grantedIn_eq, (run_filter _ calls tenantID).1]
    by_cases hne : callsOf tenantID calls = []
    · -- nothing is granted without a call
      rw [hne]
      have hnonneg := mul_nonneg hr hT
      show ((0 : ℕ) : ℚ) ≤ _
      rw [Nat.cast_zero]
      linarith
    · obtain ⟨b, b', hfull, -, hserves⟩ := serves_new r (r * 2) hordered.callsOf hne
      have hlevel : Bucket.Level (r * 2) b := ⟨by rw [hfull]; linarith, hfull.le⟩
      have hle := hserves.granted_le hr hlevel (s := s) (u := s + T) (by linarith)
      refine hle.trans_eq ?_
      ring
  · obtain ⟨hnonneg, hle⟩ := level_run hr hordered hb
    exact ⟨hnonneg, hle.trans_eq (mul_comm r 2)⟩

/-- Three calls at once, the third one too many. -/
def burst : List AllowCall := List.replicate 3 ⟨[97], 0, 0⟩

theorem burst_ordered : ClockOrdered burst := ⟨by decide, by decide⟩

theorem rate_bounded_burst :
    (grantedIn [97] 0 1 ((newRateLimiter 1).run burst).1 : ℚ) ≤ 2 * 1 + 1 * 1 :=
  (rate_bounded 1 (by norm_num) burst burst_ordered [97]).1 0 1 (by norm_num)

example : ((newRateLimiter 1).run burst).1.map Prod.snd = [true, true, false] := by decide +kernel

/-! ### Compliant tenants -/

/-- The time of the last call of a tenant. -/
def lastCall (tenantID : GoString) (calls : List AllowCall) : Option Time :=
  (callsOf tenantID calls).getLast?.map AllowCall.now

/-- **A compliant tenant is never starved**: its first call, and any call at least `1 / r`
seconds after its last one, is granted. -/
def NeverStarves (r : ℚ) : Prop :=
  ∀ (calls : List AllowCall) (c : AllowCall), ClockOrdered (calls ++ [c]) →
    (∀ t, lastCall c.tenantID calls = some t → 1 / r ≤ c.now.seconds - t.seconds) →
    (((newRateLimiter r).run calls).2.allow c.tenantID c.created c.now).1 = true

/-- The bucket was filled last at the last call. -/
theorem serveTenant_lastFill (rate capacity : ℚ) (b : Option TokenBucket) (calls : List AllowCall) :
    (serveTenant rate capacity b calls).2.map TokenBucket.lastFill
      = (calls.getLast?.map AllowCall.now).or (b.map TokenBucket.lastFill) := by
  induction calls generalizing b with
  | nil => rfl
  | cons c calls ih =>
    rw [serveTenant]
    simp only [ih, List.getLast?_cons, Option.map_some, allow_lastFill, Option.some_or]
    cases calls.getLast? with
    | none => rfl
    | some c' => rfl

/-- The bucket of a tenant was filled last at its last call. -/
theorem lastCall_of_bucket {b : TokenBucket} (hb : (rl.run calls).2.buckets tenantID = some b)
    (hnew : rl.buckets tenantID = none) : lastCall tenantID calls = some b.lastFill := by
  have hfill := serveTenant_lastFill rl.rate rl.capacity none (callsOf tenantID calls)
  have hbucket := (run_filter rl calls tenantID).2
  rw [hb, hnew] at hbucket
  rw [← hbucket, Option.map_none, Option.or_none] at hfill
  exact hfill.symm

/-- The limiter keeps its parameters. -/
theorem run_params (rl : RateLimiter) (calls : List AllowCall) :
    (rl.run calls).2.rate = rl.rate ∧ (rl.run calls).2.capacity = rl.capacity := by
  induction calls generalizing rl with
  | nil => exact ⟨rfl, rfl⟩
  | cons c calls ih => exact ih _

/-- A call after a run is decided on the bucket that its tenant has then. -/
theorem run_allow (rl : RateLimiter) (calls : List AllowCall) (c : AllowCall) :
    ((rl.run calls).2.allow c.tenantID c.created c.now).1
      = ((((rl.run calls).2.buckets c.tenantID).getD ⟨rl.capacity, c.created⟩).allow rl.rate
          rl.capacity c.now).1 := by
  obtain ⟨hrate, hcapacity⟩ := run_params rl calls
  rw [RateLimiter.allow, hrate, hcapacity]

/-- A call is granted when a whole token is there. -/
theorem allow_granted {rate capacity : ℚ} {b : TokenBucket} {now : Time} :
    (b.allow rate capacity now).1 = true ↔
      1 ≤ min capacity (b.tokens + (now.sub b.lastFill).seconds * rate) := by
  have hcall := congrArg Prod.fst (allow_abs rate capacity b now)
  rw [← hcall, Bucket.call_granted]
  rfl

/-- The first call of a limiter is granted only from a whole token. -/
theorem allow_first (r : ℚ) (tenantID : GoString) :
    ((newRateLimiter r).allow tenantID 0 0).1 = true ↔ 1 ≤ r * 2 := by
  have hcall : ((newRateLimiter r).allow tenantID 0 0).1
      = (TokenBucket.allow r (r * 2) ⟨r * 2, 0⟩ 0).1 := rfl
  have helapsed : (Time.sub 0 0).seconds = 0 := by
    rw [Int64.seconds, toInt_sub le_rfl]
    norm_num
  rw [hcall, allow_granted, helapsed, zero_mul, add_zero, min_self]

/-- **No compliant tenant is starved exactly when the burst is a whole token**: at least one
request in two seconds. -/
theorem neverStarves_iff (r : ℚ) (hr : 0 < r) : NeverStarves r ↔ 1 / 2 ≤ r := by
  constructor
  · intro h
    have hfirst := h [] ⟨[], 0, 0⟩ ⟨by simp, by simp⟩ (fun t ht => by cases ht)
    have hwhole := (allow_first r []).mp hfirst
    linarith
  · intro hhalf calls c hordered hlast
    have hcap : 1 ≤ r * 2 := by linarith
    have hcalls : ClockOrdered calls :=
      ⟨fun c' hc' => hordered.1 c' (List.mem_append_left _ hc'),
        (List.pairwise_append.mp hordered.2).1⟩
    have hcreated : c.created ≤ c.now := hordered.1 c (by simp)
    rw [run_allow]
    cases hbucket : ((newRateLimiter r).run calls).2.buckets c.tenantID with
    | none =>
      -- a new bucket is full
      refine allow_granted.mpr (le_min hcap (hcap.trans (le_add_of_nonneg_right ?_)))
      exact mul_nonneg (seconds_nonneg hcreated) hr.le
    | some b =>
      -- one token is earned since the last call
      have hgap := hlast b.lastFill (lastCall_of_bucket hbucket rfl)
      have hle : b.lastFill ≤ c.now :=
        seconds_le_seconds.mp (sub_nonneg.mp ((one_div_nonneg.mpr hr.le).trans hgap))
      have helapsed : 1 / r ≤ (c.now.sub b.lastFill).seconds :=
        le_seconds hle hgap (by rw [div_le_iff₀ hr]; linarith)
      have hcalled : (b.abs.call r (r * 2) c.now.seconds (c.now.sub b.lastFill).seconds).1 = true :=
        Bucket.granted_of_earned hcap (level_run hr.le hcalls hbucket).nonneg
          ((div_le_iff₀ hr).mp helapsed)
      rw [allow_abs] at hcalled
      exact hcalled

/-- Ten requests in a second. -/
theorem neverStarves_ten : NeverStarves 10 :=
  (neverStarves_iff 10 (by norm_num)).mpr (by norm_num)

/-- **Two requests in five seconds**: the burst is less than a token, and the first call is
rejected. -/
theorem slow_rate_starves :
    ((newRateLimiter (2 / 5)).allow [97] 0 0).1 = false ∧ ¬ NeverStarves (2 / 5) := by
  have hfirst : ((newRateLimiter (2 / 5)).allow [97] 0 0).1 = false := by
    rw [← Bool.not_eq_true, allow_first]
    norm_num
  refine ⟨hfirst, fun h => ?_⟩
  have hgranted := h [] ⟨[97], 0, 0⟩ ⟨by simp, by simp⟩ (fun t ht => by cases ht)
  exact absurd (hgranted.symm.trans hfirst) (by decide)

end Gateway
