import Mathlib
import RngService.Gateway.Trail
import RngService.Scaling.Uniform

/-!
# The values of a generation

`generate` computes the number of values as `uint64(max-min) + 1` and each value as
`min + int64(n)`, both in 64-bit arithmetic that wraps. Whenever it returns a value,
the range has come out right: the span is the number of integers from `min` to `max`,
the values are those that the accepted ones of the words give that the run has drawn, and
each integer of the range is returned on equally many words (`values_exact`). The full range
of an `int64` has the span 0, and no value is returned.

The statements hold for every meaning of the operations, so whatever else runs at the
same time. The loop of `generate` is also run on given words alone (`replay`), against which
words are counted.
-/

namespace Gateway

open Audit Prog Scaling

variable {E S Q : Type} {sem : Sem Op Ret E S} {srv : Server}

/-! ### Values from words -/

/-- The values of a generation, from the words drawn for it. -/
def valuesOf (min max : Int64) (n : ℕ) (ws : List UInt64) : Option (List Int64) :=
  (outcomes (span min max) n ws).map (List.map fun u => min + u.toInt64)

/-- **The loop of `generate`** returns the values of its words. -/
theorem wp_drawValues_words {M : Prog.Model Op Ret (List UInt64)} (hM : DrawsWords M rng)
    (min max : Int64) (n : ℕ) (q : List UInt64) :
    WP M (drawValues min (span min max) n).run (fun r q' => ∀ values, r = .ok values →
      (values ≠ [] → span min max ≠ 0) ∧
        ∃ ws, q' = q ++ ws ∧ valuesOf min max n ws = some values) q := by
  induction n generalizing q with
  | zero =>
    refine WP.pureE fun values hv => ?_
    obtain rfl := Except.ok.inj hv
    refine ⟨fun hne => absurd rfl hne, [], (List.append_nil q).symm, ?_⟩
    rw [valuesOf, outcomes]
    split <;> rfl
  | succ n ih =>
    refine WP.bindE (WP.mapErrorE ((wp_randRange_words hM _ q).mono fun r q₁ hr => ?_))
    cases r with
    | error err => exact fun values hv => by cases hv
    | ok u =>
      obtain ⟨hspan, ws₁, rfl, h₁⟩ := hr u rfl
      refine WP.bindE ((ih _).mono fun r q₂ hrest => ?_)
      cases r with
      | error err => exact fun values hv => by cases hv
      | ok rest =>
        obtain ⟨-, ws₂, rfl, h₂⟩ := hrest rest rfl
        obtain ⟨us, hus, rfl⟩ := Option.map_eq_some_iff.mp h₂
        refine WP.pureE fun values hv =>
          ⟨fun _ => hspan, ws₁ ++ ws₂, List.append_assoc _ _ _, ?_⟩
        obtain rfl := Except.ok.inj hv
        rw [valuesOf, outcomes_succ.mpr ⟨ws₁, ws₂, u, us, rfl, rfl, h₁, hus⟩]
        rfl

/-- The generator answered from the inputs, and every other operation blocked. -/
def replay : Sem Op Ret UInt64 Unit
  | .generate _, w, _ => some (.ok (Bytes.putUint64 w), ())
  | _, _, _ => none

theorem replays_replay : Replays replay rng := fun w => ⟨.ok (Bytes.putUint64 w), rfl, rfl⟩

/-- The runs of the loop on given words. -/
theorem run_drawValues_replay {min : Int64} {span : UInt64} (h : 1 ≤ span) {n : ℕ}
    {ws : List UInt64} {values : List Int64} :
    Prog.run replay ws (drawValues min span n).run () = some (.ok values, ()) ↔
      ∃ us, outcomes span n ws = some us ∧ values = us.map fun u => min + u.toInt64 := by
  induction n generalizing ws values with
  | zero =>
    have hnil : ∀ us, outcomes span 0 ws = some us ↔ ws = [] ∧ us = [] := by
      intro us
      unfold outcomes
      split
      · split <;> simp_all [eq_comm]
      · exact Rejection.decode_nil
    simp only [hnil]
    constructor
    · intro hrun
      obtain ⟨rfl, heq⟩ := Prog.run_ret.mp hrun
      obtain rfl := Except.ok.inj (Prod.mk.inj heq).1
      exact ⟨[], ⟨rfl, rfl⟩, rfl⟩
    · rintro ⟨us, ⟨rfl, rfl⟩, rfl⟩
      rfl
  | succ n ih =>
    rw [drawValues, Prog.run_bindE_ok]
    constructor
    · rintro ⟨ws₁, ws', u, s₁, rfl, h₁, hrest⟩
      rw [Prog.run_mapError_ok] at h₁
      obtain ⟨ws₂, ws₃, rest, s₂, rfl, h₂, h₃⟩ := Prog.run_bindE_ok.mp hrest
      obtain ⟨rfl, heq⟩ := Prog.run_ret.mp h₃
      obtain rfl := Except.ok.inj (Prod.mk.inj heq).1
      obtain ⟨us, hus, rfl⟩ := ih.mp h₂
      rw [List.append_nil]
      exact ⟨u :: us, outcomes_succ.mpr ⟨ws₁, ws₂, u, us, rfl, rfl,
        (run_randRange_outcomes replays_replay h).mp h₁, hus⟩, rfl⟩
    · rintro ⟨us, hus, rfl⟩
      obtain ⟨ws₁, ws₂, u, us', rfl, rfl, h₁, h₂⟩ := outcomes_succ.mp hus
      refine ⟨ws₁, ws₂, u, (), rfl, Prog.run_mapError_ok.mpr
        ((run_randRange_outcomes replays_replay h).mpr h₁), ?_⟩
      exact Prog.run_bindE_ok.mpr ⟨ws₂, [], _, (), (List.append_nil ws₂).symm,
        ih.mpr ⟨us', h₂, rfl⟩, rfl⟩

/-- A single value on a single word. -/
theorem returnsOn_drawValues {min v : Int64} {span w : UInt64} :
    ReturnsOn replay (drawValues min span 1) [v] w ↔
      ∃ n, ReturnsOn replay (randRange rng span) n w ∧ (min + n.toInt64).toInt = v.toInt := by
  have hcode : drawValues min span 1
      = Prog.mapError (.wrap "generate value: %w" []) (randRange rng span)
        >>= fun n => pure [min + n.toInt64] := rfl
  have hmap : ∀ n, ReturnsOn replay
      (Prog.mapError (.wrap "generate value: %w" []) (randRange rng span)) n w ↔
        ReturnsOn replay (randRange rng span) n w := by
    intro n
    simp only [ReturnsOn, Prog.run_mapError_ok]
  simp only [hcode, returnsOn_map, hmap, List.cons.injEq, and_true, Int64.toInt_inj]

/-! ### The words of a generation -/

/-- The words in a call of the generator. -/
def wordsIn : (Σ o, Ret o) → List UInt64
  | ⟨.generate _, r⟩ => wordsOf r
  | _ => []

/-- The operation does not draw. -/
def Drawless : Op → Prop
  | .generate _ => False
  | _ => True

theorem wp_drawless {α : Type} {p : Program α} (hp : Calls Drawless p) (q : List UInt64) :
    WP (Model.recording wordsIn) p (fun _ q' => q' = q) q := by
  refine WP.of_calls (I := (· = q)) ?_ hp rfl
  rintro o ho q₁ rfl
  cases o with
  | generate n => exact ho.elim
  | _ => exact ⟨trivial, fun r q' hstep => hstep.trans (List.append_nil q₁)⟩

/-- **The values of a generation** are those of the words it has drawn. -/
theorem wp_generate_recorded (tenantID gameID roundID : GoString) (count : ℤ) (min max : Int64) :
    WP (Model.recording wordsIn) (generate srv tenantID gameID roundID count min max).run
      (fun r ws => ∀ resp, r = .ok resp → (resp.values ≠ [] → span min max ≠ 0) ∧
        valuesOf min max count.toNat ws = some resp.values) [] := by
  have hdraws : DrawsWords (Model.recording wordsIn) rng :=
    fun _ => ⟨trivial, fun _ _ hstep => hstep⟩
  have hreseed : Calls Drawless
      (Prog.mapError (GoError.wrap "reseed: %w" []) (reseedIfNeeded srv tenantID)).run := by
    refine Calls.mapErrorE ((reseeding_reseedIfNeeded tenantID).mono fun o ho => ?_)
    cases o with
    | generate n => exact ho.elim
    | _ => trivial
  refine WP.bindE_ok ((wp_drawless hreseed []).mono fun r q₁ hq₁ _ _ => ?_)
  subst hq₁
  refine WP.bindE_ok ((wp_drawValues_words hdraws min max count.toNat []).mono
    fun r q₂ hdrawn values hvalues => ?_)
  obtain ⟨hspan, ws, rfl, hws⟩ := hdrawn values hvalues
  -- what follows the draws leaves the words alone, and returns the values
  refine WP.bindE_ok ((wp_drawless (p := Call.newRequestID.run) (Calls.op trivial) _).mono
    fun r q₁ hq₁ reqID _ => ?_)
  subst hq₁
  refine WP.bindE_ok (WP.liftE ((wp_drawless (p := Call.now) (Calls.op trivial) _).mono
    fun now q₁ hq₁ now' _ => ?_))
  subst hq₁
  refine WP.bindE_ok (WP.mapErrorE fun key _ => ?_)
  have hseal : ∀ e : Entry, Calls Drawless (Call.sealEntry e).run := fun e => Calls.op trivial
  have happend : ∀ e : Entry, Calls Drawless (Call.appendEntry e).run := fun e => Calls.op trivial
  refine WP.bindE_ok (WP.mapErrorE ((wp_drawless (hseal _) _).mono fun r q₁ hq₁ entry _ => ?_))
  subst hq₁
  refine WP.bindE_ok (WP.mapErrorE ((wp_drawless (happend _) _).mono fun r q₁ hq₁ _ _ => ?_))
  subst hq₁
  refine WP.pureE fun resp hresp => ?_
  obtain rfl := Except.ok.inj hresp
  exact ⟨hspan, hws⟩

/-- The range of a generation that returns a value. -/
theorem generate_exact {tenantID gameID roundID : GoString} {count : ℤ} {min max : Int64}
    {es : List E} {s s' : S} {resp : GenerateResponse} (h : min ≤ max)
    (hrun : Prog.run sem es (generate srv tenantID gameID roundID count min max).run s
      = some (.ok resp, s')) (hne : resp.values ≠ []) :
    ExactRange min.toInt max.toInt (span min max) (fun n => (min + n.toInt64).toInt) ∧
    (Prog.run replay
        (wordsDrawn wordsIn sem es (generate srv tenantID gameID roundID count min max) s)
        (drawValues min (span min max) count.toNat).run () = some (.ok resp.values, ()) ∧
      resp.values = if span min max = 1 then List.replicate count.toNat min
        else (accepted (span min max)
          (wordsDrawn wordsIn sem es (generate srv tenantID gameID roundID count min max) s)).map
            fun w => min + (w % span min max).toInt64) ∧
    ∀ v, min ≤ v → v ≤ max →
      Nat.card {w : UInt64 // ReturnsOn replay (drawValues min (span min max) 1) [v] w}
        = 2 ^ 64 / (span min max).toNat := by
  have hrecorded := (wp_generate_recorded tenantID gameID roundID count min max).run_recorded hrun
    resp rfl
  rw [List.nil_append] at hrecorded
  obtain ⟨hspan, hvalues⟩ := hrecorded
  have hpos := one_le_of_ne_zero (hspan hne)
  obtain ⟨us, hus, heq⟩ := Option.map_eq_some_iff.mp hvalues
  have hexact : ExactRange min.toInt max.toInt (span min max) fun n =>
      (min + n.toInt64).toInt :=
    ExactRange.of_offset hpos ((toNat_span h).resolve_left (ne_zero hpos))
      fun n hn => toInt_add_toInt64 h hn
  refine ⟨hexact, ⟨(run_drawValues_replay hpos).mpr ⟨us, hus, heq.symm⟩, ?_⟩, fun v hlo hhi => ?_⟩
  · rw [← heq, outcomes_eq hpos hus]
    split
    · have hzero : min + (0 : UInt64).toInt64 = min := Int64.add_zero min
      rw [List.map_replicate, hzero]
    · rw [List.map_map]
      rfl
  · refine hexact.card_returnsOn hpos replays_replay (v := v.toInt) ?_
      fun w => returnsOn_drawValues
    rw [Set.mem_Icc]
    exact ⟨Int64.le_iff_toInt_le.mp hlo, Int64.le_iff_toInt_le.mp hhi⟩

/-- **The range mapping is exact under wraparound**, for signed and for unsigned bounds,
whenever a value is returned: the values are those that the code makes of the words which the run
has drawn, the residues of the accepted ones above the minimum, and it returns each value of the
range on equally many words. -/
theorem values_exact (sem : Sem Op Ret E S) (srv : Server) {E' S' : Type}
    (sem' : Sem Scaling.Call Call.Ret E' S') :
    (∀ (tenantID gameID roundID : GoString) (count : ℤ) (min max : Int64) (es : List E) (s s' : S)
      (resp : GenerateResponse), min ≤ max →
      Prog.run sem es (generate srv tenantID gameID roundID count min max).run s
        = some (.ok resp, s') → resp.values ≠ [] →
      ExactRange min.toInt max.toInt (span min max) (fun n => (min + n.toInt64).toInt) ∧
      (Prog.run replay
          (wordsDrawn wordsIn sem es (generate srv tenantID gameID roundID count min max) s)
          (drawValues min (span min max) count.toNat).run () = some (.ok resp.values, ()) ∧
        resp.values = if span min max = 1 then List.replicate count.toNat min
          else (accepted (span min max)
            (wordsDrawn wordsIn sem es (generate srv tenantID gameID roundID count min max) s)).map
              fun w => min + (w % span min max).toInt64) ∧
      ∀ v, min ≤ v → v ≤ max →
        Nat.card {w : UInt64 // ReturnsOn replay (drawValues min (span min max) 1) [v] w}
          = 2 ^ 64 / (span min max).toNat) ∧
    ∀ (min max v : UInt64) (es : List E') (s s' : S'), min ≤ max →
      Prog.run sem' es (randRangeInclusive .self min max).run s = some (.ok v, s') →
      ExactRange min.toNat max.toNat (max - min + 1) (fun n => (min + n).toNat) ∧
      (Prog.run Scaling.replay
          (wordsDrawn Call.words sem' es (randRangeInclusive .self min max) s)
          (randRangeInclusive .self min max).run () = some (.ok v, ()) ∧
        [v] = if max - min + 1 = 1 then [min]
          else (accepted (max - min + 1)
            (wordsDrawn Call.words sem' es (randRangeInclusive .self min max) s)).map
              fun w => min + w % (max - min + 1)) ∧
      ∀ u, min ≤ u → u ≤ max →
        Nat.card {w : UInt64 // ReturnsOn Scaling.replay (randRangeInclusive .self min max) u w}
          = 2 ^ 64 / (max - min + 1).toNat :=
  ⟨fun _ _ _ _ _ _ _ _ _ _ h hrun hne => generate_exact h hrun hne,
    fun _ _ _ _ _ _ h hrun => randRangeInclusive_exact h hrun⟩

/-- One value from -1 to 0, and one from 2 to 7 against the source that counts, whose first four
words are rejected. -/
theorem values_exact_small :
    (∃ resp w, Prog.run (exec (Device.drbg fun _ block => block) smallServer.crypto)
        (List.replicate 8 {}) (generate smallServer [97] [103] [114] 1 (-1) 0).run smallWorld
        = some (.ok resp, w) ∧
      ExactRange (-1) 0 (span (-1) 0) (fun n => ((-1 : Int64) + n.toInt64).toInt) ∧
      resp.values = (accepted (span (-1) 0) (wordsDrawn wordsIn
        (exec (Device.drbg fun _ block => block) smallServer.crypto) (List.replicate 8 {})
        (generate smallServer [97] [103] [114] 1 (-1) 0) smallWorld)).map
          (fun w => -1 + (w % span (-1) 0).toInt64) ∧
      Nat.card {w : UInt64 // ReturnsOn replay (drawValues (-1) (span (-1) 0) 1) [-1] w}
        = 2 ^ 64 / (span (-1) 0).toNat) ∧
    Prog.run Source.counter.sem [(), (), (), (), ()] (randRangeInclusive .self 2 7).run 0
      = some (.ok 6, 5) ∧
    [6] = (accepted 6 (wordsDrawn Call.words Source.counter.sem [(), (), (), (), ()]
      (randRangeInclusive .self 2 7) 0)).map (fun w => 2 + w % 6) ∧
    Nat.card {w : UInt64 // ReturnsOn Scaling.replay (randRangeInclusive .self 2 7) 6 w}
      = 2 ^ 64 / 6 := by
  obtain ⟨hsigned, hunsigned⟩ := values_exact
    (exec (Device.drbg fun _ block => block) smallServer.crypto) smallServer Source.counter.sem
  refine ⟨?_, ?_⟩
  · have h : (Prog.run (exec (Device.drbg fun _ block => block) smallServer.crypto)
        (List.replicate 8 {}) (generate smallServer [97] [103] [114] 1 (-1) 0).run smallWorld).bind
          (fun x => x.1.toOption.map fun resp => decide (resp.values ≠ [])) = some true := by
      decide +kernel
    obtain ⟨⟨r, w⟩, hrun, hresp⟩ := Option.bind_eq_some_iff.mp h
    obtain ⟨resp, hr, hne⟩ := Option.map_eq_some_iff.mp hresp
    cases r with
    | error err => cases hr
    | ok resp' =>
      obtain rfl := Option.some.inj hr
      obtain ⟨hexact, ⟨-, hvalues⟩, hcount⟩ := hsigned _ _ _ _ (-1) 0 _ _ _ _ (by decide) hrun
        (of_decide_eq_true hne)
      rw [if_neg (by decide)] at hvalues
      exact ⟨_, w, hrun, hexact, hvalues, hcount (-1) (by decide) (by decide)⟩
  · have hrun : Prog.run Source.counter.sem [(), (), (), (), ()]
        (randRangeInclusive .self 2 7).run 0 = some (.ok 6, 5) := by
      rfl
    obtain ⟨-, ⟨-, hvalue⟩, hcount⟩ := hunsigned 2 7 6 _ _ _ (by decide) hrun
    exact ⟨hrun, hvalue, hcount 6 (by decide) (by decide)⟩

/-! ### Ranges that are served -/

/-- **The range from `min` to `max` is served** by the loop of `generate`. -/
structure ServesRange (min max : Int64) : Prop where
  span_ne : span min max ≠ 0
  succeeds : ∀ {E S : Type} (sem : Sem Op Ret E S), Reliable sem rng (span min max) → ∀ n s,
    Prog.Succeeds sem (drawValues min (span min max) n)
      (fun values _ => values.length = n ∧ ∀ v ∈ values, min ≤ v ∧ v ≤ max) s
  never : ∀ {E S : Type} (sem : Sem Op Ret E S) n es s s',
    Prog.run sem es (drawValues min (span min max) n).run s
      ≠ some (.error (.wrap "generate value: %w" [] maxZero), s')

/-- The span of the full range wraps to 0, and no other one does. -/
theorem span_eq_zero {min max : Int64} (h : min ≤ max) :
    span min max = 0 ↔ min.toInt = -2 ^ 63 ∧ max.toInt = 2 ^ 63 - 1 := by
  have hlo := min.le_toInt
  have hhi := max.toInt_lt
  have hle := Int64.le_iff_toInt_le.mp h
  constructor
  · intro h0
    -- a span of 0 is the difference -1, which is 2^64 - 1
    have hspan : (span min max).toNat
        = ((2 ^ 64 - min.toBitVec.toNat + max.toBitVec.toNat) % 2 ^ 64 + 1) % 2 ^ 64 := rfl
    rw [h0, UInt64.toNat_zero] at hspan
    have hmin := min.toBitVec.isLt
    have hmax := max.toBitVec.isLt
    simp only [toInt_eq] at hle ⊢
    generalize min.toBitVec.toNat = x at *
    generalize max.toBitVec.toNat = y at *
    split at hle <;> split at hle <;> omega
  · rintro ⟨hmin, hmax⟩
    rcases toNat_span h with h0 | hsize
    · exact h0
    · have hlt := (span min max).toNat_lt
      omega

theorem servesRange_iff {min max : Int64} (h : min ≤ max) :
    ServesRange min max ↔ ¬ (min.toInt = -2 ^ 63 ∧ max.toInt = 2 ^ 63 - 1) := by
  rw [← span_eq_zero h]
  refine ⟨fun hserves => hserves.span_ne, fun hspan => ⟨hspan, ?_, ?_⟩⟩
  · intro E S sem hrel n s
    induction n generalizing s with
    | zero => exact Prog.Succeeds.pureE ⟨rfl, fun v hv => absurd hv List.not_mem_nil⟩
    | succ n ih =>
      have hdraw := succeeds_randRange hrel hspan s
      refine Prog.Succeeds.bindE (hdraw.mapErrorE.mono fun m s₁ hm => ?_)
      refine Prog.Succeeds.bindE ((ih s₁).mono fun rest s₂ hrest => ?_)
      refine Prog.Succeeds.pureE ⟨by rw [List.length_cons, hrest.1], fun v hv => ?_⟩
      rcases List.mem_cons.mp hv with rfl | hv
      · exact add_toInt64_mem h hm
      · exact hrest.2 v hv
  · intro E S sem n es s s' hrun
    have hwp : ∀ n s, WP (Model.ofSem sem) (drawValues min (span min max) n).run
        (fun r _ => r ≠ .error (.wrap "generate value: %w" [] maxZero)) s := by
      intro n
      induction n with
      | zero => exact fun s => WP.pureE fun heq => by cases heq
      | succ n ih =>
        intro s
        -- an error of `RandRange` is wrapped, one of the rest is passed on
        refine WP.bindE (WP.mapErrorE ((wp_randRange_maxZero hspan s).mono fun r s₁ hr => ?_))
        cases r with
        | error err => exact fun heq => hr (by cases heq; rfl)
        | ok m =>
          refine WP.bindE ((ih s₁).mono fun r s₂ hr => ?_)
          cases r with
          | error err => exact fun heq => hr (congrArg Except.error (Except.error.inj heq))
          | ok rest => exact WP.pureE fun heq => by cases heq
    exact (hwp n s).run_sound hrun rfl

/-- **All ranges are served but the full ones**: those of all `int64` and of all `uint64`,
which pass the validation like any other. -/
theorem serves_iff {tenantID gameID roundID : GoString} {count : ℤ} {min max : Int64}
    (hvalid : validateGenerateRequest tenantID gameID roundID count min max = none)
    {umin umax : UInt64} (hle : umin ≤ umax) :
    (ServesRange min max ↔ ¬ (min.toInt = -2 ^ 63 ∧ max.toInt = 2 ^ 63 - 1)) ∧
      (ServesInclusive umin umax ↔ ¬ (umin.toNat = 0 ∧ umax.toNat = 2 ^ 64 - 1)) := by
  obtain ⟨-, -, -, -, -, h⟩ := validateGenerateRequest_eq_none hvalid
  exact ⟨servesRange_iff h, servesInclusive_iff hle⟩

/-- The numbers of a bingo game, five of which are drawn from given words, and a die. -/
theorem serves_iff_small : ServesRange 1 90 ∧ ServesInclusive 1 6 ∧
    Prog.Succeeds replay (drawValues 1 (span 1 90) 5)
      (fun values _ => values.length = 5 ∧ ∀ v ∈ values, 1 ≤ v ∧ v ≤ 90) () := by
  have hvalid : validateGenerateRequest [97] [103] [114] 1 1 90 = none := by decide
  have hle : (1 : UInt64) ≤ 6 := by decide
  obtain ⟨hsigned, hunsigned⟩ := serves_iff hvalid hle
  have hserves : ServesRange 1 90 := hsigned.mpr (by decide)
  exact ⟨hserves, hunsigned.mpr (by decide),
    hserves.succeeds replay (replays_replay.reliable _) 5 ()⟩

/-- **The full range** passes the validation, and is answered with the error that there is
nothing to choose from. -/
theorem full_range_fails :
    validateGenerateRequest [97] [103] [114] 1 Int64.minValue Int64.maxValue = none ∧
    (∃ w, Prog.run (exec (Device.drbg fun _ block => block) smallServer.crypto)
      (List.replicate 3 {}) (handleGenerate smallServer [97]
        (.ok ⟨[97], [103], [114], 1, Int64.minValue, Int64.maxValue⟩)) smallWorld
      = some (internalError "" (.wrap "generate value: %w" [] maxZero), w)) ∧
    Prog.run Source.counter.sem [] (randRangeInclusive .self 0 18446744073709551615).run 0
      = some (.error maxZero, 0) := by
  refine ⟨by decide, ⟨smallWorld, rfl⟩, rfl⟩

end Gateway
