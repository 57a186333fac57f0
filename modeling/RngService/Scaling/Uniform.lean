import Mathlib
import RngService.Lib.Rejection
import RngService.Scaling.Shuffle

/-!
# What the words decide

The generator enters the scaling functions only through the words it draws. Against an RNG
that answers with given words (`Replays`), a call of `RandRange` is a stage of rejection
sampling (`run_randRange_replay`), and a loop of such calls, like the one of `Shuffle`, runs
its stages one after the other. Each stage is fair, so for every number of words that a run
may take, all results of the loop come from equally many word sequences: the loop is unbiased
as a whole, not only one draw at a time (`shuffle_uniform`).

Against any RNG, `RandRangeInclusive` returns what the words give that it has drawn, and each
value of its range on equally many words (`randRangeInclusive_exact`).
-/

namespace Scaling

open Rejection FisherYates

variable {Op : Type} {Ret : Op → Type} {rng : RNG Op Ret} {α : Type} {sem : Sem Op Ret UInt64 Unit}

/-- What a call of `RandRange(max)` takes a word for. -/
def stage (max : UInt64) : Stage UInt64 UInt64 :=
  fun w => if w < threshold max then none else some (w % max)

theorem stage_of_lt {max w : UInt64} (h : w < threshold max) : stage max w = none := if_pos h

theorem stage_of_le {max w : UInt64} (h : threshold max ≤ w) : stage max w = some (w % max) :=
  if_neg (UInt64.not_lt.mpr h)

/-- **Each stage is fair.** -/
theorem fair_stage {max : UInt64} (h : 1 ≤ max) :
    Fair (stage max) {v | v < max} (2 ^ 64 % max.toNat) (2 ^ 64 / max.toNat) where
  rejected := by
    have hiff : ∀ w, stage max w = none ↔ w.toNat < 2 ^ 64 % max.toNat := by
      intro w
      rw [stage, ← threshold_toNat (ne_zero h), ← UInt64.lt_iff_toNat_lt]
      split <;> simp_all
    have hle : 2 ^ 64 % max.toNat ≤ 2 ^ 64 := Nat.mod_le _ _
    simp only [hiff]
    rw [Residue.card_uint64 fun n => n < 2 ^ 64 % max.toNat]
    have hfilter : (Finset.range (2 ^ 64)).filter (fun n => n < 2 ^ 64 % max.toNat)
        = Finset.range (2 ^ 64 % max.toNat) := by
      ext n
      rw [Finset.mem_filter, Finset.mem_range, Finset.mem_range]
      exact ⟨fun hn => hn.2, fun hn => ⟨hn.trans_le hle, hn⟩⟩
    rw [hfilter, Finset.card_range]
  share v hv := by
    have hiff : ∀ w, stage max w = some v ↔ threshold max ≤ w ∧ w % max = v := by
      intro w
      rw [stage, ← UInt64.not_lt]
      split <;> simp_all
    simp only [hiff]
    exact card_accepted h hv

/-- The RNG answers each `Generate(8)` with the word that is the input of the call. -/
def Replays (sem : Sem Op Ret UInt64 Unit) (rng : RNG Op Ret) : Prop :=
  ∀ w, ∃ r, sem (rng.generate 8) w () = some (r, ()) ∧ rng.result r = .ok (Bytes.putUint64 w)

/-- **Given words are a reliable source**: the last word of all is accepted whatever the range. -/
theorem Replays.reliable (hr : Replays sem rng) (max : UInt64) : Reliable sem rng max where
  ok w _ r s' hsem := by
    obtain ⟨r', hsem', hres⟩ := hr w
    obtain ⟨rfl, -⟩ := Prod.mk.inj (Option.some.inj (hsem.symm.trans hsem'))
    exact ⟨_, hres⟩
  yields _ := by
    obtain ⟨r, hsem, hres⟩ := hr (-1)
    have hlast : threshold max ≤ -1 := by
      have hlt := (threshold max).toNat_lt
      rw [UInt64.le_iff_toNat_le]
      show (threshold max).toNat ≤ 2 ^ 64 - 1
      omega
    exact .accepted hsem hres (by rwa [Bytes.uint64_putUint64])

/-- **`RandRange` is a stage**: it returns the outcome of the words it has drawn. -/
theorem run_randRange_replay (hr : Replays sem rng) {max : UInt64} (h : 2 ≤ max) {ws : List UInt64}
    {v : UInt64} : Prog.run sem ws (randRange rng max).run () = some (.ok v, ()) ↔
      decode [stage max] ws = some [v] := by
  have h2 : 2 ≤ max.toNat := UInt64.le_iff_toNat_le.mp h
  have h0 : max ≠ 0 := by
    rintro rfl
    exact absurd h2 (by decide)
  have h1 : max ≠ 1 := by
    rintro rfl
    exact absurd h2 (by decide)
  rw [randRange, if_neg h0, if_neg h1]
  induction ws with
  | nil => simp [ExceptT.mk, ExceptT.run, Prog.run, decode]
  | cons w ws ih =>
    obtain ⟨r, hsem, hres⟩ := hr w
    have hrej : rejected max (rng.result r) = decide (w < threshold max) := by
      rw [hres, rejected, Bytes.uint64_putUint64]
    have hscaled : scaled max (rng.result r) = .ok (w % max) := by
      rw [hres, scaled, Bytes.uint64_putUint64]
    rw [ExceptT.run_mk, Prog.run_cons_call]
    by_cases hw : w < threshold max
    · -- the word is rejected, and the loop goes on
      rw [decode_cons_none (stage_of_lt hw)]
      refine Iff.trans ?_ ih
      constructor
      · rintro ⟨r', s', hsem', hrest⟩
        obtain ⟨rfl, rfl⟩ := Prod.mk.inj (Option.some.inj (hsem.symm.trans hsem'))
        rwa [hrej, decide_eq_true hw] at hrest
      · intro hrest
        refine ⟨r, (), hsem, ?_⟩
        rw [hrej, decide_eq_true hw]
        exact hrest
    · -- the word is accepted, and has to be the last one
      rw [decode_cons_some (stage_of_le (UInt64.not_lt.mp hw))]
      constructor
      · rintro ⟨r', s', hsem', hrest⟩
        obtain ⟨rfl, rfl⟩ := Prod.mk.inj (Option.some.inj (hsem.symm.trans hsem'))
        rw [hrej, decide_eq_false hw, hscaled] at hrest
        obtain ⟨rfl, hv⟩ := Prog.run_ret.mp hrest
        rw [Except.ok.inj (Prod.mk.inj hv).1]
        rfl
      · intro hdecode
        obtain ⟨us, hus, heq⟩ := Option.map_eq_some_iff.mp hdecode
        obtain ⟨rfl, rfl⟩ := List.cons.inj heq
        obtain ⟨rfl, -⟩ := decode_nil.mp hus
        refine ⟨r, (), hsem, ?_⟩
        rw [hrej, decide_eq_false hw, hscaled]
        rfl

/-! ### The words of a run

The same for a program that shares its generator: its ghost state is the words that it has
drawn itself. -/

/-- The word in an answer of the generator, if there is one. -/
def wordsOf : Except GoError Bytes → List UInt64
  | .ok b => [Bytes.uint64 b]
  | .error _ => []

/-- The model allows draws, and appends the words drawn. -/
def DrawsWords (M : Prog.Model Op Ret (List UInt64)) (rng : RNG Op Ret) : Prop :=
  ∀ q, M.allowed (rng.generate 8) q ∧
    ∀ r q', M.step (rng.generate 8) q r q' → q' = q ++ wordsOf (rng.result r)

/-- The outcomes of `n` calls of `RandRange(max)`, which draws nothing for `max = 1`. -/
def outcomes (max : UInt64) (n : ℕ) (ws : List UInt64) : Option (List UInt64) :=
  if max = 1 then if ws = [] then some (List.replicate n 0) else none
  else decode (List.replicate n (stage max)) ws

/-- One call, and then `n` calls. -/
theorem outcomes_succ {max : UInt64} {n : ℕ} {ws vs : List UInt64} :
    outcomes max (n + 1) ws = some vs ↔ ∃ ws₁ ws₂ v vs', ws = ws₁ ++ ws₂ ∧ vs = v :: vs' ∧
      outcomes max 1 ws₁ = some [v] ∧ outcomes max n ws₂ = some vs' := by
  unfold outcomes
  by_cases h1 : max = 1
  · simp only [if_pos h1, List.replicate_succ]
    constructor
    · intro h
      split at h
      · next hws => exact ⟨[], [], 0, _, hws, (Option.some.inj h).symm, rfl, rfl⟩
      · cases h
    · rintro ⟨ws₁, ws₂, v, vs', rfl, rfl, h₁, h₂⟩
      split at h₁
      · next hws₁ =>
        split at h₂
        · next hws₂ =>
          rw [if_pos (by rw [hws₁, hws₂]; rfl), ← Option.some.inj h₂,
            (List.cons.inj (Option.some.inj h₁)).1]
        · cases h₂
      · cases h₁
  · simp only [if_neg h1, List.replicate_one]
    rw [List.replicate_succ]
    exact decode_cons

/-- The words that `RandRange(max)` accepts. -/
def accepted (max : UInt64) (ws : List UInt64) : List UInt64 :=
  ws.filter fun w => 2 ^ 64 % max.toNat ≤ w.toNat

/-- **The outcomes are the residues of the accepted words.** -/
theorem outcomes_eq {max : UInt64} (h : 1 ≤ max) {n : ℕ} {ws us : List UInt64}
    (hus : outcomes max n ws = some us) :
    us = if max = 1 then List.replicate n 0 else (accepted max ws).map (· % max) := by
  unfold outcomes at hus
  split at hus
  · next h1 =>
    rw [if_pos h1]
    split at hus
    · exact (Option.some.inj hus).symm
    · cases hus
  · next h1 =>
    rw [if_neg h1, filterMap_of_decode hus, accepted, ← List.filterMap_eq_map,
      List.filterMap_filter]
    congr 1
    funext w
    simp only [← threshold_toNat (ne_zero h), ← UInt64.le_iff_toNat_le, decide_eq_true_eq]
    split
    · next hw => exact stage_of_le hw
    · next hw => exact stage_of_lt (UInt64.not_le.mp hw)

/-- A call returns the outcome of the words it has drawn, which may be none. -/
theorem run_randRange_outcomes (hr : Replays sem rng) {max : UInt64} (h : 1 ≤ max)
    {ws : List UInt64} {v : UInt64} :
    Prog.run sem ws (randRange rng max).run () = some (.ok v, ()) ↔
      outcomes max 1 ws = some [v] := by
  unfold outcomes
  by_cases h1 : max = 1
  · subst h1
    have hrun : (randRange rng 1).run = .ret (.ok 0) := rfl
    rw [hrun, if_pos rfl, Prog.run_ret]
    split
    · next hws => simp [hws, eq_comm]
    · next hws => simp [hws]
  · rw [if_neg h1, run_randRange_replay hr (two_le_of_ne_one h h1), List.replicate_one]

section DrawsWords

variable {M : Prog.Model Op Ret (List UInt64)}

/-- **`RandRange` returns the outcome of its words.** -/
theorem wp_randRange_words (hM : DrawsWords M rng) (max : UInt64) (q : List UInt64) :
    Prog.WP M (randRange rng max).run (fun r q' => ∀ v, r = .ok v →
      max ≠ 0 ∧ ∃ ws, q' = q ++ ws ∧ outcomes max 1 ws = some [v]) q := by
  unfold randRange
  split
  · exact Prog.WP.throwE fun v hv => by cases hv
  · next h0 =>
    split
    · next h1 =>
      refine Prog.WP.pureE fun v hv => ⟨h0, [], (List.append_nil q).symm, ?_⟩
      obtain rfl := Except.ok.inj hv
      rw [outcomes, if_pos h1]
      rfl
    · next h1 =>
      -- the words drawn so far have all been rejected
      refine ⟨fun q' => ∃ ws, q' = q ++ ws ∧ ∀ w ∈ ws, stage max w = none,
        ⟨[], (List.append_nil q).symm, fun w hw => absurd hw List.not_mem_nil⟩, ?_⟩
      rintro q₁ ⟨ws, rfl, hws⟩
      refine ⟨(hM _).1, fun r q₂ hstep => ?_⟩
      obtain rfl := (hM _).2 r q₂ hstep
      split
      · next hrej =>
        -- the word is rejected as well
        cases hr : rng.result r with
        | error err =>
          have hrej' : rejected max (rng.result r) = true := hrej
          rw [hr] at hrej'
          cases hrej'
        | ok b =>
          have hrej' : rejected max (rng.result r) = true := hrej
          rw [hr, rejected, decide_eq_true_eq] at hrej'
          refine ⟨ws ++ [Bytes.uint64 b], List.append_assoc _ _ _, fun w hmem => ?_⟩
          rcases List.mem_append.mp hmem with hmem | hmem
          · exact hws w hmem
          · rw [List.mem_singleton.mp hmem]
            exact stage_of_lt hrej'
      · next hrej =>
        intro v hv
        have hrej' : ¬ rejected max (rng.result r) = true := hrej
        cases hr : rng.result r with
        | error err =>
          rw [hr] at hv
          cases hv
        | ok b =>
          rw [hr] at hv hrej'
          rw [rejected, decide_eq_true_eq] at hrej'
          obtain rfl := Except.ok.inj hv
          refine ⟨h0, ws ++ [Bytes.uint64 b], List.append_assoc _ _ _, ?_⟩
          rw [outcomes, if_neg h1, List.replicate_one, decode_append hws,
            decode_cons_some (stage_of_le (UInt64.not_lt.mp hrej'))]
          rfl

end DrawsWords

/-! ### One word

How many words lead to a value: a program may return it on its next word. -/

/-- The program returns `a` if `w` is the next word, and draws no other one. -/
def ReturnsOn (sem : Sem Op Ret UInt64 Unit) (x : ExceptT GoError (Prog Op Ret) α) (a : α)
    (w : UInt64) : Prop :=
  ∃ ws, ws <+: [w] ∧ Prog.run sem ws x.run () = some (.ok a, ())

/-- **`RandRange` on one word**: it returns the residue of a word that it accepts. -/
theorem returnsOn_randRange (hr : Replays sem rng) {max : UInt64} (h : 1 ≤ max) {n w : UInt64} :
    ReturnsOn sem (randRange rng max) n w ↔ threshold max ≤ w ∧ w % max = n := by
  simp only [ReturnsOn, run_randRange_outcomes hr h, List.prefix_cons_iff, List.prefix_nil]
  unfold outcomes
  by_cases h1 : max = 1
  · -- no word is drawn, and every word has the residue 0
    subst h1
    have hzero : w % 1 = 0 := by
      rw [← UInt64.toNat_inj, UInt64.toNat_mod]
      exact Nat.mod_one _
    have hthreshold : threshold 1 ≤ w := UInt64.zero_le
    simp only [hzero, if_true]
    constructor
    · rintro ⟨ws, -, hws⟩
      split at hws
      · exact ⟨hthreshold, (List.cons.inj (Option.some.inj hws)).1⟩
      · cases hws
    · rintro ⟨-, rfl⟩
      exact ⟨[], Or.inl rfl, rfl⟩
  · simp only [if_neg h1, List.replicate_one]
    constructor
    · rintro ⟨ws, rfl | ⟨-, rfl, rfl⟩, hws⟩
      · cases hws
      · have hstage := filterMap_of_decode (n := 1) hws
        by_cases hw : w < threshold max
        · rw [List.filterMap_cons_none (stage_of_lt hw)] at hstage
          cases hstage
        · have hle := UInt64.not_lt.mp hw
          rw [List.filterMap_cons_some (stage_of_le hle)] at hstage
          exact ⟨hle, (List.cons.inj hstage).1.symm⟩
    · rintro ⟨hw, rfl⟩
      refine ⟨[w], Or.inr ⟨[], rfl, rfl⟩, ?_⟩
      rw [decode_cons_some (stage_of_le hw)]
      rfl

/-- A program that returns a function of what `x` returns. -/
theorem returnsOn_map {β : Type} {x : ExceptT GoError (Prog Op Ret) α} {f : α → β} {b : β}
    {w : UInt64} : ReturnsOn sem (x >>= fun a => pure (f a)) b w ↔
      ∃ a, ReturnsOn sem x a w ∧ f a = b := by
  constructor
  · rintro ⟨ws, hws, hrun⟩
    obtain ⟨ws₁, ws₂, a, s₁, rfl, h₁, h₂⟩ := Prog.run_bindE_ok.mp hrun
    obtain ⟨rfl, heq⟩ := Prog.run_ret.mp h₂
    rw [List.append_nil] at hws
    exact ⟨a, ⟨ws₁, hws, h₁⟩, (Except.ok.inj (Prod.mk.inj heq).1).symm⟩
  · rintro ⟨a, ⟨ws, hws, hrun⟩, rfl⟩
    exact ⟨ws, hws, Prog.run_bindE_ok.mpr ⟨ws, [], a, (), (List.append_nil ws).symm, hrun, rfl⟩⟩

/-- **Each value of an exact range is returned on equally many words**, by a program that scales
what `RandRange` returns. -/
theorem ExactRange.card_returnsOn {lo hi : ℤ} {span : UInt64} {value : UInt64 → ℤ}
    (h : ExactRange lo hi span value) (hpos : 1 ≤ span) (hr : Replays sem rng)
    {x : ExceptT GoError (Prog Op Ret) α} {a : α} {v : ℤ} (hv : v ∈ Set.Icc lo hi)
    (hx : ∀ w, ReturnsOn sem x a w ↔ ∃ n, ReturnsOn sem (randRange rng span) n w ∧ value n = v) :
    Nat.card {w : UInt64 // ReturnsOn sem x a w} = 2 ^ 64 / span.toNat := by
  have hiff : ∀ w, ReturnsOn sem x a w ↔
      2 ^ 64 % span.toNat ≤ w.toNat ∧ value (w % span) = v := by
    intro w
    rw [hx, ← threshold_toNat (ne_zero hpos), ← UInt64.le_iff_toNat_le]
    simp only [returnsOn_randRange hr hpos]
    constructor
    · rintro ⟨n, ⟨hw, rfl⟩, hvalue⟩
      exact ⟨hw, hvalue⟩
    · rintro ⟨hw, hvalue⟩
      exact ⟨_, ⟨hw, rfl⟩, hvalue⟩
  simp only [hiff]
  exact h.words v hv

/-- The words drawn in a run, as `words` reads them off the calls. -/
def wordsDrawn {E S : Type} (words : (Σ o, Ret o) → List UInt64) (sem : Sem Op Ret E S)
    (es : List E) (x : ExceptT GoError (Prog Op Ret) α) (s : S) : List UInt64 :=
  (Prog.trace sem es x.run s).flatMap words

/-- The interface answered from the inputs. -/
def replay : Sem Call Call.Ret UInt64 Unit
  | .generate _, w, _ => some (.ok (Bytes.putUint64 w), ())

theorem replays_replay : Replays replay .self := fun w => ⟨.ok (Bytes.putUint64 w), rfl, rfl⟩

/-- The words in a call of the interface. -/
def Call.words : (Σ c, Call.Ret c) → List UInt64
  | ⟨.generate _, r⟩ => wordsOf r

/-- **The runs of `RandRangeInclusive`** return what their words give. -/
theorem wp_randRangeInclusive_words {min max : UInt64} (h : min ≤ max) :
    Prog.WP (Prog.Model.recording Call.words) (randRangeInclusive .self min max).run
      (fun r ws => ∀ v, r = .ok v → max - min + 1 ≠ 0 ∧
        ∃ n, outcomes (max - min + 1) 1 ws = some [n] ∧ v = min + n) [] := by
  have hM : DrawsWords (Prog.Model.recording Call.words) .self :=
    fun _ => ⟨trivial, fun _ _ hstep => hstep⟩
  rw [randRangeInclusive, if_neg (UInt64.not_lt.mpr h)]
  refine Prog.WP.bindE_ok ((wp_randRange_words hM _ []).mono fun r q hr n hn => ?_)
  obtain ⟨hspan, ws, rfl, hws⟩ := hr n hn
  exact Prog.WP.pureE fun v hv => ⟨hspan, n, hws, (Except.ok.inj hv).symm⟩

/-- **`RandRangeInclusive` is exact** whenever it returns a value, against any RNG: the value is
the one that the words give that it has drawn, and each value of the range is returned on equally
many words. -/
theorem randRangeInclusive_exact {E S : Type} {sem : Sem Call Call.Ret E S} {min max v : UInt64}
    {es : List E} {s s' : S} (h : min ≤ max)
    (hrun : Prog.run sem es (randRangeInclusive .self min max).run s = some (.ok v, s')) :
    ExactRange min.toNat max.toNat (max - min + 1) (fun n => (min + n).toNat) ∧
    (Prog.run replay (wordsDrawn Call.words sem es (randRangeInclusive .self min max) s)
        (randRangeInclusive .self min max).run () = some (.ok v, ()) ∧
      [v] = if max - min + 1 = 1 then [min]
        else (accepted (max - min + 1)
          (wordsDrawn Call.words sem es (randRangeInclusive .self min max) s)).map
            fun w => min + w % (max - min + 1)) ∧
    ∀ u, min ≤ u → u ≤ max →
      Nat.card {w : UInt64 // ReturnsOn replay (randRangeInclusive .self min max) u w}
        = 2 ^ 64 / (max - min + 1).toNat := by
  have hwords := (wp_randRangeInclusive_words h).run_recorded hrun v rfl
  rw [List.nil_append] at hwords
  obtain ⟨hne, n, hn, rfl⟩ := hwords
  -- a value is returned, so the span has not wrapped to 0
  have hpos := one_le_of_ne_zero hne
  have hspan := toNat_sub_add_one h hpos
  have hle := UInt64.le_iff_toNat_le.mp h
  have hexact : ExactRange min.toNat max.toNat (max - min + 1) fun n => (min + n).toNat := by
    refine ExactRange.of_offset hpos (by rw [hspan]; omega) fun n hn => ?_
    have hlt := UInt64.lt_iff_toNat_lt.mp hn
    have hmax := max.toNat_lt
    rw [UInt64.toNat_add, Nat.mod_eq_of_lt (by omega)]
    exact Nat.cast_add _ _
  have hcode : randRangeInclusive .self min max
      = randRange .self (max - min + 1) >>= fun n => pure (min + n) :=
    if_neg (UInt64.not_lt.mpr h)
  have hreplay : ∀ ws, outcomes (max - min + 1) 1 ws = some [n] → Prog.run replay ws
      (randRangeInclusive .self min max).run () = some (.ok (min + n), ()) := by
    intro ws hws
    rw [hcode]
    exact Prog.run_bindE_ok.mpr ⟨ws, [], n, (), (List.append_nil ws).symm,
      (run_randRange_outcomes replays_replay hpos).mpr hws, rfl⟩
  refine ⟨hexact, ⟨hreplay _ hn, ?_⟩, fun u hlo hhi => ?_⟩
  · have hmap := congrArg (List.map fun n => min + n) (outcomes_eq hpos hn)
    rw [List.map_singleton] at hmap
    rw [hmap]
    split
    · rw [List.replicate_one, List.map_singleton, UInt64.add_zero]
    · rw [List.map_map]
      rfl
  · refine hexact.card_returnsOn hpos replays_replay (v := u.toNat) ?_ fun w => ?_
    · rw [Set.mem_Icc]
      exact ⟨Nat.cast_le.mpr (UInt64.le_iff_toNat_le.mp hlo),
        Nat.cast_le.mpr (UInt64.le_iff_toNat_le.mp hhi)⟩
    · rw [hcode, returnsOn_map]
      simp only [Nat.cast_inj, UInt64.toNat_inj]

/-! ### The shuffle -/

/-- The stages of a shuffle from index `i` down to 1. -/
def shuffleStages : ℕ → List (Stage UInt64 UInt64)
  | 0 => []
  | i + 1 => stage (UInt64.ofNat (i + 1 + 1)) :: shuffleStages i

/-- How many words each of them rejects, and takes for each draw. -/
def shuffleShares : ℕ → List (ℕ × ℕ)
  | 0 => []
  | i + 1 => (2 ^ 64 % (i + 2), 2 ^ 64 / (i + 2)) :: shuffleShares i

/-- The draws of the loop are what its words decode to. -/
theorem drawn_iff_decode (hr : Replays sem rng) {js : List ℕ} (hlen : js.length + 1 < 2 ^ 63)
    {ws : List UInt64} : Drawn sem rng js ws () () ↔
      ∃ vs, decode (shuffleStages js.length) ws = some vs ∧ vs.map UInt64.toNat = js := by
  induction js generalizing ws with
  | nil =>
    constructor
    · rintro ⟨rfl, -⟩
      exact ⟨[], rfl, rfl⟩
    · rintro ⟨vs, h, -⟩
      exact ⟨(decode_nil.mp h).1, rfl⟩
  | cons j js ih =>
    rw [List.length_cons] at hlen
    have h2 : 2 ≤ UInt64.ofNat (js.length + 1 + 1) := by
      rw [UInt64.le_iff_toNat_le, UInt64.toNat_ofNat_of_lt' (show _ < 2 ^ 64 by omega)]
      exact Nat.le_add_left 2 js.length
    rw [List.length_cons, shuffleStages]
    constructor
    · rintro ⟨ws₁, ws₂, v, s₁, rfl, hrun, rfl, hrest⟩
      obtain ⟨vs, hvs, rfl⟩ := (ih (by omega)).mp hrest
      exact ⟨v :: vs, decode_cons.mpr
        ⟨ws₁, ws₂, v, vs, rfl, rfl, (run_randRange_replay hr h2).mp hrun, hvs⟩, rfl⟩
    · rintro ⟨vs, hvs, hmap⟩
      obtain ⟨ws₁, ws₂, v, vs', rfl, rfl, h₁, h₂⟩ := decode_cons.mp hvs
      obtain ⟨rfl, rfl⟩ := List.cons.inj hmap
      refine ⟨ws₁, ws₂, v, (), rfl, (run_randRange_replay hr h2).mpr h₁, rfl, ?_⟩
      exact (ih (by omega)).mpr ⟨vs', h₂, rfl⟩

/-- The stages of a shuffle are fair, and its draws are outcomes of theirs. -/
theorem allFair_shuffle {js : List ℕ} (hjs : Valid js) (hlen : js.length + 1 < 2 ^ 63) :
    AllFair (shuffleStages js.length) (js.map UInt64.ofNat) (shuffleShares js.length) := by
  induction js with
  | nil => exact .nil
  | cons j js ih =>
    obtain ⟨hj, hjs⟩ := hjs
    rw [List.length_cons] at hlen ⊢
    have hmax : (UInt64.ofNat (js.length + 1 + 1)).toNat = js.length + 2 :=
      UInt64.toNat_ofNat_of_lt' (show _ < 2 ^ 64 by omega)
    have hone : 1 ≤ UInt64.ofNat (js.length + 1 + 1) := by
      rw [UInt64.le_iff_toNat_le, hmax]
      exact Nat.le_add_left 1 _
    have hfair := fair_stage hone
    rw [hmax] at hfair
    refine .cons hfair ?_ (ih hjs (by omega))
    show UInt64.ofNat j < UInt64.ofNat (js.length + 1 + 1)
    rw [UInt64.lt_iff_toNat_lt, hmax, UInt64.toNat_ofNat_of_lt' (show _ < 2 ^ 64 by omega)]
    omega

/-- Outcomes as draws. -/
theorem map_toNat_eq {vs : List UInt64} {js : List ℕ} (hjs : ∀ j ∈ js, j < 2 ^ 64) :
    vs.map UInt64.toNat = js ↔ vs = js.map UInt64.ofNat := by
  constructor
  · rintro rfl
    rw [List.map_map]
    exact (List.map_id'' (fun v => UInt64.ofNat_toNat) vs).symm
  · rintro rfl
    rw [List.map_map]
    refine (List.map_congr_left fun j hj => ?_).trans (List.map_id _)
    exact UInt64.toNat_ofNat_of_lt' (hjs j hj)

theorem le_length_of_valid {js : List ℕ} (h : Valid js) {j : ℕ} (hj : j ∈ js) : j ≤ js.length := by
  induction js with
  | nil => cases hj
  | cons i js ih =>
    rw [List.length_cons]
    rcases List.mem_cons.mp hj with rfl | hj
    · exact h.1
    · exact (ih h.2 hj).trans (Nat.le_succ _)

/-- **The shuffle is uniform as a whole**: for every number `k` of words, each permutation of a
deck of different cards is the result of equally many sequences of `k` words. -/
theorem shuffle_uniform (hr : Replays sem rng) {deck : List α} (hdeck : deck.Nodup)
    (hlen : deck.length < 2 ^ 63) (σ : Equiv.Perm (Fin deck.length)) (k : ℕ) :
    Nat.card {ws : List UInt64 // ws.length = k ∧ Prog.run sem ws (shuffle rng deck).run ()
      = some (.ok (List.ofFn fun i => deck.get (σ i)), ())}
        = total (shuffleShares (deck.length - 1)) k := by
  obtain ⟨d, rfl⟩ := (rearrangement_bijective deck.length).2 σ
  have hsize : d.1.length + 1 < 2 ^ 63 := by
    rw [d.2.1]
    omega
  have hdraws : ∀ j ∈ d.1, j < 2 ^ 64 := fun j hj => by
    have hle := le_length_of_valid d.2.2 hj
    omega
  -- the words of a run are the inputs that decode to the draws of the permutation
  have hiff : ∀ ws : List UInt64, Prog.run sem ws (shuffle rng deck).run ()
      = some (.ok (List.ofFn fun i => deck.get (rearrangement d i)), ()) ↔
        decode (shuffleStages d.1.length) ws = some (d.1.map UInt64.ofNat) := by
    intro ws
    rw [run_shuffle hlen]
    constructor
    · rintro ⟨d', hdrawn, heq⟩
      have hget : ∀ i, rearrangement d i = rearrangement d' i := fun i =>
        hdeck.injective_get (congrFun (List.ofFn_injective heq) i)
      obtain rfl := (rearrangement_bijective deck.length).1 (Equiv.ext hget)
      obtain ⟨vs, hvs, hmap⟩ := (drawn_iff_decode hr hsize).mp hdrawn
      rwa [(map_toNat_eq hdraws).mp hmap] at hvs
    · intro h
      exact ⟨d, (drawn_iff_decode hr hsize).mpr ⟨_, h, (map_toNat_eq hdraws).mpr rfl⟩, rfl⟩
  simp only [hiff]
  calc ways (shuffleStages d.1.length) k (d.1.map UInt64.ofNat)
      = total (shuffleShares d.1.length) k := ways_eq_total (allFair_shuffle d.2.2 hsize) k
    _ = total (shuffleShares (deck.length - 1)) k :=
      congrArg (fun n => total (shuffleShares n) k) d.2.1

/-- Three cards and three words, one of which is rejected. -/
theorem shuffle_uniform_three :
    Nat.card {ws : List UInt64 // ws.length = 3 ∧
      Prog.run replay ws (shuffle .self ["a", "b", "c"]).run ()
        = some (.ok (List.ofFn fun i => ["a", "b", "c"].get (Equiv.swap 0 2 i)), ())}
      = 2 ^ 64 / 3 * (2 ^ 64 / 2) := by
  have hdeck : ["a", "b", "c"].Nodup := by decide
  exact shuffle_uniform replays_replay hdeck (by decide) (Equiv.swap 0 2) 3

end Scaling
