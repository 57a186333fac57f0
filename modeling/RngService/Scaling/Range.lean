import Mathlib
import RngService.Go.Base
import RngService.Lib.Program
import RngService.Lib.Residue

/-!
# Scaling random bytes to a range

The functions of `internal/scaling/range.go`, as programs over any signature
that offers the calls of the `RNG` interface. `RandFloat64` is left out: nothing
of the service calls it.

`randRange` is a rejection loop around one call. `run_randRange` describes its
runs against an RNG that returns eight bytes per call, and
`randRange_unbiased` adds the count of the words behind each value. `shuffle`
returns a permutation of its deck whatever the RNG returns (`wp_shuffle`).

With two bounds the number of values is computed in 64-bit arithmetic, which wraps.
`ExactRange` says that a range comes out right all the same.
-/

namespace Scaling

/-- The interface `scaling.RNG`: the call `Generate(n)`, and how its answer reads
as bytes or an error. -/
structure RNG (Op : Type) (Ret : Op → Type) where
  generate : UInt64 → Op
  result : ∀ {n : UInt64}, Ret (generate n) → Except GoError Bytes

section Programs

variable {Op : Type} {Ret : Op → Type} (rng : RNG Op Ret)

/-- `2^64 % max` in `uint64` arithmetic: the words below it are rejected. -/
def threshold (max : UInt64) : UInt64 := (-max) % max

/-- The loop of `RandRange` draws again: the word is below the threshold. -/
def rejected (max : UInt64) : Except GoError Bytes → Bool
  | .ok b => decide (Bytes.uint64 b < threshold max)
  | .error _ => false

/-- What the loop of `RandRange` returns on its last answer. -/
def scaled (max : UInt64) : Except GoError Bytes → Except GoError UInt64
  | .ok b => .ok (Bytes.uint64 b % max)
  | .error err => .error (.wrap "scaling: RandRange: %w" [] err)

/-- `RandRange`: its loop is one repeated call. -/
def randRange (max : UInt64) : ExceptT GoError (Prog Op Ret) UInt64 :=
  if max = 0 then throw (.text "scaling: RandRange: max must be > 0")
  else if max = 1 then pure 0
  else
    ExceptT.mk (.call (rng.generate 8) (fun r => rejected max (rng.result r))
      (fun r => .ret (scaled max (rng.result r))))

/-- `RandRangeInclusive`. -/
def randRangeInclusive (min max : UInt64) : ExceptT GoError (Prog Op Ret) UInt64 :=
  if max < min then
    throw (.errorf "scaling: RandRangeInclusive: min (%d) > max (%d)"
      [.int min.toNat, .int max.toNat])
  else do
    let n ← randRange rng (max - min + 1)
    return min + n

variable {α : Type}

/-- `deck[i], deck[j] = deck[j], deck[i]`. An index outside the deck is a run-time
panic; `shuffle` never draws one. -/
def swap (deck : List α) (i j : ℕ) : List α :=
  match deck[i]?, deck[j]? with
  | some a, some b => (deck.set i b).set j a
  | _, _ => deck

/-- The loop of `Shuffle` from index `i` down to 1. -/
def shuffleFrom : ℕ → List α → ExceptT GoError (Prog Op Ret) (List α)
  | 0, deck => pure deck
  | i + 1, deck => do
    let j ← Prog.mapError (.wrap "scaling: Shuffle: %w" [])
      (randRange rng (UInt64.ofNat (i + 1 + 1)))
    shuffleFrom i (swap deck (i + 1) j.toNat)

/-- `Shuffle`. The deck is shuffled in place; the program returns it. -/
def shuffle (deck : List α) : ExceptT GoError (Prog Op Ret) (List α) :=
  shuffleFrom rng (deck.length - 1) deck

end Programs

/-! ### The threshold -/

theorem toNat_pos {max : UInt64} (h : 1 ≤ max) : 0 < max.toNat := UInt64.le_iff_toNat_le.mp h

theorem ne_zero {max : UInt64} (h : 1 ≤ max) : max ≠ 0 := by
  rintro rfl
  exact absurd (toNat_pos h) (by decide)

theorem one_le_of_ne_zero {max : UInt64} (h : max ≠ 0) : 1 ≤ max := by
  rw [UInt64.le_iff_toNat_le]
  exact Nat.pos_of_ne_zero fun h0 => h (UInt64.toNat_inj.mp h0)

theorem two_le_of_ne_one {max : UInt64} (h : 1 ≤ max) (h1 : max ≠ 1) : 2 ≤ max := by
  rw [UInt64.le_iff_toNat_le] at h ⊢
  have hne : max.toNat ≠ 1 := fun hmax => h1 (UInt64.toNat_inj.mp hmax)
  have hge : 1 ≤ max.toNat := h
  show 2 ≤ max.toNat
  omega

theorem threshold_toNat {max : UInt64} (h : max ≠ 0) :
    (threshold max).toNat = 2 ^ 64 % max.toNat := by
  have hpos := toNat_pos (one_le_of_ne_zero h)
  have hlt := max.toNat_lt
  -- `-max` is `2^64 - max`, and `2^64 - max` has the residue of `2^64`
  have hneg : (-max).toNat = 2 ^ 64 - max.toNat := by
    rw [UInt64.toNat_neg]
    exact Nat.mod_eq_of_lt (Nat.sub_lt (by decide) hpos)
  rw [threshold, UInt64.toNat_mod, hneg]
  exact (Nat.mod_eq_sub_mod hlt.le).symm

/-- Every value is the residue of equally many accepted words. -/
theorem card_accepted {max : UInt64} (h : 1 ≤ max) {r : UInt64} (hr : r < max) :
    Nat.card {n : UInt64 // threshold max ≤ n ∧ n % max = r} = 2 ^ 64 / max.toNat := by
  -- words are counted as numbers below `2^64`
  have hiff : ∀ n : UInt64, (threshold max ≤ n ∧ n % max = r) ↔
      (2 ^ 64 % max.toNat ≤ n.toNat ∧ n.toNat % max.toNat = r.toNat) := by
    intro n
    rw [UInt64.le_iff_toNat_le, threshold_toNat (ne_zero h), ← UInt64.toNat_inj, UInt64.toNat_mod]
  simp only [hiff]
  rw [Residue.card_uint64 fun n => 2 ^ 64 % max.toNat ≤ n ∧ n % max.toNat = r.toNat]
  exact Residue.card_residue (UInt64.lt_iff_toNat_lt.mp hr) _

/-- Fewer than half of the words are rejected. -/
theorem card_rejected {max : UInt64} (h : 1 ≤ max) :
    Nat.card {n : UInt64 // n < threshold max} < 2 ^ 63 := by
  have hhalf := Residue.two_mul_mod_lt (toNat_pos h) max.toNat_lt.le
  simp only [UInt64.lt_iff_toNat_lt, threshold_toNat (ne_zero h)]
  rw [Residue.card_uint64 fun n => n < 2 ^ 64 % max.toNat]
  -- the rejected words are the numbers below the threshold
  have hsub : (Finset.range (2 ^ 64)).filter (fun n => n < 2 ^ 64 % max.toNat)
      ⊆ Finset.range (2 ^ 64 % max.toNat) :=
    fun n hn => Finset.mem_range.mpr (Finset.mem_filter.mp hn).2
  have hcard := Finset.card_le_card hsub
  rw [Finset.card_range] at hcard
  omega

/-! ### Runs against a source of words -/

/-- An RNG that returns eight bytes for `Generate(8)`. -/
structure Source (S : Type) where
  generate : UInt64 → S → Bytes × S
  length_generate : ∀ s, (generate 8 s).1.length = 8

/-- The calls of the interface, and nothing else. -/
inductive Call
  | generate (n : UInt64)

/-- The answer to a call. -/
abbrev Call.Ret : Call → Type := fun _ => Except GoError Bytes

/-- The interface over its own calls. -/
def RNG.self : RNG Call Call.Ret := ⟨.generate, id⟩

namespace Source

variable {S : Type} (src : Source S)

/-- The calls answered by the source. -/
def sem : Sem Call Call.Ret Unit S
  | .generate n, _, s => some (.ok (src.generate n s).1, (src.generate n s).2)

/-- The state after `k` calls `Generate(8)`. -/
def after : ℕ → S → S
  | 0, s => s
  | k + 1, s => after k (src.generate 8 s).2

/-- The `k`-th word of the stream. -/
def word (k : ℕ) (s : S) : UInt64 := Bytes.uint64 (src.generate 8 (src.after k s)).1

/-- `k` is the first place of the stream with a word of at least `t`. -/
def First (t : ℕ) (k : ℕ) (s : S) : Prop :=
  (∀ j < k, (src.word j s).toNat < t) ∧ t ≤ (src.word k s).toNat

theorem first_zero {t : ℕ} {s : S} : src.First t 0 s ↔ t ≤ (src.word 0 s).toNat := by
  simp [First]

theorem first_succ {t k : ℕ} {s : S} : src.First t (k + 1) s ↔
    (src.word 0 s).toNat < t ∧ src.First t k (src.generate 8 s).2 := by
  constructor
  · rintro ⟨hbelow, hk⟩
    exact ⟨hbelow 0 (Nat.succ_pos k), fun j hj => hbelow (j + 1) (Nat.succ_lt_succ hj), hk⟩
  · rintro ⟨h0, hbelow, hk⟩
    refine ⟨?_, hk⟩
    intro j hj
    cases j with
    | zero => exact h0
    | succ j => exact hbelow j (Nat.lt_of_succ_lt_succ hj)

/-- **The runs of `RandRange`.** It returns the residue of the first word that is
not rejected, after as many calls as it takes to reach that word. -/
theorem run_randRange {max : UInt64} (h : 2 ≤ max) {es : List Unit} {s : S}
    {x : Except GoError UInt64 × S} :
    Prog.run src.sem es (randRange .self max).run s = some x ↔
      ∃ k, src.First (2 ^ 64 % max.toNat) k s ∧ es.length = k + 1 ∧
        x = (.ok (src.word k s % max), src.after (k + 1) s) := by
  have h2 : 2 ≤ max.toNat := UInt64.le_iff_toNat_le.mp h
  have h0 : max ≠ 0 := by
    rintro rfl
    exact absurd h2 (by decide)
  have h1 : max ≠ 1 := by
    rintro rfl
    exact absurd h2 (by decide)
  rw [randRange, if_neg h0, if_neg h1]
  -- one call for each input: the loop goes on while the word is rejected
  induction es generalizing s with
  | nil => simp [ExceptT.mk, ExceptT.run, Prog.run]
  | cons e es ih =>
    -- the first word is rejected exactly if it is below the threshold
    have hrej : rejected max (.ok (src.generate 8 s).1) = true ↔
        (src.word 0 s).toNat < 2 ^ 64 % max.toNat := by
      rw [rejected, decide_eq_true_iff, UInt64.lt_iff_toNat_lt, threshold_toNat h0]
      rfl
    rw [ExceptT.run_mk, Prog.run_cons_call]
    constructor
    · rintro ⟨r, s', hsem, hrest⟩
      obtain ⟨rfl, rfl⟩ := Prod.mk.inj (Option.some.inj hsem)
      split at hrest
      · next hr =>
        obtain ⟨k, hfirst, hlen, rfl⟩ := ih.mp hrest
        exact ⟨k + 1, src.first_succ.mpr ⟨hrej.mp hr, hfirst⟩, by simp [hlen], rfl⟩
      · next hr =>
        obtain ⟨rfl, rfl⟩ := Prog.run_ret.mp hrest
        exact ⟨0, src.first_zero.mpr (not_lt.mp fun hlt => hr (hrej.mpr hlt)), rfl, rfl⟩
    · rintro ⟨k, hfirst, hlen, rfl⟩
      refine ⟨_, _, rfl, ?_⟩
      cases k with
      | zero =>
        have hr : ¬ rejected max (.ok (src.generate 8 s).1) = true :=
          fun hr => absurd (src.first_zero.mp hfirst) (not_le.mpr (hrej.mp hr))
        obtain rfl : es = [] := by simpa using hlen
        show Prog.run src.sem [] (if rejected max (.ok (src.generate 8 s).1) = true then _ else _) _
          = some _
        rw [if_neg hr]
        rfl
      | succ k =>
        obtain ⟨h0', hfirst'⟩ := src.first_succ.mp hfirst
        show Prog.run src.sem es (if rejected max (.ok (src.generate 8 s).1) = true then _ else _) _
          = some _
        rw [if_pos (hrej.mpr h0')]
        exact ih.mpr ⟨k, hfirst', by simpa using hlen, rfl⟩

end Source

/-- **`RandRange` is unbiased.** Against any RNG that returns eight bytes per
call, the value is the residue of the first word `n ≥ 2^64 mod max` of the stream
(0, without a call, for `max = 1`), so it is below `max`; each residue belongs to
`⌊2^64 / max⌋` accepted words, and fewer than `2^63` words are rejected. -/
theorem randRange_unbiased {S : Type} (src : Source S) {max : UInt64} (h : 1 ≤ max) :
    (∀ (es : List Unit) (s : S) (x : Except GoError UInt64 × S),
      Prog.run src.sem es (randRange .self max).run s = some x ↔
        if max = 1 then es = [] ∧ x = (.ok 0, s)
        else ∃ k, src.First (2 ^ 64 % max.toNat) k s ∧ es.length = k + 1 ∧
          x = (.ok (src.word k s % max), src.after (k + 1) s)) ∧
    (∀ (es : List Unit) (s : S) (v : UInt64) (s' : S),
      Prog.run src.sem es (randRange .self max).run s = some (.ok v, s') → v < max) ∧
    (∀ r < max, Nat.card {n : UInt64 // 2 ^ 64 % max.toNat ≤ n.toNat ∧ n % max = r}
      = 2 ^ 64 / max.toNat) ∧
    Nat.card {n : UInt64 // n.toNat < 2 ^ 64 % max.toNat} < 2 ^ 63 := by
  have hruns : ∀ (es : List Unit) (s : S) (x : Except GoError UInt64 × S),
      Prog.run src.sem es (randRange .self max).run s = some x ↔
        if max = 1 then es = [] ∧ x = (.ok 0, s)
        else ∃ k, src.First (2 ^ 64 % max.toNat) k s ∧ es.length = k + 1 ∧
          x = (.ok (src.word k s % max), src.after (k + 1) s) := by
    intro es s x
    split
    · next h1 =>
      subst h1
      exact Prog.run_ret
    · next h1 => exact src.run_randRange (two_le_of_ne_one h h1)
  refine ⟨hruns, ?_, ?_, ?_⟩
  · intro es s v s' hrun
    rw [hruns] at hrun
    split at hrun
    · next h1 =>
      obtain ⟨rfl, -⟩ : v = 0 ∧ s' = s := by simpa using hrun.2
      rw [h1]
      decide
    · obtain ⟨k, -, -, heq⟩ := hrun
      obtain ⟨rfl, -⟩ : v = src.word k s % max ∧ s' = src.after (k + 1) s := by simpa using heq
      exact UInt64.mod_lt _ (toNat_pos h)
  · intro r hr
    have hcard := card_accepted h hr
    simpa only [UInt64.le_iff_toNat_le, threshold_toNat (ne_zero h)] using hcard
  · have hcard := card_rejected h
    simpa only [UInt64.lt_iff_toNat_lt, threshold_toNat (ne_zero h)] using hcard

/-- The source that counts: its words are 0, 1, 2, … -/
def Source.counter : Source ℕ where
  generate n s := (Bytes.beBytes n.toNat s, s + 1)
  length_generate s := Bytes.length_beBytes 8 s

/-- For `max = 6` the words 0 to 3 are rejected; counting from 0, the fifth call
returns 4. -/
theorem randRange_unbiased_counter :
    Prog.run Source.counter.sem [(), (), (), (), ()] (randRange .self 6).run 0 = some (.ok 4, 5) ∧
      Nat.card {n : UInt64 // 2 ^ 64 % (6 : UInt64).toNat ≤ n.toNat ∧ n % 6 = 4}
        = 2 ^ 64 / (6 : UInt64).toNat := by
  obtain ⟨hruns, -, hcard, -⟩ := @randRange_unbiased ℕ Source.counter 6 (by decide)
  refine ⟨(hruns _ _ _).mpr ?_, hcard 4 (by decide)⟩
  rw [if_neg (by decide)]
  refine ⟨4, ⟨?_, ?_⟩, rfl, ?_⟩
  · intro j hj
    interval_cases j <;> decide
  · decide
  · decide

/-! ### What holds of any RNG -/

section AnyRNG

variable {Op : Type} {Ret : Op → Type} {rng : RNG Op Ret} {Q α : Type} {M : Prog.Model Op Ret Q}
  {I : Q → Prop}

/-- The model allows a draw wherever `I` holds, and a draw keeps `I`. -/
def Draws (M : Prog.Model Op Ret Q) (rng : RNG Op Ret) (I : Q → Prop) : Prop :=
  ∀ q, I q → M.allowed (rng.generate 8) q ∧ ∀ r q', M.step (rng.generate 8) q r q' → I q'

/-- The value returned is the residue of a word that is not rejected. -/
theorem wp_randRange_word (hd : Draws M rng I) {max : UInt64} {q : Q} (hq : I q) :
    Prog.WP M (randRange rng max).run (fun r q' => I q' ∧ ∀ n, r = .ok n →
      1 ≤ max ∧ ∃ w, threshold max ≤ w ∧ n = w % max) q := by
  unfold randRange
  split
  · exact Prog.WP.throwE ⟨hq, fun n hn => by cases hn⟩
  · next h0 =>
    have hpos : 1 ≤ max := by
      rw [UInt64.le_iff_toNat_le]
      exact Nat.pos_of_ne_zero fun h => h0 (UInt64.toNat_inj.mp h)
    split
    · next h1 =>
      refine Prog.WP.pureE ⟨hq, ?_⟩
      intro n hn
      obtain rfl := Except.ok.inj hn
      subst h1
      exact ⟨hpos, 0, by decide, rfl⟩
    -- `I` is the invariant of the rejection loop
    · refine ⟨I, hq, fun q₁ hq₁ => ⟨(hd q₁ hq₁).1, fun r q₂ hstep => ?_⟩⟩
      have hI := (hd q₁ hq₁).2 r q₂ hstep
      split
      · exact hI
      · next hrej =>
        refine ⟨hI, ?_⟩
        intro n hn
        cases hr : rng.result r with
        | error err => rw [hr] at hn; cases hn
        | ok b =>
          have hrej' : ¬ rejected max (rng.result r) = true := hrej
          rw [hr] at hn hrej'
          obtain rfl := Except.ok.inj hn
          -- the loop ends with a word that is not below the threshold
          exact ⟨hpos, _, by simpa [rejected] using hrej', rfl⟩

theorem wp_randRange (hd : Draws M rng I) {max : UInt64} {q : Q} (hq : I q) :
    Prog.WP M (randRange rng max).run (fun r q' => I q' ∧ ∀ n, r = .ok n → n < max) q := by
  refine (wp_randRange_word hd hq).mono ?_
  rintro r q' ⟨hI, hword⟩
  refine ⟨hI, fun n hn => ?_⟩
  obtain ⟨hpos, w, -, rfl⟩ := hword n hn
  exact UInt64.mod_lt _ (toNat_pos hpos)

theorem swap_perm (deck : List α) (i j : ℕ) : (swap deck i j).Perm deck := by
  unfold swap
  split
  · next a b ha hb =>
    obtain ⟨hi, rfl⟩ := List.getElem?_eq_some_iff.mp ha
    obtain ⟨hj, rfl⟩ := List.getElem?_eq_some_iff.mp hb
    exact List.set_set_perm hi hj
  · exact List.Perm.refl deck

theorem wp_shuffleFrom (hd : Draws M rng I) (i : ℕ) (deck : List α) {q : Q} (hq : I q) :
    Prog.WP M (shuffleFrom rng i deck).run
      (fun r q' => I q' ∧ ∀ d, r = .ok d → d.Perm deck) q := by
  induction i generalizing deck q with
  | zero =>
    refine Prog.WP.pureE ⟨hq, ?_⟩
    intro d hd'
    obtain rfl := Except.ok.inj hd'
    exact List.Perm.refl deck
  | succ i ih =>
    refine Prog.WP.bindE (Prog.WP.mapErrorE ((wp_randRange hd hq).mono ?_))
    rintro r q' ⟨hI, -⟩
    cases r with
    | error err => exact ⟨hI, fun d hd' => by cases hd'⟩
    | ok j =>
      refine (ih (swap deck (i + 1) j.toNat) hI).mono ?_
      rintro r q'' ⟨hI', hperm⟩
      exact ⟨hI', fun d hd' => (hperm d hd').trans (swap_perm deck _ _)⟩

/-- **A shuffled deck is a permutation of the deck.** -/
theorem wp_shuffle (hd : Draws M rng I) (deck : List α) {q : Q} (hq : I q) :
    Prog.WP M (shuffle rng deck).run (fun r q' => I q' ∧ ∀ d, r = .ok d → d.Perm deck) q :=
  wp_shuffleFrom hd _ deck hq

/-- The model allows a draw wherever `I` holds, and a draw succeeds and keeps `I`. -/
def DrawsOk (M : Prog.Model Op Ret Q) (rng : RNG Op Ret) (I : Q → Prop) : Prop :=
  ∀ q, I q → M.allowed (rng.generate 8) q ∧
    ∀ r q', M.step (rng.generate 8) q r q' → I q' ∧ ∃ b, rng.result r = .ok b

variable {F : Q → Prop}

/-- Where no draw fails, `RandRange` only fails on the empty range. -/
theorem keepsOr_randRange (hd : DrawsOk M rng I) {max : UInt64} (hmax : max ≠ 0) :
    Prog.KeepsOr M I F (fun _ => True) (randRange rng max) := by
  intro q hq
  rw [randRange, if_neg hmax]
  split
  · exact Prog.KeepsOr.pureE trivial q hq
  -- `I` is the invariant of the rejection loop
  · refine ⟨I, hq, fun q₁ hq₁ => ⟨(hd q₁ hq₁).1, fun r q₂ hstep => ?_⟩⟩
    obtain ⟨hI, b, hb⟩ := (hd q₁ hq₁).2 r q₂ hstep
    split
    · exact hI
    · rw [Prog.WP.ret_iff, hb]
      exact ⟨hI, trivial⟩

theorem keepsOr_shuffleFrom (hd : DrawsOk M rng I) (i : ℕ) (hi : i < 2 ^ 63) (deck : List α) :
    Prog.KeepsOr M I F (fun _ => True) (shuffleFrom rng i deck) := by
  induction i generalizing deck with
  | zero => exact Prog.KeepsOr.pureE trivial
  | succ i ih =>
    have hmax : UInt64.ofNat (i + 1 + 1) ≠ 0 := by
      rw [Ne, ← UInt64.toNat_inj, UInt64.toNat_ofNat_of_lt' (show _ < 2 ^ 64 by omega),
        UInt64.toNat_zero]
      omega
    exact Prog.KeepsOr.bindE (Prog.KeepsOr.mapErrorE (keepsOr_randRange hd hmax))
      fun j _ => ih (by omega) _

/-- Where no draw fails, `Shuffle` does not fail. -/
theorem keepsOr_shuffle (hd : DrawsOk M rng I) {deck : List α} (hdeck : deck.length < 2 ^ 63) :
    Prog.KeepsOr M I F (fun _ => True) (shuffle rng deck) :=
  keepsOr_shuffleFrom hd _ (by omega) deck

end AnyRNG

/-! ### Ranges with two bounds -/

/-- **A range without bias.** `span` is the number of integers from `lo` to `hi`,
`value` maps the numbers below `span` one to one to them, and each of them is the value
of equally many of the words that are not rejected. -/
structure ExactRange (lo hi : ℤ) (span : UInt64) (value : UInt64 → ℤ) : Prop where
  size : (span.toNat : ℤ) = hi - lo + 1
  bijOn : Set.BijOn value {n | n < span} (Set.Icc lo hi)
  words : ∀ v ∈ Set.Icc lo hi,
    Nat.card {w : UInt64 // 2 ^ 64 % span.toNat ≤ w.toNat ∧ value (w % span) = v}
      = 2 ^ 64 / span.toNat

/-- A range whose values are offsets from its lower bound. -/
theorem ExactRange.of_offset {lo hi : ℤ} {span : UInt64} {value : UInt64 → ℤ} (hpos : 1 ≤ span)
    (hspan : (span.toNat : ℤ) = hi - lo + 1) (hvalue : ∀ n < span, value n = lo + n.toNat) :
    ExactRange lo hi span value := by
  have hmod : ∀ w : UInt64, w % span < span := fun w => UInt64.mod_lt w (toNat_pos hpos)
  -- every integer of the range is an offset below the span
  have hoffset : ∀ v ∈ Set.Icc lo hi, ∃ n < span, (n.toNat : ℤ) = v - lo := by
    intro v hv
    rw [Set.mem_Icc] at hv
    have hn : (UInt64.ofNat (v - lo).toNat).toNat = (v - lo).toNat :=
      UInt64.toNat_ofNat_of_lt' (lt_of_lt_of_le (by omega) span.toNat_lt.le)
    refine ⟨UInt64.ofNat (v - lo).toNat, ?_, ?_⟩
    · rw [UInt64.lt_iff_toNat_lt, hn]
      omega
    · rw [hn]
      omega
  refine ⟨hspan, ⟨?_, ?_, ?_⟩, ?_⟩
  · intro n hn
    have hlt := UInt64.lt_iff_toNat_lt.mp hn
    rw [hvalue n hn, Set.mem_Icc]
    omega
  · intro n hn m hm heq
    have heq' : value n = value m := heq
    rw [hvalue n hn, hvalue m hm] at heq'
    exact UInt64.toNat_inj.mp (by omega)
  · intro v hv
    obtain ⟨n, hn, heq⟩ := hoffset v hv
    exact ⟨n, hn, by rw [hvalue n hn, heq]; omega⟩
  · intro v hv
    obtain ⟨n, hn, heq⟩ := hoffset v hv
    -- a word has the value `v` exactly if its residue is the offset of `v`
    have hiff : ∀ w : UInt64, (2 ^ 64 % span.toNat ≤ w.toNat ∧ value (w % span) = v) ↔
        threshold span ≤ w ∧ w % span = n := by
      intro w
      rw [UInt64.le_iff_toNat_le, threshold_toNat (ne_zero hpos), hvalue _ (hmod w),
        ← UInt64.toNat_inj]
      refine and_congr_right fun _ => ?_
      omega
    simp only [hiff]
    exact card_accepted hpos hn

/-- The span of two bounds wraps to 0 or is exact. -/
theorem toNat_sub_add_one {min max : UInt64} (h : min ≤ max) (hpos : 1 ≤ max - min + 1) :
    (max - min + 1).toNat = max.toNat - min.toNat + 1 := by
  have hsub := UInt64.toNat_sub_of_le _ _ h
  have hpos' := toNat_pos hpos
  have hlt := max.toNat_lt
  rw [UInt64.toNat_add, hsub, UInt64.toNat_one] at hpos' ⊢
  -- otherwise the sum would be `2^64`, and wrap to 0
  omega

/-! ### Ranges that are served -/

section Reliable

variable {Op : Type} {Ret : Op → Type} {E S : Type}

/-- The generator, called again and again from the state on, answers with a word that
`RandRange(max)` accepts. -/
inductive Yields (sem : Sem Op Ret E S) (rng : RNG Op Ret) (max : UInt64) : S → Prop
  | accepted {s s' : S} {e : E} {r : Ret (rng.generate 8)} {b : Bytes} :
    sem (rng.generate 8) e s = some (r, s') → rng.result r = .ok b →
    threshold max ≤ Bytes.uint64 b → Yields sem rng max s
  | rejected {s s' : S} {e : E} {r : Ret (rng.generate 8)} {b : Bytes} :
    sem (rng.generate 8) e s = some (r, s') → rng.result r = .ok b →
    Bytes.uint64 b < threshold max → Yields sem rng max s' → Yields sem rng max s

/-- The generator never fails, and eventually yields a word that `RandRange(max)` accepts. -/
structure Reliable (sem : Sem Op Ret E S) (rng : RNG Op Ret) (max : UInt64) : Prop where
  ok : ∀ e s r s', sem (rng.generate 8) e s = some (r, s') → ∃ b, rng.result r = .ok b
  yields : ∀ s, Yields sem rng max s

variable {sem : Sem Op Ret E S} {rng : RNG Op Ret} {max : UInt64}

/-- **`RandRange` serves every range but the empty one.** -/
theorem succeeds_randRange (h : Reliable sem rng max) (hmax : max ≠ 0) (s : S) :
    Prog.Succeeds sem (randRange rng max) (fun n _ => n < max) s := by
  have hpos := one_le_of_ne_zero hmax
  rw [randRange, if_neg hmax]
  split
  · next h1 =>
    refine Prog.Succeeds.pureE ?_
    rw [h1]
    decide
  · refine ⟨?_, fun es r s' hrun => ?_⟩
    -- the loop ends with the word that is accepted
    · induction h.yields s with
      | @accepted s s' e r b hsem hb hw =>
        refine ⟨[e], scaled max (rng.result r), s', Prog.run_cons_call.mpr ⟨r, s', hsem, ?_⟩⟩
        have hrej : ¬ rejected max (rng.result r) = true := by
          rw [hb, rejected, decide_eq_true_iff]
          exact UInt64.not_lt.mpr hw
        rw [if_neg hrej]
        rfl
      | @rejected s s' e r b hsem hb hw _ ih =>
        obtain ⟨es, x, s'', hrun⟩ := ih
        refine ⟨e :: es, x, s'', Prog.run_cons_call.mpr ⟨r, s', hsem, ?_⟩⟩
        have hrej : rejected max (rng.result r) = true := by
          rw [hb, rejected, decide_eq_true_iff]
          exact hw
        rw [if_pos hrej]
        exact hrun
    -- no answer is an error
    · have hwp : Prog.WP (Prog.Model.ofSem sem) (ExceptT.mk (.call (rng.generate 8)
          (fun r => rejected max (rng.result r)) fun r => .ret (scaled max (rng.result r)))).run
          (fun r _ => ∃ n, r = .ok n ∧ n < max) s := by
        refine ⟨fun _ => True, trivial, fun s₁ _ => ⟨trivial, ?_⟩⟩
        rintro r s₂ ⟨e, hsem⟩
        split
        · trivial
        · obtain ⟨b, hb⟩ := h.ok e s₁ r s₂ hsem
          exact ⟨_, by rw [hb]; rfl, UInt64.mod_lt _ (toNat_pos hpos)⟩
      exact hwp.run_sound hrun

/-- What `RandRange` says of the empty range. -/
def maxZero : GoError := .text "scaling: RandRange: max must be > 0"

/-- The value of `RandRangeInclusive` is in range, if its span has not wrapped to 0. -/
theorem succeeds_randRangeInclusive {min : UInt64} (h : Reliable sem rng (max - min + 1))
    (hle : min ≤ max) (hspan : max - min + 1 ≠ 0) (s : S) :
    Prog.Succeeds sem (randRangeInclusive rng min max) (fun v _ => min ≤ v ∧ v ≤ max) s := by
  rw [randRangeInclusive, if_neg (UInt64.not_lt.mpr hle)]
  refine Prog.Succeeds.bindE ((succeeds_randRange h hspan s).mono fun n s' hn => ?_)
  have hpos := one_le_of_ne_zero hspan
  have hsize := toNat_sub_add_one hle hpos
  have hlt := UInt64.lt_iff_toNat_lt.mp hn
  have hle' := UInt64.le_iff_toNat_le.mp hle
  have hmax := max.toNat_lt
  have hsum : (min + n).toNat = min.toNat + n.toNat := by
    rw [UInt64.toNat_add]
    exact Nat.mod_eq_of_lt (by omega)
  refine Prog.Succeeds.pureE ⟨?_, ?_⟩
  · rw [UInt64.le_iff_toNat_le, hsum]
    exact Nat.le_add_right _ _
  · rw [UInt64.le_iff_toNat_le, hsum]
    omega

/-- For no other `max` it returns this error, whatever the generator answers. -/
theorem wp_randRange_maxZero (hmax : max ≠ 0) (s : S) :
    Prog.WP (Prog.Model.ofSem sem) (randRange rng max).run (fun r _ => r ≠ .error maxZero) s := by
  rw [randRange, if_neg hmax]
  split
  · exact Prog.WP.pureE fun h => by cases h
  · refine ⟨fun _ => True, trivial, fun s₁ _ => ⟨trivial, fun r s₂ _ => ?_⟩⟩
    split
    · trivial
    · show scaled max (rng.result r) ≠ _
      cases rng.result r <;> exact fun h => by cases h

/-- **The range from `min` to `max` is served** by `RandRangeInclusive`. -/
structure ServesInclusive (min max : UInt64) : Prop where
  span_ne : max - min + 1 ≠ 0
  succeeds : ∀ {Op : Type} {Ret : Op → Type} {E S : Type} (sem : Sem Op Ret E S)
    (rng : RNG Op Ret), Reliable sem rng (max - min + 1) → ∀ s,
    Prog.Succeeds sem (randRangeInclusive rng min max) (fun v _ => min ≤ v ∧ v ≤ max) s
  never : ∀ {Op : Type} {Ret : Op → Type} {E S : Type} (sem : Sem Op Ret E S)
    (rng : RNG Op Ret) es s s',
    Prog.run sem es (randRangeInclusive rng min max).run s ≠ some (.error maxZero, s')

/-- The span of the full range wraps to 0, and no other one does. -/
theorem sub_add_one_eq_zero {min max : UInt64} (h : min ≤ max) :
    max - min + 1 = 0 ↔ min.toNat = 0 ∧ max.toNat = 2 ^ 64 - 1 := by
  have hle := UInt64.le_iff_toNat_le.mp h
  have hmax := max.toNat_lt
  rw [← UInt64.toNat_inj, UInt64.toNat_add, UInt64.toNat_sub_of_le _ _ h, UInt64.toNat_one,
    UInt64.toNat_zero]
  omega

theorem servesInclusive_iff {min max : UInt64} (h : min ≤ max) :
    ServesInclusive min max ↔ ¬ (min.toNat = 0 ∧ max.toNat = 2 ^ 64 - 1) := by
  rw [← sub_add_one_eq_zero h]
  refine ⟨fun hserves => hserves.span_ne, fun hspan => ⟨hspan, ?_, ?_⟩⟩
  · exact fun sem rng hrel s => succeeds_randRangeInclusive hrel h hspan s
  · intro Op Ret E S sem rng es s s' hrun
    rw [randRangeInclusive, if_neg (UInt64.not_lt.mpr h)] at hrun
    -- the error would be the one of `RandRange`
    have hwp : Prog.WP (Prog.Model.ofSem sem) (do
        let n ← randRange rng (max - min + 1)
        return min + n : ExceptT GoError (Prog Op Ret) UInt64).run
        (fun r _ => r ≠ .error maxZero) s := by
      refine Prog.WP.bindE ((wp_randRange_maxZero hspan s).mono fun r s₁ hr => ?_)
      cases r with
      | error err => exact fun heq => hr (congrArg Except.error (Except.error.inj heq))
      | ok n => exact Prog.WP.pureE fun heq => by cases heq
    exact hwp.run_sound hrun rfl

end Reliable

end Scaling
