import Mathlib
import RngService.Lib.FisherYates
import RngService.Scaling.Range

/-!
# The shuffle is fair

`Shuffle` is the downward loop of swaps that `FisherYates` describes. A run of it
succeeds exactly when its calls of `RandRange` return a sequence of draws (`Drawn`),
and it fills each place from the place that `rearrangement` gives (`run_shuffle`).
Draws and permutations correspond one to one, and each draw belongs to equally many
accepted words, so every permutation of the deck is equally likely (`shuffle_fair`).
-/

namespace Scaling

open FisherYates

variable {Op : Type} {Ret : Op → Type} {rng : RNG Op Ret} {E S α : Type} {sem : Sem Op Ret E S}

/-! ### The swaps of a sequence of draws -/

/-- The deck after the swaps of a sequence of draws. -/
def swaps : List ℕ → List α → List α
  | [], deck => deck
  | j :: js, deck => swaps js (swap deck (js.length + 1) j)

/-- A swap fills each place from its image under the transposition. -/
theorem getElem?_swap (deck : List α) {i j : ℕ} (hi : i < deck.length) (hj : j < deck.length)
    (k : ℕ) : (swap deck i j)[k]? = deck[Equiv.swap i j k]? := by
  rw [swap, List.getElem?_eq_getElem hi, List.getElem?_eq_getElem hj]
  simp only [List.getElem?_set, List.length_set, Equiv.swap_apply_def]
  -- `k` is the second place, the first one, or neither
  by_cases hkj : k = j
  · subst hkj
    by_cases hki : k = i
    · subst hki
      simp [hi]
    · simp [hki, hi, hj]
  · by_cases hki : k = i
    · subst hki
      simp [Ne.symm hkj, hi, hj]
    · simp [Ne.symm hkj, Ne.symm hki, hki, hkj]

theorem length_swap (deck : List α) (i j : ℕ) : (swap deck i j).length = deck.length :=
  (swap_perm deck i j).length_eq

/-- **The swaps add up to the permutation of the draws.** -/
theorem getElem?_swaps {js : List ℕ} {deck : List α} (h : Valid js)
    (hlen : js.length ≤ deck.length - 1) (k : ℕ) :
    (swaps js deck)[k]? = deck[positions js k]? := by
  induction js generalizing deck with
  | nil => rfl
  | cons j js ih =>
    obtain ⟨hj, hjs⟩ := h
    rw [List.length_cons] at hlen
    rw [swaps, ih hjs (by rw [length_swap]; omega), positions_cons, Equiv.Perm.mul_apply]
    exact getElem?_swap deck (by omega) (by omega) _

/-- The shuffled deck, place by place. -/
theorem swaps_eq_ofFn (deck : List α) (d : DrawSeq deck.length) :
    swaps d.1 deck = List.ofFn fun k => deck.get (rearrangement d k) := by
  refine List.ext_getElem? fun k => ?_
  rw [getElem?_swaps d.2.2 d.2.1.le]
  rcases Nat.lt_or_ge k deck.length with hk | hk
  · have hlt : positions d.1 k < deck.length := (rearrangement d ⟨k, hk⟩).isLt
    rw [List.getElem?_ofFn, dif_pos hk, List.getElem?_eq_getElem hlt]
    rfl
  · rw [d.positions_of_le hk, List.getElem?_eq_none hk, List.getElem?_ofFn, dif_neg (not_lt.mpr hk)]

/-! ### The runs of the shuffle -/

/-- The calls of `RandRange` in the loop return the draws, in their order. -/
def Drawn (sem : Sem Op Ret E S) (rng : RNG Op Ret) : List ℕ → List E → S → S → Prop
  | [], es, s, s' => es = [] ∧ s' = s
  | j :: js, es, s, s' => ∃ es₁ es₂ v s₁, es = es₁ ++ es₂ ∧
      Prog.run sem es₁ (randRange rng (UInt64.ofNat (js.length + 1 + 1))).run s = some (.ok v, s₁) ∧
      v.toNat = j ∧ Drawn sem rng js es₂ s₁ s'

/-- Whatever the RNG answers, `RandRange` returns a value below its bound. -/
theorem lt_of_run_randRange {max v : UInt64} {es : List E} {s s' : S}
    (h : Prog.run sem es (randRange rng max).run s = some (.ok v, s')) : v < max := by
  have hd : Draws (Prog.Model.ofSem sem) rng fun _ => True :=
    fun _ _ => ⟨trivial, fun _ _ _ => trivial⟩
  exact ((wp_randRange hd trivial).run_sound h).2 v rfl

/-- The values that are drawn are draws. -/
theorem Drawn.valid {js : List ℕ} {es : List E} {s s' : S} (h : Drawn sem rng js es s s')
    (hlen : js.length + 1 < 2 ^ 64) : Valid js := by
  induction js generalizing es s with
  | nil => trivial
  | cons j js ih =>
    obtain ⟨es₁, es₂, v, s₁, -, hrun, rfl, hrest⟩ := h
    rw [List.length_cons] at hlen
    have hv := UInt64.lt_iff_toNat_lt.mp (lt_of_run_randRange hrun)
    rw [UInt64.toNat_ofNat_of_lt' hlen] at hv
    exact ⟨Nat.lt_succ_iff.mp hv, ih hrest (by omega)⟩

/-- A run of the loop succeeds when all its draws do, and swaps by them. -/
theorem run_shuffleFrom {i : ℕ} {deck deck' : List α} {es : List E} {s s' : S} :
    Prog.run sem es (shuffleFrom rng i deck).run s = some (.ok deck', s') ↔
      ∃ js, js.length = i ∧ Drawn sem rng js es s s' ∧ deck' = swaps js deck := by
  induction i generalizing deck es s with
  | zero =>
    constructor
    · intro h
      obtain ⟨rfl, heq⟩ := Prog.run_ret.mp h
      obtain ⟨hd, rfl⟩ := Prod.mk.inj heq
      exact ⟨[], rfl, ⟨rfl, rfl⟩, Except.ok.inj hd⟩
    · rintro ⟨js, hlen, hdrawn, rfl⟩
      obtain rfl := List.length_eq_zero_iff.mp hlen
      obtain ⟨rfl, rfl⟩ := hdrawn
      rfl
  | succ i ih =>
    -- one draw and one swap, then the rest of the loop
    rw [shuffleFrom, Prog.run_bindE_ok]
    simp only [Prog.run_mapError_ok, ih]
    constructor
    · rintro ⟨es₁, es₂, v, s₁, rfl, hrun, js, rfl, hdrawn, rfl⟩
      exact ⟨v.toNat :: js, rfl, ⟨es₁, es₂, v, s₁, rfl, hrun, rfl, hdrawn⟩, rfl⟩
    · rintro ⟨js, hlen, hdrawn, rfl⟩
      cases js with
      | nil => cases hlen
      | cons j js =>
        obtain rfl : js.length = i := Nat.succ.inj hlen
        obtain ⟨es₁, es₂, v, s₁, rfl, hrun, rfl, hrest⟩ := hdrawn
        exact ⟨es₁, es₂, v, s₁, rfl, hrun, js, rfl, hrest, rfl⟩

/-- **The runs of `Shuffle`**, against any RNG. -/
theorem run_shuffle {deck deck' : List α} (hlen : deck.length < 2 ^ 63) {es : List E} {s s' : S} :
    Prog.run sem es (shuffle rng deck).run s = some (.ok deck', s') ↔
      ∃ d : DrawSeq deck.length, Drawn sem rng d.1 es s s' ∧
        deck' = List.ofFn fun k => deck.get (rearrangement d k) := by
  rw [shuffle, run_shuffleFrom]
  constructor
  · rintro ⟨js, hjs, hdrawn, rfl⟩
    exact ⟨⟨js, hjs, hdrawn.valid (by omega)⟩, hdrawn, swaps_eq_ofFn deck ⟨js, _⟩⟩
  · rintro ⟨d, hdrawn, rfl⟩
    exact ⟨d.1, d.2.1, hdrawn, (swaps_eq_ofFn deck d).symm⟩

/-- **`Shuffle` is a fair permutation.** For decks of any length the sequences of draws
correspond one to one to the permutations of the places. Against any RNG, a run of
`Shuffle` returns a deck exactly when its calls of `RandRange` return a sequence of
draws and the deck is rearranged by the permutation of that sequence. Each draw at
index `i` belongs to `⌊2^64 / (i + 1)⌋` accepted words. -/
theorem shuffle_fair (sem : Sem Op Ret E S) (rng : RNG Op Ret) (deck : List α)
    (hlen : deck.length < 2 ^ 63) :
    (∀ n, Function.Bijective (rearrangement : DrawSeq n → Equiv.Perm (Fin n))) ∧
    (∀ (es : List E) (s s' : S) (deck' : List α),
      Prog.run sem es (shuffle rng deck).run s = some (.ok deck', s') ↔
        ∃ d : DrawSeq deck.length, Drawn sem rng d.1 es s s' ∧
          deck' = List.ofFn fun k => deck.get (rearrangement d k)) ∧
    ∀ i < deck.length, ∀ j ≤ i,
      Nat.card {w : UInt64 // threshold (UInt64.ofNat (i + 1)) ≤ w ∧
        w % UInt64.ofNat (i + 1) = UInt64.ofNat j} = 2 ^ 64 / (i + 1) := by
  refine ⟨rearrangement_bijective, fun es s s' deck' => run_shuffle hlen, fun i hi j hj => ?_⟩
  have hsize : i + 1 < 2 ^ 64 := by omega
  have hmax : (UInt64.ofNat (i + 1)).toNat = i + 1 := UInt64.toNat_ofNat_of_lt' hsize
  have hdraw : (UInt64.ofNat j).toNat = j :=
    UInt64.toNat_ofNat_of_lt' ((Nat.lt_succ_of_le hj).trans hsize)
  have hpos : 1 ≤ UInt64.ofNat (i + 1) := by
    rw [UInt64.le_iff_toNat_le, hmax]
    exact Nat.le_add_left 1 i
  have hlt : UInt64.ofNat j < UInt64.ofNat (i + 1) := by
    rw [UInt64.lt_iff_toNat_lt, hmax, hdraw]
    exact Nat.lt_succ_of_le hj
  have hcard := card_accepted hpos hlt
  rwa [hmax] at hcard

/-- Three cards and the words 0, 1, 2: the first word is rejected, the draws are 1 and
0, and the last card comes first. -/
theorem shuffle_fair_counter :
    Prog.run Source.counter.sem [(), (), ()] (shuffle .self ["a", "b", "c"]).run 0
        = some (.ok ["c", "a", "b"], 3) ∧
      ∃ d : DrawSeq 3, Drawn Source.counter.sem .self d.1 [(), (), ()] 0 3 := by
  have hrun : Prog.run Source.counter.sem [(), (), ()] (shuffle .self ["a", "b", "c"]).run 0
      = some (.ok ["c", "a", "b"], 3) := by
    rfl
  obtain ⟨-, hruns, -⟩ := shuffle_fair Source.counter.sem .self ["a", "b", "c"] (by decide)
  obtain ⟨d, hdrawn, -⟩ := (hruns _ _ _ _).mp hrun
  exact ⟨hrun, d, hdrawn⟩

end Scaling
