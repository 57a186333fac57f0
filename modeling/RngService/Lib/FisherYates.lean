import Mathlib

/-!
# Fisher-Yates draws

A deck is shuffled from its top index down to index 1: at index `i` a draw `j ≤ i`
swaps the places `i` and `j`. A list `[j_m, …, j_1]` is a sequence of such draws
(`Valid`); the index of a draw is the number of draws from it to the end of the list.
`positions` is the permutation of the places that the swaps add up to.

No swap after the first one touches the top place, so the first draw is the image of
the top place, and removing it leaves a permutation of the places below. Hence each
permutation of the places up to `m` comes from one sequence of `m` draws
(`exists_unique_draws`), and `rearrangement` is a bijection from the draws for a deck of
`n` places to the permutations of `n` places (`rearrangement_bijective`).
-/

namespace FisherYates

/-- Every draw is at most its index. -/
def Valid : List ℕ → Prop
  | [] => True
  | j :: js => j ≤ js.length + 1 ∧ Valid js

/-- The place that each place is filled from. -/
def positions : List ℕ → Equiv.Perm ℕ
  | [] => 1
  | j :: js => Equiv.swap (js.length + 1) j * positions js

@[simp] theorem valid_nil : Valid [] := trivial

@[simp] theorem valid_cons {j : ℕ} {js : List ℕ} :
    Valid (j :: js) ↔ j ≤ js.length + 1 ∧ Valid js := Iff.rfl

@[simp] theorem positions_nil : positions [] = 1 := rfl

@[simp] theorem positions_cons (j : ℕ) (js : List ℕ) :
    positions (j :: js) = Equiv.swap (js.length + 1) j * positions js := rfl

/-- The draws leave the places above their indices alone. -/
theorem positions_of_lt {js : List ℕ} (h : Valid js) {k : ℕ} (hk : js.length < k) :
    positions js k = k := by
  induction js with
  | nil => rfl
  | cons j js ih =>
    obtain ⟨hj, hjs⟩ := h
    rw [List.length_cons] at hk
    rw [positions_cons, Equiv.Perm.mul_apply, ih hjs (by omega)]
    exact Equiv.swap_apply_of_ne_of_ne (by omega) (by omega)

/-- The first draw is the image of the top place. -/
theorem positions_top {j : ℕ} {js : List ℕ} (h : Valid js) :
    positions (j :: js) (js.length + 1) = j := by
  rw [positions_cons, Equiv.Perm.mul_apply, positions_of_lt h (Nat.lt_succ_self _)]
  exact Equiv.swap_apply_left _ _

/-- A permutation that fixes the places from `n` on permutes the places below. -/
theorem apply_lt_iff {σ : Equiv.Perm ℕ} {n : ℕ} (hσ : ∀ k, n ≤ k → σ k = k) {k : ℕ} :
    σ k < n ↔ k < n := by
  constructor
  · intro h
    by_contra hk
    rw [hσ k (not_lt.mp hk)] at h
    exact hk h
  · intro h
    by_contra hk
    -- otherwise `σ` would take both `k` and `σ k` to `σ k`
    have heq : σ k = k := σ.injective (hσ (σ k) (not_lt.mp hk))
    rw [heq] at hk
    exact hk h

/-- **Each permutation of the places up to `m` comes from one sequence of `m` draws.**
By induction on `m`: the first draw is the image of `m`, and its swap takes the
permutation to one that fixes `m`. -/
theorem exists_unique_draws {m : ℕ} {σ : Equiv.Perm ℕ} (hσ : ∀ k, m < k → σ k = k) :
    ∃! js : List ℕ, (js.length = m ∧ Valid js) ∧ positions js = σ := by
  induction m generalizing σ with
  | zero =>
    refine ⟨[], ⟨⟨rfl, trivial⟩, ?_⟩, ?_⟩
    -- a permutation that fixes all places but one fixes that one too
    · ext k
      rcases Nat.eq_zero_or_pos k with rfl | hk
      · have hlt : σ 0 < 1 := (apply_lt_iff fun k hk => hσ k hk).mpr Nat.one_pos
        exact (Nat.lt_one_iff.mp hlt).symm
      · exact (hσ k hk).symm
    · rintro js ⟨⟨hlen, -⟩, -⟩
      exact List.length_eq_zero_iff.mp hlen
  | succ m ih =>
    -- the rest of the draws permutes the places below the top
    have hrest : ∀ k, m < k → (Equiv.swap (m + 1) (σ (m + 1)) * σ) k = k := by
      intro k hk
      rw [Equiv.Perm.mul_apply]
      rcases Nat.eq_or_lt_of_le (Nat.succ_le_of_lt hk) with rfl | hk
      · exact Equiv.swap_apply_right _ _
      · have hne : k ≠ σ (m + 1) := by
          intro heq
          have hinj := σ.injective ((hσ k hk).trans heq)
          omega
        rw [hσ k hk]
        exact Equiv.swap_apply_of_ne_of_ne (by omega) hne
    obtain ⟨js, ⟨⟨hlen, hvalid⟩, hpos⟩, huniq⟩ := ih hrest
    have htop : σ (m + 1) < m + 2 := (apply_lt_iff fun k hk => hσ k hk).mpr (Nat.lt_succ_self _)
    refine ⟨σ (m + 1) :: js, ⟨⟨?_, ?_, hvalid⟩, ?_⟩, ?_⟩
    · rw [List.length_cons, hlen]
    · rw [hlen]
      exact Nat.lt_succ_iff.mp htop
    · rw [positions_cons, hpos, hlen, ← mul_assoc, Equiv.swap_mul_self, one_mul]
    · rintro l ⟨⟨hl, hlvalid⟩, hlpos⟩
      cases l with
      | nil => cases hl
      | cons j l =>
        obtain rfl : l.length = m := Nat.succ.inj hl
        -- the head is the image of the top, and the tail is unique
        obtain rfl : j = σ (l.length + 1) := by
          rw [← hlpos, positions_top hlvalid.2]
        have htail : positions l = Equiv.swap (l.length + 1) (σ (l.length + 1)) * σ := by
          rw [positions_cons] at hlpos
          calc positions l
              = Equiv.swap (l.length + 1) (σ (l.length + 1)) *
                  (Equiv.swap (l.length + 1) (σ (l.length + 1)) * positions l) := by
                rw [← mul_assoc, Equiv.swap_mul_self, one_mul]
            _ = Equiv.swap (l.length + 1) (σ (l.length + 1)) * σ := by rw [hlpos]
        rw [huniq l ⟨⟨rfl, hlvalid.2⟩, htail⟩]

/-! ### Decks of `n` places -/

/-- The draws for a deck of `n` places: `(j_(n-1), …, j_1)` with `j_i ≤ i`. -/
def DrawSeq (n : ℕ) : Type := {js : List ℕ // js.length = n - 1 ∧ Valid js}

theorem DrawSeq.positions_of_le {n : ℕ} (d : DrawSeq n) {k : ℕ} (hk : n ≤ k) :
    positions d.1 k = k := by
  obtain ⟨js, hlen, hvalid⟩ := d
  rcases Nat.eq_zero_or_pos n with rfl | hn
  -- without a place there is no draw
  · obtain rfl := List.length_eq_zero_iff.mp hlen
    rfl
  · refine positions_of_lt hvalid ?_
    rw [hlen]
    omega

/-- The permutation of the places that a sequence of draws performs: place `k` is
filled from place `rearrangement d k`. -/
def rearrangement {n : ℕ} (d : DrawSeq n) : Equiv.Perm (Fin n) :=
  Fin.equivSubtype.symm.permCongr
    ((positions d.1).subtypePerm fun _ => apply_lt_iff fun _ => d.positions_of_le)

@[simp] theorem coe_rearrangement {n : ℕ} (d : DrawSeq n) (k : Fin n) :
    (rearrangement d k : ℕ) = positions d.1 k := rfl

/-- **The draws are the permutations.** -/
theorem rearrangement_bijective (n : ℕ) :
    Function.Bijective (rearrangement : DrawSeq n → Equiv.Perm (Fin n)) := by
  rw [Function.bijective_iff_existsUnique]
  intro τ
  -- extend the permutation to all places, and take its draws
  have hout : ∀ k, n ≤ k → τ.extendDomain Fin.equivSubtype k = k := fun k hk =>
    τ.extendDomain_apply_not_subtype Fin.equivSubtype (not_lt.mpr hk)
  have hin : ∀ k : Fin n, τ.extendDomain Fin.equivSubtype k = τ k := fun k =>
    τ.extendDomain_apply_image Fin.equivSubtype k
  have hiff : ∀ d : DrawSeq n,
      rearrangement d = τ ↔ positions d.1 = τ.extendDomain Fin.equivSubtype := by
    intro d
    constructor
    · intro h
      ext k
      rcases Nat.lt_or_ge k n with hk | hk
      · rw [hin ⟨k, hk⟩, ← h, coe_rearrangement]
      · rw [hout k hk, d.positions_of_le hk]
    · intro h
      ext k
      rw [coe_rearrangement, h, hin]
  obtain ⟨js, ⟨hjs, hpos⟩, huniq⟩ := exists_unique_draws (m := n - 1)
    (σ := τ.extendDomain Fin.equivSubtype) fun k hk => hout k (by omega)
  refine ⟨⟨js, hjs⟩, (hiff _).mpr hpos, ?_⟩
  intro d hd
  exact Subtype.ext (huniq d.1 ⟨d.2, (hiff d).mp hd⟩)

end FisherYates
