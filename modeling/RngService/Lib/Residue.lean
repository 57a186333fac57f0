import Mathlib

/-!
# Residues of an interval

Of the numbers below `N`, drop the first `N % m`. What remains is a whole number
of periods of length `m`, so every residue occurs in it equally often, `N / m`
times (`card_residue`). The same holds when the last `N % m` of them are dropped
(`card_residue_below`). For `m ≤ N` fewer than half of the numbers are dropped
(`two_mul_mod_lt`).
-/

namespace Residue

variable {m r : ℕ}

/-- A residue occurs once in each of `q` consecutive periods. -/
theorem card_residue_periods (hr : r < m) (t q : ℕ) :
    ((Finset.Ico t (t + q * m)).filter (· % m = r)).card = q := by
  -- one period contains one number of each residue
  have hperiod : Function.Periodic (fun n : ℕ => n % m = r) m := fun n => by simp
  have hone : Nat.count (fun n : ℕ => n % m = r) m = 1 := by
    have hsingle : (Finset.range m).filter (fun n => n % m = r) = {r} := by
      ext n
      rw [Finset.mem_filter, Finset.mem_range, Finset.mem_singleton]
      constructor
      · rintro ⟨hn, rfl⟩
        exact (Nat.mod_eq_of_lt hn).symm
      · rintro rfl
        exact ⟨hr, Nat.mod_eq_of_lt hr⟩
    rw [Nat.count_eq_card_filter_range, hsingle, Finset.card_singleton]
  induction q with
  | zero => simp
  | succ q ih =>
    -- the last period is split off
    have hsplit : Finset.Ico t (t + (q + 1) * m)
        = Finset.Ico t (t + q * m) ∪ Finset.Ico (t + q * m) (t + q * m + m) := by
      rw [Finset.Ico_union_Ico_eq_Ico (Nat.le_add_right _ _) (Nat.le_add_right _ _),
        Nat.succ_mul, Nat.add_assoc]
    rw [hsplit, Finset.filter_union, Finset.card_union_of_disjoint, ih,
      Nat.filter_Ico_card_eq_of_periodic _ _ _ hperiod, hone]
    exact Finset.disjoint_filter_filter (Finset.Ico_disjoint_Ico_consecutive _ _ _)

/-- **Equal shares.** Among the numbers below `N` that are at least `N % m`, each
residue occurs `N / m` times. -/
theorem card_residue (hr : r < m) (N : ℕ) :
    ((Finset.range N).filter fun n => N % m ≤ n ∧ n % m = r).card = N / m := by
  have hrest : (Finset.range N).filter (fun n => N % m ≤ n ∧ n % m = r)
      = (Finset.Ico (N % m) (N % m + N / m * m)).filter (· % m = r) := by
    ext n
    rw [Finset.mem_filter, Finset.mem_filter, Finset.mem_range, Finset.mem_Ico, Nat.mod_add_div']
    exact ⟨fun ⟨h1, h2, h3⟩ => ⟨⟨h2, h1⟩, h3⟩, fun ⟨⟨h2, h1⟩, h3⟩ => ⟨h1, h2, h3⟩⟩
  rw [hrest, card_residue_periods hr]

/-- The numbers dropped are fewer than half. -/
theorem two_mul_mod_lt {N : ℕ} (hm : 0 < m) (hN : m ≤ N) : 2 * (N % m) < N := by
  have hlt : N % m < m := Nat.mod_lt _ hm
  have hle : m + N % m ≤ N := by
    calc m + N % m ≤ m * (N / m) + N % m :=
          Nat.add_le_add_right (Nat.le_mul_of_pos_right _ (Nat.div_pos hN hm)) _
      _ = N := Nat.div_add_mod N m
  omega

/-- The last numbers instead of the first: among the numbers below the last multiple of `m`,
each residue occurs `N / m` times as well. -/
theorem card_residue_below (hr : r < m) (N : ℕ) :
    ((Finset.range N).filter fun n => n < N / m * m ∧ n % m = r).card = N / m := by
  have hrest : (Finset.range N).filter (fun n => n < N / m * m ∧ n % m = r)
      = (Finset.Ico 0 (0 + N / m * m)).filter (· % m = r) := by
    ext n
    rw [Finset.mem_filter, Finset.mem_filter, Finset.mem_range, Finset.mem_Ico, Nat.zero_add]
    have hle : N / m * m ≤ N := Nat.div_mul_le_self N m
    exact ⟨fun ⟨_, hlt, hres⟩ => ⟨⟨n.zero_le, hlt⟩, hres⟩,
      fun ⟨⟨_, hlt⟩, hres⟩ => ⟨hlt.trans_le hle, hlt, hres⟩⟩
  rw [hrest, card_residue_periods hr]

/-- From the last multiple of `m` on, `N % m` numbers remain. -/
theorem card_rest (m N : ℕ) : ((Finset.range N).filter fun n => N / m * m ≤ n).card = N % m := by
  have hrest : (Finset.range N).filter (fun n => N / m * m ≤ n) = Finset.Ico (N / m * m) N := by
    ext n
    rw [Finset.mem_filter, Finset.mem_range, Finset.mem_Ico]
    exact and_comm
  have hsum := Nat.div_add_mod' N m
  rw [hrest, Nat.card_Ico]
  omega

/-- Words with a property are numbers with it, for words that are numbered from 0 to `N - 1`. -/
theorem card_words {α : Type} {toNat : α → ℕ} {N : ℕ} (hinj : Function.Injective toNat)
    (hrange : ∀ n, n < N ↔ ∃ a, toNat a = n) (p : ℕ → Prop) [DecidablePred p] :
    Nat.card {a : α // p (toNat a)} = ((Finset.range N).filter p).card := by
  let f : {a : α // p (toNat a)} → {k // k ∈ (Finset.range N).filter p} := fun a =>
    ⟨toNat a.1, Finset.mem_filter.mpr ⟨Finset.mem_range.mpr ((hrange _).mpr ⟨a.1, rfl⟩), a.2⟩⟩
  have hf : Function.Bijective f := by
    constructor
    · intro a b h
      exact Subtype.ext (hinj (congrArg Subtype.val h))
    · rintro ⟨k, hk⟩
      obtain ⟨hlt, hp⟩ := Finset.mem_filter.mp hk
      obtain ⟨a, rfl⟩ := (hrange k).mp (Finset.mem_range.mp hlt)
      exact ⟨⟨a, hp⟩, rfl⟩
  rw [Nat.card_congr (Equiv.ofBijective f hf), Nat.card_eq_fintype_card, Fintype.card_coe]

theorem card_uint64 (p : ℕ → Prop) [DecidablePred p] :
    Nat.card {n : UInt64 // p n.toNat} = ((Finset.range (2 ^ 64)).filter p).card := by
  refine card_words (fun _ _ => UInt64.toNat_inj.mp) (fun n => ⟨fun hn => ?_, ?_⟩) p
  · exact ⟨UInt64.ofNat n, UInt64.toNat_ofNat_of_lt' hn⟩
  · rintro ⟨a, rfl⟩
    exact a.toNat_lt

theorem card_uint32 (p : ℕ → Prop) [DecidablePred p] :
    Nat.card {n : UInt32 // p n.toNat} = ((Finset.range (2 ^ 32)).filter p).card := by
  refine card_words (fun _ _ => UInt32.toNat_inj.mp) (fun n => ⟨fun hn => ?_, ?_⟩) p
  · exact ⟨UInt32.ofNat n, UInt32.toNat_ofNat_of_lt' hn⟩
  · rintro ⟨a, rfl⟩
    exact a.toNat_lt

end Residue
