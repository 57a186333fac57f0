import Mathlib

/-!
# Loops that stop at a test

`run test step n s` is the loop that makes up to `n` steps from `s`, and breaks after the
first one whose state passes the test. It returns whether it broke, and the last state.

The loop breaks when one of its states passes (`run_fst_iff`), and for a test that stays
passed, when the last one does (`run_fst_iff_last`).

A loop without a bound may not end. Its step goes on to another state or exits, and `Leaves`
says that it exits after some number of steps. It does not when an invariant lets it step
(`not_leaves`).
-/

namespace Loop

variable {σ : Type}

section Bounded

variable {test : σ → Bool} {step : σ → σ} {n : ℕ} {s : σ}

/-- Up to `n` steps, until a state passes the test. -/
def run (test : σ → Bool) (step : σ → σ) : ℕ → σ → Bool × σ
  | 0, s => (false, s)
  | n + 1, s => if test (step s) then (true, step s) else run test step n (step s)

/-- **A loop breaks** when the state after one of its steps passes the test. -/
theorem run_fst_iff : (run test step n s).1 = true ↔ ∃ k < n, test (step^[k + 1] s) = true := by
  induction n generalizing s with
  | zero => simp [run]
  | succ n ih =>
    rw [run]
    constructor
    · intro h
      split at h
      · next hpass => exact ⟨0, n.succ_pos, hpass⟩
      · obtain ⟨k, hk, hpass⟩ := ih.mp h
        exact ⟨k + 1, Nat.succ_lt_succ hk, hpass⟩
    · rintro ⟨k, hk, hpass⟩
      split
      · rfl
      · next hfail =>
        cases k with
        | zero => exact absurd hpass hfail
        | succ k => exact ih.mpr ⟨k, Nat.lt_of_succ_lt_succ hk, hpass⟩

/-- A loop whose test stays passed breaks when the last state passes it. -/
theorem run_fst_iff_last (hn : n ≠ 0)
    (hstay : ∀ k, test (step^[k + 1] s) = true → test (step^[k + 2] s) = true) :
    (run test step n s).1 = true ↔ test (step^[n] s) = true := by
  obtain ⟨m, rfl⟩ := Nat.exists_eq_succ_of_ne_zero hn
  rw [run_fst_iff]
  constructor
  · rintro ⟨k, hk, hpass⟩
    exact Nat.le_induction hpass (fun j _ hj => hstay j hj) m (Nat.le_of_lt_succ hk)
  · exact fun hpass => ⟨m, m.lt_succ_self, hpass⟩

end Bounded

section Unbounded

variable {ε : Type} {step : σ → Except ε σ} {s t : σ} {e : ε}

/-- The loop from `s` exits in the state `t`, with `e`. -/
inductive Leaves (step : σ → Except ε σ) : σ → σ → ε → Prop
  | exit {s : σ} {e : ε} (h : step s = .error e) : Leaves step s s e
  | next {s s' t : σ} {e : ε} (h : step s = .ok s') (hrest : Leaves step s' t e) :
    Leaves step s t e

/-- **A loop does not end** while an invariant holds that lets it make a step and is kept by
it. -/
theorem not_leaves {I : σ → Prop} (hstep : ∀ s, I s → ∃ s', step s = .ok s' ∧ I s') (hs : I s) :
    ¬ Leaves step s t e := by
  intro hleaves
  induction hleaves with
  | exit h =>
    obtain ⟨s', hs', -⟩ := hstep _ hs
    cases h.symm.trans hs'
  | next h hrest ih =>
    obtain ⟨s', hs', hinv⟩ := hstep _ hs
    obtain rfl := Except.ok.inj (h.symm.trans hs')
    exact ih hinv

end Unbounded

end Loop
