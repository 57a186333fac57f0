import Mathlib
import RngService.Lib.Interleave

/-!
# One thread among others

A program over some operations is a program over any signature that has them (`embed`), so a
system can be put next to threads that make calls of their own. If such a thread is the only one
that touches a part of the state, it is verified alone: `Pool.run_focus` asks that its calls keep
an invariant together with its ghost state, and that the calls of the others keep it as it is.
-/

namespace Prog

variable {Op : Type} {Ret : Op → Type} {E S Q α : Type}

/-! ### Programs among others -/

section Embed

variable {Op' : Type} {Ret' : Op' → Type} {f : Op → Op'}

/-- The program, with its operations among others. -/
def embed (f : Op → Op') (g : ∀ o, Ret' (f o) → Ret o) : Prog Op Ret α → Prog Op' Ret' α
  | ret a => ret a
  | call o again k => call (f o) (fun r => again (g o r)) fun r => embed f g (k (g o r))

variable {g : ∀ o, Ret' (f o) → Ret o}

/-- The model of the surroundings, as the program sees it that is embedded. -/
def Model.along (M : Model Op' Ret' Q) (f : Op → Op') (g : ∀ o, Ret' (f o) → Ret o) :
    Model Op Ret Q where
  step o q r q' := ∃ r', g o r' = r ∧ M.step (f o) q r' q'
  allowed o := M.allowed (f o)

theorem WP.embed {M : Model Op' Ret' Q} {p : Prog Op Ret α} {post : α → Q → Prop} {q : Q}
    (h : WP (M.along f g) p post q) : WP M (p.embed f g) post q := by
  induction p generalizing q with
  | ret a => exact h
  | call o again k ih =>
    obtain ⟨I, hI, hcall⟩ := h
    refine ⟨I, hI, fun q₁ hq₁ => ⟨(hcall q₁ hq₁).1, fun r q₂ hstep => ?_⟩⟩
    have hr := (hcall q₁ hq₁).2 (g o r) q₂ ⟨r, rfl, hstep⟩
    split
    · next ha => rwa [if_pos ha] at hr
    · next ha =>
      rw [if_neg ha] at hr
      exact ih (g o r) hr

theorem Calls.embed {ψ : Op' → Prop} (h : ∀ o, ψ (f o)) (p : Prog Op Ret α) :
    Calls ψ (p.embed f g) := by
  induction p with
  | ret a => trivial
  | call o again k ih => exact ⟨h o, fun r => ih (g o r)⟩

end Embed

/-! ### One thread and the others -/

namespace Pool

variable {sem : Sem Op Ret E S} {policy : Policy Op Ret E α S}

/-- **Soundness of the program logic for one thread.** Its model is `M`; the others make calls
with `φ` only, which keep `J` with the same ghost state. -/
theorem run_focus {M : Model Op Ret Q} {post : α → Q → Prop} {φ : Op → Prop} {i₀ : ℕ}
    {J : Pool Op Ret E α S → Q → Prop}
    (hown : ∀ (c : Pool Op Ret E α S) (q : Q) (e : E) (o : Op) (p : Prog Op Ret α) (r : Ret o)
      (s : S), J c q → M.allowed o q → sem o e c.state = some (r, s) →
      ∃ q', M.step o q r q' ∧ J (c.moved p s ⟨i₀, e, o, r⟩) q')
    (hother : ∀ (c : Pool Op Ret E α S) (q : Q) (i : ℕ) (e : E) (o : Op) (p : Prog Op Ret α)
      (r : Ret o) (s : S), i ≠ i₀ → φ o → J c q → sem o e c.state = some (r, s) →
      J (c.moved p s ⟨i, e, o, r⟩) q)
    {sched : List (ℕ × E)} {c c' : Pool Op Ret E α S} {q : Q} {p : Prog Op Ret α} (hJ : J c q)
    (hthread : c.threads[i₀]? = some p) (hwp : WP M p post q)
    (hothers : ∀ i p, i ≠ i₀ → c.threads[i]? = some p → Calls φ p)
    (hrun : run sem policy sched c = some c') :
    ∃ q' p', J c' q' ∧ c'.threads[i₀]? = some p' ∧ WP M p' post q' := by
  refine And.left (run_induction (J := fun c => (∃ q p, J c q ∧ c.threads[i₀]? = some p ∧
    WP M p post q) ∧ ∀ i p, i ≠ i₀ → c.threads[i]? = some p → Calls φ p) ?_
    ⟨⟨q, p, hJ, hthread, hwp⟩, hothers⟩ hrun)
  rintro c₁ c₂ ⟨i, e⟩ ⟨⟨q₁, p₁, hJ₁, hthread₁, hwp₁⟩, hothers₁⟩ hs
  obtain ⟨o, again, k, r, s, hmover, -, hsem, rfl⟩ := step_cases hs
  have hlen : i < c₁.threads.length := (List.getElem?_eq_some_iff.mp hmover).1
  refine ⟨?_, fun j p₂ hj hp₂ => ?_⟩
  · by_cases hi : i = i₀
    · subst hi
      obtain rfl := Option.some.inj (hmover.symm.trans hthread₁)
      obtain ⟨q₂, hq, hJ₂⟩ := hown c₁ q₁ e o (if again r then call o again k else k r) r s hJ₁
        hwp₁.allowed hsem
      refine ⟨q₂, _, hJ₂, ?_, hwp₁.next hq⟩
      rw [moved, List.getElem?_set_self hlen]
    · refine ⟨q₁, p₁, hother c₁ q₁ i e o _ r s hi (hothers₁ i _ hi hmover).1 hJ₁ hsem, ?_, hwp₁⟩
      rw [moved, List.getElem?_set_ne hi]
      exact hthread₁
  · rcases threads_moved hp₂ with ⟨rfl, rfl⟩ | ⟨-, hp₂⟩
    · have hcalls := hothers₁ j _ hj hmover
      split
      · exact hcalls
      · exact hcalls.2 r
    · exact hothers₁ j p₂ hj hp₂

end Pool

end Prog
