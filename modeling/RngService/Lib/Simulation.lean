import Mathlib
import RngService.Lib.Interleave

/-!
# Simulation between two semantics

Two semantics of the same operations may differ in their states and in what they leave to the
environment: one may decide by itself what the other one reads from its input. `Simulation`
says that every call of the first is a call of the second, between the images of the states
and with the same answer; the input of the second may depend on the answer. Then every
interleaving of programs under the first is one under the second (`Simulation.run`), with the
same threads moving, and what is known of all runs of the second holds of the first.
-/

namespace Prog

variable {Op : Type} {Ret : Op → Type} {E E' S S' α : Type}

/-- `sem'` simulates `sem`: the image of a state, and the input that makes `sem'` give an
answer of `sem`. -/
structure Simulation (sem : Sem Op Ret E S) (sem' : Sem Op Ret E' S') where
  state : S → S'
  input : (o : Op) → E → Ret o → E'
  answers : ∀ o e s r s', sem o e s = some (r, s') →
    sem' o (input o e r) (state s) = some (r, state s')

namespace Simulation

variable {sem : Sem Op Ret E S} {sem' : Sem Op Ret E' S'} (sim : Simulation sem sem')

/-- The image of a call that has been made. -/
def event (ev : Event Op Ret E) : Event Op Ret E' :=
  ⟨ev.caller, sim.input ev.op ev.input ev.answer, ev.op, ev.answer⟩

/-- The image of a pool. -/
def pool (c : Pool Op Ret E α S) : Pool Op Ret E' α S' :=
  ⟨c.threads, sim.state c.state, c.trace.map sim.event⟩

theorem pool_moved (c : Pool Op Ret E α S) (p : Prog Op Ret α) (s : S) (ev : Event Op Ret E) :
    sim.pool (c.moved p s ev) = (sim.pool c).moved p (sim.state s) (sim.event ev) := by
  rw [pool, Pool.moved, List.map_append, List.map_singleton]
  rfl

/-- A step is simulated by a step of the same thread. -/
theorem step {c c' : Pool Op Ret E α S} {x : ℕ × E}
    (h : Pool.step sem Pool.anyOrder c x = some c') :
    ∃ e, Pool.step sem' Pool.anyOrder (sim.pool c) (x.1, e) = some (sim.pool c') := by
  obtain ⟨o, again, k, r, s, hthread, -, hsem, rfl⟩ := Pool.step_cases h
  refine ⟨sim.input o x.2 r, ?_⟩
  have hcall := sim.answers o x.2 c.state r s hsem
  have hthread' : (sim.pool c).threads[x.1]? = some (call o again k) := hthread
  have hstate : (sim.pool c).state = sim.state c.state := rfl
  rw [Pool.step, hthread']
  simp only [Pool.anyOrder, if_true, hstate, hcall, Option.map_some, pool_moved]
  rfl

/-- **Every run is simulated** by a run in which the same threads move. -/
theorem run {sched : List (ℕ × E)} {c c' : Pool Op Ret E α S}
    (h : Pool.run sem Pool.anyOrder sched c = some c') :
    ∃ sched', sched'.map Prod.fst = sched.map Prod.fst ∧
      Pool.run sem' Pool.anyOrder sched' (sim.pool c) = some (sim.pool c') := by
  induction sched generalizing c with
  | nil =>
    obtain rfl := Option.some.inj h
    exact ⟨[], rfl, rfl⟩
  | cons x xs ih =>
    obtain ⟨c₁, hs, hrest⟩ := Option.bind_eq_some_iff.mp h
    obtain ⟨e, hstep⟩ := sim.step hs
    obtain ⟨sched', hfst, hrun⟩ := ih hrest
    refine ⟨(x.1, e) :: sched', by rw [List.map_cons, List.map_cons, hfst], ?_⟩
    exact Option.bind_eq_some_iff.mpr ⟨_, hstep, hrun⟩

end Simulation

end Prog
