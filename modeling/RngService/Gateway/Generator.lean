import Mathlib
import RngService.Csprng.Reference
import RngService.Gateway.Locking
import RngService.Gateway.Reseed

/-!
# One generator for all

Requests and self tests draw from one generator and re-seed it at the same time. Its lock
makes each call a step of its own, so a run of the server drives it through one sequence of
calls, in the order of the trace. That sequence satisfies what the reference algorithm asks
for: samples can be allocated, and a re-seed brings at least 48 bytes (`wp_demands`). So every
request is answered from one run of the reference CTR_DRBG (`generator_linear`): no block is
handed out twice, none is skipped, and no interleaving damages the state.
-/

namespace Gateway

open Audit Prog

/-! ### What the tasks ask of the generator -/

/-- **The model of the surroundings**: calls of the generator have to be covered by the
reference, and collected entropy has the size asked for. -/
def demands : Prog.Model Op Ret Unit where
  allowed
    | .generate n, _ => (Csprng.Call.generate n).Valid
    | .reseed entropy, _ => (Csprng.Call.reseed entropy).Valid
    | _, _ => True
  step
    | .collectForReseed size _ _, _, r, _ => ∀ entropy, r = .ok entropy → entropy.length = size
    | _, _, _, _ => True

variable {srv : Server}

/-- The operation asks nothing of the generator. -/
def Undemanding : Op → Prop
  | .generate _ => False
  | .reseed _ => False
  | _ => True

theorem wp_undemanding {α : Type} {p : Program α} (hp : Calls Undemanding p) (q : Unit) :
    WP demands p (fun _ _ => True) q := by
  refine WP.of_calls (I := fun _ => True) (fun o ho q _ => ⟨?_, fun _ _ _ => trivial⟩) hp trivial
  cases o with
  | generate n => exact ho.elim
  | reseed entropy => exact ho.elim
  | _ => trivial

theorem Unlocked.undemanding {o : Op} (h : Unlocked o) : Undemanding o := by
  cases o with
  | generate n => exact h.elim
  | reseed entropy => exact h.elim
  | _ => trivial

theorem wp_demands_reseedNotDue (q : Unit) :
    WP demands (reseedNotDue srv) (fun _ _ => True) q :=
  wp_undemanding (unlocked_reseedNotDue.mono fun _ h => h.undemanding) q

/-- **A re-seed brings the 48 bytes that it has asked for.** -/
theorem wp_demands_reseedLocked (tenantID : GoString) (q : Unit) :
    WP demands (reseedLocked srv tenantID).run (fun _ _ => True) q := by
  refine WP.bindE (WP.liftE ((wp_demands_reseedNotDue q).mono fun notDue q₁ _ => ?_))
  simp only
  split
  · trivial
  · refine WP.bindE (WP.liftE (WP.op trivial fun outputs q₂ _ => ?_))
    refine WP.bindE (WP.op trivial fun r q₃ hsize => ?_)
    cases r with
    | error err => trivial
    | ok entropy =>
      have hlen : entropy.length = Csprng.seedLen := hsize entropy rfl
      refine WP.bindE (WP.op hlen.ge fun r q₄ _ => ?_)
      cases r with
      | error err => trivial
      | ok u =>
        refine WP.bindE (WP.liftE (WP.op trivial fun now q₅ _ => ?_))
        exact WP.liftE (WP.op trivial fun _ _ _ => trivial)

theorem kept_demands : Kept srv demands fun _ => True where
  call o ho q _ := by
    refine ⟨?_, fun _ _ _ => trivial⟩
    cases o with
    | generate n => exact ho.elim
    | reseed entropy => exact ho.elim
    | _ => trivial
  draw q _ := ⟨(by decide : (8 : UInt64).toNat + 16 < 2 ^ 63), fun _ _ _ => trivial⟩
  reseed tenantID q _ := by
    refine WP.bindE (WP.liftE ((wp_demands_reseedNotDue q).mono fun notDue q₁ _ => ?_))
    simp only
    split
    · trivial
    · refine WP.bind (WP.op trivial fun _ q₂ _ => ?_)
      refine WP.bind ((wp_demands_reseedLocked tenantID q₂).mono fun r q₃ _ => ?_)
      exact WP.bind (WP.op trivial fun _ _ _ => trivial)

/-- The samples of the self tests can be allocated. -/
def Allocatable (tasks : List Task) : Prop :=
  ∀ n, .selfTest n ∈ tasks → (Csprng.Call.generate (sampleSize n)).Valid

theorem wp_demands {tasks : List Task} (hsamples : Allocatable tasks) {t : Task} (ht : t ∈ tasks)
    (q : Unit) : WP demands (t.program srv) (fun _ _ => True) q := by
  refine kept_demands.task t (fun n hn => ?_) q trivial
  exact Keeps.op fun q _ => ⟨hsamples n (hn ▸ ht), fun _ _ _ => trivial⟩

/-! ### The calls of a run -/

/-- A call of the generator, and its answer. -/
def drawing : Event Op Ret Env → Option (Csprng.Call × Except GoError Bytes)
  | ⟨_, _, .generate n, r⟩ => some (.generate n, r)
  | ⟨_, _, .reseed entropy, r⟩ => some (.reseed entropy, r.map fun _ => [])
  | _ => none

/-- The calls of the generator in a trace. -/
def generatorCalls (tr : Trace) : List Csprng.Call := (tr.filterMap drawing).map Prod.fst

/-- Their answers. A re-seed that succeeds has no bytes for an answer. -/
def generatorAnswers (tr : Trace) : List (Except GoError Bytes) :=
  (tr.filterMap drawing).map Prod.snd

section Runs

variable {aes : Csprng.BlockCipher}

/-- One more call. -/
theorem runCalls_concat (d : Csprng.DRBG) (cs : List Csprng.Call) (x : Csprng.Call) :
    d.runCalls aes (cs ++ [x]) = ((d.runCalls aes cs).1 ++ [((d.runCalls aes cs).2.call aes x).1],
      ((d.runCalls aes cs).2.call aes x).2) := by
  induction cs generalizing d with
  | nil => rfl
  | cons c cs ih =>
    have hcs := ih (d.call aes c).2
    rw [List.cons_append, Csprng.DRBG.runCalls, Csprng.DRBG.runCalls]
    simp only [hcs, List.cons_append]

/-- **Each operation is at most one call of the generator.** -/
theorem exec_drawing {i : ℕ} {e : Env} {o : Op} {r : Ret o} {w w' : World Csprng.DRBG}
    (h : exec (.drbg aes) srv.crypto o e w = some (r, w')) :
    match drawing ⟨i, e, o, r⟩ with
    | some (x, answer) => (answer, w'.drbg) = w.drbg.call aes x
    | none => w'.drbg = w.drbg := by
  cases o with
  | generate n =>
    obtain ⟨rfl, rfl⟩ := Prod.mk.inj (Option.some.inj h)
    rfl
  | reseed entropy =>
    obtain ⟨rfl, rfl⟩ := Prod.mk.inj (Option.some.inj h)
    simp only [drawing, Device.drbg, Csprng.DRBG.call]
    cases w.drbg.reseed aes entropy <;> rfl
  | setLastReseed t =>
    obtain ⟨-, rfl⟩ := Prod.mk.inj (Option.some.inj h)
    rfl
  | _ => exact (exec_still id h).1

/-- Every operation is covered by the model. -/
theorem demands_step {D : Type} {dev : Device D} {o : Op} {e : Env} {r : Ret o} {w w' : World D}
    (h : exec dev srv.crypto o e w = some (r, w')) : demands.step o () r () := by
  cases o with
  | collectForReseed size tenantID outputsSince =>
    obtain ⟨rfl, -⟩ := Prod.mk.inj (Option.some.inj h)
    intro entropy hentropy
    split at hentropy
    · obtain rfl := Except.ok.inj hentropy
      simp only [List.length_append, List.length_take, List.length_replicate]
      omega
    · cases hentropy
  | _ => trivial

/-- The invariant of a run: the calls of the trace, made one after the other, give its answers
and lead to the state of the generator. -/
structure Linear (aes : Csprng.BlockCipher) (drbg : Csprng.DRBG) (c : Tasks Csprng.DRBG) :
    Prop where
  calls : drbg.runCalls aes (generatorCalls c.trace) = (generatorAnswers c.trace, c.state.drbg)
  valid : ∀ x ∈ generatorCalls c.trace, x.Valid

/-- **Every call keeps the invariant.** -/
theorem Linear.step {drbg : Csprng.DRBG} {c : Tasks Csprng.DRBG} (h : Linear aes drbg c) {i : ℕ}
    {e : Env} {o : Op} {r : Ret o} {w : World Csprng.DRBG} (ha : demands.allowed o ())
    (hsem : exec (.drbg aes) srv.crypto o e c.state = some (r, w)) (p : Program (Option Response)) :
    Linear aes drbg (c.moved p w ⟨i, e, o, r⟩) := by
  have hdraw := exec_drawing (i := i) hsem
  cases hev : drawing ⟨i, e, o, r⟩ with
  | none =>
    rw [hev] at hdraw
    refine ⟨?_, ?_⟩
    · simp only [Pool.moved, generatorCalls, generatorAnswers, List.filterMap_append,
        List.filterMap_cons_none hev, List.filterMap_nil, List.append_nil]
      rw [hdraw]
      exact h.calls
    · simpa only [Pool.moved, generatorCalls, List.filterMap_append, List.filterMap_cons_none hev,
        List.filterMap_nil, List.append_nil] using h.valid
  | some x =>
    obtain ⟨x, answer⟩ := x
    rw [hev] at hdraw
    have hcalls : generatorCalls (c.trace ++ [⟨i, e, o, r⟩]) = generatorCalls c.trace ++ [x] := by
      simp [generatorCalls, hev]
    have hanswers : generatorAnswers (c.trace ++ [⟨i, e, o, r⟩])
        = generatorAnswers c.trace ++ [answer] := by
      simp [generatorAnswers, hev]
    refine ⟨?_, fun y hy => ?_⟩
    · rw [Pool.moved, hcalls, hanswers, runCalls_concat, h.calls, ← hdraw]
    · rw [Pool.moved, hcalls] at hy
      rcases List.mem_append.mp hy with hy | hy
      · exact h.valid y hy
      · rw [List.mem_singleton.mp hy]
        cases o with
        | generate n => cases hev; exact ha
        | reseed entropy => cases hev; exact ha
        | _ => cases hev

/-- **Concurrent use of the generator is one run of the reference CTR_DRBG**: in every
interleaving of requests and self tests, its calls, in the order of the trace, are answered
as the reference answers them one after the other, and leave its state. -/
theorem generator_linear {tasks : List Task} (hsamples : Allocatable tasks)
    {w : World Csprng.DRBG} {sched : List (ℕ × Env)} {c : Tasks Csprng.DRBG}
    (hrun : Pool.run (exec (.drbg aes) srv.crypto) Pool.anyOrder sched (start srv tasks w)
      = some c) :
    w.drbg.toRef.runCalls aes (generatorCalls c.trace)
      = (generatorAnswers c.trace, c.state.drbg.toRef) := by
  have hwp : ∀ (i : ℕ) (p : Program (Option Response)), (start srv tasks w).threads[i]? = some p →
      WP demands p (fun _ _ => True) () := by
    intro i p hp
    obtain ⟨t, ht, rfl⟩ := List.mem_map.mp (List.mem_of_getElem? hp)
    exact wp_demands hsamples ht ()
  obtain ⟨g, h, -⟩ := Pool.run_sound (J := fun c (_ : ℕ → Unit) => Linear aes w.drbg c)
    (fun c g i e o again k r s hJ _ _ ha hsem => ⟨(), demands_step hsem, hJ.step ha hsem _⟩)
    (g := fun _ => ()) ⟨rfl, fun x hx => absurd hx List.not_mem_nil⟩ hwp hrun
  obtain ⟨hanswers, hstate⟩ := Csprng.toRef_runCalls aes w.drbg h.valid
  rw [h.calls] at hanswers hstate
  exact Prod.ext hanswers.symm hstate.symm

/-- Two requests that both re-seed, the second one between the draws of the first. -/
def sharedTasks : List Task :=
  [.request ⟨⟨[], [107]⟩, .generate (.ok ⟨[97], [103], [114], 2, 5, 6⟩)⟩,
    .request (smallRequest [108] [98] [115]), .selfTest 0]

theorem generator_linear_shared : ∃ c,
    Pool.run (exec (.drbg fun _ block => block) busyServer.crypto) Pool.anyOrder
      (turns 0 11 ++ turns 1 7 ++ turns 0 1) (start busyServer sharedTasks smallWorld) = some c ∧
    (generatorCalls c.trace).length = 4 ∧
    smallWorld.drbg.toRef.runCalls (fun _ block => block) (generatorCalls c.trace)
      = (generatorAnswers c.trace, c.state.drbg.toRef) := by
  have h : (Pool.run (exec (.drbg fun _ block => block) busyServer.crypto) Pool.anyOrder
      (turns 0 11 ++ turns 1 7 ++ turns 0 1) (start busyServer sharedTasks smallWorld)).map
        (fun c => (generatorCalls c.trace).length) = some 4 := by
    decide +kernel
  obtain ⟨c, hc, hcalls⟩ := Option.map_eq_some_iff.mp h
  refine ⟨c, hc, hcalls, generator_linear (fun n hn => ?_) hc⟩
  -- the only self test asks for the smallest sample
  obtain rfl : n = 0 := by simpa [sharedTasks] using hn
  exact (by decide : (sampleSize 0).toNat + 16 < 2 ^ 63)

end Runs

end Gateway
