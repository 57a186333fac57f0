import Mathlib

/-!
# Programs over a signature of atomic operations

A program is a tree of calls to atomic operations. The signature `(Op, Ret)`
lists the operations and the type of answer each one gives; a `Prog Op Ret α`
either returns or makes one call and continues with the answer. The node
`Prog.call o again k` also covers the loop whose body is a single call: the
call is repeated as long as `again` holds of its answer, so a rejection loop is
a finite tree and needs no fuel.

A program has no meaning of its own. `Prog.run` executes it against an
operation semantics `Sem`, a partial function of the operation, an environment
input and a shared state; `none` is an operation that is blocked. The
environment inputs (a clock reading, a random draw, a failing disk) are the
script of the run.

## The program logic

`Prog.WP M p post q` reads: started in ghost state `q`, the program `p` only
calls operations that the model `M` allows there, and every value it returns
satisfies `post`. A `Model` is a relational transition system over ghost
states. It is used at two kinds of ghost state:

* a summary of the calls one program has made, when the program shares its
  state with others (`Interleave` transports such facts to a whole pool);
* the shared state itself (`Model.ofSem`), when it runs alone (`WP.run_sound`).

The repeated call carries its own invariant, so the rule for it is the usual
loop rule; `WP.op` is the rule for a single call.
-/

/-- A program that calls operations of the signature `(Op, Ret)`: it returns, or
it makes the call `o`, again and again while `again` holds of the answer, and
continues with the last answer. -/
inductive Prog (Op : Type) (Ret : Op → Type) (α : Type) : Type
  | ret (a : α)
  | call (o : Op) (again : Ret o → Bool) (k : Ret o → Prog Op Ret α)

/-- An operation semantics: the answer to an operation and the next shared
state, given an input from the environment. `none` means that the operation is
blocked in this state. -/
abbrev Sem (Op : Type) (Ret : Op → Type) (E S : Type) : Type :=
  (o : Op) → E → S → Option (Ret o × S)

namespace Prog

variable {Op : Type} {Ret : Op → Type} {E S Q α β γ ε : Type}

/-- Sequential composition. -/
def bind : Prog Op Ret α → (α → Prog Op Ret β) → Prog Op Ret β
  | ret a, f => f a
  | call o again k, f => call o again fun r => (k r).bind f

/-- A single call, returning its answer. -/
def op (o : Op) : Prog Op Ret (Ret o) := call o (fun _ => false) ret

instance : Monad (Prog Op Ret) where
  pure := ret
  bind := bind

@[simp] theorem pure_eq (a : α) : (pure a : Prog Op Ret α) = ret a := rfl

@[simp] theorem ret_bind (a : α) (f : α → Prog Op Ret β) : ret a >>= f = f a := rfl

@[simp] theorem call_bind (o : Op) (again : Ret o → Bool) (k : Ret o → Prog Op Ret α)
    (f : α → Prog Op Ret β) : call o again k >>= f = call o again fun r => k r >>= f := rfl

theorem bind_ret (p : Prog Op Ret α) : p >>= ret = p := by
  induction p with
  | ret a => rfl
  | call o again k ih => rw [call_bind]; exact congrArg _ (funext ih)

theorem bind_assoc (p : Prog Op Ret α) (f : α → Prog Op Ret β) (g : β → Prog Op Ret γ) :
    p >>= f >>= g = p >>= fun a => f a >>= g := by
  induction p with
  | ret a => rfl
  | call o again k ih =>
    rw [call_bind, call_bind, call_bind]
    exact congrArg _ (funext ih)

instance : LawfulMonad (Prog Op Ret) :=
  LawfulMonad.mk' _ bind_ret (fun a f => ret_bind a f) bind_assoc

/-- A program that has returned. -/
def isRet : Prog Op Ret α → Bool
  | ret _ => true
  | call .. => false

/-! ### Running a program alone -/

/-- The run of a program on a script of environment inputs, one input for each
call. The script has to be used up exactly when the program returns. -/
def run (sem : Sem Op Ret E S) : List E → Prog Op Ret α → S → Option (α × S)
  | [], ret a, s => some (a, s)
  | e :: es, call o again k, s =>
    match sem o e s with
    | some (r, s') => run sem es (if again r then call o again k else k r) s'
    | none => none
  | [], call .., _ => none
  | _ :: _, ret _, _ => none

@[simp] theorem run_nil_ret (sem : Sem Op Ret E S) (a : α) (s : S) :
    run sem [] (ret a) s = some (a, s) := rfl

theorem run_cons_call {sem : Sem Op Ret E S} {e : E} {es : List E} {o : Op} {again : Ret o → Bool}
    {k : Ret o → Prog Op Ret α} {s : S} {x : α × S} :
    run sem (e :: es) (call o again k) s = some x ↔
      ∃ r s', sem o e s = some (r, s') ∧
        run sem es (if again r then call o again k else k r) s' = some x := by
  rw [run]
  cases h : sem o e s with
  | none => simp
  | some rs => obtain ⟨r, s'⟩ := rs; simp

/-- A script that runs a returned program is empty, and the result is the
returned one. -/
theorem run_ret {sem : Sem Op Ret E S} {es : List E} {a : α} {s : S} {x : α × S} :
    run sem es (ret a) s = some x ↔ es = [] ∧ x = (a, s) := by
  cases es with
  | nil => simp [eq_comm]
  | cons e es => simp [run]

/-- **The runs of a composition** are the runs of its parts, one after the other. -/
theorem run_bind {sem : Sem Op Ret E S} {es : List E} {p : Prog Op Ret α} {f : α → Prog Op Ret β}
    {s : S} {x : β × S} :
    run sem es (p >>= f) s = some x ↔ ∃ es₁ es₂ a s₁, es = es₁ ++ es₂ ∧
      run sem es₁ p s = some (a, s₁) ∧ run sem es₂ (f a) s₁ = some x := by
  induction es generalizing p s with
  | nil =>
    cases p with
    | ret a =>
      constructor
      · exact fun h => ⟨[], [], a, s, rfl, rfl, h⟩
      · rintro ⟨es₁, es₂, b, s₁, heq, h₁, h₂⟩
        obtain ⟨rfl, rfl⟩ := List.append_eq_nil_iff.mp heq.symm
        obtain ⟨-, heq⟩ := run_ret.mp h₁
        obtain ⟨rfl, rfl⟩ := Prod.mk.inj heq
        exact h₂
    | call o again k =>
      constructor
      · intro h
        cases h
      · rintro ⟨es₁, es₂, b, s₁, heq, h₁, -⟩
        obtain ⟨rfl, -⟩ := List.append_eq_nil_iff.mp heq.symm
        cases h₁
  | cons e es ih =>
    cases p with
    | ret a =>
      constructor
      · exact fun h => ⟨[], e :: es, a, s, rfl, rfl, h⟩
      · rintro ⟨es₁, es₂, b, s₁, heq, h₁, h₂⟩
        obtain ⟨rfl, heq'⟩ := run_ret.mp h₁
        obtain ⟨rfl, rfl⟩ := Prod.mk.inj heq'
        rw [heq]
        exact h₂
    | call o again k =>
      -- the first call is made by the first part
      have hrest : ∀ r, (if again r then call o again (fun r => k r >>= f) else k r >>= f)
          = (if again r then call o again k else k r) >>= f := by
        intro r
        split <;> rfl
      rw [call_bind, run_cons_call]
      simp only [hrest, ih]
      constructor
      · rintro ⟨r, s', hsem, es₁, es₂, a, s₁, rfl, h₁, h₂⟩
        exact ⟨e :: es₁, es₂, a, s₁, rfl, run_cons_call.mpr ⟨r, s', hsem, h₁⟩, h₂⟩
      · rintro ⟨es₁, es₂, a, s₁, heq, h₁, h₂⟩
        cases es₁ with
        | nil => cases h₁
        | cons e' es₁ =>
          obtain ⟨rfl, rfl⟩ := List.cons.inj heq
          obtain ⟨r, s', hsem, hrun⟩ := run_cons_call.mp h₁
          exact ⟨r, s', hsem, es₁, es₂, a, s₁, rfl, hrun, h₂⟩

/-! ### The program logic -/

/-- A model of the surroundings of a program: which operations it may call in a
ghost state, and which answers and next ghost states a call may lead to. -/
structure Model (Op : Type) (Ret : Op → Type) (Q : Type) where
  step : (o : Op) → Q → Ret o → Q → Prop
  allowed : Op → Q → Prop

/-- The model of a program that runs alone on the shared state. -/
def Model.ofSem (sem : Sem Op Ret E S) : Model Op Ret S where
  step o s r s' := ∃ e, sem o e s = some (r, s')
  allowed _ _ := True

/-- **Weakest precondition.** From ghost state `q`, `p` only calls allowed
operations and returns only values satisfying `post`. A repeated call is
governed by an invariant `I` of its own. -/
def WP (M : Model Op Ret Q) : Prog Op Ret α → (α → Q → Prop) → Q → Prop
  | ret a, post, q => post a q
  | call o again k, post, q =>
    ∃ I : Q → Prop, I q ∧ ∀ q₁, I q₁ → M.allowed o q₁ ∧
      ∀ r q₂, M.step o q₁ r q₂ → if again r = true then I q₂ else WP M (k r) post q₂

variable {M : Model Op Ret Q}

@[simp] theorem WP.ret_iff {a : α} {post : α → Q → Prop} {q : Q} :
    WP M (ret a) post q ↔ post a q := Iff.rfl

/-- A program about to call is allowed to. -/
theorem WP.allowed {o : Op} {again : Ret o → Bool} {k : Ret o → Prog Op Ret α}
    {post : α → Q → Prop} {q : Q} (h : WP M (call o again k) post q) : M.allowed o q := by
  obtain ⟨I, hI, hcall⟩ := h
  exact (hcall q hI).1

/-- One step of a call preserves the weakest precondition. -/
theorem WP.next {o : Op} {again : Ret o → Bool} {k : Ret o → Prog Op Ret α}
    {post : α → Q → Prop} {q q' : Q} {r : Ret o} (h : WP M (call o again k) post q)
    (hstep : M.step o q r q') :
    WP M (if again r then call o again k else k r) post q' := by
  obtain ⟨I, hI, hcall⟩ := h
  have hr := (hcall q hI).2 r q' hstep
  split
  · next ha =>
    rw [if_pos ha] at hr
    exact ⟨I, hr, hcall⟩
  · next ha =>
    rwa [if_neg ha] at hr

/-- Rule of consequence. -/
theorem WP.mono {p : Prog Op Ret α} {post post' : α → Q → Prop} {q : Q} (h : WP M p post q)
    (hpost : ∀ a q, post a q → post' a q) : WP M p post' q := by
  induction p generalizing q with
  | ret a => exact hpost a q h
  | call o again k ih =>
    obtain ⟨I, hI, hcall⟩ := h
    -- the invariant of the repeated call is kept, and its exit is weakened
    refine ⟨I, hI, fun q₁ hq₁ => ⟨(hcall q₁ hq₁).1, fun r q₂ hstep => ?_⟩⟩
    have hr := (hcall q₁ hq₁).2 r q₂ hstep
    split
    · next ha => rwa [if_pos ha] at hr
    · next ha =>
      rw [if_neg ha] at hr
      exact ih r hr

/-- Rule of sequential composition. -/
theorem WP.bind {p : Prog Op Ret α} {f : α → Prog Op Ret β} {post : β → Q → Prop} {q : Q}
    (h : WP M p (fun a q' => WP M (f a) post q') q) : WP M (p >>= f) post q := by
  induction p generalizing q with
  | ret a => exact h
  | call o again k ih =>
    obtain ⟨I, hI, hcall⟩ := h
    -- the continuation starts where the last call of `p` leaves
    refine ⟨I, hI, fun q₁ hq₁ => ⟨(hcall q₁ hq₁).1, fun r q₂ hstep => ?_⟩⟩
    have hr := (hcall q₁ hq₁).2 r q₂ hstep
    split
    · next ha => rwa [if_pos ha] at hr
    · next ha =>
      rw [if_neg ha] at hr
      exact ih r hr

/-- Rule for a single call. -/
theorem WP.op {o : Op} {post : Ret o → Q → Prop} {q : Q} (ha : M.allowed o q)
    (h : ∀ r q', M.step o q r q' → post r q') : WP M (op o) post q := by
  -- a single call is never repeated, so its invariant is the state itself
  refine ⟨(· = q), rfl, ?_⟩
  rintro q₁ rfl
  exact ⟨ha, fun r q₂ hstep => by simpa using h r q₂ hstep⟩

/-- What the program logic says of a program alone on the shared state holds at
the end of each of its runs. -/
theorem WP.run_sound {sem : Sem Op Ret E S} {post : α → S → Prop} {es : List E}
    {p : Prog Op Ret α} {s s' : S} {a : α} (h : WP (Model.ofSem sem) p post s)
    (hrun : run sem es p s = some (a, s')) : post a s' := by
  induction es generalizing p s with
  | nil =>
    cases p with
    | ret b =>
      obtain ⟨-, heq⟩ := run_ret.mp hrun
      obtain ⟨rfl, rfl⟩ := Prod.mk.inj heq
      exact h
    | call o again k => simp [run] at hrun
  | cons e es ih =>
    cases p with
    | ret b => simp [run] at hrun
    | call o again k =>
      obtain ⟨r, s₁, hsem, hrest⟩ := run_cons_call.mp hrun
      exact ih (h.next ⟨e, hsem⟩) hrest

/-! ### The calls of a run -/

/-- The calls of a run on a script, with their answers. -/
def trace (sem : Sem Op Ret E S) : List E → Prog Op Ret α → S → List (Σ o, Ret o)
  | e :: es, call o again k, s =>
    match sem o e s with
    | some (r, s') => ⟨o, r⟩ :: trace sem es (if again r then call o again k else k r) s'
    | none => []
  | [], _, _ => []
  | _ :: _, ret _, _ => []

/-- The model whose ghost state records what `f` reads off the calls. -/
def Model.recording {W : Type} (f : (Σ o, Ret o) → List W) : Model Op Ret (List W) where
  step o q r q' := q' = q ++ f ⟨o, r⟩
  allowed _ _ := True

/-- **The record is the trace**: what the program logic says of a recorded program holds of the
calls of each of its runs. -/
theorem WP.run_recorded {W : Type} {f : (Σ o, Ret o) → List W} {sem : Sem Op Ret E S}
    {post : α → List W → Prop} {es : List E} {p : Prog Op Ret α} {q : List W} {s s' : S} {a : α}
    (h : WP (Model.recording f) p post q) (hrun : run sem es p s = some (a, s')) :
    post a (q ++ (trace sem es p s).flatMap f) := by
  induction es generalizing p q s with
  | nil =>
    cases p with
    | ret b =>
      obtain ⟨-, heq⟩ := run_ret.mp hrun
      obtain ⟨rfl, rfl⟩ := Prod.mk.inj heq
      rw [trace, List.flatMap_nil, List.append_nil]
      exact h
    | call o again k => cases hrun
  | cons e es ih =>
    cases p with
    | ret b => cases hrun
    | call o again k =>
      obtain ⟨r, s₁, hsem, hrest⟩ := run_cons_call.mp hrun
      have hrec := ih (h.next rfl) hrest
      have htrace : trace sem (e :: es) (call o again k) s
          = ⟨o, r⟩ :: trace sem es (if again r then call o again k else k r) s₁ := by
        rw [trace, hsem]
      rwa [List.append_assoc, ← List.flatMap_cons, ← htrace] at hrec

/-! ### Programs that may fail

A program with an error result is an `ExceptT ε` program; `WP.bindE` is its rule
of sequential composition, the error skipping the rest. -/

/-- Rewrite the error of a program. -/
def mapError {ε' : Type} (f : ε → ε') (x : ExceptT ε (Prog Op Ret) α) :
    ExceptT ε' (Prog Op Ret) α :=
  ExceptT.mk (x.run >>= fun r => ret (r.mapError f))

/-- A composition succeeds when both parts do. -/
theorem run_bindE_ok {sem : Sem Op Ret E S} {es : List E} {x : ExceptT ε (Prog Op Ret) α}
    {f : α → ExceptT ε (Prog Op Ret) β} {s s' : S} {b : β} :
    run sem es (x >>= f).run s = some (.ok b, s') ↔ ∃ es₁ es₂ a s₁, es = es₁ ++ es₂ ∧
      run sem es₁ x.run s = some (.ok a, s₁) ∧ run sem es₂ (f a).run s₁ = some (.ok b, s') := by
  rw [ExceptT.run_bind, run_bind]
  constructor
  · rintro ⟨es₁, es₂, r, s₁, heq, h₁, h₂⟩
    cases r with
    | ok a => exact ⟨es₁, es₂, a, s₁, heq, h₁, h₂⟩
    | error e =>
      obtain ⟨-, hres⟩ := run_ret.mp h₂
      cases hres
  · rintro ⟨es₁, es₂, a, s₁, heq, h₁, h₂⟩
    exact ⟨es₁, es₂, .ok a, s₁, heq, h₁, h₂⟩

theorem run_mapError_ok {ε' : Type} {sem : Sem Op Ret E S} {es : List E} {f : ε → ε'}
    {x : ExceptT ε (Prog Op Ret) α} {s s' : S} {a : α} :
    run sem es (mapError f x).run s = some (.ok a, s') ↔
      run sem es x.run s = some (.ok a, s') := by
  rw [mapError, ExceptT.run_mk, run_bind]
  constructor
  · rintro ⟨es₁, es₂, r, s₁, rfl, h₁, h₂⟩
    obtain ⟨rfl, hres⟩ := run_ret.mp h₂
    obtain ⟨hr, rfl⟩ := Prod.mk.inj hres
    cases r with
    | ok b =>
      obtain rfl := Except.ok.inj hr
      rwa [List.append_nil]
    | error e => cases hr
  · intro h
    exact ⟨es, [], .ok a, s', (List.append_nil es).symm, h, rfl⟩

/-- A composition after a rewritten error, as one continuation of the first part. -/
theorem run_mapError_bindE {ε' : Type} (f : ε → ε') (x : ExceptT ε (Prog Op Ret) α)
    (g : α → ExceptT ε' (Prog Op Ret) β) :
    (mapError f x >>= g).run = x.run >>= fun r => match r with
      | .ok a => (g a).run
      | .error e => ret (.error (f e)) := by
  rw [ExceptT.run_bind, mapError, ExceptT.run_mk, bind_assoc]
  congr 1
  funext r
  cases r <;> rfl

theorem WP.bindE {x : ExceptT ε (Prog Op Ret) α} {f : α → ExceptT ε (Prog Op Ret) β}
    {post : Except ε β → Q → Prop} {q : Q}
    (h : WP M x.run (fun r q' => match r with
      | .ok a => WP M (f a).run post q'
      | .error e => post (.error e) q') q) :
    WP M (x >>= f).run post q := by
  rw [ExceptT.run_bind]
  refine WP.bind (h.mono fun r q' hr => ?_)
  cases r with
  | ok a => exact hr
  | error e => exact hr

/-- Where only a success is promised anything, the parts of a composition have to succeed. -/
theorem WP.bindE_ok {x : ExceptT ε (Prog Op Ret) α} {f : α → ExceptT ε (Prog Op Ret) β}
    {post : β → Q → Prop} {q : Q}
    (h : WP M x.run (fun r q' => ∀ a, r = .ok a →
      WP M (f a).run (fun r' q'' => ∀ b, r' = .ok b → post b q'') q') q) :
    WP M (x >>= f).run (fun r q' => ∀ b, r = .ok b → post b q') q := by
  refine WP.bindE (h.mono fun r q' hr => ?_)
  cases r with
  | ok a => exact hr a rfl
  | error e => exact fun b hb => by cases hb

theorem WP.pureE {a : α} {post : Except ε α → Q → Prop} {q : Q} (h : post (.ok a) q) :
    WP M (Pure.pure a : ExceptT ε (Prog Op Ret) α).run post q := h

theorem WP.throwE {e : ε} {post : Except ε α → Q → Prop} {q : Q} (h : post (.error e) q) :
    WP M (throw e : ExceptT ε (Prog Op Ret) α).run post q := h

theorem WP.liftE {p : Prog Op Ret α} {post : Except ε α → Q → Prop} {q : Q}
    (h : WP M p (fun a q' => post (.ok a) q') q) :
    WP M (liftM p : ExceptT ε (Prog Op Ret) α).run post q := by
  -- a lifted program runs and reports success
  have hrun : (liftM p : ExceptT ε (Prog Op Ret) α).run = p >>= fun a => ret (.ok a) := by
    show (ExceptT.lift p).run = _
    rw [ExceptT.run_lift, map_eq_pure_bind]
    rfl
  rw [hrun]
  exact WP.bind h

theorem WP.mapErrorE {ε' : Type} {f : ε → ε'} {x : ExceptT ε (Prog Op Ret) α}
    {post : Except ε' α → Q → Prop} {q : Q}
    (h : WP M x.run (fun r q' => post (r.mapError f) q') q) :
    WP M (mapError f x).run post q := WP.bind h

/-! ### Total correctness -/

/-- **Total correctness**, alone on the shared state: the program has a run, and each of its
runs returns a value that satisfies `post`. -/
structure Succeeds (sem : Sem Op Ret E S) (x : ExceptT ε (Prog Op Ret) α) (post : α → S → Prop)
    (s : S) : Prop where
  runs : ∃ es r s', run sem es x.run s = some (r, s')
  ok : ∀ es r s', run sem es x.run s = some (r, s') → ∃ a, r = .ok a ∧ post a s'

namespace Succeeds

variable {sem : Sem Op Ret E S} {s : S}

theorem mono {x : ExceptT ε (Prog Op Ret) α} {post post' : α → S → Prop}
    (h : Succeeds sem x post s) (hpost : ∀ a s', post a s' → post' a s') :
    Succeeds sem x post' s := by
  refine ⟨h.runs, fun es r s' hrun => ?_⟩
  obtain ⟨a, hr, ha⟩ := h.ok es r s' hrun
  exact ⟨a, hr, hpost a s' ha⟩

theorem pureE {a : α} {post : α → S → Prop} (h : post a s) :
    Succeeds sem (Pure.pure a : ExceptT ε (Prog Op Ret) α) post s := by
  refine ⟨⟨[], .ok a, s, rfl⟩, fun es r s' hrun => ?_⟩
  obtain ⟨-, heq⟩ := run_ret.mp hrun
  obtain ⟨rfl, rfl⟩ := Prod.mk.inj heq
  exact ⟨a, rfl, h⟩

/-- A composition succeeds when its parts do. -/
theorem bindE {x : ExceptT ε (Prog Op Ret) α} {f : α → ExceptT ε (Prog Op Ret) β}
    {post : β → S → Prop} (h : Succeeds sem x (fun a s' => Succeeds sem (f a) post s') s) :
    Succeeds sem (x >>= f) post s := by
  constructor
  · obtain ⟨es₁, r, s₁, h₁⟩ := h.runs
    obtain ⟨a, rfl, ha⟩ := h.ok es₁ r s₁ h₁
    obtain ⟨es₂, r, s₂, h₂⟩ := ha.runs
    obtain ⟨b, rfl, -⟩ := ha.ok es₂ r s₂ h₂
    exact ⟨es₁ ++ es₂, .ok b, s₂, run_bindE_ok.mpr ⟨es₁, es₂, a, s₁, rfl, h₁, h₂⟩⟩
  · intro es r s' hrun
    rw [ExceptT.run_bind, run_bind] at hrun
    obtain ⟨es₁, es₂, r₁, s₁, -, h₁, h₂⟩ := hrun
    obtain ⟨a, rfl, ha⟩ := h.ok es₁ r₁ s₁ h₁
    exact ha.ok es₂ r s' h₂

theorem mapErrorE {ε' : Type} {f : ε → ε'} {x : ExceptT ε (Prog Op Ret) α} {post : α → S → Prop}
    (h : Succeeds sem x post s) : Succeeds sem (mapError f x) post s := by
  constructor
  · obtain ⟨es, r, s', hrun⟩ := h.runs
    obtain ⟨a, rfl, -⟩ := h.ok es r s' hrun
    exact ⟨es, .ok a, s', run_mapError_ok.mpr hrun⟩
  · intro es r s' hrun
    rw [mapError, ExceptT.run_mk, run_bind] at hrun
    obtain ⟨es₁, es₂, r₁, s₁, -, h₁, h₂⟩ := hrun
    obtain ⟨a, rfl, ha⟩ := h.ok es₁ r₁ s₁ h₁
    obtain ⟨-, heq⟩ := run_ret.mp h₂
    obtain ⟨rfl, rfl⟩ := Prod.mk.inj heq
    exact ⟨a, rfl, ha⟩

end Succeeds

/-! ### Programs by the calls they make -/

/-- Every call the program may make satisfies `φ`. -/
def Calls (φ : Op → Prop) : Prog Op Ret α → Prop
  | ret _ => True
  | call o _ k => φ o ∧ ∀ r, Calls φ (k r)

variable {φ : Op → Prop}

theorem Calls.mono {ψ : Op → Prop} (h : ∀ o, φ o → ψ o) {p : Prog Op Ret α} (hp : Calls φ p) :
    Calls ψ p := by
  induction p with
  | ret a => trivial
  | call o again k ih => exact ⟨h o hp.1, fun r => ih r (hp.2 r)⟩

theorem Calls.ret (a : α) : Calls φ (ret a : Prog Op Ret α) := trivial

theorem Calls.op {o : Op} (h : φ o) : Calls φ (op o : Prog Op Ret (Ret o)) :=
  ⟨h, fun _ => trivial⟩

theorem Calls.bind {p : Prog Op Ret α} {f : α → Prog Op Ret β} (hp : Calls φ p)
    (hf : ∀ a, Calls φ (f a)) : Calls φ (p >>= f) := by
  induction p with
  | ret a => exact hf a
  | call o again k ih => exact ⟨hp.1, fun r => ih r (hp.2 r)⟩

theorem Calls.bindE {x : ExceptT ε (Prog Op Ret) α} {f : α → ExceptT ε (Prog Op Ret) β}
    (hx : Calls φ x.run) (hf : ∀ a, Calls φ (f a).run) : Calls φ (x >>= f).run := by
  rw [ExceptT.run_bind]
  refine hx.bind fun r => ?_
  cases r with
  | ok a => exact hf a
  | error e => exact Calls.ret _

theorem Calls.mapErrorE {ε' : Type} {f : ε → ε'} {x : ExceptT ε (Prog Op Ret) α}
    (hx : Calls φ x.run) : Calls φ (mapError f x).run :=
  hx.bind fun _ => Calls.ret _

theorem Calls.pureE (a : α) : Calls φ (Pure.pure a : ExceptT ε (Prog Op Ret) α).run :=
  Calls.ret _

theorem Calls.liftE {p : Prog Op Ret α} (hp : Calls φ p) :
    Calls φ (liftM p : ExceptT ε (Prog Op Ret) α).run := by
  have hrun : (liftM p : ExceptT ε (Prog Op Ret) α).run = p >>= fun a => Prog.ret (.ok a) := by
    show (ExceptT.lift p).run = _
    rw [ExceptT.run_lift, map_eq_pure_bind]
    rfl
  rw [hrun]
  exact hp.bind fun a => Calls.ret _

/-- A program whose calls are allowed under an invariant and keep it. -/
theorem WP.of_calls {I : Q → Prop}
    (h : ∀ o, φ o → ∀ q, I q → M.allowed o q ∧ ∀ r q', M.step o q r q' → I q')
    {p : Prog Op Ret α} (hp : Calls φ p) {q : Q} (hq : I q) : WP M p (fun _ q' => I q') q := by
  induction p generalizing q with
  | ret a => exact hq
  | call o again k ih =>
    -- `I` also serves as the invariant of every repeated call
    refine ⟨I, hq, fun q₁ hq₁ => ⟨(h o hp.1 q₁ hq₁).1, fun r q₂ hstep => ?_⟩⟩
    have hI := (h o hp.1 q₁ hq₁).2 r q₂ hstep
    split
    · exact hI
    · exact ih r (hp.2 r) hI

/-- Every value the program may return satisfies `P`. -/
def Returns (P : α → Prop) : Prog Op Ret α → Prop
  | ret a => P a
  | call _ _ k => ∀ r, Returns P (k r)

theorem Returns.bind {P : β → Prop} {p : Prog Op Ret α} {f : α → Prog Op Ret β}
    (hf : ∀ a, Returns P (f a)) : Returns P (p >>= f) := by
  induction p with
  | ret a => exact hf a
  | call o again k ih => exact fun r => ih r

theorem Returns.bind_mapErrorE {ε' : Type} {P : Except ε' β → Prop} {f : ε → ε'}
    {x : ExceptT ε (Prog Op Ret) α} {g : α → ExceptT ε' (Prog Op Ret) β}
    (herr : ∀ e, P (.error (f e))) (hg : ∀ a, Returns P (g a).run) :
    Returns P (mapError f x >>= g).run := by
  rw [run_mapError_bindE]
  refine Returns.bind fun r => ?_
  cases r with
  | ok a => exact hg a
  | error e => exact herr e

theorem Returns.liftE_bind {P : Except ε β → Prop} {p : Prog Op Ret α}
    {g : α → ExceptT ε (Prog Op Ret) β} (hg : ∀ a, Returns P (g a).run) :
    Returns P ((liftM p : ExceptT ε (Prog Op Ret) α) >>= g).run := by
  have hrun : ((liftM p : ExceptT ε (Prog Op Ret) α) >>= g).run = p >>= fun a => (g a).run := by
    rw [ExceptT.run_bind]
    show (ExceptT.lift p).run >>= _ = _
    rw [ExceptT.run_lift, map_eq_pure_bind, bind_assoc]
    rfl
  rw [hrun]
  exact Returns.bind hg

/-- What a program returns in any case may be added to its postcondition. -/
theorem WP.and_returns {P : α → Prop} {p : Prog Op Ret α} {post : α → Q → Prop} {q : Q}
    (h : WP M p post q) (hp : Returns P p) : WP M p (fun a q' => post a q' ∧ P a) q := by
  induction p generalizing q with
  | ret a => exact ⟨h, hp⟩
  | call o again k ih =>
    obtain ⟨I, hI, hcall⟩ := h
    refine ⟨I, hI, fun q₁ hq₁ => ⟨(hcall q₁ hq₁).1, fun r q₂ hstep => ?_⟩⟩
    have hr := (hcall q₁ hq₁).2 r q₂ hstep
    split
    · next ha => rwa [if_pos ha] at hr
    · next ha =>
      rw [if_neg ha] at hr
      exact ih r hr (hp r)

/-! ### Programs that keep an invariant -/

/-- From every ghost state that satisfies `I`, the program is allowed all its calls,
and `I` holds again when it returns. -/
def Keeps (M : Model Op Ret Q) (I : Q → Prop) (p : Prog Op Ret α) : Prop :=
  ∀ q, I q → WP M p (fun _ q' => I q') q

variable {I : Q → Prop}

/-- A program whose calls keep an invariant keeps it. -/
theorem Keeps.of_calls
    (h : ∀ o, φ o → ∀ q, I q → M.allowed o q ∧ ∀ r q', M.step o q r q' → I q')
    {p : Prog Op Ret α} (hp : Calls φ p) : Keeps M I p := fun _ hq => WP.of_calls h hp hq

theorem Keeps.ret (a : α) : Keeps M I (ret a : Prog Op Ret α) := fun _ hq => hq

theorem Keeps.op {o : Op}
    (h : ∀ q, I q → M.allowed o q ∧ ∀ r q', M.step o q r q' → I q') :
    Keeps M I (op o : Prog Op Ret (Ret o)) :=
  fun q hq => WP.op (h q hq).1 (h q hq).2

theorem Keeps.bind {p : Prog Op Ret α} {f : α → Prog Op Ret β} (hp : Keeps M I p)
    (hf : ∀ a, Keeps M I (f a)) : Keeps M I (p >>= f) :=
  fun q hq => WP.bind ((hp q hq).mono fun a q' hq' => hf a q' hq')

theorem Keeps.pureE (a : α) : Keeps M I (Pure.pure a : ExceptT ε (Prog Op Ret) α).run :=
  Keeps.ret _

theorem Keeps.bindE {x : ExceptT ε (Prog Op Ret) α} {f : α → ExceptT ε (Prog Op Ret) β}
    (hx : Keeps M I x.run) (hf : ∀ a, Keeps M I (f a).run) : Keeps M I (x >>= f).run := by
  refine fun q hq => WP.bindE ((hx q hq).mono fun r q' hq' => ?_)
  cases r with
  | ok a => exact hf a q' hq'
  | error e => exact hq'

theorem Keeps.liftE {p : Prog Op Ret α} (hp : Keeps M I p) :
    Keeps M I (liftM p : ExceptT ε (Prog Op Ret) α).run :=
  fun q hq => WP.liftE (hp q hq)

/-! ### Programs that keep an invariant, or fail and leave another one -/

/-- A success leaves `I` behind and a value that satisfies `P`, a failure leaves `F` behind. -/
def Outcome (I F : Q → Prop) (P : α → Prop) : Except ε α → Q → Prop
  | .ok a, q => I q ∧ P a
  | .error _, q => F q

/-- From every ghost state that satisfies `I`, the program is allowed all its calls, and it
succeeds with `I` or fails with `F`. -/
def KeepsOr (M : Model Op Ret Q) (I F : Q → Prop) (P : α → Prop) (x : ExceptT ε (Prog Op Ret) α) :
    Prop :=
  ∀ q, I q → WP M x.run (Outcome I F P) q

namespace KeepsOr

variable {F : Q → Prop} {P : α → Prop}

theorem pureE {a : α} (h : P a) :
    KeepsOr M I F P (Pure.pure a : ExceptT ε (Prog Op Ret) α) := fun _ hq => ⟨hq, h⟩

theorem liftE {p : Prog Op Ret α} (hp : Keeps M I p) :
    KeepsOr M I F (fun _ => True) (liftM p : ExceptT ε (Prog Op Ret) α) :=
  fun q hq => WP.liftE ((hp q hq).mono fun _ _ hq' => ⟨hq', trivial⟩)

theorem bindE {P' : β → Prop} {x : ExceptT ε (Prog Op Ret) α}
    {f : α → ExceptT ε (Prog Op Ret) β} (hx : KeepsOr M I F P x)
    (hf : ∀ a, P a → KeepsOr M I F P' (f a)) : KeepsOr M I F P' (x >>= f) := by
  refine fun q hq => WP.bindE ((hx q hq).mono fun r q' hr => ?_)
  cases r with
  | ok a => exact hf a hr.2 q' hr.1
  | error e => exact hr

theorem mapErrorE {ε' : Type} {f : ε → ε'} {x : ExceptT ε (Prog Op Ret) α}
    (hx : KeepsOr M I F P x) : KeepsOr M I F P (mapError f x) := by
  refine fun q hq => WP.mapErrorE ((hx q hq).mono fun r q' hr => ?_)
  cases r with
  | ok a => exact hr
  | error e => exact hr

end KeepsOr

end Prog
