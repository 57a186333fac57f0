import Mathlib
import RngService.Lib.Program

/-!
# Interleaved programs

A `Pool` is a list of programs sharing one state, together with the trace of
the calls made so far (`Event`: who called, on which environment input, what, and
the answer). A schedule is
a list of pairs `(i, e)`: program `i` makes its next call with environment
input `e`. `Pool.run` follows a schedule under a policy, which decides from the
pool who may move: `anyOrder` leaves the order free, `oneAtATime` lets a
program move only when all earlier ones have returned, which makes the pool a
sequence of requests served one after another.

`Pool.run_sound` transports the program logic to pools. Each program is
verified alone against a model over its own ghost state; a global invariant `J`
ties the pool to the ghost states of all programs. If every call keeps `J` with
some next ghost state that the caller's model allows, then `J` holds in every
pool reached and every program is still correct from its current ghost state.
-/

namespace Prog

variable {Op : Type} {Ret : Op → Type} {E S Q α : Type}

/-- A call that has been made: the index of the caller, the environment input,
the operation and its answer. -/
structure Event (Op : Type) (Ret : Op → Type) (E : Type) where
  caller : ℕ
  input : E
  op : Op
  answer : Ret op

/-- A property of each item of a list and the items before it. -/
def Stepwise {β : Type} (P : List β → β → Prop) (l : List β) : Prop :=
  ∀ k (h : k < l.length), P (l.take k) l[k]

instance {β : Type} {P : List β → β → Prop} [DecidableRel P] (l : List β) :
    Decidable (Stepwise P l) :=
  inferInstanceAs (Decidable (∀ k (h : k < l.length), P (l.take k) l[k]))

theorem stepwise_nil {β : Type} (P : List β → β → Prop) : Stepwise P [] :=
  fun _ h => absurd h (Nat.not_lt_zero _)

theorem Stepwise.initial {β : Type} {P : List β → β → Prop} {l l' : List β} (h : Stepwise P l')
    (hl : l <+: l') : Stepwise P l := by
  obtain ⟨rest, rfl⟩ := hl
  intro k hk
  have hk' := h k (by rw [List.length_append]; omega)
  rwa [List.take_append_of_le_length hk.le, List.getElem_append_left hk] at hk'

theorem stepwise_concat {β : Type} {P : List β → β → Prop} {l : List β} {b : β} :
    Stepwise P (l ++ [b]) ↔ Stepwise P l ∧ P l b := by
  constructor
  · refine fun h => ⟨h.initial (List.prefix_append _ _), ?_⟩
    · have hlast := h l.length (by simp)
      rwa [List.take_left, List.getElem_concat_length rfl] at hlast
  · rintro ⟨h, hb⟩ k hk
    rw [List.length_append, List.length_singleton] at hk
    rcases Nat.lt_or_eq_of_le (Nat.lt_succ_iff.mp hk) with hlt | rfl
    · rw [List.take_append_of_le_length hlt.le, List.getElem_append_left hlt]
      exact h k hlt
    · rwa [List.take_left, List.getElem_concat_length rfl]

/-- Programs sharing a state, and the calls they have made so far. -/
structure Pool (Op : Type) (Ret : Op → Type) (E α S : Type) where
  threads : List (Prog Op Ret α)
  state : S
  trace : List (Event Op Ret E)

namespace Pool

/-- The pool at the start: no call has been made. -/
def init (ps : List (Prog Op Ret α)) (s : S) : Pool Op Ret E α S := ⟨ps, s, []⟩

/-- The pool after the call `ev`, whose caller moved on to `p`, leaving the
state `s`. -/
def moved (c : Pool Op Ret E α S) (p : Prog Op Ret α) (s : S) (ev : Event Op Ret E) :
    Pool Op Ret E α S :=
  ⟨c.threads.set ev.caller p, s, c.trace ++ [ev]⟩

/-- After a call of thread `i` a thread is that one, moved on, or as it was. -/
theorem threads_moved {c : Pool Op Ret E α S} {p p' : Prog Op Ret α} {s : S} {i j : ℕ} {e : E}
    {o : Op} {r : Ret o} (h : (c.moved p s ⟨i, e, o, r⟩).threads[j]? = some p') :
    (j = i ∧ p' = p) ∨ (j ≠ i ∧ c.threads[j]? = some p') := by
  rw [moved] at h
  by_cases hji : j = i
  · subst hji
    obtain ⟨hlen, heq⟩ := List.getElem?_eq_some_iff.mp h
    rw [List.getElem_set_self] at heq
    exact Or.inl ⟨rfl, heq.symm⟩
  · rw [List.getElem?_set_ne (Ne.symm hji)] at h
    exact Or.inr ⟨hji, h⟩

/-- A scheduling policy: may thread `i` move in this pool, on this input? -/
abbrev Policy (Op : Type) (Ret : Op → Type) (E α S : Type) : Type :=
  Pool Op Ret E α S → ℕ → E → Bool

/-- Every order of the calls is possible. -/
def anyOrder : Policy Op Ret E α S := fun _ _ _ => true

/-- A thread moves only when all threads before it have returned. -/
def oneAtATime : Policy Op Ret E α S := fun c i _ => (c.threads.take i).all isRet

/-- One call of thread `x.1` on the input `x.2`. -/
def step (sem : Sem Op Ret E S) (policy : Policy Op Ret E α S) (c : Pool Op Ret E α S) (x : ℕ × E) :
    Option (Pool Op Ret E α S) :=
  match c.threads[x.1]? with
  | some (call o again k) =>
    if policy c x.1 x.2 then
      (sem o x.2 c.state).map fun rs =>
        c.moved (if again rs.1 then call o again k else k rs.1) rs.2 ⟨x.1, x.2, o, rs.1⟩
    else none
  | _ => none

/-- Follow a schedule. -/
def run (sem : Sem Op Ret E S) (policy : Policy Op Ret E α S) :
    List (ℕ × E) → Pool Op Ret E α S → Option (Pool Op Ret E α S)
  | [], c => some c
  | x :: xs, c => (step sem policy c x).bind (run sem policy xs)

variable {sem : Sem Op Ret E S} {policy : Policy Op Ret E α S}

/-- **Inversion of a step.** The moving thread was about to call, the policy let
it, the operation was not blocked, and nothing but that thread, the state and
the trace changed. -/
theorem step_cases {c c' : Pool Op Ret E α S} {x : ℕ × E} (h : step sem policy c x = some c') :
    ∃ o again k r s, c.threads[x.1]? = some (call o again k) ∧ policy c x.1 x.2 = true ∧
      sem o x.2 c.state = some (r, s) ∧
      c' = c.moved (if again r then call o again k else k r) s ⟨x.1, x.2, o, r⟩ := by
  rw [step] at h
  split at h
  · next o again k hthread =>
    split at h
    · next hpol =>
      rw [Option.map_eq_some_iff] at h
      obtain ⟨⟨r, s⟩, hsem, rfl⟩ := h
      exact ⟨o, again, k, r, s, hthread, hpol, hsem, rfl⟩
    · cases h
  · cases h

/-- An invariant kept by every step holds in every pool reached. -/
theorem run_induction {J : Pool Op Ret E α S → Prop}
    (hstep : ∀ c c' x, J c → step sem policy c x = some c' → J c') {sched : List (ℕ × E)}
    {c c' : Pool Op Ret E α S} (hJ : J c) (hrun : run sem policy sched c = some c') : J c' := by
  induction sched generalizing c with
  | nil =>
    obtain rfl := Option.some.inj hrun
    exact hJ
  | cons x xs ih =>
    obtain ⟨c₁, hs, hr⟩ := Option.bind_eq_some_iff.mp hrun
    exact ih (hstep c c₁ x hJ hs) hr

/-- **Soundness of the program logic for pools.** `M i` and `post i` are the
model and the postcondition of thread `i`, and `J` ties the pool to the ghost
states. A step of thread `i` has to find a next ghost state of `i` that `M i`
allows and with which `J` holds again. -/
theorem run_sound {M : ℕ → Model Op Ret Q} {post : ℕ → α → Q → Prop}
    {J : Pool Op Ret E α S → (ℕ → Q) → Prop}
    (hstep : ∀ (c : Pool Op Ret E α S) (g : ℕ → Q) (i : ℕ) (e : E) (o : Op) (again : Ret o → Bool)
      (k : Ret o → Prog Op Ret α) (r : Ret o) (s : S),
      J c g → policy c i e = true → c.threads[i]? = some (call o again k) →
      (M i).allowed o (g i) → sem o e c.state = some (r, s) →
      ∃ q, (M i).step o (g i) r q ∧
        J (c.moved (if again r then call o again k else k r) s ⟨i, e, o, r⟩)
          (Function.update g i q))
    {sched : List (ℕ × E)} {c c' : Pool Op Ret E α S} {g : ℕ → Q} (hJ : J c g)
    (hwp : ∀ i p, c.threads[i]? = some p → WP (M i) p (post i) (g i))
    (hrun : run sem policy sched c = some c') :
    ∃ g', J c' g' ∧ ∀ i p, c'.threads[i]? = some p → WP (M i) p (post i) (g' i) := by
  refine run_induction
    (J := fun c => ∃ g, J c g ∧ ∀ i p, c.threads[i]? = some p → WP (M i) p (post i) (g i))
    ?_ ⟨g, hJ, hwp⟩ hrun
  rintro c₁ c₂ ⟨i, e⟩ ⟨g₁, hJ₁, hwp₁⟩ hs
  -- the call is allowed, since the caller is correct
  obtain ⟨o, again, k, r, s, hthread, hpol, hsem, rfl⟩ := step_cases hs
  have hcall := hwp₁ i _ hthread
  obtain ⟨q, hq, hJ₂⟩ := hstep c₁ g₁ i e o again k r s hJ₁ hpol hthread hcall.allowed hsem
  refine ⟨Function.update g₁ i q, hJ₂, ?_⟩
  intro j p hj
  -- the mover is correct from its next ghost state, all others are unchanged
  rcases threads_moved hj with ⟨rfl, rfl⟩ | ⟨hji, hj⟩
  · rw [Function.update_self]
    exact hcall.next hq
  · rw [Function.update_of_ne hji]
    exact hwp₁ j p hj

theorem run_append {xs ys : List (ℕ × E)} {c c' : Pool Op Ret E α S} :
    run sem policy (xs ++ ys) c = some c' ↔
      ∃ c₁, run sem policy xs c = some c₁ ∧ run sem policy ys c₁ = some c' := by
  induction xs generalizing c with
  | nil => simp [run]
  | cons x xs ih =>
    simp only [List.cons_append, run, Option.bind_eq_some_iff, ih]
    constructor
    · rintro ⟨c₁, hs, c₂, h₁, h₂⟩
      exact ⟨c₂, ⟨c₁, hs, h₁⟩, h₂⟩
    · rintro ⟨c₂, ⟨c₁, hs, h₁⟩, h₂⟩
      exact ⟨c₁, hs, c₂, h₁, h₂⟩

theorem run_concat {xs : List (ℕ × E)} {x : ℕ × E} {c c' : Pool Op Ret E α S} :
    run sem policy (xs ++ [x]) c = some c' ↔
      ∃ c₁, run sem policy xs c = some c₁ ∧ step sem policy c₁ x = some c' := by
  simp [run_append, run]

/-- A run under a policy is a run under every more liberal one. -/
theorem run_weaken {policy' : Policy Op Ret E α S}
    (hp : ∀ c i e, policy c i e = true → policy' c i e = true) {sched : List (ℕ × E)}
    {c c' : Pool Op Ret E α S} (hrun : run sem policy sched c = some c') :
    run sem policy' sched c = some c' := by
  induction sched generalizing c with
  | nil => exact hrun
  | cons x xs ih =>
    obtain ⟨c₁, hs, hrest⟩ := Option.bind_eq_some_iff.mp hrun
    obtain ⟨o, again, k, r, s, hthread, hpol, hsem, rfl⟩ := step_cases hs
    refine Option.bind_eq_some_iff.mpr ⟨_, ?_, ih hrest⟩
    rw [step, hthread]
    simp only [hp _ _ _ hpol, if_true, hsem, Option.map_some]

/-- A schedule that continues another one adds to its trace. -/
theorem run_trace_mono {xs sched : List (ℕ × E)} (hxs : xs <+: sched) {c c₁ c₂ : Pool Op Ret E α S}
    (h₁ : run sem policy xs c = some c₁) (h₂ : run sem policy sched c = some c₂) :
    c₁.trace <+: c₂.trace := by
  obtain ⟨ys, rfl⟩ := hxs
  induction ys using List.reverseRecOn generalizing c₂ with
  | nil =>
    rw [List.append_nil, h₁] at h₂
    obtain rfl := Option.some.inj h₂
    exact List.prefix_rfl
  | append_singleton ys y ih =>
    rw [← List.append_assoc, run_concat] at h₂
    obtain ⟨c', hrun, hs⟩ := h₂
    obtain ⟨o, again, k, r, s, -, -, -, rfl⟩ := step_cases hs
    exact (ih hrun).trans (List.prefix_append _ _)

/-- Every point of a trace is reached by the start of the schedule. -/
theorem run_reaches {sched : List (ℕ × E)} {ps : List (Prog Op Ret α)} {s₀ : S}
    {c : Pool Op Ret E α S} (hrun : run sem policy sched (init ps s₀) = some c)
    {tr : List (Event Op Ret E)} (htr : tr <+: c.trace) :
    ∃ xs c', xs <+: sched ∧ run sem policy xs (init ps s₀) = some c' ∧ c'.trace = tr := by
  induction sched using List.reverseRecOn generalizing c with
  | nil =>
    obtain rfl := Option.some.inj hrun
    exact ⟨[], init ps s₀, List.prefix_rfl, rfl, (List.prefix_nil.mp htr).symm⟩
  | append_singleton sched x ih =>
    obtain ⟨c₁, hrun₁, hs⟩ := run_concat.mp hrun
    obtain ⟨o, again, k, r, s, -, -, -, rfl⟩ := step_cases hs
    -- a step adds one event, so a prefix is the whole trace or an earlier one
    rcases List.prefix_concat_iff.mp htr with rfl | htr
    · exact ⟨sched ++ [x], _, List.prefix_rfl, hrun, rfl⟩
    · obtain ⟨xs, c', hxs, hc', rfl⟩ := ih hrun₁ htr
      exact ⟨xs, c', hxs.trans (List.prefix_append _ _), hc', rfl⟩

/-- The number of threads never changes. -/
theorem run_length {sched : List (ℕ × E)} {c c' : Pool Op Ret E α S}
    (hrun : run sem policy sched c = some c') : c'.threads.length = c.threads.length := by
  refine run_induction (J := fun d => d.threads.length = c.threads.length) ?_ rfl hrun
  rintro c₁ c₂ x hJ hs
  obtain ⟨o, again, k, r, s, -, -, -, rfl⟩ := step_cases hs
  simpa [moved] using hJ

/-! ### One thread for a while

A stretch of a run in which a single thread moves is a run of that thread alone. -/

/-- The surroundings of thread `i` while nobody else moves: the shared state and the trace
so far. The inputs satisfy `P`. -/
def soloModel (sem : Sem Op Ret E S) (P : E → Prop) (i : ℕ) :
    Model Op Ret (S × List (Event Op Ret E)) where
  step o x r x' := ∃ e s, P e ∧ sem o e x.1 = some (r, s) ∧ x' = (s, x.2 ++ [⟨i, e, o, r⟩])
  allowed _ _ := True

/-- **Soundness of the program logic for a stretch of a run**: thread `i` runs the part `p`
of its program, from the state and the trace that it finds. -/
theorem run_solo {β : Type} {P : ℕ → E → Prop} (hP : ∀ c i e, policy c i e = true → P i e) {i : ℕ}
    {es : List E} {p : Prog Op Ret β} {k : β → Prog Op Ret α}
    {post : β → S × List (Event Op Ret E) → Prop} {c c' : Pool Op Ret E α S} {b : β} {s : S}
    (hwp : WP (soloModel sem (P i) i) p post (c.state, c.trace))
    (hthread : c.threads[i]? = some (p >>= k))
    (hpool : run sem policy (es.map (i, ·)) c = some c')
    (hrun : Prog.run sem es p c.state = some (b, s)) :
    c'.threads[i]? = some (k b) ∧ c'.state = s ∧ post b (c'.state, c'.trace) := by
  induction es generalizing p c with
  | nil =>
    obtain rfl := Option.some.inj hpool
    cases p with
    | call o again k' => cases hrun
    | ret b' =>
      obtain ⟨rfl, rfl⟩ := Prod.mk.inj (Option.some.inj hrun)
      exact ⟨hthread, rfl, hwp⟩
  | cons e es ih =>
    cases p with
    | ret b' => cases hrun
    | call o again k' =>
      obtain ⟨c₁, hs, hpool⟩ := Option.bind_eq_some_iff.mp hpool
      obtain ⟨r, s₁, hsem, hrun⟩ := run_cons_call.mp hrun
      -- the pool makes the call that the program makes alone
      obtain ⟨o', again', k'', r', s', hthread', hpol, hsem', rfl⟩ := step_cases hs
      rw [hthread, call_bind] at hthread'
      obtain ⟨rfl, rfl, rfl⟩ := call.inj (Option.some.inj hthread')
      obtain ⟨rfl, rfl⟩ := Prod.mk.inj (Option.some.inj (hsem.symm.trans hsem'))
      have hlen : i < c.threads.length := (List.getElem?_eq_some_iff.mp hthread).1
      refine ih (p := if again r then call o again k' else k' r)
        (hwp.next ⟨e, s₁, hP _ _ _ hpol, hsem, rfl⟩) ?_ hpool hrun
      rw [moved, List.getElem?_set_self hlen]
      split <;> rfl

/-! ### One thread at a time -/

/-- Whoever has moved under `oneAtATime` finds every earlier thread returned. -/
def Turns (c : Pool Op Ret E α S) : Prop :=
  (∀ ev ∈ c.trace, (c.threads.take ev.caller).all isRet = true) ∧
    (c.trace.map Event.caller).Pairwise (· ≤ ·)

theorem turns_init (ps : List (Prog Op Ret α)) (s : S) :
    Turns (init ps s : Pool Op Ret E α S) :=
  ⟨fun _ hx => absurd hx List.not_mem_nil, List.Pairwise.nil⟩

/-- A thread that is about to call is returned for nobody after it. -/
theorem not_all_isRet_take {ts : List (Prog Op Ret α)} {i j : ℕ} {o : Op} {again : Ret o → Bool}
    {k : Ret o → Prog Op Ret α} (hi : ts[i]? = some (call o again k)) (hij : i < j) :
    (ts.take j).all isRet = false := by
  rw [List.all_eq_false]
  refine ⟨call o again k, ?_, by simp [isRet]⟩
  rw [List.mem_iff_getElem?]
  exact ⟨i, by rw [List.getElem?_take_of_lt hij, hi]⟩

theorem Turns.step {policy : Policy Op Ret E α S} (hp : ∀ c i e, policy c i e = true →
      (oneAtATime : Policy Op Ret E α S) c i e = true)
    {c c' : Pool Op Ret E α S} {x : ℕ × E} (hJ : Turns c)
    (hs : Pool.step sem policy c x = some c') : Turns c' := by
  obtain ⟨o, again, k, r, s, hthread, hpol, -, rfl⟩ := step_cases hs
  obtain ⟨hret, hsorted⟩ := hJ
  -- nobody after the mover has moved yet: it would have found the mover returned
  have hle : ∀ y ∈ c.trace, y.caller ≤ x.1 := by
    intro y hy
    by_contra hlt
    have h1 := hret y hy
    rw [not_all_isRet_take hthread (by omega)] at h1
    cases h1
  -- the threads before the mover are as before
  have htake : ∀ j ≤ x.1, ∀ p, (c.threads.set x.1 p).take j = c.threads.take j := by
    intro j hj p
    rw [List.take_set_of_le hj]
  refine ⟨?_, ?_⟩
  · intro y hy
    simp only [moved, List.mem_append, List.mem_singleton] at hy
    rcases hy with hy | rfl
    · rw [moved, htake _ (hle y hy)]
      exact hret y hy
    · rw [moved, htake _ le_rfl]
      exact hp c _ _ hpol
  · rw [moved, List.map_append, List.pairwise_append]
    refine ⟨hsorted, by simp, ?_⟩
    intro a ha b hb
    obtain ⟨y, hy, rfl⟩ := List.mem_map.mp ha
    -- the new caller is not before any earlier one
    obtain rfl : b = x.1 := by simpa using hb
    exact hle y hy

/-- **Under `oneAtATime` the calls are made in the order of the threads.** -/
theorem run_turns {policy : Policy Op Ret E α S} (hp : ∀ c i e, policy c i e = true →
      (oneAtATime : Policy Op Ret E α S) c i e = true)
    {sched : List (ℕ × E)} {c c' : Pool Op Ret E α S} (hJ : Turns c)
    (hrun : run sem policy sched c = some c') : Turns c' :=
  run_induction (fun _ _ _ h hs => h.step hp hs) hJ hrun

/-- What holds between the threads of a sequential run: the first `n` have
returned, thread `n` is correct from the ghost state `q`, and the later ones are
correct from every ghost state that satisfies `I`. -/
def Phase (M : Model Op Ret Q) (I : Q → Prop) (c : Pool Op Ret E α S) (n : ℕ) (q : Q) : Prop :=
  (c.threads.take n).all isRet = true ∧
    (∀ p, c.threads[n]? = some p → WP M p (fun _ q' => I q') q) ∧
    (c.threads.length ≤ n → I q) ∧
    ∀ i p, n < i → c.threads[i]? = some p → ∀ q', I q' → WP M p (fun _ q'' => I q'') q'

/-- A later thread that is about to move becomes the current one. -/
theorem Phase.advance {M : Model Op Ret Q} {I : Q → Prop} {c : Pool Op Ret E α S} {n i : ℕ} {q : Q}
    {o : Op} {again : Ret o → Bool} {k : Ret o → Prog Op Ret α} (h : Phase M I c n q)
    (hi : c.threads[i]? = some (call o again k)) (hret : (c.threads.take i).all isRet = true) :
    Phase M I c i q := by
  obtain ⟨hbefore, hcur, hend, hlater⟩ := h
  have hni : n ≤ i := by
    by_contra hlt
    rw [not_all_isRet_take hi (by omega)] at hbefore
    cases hbefore
  rcases Nat.eq_or_lt_of_le hni with rfl | hlt
  · exact ⟨hbefore, hcur, hend, hlater⟩
  · have hlen : i < c.threads.length := (List.getElem?_eq_some_iff.mp hi).1
    -- thread `n` has returned, so its postcondition holds
    have hI : I q := by
      have hn : c.threads[n]? = some c.threads[n] := List.getElem?_eq_getElem (by omega)
      have hmem : c.threads[n] ∈ c.threads.take i := by
        rw [List.mem_iff_getElem?]
        exact ⟨n, by rw [List.getElem?_take_of_lt hlt, hn]⟩
      have hwp := hcur _ hn
      have hisRet := List.all_eq_true.mp hret _ hmem
      cases hp : c.threads[n] with
      | ret a => rwa [hp] at hwp
      | call o' again' k' => rw [hp] at hisRet; cases hisRet
    exact ⟨hret, fun p hp => hlater i p hlt hp q hI, fun hle => absurd hlen (not_lt.mpr hle),
      fun j p hj hp => hlater j p (by omega) hp⟩

/-- **Soundness of the program logic for sequential runs.** All threads share one
ghost state; each of them keeps `I`, and every call keeps the relation `J` between
the pool and the ghost state. -/
theorem run_sequential {policy : Policy Op Ret E α S} (hp : ∀ c i e, policy c i e = true →
      (oneAtATime : Policy Op Ret E α S) c i e = true)
    {M : Model Op Ret Q} {I : Q → Prop} {J : Pool Op Ret E α S → Q → Prop}
    (hstep : ∀ (c : Pool Op Ret E α S) (q : Q) (i : ℕ) (e : E) (o : Op) (p : Prog Op Ret α)
      (r : Ret o) (s : S), J c q → policy c i e = true → M.allowed o q →
      sem o e c.state = some (r, s) → ∃ q', M.step o q r q' ∧ J (c.moved p s ⟨i, e, o, r⟩) q')
    {sched : List (ℕ × E)} {ps : List (Prog Op Ret α)} {s₀ : S} {c : Pool Op Ret E α S} {q : Q}
    (hJ : J (init ps s₀) q) (hI : I q)
    (hwp : ∀ p ∈ ps, ∀ q, I q → WP M p (fun _ q' => I q') q)
    (hrun : run sem policy sched (init ps s₀) = some c) :
    ∃ q' n, J c q' ∧ Phase M I c n q' := by
  refine run_induction (J := fun c => ∃ q n, J c q ∧ Phase M I c n q) ?_ ⟨q, 0, hJ, ?_⟩ hrun
  · rintro c₁ c₂ ⟨i, e⟩ ⟨q₁, n, hJ₁, hphase⟩ hs
    obtain ⟨o, again, k, r, s, hthread, hpol, hsem, rfl⟩ := step_cases hs
    -- the mover is the current thread, or becomes it
    obtain ⟨hbefore, hcur, -, hlater⟩ := hphase.advance hthread (hp _ _ _ hpol)
    have hcall := hcur _ hthread
    obtain ⟨q₂, hq, hJ₂⟩ := hstep c₁ q₁ i e o (if again r then call o again k else k r) r s hJ₁ hpol
      hcall.allowed hsem
    have hlen : i < c₁.threads.length := (List.getElem?_eq_some_iff.mp hthread).1
    refine ⟨q₂, i, hJ₂, ?_, ?_, ?_, ?_⟩
    · rwa [moved, List.take_set_of_le le_rfl]
    · intro p hp'
      rw [moved, List.getElem?_set_self hlen] at hp'
      obtain rfl := Option.some.inj hp'
      exact hcall.next hq
    · intro hle
      rw [moved, List.length_set] at hle
      omega
    · intro j p hj hp'
      rw [moved, List.getElem?_set_ne (by simpa using hj.ne)] at hp'
      exact hlater j p hj hp'
  · refine ⟨rfl, fun p hp' => hwp p (List.mem_of_getElem? hp') q hI, fun _ => hI,
      fun i p _ hp' => hwp p (List.mem_of_getElem? hp')⟩

end Pool

end Prog
