import Mathlib
import RngService.Lib.Simulation
import RngService.Gateway.RateLimiter
import RngService.Gateway.Trail

/-!
# The gateway with its rate limiter

`exec` leaves the decision of the rate limiter to the environment. Here the limiter is part
of the state, as in `NewServer`: all requests share one limiter, and `allow` is one critical
section on it. A run of the limited gateway is a run of `exec`, so what is proved of all
runs of `exec` holds of the service with its limiter; and the limiter keeps its bound in
every interleaving of requests, since all its calls in the order of the trace are one run of it
(`rate_enforced`).
-/

namespace Gateway

open Audit Prog

variable {D : Type}

/-- **The meaning of the operations, with the rate limiter.** The second input is the clock
when the limiter makes a bucket. -/
def limited (dev : Device D) (crypto : Crypto) : Sem Op Ret (Env × Time) (World D × RateLimiter)
  | .allow tenant, e, s =>
    let (ok, rl) := s.2.allow tenant e.2 e.1.now; some (ok, (s.1, rl))
  | o, e, s => (exec dev crypto o e.1 s.1).map fun (r, w) => (r, (w, s.2))

/-- The limiter takes no part in an operation other than `allow`. -/
theorem limited_cases {dev : Device D} {crypto : Crypto} {o : Op} {e : Env × Time}
    {s s' : World D × RateLimiter} {r : Ret o} (h : limited dev crypto o e s = some (r, s')) :
    (∃ tenant, o = .allow tenant ∧ s'.1 = s.1 ∧
      HEq r (s.2.allow tenant e.2 e.1.now).1 ∧ s'.2 = (s.2.allow tenant e.2 e.1.now).2) ∨
    ((∀ tenant, o ≠ .allow tenant) ∧ exec dev crypto o e.1 s.1 = some (r, s'.1) ∧
      s'.2 = s.2) := by
  cases o with
  | allow tenant =>
    obtain ⟨rfl, rfl⟩ := Prod.mk.inj (Option.some.inj h)
    exact .inl ⟨tenant, rfl, rfl, HEq.rfl, rfl⟩
  | _ =>
    simp only [limited, Option.map_eq_some_iff] at h
    obtain ⟨⟨r', w⟩, hexec, heq⟩ := h
    obtain ⟨rfl, rfl⟩ := Prod.mk.inj heq
    exact .inr ⟨fun _ h => (by cases h), hexec, rfl⟩

/-- **The limited gateway is simulated by `exec`**, the decisions of the limiter taken for the
inputs. -/
def unlimited (dev : Device D) (crypto : Crypto) :
    Simulation (limited dev crypto) (exec dev crypto) where
  state := Prod.fst
  input
    | .allow _, e, ok => { e.1 with allow := ok }
    | _, e, _ => e.1
  answers o e s r s' h := by
    rcases limited_cases h with ⟨tenant, rfl, hw, -, -⟩ | ⟨hne, hexec, -⟩
    · rw [hw]
      rfl
    · cases o with
      | allow tenant => exact absurd rfl (hne tenant)
      | _ => exact hexec

/-! ### What the limiter has decided -/

/-- A call that has been made of the limited gateway. -/
abbrev LimitedEvent := Event Op Ret (Env × Time)

/-- A call of the limiter, and its decision. -/
def admission : LimitedEvent → Option (AllowCall × Bool)
  | ⟨_, e, .allow tenant, ok⟩ => some (⟨tenant, e.2, e.1.now⟩, ok)
  | _ => none

/-- The decisions in a trace. -/
def admissions (tr : List LimitedEvent) : List (AllowCall × Bool) := tr.filterMap admission

/-- The calls of the limiter in a trace. -/
def allowCalls (tr : List LimitedEvent) : List AllowCall := (admissions tr).map Prod.fst

/-- The thread that a call has admitted, and the tenant. -/
def granting : LimitedEvent → Option (ℕ × GoString)
  | ⟨i, _, .allow tenant, true⟩ => some (i, tenant)
  | _ => none

/-- The tenant for which a thread has been admitted first. -/
def admittedAs (i : ℕ) (tr : List LimitedEvent) : Option GoString :=
  (tr.filterMap granting).lookup i

theorem run_limiter_concat (rl : RateLimiter) (calls : List AllowCall) (c : AllowCall) :
    rl.run (calls ++ [c])
      = ((rl.run calls).1 ++ [(c, ((rl.run calls).2.allow c.tenantID c.created c.now).1)],
        ((rl.run calls).2.allow c.tenantID c.created c.now).2) := by
  induction calls generalizing rl with
  | nil => rfl
  | cons d calls ih =>
    have hcalls := ih (rl.allow d.tenantID d.created d.now).2
    rw [List.cons_append, RateLimiter.run, RateLimiter.run]
    simp only [hcalls, List.cons_append]

/-! ### The admission of a request -/

/-- **The model of the surroundings**: before it is admitted for a tenant that its credentials
authenticate, a request only reads the clock and asks for the admission. The ghost state is
the tenant. -/
def gate (srv : Server) (t : Option Task) : Prog.Model Op Ret (Option GoString) where
  allowed o q := match o with
    | .now => True
    | .allow _ => True
    | _ => ∀ req, t = some (.request req) →
      ∃ tenant, q = some tenant ∧ Authenticates srv req.credentials tenant
  step o q r q' := match o with
    | .allow tenant => q' = q.or (if r then some tenant else none)
    | _ => q' = q

variable {srv : Server}

theorem gate_keeps {t : Option Task} {tenant : GoString} (hauth : ∀ req, t = some (.request req) →
      Authenticates srv req.credentials tenant) (o : Op) (q : Option GoString)
    (hq : q = some tenant) :
    (gate srv t).allowed o q ∧ ∀ r q', (gate srv t).step o q r q' → q' = some tenant := by
  subst hq
  cases o with
  | now => exact ⟨trivial, fun r q' hstep => hstep⟩
  | allow tenant' => exact ⟨trivial, fun r q' hstep => hstep⟩
  | _ => exact ⟨fun req hreq => ⟨tenant, rfl, hauth req hreq⟩, fun r q' hstep => hstep⟩

/-- An admitted program may do anything. -/
theorem wp_admitted {α : Type} {t : Option Task} {tenant : GoString}
    (hauth : ∀ req, t = some (.request req) → Authenticates srv req.credentials tenant)
    (p : Program α) :
    WP (gate srv t) p (fun _ _ => True) (some tenant) := by
  have hp : Calls (fun _ => True) p := by
    induction p with
    | ret a => trivial
    | call o again k ih => exact ⟨trivial, ih⟩
  exact (WP.of_calls (fun o _ => gate_keeps hauth o) hp rfl).mono fun _ _ _ => trivial

/-- **Every request goes through the gate.** -/
theorem wp_gate (t : Task) :
    WP (gate srv (some t)) (t.program srv) (fun _ _ => True) none := by
  cases t with
  | selfTest n => exact WP.bind (WP.op (fun req hreq => by cases hreq) fun _ _ _ => trivial)
  | request req =>
    refine WP.bind (WP.bind ((wp_extractTenant (I := (· = none))
      (fun q hq => ⟨trivial, fun t q' hstep => Eq.trans hstep hq⟩) rfl).mono ?_))
    rintro r q ⟨rfl, hauth⟩
    cases r with
    | error err => trivial
    | ok tenant =>
      simp only
      split
      · trivial
      · refine WP.bind (WP.op trivial fun ok q hstep => ?_)
        obtain rfl : q = if ok then some tenant else none := hstep
        cases ok with
        | false => trivial
        | true =>
          refine (wp_admitted (fun req' hreq => ?_) (serve srv tenant req.route)).mono
            fun _ _ _ => trivial
          cases hreq
          exact hauth tenant rfl

/-! ### Whole runs -/

/-- A request that does anything but read the clock and ask for its admission has been admitted
before, for a tenant that its credentials authenticate. -/
def Admitted (srv : Server) (tasks : List Task) (before : List LimitedEvent) (ev : LimitedEvent) :
    Prop :=
  ∀ req, tasks[ev.caller]? = some (.request req) →
    ev.op = .now ∨ (∃ tenant, ev.op = .allow tenant) ∨
      ∃ tenant, admittedAs ev.caller before = some tenant ∧
        Authenticates srv req.credentials tenant

theorem admitted_of_allowed {tasks : List Task} {before : List LimitedEvent} {ev : LimitedEvent}
    (h : (gate srv tasks[ev.caller]?).allowed ev.op (admittedAs ev.caller before)) :
    Admitted srv tasks before ev := by
  obtain ⟨i, e, o, r⟩ := ev
  intro req hreq
  cases o with
  | now => exact .inl rfl
  | allow tenant => exact .inr (.inl ⟨tenant, rfl⟩)
  | _ => exact .inr (.inr (h req hreq))

/-- The pool of the limited gateway. -/
abbrev LimitedTasks (D : Type) :=
  Pool Op Ret (Env × Time) (Option Response) (World D × RateLimiter)

/-- The pool at the start: a new limiter beside the world. -/
def startLimited (srv : Server) (tasks : List Task) (w : World D) (rps : ℚ) : LimitedTasks D :=
  Pool.init (tasks.map (Task.program srv)) (w, newRateLimiter rps)

/-- The invariant of a run: the calls of the limiter are one run of it, and every request has
kept to the gate. -/
structure Enforced (srv : Server) (tasks : List Task) (rl : RateLimiter) (c : LimitedTasks D)
    (g : ℕ → Option GoString) : Prop where
  limiter : rl.run (allowCalls c.trace) = (admissions c.trace, c.state.2)
  ghost : ∀ i, g i = admittedAs i c.trace
  admitted : Stepwise (Admitted srv tasks) c.trace

theorem admittedAs_concat (i : ℕ) (tr : List LimitedEvent) (ev : LimitedEvent) :
    admittedAs i (tr ++ [ev]) = (admittedAs i tr).or (admittedAs i [ev]) := by
  rw [admittedAs, List.filterMap_append, List.lookup_append]
  rfl

/-- A call admits nobody but its caller. -/
theorem admittedAs_other {i : ℕ} {ev : LimitedEvent} (h : ev.caller ≠ i) :
    admittedAs i [ev] = none := by
  obtain ⟨j, e, o, r⟩ := ev
  cases o with
  | allow tenant =>
    cases r with
    | false => rfl
    | true =>
      have hne : (i == j) = false := beq_false_of_ne (Ne.symm h)
      simp only [admittedAs, granting, List.filterMap_cons, List.filterMap_nil, List.lookup_cons,
        hne, List.lookup_nil]
  | _ => rfl

/-- **Every call keeps the invariant.** -/
theorem Enforced.step {dev : Device D} {tasks : List Task} {rl : RateLimiter} {c : LimitedTasks D}
    {g : ℕ → Option GoString} (h : Enforced srv tasks rl c g) {i : ℕ} {e : Env × Time} {o : Op}
    {r : Ret o} {s : World D × RateLimiter} (ha : (gate srv tasks[i]?).allowed o (g i))
    (hsem : limited dev srv.crypto o e c.state = some (r, s)) (p : Program (Option Response)) :
    ∃ q, (gate srv tasks[i]?).step o (g i) r q ∧
      Enforced srv tasks rl (c.moved p s ⟨i, e, o, r⟩) (Function.update g i q) := by
  have hadmitted : Stepwise (Admitted srv tasks) (c.trace ++ [⟨i, e, o, r⟩]) :=
    stepwise_concat.mpr ⟨h.admitted, admitted_of_allowed (by rw [← h.ghost]; exact ha)⟩
  have hghost : ∀ j, Function.update g i ((g i).or (admittedAs i [⟨i, e, o, r⟩])) j
      = admittedAs j (c.trace ++ [⟨i, e, o, r⟩]) := by
    intro j
    rw [admittedAs_concat, ← h.ghost]
    by_cases hj : j = i
    · subst hj
      rw [Function.update_self]
    · rw [Function.update_of_ne hj, admittedAs_other (Ne.symm hj), Option.or_none]
  refine ⟨(g i).or (admittedAs i [⟨i, e, o, r⟩]), ?_, ?_, hghost, hadmitted⟩
  · cases o with
    | allow tenant =>
      cases r with
      | false => rfl
      | true =>
        have hself : admittedAs i [⟨i, e, .allow tenant, true⟩] = some tenant := by
          simp [admittedAs, granting]
        rw [hself]
        rfl
    | _ => exact Option.or_none
  · rcases limited_cases hsem with ⟨tenant, rfl, -, hr, hrl⟩ | ⟨hne, -, hrl⟩
    · -- the limiter decides
      obtain rfl := eq_of_heq hr
      have hadmissions : ∀ ok, admissions (c.trace ++ [⟨i, e, .allow tenant, ok⟩])
          = admissions c.trace ++ [(⟨tenant, e.2, e.1.now⟩, ok)] := by
        intro ok
        rw [admissions, List.filterMap_append]
        rfl
      rw [Pool.moved, allowCalls, hadmissions, List.map_append, List.map_singleton,
        run_limiter_concat, ← allowCalls, h.limiter, hrl]
    · have hnone : admission ⟨i, e, o, r⟩ = none := by
        cases o with
        | allow tenant => exact absurd rfl (hne tenant)
        | _ => rfl
      have hadmissions : admissions (c.trace ++ [⟨i, e, o, r⟩]) = admissions c.trace := by
        rw [admissions, List.filterMap_append, List.filterMap_cons_none hnone, List.filterMap_nil,
          List.append_nil]
        rfl
      rw [Pool.moved, allowCalls, hadmissions, hrl]
      exact h.limiter

/-- **The gateway enforces its rate limit**: in every interleaving of requests and self tests,
at most `2 * r + r * T` admissions of a tenant fall into a window of length `T`, whatever the
other tenants do; a request does nothing before it is admitted for a tenant that its credentials
authenticate; and the run is one of `exec`, in which the same threads move. -/
theorem rate_enforced {dev : Device D} {r : ℚ} (hr : 0 ≤ r) {tasks : List Task} {w : World D}
    {sched : List (ℕ × Env × Time)} {c : LimitedTasks D}
    (hrun : Pool.run (limited dev srv.crypto) Pool.anyOrder sched (startLimited srv tasks w r)
      = some c)
    (hclock : ClockOrdered (allowCalls c.trace)) :
    (∀ tenantID, (∀ s T : ℚ, 0 ≤ T →
        (grantedIn tenantID s T (admissions c.trace) : ℚ) ≤ 2 * r + r * T) ∧
      decisionsOf tenantID (admissions c.trace)
        = ((newRateLimiter r).run (callsOf tenantID (allowCalls c.trace))).1) ∧
    Stepwise (Admitted srv tasks) c.trace ∧
    ∃ sched', sched'.map Prod.fst = sched.map Prod.fst ∧
      Pool.run (exec dev srv.crypto) Pool.anyOrder sched' (start srv tasks w)
        = some ((unlimited dev srv.crypto).pool c) := by
  have hwp : ∀ (i : ℕ) (p : Program (Option Response)),
      (startLimited srv tasks w r).threads[i]? = some p →
        WP (gate srv tasks[i]?) p (fun _ _ => True) none := by
    intro i p hp
    obtain ⟨t, ht, rfl⟩ := Option.map_eq_some_iff.mp (List.getElem?_map ▸ hp)
    rw [ht]
    exact wp_gate t
  obtain ⟨g, h, -⟩ := Pool.run_sound (J := Enforced srv tasks (newRateLimiter r))
    (fun c g i e o again k ret s hJ _ _ ha hsem => hJ.step ha hsem _)
    (g := fun _ => none) ⟨rfl, fun _ => rfl, stepwise_nil _⟩ hwp hrun
  refine ⟨fun tenantID => ?_, h.admitted, (unlimited dev srv.crypto).run hrun⟩
  obtain ⟨hbound, -, hown⟩ := rate_bounded r hr _ hclock tenantID
  rw [h.limiter] at hbound hown
  exact ⟨hbound, hown⟩

/-- Three requests of a tenant at once, and one of another tenant. -/
def crowd : List Task :=
  [.request (smallRequest [107] [97] [114]), .request (smallRequest [107] [97] [115]),
    .request (smallRequest [107] [97] [116]), .request (smallRequest [108] [98] [114])]

theorem rate_enforced_crowd : ∃ c, Pool.run (limited (.drbg fun _ block => block)
      smallServer.crypto) Pool.anyOrder ([0, 1, 3, 2, 0].map fun i => (i, {}, 0))
      (startLimited smallServer crowd smallWorld 1) = some c ∧
    (admissions c.trace).map Prod.snd = [true, true, true, false] ∧
    (grantedIn [97] 0 1 (admissions c.trace) : ℚ) ≤ 2 * 1 + 1 * 1 := by
  have h : (Pool.run (limited (.drbg fun _ block => block) smallServer.crypto) Pool.anyOrder
      ([0, 1, 3, 2, 0].map fun i => (i, {}, 0)) (startLimited smallServer crowd smallWorld 1)).map
        (fun c => ((admissions c.trace).map Prod.snd,
          (allowCalls c.trace).map fun x => (x.created, x.now)))
      = some ([true, true, true, false], List.replicate 4 (0, 0)) := by
    decide +kernel
  obtain ⟨c, hc, hfacts⟩ := Option.map_eq_some_iff.mp h
  obtain ⟨hdecisions, htimes⟩ := Prod.mk.inj hfacts
  -- the clock stands still
  have hstill : ∀ x ∈ allowCalls c.trace, x.created = 0 ∧ x.now = 0 := by
    intro x hx
    have hmem := List.mem_map_of_mem (f := fun x : AllowCall => (x.created, x.now)) hx
    rw [htimes] at hmem
    exact Prod.mk.inj (List.eq_of_mem_replicate hmem)
  have hclock : ClockOrdered (allowCalls c.trace) :=
    ⟨fun x hx => by rw [(hstill x hx).1, (hstill x hx).2],
      List.pairwise_of_forall_mem_list fun x hx y hy => by
        rw [(hstill x hx).2, (hstill y hy).1]⟩
  exact ⟨c, hc, hdecisions, ((rate_enforced (by norm_num) hc hclock).1 [97]).1 0 1 (by norm_num)⟩

end Gateway
