import Mathlib
import RngService.Gateway.Reseed

/-!
# No request is served from an overdue generator

Requests and self tests run one after the other, each of them at a single instant; the
clock advances between them (`atInstants`). `duty` is the model that a task is verified
against under such a clock: it may set `lastReseed` only to its instant and only after it
has re-seeded, it collects entropy only when it has drawn nothing for the entry it is
about to make, and after a failure to collect it neither draws nor re-seeds.

`OnDuty` is the invariant of every run. At every point `lastReseed` is not after the last
re-seed, so a check that compares with it, and with the counter of all bytes, errs on the
safe side: `wp_reseedIfNeeded` is the step from the invariant to what holds when the check
has passed.
-/

namespace Gateway

open Audit Prog

/-! ### What one task does -/

/-- The dealings of a task with the generator. -/
structure Duty where
  /-- it has re-seeded -/
  reseeded : Bool
  /-- it has drawn for an entry that is not stored -/
  drawn : Bool
  /-- it could not collect entropy -/
  failed : Bool

/-- **The model of the surroundings** of a task that runs at the instant `t`. -/
def duty (t : Time) : Prog.Model Op Ret Duty where
  allowed
    | .generate _, q => q.failed = false
    | .reseed _, q => q.failed = false
    | .setLastReseed t', q => q.failed = false ∧ q.reseeded = true ∧ t' = t
    | .collectForReseed .., q => q.drawn = false
    | _, _ => True
  step
    | .now, q, t', q' => t' = t ∧ q' = q
    | .generate _, q, _, q' => q' = { q with drawn := true }
    | .reseed _, q, r, q' => q' = { q with reseeded := q.reseeded || r.isOk }
    | .collectForReseed .., q, r, q' => q' = { q with failed := q.failed || !r.isOk }
    | .appendEntry _, q, r, q' => q' = { q with drawn := q.drawn && !r.isOk }
    | _, q, _, q' => q' = q

/-- Nothing is drawn for the next entry, and entropy was always there. -/
def Ready (q : Duty) : Prop := q.drawn = false ∧ q.failed = false

variable {srv : Server} {t : Time}

/-- Reading operations leave the duty alone. -/
theorem duty_reading {o : Op} (ho : Reading o) (q : Duty) :
    (duty t).allowed o q ∧ ∀ r q', (duty t).step o q r q' → q' = q := by
  cases o with
  | sealEntry e => exact ho.elim
  | appendEntry e => exact ho.elim
  | generate n => exact ho.elim
  | reseed entropy => exact ho.elim
  | setLastReseed t => exact ho.elim
  | collectForReseed => exact ho.elim
  | now => exact ⟨trivial, fun _ _ h => h.2⟩
  | _ => exact ⟨trivial, fun _ _ h => h⟩

theorem wp_reads {α : Type} {p : Program α} (hp : Calls Reading p) (q : Duty) :
    WP (duty t) p (fun _ q' => q' = q) q := by
  refine WP.of_calls (I := (· = q)) ?_ hp rfl
  rintro o ho q₁ rfl
  exact duty_reading ho q₁

theorem reads_reseedNotDue : Calls Reading (reseedNotDue srv) :=
  calls_reseedNotDue trivial trivial trivial

/-- **The re-seed does its duty.** -/
theorem wp_duty_reseedLocked (tenantID : GoString) {q : Duty} (hq : Ready q) :
    WP (duty t) (reseedLocked srv tenantID).run (OkOr Ready fun _ => True) q := by
  refine WP.bindE (WP.liftE ((wp_reads reads_reseedNotDue q).mono ?_))
  rintro notDue q' rfl
  simp only
  split
  · exact hq
  · refine WP.bindE (WP.liftE ((wp_reads (p := Call.outputBytes) (Calls.op trivial) _).mono ?_))
    rintro outputs q' rfl
    refine WP.bindE (WP.op hq.1 ?_)
    rintro r q' rfl
    cases r with
    | error err => trivial
    | ok entropy =>
      refine WP.bindE (WP.op ((Bool.or_false _).trans hq.2) ?_)
      rintro r q' rfl
      cases r with
      | error err => trivial
      | ok u =>
        -- the instant that is read is the one of the task
        refine WP.bindE (WP.liftE (WP.op trivial ?_))
        rintro now q' ⟨rfl, rfl⟩
        refine WP.liftE (WP.op ⟨(Bool.or_false _).trans hq.2, Bool.or_true _, rfl⟩ ?_)
        rintro u q' rfl
        exact ⟨hq.1, (Bool.or_false _).trans hq.2⟩

theorem wp_duty_reseedIfNeeded (tenantID : GoString) {q : Duty} (hq : Ready q) :
    WP (duty t) (reseedIfNeeded srv tenantID).run (OkOr Ready fun _ => True) q := by
  refine WP.bindE (WP.liftE ((wp_reads reads_reseedNotDue q).mono ?_))
  rintro notDue q' rfl
  simp only
  split
  · exact hq
  · refine WP.bind ((wp_reads (p := Call.lockReseed) (Calls.op trivial) _).mono ?_)
    rintro u q' rfl
    refine WP.bind ((wp_duty_reseedLocked tenantID hq).mono fun r q' hr => ?_)
    refine WP.bind ((wp_reads (p := Call.unlockReseed) (Calls.op trivial) q').mono ?_)
    rintro u q'' rfl
    exact hr

/-- Drawing is allowed as long as entropy was there. -/
theorem draws_duty : Scaling.Draws (duty t) rng (·.failed = false) := by
  intro q hq
  refine ⟨hq, ?_⟩
  rintro r q' rfl
  exact hq

/-- **Making an entry is a task's duty**: when the entry is stored, nothing is drawn for the
next one. -/
theorem making_duty : Making srv (duty t) Ready (·.failed = false) Ready
    (fun _ => True) (fun _ q => q.failed = false) fun _ q => q.failed = false where
  reseed tenantID q hq := (wp_duty_reseedIfNeeded tenantID hq).mono fun r q' h => by
    cases r with
    | ok u => exact h.2
    | error err => exact h
  draws := draws_duty
  requestID q hq := ⟨trivial, fun r q' h => h ▸ hq⟩
  now q hq := ⟨trivial, fun t q' h => h.2 ▸ hq⟩
  sealEntry e q hq := ⟨trivial, fun r q' h => ⟨fun _ _ => h ▸ hq, fun _ => trivial⟩⟩
  appendEntry e q hq := by
    refine ⟨trivial, fun r q' h => ?_⟩
    cases r with
    | error err => trivial
    | ok u =>
      rw [h]
      exact ⟨Bool.and_false _, hq⟩
  failed _ _ := trivial
  undone _ _ _ := trivial

theorem walk_duty : Walk srv (duty t) Ready fun _ => True :=
  Walk.of_making
    (fun _ ho q hq => ⟨(duty_reading ho q).1, fun r q' h => (duty_reading ho q).2 r q' h ▸ hq⟩)
    (fun _ _ => trivial) (fun _ _ hq => ⟨hq.2, fun _ _ _ => trivial⟩) making_duty

/-! ### The invariant of a run -/

/-- The tasks run one after the other, task `i` at the instant `τ i`, and the clock never
goes back. -/
def atInstants {D : Type} (now : Time) (τ : ℕ → Time) :
    Pool.Policy Op Ret Env (Option Response) (World D) :=
  fun c i e => ticking now c i e && decide (e.now = τ i)

/-- A call to the entropy pool that failed. -/
def collectFails : Event Op Ret Env → Bool
  | ⟨_, _, .collectForReseed .., .error _⟩ => true
  | _ => false

/-- One call's effect on the bytes that task `i` has drawn since it last stored an
entry. -/
def undeliveredStep (i n : ℕ) : Event Op Ret Env → ℕ
  | ⟨j, _, .generate m, .ok _⟩ => if j = i then n + m.toNat else n
  | ⟨j, _, .appendEntry _, .ok _⟩ => if j = i then 0 else n
  | _ => n

/-- The bytes that task `i` has drawn since it last stored an entry. -/
def undelivered (i : ℕ) (tr : Trace) : ℕ := tr.foldl (undeliveredStep i) 0

@[simp] theorem undelivered_concat (i : ℕ) (tr : Trace) (ev : Event Op Ret Env) :
    undelivered i (tr ++ [ev]) = undeliveredStep i (undelivered i tr) ev := by
  simp [undelivered]

/-- The calls of other tasks do not count. -/
theorem undeliveredStep_ne {i : ℕ} {ev : Event Op Ret Env} (h : i ≠ ev.caller) (n : ℕ) :
    undeliveredStep i n ev = n := by
  obtain ⟨j, env, o, r⟩ := ev
  have hne : ¬ j = i := fun hj => h hj.symm
  cases o with
  | generate m => cases r <;> simp [undeliveredStep, hne]
  | appendEntry e => cases r <;> simp [undeliveredStep, hne]
  | _ => rfl

/-- A task collects entropy before it draws for its next entry, and calls nothing that
turns the generator once it has failed to. -/
def Spared (before : Trace) (ev : Event Op Ret Env) : Prop :=
  (collectFails ev = true → undelivered ev.caller before = 0) ∧
    (Turning ev.op → ∀ ev' ∈ before, ev'.caller = ev.caller → collectFails ev' = false)

/-- **The invariant of a run** in which task `i` runs at the instant `τ i`. -/
structure OnDuty {D : Type} (now : Time) (τ : ℕ → Time) (c : Tasks D) (g : ℕ → Duty) : Prop where
  /-- `lastReseed` is not after the last re-seed -/
  lastReseed : c.state.lastReseed ≤ (lastSeed now c.trace).2
  /-- the re-seed of a task is not after the last one -/
  reseeded : ∀ i, (g i).reseeded = true → τ i ≤ (lastSeed now c.trace).2
  /-- the last re-seed was the start, or a call -/
  seeded : (lastSeed now c.trace).2 = now ∨ ∃ ev ∈ c.trace, (lastSeed now c.trace).2 = ev.input.now
  drawn : ∀ i, (g i).drawn = false → undelivered i c.trace = 0
  failed : ∀ ev ∈ c.trace, collectFails ev = true → (g ev.caller).failed = true
  spared : Stepwise Spared c.trace

section OnDuty

variable {D : Type} {dev : Device D} {now : Time} {τ : ℕ → Time} {c : Tasks D} {g : ℕ → Duty}

/-- The last re-seed is not after a call that the policy lets through. -/
theorem OnDuty.seeded_le (h : OnDuty now τ c g) {i : ℕ} {e : Env}
    (hp : atInstants now τ c i e = true) : (lastSeed now c.trace).2 ≤ e.now := by
  rw [atInstants, ticking, Bool.and_eq_true, Bool.and_eq_true, decide_eq_true_eq] at hp
  rcases h.seeded with heq | ⟨ev, hev, heq⟩
  · rw [heq]
    exact hp.1.2.1
  · rw [heq]
    exact hp.1.2.2 ev hev

/-- What a call has to do to keep the invariant. -/
theorem OnDuty.moved (h : OnDuty now τ c g) {ev : Event Op Ret Env} {s : World D} {q : Duty}
    (hle : (lastSeed now c.trace).2 ≤ ev.input.now)
    (hlast : s.lastReseed ≤ (seedStep (lastSeed now c.trace) ev).2)
    (hreseeded : q.reseeded = true → τ ev.caller ≤ (seedStep (lastSeed now c.trace) ev).2)
    (hdrawn : q.drawn = false → undeliveredStep ev.caller (undelivered ev.caller c.trace) ev = 0)
    (hfailed : (g ev.caller).failed = true ∨ collectFails ev = true → q.failed = true)
    (hcollect : collectFails ev = true → undelivered ev.caller c.trace = 0)
    (hturn : Turning ev.op → (g ev.caller).failed = false) (p : Program (Option Response)) :
    OnDuty now τ (c.moved p s ev) (Function.update g ev.caller q) := by
  -- the last re-seed is this call, or the one before
  have hseed := seedStep_cases (lastSeed now c.trace) ev
  have hmono : (lastSeed now c.trace).2 ≤ (seedStep (lastSeed now c.trace) ev).2 := by
    rcases hseed with ⟨-, heq, -⟩ | ⟨-, heq⟩
    · rw [heq]
      exact hle
    · rw [heq]
  have hnew : lastSeed now (c.moved p s ev).trace = seedStep (lastSeed now c.trace) ev :=
    lastSeed_concat _ _ _
  refine ⟨?_, fun j hj => ?_, ?_, fun j hj => ?_, fun ev' hev' hf => ?_, ?_⟩
  · rw [hnew]
    exact hlast
  · rw [hnew]
    by_cases hji : j = ev.caller
    · subst hji
      rw [Function.update_self] at hj
      exact hreseeded hj
    · rw [Function.update_of_ne hji] at hj
      exact (h.reseeded j hj).trans hmono
  · rw [hnew]
    rcases hseed with ⟨-, heq, -⟩ | ⟨-, heq⟩
    · rw [heq]
      exact Or.inr ⟨ev, List.mem_append_right _ List.mem_cons_self, rfl⟩
    · rw [heq]
      exact h.seeded.imp_right fun ⟨ev', hev', heq'⟩ => ⟨ev', List.mem_append_left _ hev', heq'⟩
  · rw [Pool.moved, undelivered_concat]
    by_cases hji : j = ev.caller
    · subst hji
      rw [Function.update_self] at hj
      exact hdrawn hj
    · rw [Function.update_of_ne hji] at hj
      rw [undeliveredStep_ne hji]
      exact h.drawn j hj
  · -- the failures so far, and this one
    rcases List.mem_append.mp hev' with hev' | hev'
    · by_cases hji : ev'.caller = ev.caller
      · rw [hji, Function.update_self]
        exact hfailed (Or.inl (hji ▸ h.failed ev' hev' hf))
      · rw [Function.update_of_ne hji]
        exact h.failed ev' hev' hf
    · obtain rfl := List.mem_singleton.mp hev'
      rw [Function.update_self]
      exact hfailed (Or.inr hf)
  · refine stepwise_concat.mpr ⟨h.spared, hcollect, fun ht ev' hev' hcaller => ?_⟩
    by_contra hf
    have hfail := h.failed ev' hev' (by simpa using hf)
    rw [hcaller, hturn ht] at hfail
    cases hfail

/-- A call that does not turn the generator and makes no difference to the duties. -/
theorem OnDuty.still (h : OnDuty now τ c g) {i : ℕ} {e : Env} {o : Op} {r : Ret o} {s : World D}
    (hp : atInstants now τ c i e = true) (ho : ¬ Turning o)
    (hsem : exec dev srv.crypto o e c.state = some (r, s)) {q : Duty}
    (hreseeded : q.reseeded = (g i).reseeded)
    (hdrawn : q.drawn = false → undeliveredStep i (undelivered i c.trace) ⟨i, e, o, r⟩ = 0)
    (hfailed : (g i).failed = true ∨ collectFails ⟨i, e, o, r⟩ = true → q.failed = true)
    (hcollect : collectFails ⟨i, e, o, r⟩ = true → undelivered i c.trace = 0)
    (p : Program (Option Response)) :
    OnDuty now τ (c.moved p s ⟨i, e, o, r⟩) (Function.update g i q) := by
  have hstep := (@seedStep_still i e o ho r (lastSeed now c.trace)).1
  refine h.moved (h.seeded_le hp) ?_ ?_ hdrawn hfailed hcollect (fun ht => absurd ht ho) p
  · rw [hstep, (exec_still ho hsem).2]
    exact h.lastReseed
  · rw [hstep, hreseeded]
    exact h.reseeded i

/-- **Every call of a run keeps the invariant.** -/
theorem OnDuty.step (h : OnDuty now τ c g) {i : ℕ} {e : Env} {o : Op} {r : Ret o} {s : World D}
    (hp : atInstants now τ c i e = true) (ha : (duty (τ i)).allowed o (g i))
    (hsem : exec dev srv.crypto o e c.state = some (r, s)) (p : Program (Option Response)) :
    ∃ q, (duty (τ i)).step o (g i) r q ∧
      OnDuty now τ (c.moved p s ⟨i, e, o, r⟩) (Function.update g i q) := by
  have hnow : e.now = τ i := of_decide_eq_true ((Bool.and_eq_true _ _).mp hp).2
  have hle := h.seeded_le hp
  have hidle : ∀ {ev : Event Op Ret Env}, collectFails ev = false →
      (g i).failed = true ∨ collectFails ev = true → (g i).failed = true := by
    rintro ev hev (hf | hf)
    · exact hf
    · rw [hev] at hf
      cases hf
  cases o with
  | generate n =>
    obtain ⟨rfl, rfl⟩ := Prod.mk.inj (Option.some.inj hsem)
    have hstep : (seedStep (lastSeed now c.trace) ⟨i, e, .generate n,
        (dev.generate n c.state.drbg).1⟩).2 = (lastSeed now c.trace).2 := by
      cases (dev.generate n c.state.drbg).1 <;> rfl
    refine ⟨_, rfl, h.moved hle ?_ ?_ ?_ (hidle rfl) ?_ (fun _ => ?_) p⟩
    · rw [hstep]
      exact h.lastReseed
    · rw [hstep]
      exact h.reseeded i
    · rintro ⟨⟩
    · rintro ⟨⟩
    · exact ha
  | reseed entropy =>
    obtain ⟨rfl, rfl⟩ := Prod.mk.inj (Option.some.inj hsem)
    refine ⟨_, rfl, ?_⟩
    cases hres : (dev.reseed entropy c.state.drbg).1 with
    | error err =>
      refine h.moved hle h.lastReseed (fun hr => ?_) (h.drawn i) (hidle rfl) ?_ (fun _ => ?_) p
      · exact h.reseeded i ((Bool.or_false _).symm.trans hr)
      · rintro ⟨⟩
      · exact ha
    | ok u =>
      -- the re-seed takes place at the instant of the task
      refine h.moved hle ?_ (fun _ => ?_) (h.drawn i) (hidle rfl) ?_ (fun _ => ?_) p
      · exact h.lastReseed.trans hle
      · exact hnow.ge
      · rintro ⟨⟩
      · exact ha
  | setLastReseed t =>
    obtain ⟨rfl, rfl⟩ := Prod.mk.inj (Option.some.inj hsem)
    obtain ⟨hfailed, hreseeded, rfl⟩ := ha
    refine ⟨_, rfl, h.moved hle ?_ (h.reseeded i) (h.drawn i) (hidle rfl) ?_ (fun _ => ?_) p⟩
    · exact h.reseeded i hreseeded
    · rintro ⟨⟩
    · exact hfailed
  | collectForReseed size tenantID n =>
    refine ⟨_, rfl, h.still hp id hsem ?_ ?_ (fun hf => ?_) (fun _ => ?_) p⟩
    · rfl
    · exact h.drawn i
    · refine (Bool.or_eq_true _ _).mpr (hf.imp_right fun hf => ?_)
      cases r with
      | ok entropy => cases hf
      | error err => rfl
    · exact h.drawn i ha
  | appendEntry entry =>
    refine ⟨_, rfl, h.still hp id hsem ?_ (fun hd => ?_) ?_ ?_ p⟩
    · rfl
    · cases r with
      | ok u => exact if_pos rfl
      | error err => exact h.drawn i ((Bool.and_true _).symm.trans hd)
    · exact hidle rfl
    · rintro ⟨⟩
  | now =>
    obtain ⟨rfl, -⟩ := Prod.mk.inj (Option.some.inj hsem)
    refine ⟨_, ⟨hnow, rfl⟩, h.still hp id hsem rfl (h.drawn i) (hidle rfl) ?_ p⟩
    rintro ⟨⟩
  | _ =>
    refine ⟨_, rfl, h.still hp id hsem rfl (h.drawn i) (hidle rfl) ?_ p⟩
    rintro ⟨⟩

/-- The invariant holds at every point of a run. -/
theorem onDuty_of_run {tasks : List Task} {drbg : D} {sched : List (ℕ × Env)}
    (hrun : Pool.run (exec dev srv.crypto) (atInstants now τ) sched
      (start srv tasks (World.new drbg now)) = some c) : ∃ g, OnDuty now τ c g := by
  have hstart : OnDuty now τ (start srv tasks (World.new drbg now))
      fun _ => ⟨false, false, false⟩ := by
    refine ⟨le_rfl, fun i hi => ?_, Or.inl rfl, fun _ _ => rfl, fun ev hev => ?_, stepwise_nil _⟩
    · cases hi
    · cases hev
  have hwp : ∀ i p, (start srv tasks (World.new drbg now)).threads[i]? = some p →
      WP (duty (τ i)) p (fun _ _ => True) ⟨false, false, false⟩ := by
    intro i p hp
    obtain ⟨t, -, rfl⟩ := List.mem_map.mp (List.mem_of_getElem? hp)
    exact walk_duty.wp_task t ⟨rfl, rfl⟩
  have hrunJ : ∃ g, OnDuty now τ c g ∧ ∀ i p, c.threads[i]? = some p →
      WP (duty (τ i)) p (fun _ _ => True) (g i) := by
    refine Pool.run_sound ?_ hstart hwp hrun
    intro c g i e o again k r s hJ hp _ ha hsem
    exact hJ.step hp ha hsem _
  exact hrunJ.imp fun _ h => h.1

end OnDuty

/-! ### The check -/

/-- The generator is not overdue at the instant `t`: fewer than `IntervalOutputs` bytes were
generated since the last re-seed, and less than `IntervalSeconds` has passed. -/
def InTime (srv : Server) (now t : Time) (tr : Trace) : Prop :=
  (lastSeed now tr).1 < srv.cfg.intervalOutputs.toNat ∧
    t - (lastSeed now tr).2 < srv.cfg.intervalSeconds

section Check

variable {aes : Csprng.BlockCipher} {now : Time} {i : ℕ}

/-- A task alone with the generator, at the instant `t`. -/
abbrev alone (aes : Csprng.BlockCipher) (srv : Server) (t : Time) (i : ℕ) :
    Prog.Model Op Ret (World Csprng.DRBG × Trace) :=
  Pool.soloModel (exec (.drbg aes) srv.crypto) (fun e => e.now = t) i

/-- The invariant of a run, as far as the check depends on it. -/
def Counted (now : Time) (x : World Csprng.DRBG × Trace) : Prop :=
  x.1.lastReseed ≤ (lastSeed now x.2).2 ∧ x.1.drbg.outputBytes = UInt64.ofNat (generated x.2)

/-- A call that does not turn the generator changes nothing that the check depends on. -/
theorem alone_still {o : Op} (ho : ¬ Turning o) {x x' : World Csprng.DRBG × Trace} {r : Ret o}
    (h : (alone aes srv t i).step o x r x') : (Counted now x → Counted now x') ∧
      lastSeed now x'.2 = lastSeed now x.2 := by
  obtain ⟨e, s, -, hsem, rfl⟩ := h
  obtain ⟨hseed, hbytes, -⟩ := @seedStep_still i e o ho r (lastSeed now x.2)
  obtain ⟨hdrbg, hlast⟩ := exec_still ho hsem
  rw [Counted, Counted, lastSeed_concat, generated_concat, hseed, hbytes, hdrbg, hlast]
  exact ⟨id, rfl⟩

/-- **The check errs on the safe side**: the counter of all bytes is not less than that of
the bytes since the last re-seed, and `lastReseed` not after it. -/
theorem wp_alone_reseedNotDue {x : World Csprng.DRBG × Trace} (hx : Counted now x) :
    WP (alone aes srv t i) (reseedNotDue srv) (fun notDue x' => Counted now x' ∧
      (notDue = true → generated x'.2 < 2 ^ 64 → InTime srv now t x'.2)) x := by
  refine WP.bind (WP.op trivial fun outputs x₁ h₁ => ?_)
  have hx₁ := (alone_still id h₁).1 hx
  have hr₁ : outputs = x₁.1.drbg.outputBytes := by
    obtain ⟨e, s, -, hsem, rfl⟩ := h₁
    obtain ⟨rfl, rfl⟩ := Prod.mk.inj (Option.some.inj hsem)
    rfl
  split
  · next hlt =>
    refine WP.bind (WP.op trivial fun last x₂ h₂ => ?_)
    have hx₂ := (alone_still id h₂).1 hx₁
    have hr₂ : last = x₂.1.lastReseed ∧ x₂.1 = x₁.1 := by
      obtain ⟨e, s, -, hsem, rfl⟩ := h₂
      obtain ⟨rfl, rfl⟩ := Prod.mk.inj (Option.some.inj hsem)
      exact ⟨rfl, rfl⟩
    refine WP.bind (WP.op trivial fun t' x₃ h₃ => ?_)
    have hx₃ := (alone_still id h₃).1 hx₂
    have hr₃ : t' = t ∧ x₃.1 = x₂.1 := by
      obtain ⟨e, s, rfl, hsem, rfl⟩ := h₃
      obtain ⟨rfl, rfl⟩ := Prod.mk.inj (Option.some.inj hsem)
      exact ⟨rfl, rfl⟩
    refine ⟨hx₃, fun hnot hbytes => ⟨?_, ?_⟩⟩
    -- the counter has not wrapped
    · have hcount : outputs = UInt64.ofNat (generated x₃.2) := by
        rw [hr₁, ← hr₂.2, ← hr₃.2]
        exact hx₃.2
      rw [UInt64.lt_iff_toNat_lt, hcount, UInt64.toNat_ofNat_of_lt' hbytes] at hlt
      exact lt_of_le_of_lt (lastSeed_le_generated now x₃.2) hlt
    · have hlast : last ≤ (lastSeed now x₃.2).2 := by
        rw [hr₂.1, ← hr₃.2]
        exact hx₃.1
      have hlt := of_decide_eq_true hnot
      rw [hr₃.1] at hlt
      exact lt_of_le_of_lt (Int.sub_le_sub_left hlast _) hlt
  · exact ⟨hx₁, fun hf => by cases hf⟩

/-- A task that has just re-seeded is in time. -/
theorem InTime.of_reseed (hI : 0 < srv.cfg.intervalOutputs) (hS : 0 < srv.cfg.intervalSeconds)
    {tr : Trace} (h : lastSeed now tr = (0, t)) : InTime srv now t tr := by
  refine ⟨?_, ?_⟩
  · rw [h]
    exact UInt64.lt_iff_toNat_lt.mp hI
  · rw [h, sub_self]
    exact hS

theorem wp_alone_reseedLocked (hI : 0 < srv.cfg.intervalOutputs) (hS : 0 < srv.cfg.intervalSeconds)
    (tenantID : GoString) {x : World Csprng.DRBG × Trace} (hx : Counted now x) :
    WP (alone aes srv t i) (reseedLocked srv tenantID).run (fun r x' => r = .ok () →
      generated x'.2 < 2 ^ 64 → InTime srv now t x'.2) x := by
  refine WP.bindE (WP.liftE ((wp_alone_reseedNotDue hx).mono ?_))
  rintro notDue x₁ ⟨hx₁, hnotDue⟩
  simp only
  split
  · next h => exact fun _ hbytes => hnotDue h hbytes
  · refine WP.bindE (WP.liftE (WP.op trivial fun outputs x₂ _ => ?_))
    refine WP.bindE (WP.op trivial fun r x₃ _ => ?_)
    cases r with
    | error err => exact fun h => by cases h
    | ok entropy =>
      refine WP.bindE (WP.op trivial fun r x₄ h₄ => ?_)
      cases r with
      | error err => exact fun h => by cases h
      | ok u =>
        -- the re-seed is the last one, and what follows does not turn the generator
        have hseed : lastSeed now x₄.2 = (0, t) := by
          obtain ⟨e, s, rfl, -, rfl⟩ := h₄
          rw [lastSeed_concat]
          rfl
        refine WP.bindE (WP.liftE (WP.op trivial fun t' x₅ h₅ => ?_))
        have hseed₅ := ((alone_still id h₅).2).trans hseed
        refine WP.liftE (WP.op trivial fun _ x₆ h₆ _ _ => InTime.of_reseed hI hS ?_)
        obtain ⟨e, s, -, -, rfl⟩ := h₆
        rw [lastSeed_concat]
        exact hseed₅

/-- **The check passes only if the generator is in time.** -/
theorem wp_alone_reseedIfNeeded (hI : 0 < srv.cfg.intervalOutputs)
    (hS : 0 < srv.cfg.intervalSeconds) (tenantID : GoString) {x : World Csprng.DRBG × Trace}
    (hx : Counted now x) :
    WP (alone aes srv t i) (reseedIfNeeded srv tenantID).run (fun r x' => r = .ok () →
      generated x'.2 < 2 ^ 64 → InTime srv now t x'.2) x := by
  refine WP.bindE (WP.liftE ((wp_alone_reseedNotDue hx).mono ?_))
  rintro notDue x₁ ⟨hx₁, hnotDue⟩
  simp only
  split
  · next h => exact fun _ hbytes => hnotDue h hbytes
  · refine WP.bind (WP.op trivial fun _ x₂ h₂ => ?_)
    have hx₂ := (alone_still id h₂).1 hx₁
    refine WP.bind ((wp_alone_reseedLocked hI hS tenantID hx₂).mono fun r x₃ h₃ => ?_)
    refine WP.bind (WP.op trivial fun _ x₄ h₄ hr hbytes => ?_)
    -- releasing the lock changes nothing
    obtain ⟨e, s, -, -, rfl⟩ := h₄
    rw [generated_concat] at hbytes
    have htime := h₃ hr (lt_of_le_of_lt (Nat.le_add_right _ _) hbytes)
    rw [InTime, lastSeed_concat]
    exact htime

end Check

/-! ### Runs -/

section Runs

variable {aes : Csprng.BlockCipher} {drbg : Csprng.DRBG} {now : Time} {τ : ℕ → Time}
  {tasks : List Task} {xs ys : List (ℕ × Env)} {c c' : Tasks Csprng.DRBG} {i : ℕ}

/-- A generation starts with the check. -/
theorem generate_eq (tenantID gameID roundID : GoString) (count : ℤ) (min max : Int64) :
    ∃ k, (generate srv tenantID gameID roundID count min max).run
        = (reseedIfNeeded srv tenantID).run >>= k ∧
      ∀ err, k (.error err) = .ret (.error (.wrap "reseed: %w" [] err)) :=
  ⟨_, run_mapError_bindE _ _ _, fun _ => rfl⟩

/-- At every point of a run the check finds what it depends on. -/
theorem counted_of_run (hdrbg : drbg.outputBytes = 0)
    (hrun : Pool.run (exec (.drbg aes) srv.crypto) (atInstants now τ) xs
      (start srv tasks (World.new drbg now)) = some c) : Counted now (c.state, c.trace) := by
  obtain ⟨g, hduty⟩ := onDuty_of_run hrun
  have hticking := Pool.run_weaken
    (fun c i e hp => ((Bool.and_eq_true _ _).mp hp).1) hrun
  obtain ⟨q, htracks⟩ := tracks_of_run hdrbg le_rfl hticking
  exact ⟨hduty.lastReseed, htracks.outputs.trans htracks.total⟩

/-- **After a failure to collect entropy** the task neither draws nor re-seeds. -/
theorem still_after_failure
    (hrun : Pool.run (exec (.drbg aes) srv.crypto) (atInstants now τ) xs
      (start srv tasks (World.new drbg now)) = some c)
    (hfail : ∃ ev ∈ c.trace, ev.caller = i ∧ collectFails ev = true)
    (hys : ∀ y ∈ ys, y.1 = i)
    (hrun' : Pool.run (exec (.drbg aes) srv.crypto) (atInstants now τ) ys c = some c') :
    generated c'.trace = generated c.trace ∧ c'.state.drbg = c.state.drbg ∧
      c'.state.lastReseed = c.state.lastReseed := by
  induction ys using List.reverseRecOn generalizing c' with
  | nil =>
    obtain rfl := Option.some.inj hrun'
    exact ⟨rfl, rfl, rfl⟩
  | append_singleton ys y ih =>
    obtain ⟨c₁, hrun₁, hs⟩ := Pool.run_concat.mp hrun'
    obtain ⟨hgen, hdrbg, hlast⟩ := ih (fun y hy => hys y (List.mem_append_left _ hy)) hrun₁
    -- the invariant after the step says that the call does not turn the generator
    obtain ⟨g, hduty⟩ := onDuty_of_run
      (Pool.run_append.mpr ⟨c, hrun, hrun'⟩ : Pool.run _ (atInstants now τ) _ _ = some c')
    obtain ⟨o, again, k, r, s, -, -, hsem, rfl⟩ := Pool.step_cases hs
    obtain ⟨ev, hev, hcaller, hf⟩ := hfail
    have hmem : ev ∈ c₁.trace :=
      (Pool.run_trace_mono (List.nil_prefix) (rfl : Pool.run _ _ [] c = some c) hrun₁).subset hev
    have hstill : ¬ Turning o := by
      intro ht
      have hno := (stepwise_concat.mp hduty.spared).2.2 ht ev hmem
        (hcaller.trans (hys y (List.mem_append_right _ List.mem_cons_self)).symm)
      rw [hf] at hno
      cases hno
    obtain ⟨hdrbg', hlast'⟩ := exec_still hstill hsem
    have hbytes := (@seedStep_still y.1 y.2 o hstill r (0, 0)).2.1
    refine ⟨?_, hdrbg'.trans hdrbg, hlast'.trans hlast⟩
    rw [Pool.moved, generated_concat, hbytes]
    exact hgen

/-- **No request is served from an overdue generator.** Where `reseedIfNeeded` returns
without an error, the generator is in time. Where it fails to collect entropy, its task has
drawn nothing for the entry it was about to make, and from then on neither draws nor
changes the generator or `lastReseed`. -/
theorem never_overdue {entropy : Bytes} (hI : 0 < srv.cfg.intervalOutputs)
    (hS : 0 < srv.cfg.intervalSeconds) (hnew : Csprng.new aes entropy = .ok drbg)
    (hrun : Pool.run (exec (.drbg aes) srv.crypto) (atInstants now τ) xs
      (start srv tasks (World.new drbg now)) = some c) :
    (∀ i tenantID k es c' w, c.threads[i]? = some ((reseedIfNeeded srv tenantID).run >>= k) →
      Pool.run (exec (.drbg aes) srv.crypto) (atInstants now τ) (es.map (i, ·)) c = some c' →
      Prog.run (exec (.drbg aes) srv.crypto) es (reseedIfNeeded srv tenantID).run c.state
        = some (.ok (), w) →
      generated c'.trace < 2 ^ 64 →
      c'.threads[i]? = some (k (.ok ())) ∧ c'.state = w ∧ InTime srv now (τ i) c'.trace) ∧
    (∀ i ys c' ev, (∀ y ∈ ys, y.1 = i) →
      Pool.run (exec (.drbg aes) srv.crypto) (atInstants now τ) ys c = some c' →
      c'.trace[c.trace.length]? = some ev → collectFails ev = true →
      undelivered i c.trace = 0 ∧ generated c'.trace = generated c.trace ∧
        c'.state.drbg = c.state.drbg ∧ c'.state.lastReseed = c.state.lastReseed) := by
  refine ⟨?_, ?_⟩
  · intro i tenantID k es c' w hthread hpool hprog hbytes
    have hcounted := counted_of_run (Csprng.new_outputBytes hnew) hrun
    have hpolicy : ∀ (c : Tasks Csprng.DRBG) i e, atInstants now τ c i e = true → e.now = τ i :=
      fun c i e hp => of_decide_eq_true ((Bool.and_eq_true _ _).mp hp).2
    obtain ⟨hcont, hstate, htime⟩ := Pool.run_solo hpolicy
      (wp_alone_reseedIfNeeded hI hS tenantID hcounted) hthread hpool hprog
    exact ⟨hcont, hstate, htime rfl hbytes⟩
  · intro i ys c' ev hys hrun' hev hf
    cases ys with
    | nil =>
      obtain rfl := Option.some.inj hrun'
      rw [List.getElem?_eq_none le_rfl] at hev
      cases hev
    | cons y ys =>
      -- the first call is the one that fails
      obtain ⟨c₁, hs, hrest⟩ := Option.bind_eq_some_iff.mp hrun'
      have hrun₁ : Pool.run (exec (.drbg aes) srv.crypto) (atInstants now τ) (xs ++ [y])
          (start srv tasks (World.new drbg now)) = some c₁ := Pool.run_concat.mpr ⟨c, hrun, hs⟩
      obtain ⟨g, hduty⟩ := onDuty_of_run hrun₁
      obtain ⟨rest, hrest'⟩ := Pool.run_trace_mono List.nil_prefix
        (rfl : Pool.run _ (atInstants now τ) [] c₁ = some c₁) hrest
      obtain ⟨o, again, k, r, s, -, -, hsem, rfl⟩ := Pool.step_cases hs
      have hy : y.1 = i := hys y List.mem_cons_self
      rw [← hrest', Pool.moved, List.append_assoc, List.getElem?_append_right le_rfl,
        Nat.sub_self] at hev
      obtain rfl := Option.some.inj hev
      have hstill : ¬ Turning o := by
        intro ht
        cases o <;> first | cases hf | cases ht
      obtain ⟨hdrbg, hlast⟩ := exec_still hstill hsem
      have hbytes := (@seedStep_still y.1 y.2 o hstill r (0, 0)).2.1
      have hfailed : ∃ ev ∈ (c.moved (if again r then call o again k else k r) s
          ⟨y.1, y.2, o, r⟩).trace, ev.caller = i ∧ collectFails ev = true :=
        ⟨_, List.mem_append_right _ List.mem_cons_self, hy, hf⟩
      obtain ⟨hgen, hdrbg', hlast'⟩ := still_after_failure hrun₁ hfailed
        (fun y hy => hys y (List.mem_cons_of_mem _ hy)) hrest
      refine ⟨?_, ?_, hdrbg'.trans hdrbg, hlast'.trans hlast⟩
      · rw [← hy]
        exact (stepwise_concat.mp hduty.spared).2.1 hf
      · rw [hgen, Pool.moved, generated_concat, hbytes]
        rfl

/-- An entropy source that fails. -/
def noEntropy : Env := { entropy := .error (.text "getrandom: input/output error") }

/-- A batch of two items. -/
def twoItems : BatchRequest := ⟨[97], [103], [114], [⟨1, 5, 6⟩, ⟨1, 5, 6⟩]⟩

/-- Runs of this batch on a server that re-seeds every eight bytes, at the instant 0. -/
def batchRun (xs : List (ℕ × Env)) : Option (Tasks Csprng.DRBG) :=
  Pool.run (exec (.drbg fun _ block => block) eagerServer.crypto) (atInstants 0 fun _ => 0) xs
    (start eagerServer [.request ⟨⟨[], [107]⟩, .generateBatch (.ok twoItems)⟩]
      (World.new smallDrbg 0))

/-- After one call the batch is about to check the generator. -/
theorem batchRun_check : ∃ c k, batchRun (turns 0 1) = some c ∧ c.state = World.new smallDrbg 0 ∧
    c.threads[0]? = some ((reseedIfNeeded eagerServer [97]).run >>= k) := by
  have hrun : batchRun (turns 0 1) = some ⟨[batchLoop eagerServer twoItems twoItems.requests [] >>=
      fun resp => .ret (some resp)], World.new smallDrbg 0, [⟨0, {}, .allow [97], true⟩]⟩ := rfl
  obtain ⟨k, hk⟩ : ∃ k, batchLoop eagerServer twoItems twoItems.requests []
      = (generate eagerServer [97] [103] [114] 1 5 6).run >>= k := ⟨_, rfl⟩
  obtain ⟨k', hk', -⟩ := @generate_eq eagerServer [97] [103] [114] 1 5 6
  rw [hk, hk', bind_assoc, bind_assoc] at hrun
  exact ⟨_, _, hrun, rfl, rfl⟩

/-- The first item passes the check in time; the second one fails to collect entropy, with
nothing drawn for it. -/
theorem never_overdue_batch :
    (∃ c, batchRun (turns 0 4) = some c ∧ InTime eagerServer 0 0 c.trace) ∧
    ∃ c c', batchRun (turns 0 13) = some c ∧ batchRun (turns 0 13 ++ [(0, noEntropy)]) = some c' ∧
      undelivered 0 c.trace = 0 ∧ c'.state.drbg = c.state.drbg := by
  have hnew : Csprng.new (fun _ block => block) (List.replicate 48 0) = .ok smallDrbg := by
    decide +kernel
  refine ⟨?_, ?_⟩
  · obtain ⟨c, k, hc, hstate, hthread⟩ := batchRun_check
    have h : (batchRun (turns 0 1 ++ turns 0 3)).map (fun c => generated c.trace) = some 0 := by
      decide +kernel
    obtain ⟨c', hc', hgen⟩ := Option.map_eq_some_iff.mp h
    obtain ⟨c₁, hc₁, hpool⟩ := Pool.run_append.mp hc'
    obtain rfl := Option.some.inj (hc.symm.trans hc₁)
    have hprog : Prog.run (exec (.drbg fun _ block => block) eagerServer.crypto)
        (List.replicate 3 {}) (reseedIfNeeded eagerServer [97]).run c.state
        = some (.ok (), World.new smallDrbg 0) := by
      rw [hstate]
      rfl
    have hbytes : generated c'.trace < 2 ^ 64 := by
      rw [hgen]
      decide
    obtain ⟨-, -, htime⟩ := (never_overdue (by decide) (by decide) hnew hc).1 0 [97] k
      (List.replicate 3 {}) c' _ hthread hpool hprog hbytes
    exact ⟨c', hc', htime⟩
  · have h : (batchRun (turns 0 13 ++ [(0, noEntropy)])).map (fun c =>
        c.trace[13]?.map collectFails) = some (some true) := by
      decide +kernel
    obtain ⟨c', hc', hget⟩ := Option.map_eq_some_iff.mp h
    obtain ⟨ev, hev, hfail⟩ := Option.map_eq_some_iff.mp hget
    obtain ⟨c, hc, hs⟩ := Pool.run_append.mp hc'
    have hlen : (batchRun (turns 0 13)).map (fun c => c.trace.length) = some 13 := by
      decide +kernel
    rw [batchRun, hc] at hlen
    rw [← Option.some.inj hlen] at hev
    refine ⟨c, c', hc, hc', ?_⟩
    obtain ⟨h1, -, h2, -⟩ := (never_overdue (by decide) (by decide) hnew hc).2 0
      [(0, noEntropy)] c' ev (by simp) hs hev hfail
    exact ⟨h1, h2⟩

/-- **A batch has drawn before.** The first item of the batch is served with eight bytes, and
entropy for the second one cannot be collected. -/
theorem batch_draws_first : ∃ c, batchRun (turns 0 13 ++ [(0, noEntropy)]) = some c ∧
    (∃ ev ∈ c.trace, ev.caller = 0 ∧ collectFails ev = true) ∧ generated c.trace = 8 := by
  have h : (batchRun (turns 0 13 ++ [(0, noEntropy)])).map (fun c =>
      (c.trace.any fun ev => decide (ev.caller = 0) && collectFails ev, generated c.trace))
      = some (true, 8) := by
    decide +kernel
  obtain ⟨c, hc, heq⟩ := Option.map_eq_some_iff.mp h
  obtain ⟨hany, hgen⟩ := Prod.mk.inj heq
  obtain ⟨ev, hev, hfail⟩ := List.any_eq_true.mp hany
  rw [Bool.and_eq_true, decide_eq_true_eq] at hfail
  exact ⟨c, hc, ⟨ev, hev, hfail⟩, hgen⟩

end Runs

end Gateway
