import Mathlib
import RngService.Lib.Mutex
import RngService.Gateway.Trail
import RngService.Gateway.Walk

/-!
# The lock of the re-seed

`reseedMu` is the only lock that a request holds across other calls. Whatever the
generator, the entropy pool, the clock and the store answer, and however the calls of
requests and self tests interleave, no request is stuck behind it for good, and the
re-seeds of different requests do not mix: a request takes the lock when it is free, makes
at most eight calls under it, and releases it on every way out of `reseedIfNeeded`.
-/

namespace Gateway

open Audit Prog

variable {D : Type}

/-- `s.reseedMu`, and the calls that are made under it. -/
def reseedMu (dev : Device D) (crypto : Crypto) : Mutex (exec dev crypto) where
  locks
    | .lockReseed => true
    | _ => false
  unlocks
    | .unlockReseed => true
    | _ => false
  guarded
    | .collectForReseed .. => true
    | .reseed _ => true
    | .setLastReseed _ => true
    | _ => false
  held w := w.reseedMu
  blocks o e w ho := by
    cases o with
    | lockReseed => simp only [exec]; split <;> simp_all
    | _ => cases ho
  total o e w ho := by
    cases o with
    | lockReseed => cases ho
    | appendEntry entry =>
      simp only [exec]
      split
      · simp
      · split <;> simp
    | _ => simp [exec]
  locked o e w r w' ho h := by
    cases o with
    | lockReseed =>
      rw [exec] at h
      split at h
      · cases h
      · obtain ⟨-, rfl⟩ := Prod.mk.inj (Option.some.inj h)
        rfl
    | _ => cases ho
  unlocked o e w r w' _ ho h := by
    cases o with
    | unlockReseed =>
      obtain ⟨-, rfl⟩ := Prod.mk.inj (Option.some.inj h)
      rfl
    | _ => cases ho
  frame o e w r w' ho hu h := by
    cases o with
    | lockReseed => cases ho
    | unlockReseed => cases hu
    | appendEntry entry =>
      rw [exec] at h
      split at h
      · obtain ⟨-, rfl⟩ := Prod.mk.inj (Option.some.inj h)
        rfl
      · split at h <;>
        · obtain ⟨-, rfl⟩ := Prod.mk.inj (Option.some.inj h)
          rfl
    | _ =>
      obtain ⟨-, rfl⟩ := Prod.mk.inj (Option.some.inj h)
      rfl

/-! ### Tasks that keep an invariant

Outside of the re-seed a task makes no call on the lock. An invariant that such calls keep,
and the re-seed as a whole, is kept by every task. -/

/-- The operation neither draws nor belongs to the re-seed. -/
def Unlocked : Op → Prop
  | .lockReseed => False
  | .unlockReseed => False
  | .collectForReseed .. => False
  | .reseed _ => False
  | .setLastReseed _ => False
  | .generate _ => False
  | _ => True

theorem unlocked_reseedNotDue {srv : Server} : Calls Unlocked (reseedNotDue srv) :=
  calls_reseedNotDue trivial trivial trivial

/-- What has to be known of an invariant. -/
structure Kept {Q : Type} (srv : Server) (M : Prog.Model Op Ret Q) (I : Q → Prop) : Prop where
  call : ∀ o, Unlocked o → ∀ q, I q → M.allowed o q ∧ ∀ r q', M.step o q r q' → I q'
  draw : Scaling.Draws M rng I
  reseed : ∀ tenantID, Keeps M I (reseedIfNeeded srv tenantID).run

section Kept

variable {Q : Type} {srv : Server} {M : Prog.Model Op Ret Q} {I : Q → Prop}

theorem Kept.op (h : Kept srv M I) {o : Op} (ho : Unlocked o) :
    Keeps M I (Prog.op o : Program (Ret o)) := Keeps.op (h.call o ho)

theorem Kept.making (h : Kept srv M I) : Making srv M I I I I (fun _ => I) fun _ => I where
  reseed tenantID q hq := (h.reseed tenantID q hq).mono fun r _ hr => by cases r <;> exact hr
  draws := h.draw
  requestID := h.call .newRequestID trivial
  now := h.call .now trivial
  sealEntry e q hq := by
    obtain ⟨ha, hstep⟩ := h.call (.sealEntry e) trivial q hq
    exact ⟨ha, fun r q' hr => ⟨fun _ _ => hstep r q' hr, fun _ => hstep r q' hr⟩⟩
  appendEntry e q hq := by
    obtain ⟨ha, hstep⟩ := h.call (.appendEntry e) trivial q hq
    exact ⟨ha, fun r q' hr => by cases r <;> exact hstep _ q' hr⟩
  failed _ hq := hq
  undone _ _ hq := hq

theorem Kept.generate (h : Kept srv M I) (tenantID gameID roundID : GoString) (count : ℤ)
    (min max : Int64) : Keeps M I (generate srv tenantID gameID roundID count min max).run :=
  fun _ hq => (h.making.wp_generate _ _ _ _ _ _ hq).mono fun r _ hr => by cases r <;> exact hr

theorem Kept.shuffleItems (h : Kept srv M I) (req : ShuffleRequest) :
    Keeps M I (shuffleItems srv req).run :=
  fun _ hq => (h.making.wp_shuffleItems req hq).mono fun r _ hr => by cases r <;> exact hr

theorem Kept.batchLoop (h : Kept srv M I) (req : BatchRequest) (items : List BatchItem)
    (results : List GenerateResponse) : Keeps M I (batchLoop srv req items results) := by
  induction items generalizing results with
  | nil => exact Keeps.ret _
  | cons item items ih =>
    unfold Gateway.batchLoop
    split
    · exact Keeps.ret _
    · refine Keeps.bind (h.generate _ _ _ _ _ _) fun r => ?_
      cases r with
      | error err => exact Keeps.ret _
      | ok resp => exact ih _

theorem Kept.handleHealth (h : Kept srv M I) : Keeps M I (handleHealth srv) := by
  have htamper : Keeps M I (tamperStatus srv) := by
    unfold tamperStatus
    split
    · exact Keeps.ret _
    · exact Keeps.bind (h.op trivial) fun _ => Keeps.ret _
  have htests : ∀ status, Keeps M I (selfTestStatus srv status) := by
    intro status
    unfold selfTestStatus
    split
    · exact Keeps.bind (h.op trivial) fun _ => Keeps.bind (h.op trivial) fun _ => Keeps.ret _
    · exact Keeps.ret _
  exact Keeps.bind (h.op trivial) fun _ => Keeps.bind htamper fun _ =>
    Keeps.bind (h.op trivial) fun _ => Keeps.bind (h.op trivial) fun _ =>
      Keeps.bind (htests _) fun _ => Keeps.ret _

theorem Kept.handleGenerate (h : Kept srv M I) (tenant : GoString)
    (body : Except GoError GenerateRequest) : Keeps M I (handleGenerate srv tenant body) := by
  unfold Gateway.handleGenerate
  split
  · exact Keeps.ret _
  · split
    · exact Keeps.ret _
    · split
      · exact Keeps.ret _
      · refine Keeps.bind (h.generate _ _ _ _ _ _) fun r => ?_
        cases r <;> exact Keeps.ret _

theorem Kept.handleGenerateBatch (h : Kept srv M I) (tenant : GoString)
    (body : Except GoError BatchRequest) : Keeps M I (handleGenerateBatch srv tenant body) := by
  unfold Gateway.handleGenerateBatch
  split
  · exact Keeps.ret _
  · -- the checks of the request answer without a call
    split_ifs
    · exact Keeps.ret _
    · exact Keeps.ret _
    · exact Keeps.ret _
    · exact Keeps.ret _
    · exact h.batchLoop _ _ _

theorem Kept.handleShuffle (h : Kept srv M I) (tenant : GoString)
    (body : Except GoError ShuffleRequest) : Keeps M I (handleShuffle srv tenant body) := by
  unfold Gateway.handleShuffle
  split
  · exact Keeps.ret _
  · split_ifs
    · exact Keeps.ret _
    · exact Keeps.ret _
    · exact Keeps.ret _
    · exact Keeps.ret _
    · refine Keeps.bind (h.shuffleItems _) fun r => ?_
      cases r <;> exact Keeps.ret _

theorem Kept.handleAuditRound (h : Kept srv M I) (roundID : GoString) :
    Keeps M I (handleAuditRound srv roundID) := by
  unfold Gateway.handleAuditRound
  split
  · exact Keeps.ret _
  · refine Keeps.bind (h.op trivial) fun r => ?_
    cases r <;> exact Keeps.ret _

theorem Kept.serve (h : Kept srv M I) (tenant : GoString) (route : Route) :
    Keeps M I (serve srv tenant route) := by
  cases route with
  | generate body => exact h.handleGenerate tenant body
  | generateBatch body => exact h.handleGenerateBatch tenant body
  | shuffle body => exact h.handleShuffle tenant body
  | health => exact h.handleHealth
  | stats =>
    exact Keeps.bind (h.op trivial) fun _ => Keeps.bind (h.op trivial) fun _ => Keeps.ret _
  | auditRound roundID => exact h.handleAuditRound roundID
  | unrouted reason => exact Keeps.ret _

/-- **Every task keeps the invariant**, if the draw of a self test does. -/
theorem Kept.task (h : Kept srv M I) (t : Task)
    (hsample : ∀ n, t = .selfTest n → Keeps M I (Prog.op (Op.generate (sampleSize n)))) :
    Keeps M I (t.program srv) := by
  cases t with
  | selfTest n => exact Keeps.bind (hsample n rfl) fun _ => Keeps.ret _
  | request req =>
    refine Keeps.bind (Keeps.bind (fun q hq => ?_) fun r => ?_) fun _ => Keeps.ret _
    · exact (wp_extractTenant (h.call .now trivial) hq).mono fun _ _ hr => hr.1
    · cases r with
      | error err => exact Keeps.ret _
      | ok tenant =>
        simp only
        split
        · exact Keeps.ret _
        · refine Keeps.bind (h.op trivial) fun allowed => ?_
          split
          · exact h.serve tenant req.route
          · exact Keeps.ret _

end Kept

/-! ### The session under the lock -/

/-- How far the re-seed under the lock has got. -/
inductive Phase
  | checking
  /-- entropy is collected -/
  | collected (entropy : Bytes)
  /-- the generator is re-seeded, and `lastReseed` is behind -/
  | reseeded
  /-- the instant for `lastReseed` is read -/
  | stamped (t : Time)
  deriving DecidableEq

/-- The effect of a call on the phase. -/
def Phase.next : (o : Op) → Ret o → Phase → Phase
  | .collectForReseed .., .ok entropy, _ => .collected entropy
  | .reseed _, .ok _, _ => .reseeded
  | .reseed _, .error _, _ => .checking
  | .now, t, .reseeded => .stamped t
  | .setLastReseed _, _, _ => .checking
  | _, _, ph => ph

/-- The phase that a call of the re-seed belongs to. -/
def Phase.before : Op → Phase → Prop
  | .collectForReseed .., ph => ph = .checking
  | .reseed entropy, ph => ph = .collected entropy
  | .setLastReseed t, ph => ph = .stamped t
  | _, _ => True

/-- **The critical section of `reseedIfNeeded`**: at most eight calls; what is fed to the
generator is what was collected, and after a re-seed the lock is not released before
`lastReseed` is set. -/
def reseedSession : Prog.Session Op Ret (ℕ × Phase) where
  start := (8, .checking)
  next o r l := (l.1 - 1, l.2.next o r)
  allowed o l := l.1 ≠ 0 ∧ l.2.before o
  complete l := l.2 = .checking
  left l := l.1
  next_left _ _ _ h := Nat.sub_one_lt h.1

variable {dev : Device D} {crypto : Crypto} {srv : Server}

/-- Good use of the lock. -/
abbrev usage (dev : Device D) (crypto : Crypto) : Prog.Model Op Ret (Option (ℕ × Phase)) :=
  (reseedMu dev crypto).usage reseedSession

/-- The operation has nothing to do with the lock. -/
def Outer : Op → Prop
  | .lockReseed => False
  | .unlockReseed => False
  | .collectForReseed .. => False
  | .reseed _ => False
  | .setLastReseed _ => False
  | _ => True

theorem Unlocked.outer {o : Op} (h : Unlocked o) : Outer o := by
  cases o with
  | generate n => exact h.elim
  | _ => exact h

/-- Outside the critical section such a call is allowed. -/
theorem usage_outside {o : Op} (ho : Outer o) (q : Option (ℕ × Phase)) (hq : q = none) :
    (usage dev crypto).allowed o q ∧ ∀ r q', (usage dev crypto).step o q r q' → q' = none := by
  subst hq
  cases o with
  | lockReseed => exact ho.elim
  | unlockReseed => exact ho.elim
  | collectForReseed => exact ho.elim
  | reseed entropy => exact ho.elim
  | setLastReseed t => exact ho.elim
  | _ => exact ⟨⟨fun _ => rfl, nofun, nofun, nofun⟩, fun _ _ h => h⟩

/-- Inside, with at least `n` calls left. -/
def Inside (n : ℕ) (ph : Phase) (q : Option (ℕ × Phase)) : Prop := ∃ m, n ≤ m ∧ q = some (m, ph)

theorem Inside.mono {n n' : ℕ} {ph : Phase} {q : Option (ℕ × Phase)} (h : Inside n ph q)
    (hn : n' ≤ n) : Inside n' ph q := by
  obtain ⟨m, hm, rfl⟩ := h
  exact ⟨m, hn.trans hm, rfl⟩

/-- Inside, a call of the right phase uses up one of those left. -/
theorem wp_inside {o : Op} {n : ℕ} {ph : Phase} {q : Option (ℕ × Phase)}
    (hl : (reseedMu dev crypto).locks o = false) (hu : (reseedMu dev crypto).unlocks o = false)
    (hph : ph.before o) (hq : Inside (n + 1) ph q) :
    WP (usage dev crypto) (Prog.op o) (fun r => Inside n (ph.next o r)) q := by
  obtain ⟨m, hm, rfl⟩ := hq
  have hm0 : m ≠ 0 := by omega
  refine WP.op ⟨fun h => ?_, fun _ h => ?_, nofun, fun _ _ l hl' => ?_⟩ fun r q' hstep => ?_
  · rw [hl] at h
    cases h
  · rw [hu] at h
    cases h
  · obtain rfl := Option.some.inj hl'
    exact ⟨hm0, hph⟩
  · obtain rfl : q' = _ := hstep
    rw [Mutex.usageStep, hl, hu]
    exact ⟨m - 1, by omega, rfl⟩

/-! ### Every task uses the lock well -/

/-- The check makes at most three calls. -/
theorem wp_inside_reseedNotDue {n : ℕ} {q : Option (ℕ × Phase)}
    (hq : Inside (n + 3) .checking q) :
    WP (usage dev crypto) (reseedNotDue srv) (fun _ => Inside n .checking) q := by
  refine WP.bind ((wp_inside (o := .outputBytes) rfl rfl trivial hq).mono fun _ q₁ hq₁ => ?_)
  split
  · refine WP.bind ((wp_inside (o := .lastReseed) rfl rfl trivial hq₁).mono fun _ q₂ hq₂ => ?_)
    exact WP.bind ((wp_inside (o := .now) rfl rfl trivial hq₂).mono fun _ _ hq₃ => hq₃)
  · exact hq₁.mono (by omega)

/-- **The critical section keeps to its session.** -/
theorem wp_inside_reseedLocked (tenantID : GoString) {q : Option (ℕ × Phase)}
    (hq : Inside 8 .checking q) :
    WP (usage dev crypto) (reseedLocked srv tenantID).run (fun _ => Inside 0 .checking) q := by
  refine WP.bindE (WP.liftE ((wp_inside_reseedNotDue hq).mono fun notDue q₁ hq₁ => ?_))
  simp only
  split
  · exact WP.pureE (hq₁.mono (by omega))
  · refine WP.bindE (WP.liftE ((wp_inside (o := .outputBytes) rfl rfl trivial hq₁).mono
      fun outputs q₂ hq₂ => ?_))
    refine WP.bindE ((wp_inside (o := .collectForReseed Csprng.seedLen tenantID outputs)
      rfl rfl rfl hq₂).mono fun r q₃ hq₃ => ?_)
    cases r with
    | error err => exact hq₃.mono (by omega)
    | ok entropy =>
      refine WP.bindE ((wp_inside (o := .reseed entropy) rfl rfl rfl hq₃).mono fun r q₄ hq₄ => ?_)
      cases r with
      | error err => exact hq₄.mono (by omega)
      | ok u =>
        refine WP.bindE (WP.liftE ((wp_inside (o := .now) rfl rfl trivial hq₄).mono
          fun now q₅ hq₅ => ?_))
        exact WP.liftE ((wp_inside (o := .setLastReseed now) rfl rfl rfl hq₅).mono
          fun _ _ hq₆ => hq₆)

/-- The check has nothing to do with the lock. -/
theorem wp_outside_reseedNotDue {q : Option (ℕ × Phase)} (hq : q = none) :
    WP (usage dev crypto) (reseedNotDue srv) (fun _ q' => q' = none) q :=
  WP.of_calls (fun _ ho => usage_outside ho.outer) unlocked_reseedNotDue hq

/-- **The lock is released on every way out.** -/
theorem wp_usage_reseedIfNeeded (tenantID : GoString) {q : Option (ℕ × Phase)} (hq : q = none) :
    WP (usage dev crypto) (reseedIfNeeded srv tenantID).run (fun _ q' => q' = none) q := by
  refine WP.bindE (WP.liftE ((wp_outside_reseedNotDue hq).mono fun notDue q₁ hq₁ => ?_))
  simp only
  split
  · exact WP.pureE hq₁
  · refine WP.bind (WP.op ⟨fun _ => hq₁, nofun, nofun, nofun⟩ fun u q₂ h₂ => ?_)
    obtain rfl : q₂ = some (8, .checking) := h₂
    refine WP.bind ((wp_inside_reseedLocked tenantID ⟨8, le_rfl, rfl⟩).mono fun r q₃ hq₃ => ?_)
    obtain ⟨m, -, rfl⟩ := hq₃
    refine WP.bind (WP.op ⟨nofun, fun _ _ => ⟨_, rfl, rfl⟩, nofun, nofun⟩ fun u q₄ h₄ => ?_)
    exact h₄

theorem kept_usage : Kept srv (usage dev crypto) (· = none) where
  call _ ho := usage_outside ho.outer
  draw := usage_outside (o := .generate 8) trivial
  reseed tenantID _ hq := wp_usage_reseedIfNeeded tenantID hq

/-- Every task uses the lock well. -/
theorem uses_task (t : Task) : (reseedMu dev crypto).Uses reseedSession (t.program srv) :=
  kept_usage.task t (fun n _ => Keeps.op (usage_outside (o := .generate (sampleSize n)) trivial))
    none rfl

/-! ### Runs -/

section Runs

variable {tasks : List Task} {w : World D} {sched : List (ℕ × Env)} {c : Tasks D}

theorem holds_of_run {policy : Pool.Policy Op Ret Env (Option Response) (World D)}
    (hfree : w.reseedMu = false)
    (hrun : Pool.run (exec dev srv.crypto) policy sched (start srv tasks w) = some c) :
    ∃ g, (reseedMu dev srv.crypto).Holds reseedSession c g :=
  Mutex.holds_of_run (by simpa using fun t _ => uses_task t) hfree hrun

/-- The server is not stuck: whenever a task has not returned, some task can make its next
call, whatever the surroundings answer to it. -/
def Moves (srv : Server) (dev : Device D) (c : Tasks D) : Prop :=
  c.threads.all isRet = false →
    ∃ i, ∀ e, ∃ c', Pool.step (exec dev srv.crypto) Pool.anyOrder c (i, e) = some c'

/-- The lock is free when all tasks have returned, and otherwise the one who holds it gives
it back within nine calls of its own, whatever the surroundings answer to them. -/
def Released (srv : Server) (dev : Device D) (c : Tasks D) : Prop :=
  (c.threads.all isRet = true → c.state.reseedMu = false) ∧
    (c.state.reseedMu = true → ∃ i, ∀ es : List Env, 9 ≤ es.length → ∃ m c', m ≤ 9 ∧
      Pool.run (exec dev srv.crypto) Pool.anyOrder ((es.take m).map (i, ·)) c = some c' ∧
        c'.state.reseedMu = false)

/-- **No request is stuck behind the re-seed lock**, in any interleaving of any tasks, whatever
the generator, the clock, the entropy pool and the store do. -/
theorem reseedMu_live (hfree : w.reseedMu = false)
    (hrun : Pool.run (exec dev srv.crypto) Pool.anyOrder sched (start srv tasks w) = some c) :
    Moves srv dev c ∧ Released srv dev c := by
  obtain ⟨g, h⟩ := holds_of_run hfree hrun
  refine ⟨h.progress, h.free_of_returned, fun hheld => ?_⟩
  obtain ⟨⟨i, l⟩, hi⟩ := Option.isSome_iff_exists.mp (h.held.symm.trans hheld)
  have hl := (h.owner i l).mp hi
  have hbound := (h.bound i l hl).1
  exact ⟨i, fun es hes => h.released hl (Nat.lt_succ_of_le hbound) hes⟩

/-- The small server, re-seeding for every entry. -/
def busyServer : Server :=
  { smallServer with cfg := { smallServer.cfg with intervalOutputs := 0 } }

/-- Two requests on it, the first of which has re-seeded and holds the lock. -/
def busyRun : Option (Tasks Csprng.DRBG) :=
  Pool.run (exec (.drbg fun _ block => block) busyServer.crypto) Pool.anyOrder
    (turns 0 5 ++ turns 1 2 ++ turns 0 2)
    (start busyServer [.request (smallRequest [107] [97] [114]),
      .request (smallRequest [108] [98] [115])] smallWorld)

theorem reseedMu_live_busy : ∃ c, busyRun = some c ∧ c.state.reseedMu = true ∧
    Moves busyServer (.drbg fun _ block => block) c ∧
      Released busyServer (.drbg fun _ block => block) c := by
  have h : busyRun.map (·.state.reseedMu) = some true := by decide +kernel
  obtain ⟨c, hc, hheld⟩ := Option.map_eq_some_iff.mp h
  exact ⟨c, hc, hheld, reseedMu_live rfl hc⟩

/-- The effect of a call on who is under the lock, and how far. -/
def lockStep : Option (ℕ × Phase) → Event Op Ret Env → Option (ℕ × Phase)
  | _, ⟨i, _, .lockReseed, _⟩ => some (i, .checking)
  | _, ⟨_, _, .unlockReseed, _⟩ => none
  | some (j, ph), ⟨i, _, o, r⟩ => some (j, if j = i then ph.next o r else ph)
  | none, _ => none

/-- Who is under the lock after a trace, and how far. -/
def underLock (tr : Trace) : Option (ℕ × Phase) := tr.foldl lockStep none

/-- The calls of a re-seed belong together. The lock is taken when it is free; entropy is
collected under the lock; the generator is re-seeded with what its caller has just collected;
`lastReseed` is set by the one who has just re-seeded, to the instant it has read since; and
the lock is released when nothing of this is pending. -/
def Atomic (before : Trace) (ev : Event Op Ret Env) : Prop :=
  match ev.op with
  | .lockReseed => underLock before = none
  | .unlockReseed => underLock before = some (ev.caller, .checking)
  | .collectForReseed .. => underLock before = some (ev.caller, .checking)
  | .reseed entropy => underLock before = some (ev.caller, .collected entropy)
  | .setLastReseed t => underLock before = some (ev.caller, .stamped t)
  | _ => True

/-- The phase is what the session knows, without the count of calls. -/
theorem underLock_eq (dev : Device D) (crypto : Crypto) (tr : Trace) : underLock tr
    = ((reseedMu dev crypto).owner reseedSession tr).map fun x => (x.1, x.2.2) := by
  induction tr using List.reverseRecOn with
  | nil => rfl
  | append_singleton tr ev ih =>
    rw [Mutex.owner_concat, underLock, List.foldl_concat, ← underLock, ih]
    generalize (reseedMu dev crypto).owner reseedSession tr = h
    obtain ⟨i, e, o, r⟩ := ev
    rcases h with _ | ⟨j, n, ph⟩
    · cases o <;> rfl
    · by_cases hji : j = i
      · subst hji
        cases o <;> simp [lockStep, Mutex.ownerStep, reseedMu, reseedSession]
      · cases o <;> simp [lockStep, Mutex.ownerStep, reseedMu, reseedSession, hji]

/-- **Re-seeds are atomic**: in every interleaving of any tasks, and whatever the generator,
the clock and the entropy pool answer, the re-seeds happen one after the other. -/
theorem reseeds_atomic (hfree : w.reseedMu = false)
    (hrun : Pool.run (exec dev srv.crypto) Pool.anyOrder sched (start srv tasks w) = some c) :
    Stepwise Atomic c.trace := by
  obtain ⟨g, h⟩ := holds_of_run hfree hrun
  intro k hk
  have hexcl := h.exclusive k hk
  have howner := underLock_eq dev srv.crypto (c.trace.take k)
  generalize c.trace[k] = ev at hexcl
  obtain ⟨i, e, o, r⟩ := ev
  obtain ⟨hlock, hunlock, hguard⟩ := hexcl
  cases o with
  | lockReseed => rw [Atomic, howner, hlock rfl]; rfl
  | unlockReseed =>
    obtain ⟨l, hl, hcomplete⟩ := hunlock rfl rfl
    rw [Atomic, howner, hl]
    exact congrArg (fun ph => some (i, ph)) hcomplete
  | collectForReseed | reseed | setLastReseed =>
    obtain ⟨l, hl, -, hph⟩ := hguard rfl rfl rfl
    rw [Atomic, howner, hl]
    exact congrArg (fun ph => some (i, ph)) hph
  | _ => trivial

theorem reseeds_atomic_busy : ∃ c, busyRun = some c ∧ underLock c.trace = some (0, .reseeded) ∧
    Stepwise Atomic c.trace := by
  have h : busyRun.map (fun c => underLock c.trace) = some (some (0, .reseeded)) := by
    decide +kernel
  obtain ⟨c, hc, hphase⟩ := Option.map_eq_some_iff.mp h
  exact ⟨c, hc, hphase, reseeds_atomic rfl hc⟩

end Runs

end Gateway
