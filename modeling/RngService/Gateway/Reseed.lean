import Mathlib
import RngService.Gateway.Trail
import RngService.Gateway.Walk

/-!
# The re-seed policy

`reseedIfNeeded` compares `OutputBytes()` and the time since `lastReseed` with the
configured intervals. The trace of a run says what the policy is about: the bytes
generated since the last successful re-seed and its instant (`lastSeed`).

`gauge` is the model of the surroundings that the policy is verified against: the
counter of the generator, the instant in `lastReseed`, the true instant of the last
re-seed, and a clock that never goes back. Its counter is what the source makes it:
generation adds to it, a re-seed leaves it alone. `keeps_task` shows that every task
re-seeds only when the counter or the clock asks for it.

The counter is the number of bytes since instantiation, not since the last re-seed.
`honest_iff_fresh` draws the line: in a sequential run under a non-decreasing clock
the service reports and re-seeds honestly exactly as long as no re-seed succeeds
after a byte was generated, and the counter does not wrap.
-/

namespace Gateway

open Audit Prog

/-! ### The bytes since the last re-seed -/

/-- One call's effect on the bytes generated since the last successful re-seed and on
its instant. -/
def seedStep (s : ℕ × Time) : Event Op Ret Env → ℕ × Time
  | ⟨_, _, .generate n, .ok _⟩ => (s.1 + n.toNat, s.2)
  | ⟨_, env, .reseed _, .ok _⟩ => (0, env.now)
  | _ => s

/-- The bytes generated since the last successful re-seed and its instant, for a
server seeded at `t₀`. -/
def lastSeed (t₀ : Time) (tr : Trace) : ℕ × Time := tr.foldl seedStep (0, t₀)

/-- The bytes a call generated. -/
def bytesOf : Event Op Ret Env → ℕ
  | ⟨_, _, .generate n, .ok _⟩ => n.toNat
  | _ => 0

/-- The bytes generated in a run. -/
def generated (tr : Trace) : ℕ := (tr.map bytesOf).sum

@[simp] theorem generated_concat (tr : Trace) (ev : Event Op Ret Env) :
    generated (tr ++ [ev]) = generated tr + bytesOf ev := by simp [generated]

@[simp] theorem lastSeed_concat (t₀ : Time) (tr : Trace) (ev : Event Op Ret Env) :
    lastSeed t₀ (tr ++ [ev]) = seedStep (lastSeed t₀ tr) ev := by simp [lastSeed]

/-- The call re-seeded the generator. -/
def reseeds : Event Op Ret Env → Bool
  | ⟨_, _, .reseed _, .ok _⟩ => true
  | _ => false

/-- A call re-seeds, or it adds its bytes. -/
theorem seedStep_cases (s : ℕ × Time) (ev : Event Op Ret Env) :
    (reseeds ev = true ∧ seedStep s ev = (0, ev.input.now) ∧ bytesOf ev = 0) ∨
      (reseeds ev = false ∧ seedStep s ev = (s.1 + bytesOf ev, s.2)) := by
  obtain ⟨i, env, o, r⟩ := ev
  cases o with
  | generate n => cases r <;> exact Or.inr ⟨rfl, rfl⟩
  | reseed entropy =>
    cases r with
    | ok u => exact Or.inl ⟨rfl, rfl, rfl⟩
    | error err => exact Or.inr ⟨rfl, rfl⟩
  | _ => exact Or.inr ⟨rfl, rfl⟩

theorem lastSeed_le_generated (t₀ : Time) (tr : Trace) : (lastSeed t₀ tr).1 ≤ generated tr := by
  induction tr using List.reverseRecOn with
  | nil => exact le_rfl
  | append_singleton tr ev ih =>
    rw [generated_concat, lastSeed_concat]
    rcases seedStep_cases (lastSeed t₀ tr) ev with ⟨-, h, -⟩ | ⟨-, h⟩
    · rw [h]
      exact Nat.zero_le _
    · rw [h]
      exact Nat.add_le_add_right ih _

/-- No re-seed has succeeded after a byte was generated. -/
def Fresh (tr : Trace) : Prop :=
  Stepwise (fun before ev => reseeds ev = true → generated before = 0) tr

/-- **Fresh runs.** All bytes were generated since the last re-seed exactly if no
re-seed has succeeded after a byte was generated. -/
theorem fresh_iff (t₀ : Time) (tr : Trace) : Fresh tr ↔ (lastSeed t₀ tr).1 = generated tr := by
  induction tr using List.reverseRecOn with
  | nil => exact ⟨fun _ => rfl, fun _ => stepwise_nil _⟩
  | append_singleton tr ev ih =>
    rw [Fresh, stepwise_concat, ← Fresh, ih, generated_concat, lastSeed_concat]
    have hle := lastSeed_le_generated t₀ tr
    -- a re-seed sets the count to 0, and the total stays
    rcases seedStep_cases (lastSeed t₀ tr) ev with ⟨hr, h, hb⟩ | ⟨hr, h⟩
    · rw [h, hb, hr]
      constructor
      · exact fun ⟨_, h0⟩ => (h0 rfl).symm
      · intro h0
        have hgen : generated tr = 0 := h0.symm
        exact ⟨by omega, fun _ => hgen⟩
    · rw [h, hr]
      constructor
      · exact fun ⟨heq, _⟩ => congrArg (· + bytesOf ev) heq
      · exact fun heq => ⟨Nat.add_right_cancel heq, fun hf => by cases hf⟩

theorem generated_mono {tr tr' : Trace} (h : tr <+: tr') : generated tr ≤ generated tr' := by
  obtain ⟨rest, rfl⟩ := h
  rw [generated, generated, List.map_append, List.sum_append]
  exact Nat.le_add_right _ _

/-- A `uint64` counter of all bytes generated counts the bytes since the last re-seed at
every point of a run exactly if the run is fresh and the counter does not wrap. -/
theorem counts_iff_fresh (t₀ : Time) (tr : Trace) :
    (∀ pre, pre <+: tr → (UInt64.ofNat (generated pre)).toNat = (lastSeed t₀ pre).1) ↔
      Fresh tr ∧ generated tr < 2 ^ 64 := by
  constructor
  · intro h
    induction tr using List.reverseRecOn with
    | nil => exact ⟨stepwise_nil _, by decide⟩
    | append_singleton tr ev ih =>
      obtain ⟨hfresh, hlt⟩ := ih fun pre hpre => h pre (hpre.trans (List.prefix_append _ _))
      -- so far the counter has counted right
      have heq := (fresh_iff t₀ tr).mp hfresh
      have hcount := h _ List.prefix_rfl
      have hwrap := (UInt64.ofNat (generated (tr ++ [ev]))).toNat_lt
      rw [generated_concat, lastSeed_concat] at hcount
      rw [Fresh, stepwise_concat, generated_concat]
      rcases seedStep_cases (lastSeed t₀ tr) ev with ⟨hr, hs, hb⟩ | ⟨hr, hs⟩
      -- after a re-seed the counter is right only if it is 0
      · rw [hs, hb, Nat.add_zero, UInt64.toNat_ofNat_of_lt' hlt] at hcount
        rw [hb, Nat.add_zero]
        exact ⟨⟨hfresh, fun _ => hcount⟩, hlt⟩
      -- otherwise it is right as long as it has not wrapped
      · rw [generated_concat, hcount, hs, heq] at hwrap
        refine ⟨⟨hfresh, fun hf => ?_⟩, hwrap⟩
        rw [hr] at hf
        cases hf
  · rintro ⟨hfresh, hlt⟩ pre hpre
    rw [UInt64.toNat_ofNat_of_lt' ((generated_mono hpre).trans_lt hlt)]
    exact ((fresh_iff t₀ pre).mp (hfresh.initial hpre)).symm

/-! ### The model of the surroundings -/

/-- What the policy depends on. -/
structure Gauge where
  /-- the counter of the generator -/
  outputs : UInt64
  /-- `s.lastReseed` -/
  lastReseed : Time
  /-- the instant of the last successful re-seed -/
  seeded : Time
  /-- the instant of the last operation -/
  clock : Time

/-- Time passes and nothing else happens. -/
def Tick (q q' : Gauge) : Prop := ∃ t, q.clock ≤ t ∧ q' = { q with clock := t }

/-- The re-seed policy asks for a re-seed. -/
def Due (srv : Server) (q : Gauge) : Prop :=
  srv.cfg.intervalOutputs ≤ q.outputs ∨ srv.cfg.intervalSeconds ≤ q.clock - q.lastReseed

/-- **The model of the surroundings.** A task may re-seed only when the counter has
reached its interval or the time since the last re-seed has, and reports the
counter as it is. -/
def gauge (srv : Server) : Prog.Model Op Ret Gauge where
  allowed
    | .reseed _, q =>
      srv.cfg.intervalOutputs ≤ q.outputs ∨ srv.cfg.intervalSeconds ≤ q.clock - q.seeded
    | .collectForReseed _ _ n, q => n = q.outputs
    | _, _ => True
  step
    | .now, q, t, q' => Tick q q' ∧ t = q'.clock
    | .lastReseed, q, t, q' => Tick q q' ∧ t = q.lastReseed
    | .setLastReseed t, q, _, q' => Tick { q with lastReseed := t } q'
    | .outputBytes, q, n, q' => Tick q q' ∧ n = q.outputs
    | .generate n, q, _, q' => Tick { q with outputs := q.outputs + n } q'
    | .reseed _, q, r, q' => match r with
      | .ok _ => ∃ t, q.clock ≤ t ∧ q' = { q with seeded := t, clock := t }
      | .error _ => Tick q q'
    | _, q, _, q' => Tick q q'

/-- The invariant between the re-seeds: `lastReseed` is not before the last re-seed,
and not in the future. -/
def Steady (q : Gauge) : Prop := q.seeded ≤ q.lastReseed ∧ q.lastReseed ≤ q.clock

theorem Steady.tick {q q' : Gauge} (h : Steady q) (ht : Tick q q') : Steady q' := by
  obtain ⟨t, hle, rfl⟩ := ht
  exact ⟨h.1, h.2.trans hle⟩

theorem Due.tick {srv : Server} {q q' : Gauge} (h : Due srv q) (ht : Tick q q') : Due srv q' := by
  obtain ⟨t, hle, rfl⟩ := ht
  exact h.imp_right fun h => h.trans (Int.sub_le_sub_right hle _)

/-- The operation belongs to the re-seed. -/
def ReseedOp : Op → Prop
  | .reseed _ => True
  | .setLastReseed _ => True
  | .collectForReseed .. => True
  | _ => False

variable {srv : Server}

/-- All other operations are allowed and keep the invariant. -/
theorem gauge_plain {o : Op} (ho : ¬ ReseedOp o) (q : Gauge) (hq : Steady q) :
    (gauge srv).allowed o q ∧ ∀ r q', (gauge srv).step o q r q' → Steady q' := by
  cases o with
  | reseed entropy => exact absurd trivial ho
  | setLastReseed t => exact absurd trivial ho
  | collectForReseed => exact absurd trivial ho
  | now => exact ⟨trivial, fun r q' h => hq.tick h.1⟩
  | lastReseed => exact ⟨trivial, fun r q' h => hq.tick h.1⟩
  | outputBytes => exact ⟨trivial, fun r q' h => hq.tick h.1⟩
  | generate n =>
    refine ⟨trivial, fun r q' h => ?_⟩
    obtain ⟨t, hle, rfl⟩ := h
    exact ⟨hq.1, hq.2.trans hle⟩
  | _ => exact ⟨trivial, fun r q' h => hq.tick h⟩

theorem keeps_op {o : Op} (ho : ¬ ReseedOp o) :
    Keeps (gauge srv) Steady (Prog.op o : Program (Ret o)) :=
  Keeps.op fun q hq => gauge_plain ho q hq

/-! ### The policy -/

/-- A negative answer of the check means that a re-seed is due. -/
theorem wp_reseedNotDue {q : Gauge} (hq : Steady q) :
    WP (gauge srv) (reseedNotDue srv)
      (fun notDue q' => Steady q' ∧ (notDue = false → Due srv q')) q := by
  refine WP.bind (WP.op trivial fun n q₁ h => ?_)
  obtain ⟨htick, rfl⟩ := h
  have hq₁ := hq.tick htick
  split
  · next hlt =>
    refine WP.bind (WP.op trivial fun last q₂ h => ?_)
    obtain ⟨htick₂, rfl⟩ := h
    have hq₂ := hq₁.tick htick₂
    refine WP.bind (WP.op trivial fun now q₃ h => ?_)
    obtain ⟨htick₃, rfl⟩ := h
    refine ⟨hq₂.tick htick₃, fun hnot => Or.inr ?_⟩
    rw [decide_eq_false_iff_not, Int.not_lt] at hnot
    obtain ⟨t₂, -, rfl⟩ := htick₂
    obtain ⟨t₃, -, rfl⟩ := htick₃
    exact hnot
  · next hge =>
    obtain ⟨t, -, rfl⟩ := htick
    exact ⟨hq₁, fun _ => Or.inl (UInt64.not_lt.mp hge)⟩

/-- **The re-seed under the lock is justified**: nothing is generated between the
check and the re-seed. -/
theorem keeps_reseedLocked (tenantID : GoString) :
    Keeps (gauge srv) Steady (reseedLocked srv tenantID).run := by
  intro q hq
  refine WP.bindE (WP.liftE ((wp_reseedNotDue hq).mono ?_))
  rintro notDue q₁ ⟨hq₁, hdue⟩
  simp only
  split
  · exact WP.pureE hq₁
  · next hnot =>
    -- a re-seed is due, and stays due while time passes
    have hdue₁ := hdue (by simpa using hnot)
    refine WP.bindE (WP.liftE (WP.op trivial fun n q₂ h => ?_))
    obtain ⟨htick₂, rfl⟩ := h
    have hq₂ := hq₁.tick htick₂
    have hdue₂ := hdue₁.tick htick₂
    refine WP.bindE (WP.op ?_ fun r q₃ h => ?_)
    · obtain ⟨t, -, rfl⟩ := htick₂
      exact (rfl : q₁.outputs = _)
    · have htick₃ : Tick q₂ q₃ := h
      have hq₃ := hq₂.tick htick₃
      have hdue₃ := hdue₂.tick htick₃
      cases r with
      | error err => exact hq₃
      | ok entropy =>
        refine WP.bindE (WP.op ?_ fun r q₄ h => ?_)
        · exact hdue₃.imp_right fun h => h.trans (Int.sub_le_sub_left hq₃.1 _)
        · cases r with
          | error err => exact hq₃.tick h
          | ok u =>
            -- the instant of the re-seed is now ahead of `lastReseed`
            obtain ⟨t₄, -, rfl⟩ := h
            refine WP.bindE (WP.liftE (WP.op trivial fun now q₅ h => ?_))
            obtain ⟨⟨t₅, hle₅, rfl⟩, rfl⟩ := h
            refine WP.liftE (WP.op trivial fun _ q₆ h => ?_)
            obtain ⟨t₆, hle₆, rfl⟩ := h
            exact ⟨hle₅, hle₆⟩

theorem keeps_reseedIfNeeded (tenantID : GoString) :
    Keeps (gauge srv) Steady (reseedIfNeeded srv tenantID).run := by
  refine Keeps.bindE (Keeps.liftE fun q hq => (wp_reseedNotDue hq).mono fun _ _ h => h.1) ?_
  intro notDue
  split
  · exact Keeps.pureE _
  · exact Keeps.bind (keeps_op id) fun _ => Keeps.bind (keeps_reseedLocked tenantID) fun _ =>
      Keeps.bind (keeps_op id) fun _ => Keeps.ret _

/-! ### All tasks follow the policy -/

theorem draws_gauge : Scaling.Draws (gauge srv) rng Steady :=
  fun q hq => gauge_plain (o := .generate 8) id q hq

/-- No operation that makes an entry belongs to the re-seed. -/
theorem making_gauge :
    Making srv (gauge srv) Steady Steady Steady Steady (fun _ => Steady) fun _ => Steady where
  reseed tenantID q hq :=
    (keeps_reseedIfNeeded tenantID q hq).mono fun r _ h => by cases r <;> exact h
  draws := draws_gauge
  requestID := gauge_plain (o := .newRequestID) id
  now := gauge_plain (o := .now) id
  sealEntry e q hq := by
    obtain ⟨hallowed, hstep⟩ := gauge_plain (o := .sealEntry e) id q hq
    exact ⟨hallowed, fun r q' h => ⟨fun _ _ => hstep r q' h, fun _ => hstep r q' h⟩⟩
  appendEntry e q hq := by
    obtain ⟨hallowed, hstep⟩ := gauge_plain (o := .appendEntry e) id q hq
    exact ⟨hallowed, fun r q' h => by cases r <;> exact hstep _ q' h⟩
  failed _ hq := hq
  undone _ _ hq := hq

theorem Reading.plain {o : Op} (h : Reading o) : ¬ ReseedOp o := by
  cases o with
  | reseed entropy => exact h.elim
  | setLastReseed t => exact h.elim
  | collectForReseed => exact h.elim
  | _ => exact id

theorem walk_gauge : Walk srv (gauge srv) Steady Steady :=
  Walk.of_making (fun _ ho => gauge_plain ho.plain) (fun _ hq => hq)
    (fun n => gauge_plain (o := .generate n) id) making_gauge

/-- **Every task follows the policy**: it re-seeds only when it may, and leaves
`lastReseed` between the last re-seed and now. -/
theorem keeps_task (t : Task) : Keeps (gauge srv) Steady (t.program srv) :=
  fun _ hq => walk_gauge.wp_task t hq

/-! ### Sequential runs under a clock -/

/-- The tasks run one after the other, and the clock never goes back. -/
def ticking {D : Type} (now : Time) : Pool.Policy Op Ret Env (Option Response) (World D) :=
  fun c i e => Pool.oneAtATime c i e && decide (now ≤ e.now ∧ ∀ ev ∈ c.trace, ev.input.now ≤ e.now)

/-- The number of outputs a call reports to the entropy pool. -/
def collects : Event Op Ret Env → Option UInt64
  | ⟨_, _, .collectForReseed _ _ n, _⟩ => some n
  | _ => none

/-- The operation changes the generator or `lastReseed`. -/
def Turning : Op → Prop
  | .generate _ => True
  | .reseed _ => True
  | .setLastReseed _ => True
  | _ => False

/-- All other operations leave both alone. -/
theorem exec_still {D : Type} {dev : Device D} {o : Op} (ho : ¬ Turning o) {e : Env}
    {w w' : World D} {r : Ret o} (h : exec dev srv.crypto o e w = some (r, w')) :
    w'.drbg = w.drbg ∧ w'.lastReseed = w.lastReseed := by
  cases o with
  | generate n => exact absurd trivial ho
  | reseed entropy => exact absurd trivial ho
  | setLastReseed t => exact absurd trivial ho
  | lockReseed =>
    rw [exec] at h
    split at h
    · cases h
    · obtain ⟨-, rfl⟩ := Prod.mk.inj (Option.some.inj h)
      exact ⟨rfl, rfl⟩
  | appendEntry entry =>
    rw [exec] at h
    split at h
    · obtain ⟨-, rfl⟩ := Prod.mk.inj (Option.some.inj h)
      exact ⟨rfl, rfl⟩
    · split at h <;>
      · obtain ⟨-, rfl⟩ := Prod.mk.inj (Option.some.inj h)
        exact ⟨rfl, rfl⟩
  | _ =>
    obtain ⟨-, rfl⟩ := Prod.mk.inj (Option.some.inj h)
    exact ⟨rfl, rfl⟩

/-- A call that neither generates nor re-seeds leaves the count alone. -/
theorem seedStep_still {i : ℕ} {e : Env} {o : Op} (ho : ¬ Turning o) (r : Ret o) (s : ℕ × Time) :
    seedStep s ⟨i, e, o, r⟩ = s ∧ bytesOf ⟨i, e, o, r⟩ = 0 ∧ reseeds ⟨i, e, o, r⟩ = false := by
  cases o with
  | generate n => exact absurd trivial ho
  | reseed entropy => exact absurd trivial ho
  | _ => exact ⟨rfl, rfl, rfl⟩

/-- **The invariant of a run**, with what its re-seeds were decided on. The server was
seeded at `seedTime` and started at `now`. -/
structure Tracks (srv : Server) (seedTime now : Time) (c : Tasks Csprng.DRBG) (q : Gauge) :
    Prop where
  outputs : c.state.drbg.outputBytes = q.outputs
  /-- the counter counts from the start -/
  total : q.outputs = UInt64.ofNat (generated c.trace)
  lastReseed : c.state.lastReseed = q.lastReseed
  seeded : q.seeded = (lastSeed seedTime c.trace).2
  clock : q.clock = now ∨ ∃ ev ∈ c.trace, q.clock = ev.input.now
  collected : Stepwise (fun before ev => ∀ n, collects ev = some n →
    n = UInt64.ofNat (generated before)) c.trace
  justified : Stepwise (fun before ev => reseeds ev = true →
    srv.cfg.intervalOutputs ≤ UInt64.ofNat (generated before) ∨
      srv.cfg.intervalSeconds ≤ ev.input.now - (lastSeed seedTime before).2) c.trace

section Tracks

variable {seedTime now : Time} {c : Tasks Csprng.DRBG} {q q' : Gauge}

/-- What a call has to do to keep the invariant. -/
theorem Tracks.moved (h : Tracks srv seedTime now c q) {p : Program (Option Response)}
    {s : World Csprng.DRBG} {ev : Event Op Ret Env} (houtputs : s.drbg.outputBytes = q'.outputs)
    (htotal : q'.outputs = q.outputs + UInt64.ofNat (bytesOf ev))
    (hlast : s.lastReseed = q'.lastReseed)
    (hseeded : q'.seeded = (seedStep (lastSeed seedTime c.trace) ev).2)
    (hclock : q'.clock = ev.input.now)
    (hcollect : ∀ n, collects ev = some n → n = q.outputs)
    (hreseed : reseeds ev = true → srv.cfg.intervalOutputs ≤ q.outputs ∨
      srv.cfg.intervalSeconds ≤ ev.input.now - q.seeded) :
    Tracks srv seedTime now (c.moved p s ev) q' where
  outputs := houtputs
  total := by
    rw [htotal, h.total, Pool.moved, generated_concat, UInt64.ofNat_add]
  lastReseed := hlast
  seeded := by rw [hseeded, Pool.moved, lastSeed_concat]
  clock := Or.inr ⟨ev, List.mem_append_right _ List.mem_cons_self, hclock⟩
  collected := stepwise_concat.mpr ⟨h.collected, fun n hn => h.total ▸ hcollect n hn⟩
  justified := stepwise_concat.mpr ⟨h.justified, fun hr => h.total ▸ h.seeded ▸ hreseed hr⟩

/-- The time of a call is not before the clock. -/
theorem Tracks.clock_le (h : Tracks srv seedTime now c q) {i : ℕ} {e : Env}
    (hp : ticking now c i e = true) : q.clock ≤ e.now := by
  -- the policy compares with the start and with all calls so far
  rw [ticking, Bool.and_eq_true, decide_eq_true_eq] at hp
  rcases h.clock with heq | ⟨ev, hev, heq⟩
  · exact heq ▸ hp.2.1
  · exact heq ▸ hp.2.2 ev hev

variable {aes : Csprng.BlockCipher}

/-- A call that touches neither the generator nor `lastReseed` lets time pass. -/
theorem Tracks.still (h : Tracks srv seedTime now c q) {i : ℕ} {e : Env} {o : Op}
    (ho : ¬ Turning o) {p : Program (Option Response)} {r : Ret o} {s : World Csprng.DRBG}
    (hcollect : ∀ n, collects ⟨i, e, o, r⟩ = some n → n = q.outputs)
    (hsem : exec (.drbg aes) srv.crypto o e c.state = some (r, s)) :
    Tracks srv seedTime now (c.moved p s ⟨i, e, o, r⟩) { q with clock := e.now } := by
  -- neither the world nor the count of the trace changes
  obtain ⟨hdrbg, hlast⟩ := exec_still ho hsem
  obtain ⟨hseed, hbytes, hreseeds⟩ :=
    @seedStep_still i e o ho r (lastSeed seedTime c.trace)
  refine h.moved ?_ ?_ ?_ ?_ rfl hcollect fun hr => ?_
  · rw [hdrbg, h.outputs]
  · rw [hbytes]
    exact (UInt64.add_zero _).symm
  · rw [hlast, h.lastReseed]
  · rw [hseed, h.seeded]
  · rw [hreseeds] at hr
    cases hr

/-- **Every call of a run keeps the invariant.** -/
theorem Tracks.step (h : Tracks srv seedTime now c q) {i : ℕ} {e : Env} {o : Op}
    {p : Program (Option Response)} {r : Ret o} {s : World Csprng.DRBG}
    (hp : ticking now c i e = true) (ha : (gauge srv).allowed o q)
    (hsem : exec (.drbg aes) srv.crypto o e c.state = some (r, s)) :
    ∃ q', (gauge srv).step o q r q' ∧ Tracks srv seedTime now (c.moved p s ⟨i, e, o, r⟩) q' := by
  have hle := h.clock_le hp
  -- the instant of the call is the new clock
  have htick : Tick q { q with clock := e.now } := ⟨e.now, hle, rfl⟩
  cases o with
  | generate n =>
    obtain ⟨rfl, rfl⟩ := Prod.mk.inj (Option.some.inj hsem)
    refine ⟨_, ⟨e.now, hle, rfl⟩,
      h.moved ?_ ?_ h.lastReseed h.seeded rfl (fun n hn => ?_) fun hr => ?_⟩
    · show (Csprng.DRBG.generate aes n c.state.drbg).2.outputBytes = _
      rw [Csprng.DRBG.generate_outputBytes, h.outputs]
    · show q.outputs + n = q.outputs + UInt64.ofNat n.toNat
      rw [UInt64.ofNat_toNat]
    · cases hn
    · cases hr
  | reseed entropy =>
    cases hres : Csprng.DRBG.reseed aes entropy c.state.drbg with
    | error err =>
      simp only [exec, Device.drbg, hres, Option.some.injEq, Prod.mk.injEq] at hsem
      obtain ⟨rfl, rfl⟩ := hsem
      refine ⟨_, htick,
        h.moved h.outputs ?_ h.lastReseed h.seeded rfl (fun n hn => ?_) fun hr => ?_⟩
      · exact (UInt64.add_zero _).symm
      · cases hn
      · cases hr
    | ok d =>
      simp only [exec, Device.drbg, hres, Option.some.injEq, Prod.mk.injEq] at hsem
      obtain ⟨rfl, rfl⟩ := hsem
      refine ⟨_, ⟨e.now, hle, rfl⟩, h.moved ?_ ?_ h.lastReseed rfl rfl (fun n hn => ?_) fun _ => ?_⟩
      · -- a re-seed does not reset the counter
        exact (Csprng.DRBG.reseed_outputBytes hres).trans h.outputs
      · exact (UInt64.add_zero _).symm
      · cases hn
      · exact ha.imp_right fun hdue => hdue.trans (Int.sub_le_sub_right hle _)
  | setLastReseed t =>
    obtain ⟨rfl, rfl⟩ := Prod.mk.inj (Option.some.inj hsem)
    refine ⟨_, ⟨e.now, hle, rfl⟩,
      h.moved h.outputs ?_ rfl h.seeded rfl (fun n hn => ?_) fun hr => ?_⟩
    · exact (UInt64.add_zero _).symm
    · cases hn
    · cases hr
  | now =>
    obtain ⟨rfl, -⟩ := Prod.mk.inj (Option.some.inj hsem)
    exact ⟨_, ⟨htick, rfl⟩, h.still id (fun n hn => by cases hn) hsem⟩
  | lastReseed =>
    obtain ⟨rfl, -⟩ := Prod.mk.inj (Option.some.inj hsem)
    exact ⟨_, ⟨htick, h.lastReseed⟩, h.still id (fun n hn => by cases hn) hsem⟩
  | outputBytes =>
    obtain ⟨rfl, -⟩ := Prod.mk.inj (Option.some.inj hsem)
    exact ⟨_, ⟨htick, h.outputs⟩, h.still id (fun n hn => by cases hn) hsem⟩
  | collectForReseed size tenantID n =>
    refine ⟨_, htick, h.still id (fun m hm => ?_) hsem⟩
    obtain rfl := Option.some.inj hm
    exact ha
  | _ => exact ⟨_, htick, h.still id (fun n hn => by cases hn) hsem⟩

end Tracks

/-! ### Honest reports and re-seeds -/

section Report

variable {D : Type} {dev : Device D}

/-- The bytes since the last re-seed, as a health report gives them. -/
def Body.outputsSinceReseed : Body → Option UInt64
  | .health resp => some resp.outputsSinceReseed
  | _ => none

theorem Reading.still {o : Op} (h : Reading o) : ¬ Turning o := by
  cases o with
  | generate n => exact h.elim
  | reseed entropy => exact h.elim
  | setLastReseed t => exact h.elim
  | _ => exact id

/-- Alone on the world, a program that only reads keeps the generator. -/
theorem keeps_drbg {α : Type} {p : Program α} (hp : Calls Reading p) (d : D) :
    Keeps (Model.ofSem (exec dev srv.crypto)) (·.drbg = d) p := by
  refine Keeps.of_calls (fun o ho w hw => ⟨trivial, ?_⟩) hp
  rintro r w' ⟨e, hsem⟩
  exact (exec_still ho.still hsem).1.trans hw

/-- **A health report gives the counter of the generator.** -/
theorem handleHealth_reports {es : List Env} {w w' : World D} {resp : Response}
    (h : Prog.run (exec dev srv.crypto) es (handleHealth srv) w = some (resp, w')) :
    resp.body.outputsSinceReseed = some (dev.outputBytes w.drbg) := by
  have hwp : WP (Model.ofSem (exec dev srv.crypto)) (handleHealth srv)
      (fun resp _ => resp.body.outputsSinceReseed = some (dev.outputBytes w.drbg)) w := by
    refine WP.bind ((keeps_drbg (p := Call.healthCheck) (Calls.op trivial) _ w rfl).mono
      fun err w₁ h₁ => ?_)
    refine WP.bind ((keeps_drbg reads_tamperStatus _ w₁ h₁).mono fun tamper w₂ h₂ => ?_)
    refine WP.bind ((keeps_drbg (p := Call.lastReseed) (Calls.op trivial) _ w₂ h₂).mono
      fun last w₃ h₃ => ?_)
    refine WP.bind (WP.op trivial fun outputs w₄ h₄ => ?_)
    obtain ⟨e, hsem⟩ := h₄
    obtain ⟨rfl, rfl⟩ := Prod.mk.inj (Option.some.inj hsem)
    refine WP.bind ((keeps_drbg (reads_selfTestStatus _) _ w₃ h₃).mono fun selfTests w₅ _ => ?_)
    show some (dev.outputBytes w₃.drbg) = _
    rw [h₃]
  exact hwp.run_sound h

/-- A health report can be made in every state. -/
theorem run_handleHealth (w : World D) :
    ∃ es resp w', Prog.run (exec dev srv.crypto) es (handleHealth srv) w = some (resp, w') := by
  obtain ⟨cfg, keys, crypto, codec, checker, selfTester⟩ := srv
  cases checker <;> cases selfTester
  · exact ⟨[{}, {}, {}], _, _, rfl⟩
  · exact ⟨[{}, {}, {}, {}, {}], _, _, rfl⟩
  · exact ⟨[{}, {}, {}, {}], _, _, rfl⟩
  · exact ⟨[{}, {}, {}, {}, {}, {}], _, _, rfl⟩

end Report

/-- A re-seed follows enough bytes, or enough time, since the last one. -/
def Justified (srv : Server) (seedTime : Time) (before : Trace) (ev : Event Op Ret Env) : Prop :=
  reseeds ev = true → srv.cfg.intervalOutputs.toNat ≤ (lastSeed seedTime before).1 ∨
    srv.cfg.intervalSeconds ≤ ev.input.now - (lastSeed seedTime before).2

/-- **The service is honest about its re-seeds** at a point of a run. -/
structure Honest (srv : Server) (aes : Csprng.BlockCipher) (seedTime : Time)
    (c : Tasks Csprng.DRBG) : Prop where
  /-- a health report gives the bytes generated since the last re-seed -/
  reported : ∀ es resp w,
    Prog.run (exec (.drbg aes) srv.crypto) es (handleHealth srv) c.state = some (resp, w) →
      ∃ n, resp.body.outputsSinceReseed = some n ∧ n.toNat = (lastSeed seedTime c.trace).1
  /-- so does each call to the entropy pool -/
  collected : Stepwise (fun before ev => ∀ n, collects ev = some n →
    n.toNat = (lastSeed seedTime before).1) c.trace
  justified : Stepwise (Justified srv seedTime) c.trace

section Honest

variable {aes : Csprng.BlockCipher} {seedTime now : Time} {tasks : List Task}
  {sched : List (ℕ × Env)} {c : Tasks Csprng.DRBG} {q : Gauge}

/-- The service is honest as long as its counter counts the bytes since the last
re-seed. -/
theorem Tracks.honest (h : Tracks srv seedTime now c q)
    (hcounts : ∀ pre, pre <+: c.trace →
      (UInt64.ofNat (generated pre)).toNat = (lastSeed seedTime pre).1) :
    Honest srv aes seedTime c := by
  refine ⟨fun es resp w hrun => ?_, fun k hk n hn => ?_, fun k hk hr => ?_⟩
  · refine ⟨_, handleHealth_reports hrun, ?_⟩
    show c.state.drbg.outputBytes.toNat = _
    rw [h.outputs, h.total]
    exact hcounts _ List.prefix_rfl
  · rw [h.collected k hk n hn]
    exact hcounts _ (List.take_prefix k _)
  · rw [← hcounts _ (List.take_prefix k c.trace)]
    exact (h.justified k hk hr).imp_left UInt64.le_iff_toNat_le.mp

/-- An honest report is the counter. -/
theorem Tracks.counts (h : Tracks srv seedTime now c q) (hh : Honest srv aes seedTime c) :
    (UInt64.ofNat (generated c.trace)).toNat = (lastSeed seedTime c.trace).1 := by
  obtain ⟨es, resp, w, hrun⟩ := @run_handleHealth srv _ (.drbg aes) c.state
  obtain ⟨n, hn, hcount⟩ := hh.reported es resp w hrun
  obtain rfl := Option.some.inj ((handleHealth_reports hrun).symm.trans hn)
  rw [← hcount, ← h.total, ← h.outputs]
  rfl

/-- The invariant holds at every point of a run. -/
theorem tracks_of_run {drbg : Csprng.DRBG} (hdrbg : drbg.outputBytes = 0) (hseed : seedTime ≤ now)
    (hrun : Pool.run (exec (.drbg aes) srv.crypto) (ticking now) sched
      (start srv tasks (World.new drbg now)) = some c) : ∃ q, Tracks srv seedTime now c q := by
  have hstart : Tracks srv seedTime now (start srv tasks (World.new drbg now))
      ⟨0, now, seedTime, now⟩ :=
    ⟨hdrbg, rfl, rfl, rfl, Or.inl rfl, stepwise_nil _, stepwise_nil _⟩
  have htasks : ∀ p ∈ tasks.map (Task.program srv), Keeps (gauge srv) Steady p := by
    intro p hp
    obtain ⟨t, -, rfl⟩ := List.mem_map.mp hp
    exact keeps_task t
  obtain ⟨q, -, h, -⟩ := Pool.run_sequential (fun c i e hp => (Bool.and_eq_true _ _ ▸ hp).1)
    (fun c q i e o p r s h hp ha hsem => h.step hp ha hsem) hstart ⟨hseed, le_rfl⟩ htasks hrun
  exact ⟨q, h⟩

/-- **The service is honest about its re-seeds at every point of a run exactly if no
re-seed of the run succeeds after a byte was generated**, and fewer than `2^64` bytes
are generated. -/
theorem honest_iff_fresh {entropy : Bytes} {drbg : Csprng.DRBG}
    (hnew : Csprng.new aes entropy = .ok drbg) (hseed : seedTime ≤ now)
    (hrun : Pool.run (exec (.drbg aes) srv.crypto) (ticking now) sched
      (start srv tasks (World.new drbg now)) = some c) :
    (∀ xs c', xs <+: sched → Pool.run (exec (.drbg aes) srv.crypto) (ticking now) xs
        (start srv tasks (World.new drbg now)) = some c' → Honest srv aes seedTime c') ↔
      Fresh c.trace ∧ generated c.trace < 2 ^ 64 := by
  have hdrbg := Csprng.new_outputBytes hnew
  rw [← counts_iff_fresh seedTime]
  constructor
  · intro h pre hpre
    obtain ⟨xs, c', hxs, hrun', rfl⟩ := Pool.run_reaches hrun hpre
    obtain ⟨q, htracks⟩ := tracks_of_run hdrbg hseed hrun'
    exact htracks.counts (h xs c' hxs hrun')
  · intro hcounts xs c' hxs hrun'
    obtain ⟨q, htracks⟩ := tracks_of_run hdrbg hseed hrun'
    exact htracks.honest fun pre hpre =>
      hcounts pre (hpre.trans (Pool.run_trace_mono hxs hrun' hrun))

/-- The generator of a server, seeded with zeros. -/
def smallDrbg : Csprng.DRBG where
  key := ⟨List.replicate 15 0 ++ [1] ++ List.replicate 15 0 ++ [2], rfl⟩
  v := ⟨List.replicate 15 0 ++ [3], rfl⟩
  outputBytes := 0

/-- Runs of tasks on a server that starts at the instant 0. -/
def tickingRun (srv : Server) (tasks : List Task) (sched : List (ℕ × Env)) :
    Option (Tasks Csprng.DRBG) :=
  Pool.run (exec (.drbg fun _ block => block) srv.crypto) (ticking 0) sched
    (start srv tasks (World.new smallDrbg 0))

/-- A request of tenant `a` that draws one word. -/
def drawRequest : HttpRequest :=
  ⟨⟨[], [107]⟩, .generate (.ok ⟨[97], [103], [114], 1, 5, 6⟩)⟩

/-- A request that stays below the interval. -/
theorem honest_iff_fresh_small : ∃ c, tickingRun smallServer [.request drawRequest] (turns 0 6)
      = some c ∧ Honest smallServer (fun _ block => block) 0 c := by
  have h : (tickingRun smallServer [.request drawRequest] (turns 0 6)).map (fun c =>
      ((lastSeed 0 c.trace).1, generated c.trace)) = some (8, 8) := by
    decide +kernel
  obtain ⟨c, hc, heq⟩ := Option.map_eq_some_iff.mp h
  obtain ⟨hlast, hgen⟩ := Prod.mk.inj heq
  have hfresh : Fresh c.trace := (fresh_iff 0 c.trace).mpr (hlast.trans hgen.symm)
  have hnew : Csprng.new (fun _ block => block) (List.replicate 48 0) = .ok smallDrbg := by
    decide +kernel
  exact ⟨c, hc, (honest_iff_fresh hnew (le_refl (0 : Time)) hc).mpr
    ⟨hfresh, by rw [hgen]; decide⟩ _ c List.prefix_rfl hc⟩

/-- The small server, re-seeding every eight bytes. -/
def eagerServer : Server :=
  { smallServer with cfg := { smallServer.cfg with intervalOutputs := 8 } }

/-- Three requests, the first of which draws a word. -/
def eagerTasks : List Task :=
  [.request drawRequest, .request (smallRequest [107] [97] [114]),
    .request (smallRequest [107] [97] [114])]

/-- **The counter is not reset.** The first request generates eight bytes, and the second
one re-seeds. A health report then still gives eight bytes since the last re-seed, and
the third request re-seeds again, though no byte was generated and no time has passed. -/
theorem repeated_reseed : ∃ c resp,
    tickingRun eagerServer eagerTasks (turns 0 9 ++ turns 1 14 ++ turns 2 7) = some c ∧
    Prog.run (exec (.drbg fun _ block => block) eagerServer.crypto) [{}, {}, {}]
      (handleHealth eagerServer) c.state = some (resp, c.state) ∧
    lastSeed 0 c.trace = (0, 0) ∧ resp.body.outputsSinceReseed = some 8 ∧
    ¬ Stepwise (Justified eagerServer 0) c.trace ∧
    ¬ Honest eagerServer (fun _ block => block) 0 c := by
  have h : (tickingRun eagerServer eagerTasks (turns 0 9 ++ turns 1 14 ++ turns 2 7)).map (fun c =>
      (c.state.drbg.outputBytes, lastSeed 0 c.trace, lastSeed 0 (c.trace.take 29),
        c.trace[29]?.map fun ev => (reseeds ev, ev.input.now)))
      = some (8, (0, 0), (0, 0), some (true, 0)) := by
    decide +kernel
  obtain ⟨c, hc, heq⟩ := Option.map_eq_some_iff.mp h
  simp only [Prod.mk.injEq] at heq
  obtain ⟨houtputs, hlast, hbefore, hev⟩ := heq
  have hjust : ¬ Stepwise (Justified eagerServer 0) c.trace := by
    intro hj
    obtain ⟨ev, hget, hreseeds⟩ := Option.map_eq_some_iff.mp hev
    obtain ⟨hk, rfl⟩ := List.getElem?_eq_some_iff.mp hget
    obtain ⟨hr, hnow⟩ := Prod.mk.inj hreseeds
    have hdue := hj 29 hk hr
    rw [hbefore, hnow] at hdue
    revert hdue
    decide
  have hrun : Prog.run (exec (.drbg fun _ block => block) eagerServer.crypto) [{}, {}, {}]
      (handleHealth eagerServer) c.state = some (_, c.state) := rfl
  refine ⟨c, _, hc, hrun, hlast, ?_, hjust, fun hh => hjust hh.justified⟩
  rw [handleHealth_reports hrun]
  exact congrArg some houtputs

end Honest

end Gateway
