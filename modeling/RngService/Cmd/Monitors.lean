import Mathlib
import RngService.Cmd.Serve
import RngService.Health.SelfTest
import RngService.Lib.Focus

/-!
# The goroutines that watch the service

`runServe` starts three goroutines beside its server: the self tests of `SelfTester.Start`, the
check of the binary, and the update of the gauges of `internal/health/metrics.go`. Here they run
next to the requests and share the results of the self tests and the gauges with them; every
section under a lock and every access to a gauge is one operation (`Action`). The operations of
the gateway are among these, with the results of the self tests taken from the state.

A health report reads these results twice, under the lock each time, and an update sets one gauge
after the other. So neither is a snapshot; `watched_coherent` says what can be relied on all the
same, in every interleaving, and `watched_coherent_torn` shows that a report can disagree with its
own status.
-/

namespace Serve

open Gateway Prog

/-- What a run of the self tests has published. -/
structure Report (F : Type) where
  results : List (Health.TestResult F)
  lastRun : Time

/-- The operations of the service: those of the gateway, and those of the goroutines that watch
it. -/
inductive Action (F : Type)
  | gateway (o : Gateway.Op)
  /-- `s.results = results` and `s.lastRun = time.Now()`, under the lock of the tester -/
  | publish (results : List (Health.TestResult F))
  /-- `selfTester.Results()` -/
  | results
  /-- `m.NISTTestPValue.WithLabelValues(name).Set(p)` -/
  | setPValue (name : String) (p : F)
  /-- `metrics.SelfTestLastRunTimestamp.Set(float64(lastRun.Unix()))` -/
  | setLastRun (t : Time)
  /-- `metrics.SetTamperDetected(detected)` -/
  | setTamperDetected (detected : Bool)

/-- The answers of the operations. There is no report before the first run. -/
abbrev Answer {F : Type} : Action F → Type
  | .gateway o => Gateway.Ret o
  | .publish _ => Unit
  | .results => Option (Report F)
  | .setPValue .. => Unit
  | .setLastRun _ => Unit
  | .setTamperDetected _ => Unit

/-- `Metrics`: the gauges. -/
structure Metrics (F : Type) where
  nistTestPValue : String → Option F
  binaryHashMatches : Bool
  selfTestLastRun : Option ℤ

/-- The state of a service that is watched. -/
structure Running (D F : Type) where
  world : World D
  /-- the `results` and `lastRun` of the tester -/
  report : Option (Report F)
  metrics : Metrics F

variable {D F : Type}

/-- `NewMetrics` -/
def Metrics.new : Metrics F := ⟨fun _ => none, true, none⟩

/-- What the calls do to the gauges. -/
def Metrics.after (ms : Metrics F) : Action F → Metrics F
  | .setPValue name p =>
    { ms with nistTestPValue := Function.update ms.nistTestPValue name (some p) }
  | .setLastRun t => { ms with selfTestLastRun := some t.unix }
  | .setTamperDetected detected => { ms with binaryHashMatches := !detected }
  | _ => ms

section

variable (value : F → ℚ)

/-- The results of the self tests as a health report has them; `value` is the value of a
`float64`. -/
def shown (report : Option (Report F)) : List Gateway.TestResult × Option Time :=
  ((report.elim [] Report.results).map fun r => ⟨r.name, value r.pValue, r.status⟩,
    report.map Report.lastRun)

/-- **The meaning of the operations.** -/
def perform (dev : Device D) (crypto : Crypto) : Sem (Action F) Answer Env (Running D F)
  | .gateway .selfTestResults, _, s => some (shown value s.report, s)
  | .gateway o, e, s => (exec dev crypto o e s.world).map fun (r, w) => (r, { s with world := w })
  | .publish results, e, s => some ((), { s with report := some ⟨results, e.now⟩ })
  | .results, _, s => some (s.report, s)
  | .setPValue name p, _, s => some ((), { s with metrics := s.metrics.after (.setPValue name p) })
  | .setLastRun t, _, s => some ((), { s with metrics := s.metrics.after (.setLastRun t) })
  | .setTamperDetected detected, _, s =>
    some ((), { s with metrics := s.metrics.after (.setTamperDetected detected) })

end

/-! ### The goroutines -/

abbrev Routine (F α : Type) := Prog (Action F) Answer α

def act (a : Action F) : Routine F (Answer a) := Prog.op a

section

variable [Field F] [LinearOrder F] (m : Health.MathPkg F)

/-- `runAndLog` -/
def runAndLog (t : Health.SelfTester) : Routine F Unit := do
  let r ← act (.gateway (.generate t.sampleSize))
  match t.runAll m fun _ => r with
  | .error _ => return ()
  | .ok results => act (.publish results)

end

/-- One check of the binary in the background. -/
def checkBinary : Routine F Unit := do
  let err ← act (.gateway .verifyBinary)
  act (.setTamperDetected err.isSome)

/-- `UpdateNIST` -/
def updateNIST : List (Health.TestResult F) → Routine F Unit
  | [] => .ret ()
  | r :: results => do
    act (.setPValue r.name r.pValue)
    updateNIST results

/-- One update of the gauges of the self tests. -/
def updateMetrics : Routine F Unit := do
  match ← act .results with
  | none => return ()
  | some report =>
    updateNIST report.results
    act (.setLastRun report.lastRun)

/-- A goroutine that does its work at each tick, until the service is stopped. -/
def ticks (work : Routine F Unit) : ℕ → Routine F (Option Response)
  | 0 => .ret none
  | n + 1 => work >>= fun _ => ticks work n

/-- The handler of a request, in the service that is watched. -/
def handling (srv : Server) (req : HttpRequest) : Routine F (Option Response) :=
  (handler srv req).embed .gateway (fun _ r => r) >>= fun resp => .ret (some resp)

/-- What runs in the service: the self tests, which start with a run, the check of the binary,
the update of the gauges, and the requests. -/
def routines [Field F] [LinearOrder F] (m : Health.MathPkg F) (srv : Server)
    (sampleBytes : UInt64) (tests checks updates : ℕ) (reqs : List HttpRequest) :
    List (Routine F (Option Response)) :=
  ticks (runAndLog m (Health.newSelfTester sampleBytes)) (tests + 1) :: ticks checkBinary checks ::
    ticks updateMetrics updates :: reqs.map (handling srv)

/-! ### What the trace tells -/

abbrev Happening (F : Type) := Event (Action F) Answer Env

/-- The last item of a list that tells something. -/
def lastOf {β γ : Type} (f : β → Option γ) (l : List β) : Option γ := (l.filterMap f).getLast?

@[simp] theorem lastOf_concat {β γ : Type} (f : β → Option γ) (l : List β) (b : β) :
    lastOf f (l ++ [b]) = (f b).or (lastOf f l) := by
  rw [lastOf, List.filterMap_append]
  cases h : f b <;> simp [lastOf, h]

/-- What a call publishes. -/
def publication : Happening F → Option (Report F)
  | ⟨_, e, .publish results, _⟩ => some ⟨results, e.now⟩
  | _ => none

/-- The report that has been published last. -/
def latest (tr : List (Happening F)) : Option (Report F) := lastOf publication tr

/-- The sample that the tester draws. -/
def sample : Happening F → Option (Except GoError Bytes)
  | ⟨0, _, .gateway (.generate _), r⟩ => some r
  | _ => none

/-- The outcome of a check in the background. -/
def check : Happening F → Option (Option GoError)
  | ⟨1, _, .gateway .verifyBinary, err⟩ => some err
  | _ => none

variable {value : F → ℚ} {dev : Device D} {crypto : Crypto}

/-- Only a publication changes the report, and only the goroutines change the gauges. -/
theorem perform_eq {a : Action F} {e : Env} {s s' : Running D F} {r : Answer a}
    (h : perform value dev crypto a e s = some (r, s')) (i : ℕ) :
    s'.report = (publication ⟨i, e, a, r⟩).or s.report ∧ s'.metrics = s.metrics.after a := by
  cases a with
  | gateway o =>
    cases o with
    | selfTestResults =>
      obtain ⟨-, rfl⟩ := Prod.mk.inj (Option.some.inj h)
      exact ⟨rfl, rfl⟩
    | _ =>
      simp only [perform, Option.map_eq_some_iff] at h
      obtain ⟨x, -, heq⟩ := h
      obtain ⟨-, rfl⟩ := Prod.mk.inj heq
      exact ⟨rfl, rfl⟩
  | _ =>
    obtain ⟨-, rfl⟩ := Prod.mk.inj (Option.some.inj h)
    exact ⟨rfl, rfl⟩

/-- The goroutines and the requests, in any state of a run. -/
abbrev Watched (D F : Type) := Pool (Action F) Answer Env (Option Response) (Running D F)

/-! ### The calls of the goroutines -/

/-- The ticks of a goroutine, of whose work an invariant is kept. -/
theorem wp_ticks {Q : Type} {M : Model (Action F) Answer Q} {I : Q → Prop} {work : Routine F Unit}
    (h : ∀ q, I q → WP M work (fun _ q' => I q') q) (n : ℕ) {q : Q} (hq : I q) :
    WP M (ticks work n) (fun _ q' => I q') q := by
  induction n generalizing q with
  | zero => exact hq
  | succ n ih => exact WP.bind ((h q hq).mono fun _ q' hq' => ih hq')

theorem calls_ticks {φ : Action F → Prop} {work : Routine F Unit} (h : Calls φ work) (n : ℕ) :
    Calls φ (ticks work n) := by
  induction n with
  | zero => exact Calls.ret _
  | succ n ih => exact Calls.bind h fun _ => ih

theorem calls_handling {φ : Action F → Prop} (h : ∀ o, φ (.gateway o)) (srv : Server)
    (req : HttpRequest) : Calls φ (handling srv req) :=
  Calls.bind (Calls.embed h _) fun _ => Calls.ret _

theorem calls_checkBinary {φ : Action F → Prop} (hv : φ (.gateway .verifyBinary))
    (hs : ∀ detected, φ (.setTamperDetected detected)) : Calls φ checkBinary :=
  Calls.bind (Calls.op hv) fun _ => Calls.op (hs _)

theorem calls_updateNIST {φ : Action F → Prop} (hs : ∀ name p, φ (.setPValue name p))
    (results : List (Health.TestResult F)) : Calls φ (updateNIST results) := by
  induction results with
  | nil => exact Calls.ret _
  | cons r results ih => exact Calls.bind (Calls.op (hs _ _)) fun _ => ih

theorem calls_updateMetrics {φ : Action F → Prop} (hr : φ .results)
    (hs : ∀ name p, φ (.setPValue name p)) (hl : ∀ t, φ (.setLastRun t)) :
    Calls φ updateMetrics := by
  refine Calls.bind (Calls.op hr) fun report => ?_
  cases report with
  | none => exact Calls.ret _
  | some report => exact Calls.bind (calls_updateNIST hs _) fun _ => Calls.op (hl _)

/-! ### The gauge of the binary -/

/-- **The model of the check in the background**, whose ghost state is an outcome that is not
shown yet. -/
def checking : Model (Action F) Answer (Option (Option GoError)) where
  step
    | .gateway .verifyBinary, _, err, q' => q' = some err
    | .setTamperDetected _, _, _, q' => q' = none
    | _, q, _, q' => q' = q
  allowed
    | .gateway .verifyBinary, q => q = none
    | .setTamperDetected detected, q => ∃ err, q = some err ∧ detected = err.isSome
    | _, _ => True

theorem wp_checkBinary (q : Option (Option GoError)) (hq : q = none) :
    WP (checking (F := F)) checkBinary (fun _ q' => q' = none) q := by
  refine WP.bind (WP.op hq ?_)
  rintro err q' rfl
  exact WP.op ⟨err, rfl, rfl⟩ fun _ q' hq' => hq'

/-- What the last check has found. -/
def lastMatch (tr : List (Happening F)) : Bool := (lastOf check tr).elim true Option.isNone

/-- Between two checks the gauge shows what the last one has found. -/
def Checked (c : Watched D F) (q : Option (Option GoError)) : Prop :=
  (∀ err, q = some err → lastOf check c.trace = some err) ∧
    (q = none → c.state.metrics.binaryHashMatches = lastMatch c.trace)

/-- A call that is no check and does not set the gauge. -/
theorem Checked.still {c : Watched D F} {q : Option (Option GoError)} (h : Checked c q) {i : ℕ}
    {e : Env} {a : Action F} {r : Answer a} {s : Running D F}
    (ha : ∀ detected, a ≠ .setTamperDetected detected) (hcheck : check ⟨i, e, a, r⟩ = none)
    (hsem : perform value dev crypto a e c.state = some (r, s)) (p : Routine F (Option Response)) :
    Checked (c.moved p s ⟨i, e, a, r⟩) q := by
  have hkept : s.metrics.binaryHashMatches = c.state.metrics.binaryHashMatches := by
    rw [(perform_eq hsem i).2]
    cases a with
    | setTamperDetected detected => exact absurd rfl (ha detected)
    | _ => rfl
  refine ⟨fun err herr => ?_, fun hq => ?_⟩
  · rw [Pool.moved, lastOf_concat, hcheck, Option.none_or]
    exact h.1 err herr
  · rw [Pool.moved, lastMatch, lastOf_concat, hcheck, Option.none_or]
    exact hkept.trans (h.2 hq)

/-! ### The gauges of the self tests -/

/-- The gauges after the p-values of some results have been set. -/
def setPValues (g : String → Option F) (results : List (Health.TestResult F)) :
    String → Option F :=
  results.foldl (fun g r => Function.update g r.name (some r.pValue)) g

theorem setPValues_concat (g : String → Option F) (results : List (Health.TestResult F))
    (r : Health.TestResult F) : setPValues g (results ++ [r])
      = Function.update (setPValues g results) r.name (some r.pValue) := by
  rw [setPValues, List.foldl_concat, setPValues]

/-- A gauge shows its own test if no two tests have the same name. -/
theorem setPValues_of_mem {g : String → Option F} {results : List (Health.TestResult F)}
    (hnames : (results.map Health.TestResult.name).Nodup) {r : Health.TestResult F}
    (hr : r ∈ results) : setPValues g results r.name = some r.pValue := by
  induction results using List.reverseRecOn with
  | nil => exact absurd hr List.not_mem_nil
  | append_singleton results last ih =>
    rw [List.map_append, List.map_singleton, List.nodup_append] at hnames
    obtain ⟨hnodup, -, hdisj⟩ := hnames
    rw [setPValues_concat]
    rcases List.mem_append.mp hr with hr | hr
    · have hne := hdisj r.name (List.mem_map_of_mem hr) last.name (List.mem_singleton_self _)
      rw [Function.update_of_ne hne]
      exact ih hnodup hr
    · rw [List.mem_singleton.mp hr, Function.update_self]

/-- **The model of the updates**, whose ghost state is the report that is being shown, and how
many of its results are shown. -/
def updating : Model (Action F) Answer (Option (Report F × ℕ)) where
  step
    | .results, _, report, q' => q' = report.map (·, 0)
    | .setPValue .., q, _, q' => q' = q.map fun x => (x.1, x.2 + 1)
    | .setLastRun _, _, _, q' => q' = none
    | _, q, _, q' => q' = q
  allowed
    | .results, q => q = none
    | .setPValue name p, q => ∃ report k r, q = some (report, k) ∧
        report.results[k]? = some r ∧ r.name = name ∧ r.pValue = p
    | .setLastRun t, q => ∃ report, q = some (report, report.results.length) ∧ report.lastRun = t
    | _, _ => True

theorem wp_updateNIST {report : Report F} (shown rest : List (Health.TestResult F))
    (h : report.results = shown ++ rest) :
    WP updating (updateNIST rest) (fun _ q => q = some (report, report.results.length))
      (some (report, shown.length)) := by
  induction rest generalizing shown with
  | nil =>
    rw [List.append_nil] at h
    rw [h]
    exact rfl
  | cons r rest ih =>
    have hr : report.results[shown.length]? = some r := by
      rw [h, List.getElem?_append_right le_rfl, Nat.sub_self]
      rfl
    refine WP.bind (WP.op ⟨report, shown.length, r, rfl, hr, rfl, rfl⟩ ?_)
    rintro u q rfl
    have hrest := ih (shown ++ [r]) (by rw [h, List.append_assoc]; rfl)
    rw [List.length_append] at hrest
    exact hrest

theorem wp_updateMetrics (q : Option (Report F × ℕ)) (hq : q = none) :
    WP (updating (F := F)) updateMetrics (fun _ q' => q' = none) q := by
  refine WP.bind (WP.op hq ?_)
  rintro report q' rfl
  cases report with
  | none => exact rfl
  | some report =>
    refine WP.bind ((wp_updateNIST [] report.results rfl).mono ?_)
    rintro u q' rfl
    exact WP.op ⟨report, rfl, rfl⟩ fun _ q' hq' => hq'

/-- The gauges show nothing yet, or one report, which was the latest at some moment. -/
def Showing (tr : List (Happening F)) (ms : Metrics F) : Prop :=
  ((∀ name, ms.nistTestPValue name = none) ∧ ms.selfTestLastRun = none) ∨
    ∃ tr' report, tr' <+: tr ∧ latest tr' = some report ∧
      (∃ g, ms.nistTestPValue = setPValues g report.results) ∧
      ms.selfTestLastRun = some report.lastRun.unix

/-- The gauges between two updates, and within one. -/
structure Gauged (c : Watched D F) (q : Option (Report F × ℕ)) : Prop where
  report : c.state.report = latest c.trace
  idle : q = none → Showing c.trace c.state.metrics
  busy : ∀ report k, q = some (report, k) → (∃ tr, tr <+: c.trace ∧ latest tr = some report) ∧
    ∃ g, c.state.metrics.nistTestPValue = setPValues g (report.results.take k)

/-- The calls that leave these gauges alone. -/
def Gaugeless : Action F → Prop
  | .setPValue .. => False
  | .setLastRun _ => False
  | _ => True

theorem Showing.mono {tr tr' : List (Happening F)} {ms : Metrics F} (h : Showing tr ms)
    (hle : tr <+: tr') : Showing tr' ms := by
  rcases h with hnone | ⟨tr₀, report, htr₀, hlatest, hshown⟩
  · exact Or.inl hnone
  · exact Or.inr ⟨tr₀, report, htr₀.trans hle, hlatest, hshown⟩

/-- Such a call leaves them as they are. -/
theorem Gauged.still {c : Watched D F} {q : Option (Report F × ℕ)} (h : Gauged c q) {i : ℕ}
    {e : Env} {a : Action F} {r : Answer a} {s : Running D F} (ha : Gaugeless a)
    (hsem : perform value dev crypto a e c.state = some (r, s)) (p : Routine F (Option Response)) :
    Gauged (c.moved p s ⟨i, e, a, r⟩) q := by
  obtain ⟨hreport, hmetrics⟩ := perform_eq hsem i
  have hkept : s.metrics.nistTestPValue = c.state.metrics.nistTestPValue ∧
      s.metrics.selfTestLastRun = c.state.metrics.selfTestLastRun := by
    rw [hmetrics]
    cases a with
    | setPValue name p => exact ha.elim
    | setLastRun t => exact ha.elim
    | _ => exact ⟨rfl, rfl⟩
  have hle : c.trace <+: c.trace ++ [⟨i, e, a, r⟩] := List.prefix_append _ _
  refine ⟨?_, fun hq => ?_, fun report k hq => ?_⟩
  · rw [Pool.moved, latest, lastOf_concat]
    exact hreport.trans (congrArg _ h.report)
  · have hshowing := (h.idle hq).mono hle
    rw [Showing, ← hkept.1, ← hkept.2] at hshowing
    exact hshowing
  · obtain ⟨⟨tr, htr, hlatest⟩, g, hg⟩ := h.busy report k hq
    exact ⟨⟨tr, htr.trans hle, hlatest⟩, g, hkept.1.trans hg⟩

/-- **A call of the goroutine** updates the gauges as its ghost state says. -/
theorem Gauged.own {c : Watched D F} {q : Option (Report F × ℕ)} (h : Gauged c q) {i : ℕ}
    {e : Env} {a : Action F} {r : Answer a} {s : Running D F} (ha : updating.allowed a q)
    (hsem : perform value dev crypto a e c.state = some (r, s)) (p : Routine F (Option Response)) :
    ∃ q', updating.step a q r q' ∧ Gauged (c.moved p s ⟨i, e, a, r⟩) q' := by
  obtain ⟨hreport, hmetrics⟩ := perform_eq hsem i
  have hle : c.trace <+: c.trace ++ [⟨i, e, a, r⟩] := List.prefix_append _ _
  have hreport' : s.report = latest (c.trace ++ [⟨i, e, a, r⟩]) := by
    rw [latest, lastOf_concat]
    exact hreport.trans (congrArg _ h.report)
  cases a with
  | results =>
    obtain ⟨rfl, rfl⟩ := Prod.mk.inj (Option.some.inj hsem)
    refine ⟨_, rfl, hreport', fun hq => (h.idle ha).mono hle, fun report k hq => ?_⟩
    obtain ⟨report', hread, heq⟩ := Option.map_eq_some_iff.mp hq
    obtain ⟨rfl, rfl⟩ := Prod.mk.inj heq
    exact ⟨⟨c.trace, hle, h.report.symm.trans hread⟩, c.state.metrics.nistTestPValue, rfl⟩
  | setPValue name p =>
    obtain ⟨report, k, r', rfl, hr', rfl, rfl⟩ := ha
    obtain ⟨⟨tr, htr, hlatest⟩, g, hg⟩ := h.busy report k rfl
    refine ⟨_, rfl, hreport', fun hq => (by cases hq), fun report' k' hq => ?_⟩
    obtain ⟨rfl, rfl⟩ := Prod.mk.inj (Option.some.inj hq)
    refine ⟨⟨tr, htr.trans hle, hlatest⟩, g, ?_⟩
    rw [List.take_add_one, hr', Option.toList_some, setPValues_concat, ← hg]
    exact congrArg Metrics.nistTestPValue hmetrics
  | setLastRun t =>
    obtain ⟨report, rfl, rfl⟩ := ha
    obtain ⟨⟨tr, htr, hlatest⟩, g, hg⟩ := h.busy report _ rfl
    rw [List.take_length] at hg
    refine ⟨_, rfl, hreport', fun _ => Or.inr ⟨tr, report, htr.trans hle, hlatest, ⟨g, ?_⟩, ?_⟩,
      fun report' k' hq => by cases hq⟩
    · exact (congrArg Metrics.nistTestPValue hmetrics).trans hg
    · exact congrArg Metrics.selfTestLastRun hmetrics
  | _ =>
    refine ⟨q, rfl, h.still ?_ hsem p⟩
    trivial

/-! ### The reports -/

/-- **The model of a request**, whose ghost state is whether it has made a call, and what had
happened each time when it read the results of the self tests. -/
def viewing (value : F → ℚ) (i : ℕ) :
    Model (Action F) Answer (Bool × List (List (Happening F))) where
  step
    | .gateway .selfTestResults, q, r, q' => ∃ tr, r = shown value (latest tr) ∧
        (∀ tr' ∈ q.2, tr' <+: tr) ∧ (q.1 = true → ∃ ev ∈ tr, ev.caller = i) ∧
        q' = (true, q.2 ++ [tr])
    | _, q, _, q' => q' = (true, q.2)
  allowed _ _ := True

/-- The model, as the handler sees it. -/
abbrev handlerView (value : F → ℚ) (i : ℕ) :
    Model Gateway.Op Gateway.Ret (Bool × List (List (Happening F))) :=
  (viewing value i).along .gateway fun _ r => r

theorem handlerView_step {i : ℕ} {o : Gateway.Op} (ho : o ≠ .selfTestResults)
    {q q' : Bool × List (List (Happening F))} {r : Gateway.Ret o}
    (h : (handlerView value i).step o q r q') : q' = (true, q.2) := by
  obtain ⟨r, -, h⟩ := h
  cases o with
  | selfTestResults => exact absurd rfl ho
  | _ => exact h

/-- **What a health report says of the self tests.** Its results are the latest at a moment of
the request. Its status is read a little later; it tells whether the results that are the latest
then have a failure, or one of the other checks has. -/
def Faithful (value : F → ℚ) (tr : List (Happening F)) (i : ℕ) (resp : HealthResponse) : Prop :=
  ∀ report, resp.nistSelftest = some report → ∃ tr₁ tr₂, tr₁ <+: tr₂ ∧ tr₂ <+: tr ∧
    (∃ ev ∈ tr₁, ev.caller = i) ∧ report = shown value (latest tr₁) ∧
    resp.status = if (shown value (latest tr₂)).1.any (·.status = .fail) then "error"
      else overall [resp.csprng, resp.tamperDetection]

/-- The report of a response is faithful as soon as the trace goes on from what was seen. -/
def Seen (value : F → ℚ) (i : ℕ) (body : Body) (seen : List (List (Happening F))) : Prop :=
  ∀ resp, body = .health resp → ∀ tr, (∀ tr' ∈ seen, tr' <+: tr) → Faithful value tr i resp

variable {srv : Server} {i : ℕ}

theorem wp_selfTestStatus (status : String) : WP (handlerView value i) (selfTestStatus srv status)
    (fun x q => ∀ report, x.1 = some report → ∃ tr₁ tr₂, q.2 = [tr₁, tr₂] ∧ tr₁ <+: tr₂ ∧
      (∃ ev ∈ tr₁, ev.caller = i) ∧ report = shown value (latest tr₁) ∧
      x.2 = if (shown value (latest tr₂)).1.any (·.status = .fail) then "error" else status)
    (true, []) := by
  unfold selfTestStatus
  split
  · refine WP.bind (WP.op trivial ?_)
    rintro r q ⟨_, rfl, tr₁, rfl, -, hcalled, rfl⟩
    refine WP.bind (WP.op trivial ?_)
    rintro r q ⟨_, rfl, tr₂, rfl, hle, -, rfl⟩
    rintro report ⟨rfl⟩
    exact ⟨tr₁, tr₂, rfl, hle tr₁ (List.mem_singleton_self _), hcalled rfl, rfl, rfl⟩
  · rintro report ⟨⟩

theorem wp_tamperStatus : WP (handlerView value i) (tamperStatus srv) (fun _ q => q = (true, []))
    (true, []) := by
  unfold tamperStatus
  split
  · exact rfl
  · refine WP.bind (WP.op trivial fun err q hq => ?_)
    exact handlerView_step (by simp) hq

theorem wp_handleHealth : WP (handlerView value i) (handleHealth srv)
    (fun resp q => Seen value i resp.body q.2) (true, []) := by
  refine WP.bind (WP.op trivial fun err q hq => ?_)
  obtain rfl := handlerView_step (by simp) hq
  refine WP.bind (wp_tamperStatus.mono ?_)
  rintro tamper q rfl
  refine WP.bind (WP.op trivial fun lastReseed q hq => ?_)
  obtain rfl := handlerView_step (by simp) hq
  refine WP.bind (WP.op trivial fun outputs q hq => ?_)
  obtain rfl := handlerView_step (by simp) hq
  refine WP.bind ((wp_selfTestStatus _).mono fun selfTests q hseen => ?_)
  rintro resp hresp tr htr report hreport
  obtain rfl := Body.health.inj hresp
  obtain ⟨tr₁, tr₂, hq, hle, hcalled, rfl, hstatus⟩ := hseen report hreport
  rw [hq] at htr
  exact ⟨tr₁, tr₂, hle, htr tr₂ (by simp), hcalled, rfl, hstatus⟩

/-- **The report of every health request is faithful.** -/
theorem wp_handling {req : HttpRequest} (hroute : req.route = .health) :
    WP (viewing value i) (handling srv req)
      (fun resp q => ∀ resp', resp = some resp' → Seen value i resp'.body q.2) (false, []) := by
  have herror : ∀ (code : ℕ) (msg : String) (cause : Option GoError)
      (q : Bool × List (List (Happening F))), ∀ resp',
        some (writeError code msg cause) = some resp' → Seen value i resp'.body q.2 := by
    rintro code msg cause q resp' ⟨rfl⟩ resp hresp
    cases hresp
  refine WP.bind (WP.embed ?_)
  refine WP.bind ((wp_extractTenant (I := fun q => q.2 = []) ?_ rfl).mono ?_)
  · rintro q hq
    refine ⟨trivial, fun t q' hstep => ?_⟩
    rw [handlerView_step (by simp) hstep]
    exact hq
  · rintro r q ⟨hq, -⟩
    cases r with
    | error err => exact herror _ _ _ q
    | ok tenant =>
      simp only
      split
      · exact herror _ _ _ q
      · refine WP.bind (WP.op trivial fun allowed q' hstep => ?_)
        obtain rfl := handlerView_step (by simp) hstep
        split
        · rw [hroute, hq]
          refine wp_handleHealth.mono ?_
          rintro resp q hseen resp' ⟨rfl⟩
          exact hseen
        · exact herror _ _ _ _

/-- The views of a request: initial parts of the trace. -/
structure Views (i : ℕ) (c : Watched D F) (q : Bool × List (List (Happening F))) : Prop where
  report : c.state.report = latest c.trace
  called : q.1 = true → ∃ ev ∈ c.trace, ev.caller = i
  views : ∀ tr ∈ q.2, tr <+: c.trace

/-! ### Published results -/

section Sampled

variable [Field F] [LinearOrder F] {m : Health.MathPkg F} {sampleBytes : UInt64}

variable {srv : Server} {tests checks updates : ℕ} {reqs : List HttpRequest} {w : World D}
  {sched : List (ℕ × Env)} {c : Watched D F}

/-- The service at its start. -/
def watched (m : Health.MathPkg F) (srv : Server) (sampleBytes : UInt64)
    (tests checks updates : ℕ) (reqs : List HttpRequest) (w : World D) : Watched D F :=
  Pool.init (routines m srv sampleBytes tests checks updates reqs) ⟨w, none, Metrics.new⟩

/-- A thread is one of the goroutines, or handles a request. -/
theorem threads_watched {i : ℕ} {p : Routine F (Option Response)}
    (h : (watched m srv sampleBytes tests checks updates reqs w).threads[i]? = some p) :
    (i = 0 ∧ p = ticks (runAndLog m (Health.newSelfTester sampleBytes)) (tests + 1)) ∨
      (i = 1 ∧ p = ticks checkBinary checks) ∨ (i = 2 ∧ p = ticks updateMetrics updates) ∨
      ∃ req, p = handling srv req := by
  match i with
  | 0 => exact Or.inl ⟨rfl, (Option.some.inj h).symm⟩
  | 1 => exact Or.inr (Or.inl ⟨rfl, (Option.some.inj h).symm⟩)
  | 2 => exact Or.inr (Or.inr (Or.inl ⟨rfl, (Option.some.inj h).symm⟩))
  | i + 3 =>
    have hmem : (reqs.map (handling srv))[i]? = some p := h
    rw [List.getElem?_map, Option.map_eq_some_iff] at hmem
    obtain ⟨req, -, rfl⟩ := hmem
    exact Or.inr (Or.inr (Or.inr ⟨req, rfl⟩))

/-- What is published are the results of the three tests on the sample drawn last. -/
def Sampled (m : Health.MathPkg F) (sampleBytes : UInt64) (before : List (Happening F))
    (ev : Happening F) : Prop :=
  ∀ results, ev.op = .publish results → ∃ r, lastOf sample before = some r ∧
    (Health.newSelfTester sampleBytes).runAll m (fun _ => r) = .ok results

/-- **The model of the tester**, whose ghost state is the sample drawn last. -/
def testing (m : Health.MathPkg F) (sampleBytes : UInt64) :
    Model (Action F) Answer (Option (Except GoError Bytes)) where
  step
    | .gateway (.generate _), _, r, q' => q' = some r
    | _, q, _, q' => q' = q
  allowed
    | .publish results, q => ∃ r, q = some r ∧
        (Health.newSelfTester sampleBytes).runAll m (fun _ => r) = .ok results
    | _, _ => True

theorem wp_runAndLog (m : Health.MathPkg F) (sampleBytes : UInt64)
    (q : Option (Except GoError Bytes)) :
    WP (testing m sampleBytes) (runAndLog m (Health.newSelfTester sampleBytes))
      (fun _ _ => True) q := by
  refine WP.bind (WP.op trivial ?_)
  rintro r q' rfl
  split
  · trivial
  · next results hrun => exact WP.op ⟨r, rfl, hrun⟩ fun _ _ _ => trivial

theorem calls_runAndLog {φ : Action F → Prop} (hg : ∀ n, φ (.gateway (.generate n)))
    (hp : ∀ results, φ (.publish results)) (t : Health.SelfTester) : Calls φ (runAndLog m t) := by
  refine Calls.bind (Calls.op (hg _)) fun r => ?_
  split
  · exact Calls.ret _
  · exact Calls.op (hp _)

/-- The tester knows its sample, and has published results of samples only. -/
def Tested (m : Health.MathPkg F) (sampleBytes : UInt64) (c : Watched D F)
    (q : Option (Except GoError Bytes)) : Prop :=
  q = lastOf sample c.trace ∧ Stepwise (Sampled m sampleBytes) c.trace

/-- **Every publication is tested.** -/
theorem sampled_of_run
    (hrun : Pool.run (perform value dev crypto) Pool.anyOrder sched
      (watched m srv sampleBytes tests checks updates reqs w) = some c) :
    Stepwise (Sampled m sampleBytes) c.trace := by
  have hwp := wp_ticks (I := fun _ => True) (fun q _ => wp_runAndLog m sampleBytes q) (tests + 1)
    (q := none) trivial
  have hfocus : ∃ q p, Tested m sampleBytes c q ∧ c.threads[0]? = some p ∧
      WP (testing m sampleBytes) p (fun _ _ => True) q := by
    refine Pool.run_focus (J := Tested m sampleBytes) (φ := fun a => ∀ results,
      a ≠ .publish results) ?_ ?_ ⟨rfl, stepwise_nil _⟩ rfl hwp ?_ hrun
    · rintro c q e a p r s ⟨rfl, hstepwise⟩ hallowed hsem
      refine ⟨(sample ⟨0, e, a, r⟩).or (lastOf sample c.trace), ?_, (lastOf_concat _ _ _).symm,
        stepwise_concat.mpr ⟨hstepwise, fun results ha => ?_⟩⟩
      · cases a with
        | gateway o => cases o <;> rfl
        | _ => rfl
      · obtain rfl : a = .publish results := ha
        exact hallowed
    · rintro c q i e a p r s hi ha ⟨rfl, hstepwise⟩ hsem
      refine ⟨?_, stepwise_concat.mpr ⟨hstepwise, fun results heq => absurd heq (ha results)⟩⟩
      have hnone : sample (⟨i, e, a, r⟩ : Happening F) = none := by
        obtain ⟨j, rfl⟩ := Nat.exists_eq_succ_of_ne_zero hi
        cases a with
        | gateway o => cases o <;> rfl
        | _ => rfl
      rw [Pool.moved, lastOf_concat, hnone, Option.none_or]
    · intro i p hi hp
      rcases threads_watched hp with ⟨rfl, -⟩ | ⟨-, rfl⟩ | ⟨-, rfl⟩ | ⟨req, rfl⟩
      · exact absurd rfl hi
      · exact calls_ticks (calls_checkBinary (by simp) (by simp)) _
      · exact calls_ticks (calls_updateMetrics (by simp) (by simp) (by simp)) _
      · exact calls_handling (by simp) srv req
  obtain ⟨q, p, ⟨-, hsampled⟩, -⟩ := hfocus
  exact hsampled

/-- The three tests. -/
theorem runAll_names {t : Health.SelfTester} {rng : UInt64 → Except GoError Bytes}
    {results : List (Health.TestResult F)} (h : t.runAll m rng = .ok results) :
    (results.map Health.TestResult.name).Nodup := by
  have hname : ∀ name (outcome : Except GoError F), (Health.result name outcome).name = name := by
    intro name outcome
    cases outcome <;> rfl
  rw [Health.SelfTester.runAll] at h
  split at h
  · cases h
  · obtain rfl := Except.ok.inj h
    simp [hname]

/-- **A report holds the results of the tests of one sample.** -/
theorem results_of_latest {tr : List (Happening F)} (h : Stepwise (Sampled m sampleBytes) tr)
    {report : Report F} (hlatest : latest tr = some report) :
    ∃ r, (Health.newSelfTester sampleBytes).runAll m (fun _ => r) = .ok report.results := by
  induction tr using List.reverseRecOn with
  | nil => cases hlatest
  | append_singleton tr ev ih =>
    obtain ⟨htr, hev⟩ := stepwise_concat.mp h
    rw [latest, lastOf_concat] at hlatest
    cases hpub : publication ev with
    | none =>
      rw [hpub, Option.none_or] at hlatest
      exact ih htr hlatest
    | some published =>
      rw [hpub, Option.some_or, Option.some_inj] at hlatest
      obtain ⟨i, e, a, r⟩ := ev
      cases a with
      | publish results =>
        obtain rfl := Option.some.inj hpub
        subst hlatest
        obtain ⟨r, -, hrun⟩ := hev results rfl
        exact ⟨r, hrun⟩
      | _ => cases hpub

/-- **The gauge of the binary**, while its goroutine waits for the next tick. -/
theorem binaryHashMatches_of_run
    (hrun : Pool.run (perform value dev crypto) Pool.anyOrder sched
      (watched m srv sampleBytes tests checks updates reqs w) = some c)
    {n : ℕ} (hthread : c.threads[1]? = some (ticks checkBinary n)) :
    c.state.metrics.binaryHashMatches = lastMatch c.trace := by
  have hwp := wp_ticks (I := (· = none)) (wp_checkBinary (F := F)) checks rfl
  have hfocus : ∃ q p, Checked c q ∧ c.threads[1]? = some p ∧
      WP checking p (fun _ q' => q' = none) q := by
    refine Pool.run_focus (J := Checked) (φ := fun a => ∀ detected,
      a ≠ .setTamperDetected detected) ?_ ?_ ⟨by simp, fun _ => rfl⟩ rfl hwp ?_ hrun
    · intro c q e a p r s h hallowed hsem
      cases a with
      | gateway o =>
        cases o with
        | verifyBinary =>
          refine ⟨some r, rfl, fun err herr => ?_, fun hq => by cases hq⟩
          obtain rfl := Option.some.inj herr
          rw [Pool.moved, lastOf_concat]
          rfl
        | _ => exact ⟨q, rfl, h.still (by simp) rfl hsem p⟩
      | setTamperDetected detected =>
        obtain ⟨err, rfl, rfl⟩ := hallowed
        have hlast := h.1 err rfl
        refine ⟨none, rfl, fun _ herr => (by cases herr), fun _ => ?_⟩
        rw [Pool.moved, lastMatch, lastOf_concat]
        show s.metrics.binaryHashMatches = (lastOf check c.trace).elim true Option.isNone
        rw [hlast, (perform_eq hsem 1).2]
        cases err <;> rfl
      | _ => exact ⟨q, rfl, h.still (by simp) rfl hsem p⟩
    · intro c q i e a p r s hi ha h hsem
      refine h.still ha ?_ hsem p
      unfold check
      split
      · next heq => exact absurd (congrArg Event.caller heq) hi
      · rfl
    · intro i p hi hp
      rcases threads_watched hp with ⟨-, rfl⟩ | ⟨rfl, -⟩ | ⟨-, rfl⟩ | ⟨req, rfl⟩
      · exact calls_ticks (calls_runAndLog (by simp) (by simp) _) _
      · exact absurd rfl hi
      · exact calls_ticks (calls_updateMetrics (by simp) (by simp) (by simp)) _
      · exact calls_handling (by simp) srv req
  obtain ⟨q, p, ⟨-, hshown⟩, hp, hidle⟩ := hfocus
  obtain rfl := Option.some.inj (hp.symm.trans hthread)
  refine hshown ?_
  cases n with
  | zero => exact hidle
  | succ n => exact hidle.allowed

/-- **The gauges of the self tests**, while their goroutine waits for the next tick. -/
theorem showing_of_run
    (hrun : Pool.run (perform value dev crypto) Pool.anyOrder sched
      (watched m srv sampleBytes tests checks updates reqs w) = some c)
    {n : ℕ} (hthread : c.threads[2]? = some (ticks updateMetrics n)) :
    Showing c.trace c.state.metrics := by
  have hwp := wp_ticks (I := (· = none)) (wp_updateMetrics (F := F)) updates rfl
  have hfocus : ∃ q p, Gauged c q ∧ c.threads[2]? = some p ∧
      WP updating p (fun _ q' => q' = none) q := by
    refine Pool.run_focus (J := Gauged) (φ := Gaugeless) ?_ ?_
      ⟨rfl, fun _ => Or.inl ⟨fun _ => rfl, rfl⟩, by simp⟩ rfl hwp ?_ hrun
    · intro c q e a p r s h hallowed hsem
      exact h.own hallowed hsem p
    · intro c q i e a p r s hi ha h hsem
      exact h.still ha hsem p
    · intro i p hi hp
      rcases threads_watched hp with ⟨-, rfl⟩ | ⟨-, rfl⟩ | ⟨rfl, -⟩ | ⟨req, rfl⟩
      · exact calls_ticks (calls_runAndLog (fun _ => trivial) (fun _ => trivial) _) _
      · exact calls_ticks (calls_checkBinary trivial fun _ => trivial) _
      · exact absurd rfl hi
      · exact calls_handling (fun _ => trivial) srv req
  obtain ⟨q, p, h, hp, hidle⟩ := hfocus
  obtain rfl := Option.some.inj (hp.symm.trans hthread)
  refine h.idle ?_
  cases n with
  | zero => exact hidle
  | succ n => exact hidle.allowed

/-- **The reports of health requests.** -/
theorem faithful_of_run
    (hrun : Pool.run (perform value dev crypto) Pool.anyOrder sched
      (watched m srv sampleBytes tests checks updates reqs w) = some c)
    {j : ℕ} {req : HttpRequest} (hreq : reqs[j]? = some req) (hroute : req.route = .health)
    {resp : Response} (hthread : c.threads[j + 3]? = some (.ret (some resp)))
    {health : HealthResponse} (hbody : resp.body = .health health) :
    Faithful value c.trace (j + 3) health := by
  have hstart : (watched m srv sampleBytes tests checks updates reqs w).threads[j + 3]?
      = some (handling srv req) := by
    show (reqs.map (handling srv))[j]? = _
    rw [List.getElem?_map, hreq]
    rfl
  have hfocus : ∃ q p, Views (j + 3) c q ∧ c.threads[j + 3]? = some p ∧
      WP (viewing value (j + 3)) p
        (fun resp q => ∀ resp', resp = some resp' → Seen value (j + 3) resp'.body q.2) q := by
    refine Pool.run_focus (J := Views (j + 3)) (φ := fun _ => True) ?_ ?_
      ⟨rfl, by simp, by simp⟩ hstart (wp_handling hroute) ?_ hrun
    · intro c q e a p r s h hallowed hsem
      have hle : c.trace <+: c.trace ++ [⟨j + 3, e, a, r⟩] := List.prefix_append _ _
      have hreport : s.report = latest (c.trace ++ [⟨j + 3, e, a, r⟩]) := by
        rw [latest, lastOf_concat]
        exact (perform_eq hsem (j + 3)).1.trans (congrArg _ h.report)
      have hcalled : ∃ ev ∈ c.trace ++ [⟨j + 3, e, a, r⟩], ev.caller = j + 3 :=
        ⟨_, List.mem_append_right _ (List.mem_singleton_self _), rfl⟩
      have hquiet : Views (j + 3) (c.moved p s ⟨j + 3, e, a, r⟩) (true, q.2) :=
        ⟨hreport, fun _ => hcalled, fun tr htr => (h.views tr htr).trans hle⟩
      cases a with
      | gateway o =>
        cases o with
        | selfTestResults =>
          obtain ⟨rfl, -⟩ := Prod.mk.inj (Option.some.inj hsem)
          refine ⟨_, ⟨c.trace, congrArg (shown value) h.report, h.views, h.called, rfl⟩, hreport,
            fun _ => hcalled, fun tr htr => ?_⟩
          rcases List.mem_append.mp htr with htr | htr
          · exact (h.views tr htr).trans hle
          · rw [List.mem_singleton.mp htr]
            exact hle
        | _ => exact ⟨_, rfl, hquiet⟩
      | _ => exact ⟨_, rfl, hquiet⟩
    · intro c q i e a p r s hi _ h hsem
      have hle : c.trace <+: c.trace ++ [⟨i, e, a, r⟩] := List.prefix_append _ _
      refine ⟨?_, fun hq => ?_, fun tr htr => (h.views tr htr).trans hle⟩
      · rw [Pool.moved, latest, lastOf_concat]
        exact (perform_eq hsem i).1.trans (congrArg _ h.report)
      · obtain ⟨ev, hev, hcaller⟩ := h.called hq
        exact ⟨ev, List.mem_append_left _ hev, hcaller⟩
    · intro i p hi hp
      rcases threads_watched hp with ⟨-, rfl⟩ | ⟨-, rfl⟩ | ⟨-, rfl⟩ | ⟨req, rfl⟩
      · exact calls_ticks (calls_runAndLog (fun _ => trivial) (fun _ => trivial) _) _
      · exact calls_ticks (calls_checkBinary trivial fun _ => trivial) _
      · exact calls_ticks (calls_updateMetrics trivial (fun _ _ => trivial) fun _ => trivial) _
      · exact calls_handling (fun _ => trivial) srv req
  obtain ⟨q, p, h, hp, hpost⟩ := hfocus
  obtain rfl := Option.some.inj (hp.symm.trans hthread)
  exact hpost resp rfl health hbody c.trace h.views

/-- **The service is watched coherently** at a point of a run. -/
structure Coherent (value : F → ℚ) (m : Health.MathPkg F) (sampleBytes : UInt64)
    (reqs : List HttpRequest) (c : Watched D F) : Prop where
  /-- what is published are the results of the three tests on the sample drawn last -/
  sampled : Stepwise (Sampled m sampleBytes) c.trace
  reported : ∀ j req resp health, reqs[j]? = some req → req.route = .health →
    c.threads[j + 3]? = some (.ret (some resp)) → resp.body = .health health →
      Faithful value c.trace (j + 3) health
  /-- between two updates the gauges show one report as a whole, or nothing yet -/
  gauges : ∀ n, c.threads[2]? = some (ticks updateMetrics n) →
    ((∀ name, c.state.metrics.nistTestPValue name = none) ∧
      c.state.metrics.selfTestLastRun = none) ∨
    ∃ tr report, tr <+: c.trace ∧ latest tr = some report ∧
      (∀ r ∈ report.results, c.state.metrics.nistTestPValue r.name = some r.pValue) ∧
      c.state.metrics.selfTestLastRun = some report.lastRun.unix
  /-- between two checks the gauge of the binary shows what the last one has found -/
  binary : ∀ n, c.threads[1]? = some (ticks checkBinary n) →
    c.state.metrics.binaryHashMatches = lastMatch c.trace

/-- **The service is watched coherently**, in every interleaving of its goroutines and of any
requests, for any number of ticks, and whatever the generator, the clock and the binary do. -/
theorem watched_coherent
    (hrun : Pool.run (perform value dev crypto) Pool.anyOrder sched
      (watched m srv sampleBytes tests checks updates reqs w) = some c) :
    Coherent value m sampleBytes reqs c := by
  have hsampled := sampled_of_run hrun
  refine ⟨hsampled, fun j req resp health hreq hroute hthread hbody =>
    faithful_of_run hrun hreq hroute hthread hbody, fun n hthread => ?_,
    fun n hthread => binaryHashMatches_of_run hrun hthread⟩
  rcases showing_of_run hrun hthread with hnone | ⟨tr, report, htr, hlatest, ⟨g, hg⟩, hlast⟩
  · exact Or.inl hnone
  · obtain ⟨r, hresults⟩ := results_of_latest (hsampled.initial htr) hlatest
    refine Or.inr ⟨tr, report, htr, hlatest, fun r' hr' => ?_, hlast⟩
    rw [hg]
    exact setPValues_of_mem (runAll_names hresults) hr'

end Sampled

/-- A generator whose first sample is empty; all others are zeros. -/
def alternating : Device Bool where
  generate _ first := (.ok (if first then [] else List.replicate 13 0), false)
  reseed _ first := (.ok (), first)
  outputBytes _ := 0
  healthCheck _ := none

/-- Functions with which every longer sample fails the first test. -/
def constantMath : Health.MathPkg ℚ :=
  ⟨fun _ => 1, fun _ => 1 / 10000, fun _ => 0, fun _ => 0, fun _ => 0⟩

/-- A request of tenant `a` for the health report. -/
def healthRequest : HttpRequest := ⟨⟨[], [107]⟩, .health⟩

/-- A second run of the self tests ends between the two times that the request reads the
results; afterwards the gauges are updated. -/
def tornRun : Option (Watched Bool ℚ) :=
  Pool.run (perform id alternating Crypto.std) Pool.anyOrder
    (turns 0 2 ++ turns 3 5 ++ turns 0 2 ++ turns 3 1 ++ turns 2 5)
    (watched constantMath { smallServer with selfTester := true } 0 1 0 1 [healthRequest]
      (World.new true 0))

/-- The health report of a request that has been answered. -/
def healthOf : Routine ℚ (Option Response) → Option HealthResponse
  | .ret (some ⟨_, .health health⟩) => some health
  | _ => none

theorem healthOf_eq_some {p : Routine ℚ (Option Response)} {health : HealthResponse}
    (h : healthOf p = some health) : ∃ code, p = .ret (some ⟨code, .health health⟩) := by
  unfold healthOf at h
  split at h
  · next code health' =>
    obtain rfl := Option.some.inj h
    exact ⟨code, rfl⟩
  · cases h

/-- **A report can disagree with its status**: no result that it holds is a failure, and its
status is an error, since the second run has failed. -/
theorem watched_coherent_torn : ∃ c health, tornRun = some c ∧
    Coherent id constantMath 0 [healthRequest] c ∧ Faithful id c.trace 3 health ∧
    health.nistSelftest.map (fun report => report.1.map (·.status))
      = some [.warnLow, .warnLow, .warnLow] ∧
    health.status = "error" ∧ c.state.metrics.nistTestPValue "Runs" = some (1 / 10000) := by
  have h : (tornRun.map fun c => ((c.threads[3]?.bind healthOf).map fun health =>
      (health.nistSelftest.map (fun report => report.1.map (·.status)), health.status),
      c.state.metrics.nistTestPValue "Runs"))
      = some (some (some [.warnLow, .warnLow, .warnLow], "error"), some (1 / 10000)) := by
    decide +kernel
  obtain ⟨c, hrun, hseen⟩ := Option.map_eq_some_iff.mp h
  obtain ⟨hreport, hgauge⟩ := Prod.mk.inj hseen
  obtain ⟨health, hhealth, hshown⟩ := Option.map_eq_some_iff.mp hreport
  obtain ⟨p, hp, hof⟩ := Option.bind_eq_some_iff.mp hhealth
  obtain ⟨code, rfl⟩ := healthOf_eq_some hof
  have hcoherent := watched_coherent hrun
  exact ⟨c, health, hrun, hcoherent, hcoherent.reported 0 _ _ _ rfl rfl hp rfl,
    (Prod.mk.inj hshown).1, (Prod.mk.inj hshown).2, hgauge⟩

end Serve
