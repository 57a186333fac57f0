import Mathlib
import RngService.Gateway.Rest

/-!
# What one request does to the audit trail

A request is verified alone, against a ghost `Ledger` of its own dealings with
the trail: the entry it has sealed and not yet appended, and its attempts to
append. `ledger` is the model of the surroundings: sealing answers with the entry
completed by its two hashes, appending succeeds or fails, nothing else touches
the ledger.

`wp_handler` says of every request, whatever the other operations answer: it
appends each entry right after sealing it, the entry records a result of the
request (`Records`), and a 200 response delivers the results of the entries
appended, one by one (`Backed`).
-/

namespace Gateway

open Audit

/-! ### The ledger of a request -/

/-- The dealings of a request with the audit trail. -/
structure Ledger where
  /-- the entry sealed and not yet appended -/
  held : Option Entry
  /-- the entries it tried to append, and whether they were stored -/
  attempts : List (Entry × Bool)

/-- The ledger of a request that has not started. -/
def Ledger.empty : Ledger := ⟨none, []⟩

/-- `e'` is `e`, sealed. -/
def SealOf (crypto : Crypto) (e e' : Entry) : Prop :=
  e' = { e with prevHash := e'.prevHash, entryHash := e'.entryHash } ∧ e'.Sound crypto

/-- **The model of the surroundings.** A request may seal a good entry when it
holds none, and may only append the entry it holds. -/
def ledger (crypto : Crypto) (Good : Entry → Prop) : Prog.Model Op Ret Ledger where
  allowed
    | .sealEntry e, q => q.held = none ∧ Good e
    | .appendEntry e, q => q.held = some e
    | _, _ => True
  step
    | .sealEntry e, q, r, q' => match r with
      | .ok e' => SealOf crypto e e' ∧ q' = { q with held := some e' }
      | .error _ => q' = q
    | .appendEntry e, q, r, q' => q' = ⟨none, q.attempts ++ [(e, r.isOk)]⟩
    | _, q, _, q' => q' = q

/-- The operation has nothing to do with the trail. -/
def Quiet : Op → Prop
  | .sealEntry _ => False
  | .appendEntry _ => False
  | _ => True

variable {srv : Server} {Good : Entry → Prop}

/-- Quiet operations are allowed and leave the ledger alone. -/
theorem ledger_quiet {o : Op} (ho : Quiet o) (q : Ledger) :
    (ledger srv.crypto Good).allowed o q ∧
      ∀ r q', (ledger srv.crypto Good).step o q r q' → q' = q := by
  cases o with
  | sealEntry e => exact ho.elim
  | appendEntry e => exact ho.elim
  | _ => exact ⟨trivial, fun _ _ h => h⟩

/-- A quiet program leaves the ledger alone. -/
theorem wp_quiet {α : Type} {p : Program α} (hp : Prog.Calls Quiet p) (q : Ledger) :
    Prog.WP (ledger srv.crypto Good) p (fun _ q' => q' = q) q := by
  -- the ledger itself is the invariant
  refine Prog.WP.of_calls (I := (· = q)) ?_ hp rfl
  rintro o ho q₁ rfl
  exact ledger_quiet ho q₁

/-! ### Quiet programs -/

theorem calls_reseedNotDue {φ : Op → Prop} (ho : φ .outputBytes) (hl : φ .lastReseed)
    (hn : φ .now) : Prog.Calls φ (reseedNotDue srv) := by
  refine Prog.Calls.bind (Prog.Calls.op ho) fun outputs => ?_
  split
  · exact Prog.Calls.bind (Prog.Calls.op hl) fun _ =>
      Prog.Calls.bind (Prog.Calls.op hn) fun _ => Prog.Calls.ret _
  · exact Prog.Calls.ret _

/-- The operations of the re-seed policy. -/
def Reseeding : Op → Prop
  | .now | .lastReseed | .setLastReseed _ | .lockReseed | .unlockReseed | .outputBytes
  | .collectForReseed .. | .reseed _ => True
  | _ => False

theorem reseeding_reseedLocked (tenantID : GoString) :
    Prog.Calls Reseeding (reseedLocked srv tenantID).run := by
  refine Prog.Calls.bindE (Prog.Calls.liftE (calls_reseedNotDue trivial trivial trivial))
    fun notDue => ?_
  split
  · exact Prog.Calls.pureE _
  · refine Prog.Calls.bindE (Prog.Calls.liftE (Prog.Calls.op trivial)) fun _ => ?_
    refine Prog.Calls.bindE (Prog.Calls.op trivial) fun _ => ?_
    refine Prog.Calls.bindE (Prog.Calls.op trivial) fun _ => ?_
    refine Prog.Calls.bindE (Prog.Calls.liftE (Prog.Calls.op trivial)) fun _ => ?_
    exact Prog.Calls.liftE (Prog.Calls.op trivial)

theorem reseeding_reseedIfNeeded (tenantID : GoString) :
    Prog.Calls Reseeding (reseedIfNeeded srv tenantID).run := by
  refine Prog.Calls.bindE (Prog.Calls.liftE (calls_reseedNotDue trivial trivial trivial))
    fun notDue => ?_
  split
  · exact Prog.Calls.pureE _
  · exact Prog.Calls.bind (Prog.Calls.op trivial) fun _ =>
      Prog.Calls.bind (reseeding_reseedLocked tenantID) fun _ =>
        Prog.Calls.bind (Prog.Calls.op trivial) fun _ => Prog.Calls.ret _

theorem quiet_reseedIfNeeded (tenantID : GoString) :
    Prog.Calls Quiet (reseedIfNeeded srv tenantID).run :=
  (reseeding_reseedIfNeeded tenantID).mono fun o ho => by
    cases o with
    | sealEntry e => exact ho.elim
    | appendEntry e => exact ho.elim
    | _ => trivial

/-- The operation only reads. -/
def Reading : Op → Prop
  | .sealEntry _ => False
  | .appendEntry _ => False
  | .generate _ => False
  | .reseed _ => False
  | .setLastReseed _ => False
  | .collectForReseed .. => False
  | _ => True

theorem Reading.quiet {o : Op} (h : Reading o) : Quiet o := by
  cases o with
  | sealEntry e => exact h.elim
  | appendEntry e => exact h.elim
  | _ => trivial

theorem reads_tamperStatus : Prog.Calls Reading (tamperStatus srv) := by
  unfold tamperStatus
  split
  · exact Prog.Calls.ret _
  · exact Prog.Calls.bind (Prog.Calls.op trivial) fun _ => Prog.Calls.ret _

theorem reads_selfTestStatus (status : String) :
    Prog.Calls Reading (selfTestStatus srv status) := by
  unfold selfTestStatus
  split
  · exact Prog.Calls.bind (Prog.Calls.op trivial) fun _ =>
      Prog.Calls.bind (Prog.Calls.op trivial) fun _ => Prog.Calls.ret _
  · exact Prog.Calls.ret _

theorem reads_handleHealth : Prog.Calls Reading (handleHealth srv) :=
  Prog.Calls.bind (Prog.Calls.op trivial) fun _ =>
    Prog.Calls.bind reads_tamperStatus fun _ =>
      Prog.Calls.bind (Prog.Calls.op trivial) fun _ =>
        Prog.Calls.bind (Prog.Calls.op trivial) fun _ =>
          Prog.Calls.bind (reads_selfTestStatus _) fun _ => Prog.Calls.ret _

theorem reads_handleStats (tenant : GoString) : Prog.Calls Reading (handleStats srv tenant) :=
  Prog.Calls.bind (Prog.Calls.op trivial) fun _ =>
    Prog.Calls.bind (Prog.Calls.op trivial) fun _ => Prog.Calls.ret _

theorem reads_handleAuditRound (roundID : GoString) :
    Prog.Calls Reading (handleAuditRound srv roundID) := by
  unfold handleAuditRound
  split
  · exact Prog.Calls.ret _
  · refine Prog.Calls.bind (Prog.Calls.op trivial) fun r => ?_
    cases r with
    | error err => exact Prog.Calls.ret _
    | ok entries => exact Prog.Calls.ret _

/-! ### What an entry records -/

/-- What holds of every entry the gateway builds. -/
structure WellFormed (srv : Server) (e : Entry) : Prop where
  tenantID : e.tenantID ≠ []
  gameID : e.gameID ≠ []
  roundID : e.roundID ≠ []
  valueCount : e.valueCount = e.values.length
  nonempty : 1 ≤ e.valueCount
  bounded : e.valueCount ≤ 10000
  range : ∀ v ∈ e.values, e.minValue ≤ v ∧ v ≤ e.maxValue
  signed : ∃ key, srv.keys e.tenantID = .ok key ∧ e.verify srv.crypto key = true

/-- The entry records a result that the body of the route asks for. -/
def Route.Records : Route → Entry → Prop
  | .generate (.ok req), e =>
    (e.tenantID, e.gameID, e.roundID) = (req.tenantID, req.gameID, req.roundID) ∧
      (e.valueCount, e.minValue, e.maxValue) = (req.count, req.min, req.max)
  | .generateBatch (.ok req), e =>
    (e.tenantID, e.gameID, e.roundID) = (req.tenantID, req.gameID, req.roundID) ∧
      ∃ item ∈ req.requests,
        (e.valueCount, e.minValue, e.maxValue) = (item.count, item.min, item.max)
  | .shuffle (.ok req), e =>
    (e.tenantID, e.gameID, e.roundID) = (req.tenantID, req.gameID, req.roundID) ∧
      e.values.Perm req.items
  | _, _ => False

/-- **The entry records a result of the request**, for the tenant that the request
authenticates. -/
structure Records (srv : Server) (req : HttpRequest) (e : Entry) : Prop where
  authenticated : Authenticates srv req.credentials e.tenantID
  wellFormed : WellFormed srv e
  route : req.route.Records e

/-- The response delivers the result that the entry records. -/
structure Backed (e : Entry) (r : GenerateResponse) : Prop where
  requestID : e.requestID = r.requestID
  tenantID : e.tenantID = r.tenantID
  gameID : e.gameID = r.gameID
  roundID : e.roundID = r.roundID
  values : e.values = r.values
  createdAt : e.createdAt = r.timestampUTC
  signature : e.signature = r.signature
  entryHash : e.entryHash = r.auditHash

/-- A shuffled deck as a result. -/
def ShuffleResponse.result (r : ShuffleResponse) : GenerateResponse :=
  ⟨r.requestID, r.tenantID, r.gameID, r.roundID, r.shuffled, r.timestampUTC, r.signature,
    r.auditHash⟩

/-- The results in a body. -/
def Body.results : Body → List GenerateResponse
  | .generate resp => [resp]
  | .batch results => results
  | .shuffle resp => [resp.result]
  | _ => []

/-- Sealing touches nothing that is recorded. -/
theorem WellFormed.sealed {e e' : Entry} (h : WellFormed srv e) (hs : SealOf srv.crypto e e') :
    WellFormed srv e' := by
  rw [hs.1]
  exact ⟨h.1, h.2, h.3, h.4, h.5, h.6, h.7, h.8⟩

theorem Route.Records.sealed {route : Route} {e e' : Entry} (h : route.Records e)
    (hs : SealOf srv.crypto e e') : route.Records e' := by
  rw [hs.1]
  rcases route with (_ | _) | (_ | _) | (_ | _) | _ | _ | _ | _ <;> exact h

theorem Records.sealed {req : HttpRequest} {e e' : Entry} (h : Records srv req e)
    (hs : SealOf srv.crypto e e') : Records srv req e' := by
  refine ⟨?_, h.wellFormed.sealed hs, h.route.sealed hs⟩
  rw [hs.1]
  exact h.authenticated

/-! ### The generator and the trail -/

theorem draws_ledger (q : Ledger) :
    Scaling.Draws (ledger srv.crypto Good) rng (· = q) := by
  rintro q₁ rfl
  exact ledger_quiet (o := .generate 8) trivial q₁

theorem wp_sealEntry {e : Entry} {q : Ledger} (hq : q.held = none) (he : Good e) :
    Prog.WP (ledger srv.crypto Good) (Call.sealEntry e).run (fun r q' => match r with
      | .ok e' => SealOf srv.crypto e e' ∧ q' = { q with held := some e' }
      | .error _ => q' = q) q :=
  Prog.WP.op ⟨hq, he⟩ fun r q' h => by
    cases r with
    | ok e' => exact h
    | error err => exact h

theorem wp_appendEntry {e : Entry} {q : Ledger} (hq : q.held = some e) :
    Prog.WP (ledger srv.crypto Good) (Call.appendEntry e).run
      (fun r q' => q' = ⟨none, q.attempts ++ [(e, r.isOk)]⟩) q :=
  Prog.WP.op hq fun _ _ h => h

/-- **Sealing and appending an entry**, as every handler that draws values does. What
fails leaves nothing sealed behind but what it tried to append. -/
theorem wp_record {ε α : Type} {f f' : GoError → ε} {entry : Entry} {k : Entry → Fallible ε α}
    {post : Except ε α → Ledger → Prop} {q : Ledger} (hq : q.held = none) (hgood : Good entry)
    (herr : ∀ err q', q'.held = none → post (.error (f err)) q' ∧ post (.error (f' err)) q')
    (hok : ∀ e, SealOf srv.crypto entry e →
      Prog.WP (ledger srv.crypto Good) (k e).run post ⟨none, q.attempts ++ [(e, true)]⟩) :
    Prog.WP (ledger srv.crypto Good) (do
      let e ← Prog.mapError f (Call.sealEntry entry)
      Prog.mapError f' (Call.appendEntry e)
      k e : Fallible ε α).run post q := by
  refine Prog.WP.bindE (Prog.WP.mapErrorE ((wp_sealEntry hq hgood).mono ?_))
  rintro r q' hr
  cases r with
  | error err =>
    obtain rfl := hr
    exact (herr err _ hq).1
  | ok e =>
    obtain ⟨hseal, rfl⟩ := hr
    -- the entry is held, and may be appended
    refine Prog.WP.bindE (Prog.WP.mapErrorE ((wp_appendEntry rfl).mono ?_))
    rintro r q' rfl
    cases r with
    | error err => exact (herr err _ rfl).2
    | ok _ => exact hok e hseal

/-- **The values drawn** are as many as asked for, and each of them comes from a number that
`RandRange` returns. -/
theorem wp_drawValues_of {Q : Type} {M : Prog.Model Op Ret Q} {I : Q → Prop} {P : UInt64 → Prop}
    {min : Int64} {span : UInt64}
    (hdraw : ∀ q, I q → Prog.WP M (Scaling.randRange rng span).run
      (fun r q' => I q' ∧ ∀ m, r = .ok m → P m) q) (n : ℕ) {q : Q} (hq : I q) :
    Prog.WP M (drawValues min span n).run (fun r q' => I q' ∧ ∀ values, r = .ok values →
      values.length = n ∧ ∀ v ∈ values, ∃ m, P m ∧ v = min + m.toInt64) q := by
  induction n generalizing q with
  | zero =>
    refine Prog.WP.pureE ⟨hq, fun values hv => ?_⟩
    obtain rfl := Except.ok.inj hv
    exact ⟨rfl, fun v hv => absurd hv List.not_mem_nil⟩
  | succ n ih =>
    refine Prog.WP.bindE (Prog.WP.mapErrorE ((hdraw q hq).mono ?_))
    rintro r q' ⟨hq', hr⟩
    cases r with
    | error err => exact ⟨hq', fun values hv => by cases hv⟩
    | ok m =>
      refine Prog.WP.bindE ((ih hq').mono ?_)
      rintro r q'' ⟨hq'', hrest⟩
      cases r with
      | error err => exact ⟨hq'', fun values hv => by cases hv⟩
      | ok rest =>
        refine Prog.WP.pureE ⟨hq'', fun values hv => ?_⟩
        obtain rfl := Except.ok.inj hv
        obtain ⟨hlen, hmem⟩ := hrest rest rfl
        refine ⟨by rw [List.length_cons, hlen], fun v hv => ?_⟩
        rcases List.mem_cons.mp hv with rfl | hv
        · exact ⟨m, hr m rfl, rfl⟩
        · exact hmem v hv

/-- The values drawn are as many as asked for, and in range. -/
theorem wp_drawValues {min max : Int64} (h : min ≤ max) (n : ℕ) (q : Ledger) :
    Prog.WP (ledger srv.crypto Good) (drawValues min (span min max) n).run
      (fun r q' => q' = q ∧ ∀ values, r = .ok values →
        values.length = n ∧ ∀ v ∈ values, min ≤ v ∧ v ≤ max) q := by
  -- each number is below the span, hence each value in range
  refine (wp_drawValues_of (I := (· = q))
    (fun q' hq' => Scaling.wp_randRange (draws_ledger q) hq') n rfl).mono ?_
  rintro r q' ⟨rfl, hvalues⟩
  refine ⟨rfl, fun values hv => ?_⟩
  obtain ⟨hlen, hmem⟩ := hvalues values hv
  refine ⟨hlen, fun v hv => ?_⟩
  obtain ⟨m, hm, rfl⟩ := hmem v hv
  exact add_toInt64_mem h hm

/-- **One generation.** A generation that succeeds seals and appends one entry, and
delivers it; one that fails leaves nothing sealed behind but what it tried to
append. The entry may be assumed to be built from `count` values in range and
signed with the key of the tenant. -/
theorem wp_generate {tenantID gameID roundID : GoString} {count : ℤ} {min max : Int64} {q : Ledger}
    (hq : q.held = none) (hrange : min ≤ max)
    (hgood : ∀ e : Entry, (e.tenantID, e.gameID, e.roundID) = (tenantID, gameID, roundID) →
      (e.minValue, e.maxValue) = (min, max) → e.valueCount = e.values.length →
      e.values.length = count.toNat → (∀ v ∈ e.values, min ≤ v ∧ v ≤ max) →
      (∃ key, srv.keys tenantID = .ok key ∧ e.verify srv.crypto key = true) → Good e) :
    Prog.WP (ledger srv.crypto Good) (generate srv tenantID gameID roundID count min max).run
      (fun r q' => q'.held = none ∧ ∀ resp, r = .ok resp →
        ∃ e, q'.attempts = q.attempts ++ [(e, true)] ∧ Backed e resp) q := by
  have hfail : ∀ (err : GoError) (q' : Ledger), q'.held = none → q'.held = none ∧
      ∀ resp, (.error err : Except GoError GenerateResponse) = .ok resp →
        ∃ e, q'.attempts = q.attempts ++ [(e, true)] ∧ Backed e resp :=
    fun err q' h => ⟨h, fun resp hr => by cases hr⟩
  -- re-seeding does not touch the trail
  refine Prog.WP.bindE (Prog.WP.mapErrorE ((wp_quiet (quiet_reseedIfNeeded tenantID) q).mono ?_))
  rintro r q' rfl
  cases r with
  | error err => exact hfail _ _ hq
  | ok _ =>
  refine Prog.WP.bindE ((wp_drawValues hrange count.toNat _).mono ?_)
  rintro r q' ⟨rfl, hvalues⟩
  cases r with
  | error err => exact hfail _ _ hq
  | ok values =>
  obtain ⟨hlen, hmem⟩ := hvalues values rfl
  refine Prog.WP.bindE ((wp_quiet (p := Call.newRequestID.run) (Prog.Calls.op trivial) _).mono ?_)
  rintro r q' rfl
  cases r with
  | error err => exact hfail _ _ hq
  | ok reqID =>
  refine Prog.WP.bindE (Prog.WP.liftE
    ((wp_quiet (p := Call.now) (Prog.Calls.op trivial) _).mono ?_))
  rintro now q' rfl
  refine Prog.WP.bindE (Prog.WP.mapErrorE ?_)
  cases hkey : srv.keys tenantID with
  | error err => exact hfail _ _ hq
  | ok key =>
  refine wp_record hq ?_ (fun err q' hq' => ⟨hfail _ _ hq', hfail _ _ hq'⟩) fun e hseal => ?_
  · exact hgood _ rfl rfl rfl hlen hmem ⟨key, hkey, Entry.verify_of_signature rfl⟩
  · refine Prog.WP.pureE ⟨rfl, fun resp hresp => ⟨e, rfl, ?_⟩⟩
    obtain rfl := Except.ok.inj hresp
    rw [hseal.1]
    exact ⟨rfl, rfl, rfl, rfl, rfl, rfl, rfl, rfl⟩

/-- One shuffle: the same for `handleShuffle`, whose entry records a permutation of
the items. -/
theorem wp_shuffleItems {req : ShuffleRequest} {q : Ledger} (hq : q.held = none)
    (hgood : ∀ e : Entry,
      (e.tenantID, e.gameID, e.roundID) = (req.tenantID, req.gameID, req.roundID) →
      e.values.Perm req.items → e.valueCount = e.values.length →
      (∀ v ∈ e.values, e.minValue ≤ v ∧ v ≤ e.maxValue) →
      (∃ key, srv.keys req.tenantID = .ok key ∧ e.verify srv.crypto key = true) → Good e) :
    Prog.WP (ledger srv.crypto Good) (shuffleItems srv req).run
      (fun r q' => q'.held = none ∧ match r with
        | .ok resp => ∃ e, q'.attempts = q.attempts ++ [(e, true)] ∧ Backed e resp.result
        | .error resp => resp.code ≠ 200) q := by
  have herr : ∀ (msg : String) (err : GoError), (internalError msg err).code ≠ 200 := by
    intro msg err h
    cases h
  refine Prog.WP.bindE (Prog.WP.mapErrorE
    ((wp_quiet (quiet_reseedIfNeeded req.tenantID) q).mono ?_))
  rintro r q' rfl
  cases r with
  | error err => exact ⟨hq, herr _ _⟩
  | ok _ =>
  refine Prog.WP.bindE (Prog.WP.mapErrorE
    ((Scaling.wp_shuffle (draws_ledger _) req.items rfl).mono ?_))
  rintro r q' ⟨rfl, hperm⟩
  cases r with
  | error err => exact ⟨hq, herr _ _⟩
  | ok shuffled =>
  refine Prog.WP.bindE (Prog.WP.mapErrorE
    ((wp_quiet (p := Call.newRequestID.run) (Prog.Calls.op trivial) _).mono ?_))
  rintro r q' rfl
  cases r with
  | error err => exact ⟨hq, herr _ _⟩
  | ok reqID =>
  refine Prog.WP.bindE (Prog.WP.liftE
    ((wp_quiet (p := Call.now) (Prog.Calls.op trivial) _).mono ?_))
  rintro now q' rfl
  refine Prog.WP.bindE (Prog.WP.mapErrorE ?_)
  cases hkey : srv.keys req.tenantID with
  | error err => exact ⟨hq, herr _ _⟩
  | ok key =>
  refine wp_record hq ?_ (fun err q' hq' => ⟨⟨hq', herr _ _⟩, ⟨hq', herr _ _⟩⟩) fun e hseal => ?_
  · exact hgood _ rfl (hperm shuffled rfl) rfl (fun v hv => ⟨minInt64_le hv, le_maxInt64 hv⟩)
      ⟨key, hkey, Entry.verify_of_signature rfl⟩
  · refine Prog.WP.pureE ⟨rfl, e, rfl, ?_⟩
    rw [hseal.1]
    exact ⟨rfl, rfl, rfl, rfl, rfl, rfl, rfl, rfl⟩

/-! ### The handlers -/

/-- What a returned request leaves behind: no entry is sealed and not appended, and
a 200 response delivers the entries appended, all of which were stored. -/
def Settles (resp : Response) (q : Ledger) : Prop :=
  q.held = none ∧ (resp.code = 200 →
    (∀ a ∈ q.attempts, a.2 = true) ∧
      List.Forall₂ Backed (q.attempts.map Prod.fst) resp.body.results)

/-- The route draws values: its 200 responses deliver at least one result. -/
def Route.draws : Route → Bool
  | .generate _ => true
  | .generateBatch _ => true
  | .shuffle _ => true
  | _ => false

/-- The postcondition of a route. -/
def Answers (route : Route) (resp : Response) (q : Ledger) : Prop :=
  Settles resp q ∧ (route.draws = true → resp.code = 200 → resp.body.results ≠ [])

theorem Settles.of_error {resp : Response} {q : Ledger} (hq : q.held = none)
    (h : resp.code ≠ 200) : Settles resp q := ⟨hq, fun h200 => absurd h200 h⟩

theorem Answers.of_error {route : Route} {resp : Response} {q : Ledger} (hq : q.held = none)
    (h : resp.code ≠ 200) : Answers route resp q :=
  ⟨Settles.of_error hq h, fun _ h200 => absurd h200 h⟩

theorem Answers.of_writeError {route : Route} {code : ℕ} {msg : String} {cause : Option GoError}
    {q : Ledger} (hq : q.held = none) (h : code ≠ 200) :
    Answers route (writeError code msg cause) q := Answers.of_error hq h

/-- A quiet program that delivers nothing. -/
theorem Answers.of_quiet {route : Route} {resp : Response} (hroute : route.draws = false)
    (h : resp.body.results = []) : Answers route resp Ledger.empty := by
  refine ⟨⟨rfl, fun _ => ⟨by simp [Ledger.empty], ?_⟩⟩, fun hd => by rw [hroute] at hd; cases hd⟩
  rw [h]
  exact List.Forall₂.nil

/-- **Inversion of the validation.** -/
theorem validateGenerateRequest_eq_none {tenantID gameID roundID : GoString} {count : ℤ}
    {min max : Int64}
    (h : validateGenerateRequest tenantID gameID roundID count min max = none) :
    tenantID ≠ [] ∧ gameID ≠ [] ∧ roundID ≠ [] ∧ 1 ≤ count ∧ count ≤ 10000 ∧ min ≤ max := by
  unfold validateGenerateRequest at h
  split at h
  · cases h
  · next h1 =>
    split at h
    · cases h
    · next h2 =>
      split at h
      · cases h
      · next h3 =>
        split at h
        · cases h
        · next h4 =>
          split at h
          · cases h
          · next h5 =>
            rw [not_or, Int.not_le, Int.not_lt] at h4
            exact ⟨h1, h2, h3, h4.1, h4.2, Int64.not_lt.mp h5⟩

variable {req : HttpRequest}

/-- A validated generation builds records of the request. -/
theorem records_of_generate (req : HttpRequest) {tenantID gameID roundID : GoString} {count : ℤ}
    {min max : Int64}
    (hvalid : validateGenerateRequest tenantID gameID roundID count min max = none)
    (hauth : Authenticates srv req.credentials tenantID)
    (hroute : ∀ e : Entry, (e.tenantID, e.gameID, e.roundID) = (tenantID, gameID, roundID) →
      (e.valueCount, e.minValue, e.maxValue) = (count, min, max) → req.route.Records e)
    (e : Entry) (hids : (e.tenantID, e.gameID, e.roundID) = (tenantID, gameID, roundID))
    (hbounds : (e.minValue, e.maxValue) = (min, max)) (hcount : e.valueCount = e.values.length)
    (hlen : e.values.length = count.toNat) (hmem : ∀ v ∈ e.values, min ≤ v ∧ v ≤ max)
    (hsigned : ∃ key, srv.keys tenantID = .ok key ∧ e.verify srv.crypto key = true) :
    Records srv req e := by
  obtain ⟨h1, h2, h3, h4, h5, h6⟩ := validateGenerateRequest_eq_none hvalid
  -- the count of the entry is the count of the request
  have hvalue : e.valueCount = count := by omega
  have hroute' := hroute e hids
  simp only [Prod.mk.injEq] at hids hbounds hroute'
  obtain ⟨rfl, rfl, rfl⟩ := hids
  obtain ⟨rfl, rfl⟩ := hbounds
  exact ⟨hauth, ⟨h1, h2, h3, hcount, by omega, by omega, hmem, hsigned⟩,
    hroute' ⟨hvalue, rfl, rfl⟩⟩

theorem wp_handleGenerate {tenant : GoString} {body : Except GoError GenerateRequest}
    (hauth : Authenticates srv req.credentials tenant) (hreq : req.route = .generate body) :
    Prog.WP (ledger srv.crypto (Records srv req)) (handleGenerate srv tenant body)
      (Answers req.route) Ledger.empty := by
  unfold handleGenerate
  split
  · exact Answers.of_writeError rfl (by decide)
  · next r =>
    split
    · exact Answers.of_writeError rfl (by decide)
    · next hvalid =>
      split
      · exact Answers.of_writeError rfl (by decide)
      · next htenant =>
        obtain rfl := not_not.mp htenant
        -- the entry to be sealed records what the body asks for
        have hgood := records_of_generate req hvalid hauth (fun e hids hvals => by
          rw [hreq]
          exact ⟨hids, hvals⟩)
        obtain ⟨-, -, -, -, -, hrange⟩ := validateGenerateRequest_eq_none hvalid
        refine Prog.WP.bind ((wp_generate rfl hrange hgood).mono ?_)
        rintro res q ⟨hheld, hok⟩
        cases res with
        | error err => exact Answers.of_writeError hheld (by decide)
        | ok resp =>
          obtain ⟨e, hatt, hbacked⟩ := hok resp rfl
          refine ⟨⟨hheld, fun _ => ?_⟩, fun _ _ => List.cons_ne_nil _ _⟩
          rw [hatt]
          exact ⟨by simp [Ledger.empty], List.Forall₂.cons hbacked List.Forall₂.nil⟩

/-- The loop of the batch: the results so far are those of the entries appended so
far. -/
theorem wp_batchLoop {r : BatchRequest} (hauth : Authenticates srv req.credentials r.tenantID)
    (hreq : req.route = .generateBatch (.ok r)) (items : List BatchItem)
    (hitems : items ⊆ r.requests) (results : List GenerateResponse) (es : List Entry)
    (hes : List.Forall₂ Backed es results) (hne : results ≠ [] ∨ items ≠ []) :
    Prog.WP (ledger srv.crypto (Records srv req)) (batchLoop srv r items results)
      (Answers req.route) ⟨none, es.map (·, true)⟩ := by
  induction items generalizing results es with
  | nil =>
    refine ⟨⟨rfl, fun _ => ⟨by simp, ?_⟩⟩, fun _ _ => hne.resolve_right (fun h => h rfl)⟩
    show List.Forall₂ Backed ((es.map (·, true)).map Prod.fst) results
    simpa using hes
  | cons item items ih =>
    unfold batchLoop
    split
    · exact Answers.of_writeError rfl (by decide)
    · next hvalid =>
      -- the entry of this item records one of the items asked for
      have hgood := records_of_generate req hvalid hauth (fun e hids hvals => by
        rw [hreq]
        exact ⟨hids, item, hitems List.mem_cons_self, hvals⟩)
      obtain ⟨-, -, -, -, -, hrange⟩ := validateGenerateRequest_eq_none hvalid
      refine Prog.WP.bind ((wp_generate rfl hrange hgood).mono ?_)
      rintro res q ⟨hheld, hok⟩
      cases res with
      | error err => exact Answers.of_writeError hheld (by decide)
      | ok resp =>
        obtain ⟨e, hatt, hbacked⟩ := hok resp rfl
        -- the loop goes on with one entry and one result more
        have hq : q = ⟨none, (es ++ [e]).map (·, true)⟩ := by
          rw [List.map_append]
          cases q
          simp_all
        rw [hq]
        exact ih (fun x hx => hitems (List.mem_cons_of_mem _ hx)) _ _
          (List.rel_append hes (List.Forall₂.cons hbacked List.Forall₂.nil)) (Or.inl (by simp))

theorem wp_handleGenerateBatch {tenant : GoString} {body : Except GoError BatchRequest}
    (hauth : Authenticates srv req.credentials tenant) (hreq : req.route = .generateBatch body) :
    Prog.WP (ledger srv.crypto (Records srv req)) (handleGenerateBatch srv tenant body)
      (Answers req.route) Ledger.empty := by
  unfold handleGenerateBatch
  split
  · exact Answers.of_writeError rfl (by decide)
  · next r =>
    split
    · exact Answers.of_writeError rfl (by decide)
    · split
      · exact Answers.of_writeError rfl (by decide)
      · next htenant =>
        obtain rfl := not_not.mp htenant
        split
        · exact Answers.of_writeError rfl (by decide)
        · next hne =>
          split
          · exact Answers.of_writeError rfl (by decide)
          · exact wp_batchLoop hauth hreq _ (List.Subset.refl _) [] [] List.Forall₂.nil (Or.inr hne)

theorem wp_handleShuffle {tenant : GoString} {body : Except GoError ShuffleRequest}
    (hauth : Authenticates srv req.credentials tenant) (hreq : req.route = .shuffle body) :
    Prog.WP (ledger srv.crypto (Records srv req)) (handleShuffle srv tenant body)
      (Answers req.route) Ledger.empty := by
  unfold handleShuffle
  split
  · exact Answers.of_writeError rfl (by decide)
  · next r =>
    split
    · exact Answers.of_writeError rfl (by decide)
    · next hids =>
      split
      · exact Answers.of_writeError rfl (by decide)
      · next htenant =>
        obtain rfl := not_not.mp htenant
        split
        · exact Answers.of_writeError rfl (by decide)
        · next hne =>
          split
          · exact Answers.of_writeError rfl (by decide)
          · next hmax =>
            -- the shuffled deck is as long as the items
            have hgood : ∀ e : Entry, (e.tenantID, e.gameID, e.roundID) =
                (r.tenantID, r.gameID, r.roundID) → e.values.Perm r.items →
                e.valueCount = e.values.length → (∀ v ∈ e.values, e.minValue ≤ v ∧ v ≤ e.maxValue) →
                (∃ key, srv.keys r.tenantID = .ok key ∧ e.verify srv.crypto key = true) →
                Records srv req e := by
              intro e heq hperm hcount hmem hsigned
              have hroute : req.route.Records e := by
                rw [hreq]
                exact ⟨heq, hperm⟩
              simp only [Prod.mk.injEq] at heq
              obtain ⟨ht, hg, hr⟩ := heq
              rw [not_or, not_or] at hids
              have hlen := hperm.length_eq
              have hpos := List.length_pos_iff.mpr hne
              refine ⟨ht ▸ hauth, ⟨ht ▸ hids.1, hg ▸ hids.2.1, hr ▸ hids.2.2, hcount, by omega,
                by omega, hmem, ht ▸ hsigned⟩, hroute⟩
            refine Prog.WP.bind ((wp_shuffleItems rfl hgood).mono ?_)
            rintro res q ⟨hheld, hok⟩
            cases res with
            | error resp => exact Answers.of_error hheld hok
            | ok resp =>
              obtain ⟨e, hatt, hbacked⟩ := hok
              refine ⟨⟨hheld, fun _ => ?_⟩, fun _ _ => List.cons_ne_nil _ _⟩
              rw [hatt]
              exact ⟨by simp [Ledger.empty], List.Forall₂.cons hbacked List.Forall₂.nil⟩

/-- A route that only reads delivers nothing. -/
theorem wp_readingRoute {route : Route} {p : Program Response} (hroute : route.draws = false)
    (hp : Prog.Calls Reading p) (hres : Prog.Returns (fun resp => resp.body.results = []) p) :
    Prog.WP (ledger srv.crypto Good) p (Answers route) Ledger.empty := by
  refine ((wp_quiet (hp.mono fun _ => Reading.quiet) Ledger.empty).and_returns hres).mono ?_
  rintro resp q ⟨rfl, h⟩
  exact Answers.of_quiet hroute h

theorem wp_serve {tenant : GoString} (hauth : Authenticates srv req.credentials tenant) :
    Prog.WP (ledger srv.crypto (Records srv req)) (serve srv tenant req.route)
      (Answers req.route) Ledger.empty := by
  cases hroute : req.route with
  | generate body =>
    have h := wp_handleGenerate hauth hroute
    rwa [hroute] at h
  | generateBatch body =>
    have h := wp_handleGenerateBatch hauth hroute
    rwa [hroute] at h
  | shuffle body =>
    have h := wp_handleShuffle hauth hroute
    rwa [hroute] at h
  | health =>
    exact wp_readingRoute rfl reads_handleHealth (Prog.Returns.bind fun _ =>
      Prog.Returns.bind fun _ => Prog.Returns.bind fun _ => Prog.Returns.bind fun _ =>
        Prog.Returns.bind fun _ => rfl)
  | stats =>
    exact wp_readingRoute rfl (reads_handleStats tenant)
      (Prog.Returns.bind fun _ => Prog.Returns.bind fun _ => rfl)
  | auditRound roundID =>
    refine wp_readingRoute rfl (reads_handleAuditRound roundID) ?_
    show Prog.Returns _ (handleAuditRound srv roundID)
    unfold handleAuditRound
    split
    · rfl
    · refine Prog.Returns.bind fun r => ?_
      cases r with
      | error err => rfl
      | ok entries => rfl
  | unrouted reason => cases reason <;> exact Answers.of_writeError rfl (by decide)

/-- **What one request does to the trail**, for any answers of the surroundings. -/
theorem wp_handler (req : HttpRequest) :
    Prog.WP (ledger srv.crypto (Records srv req)) (handler srv req) (Answers req.route)
      Ledger.empty := by
  refine Prog.WP.bind ((wp_extractTenant (I := (· = Ledger.empty)) ?_ rfl).mono ?_)
  · rintro q rfl
    exact ledger_quiet (o := .now) trivial _
  · rintro r q ⟨rfl, hauth⟩
    cases r with
    | error err => exact Answers.of_writeError rfl (by decide)
    | ok tenant =>
      simp only
      split
      · exact Answers.of_writeError rfl (by decide)
      · refine Prog.WP.bind ((wp_quiet (p := Call.allow tenant) (Prog.Calls.op trivial) _).mono ?_)
        rintro allowed q rfl
        split
        · exact wp_serve (hauth tenant rfl)
        · exact Answers.of_writeError rfl (by decide)

/-- The entries a task may append. -/
def Task.Records (srv : Server) : Task → Entry → Prop
  | .request req, e => Gateway.Records srv req e
  | .selfTest _, _ => False

/-- The postcondition of a task. -/
def Task.Answers : Task → Option Response → Ledger → Prop
  | .request req, some resp, q => Gateway.Answers req.route resp q
  | .request _, none, _ => False
  | .selfTest _, none, q => q = Ledger.empty
  | .selfTest _, some _, _ => False

theorem wp_task (t : Task) :
    Prog.WP (ledger srv.crypto (t.Records srv)) (t.program srv) t.Answers Ledger.empty := by
  cases t with
  | request req =>
    exact Prog.WP.bind ((wp_handler req).mono fun resp q h => h)
  | selfTest sampleBytes =>
    exact Prog.WP.bind ((wp_quiet (p := Prog.op (Op.generate (sampleSize sampleBytes)))
      (Prog.Calls.op trivial) _).mono fun _ q h => h)

end Gateway
