import Mathlib
import RngService.Gateway.Middleware

/-!
# The REST gateway

The handlers of `internal/gateway/rest.go` as programs over the operations of
`World`. A request carries the outcome of decoding its body, so every theorem
covers every body; timestamps in responses are instants, their formatting is left
out.

`generate` and `handleShuffle` are the two places where an entry is built, signed,
sealed and appended. `Task` adds the background self test, the other consumer of
the generator.
-/

namespace Gateway

open Audit

/-! ### Requests and responses -/

structure GenerateRequest where
  tenantID : GoString
  gameID : GoString
  roundID : GoString
  count : ℤ
  min : Int64
  max : Int64
  deriving DecidableEq

structure GenerateResponse where
  requestID : GoString
  tenantID : GoString
  gameID : GoString
  roundID : GoString
  values : List Int64
  timestampUTC : Time
  signature : GoString
  auditHash : GoString
  deriving DecidableEq

structure BatchItem where
  count : ℤ
  min : Int64
  max : Int64
  deriving DecidableEq

structure BatchRequest where
  tenantID : GoString
  gameID : GoString
  roundID : GoString
  requests : List BatchItem
  deriving DecidableEq

structure ShuffleRequest where
  tenantID : GoString
  gameID : GoString
  roundID : GoString
  items : List Int64
  deriving DecidableEq

structure ShuffleResponse where
  requestID : GoString
  tenantID : GoString
  gameID : GoString
  roundID : GoString
  shuffled : List Int64
  timestampUTC : Time
  signature : GoString
  auditHash : GoString
  deriving DecidableEq

structure HealthResponse where
  status : String
  entropyPool : String
  csprng : String
  tamperDetection : String
  auditStore : String
  lastReseedUTC : Time
  outputsSinceReseed : UInt64
  binaryHash : GoString
  nistSelftest : Option (List TestResult × Option Time)
  deriving DecidableEq

structure StatsResponse where
  tenantID : GoString
  totalOutputs : UInt64
  binaryHash : GoString
  lastReseedUTC : Time
  deriving DecidableEq

structure AuditResponse where
  roundID : GoString
  entries : List Entry
  hashChainValid : Bool
  chainError : Option GoError
  deriving DecidableEq

/-- The body of a response. An error is a text, followed by the text of its cause. -/
inductive Body
  | error (msg : String) (cause : Option GoError)
  | generate (resp : GenerateResponse)
  | batch (results : List GenerateResponse)
  | shuffle (resp : ShuffleResponse)
  | health (resp : HealthResponse)
  | stats (resp : StatsResponse)
  | audit (resp : AuditResponse)
  deriving DecidableEq

structure Response where
  code : ℕ
  body : Body
  deriving DecidableEq

/-- `writeError`. -/
def writeError (code : ℕ) (msg : String) (cause : Option GoError) : Response :=
  ⟨code, .error msg cause⟩

/-- `writeError` with status 500 and the text of an error. -/
def internalError (msg : String) (err : GoError) : Response := writeError 500 msg (some err)

/-- Why `ServeMux` calls none of the handlers. -/
inductive Unrouted
  /-- no route has the path -/
  | notFound
  /-- the routes with the path have other methods -/
  | methodNotAllowed
  /-- the path is not the one that `cleanPath` makes of it -/
  | uncleanPath
  /-- the target of the request is `*` -/
  | noPath

/-- The answer of `ServeMux` itself. -/
def Unrouted.answer : Unrouted → Response
  | .notFound => writeError 404 "404 page not found" none
  | .methodNotAllowed => writeError 405 "Method Not Allowed" none
  | .uncleanPath => writeError 301 "Moved Permanently" none
  | .noPath => writeError 400 "" none

/-- The routes; a body comes as the outcome of decoding it. -/
inductive Route
  /-- `POST /v1/generate` -/
  | generate (body : Except GoError GenerateRequest)
  /-- `POST /v1/generate/batch` -/
  | generateBatch (body : Except GoError BatchRequest)
  /-- `POST /v1/generate/shuffle` -/
  | shuffle (body : Except GoError ShuffleRequest)
  /-- `GET /v1/health` -/
  | health
  /-- `GET /v1/stats` -/
  | stats
  /-- `GET /v1/audit/{round_id}` -/
  | auditRound (roundID : GoString)
  /-- `ServeMux` answers itself -/
  | unrouted (reason : Unrouted)

structure HttpRequest where
  credentials : Credentials
  route : Route

variable (srv : Server)

/-! ### Core generation logic -/

/-- The re-seed policy does not ask for a re-seed. The second comparison is only
made when the first one succeeds. -/
def reseedNotDue : Program Bool := do
  let outputs ← Call.outputBytes
  if outputs < srv.cfg.intervalOutputs then
    let last ← Call.lastReseed
    let now ← Call.now
    return decide (now - last < srv.cfg.intervalSeconds)
  else return false

/-- The part of `reseedIfNeeded` under the lock. -/
def reseedLocked (tenantID : GoString) : Fallible GoError Unit := do
  if ← reseedNotDue srv then return ()
  let outputs ← Call.outputBytes
  let entropy ← Call.collectForReseed Csprng.seedLen tenantID outputs
  Call.reseed entropy
  let now ← Call.now
  Call.setLastReseed now

/-- `reseedIfNeeded`. The lock is released on every way out. -/
def reseedIfNeeded (tenantID : GoString) : Fallible GoError Unit := do
  if ← reseedNotDue srv then return ()
  ExceptT.mk do
    Call.lockReseed
    let r ← (reseedLocked srv tenantID).run
    Call.unlockReseed
    return r

/-- `validateGenerateRequest`. -/
def validateGenerateRequest (tenantID gameID roundID : GoString) (count : ℤ) (min max : Int64) :
    Option GoError :=
  if tenantID = [] then some (.errorf "tenant_id is required" [])
  else if gameID = [] then some (.errorf "game_id is required" [])
  else if roundID = [] then some (.errorf "round_id is required" [])
  else if count ≤ 0 ∨ 10000 < count then
    some (.errorf "count must be between 1 and 10000, got %d" [.int count])
  else if max < min then
    some (.errorf "min (%d) must be <= max (%d)" [.int min.toInt, .int max.toInt])
  else none

/-- `uint64(max-min) + 1`. -/
def span (min max : Int64) : UInt64 := (max - min).toUInt64 + 1

/-- The loop of `generate` that draws `n` values. -/
def drawValues (min : Int64) (span : UInt64) : ℕ → Fallible GoError (List Int64)
  | 0 => pure []
  | n + 1 => do
    let v ← Prog.mapError (.wrap "generate value: %w" []) (Scaling.randRange rng span)
    let rest ← drawValues min span n
    return (min + v.toInt64) :: rest

/-- `generate`. -/
def generate (tenantID gameID roundID : GoString) (count : ℤ) (min max : Int64) :
    Fallible GoError GenerateResponse := do
  Prog.mapError (.wrap "reseed: %w" []) (reseedIfNeeded srv tenantID)
  let values ← drawValues min (span min max) count.toNat
  let reqID ← Call.newRequestID
  let now ← Call.now
  let sigKey ← Prog.mapError (.wrap "signing key: %w" []) (ofExcept (srv.keys tenantID))
  let entry : Entry :=
    { entryHash := [], prevHash := [], tenantID, gameID, roundID, requestID := reqID, values,
      valueCount := values.length, minValue := min, maxValue := max, signature := [],
      createdAt := now, reseedEvent := false }
  let entry := entry.sign srv.crypto sigKey
  let entry ← Prog.mapError (.wrap "audit seal: %w" []) (Call.sealEntry entry)
  Prog.mapError (.wrap "audit store: %w" []) (Call.appendEntry entry)
  return { requestID := reqID, tenantID, gameID, roundID, values, timestampUTC := now,
           signature := entry.signature, auditHash := entry.entryHash }

/-! ### Handlers -/

/-- `handleGenerate`. -/
def handleGenerate (tenant : GoString) (body : Except GoError GenerateRequest) :
    Program Response :=
  match body with
  | .error err => .ret (writeError 400 "invalid JSON: " err)
  | .ok req =>
    match validateGenerateRequest req.tenantID req.gameID req.roundID req.count req.min req.max with
    | some err => .ret (writeError 400 "" err)
    | none =>
      if tenant ≠ req.tenantID then .ret (writeError 403 "tenant_id mismatch" none)
      else do
        match ← (generate srv req.tenantID req.gameID req.roundID req.count req.min req.max).run
        with
        | .error err => return internalError "" err
        | .ok resp => return ⟨200, .generate resp⟩

/-- The loop of `handleGenerateBatch` over the items left. -/
def batchLoop (req : BatchRequest) :
    List BatchItem → List GenerateResponse → Program Response
  | [], results => .ret ⟨200, .batch results⟩
  | item :: items, results =>
    match validateGenerateRequest req.tenantID req.gameID req.roundID item.count item.min item.max
    with
    | some err => .ret (writeError 400 "" err)
    | none => do
      match ← (generate srv req.tenantID req.gameID req.roundID item.count item.min item.max).run
      with
      | .error err => return internalError "" err
      | .ok resp => batchLoop req items (results ++ [resp])

/-- `handleGenerateBatch`. -/
def handleGenerateBatch (tenant : GoString) (body : Except GoError BatchRequest) :
    Program Response :=
  match body with
  | .error err => .ret (writeError 400 "invalid JSON: " err)
  | .ok req =>
    if req.tenantID = [] ∨ req.gameID = [] ∨ req.roundID = [] then
      .ret (writeError 400 "tenant_id, game_id, round_id are required" none)
    else if tenant ≠ req.tenantID then .ret (writeError 403 "tenant_id mismatch" none)
    else if req.requests = [] then .ret (writeError 400 "requests must not be empty" none)
    else if 100 < req.requests.length then
      .ret (writeError 400 "requests exceeds max batch size of 100" none)
    else batchLoop srv req req.requests []

/-- `minInt64`. -/
def minInt64 : List Int64 → Int64
  | [] => 0
  | v :: rest => rest.foldl (fun m v => if v < m then v else m) v

/-- `maxInt64`. -/
def maxInt64 : List Int64 → Int64
  | [] => 0
  | v :: rest => rest.foldl (fun m v => if m < v then v else m) v

/-- The part of `handleShuffle` after its checks; an early return is a thrown
response. `int` has 64 bits, so the deck holds the items themselves. -/
def shuffleItems (req : ShuffleRequest) : Fallible Response ShuffleResponse := do
  Prog.mapError (internalError "reseed failed: ") (reseedIfNeeded srv req.tenantID)
  let shuffled ← Prog.mapError (internalError "shuffle failed: ")
    (Scaling.shuffle rng req.items)
  let reqID ← Prog.mapError (internalError "request ID: ") Call.newRequestID
  let now ← Call.now
  let sigKey ← Prog.mapError (internalError "signing key: ")
    (ofExcept (srv.keys req.tenantID))
  let entry : Entry :=
    { entryHash := [], prevHash := [], tenantID := req.tenantID, gameID := req.gameID,
      roundID := req.roundID, requestID := reqID, values := shuffled,
      valueCount := shuffled.length, minValue := minInt64 shuffled, maxValue := maxInt64 shuffled,
      signature := [], createdAt := now, reseedEvent := false }
  let entry := entry.sign srv.crypto sigKey
  let entry ← Prog.mapError (internalError "audit seal: ") (Call.sealEntry entry)
  Prog.mapError (internalError "audit store: ") (Call.appendEntry entry)
  return { requestID := reqID, tenantID := req.tenantID, gameID := req.gameID,
           roundID := req.roundID, shuffled, timestampUTC := now, signature := entry.signature,
           auditHash := entry.entryHash }

/-- `handleShuffle`. -/
def handleShuffle (tenant : GoString) (body : Except GoError ShuffleRequest) : Program Response :=
  match body with
  | .error err => .ret (writeError 400 "invalid JSON: " err)
  | .ok req =>
    if req.tenantID = [] ∨ req.gameID = [] ∨ req.roundID = [] then
      .ret (writeError 400 "tenant_id, game_id, round_id are required" none)
    else if tenant ≠ req.tenantID then .ret (writeError 403 "tenant_id mismatch" none)
    else if req.items = [] then .ret (writeError 400 "items must not be empty" none)
    else if 10000 < req.items.length then
      .ret (writeError 400 "items exceeds max size of 10000" none)
    else do
      match ← (shuffleItems srv req).run with
      | .error resp => return resp
      | .ok resp => return ⟨200, .shuffle resp⟩

/-- `overall`. -/
def overall (statuses : List String) : String := if statuses.all (· = "ok") then "ok" else "error"

/-- The part of `handleHealth` that checks the binary: the status and the hash. -/
def tamperStatus : Program (String × GoString) :=
  match srv.checker with
  | none => .ret ("ok", srv.cfg.binaryHash)
  | some startupHash => do
    let err ← Call.verifyBinary
    return (if err.isSome then "TAMPER_DETECTED" else "ok", startupHash)

/-- The part of `handleHealth` that reports the self tests. `HasCriticalFailure`
reads the results a second time. -/
def selfTestStatus (status : String) :
    Program (Option (List TestResult × Option Time) × String) :=
  if srv.selfTester then do
    let report ← Call.selfTestResults
    let latest ← Call.selfTestResults
    return (some report, if latest.1.any (·.status = .fail) then "error" else status)
  else .ret (none, status)

/-- `handleHealth`. -/
def handleHealth : Program Response := do
  let err ← Call.healthCheck
  let csprngStatus := if err.isSome then "error" else "ok"
  let tamper ← tamperStatus srv
  let lastReseed ← Call.lastReseed
  let outputs ← Call.outputBytes
  let selfTests ← selfTestStatus srv (overall [csprngStatus, tamper.1])
  return ⟨200, .health
    { status := selfTests.2, entropyPool := "ok", csprng := csprngStatus,
      tamperDetection := tamper.1, auditStore := "ok", lastReseedUTC := lastReseed,
      outputsSinceReseed := outputs, binaryHash := tamper.2, nistSelftest := selfTests.1 }⟩

/-- `handleStats`. -/
def handleStats (tenant : GoString) : Program Response := do
  let outputs ← Call.outputBytes
  let lastReseed ← Call.lastReseed
  return ⟨200, .stats { tenantID := tenant, totalOutputs := outputs,
                        binaryHash := srv.cfg.binaryHash, lastReseedUTC := lastReseed }⟩

/-- The body of `handleAuditRound`, from the entries of the round. -/
def auditResponse (roundID : GoString) (entries : List Entry) : AuditResponse :=
  match entries with
  | [] => ⟨roundID, [], false, none⟩
  | e :: _ =>
    let (idx, err) := verifyEntries srv.crypto entries e.prevHash
    ⟨roundID, entries, idx == -1 && err.isNone, err⟩

/-- `handleAuditRound`. -/
def handleAuditRound (roundID : GoString) : Program Response :=
  if roundID = [] then .ret (writeError 400 "round_id is required" none)
  else do
    match ← (Call.getByRound roundID).run with
    | .error err => return internalError "" err
    | .ok entries => return ⟨200, .audit (auditResponse srv roundID entries)⟩

/-- The routes, for an authenticated tenant. -/
def serve (tenant : GoString) : Route → Program Response
  | .generate body => handleGenerate srv tenant body
  | .generateBatch body => handleGenerateBatch srv tenant body
  | .shuffle body => handleShuffle srv tenant body
  | .health => handleHealth srv
  | .stats => handleStats srv tenant
  | .auditRound roundID => handleAuditRound srv roundID
  | .unrouted reason => .ret reason.answer

/-- `Handler`: authentication, then the rate limit, then the routes. -/
def handler (req : HttpRequest) : Program Response := do
  match ← (extractTenant srv req.credentials).run with
  | .error err => return writeError 401 "unauthorized: " err
  | .ok tenant =>
    if tenant = [] then return writeError 401 "missing tenant" none
    else if ← Call.allow tenant then serve srv tenant req.route
    else return writeError 429 "rate limit exceeded" none

/-! ### The range of a value

`span` and the sum `min + int64(n)` wrap around in 64 bits; the value is in the
requested range all the same. -/

theorem toInt_eq (x : Int64) : x.toInt = if x.toBitVec.toNat < 2 ^ 63 then (x.toBitVec.toNat : ℤ)
    else x.toBitVec.toNat - 2 ^ 64 := by
  have h : x.toInt = x.toBitVec.toInt := rfl
  rw [h, BitVec.toInt_eq_toNat_cond]
  split <;> split <;> omega

/-- The span wraps to 0, or it is the number of integers in the range. -/
theorem toNat_span {min max : Int64} (h : min ≤ max) :
    span min max = 0 ∨ ((span min max).toNat : ℤ) = max.toInt - min.toInt + 1 := by
  -- both sides as residues of natural numbers
  have hspan : (span min max).toNat
      = ((2 ^ 64 - min.toBitVec.toNat + max.toBitVec.toNat) % 2 ^ 64 + 1) % 2 ^ 64 := rfl
  have hmin := min.toBitVec.isLt
  have hmax := max.toBitVec.isLt
  rw [Int64.le_iff_toInt_le] at h
  rw [← UInt64.toNat_inj, hspan, UInt64.toNat_zero]
  simp only [toInt_eq] at h ⊢
  generalize min.toBitVec.toNat = x at *
  generalize max.toBitVec.toNat = y at *
  split at h <;> split at h <;> omega

/-- **A value drawn below the span is its offset above the minimum.** -/
theorem toInt_add_toInt64 {min max : Int64} (h : min ≤ max) {n : UInt64} (hn : n < span min max) :
    (min + n.toInt64).toInt = min.toInt + n.toNat := by
  have hspan : (span min max).toNat
      = ((2 ^ 64 - min.toBitVec.toNat + max.toBitVec.toNat) % 2 ^ 64 + 1) % 2 ^ 64 := rfl
  have hsum : (min + n.toInt64).toBitVec.toNat = (min.toBitVec.toNat + n.toNat) % 2 ^ 64 := rfl
  have hmin := min.toBitVec.isLt
  have hmax := max.toBitVec.isLt
  have hn64 := n.toNat_lt
  rw [UInt64.lt_iff_toNat_lt, hspan] at hn
  rw [Int64.le_iff_toInt_le] at h
  simp only [toInt_eq, hsum] at h ⊢
  -- the signs of the bounds decide which way the sum wraps
  generalize min.toBitVec.toNat = x at *
  generalize max.toBitVec.toNat = y at *
  generalize n.toNat = k at *
  split at h <;> split at h <;> omega

/-- A value drawn below the span is in range. -/
theorem add_toInt64_mem {min max : Int64} (h : min ≤ max) {n : UInt64} (hn : n < span min max) :
    min ≤ min + n.toInt64 ∧ min + n.toInt64 ≤ max := by
  have hlt := UInt64.lt_iff_toNat_lt.mp hn
  rw [Int64.le_iff_toInt_le, Int64.le_iff_toInt_le, toInt_add_toInt64 h hn]
  rcases toNat_span h with h0 | hspan
  · rw [h0, UInt64.toNat_zero] at hlt
    omega
  · omega

/-- A fold that picks one of two items each time ends up related to all of them. -/
theorem foldl_pick {R : Int64 → Int64 → Prop} (htrans : ∀ {a b c}, R a b → R b c → R a c)
    {f : Int64 → Int64 → Int64} (hrefl : ∀ a, R a a) (hf : ∀ m v, R (f m v) m ∧ R (f m v) v)
    (rest : List Int64) (m : Int64) :
    R (rest.foldl f m) m ∧ ∀ v ∈ rest, R (rest.foldl f m) v := by
  induction rest generalizing m with
  | nil => exact ⟨hrefl m, by simp⟩
  | cons x rest ih =>
    rw [List.foldl_cons]
    obtain ⟨hm, hrest⟩ := ih (f m x)
    refine ⟨htrans hm (hf m x).1, ?_⟩
    intro v hv
    rcases List.mem_cons.mp hv with rfl | hv
    · exact htrans hm (hf m _).2
    · exact hrest v hv

/-- The smallest item of a list is below all of them. -/
theorem minInt64_le {l : List Int64} {v : Int64} (hv : v ∈ l) : minInt64 l ≤ v := by
  cases l with
  | nil => cases hv
  | cons x rest =>
    obtain ⟨hx, hrest⟩ := foldl_pick (R := (· ≤ ·)) Int64.le_trans Int64.le_refl
      (f := fun m v => if v < m then v else m) (fun m v => by
        split
        · next h => exact ⟨Int64.le_of_lt h, Int64.le_refl v⟩
        · next h => exact ⟨Int64.le_refl m, Int64.not_lt.mp h⟩) rest x
    rcases List.mem_cons.mp hv with rfl | hv
    · exact hx
    · exact hrest v hv

/-- The largest item of a list is above all of them. -/
theorem le_maxInt64 {l : List Int64} {v : Int64} (hv : v ∈ l) : v ≤ maxInt64 l := by
  cases l with
  | nil => cases hv
  | cons x rest =>
    obtain ⟨hx, hrest⟩ := foldl_pick (R := fun a b => b ≤ a) (fun h h' => Int64.le_trans h' h)
      Int64.le_refl (f := fun m v => if m < v then v else m) (fun m v => by
        split
        · next h => exact ⟨Int64.le_of_lt h, Int64.le_refl v⟩
        · next h => exact ⟨Int64.le_refl m, Int64.not_lt.mp h⟩) rest x
    rcases List.mem_cons.mp hv with rfl | hv
    · exact hx
    · exact hrest v hv

/-! ### Tasks -/

/-- What runs on the server: a request, or a self test of a sample of bytes. -/
inductive Task
  | request (req : HttpRequest)
  | selfTest (sampleBytes : UInt64)

/-- The sample size `NewSelfTester` settles on. -/
def sampleSize (sampleBytes : UInt64) : UInt64 := if sampleBytes < 1250 then 1250 else sampleBytes

/-- The calls of a task; a self test draws its sample and answers nobody. -/
def Task.program : Task → Program (Option Response)
  | .request req => handler srv req >>= fun resp => .ret (some resp)
  | .selfTest sampleBytes => Prog.op (Op.generate (sampleSize sampleBytes)) >>= fun _ => .ret none

end Gateway
