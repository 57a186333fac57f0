import Mathlib
import RngService.Gateway.Token
import RngService.Go.Strings

/-!
# The configuration

`Load` and `parseAPIKeys` of `internal/config/config.go`. The environment is a function from
names to values, empty for a variable that is not set. `ParseFloat` is a parameter, and so is
the type of its results.

`Load` fails where a number cannot be read, and the error names its variable (`load_fails`).
It takes every number that can be read, while the service multiplies two of them by a second in
an `int64` and makes tickers of one of these intervals. `runnable_iff` says which numbers of
seconds the service can be run with.
-/

namespace Configuration

open Gateway (ascii)

/-- `Port` -/
structure Port where
  rest : GoString
  grpc : GoString
  metrics : GoString

/-- `Reseed`. A `time.Duration` is an `int64` of nanoseconds. -/
structure Reseed where
  intervalOutputs : UInt64
  intervalSeconds : Int64

/-- `DB` -/
structure DB where
  url : GoString
  retentionYears : Int64

/-- `TLS` -/
structure TLS where
  certPath : GoString
  keyPath : GoString
  caPath : GoString

/-- `SelfTest` -/
structure SelfTest where
  intervalSeconds : Int64
  sampleSize : UInt64

/-- `Config`, with the `float64` of the rate limit in `F`. -/
structure Config (F : Type) where
  env : GoString
  port : Port
  binaryHash : GoString
  reseed : Reseed
  algorithm : GoString
  db : DB
  signingKeyPath : GoString
  hwrngPath : GoString
  tls : TLS
  selfTest : SelfTest
  jwtSecret : GoString
  /-- from keys to tenants; the first entry of a key counts -/
  apiKeys : List (GoString × GoString)
  rateLimitRPS : F

/-- The environment of the process. -/
abbrev Environ := String → GoString

/-- `getEnv` -/
def getEnv (environ : Environ) (key defaultVal : String) : GoString :=
  let v := environ key
  if v ≠ [] then v else ascii defaultVal

/-- One segment of `parseAPIKeys`, written into the map. -/
def addPair (m : List (GoString × GoString)) (pair : GoString) : List (GoString × GoString) :=
  let pair := Strings.trimSpace pair
  if pair = [] then m
  else match Strings.splitN pair 58 2 with
    | [key, tenant] => (key, tenant) :: m
    | _ => m

/-- `parseAPIKeys` -/
def parseAPIKeys (raw : GoString) : List (GoString × GoString) :=
  (Strings.split raw 44).foldl addPair []

/-- A number read from the variable `key`. -/
def parsed {α : Type} (environ : Environ) (key defaultVal : String)
    (parse : GoString → Except GoError α) : Except GoError α :=
  match parse (getEnv environ key defaultVal) with
  | .ok x => .ok x
  | .error err => .error (.wrap ("config: " ++ key ++ ": %w") [] err)

/-- `time.Second` -/
def second : Int64 := 1000000000

variable {F : Type} (parseFloat : GoString → Except GoError F) (environ : Environ)

/-- `secs`, in `Load` -/
def parsedSecs : Except GoError Int64 :=
  parsed environ "RNG_RESEED_INTERVAL_SECONDS" "3600" Strconv.parseInt

/-- `stSecs`, in `Load` -/
def parsedSTSecs : Except GoError Int64 :=
  parsed environ "RNG_SELFTEST_INTERVAL_SECONDS" "3600" Strconv.parseInt

/-- `Load` -/
def load : Except GoError (Config F) := do
  let n ← parsed environ "RNG_RESEED_INTERVAL_OUTPUTS" "1000000" Strconv.parseUint
  let secs ← parsedSecs environ
  let ret ← parsed environ "RNG_AUDIT_RETENTION_YEARS" "5" Strconv.atoi
  let stSecs ← parsedSTSecs environ
  let stSample ← parsed environ "RNG_SELFTEST_SAMPLE_SIZE" "10000" Strconv.parseUint
  let rps ← parsed environ "RNG_RATE_LIMIT_RPS" "100" parseFloat
  return {
    env := getEnv environ "RNG_ENV" "development"
    port := {
      rest := getEnv environ "RNG_PORT_REST" "2080"
      grpc := getEnv environ "RNG_PORT_GRPC" "2081"
      metrics := getEnv environ "RNG_METRICS_PORT" "9090" }
    binaryHash := getEnv environ "RNG_BINARY_HASH" "dev-build"
    reseed := { intervalOutputs := n, intervalSeconds := secs * second }
    algorithm := getEnv environ "RNG_ALGORITHM" "aes-256-ctr-drbg"
    db := { url := getEnv environ "DATABASE_URL" "", retentionYears := ret }
    signingKeyPath := getEnv environ "RNG_SIGNING_KEY_PATH" ""
    hwrngPath := getEnv environ "RNG_HWRNG_PATH" ""
    tls := {
      certPath := getEnv environ "RNG_TLS_CERT_PATH" ""
      keyPath := getEnv environ "RNG_TLS_KEY_PATH" ""
      caPath := getEnv environ "RNG_TLS_CA_PATH" "" }
    selfTest := { intervalSeconds := stSecs * second, sampleSize := stSample }
    jwtSecret := getEnv environ "RNG_JWT_SECRET" ""
    apiKeys := parseAPIKeys (getEnv environ "RNG_API_KEYS" "")
    rateLimitRPS := rps }

/-- What `runServe` hands to the gateway; it sets the binary hash itself. -/
def Config.gateway (c : Config F) (binaryHash : GoString) : Gateway.Config where
  jwtSecret := c.jwtSecret
  apiKeys := c.apiKeys
  intervalOutputs := c.reseed.intervalOutputs
  intervalSeconds := c.reseed.intervalSeconds.toInt
  binaryHash := binaryHash

/-- `time.NewTicker`, with the text of its panic. -/
def newTicker (d : Int64) : Except String Unit :=
  if d ≤ 0 then .error "non-positive interval for NewTicker" else .ok ()

/-- The intervals of the tickers that `runServe` makes: in `SelfTester.Start`, for the check of
the binary, and for the metrics. -/
def Config.tickers (c : Config F) : List Int64 :=
  [c.selfTest.intervalSeconds, 300 * second, c.selfTest.intervalSeconds]

/-! ### What `Load` accepts -/

variable {parseFloat environ}

theorem getEnv_empty (environ : Environ) (key : String) : getEnv environ key "" = environ key := by
  by_cases h : environ key = []
  · rw [h]
    simp [getEnv, h, ascii]
  · exact if_pos h

/-- The error of a number that cannot be read names its variable. -/
theorem parsed_eq_error {α : Type} {key defaultVal : String}
    {parse : GoString → Except GoError α} {err : GoError}
    (h : parsed environ key defaultVal parse = .error err) :
    ∃ cause, parse (getEnv environ key defaultVal) = .error cause ∧
      err = .wrap ("config: " ++ key ++ ": %w") [] cause := by
  unfold parsed at h
  cases hparse : parse (getEnv environ key defaultVal) with
  | ok x => rw [hparse] at h; cases h
  | error cause =>
    rw [hparse] at h
    exact ⟨cause, rfl, (Except.error.inj h).symm⟩

theorem bind_eq_ok {α β : Type} {x : Except GoError α} {f : α → Except GoError β} {y : β} :
    x >>= f = .ok y ↔ ∃ a, x = .ok a ∧ f a = .ok y := by
  cases x <;> simp [bind, Except.bind]

theorem bind_eq_error {α β : Type} {x : Except GoError α} {f : α → Except GoError β}
    {err : GoError} :
    x >>= f = .error err ↔ x = .error err ∨ ∃ a, x = .ok a ∧ f a = .error err := by
  cases x <;> simp [bind, Except.bind]

/-- The variables that hold a number. -/
def numbers : List String := ["RNG_RESEED_INTERVAL_OUTPUTS", "RNG_RESEED_INTERVAL_SECONDS",
  "RNG_AUDIT_RETENTION_YEARS", "RNG_SELFTEST_INTERVAL_SECONDS", "RNG_SELFTEST_SAMPLE_SIZE",
  "RNG_RATE_LIMIT_RPS"]

/-- The error is that of a variable that holds a number. -/
def NamesNumber (err : GoError) : Prop :=
  ∃ key ∈ numbers, ∃ cause, err = .wrap ("config: " ++ key ++ ": %w") [] cause

theorem names_of_parsed {α : Type} {key defaultVal : String}
    {parse : GoString → Except GoError α} {err : GoError} (hkey : key ∈ numbers)
    (h : parsed environ key defaultVal parse = .error err) : NamesNumber err := by
  obtain ⟨cause, -, herr⟩ := parsed_eq_error h
  exact ⟨key, hkey, cause, herr⟩

/-- **A failure of `Load`** names the variable of a number that cannot be read. -/
theorem load_fails {err : GoError} (h : load parseFloat environ = .error err) :
    NamesNumber err := by
  unfold load at h
  rcases bind_eq_error.mp h with h | ⟨n, -, h⟩
  · exact names_of_parsed (by simp [numbers]) h
  rcases bind_eq_error.mp h with h | ⟨secs, -, h⟩
  · exact names_of_parsed (by simp [numbers]) h
  rcases bind_eq_error.mp h with h | ⟨ret, -, h⟩
  · exact names_of_parsed (by simp [numbers]) h
  rcases bind_eq_error.mp h with h | ⟨stSecs, -, h⟩
  · exact names_of_parsed (by simp [numbers]) h
  rcases bind_eq_error.mp h with h | ⟨stSample, -, h⟩
  · exact names_of_parsed (by simp [numbers]) h
  rcases bind_eq_error.mp h with h | ⟨rps, -, h⟩
  · exact names_of_parsed (by simp [numbers]) h
  · cases h

/-- **What `Load` sets**: the intervals are products of the numbers it has read, and the keys
are those of the list. -/
theorem load_ok {c : Config F} (h : load parseFloat environ = .ok c) :
    (∃ secs stSecs, parsedSecs environ = .ok secs ∧ parsedSTSecs environ = .ok stSecs ∧
      c.reseed.intervalSeconds = secs * second ∧ c.selfTest.intervalSeconds = stSecs * second) ∧
    c.apiKeys = parseAPIKeys (environ "RNG_API_KEYS") := by
  unfold load at h
  obtain ⟨n, -, h⟩ := bind_eq_ok.mp h
  obtain ⟨secs, hsecs, h⟩ := bind_eq_ok.mp h
  obtain ⟨ret, -, h⟩ := bind_eq_ok.mp h
  obtain ⟨stSecs, hstSecs, h⟩ := bind_eq_ok.mp h
  obtain ⟨stSample, -, h⟩ := bind_eq_ok.mp h
  obtain ⟨rps, -, h⟩ := bind_eq_ok.mp h
  obtain rfl := Except.ok.inj h
  refine ⟨⟨secs, stSecs, hsecs, hstSecs, rfl, rfl⟩, congrArg parseAPIKeys ?_⟩
  exact getEnv_empty environ "RNG_API_KEYS"

/-! ### What can be run -/

/-- The configuration can be run: the intervals are the seconds that were read, and no ticker
panics. -/
structure Runnable (c : Config F) (secs stSecs : Int64) : Prop where
  reseed : c.reseed.intervalSeconds.toInt = secs.toInt * 10 ^ 9
  selfTest : c.selfTest.intervalSeconds.toInt = stSecs.toInt * 10 ^ 9
  tickers : ∀ d ∈ c.tickers, newTicker d = .ok ()

/-- A number of seconds that is an `int64` in nanoseconds. -/
theorem toInt_mul_second (s : Int64) : (s * second).toInt = s.toInt * 10 ^ 9 ↔
    -9223372036 ≤ s.toInt ∧ s.toInt ≤ 9223372036 := by
  have hsecond : second.toInt = 10 ^ 9 := by decide
  constructor
  · intro h
    have hlow := (s * second).le_toInt
    have hhigh := (s * second).toInt_lt
    omega
  · rintro ⟨hlow, hhigh⟩
    rw [Int64.toInt_mul, hsecond]
    exact Int.bmod_eq_of_le (by omega) (by omega)

theorem newTicker_eq_ok {d : Int64} : newTicker d = .ok () ↔ 0 < d.toInt := by
  unfold newTicker
  split
  · next h =>
    have hle := Int64.le_iff_toInt_le.mp h
    exact iff_of_false (by simp) (not_lt.mpr hle)
  · next h =>
    have hlt := Int64.lt_iff_toInt_lt.mp (Int64.not_le.mp h)
    exact iff_of_true rfl hlt

/-- **An accepted configuration can be run** when both numbers of seconds fit into an `int64` of
nanoseconds, and that of the self tests is positive. -/
theorem runnable_iff {F : Type} (parseFloat : GoString → Except GoError F) (environ : Environ)
    {c : Config F} (h : load parseFloat environ = .ok c) :
    ∃ secs stSecs, parsedSecs environ = .ok secs ∧ parsedSTSecs environ = .ok stSecs ∧
      (Runnable c secs stSecs ↔
        (-9223372036 ≤ secs.toInt ∧ secs.toInt ≤ 9223372036) ∧
          1 ≤ stSecs.toInt ∧ stSecs.toInt ≤ 9223372036) := by
  obtain ⟨⟨secs, stSecs, hsecs, hstSecs, hreseed, hselfTest⟩, -⟩ := load_ok h
  refine ⟨secs, stSecs, hsecs, hstSecs, ?_⟩
  have hminutes : newTicker (300 * second) = .ok () := by decide
  constructor
  · rintro ⟨hr, hst, htickers⟩
    rw [hreseed, toInt_mul_second] at hr
    have hpos := newTicker_eq_ok.mp (htickers _ List.mem_cons_self)
    rw [hst] at hpos
    rw [hselfTest, toInt_mul_second] at hst
    exact ⟨hr, by omega, hst.2⟩
  · rintro ⟨hr, hlow, hhigh⟩
    have hst := (toInt_mul_second stSecs).mpr ⟨by omega, hhigh⟩
    rw [← hselfTest] at hst
    have hticker : newTicker c.selfTest.intervalSeconds = .ok () := by
      rw [newTicker_eq_ok, hst]
      omega
    refine ⟨hreseed ▸ (toInt_mul_second secs).mpr hr, hst, fun d hd => ?_⟩
    rcases List.mem_cons.mp hd with rfl | hd
    · exact hticker
    rcases List.mem_cons.mp hd with rfl | hd
    · exact hminutes
    · exact List.mem_singleton.mp hd ▸ hticker

/-- Nothing is set, and the rate limit is read as a hundred. -/
theorem runnable_iff_defaults : ∃ c : Config ℚ,
    load (fun _ => .ok 100) (fun _ => []) = .ok c ∧ Runnable c 3600 3600 := by
  obtain ⟨secs, stSecs, hsecs, hstSecs, hiff⟩ :=
    runnable_iff (F := ℚ) (fun _ => .ok 100) (fun _ => []) rfl
  obtain rfl : 3600 = secs := Except.ok.inj hsecs
  obtain rfl : 3600 = stSecs := Except.ok.inj hstSecs
  exact ⟨_, rfl, hiff.mpr (by decide)⟩

/-- `RNG_SELFTEST_INTERVAL_SECONDS=0` -/
def zeroInterval : Environ := fun key =>
  if key = "RNG_SELFTEST_INTERVAL_SECONDS" then [48] else []

/-- **An interval of zero is accepted**, and the ticker of the self tests panics. -/
theorem zero_interval_panics : ∃ c : Config ℚ, load (fun _ => .ok 100) zeroInterval = .ok c ∧
    parsedSecs zeroInterval = .ok 3600 ∧ parsedSTSecs zeroInterval = .ok 0 ∧
    newTicker c.selfTest.intervalSeconds = .error "non-positive interval for NewTicker" ∧
    ¬ Runnable c 3600 0 := by
  refine ⟨_, rfl, rfl, rfl, rfl, fun hrun => ?_⟩
  exact absurd (hrun.tickers _ List.mem_cons_self) (by decide)

end Configuration
