import Mathlib
import RngService.Config.Load
import RngService.Entropy.Pool
import RngService.Gateway.Faults
import RngService.Health.Binary

/-!
# The serve command

`runServe` of `cmd/rng-service/main.go`, from its start to the moment when it listens: what it
reads is a `Machine`, what it makes is a `Service`. The tickers that it starts afterwards are
those of `Configuration.Config.tickers`.

`runServe_cases` says in which ways the start can end. No check of the generator or of the
signing key ever stops it: the seed that was collected is long enough, and a key that is not
set is replaced by the one in the source. So a `Service` meets what the results about runs of
the gateway ask of it, and `service_status` holds of every service that has started, without
a condition.
-/

namespace Serve

open Audit Gateway Prog

/-- What `runServe` finds. -/
structure Machine where
  environ : Configuration.Environ
  executable : Health.Executable
  sources : Entropy.Sources
  /-- the instant at which the server is made -/
  now : Time

/-- `log.Fatalf`, with its format and its error. -/
structure Fatal where
  format : String
  err : GoError
  deriving DecidableEq

/-- A service that listens. -/
structure Service (F : Type) where
  cfg : Configuration.Config F
  srv : Server
  world : World Csprng.DRBG

/-- `signingKeyFromEnv` -/
def signingKeyFromEnv (environ : Configuration.Environ) : Bytes :=
  let raw := environ "RNG_SIGNING_KEY"
  if 32 ≤ raw.length then raw
  -- a literal of 31 bytes, copied into 32
  else (ascii "dev-signing-key-not-for-prod!!!" ++ List.replicate 32 0).take 32

section

variable {F : Type} (parseFloat : GoString → Except GoError F) (aes : Csprng.BlockCipher)
  (crypto : Crypto) (codec : Codec) (buildHash : GoString) (m : Machine)

/-- The seed of the generator: `CollectForReseed`, for the tenant `system`. -/
def collectSeed (cfg : Configuration.Config F) :
    Option (Except GoError (Bytes × Entropy.ReseedEvent)) :=
  (Entropy.Pool.mk cfg.hwrngPath).collectForReseed crypto Csprng.seedLen (ascii "system") 0
    m.sources

/-- `runServe`. It does not go on as long as the pool waits for its sources. -/
def runServe : Option (Except Fatal (Service F)) :=
  match Configuration.load parseFloat m.environ with
  | .error err => some (.error ⟨"config: %v", err⟩)
  | .ok cfg =>
    match Health.newChecker crypto buildHash m.executable with
    | .error err => some (.error ⟨"CRITICAL: %v", err⟩)
    | .ok checker =>
      match collectSeed crypto m cfg with
      | none => none
      | some (.error err) => some (.error ⟨"entropy: %v", err⟩)
      | some (.ok (seed, _)) =>
        match Csprng.new aes seed with
        | .error err => some (.error ⟨"csprng: %v", err⟩)
        | .ok drbg =>
          match newStaticKeyStore [(ascii "*", signingKeyFromEnv m.environ)] with
          | .error err => some (.error ⟨"keystore: %v", err⟩)
          | .ok keys =>
            let srv : Server :=
              { cfg := cfg.gateway buildHash, keys := keys.signingKey, crypto, codec,
                checker := some checker.startupHash, selfTester := true }
            some (.ok ⟨cfg, srv, World.new drbg m.now⟩)

end

/-! ### The signing key -/

theorem length_signingKeyFromEnv (environ : Configuration.Environ) :
    32 ≤ (signingKeyFromEnv environ).length := by
  have hdev : ((ascii "dev-signing-key-not-for-prod!!!" ++ List.replicate 32 0).take 32).length
      = 32 := by decide
  simp only [signingKeyFromEnv]
  split
  · next h => exact h
  · exact hdev.ge

/-- The key store is made, and has the key for every tenant. -/
theorem newStaticKeyStore_wildcard {key : Bytes} (h : 32 ≤ key.length) :
    ∃ keys, newStaticKeyStore [(ascii "*", key)] = .ok keys ∧ ∀ t, keys.signingKey t = .ok key := by
  have hfind : [(ascii "*", key)].find? (fun k => decide (k.2.length < 32)) = none := by
    rw [List.find?_eq_none]
    intro k hk
    rw [List.mem_singleton.mp hk, decide_eq_true_eq]
    exact not_lt.mpr h
  have hstar : [(ascii "*", key)].lookup [42] = some key := List.lookup_cons_self
  unfold newStaticKeyStore
  split
  · next heq =>
    rw [hfind] at heq
    cases heq
  · refine ⟨_, rfl, fun t => ?_⟩
    rw [StaticKeyStore.signingKey]
    -- a tenant finds its own key or that of the wildcard, which is the same
    by_cases ht : t = [42]
    · rw [ht, hstar]
    · have hnone : [(ascii "*", key)].lookup t = none := by
        rw [List.lookup_cons, beq_false_of_ne (show t ≠ ascii "*" from ht)]
        rfl
      rw [hnone, hstar]

/-! ### The ways in which the start can end -/

section

variable {F : Type} {parseFloat : GoString → Except GoError F} {aes : Csprng.BlockCipher}
  {crypto : Crypto} {codec : Codec} {buildHash : GoString} {m : Machine}

/-- What holds of a service that has started. -/
structure Started (parseFloat : GoString → Except GoError F) (aes : Csprng.BlockCipher)
    (crypto : Crypto) (codec : Codec) (buildHash : GoString) (m : Machine) (svc : Service F) :
    Prop where
  /-- its configuration is the one that was read -/
  config : Configuration.load parseFloat m.environ = .ok svc.cfg ∧
    svc.srv.cfg = svc.cfg.gateway buildHash
  /-- its binary is the one that was built, or the build is for development -/
  binary : ∃ hash, svc.srv.checker = some hash ∧
    Health.computeBinaryHash crypto m.executable = .ok hash ∧
    (buildHash = Health.devBuildHash ∨ buildHash = [] ∨ hash = buildHash)
  /-- every tenant has a signing key, which is long enough -/
  keys : ∀ t, svc.srv.keys t = .ok (signingKeyFromEnv m.environ)
  /-- it is built on the functions given -/
  functions : svc.srv.crypto = crypto ∧ svc.srv.codec = codec
  /-- its generator comes from a seed that was collected, and nothing has happened yet -/
  seeded : ∃ seed event drbg, collectSeed crypto m svc.cfg = some (.ok (seed, event)) ∧
    seed.length = Csprng.seedLen ∧ Csprng.new aes seed = .ok drbg ∧
    svc.world = World.new drbg m.now

/-- **The ways in which the start can end.** A number of the configuration cannot be read, the
binary is not the one that was built or cannot be read, `getrandom` fails, or the service
starts. -/
theorem runServe_cases {r : Except Fatal (Service F)}
    (h : runServe parseFloat aes crypto codec buildHash m = some r) :
    (∃ err, r = .error ⟨"config: %v", err⟩ ∧ Configuration.NamesNumber err) ∨
    (∃ err, r = .error ⟨"CRITICAL: %v", err⟩ ∧
      Health.newChecker crypto buildHash m.executable = .error err) ∨
    (∃ err, r = .error ⟨"entropy: %v", err⟩ ∧
      Entropy.RandomFails m.sources Csprng.seedLen) ∨
    ∃ svc, r = .ok svc ∧ Started parseFloat aes crypto codec buildHash m svc := by
  unfold runServe at h
  cases hload : Configuration.load parseFloat m.environ with
  | error err =>
    rw [hload] at h
    exact Or.inl ⟨err, (Option.some.inj h).symm, Configuration.load_fails hload⟩
  | ok cfg =>
  cases hchecker : Health.newChecker crypto buildHash m.executable with
  | error err =>
    simp only [hload, hchecker] at h
    exact Or.inr (Or.inl ⟨err, (Option.some.inj h).symm, rfl⟩)
  | ok checker =>
  cases hcollect : collectSeed crypto m cfg with
  | none => simp only [hload, hchecker, hcollect] at h; cases h
  | some x =>
  cases x with
  | error err =>
    simp only [hload, hchecker, hcollect] at h
    exact Or.inr (Or.inr (Or.inl ⟨err, (Option.some.inj h).symm,
      Entropy.collectForReseed_fails_iff.mp ⟨err, hcollect⟩⟩))
  | ok x =>
  obtain ⟨seed, event⟩ := x
  -- the seed is long enough, and so is the signing key
  obtain ⟨-, hseed, -⟩ := Entropy.collectForReseed_eq_ok hcollect
  have hnew : Csprng.new aes seed = .ok _ := if_neg (not_lt.mpr hseed.ge)
  obtain ⟨keys, hkeys, hall⟩ := newStaticKeyStore_wildcard (length_signingKeyFromEnv m.environ)
  simp only [hload, hchecker, hcollect, hnew, hkeys] at h
  obtain ⟨hembedded, hhash, hsame⟩ := Health.newChecker_eq_ok.mp hchecker
  refine Or.inr (Or.inr (Or.inr ⟨_, (Option.some.inj h).symm, ⟨hload, rfl⟩, ⟨_, rfl, hhash, ?_⟩,
    hall, ⟨rfl, rfl⟩, seed, event, _, hcollect, hseed, hnew, rfl⟩))
  rw [Health.Checker.isDev, decide_eq_true_eq, hembedded, or_assoc] at hsame
  exact hsame

/-- **The responses of a service that has started**: in every interleaving, and whatever fails,
the status of a response is determined by its own request and by what has happened in its own
calls. -/
theorem service_status {svc : Service F} {tasks : List Task} {sched : List (ℕ × Env)}
    {c : Tasks Csprng.DRBG}
    (hstart : runServe parseFloat aes crypto codec buildHash m = some (.ok svc))
    (hrun : Pool.run (exec (Device.drbg aes) svc.srv.crypto) Pool.anyOrder sched
      (start svc.srv tasks svc.world) = some c) {i : ℕ} {resp : Response}
    (hthread : c.threads[i]? = some (ret (some resp))) :
    ∃ req, tasks[i]? = some (.request req) ∧
      resp.code = verdict svc.srv req (mishaps i c.trace) := by
  rcases runServe_cases hstart with ⟨err, hr, -⟩ | ⟨err, hr, -⟩ | ⟨err, hr, -⟩ | ⟨svc', hr, hsvc⟩
  · cases hr
  · cases hr
  · cases hr
  · obtain rfl := Except.ok.inj hr
    obtain ⟨seed, event, drbg, -, -, -, hworld⟩ := hsvc.seeded
    refine status_determined (fun t => ⟨_, hsvc.keys t⟩) ?_ hrun hthread
    rw [hworld]
    exact sealable_newChain

end

/-! ### A small machine -/

/-- A machine with the API keys `k` of the tenant `a` and `l` of the tenant `b`, and a seed of
ones. -/
def smallMachine : Machine where
  environ key := if key = "RNG_API_KEYS" then [107, 58, 97, 44, 108, 58, 98] else []
  executable :=
    { linux := true, readlink := .ok [47], executable := .ok [47], openErr := fun _ => none,
      contents := fun _ => .ok [1] }
  sources :=
    { getrandom := [.ok (List.replicate 48 1)], openErr := none, hwrng := [], now := 0 }
  now := 0

/-- The service of the small machine, in a development build. -/
def smallService : Option (Except Fatal (Service ℚ)) :=
  runServe (fun _ => .ok 100) (fun _ block => block) Crypto.std smallServer.codec
    Health.devBuildHash smallMachine

/-- One request of each tenant. -/
def smallTasks : List Task :=
  [.request (smallRequest [107] [97] [114]), .request (smallRequest [108] [98] [114])]

/-- The two requests cross, and the append of the first one fails. -/
def smallServed (svc : Service ℚ) : Option (Tasks Csprng.DRBG) :=
  Pool.run (exec (Device.drbg fun _ block => block) svc.srv.crypto) Pool.anyOrder
    (turns 0 7 ++ turns 1 7 ++ [(0, { appendErr := some (.text "disk full") })] ++ turns 1 1)
    (start svc.srv smallTasks svc.world)

/-- The first request fails, which the second one does not see. -/
theorem service_status_failed_append : ∃ svc c, smallService = some (.ok svc) ∧
    smallServed svc = some c ∧ c.threads.map answeredWith = [some 500, some 200] ∧
    ∀ i resp, c.threads[i]? = some (ret (some resp)) → ∃ req,
      smallTasks[i]? = some (.request req) ∧
        resp.code = verdict svc.srv req (mishaps i c.trace) := by
  have h : (smallService.bind Except.toOption).map (fun svc => (smallServed svc).map fun c =>
      c.threads.map answeredWith) = some (some [some 500, some 200]) := by
    decide +kernel
  obtain ⟨svc, hsvc, hserved⟩ := Option.map_eq_some_iff.mp h
  obtain ⟨c, hc, hcodes⟩ := Option.map_eq_some_iff.mp hserved
  have hstart : smallService = some (.ok svc) := by
    obtain ⟨r, hr, hok⟩ := Option.bind_eq_some_iff.mp hsvc
    cases r with
    | error err => cases hok
    | ok svc' => rw [hr, Option.some.inj hok]
  exact ⟨svc, c, hstart, hc, hcodes, fun i resp =>
    @service_status ℚ (fun _ => .ok 100) (fun _ block => block) Crypto.std smallServer.codec
      Health.devBuildHash smallMachine svc smallTasks _ c hstart hc i resp⟩

end Serve
