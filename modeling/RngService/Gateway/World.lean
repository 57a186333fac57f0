import Mathlib
import RngService.Audit.Store
import RngService.Csprng.Drbg
import RngService.Scaling.Range

/-!
# The operations of the gateway

The handlers of `internal/gateway` are programs over the operations listed here:
every read or write of state that requests share, every clock reading and every
call that the surroundings may let fail is one atomic operation. Each of them is
one critical section or one atomic access of the source.

`exec` gives the operations their meaning on a `World`, the mutable state behind a
`Server`. The generator is a `Device`, so that a theorem can be about any
generator; `Device.drbg` is the one the service runs with. What the model does not
determine (the clock, the entropy source, the system generator, failures of the
store, the rate limiter, the state of the binary and of the self tests) comes from
the environment input `Env` of the operation.
-/

namespace Gateway

open Audit

/-- The verdict of a self test. -/
inductive Status
  | pass
  | warnLow
  | warnHigh
  | fail
  deriving DecidableEq

/-- `TestResult`. The p-value is a finite `float64`, given by its exact value. -/
structure TestResult where
  name : String
  pValue : ℚ
  status : Status
  deriving DecidableEq

/-- The atomic operations. -/
inductive Op
  /-- `time.Now()` -/
  | now
  /-- read `s.lastReseed` -/
  | lastReseed
  /-- write `s.lastReseed` -/
  | setLastReseed (t : Time)
  /-- `s.reseedMu.Lock()` -/
  | lockReseed
  /-- `s.reseedMu.Unlock()` -/
  | unlockReseed
  /-- `s.drbg.OutputBytes()` -/
  | outputBytes
  /-- `s.drbg.Generate(n)` -/
  | generate (n : UInt64)
  /-- `s.drbg.Reseed(entropy)` -/
  | reseed (entropy : Bytes)
  /-- `s.drbg.HealthCheck()` -/
  | healthCheck
  /-- `s.pool.CollectForReseed(size, tenantID, outputsSince)` -/
  | collectForReseed (size : ℕ) (tenantID : GoString) (outputsSince : UInt64)
  /-- `audit.NewRequestID()` -/
  | newRequestID
  /-- `s.chain.Seal(entry)` -/
  | sealEntry (entry : Entry)
  /-- `s.store.Append(ctx, entry)` -/
  | appendEntry (entry : Entry)
  /-- `s.store.GetByRound(ctx, roundID)` -/
  | getByRound (roundID : GoString)
  /-- `rl.allow(tenant)` -/
  | allow (tenant : GoString)
  /-- `s.checker.Verify()` -/
  | verifyBinary
  /-- `s.selfTester.Results()` -/
  | selfTestResults

/-- The answers of the operations. -/
abbrev Ret : Op → Type
  | .now => Time
  | .lastReseed => Time
  | .setLastReseed _ => Unit
  | .lockReseed => Unit
  | .unlockReseed => Unit
  | .outputBytes => UInt64
  | .generate _ => Except GoError Bytes
  | .reseed _ => Except GoError Unit
  | .healthCheck => Option GoError
  | .collectForReseed .. => Except GoError Bytes
  | .newRequestID => Except GoError GoString
  | .sealEntry _ => Except GoError Entry
  | .appendEntry _ => Except GoError Unit
  | .getByRound _ => Except GoError (List Entry)
  | .allow _ => Bool
  | .verifyBinary => Option GoError
  | .selfTestResults => List TestResult × Option Time

/-- Programs over the operations. -/
abbrev Program (α : Type) := Prog Op Ret α

/-- Programs that may fail with an error of type `ε`. -/
abbrev Fallible (ε α : Type) := ExceptT ε Program α

/-! ### The operations as programs -/

def Call.now : Program Time := Prog.op Op.now

def Call.lastReseed : Program Time := Prog.op Op.lastReseed

def Call.setLastReseed (t : Time) : Program Unit := Prog.op (Op.setLastReseed t)

def Call.lockReseed : Program Unit := Prog.op Op.lockReseed

def Call.unlockReseed : Program Unit := Prog.op Op.unlockReseed

def Call.outputBytes : Program UInt64 := Prog.op Op.outputBytes

def Call.reseed (entropy : Bytes) : Fallible GoError Unit :=
  ExceptT.mk (Prog.op (Op.reseed entropy))

def Call.healthCheck : Program (Option GoError) := Prog.op Op.healthCheck

def Call.collectForReseed (size : ℕ) (tenantID : GoString) (outputsSince : UInt64) :
    Fallible GoError Bytes :=
  ExceptT.mk (Prog.op (Op.collectForReseed size tenantID outputsSince))

def Call.newRequestID : Fallible GoError GoString := ExceptT.mk (Prog.op Op.newRequestID)

def Call.sealEntry (entry : Entry) : Fallible GoError Entry :=
  ExceptT.mk (Prog.op (Op.sealEntry entry))

def Call.appendEntry (entry : Entry) : Fallible GoError Unit :=
  ExceptT.mk (Prog.op (Op.appendEntry entry))

def Call.getByRound (roundID : GoString) : Fallible GoError (List Entry) :=
  ExceptT.mk (Prog.op (Op.getByRound roundID))

def Call.allow (tenant : GoString) : Program Bool := Prog.op (Op.allow tenant)

def Call.verifyBinary : Program (Option GoError) := Prog.op Op.verifyBinary

def Call.selfTestResults : Program (List TestResult × Option Time) := Prog.op Op.selfTestResults

/-- A computed error or value, as a program that may fail. -/
abbrev ofExcept {ε α : Type} (r : Except ε α) : Fallible ε α := ExceptT.mk (.ret r)

/-- The generator as the scaling functions see it. -/
def rng : Scaling.RNG Op Ret := ⟨.generate, id⟩

/-- What the surroundings contribute to one operation. -/
structure Env where
  /-- the instant of the operation -/
  now : Time := 0
  /-- the outcome of `entropy.Pool.Read` -/
  entropy : Except GoError Bytes := .ok []
  /-- the outcome of `crypto/rand.Read` -/
  random : Except GoError (ByteVec 16) := .ok Csprng.zeroBlock
  /-- the failure of an append, if it fails -/
  appendErr : Option GoError := none
  /-- the failure of a query, if it fails -/
  queryErr : Option GoError := none
  /-- the decision of the rate limiter -/
  allow : Bool := true
  /-- the failure of the binary check, if it fails -/
  tamper : Option GoError := none
  /-- the last results of the self tests -/
  selfTests : List TestResult × Option Time := ([], none)

/-- A generator with a state `D`. -/
structure Device (D : Type) where
  generate : UInt64 → D → Except GoError Bytes × D
  reseed : Bytes → D → Except GoError Unit × D
  outputBytes : D → UInt64
  healthCheck : D → Option GoError

/-- The generator of the service. -/
def Device.drbg (aes : Csprng.BlockCipher) : Device Csprng.DRBG where
  generate n d := let (b, d') := d.generate aes n; (.ok b, d')
  reseed entropy d := match d.reseed aes entropy with
    | .ok d' => (.ok (), d')
    | .error err => (.error err, d)
  outputBytes d := d.outputBytes
  healthCheck d := d.healthCheck

/-- The mutable state behind a `Server`. -/
structure World (D : Type) where
  drbg : D
  chain : Chain
  store : InMemoryStore
  lastReseed : Time
  /-- `reseedMu` is held -/
  reseedMu : Bool

/-- The state of a new server, with an empty store. -/
def World.new {D : Type} (drbg : D) (now : Time) : World D :=
  ⟨drbg, newChain, InMemoryStore.new, now, false⟩

variable {D : Type}

/-- **The meaning of the operations.** -/
def exec (dev : Device D) (crypto : Crypto) : Sem Op Ret Env (World D)
  | .now, e, w => some (e.now, w)
  | .lastReseed, _, w => some (w.lastReseed, w)
  | .setLastReseed t, _, w => some ((), { w with lastReseed := t })
  | .lockReseed, _, w => if w.reseedMu then none else some ((), { w with reseedMu := true })
  | .unlockReseed, _, w => some ((), { w with reseedMu := false })
  | .outputBytes, _, w => some (dev.outputBytes w.drbg, w)
  | .generate n, _, w => let (r, d) := dev.generate n w.drbg; some (r, { w with drbg := d })
  | .reseed entropy, _, w =>
    let (r, d) := dev.reseed entropy w.drbg; some (r, { w with drbg := d })
  | .healthCheck, _, w => some (dev.healthCheck w.drbg, w)
  | .collectForReseed size _ _, e, w =>
    some (match e.entropy with
      | .ok b => .ok (b.take size ++ List.replicate (size - b.length) 0)
      | .error err => .error (.wrap "entropy: collect for reseed: %w" [] err), w)
  | .newRequestID, e, w => some (e.random.map Audit.newRequestID, w)
  | .sealEntry entry, _, w =>
    let (r, chain) := w.chain.seal crypto entry; some (r, { w with chain := chain })
  | .appendEntry entry, e, w =>
    match e.appendErr with
    | some err => some (.error err, w)
    | none =>
      match w.store.append entry with
      | (some err, store) => some (.error err, { w with store := store })
      | (none, store) => some (.ok (), { w with store := store })
  | .getByRound roundID, e, w =>
    some (match e.queryErr with
      | some err => .error err
      | none => .ok (w.store.getByRound roundID), w)
  | .allow _, e, w => some (e.allow, w)
  | .verifyBinary, e, w => some (e.tamper, w)
  | .selfTestResults, e, w => some (e.selfTests, w)

end Gateway
