import Mathlib
import RngService.Gateway.Trail

/-!
# The tokens that are accepted

`validateJWT` of `internal/gateway/middleware.go` reads the claims of a token out of a
`map[string]any` by dynamic type assertions: `claims["exp"].(float64)` and
`claims["sub"].(string)`. `Decoders.codec` is the codec that does this, over abstract
base64 and JSON decoders.

A missing `sub` is an error, but a missing `exp` skips the check of the expiry:
`accepts_authentic_iff` says exactly when every accepted token is an authentic one.
-/

namespace Gateway

open Audit

/-- The bytes of an ASCII text. -/
def ascii (s : String) : GoString := s.toList.map fun c => UInt8.ofNat c.toNat

/-! ### The payload of a token -/

/-- A JSON value as `encoding/json` decodes it into an `any`. A number is a finite
`float64`, given by its exact value. -/
inductive Json
  | null
  | bool (b : Bool)
  | number (q : ℚ)
  | string (s : GoString)
  | array (values : List Json)
  | object (fields : List (GoString × Json))

/-- A `map[string]any`; the JSON `null` decodes to the nil map, which is empty. -/
abbrev JsonObject := List (GoString × Json)

/-- The decoders a payload goes through. -/
structure Decoders where
  /-- `base64.RawURLEncoding.DecodeString` -/
  decodeBase64 : GoString → Except GoError Bytes
  /-- `json.Unmarshal` into a `map[string]any` -/
  unmarshal : Bytes → Except GoError JsonObject
  /-- `int64(f)` for an `f` outside the range of `int64`, which is up to the platform -/
  outOfRange : ℚ → Int64

namespace Decoders

/-- The conversion `int64(f)` of a `float64`: it rounds towards zero. -/
def int64 (d : Decoders) (f : ℚ) : Int64 :=
  let n := if 0 ≤ f then ⌊f⌋ else ⌈f⌉
  if -2 ^ 63 ≤ n ∧ n < 2 ^ 63 then Int64.ofInt n else d.outOfRange f

/-- The two type assertions on the claims. -/
def claims (d : Decoders) (fields : JsonObject) : Claims where
  exp := match fields.lookup (ascii "exp") with
    | some (.number exp) => some (d.int64 exp)
    | _ => none
  sub := match fields.lookup (ascii "sub") with
    | some (.string sub) => some sub
    | _ => none

/-- The codec of the service. -/
def codec (d : Decoders) : Codec where
  decodeBase64 := d.decodeBase64
  unmarshalClaims b := (d.unmarshal b).map d.claims

end Decoders

/-- The server that decodes with `d`. -/
def Server.withDecoders (srv : Server) (d : Decoders) : Server := { srv with codec := d.codec }

variable (srv : Server) (d : Decoders)

/-- The token carries the fields under the signature of the secret. -/
def Carries (tokenStr : GoString) (fields : JsonObject) : Prop :=
  ∃ header payload signature json, srv.cfg.jwtSecret ≠ [] ∧
    tokenStr.splitOn 46 = [header, payload, signature] ∧
    d.decodeBase64 signature
      = .ok (srv.crypto.hmac srv.cfg.jwtSecret (signingInput header payload)).1 ∧
    d.decodeBase64 payload = .ok json ∧ d.unmarshal json = .ok fields

/-- **The token is authentic** for the tenant at the instant `t`: it is signed, its `sub` is
the tenant, and it has a numeric `exp` that the clock has not passed. -/
def Authentic (tokenStr tenant : GoString) (t : Time) : Prop :=
  ∃ fields exp, Carries srv d tokenStr fields ∧
    fields.lookup (ascii "sub") = some (.string tenant) ∧ tenant ≠ [] ∧
    fields.lookup (ascii "exp") = some (.number exp) ∧ (t.unix : ℚ) ≤ exp

/-- The expiry of a payload is checked: it is a number, and the conversion to `int64` does not
take it past the clock. -/
def ChecksExpiry (fields : JsonObject) (t : Time) : Prop :=
  ∃ exp, fields.lookup (ascii "exp") = some (.number exp) ∧
    (t.unix ≤ (d.int64 exp).toInt → (t.unix : ℚ) ≤ exp)

/-- At the instant `t` the server accepts the token for the tenant. -/
def Accepts {D : Type} (dev : Device D) (w : World D) (tokenStr tenant : GoString) (t : Time) :
    Prop :=
  ∃ es w', (∀ e ∈ es, e.now = t) ∧
    Prog.run (exec dev srv.crypto) es (validateJWT srv tokenStr).run w = some (.ok tenant, w')

/-! ### Acceptance -/

variable {srv d} {tokenStr tenant : GoString} {t : Time} {D : Type} {dev : Device D} {w : World D}

theorem sub_claims {fields : JsonObject} :
    (d.claims fields).sub = some tenant ↔
      fields.lookup (ascii "sub") = some (.string tenant) := by
  unfold Decoders.claims
  constructor
  · intro h
    simp only at h
    split at h
    · next sub hsub => rw [hsub, Option.some.inj h]
    · cases h
  · intro h
    rw [h]

theorem exp_claims {fields : JsonObject} {exp : Int64} :
    (d.claims fields).exp = some exp ↔
      ∃ f, fields.lookup (ascii "exp") = some (.number f) ∧ exp = d.int64 f := by
  unfold Decoders.claims
  constructor
  · intro h
    simp only at h
    split at h
    · next f hf => exact ⟨f, hf, (Option.some.inj h).symm⟩
    · cases h
  · rintro ⟨f, hf, rfl⟩
    rw [hf]

theorem parseJWT_withDecoders {claims : Claims} :
    parseJWT (srv.withDecoders d) tokenStr = .ok claims ↔
      ∃ fields, Carries srv d tokenStr fields ∧ claims = d.claims fields := by
  rw [parseJWT_eq_ok]
  constructor
  · rintro ⟨header, payload, signature, json, hsecret, hsplit, hsig, hpay, hjson⟩
    cases hfields : d.unmarshal json with
    | error err =>
      have hmap : (d.unmarshal json).map d.claims = .ok claims := hjson
      rw [hfields] at hmap
      cases hmap
    | ok fields =>
      have hmap : (d.unmarshal json).map d.claims = .ok claims := hjson
      rw [hfields] at hmap
      exact ⟨fields, ⟨header, payload, signature, json, hsecret, hsplit, hsig, hpay, hfields⟩,
        (Except.ok.inj hmap).symm⟩
  · rintro ⟨fields, ⟨header, payload, signature, json, hsecret, hsplit, hsig, hpay, hfields⟩, rfl⟩
    refine ⟨header, payload, signature, json, hsecret, hsplit, hsig, hpay, ?_⟩
    have hmap : (srv.withDecoders d).codec.unmarshalClaims json
        = (d.unmarshal json).map d.claims := rfl
    rw [hmap, hfields]
    rfl

/-- The token check as a tree of calls: it reads the clock if there is an expiry. -/
theorem validateJWT_run {claims : Claims} (h : parseJWT srv tokenStr = .ok claims) :
    (validateJWT srv tokenStr).run = match claims.exp with
      | none => .ret claims.subject
      | some exp => .call .now (fun _ => false) fun now =>
        .ret (if exp.toInt < Time.unix now then .error (.text "JWT expired")
          else claims.subject) := by
  obtain ⟨exp, sub⟩ := claims
  unfold validateJWT
  rw [h]
  cases exp with
  | none => rfl
  | some exp =>
    refine congrArg (Prog.call Op.now fun _ => false) (funext fun now => ?_)
    split
    · next hlt => exact congrArg ExceptT.run (if_pos hlt)
    · next hge => exact congrArg ExceptT.run (if_neg hge)

/-- A token carries one payload. -/
theorem Carries.unique {fields fields' : JsonObject} (h : Carries srv d tokenStr fields)
    (h' : Carries srv d tokenStr fields') : fields = fields' := by
  obtain ⟨header, payload, signature, json, -, hsplit, -, hpay, hfields⟩ := h
  obtain ⟨header', payload', signature', json', -, hsplit', -, hpay', hfields'⟩ := h'
  rw [hsplit] at hsplit'
  cases hsplit'
  rw [hpay] at hpay'
  cases hpay'
  rw [hfields] at hfields'
  exact Except.ok.inj hfields'

/-- A program that makes no call returns what it holds. -/
theorem runsAt_ret {res : Except GoError GoString} :
    (∃ es w', (∀ e ∈ es, e.now = t) ∧
      Prog.run (exec dev srv.crypto) es (.ret res) w = some (.ok tenant, w')) ↔
    res = .ok tenant := by
  constructor
  · rintro ⟨es, w', -, h⟩
    exact (congrArg Prod.fst (Prog.run_ret.mp h).2).symm
  · rintro rfl
    exact ⟨[], w, fun e he => absurd he List.not_mem_nil, Prog.run_ret.mpr ⟨rfl, rfl⟩⟩

/-- A program that reads the clock goes on with the instant. -/
theorem runsAt_now {k : Time → Prog Op Ret (Except GoError GoString)} :
    (∃ es w', (∀ e ∈ es, e.now = t) ∧ Prog.run (exec dev srv.crypto) es
      (.call .now (fun _ => false) k) w = some (.ok tenant, w')) ↔
    ∃ es w', (∀ e ∈ es, e.now = t) ∧
      Prog.run (exec dev srv.crypto) es (k t) w = some (.ok tenant, w') := by
  constructor
  · rintro ⟨es, w', hes, h⟩
    cases es with
    | nil => cases h
    | cons e es =>
      obtain ⟨now, w₁, hnow, hrest⟩ := Prog.run_cons_call.mp h
      obtain ⟨rfl, rfl⟩ := Prod.mk.inj (Option.some.inj hnow)
      have hclock : e.now = t := hes e List.mem_cons_self
      rw [hclock] at hrest
      exact ⟨es, w', fun e' he' => hes e' (List.mem_cons_of_mem e he'), hrest⟩
  · rintro ⟨es, w', hes, h⟩
    refine ⟨{ now := t } :: es, w', List.forall_mem_cons.mpr ⟨rfl, hes⟩, ?_⟩
    exact Prog.run_cons_call.mpr ⟨t, w, rfl, h⟩

/-- **What the server accepts**: a token that passes the checks, names the tenant, and has no
expiry before the clock. -/
theorem accepts_iff : Accepts srv dev w tokenStr tenant t ↔
    ∃ claims, parseJWT srv tokenStr = .ok claims ∧ claims.subject = .ok tenant ∧
      ∀ exp, claims.exp = some exp → t.unix ≤ exp.toInt := by
  unfold Accepts
  cases hparse : parseJWT srv tokenStr with
  | error err =>
    have hrun : (validateJWT srv tokenStr).run = .ret (.error err) := by
      unfold validateJWT
      rw [hparse]
      rfl
    rw [hrun, runsAt_ret]
    constructor
    · intro h
      cases h
    · rintro ⟨claims, h, -⟩
      cases h
  | ok claims =>
    rw [validateJWT_run hparse]
    cases hexp : claims.exp with
    | none =>
      refine runsAt_ret.trans ⟨fun h => ⟨claims, rfl, h, fun exp he => ?_⟩, ?_⟩
      · rw [hexp] at he
        cases he
      · rintro ⟨claims', h, hsub, -⟩
        obtain rfl := Except.ok.inj h
        exact hsub
    | some exp =>
      refine runsAt_now.trans (runsAt_ret.trans ⟨fun h => ?_, ?_⟩)
      · split at h
        · cases h
        · next hge =>
          refine ⟨claims, rfl, h, fun exp' he => ?_⟩
          obtain rfl := Option.some.inj (hexp.symm.trans he)
          exact not_lt.mp hge
      · rintro ⟨claims', h, hsub, hle⟩
        obtain rfl := Except.ok.inj h
        rw [if_neg (not_lt.mpr (hle exp hexp)), hsub]

/-- **Every accepted token is an authentic one exactly when its expiry is checked**: whenever
the token is signed and names a tenant, it has a numeric `exp`, and the conversion of that
number to `int64` does not take it past the clock. -/
theorem accepts_authentic_iff {D : Type} (srv : Server) (d : Decoders) (dev : Device D)
    (w : World D) (tokenStr : GoString) (t : Time) :
    (∀ tenant, Accepts (srv.withDecoders d) dev w tokenStr tenant t →
      Authentic srv d tokenStr tenant t) ↔
    ∀ fields tenant, Carries srv d tokenStr fields →
      fields.lookup (ascii "sub") = some (.string tenant) → tenant ≠ [] →
      ChecksExpiry d fields t := by
  constructor
  · intro h fields tenant hcarries hsub hne
    have hparse := parseJWT_withDecoders.mpr ⟨fields, hcarries, rfl⟩
    have hsubject : (d.claims fields).subject = .ok tenant :=
      Claims.subject_eq_ok.mpr ⟨sub_claims.mpr hsub, hne⟩
    by_cases hexp : ∃ exp, fields.lookup (ascii "exp") = some (.number exp)
    · -- the conversion is the only way past the clock
      obtain ⟨exp, hexp⟩ := hexp
      refine ⟨exp, hexp, fun hle => ?_⟩
      obtain ⟨fields', exp', hcarries', -, -, hexp', hclock⟩ :=
        h tenant (accepts_iff.mpr ⟨_, hparse, hsubject, fun n hn => by
          obtain ⟨f, hf, rfl⟩ := exp_claims.mp hn
          rw [hexp] at hf
          cases hf
          exact hle⟩)
      rw [hcarries'.unique hcarries, hexp] at hexp'
      cases hexp'
      exact hclock
    · -- without a number the clock is not read
      exfalso
      obtain ⟨fields', exp', hcarries', -, -, hexp', -⟩ :=
        h tenant (accepts_iff.mpr ⟨_, hparse, hsubject, fun n hn => by
          obtain ⟨f, hf, -⟩ := exp_claims.mp hn
          exact absurd ⟨f, hf⟩ hexp⟩)
      rw [hcarries'.unique hcarries] at hexp'
      exact hexp ⟨exp', hexp'⟩
  · intro h tenant haccepts
    obtain ⟨claims, hparse, hsubject, hexp⟩ := accepts_iff.mp haccepts
    obtain ⟨fields, hcarries, rfl⟩ := parseJWT_withDecoders.mp hparse
    obtain ⟨hsub, hne⟩ := Claims.subject_eq_ok.mp hsubject
    obtain ⟨exp, hnumber, hchecked⟩ := h fields tenant hcarries (sub_claims.mp hsub) hne
    have hle := hexp _ (exp_claims.mpr ⟨exp, hnumber, rfl⟩)
    exact ⟨fields, exp, hcarries, sub_claims.mp hsub, hne, hnumber, hchecked hle⟩

/-! ### A token without an expiry -/

/-- The header `{}`, the payload with the subject `a`, and their signature with the secret
`k`. -/
def plainToken : GoString :=
  ascii "e30.eyJzdWIiOiJhIn0._Q7REfEbjWZvY3aFJ28k-Lmz_yCTcw9Ek6_9bBLoHUw"

/-- The decoders, on the parts of this token. -/
def plainDecoders : Decoders where
  decodeBase64 s :=
    if s = ascii "eyJzdWIiOiJhIn0" then .ok (ascii "\x7b\"sub\":\"a\"\x7d")
    else if s = ascii "_Q7REfEbjWZvY3aFJ28k-Lmz_yCTcw9Ek6_9bBLoHUw" then
      .ok (Crypto.std.hmac (ascii "k") (ascii "e30.eyJzdWIiOiJhIn0")).1
    else .error (.text "illegal base64 data")
  unmarshal b :=
    if b = ascii "\x7b\"sub\":\"a\"\x7d" then .ok [(ascii "sub", .string (ascii "a"))]
    else .error (.text "unexpected end of JSON input")
  outOfRange _ := Int64.minValue

/-- A server with the secret `k`. -/
def secretServer : Server :=
  { smallServer with cfg := { smallServer.cfg with jwtSecret := ascii "k" } }

theorem plainToken_carries :
    Carries secretServer plainDecoders plainToken [(ascii "sub", .string (ascii "a"))] := by
  refine ⟨ascii "e30", ascii "eyJzdWIiOiJhIn0",
    ascii "_Q7REfEbjWZvY3aFJ28k-Lmz_yCTcw9Ek6_9bBLoHUw", ascii "\x7b\"sub\":\"a\"\x7d",
    by decide, by decide +kernel, ?_, rfl, ?_⟩
  · have hinput : signingInput (ascii "e30") (ascii "eyJzdWIiOiJhIn0")
        = ascii "e30.eyJzdWIiOiJhIn0" := by
      decide +kernel
    have hne : ascii "_Q7REfEbjWZvY3aFJ28k-Lmz_yCTcw9Ek6_9bBLoHUw"
        ≠ ascii "eyJzdWIiOiJhIn0" := by
      decide +kernel
    rw [hinput, plainDecoders]
    simp only [if_neg hne, if_true]
    rfl
  · rw [plainDecoders]
    simp only [if_true]

/-- **A token without `exp` is accepted** in 2023, as it is at any other time. -/
theorem plainToken_accepted :
    Accepts (secretServer.withDecoders plainDecoders) (Device.drbg fun _ block => block) smallWorld
      plainToken (ascii "a") 1700000000000000000 ∧
    ¬ Authentic secretServer plainDecoders plainToken (ascii "a") 1700000000000000000 := by
  constructor
  · refine accepts_iff.mpr ⟨_, parseJWT_withDecoders.mpr ⟨_, plainToken_carries, rfl⟩, ?_, ?_⟩
    · rfl
    · intro exp hexp
      obtain ⟨f, hf, -⟩ := exp_claims.mp hexp
      cases hf
  · rintro ⟨fields, exp, hcarries, -, -, hexp, -⟩
    rw [hcarries.unique plainToken_carries] at hexp
    cases hexp

end Gateway
