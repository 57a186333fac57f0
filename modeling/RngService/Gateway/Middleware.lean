import Mathlib
import RngService.Gateway.World

/-!
# Authentication and rate limiting

The middleware of `internal/gateway/middleware.go`: `handler` in `Rest` puts it
around the routes. Base64 and JSON decoding are parameters (`Codec`); the
decision of the token bucket is an operation (`Op.allow`).

`extractTenant` returns a tenant only for credentials that authenticate it
(`wp_extractTenant`): a token signed with the secret, or a configured key.
-/

namespace Gateway

open Audit

/-- The configuration the gateway reads. -/
structure Config where
  jwtSecret : GoString
  /-- `APIKeys`: from keys to tenants -/
  apiKeys : List (GoString × GoString)
  /-- `Reseed.IntervalOutputs` -/
  intervalOutputs : UInt64
  /-- `Reseed.IntervalSeconds`, in nanoseconds -/
  intervalSeconds : ℤ
  binaryHash : GoString

/-- The claims of a token: `exp` when it is a number, as an `int64`, and `sub` when
it is a string. -/
structure Claims where
  exp : Option Int64
  sub : Option GoString

/-- The decoders a token goes through. -/
structure Codec where
  /-- `base64.RawURLEncoding.DecodeString` -/
  decodeBase64 : GoString → Except GoError Bytes
  /-- `json.Unmarshal` into the claims -/
  unmarshalClaims : Bytes → Except GoError Claims

/-- The immutable part of a `Server`, with the functions it is built on. -/
structure Server where
  cfg : Config
  keys : KeyStore
  crypto : Crypto
  codec : Codec
  /-- the startup hash of the binary checker, if there is one -/
  checker : Option GoString
  /-- there is a self tester -/
  selfTester : Bool

variable (srv : Server)

/-- The bytes signed in a token: `parts[0] + "." + parts[1]`. -/
def signingInput (header payload : GoString) : GoString := header ++ [46] ++ payload

/-- The part of `validateJWT` that checks the signature and decodes the payload. -/
def parseJWT (tokenStr : GoString) : Except GoError Claims :=
  if srv.cfg.jwtSecret = [] then .error (.text "JWT secret not configured")
  else match tokenStr.splitOn 46 with
    | [header, payload, signature] =>
      match srv.codec.decodeBase64 signature with
      | .error err => .error (.wrap "invalid JWT signature encoding: %w" [] err)
      | .ok sig =>
        if (srv.crypto.hmac srv.cfg.jwtSecret (signingInput header payload)).1 ≠ sig then
          .error (.text "invalid JWT signature")
        else match srv.codec.decodeBase64 payload with
          | .error err => .error (.wrap "invalid JWT payload encoding: %w" [] err)
          | .ok json =>
            (srv.codec.unmarshalClaims json).mapError (.wrap "invalid JWT payload: %w" [])
    | _ => .error (.text "malformed JWT")

/-- The part of `validateJWT` that reads the tenant. -/
def Claims.subject (claims : Claims) : Except GoError GoString :=
  match claims.sub with
  | none => .error (.text "JWT missing sub claim")
  | some sub => if sub = [] then .error (.text "JWT missing sub claim") else .ok sub

/-- `validateJWT`, with the secret of the configuration. A token without a numeric
`exp` does not expire. -/
def validateJWT (tokenStr : GoString) : Fallible GoError GoString := do
  let claims ← ofExcept (parseJWT srv tokenStr)
  match claims.exp with
  | none => ofExcept claims.subject
  | some exp =>
    let now ← Call.now
    if exp.toInt < Time.unix now then throw (.text "JWT expired")
    else ofExcept claims.subject

/-- The credentials in the headers of a request; a missing header is empty. -/
structure Credentials where
  authorization : GoString
  apiKey : GoString
  deriving DecidableEq

/-- The prefix `Bearer ` of an `Authorization` header. -/
def bearer : GoString := [66, 101, 97, 114, 101, 114, 32]

/-- `extractTenant`. -/
def extractTenant (c : Credentials) : Fallible GoError GoString :=
  if bearer <+: c.authorization then validateJWT srv (c.authorization.drop bearer.length)
  else if c.apiKey ≠ [] then
    match srv.cfg.apiKeys.lookup c.apiKey with
    | none => throw (.text "invalid API key")
    | some tenant => return tenant
  else throw (.text "missing Authorization header or X-Api-Key")

/-- The token is signed with the secret and names the tenant. -/
def Signed (tokenStr tenant : GoString) : Prop :=
  ∃ header payload signature json claims, srv.cfg.jwtSecret ≠ [] ∧
    tokenStr.splitOn 46 = [header, payload, signature] ∧
    srv.codec.decodeBase64 signature
      = .ok (srv.crypto.hmac srv.cfg.jwtSecret (signingInput header payload)).1 ∧
    srv.codec.decodeBase64 payload = .ok json ∧
    srv.codec.unmarshalClaims json = .ok claims ∧ claims.sub = some tenant ∧ tenant ≠ []

/-- The credentials authenticate the tenant: by a token, or by a configured key. -/
def Authenticates (c : Credentials) (tenant : GoString) : Prop :=
  (bearer <+: c.authorization ∧ Signed srv (c.authorization.drop bearer.length) tenant) ∨
    (¬ bearer <+: c.authorization ∧ c.apiKey ≠ [] ∧
      srv.cfg.apiKeys.lookup c.apiKey = some tenant)

/-! ### Authentication is sound -/

variable {srv}

/-- **Inversion of the token check**: the secret is set, the token has three parts, the
third decodes to the code of the first two, and the second to the claims. -/
theorem parseJWT_eq_ok {tokenStr : GoString} {claims : Claims} :
    parseJWT srv tokenStr = .ok claims ↔ ∃ header payload signature json,
      srv.cfg.jwtSecret ≠ [] ∧ tokenStr.splitOn 46 = [header, payload, signature] ∧
      srv.codec.decodeBase64 signature
        = .ok (srv.crypto.hmac srv.cfg.jwtSecret (signingInput header payload)).1 ∧
      srv.codec.decodeBase64 payload = .ok json ∧
      srv.codec.unmarshalClaims json = .ok claims := by
  constructor
  · intro h
    unfold parseJWT at h
    split at h
    · cases h
    · next hsecret =>
      split at h
      · next header payload signature hsplit =>
        -- the checks of the source, in its order
        cases hsig : srv.codec.decodeBase64 signature with
        | error err => rw [hsig] at h; cases h
        | ok sig =>
          rw [hsig] at h
          simp only at h
          split at h
          · cases h
          · next hmac =>
            cases hpay : srv.codec.decodeBase64 payload with
            | error err => rw [hpay] at h; cases h
            | ok json =>
              rw [hpay] at h
              cases hjson : srv.codec.unmarshalClaims json with
              | error err => simp only [hjson] at h; cases h
              | ok claims' =>
                simp only [hjson] at h
                obtain rfl := Except.ok.inj h
                exact ⟨header, payload, signature, json, hsecret, hsplit,
                  by rw [hsig, not_not.mp hmac], hpay, hjson⟩
      · cases h
  · rintro ⟨header, payload, signature, json, hsecret, hsplit, hsig, hpay, hjson⟩
    simp only [parseJWT, if_neg hsecret, hsplit, hsig, hpay, hjson, ne_eq, not_true_eq_false,
      if_false, Except.mapError]

/-- The subject is a non-empty string claim. -/
theorem Claims.subject_eq_ok {claims : Claims} {tenant : GoString} :
    claims.subject = .ok tenant ↔ claims.sub = some tenant ∧ tenant ≠ [] := by
  unfold Claims.subject
  cases claims.sub with
  | none => exact ⟨fun h => (by cases h), fun h => (by cases h.1)⟩
  | some sub =>
    simp only [Option.some.injEq]
    split
    · next hempty => exact ⟨fun h => (by cases h), fun h => absurd (h.1 ▸ hempty) h.2⟩
    · next hne =>
      refine ⟨fun h => ?_, fun h => by rw [h.1]⟩
      obtain rfl := Except.ok.inj h
      exact ⟨rfl, hne⟩

/-- A token that passes the check is signed. -/
theorem parseJWT_ok {tokenStr : GoString} {claims : Claims}
    (h : parseJWT srv tokenStr = .ok claims) {tenant : GoString}
    (hsub : claims.subject = .ok tenant) : Signed srv tokenStr tenant := by
  obtain ⟨header, payload, signature, json, hsecret, hsplit, hsig, hpay, hjson⟩ :=
    parseJWT_eq_ok.mp h
  exact ⟨header, payload, signature, json, claims, hsecret, hsplit, hsig, hpay, hjson,
    Claims.subject_eq_ok.mp hsub⟩

section Auth

variable {Q : Type} {M : Prog.Model Op Ret Q} {I : Q → Prop}

theorem wp_validateJWT (hclock : ∀ q, I q → M.allowed .now q ∧ ∀ t q', M.step .now q t q' → I q')
    {tokenStr : GoString} {q : Q} (hq : I q) :
    Prog.WP M (validateJWT srv tokenStr).run
      (fun r q' => I q' ∧ ∀ tenant, r = .ok tenant → Signed srv tokenStr tenant) q := by
  refine Prog.WP.bindE ?_
  refine Prog.WP.ret_iff.mpr ?_
  cases hparse : parseJWT srv tokenStr with
  | error err => exact ⟨hq, fun tenant h => by cases h⟩
  | ok claims =>
    simp only
    split
    · exact ⟨hq, fun tenant h => parseJWT_ok hparse h⟩
    · refine Prog.WP.bindE (Prog.WP.liftE (Prog.WP.op (hclock q hq).1 fun t q' hstep => ?_))
      have hI := (hclock q hq).2 t q' hstep
      simp only
      split
      · exact Prog.WP.throwE ⟨hI, fun tenant h => by cases h⟩
      · exact ⟨hI, fun tenant h => parseJWT_ok hparse h⟩

/-- **A tenant is only extracted from credentials that authenticate it.** -/
theorem wp_extractTenant
    (hclock : ∀ q, I q → M.allowed .now q ∧ ∀ t q', M.step .now q t q' → I q')
    {c : Credentials} {q : Q} (hq : I q) :
    Prog.WP M (extractTenant srv c).run
      (fun r q' => I q' ∧ ∀ tenant, r = .ok tenant → Authenticates srv c tenant) q := by
  unfold extractTenant
  split
  · next hb =>
    refine (wp_validateJWT hclock hq).mono ?_
    rintro r q' ⟨hI, hsigned⟩
    exact ⟨hI, fun tenant h => Or.inl ⟨hb, hsigned tenant h⟩⟩
  · next hb =>
    split
    · next hkey =>
      cases hlookup : srv.cfg.apiKeys.lookup c.apiKey with
      | none => exact ⟨hq, fun tenant h => by cases h⟩
      | some tenant =>
        refine ⟨hq, ?_⟩
        intro tenant' h
        obtain rfl := Except.ok.inj h
        exact Or.inr ⟨hb, hkey, hlookup⟩
    · exact Prog.WP.throwE ⟨hq, fun tenant h => by cases h⟩

end Auth

end Gateway
