import Mathlib
import RngService.Go.Base
import RngService.Go.Sha256
import RngService.Lib.HashLog

/-!
# Audit entries and the hash chain

The entries, the chain and the verifier of `internal/audit/log.go`. Digest and
keyed digest come from a `Crypto`.

`Entry.computeHash` hashes a `payload` after decoding two of its fields, so it
can fail; `computeHash_eq_ok` is its inversion. `verifyEntries_eq` says what
acceptance means: the entries are linked (`HashLog.Linked`) and each carries the
hash computed from it.
-/

namespace Audit

/-- `ZeroHash`: sixty-four zeros. -/
def zeroHash : GoString := List.replicate 64 48

/-- An audit entry. -/
structure Entry where
  entryHash : GoString
  prevHash : GoString
  tenantID : GoString
  gameID : GoString
  roundID : GoString
  requestID : GoString
  values : List Int64
  valueCount : ℤ
  minValue : Int64
  maxValue : Int64
  signature : GoString
  createdAt : Time
  reseedEvent : Bool
  deriving DecidableEq

/-- `NewRequestID`, from the sixteen bytes of the system generator: version and
variant bits are forced, and five groups are printed in hexadecimal. -/
def newRequestID (b : ByteVec 16) : GoString :=
  let b := b.1.modify 6 fun x => x &&& 0x0f ||| 0x40
  let b := b.modify 8 fun x => x &&& 0x3f ||| 0x80
  let group (i j : ℕ) : GoString := Hex.encodeToString ((b.take j).drop i)
  group 0 4 ++ [45] ++ group 4 6 ++ [45] ++ group 6 8 ++ [45] ++ group 8 10 ++ [45] ++ group 10 16

/-- `appendLenPrefixed`. The length is cut to 32 bits. -/
def appendLenPrefixed (buf data : Bytes) : Bytes :=
  buf ++ Bytes.putUint32 (UInt32.ofNat data.length) ++ data

/-- The eight bytes of an `int64`. -/
def putInt64 (v : Int64) : Bytes := Bytes.putUint64 v.toUInt64

/-- The length and the elements of `Values`, as both layouts write them. -/
def putValues (values : List Int64) : Bytes :=
  Bytes.putUint32 (UInt32.ofNat values.length) ++ values.flatMap putInt64

/-- `signData`. -/
def Entry.signData (e : Entry) : Bytes :=
  let buf := appendLenPrefixed [] e.tenantID
  let buf := appendLenPrefixed buf e.roundID
  let buf := buf ++ putInt64 e.createdAt.unixNano
  buf ++ putValues e.values

variable (crypto : Crypto)

/-- `Sign`. -/
def Entry.sign (e : Entry) (key : Bytes) : Entry :=
  { e with signature := Hex.encodeToString (crypto.hmac key e.signData).1 }

/-- `Verify`. -/
def Entry.verify (e : Entry) (key : Bytes) : Bool :=
  if e.signature = [] then false
  else match Hex.decodeString e.signature with
    | .error _ => false
    | .ok got => (crypto.hmac key e.signData).1 == got

/-- What `computeHash` feeds to the digest, given the decoded previous hash and
signature. -/
def Entry.hashData (e : Entry) (prevBytes sigBytes : Bytes) : Bytes :=
  prevBytes ++ putInt64 e.createdAt.unixNano ++ appendLenPrefixed [] e.tenantID
    ++ appendLenPrefixed [] e.roundID ++ putValues e.values ++ sigBytes

/-- `computeHash`. -/
def Entry.computeHash (e : Entry) : Except GoError GoString :=
  match Hex.decodeString e.prevHash with
  | .error err => .error (.wrap "audit: invalid prev_hash %q: %w" [.str e.prevHash] err)
  | .ok prevBytes =>
    match Hex.decodeString e.signature with
    | .error err => .error (.wrap "audit: invalid signature %q: %w" [.str e.signature] err)
    | .ok sigBytes => .ok (Hex.encodeToString (crypto.sha256 (e.hashData prevBytes sigBytes)).1)

/-- The chain: its tip. -/
structure Chain where
  prevHash : GoString
  deriving DecidableEq

/-- `NewChain`. -/
def newChain : Chain := ⟨zeroHash⟩

/-- `LoadChain`. -/
def loadChain (lastHash : GoString) : Except GoError Chain :=
  if lastHash.length ≠ 64 then
    .error (.errorf "audit: LoadChain: hash must be 64 hex chars, got %d" [.int lastHash.length])
  else .ok ⟨lastHash⟩

/-- `Seal`: the sealed entry, or an error, in which case the entry is dropped by
every caller; and the chain after it. -/
def Chain.seal (c : Chain) (e : Entry) : Except GoError Entry × Chain :=
  if e.signature = [] then
    (.error (.text "audit: entry must be signed before sealing"), c)
  else
    let e := { e with prevHash := c.prevHash }
    match e.computeHash crypto with
    | .error err => (.error err, c)
    | .ok hash => (.ok { e with entryHash := hash }, ⟨hash⟩)

/-- The loop of `VerifyEntries` from index `i`. -/
def verifyFrom (i : ℕ) (prevHash : GoString) : List Entry → ℤ × Option GoError
  | [] => (-1, none)
  | e :: rest =>
    if e.prevHash ≠ prevHash then
      (i, some (.errorf "audit: entry[%d]: prev_hash mismatch: got %s, want %s"
        [.int i, .str e.prevHash, .str prevHash]))
    else match e.computeHash crypto with
      | .error err => (i, some (.wrap "audit: entry[%d]: %w" [.int i] err))
      | .ok computed =>
        if computed ≠ e.entryHash then
          (i, some (.errorf "audit: entry[%d]: entry_hash mismatch: got %s, want %s"
            [.int i, .str e.entryHash, .str computed]))
        else verifyFrom (i + 1) e.entryHash rest

/-- `VerifyEntries`. -/
def verifyEntries (entries : List Entry) (firstPrevHash : GoString) : ℤ × Option GoError :=
  verifyFrom crypto 0 firstPrevHash entries

/-- The interface `KeyStore`: the signing key of a tenant. -/
abbrev KeyStore := GoString → Except GoError Bytes

/-- `StaticKeyStore`: its keys, which are long enough. -/
structure StaticKeyStore where
  keys : List (GoString × Bytes)
  long : ∀ k ∈ keys, 32 ≤ k.2.length

/-- `NewStaticKeyStore`. The list is the map in the order it is iterated in. -/
def newStaticKeyStore (keys : List (GoString × Bytes)) : Except GoError StaticKeyStore :=
  match h : keys.find? (fun k => k.2.length < 32) with
  | some (id, k) =>
    .error (.errorf "audit: key for tenant %q is only %d bytes; need >= 32"
      [.str id, .int k.length])
  | none => .ok ⟨keys, fun k hk => by simpa using List.find?_eq_none.mp h k hk⟩

/-- `SigningKey`: the key of the tenant, or else the key of the wildcard `*`. -/
def StaticKeyStore.signingKey (s : StaticKeyStore) : KeyStore := fun tenantID =>
  match s.keys.lookup tenantID with
  | some k => .ok k
  | none =>
    match s.keys.lookup [42] with
    | some k => .ok k
    | none => .error (.errorf "audit: no signing key for tenant %q" [.str tenantID])

/-! ### Signatures -/

variable {crypto}

theorem Entry.signature_sign_ne_nil (e : Entry) (key : Bytes) :
    (e.sign crypto key).signature ≠ [] := by
  intro h
  -- a signature has 64 digits
  have hlen := congrArg List.length h
  rw [Entry.sign, Hex.length_encodeToString, (crypto.hmac key e.signData).2] at hlen
  cases hlen

/-- Signing leaves the signed data alone. -/
@[simp] theorem Entry.signData_sign (e : Entry) (key : Bytes) :
    (e.sign crypto key).signData = e.signData := rfl

/-- An entry whose signature is the keyed digest of its data verifies. -/
theorem Entry.verify_of_signature {e : Entry} {key : Bytes}
    (h : e.signature = Hex.encodeToString (crypto.hmac key e.signData).1) :
    e.verify crypto key = true := by
  have hne : e.signature ≠ [] := by
    rw [h]
    exact Entry.signature_sign_ne_nil e key
  rw [Entry.verify, if_neg hne, h, Hex.decodeString_encodeToString]
  exact beq_self_eq_true _

/-! ### The hash of an entry -/

/-- The bytes of a hexadecimal string, none if it is malformed. -/
def hexBytes (s : GoString) : Bytes := (Hex.decodeString s).toOption.getD []

@[simp] theorem hexBytes_encodeToString (b : Bytes) : hexBytes (Hex.encodeToString b) = b := by
  rw [hexBytes, Hex.decodeString_encodeToString]
  rfl

/-- What the digest of an entry is taken of. -/
def Entry.payload (e : Entry) : Bytes := e.hashData (hexBytes e.prevHash) (hexBytes e.signature)

/-- **Inversion of `computeHash`.** -/
theorem Entry.computeHash_eq_ok {e : Entry} {h : GoString} :
    e.computeHash crypto = .ok h ↔
      (∃ b, Hex.decodeString e.prevHash = .ok b) ∧ (∃ b, Hex.decodeString e.signature = .ok b) ∧
        h = Hex.encodeToString (crypto.sha256 e.payload).1 := by
  unfold Entry.computeHash Entry.payload hexBytes
  cases hp : Hex.decodeString e.prevHash with
  | error err => simp
  | ok p =>
    cases hs : Hex.decodeString e.signature with
    | error err => simp
    | ok s => simp [Except.toOption, eq_comm]

/-- The entry carries the hash computed from it. -/
def Entry.Sound (crypto : Crypto) (e : Entry) : Prop := e.computeHash crypto = .ok e.entryHash

theorem Entry.Sound.hexBytes_entryHash {e : Entry} (h : e.Sound crypto) :
    hexBytes e.entryHash = (crypto.sha256 e.payload).1 := by
  rw [(Entry.computeHash_eq_ok.mp h).2.2, hexBytes_encodeToString]

/-- **Inversion of `Seal`.** A sealed entry is the entry with its two hashes, and its
hash is the new tip; an error leaves the tip alone. -/
theorem Chain.seal_cases {c c' : Chain} {e : Entry} {r : Except GoError Entry}
    (h : c.seal crypto e = (r, c')) :
    (∃ e', r = .ok e' ∧ e' = { e with prevHash := c.prevHash, entryHash := e'.entryHash } ∧
      e'.Sound crypto ∧ c'.prevHash = e'.entryHash) ∨ ((∃ err, r = .error err) ∧ c' = c) := by
  unfold Chain.seal at h
  split at h
  · obtain ⟨rfl, rfl⟩ := Prod.mk.inj h
    exact Or.inr ⟨⟨_, rfl⟩, rfl⟩
  · simp only at h
    cases hc : Entry.computeHash crypto { e with prevHash := c.prevHash } with
    | error err =>
      rw [hc] at h
      obtain ⟨rfl, rfl⟩ := Prod.mk.inj h
      exact Or.inr ⟨⟨_, rfl⟩, rfl⟩
    | ok hash =>
      rw [hc] at h
      obtain ⟨rfl, rfl⟩ := Prod.mk.inj h
      exact Or.inl ⟨_, rfl, rfl, hc, rfl⟩

theorem Chain.seal_eq_ok {c : Chain} {e e' : Entry} (h : (c.seal crypto e).1 = .ok e') :
    e' = { e with prevHash := c.prevHash, entryHash := e'.entryHash } ∧ e'.Sound crypto ∧
      (c.seal crypto e).2.prevHash = e'.entryHash := by
  rcases hres : c.seal crypto e with ⟨r, c'⟩
  rw [hres] at h
  rcases Chain.seal_cases hres with ⟨e'', hok, hseal⟩ | ⟨⟨err, herr⟩, -⟩
  · obtain rfl := Except.ok.inj (h.symm.trans hok)
    exact hseal
  · cases h.symm.trans herr

/-! ### Acceptance -/

/-- Entries linked by their hashes. -/
abbrev Linked (p : GoString) (l : List Entry) : Prop :=
  HashLog.Linked Entry.prevHash Entry.entryHash p l

/-- The hash the next entry has to name. -/
abbrev tip (p : GoString) (l : List Entry) : GoString := HashLog.tip Entry.entryHash p l

theorem linked_cons {p : GoString} {e : Entry} {l : List Entry} :
    Linked p (e :: l) ↔ e.prevHash = p ∧ Linked e.entryHash l := Iff.rfl

theorem verifyFrom_eq {i : ℕ} {p : GoString} {l : List Entry} :
    verifyFrom crypto i p l = (-1, none) ↔ Linked p l ∧ ∀ e ∈ l, e.Sound crypto := by
  induction l generalizing i p with
  | nil => simp [verifyFrom]
  | cons e l ih =>
    rw [verifyFrom, linked_cons, List.forall_mem_cons]
    split
    · next h =>
      have hne : ¬ e.prevHash = p := h
      simp [hne]
    · next h =>
      have heq : e.prevHash = p := not_not.mp h
      cases hc : e.computeHash crypto with
      | error err =>
        have hns : ¬ e.Sound crypto := by
          intro hs
          rw [Entry.Sound, hc] at hs
          cases hs
        simp [hns]
      | ok computed =>
        -- the entry is sound exactly if the second comparison succeeds
        have hs : e.Sound crypto ↔ computed = e.entryHash := by
          rw [Entry.Sound, hc, Except.ok.injEq]
        simp only [hs]
        split
        · next hne =>
          have hne' : ¬ computed = e.entryHash := hne
          simp [hne']
        · next hne => rw [ih, and_iff_right heq, and_iff_right (not_not.mp hne)]

/-- **Acceptance.** `VerifyEntries` accepts the linked lists of entries that carry
their own hashes. -/
theorem verifyEntries_eq {l : List Entry} {p : GoString} :
    verifyEntries crypto l p = (-1, none) ↔ Linked p l ∧ ∀ e ∈ l, e.Sound crypto :=
  verifyFrom_eq

end Audit
