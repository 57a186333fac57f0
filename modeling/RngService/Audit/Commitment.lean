import Mathlib
import RngService.Audit.Log

/-!
# The chain tip commits to the history

The hashed layout mixes fields of fixed width, length-prefixed fields and a
trailing field without a length. `hashData_inj` reads it back from the front:
once the width of the previous hash is known (32 bytes, in every accepted list
that starts from a hash of that width) each field has one place, and the trailing
one is what remains.

`linkedBytes` and `hashed` read an accepted list as a hash-linked log over the
decoded hashes, so that the facts of `HashLog` apply; `verifyEntries_commit` is
`HashLog.Linked.commit` at this log.
-/

namespace Audit

/-! ### The layout -/

/-- The lengths that the layout can write in its 32-bit prefixes. -/
structure Entry.Bounded (e : Entry) : Prop where
  tenantID : e.tenantID.length < 2 ^ 32
  roundID : e.roundID.length < 2 ^ 32
  values : e.values.length < 2 ^ 32

theorem putInt64_inj {v w : Int64} (h : putInt64 v = putInt64 w) : v = w := by
  cases v
  cases w
  exact congrArg Int64.ofUInt64 (Bytes.putUint64_inj h)

@[simp] theorem length_putInt64 (v : Int64) : (putInt64 v).length = 8 := Bytes.length_putUint64 _

/-- A 32-bit length prefix determines the length. -/
theorem putUint32_length_inj {m n : ℕ} (hm : m < 2 ^ 32) (hn : n < 2 ^ 32)
    (h : Bytes.putUint32 (UInt32.ofNat m) = Bytes.putUint32 (UInt32.ofNat n)) : m = n := by
  have h' := congrArg UInt32.toNat (Bytes.putUint32_inj h)
  rwa [UInt32.toNat_ofNat', UInt32.toNat_ofNat', Nat.mod_eq_of_lt hm, Nat.mod_eq_of_lt hn] at h'

/-- A length-prefixed field splits off in one way. -/
theorem appendLenPrefixed_inj {a b x y : Bytes} (ha : a.length < 2 ^ 32) (hb : b.length < 2 ^ 32)
    (h : appendLenPrefixed [] a ++ x = appendLenPrefixed [] b ++ y) : a = b ∧ x = y := by
  simp only [appendLenPrefixed, List.nil_append, List.append_assoc] at h
  -- the prefixes are equally wide, so the lengths agree
  obtain ⟨hlen, hrest⟩ :=
    List.append_inj h ((Bytes.length_putUint32 _).trans (Bytes.length_putUint32 _).symm)
  exact List.append_inj hrest (putUint32_length_inj ha hb hlen)

/-- The counted values split off in one way. -/
theorem putValues_inj {v w : List Int64} {x y : Bytes} (hv : v.length < 2 ^ 32)
    (hw : w.length < 2 ^ 32) (h : putValues v ++ x = putValues w ++ y) : v = w ∧ x = y := by
  simp only [putValues, List.append_assoc] at h
  obtain ⟨hlen, hrest⟩ :=
    List.append_inj h ((Bytes.length_putUint32 _).trans (Bytes.length_putUint32 _).symm)
  exact Bytes.flatMap_inj_of_length length_putInt64 (fun _ _ => putInt64_inj)
    (putUint32_length_inj hv hw hlen) hrest

/-- **The hashed layout is unambiguous.** -/
theorem hashData_inj {e e' : Entry} {p p' s s' : Bytes} (he : e.Bounded) (he' : e'.Bounded)
    (hp : p.length = p'.length) (h : e.hashData p s = e'.hashData p' s') :
    p = p' ∧ e.createdAt.unixNano = e'.createdAt.unixNano ∧ e.tenantID = e'.tenantID ∧
      e.roundID = e'.roundID ∧ e.values = e'.values ∧ s = s' := by
  simp only [Entry.hashData, List.append_assoc] at h
  -- field by field from the front; the signature is what remains
  obtain ⟨h1, h⟩ := List.append_inj h hp
  obtain ⟨h2, h⟩ := List.append_inj h ((length_putInt64 _).trans (length_putInt64 _).symm)
  obtain ⟨h3, h⟩ := appendLenPrefixed_inj he.tenantID he'.tenantID h
  obtain ⟨h4, h⟩ := appendLenPrefixed_inj he.roundID he'.roundID h
  obtain ⟨h5, h6⟩ := putValues_inj he.values he'.values h
  exact ⟨h1, putInt64_inj h2, h3, h4, h5, h6⟩

/-! ### An accepted list as a hash-linked log -/

/-- The decoded previous hash. -/
def Entry.prevBytes (e : Entry) : Bytes := hexBytes e.prevHash

/-- The decoded hash. -/
def Entry.hashBytes (e : Entry) : Bytes := hexBytes e.entryHash

/-- The digest of a payload, as bytes. -/
def digest (crypto : Crypto) (x : Bytes) : Bytes := (crypto.sha256 x).1

/-- The previous hash inside a payload. -/
def link (x : Bytes) : Bytes := x.take 32

/-- SHA-256 clashes on the payloads of `l`: two of them are different and have the
same digest, or one has the digest `p`. -/
abbrev Clash (crypto : Crypto) (p : Bytes) (l : List Entry) : Prop :=
  HashLog.Clash (digest crypto) p (l.map Entry.payload)

variable {crypto : Crypto} {p : GoString} {l m : List Entry}

theorem linkedBytes (h : Linked p l) :
    HashLog.Linked Entry.prevBytes Entry.hashBytes (hexBytes p) l := h.map hexBytes

/-- Every previous hash of an accepted list is as wide as the first one. -/
theorem length_prevBytes (hp : (hexBytes p).length = 32) (hl : Linked p l)
    (hs : ∀ e ∈ l, e.Sound crypto) {e : Entry} (he : e ∈ l) : e.prevBytes.length = 32 := by
  induction l generalizing p with
  | nil => cases he
  | cons a l ih =>
    -- a hash of an accepted entry is a digest, hence 32 bytes wide
    have hwide : (hexBytes a.entryHash).length = 32 := by
      rw [(hs a List.mem_cons_self).hexBytes_entryHash]
      exact (crypto.sha256 _).2
    rcases List.mem_cons.mp he with rfl | he
    · rw [Entry.prevBytes, hl.1, hp]
    · exact ih hwide hl.2 (fun x hx => hs x (List.mem_cons_of_mem _ hx)) he

/-- The hashes of an accepted list are digests of payloads that start with the
previous hash. -/
theorem hashed (hp : (hexBytes p).length = 32) (hl : Linked p l)
    (hs : ∀ e ∈ l, e.Sound crypto) :
    HashLog.Hashed Entry.prevBytes Entry.hashBytes Entry.payload (digest crypto) link l := by
  refine fun e he => ⟨(hs e he).hexBytes_entryHash, ?_⟩
  have hlen := length_prevBytes hp hl hs he
  simp only [link, Entry.payload, Entry.hashData, List.append_assoc]
  exact (List.take_left' hlen).symm

/-! ### Commitment -/

/-- Two entries agree on everything that is hashed, and on the hash. -/
structure Entry.Agree (e e' : Entry) : Prop where
  entryHash : e.entryHash = e'.entryHash
  prevHash : e.prevBytes = e'.prevBytes
  createdAt : e.createdAt.unixNano = e'.createdAt.unixNano
  tenantID : e.tenantID = e'.tenantID
  roundID : e.roundID = e'.roundID
  values : e.values = e'.values
  signature : hexBytes e.signature = hexBytes e'.signature

/-- Entries with one payload agree. -/
theorem Entry.Agree.of_payload {e e' : Entry} (hs : e.Sound crypto) (hs' : e'.Sound crypto)
    (hb : e.Bounded) (hb' : e'.Bounded) (hlen : e.prevBytes.length = e'.prevBytes.length)
    (h : e.payload = e'.payload) : e.Agree e' := by
  obtain ⟨h1, h2, h3, h4, h5, h6⟩ := hashData_inj hb hb' hlen h
  refine ⟨?_, h1, h2, h3, h4, h5, h6⟩
  rw [(Entry.computeHash_eq_ok.mp hs).2.2, (Entry.computeHash_eq_ok.mp hs').2.2, h]

/-- The digits of a hash in hexadecimal: sixty-four of them. -/
def IsHash (p : GoString) : Prop := p.length = 64 ∧ ∀ c ∈ p, (Hex.fromHexChar c).isSome

theorem isHash_zeroHash : IsHash zeroHash := by
  refine ⟨List.length_replicate, ?_⟩
  intro c hc
  rw [List.eq_of_mem_replicate hc]
  rfl

/-- An even number of digits decodes, to half as many bytes. -/
theorem decodeString_of_digits {s : GoString} (heven : 2 ∣ s.length)
    (h : ∀ c ∈ s, (Hex.fromHexChar c).isSome) :
    ∃ b, Hex.decodeString s = .ok b ∧ s.length = 2 * b.length := by
  induction s using Hex.decodeString.induct with
  | case1 => exact ⟨[], rfl, rfl⟩
  | case2 a ha => simp at heven
  | case3 a ha => simp at heven
  | case4 a b rest hi lo ha hb ih =>
    have hrest : 2 ∣ rest.length := by
      simp only [List.length_cons] at heven
      omega
    -- two digits make one byte
    obtain ⟨c, hc, hlen⟩ := ih hrest fun x hx =>
      h x (List.mem_cons_of_mem _ (List.mem_cons_of_mem _ hx))
    refine ⟨_, by rw [Hex.decodeString, ha, hb, hc]; rfl, ?_⟩
    simp only [List.length_cons]
    omega
  | case5 a b rest hi hb ha =>
    have hsome := h b (by simp)
    rw [hb] at hsome
    cases hsome
  | case6 a b rest ha =>
    have hsome := h a (by simp)
    rw [ha] at hsome
    cases hsome

theorem IsHash.length_hexBytes (h : IsHash p) : (hexBytes p).length = 32 := by
  obtain ⟨b, hb, hlen⟩ := decodeString_of_digits (by rw [h.1]; decide) h.2
  have h64 := h.1
  rw [hexBytes, hb]
  show b.length = 32
  omega

/-- The hash of the last entry is the tip. -/
theorem tip_eq_getLast (h : l ≠ []) : tip p l = (l.getLast h).entryHash := by
  induction l generalizing p with
  | nil => exact absurd rfl h
  | cons a l ih =>
    cases l with
    | nil => rfl
    | cons b l =>
      rw [List.getLast_cons (List.cons_ne_nil b l)]
      exact ih (p := a.entryHash) (List.cons_ne_nil b l)

/-- **The chain tip commits to the whole history.** Two non-empty lists accepted
from the same hash and ending in the same hash agree entry by entry, unless
SHA-256 clashes on their payloads. -/
theorem verifyEntries_commit {l m : List Entry} {p : GoString} (hp : IsHash p)
    (hl : verifyEntries crypto l p = (-1, none)) (hm : verifyEntries crypto m p = (-1, none))
    (hl0 : l ≠ []) (hm0 : m ≠ []) (hlb : ∀ e ∈ l, e.Bounded) (hmb : ∀ e ∈ m, e.Bounded)
    (hlast : (l.getLast hl0).entryHash = (m.getLast hm0).entryHash) :
    List.Forall₂ Entry.Agree l m ∨ Clash crypto (hexBytes p) (l ++ m) := by
  by_cases hc : Clash crypto (hexBytes p) (l ++ m)
  · exact Or.inr hc
  · left
    obtain ⟨hlink, hsound⟩ := verifyEntries_eq.mp hl
    obtain ⟨hlink', hsound'⟩ := verifyEntries_eq.mp hm
    have hwide := hp.length_hexBytes
    have htip : tip p l = tip p m := by rw [tip_eq_getLast hl0, tip_eq_getLast hm0, hlast]
    -- the tips agree as bytes as well
    have htip' : HashLog.tip Entry.hashBytes (hexBytes p) l
        = HashLog.tip Entry.hashBytes (hexBytes p) m := by
      have hmap := @HashLog.tip_map Entry GoString Entry.entryHash Bytes hexBytes p
      exact (hmap l).trans ((congrArg hexBytes htip).trans (hmap m).symm)
    -- the general fact: one tip, one list of payloads
    have hpay : l.map Entry.payload = m.map Entry.payload :=
      (linkedBytes hlink).commit (linkedBytes hlink') (hashed hwide hlink hsound)
        (hashed hwide hlink' hsound') htip' (by rwa [← List.map_append])
    -- position by position
    have hall : List.Forall₂ (fun e e' => Entry.payload e = Entry.payload e') l m := by
      rw [← List.forall₂_map_right_iff, ← List.forall₂_map_left_iff]
      rw [List.forall₂_eq_eq_eq]
      exact hpay
    rw [List.forall₂_iff_zip] at hall ⊢
    refine ⟨hall.1, ?_⟩
    intro e e' hmem
    have he : e ∈ l := (List.of_mem_zip hmem).1
    have he' : e' ∈ m := (List.of_mem_zip hmem).2
    refine Entry.Agree.of_payload (hsound e he) (hsound' e' he') (hlb e he) (hmb e' he') ?_
      (hall.2 hmem)
    rw [length_prevBytes hwide hlink hsound he, length_prevBytes hwide hlink' hsound' he']

/-- The log of a chain that signs and seals the entries. -/
def sealedLog (crypto : Crypto) (key : Bytes) : Chain → List Entry → List Entry
  | _, [] => []
  | c, e :: es =>
    match c.seal crypto (e.sign crypto key) with
    | (.ok e', c') => e' :: sealedLog crypto key c' es
    | (.error _, _) => []

/-- Commitment at two logs of two entries under SHA-256, which differ in the game of the first
entry: the game is not hashed. -/
theorem verifyEntries_commit_two :
    let e : Entry := ⟨[], [], [116], [103], [114], [113], [5, -1], 2, -1, 9, [], 7, false⟩
    let e' : Entry := ⟨[], [], [116], [103], [115], [113], [3], 1, -1, 9, [], 8, false⟩
    let l := sealedLog Crypto.std [1] newChain [e, e']
    let m := sealedLog Crypto.std [1] newChain [{ e with gameID := [104] }, e']
    l.length = 2 ∧ l.map Entry.gameID ≠ m.map Entry.gameID ∧
      (List.Forall₂ Entry.Agree l m ∨ Clash Crypto.std (hexBytes zeroHash) (l ++ m)) := by
  intro e e' l m
  obtain ⟨hlen, hgame, hl, hm, hl0, hm0, hlb, hmb, hlast⟩ : l.length = 2 ∧
      l.map Entry.gameID ≠ m.map Entry.gameID ∧ verifyEntries Crypto.std l zeroHash = (-1, none) ∧
      verifyEntries Crypto.std m zeroHash = (-1, none) ∧ l ≠ [] ∧ m ≠ [] ∧
      (∀ x ∈ l, x.tenantID.length < 2 ^ 32 ∧ x.roundID.length < 2 ^ 32 ∧
        x.values.length < 2 ^ 32) ∧
      (∀ x ∈ m, x.tenantID.length < 2 ^ 32 ∧ x.roundID.length < 2 ^ 32 ∧
        x.values.length < 2 ^ 32) ∧
      tip zeroHash l = tip zeroHash m := by decide +kernel
  rw [tip_eq_getLast hl0, tip_eq_getLast hm0] at hlast
  have hlb' : ∀ x ∈ l, x.Bounded := fun x hx => ⟨(hlb x hx).1, (hlb x hx).2.1, (hlb x hx).2.2⟩
  have hmb' : ∀ x ∈ m, x.Bounded := fun x hx => ⟨(hmb x hx).1, (hmb x hx).2.1, (hmb x hx).2.2⟩
  exact ⟨hlen, hgame, verifyEntries_commit isHash_zeroHash hl hm hl0 hm0 hlb' hmb' hlast⟩

end Audit
