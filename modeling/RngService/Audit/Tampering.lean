import Mathlib
import RngService.Audit.Restart

/-!
# Changed entries

The auditor checks an entry with `Verify` and by recomputing its hash (`Passes`). Both
checks read the entry through an encoder, `signData` and `payload`. Neither encoder
writes the game, the bounds of the range, the request id or the value count; they write
the tenant, the round, the values and the nanoseconds of the timestamp (`Covered`).

`passes_iff_covered` is the resulting line between the changes that are detected and
those that are not, up to a collision of both digests on what the encoders write.
`signature_unambiguous` is the part of it that is about signatures alone.
-/

namespace Audit

variable {crypto : Crypto} {key : Bytes} {e e' : Entry}

/-- The auditor's checks on an entry succeed. -/
def Passes (crypto : Crypto) (key : Bytes) (e : Entry) : Prop :=
  e.verify crypto key = true ∧ e.computeHash crypto = .ok e.entryHash

/-- The entries agree on everything that is signed or hashed in their name. -/
structure Covered (e e' : Entry) : Prop where
  tenantID : e'.tenantID = e.tenantID
  roundID : e'.roundID = e.roundID
  values : e'.values = e.values
  createdAt : e'.createdAt.unixNano = e.createdAt.unixNano

/-- The entries carry the same hashes and the same signature. -/
structure SameSeal (e e' : Entry) : Prop where
  entryHash : e'.entryHash = e.entryHash
  prevHash : e'.prevHash = e.prevHash
  signature : e'.signature = e.signature

/-- SHA-256 collides on what is hashed of two entries. -/
def HashCollides (crypto : Crypto) (e e' : Entry) : Prop :=
  e'.payload ≠ e.payload ∧ (crypto.sha256 e'.payload).1 = (crypto.sha256 e.payload).1

/-- HMAC collides on what is signed of two entries. -/
def SignCollides (crypto : Crypto) (key : Bytes) (e e' : Entry) : Prop :=
  e'.signData ≠ e.signData ∧ (crypto.hmac key e'.signData).1 = (crypto.hmac key e.signData).1

/-- The entry was signed with the key, and sealed by some chain. -/
def SignedAndSealed (crypto : Crypto) (key : Bytes) (e : Entry) : Prop :=
  ∃ (c : Chain) (e₀ : Entry), (c.seal crypto (e₀.sign crypto key)).1 = .ok e

theorem SignedAndSealed.signature (h : SignedAndSealed crypto key e) :
    e.signature = Hex.encodeToString (crypto.hmac key e.signData).1 := by
  obtain ⟨c, e₀, hseal⟩ := h
  rw [(Chain.seal_eq_ok hseal).1]
  rfl

/-- An entry that was signed and sealed passes. -/
theorem SignedAndSealed.passes (h : SignedAndSealed crypto key e) : Passes crypto key e := by
  refine ⟨Entry.verify_of_signature h.signature, ?_⟩
  obtain ⟨c, e₀, hseal⟩ := h
  exact (Chain.seal_eq_ok hseal).2.1

/-! ### What the encoders write -/

theorem Covered.signData_eq (h : Covered e e') : e'.signData = e.signData := by
  unfold Entry.signData
  rw [h.tenantID, h.roundID, h.values, h.createdAt]

theorem Covered.payload_eq (h : Covered e e') (hs : SameSeal e e') : e'.payload = e.payload := by
  unfold Entry.payload Entry.hashData
  rw [h.tenantID, h.roundID, h.values, h.createdAt, hs.prevHash, hs.signature]

/-- **The signed layout is unambiguous.** -/
theorem covered_of_signData (hb : e.Bounded) (hb' : e'.Bounded) (h : e'.signData = e.signData) :
    Covered e e' := by
  have happend : ∀ b x : Bytes, appendLenPrefixed b x = b ++ appendLenPrefixed [] x := by
    intro b x
    simp [appendLenPrefixed]
  simp only [Entry.signData, happend (appendLenPrefixed [] _), List.append_assoc] at h
  -- field by field from the front
  obtain ⟨h1, h⟩ := appendLenPrefixed_inj hb'.tenantID hb.tenantID h
  obtain ⟨h2, h⟩ := appendLenPrefixed_inj hb'.roundID hb.roundID h
  obtain ⟨h3, h⟩ := List.append_inj h ((length_putInt64 _).trans (length_putInt64 _).symm)
  rw [← List.append_nil (putValues e'.values), ← List.append_nil (putValues e.values)] at h
  exact ⟨h1, h2, (putValues_inj hb'.values hb.values h).1, putInt64_inj h3⟩

theorem covered_of_payload (hb : e.Bounded) (hb' : e'.Bounded) (hs : SameSeal e e')
    (h : e'.payload = e.payload) : Covered e e' := by
  obtain ⟨-, h2, h3, h4, h5, -⟩ := hashData_inj hb' hb (by rw [hs.prevHash]) h
  exact ⟨h3, h4, h5, h2⟩

/-! ### The checks -/

/-- A signature that both entries carry verifies exactly if the keyed digests agree. -/
theorem verify_iff {key' : Bytes} (h : e.verify crypto key' = true)
    (hsig : e'.signature = e.signature) : e'.verify crypto key = true ↔
      (crypto.hmac key e'.signData).1 = (crypto.hmac key' e.signData).1 := by
  unfold Entry.verify at h ⊢
  rw [hsig]
  split at h
  · cases h
  · next hne =>
    rw [if_neg hne]
    cases hdec : Hex.decodeString e.signature with
    | error err => rw [hdec] at h; cases h
    | ok got =>
      -- the signature decodes to the digest of `e`
      rw [hdec] at h
      rw [← beq_iff_eq.mp h]
      exact beq_iff_eq

/-- The hash that both entries carry is recomputed exactly if the digests agree. -/
theorem computeHash_iff (h : e.Sound crypto) (hs : SameSeal e e') :
    e'.computeHash crypto = .ok e'.entryHash ↔
      (crypto.sha256 e'.payload).1 = (crypto.sha256 e.payload).1 := by
  obtain ⟨hprev, hsig, hhash⟩ := Entry.computeHash_eq_ok.mp h
  rw [Entry.computeHash_eq_ok, hs.prevHash, hs.signature, hs.entryHash, hhash]
  constructor
  · rintro ⟨-, -, heq⟩
    have hdec := congrArg hexBytes heq
    rw [hexBytes_encodeToString, hexBytes_encodeToString] at hdec
    exact hdec.symm
  · intro heq
    exact ⟨hprev, hsig, by rw [heq]⟩

/-- Both checks of a changed entry come down to the two digests. -/
theorem passes_iff_digests (h : Passes crypto key e) (hs : SameSeal e e') :
    Passes crypto key e' ↔
      (crypto.hmac key e'.signData).1 = (crypto.hmac key e.signData).1 ∧
        (crypto.sha256 e'.payload).1 = (crypto.sha256 e.payload).1 :=
  and_congr (verify_iff h.1 hs.signature) (computeHash_iff h.2 hs)

/-- A change that neither encoder sees is not detected. -/
theorem passes_of_covered (h : Passes crypto key e) (hs : SameSeal e e') (hcov : Covered e e') :
    Passes crypto key e' :=
  (passes_iff_digests h hs).mpr ⟨by rw [hcov.signData_eq], by rw [hcov.payload_eq hs]⟩

/-- **The changes that the auditor detects** are those of the tenant, the round, the
values and the timestamp, for entries whose lengths fit in their 32-bit prefixes; an
entry of any size is detected if what is signed of it, or what is hashed, has changed. -/
theorem passes_iff_covered (h : SignedAndSealed crypto key e) (hs : SameSeal e e') :
    (Covered e e' → Passes crypto key e') ∧
    (e.Bounded → e'.Bounded → Passes crypto key e' →
      Covered e e' ∨ (HashCollides crypto e e' ∧ SignCollides crypto key e e')) ∧
    (Passes crypto key e' → (e'.signData = e.signData ∧ e'.payload = e.payload) ∨
      HashCollides crypto e e' ∨ SignCollides crypto key e e') := by
  refine ⟨passes_of_covered h.passes hs, fun hb hb' hpass => ?_, fun hpass => ?_⟩
  all_goals obtain ⟨hsign, hhash⟩ := (passes_iff_digests h.passes hs).mp hpass
  · by_cases hcov : Covered e e'
    · exact Or.inl hcov
    -- a covered field has changed, so both encoders write something else
    · exact Or.inr ⟨⟨fun heq => hcov (covered_of_payload hb hb' hs heq), hhash⟩,
        fun heq => hcov (covered_of_signData hb hb' heq), hsign⟩
  · by_cases hpay : e'.payload = e.payload
    · by_cases hdata : e'.signData = e.signData
      · exact Or.inl ⟨hdata, hpay⟩
      · exact Or.inr (Or.inr ⟨hdata, hsign⟩)
    · exact Or.inr (Or.inl ⟨hpay, hhash⟩)

/-- A new chain seals the sample entry of round `r`. -/
theorem sample_sealed (crypto : Crypto) : ∃ e, SignedAndSealed crypto [1] e ∧
    (e.tenantID, e.gameID, e.roundID, e.values) = ([116], [103], [114], [5, 1]) ∧
    (e.minValue, e.maxValue) = (0, 9) := by
  obtain ⟨e, hseal⟩ := seal_sign (@resumable_new crypto).decodes
    ⟨[], [], [116], [103], [114], [113], [5, 1], 2, 0, 9, [], 7, false⟩ [1]
  refine ⟨e, ⟨newChain, _, hseal⟩, ?_⟩
  rw [(Chain.seal_eq_ok hseal).1]
  exact ⟨rfl, rfl⟩

/-- Another round is detected, unless both digests collide. -/
theorem passes_iff_covered_sample : ∃ e e', SignedAndSealed Crypto.std [1] e ∧ SameSeal e e' ∧
    e'.roundID ≠ e.roundID ∧ (Passes Crypto.std [1] e' →
      HashCollides Crypto.std e e' ∧ SignCollides Crypto.std [1] e e') := by
  obtain ⟨e, hsealed, hids, -⟩ := sample_sealed Crypto.std
  simp only [Prod.mk.injEq] at hids
  obtain ⟨htenant, -, hround, hvalues⟩ := hids
  have hs : SameSeal e { e with roundID := [115] } := ⟨rfl, rfl, rfl⟩
  have hb : e.Bounded := by
    refine ⟨?_, ?_, ?_⟩
    · rw [htenant]
      decide
    · rw [hround]
      decide
    · rw [hvalues]
      decide
  have hb' : ({ e with roundID := [115] } : Entry).Bounded :=
    ⟨hb.tenantID, Nat.one_lt_two_pow (by decide), hb.values⟩
  have hne : [115] ≠ e.roundID := by
    rw [hround]
    decide
  refine ⟨e, { e with roundID := [115] }, hsealed, hs, hne, fun hpass => ?_⟩
  exact ((passes_iff_covered hsealed hs).2.1 hb hb' hpass).resolve_left fun hcov =>
    hne hcov.roundID

/-- **Another game, or another range, passes.** Changing the game and the bounds of a
sealed entry changes nothing that is signed or hashed. -/
theorem changed_game_passes : ∃ e e', SignedAndSealed Crypto.std [1] e ∧ SameSeal e e' ∧
    e'.gameID ≠ e.gameID ∧ e'.minValue ≠ e.minValue ∧ e'.maxValue ≠ e.maxValue ∧
    Passes Crypto.std [1] e' ∧ ¬ HashCollides Crypto.std e e' ∧
    ¬ SignCollides Crypto.std [1] e e' := by
  obtain ⟨e, hsealed, hids, hrange⟩ := sample_sealed Crypto.std
  simp only [Prod.mk.injEq] at hids hrange
  have hs : SameSeal e { e with gameID := [104], minValue := 3, maxValue := 99 } :=
    ⟨rfl, rfl, rfl⟩
  have hcov : Covered e { e with gameID := [104], minValue := 3, maxValue := 99 } :=
    ⟨rfl, rfl, rfl, rfl⟩
  refine ⟨e, _, hsealed, hs, ?_, ?_, ?_, passes_of_covered hsealed.passes hs hcov,
    fun hcol => hcol.1 (hcov.payload_eq hs), fun hcol => hcol.1 hcov.signData_eq⟩
  · rw [hids.2.1]
    show ([104] : GoString) ≠ [103]
    decide
  · rw [hrange.1]
    show (3 : Int64) ≠ 0
    decide
  · rw [hrange.2]
    show (99 : Int64) ≠ 9
    decide

/-! ### Where a change is found -/

/-- What is fed to the digest when the hash of the entry is computed. -/
def Entry.Hashes (e : Entry) (x : Bytes) : Prop :=
  ∃ p s, Hex.decodeString e.prevHash = .ok p ∧ Hex.decodeString e.signature = .ok s ∧
    x = e.hashData p s

/-- Two different inputs of the digest, one for each entry, have the same digest. -/
def Collides (crypto : Crypto) (e e' : Entry) : Prop :=
  ∃ x x', e.Hashes x ∧ e'.Hashes x' ∧ x ≠ x' ∧ (crypto.sha256 x).1 = (crypto.sha256 x').1

/-- The entry is changed in its hash only, or in something that is hashed and not in its hash. A
signature is changed when it is no spelling of the same bytes. -/
inductive Tampered (e : Entry) : Entry → Prop
  | hash (h : GoString) (hne : h ≠ e.entryHash) : Tampered e { e with entryHash := h }
  | content {e' : Entry} (hash : e'.entryHash = e.entryHash)
      (changed : e'.prevHash ≠ e.prevHash ∨ e'.createdAt.unixNano ≠ e.createdAt.unixNano ∨
        e'.tenantID ≠ e.tenantID ∨ e'.roundID ≠ e.roundID ∨ e'.values ≠ e.values ∨
        Hex.decodeString e'.signature ≠ Hex.decodeString e.signature) : Tampered e e'

theorem Entry.Sound.hashes (h : e.Sound crypto) : ∃ x, e.Hashes x ∧
    e.entryHash = Hex.encodeToString (crypto.sha256 x).1 := by
  obtain ⟨⟨p, hp⟩, ⟨s, hs⟩, hhash⟩ := Entry.computeHash_eq_ok.mp h
  refine ⟨e.hashData p s, ⟨p, s, hp, hs, rfl⟩, ?_⟩
  rw [hhash, Entry.payload, hexBytes, hexBytes, hp, hs]
  rfl

/-- The verifier goes on after the entries it accepts. -/
theorem verifyFrom_append {i : ℕ} {p : GoString} {l m : List Entry} (hl : Linked p l)
    (hs : ∀ e ∈ l, e.Sound crypto) :
    verifyFrom crypto i p (l ++ m) = verifyFrom crypto (i + l.length) (tip p l) m := by
  induction l generalizing i p with
  | nil => rfl
  | cons e l ih =>
    obtain ⟨hprev, hl⟩ := linked_cons.mp hl
    have hsound : e.computeHash crypto = .ok e.entryHash := hs e List.mem_cons_self
    have hrest := ih (i := i + 1) hl fun x hx => hs x (List.mem_cons_of_mem e hx)
    rw [List.cons_append, verifyFrom, if_neg (not_not.mpr hprev), hsound]
    simp only [ne_eq, not_true_eq_false, if_false]
    rw [hrest, List.length_cons, Nat.add_right_comm, Nat.add_assoc]
    rfl

/-- The verifier stops at an entry that is out of place or not sound. -/
theorem verifyFrom_stops {i : ℕ} {p : GoString} {l : List Entry}
    (h : e.prevHash = p → ¬ e.Sound crypto) :
    ∃ err, verifyFrom crypto i p (e :: l) = ((i : ℤ), some err) := by
  rw [verifyFrom]
  split
  · exact ⟨_, rfl⟩
  · next hprev =>
    have hunsound := h (not_not.mp hprev)
    cases hcomputed : e.computeHash crypto with
    | error err => exact ⟨_, rfl⟩
    | ok computed =>
      simp only
      split
      · exact ⟨_, rfl⟩
      · next heq =>
        rw [not_not.mp heq] at hcomputed
        exact absurd hcomputed hunsound

/-- **A changed entry is out of place or not sound**, unless the digest collides. -/
theorem Tampered.unsound (ht : Tampered e e') (hs : e.Sound crypto) (hb : e.Bounded)
    (hb' : e'.Bounded) (hno : ¬ Collides crypto e e') (hprev : e'.prevHash = e.prevHash) :
    ¬ e'.Sound crypto := by
  intro hs'
  obtain ⟨x, hx, hhash⟩ := hs.hashes
  obtain ⟨x', hx', hhash'⟩ := hs'.hashes
  cases ht with
  | hash h hne =>
    -- the same bytes are hashed, so the hash is the same
    obtain ⟨p, s, hp, hsig, rfl⟩ := hx
    obtain ⟨p', s', hp', hsig', rfl⟩ := hx'
    obtain rfl := Except.ok.inj (hp.symm.trans hp')
    obtain rfl := Except.ok.inj (hsig.symm.trans hsig')
    exact hne (hhash'.trans hhash.symm)
  | content hash changed =>
    -- the same hash is computed from other bytes
    refine hno ⟨x, x', hx, hx', fun heq => ?_, ?_⟩
    · obtain ⟨p, s, hp, hsig, rfl⟩ := hx
      obtain ⟨p', s', hp', hsig', rfl⟩ := hx'
      rw [hprev, hp] at hp'
      obtain rfl := Except.ok.inj hp'
      obtain ⟨-, htime, htenant, hround, hvalues, hsignature⟩ := hashData_inj hb hb' rfl heq
      rw [htime, htenant, hround, hvalues, hsig, hsig', hsignature] at changed
      simp [hprev] at changed
    · have hdec := congrArg hexBytes (hhash.symm.trans (hash.symm.trans hhash'))
      rwa [hexBytes_encodeToString, hexBytes_encodeToString] at hdec

/-- **Tampering is located**: when one entry of an accepted list is changed, the verifier stops
there and nowhere else, unless two different inputs have the same digest. -/
theorem tampering_located (crypto : Crypto) (entries : List Entry) (h : GoString) (i : ℕ)
    (e e' : Entry) (haccepted : verifyEntries crypto entries h = (-1, none))
    (hi : entries[i]? = some e) (hb : e.Bounded) (hb' : e'.Bounded) (ht : Tampered e e') :
    (∃ err, verifyEntries crypto (entries.set i e') h = ((i : ℤ), some err)) ∨
      Collides crypto e e' := by
  by_cases hno : Collides crypto e e'
  · exact Or.inr hno
  refine Or.inl ?_
  obtain ⟨hlinked, hsound⟩ := verifyEntries_eq.mp haccepted
  obtain ⟨hlt, hget⟩ := List.getElem?_eq_some_iff.mp hi
  -- the entry sits between a verified prefix and the rest
  have hentries : entries = entries.take i ++ e :: entries.drop (i + 1) := by
    rw [← hget, List.getElem_cons_drop, List.take_append_drop]
  have hset : entries.set i e' = entries.take i ++ e' :: entries.drop (i + 1) := by
    rw [List.set_eq_take_append_cons_drop, if_pos hlt]
  rw [hentries] at hlinked
  obtain ⟨hbefore, hplace⟩ := HashLog.linked_append.mp hlinked
  have hprev : e.prevHash = tip h (entries.take i) := (linked_cons.mp hplace).1
  have hfound : ∃ err, verifyFrom crypto i (tip h (entries.take i))
      (e' :: entries.drop (i + 1)) = ((i : ℤ), some err) :=
    verifyFrom_stops fun hp =>
      ht.unsound (hsound e (List.mem_of_getElem? hi)) hb hb' hno (hp.trans hprev.symm)
  rw [verifyEntries, hset, verifyFrom_append hbefore fun x hx => hsound x (List.mem_of_mem_take hx),
    List.length_take, Nat.min_eq_left hlt.le, Nat.zero_add]
  exact hfound

/-- The values of the second of two entries are changed. -/
theorem tampering_located_second :
    let l := sealedLog Crypto.std [1] newChain
      [⟨[], [], [116], [103], [114], [113], [5, 1], 2, 0, 9, [], 7, false⟩,
        ⟨[], [], [116], [103], [115], [113], [3], 1, 0, 9, [], 8, false⟩]
    l.length = 2 ∧ ∃ e, l[1]? = some e ∧ e.values ≠ [6] ∧
      ((∃ err, verifyEntries Crypto.std (l.set 1 { e with values := [6] }) zeroHash
        = (1, some err)) ∨ Collides Crypto.std e { e with values := [6] }) := by
  intro l
  obtain ⟨hlen, haccepted, hall⟩ : l.length = 2 ∧
      verifyEntries Crypto.std l zeroHash = (-1, none) ∧
      ∀ x ∈ l, x.tenantID.length < 2 ^ 32 ∧ x.roundID.length < 2 ^ 32 ∧
        x.values.length < 2 ^ 32 ∧ x.values ≠ [6] := by decide +kernel
  -- the entries themselves are not looked at any more
  clear_value l
  obtain ⟨e, hget⟩ : ∃ e, l[1]? = some e := ⟨_, List.getElem?_eq_getElem hlen.ge⟩
  obtain ⟨htenant, hround, hvalues, hne⟩ := hall e (List.mem_of_getElem? hget)
  have hb' : ({ e with values := [6] } : Entry).Bounded :=
    ⟨htenant, hround, Nat.one_lt_two_pow (by decide)⟩
  exact ⟨hlen, e, hget, hne,
    tampering_located Crypto.std l zeroHash 1 e _ haccepted hget ⟨htenant, hround, hvalues⟩ hb'
      (.content rfl (Or.inr (Or.inr (Or.inr (Or.inr (Or.inl hne.symm))))))⟩

/-! ### Signatures of other entries -/

/-- An entry verifies right after it was signed with the same key. -/
theorem verify_sign (e : Entry) (key : Bytes) : (e.sign crypto key).verify crypto key = true :=
  Entry.verify_of_signature rfl

/-- HMAC collides across two keys: what is signed of the entries differs, and the keyed digests
agree. -/
def KeyedCollides (crypto : Crypto) (key key' : Bytes) (e e' : Entry) : Prop :=
  e'.signData ≠ e.signData ∧ (crypto.hmac key e'.signData).1 = (crypto.hmac key' e.signData).1

/-- **The signed payload is unambiguous**: it determines the tenant, the round, the time and the
values. So the signature of another entry, made with the same key or with a different one,
verifies only where the entries agree on these, or HMAC collides; and every entry verifies right
after it was signed. -/
theorem signature_unambiguous (crypto : Crypto) (e e' : Entry) (hb : e.Bounded)
    (hb' : e'.Bounded) :
    (e'.signData = e.signData → Covered e e') ∧
    (∀ key key', e.verify crypto key' = true → e'.signature = e.signature →
      e'.verify crypto key = true → Covered e e' ∨ KeyedCollides crypto key key' e e') ∧
    ∀ (e₀ : Entry) (key : Bytes), (e₀.sign crypto key).verify crypto key = true := by
  refine ⟨covered_of_signData hb hb', fun key key' h hsig hverify => ?_, verify_sign⟩
  by_cases hdata : e'.signData = e.signData
  · exact Or.inl (covered_of_signData hb hb' hdata)
  · exact Or.inr ⟨hdata, (verify_iff h hsig).mp hverify⟩

/-- A byte moved from the tenant to the round, with the signature kept. -/
theorem signature_unambiguous_moved :
    let e := Entry.sign Crypto.std
      ⟨[], [], [116, 114], [103], [115], [113], [5, 1], 2, 0, 9, [], 7, false⟩ [1]
    let e' := { e with tenantID := [116], roundID := [114, 115] }
    e'.signData ≠ e.signData ∧
      (e'.verify Crypto.std [1] = true → KeyedCollides Crypto.std [1] [1] e e') := by
  intro e e'
  have hb : e.Bounded := ⟨Nat.lt_trans (by decide : 2 < 2 ^ 2) (by decide),
    Nat.one_lt_two_pow (by decide), Nat.lt_trans (by decide : 2 < 2 ^ 2) (by decide)⟩
  have hb' : e'.Bounded := ⟨Nat.one_lt_two_pow (by decide),
    Nat.lt_trans (by decide : 2 < 2 ^ 2) (by decide), hb.values⟩
  obtain ⟨hdata, hcarried, -⟩ := signature_unambiguous Crypto.std e e' hb hb'
  have hne : ([116] : GoString) ≠ [116, 114] := by decide
  refine ⟨fun heq => hne (hdata heq).tenantID, fun hverify => ?_⟩
  exact (hcarried [1] [1] (verify_sign _ _) rfl hverify).resolve_left fun hcov => hne hcov.tenantID

end Audit
