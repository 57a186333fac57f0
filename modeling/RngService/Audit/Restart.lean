import Mathlib
import RngService.Audit.Store

/-!
# Restarts

A service that restarts resumes its chain with `LoadChain` from `LatestHash` of the
store. `sessions` runs lists of entries as consecutive sessions, `session` runs one of
them without interruption.

`Resumable` is what holds between the chain and the store whenever no entry is between
its sealing and its append. Every entry that is signed keeps it (`record_signed`), and
from a resumable pair `LoadChain` gives back the chain (`Resumable.loadChain`), so
restarts leave no trace in the store (`sessions_eq_session`).
-/

namespace Audit

variable (crypto : Crypto)

/-- `Seal`, then `Append`. -/
def record (c : Chain) (s : InMemoryStore) (e : Entry) : Except GoError (Chain × InMemoryStore) :=
  match c.seal crypto e with
  | (.error err, _) => .error err
  | (.ok e, c) =>
    match s.append e with
    | (some err, _) => .error err
    | (none, s) => .ok (c, s)

/-- One session: its entries are sealed and appended one after the other. -/
def session (c : Chain) (s : InMemoryStore) : List Entry → Except GoError (Chain × InMemoryStore)
  | [] => .ok (c, s)
  | e :: es => do
    let (c, s) ← record crypto c s e
    session c s es

/-- The sessions after the first one: each resumes the chain from the store. -/
def laterSessions (s : InMemoryStore) : List (List Entry) → Except GoError InMemoryStore
  | [] => .ok s
  | es :: rest => do
    let c ← loadChain s.latestHash
    let (_, s) ← session crypto c s es
    laterSessions s rest

/-- Consecutive sessions, the first with a new chain and a new store. -/
def sessions : List (List Entry) → Except GoError InMemoryStore
  | [] => .ok InMemoryStore.new
  | es :: rest => do
    let (_, s) ← session crypto newChain InMemoryStore.new es
    laterSessions crypto s rest

/-- The entry has been signed with `Sign`. -/
def Entry.Signed (e : Entry) : Prop := ∃ e₀ key, e = Entry.sign crypto e₀ key

/-- **The chain can be resumed from the store**: its tip is the latest hash, which is
well formed, and the entries are accepted. -/
structure Resumable (c : Chain) (s : InMemoryStore) : Prop where
  tip : s.latestHash = c.prevHash
  length : c.prevHash.length = 64
  decodes : ∃ b, Hex.decodeString c.prevHash = .ok b
  accepted : verifyEntries crypto s.entries zeroHash = (-1, none)

variable {crypto} {c : Chain} {s : InMemoryStore}

theorem resumable_new : Resumable crypto newChain InMemoryStore.new := by
  obtain ⟨b, hb, -⟩ := decodeString_of_digits (by decide) isHash_zeroHash.2
  exact ⟨rfl, List.length_replicate, ⟨b, hb⟩, rfl⟩

/-- `LoadChain` resumes the chain. -/
theorem Resumable.loadChain (h : Resumable crypto c s) : loadChain s.latestHash = .ok c := by
  rw [h.tip, Audit.loadChain, if_neg (not_not.mpr h.length)]

/-- A signed entry can be sealed by a chain whose tip is well formed. -/
theorem seal_sign (hdec : ∃ b, Hex.decodeString c.prevHash = .ok b) (e₀ : Entry) (key : Bytes) :
    ∃ e, (c.seal crypto (e₀.sign crypto key)).1 = .ok e := by
  -- the tip and the signature decode, so the hash can be computed
  have hsig : Hex.decodeString (e₀.sign crypto key).signature
      = .ok (crypto.hmac key e₀.signData).1 := Hex.decodeString_encodeToString _
  have hhash := (@Entry.computeHash_eq_ok crypto
    { e₀.sign crypto key with prevHash := c.prevHash } _).mpr ⟨hdec, ⟨_, hsig⟩, rfl⟩
  rw [Chain.seal, if_neg (Entry.signature_sign_ne_nil e₀ key)]
  simp only [hhash]
  exact ⟨_, rfl⟩

/-- The hash of a sealed entry is sixty-four digits. -/
theorem Entry.Sound.digits {e : Entry} (h : e.Sound crypto) :
    e.entryHash.length = 64 ∧ ∃ b, Hex.decodeString e.entryHash = .ok b := by
  rw [(Entry.computeHash_eq_ok.mp h).2.2, Hex.length_encodeToString, (crypto.sha256 _).2]
  exact ⟨rfl, _, Hex.decodeString_encodeToString _⟩

/-- **Sealing and appending a signed entry** succeeds, and leaves the chain resumable. -/
theorem record_signed (h : Resumable crypto c s) {e : Entry} (he : e.Signed crypto) :
    ∃ e' c' s', record crypto c s e = .ok (c', s') ∧ s'.entries = s.entries ++ [e'] ∧
      Resumable crypto c' s' := by
  obtain ⟨e₀, key, rfl⟩ := he
  obtain ⟨e', hseal⟩ := seal_sign h.decodes e₀ key
  obtain ⟨heq, hsound, htip⟩ := Chain.seal_eq_ok hseal
  have hprev : e'.prevHash = c.prevHash := by rw [heq]
  obtain ⟨hlen, hdec⟩ := hsound.digits
  -- both hashes are there, so the store takes the entry
  have happend : s.append e' = (none, ⟨s.entries ++ [e']⟩) := by
    refine if_neg (not_or.mpr ⟨fun h0 => ?_, fun h0 => ?_⟩)
    · rw [h0] at hlen
      cases hlen
    · have hl := h.length
      rw [← hprev, h0] at hl
      cases hl
  rcases hres : c.seal crypto (e₀.sign crypto key) with ⟨r, c'⟩
  rw [hres] at hseal htip
  obtain rfl : r = .ok e' := hseal
  refine ⟨e', c', ⟨s.entries ++ [e']⟩, ?_, rfl, ?_, ?_, ?_, ?_⟩
  · rw [record, hres]
    simp only [happend]
  · rw [InMemoryStore.latestHash_eq_tip, Audit.tip, HashLog.tip_append]
    exact htip.symm
  · rw [htip, hlen]
  · rw [htip]
    exact hdec
  -- the new entry names the tip, and carries its own hash
  · obtain ⟨hlinked, hall⟩ := verifyEntries_eq.mp h.accepted
    refine verifyEntries_eq.mpr ⟨HashLog.linked_concat.mpr ⟨hlinked, ?_⟩, fun e he => ?_⟩
    · rw [hprev, ← h.tip, InMemoryStore.latestHash_eq_tip]
    · rcases List.mem_append.mp he with he | he
      · exact hall e he
      · rw [List.mem_singleton.mp he]
        exact hsound

/-- A session of signed entries succeeds, and stores one entry for each of them. -/
theorem session_signed (h : Resumable crypto c s) {es : List Entry}
    (hes : ∀ e ∈ es, e.Signed crypto) :
    ∃ c' s', session crypto c s es = .ok (c', s') ∧ Resumable crypto c' s' ∧
      s'.entries.length = s.entries.length + es.length := by
  induction es generalizing c s with
  | nil => exact ⟨c, s, rfl, h, rfl⟩
  | cons e es ih =>
    obtain ⟨e', c₁, s₁, hrec, hs₁, h₁⟩ := record_signed h (hes e List.mem_cons_self)
    obtain ⟨c₂, s₂, hsess, h₂, hlen⟩ := ih h₁ fun e he => hes e (List.mem_cons_of_mem _ he)
    refine ⟨c₂, s₂, ?_, h₂, ?_⟩
    · rw [session, hrec]
      exact hsess
    · rw [hlen, hs₁, List.length_append, List.length_singleton, List.length_cons]
      omega

theorem session_append (c : Chain) (s : InMemoryStore) (es es' : List Entry) :
    session crypto c s (es ++ es') =
      session crypto c s es >>= fun cs => session crypto cs.1 cs.2 es' := by
  induction es generalizing c s with
  | nil => rfl
  | cons e es ih =>
    rw [List.cons_append, session, session]
    cases record crypto c s e with
    | error err => rfl
    | ok cs => exact ih cs.1 cs.2

/-- Sessions from a resumable pair are one session of all their entries. -/
theorem laterSessions_eq (h : Resumable crypto c s) {ss : List (List Entry)}
    (hss : ∀ es ∈ ss, ∀ e ∈ es, e.Signed crypto) :
    laterSessions crypto s ss = (session crypto c s ss.flatten).map Prod.snd := by
  induction ss generalizing c s with
  | nil => rfl
  | cons es ss ih =>
    obtain ⟨c₁, s₁, hsess, h₁, -⟩ := session_signed h (hss es List.mem_cons_self)
    -- the session starts from the chain that the last one has left
    have hlater : laterSessions crypto s (es :: ss) = laterSessions crypto s₁ ss := by
      rw [laterSessions, h.loadChain]
      show (session crypto c s es >>= _) = _
      rw [hsess]
      rfl
    have hwhole : session crypto c s (es :: ss).flatten = session crypto c₁ s₁ ss.flatten := by
      rw [List.flatten_cons, session_append, hsess]
      rfl
    rw [hlater, hwhole]
    exact ih h₁ fun es' hes' => hss es' (List.mem_cons_of_mem _ hes')

/-- **Restarts leave no trace.** Cutting a list of signed entries into sessions, of any
lengths, leads to the same store as one uninterrupted session; nothing fails, every entry
is stored, and `VerifyEntries` accepts the whole store from the zero hash. -/
theorem sessions_eq_session (crypto : Crypto) (ss : List (List Entry))
    (hss : ∀ es ∈ ss, ∀ e ∈ es, e.Signed crypto) :
    ∃ c s, session crypto newChain InMemoryStore.new ss.flatten = .ok (c, s) ∧
      sessions crypto ss = .ok s ∧ s.entries.length = ss.flatten.length ∧
      verifyEntries crypto s.entries zeroHash = (-1, none) := by
  have hflat : ∀ e ∈ ss.flatten, e.Signed crypto := by
    intro e he
    obtain ⟨es, hes, he⟩ := List.mem_flatten.mp he
    exact hss es hes e he
  obtain ⟨c, s, hsess, h, hlen⟩ := session_signed resumable_new hflat
  refine ⟨c, s, hsess, ?_, hlen.trans (Nat.zero_add _), h.accepted⟩
  cases ss with
  | nil => exact (congrArg (Except.map Prod.snd) hsess : _)
  | cons es ss =>
    obtain ⟨c₁, s₁, hfirst, h₁, -⟩ := session_signed (@resumable_new crypto)
      (hss es List.mem_cons_self)
    -- the first session ends in a resumable pair, and the others go on from it
    have hrest : session crypto newChain InMemoryStore.new (es :: ss).flatten
        = session crypto c₁ s₁ ss.flatten := by
      rw [List.flatten_cons, session_append, hfirst]
      rfl
    have hsessions : sessions crypto (es :: ss) = laterSessions crypto s₁ ss := by
      rw [sessions, hfirst]
      rfl
    rw [hsessions, laterSessions_eq h₁ fun es' hes' => hss es' (List.mem_cons_of_mem _ hes'),
      ← hrest, hsess]
    rfl

/-- An entry of tenant `t` and game `g` with values from 0 to 9, signed with the key
`[1]`. -/
def sampleEntry (crypto : Crypto) (roundID : GoString) (values : List Int64) (createdAt : Time) :
    Entry :=
  Entry.sign crypto
    ⟨[], [], [116], [103], roundID, [113], values, values.length, 0, 9, [], createdAt, false⟩ [1]

/-- Two entries in three sessions, the second of which is empty. -/
theorem sessions_eq_session_three :
    let e := sampleEntry Crypto.std [114] [5, 1] 7
    let e' := sampleEntry Crypto.std [115] [3] 8
    ∃ c s, session Crypto.std newChain InMemoryStore.new [e, e'] = .ok (c, s) ∧
      sessions Crypto.std [[e], [], [e']] = .ok s ∧ s.entries.length = 2 ∧
      verifyEntries Crypto.std s.entries zeroHash = (-1, none) := by
  intro e e'
  refine sessions_eq_session Crypto.std [[e], [], [e']] fun es hes x hx => ?_
  simp only [List.mem_cons, List.not_mem_nil, or_false] at hes
  rcases hes with rfl | rfl | rfl
  · rw [List.mem_singleton.mp hx]
    exact ⟨_, _, rfl⟩
  · cases hx
  · rw [List.mem_singleton.mp hx]
    exact ⟨_, _, rfl⟩

/-! ### Chains that do not get stuck -/

/-- The chains reached from `c₀` by sealing signed entries, whether that succeeds or not. -/
inductive Reached (crypto : Crypto) (c₀ : Chain) : Chain → Prop
  | refl : Reached crypto c₀ c₀
  | sealed {c : Chain} {e : Entry} (h : Reached crypto c₀ c) (he : e.Signed crypto) :
      Reached crypto c₀ (c.seal crypto e).2

/-- **A chain never gets stuck**: in every state reached from it, the tip is sixty-four digits
and every signed entry can be sealed. -/
def NeverStuck (crypto : Crypto) (c₀ : Chain) : Prop :=
  ∀ c, Reached crypto c₀ c → IsHash c.prevHash ∧
    ∀ e, e.Signed crypto → ∃ e', (c.seal crypto e).1 = .ok e'

/-- What is encoded is digits. -/
theorem digits_encodeToString (b : Bytes) :
    ∀ c ∈ Hex.encodeToString b, (Hex.fromHexChar c).isSome := by
  intro c hc
  obtain ⟨x, -, hx⟩ := List.mem_flatMap.mp hc
  have hhi : x.toNat / 16 < 16 := by have := x.toNat_lt; omega
  have hlo : x.toNat % 16 < 16 := Nat.mod_lt _ (by decide)
  simp only [List.mem_cons, List.not_mem_nil, or_false] at hx
  rcases hx with rfl | rfl
  · rw [Hex.fromHexChar_digit hhi]
    rfl
  · rw [Hex.fromHexChar_digit hlo]
    rfl

/-- What decodes is digits. -/
theorem digits_of_decodeString {s : GoString} {b : Bytes} (h : Hex.decodeString s = .ok b) :
    ∀ c ∈ s, (Hex.fromHexChar c).isSome := by
  induction s using Hex.decodeString.induct generalizing b with
  | case1 => exact fun c hc => absurd hc List.not_mem_nil
  | case2 a ha => rw [Hex.decodeString, if_pos ha] at h; cases h
  | case3 a ha => rw [Hex.decodeString, if_neg ha] at h; cases h
  | case4 a a' rest hi lo ha ha' ih =>
    rw [Hex.decodeString, ha, ha'] at h
    cases hrest : Hex.decodeString rest with
    | error err => simp only [hrest] at h; cases h
    | ok b' =>
      intro c hc
      rcases List.mem_cons.mp hc with rfl | hc
      · rw [ha']
        rfl
      · rcases List.mem_cons.mp hc with rfl | hc
        · rw [ha]
          rfl
        · exact ih hrest c hc
  | case5 a a' rest hi ha' ha => rw [Hex.decodeString, ha, ha'] at h; cases h
  | case6 a a' rest ha => rw [Hex.decodeString, ha] at h; cases h

/-- The hash of a sealed entry is a hash. -/
theorem Entry.Sound.isHash {e : Entry} (h : e.Sound crypto) : IsHash e.entryHash := by
  refine ⟨h.digits.1, ?_⟩
  rw [(Entry.computeHash_eq_ok.mp h).2.2]
  exact digits_encodeToString _

/-- **From a tip of digits**, every tip is digits. -/
theorem Reached.isHash {c₀ : Chain} (h : Reached crypto c₀ c) (h₀ : IsHash c₀.prevHash) :
    IsHash c.prevHash := by
  induction h with
  | refl => exact h₀
  | @sealed c e h he ih =>
    rcases hres : c.seal crypto e with ⟨r, c'⟩
    rcases Chain.seal_cases hres with ⟨e', -, -, hsound, htip⟩ | ⟨-, heq⟩
    · rw [htip]
      exact hsound.isHash
    · rw [heq]
      exact ih

theorem neverStuck_of_isHash {c₀ : Chain} (h₀ : IsHash c₀.prevHash) : NeverStuck crypto c₀ := by
  intro c hc
  have hash := hc.isHash h₀
  refine ⟨hash, fun e he => ?_⟩
  obtain ⟨e₀, key, rfl⟩ := he
  obtain ⟨b, hb, -⟩ := decodeString_of_digits (by rw [hash.1]; decide) hash.2
  exact seal_sign ⟨b, hb⟩ e₀ key

/-- A tip that is not digits cannot be decoded, so nothing is ever sealed. -/
theorem seal_not_digits (h : ¬ ∀ x ∈ c.prevHash, (Hex.fromHexChar x).isSome) (e : Entry) :
    (∃ err, (c.seal crypto e).1 = .error err) ∧ (c.seal crypto e).2 = c := by
  rcases hres : c.seal crypto e with ⟨r, c'⟩
  rcases Chain.seal_cases hres with ⟨e', -, heq, hsound, -⟩ | ⟨herr, heq⟩
  · obtain ⟨⟨b, hb⟩, -⟩ := Entry.computeHash_eq_ok.mp hsound
    rw [heq] at hb
    exact absurd (digits_of_decodeString hb) h
  · exact ⟨herr, heq⟩

/-- **A chain never gets stuck exactly when its first tip is digits**: a new chain never does; a
loaded one does not if the hash it was loaded from is digits, and else never seals anything. -/
theorem neverStuck_iff (crypto : Crypto) : NeverStuck crypto newChain ∧
    ∀ (h : GoString) (c₀ : Chain), loadChain h = .ok c₀ →
      (NeverStuck crypto c₀ ↔ ∀ x ∈ h, (Hex.fromHexChar x).isSome) ∧
      ((¬ ∀ x ∈ h, (Hex.fromHexChar x).isSome) → ∀ c, Reached crypto c₀ c →
        ∀ e, ∃ err, (c.seal crypto e).1 = .error err) := by
  refine ⟨neverStuck_of_isHash isHash_zeroHash, fun h c₀ hload => ?_⟩
  -- only the length is checked
  have hlen : h.length = 64 ∧ c₀ = ⟨h⟩ := by
    unfold loadChain at hload
    split at hload
    · cases hload
    · next hlen => exact ⟨not_not.mp hlen, (Except.ok.inj hload).symm⟩
  obtain ⟨hlen, rfl⟩ := hlen
  refine ⟨⟨fun hnever => (hnever _ .refl).1.2, fun hdigits => ?_⟩, fun hno c hc e => ?_⟩
  · exact neverStuck_of_isHash ⟨hlen, hdigits⟩
  · have hsame : c = ⟨h⟩ := by
      induction hc with
      | refl => rfl
      | sealed hc he ih =>
        subst ih
        exact (seal_not_digits hno _).2
    subst hsame
    exact (seal_not_digits hno e).1

/-- The chain loaded from the zero hash. -/
theorem neverStuck_iff_zero :
    ∃ c, loadChain zeroHash = .ok c ∧ NeverStuck Crypto.std c :=
  ⟨⟨zeroHash⟩, rfl, (((neverStuck_iff Crypto.std).2 zeroHash ⟨zeroHash⟩ rfl).1).mpr
    isHash_zeroHash.2⟩

/-- **Sixty-four letters `z`** are accepted, and the first entry cannot be sealed. -/
theorem loaded_stuck : ∃ c, loadChain (List.replicate 64 122) = .ok c ∧
    ¬ NeverStuck Crypto.std c ∧
    ∃ err, (c.seal Crypto.std (sampleEntry Crypto.std [114] [5, 1] 7)).1 = .error err := by
  have hno : ¬ ∀ x ∈ (List.replicate 64 122 : GoString), (Hex.fromHexChar x).isSome := by
    intro h
    exact absurd (h 122 (List.mem_replicate.mpr ⟨by decide, rfl⟩)) (by decide)
  refine ⟨⟨List.replicate 64 122⟩, rfl, fun hnever => ?_, (seal_not_digits hno _).1⟩
  exact hno (hnever _ .refl).1.2

end Audit
