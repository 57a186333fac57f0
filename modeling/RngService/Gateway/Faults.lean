import Mathlib
import RngService.Audit.Restart
import RngService.Gateway.Token

/-!
# Faults

What a request is answered when the entropy pool, the random source or the store fail, or the
rate limiter refuses: `Mishaps` are what happens to a request in its own calls.

`status` is the status of a request as its tenant and its content determine it, and `verdict`
the one that it gets: the tenant depends on the clock if a token can expire, and the request may
be refused or fail. `status_determined` says that in every interleaving it is the status of the
response: no failure of one request is seen by another. Two things make it so. A chain whose tip
is well formed seals every signed entry, whoever has sealed before; and a generator that is
seeded never fails.
-/

namespace Gateway

open Audit Prog

/-! ### Mishaps -/

/-- In the call, something that the service depends on fails. -/
def failing : Op → Env → Bool
  | .collectForReseed .., e => !e.entropy.isOk
  | .newRequestID, e => !e.random.isOk
  | .appendEntry _, e => e.appendErr.isSome
  | .getByRound _, e => e.queryErr.isSome
  | _, _ => false

/-- In the call, the rate limiter refuses. -/
def refusing : Op → Env → Bool
  | .allow _, e => !e.allow
  | _, _ => false

/-- What has happened to a request. -/
structure Mishaps where
  /-- the instant of its first call, once it has made one -/
  first : Option Time
  failed : Bool
  refused : Bool

/-- What has happened after one more call. -/
def Mishaps.after (q : Mishaps) (o : Op) (e : Env) : Mishaps :=
  ⟨q.first.or (some e.now), q.failed || failing o e, q.refused || refusing o e⟩

/-- No call has been made. -/
def untouched : Mishaps := ⟨none, false, false⟩

/-- Nothing has happened since the first call. -/
def calm (t : Time) : Mishaps := ⟨some t, false, false⟩

/-- A call has failed. -/
def struck (t : Time) : Mishaps := ⟨some t, true, false⟩

/-- What has happened to thread `i`. -/
def mishaps (i : ℕ) (tr : Trace) : Mishaps :=
  ⟨(tr.find? fun ev => ev.caller == i).map fun ev => ev.input.now,
    tr.any fun ev => ev.caller == i && failing ev.op ev.input,
    tr.any fun ev => ev.caller == i && refusing ev.op ev.input⟩

theorem mishaps_concat_self (i : ℕ) (tr : Trace) (e : Env) (o : Op) (r : Ret o) :
    mishaps i (tr ++ [⟨i, e, o, r⟩]) = (mishaps i tr).after o e := by
  have hself : ([⟨i, e, o, r⟩] : Trace).find? (fun ev => ev.caller == i) = some ⟨i, e, o, r⟩ :=
    List.find?_cons_of_pos (beq_self_eq_true i)
  simp only [mishaps, Mishaps.after, List.find?_append, hself, Option.map_or, Option.map_some,
    List.any_append, List.any_cons, List.any_nil, beq_self_eq_true, Bool.true_and, Bool.or_false]

theorem mishaps_concat_ne {i j : ℕ} (h : i ≠ j) (tr : Trace) (e : Env) (o : Op) (r : Ret o) :
    mishaps j (tr ++ [⟨i, e, o, r⟩]) = mishaps j tr := by
  simp [mishaps, h]

/-! ### What the service can rely on -/

/-- The answer is an error exactly if something has failed, and otherwise satisfies `P`. -/
def Answer {α : Type} (failed : Bool) (P : α → Prop) : Except GoError α → Prop
  | .ok a => failed = false ∧ P a
  | .error _ => failed = true

/-- The answers of the operations. The generator never fails, and neither does sealing. -/
def Regular : (o : Op) → Env → Ret o → Prop
  | .now, e, r => r = e.now
  | .generate _, _, r => Answer false (fun _ => True) r
  | .reseed _, _, r => Answer false (fun _ => True) r
  | .collectForReseed size _ _, e, r => Answer (!e.entropy.isOk) (·.length = size) r
  | .newRequestID, e, r => Answer (!e.random.isOk) (fun _ => True) r
  | .sealEntry _, _, r => Answer false (fun e' => e'.entryHash ≠ [] ∧ e'.prevHash ≠ []) r
  | .appendEntry _, e, r => Answer e.appendErr.isSome (fun _ => True) r
  | .getByRound _, e, r => Answer e.queryErr.isSome (fun _ => True) r
  | .allow _, e, r => r = e.allow
  | _, _, _ => True

/-- **The model of the surroundings.** Only signed entries may be sealed, only sealed ones
appended, and a seed has to be long enough. -/
def dependable (crypto : Crypto) : Prog.Model Op Ret Mishaps where
  allowed
    | .sealEntry e, _ => e.Signed crypto
    | .appendEntry e, _ => e.entryHash ≠ [] ∧ e.prevHash ≠ []
    | .reseed entropy, _ => Csprng.seedLen ≤ entropy.length
    | _, _ => True
  step o q r q' := ∃ e, Regular o e r ∧ q' = q.after o e

/-- The chain in memory has a tip that is well formed. -/
def Sealable (c : Chain) : Prop :=
  c.prevHash.length = 64 ∧ ∃ b, Hex.decodeString c.prevHash = .ok b

variable {srv : Server}

/-- A chain that is sealable seals a signed entry, and stays sealable. -/
theorem Sealable.seal {c : Chain} (h : Sealable c) {e : Entry} (he : e.Signed srv.crypto) :
    ∃ e', (c.seal srv.crypto e).1 = .ok e' ∧ e'.entryHash ≠ [] ∧ e'.prevHash ≠ [] ∧
      Sealable (c.seal srv.crypto e).2 := by
  obtain ⟨e₀, key, rfl⟩ := he
  obtain ⟨e', hseal⟩ := seal_sign h.2 e₀ key
  obtain ⟨heq, hsound, htip⟩ := Chain.seal_eq_ok hseal
  have hprev : e'.prevHash = c.prevHash := by rw [heq]
  obtain ⟨hlen, hdec⟩ := hsound.digits
  have hne : ∀ {l : GoString}, l.length = 64 → l ≠ [] := by
    rintro l hl rfl
    cases hl
  exact ⟨e', hseal, hne hlen, hne (hprev ▸ h.1), htip ▸ hlen, htip ▸ hdec⟩

/-- **One call**: from a sealable chain every operation that is allowed gives a regular answer,
and leaves a sealable chain. -/
theorem exec_regular {aes : Csprng.BlockCipher} {o : Op} {e : Env} {q : Mishaps}
    {w w' : World Csprng.DRBG} {r : Ret o} (hchain : Sealable w.chain)
    (hallowed : (dependable srv.crypto).allowed o q)
    (hsem : exec (Device.drbg aes) srv.crypto o e w = some (r, w')) :
    Regular o e r ∧ Sealable w'.chain := by
  cases o with
  | sealEntry entry =>
    obtain ⟨e', hseal, hhash, hprev, hnext⟩ := hchain.seal hallowed
    rw [exec] at hsem
    rcases hres : w.chain.seal srv.crypto entry with ⟨r', chain⟩
    rw [hres] at hsem hseal hnext
    obtain rfl : r' = .ok e' := hseal
    obtain ⟨rfl, rfl⟩ := Prod.mk.inj (Option.some.inj hsem)
    exact ⟨⟨rfl, hhash, hprev⟩, hnext⟩
  | appendEntry entry =>
    refine ⟨?_, (append_spec hsem).1 ▸ hchain⟩
    rw [exec] at hsem
    cases herr : e.appendErr with
    | some err =>
      rw [herr] at hsem
      obtain ⟨rfl, -⟩ := Prod.mk.inj (Option.some.inj hsem)
      exact congrArg Option.isSome herr
    | none =>
      have happend : w.store.append entry = (none, ⟨w.store.entries ++ [entry]⟩) :=
        if_neg (not_or.mpr hallowed)
      simp only [herr, happend] at hsem
      obtain ⟨rfl, -⟩ := Prod.mk.inj (Option.some.inj hsem)
      exact ⟨congrArg Option.isSome herr, trivial⟩
  | reseed entropy =>
    refine ⟨?_, (exec_quiet (o := .reseed entropy) trivial hsem).1 ▸ hchain⟩
    have hreseed : w.drbg.reseed aes entropy = .ok (w.drbg.updateLocked aes (entropy.take _)) :=
      if_neg (not_lt.mpr hallowed)
    simp only [exec, Device.drbg, hreseed] at hsem
    obtain ⟨rfl, -⟩ := Prod.mk.inj (Option.some.inj hsem)
    exact ⟨rfl, trivial⟩
  | generate n =>
    refine ⟨?_, (exec_quiet (o := .generate n) trivial hsem).1 ▸ hchain⟩
    obtain ⟨rfl, -⟩ := Prod.mk.inj (Option.some.inj hsem)
    exact ⟨rfl, trivial⟩
  | collectForReseed size tenantID n =>
    refine ⟨?_, (exec_quiet (o := .collectForReseed size tenantID n) trivial hsem).1 ▸ hchain⟩
    obtain ⟨rfl, -⟩ := Prod.mk.inj (Option.some.inj hsem)
    show Answer (!e.entropy.isOk) _ _
    cases e.entropy with
    | error err => rfl
    | ok b =>
      have hlen : (b.take size ++ List.replicate (size - b.length) 0).length = size := by
        rw [List.length_append, List.length_take, List.length_replicate]
        omega
      exact ⟨rfl, hlen⟩
  | newRequestID =>
    refine ⟨?_, (exec_quiet (o := .newRequestID) trivial hsem).1 ▸ hchain⟩
    obtain ⟨rfl, -⟩ := Prod.mk.inj (Option.some.inj hsem)
    show Answer (!e.random.isOk) _ _
    cases e.random with
    | error err => rfl
    | ok b => exact ⟨rfl, trivial⟩
  | getByRound roundID =>
    refine ⟨?_, (exec_quiet (o := .getByRound roundID) trivial hsem).1 ▸ hchain⟩
    obtain ⟨rfl, -⟩ := Prod.mk.inj (Option.some.inj hsem)
    show Answer e.queryErr.isSome _ _
    cases e.queryErr with
    | some err => rfl
    | none => exact ⟨rfl, trivial⟩
  | allow tenant =>
    refine ⟨?_, (exec_quiet (o := .allow tenant) trivial hsem).1 ▸ hchain⟩
    obtain ⟨rfl, -⟩ := Prod.mk.inj (Option.some.inj hsem)
    rfl
  | lockReseed => exact ⟨trivial, (exec_quiet (o := .lockReseed) trivial hsem).1 ▸ hchain⟩
  | now =>
    obtain ⟨rfl, rfl⟩ := Prod.mk.inj (Option.some.inj hsem)
    exact ⟨rfl, hchain⟩
  | _ =>
    obtain ⟨-, rfl⟩ := Prod.mk.inj (Option.some.inj hsem)
    exact ⟨trivial, hchain⟩

/-! ### The core, without its handlers -/

variable {crypto : Crypto} {t : Time}

/-- The program fails exactly if one of its calls does, and only then. -/
abbrev FailsOnly {ε α : Type} (crypto : Crypto) (t : Time) (P : α → Prop) (x : Fallible ε α) :
    Prop :=
  Prog.KeepsOr (dependable crypto) (· = calm t) (· = struck t) P x

/-- The operation cannot fail, and is always allowed. -/
def Harmless : Op → Prop
  | .now | .lastReseed | .setLastReseed _ | .lockReseed | .unlockReseed | .outputBytes
  | .healthCheck | .verifyBinary | .selfTestResults => True
  | _ => False

theorem harmless_allowed {o : Op} (ho : Harmless o) (q : Mishaps) (hq : q = calm t) :
    (dependable crypto).allowed o q ∧
      ∀ r q', (dependable crypto).step o q r q' → q' = calm t := by
  subst hq
  cases o with
  | generate n => exact ho.elim
  | reseed b => exact ho.elim
  | collectForReseed size tenantID n => exact ho.elim
  | newRequestID => exact ho.elim
  | sealEntry e => exact ho.elim
  | appendEntry e => exact ho.elim
  | getByRound roundID => exact ho.elim
  | allow tenant => exact ho.elim
  | _ => exact ⟨trivial, fun _ _ ⟨_, _, h⟩ => h⟩

theorem keeps_harmless {α : Type} {p : Program α} (hp : Prog.Calls Harmless p) :
    Prog.Keeps (dependable crypto) (· = calm t) p :=
  Prog.Keeps.of_calls (fun _ ho => harmless_allowed ho) hp

/-- A call that is answered with an error or a value, as its failing decides. -/
theorem outcome_of_answer {α : Type} {o : Op} {e : Env} {P : α → Prop} {r : Except GoError α}
    (hrefusing : refusing o e = false) (h : Answer (failing o e) P r) :
    Prog.Outcome (· = calm t) (· = struck t) P r ((calm t).after o e) := by
  cases r with
  | ok a =>
    refine ⟨?_, h.2⟩
    rw [Mishaps.after, h.1, hrefusing]
    rfl
  | error err =>
    have hfailing : failing o e = true := h
    show (calm t).after o e = struck t
    rw [Mishaps.after, hfailing, hrefusing]
    rfl

theorem fails_reseed {entropy : Bytes} (h : Csprng.seedLen ≤ entropy.length) :
    FailsOnly crypto t (fun _ => True) (Call.reseed entropy) := by
  rintro q rfl
  refine Prog.WP.op h ?_
  rintro r q' ⟨e, hr, rfl⟩
  exact outcome_of_answer (o := .reseed entropy) rfl hr

theorem fails_collectForReseed (size : ℕ) (tenantID : GoString) (n : UInt64) :
    FailsOnly crypto t (·.length = size) (Call.collectForReseed size tenantID n) := by
  rintro q rfl
  refine Prog.WP.op trivial ?_
  rintro r q' ⟨e, hr, rfl⟩
  exact outcome_of_answer (o := .collectForReseed size tenantID n) rfl hr

theorem fails_newRequestID : FailsOnly crypto t (fun _ => True) Call.newRequestID := by
  rintro q rfl
  refine Prog.WP.op trivial ?_
  rintro r q' ⟨e, hr, rfl⟩
  exact outcome_of_answer (o := .newRequestID) rfl hr

theorem fails_sealEntry {entry : Entry} (h : entry.Signed crypto) :
    FailsOnly crypto t (fun e => e.entryHash ≠ [] ∧ e.prevHash ≠ []) (Call.sealEntry entry) := by
  rintro q rfl
  refine Prog.WP.op h ?_
  rintro r q' ⟨e, hr, rfl⟩
  exact outcome_of_answer (o := .sealEntry entry) rfl hr

theorem fails_appendEntry {entry : Entry} (h : entry.entryHash ≠ [] ∧ entry.prevHash ≠ []) :
    FailsOnly crypto t (fun _ => True) (Call.appendEntry entry) := by
  rintro q rfl
  refine Prog.WP.op h ?_
  rintro r q' ⟨e, hr, rfl⟩
  exact outcome_of_answer (o := .appendEntry entry) rfl hr

theorem fails_getByRound (roundID : GoString) :
    FailsOnly crypto t (fun _ => True) (Call.getByRound roundID) := by
  rintro q rfl
  refine Prog.WP.op trivial ?_
  rintro r q' ⟨e, hr, rfl⟩
  exact outcome_of_answer (o := .getByRound roundID) rfl hr

/-- The generator never fails. -/
theorem drawsOk_rng : Scaling.DrawsOk (dependable crypto) rng (· = calm t) := by
  rintro q rfl
  refine ⟨trivial, ?_⟩
  rintro r q' ⟨e, hr, rfl⟩
  cases r with
  | ok b => exact ⟨rfl, b, rfl⟩
  | error err => cases hr

theorem harmless_reseedNotDue : Prog.Calls Harmless (reseedNotDue srv) :=
  calls_reseedNotDue trivial trivial trivial

/-- **Re-seeding** fails only if the entropy pool does: what the pool returns is a seed. -/
theorem fails_reseedIfNeeded (tenantID : GoString) :
    FailsOnly crypto t (fun _ => True) (reseedIfNeeded srv tenantID) := by
  have hlocked : FailsOnly crypto t (fun _ => True) (reseedLocked srv tenantID) := by
    refine Prog.KeepsOr.bindE (Prog.KeepsOr.liftE (keeps_harmless harmless_reseedNotDue))
      fun notDue _ => ?_
    split
    · exact Prog.KeepsOr.pureE trivial
    refine Prog.KeepsOr.bindE (Prog.KeepsOr.liftE (keeps_harmless (Prog.Calls.op trivial)))
      fun outputs _ => ?_
    refine Prog.KeepsOr.bindE (fails_collectForReseed _ _ _) fun entropy hlen => ?_
    refine Prog.KeepsOr.bindE (fails_reseed hlen.ge) fun _ _ => ?_
    refine Prog.KeepsOr.bindE (Prog.KeepsOr.liftE (keeps_harmless (Prog.Calls.op trivial)))
      fun now _ => ?_
    exact Prog.KeepsOr.liftE (keeps_harmless (Prog.Calls.op trivial))
  refine Prog.KeepsOr.bindE (Prog.KeepsOr.liftE (keeps_harmless harmless_reseedNotDue))
    fun notDue _ => ?_
  split
  · exact Prog.KeepsOr.pureE trivial
  -- the lock is released on both ways out
  · rintro q rfl
    refine Prog.WP.bind
      ((keeps_harmless (p := Call.lockReseed) (Prog.Calls.op trivial) _ rfl).mono ?_)
    rintro _ q rfl
    refine Prog.WP.bind ((hlocked _ rfl).mono fun r q hr => ?_)
    refine Prog.WP.bind (Prog.WP.op trivial ?_)
    rintro _ q' ⟨e, -, rfl⟩
    cases r with
    | ok _ =>
      obtain ⟨rfl, -⟩ := hr
      exact ⟨rfl, trivial⟩
    | error err =>
      obtain rfl := hr
      rfl

theorem fails_drawValues {min : Int64} {span : UInt64} (h : span ≠ 0) (n : ℕ) :
    FailsOnly crypto t (fun _ => True) (drawValues min span n) := by
  induction n with
  | zero => exact Prog.KeepsOr.pureE trivial
  | succ n ih =>
    refine Prog.KeepsOr.bindE (Prog.KeepsOr.mapErrorE (Scaling.keepsOr_randRange drawsOk_rng h))
      fun v _ => ?_
    exact Prog.KeepsOr.bindE ih fun rest _ => Prog.KeepsOr.pureE trivial

/-- Sealing and appending an entry fails only if the store does. -/
theorem fails_record {ε α : Type} {f f' : GoError → ε} {entry : Entry} {k : Entry → Fallible ε α}
    (h : entry.Signed crypto) (hk : ∀ e, FailsOnly crypto t (fun _ => True) (k e)) :
    FailsOnly crypto t (fun _ => True) (do
      let e ← Prog.mapError f (Call.sealEntry entry)
      Prog.mapError f' (Call.appendEntry e)
      k e : Fallible ε α) :=
  Prog.KeepsOr.bindE (Prog.KeepsOr.mapErrorE (fails_sealEntry h)) fun e he =>
    Prog.KeepsOr.bindE (Prog.KeepsOr.mapErrorE (fails_appendEntry he)) fun _ _ => hk e

/-- **One generation** of a range that is not the full range of 64 bits. -/
theorem fails_generate {tenantID gameID roundID : GoString} {count : ℤ} {min max : Int64}
    (hkey : ∃ key, srv.keys tenantID = .ok key) (hspan : span min max ≠ 0) :
    FailsOnly srv.crypto t (fun _ => True)
      (generate srv tenantID gameID roundID count min max) := by
  obtain ⟨key, hkey⟩ := hkey
  unfold generate
  rw [hkey]
  refine Prog.KeepsOr.bindE (Prog.KeepsOr.mapErrorE (fails_reseedIfNeeded tenantID)) fun _ _ => ?_
  refine Prog.KeepsOr.bindE (fails_drawValues hspan _) fun values _ => ?_
  refine Prog.KeepsOr.bindE fails_newRequestID fun reqID _ => ?_
  refine Prog.KeepsOr.bindE (Prog.KeepsOr.liftE (keeps_harmless (Prog.Calls.op trivial)))
    fun now _ => ?_
  exact fails_record ⟨_, key, rfl⟩ fun e => Prog.KeepsOr.pureE trivial

/-- A generation of the full range of 64 bits fails in any case. -/
theorem wp_generate_fullRange {tenantID gameID roundID : GoString} {count : ℤ} {min max : Int64}
    (hspan : span min max = 0) (hcount : 1 ≤ count) :
    Prog.WP (dependable srv.crypto) (generate srv tenantID gameID roundID count min max).run
      (fun r q => (∃ err, r = .error err) ∧ (q = calm t ∨ q = struck t)) (calm t) := by
  obtain ⟨n, hn⟩ : ∃ n, count.toNat = n + 1 := ⟨count.toNat - 1, by omega⟩
  unfold generate
  rw [hn, hspan]
  refine Prog.WP.bindE
    (Prog.WP.mapErrorE ((fails_reseedIfNeeded tenantID _ rfl).mono fun r q hr => ?_))
  cases r with
  | error err => exact ⟨⟨_, rfl⟩, Or.inr hr⟩
  | ok _ =>
    obtain ⟨rfl, -⟩ := hr
    -- there is a value to draw, and the span of the range is 0
    exact ⟨⟨_, rfl⟩, Or.inl rfl⟩

theorem fails_shuffleItems {req : ShuffleRequest} (hkey : ∃ key, srv.keys req.tenantID = .ok key)
    (hitems : req.items.length ≤ 10000) :
    FailsOnly srv.crypto t (fun _ => True) (shuffleItems srv req) := by
  obtain ⟨key, hkey⟩ := hkey
  unfold shuffleItems
  rw [hkey]
  refine Prog.KeepsOr.bindE (Prog.KeepsOr.mapErrorE (fails_reseedIfNeeded _)) fun _ _ => ?_
  refine Prog.KeepsOr.bindE
    (Prog.KeepsOr.mapErrorE (Scaling.keepsOr_shuffle drawsOk_rng (by omega))) fun shuffled _ => ?_
  refine Prog.KeepsOr.bindE (Prog.KeepsOr.mapErrorE fails_newRequestID) fun reqID _ => ?_
  refine Prog.KeepsOr.bindE (Prog.KeepsOr.liftE (keeps_harmless (Prog.Calls.op trivial)))
    fun now _ => ?_
  exact fails_record ⟨_, key, rfl⟩ fun e => Prog.KeepsOr.pureE trivial

/-- A shuffle that fails is answered with 500. -/
theorem returns_shuffleItems (req : ShuffleRequest) :
    Prog.Returns (fun r => ∀ resp, r = .error resp → resp.code = 500)
      (shuffleItems srv req).run := by
  have herr : ∀ {α : Type} (msg : String) (err : GoError) (resp : Response),
      (.error (internalError msg err) : Except Response α) = .error resp → resp.code = 500 := by
    intro α msg err resp h
    obtain rfl := Except.error.inj h
    rfl
  refine Prog.Returns.bind_mapErrorE (herr _) fun _ => ?_
  refine Prog.Returns.bind_mapErrorE (herr _) fun _ => ?_
  refine Prog.Returns.bind_mapErrorE (herr _) fun _ => ?_
  refine Prog.Returns.liftE_bind fun _ => ?_
  refine Prog.Returns.bind_mapErrorE (herr _) fun _ => ?_
  refine Prog.Returns.bind_mapErrorE (herr _) fun _ => ?_
  refine Prog.Returns.bind_mapErrorE (herr _) fun _ => ?_
  intro resp h
  cases h

/-! ### The status of a request -/

/-- The status of an item of a batch. -/
def itemStatus (req : BatchRequest) (item : BatchItem) : ℕ :=
  if (validateGenerateRequest req.tenantID req.gameID req.roundID item.count item.min
    item.max).isSome then 400
  else if span item.min item.max = 0 then 500
  else 200

/-- The status of a batch is that of its first item that is not served. -/
def batchStatus (req : BatchRequest) (items : List BatchItem) : ℕ :=
  ((items.map (itemStatus req)).find? (· ≠ 200)).getD 200

/-- **The status of a route** for a tenant, as its content determines it. -/
def Route.status (tenant : GoString) : Route → ℕ
  | .generate (.ok req) =>
    if (validateGenerateRequest req.tenantID req.gameID req.roundID req.count req.min
      req.max).isSome then 400
    else if tenant ≠ req.tenantID then 403
    else if span req.min req.max = 0 then 500
    else 200
  | .generateBatch (.ok req) =>
    if req.tenantID = [] ∨ req.gameID = [] ∨ req.roundID = [] then 400
    else if tenant ≠ req.tenantID then 403
    else if req.requests = [] ∨ 100 < req.requests.length then 400
    else batchStatus req req.requests
  | .shuffle (.ok req) =>
    if req.tenantID = [] ∨ req.gameID = [] ∨ req.roundID = [] then 400
    else if tenant ≠ req.tenantID then 403
    else if req.items = [] ∨ 10000 < req.items.length then 400
    else 200
  | .generate (.error _) | .generateBatch (.error _) | .shuffle (.error _) => 400
  | .health | .stats => 200
  | .auditRound roundID => if roundID = [] then 400 else 200
  | .unrouted reason => reason.answer.code

/-- The response has the given status, unless a call of the request has failed. -/
def Replies (t : Time) (code : ℕ) (resp : Response) (q : Mishaps) : Prop :=
  (q = calm t ∧ resp.code = code) ∨ (q = struck t ∧ resp.code = 500)

/-- A generation, and what it is answered or how the batch goes on. -/
theorem wp_generate_status {tenantID gameID roundID : GoString} {count : ℤ} {min max : Int64}
    (hkey : ∃ key, srv.keys tenantID = .ok key)
    (hvalid : validateGenerateRequest tenantID gameID roundID count min max = none)
    {k : GenerateResponse → Program Response} {code : ℕ}
    (hk : span min max ≠ 0 → ∀ resp,
      Prog.WP (dependable srv.crypto) (k resp) (Replies t code) (calm t))
    (hcode : span min max = 0 → code = 500) :
    Prog.WP (dependable srv.crypto)
      ((generate srv tenantID gameID roundID count min max).run >>= fun r => match r with
        | .error err => return internalError "" err
        | .ok resp => k resp) (Replies t code) (calm t) := by
  by_cases hspan : span min max = 0
  · obtain ⟨-, -, -, hcount, -, -⟩ := validateGenerateRequest_eq_none hvalid
    refine Prog.WP.bind ((wp_generate_fullRange hspan hcount).mono ?_)
    rintro r q ⟨⟨err, rfl⟩, hq⟩
    rcases hq with rfl | rfl
    · exact Or.inl ⟨rfl, (hcode hspan).symm⟩
    · exact Or.inr ⟨rfl, rfl⟩
  · refine Prog.WP.bind ((fails_generate hkey hspan _ rfl).mono fun r q hr => ?_)
    cases r with
    | error err => exact Or.inr ⟨hr, rfl⟩
    | ok resp =>
      obtain ⟨rfl, -⟩ := hr
      exact hk hspan resp

/-- A refusal before any call. -/
theorem replies_writeError (code : ℕ) (msg : String) (cause : Option GoError) :
    Prog.WP (dependable crypto) (.ret (writeError code msg cause)) (Replies t code) (calm t) :=
  Or.inl ⟨rfl, rfl⟩

theorem wp_handleGenerate_status {tenant : GoString} {body : Except GoError GenerateRequest}
    (hkeys : ∀ t, ∃ key, srv.keys t = .ok key) :
    Prog.WP (dependable srv.crypto) (handleGenerate srv tenant body)
      (Replies t ((Route.generate body).status tenant)) (calm t) := by
  cases body with
  | error err => exact replies_writeError _ _ _
  | ok req =>
    rw [handleGenerate, Route.status]
    cases hvalid : validateGenerateRequest req.tenantID req.gameID req.roundID req.count req.min
      req.max with
    | some err => exact replies_writeError _ _ _
    | none =>
      simp only [Option.isSome_none, Bool.false_eq_true, if_false]
      split
      · exact replies_writeError _ _ _
      · exact wp_generate_status (hkeys _) hvalid
          (fun hspan resp => Or.inl ⟨rfl, (if_neg hspan).symm⟩) fun hspan => if_pos hspan

theorem wp_batchLoop_status {req : BatchRequest} (hkeys : ∀ t, ∃ key, srv.keys t = .ok key)
    (items : List BatchItem) (results : List GenerateResponse) :
    Prog.WP (dependable srv.crypto) (batchLoop srv req items results)
      (Replies t (batchStatus req items)) (calm t) := by
  induction items generalizing results with
  | nil => exact Or.inl ⟨rfl, rfl⟩
  | cons item items ih =>
    rw [batchLoop, batchStatus, List.map_cons, itemStatus]
    cases hvalid : validateGenerateRequest req.tenantID req.gameID req.roundID item.count item.min
      item.max with
    | some err => exact replies_writeError _ _ _
    | none =>
      refine wp_generate_status (hkeys _) hvalid (fun hspan resp => ?_) fun hspan => ?_
      -- an item that is served leaves the status to the others
      · rw [if_neg hspan]
        exact ih _
      · rw [if_pos hspan]
        rfl

theorem wp_handleGenerateBatch_status {tenant : GoString} {body : Except GoError BatchRequest}
    (hkeys : ∀ t, ∃ key, srv.keys t = .ok key) :
    Prog.WP (dependable srv.crypto) (handleGenerateBatch srv tenant body)
      (Replies t ((Route.generateBatch body).status tenant)) (calm t) := by
  cases body with
  | error err => exact replies_writeError _ _ _
  | ok req =>
    simp only [handleGenerateBatch, Route.status]
    split
    · exact replies_writeError _ _ _
    split
    · exact replies_writeError _ _ _
    split
    · next hempty =>
      rw [if_pos (Or.inl hempty)]
      exact replies_writeError _ _ _
    · next hne =>
      split
      · next hmax =>
        rw [if_pos (Or.inr hmax)]
        exact replies_writeError _ _ _
      · next hmax =>
        rw [if_neg (not_or.mpr ⟨hne, hmax⟩)]
        exact wp_batchLoop_status hkeys _ _

theorem wp_handleShuffle_status {tenant : GoString} {body : Except GoError ShuffleRequest}
    (hkeys : ∀ t, ∃ key, srv.keys t = .ok key) :
    Prog.WP (dependable srv.crypto) (handleShuffle srv tenant body)
      (Replies t ((Route.shuffle body).status tenant)) (calm t) := by
  cases body with
  | error err => exact replies_writeError _ _ _
  | ok req =>
    simp only [handleShuffle, Route.status]
    split
    · exact replies_writeError _ _ _
    split
    · exact replies_writeError _ _ _
    split
    · next hempty =>
      rw [if_pos (Or.inl hempty)]
      exact replies_writeError _ _ _
    · next hne =>
      split
      · next hmax =>
        rw [if_pos (Or.inr hmax)]
        exact replies_writeError _ _ _
      · next hmax =>
        rw [if_neg (not_or.mpr ⟨hne, hmax⟩)]
        have hshuffle : FailsOnly srv.crypto t (fun _ => True) (shuffleItems srv req) :=
          fails_shuffleItems (hkeys req.tenantID) (not_lt.mp hmax)
        refine Prog.WP.bind (((hshuffle _ rfl).and_returns (returns_shuffleItems req)).mono ?_)
        rintro r q ⟨hr, hcode⟩
        cases r with
        | error resp => exact Or.inr ⟨hr, hcode resp rfl⟩
        | ok resp => exact Or.inl ⟨hr.1, rfl⟩

/-- A program that only reads. -/
theorem replies_harmless {code : ℕ} {p : Program Response} (hp : Prog.Calls Harmless p)
    (hres : Prog.Returns (fun resp => resp.code = code) p) :
    Prog.WP (dependable crypto) p (Replies t code) (calm t) :=
  ((keeps_harmless hp _ rfl).and_returns hres).mono fun _ _ h => Or.inl h

theorem harmless_tamperStatus : Prog.Calls Harmless (tamperStatus srv) := by
  unfold tamperStatus
  split
  · exact Prog.Calls.ret _
  · exact Prog.Calls.bind (Prog.Calls.op trivial) fun _ => Prog.Calls.ret _

theorem harmless_selfTestStatus (status : String) :
    Prog.Calls Harmless (selfTestStatus srv status) := by
  unfold selfTestStatus
  split
  · exact Prog.Calls.bind (Prog.Calls.op trivial) fun _ =>
      Prog.Calls.bind (Prog.Calls.op trivial) fun _ => Prog.Calls.ret _
  · exact Prog.Calls.ret _

/-- **The status of a request that has been admitted.** -/
theorem wp_serve_status (hkeys : ∀ t, ∃ key, srv.keys t = .ok key) (tenant : GoString)
    (route : Route) :
    Prog.WP (dependable srv.crypto) (serve srv tenant route) (Replies t (route.status tenant))
      (calm t) := by
  cases route with
  | generate body => exact wp_handleGenerate_status hkeys
  | generateBatch body => exact wp_handleGenerateBatch_status hkeys
  | shuffle body => exact wp_handleShuffle_status hkeys
  | health =>
    refine replies_harmless ?_ (Prog.Returns.bind fun _ => Prog.Returns.bind fun _ =>
      Prog.Returns.bind fun _ => Prog.Returns.bind fun _ => Prog.Returns.bind fun _ => rfl)
    exact Prog.Calls.bind (Prog.Calls.op trivial) fun _ =>
      Prog.Calls.bind harmless_tamperStatus fun _ =>
        Prog.Calls.bind (Prog.Calls.op trivial) fun _ =>
          Prog.Calls.bind (Prog.Calls.op trivial) fun _ =>
            Prog.Calls.bind (harmless_selfTestStatus _) fun _ => Prog.Calls.ret _
  | stats =>
    refine replies_harmless ?_ (Prog.Returns.bind fun _ => Prog.Returns.bind fun _ => rfl)
    exact Prog.Calls.bind (Prog.Calls.op trivial) fun _ =>
      Prog.Calls.bind (Prog.Calls.op trivial) fun _ => Prog.Calls.ret _
  | auditRound roundID =>
    rw [serve, handleAuditRound, Route.status]
    split
    · exact replies_writeError _ _ _
    · refine Prog.WP.bind ((fails_getByRound roundID _ rfl).mono fun r q hr => ?_)
      cases r with
      | error err => exact Or.inr ⟨hr, rfl⟩
      | ok entries => exact Or.inl ⟨hr.1, rfl⟩
  | unrouted reason => exact Or.inl ⟨rfl, rfl⟩

/-! ### The tenant of a request -/

/-- The tenant that `extractTenant` finds if its clock shows `t`. Only a token with an expiry
depends on the clock. -/
def tenantAt (srv : Server) (c : Credentials) (t : Time) : Except GoError GoString :=
  if bearer <+: c.authorization then
    match parseJWT srv (c.authorization.drop bearer.length) with
    | .error err => .error err
    | .ok claims => match claims.exp with
      | none => claims.subject
      | some exp => if exp.toInt < t.unix then .error (.text "JWT expired") else claims.subject
  else if c.apiKey ≠ [] then
    match srv.cfg.apiKeys.lookup c.apiKey with
    | none => .error (.text "invalid API key")
    | some tenant => .ok tenant
  else .error (.text "missing Authorization header or X-Api-Key")

/-- What a request knows of its tenant before it asks the rate limiter: it has read the clock, or
the tenant does not depend on it. -/
def TenantRead (srv : Server) (c : Credentials) (r : Except GoError GoString) (q : Mishaps) :
    Prop :=
  (q = untouched ∧ ∀ t, r = tenantAt srv c t) ∨ ∃ t, q = calm t ∧ r = tenantAt srv c t

/-- **The tenant is the one at the first reading of the clock.** -/
theorem wp_extractTenant_at (c : Credentials) :
    Prog.WP (dependable crypto) (extractTenant srv c).run (TenantRead srv c) untouched := by
  unfold extractTenant
  split
  · next hb =>
    cases hparse : parseJWT srv (c.authorization.drop bearer.length) with
    | error err =>
      have hrun : (validateJWT srv (c.authorization.drop bearer.length)).run
          = .ret (.error err) := by
        unfold validateJWT
        rw [hparse]
        rfl
      rw [hrun]
      exact Or.inl ⟨rfl, fun t => by rw [tenantAt, if_pos hb, hparse]⟩
    | ok claims =>
      rw [validateJWT_run hparse]
      cases hexp : claims.exp with
      | none => exact Or.inl ⟨rfl, fun t => by simp only [tenantAt, if_pos hb, hparse, hexp]⟩
      | some exp =>
        -- the clock is read in the first call
        refine Prog.WP.bind (p := Call.now) (Prog.WP.op trivial ?_)
        rintro now q ⟨e, rfl, rfl⟩
        refine Prog.WP.ret_iff.mpr (Or.inr ⟨e.now, rfl, ?_⟩)
        simp only [tenantAt, if_pos hb, hparse, hexp]
  · next hb =>
    split
    · next hkey =>
      cases hlookup : srv.cfg.apiKeys.lookup c.apiKey <;>
        exact Or.inl ⟨rfl, fun t => by simp only [tenantAt, if_neg hb, if_pos hkey, hlookup]⟩
    · next hkey => exact Or.inl ⟨rfl, fun t => by rw [tenantAt, if_neg hb, if_neg hkey]⟩

/-! ### The verdict on a request -/

/-- **The verdict on a request**, from what has happened to it. -/
def verdict (srv : Server) (req : HttpRequest) (q : Mishaps) : ℕ :=
  match tenantAt srv req.credentials (q.first.getD 0) with
  | .error _ => 401
  | .ok tenant =>
    if tenant = [] then 401
    else if q.refused then 429
    else if q.failed then 500
    else req.route.status tenant

/-- Asking the rate limiter leaves the reading of the clock alone, and is a first call itself if
there has been none. -/
theorem TenantRead.allow {c : Credentials} {tenant : GoString} {q : Mishaps}
    (h : TenantRead srv c (.ok tenant) q) (e : Env) :
    ∃ t, q.after (.allow tenant) e = ⟨some t, false, !e.allow⟩ ∧
      tenantAt srv c t = .ok tenant := by
  rcases h with ⟨rfl, hr⟩ | ⟨t, rfl, hr⟩
  · exact ⟨e.now, rfl, (hr e.now).symm⟩
  · exact ⟨t, rfl, hr.symm⟩

/-- Without a tenant a request is unauthorized. -/
theorem TenantRead.verdict {req : HttpRequest} {r : Except GoError GoString} {q : Mishaps}
    (h : TenantRead srv req.credentials r q) (hr : ∀ tenant, r = .ok tenant → tenant = []) :
    Gateway.verdict srv req q = 401 := by
  have htenant : r = tenantAt srv req.credentials (q.first.getD 0) := by
    rcases h with ⟨rfl, hr⟩ | ⟨t, rfl, hr⟩
    · exact hr _
    · exact hr
  rw [Gateway.verdict, ← htenant]
  cases r with
  | error err => rfl
  | ok tenant => exact if_pos (hr tenant rfl)

/-- **The verdict on one request**, whatever the others do. -/
theorem wp_handler_verdict (hkeys : ∀ t, ∃ key, srv.keys t = .ok key) (req : HttpRequest) :
    Prog.WP (dependable srv.crypto) (handler srv req)
      (fun resp q => resp.code = verdict srv req q) untouched := by
  refine Prog.WP.bind ((wp_extractTenant_at req.credentials).mono fun r q hread => ?_)
  cases r with
  | error err => exact (hread.verdict fun tenant h => by cases h).symm
  | ok tenant =>
    simp only
    split
    · next hempty =>
      refine (hread.verdict fun tenant' h => ?_).symm
      rw [← Except.ok.inj h, hempty]
    · next hne =>
      refine Prog.WP.bind (Prog.WP.op trivial ?_)
      rintro allowed q' ⟨e, rfl, rfl⟩
      obtain ⟨t, hq, htenant⟩ := hread.allow e
      rw [hq]
      split
      · next hallow =>
        rw [hallow]
        refine (wp_serve_status hkeys tenant req.route).mono fun resp q hresp => ?_
        rcases hresp with ⟨rfl, hcode⟩ | ⟨rfl, hcode⟩ <;>
          simp [hcode, verdict, calm, struck, htenant, hne]
      · next hrefuse =>
        simp [verdict, htenant, hne, hrefuse, writeError]

/-- The postcondition of a task. -/
def Task.Judged (srv : Server) : Task → Option Response → Mishaps → Prop
  | .request req, some resp, q => resp.code = verdict srv req q
  | .request _, none, _ => False
  | .selfTest _, none, _ => True
  | .selfTest _, some _, _ => False

/-- The postcondition of task `i`. -/
def judged (srv : Server) (tasks : List Task) (i : ℕ) (resp : Option Response) (q : Mishaps) :
    Prop :=
  ∃ t, tasks[i]? = some t ∧ t.Judged srv resp q

theorem wp_task_judged (hkeys : ∀ t, ∃ key, srv.keys t = .ok key) (t : Task) :
    Prog.WP (dependable srv.crypto) (t.program srv) (t.Judged srv) untouched := by
  cases t with
  | request req => exact Prog.WP.bind ((wp_handler_verdict hkeys req).mono fun resp q h => h)
  | selfTest n => exact Prog.WP.bind (Prog.WP.op trivial fun _ _ _ => trivial)

variable {aes : Csprng.BlockCipher} {tasks : List Task}

/-- The invariant of a run: the chain can be sealed, and the ghost state of a thread is what the
trace says. -/
structure Isolated (c : Tasks Csprng.DRBG) (g : ℕ → Mishaps) : Prop where
  chain : Sealable c.state.chain
  mishaps : ∀ i, g i = mishaps i c.trace

theorem Isolated.step {c : Tasks Csprng.DRBG} {g : ℕ → Mishaps} (h : Isolated c g) {i : ℕ}
    {e : Env} {o : Op} {r : Ret o} {w : World Csprng.DRBG}
    (hallowed : (dependable srv.crypto).allowed o (g i))
    (hsem : exec (Device.drbg aes) srv.crypto o e c.state = some (r, w))
    (p : Program (Option Response)) :
    ∃ q, (dependable srv.crypto).step o (g i) r q ∧
      Isolated (c.moved p w ⟨i, e, o, r⟩) (Function.update g i q) := by
  obtain ⟨hregular, hnext⟩ := exec_regular h.chain hallowed hsem
  refine ⟨(g i).after o e, ⟨e, hregular, rfl⟩, hnext, fun j => ?_⟩
  simp only [Pool.moved]
  by_cases hji : i = j
  · subst hji
    rw [Function.update_self, mishaps_concat_self, h.mishaps]
  · rw [Function.update_of_ne (Ne.symm hji), mishaps_concat_ne hji, h.mishaps]

/-- **No failure of one request is seen by another.** From any state whose chain is sealable, in
every interleaving, and whatever fails: the status of a response is determined by the request
and by what has happened in its own calls. -/
theorem status_determined {w : World Csprng.DRBG} {sched : List (ℕ × Env)} {c : Tasks Csprng.DRBG}
    (hkeys : ∀ t, ∃ key, srv.keys t = .ok key) (hchain : Sealable w.chain)
    (hrun : Pool.run (exec (Device.drbg aes) srv.crypto) Pool.anyOrder sched
      (start srv tasks w) = some c) {i : ℕ} {resp : Response}
    (hthread : c.threads[i]? = some (ret (some resp))) :
    ∃ req, tasks[i]? = some (.request req) ∧
      resp.code = verdict srv req (mishaps i c.trace) := by
  have hwp : ∀ i p, (start srv tasks w).threads[i]? = some p →
      Prog.WP (dependable srv.crypto) p (judged srv tasks i) untouched := by
    intro i p hp
    have hp' : (tasks.map (Task.program srv))[i]? = some p := hp
    rw [List.getElem?_map, Option.map_eq_some_iff] at hp'
    obtain ⟨t, ht, rfl⟩ := hp'
    exact (wp_task_judged hkeys t).mono fun resp q h => ⟨t, ht, h⟩
  obtain ⟨g, hg, hpost⟩ := Pool.run_sound (J := Isolated)
    (fun c g i e o again k r s hJ _ _ hallowed hsem => hJ.step hallowed hsem _)
    ⟨hchain, fun _ => rfl⟩ hwp hrun
  obtain ⟨t, ht, hjudged⟩ := hpost i _ hthread
  cases t with
  | selfTest n => exact hjudged.elim
  | request req => exact ⟨req, ht, hg.mishaps i ▸ hjudged⟩

theorem sealable_newChain : Sealable newChain :=
  ⟨(@resumable_new Crypto.std).length, (@resumable_new Crypto.std).decodes⟩

/-- The status of a request that has been answered. -/
def answeredWith : Program (Option Response) → Option ℕ
  | .ret (some resp) => some resp.code
  | _ => none

end Gateway
