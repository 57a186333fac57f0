import Mathlib
import RngService.Gateway.Integrity

/-!
# Views of the audit trail

Three places look at a selection of the one chain that all requests share.

* `VerifyChain` verifies the entries of one tenant from the zero hash. It succeeds
  exactly if the requests of the tenant come first (`verifyChain_iff_first`).
* `GET /v1/audit/{round_id}` verifies the entries of one round from the hash the
  first of them names. The answer is true exactly if no request of another round
  comes between two of the round (`auditRound_valid_iff_contiguous`).
* The same endpoint selects by the round alone. What a tenant is answered is
  confined to its own entries exactly if no other tenant uses the round
  (`auditRound_confined_iff`).

The first two are about sequential runs of successful requests, and hold up to a
clash of the digest in the converse direction. So is `verifyChain_detects_removal`, of
every store that `VerifyChain` accepts: it notices the removal of entries unless those
that remain are the first ones.
-/

namespace Gateway

open Audit Prog

/-- The tenant named in the body of a request. -/
def HttpRequest.tenantID (req : HttpRequest) : GoString :=
  match req.route with
  | .generate (.ok r) => r.tenantID
  | .generateBatch (.ok r) => r.tenantID
  | .shuffle (.ok r) => r.tenantID
  | _ => []

/-- The round named in the body of a request. -/
def HttpRequest.roundID (req : HttpRequest) : GoString :=
  match req.route with
  | .generate (.ok r) => r.roundID
  | .generateBatch (.ok r) => r.roundID
  | .shuffle (.ok r) => r.roundID
  | _ => []

/-- An entry carries the tenant and the round of its request. -/
theorem Records.ids {srv : Server} {req : HttpRequest} {e : Entry} (h : Records srv req e) :
    e.tenantID = req.tenantID ∧ e.roundID = req.roundID := by
  have hroute := h.route
  unfold HttpRequest.tenantID HttpRequest.roundID
  revert hroute
  generalize req.route = route
  intro hroute
  rcases route with (_ | _) | (_ | _) | (_ | _) | _ | _ | _ | _ <;>
    simp only [Route.Records, Prod.mk.injEq] at hroute ⊢
  · exact ⟨hroute.1.1, hroute.1.2.2⟩
  · exact ⟨hroute.1.1, hroute.1.2.2⟩
  · exact ⟨hroute.1.1, hroute.1.2.2⟩

variable {D : Type} {dev : Device D} {srv : Server} {reqs : List HttpRequest} {c : Tasks D}
  {g : ℕ → Ledger}

/-! ### Runs of successful requests -/

/-- The request has returned, with status 200. -/
def succeeded : Program (Option Response) → Bool
  | .ret (some resp) => resp.code == 200
  | _ => false

/-- All requests have returned, with status 200. -/
def Successful (c : Tasks D) : Prop := ∀ p ∈ c.threads, succeeded p = true

instance (c : Tasks D) : Decidable (Successful c) :=
  inferInstanceAs (Decidable (∀ p ∈ c.threads, succeeded p = true))

theorem Successful.resp {p : Program (Option Response)} (h : Successful c) (hp : p ∈ c.threads) :
    ∃ resp, p = .ret (some resp) ∧ resp.code = 200 := by
  have hs := h p hp
  unfold succeeded at hs
  split at hs
  · exact ⟨_, rfl, by simpa using hs⟩
  · cases hs

/-- A sequential run of requests that draw values and all succeed. -/
structure SequentialRun (dev : Device D) (srv : Server) (reqs : List HttpRequest) (c : Tasks D) :
    Prop where
  draws : ∀ req ∈ reqs, req.route.draws = true
  run : ∃ drbg now sched, Pool.run (exec dev srv.crypto) Pool.oneAtATime sched
    (start srv (reqs.map Task.request) (World.new drbg now)) = some c
  successful : Successful c

/-- What a sequential run of successful requests leaves in the store: the entries of
the requests, request by request. -/
structure Served (srv : Server) (reqs : List HttpRequest) (c : Tasks D) (m : List (ℕ × Entry)) :
    Prop where
  store : c.state.store.entries = m.map Prod.snd
  sorted : Keyed.Sorted m
  linked : Linked zeroHash (m.map Prod.snd)
  sound : ∀ e ∈ m.map Prod.snd, e.Sound srv.crypto
  every : ∀ i < reqs.length, ∃ e, (i, e) ∈ m
  ids : ∀ x ∈ m, ∃ req, reqs[x.1]? = some req ∧
    x.2.tenantID = req.tenantID ∧ x.2.roundID = req.roundID
  rounds : ∀ x ∈ m, x.2.roundID ≠ []

/-- A successful request has stored an entry, and failed at none. -/
theorem Successful.ledger {i : ℕ} (hsucc : Successful c)
    (hdraws : ∀ req ∈ reqs, req.route.draws = true) (hlen : c.threads.length = reqs.length)
    (hi : i < reqs.length)
    (hwp : ∀ i p, c.threads[i]? = some p →
      WP (taskModel srv (reqs.map Task.request) i) p (taskPost (reqs.map Task.request) i) (g i)) :
    (g i).attempts ≠ [] ∧ ∀ a ∈ (g i).attempts, a.2 = true := by
  have hthread : c.threads[i]? = some c.threads[i] := List.getElem?_eq_getElem (by omega)
  obtain ⟨resp, hresp, hcode⟩ := hsucc.resp (List.getElem_mem (by omega : i < c.threads.length))
  rw [hresp] at hthread
  obtain ⟨t, ht, hans⟩ : taskPost (reqs.map Task.request) i (some resp) (g i) := hwp i _ hthread
  rw [List.getElem?_map, Option.map_eq_some_iff] at ht
  obtain ⟨req, hreq, rfl⟩ := ht
  have hdraw := hdraws req (List.mem_of_getElem? hreq)
  obtain ⟨⟨-, hsettles⟩, hne⟩ := hans
  obtain ⟨hall, hbacked⟩ := hsettles hcode
  refine ⟨fun hnil => hne hdraw hcode ?_, hall⟩
  rw [hnil] at hbacked
  exact List.forall₂_nil_left_iff.mp hbacked

theorem SequentialRun.served (h : SequentialRun dev srv reqs c) :
    Served srv reqs c (sealings c.trace) := by
  obtain ⟨drbg, now, sched, hrun⟩ := h.run
  obtain ⟨g, htrail, hwp⟩ := trail_of_run hrun
  have hturns := Pool.run_turns (fun _ _ _ h => h) (Pool.turns_init _ _) hrun
  have hlen : c.threads.length = (reqs.map Task.request).length := by
    have hl := Pool.run_length hrun
    simpa [start, Pool.init] using hl
  have hlen' : c.threads.length = reqs.length := by rw [hlen, List.length_map]
  have hret : c.threads.all isRet = true := by
    rw [List.all_eq_true]
    intro p hp
    obtain ⟨resp, rfl, -⟩ := h.successful.resp hp
    rfl
  have hsettled := htrail.settled_of_returned hwp hlen hret
  -- each entry belongs to the request with its index
  have hidx : ∀ x ∈ sealings c.trace, ∃ req, reqs[x.1]? = some req ∧ Records srv req x.2 := by
    intro x hx
    obtain ⟨t, ht, hrec⟩ := htrail.records x hx
    rw [List.getElem?_map, Option.map_eq_some_iff] at ht
    obtain ⟨req, hreq, rfl⟩ := ht
    exact ⟨req, hreq, hrec⟩
  have hattempted := htrail.attempted_eq hturns hsettled
  -- a request with a failed append does not succeed
  have hok : NoAppendFailed c.trace := by
    rintro ⟨i, e, b⟩ hx
    have hmem : (i, e) ∈ sealings c.trace := by
      rw [← hattempted]
      exact List.mem_map.mpr ⟨_, hx, rfl⟩
    obtain ⟨req, hreq, -⟩ := hidx _ hmem
    have hi := (List.getElem?_eq_some_iff.mp hreq).1
    have hatt : (e, b) ∈ (g i).attempts := by
      rw [← htrail.attempts, Keyed.mem_proj]
      exact hx
    exact (h.successful.ledger h.draws hlen' hi hwp).2 _ hatt
  refine ⟨?_, sorted_sealings hturns, htrail.linked, htrail.accepted, ?_, ?_, ?_⟩
  · rw [htrail.store, stored_eq_attempted hok, hattempted]
  · intro i hi
    obtain ⟨hne, -⟩ := h.successful.ledger h.draws hlen' hi hwp
    obtain ⟨a, ha⟩ := List.exists_mem_of_ne_nil _ hne
    refine ⟨a.1, ?_⟩
    rw [← Keyed.mem_proj, htrail.sealed]
    exact List.mem_append_left _ (List.mem_map_of_mem ha)
  · intro x hx
    obtain ⟨req, hreq, hrec⟩ := hidx x hx
    exact ⟨req, hreq, hrec.ids⟩
  · intro x hx
    obtain ⟨req, -, hrec⟩ := hidx x hx
    exact hrec.wellFormed.roundID

/-! ### The chain of one tenant -/

/-- **`VerifyChain` succeeds for the tenant whose requests come first.** For a tenant
without requests it succeeds as well. -/
theorem verifyChain_iff_first (h : SequentialRun dev srv reqs c) (tenantID : GoString) :
    (reqs.filter (·.tenantID = tenantID) <+: reqs →
      c.state.store.verifyChain srv.crypto tenantID = (true, none)) ∧
    (c.state.store.verifyChain srv.crypto tenantID = (true, none) →
      reqs.filter (·.tenantID = tenantID) <+: reqs ∨ ClashIn srv c.trace) := by
  have hs := h.served
  -- the entries of the tenant are a prefix exactly if its requests are
  have hiff := Keyed.filter_prefix_iff_index (p := fun e => decide (e.tenantID = tenantID))
    (q := fun req => decide (req.tenantID = tenantID)) hs.sorted (fun x hx => by
      obtain ⟨req, hreq, hids, -⟩ := hs.ids x hx
      exact ⟨req, hreq, by rw [hids]⟩) hs.every
  rw [InMemoryStore.verifyChain_eq, hs.store, ← hiff]
  exact accepted_iff_initial isHash_zeroHash.length_hexBytes hs.linked hs.sound
    List.filter_sublist.subset

/-- A successful sequential run on the small server. -/
theorem SequentialRun.small {reqs : List HttpRequest} {sched : List (ℕ × Env)}
    {c : Tasks Csprng.DRBG} (hdraws : ∀ req ∈ reqs, req.route.draws = true)
    (hrun : smallRun Pool.oneAtATime reqs sched = some c) (hok : Successful c) :
    SequentialRun (Device.drbg fun _ block => block) smallServer reqs c :=
  ⟨hdraws, ⟨_, _, _, hrun⟩, hok⟩

/-- What the run of two requests shows, of tenant `a` and then of tenant `b`, for the
same round. -/
theorem two_tenants : ∃ c c', smallRun Pool.oneAtATime
      [smallRequest [107] [97] [114], smallRequest [108] [98] [114]] (turns 0 8) = some c ∧
    smallRun Pool.oneAtATime [smallRequest [107] [97] [114], smallRequest [108] [98] [114]]
      (turns 0 8 ++ turns 1 8) = some c' ∧
    Successful c' ∧ c'.state.store.verifyChain smallServer.crypto [98] ≠ (true, none) ∧
    c.state.store.entries.filter (·.tenantID = [97])
      = c'.state.store.entries.filter (·.tenantID = [97]) ∧
    (∀ e ∈ c.state.store.getByRound [114], e.tenantID = [97]) ∧
    ∃ e ∈ c'.state.store.getByRound [114], e.tenantID ≠ [97] := by
  have h : (smallRun Pool.oneAtATime [smallRequest [107] [97] [114], smallRequest [108] [98] [114]]
      (turns 0 8)).bind (fun c => (smallRun Pool.oneAtATime
        [smallRequest [107] [97] [114], smallRequest [108] [98] [114]] (turns 0 8 ++ turns 1 8)).map
        (fun c' => decide (Successful c' ∧
          c'.state.store.verifyChain smallServer.crypto [98] ≠ (true, none) ∧
          c.state.store.entries.filter (·.tenantID = [97])
            = c'.state.store.entries.filter (·.tenantID = [97]) ∧
          (∀ e ∈ c.state.store.getByRound [114], e.tenantID = [97]) ∧
          ∃ e ∈ c'.state.store.getByRound [114], e.tenantID ≠ [97]))) = some true := by
    decide +kernel
  obtain ⟨c, hc, h⟩ := Option.bind_eq_some_iff.mp h
  obtain ⟨c', hc', h⟩ := Option.map_eq_some_iff.mp h
  exact ⟨c, c', hc, hc', of_decide_eq_true h⟩

/-- Tenant `a` and then tenant `b`: the chain of `a` verifies. -/
theorem verifyChain_iff_first_small : ∃ c, smallRun Pool.oneAtATime
      [smallRequest [107] [97] [114], smallRequest [108] [98] [114]]
      (turns 0 8 ++ turns 1 8) = some c ∧
    c.state.store.verifyChain smallServer.crypto [97] = (true, none) := by
  obtain ⟨-, c, -, hc, hok, -⟩ := two_tenants
  have hrun := SequentialRun.small (by decide) hc hok
  exact ⟨c, hc, (verifyChain_iff_first hrun [97]).1 ⟨[smallRequest [108] [98] [114]], rfl⟩⟩

/-- **The chain of the second tenant.** Tenant `a` and then tenant `b`: the first
entry of `b` names the hash of an entry of `a`, and the chain of `b` does not
verify. -/
theorem second_tenant : ∃ c, smallRun Pool.oneAtATime
      [smallRequest [107] [97] [114], smallRequest [108] [98] [114]]
      (turns 0 8 ++ turns 1 8) = some c ∧
    Successful c ∧ c.state.store.verifyChain smallServer.crypto [98] ≠ (true, none) := by
  obtain ⟨-, c, -, hc, hok, hbroken, -⟩ := two_tenants
  exact ⟨c, hc, hok, hbroken⟩

/-! ### Removed entries -/

/-- **Removal is detected except at the end.** Of the entries of a tenant on which
`VerifyChain` succeeds, some are removed: it still succeeds exactly if those that remain
are the first ones, up to a clash. Nothing that the verifier reads says where the chain
ends. -/
theorem verifyChain_detects_removal {crypto : Crypto} {s : InMemoryStore} {tenantID : GoString}
    (htenant : ∀ e ∈ s.entries, e.tenantID = tenantID)
    (hvalid : s.verifyChain crypto tenantID = (true, none)) {rest : List Entry}
    (hrest : rest.Sublist s.entries) :
    (¬ rest <+: s.entries → InMemoryStore.verifyChain crypto ⟨rest⟩ tenantID ≠ (true, none) ∨
      Clash crypto (hexBytes zeroHash) s.entries) ∧
    (InMemoryStore.verifyChain crypto ⟨rest⟩ tenantID ≠ (true, none) → ¬ rest <+: s.entries) := by
  have hall : s.entries.filter (·.tenantID = tenantID) = s.entries :=
    List.filter_eq_self.mpr fun e he => by simpa using htenant e he
  have hrem : rest.filter (·.tenantID = tenantID) = rest :=
    List.filter_eq_self.mpr fun e he => by simpa using htenant e (hrest.subset he)
  rw [InMemoryStore.verifyChain_eq, hall] at hvalid
  rw [Ne, InMemoryStore.verifyChain_eq, hrem]
  obtain ⟨hlinked, hsound⟩ := verifyEntries_eq.mp hvalid
  -- what remains is a selection of the log
  obtain ⟨hpre, hacc⟩ := accepted_iff_initial isHash_zeroHash.length_hexBytes hlinked hsound
    hrest.subset
  refine ⟨fun hnot => ?_, fun hnot hprefix => hnot (hpre hprefix)⟩
  by_cases hv : verifyEntries crypto rest zeroHash = (-1, none)
  · exact Or.inr ((hacc hv).resolve_left hnot)
  · exact Or.inl hv

/-- The entries of two requests of tenant `a`. -/
theorem two_requests : ∃ c, smallRun Pool.oneAtATime
      [smallRequest [107] [97] [114], smallRequest [107] [97] [114]]
      (turns 0 8 ++ turns 1 8) = some c ∧
    (∀ e ∈ c.state.store.entries, e.tenantID = [97]) ∧ c.state.store.entries.length = 2 ∧
    ¬ c.state.store.entries.drop 1 <+: c.state.store.entries ∧
    c.state.store.verifyChain smallServer.crypto [97] = (true, none) ∧
    InMemoryStore.verifyChain smallServer.crypto ⟨c.state.store.entries.take 1⟩ [97]
      = (true, none) ∧
    ¬ Clash smallServer.crypto (hexBytes zeroHash) c.state.store.entries := by
  have h : (smallRun Pool.oneAtATime [smallRequest [107] [97] [114], smallRequest [107] [97] [114]]
      (turns 0 8 ++ turns 1 8)).map (fun c =>
        decide ((∀ e ∈ c.state.store.entries, e.tenantID = [97]) ∧
          c.state.store.entries.length = 2 ∧
          ¬ c.state.store.entries.drop 1 <+: c.state.store.entries ∧
          c.state.store.verifyChain smallServer.crypto [97] = (true, none) ∧
          InMemoryStore.verifyChain smallServer.crypto ⟨c.state.store.entries.take 1⟩ [97]
            = (true, none) ∧
          ¬ Clash smallServer.crypto (hexBytes zeroHash) c.state.store.entries)) = some true := by
    decide +kernel
  obtain ⟨c, hc, heq⟩ := Option.map_eq_some_iff.mp h
  exact ⟨c, hc, of_decide_eq_true heq⟩

/-- Removing the first of two entries is detected. -/
theorem verifyChain_detects_removal_small : ∃ c, smallRun Pool.oneAtATime
      [smallRequest [107] [97] [114], smallRequest [107] [97] [114]]
      (turns 0 8 ++ turns 1 8) = some c ∧
    InMemoryStore.verifyChain smallServer.crypto ⟨c.state.store.entries.drop 1⟩ [97]
      ≠ (true, none) := by
  obtain ⟨c, hc, htenant, -, hdrop, hvalid, -, hclash⟩ := two_requests
  exact ⟨c, hc, ((verifyChain_detects_removal htenant hvalid (List.drop_sublist 1 _)).1
    hdrop).resolve_right hclash⟩

/-- **A removed tail is not noticed.** The last of two entries is removed, and
`VerifyChain` succeeds. -/
theorem removed_tail : ∃ c rest, smallRun Pool.oneAtATime
      [smallRequest [107] [97] [114], smallRequest [107] [97] [114]]
      (turns 0 8 ++ turns 1 8) = some c ∧
    (∀ e ∈ c.state.store.entries, e.tenantID = [97]) ∧
    c.state.store.verifyChain smallServer.crypto [97] = (true, none) ∧
    rest.Sublist c.state.store.entries ∧ rest ≠ c.state.store.entries ∧
    InMemoryStore.verifyChain smallServer.crypto ⟨rest⟩ [97] = (true, none) ∧
    ¬ Clash smallServer.crypto (hexBytes zeroHash) c.state.store.entries := by
  obtain ⟨c, hc, htenant, hlen, -, hvalid, hrest, hclash⟩ := two_requests
  refine ⟨c, _, hc, htenant, hvalid, List.take_sublist 1 _, fun heq => ?_, hrest, hclash⟩
  have hlen' := congrArg List.length heq
  rw [List.length_take, hlen] at hlen'
  cases hlen'

/-! ### The chain of one round -/

/-- The run of the audit endpoint: one query. -/
theorem run_auditRound {roundID : GoString} (h : roundID ≠ []) (w : World D) :
    Prog.run (exec dev srv.crypto) [{}] (handleAuditRound srv roundID) w =
      some (⟨200, .audit (auditResponse srv roundID (w.store.getByRound roundID))⟩, w) := by
  rw [handleAuditRound, if_neg h]
  rfl

theorem auditResponse_valid {roundID : GoString} {e : Entry} {l : List Entry} :
    (auditResponse srv roundID (e :: l)).hashChainValid = true ↔
      verifyEntries srv.crypto (e :: l) e.prevHash = (-1, none) := by
  unfold auditResponse
  simp [Prod.ext_iff]

/-- **`hash_chain_valid` holds of the rounds whose requests are contiguous**, among
the rounds that have an entry. -/
theorem auditRound_valid_iff_contiguous (h : SequentialRun dev srv reqs c) {roundID : GoString}
    (hround : ∃ e ∈ c.state.store.entries, e.roundID = roundID) :
    ∃ r, Prog.run (exec dev srv.crypto) [{}] (handleAuditRound srv roundID) c.state
        = some (⟨200, .audit r⟩, c.state) ∧
      (reqs.filter (·.roundID = roundID) <:+: reqs → r.hashChainValid = true) ∧
      (r.hashChainValid = true →
        reqs.filter (·.roundID = roundID) <:+: reqs ∨ ClashIn srv c.trace) := by
  have hs := h.served
  obtain ⟨e₀, he₀, rfl⟩ := hround
  have hne : e₀.roundID ≠ [] := by
    rw [hs.store] at he₀
    obtain ⟨x, hx, rfl⟩ := List.mem_map.mp he₀
    exact hs.rounds x hx
  refine ⟨_, run_auditRound hne c.state, ?_⟩
  -- the entries of the round are contiguous exactly if its requests are
  have hiff := Keyed.filter_infix_iff_index (p := fun e => decide (e.roundID = e₀.roundID))
    (q := fun req => decide (req.roundID = e₀.roundID)) hs.sorted (fun x hx => by
      obtain ⟨req, hreq, -, hids⟩ := hs.ids x hx
      exact ⟨req, hreq, by rw [hids]⟩) hs.every
  -- the endpoint verifies a selection of the sealed entries
  have hsub : c.state.store.getByRound e₀.roundID ⊆ (sealings c.trace).map Prod.snd := by
    rw [InMemoryStore.getByRound, hs.store]
    exact List.filter_sublist.subset
  have hget : c.state.store.getByRound e₀.roundID
      = ((sealings c.trace).map Prod.snd).filter (fun e => decide (e.roundID = e₀.roundID)) := by
    rw [InMemoryStore.getByRound, hs.store]
  rw [← hiff, ← hget]
  cases hl : c.state.store.getByRound e₀.roundID with
  | nil =>
    have hmem : e₀ ∈ c.state.store.getByRound e₀.roundID := List.mem_filter.mpr ⟨he₀, by simp⟩
    rw [hl] at hmem
    cases hmem
  | cons e l =>
    rw [hl] at hsub
    rw [auditResponse_valid]
    exact accepted_iff_segment isHash_zeroHash.length_hexBytes hs.linked hs.sound hsub

/-- Two requests of one round: the endpoint reports a valid chain. -/
theorem auditRound_valid_iff_contiguous_small : ∃ c r, smallRun Pool.oneAtATime
      [smallRequest [107] [97] [114], smallRequest [107] [97] [114]]
      (turns 0 8 ++ turns 1 8) = some c ∧
    Prog.run (exec (Device.drbg fun _ block => block) smallServer.crypto) [{}]
      (handleAuditRound smallServer [114]) c.state = some (⟨200, .audit r⟩, c.state) ∧
    r.hashChainValid = true := by
  have h : (smallRun Pool.oneAtATime [smallRequest [107] [97] [114], smallRequest [107] [97] [114]]
      (turns 0 8 ++ turns 1 8)).map (fun c => (decide (Successful c),
        decide (∃ e ∈ c.state.store.entries, e.roundID = [114]))) = some (true, true) := by
    decide +kernel
  obtain ⟨c, hc, heq⟩ := Option.map_eq_some_iff.mp h
  simp only [Prod.mk.injEq, decide_eq_true_eq] at heq
  have hrun := SequentialRun.small (by decide) hc heq.1
  obtain ⟨r, hr, hvalid, -⟩ := auditRound_valid_iff_contiguous hrun heq.2
  exact ⟨c, r, hc, hr, hvalid ⟨[], [], rfl⟩⟩

/-- **Rounds that interleave.** One tenant asks for round `r`, round `s` and round `r`
again: the endpoint reports a broken chain for round `r`. -/
theorem interleaved_rounds : ∃ c r, smallRun Pool.oneAtATime
      [smallRequest [107] [97] [114], smallRequest [107] [97] [115], smallRequest [107] [97] [114]]
      (turns 0 8 ++ turns 1 8 ++ turns 2 8) = some c ∧ Successful c ∧
    Prog.run (exec (Device.drbg fun _ block => block) smallServer.crypto) [{}]
      (handleAuditRound smallServer [114]) c.state = some (⟨200, .audit r⟩, c.state) ∧
    r.entries ≠ [] ∧ r.hashChainValid = false := by
  have h : (smallRun Pool.oneAtATime
      [smallRequest [107] [97] [114], smallRequest [107] [97] [115], smallRequest [107] [97] [114]]
      (turns 0 8 ++ turns 1 8 ++ turns 2 8)).map (fun c => (decide (Successful c),
        let r := auditResponse smallServer [114] (c.state.store.getByRound [114])
        (decide (r.entries = []), r.hashChainValid))) = some (true, false, false) := by
    decide +kernel
  obtain ⟨c, hc, heq⟩ := Option.map_eq_some_iff.mp h
  simp only [Prod.mk.injEq, decide_eq_true_eq, decide_eq_false_iff_not] at heq
  exact ⟨c, _, hc, heq.1, run_auditRound (by decide) c.state, heq.2⟩

/-! ### Confinement -/

/-- The entries in a body. -/
def Body.entries : Body → List Entry
  | .audit resp => resp.entries
  | _ => []

theorem auditResponse_entries (roundID : GoString) (l : List Entry) :
    (auditResponse srv roundID l).entries = l := by
  cases l with
  | nil => rfl
  | cons e l =>
    unfold auditResponse
    rfl

/-- **The audit endpoint is confined to the caller's tenant exactly if no other
tenant uses the round.** `w₁` and `w₂` are any two worlds whose stores hold the same
entries of the tenant. -/
theorem auditRound_confined_iff {w₁ w₂ w₁' w₂' : World D} {tenantID roundID : GoString}
    {resp₁ resp₂ : Response} (hround : roundID ≠ [])
    (hsame : w₁.store.entries.filter (·.tenantID = tenantID)
      = w₂.store.entries.filter (·.tenantID = tenantID))
    (h₁ : Prog.run (exec dev srv.crypto) [{}] (serve srv tenantID (.auditRound roundID)) w₁
      = some (resp₁, w₁'))
    (h₂ : Prog.run (exec dev srv.crypto) [{}] (serve srv tenantID (.auditRound roundID)) w₂
      = some (resp₂, w₂')) :
    (resp₁.body = resp₂.body ∧
        ∀ e ∈ resp₁.body.entries ++ resp₂.body.entries, e.tenantID = tenantID) ↔
      ∀ e ∈ w₁.store.entries ++ w₂.store.entries, e.roundID = roundID → e.tenantID = tenantID := by
  have hrun₁ := @run_auditRound D dev srv roundID hround w₁
  have hrun₂ := @run_auditRound D dev srv roundID hround w₂
  obtain ⟨rfl, -⟩ := Prod.mk.inj (Option.some.inj (h₁.symm.trans hrun₁))
  obtain ⟨rfl, -⟩ := Prod.mk.inj (Option.some.inj (h₂.symm.trans hrun₂))
  simp only [Body.entries, auditResponse_entries, List.mem_append]
  constructor
  · rintro ⟨-, hall⟩ e he hr
    refine hall e (he.imp ?_ ?_) <;> exact fun h => List.mem_filter.mpr ⟨h, by simpa using hr⟩
  · intro hall
    refine ⟨?_, ?_⟩
    · -- both selections are those of the tenant's entries
      have hsel : ∀ w : World D,
          (∀ e ∈ w.store.entries, e.roundID = roundID → e.tenantID = tenantID) →
          w.store.getByRound roundID
            = (w.store.entries.filter (·.tenantID = tenantID)).filter (·.roundID = roundID) := by
        intro w hw
        rw [InMemoryStore.getByRound, List.filter_filter]
        refine List.filter_congr fun e he => ?_
        by_cases hr : e.roundID = roundID
        · simp [hr, hw e he hr]
        · simp [hr]
      rw [hsel w₁ fun e he => hall e (Or.inl he), hsel w₂ fun e he => hall e (Or.inr he), hsame]
    · intro e he
      rcases he with he | he
      · have hmem := List.mem_filter.mp he
        exact hall e (Or.inl hmem.1) (by simpa using hmem.2)
      · have hmem := List.mem_filter.mp he
        exact hall e (Or.inr hmem.1) (by simpa using hmem.2)

/-- An entry of a tenant and a round, not sealed. -/
def bareEntry (tenantID roundID : GoString) : Entry :=
  ⟨[], [], tenantID, [103], roundID, [], [5], 1, 5, 5, [], 0, false⟩

/-- Confinement where tenant `b` has entries of another round only. -/
theorem auditRound_confined_iff_small :
    let w : List Entry → World Csprng.DRBG := fun l => { smallWorld with store := ⟨l⟩ }
    let l₁ := [bareEntry [97] [114]]
    let l₂ := [bareEntry [98] [115], bareEntry [97] [114]]
    let body : World Csprng.DRBG → Body :=
      fun w => .audit (auditResponse smallServer [114] (w.store.getByRound [114]))
    body (w l₁) = body (w l₂) ∧ ∀ e ∈ (body (w l₁)).entries ++ (body (w l₂)).entries,
      e.tenantID = [97] := by
  intro w l₁ l₂ body
  have hrun : ∀ l, Prog.run (exec (Device.drbg fun _ block => block) smallServer.crypto) [{}]
      (serve smallServer [97] (.auditRound [114])) (w l) = some (⟨200, body (w l)⟩, w l) :=
    fun l => run_auditRound (by decide) (w l)
  exact (auditRound_confined_iff (by decide) (by decide) (hrun l₁) (hrun l₂)).mpr (by decide)

/-- **A shared round.** Tenants `a` and `b` use the same round id. The two states have
the same entries of `a`, but the answers to `a` differ, and the second one contains
an entry of `b`. -/
theorem shared_round : ∃ c c' r r', smallRun Pool.oneAtATime
      [smallRequest [107] [97] [114], smallRequest [108] [98] [114]] (turns 0 8) = some c ∧
    smallRun Pool.oneAtATime [smallRequest [107] [97] [114], smallRequest [108] [98] [114]]
      (turns 0 8 ++ turns 1 8) = some c' ∧
    c.state.store.entries.filter (·.tenantID = [97])
      = c'.state.store.entries.filter (·.tenantID = [97]) ∧
    Prog.run (exec (Device.drbg fun _ block => block) smallServer.crypto) [{}]
      (serve smallServer [97] (.auditRound [114])) c.state = some (⟨200, .audit r⟩, c.state) ∧
    Prog.run (exec (Device.drbg fun _ block => block) smallServer.crypto) [{}]
      (serve smallServer [97] (.auditRound [114])) c'.state = some (⟨200, .audit r'⟩, c'.state) ∧
    r ≠ r' ∧ ∃ e ∈ r'.entries, e.tenantID ≠ [97] := by
  obtain ⟨c, c', hc, hc', -, -, hsame, hall, e, he, hne⟩ := two_tenants
  refine ⟨c, c', _, _, hc, hc', hsame, run_auditRound (by decide) c.state,
    run_auditRound (by decide) c'.state, fun heq => hne (hall e ?_), e, ?_, hne⟩
  · have hentries := congrArg AuditResponse.entries heq
    rw [auditResponse_entries, auditResponse_entries] at hentries
    rw [hentries]
    exact he
  · rw [auditResponse_entries]
    exact he

end Gateway
