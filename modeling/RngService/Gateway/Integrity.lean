import Mathlib
import RngService.Gateway.Trail

/-!
# Integrity of the audit trail

What the trail invariant says about the store.

* `run_backed`: in any interleaving and with any failures, every delivered result
  is backed by a stored entry, and every stored entry records a result of an
  authenticated request.
* `unbroken_iff_in_order`: when no append fails, the stored entries form an unbroken
  chain exactly as long as requests append in the order in which they sealed.
  `Seal` and `Append` are two critical sections, so this order is not enforced:
  two requests that cross between them break the chain (`crossed_requests`).
* `intact_iff_no_append_failed`: in sequential runs, the stored entries form an
  unbroken chain that ends in the tip exactly if no append fails. `Seal` has moved
  the tip before the append can fail (`lost_entry`).

The converse directions hold up to a clash of the digest on the entries sealed.
-/

namespace Gateway

open Audit Prog

variable {D : Type} {dev : Device D} {srv : Server} {tasks : List Task} {c : Tasks D}
  {g : ℕ → Ledger}

/-! ### Every result is backed by an entry -/

/-- Results and entries of a run back each other. -/
structure BackedRun (srv : Server) (tasks : List Task) (c : Tasks D) : Prop where
  /-- a result in a 200 response of task `i` is that of an entry stored by task `i` -/
  delivered : ∀ i resp, c.threads[i]? = some (.ret (some resp)) → resp.code = 200 →
    ∀ r ∈ resp.body.results, ∃ e ∈ c.state.store.entries, (i, e) ∈ stored c.trace ∧ Backed e r
  /-- a stored entry records a result of an authenticated request, and carries its hash -/
  recorded : ∀ e ∈ c.state.store.entries, ∃ i req, tasks[i]? = some (.request req) ∧
    (i, e) ∈ stored c.trace ∧ Records srv req e ∧ e.computeHash srv.crypto = .ok e.entryHash

/-- What the ledger of a caller lists as stored is in the store. -/
theorem Trail.mem_stored (h : Trail srv tasks c g) {i : ℕ} {e : Entry}
    (he : (e, true) ∈ (g i).attempts) :
    (i, e) ∈ stored c.trace ∧ e ∈ c.state.store.entries := by
  rw [← h.attempts, Keyed.mem_proj] at he
  have hmem : (i, e) ∈ stored c.trace :=
    List.mem_map.mpr ⟨(i, e, true), List.mem_filter.mpr ⟨he, rfl⟩, rfl⟩
  refine ⟨hmem, ?_⟩
  rw [h.store]
  exact List.mem_map_of_mem hmem

/-- **Every result is backed by an entry.** For every set of requests and self tests,
in every interleaving of their operations, whatever the generator returns and
whichever appends fail. -/
theorem run_backed {drbg : D} {now : Time} {sched : List (ℕ × Env)}
    (hrun : Pool.run (exec dev srv.crypto) Pool.anyOrder sched
      (start srv tasks (World.new drbg now)) = some c) : BackedRun srv tasks c := by
  obtain ⟨g, htrail, hwp⟩ := trail_of_run hrun
  refine ⟨?_, ?_⟩
  · intro i resp hthread hcode r hr
    obtain ⟨t, -, hans⟩ : taskPost tasks i (some resp) (g i) := hwp i _ hthread
    cases t with
    | selfTest n => exact hans.elim
    | request req =>
      obtain ⟨hall, hbacked⟩ := hans.1.2 hcode
      obtain ⟨e, he, hr'⟩ : ∃ e ∈ (g i).attempts.map Prod.fst, Backed e r := by
        obtain ⟨k, hk, rfl⟩ := List.getElem_of_mem hr
        have hk' : k < ((g i).attempts.map Prod.fst).length := by rwa [hbacked.length_eq]
        exact ⟨_, List.getElem_mem hk', hbacked.get hk' hk⟩
      obtain ⟨⟨e', b⟩, hmem, rfl⟩ := List.mem_map.mp he
      obtain rfl : b = true := hall _ hmem
      obtain ⟨hstored, hstore⟩ := htrail.mem_stored hmem
      exact ⟨e', hstore, hstored, hr'⟩
  · intro e he
    rw [htrail.store] at he
    obtain ⟨⟨i, e⟩, hx, rfl⟩ := List.mem_map.mp he
    have hsealed := htrail.stored_subset hx
    obtain ⟨t, ht, hrec⟩ := htrail.records _ hsealed
    cases t with
    | selfTest n => exact hrec.elim
    | request req => exact ⟨i, req, ht, hx, hrec, htrail.sound _ hsealed⟩

/-- Backing in a run of two requests of different tenants that cross. -/
theorem run_backed_small : ∃ c, smallRun Pool.anyOrder
      [smallRequest [107] [97] [114], smallRequest [108] [98] [114]]
      (turns 0 7 ++ turns 1 8 ++ turns 0 1) = some c ∧
    c.threads.all isRet = true ∧ BackedRun smallServer
      ([smallRequest [107] [97] [114], smallRequest [108] [98] [114]].map Task.request) c := by
  have h : (smallRun Pool.anyOrder [smallRequest [107] [97] [114], smallRequest [108] [98] [114]]
      (turns 0 7 ++ turns 1 8 ++ turns 0 1)).map (fun c => c.threads.all isRet) = some true := by
    decide +kernel
  obtain ⟨c, hc, hret⟩ := Option.map_eq_some_iff.mp h
  exact ⟨c, hc, hret, run_backed hc⟩

/-! ### The order of sealings and appends -/

instance (tr : Trace) : Decidable (NoAppendFailed tr) :=
  inferInstanceAs (Decidable (∀ x ∈ appends tr, x.2.2 = true))

/-- The stored entries are an unbroken chain, which ends in the tip in memory
whenever no request is between its sealing and its append. -/
def Unbroken (srv : Server) (c : Tasks D) : Prop :=
  verifyEntries srv.crypto c.state.store.entries zeroHash = (-1, none) ∧
    (Settled c.trace → c.state.chain.prevHash = c.state.store.latestHash)

/-- The callers append in the order in which they have sealed. -/
def AppendsInOrder (tr : Trace) : Prop :=
  (attempted tr).map Prod.fst <+: (sealings tr).map Prod.fst

/-- The digest clashes on the entries sealed in a run. -/
abbrev ClashIn (srv : Server) (tr : Trace) : Prop :=
  Clash srv.crypto (hexBytes zeroHash) ((sealings tr).map Prod.snd)

/-- Without a clash no hash repeats among the sealed entries. -/
theorem Trail.nodup (h : Trail srv tasks c g) (hc : ¬ ClashIn srv c.trace) :
    (hexBytes zeroHash :: ((sealings c.trace).map Prod.snd).map Entry.hashBytes).Nodup :=
  nodup_of_not_clash isHash_zeroHash.length_hexBytes h.linked h.accepted hc

/-- What the store accepts from the zero hash is a prefix of the sealed entries. -/
theorem Trail.prefix_of_accepted (h : Trail srv tasks c g) (hc : ¬ ClashIn srv c.trace)
    (hacc : verifyEntries srv.crypto c.state.store.entries zeroHash = (-1, none)) :
    (stored c.trace).map Prod.snd <+: (sealings c.trace).map Prod.snd := by
  -- the stored entries are some of the sealed ones
  have hsub : c.state.store.entries ⊆ (sealings c.trace).map Prod.snd := by
    rw [h.store]
    exact List.map_subset _ h.stored_subset
  have hpre :=
    (accepted_iff_initial isHash_zeroHash.length_hexBytes h.linked h.accepted hsub).2 hacc
  rw [← h.store]
  exact hpre.resolve_right hc

theorem Trail.unbroken_of_in_order (h : Trail srv tasks c g) (hok : NoAppendFailed c.trace)
    (horder : AppendsInOrder c.trace) : Unbroken srv c := by
  -- the order of the callers and the order of each caller fix the order of all
  have hpre : attempted c.trace <+: sealings c.trace :=
    Keyed.prefix_of_proj horder h.proj_initial
  have hstore : c.state.store.entries = (attempted c.trace).map Prod.snd := by
    rw [h.store, stored_eq_attempted hok]
  refine ⟨?_, ?_⟩
  · rw [hstore]
    exact verifyEntries_eq.mpr ⟨h.linked.initial (hpre.map _), fun e he =>
      h.accepted e ((hpre.map Prod.snd).subset he)⟩
  -- nothing sealed is missing, so the tip is the last stored hash
  · intro hs
    have heq : attempted c.trace = sealings c.trace :=
      Keyed.eq_of_initial hpre fun i => by rw [h.proj_settled hs]
    rw [InMemoryStore.latestHash_eq_tip, hstore, heq, h.tip]

theorem Trail.in_order_of_unbroken (h : Trail srv tasks c g) (hok : NoAppendFailed c.trace)
    (hu : Unbroken srv c) (hc : ¬ ClashIn srv c.trace) : AppendsInOrder c.trace := by
  have hpre := h.prefix_of_accepted hc hu.1
  rw [stored_eq_attempted hok] at hpre
  -- each sealed entry has one place, which gives the order of the callers
  have hnd : ((sealings c.trace).map Prod.snd).Nodup :=
    List.Nodup.of_map _ (List.nodup_cons.mp (h.nodup hc)).2
  exact (Keyed.prefix_of_nodup h.attempted_subset hpre hnd).map _

/-- **The chain is unbroken exactly while requests append in the order in which they
sealed**, in every state reached by any interleaving in which no append fails. -/
theorem unbroken_iff_in_order {drbg : D} {now : Time} {sched : List (ℕ × Env)}
    (hrun : Pool.run (exec dev srv.crypto) Pool.anyOrder sched
      (start srv tasks (World.new drbg now)) = some c) (hok : NoAppendFailed c.trace) :
    (AppendsInOrder c.trace → Unbroken srv c) ∧
      (Unbroken srv c → AppendsInOrder c.trace ∨ ClashIn srv c.trace) := by
  obtain ⟨g, htrail, -⟩ := trail_of_run hrun
  refine ⟨htrail.unbroken_of_in_order hok, ?_⟩
  intro hu
  by_cases hc : ClashIn srv c.trace
  · exact Or.inr hc
  · exact Or.inl (htrail.in_order_of_unbroken hok hu hc)

instance (tr : Trace) : Decidable (AppendsInOrder tr) :=
  inferInstanceAs (Decidable (_ <+: _))

/-- In order: the second request starts when the first has returned. -/
theorem unbroken_iff_in_order_small : ∃ c, smallRun Pool.anyOrder
      [smallRequest [107] [97] [114], smallRequest [107] [97] [114]]
      (turns 0 8 ++ turns 1 8) = some c ∧ Unbroken smallServer c := by
  have h : (smallRun Pool.anyOrder [smallRequest [107] [97] [114], smallRequest [107] [97] [114]]
      (turns 0 8 ++ turns 1 8)).map
        (fun c => (decide (NoAppendFailed c.trace), decide (AppendsInOrder c.trace)))
        = some (true, true) := by
    decide +kernel
  obtain ⟨c, hc, heq⟩ := Option.map_eq_some_iff.mp h
  simp only [Prod.mk.injEq, decide_eq_true_eq] at heq
  exact ⟨c, hc, (unbroken_iff_in_order hc heq.1).1 heq.2⟩

/-- **Requests that cross.** The first request seals, the second one seals and
appends, then the first one appends: the stored entries are in the wrong order. -/
theorem crossed_requests : ∃ c, smallRun Pool.anyOrder
      [smallRequest [107] [97] [114], smallRequest [107] [97] [114]]
      (turns 0 7 ++ turns 1 8 ++ turns 0 1) = some c ∧
    NoAppendFailed c.trace ∧ ¬ Unbroken smallServer c := by
  have h : (smallRun Pool.anyOrder [smallRequest [107] [97] [114], smallRequest [107] [97] [114]]
      (turns 0 7 ++ turns 1 8 ++ turns 0 1)).map (fun c => (decide (NoAppendFailed c.trace),
        decide (verifyEntries smallServer.crypto c.state.store.entries zeroHash = (-1, none))))
        = some (true, false) := by
    decide +kernel
  obtain ⟨c, hc, heq⟩ := Option.map_eq_some_iff.mp h
  simp only [Prod.mk.injEq, decide_eq_true_eq, decide_eq_false_iff_not] at heq
  exact ⟨c, hc, heq.1, fun hu => heq.2 hu.1⟩

/-! ### Failed appends -/

/-- The stored entries are an unbroken chain that ends in the tip in memory. -/
def Intact (srv : Server) (c : Tasks D) : Prop :=
  verifyEntries srv.crypto c.state.store.entries zeroHash = (-1, none) ∧
    c.state.chain.prevHash = c.state.store.latestHash

theorem Trail.intact_of_no_failure (h : Trail srv tasks c g) (hturns : Pool.Turns c)
    (hs : Settled c.trace) (hok : NoAppendFailed c.trace) : Intact srv c := by
  -- in a sequential run the order is right
  have horder : AppendsInOrder c.trace := by
    rw [AppendsInOrder, h.attempted_eq hturns hs]
  obtain ⟨hacc, htip⟩ := h.unbroken_of_in_order hok horder
  exact ⟨hacc, htip hs⟩

/-- If the store ends in the tip, it holds as many entries as were sealed. -/
theorem Trail.no_failure_of_intact (h : Trail srv tasks c g) (hturns : Pool.Turns c)
    (hs : Settled c.trace) (hi : Intact srv c) (hc : ¬ ClashIn srv c.trace) :
    NoAppendFailed c.trace := by
  have hpre := h.prefix_of_accepted hc hi.1
  -- the stored entries end in the tip of all sealed entries
  have htip : Audit.tip zeroHash ((stored c.trace).map Prod.snd)
      = Audit.tip zeroHash ((sealings c.trace).map Prod.snd) := by
    rw [← h.tip, hi.2, InMemoryStore.latestHash_eq_tip, h.store]
  have htip' : ∀ l,
      HashLog.tip Entry.hashBytes (hexBytes zeroHash) l = hexBytes (Audit.tip zeroHash l) :=
    @HashLog.tip_map Entry GoString Entry.entryHash Bytes hexBytes zeroHash
  -- a prefix with the tip of the whole is the whole
  have hall : (stored c.trace).map Prod.snd = (sealings c.trace).map Prod.snd :=
    HashLog.tip_prefix_inj (h.nodup hc) hpre (List.prefix_refl _) (by rw [htip', htip', htip])
  -- so as many appends succeeded as were tried
  have hlen : (stored c.trace).length = (appends c.trace).length := by
    have hsealed := congrArg List.length hall
    rw [List.length_map, List.length_map, ← h.attempted_eq hturns hs] at hsealed
    rw [hsealed, attempted, List.length_map]
  rw [stored, List.length_map] at hlen
  exact List.length_filter_eq_length_iff.mp hlen

/-- **The trail survives exactly the sequential runs in which no append fails**, at
every point where no request is between its sealing and its append. -/
theorem intact_iff_no_append_failed {drbg : D} {now : Time} {sched : List (ℕ × Env)}
    (hrun : Pool.run (exec dev srv.crypto) Pool.oneAtATime sched
      (start srv tasks (World.new drbg now)) = some c) (hs : Settled c.trace) :
    (NoAppendFailed c.trace → Intact srv c) ∧
      (Intact srv c → NoAppendFailed c.trace ∨ ClashIn srv c.trace) := by
  obtain ⟨g, htrail, -⟩ := trail_of_run hrun
  have hturns := Pool.run_turns (fun _ _ _ h => h) (Pool.turns_init _ _) hrun
  refine ⟨htrail.intact_of_no_failure hturns hs, ?_⟩
  intro hi
  by_cases hc : ClashIn srv c.trace
  · exact Or.inr hc
  · exact Or.inl (htrail.no_failure_of_intact hturns hs hi hc)

/-- Two requests, one after the other, and no failure. -/
theorem intact_iff_no_append_failed_small : ∃ c, smallRun Pool.oneAtATime
      [smallRequest [107] [97] [114], smallRequest [107] [97] [114]]
      (turns 0 8 ++ turns 1 8) = some c ∧ Intact smallServer c := by
  have h : (smallRun Pool.oneAtATime [smallRequest [107] [97] [114], smallRequest [107] [97] [114]]
      (turns 0 8 ++ turns 1 8)).map (fun c => (decide (NoAppendFailed c.trace),
        decide ((sealings c.trace).map Prod.fst = (appends c.trace).map Prod.fst)))
        = some (true, true) := by
    decide +kernel
  obtain ⟨c, hc, heq⟩ := Option.map_eq_some_iff.mp h
  simp only [Prod.mk.injEq, decide_eq_true_eq] at heq
  exact ⟨c, hc, (intact_iff_no_append_failed hc (settled_of_callers heq.2)).1 heq.1⟩

/-- **A lost entry.** The append of the first request fails, the second request
succeeds: its entry names the hash of an entry that is not in the store. -/
theorem lost_entry : ∃ c, smallRun Pool.oneAtATime
      [smallRequest [107] [97] [114], smallRequest [107] [97] [114]]
      (turns 0 7 ++ [(0, { appendErr := some (.text "disk full") })] ++ turns 1 8) = some c ∧
    c.threads.all isRet = true ∧ Settled c.trace ∧ ¬ Intact smallServer c := by
  have h : (smallRun Pool.oneAtATime [smallRequest [107] [97] [114], smallRequest [107] [97] [114]]
      (turns 0 7 ++ [(0, { appendErr := some (.text "disk full") })] ++ turns 1 8)).map
        (fun c => (c.threads.all isRet,
          decide ((sealings c.trace).map Prod.fst = (appends c.trace).map Prod.fst),
          decide (verifyEntries smallServer.crypto c.state.store.entries zeroHash = (-1, none))))
        = some (true, true, false) := by
    decide +kernel
  obtain ⟨c, hc, heq⟩ := Option.map_eq_some_iff.mp h
  simp only [Prod.mk.injEq, decide_eq_true_eq, decide_eq_false_iff_not] at heq
  exact ⟨c, hc, heq.1, settled_of_callers heq.2.1, fun hi => heq.2.2 hi.1⟩

end Gateway
