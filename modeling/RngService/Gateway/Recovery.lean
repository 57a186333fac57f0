import Mathlib
import RngService.Audit.Restart
import RngService.Gateway.Integrity

/-!
# Crashes

A service whose store outlives it is started again and again: each time with a new
generator, with its chain loaded from the latest hash in the store, and with new requests.
(The service of `runServe` keeps its store in memory, and starts each time with none.)
A run of requests may be cut at any point, which is a crash: requests are dropped between any
two of their operations, and an entry that was sealed but not yet stored is lost.

What a session leaves in the store is, to the next one, as if its requests had been served
before (`past`), so the invariant `Trail` of a single run holds in each session
(`trail_of_session`). It follows that no crash damages the trail and no crash takes back what
has been delivered (`crash_recovery`).
-/

namespace Gateway

open Audit Prog

variable {D : Type} {dev : Device D} {srv : Server} {tasks : List Task}

/-! ### Sessions -/

/-- The world of a service that starts on a store: the chain is resumed by `LoadChain`. -/
def restart (store : InMemoryStore) (drbg : D) (now : Time) : Except GoError (World D) :=
  (loadChain store.latestHash).map fun chain => ⟨drbg, chain, store, now, false⟩

/-- What a session starts with, and what happens in it. -/
structure Session (D : Type) where
  drbg : D
  now : Time
  tasks : List Task
  sched : List (ℕ × Env)

/-- **The life of a store**: sessions, each of them run up to any point, the first on an empty
store and each later one on what the last has left. -/
inductive Life (dev : Device D) (srv : Server) : List (Session D × Tasks D) → InMemoryStore → Prop
  | new : Life dev srv [] InMemoryStore.new
  | session {past : List (Session D × Tasks D)} {store : InMemoryStore} {ses : Session D}
      {w : World D} {c : Tasks D} :
    Life dev srv past store → restart store ses.drbg ses.now = .ok w →
      Pool.run (exec dev srv.crypto) Pool.anyOrder ses.sched (start srv ses.tasks w) = some c →
        Life dev srv (past ++ [(ses, c)]) c.state.store

/-- Sessions run one after the other, from what earlier ones have left. -/
def runSessions (dev : Device D) (srv : Server) (done : List (Session D × Tasks D))
    (store : InMemoryStore) : List (Session D) → Option (List (Session D × Tasks D) × InMemoryStore)
  | [] => some (done, store)
  | ses :: rest => do
    let w ← (restart store ses.drbg ses.now).toOption
    let c ← Pool.run (exec dev srv.crypto) Pool.anyOrder ses.sched (start srv ses.tasks w)
    runSessions dev srv (done ++ [(ses, c)]) c.state.store rest

theorem life_of_runSessions {done sessions : List (Session D × Tasks D)}
    {store store' : InMemoryStore} {l : List (Session D)} (h : Life dev srv done store)
    (hrun : runSessions dev srv done store l = some (sessions, store')) :
    Life dev srv sessions store' := by
  induction l generalizing done store with
  | nil =>
    obtain ⟨rfl, rfl⟩ := Prod.mk.inj (Option.some.inj hrun)
    exact h
  | cons ses l ih =>
    obtain ⟨w, hw, hrest⟩ := Option.bind_eq_some_iff.mp hrun
    obtain ⟨c, hc, hrest⟩ := Option.bind_eq_some_iff.mp hrest
    refine ih (h.session ?_ hc) hrest
    cases hres : restart store ses.drbg ses.now with
    | error err => rw [hres] at hw; cases hw
    | ok w' =>
      rw [hres] at hw
      exact congrArg Except.ok (Option.some.inj hw)

/-! ### The past of a session -/

/-- The calls that would have filled the store: each entry sealed and stored by a request of
its own, the first of them with index `n`. -/
def past : ℕ → List Entry → Trace
  | _, [] => []
  | n, e :: es =>
    ⟨n, {}, .sealEntry e, .ok e⟩ :: ⟨n, {}, .appendEntry e, .ok ()⟩ :: past (n + 1) es

theorem appends_append (tr tr' : Trace) : appends (tr ++ tr') = appends tr ++ appends tr' :=
  List.filterMap_append

theorem sealings_append (tr tr' : Trace) : sealings (tr ++ tr') = sealings tr ++ sealings tr' :=
  List.filterMap_append

theorem appends_past (n : ℕ) (es : List Entry) :
    appends (past n es) = (sealings (past n es)).map fun x => (x.1, x.2, true) := by
  induction es generalizing n with
  | nil => rfl
  | cons e es ih => exact congrArg ((n, e, true) :: ·) (ih (n + 1))

theorem map_snd_sealings_past (n : ℕ) (es : List Entry) :
    (sealings (past n es)).map Prod.snd = es := by
  induction es generalizing n with
  | nil => rfl
  | cons e es ih => exact congrArg (e :: ·) (ih (n + 1))

theorem attempted_past (n : ℕ) (es : List Entry) :
    attempted (past n es) = sealings (past n es) := by
  rw [attempted, appends_past, List.map_map]
  exact List.map_id _

theorem stored_past (n : ℕ) (es : List Entry) : stored (past n es) = sealings (past n es) := by
  have hok : NoAppendFailed (past n es) := by
    intro x hx
    rw [appends_past] at hx
    obtain ⟨y, -, rfl⟩ := List.mem_map.mp hx
    rfl
  rw [stored_eq_attempted hok, attempted_past]

/-- The indices of the past start at `n`, in the order of the entries. -/
theorem getElem?_of_mem_past {n i : ℕ} {es : List Entry} {e : Entry}
    (h : (i, e) ∈ sealings (past n es)) : n ≤ i ∧ es[i - n]? = some e := by
  induction es generalizing n with
  | nil => cases h
  | cons e' es ih =>
    rcases List.mem_cons.mp (show (i, e) ∈ (n, e') :: sealings (past (n + 1) es) from h) with
      heq | hmem
    · obtain ⟨rfl, rfl⟩ := Prod.mk.inj heq
      exact ⟨le_rfl, by rw [Nat.sub_self]; rfl⟩
    · obtain ⟨hle, hget⟩ := ih hmem
      refine ⟨by omega, ?_⟩
      have hsub : i - n = i - (n + 1) + 1 := by omega
      rw [hsub, List.getElem?_cons_succ]
      exact hget

/-- A pool with a past. -/
def withPast (tr : Trace) (c : Tasks D) : Tasks D := { c with trace := tr ++ c.trace }

theorem withPast_moved (tr : Trace) (c : Tasks D) (p : Program (Option Response)) (w : World D)
    (ev : Event Op Ret Env) : withPast tr (c.moved p w ev) = (withPast tr c).moved p w ev := by
  simp only [withPast, Pool.moved, List.append_assoc]

/-- The ledgers after the past. -/
def pastLedger (n : ℕ) (es : List Entry) (i : ℕ) : Ledger :=
  ⟨none, Keyed.proj i (appends (past n es))⟩

/-- The tasks of the session have no past. -/
theorem pastLedger_of_lt {n i : ℕ} (h : i < n) (es : List Entry) :
    pastLedger n es i = Ledger.empty := by
  have hnil : Keyed.proj i (appends (past n es)) = [] := by
    rw [List.eq_nil_iff_forall_not_mem]
    intro x hx
    have hmem := Keyed.mem_proj.mp hx
    rw [appends_past] at hmem
    obtain ⟨⟨j, e⟩, hje, heq⟩ := List.mem_map.mp hmem
    obtain ⟨rfl, -⟩ := Prod.mk.inj heq
    have hle := (getElem?_of_mem_past hje).1
    omega
  rw [pastLedger, hnil, Ledger.empty]

/-- **The trail at the start of a session**: the entries of the store are accepted, and
recorded by earlier tasks `old`. -/
theorem trail_restart {store : InMemoryStore} {old : List Task} {drbg : D} {now : Time}
    {w : World D} (hw : restart store drbg now = .ok w)
    (haccepted : verifyEntries srv.crypto store.entries zeroHash = (-1, none))
    (hrecords : List.Forall₂ (fun t e => t.Records srv e) old store.entries) :
    Trail srv (tasks ++ old) (withPast (past tasks.length store.entries) (start srv tasks w))
      (pastLedger tasks.length store.entries) := by
  obtain ⟨hlinked, hsound⟩ := verifyEntries_eq.mp haccepted
  have hentries := map_snd_sealings_past tasks.length store.entries
  have htrace : (withPast (past tasks.length store.entries) (start srv tasks w)).trace
      = past tasks.length store.entries := List.append_nil _
  -- the chain has been loaded from the latest hash
  obtain ⟨hchain, hstore⟩ : w.chain.prevHash = store.latestHash ∧ w.store = store := by
    rw [restart, loadChain] at hw
    split at hw
    · cases hw
    · obtain rfl := Except.ok.inj hw
      exact ⟨rfl, rfl⟩
  refine ⟨?_, ?_, ?_, ?_, fun i => ?_, fun i => ?_, ?_⟩ <;> rw [htrace]
  · rw [hentries]
    exact hlinked
  · rintro ⟨i, e⟩ hx
    exact hsound e (hentries ▸ List.mem_map_of_mem hx)
  · rw [hentries, ← InMemoryStore.latestHash_eq_tip]
    exact hchain
  · rw [stored_past, hentries]
    exact congrArg InMemoryStore.entries hstore
  · rw [pastLedger, appends_past, Option.toList_none, List.append_nil,
      Keyed.proj_map fun e => (e, true), List.map_map]
    exact (List.map_id _).symm
  · rfl
  · rintro ⟨i, e⟩ hx
    obtain ⟨hle, hget⟩ := getElem?_of_mem_past hx
    obtain ⟨hi, rfl⟩ := List.getElem?_eq_some_iff.mp hget
    have hlen := hrecords.length_eq
    refine ⟨old[i - tasks.length], ?_, List.Forall₂.get hrecords _ _⟩
    rw [List.getElem?_append_right hle, List.getElem?_eq_getElem]

/-- **The trail of a session**, up to any point of it. -/
theorem trail_of_session {store : InMemoryStore} {old : List Task} {ses : Session D} {w : World D}
    {c : Tasks D} (hw : restart store ses.drbg ses.now = .ok w)
    (hrun : Pool.run (exec dev srv.crypto) Pool.anyOrder ses.sched (start srv ses.tasks w) = some c)
    (haccepted : verifyEntries srv.crypto store.entries zeroHash = (-1, none))
    (hrecords : List.Forall₂ (fun t e => t.Records srv e) old store.entries) :
    ∃ g, Trail srv (ses.tasks ++ old) (withPast (past ses.tasks.length store.entries) c) g ∧
      ∀ i p, c.threads[i]? = some p → WP (taskModel srv (ses.tasks ++ old) i) p
        (taskPost (ses.tasks ++ old) i) (g i) := by
  refine Pool.run_sound (J := fun c g => Trail srv (ses.tasks ++ old)
      (withPast (past ses.tasks.length store.entries) c) g)
    (fun c g i e o again k r s hJ _ _ hallowed hsem => ?_)
    (trail_restart hw haccepted hrecords) (fun i p hp => ?_) hrun
  · obtain ⟨q, hq, htrail⟩ := hJ.step hallowed hsem (if again r then call o again k else k r)
    exact ⟨q, hq, withPast_moved _ _ _ _ _ ▸ htrail⟩
  · have hp' : (ses.tasks.map (Task.program srv))[i]? = some p := hp
    have hi : i < ses.tasks.length := by
      rw [← List.length_map (f := Task.program srv)]
      exact (List.getElem?_eq_some_iff.mp hp').1
    rw [pastLedger_of_lt hi]
    refine wp_tasks srv (ses.tasks ++ old) i ?_
    rw [List.map_append, List.getElem?_append_left (by rwa [List.length_map])]
    exact hp'

/-! ### Recovery -/

/-- No append of the session has failed, and requests have appended in the order in which
they sealed. -/
def InOrder (c : Tasks D) : Prop := NoAppendFailed c.trace ∧ AppendsInOrder c.trace

instance (c : Tasks D) : Decidable (InOrder c) :=
  inferInstanceAs (Decidable (NoAppendFailed c.trace ∧ AppendsInOrder c.trace))

/-- What holds between two sessions. -/
structure Recovered (srv : Server) (sessions : List (Session D × Tasks D))
    (store : InMemoryStore) : Prop where
  /-- an auditor accepts the store from the beginning -/
  accepted : verifyEntries srv.crypto store.entries zeroHash = (-1, none)
  /-- the service can start on the store, where its chain continues the stored one -/
  restarts : ∀ (drbg : D) now, restart store drbg now
    = .ok ⟨drbg, ⟨store.latestHash⟩, store, now, false⟩
  /-- each result in a 200 response of any session is backed by an entry in the store -/
  delivered : ∀ x ∈ sessions, ∀ (i : ℕ) (resp : Response),
    x.2.threads[i]? = some (ret (some resp)) → resp.code = 200 →
      ∀ r ∈ resp.body.results, ∃ e ∈ store.entries, Backed e r
  /-- each entry records a result of an authenticated request of some session -/
  recorded : ∀ e ∈ store.entries, ∃ x ∈ sessions, ∃ req,
    Task.request req ∈ x.1.tasks ∧ Records srv req e

theorem recovered_new :
    Recovered srv ([] : List (Session D × Tasks D)) InMemoryStore.new where
  accepted := rfl
  restarts := fun drbg now => by
    rw [restart, (@resumable_new srv.crypto).loadChain]
    rfl
  delivered := fun x hx => by cases hx
  recorded := fun e he => by cases he

/-- What has been accepted can be resumed. -/
theorem resumable_of_accepted {store : InMemoryStore}
    (h : verifyEntries srv.crypto store.entries zeroHash = (-1, none)) :
    Resumable srv.crypto ⟨store.latestHash⟩ store := by
  obtain ⟨-, hsound⟩ := verifyEntries_eq.mp h
  -- the latest hash is the zero hash, or the hash of the last entry
  have hdigits : store.latestHash.length = 64 ∧ ∃ b, Hex.decodeString store.latestHash = .ok b := by
    rcases List.eq_nil_or_concat store.entries with hnil | ⟨es, e, hconcat⟩
    · rw [InMemoryStore.latestHash_eq_tip, hnil]
      have hnew := @resumable_new srv.crypto
      exact ⟨hnew.length, hnew.decodes⟩
    · have htip : store.latestHash = e.entryHash := by
        rw [InMemoryStore.latestHash_eq_tip, hconcat, List.concat_eq_append, Audit.tip,
          HashLog.tip_append]
        rfl
      rw [htip]
      refine (hsound e ?_).digits
      rw [hconcat, List.concat_eq_append]
      exact List.mem_append_right _ (List.mem_singleton_self e)
  exact ⟨rfl, hdigits.1, hdigits.2, h⟩

/-- Choices for the members of a list. -/
theorem exists_forall₂ {α β : Type} {R : α → β → Prop} {l : List β} (h : ∀ b ∈ l, ∃ a, R a b) :
    ∃ as, List.Forall₂ R as l := by
  induction l with
  | nil => exact ⟨[], .nil⟩
  | cons b l ih =>
    obtain ⟨a, ha⟩ := h b List.mem_cons_self
    obtain ⟨as, has⟩ := ih fun b hb => h b (List.mem_cons_of_mem _ hb)
    exact ⟨a :: as, .cons ha has⟩

theorem InOrder.withPast {c : Tasks D} (h : InOrder c) (n : ℕ) (es : List Entry) :
    InOrder (withPast (past n es) c) := by
  refine ⟨fun x hx => ?_, ?_⟩
  · rcases List.mem_append.mp (appends_append _ _ ▸ hx) with hx | hx
    · rw [appends_past] at hx
      obtain ⟨y, -, rfl⟩ := List.mem_map.mp hx
      rfl
    · exact h.1 x hx
  -- what has been stored before is sealed and appended in the same order
  · have hattempted : attempted (past n es ++ c.trace)
        = sealings (past n es) ++ attempted c.trace := by
      rw [attempted, appends_append, List.map_append]
      exact congrArg (· ++ _) (attempted_past n es)
    change (attempted (past n es ++ c.trace)).map Prod.fst <+:
      (sealings (past n es ++ c.trace)).map Prod.fst
    rw [hattempted, sealings_append, List.map_append, List.map_append]
    exact (List.prefix_append_right_inj _).mpr h.2

/-- The store of a session is what it has found and what it has stored. -/
theorem entries_withPast {g : ℕ → Ledger} {n : ℕ} {es : List Entry} {c : Tasks D}
    (h : Trail srv tasks (withPast (past n es) c) g) :
    c.state.store.entries = es ++ (stored c.trace).map Prod.snd := by
  have hstore : c.state.store.entries = (stored (past n es ++ c.trace)).map Prod.snd := h.store
  have happend : stored (past n es ++ c.trace) = stored (past n es) ++ stored c.trace := by
    rw [stored, appends_append, List.filter_append, List.map_append, stored, stored]
  rw [hstore, happend, List.map_append, stored_past, map_snd_sealings_past]

/-- A result that a correct caller has delivered is backed by an entry in the store. -/
theorem Trail.backed_of_delivered {g : ℕ → Ledger} {c : Tasks D} (h : Trail srv tasks c g) {i : ℕ}
    {resp : Response} (hpost : taskPost tasks i (some resp) (g i)) (hcode : resp.code = 200)
    {r : GenerateResponse} (hr : r ∈ resp.body.results) :
    ∃ e ∈ c.state.store.entries, Backed e r := by
  obtain ⟨t, -, hans⟩ := hpost
  cases t with
  | selfTest n => exact hans.elim
  | request req =>
    obtain ⟨hall, hbacked⟩ := hans.1.2 hcode
    obtain ⟨k, hk, rfl⟩ := List.getElem_of_mem hr
    have hk' : k < ((g i).attempts.map Prod.fst).length := by rwa [hbacked.length_eq]
    obtain ⟨⟨e, b⟩, hmem, heq⟩ := List.mem_map.mp (List.getElem_mem hk')
    obtain rfl : b = true := hall _ hmem
    have hget := hbacked.get hk' hk
    rw [List.get_eq_getElem, ← heq] at hget
    exact ⟨e, (h.mem_stored hmem).2, hget⟩

/-- **One session keeps the store recovered**, wherever it ends. -/
theorem Recovered.session {sessions : List (Session D × Tasks D)} {store : InMemoryStore}
    {ses : Session D} {w : World D} {c : Tasks D} (h : Recovered srv sessions store)
    (hw : restart store ses.drbg ses.now = .ok w)
    (hrun : Pool.run (exec dev srv.crypto) Pool.anyOrder ses.sched (start srv ses.tasks w) = some c)
    (horder : InOrder c) : Recovered srv (sessions ++ [(ses, c)]) c.state.store := by
  -- each stored entry has its task
  obtain ⟨old, hold⟩ := exists_forall₂ (R := fun t e => t.Records srv e ∧
    ∃ x ∈ sessions, t ∈ x.1.tasks) fun e he => by
      obtain ⟨x, hx, req, hreq, hrec⟩ := h.recorded e he
      exact ⟨.request req, hrec, x, hx, hreq⟩
  have hrecords : List.Forall₂ (fun t e => t.Records srv e) old store.entries :=
    hold.imp fun _ _ h => h.1
  obtain ⟨g, htrail, hwp⟩ := trail_of_session hw hrun h.accepted hrecords
  have haccepted : verifyEntries srv.crypto c.state.store.entries zeroHash = (-1, none) :=
    (htrail.unbroken_of_in_order (horder.withPast _ _).1 (horder.withPast _ _).2).1
  refine ⟨haccepted, fun drbg now => ?_, ?_, ?_⟩
  · rw [restart, (resumable_of_accepted haccepted).loadChain]
    rfl
  · intro x hx i resp hthread hcode r hr
    rcases List.mem_append.mp hx with hx | hx
    -- the entries of earlier sessions are still there
    · obtain ⟨e, he, hbacked⟩ := h.delivered x hx i resp hthread hcode r hr
      exact ⟨e, entries_withPast htrail ▸ List.mem_append_left _ he, hbacked⟩
    · obtain rfl := List.mem_singleton.mp hx
      exact htrail.backed_of_delivered (hwp i _ hthread) hcode hr
  · intro e he
    obtain ⟨⟨i, e⟩, hx, rfl⟩ := List.mem_map.mp
      (show e ∈ (stored _).map Prod.snd from htrail.store ▸ he)
    obtain ⟨t, ht, hrec⟩ := htrail.records _ (htrail.stored_subset hx)
    -- its task is one of this session, or of an earlier one
    obtain ⟨x, hx, hmem⟩ : ∃ x ∈ sessions ++ [(ses, c)], t ∈ x.1.tasks := by
      rcases List.mem_append.mp (List.mem_of_getElem? ht) with hmem | hmem
      · exact ⟨(ses, c), List.mem_append_right _ (List.mem_singleton_self _), hmem⟩
      · obtain ⟨k, hk, rfl⟩ := List.getElem_of_mem hmem
        obtain ⟨-, x, hx, ht⟩ := hold.get hk (hold.length_eq ▸ hk)
        exact ⟨x, List.mem_append_left _ hx, ht⟩
    cases t with
    | selfTest n => exact hrec.elim
    | request req => exact ⟨x, hx, req, hmem, hrec⟩

/-- **No crash damages the trail.** A service is started on its store again and again, each
time with its chain loaded from the latest hash, and each time its requests are cut off at any
point. If no append has failed and the requests of a session have appended in the order in
which they sealed, then an auditor accepts the whole store, the next start succeeds and
continues the chain, every result that any session has delivered is still backed by an entry,
and every entry records a result of a request of some session. -/
theorem crash_recovery {sessions : List (Session D × Tasks D)} {store : InMemoryStore}
    (hlife : Life dev srv sessions store) (horder : ∀ x ∈ sessions, InOrder x.2) :
    Recovered srv sessions store := by
  induction hlife with
  | new => exact recovered_new
  | session _ hw hrun ih =>
    exact (ih fun x hx => horder x (List.mem_append_left _ hx)).session hw hrun
      (horder _ (List.mem_append_right _ (List.mem_singleton_self _)))

/-- A crash between the sealing and the append of the second request, and one more request
after the restart: three entries have been sealed, two are stored. -/
theorem crash_recovery_lost_seal : ∃ sessions store,
    Life (Device.drbg fun _ block => block) smallServer sessions store ∧
    (sessions.map fun x => (sealings x.2.trace).length) = [2, 1] ∧
    store.entries.length = 2 ∧ Recovered smallServer sessions store := by
  have h : (runSessions (Device.drbg fun _ block => block) smallServer [] InMemoryStore.new
      [⟨smallWorld.drbg, 0, [.request (smallRequest [107] [97] [114]),
          .request (smallRequest [108] [98] [114])], turns 0 8 ++ turns 1 7⟩,
        ⟨smallWorld.drbg, 5, [.request (smallRequest [107] [97] [115])], turns 0 8⟩]).map
      (fun x => (x.1.all fun y => decide (InOrder y.2),
        x.1.map fun y => (sealings y.2.trace).length, x.2.entries.length))
      = some (true, [2, 1], 2) := by
    decide +kernel
  obtain ⟨⟨sessions, store⟩, hrun, heq⟩ := Option.map_eq_some_iff.mp h
  simp only [Prod.mk.injEq, List.all_eq_true, decide_eq_true_eq] at heq
  have hlife := life_of_runSessions .new hrun
  exact ⟨sessions, store, hlife, heq.2.1, heq.2.2, crash_recovery hlife heq.1⟩

end Gateway
