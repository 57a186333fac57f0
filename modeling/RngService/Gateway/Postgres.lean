import Mathlib
import RngService.Audit.Postgres
import RngService.Gateway.Trail

/-!
# Storage in PostgreSQL

The same requests and self tests on a server whose store is a `PostgresStore`. Only two
operations go to the database; `execPg` answers them and leaves all others to `exec`.

`Tabled` is the invariant of every run: the table holds the rows of the entries whose
append succeeded, and each of these passes the auditor's checks before it is stored.
With `passes_readBack_iff` it follows which entries pass when they are read back.
-/

namespace Gateway

open Audit Prog

/-- The mutable state behind a `Server` that stores in PostgreSQL. The store of `world`
is not used. -/
structure PgWorld (D : Type) where
  world : World D
  db : PostgresStore

variable {D : Type}

/-- The operations on a server that stores in PostgreSQL. -/
def execPg (dev : Device D) (tz : Timestamptz) (crypto : Crypto) : Sem Op Ret Env (PgWorld D)
  | .appendEntry entry, e, w =>
    match w.db.append tz e.appendErr entry with
    | (some err, db) => some (.error err, { w with db := db })
    | (none, db) => some (.ok (), { w with db := db })
  | .getByRound roundID, e, w => some (w.db.getByRound e.queryErr roundID, w)
  | o, e, w => (exec dev crypto o e w.world).map fun x => (x.1, { w with world := x.2 })

/-- A pool of tasks on such a server. -/
abbrev PgTasks (D : Type) := Pool Op Ret Env (Option Response) (PgWorld D)

/-- The pool at the start, with an empty table. -/
def startPg (srv : Server) (tasks : List Task) (w : World D) : PgTasks D :=
  Pool.init (tasks.map (Task.program srv)) ⟨w, ⟨[]⟩⟩

variable {dev : Device D} {tz : Timestamptz} {srv : Server} {tasks : List Task} {c : PgTasks D}
  {g : ℕ → Ledger}

/-- An entry that a task may store: it carries its own hash and records a result. -/
def Storable (srv : Server) (tasks : List Task) (i : ℕ) (e : Entry) : Prop :=
  e.Sound srv.crypto ∧ ∃ t, tasks[i]? = some t ∧ t.Records srv e

/-- A storable entry passes the checks with the key of its tenant. -/
theorem Storable.passes {i : ℕ} {e : Entry} (h : Storable srv tasks i e) :
    ∃ key, srv.keys e.tenantID = .ok key ∧ Passes srv.crypto key e := by
  obtain ⟨hsound, t, -, hrec⟩ := h
  cases t with
  | selfTest n => exact hrec.elim
  | request req =>
    obtain ⟨key, hkey, hverify⟩ := (show Records srv req e from hrec).wellFormed.signed
    exact ⟨key, hkey, hverify, hsound⟩

/-- **The invariant of the table.** -/
structure Tabled (tz : Timestamptz) (srv : Server) (tasks : List Task) (c : PgTasks D)
    (g : ℕ → Ledger) : Prop where
  /-- the table holds the entries whose append succeeded -/
  rows : c.state.db.rows = (stored c.trace).map fun x => Row.ofEntry tz x.2
  /-- what a caller holds may be stored -/
  held : ∀ i e, (g i).held = some e → Storable srv tasks i e
  /-- so could be what is stored -/
  storable : ∀ x ∈ stored c.trace, Storable srv tasks x.1 x.2

/-- What an append does to the table. -/
theorem append_pg_spec {e : Entry} {env : Env} {w w' : PgWorld D} {r : Except GoError Unit}
    (h : execPg dev tz srv.crypto (.appendEntry e) env w = some (r, w')) :
    w'.db.rows = w.db.rows ++ (if r.isOk = true then [Row.ofEntry tz e] else []) := by
  rw [execPg] at h
  rcases happend : w.db.append tz env.appendErr e with ⟨_ | err, db⟩
  all_goals
    rw [happend] at h
    obtain ⟨rfl, rfl⟩ := Prod.mk.inj (Option.some.inj h)
    unfold PostgresStore.append at happend
    split at happend
  -- an entry that is not sealed and signed is refused
  · cases happend
  · cases herr : env.appendErr with
    | some err => rw [herr] at happend; cases happend
    | none =>
      rw [herr] at happend
      obtain ⟨-, rfl⟩ := Prod.mk.inj happend
      rfl
  · obtain ⟨-, rfl⟩ := Prod.mk.inj happend
    exact (List.append_nil _).symm
  · cases herr : env.appendErr with
    | some err =>
      rw [herr] at happend
      obtain ⟨-, rfl⟩ := Prod.mk.inj happend
      exact (List.append_nil _).symm
    | none => rw [herr] at happend; cases happend

/-- The operations that do not go to the database are those of `exec`. -/
theorem execPg_exec {o : Op} (ha : ∀ e, o ≠ .appendEntry e) (hg : ∀ r, o ≠ .getByRound r)
    (env : Env) (w : PgWorld D) : execPg dev tz srv.crypto o env w
      = (exec dev srv.crypto o env w.world).map fun x => (x.1, { w with world := x.2 }) := by
  cases o with
  | appendEntry e => exact absurd rfl (ha e)
  | getByRound roundID => exact absurd rfl (hg roundID)
  | _ => rfl

/-- Only an append touches the table. -/
theorem execPg_db {o : Op} (ha : ∀ e, o ≠ .appendEntry e) {env : Env} {w w' : PgWorld D} {r : Ret o}
    (h : execPg dev tz srv.crypto o env w = some (r, w')) : w'.db = w.db := by
  by_cases hg : ∃ roundID, o = .getByRound roundID
  · obtain ⟨roundID, rfl⟩ := hg
    obtain ⟨-, rfl⟩ := Prod.mk.inj (Option.some.inj h)
    rfl
  · rw [execPg_exec ha (not_exists.mp hg), Option.map_eq_some_iff] at h
    obtain ⟨x, -, hx⟩ := h
    obtain ⟨-, rfl⟩ := Prod.mk.inj hx
    rfl

/-- A call that is no append, after which its caller may hold a storable entry. -/
theorem Tabled.unchanged (h : Tabled tz srv tasks c g) {ev : Event Op Ret Env} {w : PgWorld D}
    {q : Ledger} (hev : appending ev = none) (hdb : w.db = c.state.db)
    (hq : ∀ e, q.held = some e → Storable srv tasks ev.caller e)
    (p : Program (Option Response)) :
    Tabled tz srv tasks (c.moved p w ev) (Function.update g ev.caller q) := by
  have hstored : stored (c.trace ++ [ev]) = stored c.trace := stored_concat hev
  refine ⟨?_, fun i e he => ?_, ?_⟩
  · rw [Pool.moved, hdb, hstored]
    exact h.rows
  · by_cases hi : i = ev.caller
    · subst hi
      rw [Function.update_self] at he
      exact hq e he
    · rw [Function.update_of_ne hi] at he
      exact h.held i e he
  · rw [Pool.moved, hstored]
    exact h.storable

/-- **One call keeps the table.** -/
theorem Tabled.step (h : Tabled tz srv tasks c g) {i : ℕ} {env : Env} {o : Op} {r : Ret o}
    {w : PgWorld D} (hallowed : (taskModel srv tasks i).allowed o (g i))
    (hsem : execPg dev tz srv.crypto o env c.state = some (r, w)) (p : Program (Option Response)) :
    ∃ q, (taskModel srv tasks i).step o (g i) r q ∧
      Tabled tz srv tasks (c.moved p w ⟨i, env, o, r⟩) (Function.update g i q) := by
  by_cases ho : Quiet o
  -- a quiet operation leaves ledger and table alone
  · have hnot : ∀ e, o ≠ .appendEntry e := by
      rintro e rfl
      exact ho
    refine ⟨g i, ?_, h.unchanged (sealing_quiet ho r).2 (execPg_db hnot hsem) (h.held i) p⟩
    cases o with
    | sealEntry e => exact ho.elim
    | appendEntry e => exact ho.elim
    | _ => rfl
  cases o with
  | sealEntry e =>
    obtain ⟨-, t, ht, hrec⟩ := hallowed
    have hdb := execPg_db (fun _ => Op.noConfusion) hsem
    rw [execPg_exec (fun _ => Op.noConfusion) (fun _ => Op.noConfusion),
      Option.map_eq_some_iff] at hsem
    obtain ⟨⟨r', w'⟩, hexec, heq⟩ := hsem
    obtain ⟨rfl, -⟩ := Prod.mk.inj heq
    rcases hres : c.state.world.chain.seal srv.crypto e with ⟨r₁, chain⟩
    rw [exec, hres] at hexec
    obtain ⟨rfl, -⟩ := Prod.mk.inj (Option.some.inj hexec)
    -- a sealed entry is held by its caller, and storable
    rcases seal_spec hres with ⟨e', rfl, hseal, -, -⟩ | ⟨⟨err, rfl⟩, -⟩
    · refine ⟨{ g i with held := some e' }, ⟨hseal, rfl⟩, h.unchanged rfl hdb ?_ p⟩
      rintro x hx
      obtain rfl := Option.some.inj hx
      exact ⟨hseal.2, t, ht, hrec.sealed hseal⟩
    · exact ⟨g i, rfl, h.unchanged rfl hdb (h.held i) p⟩
  | appendEntry e =>
    have hheld : (g i).held = some e := hallowed
    refine ⟨_, rfl, ?_, fun j x hx => ?_, ?_⟩
    -- the row is added exactly if the append succeeds
    · rw [Pool.moved, append_pg_spec hsem, stored_append, h.rows, List.map_append]
      congr 1
      split <;> rfl
    · by_cases hj : j = i
      · subst hj
        rw [Function.update_self] at hx
        cases hx
      · rw [Function.update_of_ne hj] at hx
        exact h.held j x hx
    · intro x hx
      rw [Pool.moved, stored_append] at hx
      rcases List.mem_append.mp hx with hx | hx
      · exact h.storable x hx
      · split at hx
        · rw [List.mem_singleton.mp hx]
          exact h.held i e hheld
        · cases hx
  | _ => exact absurd trivial ho

/-- **The table of every run**, under any policy. -/
theorem tabled_of_run {policy : Pool.Policy Op Ret Env (Option Response) (PgWorld D)} {w : World D}
    {sched : List (ℕ × Env)}
    (hrun : Pool.run (execPg dev tz srv.crypto) policy sched (startPg srv tasks w) = some c) :
    ∃ g, Tabled tz srv tasks c g := by
  have hstart : Tabled tz srv tasks (startPg srv tasks w) fun _ => Ledger.empty := by
    refine ⟨rfl, fun i e he => ?_, fun x hx => ?_⟩
    · cases he
    · cases hx
  obtain ⟨g, h, -⟩ := Pool.run_sound (J := Tabled tz srv tasks)
    (fun c g i e o again k r s hJ _ _ hallowed hsem => hJ.step hallowed hsem _) hstart
    (fun i _ hp => wp_tasks srv tasks i hp) hrun
  exact ⟨g, h⟩

/-- What `scanEntries` makes of the table. -/
theorem Tabled.scan (h : Tabled tz srv tasks c g) : scanEntries c.state.db.rows
    = .ok (((stored c.trace).map Prod.snd).map (Entry.readBack tz)) := by
  have hrows : c.state.db.rows = ((stored c.trace).map Prod.snd).map (Row.ofEntry tz) := by
    rw [h.rows, List.map_map]
    rfl
  rw [hrows]
  exact scanEntries_ofEntry tz _

/-- **The entries that survive storage.** Every entry that a run of the server has
appended is read back by `scanEntries` with its timestamp rounded; it passes the checks
with the signing key of its tenant exactly if the clock read a whole number of
microseconds, or both digests collide. -/
theorem scanned_passes_iff {policy : Pool.Policy Op Ret Env (Option Response) (PgWorld D)}
    {w : World D} {sched : List (ℕ × Env)}
    (hrun : Pool.run (execPg dev tz srv.crypto) policy sched (startPg srv tasks w) = some c) :
    ∃ entries, scanEntries c.state.db.rows = .ok entries ∧
      List.Forall₂ (fun e e' => e' = e.readBack tz ∧
        ∃ key, srv.keys e.tenantID = .ok key ∧ (Passes srv.crypto key e' ↔ 1000 ∣ e.createdAt ∨
          (HashCollides srv.crypto e e' ∧ SignCollides srv.crypto key e e')))
        ((stored c.trace).map Prod.snd) entries := by
  obtain ⟨g, h⟩ := tabled_of_run hrun
  refine ⟨_, h.scan, ?_⟩
  rw [List.forall₂_map_right_iff, List.forall₂_same]
  intro e he
  obtain ⟨x, hx, rfl⟩ := List.mem_map.mp he
  obtain ⟨key, hkey, hpass⟩ := (h.storable x hx).passes
  exact ⟨rfl, key, hkey, passes_readBack_iff hpass⟩

/-- A column that rounds half up. -/
def halfUp : Timestamptz where
  round t := 1000 * ((t + 500) / 1000)
  micros _ := Dvd.intro _ rfl
  nearest := by
    intro (t : ℤ)
    show |1000 * ((t + 500) / 1000) - t| ≤ 500
    rw [abs_le]
    constructor <;> omega

/-- One request on the small server, served when its clock reads `t`. -/
def smallPgRun (t : Time) : Option (PgTasks Csprng.DRBG) :=
  Pool.run (execPg (Device.drbg fun _ block => block) halfUp smallServer.crypto) Pool.anyOrder
    (List.replicate 8 (0, { now := t }))
    (startPg smallServer [.request (smallRequest [107] [97] [114])]
      { smallWorld with lastReseed := t })

/-- The first instant of 2026, in whole seconds: what is read back passes. -/
theorem scanned_passes_iff_small : ∃ c e e' key, smallPgRun 1767225600000000000 = some c ∧
    stored c.trace = [(0, e)] ∧ scanEntries c.state.db.rows = .ok [e'] ∧
    smallServer.keys e.tenantID = .ok key ∧ Passes Crypto.std key e' := by
  have h : (smallPgRun 1767225600000000000).map (fun c => (stored c.trace).map fun x =>
      (x.1, x.2.createdAt)) = some [(0, 1767225600000000000)] := by
    decide +kernel
  obtain ⟨c, hc, heq⟩ := Option.map_eq_some_iff.mp h
  obtain ⟨⟨i, e⟩, hstored, hx⟩ := List.map_eq_singleton_iff.mp heq
  obtain ⟨rfl, htime⟩ := Prod.mk.inj hx
  obtain ⟨entries, hscan, hall⟩ := scanned_passes_iff hc
  rw [hstored] at hall
  obtain ⟨e', l, ⟨-, key, hkey, hiff⟩, hnil, rfl⟩ := List.forall₂_cons_left_iff.mp hall
  obtain rfl := List.forall₂_nil_left_iff.mp hnil
  refine ⟨c, e, e', key, hc, hstored, hscan, hkey, hiff.mpr (Or.inl ?_)⟩
  rw [htime]
  decide

/-- **One nanosecond later.** The entry is sealed, signed and stored, and what is read
back passes neither check. -/
theorem nanosecond_lost : ∃ c e e' key, smallPgRun 1767225600000000001 = some c ∧
    stored c.trace = [(0, e)] ∧ scanEntries c.state.db.rows = .ok [e'] ∧
    smallServer.keys e.tenantID = .ok key ∧ Passes Crypto.std key e ∧
    e'.verify Crypto.std key = false ∧ e'.computeHash Crypto.std ≠ .ok e'.entryHash := by
  have h : (smallPgRun 1767225600000000001).map (fun c => (stored c.trace).map fun x =>
      let e := x.2
      let e' := x.2.readBack halfUp
      let key := List.replicate 32 7
      (x.1, decide (smallServer.keys e.tenantID = .ok key),
        e.verify Crypto.std key && decide (e.computeHash Crypto.std = .ok e.entryHash),
        e'.verify Crypto.std key || decide (e'.computeHash Crypto.std = .ok e'.entryHash)))
      = some [(0, true, true, false)] := by
    decide +kernel
  obtain ⟨c, hc, heq⟩ := Option.map_eq_some_iff.mp h
  obtain ⟨⟨i, e⟩, hstored, hx⟩ := List.map_eq_singleton_iff.mp heq
  simp only [Prod.mk.injEq, decide_eq_true_eq, Bool.and_eq_true, Bool.or_eq_false_iff,
    decide_eq_false_iff_not] at hx
  obtain ⟨rfl, hkey, hpass, hverify, hhash⟩ := hx
  obtain ⟨g, htable⟩ := tabled_of_run hc
  have hscan := htable.scan
  rw [hstored] at hscan
  exact ⟨c, e, e.readBack halfUp, _, hc, hstored, hscan, hkey, hpass, hverify, hhash⟩

end Gateway
