import Mathlib
import RngService.Lib.Interleave
import RngService.Lib.Keyed
import RngService.Gateway.Ledger

/-!
# The audit trail of concurrent requests

Requests and self tests run as a `Prog.Pool` on one `World`, every order of their
atomic operations being a schedule. The trace of a pool says which entries were
sealed (`sealings`) and which were tried to be appended (`appends`), in order and
tagged with the caller.

`Trail` is the invariant of every run. The sealed entries form an unbroken chain
whose tip is the tip in memory, the store holds the entries whose append
succeeded, and each caller appends what it has sealed, in its own order, except
that its last entry may still be in its hands. Nothing relates the order of the
appends of different callers to the order of their sealings: the two are separate
operations. `trail_of_run` connects the invariant to the program logic.
-/

namespace Gateway

open Audit Prog

/-- The calls of a run. -/
abbrev Trace := List (Event Op Ret Env)

/-- A pool of tasks on a world. -/
abbrev Tasks (D : Type) := Pool Op Ret Env (Option Response) (World D)

/-- The pool at the start. -/
def start {D : Type} (srv : Server) (tasks : List Task) (w : World D) : Tasks D :=
  Pool.init (tasks.map (Task.program srv)) w

/-- The entry sealed by a call. -/
def sealing : Event Op Ret Env → Option (ℕ × Entry)
  | ⟨i, _, .sealEntry _, .ok e⟩ => some (i, e)
  | _ => none

/-- The entry a call tried to append, and whether it was stored. -/
def appending : Event Op Ret Env → Option (ℕ × Entry × Bool)
  | ⟨i, _, .appendEntry e, r⟩ => some (i, e, r.isOk)
  | _ => none

/-- The entries sealed in a run, with their callers. -/
def sealings (tr : Trace) : List (ℕ × Entry) := tr.filterMap sealing

/-- The attempts to append in a run, with their callers. -/
def appends (tr : Trace) : List (ℕ × Entry × Bool) := tr.filterMap appending

/-- The entries stored in a run, with their callers. -/
def stored (tr : Trace) : List (ℕ × Entry) :=
  ((appends tr).filter fun x => x.2.2).map fun x => (x.1, x.2.1)

theorem sealings_concat (tr : Trace) (ev : Event Op Ret Env) :
    sealings (tr ++ [ev]) = sealings tr ++ (sealing ev).toList := by
  rw [sealings, List.filterMap_append]
  cases h : sealing ev <;> simp [sealings, h]

theorem appends_concat (tr : Trace) (ev : Event Op Ret Env) :
    appends (tr ++ [ev]) = appends tr ++ (appending ev).toList := by
  rw [appends, List.filterMap_append]
  cases h : appending ev <;> simp [appends, h]

/-- The store grows exactly if an append succeeds. -/
theorem stored_append (tr : Trace) (i : ℕ) (env : Env) (e : Entry) (r : Except GoError Unit) :
    stored (tr ++ [⟨i, env, .appendEntry e, r⟩])
      = stored tr ++ (if r.isOk = true then [(i, e)] else []) := by
  have happends : appends (tr ++ [⟨i, env, .appendEntry e, r⟩]) = appends tr ++ [(i, e, r.isOk)] :=
    appends_concat _ _
  rw [stored, happends, List.filter_append, List.map_append, stored]
  congr 1
  cases r.isOk <;> simp

theorem stored_concat {tr : Trace} {ev : Event Op Ret Env} (h : appending ev = none) :
    stored (tr ++ [ev]) = stored tr := by
  rw [stored, appends_concat, h, Option.toList_none, List.append_nil, stored]

/-- Quiet operations leave no trace in the trail. -/
theorem sealing_quiet {i : ℕ} {e : Env} {o : Op} (ho : Quiet o) (r : Ret o) :
    sealing ⟨i, e, o, r⟩ = none ∧ appending ⟨i, e, o, r⟩ = none := by
  cases o with
  | sealEntry e => exact ho.elim
  | appendEntry e => exact ho.elim
  | _ => exact ⟨rfl, rfl⟩

variable {D : Type} {dev : Device D} {srv : Server}

/-- Quiet operations leave chain and store alone. -/
theorem exec_quiet {o : Op} (ho : Quiet o) {e : Env} {w w' : World D} {r : Ret o}
    (h : exec dev srv.crypto o e w = some (r, w')) : w'.chain = w.chain ∧ w'.store = w.store := by
  cases o with
  | sealEntry e => exact ho.elim
  | appendEntry e => exact ho.elim
  | lockReseed =>
    rw [exec] at h
    split at h
    · cases h
    · obtain ⟨-, rfl⟩ := Prod.mk.inj (Option.some.inj h)
      exact ⟨rfl, rfl⟩
  | _ =>
    obtain ⟨-, rfl⟩ := Prod.mk.inj (Option.some.inj h)
    exact ⟨rfl, rfl⟩

/-! ### The chain -/

/-- Sealing appends one entry to the chain of sealed entries. -/
theorem seal_spec {c c' : Chain} {e : Entry} {r : Except GoError Entry}
    (h : c.seal srv.crypto e = (r, c')) :
    (∃ e', r = .ok e' ∧ SealOf srv.crypto e e' ∧ e'.prevHash = c.prevHash ∧
      c'.prevHash = e'.entryHash) ∨ ((∃ err, r = .error err) ∧ c' = c) := by
  rcases Chain.seal_cases h with ⟨e', hok, heq, hsound, htip⟩ | herr
  · have hprev : e'.prevHash = c.prevHash := by rw [heq]
    refine Or.inl ⟨e', hok, ⟨?_, hsound⟩, hprev, htip⟩
    rw [hprev]
    exact heq
  · exact Or.inr herr

/-! ### The invariant -/

/-- **The invariant of the trail.** `g i` is the ledger of task `i`. -/
structure Trail (srv : Server) (tasks : List Task) (c : Tasks D) (g : ℕ → Ledger) : Prop where
  /-- the sealed entries are linked from the zero hash -/
  linked : Linked zeroHash ((sealings c.trace).map Prod.snd)
  /-- each sealed entry carries its own hash -/
  sound : ∀ x ∈ sealings c.trace, x.2.Sound srv.crypto
  /-- the tip in memory is the hash of the last sealed entry -/
  tip : c.state.chain.prevHash = tip zeroHash ((sealings c.trace).map Prod.snd)
  /-- the store holds the entries whose append succeeded -/
  store : c.state.store.entries = (stored c.trace).map Prod.snd
  /-- each caller has sealed what it tried to append, and what it holds -/
  sealed : ∀ i, Keyed.proj i (sealings c.trace)
    = (g i).attempts.map Prod.fst ++ (g i).held.toList
  /-- the attempts of each caller are those of its ledger -/
  attempts : ∀ i, Keyed.proj i (appends c.trace) = (g i).attempts
  /-- each sealed entry records a result of its request -/
  records : ∀ x ∈ sealings c.trace, ∃ t, tasks[x.1]? = some t ∧ t.Records srv x.2

/-- The ledger model of task `i`. -/
def taskModel (srv : Server) (tasks : List Task) (i : ℕ) : Prog.Model Op Ret Ledger :=
  ledger srv.crypto fun e => ∃ t, tasks[i]? = some t ∧ t.Records srv e

/-- The postcondition of task `i`. -/
def taskPost (tasks : List Task) (i : ℕ) (resp : Option Response) (q : Ledger) : Prop :=
  ∃ t, tasks[i]? = some t ∧ t.Answers resp q

theorem trail_start (srv : Server) (tasks : List Task) (drbg : D) (now : Time) :
    Trail srv tasks (start srv tasks (World.new drbg now)) (fun _ => Ledger.empty) where
  linked := trivial
  sound := fun x hx => by cases hx
  tip := rfl
  store := rfl
  sealed := fun i => rfl
  attempts := fun i => rfl
  records := fun x hx => by cases hx

/-- A record stays one when it is sealed. -/
theorem Task.Records.sealed {t : Task} {e e' : Entry} (h : t.Records srv e)
    (hs : SealOf srv.crypto e e') : t.Records srv e' := by
  cases t with
  | request req => exact Gateway.Records.sealed h hs
  | selfTest n => exact h.elim

variable {tasks : List Task} {c : Tasks D} {g : ℕ → Ledger}

/-- A call that leaves chain, store and trace of the trail alone. -/
theorem Trail.unchanged (h : Trail srv tasks c g) {ev : Event Op Ret Env} {w : World D}
    (hs : sealing ev = none) (ha : appending ev = none) (hchain : w.chain = c.state.chain)
    (hstore : w.store = c.state.store) (p : Program (Option Response)) :
    Trail srv tasks (c.moved p w ev) g := by
  have hsealings : sealings (c.trace ++ [ev]) = sealings c.trace := by
    rw [sealings_concat, hs, Option.toList_none, List.append_nil]
  have happends : appends (c.trace ++ [ev]) = appends c.trace := by
    rw [appends_concat, ha, Option.toList_none, List.append_nil]
  have hstored : stored (c.trace ++ [ev]) = stored c.trace := stored_concat ha
  refine ⟨?_, ?_, ?_, ?_, ?_, ?_, ?_⟩ <;> simp only [Pool.moved, hsealings, happends, hstored]
  · exact h.linked
  · exact h.sound
  · exact hchain ▸ h.tip
  · exact hstore ▸ h.store
  · exact h.sealed
  · exact h.attempts
  · exact h.records

/-- Sealing keeps the trail; the sealed entry is in the hands of its caller. -/
theorem Trail.seal (h : Trail srv tasks c g) {i : ℕ} {env : Env} {e : Entry}
    {r : Except GoError Entry} {w : World D}
    (hallowed : (taskModel srv tasks i).allowed (.sealEntry e) (g i))
    (hsem : exec dev srv.crypto (.sealEntry e) env c.state = some (r, w))
    (p : Program (Option Response)) :
    ∃ q, (taskModel srv tasks i).step (.sealEntry e) (g i) r q ∧
      Trail srv tasks (c.moved p w ⟨i, env, .sealEntry e, r⟩) (Function.update g i q) := by
  obtain ⟨hheld, t, ht, hrec⟩ := hallowed
  rw [exec] at hsem
  rcases hres : c.state.chain.seal srv.crypto e with ⟨r', chain⟩
  rw [hres] at hsem
  obtain ⟨rfl, rfl⟩ := Prod.mk.inj (Option.some.inj hsem)
  -- sealing succeeds with the tip as previous hash, or changes nothing
  rcases seal_spec hres with
    ⟨e', rfl, hseal, hprev, htip⟩ | ⟨⟨err, rfl⟩, hchain⟩
  · refine ⟨{ g i with held := some e' }, ⟨hseal, rfl⟩, ?_⟩
    have hsealings : sealings (c.trace ++ [⟨i, env, .sealEntry e, .ok e'⟩])
        = sealings c.trace ++ [(i, e')] := sealings_concat _ _
    have happends : appends (c.trace ++ [⟨i, env, .sealEntry e, .ok e'⟩]) = appends c.trace := by
      rw [appends_concat]
      exact List.append_nil _
    have hstored : stored (c.trace ++ [⟨i, env, .sealEntry e, .ok e'⟩]) = stored c.trace :=
      stored_concat rfl
    refine ⟨?_, ?_, ?_, ?_, fun j => ?_, fun j => ?_, ?_⟩ <;>
      simp only [Pool.moved, hsealings, happends, hstored]
    -- the new entry names the tip
    · rw [List.map_append]
      exact HashLog.linked_concat.mpr ⟨h.linked, hprev.trans h.tip⟩
    · intro x hx
      rcases List.mem_append.mp hx with hx | hx
      · exact h.sound x hx
      · rw [List.mem_singleton.mp hx]
        exact hseal.2
    · rw [htip, List.map_append, Audit.tip, HashLog.tip_append]
      rfl
    · exact h.store
    -- only the ledger of the caller changes
    · by_cases hji : i = j
      · subst hji
        rw [Keyed.proj_concat_self, Function.update_self, h.sealed, hheld]
        simp
      · rw [Keyed.proj_concat_ne hji, Function.update_of_ne (Ne.symm hji), h.sealed]
    · by_cases hji : i = j
      · subst hji
        rw [Function.update_self, h.attempts]
      · rw [Function.update_of_ne (Ne.symm hji), h.attempts]
    · intro x hx
      rcases List.mem_append.mp hx with hx | hx
      · exact h.records x hx
      · rw [List.mem_singleton.mp hx]
        exact ⟨t, ht, hrec.sealed hseal⟩
  · refine ⟨g i, rfl, ?_⟩
    rw [Function.update_eq_self]
    refine h.unchanged ?_ ?_ hchain ?_ p <;> rfl

/-- What an append does to the world. -/
theorem append_spec {e : Entry} {env : Env} {w w' : World D} {r : Except GoError Unit}
    (h : exec dev srv.crypto (.appendEntry e) env w = some (r, w')) :
    w'.chain = w.chain ∧
      w'.store.entries = w.store.entries ++ (if r.isOk = true then [e] else []) := by
  rw [exec] at h
  split at h
  · obtain ⟨rfl, rfl⟩ := Prod.mk.inj (Option.some.inj h)
    exact ⟨rfl, (List.append_nil _).symm⟩
  · unfold InMemoryStore.append at h
    split at h
    · next heq =>
      split at heq
      · obtain ⟨-, rfl⟩ := Prod.mk.inj heq
        obtain ⟨rfl, rfl⟩ := Prod.mk.inj (Option.some.inj h)
        exact ⟨rfl, (List.append_nil _).symm⟩
      · cases heq
    · next heq =>
      split at heq
      · cases heq
      · obtain ⟨-, rfl⟩ := Prod.mk.inj heq
        obtain ⟨rfl, rfl⟩ := Prod.mk.inj (Option.some.inj h)
        exact ⟨rfl, rfl⟩

/-- Appending keeps the trail; the caller's hands are empty again. -/
theorem Trail.append (h : Trail srv tasks c g) {i : ℕ} {env : Env} {e : Entry}
    {r : Except GoError Unit} {w : World D}
    (hallowed : (taskModel srv tasks i).allowed (.appendEntry e) (g i))
    (hsem : exec dev srv.crypto (.appendEntry e) env c.state = some (r, w))
    (p : Program (Option Response)) :
    ∃ q, (taskModel srv tasks i).step (.appendEntry e) (g i) r q ∧
      Trail srv tasks (c.moved p w ⟨i, env, .appendEntry e, r⟩) (Function.update g i q) := by
  have hheld : (g i).held = some e := hallowed
  obtain ⟨hchain, hstore⟩ := append_spec hsem
  refine ⟨_, rfl, ?_⟩
  have hsealings : sealings (c.trace ++ [⟨i, env, .appendEntry e, r⟩]) = sealings c.trace := by
    rw [sealings_concat]
    exact List.append_nil _
  have happends : appends (c.trace ++ [⟨i, env, .appendEntry e, r⟩])
      = appends c.trace ++ [(i, e, r.isOk)] := appends_concat _ _
  have hstored := stored_append c.trace i env e r
  refine ⟨?_, ?_, ?_, ?_, fun j => ?_, fun j => ?_, ?_⟩ <;>
    simp only [Pool.moved, hsealings, happends, hstored]
  · exact h.linked
  · exact h.sound
  · rw [hchain]
    exact h.tip
  · rw [hstore, h.store, List.map_append]
    congr 1
    split <;> rfl
  -- what the caller held is now among its attempts
  · by_cases hji : i = j
    · subst hji
      rw [Function.update_self, h.sealed, hheld]
      simp
    · rw [Function.update_of_ne (Ne.symm hji), h.sealed]
  · by_cases hji : i = j
    · subst hji
      rw [Keyed.proj_concat_self, Function.update_self, h.attempts]
    · rw [Keyed.proj_concat_ne hji, Function.update_of_ne (Ne.symm hji), h.attempts]
  · exact h.records

/-- One call keeps the trail. -/
theorem Trail.step (h : Trail srv tasks c g) {i : ℕ} {env : Env} {o : Op} {r : Ret o} {w : World D}
    (hallowed : (taskModel srv tasks i).allowed o (g i))
    (hsem : exec dev srv.crypto o env c.state = some (r, w)) (p : Program (Option Response)) :
    ∃ q, (taskModel srv tasks i).step o (g i) r q ∧
      Trail srv tasks (c.moved p w ⟨i, env, o, r⟩) (Function.update g i q) := by
  -- two operations touch the trail, all others are quiet
  by_cases ho : Quiet o
  · obtain ⟨hchain, hstore⟩ := exec_quiet ho hsem
    obtain ⟨hs, ha⟩ := sealing_quiet (i := i) (e := env) ho r
    refine ⟨g i, ?_, ?_⟩
    · cases o with
      | sealEntry e => exact ho.elim
      | appendEntry e => exact ho.elim
      | _ => rfl
    · rw [Function.update_eq_self]
      exact h.unchanged hs ha hchain hstore p
  · cases o with
    | sealEntry e => exact h.seal hallowed hsem p
    | appendEntry e => exact h.append hallowed hsem p
    | _ => exact absurd trivial ho

/-- Every task is correct from the empty ledger. -/
theorem wp_tasks (srv : Server) (tasks : List Task) (i : ℕ) {p : Program (Option Response)}
    (hp : (tasks.map (Task.program srv))[i]? = some p) :
    WP (taskModel srv tasks i) p (taskPost tasks i) Ledger.empty := by
  rw [List.getElem?_map, Option.map_eq_some_iff] at hp
  obtain ⟨t, ht, rfl⟩ := hp
  -- task `i` is the only task with its index
  have hgood : (fun e => ∃ t', tasks[i]? = some t' ∧ t'.Records srv e) = t.Records srv := by
    funext e
    simp [ht]
  rw [taskModel, hgood]
  exact (wp_task t).mono fun resp q h => ⟨t, ht, h⟩

/-- **The trail of every run.** In every pool reached from a new server, under any
policy, the trail invariant holds for some ledgers, and every task is still correct
from its ledger. -/
theorem trail_of_run {policy : Pool.Policy Op Ret Env (Option Response) (World D)} {drbg : D}
    {now : Time} {sched : List (ℕ × Env)}
    (hrun : Pool.run (exec dev srv.crypto) policy sched
      (start srv tasks (World.new drbg now)) = some c) :
    ∃ g, Trail srv tasks c g ∧
      ∀ i p, c.threads[i]? = some p → WP (taskModel srv tasks i) p (taskPost tasks i) (g i) :=
  Pool.run_sound (J := Trail srv tasks)
    (fun _ _ _ _ _ _ _ _ _ hJ _ _ hallowed hsem => hJ.step hallowed hsem _)
    (trail_start srv tasks drbg now) (fun i _ hp => wp_tasks srv tasks i hp) hrun

/-! ### Sealings and appends compared -/

/-- The entries a run tried to append, with their callers. -/
def attempted (tr : Trace) : List (ℕ × Entry) := (appends tr).map fun x => (x.1, x.2.1)

/-- No append of the run failed. -/
def NoAppendFailed (tr : Trace) : Prop := ∀ x ∈ appends tr, x.2.2 = true

/-- No caller is between its sealing and its append. -/
def Settled (tr : Trace) : Prop :=
  ∀ i, (Keyed.proj i (sealings tr)).length = (Keyed.proj i (appends tr)).length

/-- A run is settled when sealings and appends have the same callers. -/
theorem settled_of_callers {tr : Trace}
    (h : (sealings tr).map Prod.fst = (appends tr).map Prod.fst) : Settled tr := by
  intro i
  rw [Keyed.length_proj, Keyed.length_proj, h]

theorem stored_sublist (tr : Trace) : List.Sublist (stored tr) (attempted tr) :=
  List.filter_sublist.map _

theorem stored_eq_attempted {tr : Trace} (h : NoAppendFailed tr) : stored tr = attempted tr := by
  rw [stored, attempted, List.filter_eq_self.mpr h]

theorem Trail.proj_attempted (h : Trail srv tasks c g) (i : ℕ) :
    Keyed.proj i (attempted c.trace) = (g i).attempts.map Prod.fst := by
  rw [attempted, Keyed.proj_map Prod.fst, h.attempts]

/-- Each caller appends what it has sealed, in its order. -/
theorem Trail.proj_initial (h : Trail srv tasks c g) (i : ℕ) :
    Keyed.proj i (attempted c.trace) <+: Keyed.proj i (sealings c.trace) := by
  rw [h.proj_attempted, h.sealed]
  exact List.prefix_append _ _

theorem Trail.attempted_subset (h : Trail srv tasks c g) :
    attempted c.trace ⊆ sealings c.trace := by
  rintro ⟨i, e⟩ hx
  exact Keyed.mem_proj.mp ((h.proj_initial i).subset (Keyed.mem_proj.mpr hx))

theorem Trail.stored_subset (h : Trail srv tasks c g) : stored c.trace ⊆ sealings c.trace :=
  fun _ hx => h.attempted_subset ((stored_sublist _).subset hx)

/-- In a settled run each caller has appended all it has sealed. -/
theorem Trail.proj_settled (h : Trail srv tasks c g) (hs : Settled c.trace) (i : ℕ) :
    Keyed.proj i (attempted c.trace) = Keyed.proj i (sealings c.trace) := by
  refine (h.proj_initial i).eq_of_length ?_
  rw [hs i, h.proj_attempted, h.attempts, List.length_map]

/-- Returned requests hold nothing. -/
theorem Trail.settled_of_returned (h : Trail srv tasks c g)
    (hwp : ∀ i p, c.threads[i]? = some p → WP (taskModel srv tasks i) p (taskPost tasks i) (g i))
    (hlen : c.threads.length = tasks.length) (hret : c.threads.all isRet = true) :
    Settled c.trace := by
  intro i
  rw [h.sealed, h.attempts]
  have hheld : (g i).held = none := by
    by_cases hi : i < c.threads.length
    · have hp : c.threads[i]? = some c.threads[i] := List.getElem?_eq_getElem hi
      have hpost := hwp i _ hp
      have hisRet := List.all_eq_true.mp hret _ (List.getElem_mem hi)
      cases hthread : c.threads[i] with
      | call o again k => rw [hthread] at hisRet; cases hisRet
      | ret resp =>
        rw [hthread] at hpost
        obtain ⟨t, -, hans⟩ := hpost
        cases t with
        | selfTest n =>
          cases resp with
          | none => exact congrArg Ledger.held hans
          | some resp => exact hans.elim
        | request req =>
          cases resp with
          | none => exact hans.elim
          | some resp => exact hans.1.1
    · -- there is no task `i`, so nothing was sealed by it
      cases hh : (g i).held with
      | none => rfl
      | some e =>
        have hmem : (i, e) ∈ sealings c.trace := by
          rw [← Keyed.mem_proj, h.sealed, hh]
          simp
        obtain ⟨t, ht, -⟩ := h.records _ hmem
        exact absurd (List.getElem?_eq_some_iff.mp ht).1 (by omega)
  rw [hheld]
  simp

/-- The chain of the sealed entries as a list that `VerifyEntries` accepts. -/
theorem Trail.accepted (h : Trail srv tasks c g) :
    ∀ e ∈ (sealings c.trace).map Prod.snd, e.Sound srv.crypto := by
  intro e he
  obtain ⟨x, hx, rfl⟩ := List.mem_map.mp he
  exact h.sound x hx

/-! ### Sequential runs -/

/-- The callers of the items picked from a trace by turns never decrease. -/
theorem sorted_of_turns {α : Type} {f : Event Op Ret Env → Option (ℕ × α)}
    (hf : ∀ ev x, f ev = some x → x.1 = ev.caller) (h : Pool.Turns c) :
    Keyed.Sorted (c.trace.filterMap f) := by
  have hsorted := h.2
  rw [List.pairwise_map] at hsorted
  rw [Keyed.Sorted, List.pairwise_filterMap]
  refine hsorted.imp ?_
  rintro a b hab x hx y hy
  rw [hf a x hx, hf b y hy]
  exact hab

theorem sorted_sealings (h : Pool.Turns c) : Keyed.Sorted (sealings c.trace) := by
  refine sorted_of_turns ?_ h
  rintro ⟨i, env, o, r⟩ x hx
  unfold sealing at hx
  split at hx
  · next heq =>
    obtain ⟨rfl, -, -, -⟩ := Event.mk.inj heq
    obtain rfl := Option.some.inj hx
    rfl
  · cases hx

theorem sorted_attempted (h : Pool.Turns c) : Keyed.Sorted (attempted c.trace) := by
  have happends : Keyed.Sorted (appends c.trace) := by
    refine sorted_of_turns ?_ h
    rintro ⟨i, env, o, r⟩ x hx
    unfold appending at hx
    split at hx
    · next heq =>
      obtain ⟨rfl, -, -, -⟩ := Event.mk.inj heq
      obtain rfl := Option.some.inj hx
      rfl
    · cases hx
  exact List.pairwise_map.mpr happends

/-- In a settled sequential run the attempts to append are the sealings, in order. -/
theorem Trail.attempted_eq (h : Trail srv tasks c g) (hturns : Pool.Turns c)
    (hs : Settled c.trace) : attempted c.trace = sealings c.trace :=
  Keyed.eq_of_sorted (sorted_attempted hturns) (sorted_sealings hturns) (h.proj_settled hs)

/-! ### A small server

The server that concrete runs are evaluated on: two tenants `a` and `b` with one API
key each, and the digest of the service. -/

/-- Tenant `a` has the key `k`, tenant `b` the key `l`. -/
def smallServer : Server where
  cfg := ⟨[], [([107], [97]), ([108], [98])], 1000000, 3600000000000, []⟩
  keys := StaticKeyStore.signingKey ⟨[([42], List.replicate 32 7)], by decide⟩
  crypto := Crypto.std
  codec := ⟨fun _ => .error (.text "malformed"), fun _ => .error (.text "malformed")⟩
  checker := none
  selfTester := false

/-- A request of the tenant for the only value of a range. -/
def smallRequest (key tenantID roundID : GoString) : HttpRequest :=
  ⟨⟨[], key⟩, .generate (.ok ⟨tenantID, [103], roundID, 1, 5, 5⟩)⟩

/-- The world of a new server. -/
def smallWorld : World Csprng.DRBG :=
  World.new ⟨⟨List.replicate 32 1, rfl⟩, Csprng.zeroBlock, 0⟩ 0

/-- A small request makes eight calls: it seals with the seventh and appends with the
eighth. -/
def turns (i n : ℕ) : List (ℕ × Env) := List.replicate n (i, {})

/-- Runs of requests on the small server. -/
def smallRun (policy : Pool.Policy Op Ret Env (Option Response) (World Csprng.DRBG))
    (reqs : List HttpRequest) (sched : List (ℕ × Env)) : Option (Tasks Csprng.DRBG) :=
  Pool.run (exec (Device.drbg fun _ block => block) smallServer.crypto) policy sched
    (start smallServer (reqs.map Task.request) smallWorld)

end Gateway
