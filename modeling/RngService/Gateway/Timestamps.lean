import Mathlib
import RngService.Gateway.Trail
import RngService.Gateway.Walk

/-!
# Timestamps and the order of the entries

A request reads the clock, then seals its entry, then stores it: three operations, between
which other requests run. The clock does not go back (`forward`), but nothing makes the
requests seal and store in the order in which they have read it.

`Stamped` is the invariant of every run: an entry carries the reading of the last `now` of
the request that seals or stores it. So the timestamps along the chain, and those of the
entries of a round, are in order when the requests seal and store in turn (`InTurn`), and
under a clock whose readings all differ only then: `ordered_iff_inTurn`.
-/

namespace Gateway

open Audit Prog

/-! ### What one request does -/

/-- **The model of the surroundings** of a request; the ghost state is its last reading of
the clock. It may seal and append entries with this timestamp only. -/
def stamping : Prog.Model Op Ret (Option Time) where
  allowed
    | .sealEntry e, q => q = some e.createdAt
    | .appendEntry e, q => q = some e.createdAt
    | _, _ => True
  step
    | .now, _, t, q' => q' = some t
    | .sealEntry e, q, r, q' => q' = q ∧ ∀ e', r = .ok e' → e'.createdAt = e.createdAt
    | _, q, _, q' => q' = q

variable {srv : Server}

/-- A quiet operation may be called at any time. -/
theorem allowed_quiet {o : Op} (ho : Quiet o) (q : Option Time) : stamping.allowed o q := by
  cases o with
  | sealEntry e => exact ho.elim
  | appendEntry e => exact ho.elim
  | _ => trivial

theorem keeps_quiet {α : Type} {p : Program α} (hp : Calls Quiet p) :
    Keeps stamping (fun _ => True) p :=
  Keeps.of_calls (fun _ ho q _ => ⟨allowed_quiet ho q, fun _ _ _ => trivial⟩) hp

/-- **An entry is sealed and stored with the timestamp that was read.** -/
theorem making_stamping : Making srv stamping (fun _ => True) (fun _ => True) (fun _ => True)
    (fun _ => True) (fun t q => q = some t) fun e q => q = some e.createdAt where
  reseed tenantID q hq := (keeps_quiet (quiet_reseedIfNeeded tenantID) q hq).mono fun r _ _ => by
    cases r <;> trivial
  draws _ _ := ⟨trivial, fun _ _ _ => trivial⟩
  requestID _ _ := ⟨trivial, fun _ _ _ => trivial⟩
  now _ _ := ⟨trivial, fun _ _ h => h⟩
  sealEntry e q hq := by
    refine ⟨hq, fun r q' h => ⟨fun e' hr => ?_, fun _ => trivial⟩⟩
    rw [h.1, hq, h.2 e' hr]
  appendEntry e q hq := ⟨hq, fun r q' _ => by cases r <;> trivial⟩
  failed _ _ := trivial
  undone _ _ _ := trivial

theorem walk_stamping : Walk srv stamping (fun _ => True) fun _ => True :=
  Walk.of_making (fun _ ho q _ => ⟨allowed_quiet ho.quiet q, fun _ _ _ => trivial⟩) (fun _ h => h)
    (fun _ _ _ => ⟨trivial, fun _ _ _ => trivial⟩) making_stamping

/-! ### Readings of the clock -/

/-- Task `i` reads the clock. -/
def readsClock (i : ℕ) : Event Op Ret Env → Bool
  | ⟨j, _, .now, _⟩ => j == i
  | _ => false

/-- One more than the place of the last clock reading of task `i` in a trace, and 0 if
there is none. -/
def lastReading (i : ℕ) (tr : Trace) : ℕ :=
  (tr.reverse.dropWhile fun ev => !readsClock i ev).length

theorem lastReading_concat (i : ℕ) (tr : Trace) (ev : Event Op Ret Env) :
    lastReading i (tr ++ [ev]) = if readsClock i ev then tr.length + 1 else lastReading i tr := by
  rw [lastReading, List.reverse_append, List.reverse_singleton, List.singleton_append,
    List.dropWhile_cons]
  cases h : readsClock i ev <;> simp [lastReading]

/-- The entry that a call seals. -/
def sealed : Event Op Ret Env → Option Entry
  | ⟨_, _, .sealEntry _, .ok e⟩ => some e
  | _ => none

/-- The entry that a call stores. -/
def storing : Event Op Ret Env → Option Entry
  | ⟨_, _, .appendEntry e, .ok _⟩ => some e
  | _ => none

theorem sealings_eq (tr : Trace) : (sealings tr).map Prod.snd = tr.filterMap sealed := by
  rw [sealings, List.map_filterMap]
  congr 1
  funext ev
  obtain ⟨i, env, o, r⟩ := ev
  cases o with
  | sealEntry e => cases r <;> rfl
  | _ => rfl

theorem stored_eq (tr : Trace) : (stored tr).map Prod.snd = tr.filterMap storing := by
  induction tr using List.reverseRecOn with
  | nil => rfl
  | append_singleton tr ev ih =>
    obtain ⟨i, env, o, r⟩ := ev
    rw [List.filterMap_append, ← ih]
    cases o with
    | appendEntry e =>
      rw [stored_append, List.map_append]
      cases r <;> rfl
    | _ => rw [stored_concat rfl]; simp [storing]

/-- The call uses a timestamp that its task was the last to read. -/
def Stamps (before : Trace) (ev : Event Op Ret Env) : Prop :=
  ∀ e, sealed ev = some e ∨ storing ev = some e → ∃ p, lastReading ev.caller before = p + 1 ∧
    before[p]?.map (fun ev => ev.input.now) = some e.createdAt

/-- The clock does not go back. -/
def forward {D : Type} : Pool.Policy Op Ret Env (Option Response) (World D) :=
  fun c _ e => decide (∀ ev ∈ c.trace, ev.input.now ≤ e.now)

/-- **The invariant of a run** under a clock that does not go back. -/
structure Stamped {D : Type} (c : Tasks D) (g : ℕ → Option Time) : Prop where
  /-- the last reading of a task is in the trace -/
  readings : ∀ i t, g i = some t → ∃ p, lastReading i c.trace = p + 1 ∧
    c.trace[p]?.map (fun ev => ev.input.now) = some t
  clock : (c.trace.map fun ev => ev.input.now).Pairwise (· ≤ ·)
  stamps : Stepwise Stamps c.trace

section Stamped

variable {D : Type} {dev : Device D} {c : Tasks D} {g : ℕ → Option Time}

/-- What a call has to do to keep the invariant. -/
theorem Stamped.moved (h : Stamped c g) {ev : Event Op Ret Env} {s : World D} {q : Option Time}
    (hp : ∀ ev' ∈ c.trace, ev'.input.now ≤ ev.input.now)
    (hq : q = if readsClock ev.caller ev then some ev.input.now else g ev.caller)
    (hstamps : Stamps c.trace ev) (p : Program (Option Response)) :
    Stamped (c.moved p s ev) (Function.update g ev.caller q) := by
  -- an earlier reading is still where it was
  have hkept : ∀ i t, readsClock i ev = false → g i = some t → ∃ p,
      lastReading i (c.trace ++ [ev]) = p + 1 ∧
      (c.trace ++ [ev])[p]?.map (fun ev => ev.input.now) = some t := by
    intro i t hread ht
    obtain ⟨k, hk, hget⟩ := h.readings i t ht
    obtain ⟨ev', hev', -⟩ := Option.map_eq_some_iff.mp hget
    have hlt : k < c.trace.length := (List.getElem?_eq_some_iff.mp hev').1
    refine ⟨k, ?_, ?_⟩
    · rw [lastReading_concat, hread]
      exact hk
    · rw [List.getElem?_append_left hlt]
      exact hget
  refine ⟨fun i t ht => ?_, ?_, stepwise_concat.mpr ⟨h.stamps, hstamps⟩⟩
  · by_cases hi : i = ev.caller
    · subst hi
      rw [Function.update_self, hq] at ht
      split at ht
      · next hread =>
        refine ⟨c.trace.length, ?_, ?_⟩
        · rw [Pool.moved, lastReading_concat, hread]
          rfl
        · rw [Pool.moved, List.getElem?_concat_length]
          exact ht
      · next hread => exact hkept _ t (by simpa using hread) ht
    · rw [Function.update_of_ne hi] at ht
      refine hkept i t ?_ ht
      -- the reading of another task
      obtain ⟨j, env, o, r⟩ := ev
      have hne : (j == i) = false := beq_false_of_ne (Ne.symm hi)
      cases o with
      | now => exact hne
      | _ => rfl
  · rw [Pool.moved, List.map_append, List.pairwise_append]
    refine ⟨h.clock, List.pairwise_singleton _ _, fun a ha b hb => ?_⟩
    obtain ⟨ev', hev', rfl⟩ := List.mem_map.mp ha
    obtain rfl := List.mem_singleton.mp hb
    exact hp ev' hev'

/-- **Every call of a run keeps the invariant.** -/
theorem Stamped.step (h : Stamped c g) {i : ℕ} {e : Env} {o : Op} {r : Ret o} {s : World D}
    (hp : forward c i e = true) (ha : stamping.allowed o (g i))
    (hsem : exec dev srv.crypto o e c.state = some (r, s)) (p : Program (Option Response)) :
    ∃ q, stamping.step o (g i) r q ∧
      Stamped (c.moved p s ⟨i, e, o, r⟩) (Function.update g i q) := by
  have hp' : ∀ ev ∈ c.trace, ev.input.now ≤ e.now := of_decide_eq_true hp
  by_cases ho : Quiet o
  · -- a quiet operation stamps nothing
    have hstamps : Stamps c.trace ⟨i, e, o, r⟩ := by
      rintro entry (hx | hx) <;> cases o <;> first | exact ho.elim | cases hx
    cases o with
    | now =>
      obtain ⟨rfl, -⟩ := Prod.mk.inj (Option.some.inj hsem)
      refine ⟨_, rfl, h.moved hp' ?_ hstamps p⟩
      exact (if_pos (beq_self_eq_true i)).symm
    | sealEntry e => exact ho.elim
    | appendEntry e => exact ho.elim
    | _ => exact ⟨_, rfl, h.moved hp' rfl hstamps p⟩
  cases o with
  | sealEntry entry =>
    have hseal : ∀ e', r = .ok e' → e'.createdAt = entry.createdAt := by
      rcases hres : c.state.chain.seal srv.crypto entry with ⟨r', chain⟩
      rw [exec, hres] at hsem
      obtain ⟨rfl, -⟩ := Prod.mk.inj (Option.some.inj hsem)
      rintro e' rfl
      rw [(Chain.seal_eq_ok (congrArg Prod.fst hres)).1]
    refine ⟨g i, ⟨rfl, hseal⟩, h.moved hp' rfl ?_ p⟩
    rintro e' (hx | hx)
    · cases r with
      | error err => cases hx
      | ok e'' =>
        obtain rfl := Option.some.inj hx
        exact h.readings i _ (by rw [hseal _ rfl]; exact ha)
    · cases r <;> cases hx
  | appendEntry entry =>
    refine ⟨g i, rfl, h.moved hp' rfl ?_ p⟩
    rintro e' (hx | hx)
    · cases r <;> cases hx
    · cases r with
      | error err => cases hx
      | ok u =>
        obtain rfl := Option.some.inj hx
        exact h.readings i _ ha
  | _ => exact absurd trivial ho

/-- The invariant holds at every point of a run. -/
theorem stamped_of_run {tasks : List Task} {drbg : D} {now : Time} {sched : List (ℕ × Env)}
    (hrun : Pool.run (exec dev srv.crypto) forward sched
      (start srv tasks (World.new drbg now)) = some c) : ∃ g, Stamped c g := by
  have hstart : Stamped (start srv tasks (World.new drbg now)) fun _ => none := by
    refine ⟨fun i t ht => ?_, List.Pairwise.nil, stepwise_nil _⟩
    cases ht
  have hwp : ∀ (i : ℕ) (p : Program (Option Response)),
      (start srv tasks (World.new drbg now)).threads[i]? = some p →
        WP stamping p (fun _ _ => True) none := by
    intro i p hp
    obtain ⟨t, -, rfl⟩ := List.mem_map.mp (List.mem_of_getElem? hp)
    exact walk_stamping.wp_task t trivial
  have hrunJ : ∃ g, Stamped c g ∧ ∀ (i : ℕ) (p : Program (Option Response)),
      c.threads[i]? = some p → WP stamping p (fun _ _ => True) (g i) := by
    refine Pool.run_sound (M := fun _ => stamping) ?_ hstart hwp hrun
    intro c g i e o again k r s hJ hp _ ha hsem
    exact hJ.step hp ha hsem _
  exact hrunJ.imp fun _ h => h.1

end Stamped

/-! ### Turns -/

/-- The times that the readings of the clock show. -/
def clockReadings (tr : Trace) : List Time :=
  tr.filterMap fun
    | ⟨_, env, .now, _⟩ => some env.now
    | _ => none

/-- The request that `ev` handles an entry for has not read the clock before a request
that has handled a related entry. -/
def InTurn (pick : Event Op Ret Env → Option Entry) (R : Entry → Entry → Prop)
    (before : Trace) (ev : Event Op Ret Env) : Prop :=
  ∀ k (hk : k < before.length), ∀ x ∈ pick before[k], ∀ y ∈ pick ev, R x y →
    lastReading before[k].caller (before.take k) ≤ lastReading ev.caller before

instance {pick : Event Op Ret Env → Option Entry} {R : Entry → Entry → Prop} [DecidableRel R] :
    DecidableRel (InTurn pick R) := fun before ev =>
  inferInstanceAs (Decidable (∀ k (hk : k < before.length), ∀ x ∈ pick before[k], ∀ y ∈ pick ev,
    R x y → lastReading before[k].caller (before.take k) ≤ lastReading ev.caller before))

/-- The entries belong to one round. -/
def SameRound (x y : Entry) : Prop := x.roundID = y.roundID

instance : DecidableRel SameRound := fun x y =>
  inferInstanceAs (Decidable (x.roundID = y.roundID))

/-- The requests seal their entries, and store those of a round, in the order in which
they have read the clock. -/
structure AllInTurn (tr : Trace) : Prop where
  seals : Stepwise (InTurn sealed fun _ _ => True) tr
  appends : Stepwise (InTurn storing SameRound) tr

/-- The first entry is not younger than the second. -/
def NotAfter (x y : Entry) : Prop := x.createdAt ≤ y.createdAt

instance : DecidableRel NotAfter := fun x y =>
  inferInstanceAs (Decidable (x.createdAt ≤ y.createdAt))

/-- **Ordered by created_at**: the entries of each round, as the store returns them, and
the entries along the chain. -/
structure Ordered {D : Type} (c : Tasks D) : Prop where
  rounds : ∀ roundID, (c.state.store.getByRound roundID).Pairwise NotAfter
  chain : ((sealings c.trace).map Prod.snd).Pairwise NotAfter

/-- The last reading of a task is one. -/
theorem readsClock_of_lastReading {i p : ℕ} {tr : Trace} (h : lastReading i tr = p + 1) :
    ∃ ev, tr[p]? = some ev ∧ readsClock i ev = true := by
  induction tr using List.reverseRecOn with
  | nil => cases h
  | append_singleton tr ev ih =>
    rw [lastReading_concat] at h
    split at h
    · next hread =>
      obtain rfl := Nat.succ.inj h
      exact ⟨ev, List.getElem?_concat_length, hread⟩
    · next hread =>
      obtain ⟨ev', hev', hread'⟩ := ih h
      have hlt : p < tr.length := (List.getElem?_eq_some_iff.mp hev').1
      exact ⟨ev', (List.getElem?_append_left hlt).trans hev', hread'⟩

section Turns

variable {D : Type} {c : Tasks D} {g : ℕ → Option Time} {j k : ℕ} {x : Entry}

/-- Where the timestamp of an entry was read. -/
theorem Stamped.reading (h : Stamped c g) (hk : k < c.trace.length)
    (hx : sealed c.trace[k] = some x ∨ storing c.trace[k] = some x) :
    ∃ (p : ℕ) (hp : p < c.trace.length),
      lastReading c.trace[k].caller (c.trace.take k) = p + 1 ∧
      readsClock c.trace[k].caller c.trace[p] = true ∧ c.trace[p].input.now = x.createdAt := by
  obtain ⟨p, hlast, hget⟩ := h.stamps k hk x hx
  obtain ⟨ev, hev, hread⟩ := readsClock_of_lastReading hlast
  rw [hev] at hget
  obtain ⟨hlt, hev⟩ := List.getElem?_eq_some_iff.mp hev
  rw [List.length_take] at hlt
  rw [List.getElem_take] at hev
  subst hev
  exact ⟨p, lt_of_lt_of_le hlt (min_le_right _ _), hlast, hread, Option.some.inj hget⟩

/-- The clock shows an earlier time at an earlier call. -/
theorem Stamped.clock_le (h : Stamped c g) (hj : j < c.trace.length) (hk : k < c.trace.length)
    (hjk : j ≤ k) : c.trace[j].input.now ≤ c.trace[k].input.now := by
  rcases hjk.lt_or_eq with hlt | rfl
  · have hclock := List.pairwise_map.mp h.clock
    exact List.pairwise_iff_getElem.mp hclock j k hj hk hlt
  · exact le_rfl

/-- Two readings of a clock whose readings all differ. -/
theorem clock_ne (hdistinct : (clockReadings c.trace).Nodup) {i i' : ℕ} (hj : j < c.trace.length)
    (hk : k < c.trace.length) (hjk : j < k) (hread : readsClock i c.trace[j] = true)
    (hread' : readsClock i' c.trace[k] = true) :
    c.trace[j].input.now ≠ c.trace[k].input.now := by
  have hshown : ∀ {i : ℕ} {ev : Event Op Ret Env}, readsClock i ev = true →
      (match ev with | ⟨_, env, .now, _⟩ => some env.now | _ => none) = some ev.input.now := by
    rintro i ⟨j, env, o, r⟩ hread
    cases o with
    | now => rfl
    | _ => cases hread
  exact List.pairwise_iff_getElem.mp (List.pairwise_filterMap.mp hdistinct) j k hj hk hjk
    _ (hshown hread) _ (hshown hread')

/-- **Entries handled in turn are in order**, and under a clock whose readings all differ
only those. -/
theorem Stamped.ordered_iff (h : Stamped c g) (pick : Event Op Ret Env → Option Entry)
    (R : Entry → Entry → Prop)
    (hpick : ∀ ev x, pick ev = some x → sealed ev = some x ∨ storing ev = some x) :
    (Stepwise (InTurn pick R) c.trace →
      (c.trace.filterMap pick).Pairwise fun x y => R x y → NotAfter x y) ∧
    ((clockReadings c.trace).Nodup →
      ((c.trace.filterMap pick).Pairwise fun x y => R x y → NotAfter x y) →
      Stepwise (InTurn pick R) c.trace) := by
  rw [List.pairwise_filterMap, List.pairwise_iff_getElem]
  refine ⟨?_, ?_⟩
  · intro hturn j k hj hk hjk x hx y hy hR
    obtain ⟨p, hp, hlast, -, hnow⟩ := h.reading hj (hpick _ x hx)
    obtain ⟨p', hp', hlast', -, hnow'⟩ := h.reading hk (hpick _ y hy)
    have hle := hturn k hk j (by rw [List.length_take]; exact lt_min hjk hj) x
      (by rw [List.getElem_take]; exact hx) y hy hR
    rw [List.getElem_take, List.take_take, min_eq_left hjk.le, hlast, hlast'] at hle
    rw [NotAfter, ← hnow, ← hnow']
    exact h.clock_le hp hp' (Nat.succ_le_succ_iff.mp hle)
  · intro hdistinct hord k hk j hj x hx y hy hR
    rw [List.length_take] at hj
    have hjk : j < k := lt_of_lt_of_le hj (min_le_left _ _)
    have hj : j < c.trace.length := hjk.trans hk
    rw [List.getElem_take] at hx ⊢
    obtain ⟨p, hp, hlast, hread, hnow⟩ := h.reading hj (hpick _ x hx)
    obtain ⟨p', hp', hlast', hread', hnow'⟩ := h.reading hk (hpick _ y hy)
    have hle := hord j k hj hk hjk x hx y hy hR
    rw [List.take_take, min_eq_left hjk.le, hlast, hlast']
    -- a later reading would show a later time
    by_contra hlt
    have hlt : p' < p := by omega
    have hclock := h.clock_le hp' hp hlt.le
    rw [NotAfter, ← hnow, ← hnow'] at hle
    exact clock_ne hdistinct hp' hp hlt hread' hread (le_antisymm hclock hle)

end Turns

/-- The rounds of a store are in order when the entries of any round are. -/
theorem rounds_ordered {s : InMemoryStore} :
    (∀ roundID, (s.getByRound roundID).Pairwise NotAfter) ↔
      s.entries.Pairwise fun x y => SameRound x y → NotAfter x y := by
  refine ⟨fun h => ?_, fun h roundID => ?_⟩
  · refine List.pairwise_iff_getElem.mpr fun j k hj hk hjk hsame => ?_
    have hround := List.pairwise_filter.mp (h s.entries[j].roundID)
    exact List.pairwise_iff_getElem.mp hround j k hj hk hjk (decide_eq_true rfl)
      (decide_eq_true (Eq.symm hsame))
  · refine List.pairwise_filter.mpr (h.imp fun hxy hx hy => hxy ?_)
    exact (of_decide_eq_true hx).trans (of_decide_eq_true hy).symm

/-- **Ordered when in turn**: at every point of a run under a clock that does not go back,
the entries are in order if the requests have sealed and stored them in the order of their
clock readings. If the readings all differ, they are in order only then. -/
theorem ordered_iff_inTurn {D : Type} {dev : Device D} {tasks : List Task} {drbg : D} {now : Time}
    {sched : List (ℕ × Env)} {c : Tasks D}
    (hrun : Pool.run (exec dev srv.crypto) forward sched
      (start srv tasks (World.new drbg now)) = some c) :
    (AllInTurn c.trace → Ordered c) ∧
    ((clockReadings c.trace).Nodup → (Ordered c ↔ AllInTurn c.trace)) := by
  obtain ⟨g, hstamped⟩ := stamped_of_run hrun
  obtain ⟨_, htrail, -⟩ := trail_of_run hrun
  have hseals := hstamped.ordered_iff sealed (fun _ _ => True) fun _ _ => Or.inl
  have happends := hstamped.ordered_iff storing SameRound fun _ _ => Or.inr
  have hchain : ((sealings c.trace).map Prod.snd).Pairwise NotAfter ↔
      (c.trace.filterMap sealed).Pairwise fun x y => True → NotAfter x y := by
    rw [sealings_eq]
    exact ⟨fun h => h.imp fun hxy _ => hxy, fun h => h.imp fun hxy => hxy trivial⟩
  have hrounds : (∀ roundID, (c.state.store.getByRound roundID).Pairwise NotAfter) ↔
      (c.trace.filterMap storing).Pairwise fun x y => SameRound x y → NotAfter x y := by
    rw [rounds_ordered, htrail.store, stored_eq]
  have hturns : AllInTurn c.trace → Ordered c := fun h =>
    ⟨hrounds.mpr (happends.1 h.appends), hchain.mpr (hseals.1 h.seals)⟩
  refine ⟨hturns, fun hdistinct => ⟨fun h => ⟨?_, ?_⟩, hturns⟩⟩
  · exact hseals.2 hdistinct (hchain.mp h.chain)
  · exact happends.2 hdistinct (hrounds.mp h.rounds)

/-- The next `n` calls are made by task `i`, when the clock shows `t`. -/
def turnsAt (t : Time) (i n : ℕ) : List (ℕ × Env) := List.replicate n (i, { now := t })

/-- Two requests for one round that both read the clock before either seals, and then seal and
store in turn. -/
theorem ordered_iff_inTurn_small : ∃ c, smallRun forward
      [smallRequest [107] [97] [114], smallRequest [107] [97] [114]]
      (turnsAt 0 0 6 ++ turnsAt 1 1 6 ++ turnsAt 2 0 2 ++ turnsAt 3 1 2) = some c ∧
    c.state.store.entries.length = 2 ∧ Ordered c := by
  have h : (smallRun forward [smallRequest [107] [97] [114], smallRequest [107] [97] [114]]
      (turnsAt 0 0 6 ++ turnsAt 1 1 6 ++ turnsAt 2 0 2 ++ turnsAt 3 1 2)).map
        (fun c => (c.state.store.entries.length,
          decide (Stepwise (InTurn sealed fun _ _ => True) c.trace ∧
            Stepwise (InTurn storing SameRound) c.trace))) = some (2, true) := by
    decide +kernel
  obtain ⟨c, hc, heq⟩ := Option.map_eq_some_iff.mp h
  obtain ⟨hlen, hturns⟩ := Prod.mk.inj heq
  obtain ⟨hseals, happends⟩ := of_decide_eq_true hturns
  exact ⟨c, hc, hlen, (ordered_iff_inTurn hc).1 ⟨hseals, happends⟩⟩

/-- **Overtaken.** The request that reads the clock first seals and stores last: the entries
of the round, and those along the chain, are out of order. -/
theorem stamps_out_of_order : ∃ c, smallRun forward
      [smallRequest [107] [97] [114], smallRequest [107] [97] [114]]
      (turnsAt 0 0 6 ++ turnsAt 1 1 8 ++ turnsAt 2 0 2) = some c ∧
    ¬ (c.state.store.getByRound [114]).Pairwise NotAfter ∧
    ¬ ((sealings c.trace).map Prod.snd).Pairwise NotAfter := by
  have h : (smallRun forward [smallRequest [107] [97] [114], smallRequest [107] [97] [114]]
      (turnsAt 0 0 6 ++ turnsAt 1 1 8 ++ turnsAt 2 0 2)).map (fun c =>
        decide (¬ (c.state.store.getByRound [114]).Pairwise NotAfter ∧
          ¬ ((sealings c.trace).map Prod.snd).Pairwise NotAfter)) = some true := by
    decide +kernel
  obtain ⟨c, hc, heq⟩ := Option.map_eq_some_iff.mp h
  exact ⟨c, hc, of_decide_eq_true heq⟩

end Gateway
