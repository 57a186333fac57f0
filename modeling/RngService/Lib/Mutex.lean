import Mathlib
import RngService.Lib.Interleave

/-!
# A lock among the operations

A `Mutex` of an operation semantics is a pair of kinds of calls, taking and releasing,
with the part of the state that they own. Only taking the held lock blocks.

What a program does under the lock is a `Session`: a state that starts anew whenever the
lock is taken and follows the calls, says which calls may come next and whether the lock may
be released, and counts the calls that are left. A program uses the lock well
(`Mutex.usage`) if it takes it only from outside, makes its guarded calls only inside, and
keeps to the session. For a pool of such programs, under any policy and any schedule:

* sessions do not mix (`Holds.exclusive`): the calls of a session are the calls that its
  program would have made alone;
* somebody can move as long as somebody has not returned (`Holds.progress`);
* the holder, left to itself, releases the lock within the calls of a session
  (`Holds.released`).

The ghost state of a program is `none` outside a session and the state of the session inside.
-/

namespace Prog

variable {Op : Type} {Ret : Op → Type} {E S α L : Type}

/-- A lock of an operation semantics. -/
structure Mutex (sem : Sem Op Ret E S) where
  /-- the calls that take the lock -/
  locks : Op → Bool
  /-- the calls that release it -/
  unlocks : Op → Bool
  /-- the calls that are made under the lock only -/
  guarded : Op → Bool
  held : S → Bool
  blocks : ∀ o e s, locks o = true → (sem o e s = none ↔ held s = true)
  total : ∀ o e s, locks o = false → sem o e s ≠ none
  locked : ∀ o e s r s', locks o = true → sem o e s = some (r, s') → held s' = true
  unlocked : ∀ o e s r s', locks o = false → unlocks o = true → sem o e s = some (r, s') →
    held s' = false
  frame : ∀ o e s r s', locks o = false → unlocks o = false → sem o e s = some (r, s') →
    held s' = held s

/-- What a program does between taking a lock and releasing it. -/
structure Session (Op : Type) (Ret : Op → Type) (L : Type) where
  start : L
  /-- the effect of a call -/
  next : (o : Op) → Ret o → L → L
  /-- the calls that may be made -/
  allowed : Op → L → Prop
  /-- the lock may be released -/
  complete : L → Prop
  /-- how many calls are left -/
  left : L → ℕ
  next_left : ∀ o r l, allowed o l → left (next o r l) < left l

namespace Mutex

variable {sem : Sem Op Ret E S} (mu : Mutex sem) (ses : Session Op Ret L)

/-- The effect of a call on the session of its program. -/
def usageStep (o : Op) (r : Ret o) (q : Option L) : Option L :=
  if mu.locks o then some ses.start else if mu.unlocks o then none else q.map (ses.next o r)

/-- **Good use of the lock.** -/
def usage : Model Op Ret (Option L) where
  allowed o q := (mu.locks o = true → q = none) ∧
    (mu.locks o = false → mu.unlocks o = true → ∃ l, q = some l ∧ ses.complete l) ∧
    (mu.guarded o = true → q ≠ none) ∧
    (mu.locks o = false → mu.unlocks o = false → ∀ l, q = some l → ses.allowed o l)
  step o q r q' := q' = mu.usageStep ses o r q

/-- The program uses the lock well and leaves it. -/
def Uses (p : Prog Op Ret α) : Prop := WP (mu.usage ses) p (fun _ q => q = none) none

/-- The effect of a call on who is in a session, and where. -/
def ownerStep (h : Option (ℕ × L)) (ev : Event Op Ret E) : Option (ℕ × L) :=
  if mu.locks ev.op then some (ev.caller, ses.start)
  else if mu.unlocks ev.op then none
  else h.map fun x => if x.1 = ev.caller then (x.1, ses.next ev.op ev.answer x.2) else x

/-- Who is in a session after a trace, and where. -/
def owner (tr : List (Event Op Ret E)) : Option (ℕ × L) := tr.foldl (mu.ownerStep ses) none

@[simp] theorem owner_nil : mu.owner ses [] = none := rfl

@[simp] theorem owner_concat (tr : List (Event Op Ret E)) (ev : Event Op Ret E) :
    mu.owner ses (tr ++ [ev]) = mu.ownerStep ses (mu.owner ses tr) ev := by
  rw [owner, List.foldl_concat, owner]

/-- **Sessions do not mix**: the lock is taken when nobody is in a session, released at the
end of the caller's own, and every guarded call belongs there. -/
def Exclusive (before : List (Event Op Ret E)) (ev : Event Op Ret E) : Prop :=
  (mu.locks ev.op = true → mu.owner ses before = none) ∧
    (mu.locks ev.op = false → mu.unlocks ev.op = true →
      ∃ l, mu.owner ses before = some (ev.caller, l) ∧ ses.complete l) ∧
    (mu.locks ev.op = false → mu.unlocks ev.op = false → mu.guarded ev.op = true →
      ∃ l, mu.owner ses before = some (ev.caller, l) ∧ ses.allowed ev.op l)

/-! ### The invariant of a pool -/

/-- The lock, the trace and the sessions of the programs agree. -/
structure Holds (c : Pool Op Ret E α S) (g : ℕ → Option L) : Prop where
  owner : ∀ i l, mu.owner ses c.trace = some (i, l) ↔ g i = some l
  held : mu.held c.state = (mu.owner ses c.trace).isSome
  bound : ∀ i l, g i = some l → ses.left l ≤ ses.left ses.start ∧ i < c.threads.length
  exclusive : Stepwise (mu.Exclusive ses) c.trace
  /-- every program goes on using the lock well -/
  uses : ∀ i p, c.threads[i]? = some p → WP (mu.usage ses) p (fun _ q => q = none) (g i)

variable {mu ses} {c : Pool Op Ret E α S} {g : ℕ → Option L}

theorem holds_init {ps : List (Prog Op Ret α)} {s : S} (hps : ∀ p ∈ ps, mu.Uses ses p)
    (hs : mu.held s = false) :
    mu.Holds ses (Pool.init ps s : Pool Op Ret E α S) fun _ => none where
  owner _ _ := by simp [Pool.init]
  held := hs
  bound _ _ h := by cases h
  exclusive := stepwise_nil _
  uses _ p hp := hps p (List.mem_of_getElem? hp)

/-- Nobody else is in a session. -/
theorem Holds.alone (h : mu.Holds ses c g) {i j : ℕ} {l : L} (hi : g i = some l) (hji : j ≠ i) :
    g j = none := by
  by_contra hj
  obtain ⟨l', hl'⟩ := Option.ne_none_iff_exists'.mp hj
  have heq := ((h.owner i l).mpr hi).symm.trans ((h.owner j l').mpr hl')
  exact hji (Prod.mk.inj (Option.some.inj heq)).1.symm

/-- Nobody is in a session. -/
theorem Holds.nobody (h : mu.Holds ses c g) (hnone : mu.owner ses c.trace = none) (j : ℕ) :
    g j = none := by
  by_contra hj
  obtain ⟨l, hl⟩ := Option.ne_none_iff_exists'.mp hj
  rw [← h.owner j l, hnone] at hl
  cases hl

/-- The next call of a program respects the sessions. -/
theorem Holds.next_exclusive (h : mu.Holds ses c g) {i : ℕ} {e : E} {o : Op} {r : Ret o} {s : S}
    (ha : (mu.usage ses).allowed o (g i)) (hsem : sem o e c.state = some (r, s)) :
    mu.Exclusive ses c.trace ⟨i, e, o, r⟩ := by
  obtain ⟨-, hunlock, hguard, hcall⟩ := ha
  refine ⟨fun ho => ?_, fun ho hu => ?_, fun ho hu hg => ?_⟩
  · -- the lock was free, since it did not block
    have hfree : mu.held c.state = false := by
      rw [← Bool.not_eq_true, ← mu.blocks o e c.state ho, hsem]
      simp
    rwa [h.held, Option.isSome_eq_false_iff, Option.isNone_iff_eq_none] at hfree
  · obtain ⟨l, hl, hcomplete⟩ := hunlock ho hu
    exact ⟨l, (h.owner i l).mpr hl, hcomplete⟩
  · obtain ⟨l, hl⟩ := Option.ne_none_iff_exists'.mp (hguard hg)
    exact ⟨l, (h.owner i l).mpr hl, hcall ho hu l hl⟩

/-- Who is in a session after a call is the program whose ghost state says so. -/
theorem Holds.next_owner (h : mu.Holds ses c g) {ev : Event Op Ret E}
    (hexcl : mu.Exclusive ses c.trace ev) (j : ℕ) (l : L) :
    mu.ownerStep ses (mu.owner ses c.trace) ev = some (j, l) ↔
      Function.update g ev.caller (mu.usageStep ses ev.op ev.answer (g ev.caller)) j = some l := by
  rw [ownerStep, usageStep]
  cases ho : mu.locks ev.op with
  | true =>
    -- nobody was in a session, and the caller is now
    have hj := h.nobody (hexcl.1 ho) j
    by_cases hji : j = ev.caller
    · simp [hji]
    · simp [Function.update_of_ne hji, Ne.symm hji, hj]
  | false =>
    cases hu : mu.unlocks ev.op with
    | true =>
      -- the caller was in a session, and nobody is now
      obtain ⟨l', hl', -⟩ := hexcl.2.1 ho hu
      by_cases hji : j = ev.caller
      · simp [hji]
      · simp [Function.update_of_ne hji, h.alone ((h.owner _ _).mp hl') hji]
    | false =>
      simp only [Bool.false_eq_true, if_false]
      cases hown : mu.owner ses c.trace with
      | none =>
        by_cases hji : j = ev.caller
        · simp [hji, h.nobody hown ev.caller]
        · simp [Function.update_of_ne hji, h.nobody hown j]
      | some x =>
        obtain ⟨i, l'⟩ := x
        have hi := (h.owner i l').mp hown
        by_cases hic : i = ev.caller
        · -- the caller's session goes on
          subst hic
          by_cases hji : j = ev.caller
          · simp [hji, hi]
          · simp [Function.update_of_ne hji, h.alone hi hji, Ne.symm hji]
        · -- somebody else's session stands still
          have hcaller := h.alone hi (Ne.symm hic)
          by_cases hji : j = ev.caller
          · simp [hji, hic, hcaller]
          · rw [Function.update_of_ne hji, ← h.owner j l, hown]
            simp [hic]

/-- **Every call keeps the invariant.** -/
theorem Holds.step (h : mu.Holds ses c g) {i : ℕ} {e : E} {o : Op} {again : Ret o → Bool}
    {k : Ret o → Prog Op Ret α} {r : Ret o} {s : S}
    (hthread : c.threads[i]? = some (call o again k)) (hsem : sem o e c.state = some (r, s)) :
    mu.Holds ses (c.moved (if again r then call o again k else k r) s ⟨i, e, o, r⟩)
      (Function.update g i (mu.usageStep ses o r (g i))) := by
  have hcall := h.uses i _ hthread
  have hlen : i < c.threads.length := (List.getElem?_eq_some_iff.mp hthread).1
  have hexcl := h.next_exclusive hcall.allowed hsem
  refine ⟨fun j l => ?_, ?_, fun j l hj => ?_, stepwise_concat.mpr ⟨h.exclusive, hexcl⟩,
    fun j p hj => ?_⟩
  · rw [Pool.moved, owner_concat]
    exact h.next_owner hexcl j l
  · rw [Pool.moved, owner_concat, ownerStep]
    cases ho : mu.locks o with
    | true => exact mu.locked o e c.state r s ho hsem
    | false =>
      cases hu : mu.unlocks o with
      | true => exact mu.unlocked o e c.state r s ho hu hsem
      | false =>
        rw [mu.frame o e c.state r s ho hu hsem, h.held]
        exact Option.isSome_map.symm
  · rw [Pool.moved, List.length_set]
    by_cases hji : j = i
    · subst hji
      refine ⟨?_, hlen⟩
      rw [Function.update_self, usageStep] at hj
      split at hj
      · exact (congrArg ses.left (Option.some.inj hj)).ge
      · next ho =>
        split at hj
        · cases hj
        · next hu =>
          obtain ⟨l', hl', rfl⟩ := Option.map_eq_some_iff.mp hj
          have hallowed := hcall.allowed.2.2.2 (by simpa using ho) (by simpa using hu) l' hl'
          exact (ses.next_left o r l' hallowed).le.trans (h.bound j l' hl').1
    · rw [Function.update_of_ne hji] at hj
      exact h.bound j l hj
  · rcases Pool.threads_moved hj with ⟨rfl, rfl⟩ | ⟨hji, hj⟩
    · rw [Function.update_self]
      exact hcall.next rfl
    · rw [Function.update_of_ne hji]
      exact h.uses j p hj

/-- **Every run keeps the invariant.** -/
theorem holds_of_run {policy : Pool.Policy Op Ret E α S} {ps : List (Prog Op Ret α)} {s : S}
    {sched : List (ℕ × E)} (hps : ∀ p ∈ ps, mu.Uses ses p) (hs : mu.held s = false)
    (hrun : Pool.run sem policy sched (Pool.init ps s) = some c) : ∃ g, mu.Holds ses c g := by
  refine Pool.run_induction (J := fun c => ∃ g, mu.Holds ses c g) ?_ ⟨_, holds_init hps hs⟩ hrun
  rintro c₁ c₂ x ⟨g, h⟩ hs
  obtain ⟨o, again, k, r, s, hthread, -, hsem, rfl⟩ := Pool.step_cases hs
  exact ⟨_, h.step hthread hsem⟩

/-! ### Progress -/

/-- A thread that does not want a held lock can move. -/
theorem step_of_free {i : ℕ} {o : Op} {again : Ret o → Bool} {k : Ret o → Prog Op Ret α}
    (hthread : c.threads[i]? = some (call o again k))
    (ho : mu.locks o = true → mu.held c.state = false) (e : E) :
    ∃ r s, sem o e c.state = some (r, s) ∧ Pool.step sem Pool.anyOrder c (i, e)
      = some (c.moved (if again r then call o again k else k r) s ⟨i, e, o, r⟩) := by
  have hsem : sem o e c.state ≠ none := by
    cases hl : mu.locks o with
    | true => rw [Ne, mu.blocks o e c.state hl, ho hl]; simp
    | false => exact mu.total o e c.state hl
  obtain ⟨⟨r, s⟩, hrs⟩ := Option.ne_none_iff_exists'.mp hsem
  refine ⟨r, s, hrs, ?_⟩
  simp [Pool.step, hthread, Pool.anyOrder, hrs]

/-- The holder has not returned, and does not want the lock. -/
theorem Holds.holder_calls (h : mu.Holds ses c g) {i : ℕ} {l : L} (hi : g i = some l) :
    ∃ o again k, c.threads[i]? = some (call o again k) ∧ mu.locks o = false := by
  have hlen := (h.bound i l hi).2
  have hthread := List.getElem?_eq_getElem hlen
  have hp := h.uses i _ hthread
  generalize c.threads[i] = p at hthread hp
  cases p with
  | ret a => rw [WP.ret_iff, hi] at hp; cases hp
  | call o again k =>
    refine ⟨o, again, k, hthread, ?_⟩
    by_contra hl
    rw [hp.allowed.1 (by simpa using hl)] at hi
    cases hi

/-- **No deadlock**: as long as a program has not returned, some program can move, whatever
the surroundings answer. -/
theorem Holds.progress (h : mu.Holds ses c g) (hret : c.threads.all isRet = false) :
    ∃ i, ∀ e, ∃ c', Pool.step sem Pool.anyOrder c (i, e) = some c' := by
  cases hh : mu.owner ses c.trace with
  | some x =>
    -- the holder can move
    obtain ⟨o, again, k, hthread, hl⟩ := h.holder_calls ((h.owner x.1 x.2).mp hh)
    refine ⟨x.1, fun e => ?_⟩
    obtain ⟨r, s, -, hstep⟩ := mu.step_of_free hthread (by simp [hl]) e
    exact ⟨_, hstep⟩
  | none =>
    -- nobody is blocked
    obtain ⟨p, hp, hcalls⟩ := List.all_eq_false.mp hret
    obtain ⟨j, hj⟩ := List.mem_iff_getElem?.mp hp
    cases p with
    | ret a => exact absurd rfl hcalls
    | call o again k =>
      refine ⟨j, fun e => ?_⟩
      obtain ⟨r, s, -, hstep⟩ := mu.step_of_free hj (fun _ => by rw [h.held, hh]; rfl) e
      exact ⟨_, hstep⟩

/-- The lock is free when everybody has returned. -/
theorem Holds.free_of_returned (h : mu.Holds ses c g) (hret : c.threads.all isRet = true) :
    mu.held c.state = false := by
  rw [h.held]
  cases hh : mu.owner ses c.trace with
  | none => rfl
  | some x =>
    obtain ⟨o, again, k, hthread, -⟩ := h.holder_calls ((h.owner x.1 x.2).mp hh)
    cases List.all_eq_true.mp hret _ (List.mem_of_getElem? hthread)

/-- One call of a thread, as a run. -/
theorem run_one {i : ℕ} {e : E} {es : List E} {c' : Pool Op Ret E α S}
    (hstep : Pool.step sem Pool.anyOrder c (i, e) = some c') :
    Pool.run sem Pool.anyOrder (((e :: es).take 1).map (i, ·)) c = some c' := by
  rw [List.take_succ_cons, List.take_zero, List.map_cons, List.map_nil, Pool.run, hstep]
  rfl

/-- **The holder releases the lock**, within the calls it has left and one more. -/
theorem Holds.released (h : mu.Holds ses c g) {i : ℕ} {l : L} (hi : g i = some l) {n : ℕ}
    (hn : ses.left l < n) {es : List E} (hes : n ≤ es.length) :
    ∃ m c', m ≤ n ∧ Pool.run sem Pool.anyOrder ((es.take m).map (i, ·)) c = some c' ∧
      mu.held c'.state = false := by
  induction n generalizing c g es l with
  | zero => exact absurd hn (Nat.not_lt_zero _)
  | succ n ih =>
    obtain ⟨o, again, next, hthread, ho⟩ := h.holder_calls hi
    obtain ⟨e, es, rfl⟩ := List.exists_cons_of_length_pos (Nat.zero_lt_of_lt hes)
    obtain ⟨r, s, hsem, hstep⟩ := mu.step_of_free hthread (by simp [ho]) e
    cases hu : mu.unlocks o with
    | true => exact ⟨1, _, by omega, run_one hstep, mu.unlocked o e c.state r s ho hu hsem⟩
    | false =>
      -- one of the calls that are left
      have hallowed := (h.uses i _ hthread).allowed.2.2.2 ho hu l hi
      have hless := ses.next_left o r l hallowed
      have hi' : Function.update g i (mu.usageStep ses o r (g i)) i = some (ses.next o r l) := by
        rw [Function.update_self, usageStep, ho, hu, hi]
        rfl
      obtain ⟨m, c', hm, hrun, hfree⟩ := ih (h.step hthread hsem) hi' (by omega)
        (Nat.le_of_succ_le_succ hes)
      refine ⟨m + 1, c', by omega, ?_, hfree⟩
      rw [List.take_succ_cons, List.map_cons, Pool.run, hstep]
      exact hrun

end Mutex

end Prog
