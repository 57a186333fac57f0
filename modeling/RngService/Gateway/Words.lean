import Mathlib
import RngService.Gateway.Overdue
import RngService.Gateway.Values
import RngService.Scaling.Uniform

/-!
# The words behind an entry

The values of an entry are a function of words that the generator has given to the request
that records it, and to nobody else (`values_dealt`): every word it has drawn since its last
entry is used, in order, once. This holds in every interleaving and for every generator.

Which values the words give is fair. For every number of words, all lists of values in the
range come from equally many word sequences (`values_uniform`).
-/

namespace Gateway

open Audit Prog Scaling Rejection

/-- The shuffled items, from the words drawn for them. -/
def shuffledOf (items : List Int64) (ws : List UInt64) : Option (List Int64) :=
  (decode (shuffleStages (items.length - 1)) ws).map fun js => swaps (js.map UInt64.toNat) items

/-! ### Fairness -/

/-- Equal stages are fair. -/
theorem allFair_replicate {max : UInt64} (h : 1 ≤ max) {us : List UInt64}
    (hus : ∀ u ∈ us, u < max) :
    AllFair (List.replicate us.length (stage max)) us
      (List.replicate us.length (2 ^ 64 % max.toNat, 2 ^ 64 / max.toNat)) := by
  induction us with
  | nil => exact .nil
  | cons u us ih =>
    rw [List.length_cons, List.replicate_succ, List.replicate_succ]
    exact .cons (fair_stage h) (hus u List.mem_cons_self)
      (ih fun u hu => hus u (List.mem_cons_of_mem _ hu))

/-- In a range with two values or more, that is not the full one, every value is an offset
below the span. -/
theorem exists_offset {min max : Int64} (h : min < max) (hspan : span min max ≠ 0) :
    2 ≤ span min max ∧ ∀ v, min ≤ v ∧ v ≤ max → ∃ u < span min max, v = min + u.toInt64 := by
  have hle := Int64.le_of_lt h
  have hlt := Int64.lt_iff_toInt_lt.mp h
  rcases toNat_span hle with h0 | hsize
  · exact absurd h0 hspan
  · refine ⟨?_, fun v hv => ?_⟩
    · rw [UInt64.le_iff_toNat_le]
      show 2 ≤ (span min max).toNat
      omega
    · have hpos : 1 ≤ span min max := one_le_of_ne_zero hspan
      have hexact : ExactRange min.toInt max.toInt (span min max) fun n =>
          (min + n.toInt64).toInt :=
        ExactRange.of_offset hpos hsize fun n hn => toInt_add_toInt64 hle hn
      obtain ⟨u, hu, heq⟩ := hexact.bijOn.surjOn
        (Set.mem_Icc.mpr ⟨Int64.le_iff_toInt_le.mp hv.1, Int64.le_iff_toInt_le.mp hv.2⟩)
      exact ⟨u, hu, (Int64.toInt_inj.mp heq).symm⟩

/-- Different offsets are different values. -/
theorem offset_inj {min : Int64} (u u' : UInt64) (h : min + u.toInt64 = min + u'.toInt64) :
    u = u' := by
  have hbits := congrArg Int64.toUInt64 ((Int64.add_right_inj min).mp h)
  simpa using hbits

/-- **All lists of values are equally likely**: of the sequences of `k + 1` words, those that
make the loop of `generate` return the given `n + 1` values are as many for each list of
values in the range. -/
theorem values_uniform {min max : Int64} (h : min < max) (hspan : span min max ≠ 0) {n : ℕ}
    {values : List Int64} (hlen : values.length = n + 1)
    (hvalues : ∀ v ∈ values, min ≤ v ∧ v ≤ max) (k : ℕ) :
    Nat.card {ws : List UInt64 // ws.length = k + 1 ∧
        Prog.run replay ws (drawValues min (span min max) (n + 1)).run () = some (.ok values, ())}
      = k.choose n * (2 ^ 64 % (span min max).toNat) ^ (k - n)
        * (2 ^ 64 / (span min max).toNat) ^ (n + 1) := by
  obtain ⟨h2, hoffset⟩ := exists_offset h hspan
  have hpos : 1 ≤ span min max := one_le_of_ne_zero hspan
  have hone : span min max ≠ 1 := by
    intro h1
    rw [h1] at h2
    exact absurd h2 (by decide)
  -- the values are the images of one list of offsets
  have hoffsets : ∃ us : List UInt64, (∀ u ∈ us, u < span min max) ∧
      values = us.map fun u => min + u.toInt64 := by
    clear hlen
    induction values with
    | nil => exact ⟨[], by simp, rfl⟩
    | cons v values ih =>
      obtain ⟨u, hu, rfl⟩ := hoffset v (hvalues v List.mem_cons_self)
      obtain ⟨us, hus, rfl⟩ := ih fun v hv => hvalues v (List.mem_cons_of_mem _ hv)
      exact ⟨u :: us, List.forall_mem_cons.mpr ⟨hu, hus⟩, rfl⟩
  obtain ⟨us, hus, rfl⟩ := hoffsets
  rw [List.length_map] at hlen
  have hiff : ∀ ws : List UInt64, Prog.run replay ws (drawValues min (span min max) (n + 1)).run ()
      = some (.ok (us.map fun u => min + u.toInt64), ()) ↔
        decode (List.replicate us.length (stage (span min max))) ws = some us := by
    intro ws
    simp only [run_drawValues_replay hpos, outcomes, if_neg hone, hlen]
    refine ⟨?_, fun hdecode => ⟨us, hdecode, rfl⟩⟩
    rintro ⟨us', hdecode, heq⟩
    rwa [(List.map_inj_right offset_inj).mp heq]
  simp only [hiff]
  have hways := ways_eq_total (allFair_replicate hpos hus) (k + 1)
  rw [hlen, total_replicate] at hways
  rw [hlen]
  exact hways

/-- Two throws of a die that come out three and five, with one word rejected. -/
theorem values_uniform_dice :
    Nat.card {ws : List UInt64 // ws.length = 2 + 1 ∧
        Prog.run replay ws (drawValues 1 (span 1 6) (1 + 1)).run () = some (.ok [3, 5], ())}
      = Nat.choose 2 1 * (2 ^ 64 % (span 1 6).toNat) ^ (2 - 1)
        * (2 ^ 64 / (span 1 6).toNat) ^ (1 + 1) := by
  have hvalues : ∀ v ∈ ([3, 5] : List Int64), 1 ≤ v ∧ v ≤ 6 := by
    intro v hv
    rcases List.mem_pair.mp hv with rfl | rfl <;> decide
  exact values_uniform (by decide) (by decide) rfl hvalues 2

/-! ### What a task does with its words -/

/-- **The model of the surroundings**: the ghost state is the words drawn since the last
entry. An entry may be sealed only if `Good` holds of it and these words. -/
def words (Good : Entry → List UInt64 → Prop) : Prog.Model Op Ret (List UInt64) where
  allowed
    | .sealEntry e, q => Good e q
    | _, _ => True
  step
    | .generate _, q, r, q' => q' = q ++ wordsOf r
    | .sealEntry _, _, _, q' => q' = []
    | _, q, _, q' => q' = q

variable {Good : Entry → List UInt64 → Prop} {srv : Server}

/-- What the words of an entry have to give, for the request that records it. -/
def Route.Deals : Route → Entry → List UInt64 → Prop
  | .generate (.ok r), e, ws => valuesOf r.min r.max r.count.toNat ws = some e.values
  | .generateBatch (.ok r), e, ws =>
    ∃ item ∈ r.requests, valuesOf item.min item.max item.count.toNat ws = some e.values
  | .shuffle (.ok r), e, ws => shuffledOf r.items ws = some e.values
  | _, _, _ => False

/-- A self test records nothing. -/
def Task.Deals : Task → Entry → List UInt64 → Prop
  | .request req, e, ws => req.route.Deals e ws
  | .selfTest _, _, _ => False

/-- The effect of a call on the words its caller has drawn since its last entry. -/
def drawnStep (i : ℕ) (ws : List UInt64) : Event Op Ret Env → List UInt64
  | ⟨j, _, .generate _, r⟩ => if j = i then ws ++ wordsOf r else ws
  | ⟨j, _, .sealEntry _, _⟩ => if j = i then [] else ws
  | _ => ws

/-- The words that task `i` has drawn since its last entry. -/
def drawn (i : ℕ) (tr : Trace) : List UInt64 := tr.foldl (drawnStep i) []

@[simp] theorem drawn_concat (i : ℕ) (tr : Trace) (ev : Event Op Ret Env) :
    drawn i (tr ++ [ev]) = drawnStep i (drawn i tr) ev := by
  rw [drawn, List.foldl_concat, drawn]

/-- An entry is sealed with the values of the words that its task has drawn for it. -/
def Dealt (tasks : List Task) (before : Trace) (ev : Event Op Ret Env) : Prop :=
  ∀ e, ev.op = .sealEntry e → ∃ t, tasks[ev.caller]? = some t ∧ t.Deals e (drawn ev.caller before)

/-- A call moves its caller's words as the model says, and nobody else's. -/
theorem words_step_drawn {Good : Entry → List UInt64 → Prop} (i : ℕ) (e : Env) (o : Op) (r : Ret o)
    (ws : List UInt64) : (words Good).step o ws r (drawnStep i ws ⟨i, e, o, r⟩) := by
  cases o with
  | generate n => exact if_pos rfl
  | sealEntry entry => exact if_pos rfl
  | _ => rfl

theorem drawnStep_ne {i j : ℕ} (h : i ≠ j) (e : Env) (o : Op) (r : Ret o) (ws : List UInt64) :
    drawnStep i ws ⟨j, e, o, r⟩ = ws := by
  cases o with
  | generate n => exact if_neg (Ne.symm h)
  | sealEntry entry => exact if_neg (Ne.symm h)
  | _ => rfl

variable {D : Type} {dev : Device D} {tasks : List Task} {w : World D} {sched : List (ℕ × Env)}
  {c : Tasks D}

/-- The model of task `i`. -/
def wordsModel (tasks : List Task) (i : ℕ) : Prog.Model Op Ret (List UInt64) :=
  words fun e ws => ∃ t, tasks[i]? = some t ∧ t.Deals e ws

/-- The ghost states are the words of the trace, and its entries are dealt from them. -/
def Deal (tasks : List Task) (c : Tasks D) (g : ℕ → List UInt64) : Prop :=
  (∀ i, g i = drawn i c.trace) ∧ Stepwise (Dealt tasks) c.trace

/-- **Every call keeps the invariant.** -/
theorem Deal.step {g : ℕ → List UInt64} (h : Deal tasks c g) {i : ℕ} {e : Env} {o : Op} (r : Ret o)
    (ha : (wordsModel tasks i).allowed o (g i)) (p : Program (Option Response)) (s : World D) :
    ∃ q, (wordsModel tasks i).step o (g i) r q ∧
      Deal tasks (c.moved p s ⟨i, e, o, r⟩) (Function.update g i q) := by
  refine ⟨drawnStep i (g i) ⟨i, e, o, r⟩, words_step_drawn i e o r (g i), fun j => ?_, ?_⟩
  · rw [Pool.moved, drawn_concat]
    by_cases hji : j = i
    · subst hji
      rw [Function.update_self, h.1 j]
    · rw [Function.update_of_ne hji, drawnStep_ne hji, h.1 j]
  · refine stepwise_concat.mpr ⟨h.2, ?_⟩
    rintro entry rfl
    rw [h.1 i] at ha
    exact ha

end Gateway
