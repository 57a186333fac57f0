import Mathlib

/-!
# Rejection sampling, stage after stage

A `Stage` reads words until it accepts one, whose outcome it keeps. `decode` runs a list of
stages, one after the other, on a list of words that it has to use up. `ways` counts the
lists of `k` words that decode to given outcomes.

If each outcome of a stage belongs to equally many words (`Fair`), the count does not depend
on the outcomes (`ways_eq_total`): for every length of the input, all lists of outcomes are
equally likely. For stages that are all alike the count has a closed form
(`total_replicate`).
-/

namespace Rejection

variable {W V : Type}

/-- What a word is taken for: an outcome, or nothing if the word is rejected. -/
abbrev Stage (W V : Type) : Type := W → Option V

/-- The outcomes of the stages, if the words are just enough for them. -/
def decode : List (Stage W V) → List W → Option (List V)
  | [], [] => some []
  | [], _ :: _ => none
  | _ :: _, [] => none
  | s :: ss, w :: ws =>
    match s w with
    | none => decode (s :: ss) ws
    | some v => (decode ss ws).map (v :: ·)

variable {s : Stage W V} {ss : List (Stage W V)} {w : W} {ws : List W} {v : V} {vs : List V}

theorem decode_nil : decode ([] : List (Stage W V)) ws = some vs ↔ ws = [] ∧ vs = [] := by
  cases ws with
  | nil => simp [decode, eq_comm]
  | cons w ws => simp [decode]

theorem decode_cons_none (h : s w = none) : decode (s :: ss) (w :: ws) = decode (s :: ss) ws := by
  rw [decode, h]

theorem decode_cons_some (h : s w = some v) :
    decode (s :: ss) (w :: ws) = (decode ss ws).map (v :: ·) := by
  rw [decode, h]

/-- Rejected words are skipped. -/
theorem decode_append (h : ∀ w ∈ ws, s w = none) (us : List W) :
    decode (s :: ss) (ws ++ us) = decode (s :: ss) us := by
  induction ws with
  | nil => rfl
  | cons w ws ih =>
    rw [List.cons_append, decode_cons_none (h w List.mem_cons_self),
      ih fun w hw => h w (List.mem_cons_of_mem _ hw)]

/-- **The first stage and the others** decode a first part of the words and the rest. -/
theorem decode_cons : decode (s :: ss) ws = some vs ↔ ∃ ws₁ ws₂ v vs', ws = ws₁ ++ ws₂ ∧
    vs = v :: vs' ∧ decode [s] ws₁ = some [v] ∧ decode ss ws₂ = some vs' := by
  induction ws with
  | nil =>
    refine ⟨fun h => (nomatch h), ?_⟩
    rintro ⟨ws₁, ws₂, v, vs', heq, -, h, -⟩
    obtain ⟨rfl, -⟩ := List.append_eq_nil_iff.mp heq.symm
    cases h
  | cons w ws ih =>
    cases hs : s w with
    | none =>
      -- a rejected word belongs to the first stage
      rw [decode_cons_none hs, ih]
      constructor
      · rintro ⟨ws₁, ws₂, v, vs', rfl, rfl, h₁, h₂⟩
        exact ⟨w :: ws₁, ws₂, v, vs', rfl, rfl, (decode_cons_none hs).trans h₁, h₂⟩
      · rintro ⟨ws₁, ws₂, v, vs', heq, rfl, h₁, h₂⟩
        cases ws₁ with
        | nil => cases h₁
        | cons w' ws₁ =>
          obtain ⟨rfl, rfl⟩ := List.cons.inj heq
          exact ⟨ws₁, ws₂, v, vs', rfl, rfl, (decode_cons_none hs).symm.trans h₁, h₂⟩
    | some v =>
      -- an accepted one is the whole of its part
      rw [decode_cons_some hs, Option.map_eq_some_iff]
      constructor
      · rintro ⟨vs', h, rfl⟩
        exact ⟨[w], ws, v, vs', rfl, rfl, by rw [decode_cons_some hs]; rfl, h⟩
      · rintro ⟨ws₁, ws₂, v', vs', heq, rfl, h₁, h₂⟩
        cases ws₁ with
        | nil => cases h₁
        | cons w' ws₁ =>
          obtain ⟨rfl, rfl⟩ := List.cons.inj heq
          rw [decode_cons_some hs, Option.map_eq_some_iff] at h₁
          obtain ⟨us, hus, heq'⟩ := h₁
          obtain ⟨rfl, rfl⟩ := List.cons.inj heq'
          obtain ⟨rfl, -⟩ := decode_nil.mp hus
          exact ⟨vs', h₂, rfl⟩

/-- The outcomes of stages that are all alike are those of the words that are not rejected. -/
theorem filterMap_of_decode {n : ℕ} (h : decode (List.replicate n s) ws = some vs) :
    vs = ws.filterMap s := by
  induction ws generalizing n vs with
  | nil =>
    cases n with
    | zero => exact (decode_nil.mp h).2
    | succ n => cases h
  | cons w ws ih =>
    cases n with
    | zero => cases h
    | succ n =>
      cases hs : s w with
      | none =>
        rw [List.filterMap_cons_none hs]
        exact ih (n := n + 1) (decode_cons_none hs ▸ h)
      | some v =>
        rw [List.replicate_succ, decode_cons_some hs] at h
        obtain ⟨vs', hvs, rfl⟩ := Option.map_eq_some_iff.mp h
        rw [List.filterMap_cons_some hs, ih hvs]

/-! ### Counting -/

/-- The lists of `k` words that decode to the outcomes. -/
abbrev Inputs (ss : List (Stage W V)) (k : ℕ) (vs : List V) : Type :=
  {ws : List W // ws.length = k ∧ decode ss ws = some vs}

/-- How many there are. -/
noncomputable def ways (ss : List (Stage W V)) (k : ℕ) (vs : List V) : ℕ :=
  Nat.card (Inputs ss k vs)

/-- An input from its first word and an input: of the same stages if the word is rejected, of
the rest of them if it is accepted. -/
def extend (s : Stage W V) (ss : List (Stage W V)) (k : ℕ) (v : V) (vs : List V) :
    ({w // s w = none} × Inputs (s :: ss) k (v :: vs)) ⊕ ({w // s w = some v} × Inputs ss k vs) →
      Inputs (s :: ss) (k + 1) (v :: vs)
  | .inl (⟨w, hs⟩, ⟨ws, h⟩) => ⟨w :: ws, congrArg (· + 1) h.1, (decode_cons_none hs).trans h.2⟩
  | .inr (⟨w, hs⟩, ⟨ws, h⟩) =>
    ⟨w :: ws, congrArg (· + 1) h.1, by rw [decode_cons_some hs, h.2]; rfl⟩

/-- The first word decides which case it is. -/
theorem extend_bijective (s : Stage W V) (ss : List (Stage W V)) (k : ℕ) (v : V) (vs : List V) :
    Function.Bijective (extend s ss k v vs) := by
  constructor
  · rintro (⟨⟨w, hw⟩, ⟨ws, h⟩⟩ | ⟨⟨w, hw⟩, ⟨ws, h⟩⟩)
      (⟨⟨w', hw'⟩, ⟨ws', h'⟩⟩ | ⟨⟨w', hw'⟩, ⟨ws', h'⟩⟩) heq <;>
    obtain ⟨rfl, rfl⟩ := List.cons.inj (Subtype.ext_iff.mp heq)
    · rfl
    · rw [hw] at hw'
      cases hw'
    · rw [hw] at hw'
      cases hw'
    · rfl
  · rintro ⟨_ | ⟨w, ws⟩, hlen, h⟩
    · cases hlen
    · cases hs : s w with
      | none =>
        exact ⟨.inl (⟨w, hs⟩, ⟨ws, Nat.succ.inj hlen, (decode_cons_none hs).symm.trans h⟩), rfl⟩
      | some u =>
        obtain ⟨us, hus, heq⟩ := Option.map_eq_some_iff.mp ((decode_cons_some hs).symm.trans h)
        obtain ⟨rfl, rfl⟩ := List.cons.inj heq
        exact ⟨.inr (⟨w, hs⟩, ⟨ws, Nat.succ.inj hlen, hus⟩), rfl⟩

instance [Finite W] (ss : List (Stage W V)) (k : ℕ) (vs : List V) : Finite (Inputs ss k vs) :=
  ((List.finite_length_eq W k).subset fun _ h => h.1).to_subtype

theorem ways_nil_zero : ways ([] : List (Stage W V)) 0 [] = 1 := by
  rw [ways, Nat.card_eq_one_iff_unique]
  refine ⟨⟨fun a b => Subtype.ext ?_⟩, ⟨[], rfl, rfl⟩⟩
  rw [List.length_eq_zero_iff.mp a.2.1, List.length_eq_zero_iff.mp b.2.1]

theorem ways_nil_succ (k : ℕ) (vs : List V) : ways ([] : List (Stage W V)) (k + 1) vs = 0 := by
  rw [ways, Nat.card_eq_zero]
  refine Or.inl ⟨fun a => ?_⟩
  have hlen := a.2.1
  rw [(decode_nil.mp a.2.2).1] at hlen
  cases hlen

theorem ways_cons_zero (s : Stage W V) (ss : List (Stage W V)) (vs : List V) :
    ways (s :: ss) 0 vs = 0 := by
  rw [ways, Nat.card_eq_zero]
  refine Or.inl ⟨fun a => ?_⟩
  have hdecode := a.2.2
  rw [List.length_eq_zero_iff.mp a.2.1] at hdecode
  cases hdecode

theorem ways_cons_succ [Finite W] (s : Stage W V) (ss : List (Stage W V)) (k : ℕ) (v : V)
    (vs : List V) : ways (s :: ss) (k + 1) (v :: vs)
      = Nat.card {w // s w = none} * ways (s :: ss) k (v :: vs)
        + Nat.card {w // s w = some v} * ways ss k vs := by
  rw [ways, ← Nat.card_congr (Equiv.ofBijective _ (extend_bijective s ss k v vs)), Nat.card_sum,
    Nat.card_prod, Nat.card_prod]
  rfl

/-- A stage rejects `rejected` words, and takes `share` words for each of its outcomes. -/
structure Fair (s : Stage W V) (outcomes : Set V) (rejected share : ℕ) : Prop where
  rejected : Nat.card {w // s w = none} = rejected
  share : ∀ v ∈ outcomes, Nat.card {w // s w = some v} = share

/-- How many lists of `k` words pass stages that reject and take as many words as listed. -/
def total : List (ℕ × ℕ) → ℕ → ℕ
  | [], 0 => 1
  | [], _ + 1 => 0
  | _ :: _, 0 => 0
  | c :: cs, k + 1 => c.1 * total (c :: cs) k + c.2 * total cs k

/-- The stages are fair, and the outcomes are theirs. -/
inductive AllFair : List (Stage W V) → List V → List (ℕ × ℕ) → Prop
  | nil : AllFair [] [] []
  | cons {s : Stage W V} {ss : List (Stage W V)} {v : V} {vs : List V} {outcomes : Set V}
      {c : ℕ × ℕ} {cs : List (ℕ × ℕ)} :
    Fair s outcomes c.1 c.2 → v ∈ outcomes → AllFair ss vs cs →
      AllFair (s :: ss) (v :: vs) (c :: cs)

/-- **All outcomes of fair stages are equally likely**, for every number of words. -/
theorem ways_eq_total [Finite W] {cs : List (ℕ × ℕ)} (h : AllFair ss vs cs) (k : ℕ) :
    ways ss k vs = total cs k := by
  induction k generalizing ss vs cs with
  | zero =>
    cases h with
    | nil => exact ways_nil_zero
    | cons hs hv hrest => exact ways_cons_zero _ _ _
  | succ k ih =>
    cases h with
    | nil => exact ways_nil_succ k []
    | cons hs hv hrest =>
      rw [ways_cons_succ, ih (.cons hs hv hrest), ih hrest, hs.rejected, hs.share _ hv, total]

/-- **Stages that are alike**: the last word is accepted, and of the others any `n` are. -/
theorem total_replicate (t c n k : ℕ) :
    total (List.replicate (n + 1) (t, c)) (k + 1) = k.choose n * t ^ (k - n) * c ^ (n + 1) := by
  induction k generalizing n with
  | zero =>
    cases n with
    | zero => simp [total]
    | succ n => simp [List.replicate_succ, total]
  | succ k ih =>
    rw [List.replicate_succ, total, ← List.replicate_succ, ih]
    cases n with
    | zero =>
      simp only [List.replicate_zero, total, Nat.choose_zero_right, Nat.sub_zero]
      ring
    | succ n =>
      rw [ih, Nat.choose_succ_succ, Nat.add_sub_add_right]
      rcases Nat.lt_or_ge k (n + 1) with hk | hk
      · -- too few words for all of them to be accepted
        rw [Nat.choose_eq_zero_of_lt hk]
        ring
      · have hsub : k - n = k - (n + 1) + 1 := by omega
        rw [hsub]
        ring

/-! ### Values that must not repeat

A stage may reject the words whose value has been taken before. If each value belongs to
equally many words, each value that is left does so in every stage. -/

section Fresh

variable [DecidableEq V] {f : W → V} {values : Set V} {taken : List V} {c : ℕ}

/-- The value of a word, unless it is taken. -/
def fresh (f : W → V) (taken : List V) : Stage W V :=
  fun w => if f w ∈ taken then none else some (f w)

theorem fresh_eq_some : fresh f taken w = some v ↔ v ∉ taken ∧ f w = v := by
  rw [fresh]
  split
  · next hmem =>
    refine iff_of_false (fun h => nomatch h) ?_
    rintro ⟨hv, rfl⟩
    exact hv hmem
  · next hmem =>
    rw [Option.some.injEq]
    constructor
    · rintro rfl
      exact ⟨hmem, rfl⟩
    · exact fun h => h.2

theorem fresh_eq_none : fresh f taken w = none ↔ f w ∈ taken := by
  rw [fresh]
  split <;> simp_all

/-- The words of different values. -/
theorem card_mem [Finite W] (hnd : taken.Nodup) (h : ∀ v ∈ taken, Nat.card {w // f w = v} = c) :
    Nat.card {w // f w ∈ taken} = taken.length * c := by
  classical
  have : Fintype W := Fintype.ofFinite W
  have hfiber : ∀ v ∈ taken.toFinset,
      ((Finset.univ.filter fun w => f w ∈ taken).filter fun w => f w = v).card = c := by
    intro v hv
    rw [← h v (List.mem_toFinset.mp hv), Nat.card_eq_fintype_card, Fintype.card_subtype,
      Finset.filter_filter]
    congr 1
    ext w
    simp only [Finset.mem_filter, Finset.mem_univ, true_and, and_iff_right_iff_imp]
    rintro rfl
    exact List.mem_toFinset.mp hv
  rw [Nat.card_eq_fintype_card, Fintype.card_subtype,
    Finset.card_eq_sum_card_fiberwise (t := taken.toFinset) (f := f) fun w hw =>
      List.mem_toFinset.mpr (Finset.mem_filter.mp hw).2,
    Finset.sum_congr rfl hfiber, Finset.sum_const, smul_eq_mul, List.toFinset_card_of_nodup hnd]

/-- **A stage without repetition is fair** to the values that are left. -/
theorem fair_fresh [Finite W] (hnd : taken.Nodup) (htaken : ∀ v ∈ taken, v ∈ values)
    (h : ∀ v ∈ values, Nat.card {w // f w = v} = c) :
    Fair (fresh f taken) {v | v ∈ values ∧ v ∉ taken} (taken.length * c) c where
  rejected := by
    simp only [fresh_eq_none]
    exact card_mem hnd fun v hv => h v (htaken v hv)
  share v hv := by
    simp only [fresh_eq_some, hv.2, not_false_eq_true, true_and]
    exact h v hv.1

/-- The stages of a list of values, each of which is taken afterwards. -/
def freshStages (f : W → V) : List V → List V → List (Stage W V)
  | _, [] => []
  | taken, v :: vs => fresh f taken :: freshStages f (taken ++ [v]) vs

/-- The shares of `n` values after `t` others, each of which has `c` words. -/
def freshShares (c : ℕ) : ℕ → ℕ → List (ℕ × ℕ)
  | _, 0 => []
  | t, n + 1 => (t * c, c) :: freshShares c (t + 1) n

/-- **The stages are fair** to lists without repetitions. -/
theorem allFair_fresh [Finite W] (hnd : (taken ++ vs).Nodup) (hvalues : ∀ v ∈ taken ++ vs,
      v ∈ values) (h : ∀ v ∈ values, Nat.card {w // f w = v} = c) :
    AllFair (freshStages f taken vs) vs (freshShares c taken.length vs.length) := by
  induction vs generalizing taken with
  | nil => exact .nil
  | cons v vs ih =>
    have hsplit : taken ++ v :: vs = taken ++ [v] ++ vs := by
      rw [List.append_assoc, List.singleton_append]
    have htaken := (List.nodup_append.mp hnd).1
    have hnew : v ∉ taken := fun hmem =>
      (List.nodup_append.mp hnd).2.2 v hmem v List.mem_cons_self rfl
    have hrest : AllFair (freshStages f (taken ++ [v]) vs) vs
        (freshShares c (taken ++ [v]).length vs.length) := ih (hsplit ▸ hnd) (hsplit ▸ hvalues)
    rw [List.length_append, List.length_singleton] at hrest
    exact .cons (fair_fresh htaken (fun u hu => hvalues u (List.mem_append_left _ hu)) h)
      ⟨hvalues v (List.mem_append_right _ List.mem_cons_self), hnew⟩ hrest

end Fresh

end Rejection
