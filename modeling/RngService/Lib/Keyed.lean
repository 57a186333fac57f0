import Mathlib

/-!
# Lists of tagged items

The history of a shared object is a list of items tagged with the index of the
thread that contributed them. `proj i` is the part of thread `i`. The order of the
tags is what the projections leave open, so two histories are compared through
their projections and their tags (`prefix_of_proj`, `eq_of_sorted`).

A selection `l.filter p` is a prefix of `l` when no item is selected after one that
is not, and a contiguous piece when no gap separates two selected items; in a
history ordered by tags these are conditions on the tags
(`filter_prefix_iff_keys`, `filter_infix_iff_keys`).
-/

namespace Keyed

open scoped List

variable {α β : Type}

/-- The items with tag `i`. -/
def proj (i : ℕ) (l : List (ℕ × α)) : List α := (l.filter fun x => x.1 = i).map Prod.snd

@[simp] theorem proj_nil (i : ℕ) : proj i ([] : List (ℕ × α)) = [] := rfl

theorem proj_cons_self (i : ℕ) (a : α) (l : List (ℕ × α)) :
    proj i ((i, a) :: l) = a :: proj i l := by simp [proj]

theorem proj_cons_ne {i j : ℕ} (h : j ≠ i) (a : α) (l : List (ℕ × α)) :
    proj i ((j, a) :: l) = proj i l := by simp [proj, h]

@[simp] theorem proj_append (i : ℕ) (l m : List (ℕ × α)) :
    proj i (l ++ m) = proj i l ++ proj i m := by simp [proj]

theorem proj_concat_self (i : ℕ) (a : α) (l : List (ℕ × α)) :
    proj i (l ++ [(i, a)]) = proj i l ++ [a] := by rw [proj_append, proj_cons_self, proj_nil]

theorem proj_concat_ne {i j : ℕ} (h : j ≠ i) (a : α) (l : List (ℕ × α)) :
    proj i (l ++ [(j, a)]) = proj i l := by
  rw [proj_append, proj_cons_ne h, proj_nil, List.append_nil]

theorem mem_proj {i : ℕ} {a : α} {l : List (ℕ × α)} : a ∈ proj i l ↔ (i, a) ∈ l := by
  simp [proj]

/-- The items with a tag are as many as the tag occurs. -/
theorem length_proj (i : ℕ) (l : List (ℕ × α)) :
    (proj i l).length = (l.map Prod.fst).count i := by
  induction l with
  | nil => rfl
  | cons x l ih =>
    obtain ⟨j, a⟩ := x
    rw [List.map_cons]
    by_cases h : j = i
    · subst h
      rw [proj_cons_self, List.length_cons, ih, List.count_cons_self]
    · rw [proj_cons_ne h, ih, List.count_cons_of_ne h]

/-- Projections commute with a change of the items. -/
theorem proj_map (f : α → β) (i : ℕ) (l : List (ℕ × α)) :
    proj i (l.map fun x => (x.1, f x.2)) = (proj i l).map f := by
  induction l with
  | nil => rfl
  | cons x l ih =>
    obtain ⟨j, a⟩ := x
    rw [List.map_cons]
    by_cases h : j = i
    · subst h
      rw [proj_cons_self, proj_cons_self, ih, List.map_cons]
    · rw [proj_cons_ne h, proj_cons_ne h, ih]

/-- A list without items of any tag is empty. -/
theorem eq_nil_of_proj {l : List (ℕ × α)} (h : ∀ i, proj i l = []) : l = [] := by
  cases l with
  | nil => rfl
  | cons x l =>
    have hx := h x.1
    rw [proj_cons_self] at hx
    cases hx

/-- **Comparison by tags.** A history whose tags and whose projections are prefixes
of those of another one is a prefix of it. -/
theorem prefix_of_proj {l m : List (ℕ × α)} (hkeys : l.map Prod.fst <+: m.map Prod.fst)
    (hproj : ∀ i, proj i l <+: proj i m) : l <+: m := by
  induction l generalizing m with
  | nil => exact List.nil_prefix
  | cons x l ih =>
    obtain ⟨i, a⟩ := x
    cases m with
    | nil => simp at hkeys
    | cons y m =>
      obtain ⟨j, b⟩ := y
      rw [List.map_cons, List.map_cons, List.cons_prefix_cons] at hkeys
      obtain ⟨hij, hkeys⟩ := hkeys
      obtain rfl : i = j := hij
      -- the first items have one tag, and are the first of its projections
      have hself := hproj i
      rw [proj_cons_self, proj_cons_self, List.cons_prefix_cons] at hself
      obtain ⟨rfl, hself⟩ := hself
      rw [List.cons_prefix_cons]
      refine ⟨rfl, ih hkeys ?_⟩
      intro k
      by_cases hk : i = k
      · exact hk ▸ hself
      · have hne := hproj k
        rwa [proj_cons_ne hk, proj_cons_ne hk] at hne

/-- A prefix with as many items of each tag is everything. -/
theorem eq_of_initial {l m : List (ℕ × α)} (h : l <+: m)
    (hlen : ∀ i, (proj i l).length = (proj i m).length) : l = m := by
  obtain ⟨t, rfl⟩ := h
  have ht : t = [] := by
    refine eq_nil_of_proj ?_
    intro i
    have hi := hlen i
    rw [proj_append, List.length_append] at hi
    exact List.length_eq_zero_iff.mp (by omega)
  rw [ht, List.append_nil]

/-- The tags never decrease. -/
def Sorted (l : List (ℕ × α)) : Prop := l.Pairwise fun x y => x.1 ≤ y.1

/-- In a history ordered by tags, an item of a smaller tag than the first is
impossible. -/
theorem Sorted.proj_eq_nil {i j : ℕ} {a : α} {l : List (ℕ × α)} (h : Sorted ((j, a) :: l))
    (hij : i < j) : proj i ((j, a) :: l) = [] := by
  rw [List.eq_nil_iff_forall_not_mem]
  intro b hb
  rcases List.mem_cons.mp (mem_proj.mp hb) with heq | hb
  · obtain rfl := (Prod.mk.inj heq).1
    exact lt_irrefl _ hij
  · have hle : j ≤ i := (List.pairwise_cons.mp h).1 _ hb
    omega

/-- Histories ordered by tags are equal when their projections are. -/
theorem eq_of_sorted {l m : List (ℕ × α)} (hl : Sorted l) (hm : Sorted m)
    (h : ∀ i, proj i l = proj i m) : l = m := by
  induction l generalizing m with
  | nil => exact (eq_nil_of_proj fun i => (h i).symm).symm
  | cons x l ih =>
    obtain ⟨i, a⟩ := x
    cases m with
    | nil => exact absurd (h i) (by rw [proj_cons_self]; exact List.cons_ne_nil _ _)
    | cons y m =>
      obtain ⟨j, b⟩ := y
      have hi := h i
      have hj := h j
      rw [proj_cons_self] at hi hj
      -- the first tags agree: the smaller one would not occur in the other history
      obtain rfl : i = j := by
        rcases lt_trichotomy i j with hlt | heq | hlt
        · rw [hm.proj_eq_nil hlt] at hi
          cases hi
        · exact heq
        · rw [hl.proj_eq_nil hlt] at hj
          cases hj
      rw [proj_cons_self] at hi
      obtain ⟨rfl, htail⟩ := List.cons.inj hi
      rw [ih (List.pairwise_cons.mp hl).2 (List.pairwise_cons.mp hm).2 fun k => ?_]
      by_cases hk : i = k
      · exact hk ▸ htail
      · have hne := h k
        rwa [proj_cons_ne hk, proj_cons_ne hk] at hne

/-- Members of a history ordered by tags, listed by increasing tags, are found in
this order. -/
theorem Sorted.sublist {xs l : List (ℕ × α)} (hl : Sorted l)
    (hxs : xs.Pairwise fun x y => x.1 < y.1) (hsub : xs ⊆ l) : xs <+ l := by
  induction l generalizing xs with
  | nil => rw [List.subset_nil.mp hsub]
  | cons b l ih =>
    cases xs with
    | nil => exact List.nil_sublist _
    | cons x xs =>
      obtain ⟨hbl, hl'⟩ := List.pairwise_cons.mp hl
      obtain ⟨hx, hxs'⟩ := List.pairwise_cons.mp hxs
      have hbx : b.1 ≤ x.1 := by
        rcases List.mem_cons.mp (hsub List.mem_cons_self) with rfl | hmem
        · exact le_rfl
        · exact hbl x hmem
      -- the later members have larger tags than `b`
      have hrest : xs ⊆ l := by
        intro y hy
        rcases List.mem_cons.mp (hsub (List.mem_cons_of_mem _ hy)) with rfl | hmem
        · exact absurd (hx y hy) (by omega)
        · exact hmem
      rcases List.mem_cons.mp (hsub List.mem_cons_self) with rfl | hmem
      · exact (ih hl' hxs' hrest).cons_cons _
      · refine (ih hl' hxs ?_).cons _
        intro y hy
        rcases List.mem_cons.mp hy with rfl | hy
        · exact hmem
        · exact hrest hy

/-- A selection of a history, with its items in the order of a prefix and never
repeated, is that prefix. -/
theorem prefix_of_nodup {l m : List (ℕ × α)} (hsub : l ⊆ m)
    (hsnd : l.map Prod.snd <+: m.map Prod.snd) (hnd : (m.map Prod.snd).Nodup) : l <+: m := by
  have hlen : l.length ≤ m.length := by simpa using hsnd.length_le
  rw [List.prefix_iff_eq_take]
  refine List.ext_getElem (by simp [hlen]) fun k hk hk' => ?_
  rw [List.getElem_take]
  have hkm : k < m.length := by omega
  have hitem : l[k].2 = m[k].2 := by
    have hget := hsnd.getElem (i := k) (by simpa using hk)
    simpa using hget
  -- the `k`-th item of `l` sits somewhere in `m`
  obtain ⟨j, hj, hjk⟩ := List.getElem_of_mem (hsub (List.getElem_mem hk))
  have hj' : j < (m.map Prod.snd).length := by simpa using hj
  have hkm' : k < (m.map Prod.snd).length := by simpa using hkm
  -- the item occurs once in `m`, so its place is `k`
  have hidx : j = k := by
    have heq : (m.map Prod.snd)[j] = (m.map Prod.snd)[k] := by
      rw [List.getElem_map, List.getElem_map, hjk, hitem]
    exact (List.Nodup.getElem_inj_iff hnd).mp heq
  subst hidx
  exact hjk.symm

/-! ### Selections -/

variable {p : α → Bool} {l : List α}

/-- A selection is a prefix when nothing is selected after something that is not. -/
theorem filter_prefix_iff : l.filter p <+: l ↔ l.Pairwise fun a b => p b = true → p a = true := by
  induction l with
  | nil => simp
  | cons a l ih =>
    rw [List.pairwise_cons]
    -- a selection that drops the head is a prefix only if it is empty
    by_cases ha : p a = true
    · rw [List.filter_cons_of_pos ha, List.cons_prefix_cons, ih]
      exact ⟨fun h => ⟨fun _ _ _ => ha, h.2⟩, fun h => ⟨rfl, h.2⟩⟩
    · rw [List.filter_cons_of_neg ha]
      constructor
      · intro h
        have hnil : l.filter p = [] := by
          cases hf : l.filter p with
          | nil => rfl
          | cons b f =>
            rw [hf, List.cons_prefix_cons] at h
            have hb : b ∈ l.filter p := hf ▸ List.mem_cons_self
            rw [h.1] at hb
            exact absurd (List.mem_filter.mp hb).2 ha
        rw [List.filter_eq_nil_iff] at hnil
        refine ⟨fun b hb hpb => absurd hpb (hnil b hb), ?_⟩
        rw [List.pairwise_iff_forall_sublist]
        intro b c hbc hpc
        exact absurd hpc (hnil c (hbc.subset (by simp)))
      · rintro ⟨h, -⟩
        have hnil : l.filter p = [] :=
          List.filter_eq_nil_iff.mpr fun b hb hpb => ha (h b hb hpb)
        rw [hnil]
        exact List.nil_prefix

/-- A selection is a contiguous piece when nothing between two selected items is left
out. -/
theorem filter_infix_iff : l.filter p <:+: l ↔
    ∀ a b c, [a, b, c] <+ l → p a = true → p c = true → p b = true := by
  induction l with
  | nil => simp
  | cons a l ih =>
    by_cases ha : p a = true
    · rw [List.filter_cons_of_pos ha]
      -- the piece has to start at the head
      have hpre : a :: l.filter p <:+: a :: l ↔ l.filter p <+: l := by
        rw [List.infix_cons_iff, List.cons_prefix_cons]
        constructor
        · rintro (h | h)
          · exact h.2
          · -- the piece would hold one more selected item than the list
            have hlen := (h.sublist.filter p).length_le
            rw [List.filter_cons_of_pos ha, List.filter_filter] at hlen
            simp at hlen
        · exact fun h => Or.inl ⟨rfl, h⟩
      rw [hpre, filter_prefix_iff, List.pairwise_iff_forall_sublist]
      constructor
      · intro h x b c hsub hx hc
        cases hsub with
        | cons _ hsub => exact h ((List.sublist_cons_self _ _).trans hsub) hc
        | cons_cons _ hsub => exact h hsub hc
      · intro h b c hsub hc
        exact h a b c (hsub.cons_cons a) ha hc
    · rw [List.filter_cons_of_neg ha]
      constructor
      · intro h x b c hsub hx hc
        -- the head is not selected, so the piece lies in the tail
        have hinf : l.filter p <:+: l := by
          rcases List.infix_cons_iff.mp h with hpre | hinf
          · cases hf : l.filter p with
            | nil => exact List.nil_infix
            | cons y f =>
              rw [hf, List.cons_prefix_cons] at hpre
              have hy : y ∈ l.filter p := hf ▸ List.mem_cons_self
              rw [hpre.1] at hy
              exact absurd (List.mem_filter.mp hy).2 ha
          · exact hinf
        cases hsub with
        | cons _ hsub => exact ih.mp hinf x b c hsub hx hc
        | cons_cons _ hsub => exact absurd hx ha
      · intro h
        exact List.infix_cons (ih.mpr fun x b c hsub => h x b c (hsub.cons _))

variable {m : List (ℕ × α)} {n : ℕ} {π : ℕ → Prop}

/-- A selection by tags is a prefix when the tags selected are an initial segment. -/
theorem filter_prefix_iff_keys (hm : Sorted m) (hp : ∀ x ∈ m, p x.2 = true ↔ π x.1)
    (hall : ∀ i < n, ∃ a, (i, a) ∈ m) (hlt : ∀ x ∈ m, x.1 < n) :
    (m.map Prod.snd).filter p <+: m.map Prod.snd ↔ ∀ i j, i < j → j < n → π j → π i := by
  rw [filter_prefix_iff, List.pairwise_map]
  constructor
  · intro h i j hij hj hπ
    obtain ⟨a, ha⟩ := hall i (by omega)
    obtain ⟨b, hb⟩ := hall j hj
    -- items of both tags occur, in this order
    have hsub : [(i, a), (j, b)] <+ m :=
      hm.sublist (by simpa using hij) (by simp [ha, hb])
    have hab := List.pairwise_iff_forall_sublist.mp h hsub
    exact (hp _ ha).mp (hab ((hp _ hb).mpr hπ))
  · intro h
    refine List.Pairwise.imp_of_mem (fun {x y} hx hy hxy hpy => ?_) hm
    rw [hp x hx]
    rw [hp y hy] at hpy
    rcases Nat.eq_or_lt_of_le hxy with heq | hlt'
    · rwa [heq]
    · exact h _ _ hlt' (hlt y hy) hpy

/-- A selection by tags is a contiguous piece when the tags selected are an
interval. -/
theorem filter_infix_iff_keys (hm : Sorted m) (hp : ∀ x ∈ m, p x.2 = true ↔ π x.1)
    (hall : ∀ i < n, ∃ a, (i, a) ∈ m) (hlt : ∀ x ∈ m, x.1 < n) :
    (m.map Prod.snd).filter p <:+: m.map Prod.snd ↔
      ∀ i j k, i < j → j < k → k < n → π i → π k → π j := by
  rw [filter_infix_iff]
  constructor
  · intro h i j k hij hjk hk hi hk'
    obtain ⟨a, ha⟩ := hall i (by omega)
    obtain ⟨b, hb⟩ := hall j (by omega)
    obtain ⟨c, hc⟩ := hall k hk
    -- items of the three tags occur, in this order
    have hsub : [(i, a), (j, b), (k, c)] <+ m := by
      refine hm.sublist ?_ (by simp [ha, hb, hc])
      simp only [List.pairwise_cons, List.mem_cons, List.not_mem_nil, or_false, forall_eq_or_imp,
        forall_eq]
      exact ⟨⟨hij, by omega⟩, hjk, by simp, List.Pairwise.nil⟩
    have habc := h a b c (hsub.map Prod.snd)
    exact (hp _ hb).mp (habc ((hp _ ha).mpr hi) ((hp _ hc).mpr hk'))
  · intro h a b c hsub ha hc
    -- the three items come with their tags
    obtain ⟨xs, hxs, heq⟩ := List.sublist_map_iff.mp hsub
    obtain ⟨x, y, z, rfl⟩ : ∃ x y z, xs = [x, y, z] := by
      have hlen := congrArg List.length heq
      simp only [List.length_cons, List.length_nil, List.length_map] at hlen
      exact List.length_eq_three.mp hlen.symm
    simp only [List.map_cons, List.map_nil, List.cons.injEq, and_true] at heq
    obtain ⟨rfl, rfl, rfl⟩ := heq
    have hx := hxs.subset (show x ∈ [x, y, z] by simp)
    have hy := hxs.subset (show y ∈ [x, y, z] by simp)
    have hz := hxs.subset (show z ∈ [x, y, z] by simp)
    have hsorted := List.Pairwise.sublist hxs hm
    simp only [List.pairwise_cons, List.mem_cons, List.not_mem_nil, or_false, forall_eq_or_imp,
      forall_eq] at hsorted
    rw [hp x hx] at ha
    rw [hp z hz] at hc
    rw [hp y hy]
    rcases Nat.eq_or_lt_of_le hsorted.1.1 with hxy | hxy
    · rwa [← hxy]
    · rcases Nat.eq_or_lt_of_le hsorted.2.1 with hyz | hyz
      · rwa [hyz]
      · exact h _ _ _ hxy hyz (hlt z hz) ha hc

/-! ### Histories of a list of requests

The tags are the indices of a list `ts`, and every index has an item. Selecting the
items of a property of their tags is selecting in `ts`. -/

variable {ts : List β} {q : β → Bool}

/-- A list as a history: every item tagged with its index. -/
def indexed (ts : List β) : List (ℕ × β) := ts.zipIdx.map Prod.swap

theorem map_snd_indexed (ts : List β) : (indexed ts).map Prod.snd = ts := by
  rw [indexed, List.map_map]
  exact List.zipIdx_map_fst 0 ts

theorem mem_indexed {i : ℕ} {t : β} : (i, t) ∈ indexed ts ↔ ts[i]? = some t := by
  rw [indexed, List.mem_map]
  constructor
  · rintro ⟨x, hx, heq⟩
    obtain rfl : x = (t, i) := by rw [← Prod.swap_swap x, heq]; rfl
    exact List.mem_zipIdx_iff_getElem?.mp hx
  · exact fun h => ⟨(t, i), List.mem_zipIdx_iff_getElem?.mpr h, rfl⟩

theorem sorted_indexed (ts : List β) : Sorted (indexed ts) := by
  have h : (ts.zipIdx.map Prod.snd).Pairwise (· < ·) := by
    rw [List.zipIdx_map_snd]
    exact List.pairwise_lt_range'
  rw [List.pairwise_map] at h
  exact List.pairwise_map.mpr (h.imp fun hlt => Nat.le_of_lt hlt)

/-- The tags selected by `q`. -/
def Selected (ts : List β) (q : β → Bool) (i : ℕ) : Prop := ∃ t, ts[i]? = some t ∧ q t = true

theorem selected_iff {x : ℕ × β} (hx : x ∈ indexed ts) : q x.2 = true ↔ Selected ts q x.1 := by
  rw [Selected, mem_indexed.mp hx]
  simp

theorem exists_indexed {i : ℕ} (hi : i < ts.length) : ∃ t, (i, t) ∈ indexed ts :=
  ⟨ts[i], mem_indexed.mpr (List.getElem?_eq_getElem hi)⟩

theorem lt_of_mem_indexed {x : ℕ × β} (hx : x ∈ indexed ts) : x.1 < ts.length :=
  (List.getElem?_eq_some_iff.mp (mem_indexed.mp hx)).1

section

variable (hm : Sorted m) (hp : ∀ x ∈ m, ∃ t, ts[x.1]? = some t ∧ p x.2 = q t)
  (hall : ∀ i < ts.length, ∃ a, (i, a) ∈ m)

include hp in
theorem selected_of_tags {x : ℕ × α} (hx : x ∈ m) :
    p x.2 = true ↔ Selected ts q x.1 := by
  obtain ⟨t, ht, hpq⟩ := hp x hx
  rw [Selected, hpq, ht]
  simp

include hp in
theorem lt_of_tags {x : ℕ × α} (hx : x ∈ m) : x.1 < ts.length := by
  obtain ⟨t, ht, -⟩ := hp x hx
  exact (List.getElem?_eq_some_iff.mp ht).1

include hm hp hall

/-- **Initial segments.** -/
theorem filter_prefix_iff_index :
    (m.map Prod.snd).filter p <+: m.map Prod.snd ↔ ts.filter q <+: ts := by
  -- the condition on the tags is the same for the list itself
  have hts := filter_prefix_iff_keys (sorted_indexed ts) (fun x hx => selected_iff hx)
    (fun i hi => exists_indexed hi) (fun x hx => lt_of_mem_indexed hx) (p := q)
  rw [map_snd_indexed] at hts
  rw [hts]
  exact filter_prefix_iff_keys hm (fun x hx => selected_of_tags hp hx) hall
    fun x hx => lt_of_tags hp hx

/-- **Contiguous pieces.** -/
theorem filter_infix_iff_index :
    (m.map Prod.snd).filter p <:+: m.map Prod.snd ↔ ts.filter q <:+: ts := by
  have hts := filter_infix_iff_keys (sorted_indexed ts) (fun x hx => selected_iff hx)
    (fun i hi => exists_indexed hi) (fun x hx => lt_of_mem_indexed hx) (p := q)
  rw [map_snd_indexed] at hts
  rw [hts]
  exact filter_infix_iff_keys hm (fun x hx => selected_of_tags hp hx) hall
    fun x hx => lt_of_tags hp hx

end

end Keyed
