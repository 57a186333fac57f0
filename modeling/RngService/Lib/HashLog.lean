import Mathlib

/-!
# Hash-linked logs

A log whose records each carry the hash of the record before them. `Linked p l`
says that `l` is such a log with predecessor `p`; `tip p l` is the hash the next
record has to carry.

The general facts fall in two groups.

* **Commitment** (`Linked.commit`). When hashes are digests of payloads and the
  payload contains the link, two logs from the same predecessor with the same
  tip carry the same payloads, unless the digest clashes on them (`Clash`).
  The argument walks both logs backwards from the common tip.
* **Rigidity** (`Linked.prefix_of_subset`, `Linked.infix_of_subset`). In a log
  without repeated hashes a record has one possible place: records picked from
  it that link to each other form a contiguous piece of it, and a prefix when
  they link to its predecessor. `Linked.nodup` derives the absence of repeated
  hashes from the absence of clashes.
-/

namespace HashLog

variable {α X H : Type} {prev hash : α → H}

/-- `l` is linked: its first record names `p`, every other one names the hash of
the record before it. -/
def Linked (prev hash : α → H) : H → List α → Prop
  | _, [] => True
  | p, a :: l => prev a = p ∧ Linked prev hash (hash a) l

/-- The hash of the last record of `l`, or `p` if there is none. -/
def tip (hash : α → H) : H → List α → H
  | p, [] => p
  | _, a :: l => tip hash (hash a) l

@[simp] theorem linked_nil (p : H) : Linked prev hash p [] := trivial

@[simp] theorem linked_cons {p : H} {a : α} {l : List α} :
    Linked prev hash p (a :: l) ↔ prev a = p ∧ Linked prev hash (hash a) l := Iff.rfl

@[simp] theorem tip_nil (p : H) : tip hash p [] = p := rfl

@[simp] theorem tip_cons (p : H) (a : α) (l : List α) :
    tip hash p (a :: l) = tip hash (hash a) l := rfl

@[simp] theorem tip_append (p : H) (l m : List α) :
    tip hash p (l ++ m) = tip hash (tip hash p l) m := by
  induction l generalizing p with
  | nil => rfl
  | cons a l ih => exact ih (hash a)

theorem linked_append {p : H} {l m : List α} :
    Linked prev hash p (l ++ m) ↔
      Linked prev hash p l ∧ Linked prev hash (tip hash p l) m := by
  induction l generalizing p with
  | nil => simp
  | cons a l ih =>
    rw [List.cons_append, linked_cons, linked_cons, tip_cons, ih, and_assoc]

/-- Appending one record that names the tip. -/
theorem linked_concat {p : H} {l : List α} {a : α} :
    Linked prev hash p (l ++ [a]) ↔ Linked prev hash p l ∧ prev a = tip hash p l := by
  rw [linked_append, linked_cons]
  simp

theorem Linked.initial {p : H} {l m : List α} (h : Linked prev hash p l) (hm : m <+: l) :
    Linked prev hash p m := by
  obtain ⟨t, rfl⟩ := hm
  exact (linked_append.mp h).1

/-- The tip of a log with a record is the hash of one of its records. -/
theorem tip_mem {p : H} {l : List α} (h : l ≠ []) : ∃ a ∈ l, tip hash p l = hash a := by
  obtain ⟨m, a, rfl⟩ := List.eq_nil_or_concat l |>.resolve_left h
  exact ⟨a, by simp, by simp⟩

/-- Links survive a change of the representation of hashes. -/
theorem Linked.map {K : Type} (f : H → K) {p : H} {l : List α} (h : Linked prev hash p l) :
    Linked (fun a => f (prev a)) (fun a => f (hash a)) (f p) l := by
  induction l generalizing p with
  | nil => trivial
  | cons a l ih => exact ⟨congrArg f h.1, ih h.2⟩

theorem tip_map {K : Type} (f : H → K) (p : H) (l : List α) :
    tip (fun a => f (hash a)) (f p) l = f (tip hash p l) := by
  induction l generalizing p with
  | nil => rfl
  | cons a l ih => exact ih (hash a)

/-- The tips of the prefixes of a log are the predecessor and the hashes. -/
theorem tip_take (p : H) (l : List α) {i : ℕ} (hi : i ≤ l.length) :
    (p :: l.map hash)[i]? = some (tip hash p (l.take i)) := by
  induction l generalizing p i with
  | nil =>
    obtain rfl : i = 0 := by simpa using hi
    rfl
  | cons a l ih =>
    cases i with
    | zero => rfl
    | succ i =>
      rw [List.getElem?_cons_succ, List.map_cons, ih (hash a) (by simpa using hi),
        List.take_succ_cons, tip_cons]

/-! ### Commitment -/

/-- A digest clashes on `xs`: two different members of `xs` have the same digest,
or some member has the digest `p`. -/
def Clash (digest : X → H) (p : H) (xs : List X) : Prop :=
  (∃ x ∈ xs, ∃ y ∈ xs, x ≠ y ∧ digest x = digest y) ∨ ∃ x ∈ xs, digest x = p

instance [DecidableEq X] [DecidableEq H] (digest : X → H) (p : H) (xs : List X) :
    Decidable (Clash digest p xs) :=
  inferInstanceAs (Decidable ((∃ x ∈ xs, ∃ y ∈ xs, x ≠ y ∧ digest x = digest y) ∨ _))

theorem Clash.mono {digest : X → H} {p : H} {xs ys : List X} (h : Clash digest p xs)
    (hsub : xs ⊆ ys) : Clash digest p ys := by
  rcases h with ⟨x, hx, y, hy, hne, heq⟩ | ⟨x, hx, heq⟩
  · exact Or.inl ⟨x, hsub hx, y, hsub hy, hne, heq⟩
  · exact Or.inr ⟨x, hsub hx, heq⟩

/-- The records of `l` are hashed by `digest` over a payload that contains the
link, recovered by `link`. -/
def Hashed (prev hash : α → H) (payload : α → X) (digest link : X → H) (l : List α) : Prop :=
  ∀ a ∈ l, hash a = digest (payload a) ∧ prev a = link (payload a)

variable {payload : α → X} {digest link : X → H}

/-- **The tip commits to the history.** Two logs from the same predecessor with
the same tip carry the same payloads, unless the digest clashes on them. The
induction removes the last record of both: equal tips are equal digests, hence
equal payloads, hence equal links, which are the tips of what remains. -/
theorem Linked.commit {p : H} {l m : List α} (hl : Linked prev hash p l)
    (hm : Linked prev hash p m) (hlh : Hashed prev hash payload digest link l)
    (hmh : Hashed prev hash payload digest link m) (htip : tip hash p l = tip hash p m)
    (hc : ¬ Clash digest p (l.map payload ++ m.map payload)) :
    l.map payload = m.map payload := by
  -- no record has the predecessor as its hash: that would be a clash
  have hfresh : ∀ a, a ∈ l ∨ a ∈ m → hash a ≠ p := by
    intro a ha heq
    refine hc (Or.inr ⟨payload a, ?_, ?_⟩)
    · simpa using ha.imp (fun h => ⟨a, h, rfl⟩) (fun h => ⟨a, h, rfl⟩)
    · rcases ha with h | h
      · rw [← (hlh a h).1, heq]
      · rw [← (hmh a h).1, heq]
  induction l using List.reverseRecOn generalizing m with
  | nil =>
    -- `m` cannot go on where `l` ends: its tip would be the predecessor
    by_contra hne
    obtain ⟨b, hb, hbt⟩ : ∃ b ∈ m, tip hash p m = hash b := tip_mem (fun h0 => hne (by rw [h0]))
    exact hfresh b (Or.inr hb) (by rw [← hbt, ← htip]; rfl)
  | append_singleton l a ih =>
    rcases List.eq_nil_or_concat m with rfl | ⟨m, b, rfl⟩
    -- likewise if `m` ends first
    · exact absurd (by simpa using htip) (hfresh a (Or.inl (by simp)))
    · rw [List.concat_eq_append] at hm hmh htip hc hfresh ⊢
      -- both go on: the last records have one hash, hence one payload
      have hab : hash a = hash b := by simpa using htip
      obtain ⟨hal, hap⟩ := hlh a (by simp)
      obtain ⟨hbl, hbp⟩ := hmh b (by simp)
      have hpay : payload a = payload b := by
        by_contra hne
        exact hc (Or.inl ⟨payload a, by simp, payload b, by simp, hne, by rw [← hal, ← hbl, hab]⟩)
      -- one payload contains one link, so what remains has one tip again
      have hprev : tip hash p l = tip hash p m := by
        rw [← (linked_concat.mp hl).2, ← (linked_concat.mp hm).2, hap, hbp, hpay]
      have hrest := ih (linked_concat.mp hl).1 (linked_concat.mp hm).1
        (fun x hx => hlh x (by simp [hx])) (fun x hx => hmh x (by simp [hx])) hprev
        (fun h => hc (h.mono (by
          intro x hx
          simp only [List.map_append, List.mem_append] at hx ⊢
          exact hx.imp Or.inl Or.inl)))
        (fun x hx => hfresh x (hx.imp (fun h => by simp [h]) (fun h => by simp [h])))
      rw [List.map_append, List.map_append, hrest]
      simp [hpay]

/-! ### Rigidity -/

/-- A record names the hash of the record before it. -/
theorem Linked.prev_succ {p : H} {l : List α} (h : Linked prev hash p l) {i : ℕ}
    (hi : i + 1 < l.length) : prev l[i + 1] = hash l[i] := by
  induction l generalizing p i with
  | nil => simp at hi
  | cons a l ih =>
    cases i with
    | zero =>
      cases l with
      | nil => simp at hi
      | cons b l => exact h.2.1
    | succ i => exact ih h.2 (by simpa using hi)

/-- **No repeated hashes.** If no hash is the predecessor of the log and equal
hashes come with equal links, then the hashes, together with the predecessor, are
pairwise distinct: two equal hashes could be followed back to the start. -/
theorem Linked.nodup {p : H} {l : List α} (h : Linked prev hash p l)
    (hinj : ∀ a ∈ l, ∀ b ∈ l, hash a = hash b → prev a = prev b)
    (hp : ∀ a ∈ l, hash a ≠ p) : (p :: l.map hash).Nodup := by
  -- by induction on the earlier of two places with one hash
  have hne : ∀ i j, ∀ (hij : i < j) (hj : j < l.length), hash l[i] ≠ hash l[j] := by
    intro i
    induction i with
    | zero =>
      intro j hij hj heq
      -- the earlier place is the first: the record before the later one has hash `p`
      obtain ⟨j, rfl⟩ := Nat.exists_eq_succ_of_ne_zero (by omega : j ≠ 0)
      have h1 := hinj _ (List.getElem_mem _) _ (List.getElem_mem _) heq
      rw [h.prev_succ hj] at h1
      refine hp l[j] (List.getElem_mem _) (h1.symm.trans ?_)
      cases l with
      | nil => simp at hj
      | cons a l => exact h.1
    | succ i ih =>
      intro j hij hj heq
      -- equal hashes have equal links, so the places before have one hash too
      obtain ⟨j, rfl⟩ := Nat.exists_eq_succ_of_ne_zero (by omega : j ≠ 0)
      have h1 := hinj _ (List.getElem_mem _) _ (List.getElem_mem _) heq
      rw [h.prev_succ hj, h.prev_succ (by omega)] at h1
      exact ih j (by omega) (by omega) h1
  rw [List.nodup_cons]
  refine ⟨?_, ?_⟩
  · intro hmem
    obtain ⟨a, ha, heq⟩ := List.mem_map.mp hmem
    exact hp a ha heq
  · rw [List.nodup_iff_pairwise_ne, List.pairwise_iff_getElem]
    intro i j hi hj hij
    simpa using hne i j hij (by simpa using hj)

/-- Without clashes the hashes of a log are pairwise distinct. -/
theorem Linked.nodup_of_not_clash {p : H} {l : List α} (h : Linked prev hash p l)
    (hh : Hashed prev hash payload digest link l) (hc : ¬ Clash digest p (l.map payload)) :
    (p :: l.map hash).Nodup := by
  refine h.nodup ?_ ?_
  · intro a ha b hb heq
    have hpay : payload a = payload b := by
      by_contra hne
      exact hc (Or.inl ⟨payload a, List.mem_map_of_mem ha, payload b, List.mem_map_of_mem hb, hne,
        by rw [← (hh a ha).1, ← (hh b hb).1, heq]⟩)
    rw [(hh a ha).2, (hh b hb).2, hpay]
  · intro a ha heq
    exact hc (Or.inr ⟨payload a, List.mem_map_of_mem ha, by rw [← (hh a ha).1, heq]⟩)

/-- In a log without repeated hashes the tip of a prefix determines the prefix. -/
theorem tip_prefix_inj {p : H} {l m m' : List α} (hnd : (p :: l.map hash).Nodup) (hm : m <+: l)
    (hm' : m' <+: l) (htip : tip hash p m = tip hash p m') : m = m' := by
  -- the tips sit at the lengths of the prefixes in the list of all hashes
  rw [List.prefix_iff_eq_take] at hm hm'
  have hlen : m.length ≤ l.length := by rw [hm]; simp
  have hlen' : m'.length ≤ l.length := by rw [hm']; simp
  have h1 : (p :: l.map hash)[m.length]? = some (tip hash p (l.take m.length)) :=
    tip_take p l hlen
  have h2 : (p :: l.map hash)[m'.length]? = some (tip hash p (l.take m'.length)) :=
    tip_take p l hlen'
  rw [← hm, htip] at h1
  rw [← hm'] at h2
  have hbound : m.length < (p :: l.map hash).length := by simpa using Nat.lt_succ_of_le hlen
  have hidx : m.length = m'.length :=
    (List.getElem?_inj hbound hnd).mp (h1.trans h2.symm)
  rw [hm, hm', hidx]

/-- A linked selection of records that starts right after the prefix `l₁` of the
log continues as the log does. -/
theorem Linked.prefix_of_tip {p : H} {l₁ l₂ f : List α}
    (hl : Linked prev hash p (l₁ ++ l₂)) (hnd : (p :: (l₁ ++ l₂).map hash).Nodup)
    (hf : Linked prev hash (tip hash p l₁) f) (hsub : f ⊆ l₁ ++ l₂) : f <+: l₂ := by
  induction f generalizing l₁ l₂ with
  | nil => exact List.nil_prefix
  | cons a f ih =>
    obtain ⟨m, n, hmn⟩ := List.append_of_mem (hsub List.mem_cons_self)
    -- the place of `a` is fixed by the hash it names
    have hm : Linked prev hash p (m ++ a :: n) := hmn ▸ hl
    have htip : tip hash p m = tip hash p l₁ := by
      rw [← (linked_append.mp hm).2.1]
      exact hf.1
    have hml : m = l₁ := tip_prefix_inj hnd ⟨a :: n, hmn.symm⟩ ⟨l₂, rfl⟩ htip
    subst hml
    obtain rfl := List.append_cancel_left hmn
    have heq : m ++ a :: n = (m ++ [a]) ++ n := by simp
    rw [List.prefix_cons_iff]
    -- go on from the prefix that ends in `a`
    have hf' : Linked prev hash (tip hash p (m ++ [a])) f := by
      rw [tip_append]
      exact hf.2
    refine Or.inr ⟨f, rfl, ih (heq ▸ hl) (heq ▸ hnd) hf' ?_⟩
    intro x hx
    rw [← heq]
    exact hsub (List.mem_cons_of_mem _ hx)

/-- Records of a log that link to each other from its predecessor are a prefix
of it. -/
theorem Linked.prefix_of_subset {p : H} {l f : List α} (hl : Linked prev hash p l)
    (hnd : (p :: l.map hash).Nodup) (hf : Linked prev hash p f) (hsub : f ⊆ l) : f <+: l := by
  rw [← List.nil_append l] at hl hnd hsub
  exact Linked.prefix_of_tip hl hnd hf hsub

/-- Records of a log that link to each other are a contiguous piece of it. -/
theorem Linked.infix_of_subset {p q : H} {l f : List α} (hl : Linked prev hash p l)
    (hnd : (p :: l.map hash).Nodup) (hf : Linked prev hash q f) (hsub : f ⊆ l) : f <:+: l := by
  cases f with
  | nil => exact List.nil_infix
  | cons a f =>
    obtain ⟨m, n, rfl⟩ := List.append_of_mem (hsub List.mem_cons_self)
    -- the selection starts where its first record sits
    obtain rfl : tip hash p m = q := by
      rw [← (linked_append.mp hl).2.1]
      exact hf.1
    obtain ⟨t, ht⟩ := Linked.prefix_of_tip hl hnd hf hsub
    exact ⟨m, t, by rw [List.append_assoc, ht]⟩

end HashLog
