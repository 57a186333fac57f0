import Mathlib

/-!
# Stripping the words of a code

`strip code s` takes words of the code from the front of a list, as long as it starts with one.
It is `[]` or what follows some words and starts with none (`strip_spec`). When no word of the
code is the start of another, there is only one such way to write a list
(`words_unique`), so that stripping undoes putting words in front (`strip_append`).
-/

namespace Strip

variable {α : Type} [DecidableEq α]

/-- Up to `fuel` words taken from the front. -/
def stripLoop (code : List (List α)) : ℕ → List α → List α
  | 0, s => s
  | fuel + 1, s =>
    match code.find? fun w => w.isPrefixOf s with
    | none => s
    | some w => stripLoop code fuel (s.drop w.length)

/-- All words taken from the front. A word has at least one letter, so there are no more of
them than letters. -/
def strip (code : List (List α)) (s : List α) : List α := stripLoop code s.length s

omit [DecidableEq α] in
/-- The list starts with no word of the code. -/
def Bare (code : List (List α)) (s : List α) : Prop := ∀ w ∈ code, ¬ w <+: s

/-- No word is empty, and none is the start of another one. -/
structure PrefixFree (code : List (List α)) : Prop where
  ne_nil : ∀ w ∈ code, w ≠ []
  eq_of_prefix : ∀ v ∈ code, ∀ w ∈ code, v <+: w → v = w

variable {code : List (List α)} {s : List α}

theorem stripLoop_spec (hne : ∀ w ∈ code, w ≠ []) (fuel : ℕ) (hfuel : s.length ≤ fuel) :
    ∃ words : List (List α), (∀ w ∈ words, w ∈ code) ∧
      s = words.flatten ++ stripLoop code fuel s ∧ Bare code (stripLoop code fuel s) := by
  induction fuel generalizing s with
  | zero =>
    obtain rfl := List.length_eq_zero_iff.mp (Nat.le_zero.mp hfuel)
    refine ⟨[], List.forall_mem_nil _, rfl, fun w hw hprefix => ?_⟩
    exact hne w hw (List.prefix_nil.mp hprefix)
  | succ fuel ih =>
    rw [stripLoop]
    split
    · next hfind =>
      refine ⟨[], List.forall_mem_nil _, rfl, fun w hw hprefix => ?_⟩
      exact List.find?_eq_none.mp hfind w hw (List.isPrefixOf_iff_prefix.mpr hprefix)
    · next w hfind =>
      have hw : w ∈ code := List.mem_of_find?_eq_some hfind
      have hprefix : w.isPrefixOf s = true := by
        have hfound := List.find?_some hfind
        exact hfound
      obtain ⟨rest, rfl⟩ := List.isPrefixOf_iff_prefix.mp hprefix
      have hpos : 0 < w.length := List.length_pos_iff.mpr (hne w hw)
      rw [List.length_append] at hfuel
      obtain ⟨words, hwords, hrest, hbare⟩ := ih (s := rest) (by omega)
      rw [List.drop_left]
      refine ⟨w :: words, List.forall_mem_cons.mpr ⟨hw, hwords⟩, ?_, hbare⟩
      rw [List.flatten_cons, List.append_assoc, ← hrest]

/-- **What stripping leaves**: some words come before it, and it starts with none. -/
theorem strip_spec (hne : ∀ w ∈ code, w ≠ []) (s : List α) :
    ∃ words : List (List α), (∀ w ∈ words, w ∈ code) ∧ s = words.flatten ++ strip code s ∧
      Bare code (strip code s) :=
  stripLoop_spec hne s.length le_rfl

/-- What stripping leaves is the end of the list. -/
theorem strip_suffix (hne : ∀ w ∈ code, w ≠ []) (s : List α) : strip code s <:+ s := by
  obtain ⟨words, -, hs, -⟩ := strip_spec hne s
  exact ⟨words.flatten, hs.symm⟩

omit [DecidableEq α] in
/-- **Words are read in only one way** from a list that starts with them. -/
theorem words_unique (hcode : PrefixFree code) {words words' : List (List α)} {t t' : List α}
    (hwords : ∀ w ∈ words, w ∈ code) (hwords' : ∀ w ∈ words', w ∈ code) (ht : Bare code t)
    (ht' : Bare code t') (heq : words.flatten ++ t = words'.flatten ++ t') : t = t' := by
  induction words generalizing words' with
  | nil =>
    cases words' with
    | nil => exact heq
    | cons w' words' =>
      rw [List.flatten_nil, List.nil_append, List.flatten_cons, List.append_assoc] at heq
      exact absurd ⟨_, heq.symm⟩ (ht w' (hwords' w' List.mem_cons_self))
  | cons w words ih =>
    obtain ⟨hw, hwords⟩ := List.forall_mem_cons.mp hwords
    rw [List.flatten_cons, List.append_assoc] at heq
    cases words' with
    | nil => exact absurd ⟨_, heq⟩ (ht' w hw)
    | cons w' words' =>
      obtain ⟨hw', hwords'⟩ := List.forall_mem_cons.mp hwords'
      rw [List.flatten_cons, List.append_assoc] at heq
      -- of two words at the front, one is the start of the other
      have hsame : w = w' := by
        have hprefix : w <+: w' ++ (words'.flatten ++ t') := ⟨_, heq⟩
        rcases List.prefix_or_prefix_of_prefix hprefix (List.prefix_append _ _) with h | h
        · exact hcode.eq_of_prefix w hw w' hw' h
        · exact (hcode.eq_of_prefix w' hw' w hw h).symm
      rw [hsame] at heq
      exact ih hwords hwords' (List.append_cancel_left heq)

/-- **Stripping undoes putting words in front.** -/
theorem strip_append (hcode : PrefixFree code) {words : List (List α)} {t : List α}
    (hwords : ∀ w ∈ words, w ∈ code) (ht : Bare code t) :
    strip code (words.flatten ++ t) = t := by
  obtain ⟨words', hwords', hs, hbare⟩ := strip_spec hcode.ne_nil (words.flatten ++ t)
  exact (words_unique hcode hwords hwords' ht hbare hs).symm

omit [DecidableEq α] in
/-- What follows a letter of no word makes no word. -/
theorem bare_append_cons {a : α} (ha : ∀ w ∈ code, a ∉ w) (hs : Bare code s) (t : List α) :
    Bare code (s ++ a :: t) := by
  intro w hw hprefix
  rcases List.prefix_or_prefix_of_prefix hprefix (List.prefix_append s (a :: t)) with h | h
  · exact hs w hw h
  · obtain ⟨rest, rfl⟩ := h
    cases rest with
    | nil =>
      rw [List.append_nil] at hw
      exact hs s hw List.prefix_rfl
    | cons b rest =>
      -- the letter would be in the word
      have hrest := (List.prefix_append_right_inj s).mp hprefix
      obtain ⟨rfl, -⟩ := List.cons_prefix_cons.mp hrest
      exact ha _ hw (List.mem_append_right s List.mem_cons_self)

end Strip
