import Mathlib

/-!
# Filling a buffer by short reads

A source answers a read with some of the items that are wanted, or with an error. `fill` is
the loop that reads until a buffer is full: it advances by what it is given, tries again after
the errors that say so, and stops at the others. The answers of the source are a list.

What the loop comes to is said of that list. It fills the buffer when the items of the answers
it goes on after add up to the length of the buffer (`fill_eq_full`), and it fails when an
error comes before they do (`fill_eq_failed`).
-/

namespace Fill

variable {α ε : Type}

/-- What a loop has done to its buffer: the part that was filled, the part that was not
reached, and the error, if any. -/
structure Outcome (α ε : Type) where
  filled : List α
  rest : List α
  err : Option ε
  deriving DecidableEq

/-- The loop, from a buffer. It has no outcome when the answers end before it does, or when one
of them is none that a source gives: no items at all, or more than were wanted. -/
def fill (retry : ε → Bool) : List (Except ε (List α)) → List α → Option (Outcome α ε)
  | _, [] => some ⟨[], [], none⟩
  | [], _ :: _ => none
  | .error err :: answers, a :: b =>
    if retry err then fill retry answers (a :: b) else some ⟨[], a :: b, some err⟩
  | .ok items :: answers, a :: b =>
    if items = [] ∨ (a :: b).length < items.length then none
    else (fill retry answers ((a :: b).drop items.length)).map fun o =>
      { o with filled := items ++ o.filled }

/-- The items of the answers, in order. -/
def received (answers : List (Except ε (List α))) : List α :=
  answers.flatMap fun x => x.toOption.getD []

/-- The loop goes on after the answer: it has items, or an error that is to be retried. -/
def GoesOn (retry : ε → Bool) : Except ε (List α) → Prop
  | .ok items => items ≠ []
  | .error err => retry err = true

/-- The first answers bring the items, and nothing stops the loop among them. -/
def Delivers (retry : ε → Bool) (answers : List (Except ε (List α))) (items : List α) : Prop :=
  ∃ used rest, answers = used ++ rest ∧ (∀ x ∈ used, GoesOn retry x) ∧ received used = items

/-- The error comes when fewer than `n` items have been brought. -/
def Breaks (retry : ε → Bool) (answers : List (Except ε (List α))) (n : ℕ) (err : ε) : Prop :=
  ∃ used rest, answers = used ++ .error err :: rest ∧ (∀ x ∈ used, GoesOn retry x) ∧
    (received used).length < n ∧ retry err = false

variable {retry : ε → Bool} {answers : List (Except ε (List α))} {b items : List α}

@[simp] theorem received_nil : received ([] : List (Except ε (List α))) = [] := rfl

@[simp] theorem received_ok : received (.ok items :: answers) = items ++ received answers := rfl

@[simp] theorem received_error {err : ε} : received (.error err :: answers) = received answers :=
  rfl

@[simp] theorem fill_nil : fill retry answers ([] : List α) = some ⟨[], [], none⟩ := by
  cases answers <;> rfl

/-- A buffer of the length that is wanted is not longer than what an answer may bring. -/
theorem fill_ok (hne : items ≠ []) (hlen : items.length ≤ b.length) :
    fill retry (.ok items :: answers) b
      = (fill retry answers (b.drop items.length)).map fun o =>
          { o with filled := items ++ o.filled } := by
  cases b with
  | nil => exact absurd (List.length_eq_zero_iff.mp (Nat.le_zero.mp hlen)) hne
  | cons a b => rw [fill, if_neg (not_or.mpr ⟨hne, not_lt.mpr hlen⟩)]

theorem fill_retry {err : ε} (h : retry err = true) :
    fill retry (.error err :: answers) b = fill retry answers b := by
  cases b with
  | nil => rw [fill_nil, fill_nil]
  | cons a b => rw [fill, if_pos h]

theorem fill_stop {err : ε} (h : retry err = false) (hb : b ≠ []) :
    fill retry (.error err :: answers) b = some ⟨[], b, some err⟩ := by
  cases b with
  | nil => exact absurd rfl hb
  | cons a b => rw [fill, if_neg (by rw [h]; exact Bool.false_ne_true)]

/-- **The loop passes over the answers it goes on after**: they fill the front of the buffer. -/
theorem fill_append {used : List (Except ε (List α))} (hgo : ∀ x ∈ used, GoesOn retry x)
    (hlen : (received used).length ≤ b.length) :
    fill retry (used ++ answers) b
      = (fill retry answers (b.drop (received used).length)).map fun o =>
          { o with filled := received used ++ o.filled } := by
  induction used generalizing b with
  | nil =>
    rw [List.nil_append, received_nil, List.length_nil, List.drop_zero]
    exact Option.map_id'.symm
  | cons x used ih =>
    obtain ⟨hx, hused⟩ := List.forall_mem_cons.mp hgo
    cases x with
    | error err =>
      rw [received_error] at hlen ⊢
      rw [List.cons_append, fill_retry hx]
      exact ih hused hlen
    | ok first =>
      rw [received_ok, List.length_append] at hlen
      have hrest : (received used).length ≤ (b.drop first.length).length := by
        rw [List.length_drop]
        omega
      rw [List.cons_append, fill_ok hx (by omega), ih hused hrest, Option.map_map, received_ok,
        List.length_append, List.drop_drop]
      refine congrArg (fun f => Option.map f _) (funext fun o => ?_)
      simp only [Function.comp, List.append_assoc]

/-- **What the loop has done** when it ends. -/
theorem fill_spec {o : Outcome α ε} (h : fill retry answers b = some o) :
    ∃ used tail, answers = used ++ tail ∧ (∀ x ∈ used, GoesOn retry x) ∧
      received used = o.filled ∧ o.rest = b.drop o.filled.length ∧ o.filled.length ≤ b.length ∧
      ((o.err = none ∧ o.rest = []) ∨ ∃ err rest, o.err = some err ∧ o.rest ≠ [] ∧
        tail = .error err :: rest ∧ retry err = false) := by
  induction answers generalizing b o with
  | nil =>
    cases b with
    | nil =>
      obtain rfl := Option.some.inj h
      exact ⟨[], [], rfl, by simp, rfl, rfl, le_rfl, Or.inl ⟨rfl, rfl⟩⟩
    | cons a b => cases h
  | cons x answers ih =>
    by_cases hb : b = []
    · -- nothing is wanted
      subst hb
      obtain rfl := Option.some.inj h
      exact ⟨[], _, rfl, by simp, rfl, rfl, le_rfl, Or.inl ⟨rfl, rfl⟩⟩
    cases x with
    | error err =>
      cases hretry : retry err with
      | false =>
        rw [fill_stop hretry hb] at h
        obtain rfl := Option.some.inj h
        exact ⟨[], _, rfl, by simp, rfl, rfl, Nat.zero_le _,
          Or.inr ⟨err, answers, rfl, hb, rfl, hretry⟩⟩
      | true =>
        rw [fill_retry hretry] at h
        obtain ⟨used, tail, rfl, hgo, hrest⟩ := ih h
        exact ⟨.error err :: used, tail, rfl, List.forall_mem_cons.mpr ⟨hretry, hgo⟩, hrest⟩
    | ok items =>
      by_cases hbad : items = [] ∨ b.length < items.length
      · obtain ⟨a, b, rfl⟩ := List.exists_cons_of_ne_nil hb
        rw [fill, if_pos hbad] at h
        cases h
      · obtain ⟨hne, hlen⟩ := not_or.mp hbad
        rw [fill_ok hne (not_lt.mp hlen)] at h
        obtain ⟨o', ho', rfl⟩ := Option.map_eq_some_iff.mp h
        obtain ⟨used, tail, rfl, hgo, hfilled, hrest, hle, hend⟩ := ih ho'
        refine ⟨.ok items :: used, tail, rfl, List.forall_mem_cons.mpr ⟨hne, hgo⟩, ?_, ?_, ?_, hend⟩
        · rw [received_ok, hfilled]
        · rw [hrest, List.drop_drop, List.length_append]
        · rw [List.length_drop] at hle
          rw [List.length_append]
          omega

/-! ### The two ends -/

/-- **The buffer is filled** when the first answers bring as many items as it has places. -/
theorem fill_eq_full {filled rest : List α} :
    fill retry answers b = some ⟨filled, rest, none⟩ ↔
      rest = [] ∧ filled.length = b.length ∧ Delivers retry answers filled := by
  constructor
  · intro h
    obtain ⟨used, tail, rfl, hgo, hfilled, hrest, hle, ⟨-, hfull⟩ | ⟨err, -, hsome, -⟩⟩ :=
      fill_spec h
    · have hall : b.length ≤ filled.length := List.drop_eq_nil_iff.mp (hrest.symm.trans hfull)
      exact ⟨hfull, le_antisymm hle hall, used, tail, rfl, hgo, hfilled⟩
    · cases hsome
  · rintro ⟨rfl, hlen, used, tail, rfl, hgo, rfl⟩
    rw [fill_append hgo hlen.le, hlen, List.drop_length, fill_nil, Option.map_some,
      List.append_nil]

/-- **The loop fails** when an error comes before the buffer is full. -/
theorem fill_eq_failed {err : ε} :
    (∃ filled rest, fill retry answers b = some ⟨filled, rest, some err⟩) ↔
      Breaks retry answers b.length err := by
  constructor
  · rintro ⟨filled, rest, h⟩
    obtain ⟨used, tail, rfl, hgo, hfilled, hrest, hle, ⟨hnone, -⟩ | ⟨err', more, hsome, hne,
      rfl, hretry⟩⟩ := fill_spec h
    · cases hnone
    · obtain rfl := Option.some.inj hsome
      have hshort : ¬ b.length ≤ filled.length := fun hall =>
        hne (hrest.trans (List.drop_eq_nil_of_le hall))
      exact ⟨used, more, rfl, hgo, by rw [hfilled]; exact not_le.mp hshort, hretry⟩
  · rintro ⟨used, more, rfl, hgo, hshort, hretry⟩
    have hne : b.drop (received used).length ≠ [] := fun hnil =>
      absurd (List.drop_eq_nil_iff.mp hnil) (not_le.mpr hshort)
    rw [fill_append hgo hshort.le, fill_stop hretry hne]
    exact ⟨_, _, rfl⟩

end Fill
