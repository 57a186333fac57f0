import Mathlib
import RngService.Vertex.Request

/-!
# The text of a reply

`SendJSON` of `main.cpp` and the printing of an array of numbers in `cJSON.c`. The text is
written into a buffer that `ensure` enlarges; the functions write behind the offset, and
`update_offset` moves it by the `strlen` of what was written. An access outside of the buffer is
an outcome of its own here (`Stop.overrun`), and what fresh memory holds is arbitrary.

The invariant is that the text so far ends at the offset and that one byte more is in the buffer
(`Holds`); a function that has written a string leaves its NUL there (`Ends`). Either the array is
sent as JSON with its length, or printing fails without an overrun: `reply_sent`. A failure is not
checked for, and `strlen` is called with `NULL`.
-/

namespace Vertex

/-- `INT_MAX` -/
def intMax : ℕ := 2 ^ 31 - 1

/-- What comes of each request for so many bytes of memory: the bytes that it holds, if it is
granted. -/
abbrev Heap := ℕ → ℕ → Option (ℕ → UInt8)

/-- Why there is no text. -/
inductive Stop
  /-- `NULL` or `false` is returned -/
  | failed
  /-- memory is accessed that is not there -/
  | overrun
  deriving DecidableEq

/-- `printbuffer`. There are `length` bytes in the buffer. -/
structure PrintBuffer where
  buffer : Bytes
  offset : ℕ
  /-- how often memory has been requested -/
  requests : ℕ

/-- `realloc`: the bytes are kept that fit. -/
def realloc (buffer : Bytes) (size : ℕ) (memory : ℕ → UInt8) : Bytes :=
  buffer.take size ++ (List.range (size - buffer.length)).map fun i => memory (buffer.length + i)

/-- `ensure` -/
def ensure (heap : Heap) (p : PrintBuffer) (needed : ℕ) : Except Stop PrintBuffer :=
  if 0 < p.buffer.length ∧ p.buffer.length ≤ p.offset then .error .failed
  else if intMax < needed then .error .failed
  else if needed + p.offset + 1 ≤ p.buffer.length then .ok p
  else if intMax < needed + p.offset + 1 then .error .failed
  else
    let newsize :=
      if intMax / 2 < needed + p.offset + 1 then intMax else (needed + p.offset + 1) * 2
    match heap p.requests newsize with
    | none => .error .failed
    | some memory => .ok ⟨realloc p.buffer newsize memory, p.offset, p.requests + 1⟩

/-- Bytes are written from the offset on. -/
def PrintBuffer.write (p : PrintBuffer) (s : Bytes) : Except Stop PrintBuffer :=
  if p.offset + s.length ≤ p.buffer.length then
    .ok { p with buffer := p.buffer.take p.offset ++ s ++ p.buffer.drop (p.offset + s.length) }
  else .error .overrun

/-- `strlen` -/
def strlen (s : Bytes) : Except Stop ℕ :=
  if 0 ∈ s then .ok (s.takeWhile (· != 0)).length else .error .overrun

/-- `update_offset` -/
def updateOffset (p : PrintBuffer) : Except Stop PrintBuffer := do
  let n ← strlen (p.buffer.drop p.offset)
  return { p with offset := p.offset + n }

/-- An integer in decimal, as `%1.15g` prints a `double` of that value. -/
def signed (z : ℤ) : Bytes := if z < 0 then 45 :: decimal z.natAbs else decimal z.natAbs

/-- `print_number` -/
def printNumber (heap : Heap) (v : Int32) (p : PrintBuffer) : Except Stop PrintBuffer :=
  let text := signed v.toInt
  if 25 < text.length then .error .failed
  else do
    let p ← ensure heap p (text.length + 1)
    let p ← p.write (text ++ [0])
    return { p with offset := p.offset + text.length }

/-- The loop of `print_array`, from the current element on. -/
def printElements (heap : Heap) : List Int32 → PrintBuffer → Except Stop PrintBuffer
  | [], p => .ok p
  | [v], p => do
    let p ← printNumber heap v p
    updateOffset p
  | v :: w :: array, p => do
    let p ← printNumber heap v p
    let p ← updateOffset p
    let p ← ensure heap p 2
    let p ← p.write [44, 0]
    printElements heap (w :: array) { p with offset := p.offset + 1 }

/-- `print_array`. The bracket at the end is left to `update_offset`. -/
def printArray (heap : Heap) (array : List Int32) (p : PrintBuffer) :
    Except Stop PrintBuffer := do
  let p ← ensure heap p 1
  let p ← p.write [91]
  let p ← printElements heap array { p with offset := p.offset + 1 }
  let p ← ensure heap p 2
  p.write [93, 0]

/-- `print`, without formatting. -/
def print (heap : Heap) (array : List Int32) : Except Stop Bytes :=
  match heap 0 256 with
  | none => .error .failed
  | some memory => do
    let p ← printArray heap array ⟨(List.range 256).map memory, 0, 1⟩
    let p ← updateOffset p
    match heap p.requests (p.offset + 1) with
    | none => .error .failed
    | some memory => .ok (realloc p.buffer (p.offset + 1) memory)

/-- What is sent of a reply: the length in its header, and the content. -/
structure Sent where
  contentLength : ℕ
  content : Bytes
  deriving DecidableEq

/-- `SendJSON`. There is no string at `NULL`. -/
def sendJSON (heap : Heap) (array : List Int32) : Except Stop Sent :=
  match print heap array with
  | .error _ => .error .overrun
  | .ok jsonStr => do
    let n ← strlen jsonStr
    return ⟨n, jsonStr.take n⟩

/-! ### The text -/

/-- The elements of an array in JSON. -/
def elementsText (array : List Int32) : Bytes :=
  [44].intercalate (array.map fun v => signed v.toInt)

/-- The array in JSON. -/
def arrayText (array : List Int32) : Bytes := 91 :: elementsText array ++ [93]

/-- A digit, or a minus. -/
def isNumeral (c : UInt8) : Bool := c == 45 || isdigit c

theorem decimal_isdigit (n : ℕ) : ∀ c ∈ decimal n, isdigit c = true := by
  intro c hc
  rw [decimal] at hc
  split at hc
  · rw [List.mem_singleton.mp hc]
    decide
  · obtain ⟨d, hd, rfl⟩ := List.mem_map.mp hc
    have hlt : d < 10 := Nat.digits_lt_base (by decide) (List.mem_reverse.mp hd)
    have hall : ∀ d < 10, isdigit (UInt8.ofNat (48 + d)) = true := by decide
    exact hall d hlt

theorem signed_isNumeral (z : ℤ) : ∀ c ∈ signed z, isNumeral c = true := by
  intro c hc
  have hdigit : ∀ c ∈ decimal z.natAbs, isNumeral c = true := fun c hc => by
    rw [isNumeral, decimal_isdigit _ c hc, Bool.or_true]
  rw [signed] at hc
  split at hc
  · rcases List.mem_cons.mp hc with rfl | hc
    · rfl
    · exact hdigit c hc
  · exact hdigit c hc

/-- A character that is neither a digit nor a minus is not in a number. -/
theorem not_mem_signed {c : UInt8} (h : isNumeral c = false) (z : ℤ) : c ∉ signed z := by
  intro hc
  exact Bool.false_ne_true (h.symm.trans (signed_isNumeral z c hc))

theorem decimal_injective : Function.Injective decimal := by
  intro m n h
  have hread := congrArg (scanDigits 0) h
  rw [scanDigits_decimal, scanDigits_decimal] at hread
  exact (Prod.mk.inj hread).1

theorem signed_injective : Function.Injective signed := by
  have hhead : ∀ m n, decimal m ≠ 45 :: decimal n := by
    intro m n h
    have hdigit := decimal_isdigit m 45 (by rw [h]; exact List.mem_cons_self)
    exact absurd hdigit (by decide)
  intro y z h
  rw [signed, signed] at h
  split at h <;> split at h
  · have habs := decimal_injective (List.cons.inj h).2
    omega
  · exact absurd h.symm (hhead _ _)
  · exact absurd h (hhead _ _)
  · have habs := decimal_injective h
    omega

/-- No number is written as an empty text. -/
theorem signed_ne_nil (z : ℤ) : signed z ≠ [] := by
  obtain ⟨c, s, hcs, -⟩ := decimal_head z.natAbs
  rw [signed]
  split
  · exact List.cons_ne_nil _ _
  · rw [hcs]
    exact List.cons_ne_nil _ _

/-- An `int32_t` has ten digits at most. -/
theorem length_signed_le (v : Int32) : (signed v.toInt).length ≤ 11 := by
  have hdec : (decimal v.toInt.natAbs).length ≤ 10 := by
    have hlow := v.le_toInt
    have hhigh := v.toInt_lt
    rw [decimal]
    split
    · exact Nat.le_of_ble_eq_true rfl
    · rw [List.length_map, List.length_reverse, Nat.digits_length_le_iff (by decide)]
      omega
  rw [signed]
  split
  · rw [List.length_cons]
    omega
  · omega

theorem elementsText_cons_cons (v w : Int32) (array : List Int32) :
    elementsText (v :: w :: array) = signed v.toInt ++ 44 :: elementsText (w :: array) := by
  simp [elementsText, List.intercalate_cons_cons]

theorem elementsText_ne_nil (v : Int32) (array : List Int32) : elementsText (v :: array) ≠ [] := by
  intro h
  cases array with
  | nil =>
    rw [elementsText, List.map_singleton, List.intercalate_singleton] at h
    exact signed_ne_nil v.toInt h
  | cons w array =>
    rw [elementsText_cons_cons] at h
    exact signed_ne_nil v.toInt (List.append_eq_nil_iff.mp h).1

/-- The numbers are what is between the commas. -/
theorem splitOn_elementsText (v : Int32) (array : List Int32) :
    (elementsText (v :: array)).splitOn 44 = (v :: array).map fun v => signed v.toInt := by
  refine List.splitOn_intercalate 44 ?_ (List.cons_ne_nil _ _)
  intro t ht
  obtain ⟨v, -, rfl⟩ := List.mem_map.mp ht
  exact not_mem_signed (by decide) v.toInt

/-- **The array can be read off its text**: different arrays have different texts. -/
theorem arrayText_injective : Function.Injective arrayText := by
  intro a b h
  have helements : elementsText a = elementsText b :=
    (List.append_inj_left' (List.cons.inj h).2 rfl)
  cases a with
  | nil =>
    cases b with
    | nil => rfl
    | cons w b => exact absurd helements.symm (elementsText_ne_nil w b)
  | cons v a =>
    cases b with
    | nil => exact absurd helements (elementsText_ne_nil v a)
    | cons w b =>
      have hsplit := congrArg (List.splitOn 44) helements
      rw [splitOn_elementsText, splitOn_elementsText] at hsplit
      refine List.map_injective_iff.mpr (fun v w hvw => ?_) hsplit
      exact Int32.toInt_inj.mp (signed_injective hvw)

theorem length_elementsText_le (array : List Int32) :
    (elementsText array).length ≤ 12 * array.length := by
  induction array with
  | nil => exact Nat.le_refl 0
  | cons v array ih =>
    have hv := length_signed_le v
    cases array with
    | nil =>
      rw [elementsText, List.map_singleton, List.intercalate_singleton, List.length_singleton]
      omega
    | cons w array =>
      rw [elementsText_cons_cons, List.length_append, List.length_cons, List.length_cons]
      omega

/-! ### The buffer -/

variable {heap : Heap} {p : PrintBuffer} {s t : Bytes} {α β : Type} {reason : Prop}

/-- The function returns what is described, or it fails for the given reason. It does not
overrun the buffer. -/
def Gives (reason : Prop) (r : Except Stop α) (post : α → Prop) : Prop :=
  match r with
  | .ok a => post a
  | .error e => e = .failed ∧ reason

theorem Gives.mono {r : Except Stop α} {post post' : α → Prop} (h : Gives reason r post)
    (hpost : ∀ a, post a → post' a) : Gives reason r post' := by
  cases r with
  | error e => exact h
  | ok a => exact hpost a h

theorem Gives.bind {r : Except Stop α} {f : α → Except Stop β} {post : α → Prop}
    {post' : β → Prop} (h : Gives reason r post) (hf : ∀ a, post a → Gives reason (f a) post') :
    Gives reason (r >>= f) post' := by
  cases r with
  | error e => exact h
  | ok a => exact hf a h

/-- The text so far ends at the offset, and there is one byte more. -/
structure PrintBuffer.Holds (p : PrintBuffer) (s : Bytes) : Prop where
  offset : p.offset = s.length
  fits : s.length < p.buffer.length
  small : p.buffer.length ≤ intMax
  text : s <+: p.buffer

/-- Behind the text so far, a string has been written. -/
structure PrintBuffer.Ends (p : PrintBuffer) (s t : Bytes) : Prop extends p.Holds s where
  string : s ++ t ++ [0] <+: p.buffer
  nul : 0 ∉ t

/-- Some memory is refused that is not too much. -/
def Refuses (heap : Heap) : Prop := ∃ i, ∃ size ≤ intMax, heap i size = none

theorem realloc_length (buffer : Bytes) (size : ℕ) (memory : ℕ → UInt8) :
    (realloc buffer size memory).length = size := by
  rw [realloc, List.length_append, List.length_take, List.length_map, List.length_range]
  omega

/-- What is at the front is kept. -/
theorem prefix_realloc {buffer : Bytes} (h : s <+: buffer) {size : ℕ} (hsize : s.length ≤ size)
    (memory : ℕ → UInt8) : s <+: realloc buffer size memory :=
  ((List.prefix_take_iff.mpr ⟨h, hsize⟩).trans (List.prefix_append _ _))

/-- **`ensure`** makes room for the bytes that are needed and one more, unless that is more than
`INT_MAX`. -/
theorem gives_ensure (h : p.Holds s) {needed : ℕ} (hrefuses : Refuses heap → reason)
    (hlong : intMax < s.length + needed + 1 → reason) :
    Gives reason (ensure heap p needed)
      (fun q => q.Holds s ∧ s.length + needed + 1 ≤ q.buffer.length) := by
  have hlen := h.fits
  have hvalid : ¬ (0 < p.buffer.length ∧ p.buffer.length ≤ s.length) := by omega
  rw [ensure, h.offset, if_neg hvalid]
  split
  · next hneeded => exact ⟨rfl, hlong (by omega)⟩
  split
  · next hroom => exact ⟨h, by omega⟩
  split
  · next htotal => exact ⟨rfl, hlong (by omega)⟩
  · next htotal =>
    simp only
    generalize hnew : (if intMax / 2 < needed + s.length + 1 then intMax
      else (needed + s.length + 1) * 2) = newsize
    have hsize : needed + s.length + 1 ≤ newsize ∧ newsize ≤ intMax := by
      split at hnew <;> omega
    cases hheap : heap p.requests newsize with
    | none => exact ⟨rfl, hrefuses ⟨_, _, hsize.2, hheap⟩⟩
    | some memory =>
      have hlen' := realloc_length p.buffer newsize memory
      refine ⟨⟨rfl, ?_, ?_, prefix_realloc h.text (by omega) memory⟩, ?_⟩
      · show s.length < (realloc p.buffer newsize memory).length
        omega
      · exact hlen'.trans_le hsize.2
      · show s.length + needed + 1 ≤ (realloc p.buffer newsize memory).length
        omega

/-- What has been written stands behind the text. -/
theorem gives_write (h : p.Holds s) {w : Bytes} (hw : s.length + w.length ≤ p.buffer.length) :
    Gives reason (p.write w) (fun q => q.Holds s ∧ s ++ w <+: q.buffer ∧
      q.buffer.length = p.buffer.length) := by
  have hlen : (p.buffer.take s.length ++ w ++ p.buffer.drop (s.length + w.length)).length
      = p.buffer.length := by
    rw [List.length_append, List.length_append, List.length_take, List.length_drop]
    omega
  have htake : p.buffer.take s.length = s := (List.prefix_iff_eq_take.mp h.text).symm
  have hprefix : s ++ w <+: p.buffer.take s.length ++ w ++ p.buffer.drop (s.length + w.length) := by
    rw [htake]
    exact List.prefix_append _ _
  rw [PrintBuffer.write, h.offset, if_pos hw]
  exact ⟨⟨rfl, hlen.symm ▸ h.fits, hlen.symm ▸ h.small, (List.prefix_append s w).trans hprefix⟩,
    hprefix, hlen⟩

/-- The end of a string is found. -/
theorem strlen_eq {buffer : Bytes} (h : t ++ [0] <+: buffer) (hnul : 0 ∉ t) :
    strlen buffer = .ok t.length := by
  obtain ⟨rest, rfl⟩ := h
  have hmem : (0 : UInt8) ∈ t ++ [0] ++ rest := by simp
  have hall : ∀ c ∈ t, (c != 0) = true := fun c hc => by
    simpa using ne_of_mem_of_not_mem hc hnul
  rw [strlen, if_pos hmem, List.append_assoc, List.takeWhile_append_of_pos hall]
  simp

/-- **`update_offset`** goes to the end of the string, where its NUL is. -/
theorem gives_updateOffset (h : p.Ends s t) :
    Gives reason (updateOffset p) (fun q => q.Holds (s ++ t) ∧ s ++ t ++ [0] <+: q.buffer) := by
  obtain ⟨rest, hrest⟩ := h.string
  have hdrop : p.buffer.drop p.offset = t ++ [0] ++ rest := by
    rw [← hrest, h.offset, List.append_assoc, List.append_assoc, List.drop_left, List.append_assoc]
  have hlen := congrArg List.length hrest
  simp only [List.length_append, List.length_singleton] at hlen
  rw [updateOffset, hdrop, strlen_eq (List.prefix_append _ _) h.nul]
  refine ⟨⟨?_, ?_, h.small, ?_⟩, h.string⟩
  · show p.offset + t.length = (s ++ t).length
    rw [h.offset, List.length_append]
  · show (s ++ t).length < p.buffer.length
    rw [List.length_append]
    omega
  · exact (List.prefix_append (s ++ t) [0]).trans h.string

/-! ### Printing -/

/-- **A number is printed** behind the text, and a NUL behind it. -/
theorem gives_printNumber (h : p.Holds s) {v : Int32} (hrefuses : Refuses heap → reason)
    (hlong : intMax < s.length + (signed v.toInt).length + 2 → reason) :
    Gives reason (printNumber heap v p) (fun q => q.Ends (s ++ signed v.toInt) []) := by
  have hlen := length_signed_le v
  have hshort : ¬ 25 < (signed v.toInt).length := by omega
  simp only [printNumber, if_neg hshort]
  refine Gives.bind (gives_ensure h hrefuses fun hmax => hlong (by omega)) ?_
  rintro q ⟨hq, hroom⟩
  have hw : s.length + (signed v.toInt ++ [0]).length ≤ q.buffer.length := by
    rw [List.length_append, List.length_singleton]
    omega
  refine Gives.bind (gives_write hq hw) ?_
  rintro r ⟨hr, htext, hlen'⟩
  rw [← List.append_assoc] at htext
  refine ⟨⟨?_, ?_, hr.small, (List.prefix_append _ [0]).trans htext⟩, ?_, List.not_mem_nil⟩
  · show r.offset + (signed v.toInt).length = (s ++ signed v.toInt).length
    rw [hr.offset, List.length_append]
  · show (s ++ signed v.toInt).length < r.buffer.length
    rw [List.length_append]
    omega
  · rw [List.append_nil]
    exact htext

/-- **The elements are printed** behind the text, in the order of the list. -/
theorem gives_printElements (array : List Int32) (h : p.Holds s)
    (hrefuses : Refuses heap → reason)
    (hlong : intMax < s.length + (elementsText array).length + 3 → reason) :
    Gives reason (printElements heap array p) (fun q => q.Holds (s ++ elementsText array)) := by
  induction array generalizing p s with
  | nil =>
    show p.Holds (s ++ [])
    rwa [List.append_nil]
  | cons v array ih =>
    cases array with
    | nil =>
      have helements : elementsText [v] = signed v.toInt := by
        rw [elementsText, List.map_singleton, List.intercalate_singleton]
      rw [helements] at hlong ⊢
      refine Gives.bind (gives_printNumber h hrefuses fun hmax => hlong (by omega)) fun q hq => ?_
      refine (gives_updateOffset hq).mono fun q hq => ?_
      rw [List.append_nil] at hq
      exact hq.1
    | cons w array =>
      have hpos := List.length_pos_of_ne_nil (elementsText_ne_nil w array)
      rw [elementsText_cons_cons] at hlong ⊢
      rw [List.length_append, List.length_cons] at hlong
      refine Gives.bind (gives_printNumber h hrefuses fun hmax => hlong (by omega)) fun q hq => ?_
      refine Gives.bind (gives_updateOffset hq) ?_
      rintro q ⟨hq, -⟩
      rw [List.append_nil] at hq
      refine Gives.bind (gives_ensure hq hrefuses fun hmax => hlong ?_) ?_
      · rw [List.length_append] at hmax
        omega
      rintro q ⟨hq, hroom⟩
      refine Gives.bind (gives_write (w := [44, 0]) hq ?_) ?_
      · rw [List.length_cons, List.length_singleton]
        omega
      rintro q ⟨hq, htext, -⟩
      have hlen := htext.length_le
      simp only [List.length_append, List.length_cons, List.length_nil] at hlen
      -- the comma is counted, its NUL is not
      have hcomma : (⟨q.buffer, q.offset + 1, q.requests⟩ : PrintBuffer).Holds
          (s ++ signed v.toInt ++ [44]) := by
        refine ⟨?_, ?_, hq.small, ?_⟩
        · rw [List.length_append, ← hq.offset, List.length_singleton]
        · simp only [List.length_append, List.length_singleton]
          omega
        · refine List.IsPrefix.trans ?_ htext
          exact ⟨[0], by simp⟩
      have hrest := ih hcomma fun hmax => hlong (by
        simp only [List.length_append, List.length_singleton] at hmax
        omega)
      rw [List.append_assoc, List.append_assoc] at hrest
      rw [List.singleton_append] at hrest
      exact hrest

/-- **The array is printed**, with the bracket at its end behind the offset. -/
theorem gives_printArray (array : List Int32) (h : p.Holds [])
    (hrefuses : Refuses heap → reason) (hlong : intMax < (arrayText array).length + 2 → reason) :
    Gives reason (printArray heap array p)
      (fun q => q.Ends (91 :: elementsText array) [93] ∧
        (arrayText array).length + 2 ≤ q.buffer.length) := by
  have hlen : (arrayText array).length = (elementsText array).length + 2 := by
    rw [arrayText, List.length_append, List.length_cons, List.length_singleton]
  refine Gives.bind (gives_ensure h hrefuses fun hmax => absurd hmax (by decide)) ?_
  rintro q ⟨hq, hroom⟩
  refine Gives.bind (gives_write hq (Nat.le_of_succ_le hroom)) ?_
  rintro q ⟨hq, htext, hkept⟩
  have hopen : (⟨q.buffer, q.offset + 1, q.requests⟩ : PrintBuffer).Holds [91] := by
    refine ⟨?_, ?_, hq.small, htext⟩
    · rw [hq.offset]
      rfl
    · rw [hkept]
      exact hroom
  refine Gives.bind (gives_printElements array hopen hrefuses fun hmax => hlong ?_) fun q hq => ?_
  · rw [List.length_singleton] at hmax
    omega
  refine Gives.bind (gives_ensure hq hrefuses fun hmax => hlong ?_) ?_
  · rw [List.singleton_append, List.length_cons] at hmax
    omega
  rintro q ⟨hq, hroom⟩
  rw [List.singleton_append] at hq hroom
  rw [List.length_cons] at hroom
  refine (gives_write (w := [93, 0]) hq ?_).mono ?_
  · simp only [List.length_cons, List.length_nil]
    omega
  rintro r ⟨hr, htext, hkept⟩
  refine ⟨⟨hr, ?_, by decide⟩, ?_⟩
  · rwa [List.append_assoc]
  · rw [hlen, hkept]
    omega

/-- **What `print` returns**: the text and its NUL. -/
theorem gives_print (heap : Heap) (array : List Int32) :
    Gives (Refuses heap ∨ intMax < (arrayText array).length + 2) (print heap array)
      (fun text => text = arrayText array ++ [0] ∧ (arrayText array).length + 2 ≤ intMax) := by
  have hrefuses : ∀ i, ∀ size ≤ intMax, heap i size = none →
      Refuses heap ∨ intMax < (arrayText array).length + 2 :=
    fun i size hsize hheap => Or.inl ⟨i, size, hsize, hheap⟩
  rw [print]
  cases hheap : heap 0 256 with
  | none => exact ⟨rfl, hrefuses 0 256 (by decide) hheap⟩
  | some memory =>
    have hempty : (⟨(List.range 256).map memory, 0, 1⟩ : PrintBuffer).Holds [] := by
      have hlen : ((List.range 256).map memory).length = 256 := by
        rw [List.length_map, List.length_range]
      exact ⟨rfl, by rw [hlen]; decide, by rw [hlen]; decide, List.nil_prefix⟩
    refine Gives.bind (gives_printArray array hempty Or.inl Or.inr) ?_
    rintro q ⟨hq, hroom⟩
    have hsmall := hroom.trans hq.small
    refine Gives.bind (gives_updateOffset hq) ?_
    rintro q ⟨hq, htext⟩
    have hoffset : q.offset + 1 = (arrayText array ++ [0]).length := by
      rw [List.length_append, List.length_singleton, hq.offset]
      rfl
    have hsize : q.offset + 1 ≤ intMax := by
      rw [hoffset, List.length_append, List.length_singleton]
      omega
    cases hheap : heap q.requests (q.offset + 1) with
    | none => exact ⟨rfl, hrefuses _ _ hsize hheap⟩
    | some memory =>
      -- the buffer is cut behind the NUL
      have hprefix := prefix_realloc htext hoffset.ge memory
      refine ⟨(List.IsPrefix.eq_of_length hprefix ?_).symm, hsmall⟩
      rw [realloc_length, hoffset]
      rfl

/-- No NUL is in the text of an array. -/
theorem zero_not_mem_arrayText (array : List Int32) : 0 ∉ arrayText array := by
  have helements : ∀ array : List Int32, 0 ∉ elementsText array := by
    intro array
    induction array with
    | nil => exact List.not_mem_nil
    | cons v array ih =>
      have hv : 0 ∉ signed v.toInt := not_mem_signed (by decide) v.toInt
      cases array with
      | nil => rwa [elementsText, List.map_singleton, List.intercalate_singleton]
      | cons w array =>
        rw [elementsText_cons_cons, List.mem_append, List.mem_cons]
        rintro (hmem | hmem | hmem)
        · exact hv hmem
        · exact absurd hmem (by decide)
        · exact ih hmem
  rw [arrayText, List.mem_append, List.mem_cons, List.mem_singleton]
  rintro ((hmem | hmem) | hmem)
  · exact absurd hmem (by decide)
  · exact helements array hmem
  · exact absurd hmem (by decide)

/-- **A reply is sent as JSON, or there is no text**: the length in the header is that of the
text, and the array can be read off it; or printing fails, without an overrun, for memory that is
refused or a text that is longer than `INT_MAX` allows, which takes many numbers. -/
theorem reply_sent (heap : Heap) (array : List Int32) :
    (sendJSON heap array = .ok ⟨(arrayText array).length, arrayText array⟩ ∧
        (arrayText array).length + 2 ≤ intMax ∧
        ∀ other, arrayText other = arrayText array → other = array) ∨
      (print heap array = .error .failed ∧
        (Refuses heap ∨
          (intMax < (arrayText array).length + 2 ∧ 178956970 < array.length))) := by
  have hprint := gives_print heap array
  have hmany : intMax < (arrayText array).length + 2 → 178956970 < array.length := by
    intro hlong
    have hlen := length_elementsText_le array
    rw [arrayText, List.length_append, List.length_cons, List.length_singleton, intMax] at hlong
    omega
  cases htext : print heap array with
  | error e =>
    rw [htext] at hprint
    exact Or.inr ⟨congrArg Except.error hprint.1, hprint.2.imp_right fun h => ⟨h, hmany h⟩⟩
  | ok text =>
    rw [htext] at hprint
    obtain ⟨rfl, hsmall⟩ := hprint
    refine Or.inl ⟨?_, hsmall, fun other h => arrayText_injective h⟩
    have hstrlen := strlen_eq (List.prefix_refl _) (zero_not_mem_arrayText array)
    simp only [sendJSON, htext, hstrlen, bind, Except.bind, List.take_left]
    rfl

example : sendJSON (fun _ _ => some fun _ => 170) [-1, 0, 2147483647]
    = .ok ⟨17, "[-1,0,2147483647]".toUTF8.toList⟩ := by
  decide +kernel

/-- Without memory, `NULL` is read. -/
example : sendJSON (fun _ _ => none) [] = .error .overrun := by
  decide

end Vertex
