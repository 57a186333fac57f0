import Mathlib
import RngService.Lib.Bytes

/-!
# The parameters of a request

`CivetServer::urlEncode`, `urlDecode` and `getParam` of
`sourcecode/vertex-rng-1.0.1/CivetServer.cpp`, on byte strings, in the C locale. `getParam`
tries every position of the data as the start of a name.

`query` writes fields as a form sends them. What `getParam` reads from it is the value of
the field, byte for byte (`getParam_query`): an encoded value holds no separator, so names are
found at the starts of fields only, and decoding undoes the encoding.
-/

namespace Vertex

/-! ### Characters -/

/-- `isdigit` -/
def isdigit (c : UInt8) : Bool := 48 ≤ c && c ≤ 57

/-- `isupper` -/
def isupper (c : UInt8) : Bool := 65 ≤ c && c ≤ 90

/-- `islower` -/
def islower (c : UInt8) : Bool := 97 ≤ c && c ≤ 122

/-- `isalnum` -/
def isalnum (c : UInt8) : Bool := isdigit c || isupper c || islower c

/-- `tolower` -/
def tolower (c : UInt8) : UInt8 := if isupper c then c + 32 else c

/-- `isxdigit` -/
def isxdigit (c : UInt8) : Bool :=
  isdigit c || (65 ≤ c && c ≤ 70) || (97 ≤ c && c ≤ 102)

/-- `HEXTOI` -/
def hextoi (c : UInt8) : UInt8 := if isdigit c then c - 48 else c - 87

/-- The table `hex`. -/
def hex : Bytes := [48, 49, 50, 51, 52, 53, 54, 55, 56, 57, 97, 98, 99, 100, 101, 102]

/-- The table `dont_escape`, with the terminator that `strchr` finds in it. -/
def dontEscape : Bytes := [46, 95, 45, 36, 44, 59, 126, 40, 41, 0]

/-- `mg_strncasecmp(s1, s2, len) == 0` for strings of `len` bytes, the first without a
terminator. -/
def equalNoCase (s t : Bytes) : Bool := s.map tolower == t.map tolower

/-! ### The functions of CivetServer -/

/-- `urlEncode`, of one byte. -/
def urlEncodeByte (c : UInt8) : Bytes :=
  if isalnum c || dontEscape.contains c then [c]
  else [37, hex.getD (c >>> 4).toNat 0, hex.getD (c &&& 15).toNat 0]

/-- `urlEncode` -/
def urlEncode (src : Bytes) : Bytes := src.flatMap urlEncodeByte

/-- `urlDecode`. A `%` that two hexadecimal digits do not follow is kept. -/
def urlDecode (isFormUrlEncoded : Bool) : Bytes → Bytes
  | [] => []
  | 37 :: x :: y :: src =>
    if isxdigit x && isxdigit y then
      (hextoi (tolower x) <<< 4 ||| hextoi (tolower y)) :: urlDecode isFormUrlEncoded src
    else 37 :: urlDecode isFormUrlEncoded (x :: y :: src)
  | c :: src =>
    (if isFormUrlEncoded && c == 43 then 32 else c) :: urlDecode isFormUrlEncoded src

/-- The field of that name starts here: the name and `=`. -/
def fieldAt (name data : Bytes) : Bool :=
  data[name.length]? == some 61 && equalNoCase name (data.take name.length)

/-- The loop of `getParam` from a position on. The position is the first one or after a `&`
if `start` is set. -/
def getParamFrom (name : Bytes) : Bool → ℕ → Bytes → Option Bytes
  | _, _, [] => none
  | start, occurrence, c :: data =>
    if start && fieldAt name (c :: data) then
      match occurrence with
      | 0 => some (urlDecode true (((c :: data).drop (name.length + 1)).takeWhile (· != 38)))
      | occurrence + 1 => getParamFrom name (c == 38) occurrence data
    else getParamFrom name (c == 38) occurrence data

/-- `getParam`: the value of a field, decoded, or nothing. -/
def getParam (data name : Bytes) (occurrence : ℕ) : Option Bytes :=
  getParamFrom name true occurrence data

/-! ### Encoding -/

/-- A digit of the table reads back. -/
theorem hextoi_hex : ∀ n < 16, isxdigit (hex.getD n 0) = true ∧
    hextoi (tolower (hex.getD n 0)) = UInt8.ofNat n := by
  decide

/-- The two digits of a byte. -/
theorem byte_of_digits (c : UInt8) : UInt8.ofNat (c >>> 4).toNat <<< 4
    ||| UInt8.ofNat (c &&& 15).toNat = c := by
  have hall : ∀ n < 256, UInt8.ofNat (UInt8.ofNat n >>> 4).toNat <<< 4
      ||| UInt8.ofNat (UInt8.ofNat n &&& 15).toNat = UInt8.ofNat n := by
    decide +kernel
  have hc := hall c.toNat c.toNat_lt
  simpa only [UInt8.ofNat_toNat] using hc

/-- Neither `%` nor a separator is written as it is. -/
theorem ne_of_plain {c : UInt8} (h : (isalnum c || dontEscape.contains c) = true) :
    c ≠ 37 ∧ c ≠ 43 ∧ c ≠ 38 ∧ c ≠ 61 := by
  refine ⟨?_, ?_, ?_, ?_⟩ <;>
  · rintro rfl
    exact absurd h (by decide)

/-- A byte other than `%` and `+` is decoded to itself. -/
theorem urlDecode_cons {c : UInt8} (h37 : c ≠ 37) (h43 : c ≠ 43) (src : Bytes) :
    urlDecode true (c :: src) = c :: urlDecode true src := by
  rw [urlDecode]
  · simp [h43]
  · rintro x y rest rfl -
    exact h37 rfl

/-- **Decoding undoes the encoding of a byte**, whatever follows. -/
theorem urlDecode_urlEncodeByte (c : UInt8) (src : Bytes) :
    urlDecode true (urlEncodeByte c ++ src) = c :: urlDecode true src := by
  rw [urlEncodeByte]
  split
  · next hplain =>
    have hne := ne_of_plain hplain
    exact urlDecode_cons hne.1 hne.2.1 src
  · have hhigh : (c >>> 4).toNat < 16 := by
      rw [UInt8.toNat_shiftRight]
      have := c.toNat_lt
      simp [Nat.shiftRight_eq_div_pow]
      omega
    have hlow : (c &&& 15).toNat < 16 := by
      rw [UInt8.toNat_and]
      exact lt_of_le_of_lt Nat.and_le_right (by decide)
    obtain ⟨hx, hxval⟩ := hextoi_hex _ hhigh
    obtain ⟨hy, hyval⟩ := hextoi_hex _ hlow
    rw [List.cons_append, List.cons_append, List.cons_append, List.nil_append, urlDecode, hx, hy,
      hxval, hyval, byte_of_digits]
    rfl

/-- **Decoding undoes the encoding.** -/
theorem urlDecode_urlEncode (s : Bytes) : urlDecode true (urlEncode s) = s := by
  induction s with
  | nil => rfl
  | cons c s ih => rw [urlEncode, List.flatMap_cons, urlDecode_urlEncodeByte, ← urlEncode, ih]

/-- No separator is left in an encoded string. -/
theorem not_mem_urlEncode (s : Bytes) : 38 ∉ urlEncode s ∧ 61 ∉ urlEncode s := by
  have hhex : ∀ n, hex.getD n 0 ≠ 38 ∧ hex.getD n 0 ≠ 61 := by
    intro n
    by_cases hn : n < 16
    · have hall : ∀ n < 16, hex.getD n 0 ≠ 38 ∧ hex.getD n 0 ≠ 61 := by decide
      exact hall n hn
    · rw [List.getD_eq_default _ _ (not_lt.mp hn)]
      exact ⟨by decide, by decide⟩
  have hbyte : ∀ c, 38 ∉ urlEncodeByte c ∧ 61 ∉ urlEncodeByte c := by
    intro c
    rw [urlEncodeByte]
    split
    · next hplain =>
      have hne := ne_of_plain hplain
      exact ⟨by simpa using hne.2.2.1.symm, by simpa using hne.2.2.2.symm⟩
    · have hhigh := hhex (c >>> 4).toNat
      have hlow := hhex (c &&& 15).toNat
      refine ⟨?_, ?_⟩
      · simp only [List.mem_cons, List.not_mem_nil, hhigh.1.symm, hlow.1.symm, or_false]
        decide
      · simp only [List.mem_cons, List.not_mem_nil, hhigh.2.symm, hlow.2.symm, or_false]
        decide
  refine ⟨fun h => ?_, fun h => ?_⟩
  · obtain ⟨c, -, hc⟩ := List.mem_flatMap.mp h
    exact (hbyte c).1 hc
  · obtain ⟨c, -, hc⟩ := List.mem_flatMap.mp h
    exact (hbyte c).2 hc

/-! ### Fields -/

/-- A field of a form, as it is sent. -/
def writeField (f : Bytes × Bytes) : Bytes := f.1 ++ 61 :: urlEncode f.2

/-- The fields of a form, joined by `&`. -/
def query (fields : List (Bytes × Bytes)) : Bytes := [38].intercalate (fields.map writeField)

/-- A name without separators. -/
structure NameOk (name : Bytes) : Prop where
  ampersand : 38 ∉ name
  equals : 61 ∉ name

/-- The values of the fields of that name, up to the case of its letters. -/
def values (name : Bytes) (fields : List (Bytes × Bytes)) : List Bytes :=
  (fields.filter fun f => equalNoCase name f.1).map Prod.snd

variable {name tail : Bytes} {f : Bytes × Bytes} {occurrence : ℕ}

theorem not_mem_writeField (hf : NameOk f.1) : 38 ∉ writeField f := by
  intro h
  rcases List.mem_append.mp h with h | h
  · exact hf.ampersand h
  · rcases List.mem_cons.mp h with h | h
    · exact absurd h (by decide)
    · exact (not_mem_urlEncode f.2).1 h

theorem tolower_eq_equals {c : UInt8} (h : tolower c = 61) : c = 61 := by
  have hall : ∀ n < 256, tolower (UInt8.ofNat n) = 61 → UInt8.ofNat n = 61 := by decide +kernel
  have hc := hall c.toNat c.toNat_lt
  rw [UInt8.ofNat_toNat] at hc
  exact hc h

/-- **A field starts with its own name only.** -/
theorem fieldAt_writeField (hname : NameOk name) (hf : NameOk f.1) (tail : Bytes) :
    fieldAt name (writeField f ++ tail) = equalNoCase name f.1 := by
  have hdata : writeField f ++ tail = f.1 ++ 61 :: (urlEncode f.2 ++ tail) := by
    rw [writeField, List.append_assoc, List.cons_append]
  rw [hdata, Bool.eq_iff_iff, fieldAt, Bool.and_eq_true, beq_iff_eq]
  constructor
  · rintro ⟨hequals, hcase⟩
    have hlower := beq_iff_eq.mp hcase
    rcases lt_trichotomy name.length f.1.length with hlt | hlen | hlt
    · -- the name of the field goes on where the `=` should be
      rw [List.getElem?_append_left hlt] at hequals
      exact absurd (List.mem_of_getElem? hequals) hf.equals
    · rw [hlen, List.take_left] at hcase
      exact hcase
    · -- the `=` of the field is inside the name
      have hat := congrArg (fun l => l[f.1.length]?) hlower
      simp only [List.getElem?_map] at hat
      rw [List.getElem?_take_of_lt hlt, List.getElem?_append_right le_rfl, Nat.sub_self,
        List.getElem?_cons_zero, Option.map_some, Option.map_eq_some_iff] at hat
      obtain ⟨c, hc, hcase'⟩ := hat
      rw [tolower_eq_equals (hcase'.trans (by decide))] at hc
      exact absurd (List.mem_of_getElem? hc) hname.equals
  · intro hcase
    have hlen : name.length = f.1.length := by
      have hlower := congrArg List.length (beq_iff_eq.mp hcase)
      rwa [List.length_map, List.length_map] at hlower
    refine ⟨?_, ?_⟩
    · rw [hlen, List.getElem?_append_right le_rfl, Nat.sub_self, List.getElem?_cons_zero]
    · rw [hlen, List.take_left]
      exact hcase

theorem getParamFrom_cons (start : Bool) (c : UInt8) (data : Bytes) :
    getParamFrom name start occurrence (c :: data)
      = if start && fieldAt name (c :: data) then
          match occurrence with
          | 0 => some (urlDecode true (((c :: data).drop (name.length + 1)).takeWhile (· != 38)))
          | occurrence + 1 => getParamFrom name (c == 38) occurrence data
        else getParamFrom name (c == 38) occurrence data := by
  cases occurrence <;> rfl

/-- Inside a field no other one starts. -/
theorem getParamFrom_inside {t : Bytes} (ht : 38 ∉ t) (occurrence : ℕ) (tail : Bytes) :
    getParamFrom name false occurrence (t ++ tail) = getParamFrom name false occurrence tail := by
  induction t with
  | nil => rfl
  | cons c t ih =>
    rw [List.mem_cons, not_or] at ht
    have hc : (c == 38) = false := beq_false_of_ne (Ne.symm ht.1)
    rw [List.cons_append, getParamFrom_cons, Bool.false_and, if_neg Bool.false_ne_true, hc]
    exact ih ht.2

/-- A field that starts here is taken, or all of it is passed. -/
theorem getParamFrom_writeField (hname : NameOk name) (hf : NameOk f.1)
    (htail : tail.head? = none ∨ tail.head? = some 38) :
    getParamFrom name true occurrence (writeField f ++ tail)
      = if equalNoCase name f.1 then
          match occurrence with
          | 0 => some f.2
          | occurrence + 1 => getParamFrom name false occurrence tail
        else getParamFrom name false occurrence tail := by
  have hfield := fieldAt_writeField hname hf tail
  have hnot := not_mem_writeField hf
  obtain ⟨c, t, hct⟩ : ∃ c t, writeField f = c :: t := by
    cases h : writeField f with
    | nil => simp [writeField] at h
    | cons c t => exact ⟨c, t, rfl⟩
  rw [hct, List.mem_cons, not_or] at hnot
  have hc : (c == 38) = false := beq_false_of_ne (Ne.symm hnot.1)
  rw [hct, List.cons_append] at hfield ⊢
  rw [getParamFrom_cons, Bool.true_and, hfield, hc, getParamFrom_inside hnot.2]
  by_cases hcase : equalNoCase name f.1 = true
  · rw [if_pos hcase, if_pos hcase]
    cases occurrence with
    | zero =>
      -- the value ends where the field ends
      have hlen : name.length = f.1.length := by
        have hlower := congrArg List.length (beq_iff_eq.mp hcase)
        rwa [List.length_map, List.length_map] at hlower
      have hvalue : (c :: (t ++ tail)).drop (name.length + 1) = urlEncode f.2 ++ tail := by
        rw [← List.cons_append, ← hct, writeField, hlen, List.append_assoc, List.cons_append,
          ← List.drop_drop, List.drop_left]
        rfl
      have hend : (urlEncode f.2 ++ tail).takeWhile (· != 38) = urlEncode f.2 := by
        rw [List.takeWhile_append_of_pos fun b hb => by
          simpa using ne_of_mem_of_not_mem hb (not_mem_urlEncode f.2).1]
        cases tail with
        | nil => simp
        | cons b tail =>
          obtain rfl : b = 38 := by simpa using htail
          simp
      simp only [hvalue, hend, urlDecode_urlEncode]
    | succ occurrence => simp only [getParamFrom_inside hnot.2]
  · rw [if_neg hcase, if_neg hcase]

/-- **What `getParam` reads is what the form has sent**: for any fields with names without
separators and any values, it finds the value of each occurrence of a name, up to the case
of its letters, and nothing else. -/
theorem getParam_query (hname : NameOk name) {fields : List (Bytes × Bytes)}
    (hfields : ∀ f ∈ fields, NameOk f.1) (occurrence : ℕ) :
    getParam (query fields) name occurrence = (values name fields)[occurrence]? := by
  rw [getParam]
  induction fields generalizing occurrence with
  | nil => rfl
  | cons f fields ih =>
    obtain ⟨hf, hfields⟩ := List.forall_mem_cons.mp hfields
    -- behind the first field there is nothing, or a `&` and the other fields
    obtain ⟨tail, hquery, htail, hrest⟩ : ∃ tail, query (f :: fields) = writeField f ++ tail ∧
        (tail.head? = none ∨ tail.head? = some 38) ∧ ∀ occurrence,
          getParamFrom name false occurrence tail = (values name fields)[occurrence]? := by
      cases fields with
      | nil => exact ⟨[], by simp [query], .inl rfl, fun _ => rfl⟩
      | cons g fields =>
        refine ⟨38 :: query (g :: fields), by simp [query, List.intercalate], .inr rfl, fun k => ?_⟩
        rw [getParamFrom_cons, Bool.false_and, if_neg Bool.false_ne_true]
        exact ih hfields k
    rw [hquery, getParamFrom_writeField hname hf htail, values, List.filter_cons]
    split
    · cases occurrence with
      | zero => rfl
      | succ occurrence => exact hrest occurrence
    · exact hrest occurrence

/-- A value made of separators, under a name in capitals. -/
def mixedFields : List (Bytes × Bytes) :=
  [([109, 105, 110], [49]), ([77, 65, 88], [38, 61, 32, 43, 37])]

theorem getParam_query_mixed :
    getParam (query mixedFields) [109, 97, 120] 0 = some [38, 61, 32, 43, 37] := by
  have hok : ∀ f ∈ mixedFields, NameOk f.1 := by
    have hall : ∀ f ∈ mixedFields, 38 ∉ f.1 ∧ 61 ∉ f.1 := by decide +kernel
    exact fun f hf => ⟨(hall f hf).1, (hall f hf).2⟩
  exact (getParam_query ⟨by decide, by decide⟩ hok 0).trans (by decide +kernel)

end Vertex
