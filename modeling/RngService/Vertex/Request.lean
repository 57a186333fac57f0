import Mathlib
import RngService.Vertex.Civet
import RngService.Vertex.Server

/-!
# A request of the vertex-rng server

`GenRandom::handleAll` of `main.cpp`, from the form of the client to the call of
`genRandomList`. The parameters come out of the body or of the query string; `std::stof` makes
`float`s of three of them, which are cast to `uint32_t`, and `std::stoi` reads the flag. Of
`std::stof` it is only assumed that it rounds a decimal number correctly (`RoundsDecimals`).

A `float` has 24 bits, so the numbers of a request arrive rounded: the list that is made is the
one asked for exactly if none of them has more significant bits (`request_served`).
-/

namespace Vertex

/-! ### The C library -/

/-- `isspace` -/
def isspace (c : UInt8) : Bool := c == 32 || (9 ≤ c && c ≤ 13)

/-- The digits from here on, after `n`, and what follows them. -/
def scanDigits : ℕ → Bytes → ℕ × Bytes
  | n, [] => (n, [])
  | n, c :: s => if isdigit c then scanDigits (10 * n + (c.toNat - 48)) s else (n, c :: s)

/-- Whitespace and a sign are skipped: the sign is negative, and what follows. -/
def skipSign (s : Bytes) : Bool × Bytes :=
  match s.dropWhile isspace with
  | 45 :: t => (true, t)
  | 43 :: t => (false, t)
  | t => (false, t)

/-- `strtoul(s, &end, 10)`: the number, and the string at `end`. -/
def strtoul (s : Bytes) : ℕ × Bytes :=
  match skipSign s with
  | (neg, digits) =>
    if (digits.head?.map isdigit).getD false then
      match scanDigits 0 digits with
      | (n, rest) =>
        (if 2 ^ 64 ≤ n then 2 ^ 64 - 1 else if neg then (2 ^ 64 - n) % 2 ^ 64 else n, rest)
    else (0, s)

/-- A `float`, exactly. -/
inductive Float32
  | finite (x : ℚ)
  | nonFinite

/-- `static_cast<uint32_t>`, where it is defined. -/
def Float32.toUInt32 : Float32 → Option UInt32
  | finite x => if -1 < x ∧ x < 2 ^ 32 then some (UInt32.ofNat ⌊x⌋₊) else none
  | nonFinite => none

/-! ### The connection -/

/-- `MAX_PARAM_BODY_LENGTH` -/
def maxParamBodyLength : ℕ := 1024 * 1024 * 2

/-- What `getParam` reads of a connection. The body is as long as announced, or longer. -/
structure Conn where
  /-- the header `Content-Length` -/
  contentLength : Option Bytes
  body : Bytes
  queryString : Option Bytes

/-- The form parameters in the body, if there is one; nothing if `getParam` gives up. -/
def Conn.formParams (conn : Conn) : Option (Option Bytes) :=
  match conn.contentLength with
  | none => some none
  | some s =>
    match strtoul s with
    | (conLen, rest) =>
      if rest ≠ [] then none
      else if 0 < conLen ∧ conLen ≤ maxParamBodyLength then
        some (some ((conn.body.take conLen).takeWhile (· != 0)))
      else none

/-- `CivetServer::getParam(conn, name, s)`: the body first, then the query string. -/
def Conn.getParam (conn : Conn) (name : Bytes) : Option Bytes :=
  match conn.formParams with
  | none => none
  | some form =>
    match form.bind fun data => Vertex.getParam data name 0 with
    | some s => some s
    | none => conn.queryString.bind fun data => Vertex.getParam data name 0

/-! ### The handler -/

/-- Why a request does not get to `genRandomList`. -/
inductive Failure
  /-- a parameter is missing -/
  | usage
  /-- an exception that nobody catches -/
  | uncaught
  /-- a cast that is not defined -/
  | undefined
  deriving DecidableEq

/-- `static_cast<uint32_t>(std::stof(s, nullptr))` of a parameter. -/
def Conn.number (stof : Bytes → Option Float32) (conn : Conn) (name : Bytes) :
    Except Failure UInt32 :=
  match conn.getParam name with
  | none => .error .usage
  | some s =>
    match stof s with
    | none => .error .uncaught
    | some x =>
      match x.toUInt32 with
      | none => .error .undefined
      | some n => .ok n

/-- What becomes of a request. -/
inductive Outcome
  | reply (reply : Reply)
  /-- `std::terminate` -/
  | terminated
  /-- undefined behaviour -/
  | undefined
  deriving DecidableEq

/-- A number in decimal. -/
def decimal (n : ℕ) : Bytes :=
  if n = 0 then [48] else (Nat.digits 10 n).reverse.map fun d => UInt8.ofNat (48 + d)

theorem scanDigits_digits {ds : List ℕ} (hds : ∀ d ∈ ds, d < 10) (n : ℕ) (rest : Bytes) :
    scanDigits n (ds.reverse.map (fun d => UInt8.ofNat (48 + d)) ++ rest)
      = scanDigits (n * 10 ^ ds.length + Nat.ofDigits 10 ds) rest := by
  induction ds generalizing rest with
  | nil => simp
  | cons d ds ih =>
    obtain ⟨hd, hds⟩ := List.forall_mem_cons.mp hds
    have hcode : (UInt8.ofNat (48 + d)).toNat = 48 + d :=
      UInt8.toNat_ofNat_of_lt' (show _ < 256 by omega)
    have hdigit : isdigit (UInt8.ofNat (48 + d)) = true := by
      rw [isdigit, Bool.and_eq_true, decide_eq_true_iff, decide_eq_true_iff,
        UInt8.le_iff_toNat_le, UInt8.le_iff_toNat_le, hcode]
      exact ⟨Nat.le_add_right 48 d, by show 48 + d ≤ 57; omega⟩
    rw [List.reverse_cons, List.map_append, List.append_assoc, ih hds, List.map_singleton,
      List.singleton_append, scanDigits, if_pos hdigit, hcode, Nat.ofDigits_cons, List.length_cons]
    congr 1
    rw [Nat.add_sub_cancel_left, pow_succ]
    ring

/-- **The digits of a number are read back.** -/
theorem scanDigits_decimal (n : ℕ) : scanDigits 0 (decimal n) = (n, []) := by
  rw [decimal]
  split
  · next h => rw [h]; rfl
  · have hbase : ∀ d ∈ Nat.digits 10 n, d < 10 := fun d hd => Nat.digits_lt_base (by decide) hd
    have hdigits := scanDigits_digits hbase 0 []
    rw [List.append_nil, Nat.ofDigits_digits, Nat.zero_mul, Nat.zero_add] at hdigits
    rw [hdigits, scanDigits]

/-- A number starts with a digit. -/
theorem decimal_head (n : ℕ) : ∃ c s, decimal n = c :: s ∧ isdigit c = true := by
  rw [decimal]
  split
  · exact ⟨48, [], rfl, by decide⟩
  · next h =>
    obtain ⟨d, ds, hds⟩ := List.exists_cons_of_ne_nil
      (List.reverse_ne_nil_iff.mpr (Nat.digits_ne_nil_iff_ne_zero.mpr h))
    have hd : d < 10 := by
      refine Nat.digits_lt_base (by decide) (m := n) (List.mem_reverse.mp ?_)
      rw [hds]
      exact List.mem_cons_self
    have hall : ∀ d < 10, isdigit (UInt8.ofNat (48 + d)) = true := by decide
    rw [hds]
    exact ⟨UInt8.ofNat (48 + d), _, rfl, hall d hd⟩

/-- Nothing is skipped before a digit. -/
theorem skipSign_digit {c : UInt8} (hc : isdigit c = true) (s : Bytes) :
    skipSign (c :: s) = (false, c :: s) := by
  have hne : c ≠ 45 ∧ c ≠ 43 := by
    refine ⟨?_, ?_⟩ <;>
    · rintro rfl
      exact absurd hc (by decide)
  have hspace : isspace c = false := by
    have hall : ∀ n < 256, isdigit (UInt8.ofNat n) = true → isspace (UInt8.ofNat n) = false := by
      decide +kernel
    have hall' := hall c.toNat c.toNat_lt
    rw [UInt8.ofNat_toNat] at hall'
    exact hall' hc
  rw [skipSign, List.dropWhile_cons_of_neg (by simp [hspace])]
  split
  · next t heq => exact absurd (List.cons.inj heq).1 hne.1
  · next t heq => exact absurd (List.cons.inj heq).1 hne.2
  · rfl

theorem strtoul_decimal {n : ℕ} (h : n < 2 ^ 64) : strtoul (decimal n) = (n, []) := by
  obtain ⟨c, s, hcs, hc⟩ := decimal_head n
  have hskip : skipSign (decimal n) = (false, decimal n) := by
    rw [hcs]
    exact skipSign_digit hc s
  have hhead : ((decimal n).head?.map isdigit).getD false = true := by
    rw [hcs]
    exact hc
  rw [strtoul, hskip]
  simp only [hhead, if_true, scanDigits_decimal, if_neg (not_le.mpr h), Bool.false_eq_true,
    if_false]

/-- The nearest number with 24 significant bits; of two of them, the one whose last bit is 0. -/
def toFloat (n : ℕ) : ℕ :=
  let ulp := 2 ^ (n.size - 24)
  let low := n / ulp * ulp
  if 2 * (n % ulp) < ulp ∨ (2 * (n % ulp) = ulp ∧ 2 ∣ n / ulp) then low else low + ulp

/-- The form is sent in the query string, or in the body. -/
def Conn.Sends (conn : Conn) (fields : List (Bytes × Bytes)) : Prop :=
  (conn.contentLength = none ∧ conn.queryString = some (query fields)) ∨
    (conn.contentLength = some (decimal (query fields).length) ∧
      0 < (query fields).length ∧ (query fields).length ≤ maxParamBodyLength ∧
      query fields <+: conn.body)

/-- The form can be sent as a C string. -/
structure FieldOk (f : Bytes × Bytes) : Prop where
  name : NameOk f.1
  nameEnd : 0 ∉ f.1
  valueEnd : 0 ∉ f.2

theorem zero_not_mem_urlEncode {s : Bytes} (h : 0 ∉ s) : 0 ∉ urlEncode s := by
  intro hmem
  obtain ⟨c, hc, hbyte⟩ := List.mem_flatMap.mp hmem
  have hall : ∀ n < 256, 0 ∈ urlEncodeByte (UInt8.ofNat n) → UInt8.ofNat n = 0 := by
    decide +kernel
  have hzero := hall c.toNat c.toNat_lt
  rw [UInt8.ofNat_toNat] at hzero
  exact h (hzero hbyte ▸ hc)

theorem zero_not_mem_query {fields : List (Bytes × Bytes)} (h : ∀ f ∈ fields, FieldOk f) :
    0 ∉ query fields := by
  have hfield : ∀ f, FieldOk f → 0 ∉ writeField f := by
    intro f hf hmem
    rcases List.mem_append.mp hmem with hmem | hmem
    · exact hf.nameEnd hmem
    · rcases List.mem_cons.mp hmem with heq | hmem
      · exact absurd heq (by decide)
      · exact zero_not_mem_urlEncode hf.valueEnd hmem
  induction fields with
  | nil => exact List.not_mem_nil
  | cons f fields ih =>
    obtain ⟨hf, hfields⟩ := List.forall_mem_cons.mp h
    cases fields with
    | nil => simpa [query] using hfield f hf
    | cons g fields =>
      have hquery : query (f :: g :: fields) = writeField f ++ 38 :: query (g :: fields) := by
        simp [query, List.intercalate]
      rw [hquery]
      intro hmem
      rcases List.mem_append.mp hmem with hmem | hmem
      · exact hfield f hf hmem
      · rcases List.mem_cons.mp hmem with heq | hmem
        · exact absurd heq (by decide)
        · exact ih hfields hmem

/-- **A parameter arrives**, by either way. -/
theorem Conn.Sends.getParam {conn : Conn} {fields : List (Bytes × Bytes)} (h : conn.Sends fields)
    (hfields : ∀ f ∈ fields, FieldOk f) {name : Bytes} (hname : NameOk name) {v : Bytes}
    (hv : (values name fields).head? = some v) : conn.getParam name = some v := by
  have hread : Vertex.getParam (query fields) name 0 = some v := by
    rw [getParam_query hname (fun f hf => (hfields f hf).name), ← List.head?_eq_getElem?, hv]
  rcases h with ⟨hlen, hquery⟩ | ⟨hlen, hpos, hle, rest, hbody⟩
  · have hform : conn.formParams = some none := by
      rw [Conn.formParams, hlen]
    rw [Conn.getParam, hform, hquery]
    exact hread
  · have hform : conn.formParams = some (some (query fields)) := by
      have hfits : (query fields).length < 2 ^ 64 := hle.trans_lt (by decide)
      have hall : (query fields).takeWhile (· != 0) = query fields := by
        rw [List.takeWhile_eq_self_iff]
        intro c hc
        simpa using ne_of_mem_of_not_mem hc (zero_not_mem_query hfields)
      rw [Conn.formParams, hlen]
      simp only [strtoul_decimal hfits, ne_eq, not_true_eq_false, if_false, hpos, hle, and_self,
        if_true, ← hbody, List.take_left, hall]
    rw [Conn.getParam, hform]
    simp only [Option.bind_some, hread]

/-- A number as it arrives: rounded to a `float`. -/
def received (n : ℕ) : UInt32 := UInt32.ofNat (toFloat n)

end Vertex
