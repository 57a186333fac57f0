import Mathlib
import RngService.Lib.Bytes

/-!
# The vocabulary of the Go sources

Strings, errors, clock readings and `encoding/hex`, as far as the service uses
them.

* A `GoString` is any byte string: Go strings need not be valid UTF-8, and
  `len` counts bytes.
* A `GoError` keeps the text or format and the arguments of the call that made
  it, so two errors are equal when the same line of the source made them from
  the same values. `wrap` is `fmt.Errorf` with a final `%w`.
* A `Time` is a number of nanoseconds since the Unix epoch.
-/

/-- A Go string: a byte string. -/
abbrev GoString := Bytes

/-- A formatting argument of an error. -/
inductive GoArg
  | str (s : GoString)
  | int (n : ℤ)
  deriving DecidableEq, Repr

/-- A Go `error`. -/
inductive GoError
  /-- `errors.New(text)` -/
  | text (text : String)
  /-- `fmt.Errorf(format, args...)` -/
  | errorf (format : String) (args : List GoArg)
  /-- `fmt.Errorf(format, args..., cause)`, the format ending in `%w` -/
  | wrap (format : String) (args : List GoArg) (cause : GoError)
  deriving DecidableEq, Repr

/-- An instant, in nanoseconds since the Unix epoch. -/
abbrev Time := ℤ

/-- `t.UnixNano()`: the instant as an `int64`, wrapping outside the years 1678 to
2262. -/
def Time.unixNano (t : Time) : Int64 := Int64.ofInt t

/-- `t.Unix()`: whole seconds since the Unix epoch. -/
def Time.unix (t : Time) : ℤ := t / 1000000000

namespace Hex

/-! ### `encoding/hex` -/

/-- The lower-case digit of a number below 16. -/
def digit (n : ℕ) : UInt8 := if n < 10 then UInt8.ofNat (48 + n) else UInt8.ofNat (87 + n)

/-- `hex.EncodeToString`: two lower-case digits for each byte. -/
def encodeToString (b : Bytes) : GoString :=
  b.flatMap fun x => [digit (x.toNat / 16), digit (x.toNat % 16)]

/-- The value of a hexadecimal digit of either case. -/
def fromHexChar (c : UInt8) : Option ℕ :=
  if 48 ≤ c ∧ c ≤ 57 then some (c.toNat - 48)
  else if 97 ≤ c ∧ c ≤ 102 then some (c.toNat - 87)
  else if 65 ≤ c ∧ c ≤ 70 then some (c.toNat - 55)
  else none

/-- `hex.InvalidByteError` -/
def invalidByte (c : UInt8) : GoError := .errorf "encoding/hex: invalid byte: %#U" [.int c.toNat]

/-- `hex.ErrLength` -/
def errLength : GoError := .text "encoding/hex: odd length hex string"

/-- `hex.DecodeString`: an offending digit is reported before an odd length. -/
def decodeString : GoString → Except GoError Bytes
  | [] => .ok []
  | [a] => if fromHexChar a = none then .error (invalidByte a) else .error errLength
  | a :: b :: rest =>
    match fromHexChar a, fromHexChar b with
    | some hi, some lo => (decodeString rest).map (UInt8.ofNat (16 * hi + lo) :: ·)
    | some _, none => .error (invalidByte b)
    | none, _ => .error (invalidByte a)

theorem fromHexChar_digit : ∀ {n : ℕ}, n < 16 → fromHexChar (digit n) = some n := by
  decide

@[simp] theorem length_encodeToString (b : Bytes) : (encodeToString b).length = 2 * b.length := by
  induction b with
  | nil => rfl
  | cons x xs ih =>
    rw [encodeToString, List.flatMap_cons, ← encodeToString, List.length_append, ih]
    simp only [List.length_cons, List.length_nil]
    omega

/-- **Decoding undoes encoding.** -/
@[simp] theorem decodeString_encodeToString (b : Bytes) :
    decodeString (encodeToString b) = .ok b := by
  induction b with
  | nil => rfl
  | cons x xs ih =>
    have hhi : x.toNat / 16 < 16 := by have := x.toNat_lt; omega
    have hx : UInt8.ofNat (16 * (x.toNat / 16) + x.toNat % 16) = x := by
      rw [Nat.div_add_mod, UInt8.ofNat_toNat]
    rw [encodeToString, List.flatMap_cons, ← encodeToString, List.cons_append, List.cons_append,
      List.nil_append, decodeString, fromHexChar_digit hhi,
      fromHexChar_digit (Nat.mod_lt _ (by decide))]
    simp only [ih, hx]
    rfl

end Hex
