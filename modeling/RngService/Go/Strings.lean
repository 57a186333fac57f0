import Mathlib
import RngService.Go.Base
import RngService.Lib.Strip

/-!
# Strings and numbers of Go

The functions of `strings` and `strconv` that the configuration is read with. Numbers are
decimal, of 64 bits.

A string is trimmed byte by byte: the spaces are the UTF-8 encodings of the characters of
`unicode.IsSpace`. None of them is the start or the end of another one, so a string that
starts with the bytes of a space is decoded to one.
-/

namespace Strings

/-- The spaces of `unicode.IsSpace`. -/
def spaces : List Bytes := [
  -- tab, line feed, vertical tab, form feed, carriage return, space
  [0x09], [0x0A], [0x0B], [0x0C], [0x0D], [0x20],
  -- U+0085, U+00A0, U+1680
  [0xC2, 0x85], [0xC2, 0xA0], [0xE1, 0x9A, 0x80],
  -- U+2000 to U+200A
  [0xE2, 0x80, 0x80], [0xE2, 0x80, 0x81], [0xE2, 0x80, 0x82], [0xE2, 0x80, 0x83],
  [0xE2, 0x80, 0x84], [0xE2, 0x80, 0x85], [0xE2, 0x80, 0x86], [0xE2, 0x80, 0x87],
  [0xE2, 0x80, 0x88], [0xE2, 0x80, 0x89], [0xE2, 0x80, 0x8A],
  -- U+2028, U+2029, U+202F, U+205F, U+3000
  [0xE2, 0x80, 0xA8], [0xE2, 0x80, 0xA9], [0xE2, 0x80, 0xAF], [0xE2, 0x81, 0x9F],
  [0xE3, 0x80, 0x80]]

/-- The spaces as they are met from the end of a string. -/
def spacesBack : List Bytes := spaces.map List.reverse

/-- `strings.TrimSpace`: the spaces in front go first, then those at the end. -/
def trimSpace (s : GoString) : GoString :=
  (Strip.strip spacesBack (Strip.strip spaces s).reverse).reverse

/-- `strings.Split` at a byte. -/
def split (s : GoString) (sep : UInt8) : List GoString := s.splitOn sep

/-- `strings.SplitN` at a byte, into at most `n` parts. -/
def splitN (s : GoString) (sep : UInt8) : ℕ → List GoString
  | 0 => []
  | 1 => [s]
  | n + 2 =>
    match s.dropWhile (· ≠ sep) with
    | [] => [s]
    | _ :: rest => s.takeWhile (· ≠ sep) :: splitN rest sep (n + 1)

/-- `strings.Join` with a byte. -/
def join (parts : List GoString) (sep : UInt8) : GoString := [sep].intercalate parts

/-! ### Trimming -/

theorem spaces_prefixFree : Strip.PrefixFree spaces := ⟨by decide, by decide⟩

theorem spacesBack_prefixFree : Strip.PrefixFree spacesBack := ⟨by decide, by decide⟩

/-- A trimmed string is a part of the string. -/
theorem trimSpace_infix (s : GoString) : trimSpace s <:+: s := by
  have hfront : Strip.strip spaces s <:+ s := Strip.strip_suffix spaces_prefixFree.ne_nil s
  have hback : trimSpace s <+: Strip.strip spaces s := by
    rw [← List.reverse_suffix, trimSpace, List.reverse_reverse]
    exact Strip.strip_suffix spacesBack_prefixFree.ne_nil _
  exact hback.isInfix.trans hfront.isInfix

/-- **Trimming takes the spaces around a string away**, and no more. The byte `b`, which is in
no space, keeps the two ends of the string apart. -/
theorem trimSpace_pad {before after : List Bytes} (hbefore : ∀ w ∈ before, w ∈ spaces)
    (hafter : ∀ w ∈ after, w ∈ spaces) {front back : GoString} {b : UInt8}
    (hb : ∀ w ∈ spaces, b ∉ w) (hfront : ∀ w ∈ spaces, ¬ w <+: front)
    (hback : ∀ w ∈ spaces, ¬ w <:+ back) :
    trimSpace (before.flatten ++ (front ++ b :: back) ++ after.flatten) = front ++ b :: back := by
  have hleft : Strip.strip spaces (before.flatten ++ (front ++ b :: back) ++ after.flatten)
      = front ++ b :: (back ++ after.flatten) := by
    rw [List.append_assoc, List.append_assoc, List.cons_append]
    exact Strip.strip_append spaces_prefixFree hbefore (Strip.bare_append_cons hb hfront _)
  -- the rest is the same from the other end
  have hb' : ∀ w ∈ spacesBack, b ∉ w := by
    intro w hw
    obtain ⟨v, hv, rfl⟩ := List.mem_map.mp hw
    rw [List.mem_reverse]
    exact hb v hv
  have hback' : Strip.Bare spacesBack back.reverse := by
    intro w hw
    obtain ⟨v, hv, rfl⟩ := List.mem_map.mp hw
    rw [List.reverse_prefix]
    exact hback v hv
  have hafter' : ∀ w ∈ (after.map List.reverse).reverse, w ∈ spacesBack := by
    intro w hw
    obtain ⟨v, hv, rfl⟩ := List.mem_map.mp (List.mem_reverse.mp hw)
    exact List.mem_map_of_mem (hafter v hv)
  have hrev : (front ++ b :: (back ++ after.flatten)).reverse
      = (after.map List.reverse).reverse.flatten ++ (back.reverse ++ b :: front.reverse) := by
    simp [List.reverse_flatten]
  have hright := Strip.strip_append spacesBack_prefixFree hafter'
    (Strip.bare_append_cons hb' hback' front.reverse)
  rw [trimSpace, hleft, hrev, hright]
  simp

/-! ### Splitting -/

theorem splitN_two {key rest : GoString} {sep : UInt8} (hkey : sep ∉ key) :
    splitN (key ++ sep :: rest) sep 2 = [key, rest] := by
  have hall : ∀ c ∈ key, decide (c ≠ sep) = true :=
    fun c hc => decide_eq_true fun heq => hkey (heq ▸ hc)
  have hdrop : (key ++ sep :: rest).dropWhile (fun c => decide (c ≠ sep)) = sep :: rest := by
    rw [List.dropWhile_append_of_pos hall]
    simp
  have htake : (key ++ sep :: rest).takeWhile (fun c => decide (c ≠ sep)) = key := by
    rw [List.takeWhile_append_of_pos hall]
    simp
  rw [splitN, hdrop, htake]
  rfl

theorem splitN_of_not_mem {s : GoString} {sep : UInt8} (h : sep ∉ s) (n : ℕ) :
    splitN s sep (n + 2) = [s] := by
  have hnil : s.dropWhile (· ≠ sep) = [] :=
    List.dropWhile_eq_nil_iff.mpr fun c hc => decide_eq_true fun heq => h (heq ▸ hc)
  rw [splitN, hnil]

/-- **Splitting undoes joining** parts without the separator. -/
theorem split_join {parts : List GoString} {sep : UInt8} (hne : parts ≠ [])
    (hparts : ∀ part ∈ parts, sep ∉ part) : split (join parts sep) sep = parts :=
  List.splitOn_intercalate sep hparts hne

end Strings

namespace Strconv

/-- `strconv.ErrSyntax` -/
def errSyntax : GoError := .text "invalid syntax"

/-- `strconv.ErrRange` -/
def errRange : GoError := .text "value out of range"

/-- `strconv.NumError`: the function, the string it was given, and the reason. -/
def numError (fn : String) (num : GoString) (err : GoError) : GoError :=
  .wrap ("strconv." ++ fn ++ ": parsing %q: %w") [.str num] err

/-- The digits of a number below `2 ^ 64`, after `n`. It is out of range at the first digit that
makes it too large, whatever follows. -/
def parseDigits : ℕ → GoString → Except GoError ℕ
  | n, [] => .ok n
  | n, c :: s =>
    if c < 48 ∨ 57 < c then .error errSyntax
    else if 2 ^ 64 ≤ 10 * n + (c.toNat - 48) then .error errRange
    else parseDigits (10 * n + (c.toNat - 48)) s

/-- `strconv.ParseUint(s, 10, 64)` -/
def parseUint (s : GoString) : Except GoError UInt64 :=
  if s = [] then .error (numError "ParseUint" s errSyntax)
  else match parseDigits 0 s with
    | .error err => .error (numError "ParseUint" s err)
    | .ok n => .ok (UInt64.ofNat n)

/-- A number with an optional sign, for the function `fn`. -/
def parseSigned (fn : String) (s : GoString) : Except GoError Int64 :=
  let (neg, digits) := match s with
    | 43 :: t => (false, t)
    | 45 :: t => (true, t)
    | _ => (false, s)
  if digits = [] then .error (numError fn s errSyntax)
  else match parseDigits 0 digits with
    | .error err => .error (numError fn s err)
    | .ok n =>
      if neg then
        if 2 ^ 63 < n then .error (numError fn s errRange) else .ok (Int64.ofInt (-n))
      else if 2 ^ 63 ≤ n then .error (numError fn s errRange) else .ok (Int64.ofInt n)

/-- `strconv.ParseInt(s, 10, 64)` -/
def parseInt (s : GoString) : Except GoError Int64 := parseSigned "ParseInt" s

/-- `strconv.Atoi` -/
def atoi (s : GoString) : Except GoError Int64 := parseSigned "Atoi" s

example : parseInt [45, 49, 48] = .ok (-10) := by decide

end Strconv
