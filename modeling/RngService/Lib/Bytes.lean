import Mathlib

/-!
# Byte strings and big-endian integers

The byte-level vocabulary of the development: byte strings, fixed-width byte
arrays, and the big-endian reading `beNat` and writing `beBytes` of natural
numbers. The two are inverse to each other at a fixed width
(`beNat_beBytes`, `beBytes_beNat`), and reading is compatible with
concatenation (`beNat_append`), which is what turns a carry between two
half-words into one carry of the whole word.

A length-prefixed layout is decoded by `List.append_inj`, as a field of known width
splits off uniquely, and by `flatMap_inj_of_length`, as a run of equally wide records
determines its records.
-/

abbrev Bytes := List UInt8

/-- A byte array of fixed width `k`. -/
abbrev ByteVec (k : ℕ) := {b : Bytes // b.length = k}

namespace Bytes

/-! ### Big-endian integers -/

/-- The number a byte string denotes, most significant byte first. -/
def beNat : Bytes → ℕ
  | [] => 0
  | x :: xs => x.toNat * 256 ^ xs.length + beNat xs

/-- The `k` low-order bytes of `n`, most significant byte first. -/
def beBytes : ℕ → ℕ → Bytes
  | 0, _ => []
  | k + 1, n => UInt8.ofNat (n / 256 ^ k) :: beBytes k n

@[simp] theorem beNat_nil : beNat [] = 0 := rfl

@[simp] theorem length_beBytes (k n : ℕ) : (beBytes k n).length = k := by
  induction k with
  | zero => rfl
  | succ k ih => simp [beBytes, ih]

theorem beNat_lt (b : Bytes) : beNat b < 256 ^ b.length := by
  induction b with
  | nil => simp
  | cons x xs ih =>
    have hx : x.toNat + 1 ≤ 256 := x.toNat_lt
    calc x.toNat * 256 ^ xs.length + beNat xs
        < (x.toNat + 1) * 256 ^ xs.length := by rw [Nat.add_mul, Nat.one_mul]; omega
      _ ≤ 256 * 256 ^ xs.length := Nat.mul_le_mul_right _ hx
      _ = 256 ^ (x :: xs).length := by rw [List.length_cons, Nat.pow_succ, Nat.mul_comm]

theorem beNat_append (a b : Bytes) :
    beNat (a ++ b) = beNat a * 256 ^ b.length + beNat b := by
  induction a with
  | nil => simp
  | cons x xs ih =>
    simp only [List.cons_append, beNat, ih, List.length_append, Nat.pow_add]
    ring

theorem beNat_beBytes (k n : ℕ) : beNat (beBytes k n) = n % 256 ^ k := by
  induction k with
  | zero => simp [beBytes, Nat.mod_one]
  | succ k ih =>
    have hx : (UInt8.ofNat (n / 256 ^ k)).toNat = n / 256 ^ k % 256 := UInt8.toNat_ofNat'
    rw [beBytes, beNat, length_beBytes, ih, hx, Nat.pow_succ, Nat.mod_mul, Nat.mul_comm]
    exact Nat.add_comm _ _

theorem beBytes_mod (k n : ℕ) {m : ℕ} (h : k ≤ m) : beBytes k (n % 256 ^ m) = beBytes k n := by
  induction k with
  | zero => rfl
  | succ k ih =>
    rw [beBytes, beBytes, ih (by omega)]
    congr 1
    apply UInt8.toNat_inj.mp
    rw [UInt8.toNat_ofNat', UInt8.toNat_ofNat']
    obtain ⟨d, rfl⟩ : ∃ d, m = k + 1 + d := ⟨m - (k + 1), by omega⟩
    have h1 : 256 ^ (k + 1 + d) = 256 ^ k * (256 * 256 ^ d) := by ring
    rw [h1, Nat.mod_mul_right_div_self, Nat.mod_mod_of_dvd _ (Dvd.intro _ rfl)]

theorem beBytes_beNat (b : Bytes) : beBytes b.length (beNat b) = b := by
  induction b with
  | nil => rfl
  | cons x xs ih =>
    have hlt := beNat_lt xs
    have hdiv : (x.toNat * 256 ^ xs.length + beNat xs) / 256 ^ xs.length = x.toNat := by
      rw [Nat.mul_comm, Nat.mul_add_div (Nat.pow_pos (by decide)), Nat.div_eq_of_lt hlt,
        Nat.add_zero]
    have hmod : (x.toNat * 256 ^ xs.length + beNat xs) % 256 ^ xs.length = beNat xs := by
      rw [Nat.mul_comm, Nat.mul_add_mod, Nat.mod_eq_of_lt hlt]
    rw [List.length_cons, beBytes, beNat, hdiv, UInt8.ofNat_toNat, ← beBytes_mod _ _ le_rfl, hmod,
      ih]

/-- Writing is injective on the numbers that fit the width. -/
theorem beBytes_inj {k m n : ℕ} (hm : m < 256 ^ k) (hn : n < 256 ^ k)
    (h : beBytes k m = beBytes k n) : m = n := by
  have h' := congrArg beNat h
  rwa [beNat_beBytes, beNat_beBytes, Nat.mod_eq_of_lt hm, Nat.mod_eq_of_lt hn] at h'

/-! ### The fixed-width integers of `encoding/binary` -/

/-- `binary.BigEndian.Uint64`. -/
def uint64 (b : Bytes) : UInt64 := UInt64.ofNat (beNat (b.take 8))

/-- The eight bytes written by `binary.BigEndian.PutUint64`. -/
def putUint64 (x : UInt64) : Bytes := beBytes 8 x.toNat

/-- The four bytes written by `binary.BigEndian.PutUint32`. -/
def putUint32 (x : UInt32) : Bytes := beBytes 4 x.toNat

@[simp] theorem length_putUint64 (x : UInt64) : (putUint64 x).length = 8 := length_beBytes _ _

@[simp] theorem length_putUint32 (x : UInt32) : (putUint32 x).length = 4 := length_beBytes _ _

theorem putUint64_inj {x y : UInt64} (h : putUint64 x = putUint64 y) : x = y :=
  UInt64.toNat_inj.mp (beBytes_inj x.toNat_lt y.toNat_lt h)

theorem putUint32_inj {x y : UInt32} (h : putUint32 x = putUint32 y) : x = y :=
  UInt32.toNat_inj.mp (beBytes_inj x.toNat_lt y.toNat_lt h)

theorem uint64_toNat {b : Bytes} (h : b.length = 8) : (uint64 b).toNat = beNat b := by
  have hlt : beNat b < 2 ^ 64 := by
    have h' := beNat_lt b
    rwa [h] at h'
  rw [uint64, List.take_of_length_le h.le, UInt64.toNat_ofNat', Nat.mod_eq_of_lt hlt]

@[simp] theorem uint64_putUint64 (x : UInt64) : uint64 (putUint64 x) = x := by
  apply UInt64.toNat_inj.mp
  rw [uint64_toNat (length_putUint64 x), putUint64, beNat_beBytes]
  exact Nat.mod_eq_of_lt x.toNat_lt

/-! ### Splitting a layout -/

/-- A run of records of one positive width, written by an injective writer,
determines the records when their number is known. -/
theorem flatMap_inj_of_length {α : Type} {w : ℕ} {f : α → Bytes} (hw : ∀ a, (f a).length = w)
    (hf : ∀ a b, f a = f b → a = b) :
    ∀ {l₁ l₂ : List α} {x y : Bytes}, l₁.length = l₂.length →
      l₁.flatMap f ++ x = l₂.flatMap f ++ y → l₁ = l₂ ∧ x = y := by
  intro l₁
  induction l₁ with
  | nil =>
    intro l₂ x y hl h
    obtain rfl : l₂ = [] := List.length_eq_zero_iff.mp hl.symm
    exact ⟨rfl, h⟩
  | cons a l₁ ih =>
    intro l₂ x y hl h
    cases l₂ with
    | nil => simp at hl
    | cons b l₂ =>
      rw [List.flatMap_cons, List.flatMap_cons, List.append_assoc, List.append_assoc] at h
      obtain ⟨hab, hrest⟩ := List.append_inj h ((hw a).trans (hw b).symm)
      obtain ⟨hl', hxy⟩ := ih (by simpa using hl) hrest
      exact ⟨by rw [hf a b hab, hl'], hxy⟩

/-! ### Fixed-width arrays -/

/-- The bytewise XOR of two arrays. -/
def xor {k : ℕ} (a b : ByteVec k) : ByteVec k :=
  ⟨List.zipWith (· ^^^ ·) a.1 b.1, by rw [List.length_zipWith, a.2, b.2, Nat.min_self]⟩

theorem zipWith_xor_cancel {a b : Bytes} (h : b.length = a.length) :
    List.zipWith (· ^^^ ·) a (List.zipWith (· ^^^ ·) a b) = b := by
  induction a generalizing b with
  | nil => exact (List.length_eq_zero_iff.mp h).symm
  | cons x a ih =>
    cases b with
    | nil => cases h
    | cons y b =>
      rw [List.zipWith_cons_cons, List.zipWith_cons_cons, ih (Nat.succ.inj h), ← UInt8.xor_assoc,
        UInt8.xor_self, UInt8.zero_xor]

/-- **A pad is its own inverse.** -/
theorem xor_involutive {k : ℕ} (pad : ByteVec k) : Function.Involutive (xor pad) := by
  intro b
  exact Subtype.ext (zipWith_xor_cancel (b.2.trans pad.2.symm))

/-- The first `m` bytes and the last `n`. -/
def split (m n : ℕ) (b : ByteVec (m + n)) : ByteVec m × ByteVec n :=
  (⟨b.1.take m, by rw [List.length_take, b.2]; omega⟩,
    ⟨b.1.drop m, by rw [List.length_drop, b.2]; omega⟩)

/-- **Nothing is lost by a split.** -/
theorem split_bijective (m n : ℕ) : Function.Bijective (split m n) := by
  constructor
  · intro b c h
    have htake : b.1.take m = c.1.take m := congrArg (fun x => x.1.1) h
    have hdrop : b.1.drop m = c.1.drop m := congrArg (fun x => x.2.1) h
    apply Subtype.ext
    rw [← List.take_append_drop m b.1, ← List.take_append_drop m c.1, htake, hdrop]
  · rintro ⟨x, y⟩
    refine ⟨⟨x.1 ++ y.1, by rw [List.length_append, x.2, y.2]⟩, Prod.ext ?_ ?_⟩
    · exact Subtype.ext (List.take_left' x.2)
    · exact Subtype.ext (List.drop_left' x.2)

end Bytes
