import Mathlib
import RngService.Lib.Program
import RngService.Lib.Residue

/-!
# The vertex-rng server

The number server of `sourcecode/vertex-rng-1.0.1/main.cpp`. It reads 32-bit words from
the random device, scales them, and sends the numbers as a JSON array. Unsigned and
signed integers of the source are `UInt32` and `Int32`; an array of `double`s holds
`int32_t` values only, so it is a list of them.

`scale` reports a rejected word and an empty range by a negative result, and
`genRandomList` adds the minimum to whatever it gets. `number_mem_iff` says when the sum
is in the requested range all the same: exactly if the word is accepted, the range is
shorter than 2^32, and the sum is no negative `int32_t` (`Fits`). Of the accepted words each
residue gets the same share (`scale_unbiased`). `json_honours_iff` carries the range over to
the arrays that are sent.
-/

namespace Vertex

/-- `INVALID_RESULT` -/
def invalidResult : Int32 := -1

/-- `INVALID_PARAM` -/
def invalidParam : Int32 := -2

/-- `scale` -/
def scale (rngResult range : UInt32) : Int32 :=
  if range < 1 then invalidParam
  else
    let maxResult := (0x100000000 / range.toUInt64 * range.toUInt64).toUInt32
    if maxResult ≠ 0 ∧ maxResult ≤ rngResult then invalidResult
    else (rngResult % range).toInt32

/-- What the server calls. -/
inductive Op
  /-- `read(fd, &rng_value, sizeof(rng_value))` -/
  | read
  /-- `cJSON_CreateDoubleArray(randList, qttyNumber)` -/
  | createDoubleArray (randList : List Int32)

/-- The answers: a word, and the array, if there was memory for it. -/
abbrev Ret : Op → Type
  | .read => UInt32
  | .createDoubleArray _ => Option (List Int32)

/-- What is sent to the client. -/
inductive Reply
  | httpError (code : ℕ) (text : String)
  | json (array : List Int32)
  deriving DecidableEq

/-- `scale(rng_value, range) + min`, an unsigned sum that is stored in an `int32_t`. -/
def number (min range word : UInt32) : Int32 := ((scale word range).toUInt32 + min).toInt32

/-- The loop of `genRandomList`, with so many numbers left. A repeated number makes it
read another word. -/
def fillList (min range : UInt32) (replenishFlag : Bool) :
    ℕ → List Int32 → Prog Op Ret (List Int32)
  | 0, randList => .ret randList
  | n + 1, randList =>
    .call .read (fun word => !replenishFlag && randList.contains (number min range word))
      fun word => fillList min range replenishFlag n (randList ++ [number min range word])

def createDoubleArray (randList : List Int32) : Prog Op Ret (Option (List Int32)) :=
  Prog.op (Op.createDoubleArray randList)

/-- `genRandomList` -/
def genRandomList (min max : UInt32) (replenishFlag : Bool) (qttyNumber : Int32) :
    Prog Op Ret Reply :=
  let range := 1 + max - min
  if range < qttyNumber.toUInt32 ∧ replenishFlag = false then
    .ret (.httpError 400
      "Error in parameter list, numbers quantity greater than range, without reposition\n")
  else if max < min then .ret (.httpError 400 "Error in parameter list, min > max")
  else do
    let randList ← fillList min range replenishFlag qttyNumber.toNatClampNeg []
    match ← createDoubleArray randList with
    | none => return .httpError 500 "Server error"
    | some array => return .json array

/-- The operations on a stream of words, of which so many have been read. The input says
whether there is memory for the array. -/
def exec (words : ℕ → UInt32) : Sem Op Ret Bool ℕ
  | .read, _, n => some (words n, n + 1)
  | .createDoubleArray randList, memory, n => some (if memory then some randList else none, n)

/-! ### One number -/

variable {min max range word : UInt32}

theorem toInt_toInt32 (u : UInt32) :
    u.toInt32.toInt = if u.toNat < 2 ^ 31 then (u.toNat : ℤ) else u.toNat - 2 ^ 32 := by
  have h : u.toInt32.toInt = u.toBitVec.toInt := rfl
  have hlt := u.toNat_lt
  rw [h, BitVec.toInt_eq_toNat_cond, UInt32.toNat_toBitVec]
  split <;> split <;> omega

/-- The words that `scale` accepts are those below the last multiple of the range. -/
theorem scale_eq (h : range ≠ 0) : scale word range =
    if 2 ^ 32 / range.toNat * range.toNat ≤ word.toNat then invalidResult
    else (word % range).toInt32 := by
  have hpos : 0 < range.toNat := by
    rw [Nat.pos_iff_ne_zero]
    exact fun h0 => h (UInt32.toNat_inj.mp h0)
  have hword := word.toNat_lt
  have hle : 2 ^ 32 / range.toNat * range.toNat ≤ 2 ^ 32 := Nat.div_mul_le_self _ _
  have hlt : 0 < 2 ^ 32 / range.toNat * range.toNat :=
    Nat.mul_pos (Nat.div_pos range.toNat_lt.le hpos) hpos
  have hnot : ¬ range < 1 := by
    rw [UInt32.lt_iff_toNat_lt, UInt32.toNat_one]
    omega
  -- the product is cut to 32 bits, so the last multiple may come out as 0
  have hmax : (0x100000000 / range.toUInt64 * range.toUInt64).toUInt32.toNat
      = 2 ^ 32 / range.toNat * range.toNat % 2 ^ 32 := by
    rw [UInt64.toNat_toUInt32, UInt64.toNat_mul, UInt64.toNat_div, UInt32.toNat_toUInt64]
    show 2 ^ 32 / range.toNat * range.toNat % 2 ^ 64 % 2 ^ 32 = _
    omega
  rw [scale, if_neg hnot]
  simp only [ne_eq, ← UInt32.toNat_inj, UInt32.le_iff_toNat_le, hmax, UInt32.toNat_zero]
  generalize 2 ^ 32 / range.toNat * range.toNat = m at *
  congr 1
  rw [eq_iff_iff]
  omega

/-- The word gives a number in the range from `min` to `max`. -/
structure Fits (min max word : UInt32) : Prop where
  /-- the range is shorter than 2^32 -/
  short : max.toNat - min.toNat + 1 < 2 ^ 32
  /-- `scale` accepts the word -/
  accepted : word.toNat < 2 ^ 32 / (max.toNat - min.toNat + 1) * (max.toNat - min.toNat + 1)
  /-- the number is no negative `int32_t` -/
  positive : min.toNat + word.toNat % (max.toNat - min.toNat + 1) < 2 ^ 31

/-- The range is computed in 32 bits. -/
theorem toNat_range (h : min ≤ max) :
    (1 + max - min).toNat = (max.toNat - min.toNat + 1) % 2 ^ 32 := by
  have hmin := min.toNat_lt
  have hmax := max.toNat_lt
  rw [UInt32.le_iff_toNat_le] at h
  rw [UInt32.toNat_sub, UInt32.toNat_add, UInt32.toNat_one]
  omega

/-- **One number is in the requested range exactly if its word fits.** -/
theorem number_mem_iff (h : min ≤ max) :
    (min.toNat ≤ (number min (1 + max - min) word).toInt ∧
      (number min (1 + max - min) word).toInt ≤ max.toNat) ↔ Fits min max word := by
  have hmin := min.toNat_lt
  have hmax := max.toNat_lt
  have hle := UInt32.le_iff_toNat_le.mp h
  have hrange := toNat_range h
  rw [number, toInt_toInt32, UInt32.toNat_add]
  by_cases hshort : max.toNat - min.toNat + 1 < 2 ^ 32
  · rw [Nat.mod_eq_of_lt hshort] at hrange
    have hne : 1 + max - min ≠ 0 := by
      rw [ne_eq, ← UInt32.toNat_inj, hrange, UInt32.toNat_zero]
      omega
    rw [scale_eq hne, hrange]
    by_cases hrej : 2 ^ 32 / (max.toNat - min.toNat + 1) * (max.toNat - min.toNat + 1) ≤ word.toNat
    -- a rejected word gives the number before the minimum
    · have hnot : ¬ Fits min max word := fun hfits => absurd hrej (not_le.mpr hfits.accepted)
      rw [if_pos hrej]
      have hneg : invalidResult.toUInt32.toNat = 2 ^ 32 - 1 := rfl
      rw [hneg]
      simp only [hnot, iff_false, not_and, not_le]
      split <;> omega
    -- an accepted word gives its residue above the minimum
    · rw [if_neg hrej, UInt32.toUInt32_toInt32, UInt32.toNat_mod, hrange]
      have hmod := Nat.mod_lt word.toNat (Nat.succ_pos (max.toNat - min.toNat))
      have hfits : Fits min max word ↔
          min.toNat + word.toNat % (max.toNat - min.toNat + 1) < 2 ^ 31 :=
        ⟨fun hfits => hfits.positive, fun hpos => ⟨hshort, not_le.mp hrej, hpos⟩⟩
      rw [hfits]
      generalize word.toNat % (max.toNat - min.toNat + 1) = r at *
      rw [Nat.mod_eq_of_lt (by omega : r + min.toNat < 2 ^ 32)]
      split <;> omega
  -- a range of 2^32 counts as empty
  · have hnot : ¬ Fits min max word := fun hfits => hshort hfits.short
    have hzero : 1 + max - min = 0 := by
      rw [← UInt32.toNat_inj, hrange, UInt32.toNat_zero]
      omega
    have hneg : (scale word 0).toUInt32.toNat = 2 ^ 32 - 2 := rfl
    rw [hzero, hneg]
    simp only [hnot, iff_false, not_and, not_le]
    split <;> omega

/-! ### The shares of the residues -/

/-- A residue is no `INVALID_RESULT`: that would be the residue of a range of 2^32. -/
theorem toInt32_ne_invalidResult {r : UInt32} (h : r < range) : r.toInt32 ≠ invalidResult := by
  intro heq
  have hlast : r = 4294967295 := by
    have hword := congrArg Int32.toUInt32 heq
    rwa [UInt32.toUInt32_toInt32] at hword
  have hlt := UInt32.lt_iff_toNat_lt.mp h
  have hrange := range.toNat_lt
  have hnat : r.toNat = 4294967295 := congrArg UInt32.toNat hlast
  omega

/-- The words that return a residue. -/
theorem scale_eq_residue {r : UInt32} (h : range ≠ 0) (hr : r < range) :
    scale word range = r.toInt32 ↔
      word.toNat < 2 ^ 32 / range.toNat * range.toNat ∧ word.toNat % range.toNat = r.toNat := by
  rw [scale_eq h]
  split
  · next hrej =>
    refine ⟨fun heq => absurd heq.symm (toInt32_ne_invalidResult hr), fun hacc => ?_⟩
    exact absurd hacc.1 (not_lt.mpr hrej)
  · next hacc =>
    rw [← UInt32.toNat_mod, UInt32.toNat_inj, and_iff_right (not_le.mp hacc)]
    refine ⟨fun heq => ?_, fun heq => by rw [heq]⟩
    have hword := congrArg Int32.toUInt32 heq
    rwa [UInt32.toUInt32_toInt32, UInt32.toUInt32_toInt32] at hword

/-- The words that are rejected. -/
theorem scale_eq_invalidResult (h : range ≠ 0) :
    scale word range = invalidResult ↔ 2 ^ 32 / range.toNat * range.toNat ≤ word.toNat := by
  rw [scale_eq h]
  split
  · next hrej => exact iff_of_true rfl hrej
  · next hacc =>
    have hlt : word % range < range := by
      rw [UInt32.lt_iff_toNat_lt, UInt32.toNat_mod]
      exact Nat.mod_lt _ (Nat.pos_of_ne_zero fun h0 => h (UInt32.toNat_inj.mp h0))
    exact iff_of_false (toInt32_ne_invalidResult hlt) hacc

/-- **`scale` is unbiased among the accepted words**: every residue is the result of equally
many words, and the words left over are those that are rejected. -/
theorem scale_unbiased (range : UInt32) (h : 1 ≤ range) :
    (∀ r < range,
      Nat.card {word : UInt32 // scale word range = r.toInt32} = 2 ^ 32 / range.toNat) ∧
    Nat.card {word : UInt32 // scale word range = invalidResult} = 2 ^ 32 % range.toNat ∧
    ∀ word, scale word range = invalidResult ↔ ∀ r < range, scale word range ≠ r.toInt32 := by
  have hne : range ≠ 0 := by
    rintro rfl
    exact absurd h (by decide)
  refine ⟨fun r hr => ?_, ?_, fun word => ⟨fun hrej r hr => ?_, fun hnone => ?_⟩⟩
  · simp only [scale_eq_residue hne hr]
    rw [Residue.card_uint32 fun n =>
      n < 2 ^ 32 / range.toNat * range.toNat ∧ n % range.toNat = r.toNat]
    exact Residue.card_residue_below (UInt32.lt_iff_toNat_lt.mp hr) _
  · simp only [scale_eq_invalidResult hne]
    rw [Residue.card_uint32 fun n => 2 ^ 32 / range.toNat * range.toNat ≤ n]
    exact Residue.card_rest _ _
  · rw [hrej]
    exact (toInt32_ne_invalidResult hr).symm
  · -- a word that is not rejected returns its own residue
    rw [scale_eq_invalidResult hne]
    by_contra hacc
    have hlt : word % range < range := by
      rw [UInt32.lt_iff_toNat_lt, UInt32.toNat_mod]
      exact Nat.mod_lt _ (UInt32.le_iff_toNat_le.mp h)
    exact hnone (word % range) hlt ((scale_eq_residue hne hlt).mpr
      ⟨not_le.mp hacc, (UInt32.toNat_mod word range).symm⟩)

/-- Of three residues each is the result of 1431655765 words, and one word is rejected. -/
theorem scale_unbiased_three :
    Nat.card {word : UInt32 // scale word 3 = (2 : UInt32).toInt32} = 1431655765 ∧
      Nat.card {word : UInt32 // scale word 3 = invalidResult} = 1 := by
  obtain ⟨hshare, hrest, -⟩ := scale_unbiased 3 (by decide)
  exact ⟨hshare 2 (by decide), hrest⟩

/-! ### The array -/

variable {words : ℕ → UInt32} {replenishFlag : Bool}

/-- The list holds the numbers of the words read so far, and no others. -/
def Holds (words : ℕ → UInt32) (min range : UInt32) (n : ℕ) (randList : List Int32) : Prop :=
  ∀ v, v ∈ randList ↔ ∃ i < n, v = number min range (words i)

/-- One word more, whose number is appended. -/
theorem Holds.append {n : ℕ} {randList : List Int32} (h : Holds words min range n randList) :
    Holds words min range (n + 1) (randList ++ [number min range (words n)]) := by
  intro v
  rw [List.mem_append, h v, List.mem_singleton]
  constructor
  · rintro (⟨i, hi, hv⟩ | hv)
    · exact ⟨i, Nat.lt_succ_of_lt hi, hv⟩
    · exact ⟨n, Nat.lt_succ_self n, hv⟩
  · rintro ⟨i, hi, hv⟩
    rcases Nat.lt_succ_iff_lt_or_eq.mp hi with hi | rfl
    · exact Or.inl ⟨i, hi, hv⟩
    · exact Or.inr hv

/-- One word more, whose number is in the list already. -/
theorem Holds.skip {n : ℕ} {randList : List Int32} (h : Holds words min range n randList)
    (hmem : number min range (words n) ∈ randList) :
    Holds words min range (n + 1) randList := by
  intro v
  have happend := h.append v
  rw [List.mem_append, List.mem_singleton] at happend
  rw [← happend]
  constructor
  · exact Or.inl
  · rintro (hv | rfl)
    · exact hv
    · exact hmem

/-- **The loop** adds as many numbers as are left. The list holds the numbers of all
words read, and repeats none of them without replenishment. -/
theorem wp_fillList (min range : UInt32) (replenishFlag : Bool) (n k : ℕ) (randList : List Int32)
    (h : Holds words min range k randList) (hnd : replenishFlag = false → randList.Nodup) :
    Prog.WP (Prog.Model.ofSem (exec words)) (fillList min range replenishFlag n randList)
      (fun l k' => l.length = randList.length + n ∧ Holds words min range k' l ∧
        (replenishFlag = false → l.Nodup)) k := by
  induction n generalizing k randList with
  | zero => exact ⟨rfl, h, hnd⟩
  | succ n ih =>
    -- while numbers are repeated, the list stays as it is
    refine ⟨fun k => Holds words min range k randList, h, fun k hk => ⟨trivial, ?_⟩⟩
    rintro word k' ⟨memory, hread⟩
    obtain ⟨rfl, rfl⟩ := Prod.mk.inj (Option.some.inj hread)
    split
    · next hrep =>
      rw [Bool.and_eq_true, List.contains_iff_mem] at hrep
      exact hk.skip hrep.2
    · next hnew =>
      have hnd' : replenishFlag = false → (randList ++ [number min range (words k)]).Nodup := by
        rintro rfl
        have hnot : number min range (words k) ∉ randList := by simpa using hnew
        refine List.nodup_append.mpr ⟨hnd rfl, List.nodup_singleton _, fun v hv u hu => ?_⟩
        rw [List.mem_singleton.mp hu]
        exact ne_of_mem_of_not_mem hv hnot
      refine (ih _ _ hk.append hnd').mono ?_
      rintro l k' ⟨hlen, hrest⟩
      rw [List.length_append, List.length_singleton] at hlen
      exact ⟨by omega, hrest⟩

theorem wp_genRandomList (min max : UInt32) (replenishFlag : Bool) (qttyNumber : Int32) :
    Prog.WP (Prog.Model.ofSem (exec words)) (genRandomList min max replenishFlag qttyNumber)
      (fun reply k => ∀ array, reply = .json array →
        array.length = qttyNumber.toNatClampNeg ∧ Holds words min (1 + max - min) k array ∧
        (replenishFlag = false → array.Nodup)) 0 := by
  unfold genRandomList
  simp only
  split
  · rintro array h
    cases h
  · split
    · rintro array h
      cases h
    · have hnil : Holds words min (1 + max - min) 0 [] := fun v => by simp
      refine Prog.WP.bind ((wp_fillList min _ replenishFlag qttyNumber.toNatClampNeg 0 [] hnil
        fun _ => List.nodup_nil).mono ?_)
      rintro randList k ⟨hlen, hholds, hnd⟩
      refine Prog.WP.bind (Prog.WP.op trivial ?_)
      rintro r k' ⟨memory, hcreate⟩
      obtain ⟨rfl, rfl⟩ := Prod.mk.inj (Option.some.inj hcreate)
      cases memory with
      | false =>
        rintro array h
        cases h
      | true =>
        rintro array h
        obtain rfl := Reply.json.inj h
        rw [List.length_nil, Nat.zero_add] at hlen
        exact ⟨hlen, hholds, hnd⟩

/-- **The arrays that are sent.** They have as many numbers as asked for, without repeats
if none are allowed; all of them are in the requested range exactly if every word fits
that was read for them. -/
theorem json_honours_iff {min max : UInt32} (h : min ≤ max) {qttyNumber : Int32}
    (hq : 0 < qttyNumber) {replenishFlag : Bool} {words : ℕ → UInt32} {es : List Bool}
    {array : List Int32} {k : ℕ}
    (hrun : Prog.run (exec words) es (genRandomList min max replenishFlag qttyNumber) 0
      = some (.json array, k)) :
    array.length = qttyNumber.toInt ∧ (replenishFlag = false → array.Nodup) ∧
      ((∀ v ∈ array, min.toNat ≤ v.toInt ∧ v.toInt ≤ max.toNat) ↔
        ∀ i < k, Fits min max (words i)) := by
  obtain ⟨hlen, hholds, hnd⟩ :=
    (wp_genRandomList min max replenishFlag qttyNumber).run_sound hrun array rfl
  refine ⟨?_, hnd, ?_⟩
  · rw [hlen, ← Int32.toNat_toInt]
    exact Int.toNat_of_nonneg (Int32.lt_iff_toInt_lt.mp hq).le
  · simp only [← number_mem_iff h]
    constructor
    · intro hall i hi
      exact hall _ ((hholds _).mpr ⟨i, hi, rfl⟩)
    · intro hfits v hv
      obtain ⟨i, hi, rfl⟩ := (hholds v).mp hv
      exact hfits i hi

/-- Ten different numbers below ten, from ten words that fit. -/
theorem json_honours_iff_ten : ∃ array k, Prog.run (exec fun n => UInt32.ofNat n)
      (List.replicate 11 true) (genRandomList 0 9 false 10) 0 = some (.json array, k) ∧
    ∀ v ∈ array, 0 ≤ v.toInt ∧ v.toInt ≤ 9 := by
  have hrun : Prog.run (exec fun n => UInt32.ofNat n) (List.replicate 11 true)
      (genRandomList 0 9 false 10) 0 = some (.json [0, 1, 2, 3, 4, 5, 6, 7, 8, 9], 10) := by
    decide +kernel
  refine ⟨_, _, hrun, (json_honours_iff (by decide) (by decide) hrun).2.2.mpr fun i hi => ?_⟩
  have hi' : (UInt32.ofNat i).toNat = i := UInt32.toNat_ofNat_of_lt' (lt_trans hi (by decide))
  refine ⟨by decide, ?_, ?_⟩
  · rw [hi']
    exact lt_trans hi (by decide)
  · rw [hi']
    show 0 + i % 10 < 2 ^ 31
    omega

/-- **A rejected word is sent.** One number from 0 to 9 is asked for, and the word read is
the last one there is: the array sent is `[-1]`. -/
theorem rejected_word_sent : Prog.run (exec fun _ => 4294967295) [true, true]
      (genRandomList 0 9 true 1) 0 = some (.json [-1], 1) ∧ (-1 : Int32).toInt = -1 := by
  decide +kernel

end Vertex
