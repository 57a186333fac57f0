import Mathlib
import RngService.Lib.Rejection
import RngService.Vertex.Server

/-!
# Which arrays the words make

The array that `genRandomList` sends depends on the words of the device only. Each number of
the array is a stage of rejection sampling: without replenishment a word is rejected whose
number is in the array already, with replenishment none is (`run_fillList`). A number of the
requested range belongs to equally many words, whatever has been sent before. So of the
arrays that honour the request all are equally likely, for every number of words that are
read (`lists_uniform`): the ones that a rejected word spoils are more, but they favour none
of the others.
-/

namespace Vertex

open Rejection

variable {min max range : UInt32} {replenishFlag : Bool}

/-- The operations on given words: each read takes the next one, and there is memory. -/
def replay : Sem Op Ret UInt32 Unit
  | .read, word, _ => some (word, ())
  | .createDoubleArray randList, _, _ => some (some randList, ())

/-- The stage of one number, after the numbers of `randList`. -/
def slot (min range : UInt32) (replenishFlag : Bool) (randList : List Int32) :
    Stage UInt32 Int32 :=
  fresh (number min range) (if replenishFlag then [] else randList)

/-- The stages of an array. -/
def slots (min range : UInt32) (replenishFlag : Bool) :
    List Int32 → List Int32 → List (Stage UInt32 Int32)
  | _, [] => []
  | randList, v :: vs =>
    slot min range replenishFlag randList :: slots min range replenishFlag (randList ++ [v]) vs

theorem slot_eq {randList : List Int32} {word : UInt32} :
    slot min range replenishFlag randList word
      = if !replenishFlag && randList.contains (number min range word) then none
        else some (number min range word) := by
  cases replenishFlag with
  | false => simp [slot, fresh]
  | true => simp [slot, fresh]

/-! ### The loop -/

/-- The loop adds so many numbers at the end. -/
theorem run_fillList_prefix {n : ℕ} {randList l : List Int32} {ws : List UInt32}
    (h : Prog.run replay ws (fillList min range replenishFlag n randList) () = some (l, ())) :
    ∃ vs, l = randList ++ vs ∧ vs.length = n := by
  induction ws generalizing n randList with
  | nil =>
    cases n with
    | zero =>
      obtain rfl := (Prod.mk.inj (Option.some.inj h)).1
      exact ⟨[], (List.append_nil _).symm, rfl⟩
    | succ n => cases h
  | cons w ws ih =>
    cases n with
    | zero => cases h
    | succ n =>
      obtain ⟨word, s, -, hrest⟩ := Prog.run_cons_call.mp h
      split at hrest
      · exact ih hrest
      · obtain ⟨vs, rfl, rfl⟩ := ih hrest
        exact ⟨number min range word :: vs, by simp, rfl⟩

/-- **The loop decodes its words**, stage after stage. -/
theorem run_fillList {randList vs : List Int32} {ws : List UInt32} :
    Prog.run replay ws (fillList min range replenishFlag vs.length randList) ()
        = some (randList ++ vs, ()) ↔
      decode (slots min range replenishFlag randList vs) ws = some vs := by
  induction ws generalizing randList vs with
  | nil =>
    cases vs with
    | nil => simp [fillList, slots, decode]
    | cons v vs => simp [fillList, slots, decode, Prog.run]
  | cons w ws ih =>
    cases vs with
    | nil => simp [fillList, slots, decode, Prog.run]
    | cons v vs =>
      have hread : Prog.run replay ws (fillList min range replenishFlag (vs.length + 1) randList) ()
            = some (randList ++ v :: vs, ()) ↔
          decode (slots min range replenishFlag randList (v :: vs)) ws = some (v :: vs) :=
        @ih randList (v :: vs)
      rw [fillList] at hread
      rw [List.length_cons, fillList, Prog.run_cons_call]
      by_cases hrep : (!replenishFlag && randList.contains (number min range w)) = true
      · -- the number is repeated, and the stage reads on
        have hslot : slot min range replenishFlag randList w = none := by
          rw [slot_eq, if_pos hrep]
        rw [slots, decode_cons_none hslot, ← slots, ← hread]
        constructor
        · rintro ⟨word, s, hsem, hrest⟩
          obtain ⟨rfl, rfl⟩ := Prod.mk.inj (Option.some.inj hsem)
          rwa [if_pos hrep] at hrest
        · exact fun h => ⟨w, (), rfl, by rw [if_pos hrep]; exact h⟩
      · have hslot : slot min range replenishFlag randList w = some (number min range w) := by
          rw [slot_eq, if_neg hrep]
        have happend : ∀ us, randList ++ number min range w :: us
            = randList ++ [number min range w] ++ us := fun us => by simp
        rw [slots, decode_cons_some hslot, Option.map_eq_some_iff]
        constructor
        · rintro ⟨word, s, hsem, hrest⟩
          obtain ⟨rfl, rfl⟩ := Prod.mk.inj (Option.some.inj hsem)
          rw [if_neg hrep] at hrest
          -- the number is the next one of the array
          obtain ⟨us, heq, -⟩ := run_fillList_prefix hrest
          rw [← happend] at heq
          obtain ⟨rfl, rfl⟩ := List.cons.inj (List.append_cancel_left heq)
          exact ⟨vs, ih.mp ((happend vs).symm ▸ hrest), rfl⟩
        · rintro ⟨us, hus, heq⟩
          obtain ⟨rfl, rfl⟩ := List.cons.inj heq
          refine ⟨w, (), rfl, ?_⟩
          rw [if_neg hrep, happend us]
          exact ih.mpr hus

/-! ### The shares -/

/-- The pattern is in the requested range. -/
def Requested (min max : UInt32) (v : Int32) : Prop := min ≤ v.toUInt32 ∧ v.toUInt32 ≤ max

instance : DecidablePred (Requested min max) := fun _ => inferInstanceAs (Decidable (_ ∧ _))

/-- **Every number of the range belongs to equally many words.** -/
theorem card_number (h : min ≤ max) (hrange : 1 + max - min ≠ 0) {v : Int32}
    (hv : Requested min max v) : Nat.card {word // number min (1 + max - min) word = v}
      = 2 ^ 32 / (1 + max - min).toNat := by
  have hsize := toNat_range h
  have hpos : 0 < (1 + max - min).toNat :=
    Nat.pos_of_ne_zero fun h0 => hrange (UInt32.toNat_inj.mp h0)
  have hmin := UInt32.le_iff_toNat_le.mp hv.1
  have hmax := UInt32.le_iff_toNat_le.mp hv.2
  -- the number is the residue of its distance from the minimum
  have hresidue : v.toUInt32 - min < 1 + max - min := by
    rw [UInt32.lt_iff_toNat_lt, UInt32.toNat_sub_of_le _ _ hv.1, hsize]
    have hlt := max.toNat_lt
    rw [hsize] at hpos
    omega
  have hiff : ∀ word, number min (1 + max - min) word = v ↔
      scale word (1 + max - min) = (v.toUInt32 - min).toInt32 := by
    intro word
    constructor
    · rintro rfl
      rw [number, UInt32.toUInt32_toInt32, UInt32.add_sub_cancel, Int32.toInt32_toUInt32]
    · intro hscale
      rw [number, hscale, UInt32.toUInt32_toInt32, UInt32.sub_add_cancel, Int32.toInt32_toUInt32]
  simp only [hiff]
  refine (scale_unbiased _ ?_).1 _ hresidue
  rw [UInt32.le_iff_toNat_le]
  exact hpos

/-- The shares of an array of `n` numbers. -/
def shares (range : UInt32) (replenishFlag : Bool) (n : ℕ) : List (ℕ × ℕ) :=
  if replenishFlag then List.replicate n (0, 2 ^ 32 / range.toNat)
  else freshShares (2 ^ 32 / range.toNat) 0 n

/-- Without replenishment, the numbers must not repeat. -/
theorem slots_eq_freshStages (randList vs : List Int32) :
    slots min range false randList vs = freshStages (number min range) randList vs := by
  induction vs generalizing randList with
  | nil => rfl
  | cons v vs ih => rw [slots, ih]; rfl

/-- **Every slot is fair** to the numbers of the range that it may take. -/
theorem allFair_slots (h : min ≤ max) (hrange : 1 + max - min ≠ 0) {l : List Int32}
    (hl : ∀ v ∈ l, Requested min max v) (hnd : replenishFlag = false → l.Nodup) :
    AllFair (slots min (1 + max - min) replenishFlag [] l) l
      (shares (1 + max - min) replenishFlag l.length) := by
  have hshare : ∀ v ∈ {v | Requested min max v}, Nat.card {word //
      number min (1 + max - min) word = v} = 2 ^ 32 / (1 + max - min).toNat :=
    fun v hv => card_number h hrange hv
  cases replenishFlag with
  | false =>
    rw [slots_eq_freshStages]
    exact allFair_fresh (hnd rfl) hl hshare
  | true =>
    -- nothing is ever taken
    have hslot : Fair (fresh (number min (1 + max - min)) []) {v | Requested min max v ∧ v ∉ []}
        0 (2 ^ 32 / (1 + max - min).toNat) := by
      have hfair := fair_fresh List.nodup_nil (fun v hv => absurd hv List.not_mem_nil) hshare
      rwa [List.length_nil, Nat.zero_mul] at hfair
    have hall : ∀ randList, AllFair (slots min (1 + max - min) true randList l) l
        (shares (1 + max - min) true l.length) := by
      clear hnd
      induction l with
      | nil => exact fun _ => .nil
      | cons v l ih =>
        intro randList
        have hrest := ih (fun u hu => hl u (List.mem_cons_of_mem _ hu)) (randList ++ [v])
        exact .cons hslot ⟨hl v List.mem_cons_self, List.not_mem_nil⟩ hrest
    exact hall []

/-! ### The whole request -/

theorem toNat_toUInt32 {q : Int32} (hq : 0 ≤ q) : q.toUInt32.toNat = q.toNatClampNeg := by
  have hint := toInt_toInt32 q.toUInt32
  have hnonneg : 0 ≤ q.toInt := Int32.le_iff_toInt_le.mp hq
  have hlt := q.toUInt32.toNat_lt
  rw [Int32.toInt32_toUInt32] at hint
  rw [← Int32.toNat_toInt]
  split at hint <;> omega

/-- Different numbers of a range are no more than there are. -/
theorem length_le_range (h : min ≤ max) (hrange : 1 + max - min ≠ 0) {l : List Int32}
    (hl : ∀ v ∈ l, Requested min max v) (hnd : l.Nodup) : l.length ≤ (1 + max - min).toNat := by
  have hinj : Function.Injective fun v : Int32 => v.toUInt32.toNat := by
    intro u v huv
    have hback := congrArg UInt32.toInt32 (UInt32.toNat_inj.mp huv)
    rwa [Int32.toInt32_toUInt32, Int32.toInt32_toUInt32] at hback
  have hsub : (l.map fun v => v.toUInt32.toNat).toFinset ⊆ Finset.Icc min.toNat max.toNat := by
    intro n hn
    obtain ⟨v, hv, rfl⟩ := List.mem_map.mp (List.mem_toFinset.mp hn)
    exact Finset.mem_Icc.mpr ⟨UInt32.le_iff_toNat_le.mp (hl v hv).1,
      UInt32.le_iff_toNat_le.mp (hl v hv).2⟩
  have hcard := Finset.card_le_card hsub
  rw [List.toFinset_card_of_nodup (hnd.map hinj), List.length_map, Nat.card_Icc] at hcard
  have hne : (1 + max - min).toNat ≠ 0 := fun h0 => hrange (UInt32.toNat_inj.mp h0)
  have hle := UInt32.le_iff_toNat_le.mp h
  have hmax := max.toNat_lt
  rw [toNat_range h] at hne ⊢
  omega

/-- The words make the array that is sent. -/
theorem run_genRandomList (h : min ≤ max) {qttyNumber : Int32} {ws : List UInt32} {l : List Int32}
    (hfits : ¬ (1 + max - min < qttyNumber.toUInt32 ∧ replenishFlag = false)) :
    Prog.run replay (ws ++ [0]) (genRandomList min max replenishFlag qttyNumber) ()
        = some (.json l, ()) ↔
      Prog.run replay ws (fillList min (1 + max - min) replenishFlag qttyNumber.toNatClampNeg [])
        () = some (l, ()) := by
  have hle : ¬ max < min := by
    rw [UInt32.not_lt]
    exact h
  rw [genRandomList, if_neg hfits, if_neg hle, Prog.run_bind]
  constructor
  · rintro ⟨es₁, es₂, randList, s, heq, hfill, hcreate⟩
    -- the last input is that of the array
    cases es₂ with
    | nil => cases hcreate
    | cons e es₂ =>
      obtain ⟨r, s', hsem, hrest⟩ := Prog.run_cons_call.mp hcreate
      obtain ⟨rfl, rfl⟩ := Prod.mk.inj (Option.some.inj hsem)
      obtain ⟨rfl, hreply⟩ := Prog.run_ret.mp hrest
      obtain rfl := Reply.json.inj (Prod.mk.inj hreply).1
      obtain ⟨rfl, -⟩ := List.append_inj' heq rfl
      exact hfill
  · intro hfill
    exact ⟨ws, [0], l, (), rfl, hfill, rfl⟩

/-- **All arrays that honour the request are equally likely**: for every number `k` of words,
as many sequences of `k` words make one of them as any other. -/
theorem lists_uniform (h : min ≤ max) (hrange : 1 + max - min ≠ 0) {qttyNumber : Int32}
    (hq : 0 ≤ qttyNumber) {l : List Int32} (hlen : l.length = qttyNumber.toNatClampNeg)
    (hl : ∀ v ∈ l, Requested min max v) (hnd : replenishFlag = false → l.Nodup) (k : ℕ) :
    Nat.card {ws : List UInt32 // ws.length = k ∧
        Prog.run replay (ws ++ [0]) (genRandomList min max replenishFlag qttyNumber) ()
          = some (.json l, ())}
      = total (shares (1 + max - min) replenishFlag l.length) k := by
  have hfits : ¬ (1 + max - min < qttyNumber.toUInt32 ∧ replenishFlag = false) := by
    rintro ⟨hlt, hflag⟩
    have hle := length_le_range h hrange hl (hnd hflag)
    rw [UInt32.lt_iff_toNat_lt, toNat_toUInt32 hq, ← hlen] at hlt
    omega
  have hiff : ∀ ws : List UInt32,
      Prog.run replay (ws ++ [0]) (genRandomList min max replenishFlag qttyNumber) ()
          = some (.json l, ()) ↔
        decode (slots min (1 + max - min) replenishFlag [] l) ws = some l := by
    intro ws
    rw [run_genRandomList h hfits, ← hlen, ← run_fillList, List.nil_append]
  simp only [hiff]
  exact ways_eq_total (allFair_slots h hrange hl hnd) k

/-- Two different numbers from 1 to 3, and three words: the second one repeats the first. -/
theorem lists_uniform_two :
    Nat.card {ws : List UInt32 // ws.length = 3 ∧
      Prog.run replay (ws ++ [0]) (genRandomList 1 3 false 2) () = some (.json [3, 1], ())}
      = 1431655765 ^ 3 := by
  have hl : ∀ v ∈ [3, 1], Requested 1 3 v := List.forall_mem_cons.mpr
    ⟨by decide +kernel, List.forall_mem_singleton.mpr (by decide +kernel)⟩
  have hshares : shares (1 + 3 - 1) false 2 = [(0, 1431655765), (1431655765, 1431655765)] := by
    decide +kernel
  calc _ = total (shares (1 + 3 - 1) false 2) 3 :=
        lists_uniform (by decide) (by decide) (by decide) rfl hl (fun _ => by decide) 3
    _ = 1431655765 ^ 3 := by
      rw [hshares]
      simp [total]

end Vertex
