import Mathlib
import RngService.Csprng.Reference

/-!
# Counter blocks are not reused

A call of `Generate` encrypts the blocks `V + 1`, `V + 2`, …: first those of the output, then
the three of the update that replaces key and counter (`generate_blocks`). They differ as
128-bit numbers (`counters_nodup`), wherever the counter wraps. So under a cipher that is
injective for the key the encrypted blocks differ too, and none of the output is a block of
the next state (`generate_fresh`).
-/

namespace Csprng

/-- The counter blocks `V + 1`, …, `V + m`, as `increment` makes them one after the other. -/
def counters (v : ByteVec 16) (m : ℕ) : List (ByteVec 16) :=
  (List.range m).map fun i => increment^[i + 1] v

/-- The number of blocks of the output. -/
def outputBlocks (n : UInt64) : ℕ := (n.toNat + 15) / 16

/-- The blocks that `Generate` encrypts for its output. -/
def DRBG.outputCounters (d : DRBG) (n : UInt64) : List (ByteVec 16) :=
  counters d.v (outputBlocks n)

/-- The blocks that the update at the end of `Generate` encrypts. -/
def DRBG.updateCounters (d : DRBG) (n : UInt64) : List (ByteVec 16) :=
  counters (increment^[outputBlocks n] d.v) 3

/-! ### The counters differ -/

theorem toNum_iterate (v : ByteVec 16) (k : ℕ) :
    toNum (increment^[k] v) = toNum v + BitVec.ofNat 128 k := by
  induction k with
  | zero => simp
  | succ k ih =>
    rw [Function.iterate_succ_apply', toNum_increment, ih, BitVec.ofNat_add, BitVec.add_assoc]
    rfl

theorem iterate_eq (v : ByteVec 16) (k : ℕ) :
    increment^[k] v = ofNum (toNum v + BitVec.ofNat 128 k) := by
  rw [← toNum_iterate, ofNum_toNum]

/-- **The counter does not come back** within `2 ^ 128` increments. -/
theorem iterate_inj {v : ByteVec 16} {j k : ℕ} (hj : j < 2 ^ 128) (hk : k < 2 ^ 128)
    (h : increment^[j] v = increment^[k] v) : j = k := by
  have hnum := congrArg toNum h
  rw [toNum_iterate, toNum_iterate] at hnum
  have hnat := congrArg BitVec.toNat (add_left_cancel hnum)
  rwa [BitVec.toNat_ofNat, BitVec.toNat_ofNat, Nat.mod_eq_of_lt hj, Nat.mod_eq_of_lt hk] at hnat

theorem counters_nodup {m : ℕ} (v : ByteVec 16) (hm : m < 2 ^ 128) : (counters v m).Nodup := by
  refine List.Nodup.map_on (fun i hi j hj h => ?_) List.nodup_range
  have hi' := List.mem_range.mp hi
  have hj' := List.mem_range.mp hj
  exact Nat.succ.inj (iterate_inj (by omega) (by omega) h)

theorem counters_append (v : ByteVec 16) (m k : ℕ) :
    counters v m ++ counters (increment^[m] v) k = counters v (m + k) := by
  unfold counters
  rw [List.range_add, List.map_append, List.map_map]
  congr 1
  refine List.map_congr_left fun i _ => ?_
  rw [← Function.iterate_add_apply]
  have hindex : i + 1 + m = m + i + 1 := by omega
  exact congrArg (fun j => increment^[j] v) hindex

theorem keystream_eq_counters (aes : BlockCipher) (key : ByteVec 32) (v : ByteVec 16) (m : ℕ) :
    keystream aes key (toNum v) m = (counters v m).flatMap fun c => (aes key c).1 := by
  rw [keystream, counters, List.flatMap_map]
  congr 1
  funext i
  rw [iterate_eq]

/-! ### The blocks of a call -/

/-- An update without data replaces key and counter by the next three blocks. -/
theorem updateLocked_nil (aes : BlockCipher) (d : DRBG) :
    (d.updateLocked aes []).key.1 ++ (d.updateLocked aes []).v.1
      = (counters d.v 3).flatMap fun c => (aes d.key c).1 := by
  have hnil : ∀ temp : Bytes, xorProvided temp [] = temp := by
    intro temp
    cases temp <;> rfl
  have htemp : xorProvided (updateBlocks aes d.key (seedLen / 16) d.v [])
        (([] : Bytes).take seedLen)
      = (counters d.v 3).flatMap fun c => (aes d.key c).1 := by
    rw [List.take_nil, hnil, updateBlocks_eq, List.nil_append, ← keystream_eq_counters]
    rfl
  simp only [DRBG.updateLocked, htemp]
  exact List.take_append_drop 32 _

/-- **What `Generate` encrypts**: the output is cut from the blocks of the output counters,
and the next key and counter are the blocks of the update. -/
theorem generate_blocks (aes : BlockCipher) (d : DRBG) {n : UInt64} (hn : n.toNat < 2 ^ 63)
    (h0 : n ≠ 0) :
    (d.generate aes n).1
      = ((d.outputCounters n).flatMap fun c => (aes d.key c).1).take n.toNat ∧
    (d.generate aes n).2.key.1 ++ (d.generate aes n).2.v.1
      = (d.updateCounters n).flatMap fun c => (aes d.key c).1 := by
  have hloop := generateLoop_eq aes d.key hn n.toNat d.v [] (by simp) (by simp; omega)
  simp only [List.nil_append, List.length_nil, Nat.sub_zero] at hloop
  rw [keystream_eq_counters, ← iterate_eq] at hloop
  unfold DRBG.generate
  rw [if_neg h0, hloop]
  exact ⟨rfl, updateLocked_nil aes { d with v := increment^[outputBlocks n] d.v }⟩

/-- **No counter block is used twice under one key**: those of the output of a call and those
of its update all differ. So, for a cipher that is injective under the key, the blocks of the
output differ, and none of them is a block of the next key and counter. -/
theorem generate_fresh (aes : BlockCipher) (d : DRBG) (n : UInt64) (hn : n.toNat < 2 ^ 63) :
    (d.outputCounters n ++ d.updateCounters n).Nodup ∧
    (n ≠ 0 → (d.generate aes n).1
        = ((d.outputCounters n).flatMap fun c => (aes d.key c).1).take n.toNat ∧
      (d.generate aes n).2.key.1 ++ (d.generate aes n).2.v.1
        = (d.updateCounters n).flatMap fun c => (aes d.key c).1) ∧
    (Function.Injective (aes d.key) →
      ((d.outputCounters n).map (aes d.key)).Nodup ∧
      ∀ b ∈ (d.updateCounters n).map (aes d.key), b ∉ (d.outputCounters n).map (aes d.key)) := by
  have hnodup : (d.outputCounters n ++ d.updateCounters n).Nodup := by
    unfold DRBG.outputCounters DRBG.updateCounters outputBlocks
    rw [counters_append]
    exact counters_nodup _ (by omega)
  refine ⟨hnodup, generate_blocks aes d hn, fun hinj => ?_⟩
  have hblocks := hnodup.map hinj
  rw [List.map_append] at hblocks
  obtain ⟨hout, -, hdisjoint⟩ := List.nodup_append'.mp hblocks
  exact ⟨hout, fun b hb hmem => hdisjoint hmem hb⟩

/-- A state whose counter is about to wrap. -/
def lastCounter : DRBG := ⟨⟨List.replicate 32 255, rfl⟩, ⟨List.replicate 16 255, rfl⟩, 0⟩

/-- Twenty-one bytes from there, by a cipher that returns its block. -/
theorem generate_fresh_wrap :
    (lastCounter.outputCounters 21 ++ lastCounter.updateCounters 21).Nodup ∧
      ((lastCounter.outputCounters 21).map fun c => c).Nodup := by
  obtain ⟨hnodup, -, hblocks⟩ := generate_fresh (fun _ block => block) lastCounter 21 (by decide)
  exact ⟨hnodup, (hblocks Function.injective_id).1⟩

end Csprng
