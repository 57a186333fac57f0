import Mathlib
import RngService.Csprng.Reference

/-!
# Seeding loses no entropy

An update encrypts three counters, XORs the result with the seed, and splits it into key
and counter block. XOR with a pad and the split are bijections (`Bytes.xor_involutive`,
`Bytes.split_bijective`), so the state after `New` or `Reseed` is a bijective function of the
48 bytes of the seed (`seeding_bijective`), whatever the cipher.
-/

namespace Csprng

variable (aes : BlockCipher)

/-- The part of the state that is secret: `Key` and `V`. -/
def DRBG.secret (d : DRBG) : ByteVec 32 × ByteVec 16 := (d.key, d.v)

/-- What an update XORs the seed with: three encrypted counters. -/
def DRBG.pad (d : DRBG) : ByteVec 48 :=
  ⟨updateBlocks aes d.key (seedLen / 16) d.v [],
    length_updateBlocks aes d.key (seedLen / 16) d.v []⟩

variable {aes}

/-- **An update** is the split of the seed under a pad. -/
theorem secret_updateLocked (d : DRBG) (seed : ByteVec 48) :
    (d.updateLocked aes (seed.1.take seedLen)).secret
      = Bytes.split 32 16 (Bytes.xor (d.pad aes) seed) := by
  have htake : (seed.1.take seedLen).take seedLen = seed.1 := by
    rw [List.take_take, Nat.min_self]
    exact List.take_of_length_le seed.2.le
  have hxor : xorProvided (updateBlocks aes d.key (seedLen / 16) d.v [])
        ((seed.1.take seedLen).take seedLen)
      = (Bytes.xor (d.pad aes) seed).1 := by
    rw [htake]
    exact xorProvided_eq_zipWith ((d.pad aes).2.trans seed.2.symm)
  simp only [DRBG.secret, DRBG.updateLocked, hxor, Bytes.split]

theorem secret_updateLocked_bijective (aes : BlockCipher) (d : DRBG) :
    Function.Bijective fun seed : ByteVec 48 =>
      (d.updateLocked aes (seed.1.take seedLen)).secret := by
  simp only [secret_updateLocked]
  exact (Bytes.split_bijective 32 16).comp (Bytes.xor_involutive _).bijective

/-- **No seed entropy is lost**: from every state, the state after a reseed is a bijective
function of the seed, and so is the first state of a new generator. -/
theorem seeding_bijective (aes : BlockCipher) :
    (∀ d : DRBG, ∃ f : ByteVec 48 → ByteVec 32 × ByteVec 16, Function.Bijective f ∧
      ∀ seed, ∃ d', d.reseed aes seed.1 = .ok d' ∧ d'.secret = f seed) ∧
    ∃ f : ByteVec 48 → ByteVec 32 × ByteVec 16, Function.Bijective f ∧
      ∀ seed, ∃ d, new aes seed.1 = .ok d ∧ d.secret = f seed := by
  have hlen : ∀ seed : ByteVec 48, ¬ seed.1.length < seedLen :=
    fun seed => not_lt.mpr seed.2.ge
  refine ⟨fun d => ⟨_, secret_updateLocked_bijective aes d, fun seed => ?_⟩, ?_⟩
  · exact ⟨_, if_neg (hlen seed), rfl⟩
  · refine ⟨_, secret_updateLocked_bijective aes
      ⟨⟨List.replicate 32 0, rfl⟩, zeroBlock, 0⟩, fun seed => ?_⟩
    exact ⟨_, if_neg (hlen seed), rfl⟩

end Csprng
