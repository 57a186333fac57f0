import Mathlib
import RngService.Go.Base

/-!
# CTR_DRBG with AES-256

The generator of `internal/csprng/aes_ctr_drbg.go`. The block cipher is a
parameter: an arbitrary function of key and block. `aes.NewCipher` fails only on
a key of the wrong length, which a `[32]byte` never is, so its error branches are
unreachable and left out; buffers are as long as they need to be.

The counter `V` is stored as sixteen bytes and incremented as two 64-bit halves
with a hand-written carry, as the source does. `Reference` states the algorithm
over one 128-bit number and proves that the two agree.
-/

namespace Csprng

/-- `csprng.SeedLen`: 32 key bytes and 16 counter bytes. -/
def seedLen : ℕ := 48

/-- AES-256 as a function of key and block. -/
abbrev BlockCipher := ByteVec 32 → ByteVec 16 → ByteVec 16

/-- The generator state: key, counter block, and the number of bytes generated
since instantiation. -/
structure DRBG where
  key : ByteVec 32
  v : ByteVec 16
  outputBytes : UInt64
  deriving DecidableEq

/-- `increment`: add one to the counter, as two big-endian 64-bit halves. -/
def increment (v : ByteVec 16) : ByteVec 16 :=
  let hi := Bytes.uint64 (v.1.take 8)
  let lo := Bytes.uint64 (v.1.drop 8)
  let lo := lo + 1
  let hi := if lo = 0 then hi + 1 else hi
  ⟨Bytes.putUint64 hi ++ Bytes.putUint64 lo, by simp⟩

variable (aes : BlockCipher)

/-- The block loop of `updateLocked`, `n` blocks still to be encrypted. -/
def updateBlocks (key : ByteVec 32) : ℕ → ByteVec 16 → Bytes → Bytes
  | 0, _, temp => temp
  | n + 1, v, temp =>
    let v := increment v
    updateBlocks key n v (temp ++ (aes key v).1)

theorem length_updateBlocks (key : ByteVec 32) (n : ℕ) (v : ByteVec 16) (temp : Bytes) :
    (updateBlocks aes key n v temp).length = temp.length + 16 * n := by
  induction n generalizing v temp with
  | zero => rfl
  | succ n ih =>
    rw [updateBlocks, ih, List.length_append, (aes key (increment v)).2]
    omega

/-- `temp[i] ^= provided[i]` for as long as both have a byte at `i`. -/
def xorProvided : Bytes → Bytes → Bytes
  | t :: ts, p :: ps => (t ^^^ p) :: xorProvided ts ps
  | ts, [] => ts
  | [], _ :: _ => []

@[simp] theorem length_xorProvided (temp provided : Bytes) :
    (xorProvided temp provided).length = temp.length := by
  induction temp, provided using xorProvided.induct with
  | case1 t ts p ps ih => simp [xorProvided, ih]
  | case2 ts => cases ts <;> rfl
  | case3 p ps => rfl

/-- `updateLocked`: CTR_DRBG_Update. `provided` is empty where the source passes
`nil`. -/
def DRBG.updateLocked (d : DRBG) (provided : Bytes) : DRBG :=
  let temp := xorProvided (updateBlocks aes d.key (seedLen / 16) d.v []) (provided.take seedLen)
  have h : temp.length = 48 := by
    rw [length_xorProvided, length_updateBlocks]
    rfl
  { d with
    key := ⟨temp.take 32, by rw [List.length_take, h]; rfl⟩
    v := ⟨temp.drop 32, by rw [List.length_drop, h]⟩ }

/-- A block of zeros. -/
def zeroBlock : ByteVec 16 := ⟨List.replicate 16 0, rfl⟩

/-- `New`. -/
def new (entropy : Bytes) : Except GoError DRBG :=
  if entropy.length < seedLen then
    .error (.errorf "csprng: entropy too short: need %d bytes, got %d"
      [.int seedLen, .int entropy.length])
  else
    let d : DRBG := ⟨⟨List.replicate 32 0, rfl⟩, zeroBlock, 0⟩
    .ok (d.updateLocked aes (entropy.take seedLen))

/-- The block loop of `Generate`: blocks are appended to `buf` while it is shorter
than `n`. The first argument bounds the number of iterations; each one appends
sixteen bytes, so `n` of them are enough (`Reference.generateLoop_eq`). -/
def generateLoop (key : ByteVec 32) (n : UInt64) : ℕ → ByteVec 16 → Bytes → Bytes × ByteVec 16
  | 0, v, buf => (buf, v)
  | fuel + 1, v, buf =>
    if UInt64.ofNat buf.length < n then
      let v := increment v
      generateLoop key n fuel v (buf ++ (aes key v).1)
    else (buf, v)

/-- `Generate`. -/
def DRBG.generate (n : UInt64) (d : DRBG) : Bytes × DRBG :=
  if n = 0 then ([], d)
  else
    let (buf, v) := generateLoop aes d.key n n.toNat d.v []
    let d := DRBG.updateLocked aes { d with v := v } []
    (buf.take n.toNat, { d with outputBytes := d.outputBytes + n })

/-- `Reseed`. -/
def DRBG.reseed (entropy : Bytes) (d : DRBG) : Except GoError DRBG :=
  if entropy.length < seedLen then
    .error (.errorf "csprng: reseed entropy too short: need %d bytes, got %d"
      [.int seedLen, .int entropy.length])
  else .ok (d.updateLocked aes (entropy.take seedLen))

/-- `HealthCheck`: the key must not be all zero. -/
def DRBG.healthCheck (d : DRBG) : Option GoError :=
  if d.key.1.all (· == 0) then
    some (.text "csprng: key is all-zero — DRBG state invalid or not seeded")
  else none

/-! ### The output counter

Generating adds to the counter; an update leaves it alone, and so does a reseed. -/

variable {aes}

@[simp] theorem DRBG.updateLocked_outputBytes (d : DRBG) (provided : Bytes) :
    (d.updateLocked aes provided).outputBytes = d.outputBytes := rfl

@[simp] theorem DRBG.generate_outputBytes (n : UInt64) (d : DRBG) :
    (d.generate aes n).2.outputBytes = d.outputBytes + n := by
  unfold DRBG.generate
  split
  · next h => rw [h, UInt64.add_zero]
  · rfl

theorem new_outputBytes {entropy : Bytes} {d : DRBG} (h : new aes entropy = .ok d) :
    d.outputBytes = 0 := by
  unfold new at h
  split at h
  · cases h
  · obtain rfl := Except.ok.inj h
    rfl

theorem DRBG.reseed_outputBytes {entropy : Bytes} {d d' : DRBG}
    (h : d.reseed aes entropy = .ok d') : d'.outputBytes = d.outputBytes := by
  unfold DRBG.reseed at h
  split at h
  · cases h
  · obtain rfl := Except.ok.inj h
    rfl

end Csprng
