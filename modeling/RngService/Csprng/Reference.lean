import Mathlib
import RngService.Csprng.Drbg

/-!
# Refinement of the reference CTR_DRBG

The reference algorithm of the algorithm specification (sections 4 to 8) keeps
`V` as one 128-bit number, so "add one" is addition in `BitVec 128`. Its output
is a `keystream`: the encryptions of `V + 1`, `V + 2`, …

`DRBG.toRef` reads the two-halves state as a reference state. The bridge is
`toNum_increment`: the hand-written carry between the halves is the carry of the
128-bit number. From it each loop is a keystream (`updateBlocks_eq`,
`generateLoop_eq`), each operation refines its reference (`toRef_updateLocked`,
`toRef_generate`, `toRef_reseed`), and so does every sequence of calls
(`runCalls_refines`).
-/

namespace Csprng

/-! ### The counter as a number -/

/-- The number in a counter block. -/
def toNum (v : ByteVec 16) : BitVec 128 := BitVec.ofNat 128 (Bytes.beNat v.1)

/-- The counter block of a number. -/
def ofNum (x : BitVec 128) : ByteVec 16 := ⟨Bytes.beBytes 16 x.toNat, Bytes.length_beBytes _ _⟩

theorem toNat_toNum (v : ByteVec 16) : (toNum v).toNat = Bytes.beNat v.1 := by
  have h := Bytes.beNat_lt v.1
  rw [v.2] at h
  rw [toNum, BitVec.toNat_ofNat]
  exact Nat.mod_eq_of_lt h

@[simp] theorem ofNum_toNum (v : ByteVec 16) : ofNum (toNum v) = v := by
  apply Subtype.ext
  show Bytes.beBytes 16 (toNum v).toNat = v.1
  have h := Bytes.beBytes_beNat v.1
  rw [v.2] at h
  rw [toNat_toNum, h]

@[simp] theorem toNum_ofNum (x : BitVec 128) : toNum (ofNum x) = x := by
  apply BitVec.eq_of_toNat_eq
  rw [toNat_toNum]
  show Bytes.beNat (Bytes.beBytes 16 x.toNat) = x.toNat
  rw [Bytes.beNat_beBytes]
  exact Nat.mod_eq_of_lt x.isLt

/-- **The carry.** Incrementing the two 64-bit halves adds one to the 128-bit
number. -/
theorem toNum_increment (v : ByteVec 16) : toNum (increment v) = toNum v + 1 := by
  have h8 : (v.1.take 8).length = 8 := by rw [List.length_take, v.2]; rfl
  have h8' : (v.1.drop 8).length = 8 := by rw [List.length_drop, v.2]
  have h256 : (256 : ℕ) ^ 8 = 2 ^ 64 := by norm_num
  -- the block is its high half times 2^64 plus its low half
  have hsplit : Bytes.beNat v.1
      = Bytes.beNat (v.1.take 8) * 2 ^ 64 + Bytes.beNat (v.1.drop 8) := by
    have happ := Bytes.beNat_append (v.1.take 8) (v.1.drop 8)
    rw [List.take_append_drop, h8', h256] at happ
    exact happ
  have hhi := Bytes.uint64_toNat h8
  have hlo := Bytes.uint64_toNat h8'
  set hi := Bytes.uint64 (v.1.take 8) with hhi_def
  set lo := Bytes.uint64 (v.1.drop 8) with hlo_def
  -- so is the incremented block
  have hinc : Bytes.beNat (increment v).1
      = (if lo + 1 = 0 then hi + 1 else hi).toNat * 2 ^ 64 + (lo + 1).toNat := by
    show Bytes.beNat (Bytes.putUint64 _ ++ Bytes.putUint64 _) = _
    rw [Bytes.beNat_append, ← Bytes.uint64_toNat (Bytes.length_putUint64 _),
      ← Bytes.uint64_toNat (Bytes.length_putUint64 _), Bytes.uint64_putUint64,
      Bytes.uint64_putUint64, Bytes.length_putUint64, h256]
  have hlo_succ : (lo + 1).toNat = (lo.toNat + 1) % 2 ^ 64 := UInt64.toNat_add lo 1
  have hhi_succ : (hi + 1).toNat = (hi.toNat + 1) % 2 ^ 64 := UInt64.toNat_add hi 1
  have hzero : lo + 1 = 0 ↔ (lo + 1).toNat = 0 := by
    rw [← UInt64.toNat_inj]
    rfl
  have hlo_lt := lo.toNat_lt
  have hhi_lt := hi.toNat_lt
  apply BitVec.eq_of_toNat_eq
  rw [toNat_toNum, BitVec.toNat_add, toNat_toNum, hinc, hsplit, ← hhi, ← hlo]
  have hone : (1 : BitVec 128).toNat = 1 := rfl
  rw [hone]
  -- the low half wraps exactly if it carries into the high half
  split
  · next h =>
    rw [hzero] at h
    omega
  · next h =>
    rw [hzero] at h
    omega

variable (aes : BlockCipher)

/-- The encryptions of `x + 1`, …, `x + n`, concatenated. -/
def keystream (key : ByteVec 32) (x : BitVec 128) (n : ℕ) : Bytes :=
  (List.range n).flatMap fun i => (aes key (ofNum (x + BitVec.ofNat 128 (i + 1)))).1

@[simp] theorem length_keystream (key : ByteVec 32) (x : BitVec 128) (n : ℕ) :
    (keystream aes key x n).length = 16 * n := by
  have h : ∀ i, (aes key (ofNum (x + BitVec.ofNat 128 (i + 1)))).1.length = 16 :=
    fun i => (aes key _).2
  simp [keystream, List.length_flatMap, h, Nat.mul_comm]

theorem keystream_succ (key : ByteVec 32) (x : BitVec 128) (n : ℕ) :
    keystream aes key x (n + 1) = (aes key (ofNum (x + 1))).1 ++ keystream aes key (x + 1) n := by
  rw [keystream, List.range_succ_eq_map, List.flatMap_cons, List.flatMap_map, keystream]
  congr 2
  funext i
  have h : x + BitVec.ofNat 128 (i + 1 + 1) = x + 1 + BitVec.ofNat 128 (i + 1) := by
    rw [BitVec.ofNat_add (i + 1) 1, BitVec.add_assoc, BitVec.add_comm (BitVec.ofNat 128 (i + 1))]
    rfl
  rw [h]

/-! ### The reference algorithm -/

/-- The reference state: a key and one 128-bit counter. -/
structure RefState where
  key : ByteVec 32
  v : BitVec 128
  deriving DecidableEq

/-- CTR_DRBG_Update: `Key ‖ V` becomes three encrypted counters XOR the data. -/
def RefState.update (s : RefState) (data : ByteVec 48) : RefState :=
  let kv := List.zipWith (· ^^^ ·) (keystream aes s.key s.v 3) data.1
  have h : kv.length = 48 := by rw [List.length_zipWith, length_keystream, data.2]; rfl
  ⟨⟨kv.take 32, by rw [List.length_take, h]; rfl⟩,
    toNum ⟨kv.drop 32, by rw [List.length_drop, h]⟩⟩

/-- Forty-eight zero bytes. -/
def zeroData : ByteVec 48 := ⟨List.replicate 48 0, List.length_replicate⟩

/-- Instantiation: update the zero state with the seed. -/
def RefState.new (seed : ByteVec 48) : RefState :=
  RefState.update aes ⟨⟨List.replicate 32 0, List.length_replicate⟩, 0⟩ seed

/-- Generation of `n` bytes: `⌈n/16⌉` counter blocks are consumed, the first `n`
bytes of their encryptions are the output, and the state is updated with zero
data. Nothing happens for `n = 0`. -/
def RefState.generate (n : ℕ) (s : RefState) : Bytes × RefState :=
  if n = 0 then ([], s)
  else
    let blocks := (n + 15) / 16
    ((keystream aes s.key s.v blocks).take n,
      RefState.update aes ⟨s.key, s.v + BitVec.ofNat 128 blocks⟩ zeroData)

/-- Reseeding: update with the first 48 bytes of the entropy. -/
def RefState.reseed (entropy : Bytes) (h : 48 ≤ entropy.length) (s : RefState) : RefState :=
  s.update aes ⟨entropy.take 48, by rw [List.length_take]; exact min_eq_left h⟩

/-- The reference state of a generator state. -/
def DRBG.toRef (d : DRBG) : RefState := ⟨d.key, toNum d.v⟩

/-! ### Each operation refines its reference -/

theorem updateBlocks_eq (key : ByteVec 32) (n : ℕ) (v : ByteVec 16) (temp : Bytes) :
    updateBlocks aes key n v temp = temp ++ keystream aes key (toNum v) n := by
  induction n generalizing v temp with
  | zero => simp [updateBlocks, keystream]
  | succ n ih =>
    rw [updateBlocks, ih, keystream_succ, ← toNum_increment, ofNum_toNum, List.append_assoc]

/-- XOR with data of the full width. -/
theorem xorProvided_eq_zipWith {temp provided : Bytes} (h : temp.length = provided.length) :
    xorProvided temp provided = List.zipWith (· ^^^ ·) temp provided := by
  induction temp generalizing provided with
  | nil =>
    obtain rfl := List.length_eq_zero_iff.mp h.symm
    rfl
  | cons t ts ih =>
    cases provided with
    | nil => simp at h
    | cons p ps => rw [xorProvided, List.zipWith_cons_cons, ih (by simpa using h)]

/-- No data is zero data. -/
theorem xorProvided_nil_eq_zipWith (temp : Bytes) :
    xorProvided temp [] = List.zipWith (· ^^^ ·) temp (List.replicate temp.length 0) := by
  have h : xorProvided temp [] = temp := by cases temp <;> rfl
  rw [h]
  induction temp with
  | nil => rfl
  | cons t ts ih =>
    rw [List.length_cons, List.replicate_succ, List.zipWith_cons_cons, ← ih (by cases ts <;> rfl),
      UInt8.xor_zero]

theorem toRef_updateLocked (d : DRBG) (data : ByteVec 48) :
    (d.updateLocked aes data.1).toRef = d.toRef.update aes data := by
  have htake : data.1.take seedLen = data.1 := List.take_of_length_le data.2.le
  have hblocks : updateBlocks aes d.key (seedLen / 16) d.v []
      = keystream aes d.key (toNum d.v) 3 := by
    rw [updateBlocks_eq, List.nil_append]
    rfl
  have hxor : xorProvided (updateBlocks aes d.key (seedLen / 16) d.v []) (data.1.take seedLen)
      = List.zipWith (· ^^^ ·) (keystream aes d.key (toNum d.v) 3) data.1 := by
    rw [hblocks, htake, xorProvided_eq_zipWith]
    rw [length_keystream, data.2]
  simp only [DRBG.updateLocked, DRBG.toRef, RefState.update, hxor]

theorem toRef_updateLocked_nil (d : DRBG) :
    (d.updateLocked aes []).toRef = d.toRef.update aes zeroData := by
  rw [← toRef_updateLocked]
  have hlen : (updateBlocks aes d.key (seedLen / 16) d.v []).length = 48 :=
    length_updateBlocks aes d.key (seedLen / 16) d.v []
  have hxor : xorProvided (updateBlocks aes d.key (seedLen / 16) d.v [])
        (([] : Bytes).take seedLen)
      = xorProvided (updateBlocks aes d.key (seedLen / 16) d.v []) (zeroData.1.take seedLen) := by
    rw [List.take_nil, xorProvided_nil_eq_zipWith, hlen, ← xorProvided_eq_zipWith]
    · rfl
    · rw [hlen, List.length_replicate]
  simp only [DRBG.updateLocked, hxor]

/-- **The generation loop.** From counter `v` and a buffer `buf`, the loop appends
the keystream of the blocks still missing and advances the counter by their
number. The bound on `n` keeps `uint64(len(buf))` from wrapping. -/
theorem generateLoop_eq (key : ByteVec 32) {n : UInt64} (hn : n.toNat < 2 ^ 63) (fuel : ℕ)
    (v : ByteVec 16) (buf : Bytes) (hbuf : buf.length < n.toNat + 16)
    (hfuel : n.toNat ≤ buf.length + 16 * fuel) :
    generateLoop aes key n fuel v buf
      = (buf ++ keystream aes key (toNum v) ((n.toNat - buf.length + 15) / 16),
        ofNum (toNum v + BitVec.ofNat 128 ((n.toNat - buf.length + 15) / 16))) := by
  -- a full buffer needs no more blocks
  have hdone : ∀ (w : ByteVec 16) (b : Bytes), n.toNat ≤ b.length →
      (b, w) = (b ++ keystream aes key (toNum w) ((n.toNat - b.length + 15) / 16),
        ofNum (toNum w + BitVec.ofNat 128 ((n.toNat - b.length + 15) / 16))) := by
    intro w b hb
    have h0 : (n.toNat - b.length + 15) / 16 = 0 := by omega
    rw [h0]
    simp [keystream]
  induction fuel generalizing v buf with
  | zero => exact hdone v buf (by omega)
  | succ fuel ih =>
    -- the buffer is short enough for its length to be exact
    have hlen : (UInt64.ofNat buf.length).toNat = buf.length := by
      rw [UInt64.toNat_ofNat']
      exact Nat.mod_eq_of_lt (by omega)
    rw [generateLoop]
    split
    · next hlt =>
      rw [UInt64.lt_iff_toNat_lt, hlen] at hlt
      have hlen' : (buf ++ (aes key (increment v)).1).length = buf.length + 16 := by
        rw [List.length_append, (aes key (increment v)).2]
      -- one block fewer is missing after this iteration
      have hblocks : (n.toNat - buf.length + 15) / 16
          = (n.toNat - (buf.length + 16) + 15) / 16 + 1 := by omega
      rw [ih _ _ (by omega) (by omega), hlen', hblocks, keystream_succ, toNum_increment,
        ← toNum_increment, ofNum_toNum, List.append_assoc, toNum_increment]
      congr 2
      rw [BitVec.ofNat_add, BitVec.add_assoc, BitVec.add_comm (BitVec.ofNat 128 _)]
      rfl
    · next hge =>
      rw [UInt64.lt_iff_toNat_lt, hlen] at hge
      exact hdone v buf (by omega)

theorem toRef_generate (d : DRBG) {n : UInt64} (hn : n.toNat < 2 ^ 63) :
    (d.generate aes n).1 = (d.toRef.generate aes n.toNat).1 ∧
      (d.generate aes n).2.toRef = (d.toRef.generate aes n.toNat).2 := by
  unfold DRBG.generate RefState.generate
  have hzero : n = 0 ↔ n.toNat = 0 := by
    rw [← UInt64.toNat_inj]
    rfl
  by_cases h0 : n = 0
  · rw [if_pos h0, if_pos (hzero.mp h0)]
    exact ⟨rfl, rfl⟩
  · rw [if_neg h0, if_neg (fun h => h0 (hzero.mpr h))]
    have hloop := generateLoop_eq aes d.key hn n.toNat d.v [] (by simp) (by simp; omega)
    simp only [List.nil_append, List.length_nil, Nat.sub_zero] at hloop
    rw [hloop]
    refine ⟨rfl, ?_⟩
    show (DRBG.updateLocked aes _ []).toRef = _
    rw [toRef_updateLocked_nil]
    simp only [DRBG.toRef, toNum_ofNum]

theorem toRef_reseed (d : DRBG) {entropy : Bytes} (h : 48 ≤ entropy.length) :
    ∃ d', d.reseed aes entropy = .ok d' ∧ d'.toRef = d.toRef.reseed aes entropy h := by
  refine ⟨_, if_neg (by rw [seedLen]; omega), ?_⟩
  exact toRef_updateLocked aes d ⟨entropy.take 48, by rw [List.length_take]; exact min_eq_left h⟩

theorem toRef_new (seed : ByteVec 48) :
    ∃ d, new aes seed.1 = .ok d ∧ d.toRef = RefState.new aes seed := by
  refine ⟨_, if_neg (by rw [seed.2, seedLen]; omega), ?_⟩
  have htake : seed.1.take seedLen = seed.1 := List.take_of_length_le seed.2.le
  rw [htake, toRef_updateLocked]
  rfl

/-! ### Sequences of calls -/

/-- A call of the generator's interface. -/
inductive Call
  | generate (n : UInt64)
  | reseed (entropy : Bytes)

/-- The calls the refinement covers: a request that can be allocated, and
entropy of at least the seed length. -/
def Call.Valid : Call → Prop
  | .generate n => n.toNat + 16 < 2 ^ 63
  | .reseed entropy => seedLen ≤ entropy.length

/-- One call of the generator: the bytes it returned, and the next state. A
rejected reseed leaves the state as it is. -/
def DRBG.call (d : DRBG) : Call → Except GoError Bytes × DRBG
  | .generate n => let (out, d') := d.generate aes n; (.ok out, d')
  | .reseed entropy =>
    match d.reseed aes entropy with
    | .ok d' => (.ok [], d')
    | .error e => (.error e, d)

/-- The results of a sequence of calls, and the state after it. -/
def DRBG.runCalls (d : DRBG) : List Call → List (Except GoError Bytes) × DRBG
  | [] => ([], d)
  | c :: cs =>
    let (out, d₁) := d.call aes c
    let (outs, d₂) := d₁.runCalls cs
    (out :: outs, d₂)

/-- One call of the reference algorithm. -/
def RefState.call (s : RefState) : Call → Except GoError Bytes × RefState
  | .generate n => let (out, s') := s.generate aes n.toNat; (.ok out, s')
  | .reseed entropy =>
    if h : 48 ≤ entropy.length then (.ok [], s.reseed aes entropy h) else (.ok [], s)

/-- The reference algorithm over a sequence of calls. -/
def RefState.runCalls (s : RefState) : List Call → List (Except GoError Bytes) × RefState
  | [] => ([], s)
  | c :: cs =>
    let (out, s₁) := s.call aes c
    let (outs, s₂) := s₁.runCalls cs
    (out :: outs, s₂)

/-- One call refines its reference. -/
theorem toRef_call (d : DRBG) {c : Call} (hc : c.Valid) :
    (d.call aes c).1 = (d.toRef.call aes c).1 ∧
      (d.call aes c).2.toRef = (d.toRef.call aes c).2 := by
  cases c with
  | generate n =>
    obtain ⟨hout, hstate⟩ := toRef_generate aes d (show n.toNat < 2 ^ 63 by
      have h : n.toNat + 16 < 2 ^ 63 := hc
      omega)
    exact ⟨congrArg Except.ok hout, hstate⟩
  | reseed entropy =>
    obtain ⟨d', hres, hstate⟩ := toRef_reseed aes d hc
    have hlen : 48 ≤ entropy.length := hc
    simp only [DRBG.call, RefState.call, hres, dif_pos hlen]
    exact ⟨trivial, hstate⟩

/-- Every sequence of calls refines its reference. -/
theorem toRef_runCalls (d : DRBG) {cs : List Call} (hcs : ∀ c ∈ cs, c.Valid) :
    (d.runCalls aes cs).1 = (d.toRef.runCalls aes cs).1 ∧
      (d.runCalls aes cs).2.toRef = (d.toRef.runCalls aes cs).2 := by
  induction cs generalizing d with
  | nil => exact ⟨rfl, rfl⟩
  | cons c cs ih =>
    obtain ⟨hout, hstate⟩ := toRef_call aes d (hcs c List.mem_cons_self)
    obtain ⟨houts, hend⟩ := ih (d.call aes c).2 (fun x hx => hcs x (List.mem_cons_of_mem _ hx))
    rw [hstate] at houts hend
    exact ⟨by simp only [DRBG.runCalls, RefState.runCalls, hout, houts],
      by simpa only [DRBG.runCalls, RefState.runCalls] using hend⟩

/-- **The generator refines the documented CTR_DRBG.** Instantiated from any
48-byte seed and driven by any sequence of calls, it returns the reference's
bytes and its key and counter are the reference's. -/
theorem runCalls_refines (seed : ByteVec 48) (cs : List Call) (hcs : ∀ c ∈ cs, c.Valid) :
    ∃ d, new aes seed.1 = .ok d ∧
      (d.runCalls aes cs).1 = ((RefState.new aes seed).runCalls aes cs).1 ∧
      (d.runCalls aes cs).2.toRef = ((RefState.new aes seed).runCalls aes cs).2 := by
  obtain ⟨d, hnew, hd⟩ := toRef_new aes seed
  exact ⟨d, hnew, hd ▸ toRef_runCalls aes d hcs⟩

/-- The refinement at a cipher that returns its block, with a partial last
block, an empty request and a reseed. -/
theorem runCalls_refines_zeroData :
    ∃ d, new (fun _ block => block) zeroData.1 = .ok d ∧
      (d.runCalls (fun _ block => block)
          [.generate 21, .generate 0, .reseed zeroData.1, .generate 32]).1
        = ((RefState.new (fun _ block => block) zeroData).runCalls (fun _ block => block)
          [.generate 21, .generate 0, .reseed zeroData.1, .generate 32]).1 ∧
      (d.runCalls (fun _ block => block)
          [.generate 21, .generate 0, .reseed zeroData.1, .generate 32]).2.toRef
        = ((RefState.new (fun _ block => block) zeroData).runCalls (fun _ block => block)
          [.generate 21, .generate 0, .reseed zeroData.1, .generate 32]).2 :=
  runCalls_refines _ zeroData _ (by
    intro c hc
    simp only [List.mem_cons, List.not_mem_nil, or_false] at hc
    rcases hc with rfl | rfl | rfl | rfl
    · exact (by decide : (21 : UInt64).toNat + 16 < 2 ^ 63)
    · exact (by decide : (0 : UInt64).toNat + 16 < 2 ^ 63)
    · exact zeroData.2.ge
    · exact (by decide : (32 : UInt64).toNat + 16 < 2 ^ 63))

end Csprng
