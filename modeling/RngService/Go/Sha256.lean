import Mathlib
import RngService.Lib.Bytes

/-!
# `crypto/sha256` and `crypto/hmac`

The two cryptographic functions of the audit layer. Every theorem takes them
from a `Crypto`, which fixes nothing but the digest length, so it holds of any
digest whatever; `Crypto.std` is the one the service runs with, computed word by
word, and is what concrete runs are evaluated at.
-/

/-- The digest and the keyed digest the audit layer is built on. -/
structure Crypto where
  /-- `sha256.Sum256` -/
  sha256 : Bytes → ByteVec 32
  /-- `hmac.New(sha256.New, key)` summed over the message -/
  hmac : Bytes → Bytes → ByteVec 32

namespace Sha256

/-- The round constants. -/
def roundConstants : List UInt32 := [
  0x428a2f98, 0x71374491, 0xb5c0fbcf, 0xe9b5dba5, 0x3956c25b, 0x59f111f1, 0x923f82a4, 0xab1c5ed5,
  0xd807aa98, 0x12835b01, 0x243185be, 0x550c7dc3, 0x72be5d74, 0x80deb1fe, 0x9bdc06a7, 0xc19bf174,
  0xe49b69c1, 0xefbe4786, 0x0fc19dc6, 0x240ca1cc, 0x2de92c6f, 0x4a7484aa, 0x5cb0a9dc, 0x76f988da,
  0x983e5152, 0xa831c66d, 0xb00327c8, 0xbf597fc7, 0xc6e00bf3, 0xd5a79147, 0x06ca6351, 0x14292967,
  0x27b70a85, 0x2e1b2138, 0x4d2c6dfc, 0x53380d13, 0x650a7354, 0x766a0abb, 0x81c2c92e, 0x92722c85,
  0xa2bfe8a1, 0xa81a664b, 0xc24b8b70, 0xc76c51a3, 0xd192e819, 0xd6990624, 0xf40e3585, 0x106aa070,
  0x19a4c116, 0x1e376c08, 0x2748774c, 0x34b0bcb5, 0x391c0cb3, 0x4ed8aa4a, 0x5b9cca4f, 0x682e6ff3,
  0x748f82ee, 0x78a5636f, 0x84c87814, 0x8cc70208, 0x90befffa, 0xa4506ceb, 0xbef9a3f7, 0xc67178f2]

/-- The eight working words. -/
structure Words where
  (a b c d e f g h : UInt32)

/-- The initial hash value. -/
def initial : Words :=
  ⟨0x6a09e667, 0xbb67ae85, 0x3c6ef372, 0xa54ff53a, 0x510e527f, 0x9b05688c, 0x1f83d9ab, 0x5be0cd19⟩

def rotr (x k : UInt32) : UInt32 := (x >>> k) ||| (x <<< (32 - k))

/-- One round with round constant `k` and message word `w`. -/
def round (s : Words) (k w : UInt32) : Words :=
  let t₁ := s.h + (rotr s.e 6 ^^^ rotr s.e 11 ^^^ rotr s.e 25)
    + ((s.e &&& s.f) ^^^ (~~~s.e &&& s.g)) + k + w
  let t₂ := (rotr s.a 2 ^^^ rotr s.a 13 ^^^ rotr s.a 22)
    + ((s.a &&& s.b) ^^^ (s.a &&& s.c) ^^^ (s.b &&& s.c))
  ⟨t₁ + t₂, s.a, s.b, s.c, s.d + t₁, s.e, s.f, s.g⟩

/-- The rounds, over a window of the next sixteen message words. -/
def rounds : List UInt32 → List UInt32 → Words → Words
  | k :: ks, w :: ws, s =>
    let σ₀ := rotr (ws.getD 0 0) 7 ^^^ rotr (ws.getD 0 0) 18 ^^^ (ws.getD 0 0 >>> 3)
    let σ₁ := rotr (ws.getD 13 0) 17 ^^^ rotr (ws.getD 13 0) 19 ^^^ (ws.getD 13 0 >>> 10)
    rounds ks (ws ++ [σ₁ + ws.getD 8 0 + σ₀ + w]) (round s k w)
  | _, _, s => s

def Words.add (x y : Words) : Words :=
  ⟨x.a + y.a, x.b + y.b, x.c + y.c, x.d + y.d, x.e + y.e, x.f + y.f, x.g + y.g, x.h + y.h⟩

/-- The big-endian words of a byte string. -/
def words : Bytes → List UInt32
  | a :: b :: c :: d :: rest => UInt32.ofNat (Bytes.beNat [a, b, c, d]) :: words rest
  | _ => []

/-- Compress `n` blocks of sixteen words each. -/
def blocks : ℕ → List UInt32 → Words → Words
  | 0, _, s => s
  | n + 1, ws, s => blocks n (ws.drop 16) (s.add (rounds roundConstants (ws.take 16) s))

/-- The padded message: a one bit, zeros, and the length in bits. -/
def pad (m : Bytes) : Bytes :=
  m ++ [0x80] ++ List.replicate ((119 - m.length % 64) % 64) 0 ++ Bytes.beBytes 8 (8 * m.length)

/-- `sha256.Sum256`. -/
def sum256 (m : Bytes) : ByteVec 32 :=
  let p := pad m
  let s := blocks (p.length / 64) (words p) initial
  ⟨[s.a, s.b, s.c, s.d, s.e, s.f, s.g, s.h].flatMap Bytes.putUint32, by simp⟩

/-- `hmac.New(sha256.New, key)` summed over `m`. -/
def hmac (key m : Bytes) : ByteVec 32 :=
  let k := if 64 < key.length then (sum256 key).1 else key
  let k := k ++ List.replicate (64 - k.length) 0
  sum256 (k.map (· ^^^ 0x5c) ++ (sum256 (k.map (· ^^^ 0x36) ++ m)).1)

end Sha256

/-- The functions the service runs with. -/
def Crypto.std : Crypto := ⟨Sha256.sum256, Sha256.hmac⟩

-- the digest of `"abc"` and the keyed digest of `"Hi There"` under twenty bytes `0x0b`
example : (Crypto.std.sha256 [97, 98, 99]).1.take 8 =
    [0xba, 0x78, 0x16, 0xbf, 0x8f, 0x01, 0xcf, 0xea] := by decide +kernel
example : (Crypto.std.hmac (List.replicate 20 0x0b)
    [72, 105, 32, 84, 104, 101, 114, 101]).1.take 8 =
    [0xb0, 0x34, 0x4c, 0x61, 0xd8, 0xdb, 0x38, 0x53] := by decide +kernel
