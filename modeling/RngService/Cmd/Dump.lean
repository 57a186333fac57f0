import Mathlib
import RngService.Csprng.Reference
import RngService.Entropy.Pool
import RngService.Lib.Loop

/-!
# The dump command

`runDump` of `cmd/rng-service/main.go`: it seeds a generator of its own (`newDRBG`) and writes
its output to the standard output, 64 KiB at a time (`dumpStep`), until the number of bytes of
the option `-bytes` is reached. The generator is a `Device`, and a write is a function of what
was written before. A run of the command that ends is a `RunDump`.

The loop counts in a `uint64`. It writes what was asked when the sum of the counter and one
chunk does not wrap (`leaves_exact`). From `2 ^ 64 - 65535` bytes on, the counter wraps to 0
before it reaches the number, and the loop does not end (`not_leaves`).
-/

namespace Dump

open Csprng Gateway

/-- The size of a chunk. -/
def chunk : UInt64 := 65536

/-- What stops the command. -/
inductive Exit
  /-- everything was written -/
  | done
  /-- `os.Exit(1)`, after a line on the standard error -/
  | failed (format : String) (err : GoError)
  /-- a write failed -/
  | closed

/-- `CollectForReseed` and `New`, before the loop. -/
def newDRBG (aes : BlockCipher) (crypto : Crypto) (p : Entropy.Pool) (src : Entropy.Sources) :
    Option (Except Exit DRBG) :=
  -- the tenant is "dump"
  match p.collectForReseed crypto seedLen [100, 117, 109, 112] 0 src with
  | none => none
  | some (.error err) => some (.error (.failed "entropy: %v\n" err))
  | some (.ok (seed, _)) =>
    match Csprng.new aes seed with
    | .error err => some (.error (.failed "csprng: %v\n" err))
    | .ok d => some (.ok d)

/-- The variables of the loop, and the writes to the standard output. -/
structure State (D : Type) where
  d : D
  written : UInt64
  stdout : List Bytes

/-- The size of the next chunk, with `written` bytes written. -/
def size (nBytes written : UInt64) : UInt64 :=
  let unlimited := nBytes = 0
  if ¬ unlimited ∧ written + chunk > nBytes then nBytes - written else chunk

/-- The loop condition and the body. `write` is the error of `os.Stdout.Write`. -/
def dumpStep {D : Type} (dev : Device D) (write : List Bytes → Bytes → Option GoError)
    (nBytes : UInt64) (s : State D) : Except Exit (State D) :=
  let unlimited := nBytes = 0
  if unlimited ∨ s.written < nBytes then
    let n := size nBytes s.written
    match dev.generate n s.d with
    | (.error err, _) => .error (.failed "generate: %v\n" err)
    | (.ok b, d) =>
      match write s.stdout b with
      | some _ => .error .closed
      | none => .ok ⟨d, s.written + n, s.stdout ++ [b]⟩
  else .error .done

/-- `runDump` ends with `e`, having made the writes `out`. -/
def RunDump (aes : BlockCipher) (crypto : Crypto) (p : Entropy.Pool) (src : Entropy.Sources)
    (write : List Bytes → Bytes → Option GoError) (nBytes : UInt64) (out : List Bytes) (e : Exit) :
    Prop :=
  match newDRBG aes crypto p src with
  | none => False
  | some (.error e') => out = [] ∧ e = e'
  | some (.ok d) =>
    ∃ t, Loop.Leaves (dumpStep (Device.drbg aes) write nBytes) ⟨d, 0, []⟩ t e ∧ t.stdout = out

/-! ### The generator of the command -/

variable {aes : BlockCipher}

/-- **The command fails before its loop** exactly when `getrandom` fails: a seed that was
collected is long enough for `New`. -/
theorem newDRBG_fails_iff {crypto : Crypto} {p : Entropy.Pool} {src : Entropy.Sources} :
    (∃ e, newDRBG aes crypto p src = some (.error e)) ↔ Entropy.RandomFails src seedLen := by
  have hfails := @Entropy.collectForReseed_fails_iff src p crypto seedLen [100, 117, 109, 112] 0
  rw [← hfails]
  unfold newDRBG
  cases hcollect : p.collectForReseed crypto seedLen [100, 117, 109, 112] 0 src with
  | none => simp
  | some r =>
    cases r with
    | error err => exact iff_of_true ⟨_, rfl⟩ ⟨err, rfl⟩
    | ok x =>
      obtain ⟨seed, event⟩ := x
      obtain ⟨-, hseed, -⟩ := Entropy.collectForReseed_eq_ok hcollect
      have hnew : Csprng.new aes seed = .ok _ := if_neg (not_lt.mpr hseed.ge)
      simp [hnew]

/-- `Generate` returns as many bytes as it is asked for. -/
theorem length_generate (d : DRBG) {n : UInt64} (hn : n.toNat < 2 ^ 63) :
    (d.generate aes n).1.length = n.toNat := by
  unfold DRBG.generate
  split
  · next h => rw [h]; rfl
  · have hloop := @generateLoop_eq aes d.key n hn n.toNat d.v [] (by simp) (by simp; omega)
    rw [hloop]
    simp only [List.length_take, List.nil_append, List.length_nil, length_keystream]
    omega

/-- Successive outputs of the generator, of the given sizes. -/
def outputs (aes : BlockCipher) : List UInt64 → DRBG → List Bytes
  | [], _ => []
  | n :: ns, d => (d.generate aes n).1 :: outputs aes ns (d.generate aes n).2

theorem length_outputs {ns : List UInt64} (hns : ∀ n ∈ ns, n.toNat < 2 ^ 63) (d : DRBG) :
    (outputs aes ns d).flatten.length = (ns.map UInt64.toNat).sum := by
  induction ns generalizing d with
  | nil => rfl
  | cons n ns ih =>
    obtain ⟨hn, hrest⟩ := List.forall_mem_cons.mp hns
    rw [outputs, List.flatten_cons, List.length_append, length_generate d hn, ih hrest,
      List.map_cons, List.sum_cons]

/-! ### The loop -/

variable {write : List Bytes → Bytes → Option GoError} {nBytes : UInt64}

@[simp] theorem toNat_chunk : chunk.toNat = 65536 := rfl

theorem toNat_add_chunk {written : UInt64} (h : written.toNat + 65536 < 2 ^ 64) :
    (written + chunk).toNat = written.toNat + 65536 := by
  rw [UInt64.toNat_add, toNat_chunk]
  exact Nat.mod_eq_of_lt h

/-- A whole chunk is next when the sum, which may have wrapped, does not exceed the number. -/
theorem size_eq_chunk {written : UInt64}
    (h : nBytes = 0 ∨ (written + chunk).toNat ≤ nBytes.toNat) : size nBytes written = chunk := by
  refine if_neg fun hlast => ?_
  exact absurd (UInt64.lt_iff_toNat_lt.mp hlast.2) (not_lt.mpr (h.resolve_left hlast.1))

/-- What remains is next when it fits into a chunk, and the sum does not wrap. -/
theorem size_eq_rest {written r : UInt64} (hne : nBytes ≠ 0) (hrest : written + r = nBytes)
    (hle : r ≤ chunk) (hbound : written.toNat + 65536 < 2 ^ 64) : size nBytes written = r := by
  have hr : r.toNat ≤ 65536 := hle
  have hsum : nBytes.toNat = written.toNat + r.toNat := by
    rw [← hrest, UInt64.toNat_add]
    exact Nat.mod_eq_of_lt (by omega)
  by_cases hlast : ¬ nBytes = 0 ∧ written + chunk > nBytes
  · calc size nBytes written = nBytes - written := if_pos hlast
      _ = r := by rw [← hrest, UInt64.add_comm, UInt64.add_sub_cancel]
  · have hwhole : ¬ nBytes < written + chunk := fun h => hlast ⟨hne, h⟩
    rw [UInt64.lt_iff_toNat_lt, toNat_add_chunk hbound, hsum] at hwhole
    calc size nBytes written = chunk := if_neg hlast
      _ = r := by rw [← UInt64.toNat_inj, toNat_chunk]; omega

/-- One round, with the generator of the service and writes that do not fail. -/
theorem dumpStep_more (hwrite : ∀ out b, write out b = none) {s : State DRBG} {n : UInt64}
    (hmore : nBytes = 0 ∨ s.written < nBytes) (hn : size nBytes s.written = n) :
    dumpStep (Device.drbg aes) write nBytes s
      = .ok ⟨(s.d.generate aes n).2, s.written + n, s.stdout ++ [(s.d.generate aes n).1]⟩ := by
  rw [dumpStep, if_pos hmore, hn]
  simp only [Device.drbg, hwrite]

theorem dumpStep_done {D : Type} {dev : Device D} {s : State D} (hne : nBytes ≠ 0)
    (hdone : s.written = nBytes) : dumpStep dev write nBytes s = .error .done := by
  rw [dumpStep, if_neg]
  rintro (hzero | hlt)
  · exact hne hzero
  · exact absurd hlt (hdone ▸ UInt64.lt_irrefl _)

/-- **The loop writes the rest.** With `q` chunks and one of `r` bytes missing, it writes
these; as long as the counter and a chunk do not wrap, its test finds the last one. -/
theorem leaves_exact (hwrite : ∀ out b, write out b = none) (hne : nBytes ≠ 0)
    (hbound : nBytes.toNat ≤ 2 ^ 64 - 65536) {r : UInt64} (hr : r ≠ 0) (hle : r ≤ chunk) {q : ℕ}
    {s : State DRBG} (hs : s.written.toNat + 65536 * q + r.toNat = nBytes.toNat) :
    ∃ t, Loop.Leaves (dumpStep (Device.drbg aes) write nBytes) s t .done ∧
      t.stdout = s.stdout ++ outputs aes (List.replicate q chunk ++ [r]) s.d := by
  have hpos : 0 < r.toNat := UInt64.pos_iff_ne_zero.mpr hr
  have hmore : s.written < nBytes := by
    rw [UInt64.lt_iff_toNat_lt]
    omega
  induction q generalizing s with
  | zero =>
    -- the last chunk
    have hrest : s.written + r = nBytes := by
      rw [← UInt64.toNat_inj, UInt64.toNat_add]
      omega
    have hn : size nBytes s.written = r := size_eq_rest hne hrest hle (by omega)
    refine ⟨_, .next (dumpStep_more hwrite (Or.inr hmore) hn) (.exit ?_), rfl⟩
    exact dumpStep_done hne hrest
  | succ q ih =>
    have hsum : (s.written + chunk).toNat = s.written.toNat + 65536 :=
      toNat_add_chunk (by omega)
    have hn : size nBytes s.written = chunk := size_eq_chunk (Or.inr (by omega))
    let s' : State DRBG := ⟨(s.d.generate aes chunk).2, s.written + chunk,
      s.stdout ++ [(s.d.generate aes chunk).1]⟩
    have hs' : s'.written.toNat + 65536 * q + r.toNat = nBytes.toNat := by
      rw [hsum]
      omega
    have hmore' : s'.written < nBytes := by
      rw [UInt64.lt_iff_toNat_lt]
      omega
    obtain ⟨t, hleaves, hout⟩ := ih hs' hmore'
    refine ⟨t, .next (dumpStep_more hwrite (Or.inr hmore) hn) hleaves, ?_⟩
    rw [hout, List.append_assoc]
    rfl

/-- **The counter wraps.** Within a chunk of the end of the type, no count of chunks reaches the
number, and no sum of a count and a chunk exceeds it. -/
theorem not_leaves (hwrite : ∀ out b, write out b = none)
    (hbound : nBytes = 0 ∨ 2 ^ 64 - 65536 < nBytes.toNat) {s t : State DRBG} {e : Exit}
    (hs : s.written.toNat % 65536 = 0) :
    ¬ Loop.Leaves (dumpStep (Device.drbg aes) write nBytes) s t e := by
  refine Loop.not_leaves (I := fun s => s.written.toNat % 65536 = 0) (fun s hs => ?_) hs
  have hlt := s.written.toNat_lt
  have hsum : (s.written + chunk).toNat = (s.written.toNat + 65536) % 2 ^ 64 :=
    UInt64.toNat_add s.written chunk
  have hmore : nBytes = 0 ∨ s.written < nBytes := by
    refine hbound.imp_right fun hbig => ?_
    rw [UInt64.lt_iff_toNat_lt]
    omega
  have hn : size nBytes s.written = chunk :=
    size_eq_chunk (hbound.imp_right fun hbig => by omega)
  refine ⟨_, dumpStep_more hwrite hmore hn, ?_⟩
  rw [hsum]
  omega

/-- **The dump writes what was asked**: the loop ends, and has written as many bytes, as
successive outputs of the generator, of one chunk each and the last one of what remains. -/
def WritesExactly (aes : BlockCipher) (write : List Bytes → Bytes → Option GoError)
    (nBytes : UInt64) (d : DRBG) : Prop :=
  ∃ t, Loop.Leaves (dumpStep (Device.drbg aes) write nBytes) ⟨d, 0, []⟩ t .done ∧
    t.stdout.flatten.length = nBytes.toNat ∧
    ∃ (q : ℕ) (r : UInt64), r ≠ 0 ∧ r ≤ chunk ∧
      t.stdout = outputs aes (List.replicate q chunk ++ [r]) d

/-- A number of bytes is some chunks and a last one. -/
theorem exists_chunks (hne : nBytes ≠ 0) : ∃ (q : ℕ) (r : UInt64), r ≠ 0 ∧ r ≤ chunk ∧
    65536 * q + r.toNat = nBytes.toNat := by
  have hpos : 0 < nBytes.toNat := UInt64.pos_iff_ne_zero.mpr hne
  have hr : (UInt64.ofNat ((nBytes.toNat - 1) % 65536 + 1)).toNat
      = (nBytes.toNat - 1) % 65536 + 1 := by
    rw [UInt64.toNat_ofNat']
    omega
  refine ⟨(nBytes.toNat - 1) / 65536, UInt64.ofNat ((nBytes.toNat - 1) % 65536 + 1), ?_, ?_, ?_⟩
  · rw [ne_eq, ← UInt64.toNat_inj, hr]
    exact Nat.succ_ne_zero _
  · rw [UInt64.le_iff_toNat_le, hr]
    exact Nat.mod_lt _ (by decide)
  · rw [hr]
    omega

variable {d : DRBG}

/-- Up to a chunk below the end of the type, the dump writes what was asked. -/
theorem writesExactly_of_le (hwrite : ∀ out b, write out b = none) (hne : nBytes ≠ 0)
    (hbound : nBytes.toNat ≤ 2 ^ 64 - 65536) : WritesExactly aes write nBytes d := by
  obtain ⟨q, r, hr, hle, hsum⟩ := exists_chunks hne
  obtain ⟨t, hleaves, hout⟩ := leaves_exact hwrite hne hbound hr hle (s := ⟨d, 0, []⟩)
    ((congrArg (· + r.toNat) (Nat.zero_add _)).trans hsum)
  rw [List.nil_append] at hout
  refine ⟨t, hleaves, ?_, q, r, hr, hle, hout⟩
  have hsizes : ∀ n ∈ List.replicate q chunk ++ [r], n.toNat < 2 ^ 63 := by
    intro n hn
    rcases List.mem_append.mp hn with hn | hn
    · rw [List.eq_of_mem_replicate hn]
      decide
    · rw [List.mem_singleton.mp hn]
      exact lt_of_le_of_lt hle (by decide)
  rw [hout, length_outputs hsizes, ← hsum]
  simp [chunk, Nat.mul_comm]

/-- **The dump writes exactly what was asked** if and only if no sum of the counter and a chunk
wraps before the end. -/
theorem dump_exact_iff (aes : BlockCipher) (d : DRBG)
    {write : List Bytes → Bytes → Option GoError} (hwrite : ∀ out b, write out b = none)
    {nBytes : UInt64} (hne : nBytes ≠ 0) :
    WritesExactly aes write nBytes d ↔ nBytes.toNat ≤ 2 ^ 64 - 65536 := by
  refine ⟨fun hexact => ?_, writesExactly_of_le hwrite hne⟩
  obtain ⟨t, hleaves, -⟩ := hexact
  by_contra hbound
  exact not_leaves hwrite (Or.inr (not_le.mp hbound)) rfl hleaves

/-- A generator with some key. -/
def sampleDRBG : DRBG := ⟨Sha256.sum256 [], zeroBlock, 0⟩

theorem dump_exact_iff_two : WritesExactly (fun _ b => b) (fun _ _ => none) 65537 sampleDRBG :=
  (dump_exact_iff (fun _ b => b) sampleDRBG (fun _ _ => rfl) (by decide)).mpr (by decide)

/-- **Asked for the largest number**, the dump never ends. -/
theorem largest_dump_endless :
    ¬ WritesExactly (fun _ b => b) (fun _ _ => none) 18446744073709551615 sampleDRBG := by
  rintro ⟨t, hleaves, -⟩
  exact not_leaves (fun _ _ => rfl) (Or.inr (by decide)) rfl hleaves

/-- **A run of the command** that has got its seed ends with everything written. -/
theorem runDump_done {crypto : Crypto} {p : Entropy.Pool} {src : Entropy.Sources}
    (hseed : newDRBG aes crypto p src = some (.ok d)) (hwrite : ∀ out b, write out b = none)
    (hne : nBytes ≠ 0) (hbound : nBytes.toNat ≤ 2 ^ 64 - 65536) :
    ∃ out, RunDump aes crypto p src write nBytes out .done ∧
      out.flatten.length = nBytes.toNat := by
  obtain ⟨t, hleaves, hlen, -⟩ := @writesExactly_of_le aes write nBytes d hwrite hne hbound
  refine ⟨t.stdout, ?_, hlen⟩
  rw [RunDump, hseed]
  exact ⟨t, hleaves, rfl⟩

/-- **Without a limit** a run of the command never ends once it has got its seed. -/
theorem runDump_unlimited {crypto : Crypto} {p : Entropy.Pool} {src : Entropy.Sources}
    {out : List Bytes} {e : Exit} (hseed : newDRBG aes crypto p src = some (.ok d))
    (hwrite : ∀ out b, write out b = none) : ¬ RunDump aes crypto p src write 0 out e := by
  rw [RunDump, hseed]
  rintro ⟨t, hleaves, -⟩
  exact not_leaves hwrite (Or.inl rfl) rfl hleaves

end Dump
