import Mathlib
import RngService.Gateway.World
import RngService.Lib.Fill

/-!
# The entropy pool

`Pool.Read` and `Pool.CollectForReseed` of `internal/entropy/pool.go`, with `readEntropy` of
`getrandom_linux.go`. What the surroundings do is a `Sources`: the outcomes of the calls of
`getrandom`, in their order, whether the device of the HWRNG can be opened, and the outcomes of
the reads from it. A function has no result as long as it waits for one of the sources. The
mutex of the pool makes each `Read` happen alone, and is left out.

Both loops, `readEntropy` and `io.ReadFull`, are the loop of `Fill`, so `read_eq_ok` and
`read_fails_iff` say of all sources what `Read` comes to: all of the bytes, or none
(`read_all_or_nothing`). To the gateway a collection is one of its operations, in some
surroundings (`exec_collectForReseed`). The label that `CollectForReseed` gives to a seed only
looks at the configuration. It is right when the HWRNG is not configured, and when it does its
part (`honest_iff`).
-/

namespace Entropy

/-- `entropy.Pool`: the path of the HWRNG, empty if there is none. -/
structure Pool where
  hwrngPath : GoString

/-- What the sources of entropy do during a call. -/
structure Sources where
  /-- the outcomes of `syscall.Getrandom` -/
  getrandom : List (Except GoError Bytes)
  /-- the error of `os.Open`, if it fails -/
  openErr : Option GoError
  /-- the outcomes of the reads from the open device -/
  hwrng : List (Except GoError Bytes)
  /-- `time.Now().UTC()` -/
  now : Time

/-- `syscall.EINTR` -/
def eintr : GoError := .text "interrupted system call"

/-- `io.EOF` -/
def eof : GoError := .text "EOF"

/-- `io.ErrUnexpectedEOF` -/
def unexpectedEOF : GoError := .text "unexpected EOF"

/-- `readEntropy`: the buffer after it, and its error. A call of `getrandom` brings at least one
byte, and no more than are left in the buffer. -/
def readEntropy : List (Except GoError Bytes) → Bytes → Option (Bytes × Option GoError)
  | _, [] => some ([], none)
  | [], _ :: _ => none
  | .error err :: calls, a :: b =>
    if err = eintr then readEntropy calls (a :: b) else some (a :: b, some err)
  | .ok bytes :: calls, a :: b =>
    if bytes = [] ∨ (a :: b).length < bytes.length then none
    else (readEntropy calls ((a :: b).drop bytes.length)).map fun x => (bytes ++ x.1, x.2)

/-- `io.ReadFull`. An end of the file inside the buffer is unexpected. -/
def readFull (reads : List (Except GoError Bytes)) (buf : Bytes) : Option (Except GoError Bytes) :=
  (Fill.fill (fun _ => false) reads buf).map fun o =>
    match o.err with
    | none => .ok o.filled
    | some err => .error (if o.filled ≠ [] ∧ err = eof then unexpectedEOF else err)

/-- `readHWRNG` -/
def readHWRNG (src : Sources) (n : ℕ) : Option (Except GoError Bytes) :=
  match src.openErr with
  | some err => some (.error err)
  | none => readFull src.hwrng (List.replicate n 0)

/-- `b[i] ^= hw[i]` for all indices. -/
def mix (b hw : Bytes) : Bytes := List.zipWith (· ^^^ ·) b hw

/-- `Read`: the buffer after it, and its results. A failure of the HWRNG is not reported. -/
def Pool.read (p : Pool) (src : Sources) (b : Bytes) : Option (Bytes × Except GoError ℕ) :=
  match readEntropy src.getrandom b with
  | none => none
  | some (b, some err) => some (b, .error (.wrap "entropy: getrandom: %w" [] err))
  | some (b, none) =>
    if p.hwrngPath ≠ [] then
      match readHWRNG src b.length with
      | none => none
      | some (.error _) => some (b, .ok b.length)
      | some (.ok hw) => some (mix b hw, .ok b.length)
    else some (b, .ok b.length)

/-- `ReseedEvent` -/
structure ReseedEvent where
  timestampUTC : Time
  tenantID : GoString
  entropySource : String
  seedHash : GoString
  outputsSinceLastReseed : UInt64

variable (crypto : Crypto)

/-- `CollectForReseed`. A negative size is a run-time panic; the callers pass `SeedLen`. -/
def Pool.collectForReseed (p : Pool) (size : ℕ) (tenantID : GoString) (outputsSince : UInt64)
    (src : Sources) : Option (Except GoError (Bytes × ReseedEvent)) :=
  match p.read src (List.replicate size 0) with
  | none => none
  | some (_, .error err) => some (.error (.wrap "entropy: collect for reseed: %w" [] err))
  | some (buf, .ok _) =>
    let source := if p.hwrngPath ≠ [] then "getrandom+hwrng" else "getrandom"
    let h := crypto.sha256 buf
    some (.ok (buf, ⟨src.now, tenantID, source, Hex.encodeToString h.1, outputsSince⟩))

/-! ### What the sources bring -/

/-- `err == syscall.EINTR`, the errors that `readEntropy` retries. -/
def interrupted (err : GoError) : Bool := err = eintr

/-- The successful calls of `getrandom` bring the bytes, in order. -/
def Random (src : Sources) (G : Bytes) : Prop := Fill.Delivers interrupted src.getrandom G

/-- `getrandom` fails with another error than `EINTR` before it has brought `n` bytes. -/
def RandomFails (src : Sources) (n : ℕ) : Prop :=
  ∃ err, Fill.Breaks interrupted src.getrandom n err

/-- The device can be opened, and the bytes are read from it. -/
def Hardware (src : Sources) (H : Bytes) : Prop :=
  src.openErr = none ∧ Fill.Delivers (fun _ => false) src.hwrng H

/-- The device cannot be opened, or fails before it has brought `n` bytes. -/
def HardwareFails (src : Sources) (n : ℕ) : Prop :=
  src.openErr ≠ none ∨ ∃ err, Fill.Breaks (fun _ => false) src.hwrng n err

/-! ### The loops -/

variable {src : Sources} {b : Bytes}

/-- `readEntropy` is the loop of `Fill` that retries after interrupts. -/
theorem readEntropy_eq_fill (calls : List (Except GoError Bytes)) (b : Bytes) :
    readEntropy calls b
      = (Fill.fill interrupted calls b).map fun o => (o.filled ++ o.rest, o.err) := by
  induction calls generalizing b with
  | nil => cases b <;> rfl
  | cons x calls ih =>
    cases b with
    | nil => rfl
    | cons a b =>
      cases x with
      | error err =>
        rw [readEntropy, Fill.fill, interrupted]
        by_cases h : err = eintr
        · rw [if_pos h, if_pos (decide_eq_true h)]
          exact ih (a :: b)
        · rw [if_neg h, if_neg (by simpa using h)]
          rfl
      | ok bytes =>
        rw [readEntropy, Fill.fill]
        split
        · rfl
        · rw [ih, Option.map_map, Option.map_map]
          refine congrArg (fun f => Option.map f _) (funext fun o => ?_)
          simp only [Function.comp, List.append_assoc]

theorem readEntropy_eq_full {b' : Bytes} :
    readEntropy src.getrandom b = some (b', none) ↔ b'.length = b.length ∧ Random src b' := by
  rw [readEntropy_eq_fill, Option.map_eq_some_iff]
  constructor
  · rintro ⟨⟨filled, rest, err⟩, ho, heq⟩
    obtain ⟨hbuf, herr⟩ := Prod.mk.inj heq
    simp only at hbuf herr
    subst herr
    obtain ⟨rfl, hlen, hdel⟩ := Fill.fill_eq_full.mp ho
    rw [List.append_nil] at hbuf
    subst hbuf
    exact ⟨hlen, hdel⟩
  · rintro ⟨hlen, hdel⟩
    exact ⟨⟨b', [], none⟩, Fill.fill_eq_full.mpr ⟨rfl, hlen, hdel⟩, by rw [List.append_nil]⟩

theorem readEntropy_fails_iff :
    (∃ b' err, readEntropy src.getrandom b = some (b', some err)) ↔ RandomFails src b.length := by
  simp only [readEntropy_eq_fill, Option.map_eq_some_iff]
  constructor
  · rintro ⟨b', err, ⟨filled, rest, err'⟩, ho, heq⟩
    obtain rfl : err' = some err := (Prod.mk.inj heq).2
    exact ⟨err, Fill.fill_eq_failed.mp ⟨filled, rest, ho⟩⟩
  · rintro ⟨err, hbreaks⟩
    obtain ⟨filled, rest, ho⟩ := Fill.fill_eq_failed.mpr hbreaks
    exact ⟨_, err, _, ho, rfl⟩

theorem readHWRNG_eq_ok {n : ℕ} {hw : Bytes} :
    readHWRNG src n = some (.ok hw) ↔ hw.length = n ∧ Hardware src hw := by
  unfold readHWRNG Hardware
  cases hopen : src.openErr with
  | some err => simp
  | none =>
    simp only [readFull, Option.map_eq_some_iff]
    constructor
    · rintro ⟨⟨filled, rest, err⟩, ho, heq⟩
      cases err with
      | some err => cases heq
      | none =>
        obtain rfl := Except.ok.inj heq
        obtain ⟨-, hlen, hdel⟩ := Fill.fill_eq_full.mp ho
        exact ⟨hlen.trans List.length_replicate, trivial, hdel⟩
    · rintro ⟨hlen, -, hdel⟩
      exact ⟨⟨hw, [], none⟩, Fill.fill_eq_full.mpr
        ⟨rfl, hlen.trans List.length_replicate.symm, hdel⟩, rfl⟩

theorem readHWRNG_fails_iff {n : ℕ} :
    (∃ err, readHWRNG src n = some (.error err)) ↔ HardwareFails src n := by
  unfold readHWRNG HardwareFails
  cases hopen : src.openErr with
  | some err => exact iff_of_true ⟨err, rfl⟩ (Or.inl (Option.some_ne_none err))
  | none =>
    simp only [readFull, Option.map_eq_some_iff, ne_eq, not_true_eq_false, false_or]
    constructor
    · rintro ⟨err, ⟨filled, rest, err'⟩, ho, heq⟩
      cases err' with
      | none => cases heq
      | some err' =>
        have hbreaks := Fill.fill_eq_failed.mp ⟨filled, rest, ho⟩
        rw [List.length_replicate] at hbreaks
        exact ⟨err', hbreaks⟩
    · rintro ⟨err, hbreaks⟩
      rw [← @List.length_replicate UInt8 n 0] at hbreaks
      obtain ⟨filled, rest, ho⟩ := Fill.fill_eq_failed.mpr hbreaks
      exact ⟨_, _, ho, rfl⟩

/-! ### `Read` -/

variable {p : Pool}

/-- With a HWRNG that does its part, its bytes are mixed in. -/
theorem read_mixed {G H : Bytes} (hG : G.length = b.length) (hrandom : Random src G)
    (hpath : p.hwrngPath ≠ []) (hH : H.length = b.length) (hhard : Hardware src H) :
    p.read src b = some (mix G H, .ok b.length) := by
  have hread := readEntropy_eq_full.mpr ⟨hG, hrandom⟩
  have hhw := readHWRNG_eq_ok.mpr ⟨hH, hhard⟩
  rw [Pool.read, hread]
  simp only [if_pos hpath, hG, hhw]

/-- Without one, the bytes of `getrandom` stay as they are. -/
theorem read_plain {G : Bytes} (hG : G.length = b.length) (hrandom : Random src G)
    (hplain : p.hwrngPath = [] ∨ HardwareFails src b.length) :
    p.read src b = some (G, .ok b.length) := by
  have hread := readEntropy_eq_full.mpr ⟨hG, hrandom⟩
  rw [Pool.read, hread]
  simp only [hG]
  rcases hplain with hnone | hfails
  · rw [if_neg (not_not.mpr hnone)]
  · obtain ⟨err, hhw⟩ := readHWRNG_fails_iff.mpr hfails
    simp only [hhw, ite_self]

/-- **What `Read` returns**: the bytes of `getrandom`, mixed with those of the HWRNG exactly
when all of them can be had. -/
theorem read_eq_ok {b' : Bytes} {n : ℕ} : p.read src b = some (b', .ok n) ↔
    n = b.length ∧ ∃ G, G.length = b.length ∧ Random src G ∧
      ((p.hwrngPath ≠ [] ∧ ∃ H, H.length = b.length ∧ Hardware src H ∧ b' = mix G H) ∨
        ((p.hwrngPath = [] ∨ HardwareFails src b.length) ∧ b' = G)) := by
  constructor
  · intro h
    cases hread : readEntropy src.getrandom b with
    | none => rw [Pool.read, hread] at h; cases h
    | some x =>
      obtain ⟨G, err | err⟩ := x
      · obtain ⟨hG, hrandom⟩ := readEntropy_eq_full.mp hread
        by_cases hpath : p.hwrngPath = []
        · rw [read_plain hG hrandom (Or.inl hpath)] at h
          obtain ⟨rfl, hn⟩ := Prod.mk.inj (Option.some.inj h)
          exact ⟨(Except.ok.inj hn).symm, _, hG, hrandom, Or.inr ⟨Or.inl hpath, rfl⟩⟩
        -- the HWRNG is asked for as many bytes
        cases hhw : readHWRNG src b.length with
        | none =>
          rw [Pool.read, hread] at h
          simp only [if_pos hpath, hG, hhw] at h
          cases h
        | some r =>
          cases r with
          | error err =>
            have hfails := readHWRNG_fails_iff.mp ⟨err, hhw⟩
            rw [read_plain hG hrandom (Or.inr hfails)] at h
            obtain ⟨rfl, hn⟩ := Prod.mk.inj (Option.some.inj h)
            exact ⟨(Except.ok.inj hn).symm, _, hG, hrandom, Or.inr ⟨Or.inr hfails, rfl⟩⟩
          | ok H =>
            obtain ⟨hH, hhard⟩ := readHWRNG_eq_ok.mp hhw
            rw [read_mixed hG hrandom hpath hH hhard] at h
            obtain ⟨rfl, hn⟩ := Prod.mk.inj (Option.some.inj h)
            exact ⟨(Except.ok.inj hn).symm, G, hG, hrandom, Or.inl ⟨hpath, H, hH, hhard, rfl⟩⟩
      · rw [Pool.read, hread] at h
        cases h
  · rintro ⟨rfl, G, hG, hrandom, ⟨hpath, H, hH, hhard, rfl⟩ | ⟨hplain, rfl⟩⟩
    · exact read_mixed hG hrandom hpath hH hhard
    · exact read_plain hG hrandom hplain

/-- **`Read` fails** exactly when `getrandom` does. -/
theorem read_fails_iff :
    (∃ b' err, p.read src b = some (b', .error err)) ↔ RandomFails src b.length := by
  rw [← readEntropy_fails_iff]
  unfold Pool.read
  cases hread : readEntropy src.getrandom b with
  | none => simp
  | some x =>
    obtain ⟨G, err | err⟩ := x
    · refine iff_of_false ?_ (by simp)
      rintro ⟨b', err, h⟩
      simp only at h
      split at h
      · cases hhw : readHWRNG src G.length with
        | none => rw [hhw] at h; cases h
        | some r => rw [hhw] at h; cases r <;> cases h
      · cases h
    · exact iff_of_true ⟨G, _, rfl⟩ ⟨G, err, rfl⟩

theorem length_mix {G H : Bytes} (h : G.length = H.length) : (mix G H).length = G.length := by
  rw [mix, List.length_zipWith, h, Nat.min_self]

theorem read_length {b' : Bytes} {n : ℕ} (h : p.read src b = some (b', .ok n)) :
    b'.length = b.length := by
  obtain ⟨-, G, hG, -, ⟨-, H, hH, -, rfl⟩ | ⟨-, rfl⟩⟩ := read_eq_ok.mp h
  · exact (length_mix (hG.trans hH.symm)).trans hG
  · exact hG

/-- **Entropy collection is all or nothing.** A buffer is read exactly when it is filled with the
bytes of `getrandom`, in their order, and then holds their sum with as many bytes of the HWRNG, if
all of these can be had, and else the bytes of `getrandom` alone; and `Read` fails exactly when
`getrandom` does, with another error than `EINTR`, before the buffer is full. -/
theorem read_all_or_nothing (p : Pool) (src : Sources) (b : Bytes) :
    (∀ b' n, p.read src b = some (b', .ok n) ↔ n = b.length ∧
      ∃ G, G.length = b.length ∧ Random src G ∧
        ((p.hwrngPath ≠ [] ∧ ∃ H, H.length = b.length ∧ Hardware src H ∧ b' = mix G H) ∨
          ((p.hwrngPath = [] ∨ HardwareFails src b.length) ∧ b' = G))) ∧
    ((∃ b' err, p.read src b = some (b', .error err)) ↔ RandomFails src b.length) :=
  ⟨fun _ _ => read_eq_ok, read_fails_iff⟩

/-- The pool of a service with `RNG_HWRNG_PATH=/dev/hwrng`. -/
def devHWRNG : Pool := ⟨[47, 100, 101, 118, 47, 104, 119, 114, 110, 103]⟩

/-- An interrupt and two short reads, and a device that gives its bytes in two reads. -/
def shortReads : Sources :=
  ⟨[.error eintr, .ok (List.replicate 40 1), .ok (List.replicate 8 2)], none,
    [.ok (List.replicate 32 4), .ok (List.replicate 16 4)], 0⟩

/-- The seed that they give. -/
def shortSeed : Bytes := List.replicate 40 5 ++ List.replicate 8 6

theorem hardware_shortReads : Hardware shortReads (List.replicate Csprng.seedLen 4) :=
  ⟨rfl, [.ok (List.replicate 32 4), .ok (List.replicate 16 4)], [], rfl, by simp [Fill.GoesOn], rfl⟩

/-- A seed is read, in spite of the interrupt. -/
theorem read_all_or_nothing_shortReads :
    devHWRNG.read shortReads (List.replicate Csprng.seedLen 0)
      = some (shortSeed, .ok Csprng.seedLen) := by
  have hrandom : Random shortReads (List.replicate 40 1 ++ List.replicate 8 2) :=
    ⟨shortReads.getrandom, [], rfl, by simp [shortReads, Fill.GoesOn, interrupted], rfl⟩
  exact ((read_all_or_nothing devHWRNG shortReads _).1 shortSeed Csprng.seedLen).mpr
    ⟨rfl, List.replicate 40 1 ++ List.replicate 8 2, rfl, hrandom,
      Or.inl ⟨List.cons_ne_nil _ _, List.replicate Csprng.seedLen 4, rfl, hardware_shortReads, rfl⟩⟩

/-- The label of a configuration. -/
def Pool.label (p : Pool) : String :=
  if p.hwrngPath ≠ [] then "getrandom+hwrng" else "getrandom"

/-- **What a collection returns**: the error of `Read`, or its buffer with an event. -/
theorem collectForReseed_cases {crypto : Crypto} {size : ℕ} {tenantID : GoString}
    {outputsSince : UInt64} {r : Except GoError (Bytes × ReseedEvent)}
    (h : p.collectForReseed crypto size tenantID outputsSince src = some r) :
    (∃ buf err, p.read src (List.replicate size 0) = some (buf, .error err) ∧
      r = .error (.wrap "entropy: collect for reseed: %w" [] err)) ∨
    ∃ buf n, p.read src (List.replicate size 0) = some (buf, .ok n) ∧ buf.length = size ∧
      r = .ok (buf, ⟨src.now, tenantID, p.label, Hex.encodeToString (crypto.sha256 buf).1,
        outputsSince⟩) := by
  unfold Pool.collectForReseed at h
  cases hread : p.read src (List.replicate size 0) with
  | none => rw [hread] at h; cases h
  | some x =>
    rw [hread] at h
    obtain ⟨buf, err | n⟩ := x
    · exact Or.inl ⟨buf, err, rfl, (Option.some.inj h).symm⟩
    · have hbuf : buf.length = size := (read_length hread).trans List.length_replicate
      exact Or.inr ⟨buf, n, rfl, hbuf, (Option.some.inj h).symm⟩

/-- **The pool is a source of the gateway**: what a collection returns is what the operation
returns in some surroundings, and it leaves the state behind the server alone. -/
theorem exec_collectForReseed {crypto : Crypto} {size : ℕ} {tenantID : GoString}
    {outputsSince : UInt64} {r : Except GoError (Bytes × ReseedEvent)}
    (h : p.collectForReseed crypto size tenantID outputsSince src = some r) :
    ∃ e : Gateway.Env, ∀ (D : Type) (dev : Gateway.Device D) (w : Gateway.World D),
      Gateway.exec dev crypto (.collectForReseed size tenantID outputsSince) e w
        = some (r.map Prod.fst, w) := by
  rcases collectForReseed_cases h with ⟨buf, err, -, rfl⟩ | ⟨buf, n, -, hbuf, rfl⟩
  · exact ⟨{ entropy := .error err }, fun D dev w => rfl⟩
  · -- the operation cuts or pads what it is given to the size, and this needs neither
    have hexact : buf.take size ++ List.replicate (size - buf.length) 0 = buf := by
      rw [List.take_of_length_le hbuf.le, hbuf, Nat.sub_self, List.replicate_zero,
        List.append_nil]
    exact ⟨{ entropy := .ok buf }, fun D dev w =>
      congrArg (fun seed => some (Except.ok seed, w)) hexact⟩

/-! ### The label of a re-seed -/

variable {crypto}

/-- Bytes of the HWRNG were XORed into the seed. -/
def Xored (p : Pool) (src : Sources) (seed : Bytes) : Prop :=
  p.hwrngPath ≠ [] ∧ ∃ G H, G.length = seed.length ∧ Random src G ∧ H.length = seed.length ∧
    Hardware src H ∧ H ≠ [] ∧ seed = mix G H

/-- **The record tells the truth about its source.** -/
def Honest (p : Pool) (src : Sources) (seed : Bytes) (event : ReseedEvent) : Prop :=
  (event.entropySource = "getrandom+hwrng" ↔ Xored p src seed) ∧
    (event.entropySource = "getrandom" ↔ ¬ Xored p src seed)

/-- A successful collection is a successful `Read`, with the label of the configuration. -/
theorem collectForReseed_eq_ok {size : ℕ} {tenantID : GoString} {outputsSince : UInt64}
    {seed : Bytes} {event : ReseedEvent}
    (h : p.collectForReseed crypto size tenantID outputsSince src = some (.ok (seed, event))) :
    (∃ n, p.read src (List.replicate size 0) = some (seed, .ok n)) ∧ seed.length = size ∧
      event.entropySource = p.label := by
  rcases collectForReseed_cases h with ⟨buf, err, -, heq⟩ | ⟨buf, n, hread, hbuf, heq⟩
  · cases heq
  · obtain ⟨rfl, rfl⟩ := Prod.mk.inj (Except.ok.inj heq)
    exact ⟨⟨n, hread⟩, hbuf, rfl⟩

/-- **A collection fails** exactly when `getrandom` does. -/
theorem collectForReseed_fails_iff {crypto : Crypto} {size : ℕ} {tenantID : GoString}
    {outputsSince : UInt64} :
    (∃ err, p.collectForReseed crypto size tenantID outputsSince src = some (.error err)) ↔
      RandomFails src size := by
  have hread := @read_fails_iff src (List.replicate size 0) p
  rw [List.length_replicate] at hread
  rw [← hread]
  unfold Pool.collectForReseed
  cases p.read src (List.replicate size 0) with
  | none => simp
  | some x =>
    obtain ⟨buf, err | n⟩ := x
    · exact iff_of_true ⟨_, rfl⟩ ⟨buf, err, rfl⟩
    · simp

/-- Bytes of the HWRNG are in the seed when it is configured, gives all of them, and there are
any. -/
theorem xored_iff {seed : Bytes} {n : ℕ} (h : p.read src b = some (seed, .ok n)) :
    Xored p src seed ↔
      p.hwrngPath ≠ [] ∧ 0 < b.length ∧ ∃ H, H.length = b.length ∧ Hardware src H := by
  obtain ⟨-, G, hG, hrandom, -⟩ := read_eq_ok.mp h
  have hseed := read_length h
  constructor
  · rintro ⟨hpath, G', H, -, -, hH, hhard, hne, -⟩
    rw [hseed] at hH
    exact ⟨hpath, hH ▸ List.length_pos_of_ne_nil hne, H, hH, hhard⟩
  · rintro ⟨hpath, hpos, H, hH, hhard⟩
    have hmixed := read_mixed hG hrandom hpath hH hhard
    obtain ⟨rfl, -⟩ := Prod.mk.inj (Option.some.inj (h.symm.trans hmixed))
    have hne : H ≠ [] := List.length_pos_iff.mp (hH ▸ hpos)
    exact ⟨hpath, G, H, hG.trans hseed.symm, hrandom, hH.trans hseed.symm, hhard, hne, rfl⟩

/-- **The record of a re-seed is honest** exactly when the HWRNG is not configured, or gives
all of the bytes of a seed that is not empty. -/
theorem honest_iff (crypto : Crypto) (p : Pool) (src : Sources) {size : ℕ} {tenantID : GoString}
    {outputsSince : UInt64} {seed : Bytes} {event : ReseedEvent}
    (h : p.collectForReseed crypto size tenantID outputsSince src = some (.ok (seed, event))) :
    Honest p src seed event ↔
      p.hwrngPath = [] ∨ (0 < size ∧ ∃ H, H.length = size ∧ Hardware src H) := by
  obtain ⟨⟨n, hread⟩, -, hlabel⟩ := collectForReseed_eq_ok h
  have hxored := xored_iff hread
  rw [List.length_replicate] at hxored
  have hne : "getrandom+hwrng" ≠ "getrandom" := by decide
  rw [Honest, hxored, hlabel]
  by_cases hpath : p.hwrngPath = []
  · simp [Pool.label, hpath, hne.symm]
  · simp [Pool.label, hpath, hne]

theorem honest_iff_shortReads : ∃ event,
    devHWRNG.collectForReseed Crypto.std Csprng.seedLen [116] 0 shortReads
      = some (.ok (shortSeed, event)) ∧
    Honest devHWRNG shortReads shortSeed event := by
  refine ⟨_, rfl, ?_⟩
  apply (@honest_iff Crypto.std devHWRNG shortReads Csprng.seedLen [116] 0 _ _ rfl).mpr
  exact Or.inr ⟨by decide, List.replicate Csprng.seedLen 4, rfl, hardware_shortReads⟩

/-- The device is not there. -/
def absentDevice : Sources :=
  ⟨[.ok (List.replicate Csprng.seedLen 1)],
    some (.text "open /dev/hwrng: no such file or directory"), [], 0⟩

/-- **The label of an absent device**: the seed is what `getrandom` gave, and the record says
that the HWRNG was mixed in. -/
theorem absent_device_named : ∃ event,
    devHWRNG.collectForReseed Crypto.std Csprng.seedLen [116] 0 absentDevice
      = some (.ok (List.replicate Csprng.seedLen 1, event)) ∧
    event.entropySource = "getrandom+hwrng" ∧
    ¬ Xored devHWRNG absentDevice (List.replicate Csprng.seedLen 1) ∧
    ¬ Honest devHWRNG absentDevice (List.replicate Csprng.seedLen 1) event := by
  have hplain : ¬ Xored devHWRNG absentDevice (List.replicate Csprng.seedLen 1) := by
    rintro ⟨-, G, H, -, -, -, ⟨hopen, -⟩, -⟩
    cases hopen
  exact ⟨_, rfl, rfl, hplain, fun hhonest => hplain (hhonest.1.mp rfl)⟩

end Entropy
