import Mathlib
import RngService.Audit.Log

/-!
# The check of the binary

`ComputeBinaryHash` and the `Checker` of `internal/health/binary.go`. What the system says
about the executable is an `Executable`: where it is, and what is read from there.

A checker is only made for the binary that was built, or for a development build
(`newChecker_eq_ok`). After that `Verify` accepts the binary exactly as long as its digest is
that of the start (`verify_eq_none`).
-/

namespace Health

open Audit

/-- What the system says about the running executable. -/
structure Executable where
  /-- `runtime.GOOS == "linux"` -/
  linux : Bool
  /-- `os.Readlink("/proc/self/exe")` -/
  readlink : Except GoError GoString
  /-- `os.Executable()` -/
  executable : Except GoError GoString
  /-- the error of `os.Open`, if it fails -/
  openErr : GoString → Option GoError
  /-- what `io.Copy` reads from the open file -/
  contents : GoString → Except GoError Bytes

/-- The path of the executable. A link that cannot be read is passed over. -/
def Executable.path (x : Executable) : Except GoError GoString :=
  let exePath := if x.linux then x.readlink.toOption.getD [] else []
  if exePath = [] then
    match x.executable with
    | .error err => .error (.wrap "health: get executable path: %w" [] err)
    | .ok path => .ok path
  else .ok exePath

/-- `ComputeBinaryHash` -/
def computeBinaryHash (crypto : Crypto) (x : Executable) : Except GoError GoString :=
  match x.path with
  | .error err => .error err
  | .ok exePath =>
    match x.openErr exePath with
    | some err => .error (.wrap "health: open executable %q: %w" [.str exePath] err)
    | none =>
      match x.contents exePath with
      | .error err => .error (.wrap "health: hash executable: %w" [] err)
      | .ok b => .ok (Hex.encodeToString (crypto.sha256 b).1)

/-- `devBuildHash` -/
def devBuildHash : GoString := [100, 101, 118, 45, 98, 117, 105, 108, 100]

/-- `Checker` -/
structure Checker where
  embeddedHash : GoString
  startupHash : GoString

/-- `New` -/
def newChecker (crypto : Crypto) (embeddedHash : GoString) (x : Executable) :
    Except GoError Checker :=
  match computeBinaryHash crypto x with
  | .error err => .error (.wrap "health: compute startup hash: %w" [] err)
  | .ok startupHash =>
    if embeddedHash ≠ devBuildHash ∧ embeddedHash ≠ [] ∧ embeddedHash ≠ startupHash then
      .error (.errorf
        "health: TAMPER DETECTED at startup — embedded hash %q != binary hash %q"
        [.str embeddedHash, .str startupHash])
    else .ok ⟨embeddedHash, startupHash⟩

/-- `Verify` -/
def Checker.verify (crypto : Crypto) (c : Checker) (x : Executable) : Option GoError :=
  match computeBinaryHash crypto x with
  | .error err => some (.wrap "health: verify binary: %w" [] err)
  | .ok current =>
    if current ≠ c.startupHash then
      some (.errorf "health: TAMPER DETECTED at runtime — current hash %q != startup hash %q"
        [.str current, .str c.startupHash])
    else none

/-- `IsDev` -/
def Checker.isDev (c : Checker) : Bool := c.embeddedHash = devBuildHash ∨ c.embeddedHash = []

variable {crypto : Crypto} {c : Checker} {x : Executable}

/-- A hash is that of the file that is found. -/
theorem computeBinaryHash_eq_ok {h : GoString} : computeBinaryHash crypto x = .ok h ↔
    ∃ path b, x.path = .ok path ∧ x.openErr path = none ∧ x.contents path = .ok b ∧
      h = Hex.encodeToString (crypto.sha256 b).1 := by
  unfold computeBinaryHash
  cases x.path with
  | error err => simp
  | ok path =>
    cases hopen : x.openErr path with
    | some err => simp [hopen]
    | none =>
      cases hread : x.contents path with
      | error err => simp [hopen, hread]
      | ok b => simp [hopen, hread, eq_comm]

/-- **The start**: a checker is made for a binary that can be hashed, and whose hash is the
embedded one unless the build is for development. -/
theorem newChecker_eq_ok {embeddedHash : GoString} :
    newChecker crypto embeddedHash x = .ok c ↔ c.embeddedHash = embeddedHash ∧
      computeBinaryHash crypto x = .ok c.startupHash ∧
      (c.isDev = true ∨ c.startupHash = embeddedHash) := by
  obtain ⟨embedded, startup⟩ := c
  unfold newChecker
  cases computeBinaryHash crypto x with
  | error err => simp
  | ok h =>
    simp only [Except.ok.injEq, Checker.isDev, decide_eq_true_eq]
    split
    · next hne =>
      refine iff_of_false (by simp) ?_
      rintro ⟨rfl, rfl, (hdev | hnone) | heq⟩
      · exact hne.1 hdev
      · exact hne.2.1 hnone
      · exact hne.2.2 heq.symm
    · next hok =>
      simp only [Except.ok.injEq, Checker.mk.injEq]
      constructor
      · rintro ⟨rfl, rfl⟩
        refine ⟨rfl, rfl, ?_⟩
        by_contra hno
        rw [not_or, not_or] at hno
        exact hok ⟨hno.1.1, hno.1.2, fun h => hno.2 h.symm⟩
      · rintro ⟨rfl, rfl, -⟩
        exact ⟨rfl, rfl⟩

/-- **While the service runs** the binary is accepted as long as its hash is that of the
start. -/
theorem verify_eq_none :
    c.verify crypto x = none ↔ computeBinaryHash crypto x = .ok c.startupHash := by
  unfold Checker.verify
  cases computeBinaryHash crypto x with
  | error err => simp
  | ok h => simp

end Health
