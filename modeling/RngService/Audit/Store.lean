import Mathlib
import RngService.Audit.Commitment

/-!
# The audit store

The in-memory store of `internal/audit/store.go`. `GetByRound` and `VerifyChain`
both look at a selection of the entries: those of one round, those of one tenant.

A selection of an accepted log is accepted from the same hash exactly when it is a
prefix of the log (`accepted_iff_initial`), and from its own first previous hash
exactly when it is a contiguous piece (`accepted_iff_segment`), in both cases up to a
clash of the digest. These are the rigidity facts of `HashLog` for audit entries.
-/

namespace Audit

/-- `InMemoryStore`. -/
structure InMemoryStore where
  entries : List Entry
  deriving DecidableEq

namespace InMemoryStore

/-- `NewInMemoryStore`. -/
def new : InMemoryStore := ⟨[]⟩

/-- `Append`. -/
def append (s : InMemoryStore) (e : Entry) : Option GoError × InMemoryStore :=
  if e.entryHash = [] ∨ e.prevHash = [] then
    (some (.errorf "audit: InMemoryStore.Append: entry must be sealed before appending" []), s)
  else (none, ⟨s.entries ++ [e]⟩)

/-- `LatestHash`. -/
def latestHash (s : InMemoryStore) : GoString :=
  match s.entries.getLast? with
  | none => zeroHash
  | some e => e.entryHash

/-- `GetByRound`. -/
def getByRound (s : InMemoryStore) (roundID : GoString) : List Entry :=
  s.entries.filter (·.roundID = roundID)

/-- `VerifyChain`. -/
def verifyChain (crypto : Crypto) (s : InMemoryStore) (tenantID : GoString) :
    Bool × Option GoError :=
  let entries := s.entries.filter (·.tenantID = tenantID)
  if entries = [] then (true, none)
  else match verifyEntries crypto entries zeroHash with
    | (_, some err) => (false, some err)
    | (idx, none) => (idx == -1, none)

theorem latestHash_eq_tip (s : InMemoryStore) : s.latestHash = tip zeroHash s.entries := by
  unfold latestHash
  rcases List.eq_nil_or_concat s.entries with h | ⟨l, e, h⟩
  · rw [h]
    rfl
  · rw [h, List.concat_eq_append, List.getLast?_append, tip, HashLog.tip_append]
    rfl

end InMemoryStore

variable {crypto : Crypto}

/-- An error is reported exactly when the index is not -1. -/
theorem verifyEntries_snd {l : List Entry} {p : GoString}
    (h : (verifyEntries crypto l p).2 = none) : verifyEntries crypto l p = (-1, none) := by
  unfold verifyEntries at h ⊢
  -- the index is generalised for the induction over the loop
  generalize 0 = i at h ⊢
  induction l generalizing i p with
  | nil => rfl
  | cons e l ih =>
    rw [verifyFrom] at h ⊢
    split at h
    · cases h
    · next hp =>
      rw [if_neg hp]
      cases hc : e.computeHash crypto with
      | error err => rw [hc] at h; cases h
      | ok computed =>
        rw [hc] at h
        simp only at h ⊢
        split at h
        · cases h
        · next hne =>
          rw [if_neg hne]
          exact ih _ h

/-- `VerifyChain` succeeds when the tenant's entries are accepted from the zero
hash. -/
theorem InMemoryStore.verifyChain_eq {s : InMemoryStore} {tenantID : GoString} :
    s.verifyChain crypto tenantID = (true, none) ↔
      verifyEntries crypto (s.entries.filter (·.tenantID = tenantID)) zeroHash = (-1, none) := by
  unfold InMemoryStore.verifyChain
  simp only
  generalize s.entries.filter (·.tenantID = tenantID) = l
  split
  · next h =>
    rw [h]
    simp [verifyEntries, verifyFrom]
  · rcases hv : verifyEntries crypto l zeroHash with ⟨idx, _ | err⟩
    -- no error means index -1
    · have hidx := verifyEntries_snd (congrArg Prod.snd hv)
      rw [hv] at hidx
      obtain rfl := (Prod.mk.inj hidx).1
      simp
    · simp

/-! ### Selections of a log -/

variable {l f : List Entry} {p : GoString}

/-- Without a clash the hashes of an accepted log do not repeat. -/
theorem nodup_of_not_clash (hp : (hexBytes p).length = 32) (hl : Linked p l)
    (hs : ∀ e ∈ l, e.Sound crypto) (hc : ¬ Clash crypto (hexBytes p) l) :
    (hexBytes p :: l.map Entry.hashBytes).Nodup :=
  (linkedBytes hl).nodup_of_not_clash (hashed hp hl hs) hc

theorem prefix_of_linked (hp : (hexBytes p).length = 32) (hl : Linked p l)
    (hs : ∀ e ∈ l, e.Sound crypto) (hsub : f ⊆ l) (hf : Linked p f) :
    f <+: l ∨ Clash crypto (hexBytes p) l := by
  by_cases hc : Clash crypto (hexBytes p) l
  · exact Or.inr hc
  · exact Or.inl ((linkedBytes hl).prefix_of_subset (nodup_of_not_clash hp hl hs hc)
      (linkedBytes hf) hsub)

theorem infix_of_linked {q : GoString} (hp : (hexBytes p).length = 32) (hl : Linked p l)
    (hs : ∀ e ∈ l, e.Sound crypto) (hsub : f ⊆ l) (hf : Linked q f) :
    f <:+: l ∨ Clash crypto (hexBytes p) l := by
  by_cases hc : Clash crypto (hexBytes p) l
  · exact Or.inr hc
  · exact Or.inl ((linkedBytes hl).infix_of_subset (nodup_of_not_clash hp hl hs hc)
      (linkedBytes hf) hsub)

/-- **Selections from the start.** A prefix of an accepted log is accepted from its
hash; a selection accepted from its hash is a prefix, or the digest clashes. -/
theorem accepted_iff_initial (hp : (hexBytes p).length = 32) (hl : Linked p l)
    (hs : ∀ e ∈ l, e.Sound crypto) (hsub : f ⊆ l) :
    (f <+: l → verifyEntries crypto f p = (-1, none)) ∧
      (verifyEntries crypto f p = (-1, none) → f <+: l ∨ Clash crypto (hexBytes p) l) :=
  ⟨fun hf => verifyEntries_eq.mpr ⟨hl.initial hf, fun e he => hs e (hsub he)⟩,
    fun hf => prefix_of_linked hp hl hs hsub (verifyEntries_eq.mp hf).1⟩

/-- **Selections from the middle.** The same for contiguous pieces and the hash
named by the first entry selected. -/
theorem accepted_iff_segment {e : Entry} (hp : (hexBytes p).length = 32) (hl : Linked p l)
    (hs : ∀ e ∈ l, e.Sound crypto) (hsub : e :: f ⊆ l) :
    (e :: f <:+: l → verifyEntries crypto (e :: f) e.prevHash = (-1, none)) ∧
      (verifyEntries crypto (e :: f) e.prevHash = (-1, none) →
        e :: f <:+: l ∨ Clash crypto (hexBytes p) l) := by
  refine ⟨fun ⟨m, n, hmn⟩ => ?_, fun hf => infix_of_linked hp hl hs hsub (verifyEntries_eq.mp hf).1⟩
  refine verifyEntries_eq.mpr ⟨?_, fun e he => hs e (hsub he)⟩
  -- the piece is linked where it sits in the log
  rw [← hmn, List.append_assoc] at hl
  exact linked_cons.mpr ⟨rfl, (HashLog.linked_append.mp (HashLog.linked_append.mp hl).2).1.2⟩

end Audit
