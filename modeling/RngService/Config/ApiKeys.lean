import Mathlib
import RngService.Config.Load

/-!
# The list of API keys

The format of `RNG_API_KEYS`: segments with commas between them, of which those with a colon
are pairs of a key and its tenant. `Segment.write` writes one, with any spaces around a pair.

`parseAPIKeys` reads what was written (`parseAPIKeys_write`), and so the map it returns has for
each key the tenant of the last pair (`parse_apiKeys`). The gateway authenticates the keys by
this map (`authenticates_iff`).
-/

namespace Configuration

open Gateway (ascii)

/-- Spaces. -/
structure Blank where
  words : List Bytes
  mem_spaces : ∀ w ∈ words, w ∈ Strings.spaces

/-- A key and its tenant, such that they can be told apart. The tenant may have colons, the key
may end and the tenant may start with spaces. -/
structure Pair where
  key : GoString
  tenant : GoString
  comma_key : 44 ∉ key
  colon_key : 58 ∉ key
  comma_tenant : 44 ∉ tenant
  key_start : ∀ w ∈ Strings.spaces, ¬ w <+: key
  tenant_end : ∀ w ∈ Strings.spaces, ¬ w <:+ tenant

/-- What is between two commas. -/
inductive Segment
  /-- no colon, and perhaps nothing at all -/
  | skipped (s : GoString) (comma : 44 ∉ s) (colon : 58 ∉ s)
  | pair (before : Blank) (p : Pair) (after : Blank)

/-- The segment as it is written. -/
def Segment.write : Segment → GoString
  | .skipped s _ _ => s
  | .pair before p after => before.words.flatten ++ (p.key ++ 58 :: p.tenant) ++ after.words.flatten

/-- The pair of the segment, if it has one. -/
def Segment.entries : Segment → List (GoString × GoString)
  | .skipped _ _ _ => []
  | .pair _ p _ => [(p.key, p.tenant)]

/-- The variable with these segments. -/
def write (segs : List Segment) : GoString := Strings.join (segs.map Segment.write) 44

/-- The pairs of the segments, in order. -/
def entries (segs : List Segment) : List (GoString × GoString) := segs.flatMap Segment.entries

@[simp] theorem entries_cons (seg : Segment) (segs : List Segment) :
    entries (seg :: segs) = seg.entries ++ entries segs := rfl

/-! ### Reading the segments -/

theorem comma_notMem_spaces : ∀ w ∈ Strings.spaces, (44 : UInt8) ∉ w := by decide

theorem colon_notMem_spaces : ∀ w ∈ Strings.spaces, (58 : UInt8) ∉ w := by decide

theorem Segment.comma_notMem_write (seg : Segment) : 44 ∉ seg.write := by
  have hblank : ∀ b : Blank, 44 ∉ b.words.flatten := by
    intro b hmem
    obtain ⟨w, hw, hcomma⟩ := List.mem_flatten.mp hmem
    exact comma_notMem_spaces w (b.mem_spaces w hw) hcomma
  cases seg with
  | skipped s hcomma hcolon => exact hcomma
  | pair before p after =>
    simp [Segment.write, hblank, p.comma_key, p.comma_tenant]

/-- **A segment is read as it was written**: its pair goes into the map. -/
theorem addPair_write (seg : Segment) (m : List (GoString × GoString)) :
    addPair m seg.write = seg.entries ++ m := by
  cases seg with
  | skipped s hcomma hcolon =>
    have htrim : 58 ∉ Strings.trimSpace s := fun hmem =>
      hcolon ((Strings.trimSpace_infix s).subset hmem)
    simp only [addPair, Segment.write, Strings.splitN_of_not_mem htrim]
    split <;> rfl
  | pair before p after =>
    have htrim : Strings.trimSpace (Segment.pair before p after).write = p.key ++ 58 :: p.tenant :=
      Strings.trimSpace_pad before.mem_spaces after.mem_spaces colon_notMem_spaces p.key_start
        p.tenant_end
    have hne : p.key ++ 58 :: p.tenant ≠ [] := by simp
    simp only [addPair, htrim, if_neg hne, Strings.splitN_two p.colon_key]
    rfl

theorem foldl_addPair_write (segs : List Segment) (m : List (GoString × GoString)) :
    (segs.map Segment.write).foldl addPair m = (entries segs).reverse ++ m := by
  induction segs generalizing m with
  | nil => rfl
  | cons seg segs ih =>
    have hone : seg.entries.reverse = seg.entries := by cases seg <;> rfl
    rw [List.map_cons, List.foldl_cons, ih, addPair_write, entries_cons, List.reverse_append,
      hone, List.append_assoc]

/-- **Parsing undoes writing**: the entries of the map are the pairs, the last one first. -/
theorem parseAPIKeys_write (segs : List Segment) :
    parseAPIKeys (write segs) = (entries segs).reverse := by
  cases segs with
  | nil => rfl
  | cons seg segs =>
    have hsplit : Strings.split (write (seg :: segs)) 44 = (seg :: segs).map Segment.write := by
      refine Strings.split_join (by simp) fun part hpart => ?_
      obtain ⟨seg', -, rfl⟩ := List.mem_map.mp hpart
      exact seg'.comma_notMem_write
    rw [parseAPIKeys, hsplit, foldl_addPair_write, List.append_nil]

/-- The tenant of the last pair with the key. -/
def LastTenant (pairs : List (GoString × GoString)) (key tenant : GoString) : Prop :=
  ∃ before after, pairs = before ++ (key, tenant) :: after ∧ ∀ x ∈ after, x.1 ≠ key

theorem lookup_reverse {pairs : List (GoString × GoString)} {key tenant : GoString} :
    pairs.reverse.lookup key = some tenant ↔ LastTenant pairs key tenant := by
  rw [List.lookup_eq_some_iff]
  constructor
  · rintro ⟨after, before, hpairs, hafter⟩
    refine ⟨before.reverse, after.reverse, ?_, fun x hx => ?_⟩
    · rw [← List.reverse_reverse pairs, hpairs]
      simp
    · have hne := hafter x (List.mem_reverse.mp hx)
      exact fun heq => bne_iff_ne.mp hne heq.symm
  · rintro ⟨before, after, rfl, hafter⟩
    refine ⟨after.reverse, before.reverse, by simp, fun x hx => ?_⟩
    exact bne_iff_ne.mpr fun heq => hafter x (List.mem_reverse.mp hx) heq.symm

/-- **The map of the API keys** sends each key to the tenant of its last pair, and no other
key to a tenant. -/
theorem parse_apiKeys (segs : List Segment) (key tenant : GoString) :
    (parseAPIKeys (write segs)).lookup key = some tenant ↔
      LastTenant (entries segs) key tenant := by
  rw [parseAPIKeys_write, lookup_reverse]

example : parseAPIKeys (ascii "key1:tenant-a, key2:b:c ,key1:d")
    = [(ascii "key1", ascii "d"), (ascii "key2", ascii "b:c"),
      (ascii "key1", ascii "tenant-a")] := by decide

/-- **The gateway authenticates** a configured key as the tenant of its last pair. -/
theorem authenticates_iff {F : Type} {parseFloat : GoString → Except GoError F}
    {environ : Environ} {c : Config F} (h : load parseFloat environ = .ok c) {segs : List Segment}
    (hkeys : environ "RNG_API_KEYS" = write segs) {srv : Gateway.Server} {binaryHash : GoString}
    (hcfg : srv.cfg = c.gateway binaryHash) {creds : Gateway.Credentials}
    (hbearer : ¬ Gateway.bearer <+: creds.authorization) (hkey : creds.apiKey ≠ [])
    {tenant : GoString} :
    Gateway.Authenticates srv creds tenant ↔ LastTenant (entries segs) creds.apiKey tenant := by
  obtain ⟨-, hmap⟩ := load_ok h
  have hlookup : srv.cfg.apiKeys.lookup creds.apiKey = some tenant ↔
      LastTenant (entries segs) creds.apiKey tenant := by
    rw [hcfg, Config.gateway, hmap, hkeys, parseAPIKeys_write, lookup_reverse]
  rw [← hlookup, Gateway.Authenticates]
  simp [hbearer, hkey]

end Configuration
