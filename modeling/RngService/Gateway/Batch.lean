import Mathlib
import RngService.Gateway.Trail
import RngService.Gateway.Walk

/-!
# Rejected batches

`handleGenerateBatch` validates, generates, seals and stores item by item. When it
answers 400 because of an invalid item, the items before that one have already left
their marks: a batch is rejected without a trace exactly if its first item is the
invalid one (`rejected_batch_iff`). `handleGenerate` and `handleShuffle` check
everything before they draw.
-/

namespace Gateway

open Audit Prog

variable {D : Type} {dev : Device D} {srv : Server}

/-- Alone on the world, a quiet operation leaves the store alone. -/
theorem store_quiet {w : World D} {o : Op} (ho : Quiet o) (w₁ : World D)
    (h : w₁.store = w.store) : (Model.ofSem (exec dev srv.crypto)).allowed o w₁ ∧
      ∀ r w₂, (Model.ofSem (exec dev srv.crypto)).step o w₁ r w₂ → w₂.store = w.store := by
  refine ⟨trivial, ?_⟩
  rintro r w₂ ⟨env, hsem⟩
  exact (exec_quiet ho hsem).2.trans h

/-- **Making an entry adds to the store**: one entry, or none if the program fails. -/
theorem making_adds (w : World D) : Making srv (Model.ofSem (exec dev srv.crypto))
    (fun w' => w'.store = w.store) (fun w' => w'.store = w.store)
    (fun w' => ∃ e, w'.store.entries = w.store.entries ++ [e])
    (fun w' => w'.store.entries = w.store.entries)
    (fun _ w' => w'.store = w.store) fun _ w' => w'.store = w.store where
  reseed tenantID w₁ h₁ := by
    refine (WP.of_calls (fun o ho => store_quiet ho) (quiet_reseedIfNeeded tenantID) h₁).mono
      fun r w₂ h₂ => ?_
    cases r with
    | error err => exact congrArg InMemoryStore.entries h₂
    | ok u => exact h₂
  draws := store_quiet (o := .generate 8) trivial
  requestID := store_quiet (o := .newRequestID) trivial
  now := store_quiet (o := .now) trivial
  sealEntry e w₁ h₁ := by
    refine ⟨trivial, ?_⟩
    rintro r w₂ ⟨env, hsem⟩
    -- only the chain moves
    obtain ⟨-, rfl⟩ := Prod.mk.inj (Option.some.inj hsem)
    exact ⟨fun _ _ => h₁, fun _ => congrArg InMemoryStore.entries h₁⟩
  appendEntry e w₁ h₁ := by
    refine ⟨trivial, ?_⟩
    rintro r w₂ ⟨env, hsem⟩
    have hstore := (append_spec hsem).2
    rw [h₁] at hstore
    cases r with
    | error err => exact hstore.trans (List.append_nil _)
    | ok u => exact ⟨e, hstore⟩
  failed _ h := congrArg InMemoryStore.entries h
  undone _ _ h := congrArg InMemoryStore.entries h

/-- The validation of an item of a batch. -/
def BatchRequest.invalid (req : BatchRequest) (item : BatchItem) : Prop :=
  validateGenerateRequest req.tenantID req.gameID req.roundID item.count item.min item.max ≠ none

/-- The loop of a batch adds to the store. When it answers 400 although its first item is
valid, it has added an entry. -/
theorem wp_batchLoop_adds (req : BatchRequest) (items : List BatchItem)
    (results : List GenerateResponse) (w : World D) :
    WP (Model.ofSem (exec dev srv.crypto)) (batchLoop srv req items results)
      (fun resp w' => ∃ added, w'.store.entries = w.store.entries ++ added ∧
        (resp.code = 400 → (∀ item ∈ items.head?, ¬ req.invalid item) → added ≠ [])) w := by
  induction items generalizing results w with
  | nil => exact ⟨[], (List.append_nil _).symm, fun h => by cases h⟩
  | cons item items ih =>
    unfold batchLoop
    split
    · next err hvalid =>
      refine ⟨[], (List.append_nil _).symm, fun _ hhead => absurd ?_ (hhead item rfl)⟩
      rw [BatchRequest.invalid, hvalid]
      exact Option.some_ne_none err
    · refine WP.bind (((making_adds w).wp_generate _ _ _ _ _ _ rfl).mono fun r w₁ hr => ?_)
      cases r with
      | error err => exact ⟨[], hr.trans (List.append_nil _).symm, fun h => by cases h⟩
      | ok resp =>
        obtain ⟨e, hadded⟩ := hr
        -- the items that follow only add more
        refine (ih (results ++ [resp]) w₁).mono ?_
        rintro resp' w₂ ⟨more, hmore, -⟩
        exact ⟨e :: more, by rw [hmore, hadded, List.append_assoc, List.singleton_append],
          fun _ _ => List.cons_ne_nil _ _⟩

/-- **A batch that is answered 400 leaves no trace exactly if its first item is
invalid**, from every state of the server and whatever the surroundings answer. -/
theorem rejected_batch_iff {tenant : GoString} {req : BatchRequest} (hne : req.requests ≠ [])
    (hmax : req.requests.length ≤ 100) {es : List Env} {w w' : World D} {resp : Response}
    (hrun : Prog.run (exec dev srv.crypto) es (handleGenerateBatch srv tenant (.ok req)) w
      = some (resp, w')) (hcode : resp.code = 400) :
    (w'.store = w.store ∧ w'.chain = w.chain ∧ w'.drbg = w.drbg) ↔
      req.invalid (req.requests.head hne) := by
  constructor
  · rintro ⟨hstore, -, -⟩
    by_contra hvalid
    rw [BatchRequest.invalid, not_not] at hvalid
    obtain ⟨h1, h2, h3, -, -, -⟩ := validateGenerateRequest_eq_none hvalid
    have hids : ¬ (req.tenantID = [] ∨ req.gameID = [] ∨ req.roundID = []) := by
      rw [not_or, not_or]
      exact ⟨h1, h2, h3⟩
    simp only [handleGenerateBatch, if_neg hids, if_neg hne, if_neg (not_lt.mpr hmax)] at hrun
    split at hrun
    -- another tenant is answered 403
    · obtain ⟨-, heq⟩ := run_ret.mp hrun
      obtain ⟨rfl, -⟩ := Prod.mk.inj heq
      cases hcode
    -- otherwise the first item has left an entry
    · have hloop := @wp_batchLoop_adds D dev srv req req.requests [] w
      obtain ⟨added, hadded, hsome⟩ := hloop.run_sound hrun
      refine hsome hcode ?_ ?_
      · intro item hitem
        rw [List.head?_eq_some_head hne, Option.mem_some] at hitem
        rw [← hitem, BatchRequest.invalid, not_not]
        exact hvalid
      · rw [hstore] at hadded
        exact List.self_eq_append_right.mp hadded
  · intro hinvalid
    -- nothing is called before the first item is validated
    have hret : ∃ r, handleGenerateBatch srv tenant (.ok req) = .ret r := by
      unfold handleGenerateBatch
      simp only
      split
      · exact ⟨_, rfl⟩
      · split
        · exact ⟨_, rfl⟩
        · rw [if_neg (not_lt.mpr hmax)]
          obtain ⟨item, items, hitems⟩ := List.exists_cons_of_ne_nil hne
          simp only [hitems, List.head_cons] at hinvalid ⊢
          obtain ⟨err, herr⟩ := Option.ne_none_iff_exists'.mp hinvalid
          unfold batchLoop
          rw [herr]
          exact ⟨_, rfl⟩
    obtain ⟨r, hr⟩ := hret
    rw [hr] at hrun
    obtain ⟨-, heq⟩ := run_ret.mp hrun
    obtain ⟨-, rfl⟩ := Prod.mk.inj heq
    exact ⟨rfl, rfl, rfl⟩

/-- A batch whose first item asks for no value, and whose second one is fine. -/
theorem rejected_batch_iff_first :
    (⟨[97], [103], [114], [⟨0, 5, 6⟩, ⟨1, 5, 6⟩]⟩ : BatchRequest).invalid ⟨0, 5, 6⟩ := by
  have hrun : Prog.run (exec (Device.drbg fun _ block => block) smallServer.crypto) []
      (handleGenerateBatch smallServer [97]
        (.ok ⟨[97], [103], [114], [⟨0, 5, 6⟩, ⟨1, 5, 6⟩]⟩)) smallWorld
      = some (writeError 400 "" (some
        (.errorf "count must be between 1 and 10000, got %d" [.int 0])), smallWorld) := rfl
  exact (rejected_batch_iff (List.cons_ne_nil _ _) (by decide) hrun rfl).mp ⟨rfl, rfl, rfl⟩

/-- **An invalid second item.** The first item has drawn a word, and its entry is sealed
and stored, when the second one is rejected. -/
theorem rejected_second_item : ∃ w',
    Prog.run (exec (Device.drbg fun _ block => block) smallServer.crypto) (List.replicate 8 {})
      (handleGenerateBatch smallServer [97]
        (.ok ⟨[97], [103], [114], [⟨1, 5, 6⟩, ⟨0, 5, 6⟩]⟩)) smallWorld
      = some (writeError 400 "" (some
        (.errorf "count must be between 1 and 10000, got %d" [.int 0])), w') ∧
    w'.store ≠ smallWorld.store ∧ w'.chain ≠ smallWorld.chain ∧
    w'.drbg.outputBytes ≠ smallWorld.drbg.outputBytes := by
  have h : (Prog.run (exec (Device.drbg fun _ block => block) smallServer.crypto)
      (List.replicate 8 {}) (handleGenerateBatch smallServer [97]
        (.ok ⟨[97], [103], [114], [⟨1, 5, 6⟩, ⟨0, 5, 6⟩]⟩)) smallWorld).map
        (fun x => decide (x.1 = writeError 400 "" (some
            (.errorf "count must be between 1 and 10000, got %d" [.int 0])) ∧
          x.2.store ≠ smallWorld.store ∧ x.2.chain ≠ smallWorld.chain ∧
          x.2.drbg.outputBytes ≠ smallWorld.drbg.outputBytes)) = some true := by
    decide +kernel
  obtain ⟨⟨resp, w'⟩, hrun, heq⟩ := Option.map_eq_some_iff.mp h
  obtain ⟨rfl, hrest⟩ := of_decide_eq_true heq
  exact ⟨w', hrun, hrest⟩

end Gateway
