import Mathlib
import RngService.Gateway.Ledger

/-!
# From the operations to the tasks

What a handler does between its validation and its response is to make an entry: by
`generate`, or by the part of `handleShuffle` after its checks. Around that it only reads.
A fact about all tasks comes down to these two programs (`Walk`), and these two to the
operations that both are made of, in the same order (`Making`): `I` holds before an entry is
made, `J` afterwards, and `F` when the program has failed. In a walk `J` is `I` again.
-/

namespace Gateway

open Audit Prog

variable {Q ε α : Type} {srv : Server} {M : Prog.Model Op Ret Q} {I J F : Q → Prop}

/-- `I` after a success and `F` after a failure. -/
def OkOr (I F : Q → Prop) : Except ε α → Q → Prop
  | .ok _, q => I q
  | .error _, q => F q

/-! ### Making an entry -/

/-- What has to be known of the operations that make an entry: `A` holds after the check of
the generator, `B` after the clock reading, and `C` after the sealing. -/
structure Making (srv : Server) (M : Prog.Model Op Ret Q) (I A J F : Q → Prop)
    (B : Time → Q → Prop) (C : Entry → Q → Prop) : Prop where
  reseed : ∀ tenantID q, I q → WP M (reseedIfNeeded srv tenantID).run (OkOr A F) q
  draws : Scaling.Draws M rng A
  requestID : ∀ q, A q →
    M.allowed .newRequestID q ∧ ∀ r q', M.step .newRequestID q r q' → A q'
  now : ∀ q, A q → M.allowed .now q ∧ ∀ t q', M.step .now q t q' → B t q'
  sealEntry : ∀ e q, B e.createdAt q → M.allowed (.sealEntry e) q ∧ ∀ r q',
    M.step (.sealEntry e) q r q' → (∀ e', r = .ok e' → C e' q') ∧ (r.isOk = false → F q')
  appendEntry : ∀ e q, C e q → M.allowed (.appendEntry e) q ∧ ∀ r q',
    M.step (.appendEntry e) q r q' → OkOr J F r q'
  failed : ∀ q, A q → F q
  undone : ∀ t q, B t q → F q

/-- Drawing values keeps what drawing a word keeps. -/
theorem keeps_drawValues {A : Q → Prop} (hd : Scaling.Draws M rng A) (min : Int64) (span : UInt64)
    (n : ℕ) : Keeps M A (drawValues min span n).run := fun _ hq =>
  (wp_drawValues_of (fun _ hq => Scaling.wp_randRange hd hq) n hq).mono fun _ _ h => h.1

namespace Making

variable {A : Q → Prop} {B : Time → Q → Prop} {C : Entry → Q → Prop} {q : Q}

/-- Sealing an entry and storing it. -/
theorem wp_record (h : Making srv M I A J F B C) {f f' : GoError → ε} {entry : Entry}
    {k : Entry → α} (hq : B entry.createdAt q) :
    WP M (do
      let e ← Prog.mapError f (Call.sealEntry entry)
      Prog.mapError f' (Call.appendEntry e)
      return k e : Fallible ε α).run (OkOr J F) q := by
  obtain ⟨hallowed, hseal⟩ := h.sealEntry entry q hq
  refine WP.bindE (WP.mapErrorE (WP.op hallowed fun r q' hstep => ?_))
  obtain ⟨hok, herr⟩ := hseal r q' hstep
  cases r with
  | error err => exact herr rfl
  | ok e =>
    obtain ⟨hallowed, happend⟩ := h.appendEntry e q' (hok e rfl)
    refine WP.bindE (WP.mapErrorE (WP.op hallowed fun r q'' hstep => ?_))
    have hr := happend r q'' hstep
    cases r with
    | error err => exact hr
    | ok u => exact hr

/-- Reading the clock and looking up the key, before the entry is recorded. -/
theorem wp_stamp (h : Making srv M I A J F B C) {f : GoError → ε} {tenantID : GoString}
    {body : Time → Bytes → Fallible ε α}
    (hbody : ∀ t key q, B t q → WP M (body t key).run (OkOr J F) q) (hq : A q) :
    WP M (do
      let now ← Call.now
      let sigKey ← Prog.mapError f (ofExcept (srv.keys tenantID))
      body now sigKey : Fallible ε α).run (OkOr J F) q := by
  obtain ⟨hallowed, hnow⟩ := h.now q hq
  refine WP.bindE (WP.liftE (WP.op hallowed fun t q' hstep => ?_))
  have hstamped := hnow t q' hstep
  refine WP.bindE (WP.mapErrorE ?_)
  cases srv.keys tenantID with
  | error err => exact h.undone t q' hstamped
  | ok key => exact hbody t key q' hstamped

/-- **`generate` makes an entry**, or fails. -/
theorem wp_generate (h : Making srv M I A J F B C) (tenantID gameID roundID : GoString) (count : ℤ)
    (min max : Int64) (hq : I q) :
    WP M (generate srv tenantID gameID roundID count min max).run (OkOr J F) q := by
  refine WP.bindE (WP.mapErrorE ((h.reseed tenantID q hq).mono fun r q₁ h₁ => ?_))
  cases r with
  | error err => exact h₁
  | ok u =>
  refine WP.bindE ((keeps_drawValues h.draws min _ count.toNat q₁ h₁).mono fun r q₂ h₂ => ?_)
  cases r with
  | error err => exact h.failed q₂ h₂
  | ok values =>
  obtain ⟨hallowed, hid⟩ := h.requestID q₂ h₂
  refine WP.bindE (WP.op hallowed fun r q₃ hstep => ?_)
  have h₃ := hid r q₃ hstep
  cases r with
  | error err => exact h.failed q₃ h₃
  | ok reqID =>
  exact h.wp_stamp (fun t key q₄ h₄ => h.wp_record h₄) h₃

/-- **A shuffle makes an entry**, or fails. -/
theorem wp_shuffleItems (h : Making srv M I A J F B C) (req : ShuffleRequest) (hq : I q) :
    WP M (shuffleItems srv req).run (OkOr J F) q := by
  refine WP.bindE (WP.mapErrorE ((h.reseed req.tenantID q hq).mono fun r q₁ h₁ => ?_))
  cases r with
  | error err => exact h₁
  | ok u =>
  refine WP.bindE (WP.mapErrorE
    ((Scaling.wp_shuffle h.draws req.items h₁).mono fun r q₂ hr => ?_))
  obtain ⟨h₂, -⟩ := hr
  cases r with
  | error err => exact h.failed q₂ h₂
  | ok shuffled =>
  obtain ⟨hallowed, hid⟩ := h.requestID q₂ h₂
  refine WP.bindE (WP.mapErrorE (WP.op hallowed fun r q₃ hstep => ?_))
  have h₃ := hid r q₃ hstep
  cases r with
  | error err => exact h.failed q₃ h₃
  | ok reqID =>
  exact h.wp_stamp (fun t key q₄ h₄ => h.wp_record h₄) h₃

end Making

/-! ### Walking the handlers -/

/-- What has to be known of the programs that make an entry, and of the operations that
only read. -/
structure Walk (srv : Server) (M : Prog.Model Op Ret Q) (I F : Q → Prop) : Prop where
  reading : ∀ o, Reading o → ∀ q, I q → M.allowed o q ∧ ∀ r q', M.step o q r q' → I q'
  returned : ∀ q, I q → F q
  generate : ∀ tenantID gameID roundID count min max q, I q →
    WP M (generate srv tenantID gameID roundID count min max).run (OkOr I F) q
  shuffleItems : ∀ req q, I q → WP M (shuffleItems srv req).run (OkOr I F) q
  selfTest : ∀ n q, I q →
    M.allowed (.generate n) q ∧ ∀ r q', M.step (.generate n) q r q' → F q'

namespace Walk

variable {q : Q}

/-- A walk from what is known of single operations. -/
theorem of_making {A : Q → Prop} {B : Time → Q → Prop} {C : Entry → Q → Prop}
    (hreading : ∀ o, Reading o → ∀ q, I q → M.allowed o q ∧ ∀ r q', M.step o q r q' → I q')
    (hreturned : ∀ q, I q → F q)
    (hselfTest : ∀ n q, I q →
      M.allowed (.generate n) q ∧ ∀ r q', M.step (.generate n) q r q' → F q')
    (h : Making srv M I A I F B C) : Walk srv M I F where
  reading := hreading
  returned := hreturned
  generate tenantID gameID roundID count min max _ hq :=
    h.wp_generate tenantID gameID roundID count min max hq
  shuffleItems req _ hq := h.wp_shuffleItems req hq
  selfTest := hselfTest

/-- A program that only reads. -/
theorem wp_reading (h : Walk srv M I F) {p : Program α} (hp : Calls Reading p) (hq : I q) :
    WP M p (fun _ q' => F q') q :=
  (WP.of_calls h.reading hp hq).mono fun _ _ => h.returned _

theorem wp_handleGenerate (h : Walk srv M I F) (tenant : GoString)
    (body : Except GoError GenerateRequest) (hq : I q) :
    WP M (handleGenerate srv tenant body) (fun _ q' => F q') q := by
  unfold handleGenerate
  split
  · exact h.returned q hq
  · split
    · exact h.returned q hq
    · split
      · exact h.returned q hq
      · refine WP.bind ((h.generate _ _ _ _ _ _ q hq).mono fun r q' hr => ?_)
        cases r with
        | error err => exact hr
        | ok resp => exact h.returned q' hr

/-- The loop of the batch goes on as long as its draws succeed. -/
theorem wp_batchLoop (h : Walk srv M I F) (req : BatchRequest) (items : List BatchItem)
    (results : List GenerateResponse) (hq : I q) :
    WP M (batchLoop srv req items results) (fun _ q' => F q') q := by
  induction items generalizing results q with
  | nil => exact h.returned q hq
  | cons item items ih =>
    unfold batchLoop
    split
    · exact h.returned q hq
    · refine WP.bind ((h.generate _ _ _ _ _ _ q hq).mono fun r q' hr => ?_)
      cases r with
      | error err => exact hr
      | ok resp => exact ih _ hr

theorem wp_handleGenerateBatch (h : Walk srv M I F) (tenant : GoString)
    (body : Except GoError BatchRequest) (hq : I q) :
    WP M (handleGenerateBatch srv tenant body) (fun _ q' => F q') q := by
  unfold handleGenerateBatch
  split
  · exact h.returned q hq
  · split
    · exact h.returned q hq
    · split
      · exact h.returned q hq
      · split
        · exact h.returned q hq
        · split
          · exact h.returned q hq
          · exact h.wp_batchLoop _ _ _ hq

theorem wp_handleShuffle (h : Walk srv M I F) (tenant : GoString)
    (body : Except GoError ShuffleRequest) (hq : I q) :
    WP M (handleShuffle srv tenant body) (fun _ q' => F q') q := by
  unfold handleShuffle
  split
  · exact h.returned q hq
  · split
    · exact h.returned q hq
    · split
      · exact h.returned q hq
      · split
        · exact h.returned q hq
        · split
          · exact h.returned q hq
          · refine WP.bind ((h.shuffleItems _ q hq).mono fun r q' hr => ?_)
            cases r with
            | error resp => exact hr
            | ok resp => exact h.returned q' hr

theorem wp_serve (h : Walk srv M I F) (tenant : GoString) (route : Route) (hq : I q) :
    WP M (serve srv tenant route) (fun _ q' => F q') q := by
  cases route with
  | generate body => exact h.wp_handleGenerate tenant body hq
  | generateBatch body => exact h.wp_handleGenerateBatch tenant body hq
  | shuffle body => exact h.wp_handleShuffle tenant body hq
  | health => exact h.wp_reading reads_handleHealth hq
  | stats => exact h.wp_reading (reads_handleStats tenant) hq
  | auditRound roundID => exact h.wp_reading (reads_handleAuditRound roundID) hq
  | unrouted reason => exact h.returned q hq

/-- **A walk covers every task.** -/
theorem wp_task (h : Walk srv M I F) (t : Task) (hq : I q) :
    WP M (t.program srv) (fun _ q' => F q') q := by
  cases t with
  | selfTest n =>
    obtain ⟨hallowed, hstep⟩ := h.selfTest (sampleSize n) q hq
    exact WP.bind (WP.op hallowed hstep)
  | request req =>
    -- authentication and the rate limit only read
    refine WP.bind (WP.bind ((wp_extractTenant (h.reading .now trivial) hq).mono ?_))
    rintro r q' ⟨hq', -⟩
    cases r with
    | error err => exact h.returned q' hq'
    | ok tenant =>
      simp only
      split
      · exact h.returned q' hq'
      · obtain ⟨hallowed, hstep⟩ := h.reading (.allow tenant) trivial q' hq'
        refine WP.bind (WP.op hallowed fun allowed q'' hq'' => ?_)
        split
        · exact h.wp_serve tenant req.route (hstep allowed q'' hq'')
        · exact h.returned q'' (hstep allowed q'' hq'')

end Walk

end Gateway
