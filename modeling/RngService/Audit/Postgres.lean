import Mathlib
import RngService.Audit.Tampering

/-!
# The PostgreSQL store

The store of `internal/audit/store_postgres.go`, over the table `rng_audit_log` of
`deploy/schema.sql`. An entry is written column by column and read back by
`scanEntries`. The columns of `values_json` are numbers of any size, those of
`created_at` are instants of a coarser clock (`Timestamptz`); all others hold what is
written to them.

`scan_ofEntry` says what comes back: the entry, its timestamp rounded. The signature and
the hash cover the nanoseconds of the timestamp, so the entry passes the auditor's
checks again exactly if there was nothing to round (`passes_readBack_iff`), up to a
collision of both digests.
-/

namespace Audit

/-- The column type `TIMESTAMPTZ`: an instant is rounded to a microsecond. -/
structure Timestamptz where
  round : Time → Time
  /-- the column holds whole microseconds -/
  micros : ∀ t, 1000 ∣ round t
  /-- it holds a nearest one -/
  nearest : ∀ t, |round t - t| ≤ 500

/-- A row of `rng_audit_log` without its `id`: a table is a list of rows in the order of
their ids. -/
structure Row where
  entryHash : GoString
  prevHash : GoString
  tenantID : GoString
  gameID : GoString
  roundID : GoString
  requestID : GoString
  valuesJSON : List ℤ
  valueCount : ℤ
  minValue : Int64
  maxValue : Int64
  signature : GoString
  createdAt : Time
  reseedEvent : Bool
  deriving DecidableEq

/-- `json.Marshal` of the values, as a `JSONB` column keeps it. -/
def marshalValues (values : List Int64) : List ℤ := values.map Int64.toInt

/-- `json.Unmarshal` into a slice of `int64`. -/
def unmarshalValues : List ℤ → Except GoError (List Int64)
  | [] => .ok []
  | n :: rest =>
    if n < -2 ^ 63 ∨ 2 ^ 63 ≤ n then
      .error (.errorf "json: cannot unmarshal number %d into Go value of type int64" [.int n])
    else (unmarshalValues rest).map (Int64.ofInt n :: ·)

/-- The row that `Append` inserts. -/
def Row.ofEntry (tz : Timestamptz) (e : Entry) : Row :=
  { entryHash := e.entryHash, prevHash := e.prevHash, tenantID := e.tenantID, gameID := e.gameID,
    roundID := e.roundID, requestID := e.requestID, valuesJSON := marshalValues e.values,
    valueCount := e.valueCount, minValue := e.minValue, maxValue := e.maxValue,
    signature := e.signature, createdAt := tz.round e.createdAt, reseedEvent := e.reseedEvent }

/-- One turn of the loop of `scanEntries`. -/
def Row.scan (r : Row) : Except GoError Entry :=
  match unmarshalValues r.valuesJSON with
  | .error err => .error (.wrap "audit: unmarshal values: %w" [] err)
  | .ok values =>
    .ok { entryHash := r.entryHash, prevHash := r.prevHash, tenantID := r.tenantID,
          gameID := r.gameID, roundID := r.roundID, requestID := r.requestID, values,
          valueCount := r.valueCount, minValue := r.minValue, maxValue := r.maxValue,
          signature := r.signature, createdAt := r.createdAt, reseedEvent := r.reseedEvent }

/-- `scanEntries`. -/
def scanEntries (rows : List Row) : Except GoError (List Entry) := rows.mapM Row.scan

/-- `PostgresStore`: the rows of its table. -/
structure PostgresStore where
  rows : List Row
  deriving DecidableEq

namespace PostgresStore

/-- `Append`. The statement may fail with `insertErr`: the server is lost, or a
constraint, a trigger or a policy of the schema rejects the row. -/
def append (tz : Timestamptz) (insertErr : Option GoError) (s : PostgresStore) (e : Entry) :
    Option GoError × PostgresStore :=
  if e.entryHash = [] ∨ e.prevHash = [] ∨ e.signature = [] then
    (some (.errorf "audit: PostgresStore.Append: entry must be sealed and signed" []), s)
  else
    match insertErr with
    | some err => (some (.wrap "audit: insert entry: %w" [] err), s)
    | none => (none, ⟨s.rows ++ [Row.ofEntry tz e]⟩)

/-- `GetByRound`. The query may fail with `queryErr`. -/
def getByRound (queryErr : Option GoError) (s : PostgresStore) (roundID : GoString) :
    Except GoError (List Entry) :=
  match queryErr with
  | some err => .error (.wrap "audit: get by round: %w" [] err)
  | none => scanEntries (s.rows.filter (·.roundID = roundID))

end PostgresStore

/-! ### Writing and reading back -/

/-- The entry as it is read back: its timestamp is the one of the column. -/
def Entry.readBack (tz : Timestamptz) (e : Entry) : Entry :=
  { e with createdAt := tz.round e.createdAt }

variable {tz : Timestamptz} {crypto : Crypto} {key : Bytes} {e : Entry}

/-- **The values survive**, whatever they are. -/
theorem unmarshalValues_marshalValues (values : List Int64) :
    unmarshalValues (marshalValues values) = .ok values := by
  induction values with
  | nil => rfl
  | cons v rest ih =>
    have hlo := v.le_toInt
    have hhi := v.toInt_lt
    have hin : ¬ (v.toInt < -2 ^ 63 ∨ 2 ^ 63 ≤ v.toInt) := by omega
    rw [marshalValues, List.map_cons, unmarshalValues, if_neg hin, Int64.ofInt_toInt]
    rw [marshalValues] at ih
    rw [ih]
    rfl

@[simp] theorem scan_ofEntry (tz : Timestamptz) (e : Entry) :
    (Row.ofEntry tz e).scan = .ok (e.readBack tz) := by
  have hvalues : unmarshalValues (Row.ofEntry tz e).valuesJSON = .ok e.values :=
    unmarshalValues_marshalValues e.values
  rw [Row.scan, hvalues]
  rfl

/-- **What a table gives back** of the entries written to it. -/
theorem scanEntries_ofEntry (tz : Timestamptz) (es : List Entry) :
    scanEntries (es.map (Row.ofEntry tz)) = .ok (es.map (Entry.readBack tz)) := by
  induction es with
  | nil => rfl
  | cons e es ih =>
    rw [scanEntries] at ih
    rw [scanEntries, List.map_cons, List.mapM_cons, scan_ofEntry, ih]
    rfl

/-- Only the timestamp changes. -/
theorem sameSeal_readBack (tz : Timestamptz) (e : Entry) : SameSeal e (e.readBack tz) :=
  ⟨rfl, rfl, rfl⟩

/-- Whole microseconds are kept. -/
theorem Timestamptz.round_of_dvd {t : Time} (h : 1000 ∣ t) : tz.round t = t := by
  -- two multiples of 1000 that are at most 500 apart
  have hdvd : (1000 : ℤ) ∣ tz.round t - t := dvd_sub (tz.micros t) h
  have hlt : |tz.round t - t| < 1000 := lt_of_le_of_lt (tz.nearest t) (by norm_num)
  exact sub_eq_zero.mp (Int.eq_zero_of_abs_lt_dvd hdvd hlt)

/-- **A reading between two microseconds changes**, also in the 64 bits that are signed
and hashed. -/
theorem Timestamptz.unixNano_round_ne {t : Time} (h : ¬ 1000 ∣ t) :
    (tz.round t).unixNano ≠ t.unixNano := by
  intro heq
  -- the two readings agree modulo 2^64, and are at most 500 apart
  have hmod := congrArg Int64.toInt heq
  rw [Time.unixNano, Time.unixNano, Int64.toInt_ofInt, Int64.toInt_ofInt,
    Int.bmod_eq_bmod_iff_bmod_sub_eq_zero, ← Int.dvd_iff_bmod_eq_zero] at hmod
  have hlt : |tz.round t - t| < Int64.size :=
    lt_of_le_of_lt (tz.nearest t) (by norm_num [Int64.size])
  have hround : tz.round t = t := sub_eq_zero.mp (Int.eq_zero_of_abs_lt_dvd hmod hlt)
  exact h (hround ▸ tz.micros t)

/-- Entries that differ in the nanoseconds of the timestamp only differ in what is
signed and in what is hashed. -/
theorem encoders_ne_of_createdAt {t : Time} (h : t.unixNano ≠ e.createdAt.unixNano) :
    ({ e with createdAt := t } : Entry).signData ≠ e.signData ∧
      ({ e with createdAt := t } : Entry).payload ≠ e.payload := by
  -- what is written around the nanoseconds is the same
  have hput : ∀ {a b : Bytes}, a ++ (putInt64 t.unixNano ++ b)
      ≠ a ++ (putInt64 e.createdAt.unixNano ++ b) := fun heq =>
    h (putInt64_inj (List.append_cancel_right (List.append_cancel_left heq)))
  refine ⟨?_, ?_⟩
  · rw [Entry.signData, Entry.signData, List.append_assoc, List.append_assoc]
    exact hput
  · simp only [Entry.payload, Entry.hashData, List.append_assoc]
    exact hput

/-- **What survives storage.** The entry that is read back passes the auditor's checks
exactly if its timestamp was a whole number of microseconds, or both digests collide. -/
theorem passes_readBack_iff (h : Passes crypto key e) :
    Passes crypto key (e.readBack tz) ↔ 1000 ∣ e.createdAt ∨
      (HashCollides crypto e (e.readBack tz) ∧ SignCollides crypto key e (e.readBack tz)) := by
  rw [passes_iff_digests h (sameSeal_readBack tz e)]
  by_cases hdvd : 1000 ∣ e.createdAt
  -- nothing is rounded
  · have hsame : e.readBack tz = e := by
      rw [Entry.readBack, Timestamptz.round_of_dvd hdvd]
    rw [hsame]
    exact ⟨fun _ => Or.inl hdvd, fun _ => ⟨rfl, rfl⟩⟩
  -- both encoders write other nanoseconds
  · have hne : (e.readBack tz).createdAt.unixNano ≠ e.createdAt.unixNano :=
      Timestamptz.unixNano_round_ne hdvd
    obtain ⟨hdata, hpay⟩ := encoders_ne_of_createdAt hne
    constructor
    · rintro ⟨hsign, hhash⟩
      exact Or.inr ⟨⟨hpay, hhash⟩, hdata, hsign⟩
    · rintro (hdvd' | ⟨hhash, hsign⟩)
      · exact absurd hdvd' hdvd
      · exact ⟨hsign.2, hhash.2⟩

end Audit
