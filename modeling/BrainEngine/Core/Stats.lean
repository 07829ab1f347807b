import BrainEngine.Core.External
import BrainEngine.Core.Metrics
import BrainEngine.Lib.Keyed
import BrainEngine.Lib.Outcome
import BrainEngine.Lib.Rowid

/-! # Recorded requests

The tables `sessions` and `requests`, with one function for each statement that `metrics.rs` runs on them.
`requests.session_id` references `sessions` with `ON DELETE SET NULL`, so that a session that is not there
cannot be inserted (`Tables.foreignKey`). The functions of the module run several statements, each in a
transaction of its own. -/

namespace BrainEngine.Core.Stats

open BrainEngine.Rust.Str BrainEngine.Rust.I64 BrainEngine.Lib.Keyed BrainEngine.Lib.Rowid
open BrainEngine.Core.External

/-- A value of `f64`, by its bits. -/
abbrev F64 := UInt64

/-- All metrics collected for a single intercepted request. -/
structure RequestMetric where
  sessionId : Option Text := none
  responseTimeMs : Option ℕ := none
  contextTokensEstimated : Option ℤ := none
  tokensSavedEstimated : Option ℤ := none
  chunksUsed : Option ℤ := none
  retrievalTimeMs : Option ℕ := none
  embeddingSource : Option Text := none
  llmUsed : Option Text := none
  cpuUsagePercent : Option F64 := none
  memoryUsageMb : Option ℤ := none
  decisionReason : Option Text := none
  cacheHit : Bool := false
  deriving DecidableEq

structure SessionRow where
  startedAt : ℤ
  endedAt : Option ℤ
  deriving DecidableEq

structure RequestRow where
  sessionId : Option Text
  timestamp : ℤ
  responseTimeMs : Option ℤ
  contextTokensEstimated : Option ℤ
  tokensSavedEstimated : Option ℤ
  chunksUsed : Option ℤ
  retrievalTimeMs : Option ℤ
  embeddingSource : Option Text
  llmUsed : Option Text
  cpuUsagePercent : Option F64
  memoryUsageMb : Option ℤ
  decisionReason : Option Text
  cacheHit : ℤ
  deriving DecidableEq

structure Tables where
  sessions : KeyTable Text SessionRow
  requests : RowTable RequestRow
  foreignKey : ∀ a ∈ requests.rows, ∀ id, a.2.sessionId = some id → id ∈ sessions.keys

def Tables.empty : Tables := ⟨.empty, .empty, by simp⟩

/-! ### Statements -/

/-- `INSERT OR IGNORE INTO sessions`. -/
def insertSession (t : Tables) (id : Text) (now : ℤ) : Tables where
  sessions := t.sessions.insertIgnore id ⟨now, none⟩
  requests := t.requests
  foreignKey a ha id' h := KeyTable.mem_keys_insertIgnore.mpr (Or.inl (t.foreignKey a ha id' h))

/-- `UPDATE sessions SET ended_at`. -/
def updateSession (t : Tables) (id : Text) (now : ℤ) : Tables where
  sessions := t.sessions.modify id fun s => { s with endedAt := some now }
  requests := t.requests
  foreignKey a ha id' h := by
    rw [KeyTable.keys_modify]
    exact t.foreignKey a ha id' h

/-- The values of `INSERT INTO requests`. -/
def rowOf (m : RequestMetric) (now : ℤ) : RequestRow where
  sessionId := m.sessionId
  timestamp := now
  responseTimeMs := m.responseTimeMs.map ofU64
  contextTokensEstimated := m.contextTokensEstimated
  tokensSavedEstimated := m.tokensSavedEstimated
  chunksUsed := m.chunksUsed
  retrievalTimeMs := m.retrievalTimeMs.map ofU64
  embeddingSource := m.embeddingSource
  llmUsed := m.llmUsed
  cpuUsagePercent := m.cpuUsagePercent
  memoryUsageMb := m.memoryUsageMb
  decisionReason := m.decisionReason
  cacheHit := if m.cacheHit then 1 else 0

/-- The session of a row is in the table, or it has none. -/
def Tables.Refers (t : Tables) (sessionId : Option Text) : Prop :=
  ∀ id, sessionId = some id → id ∈ t.sessions.keys

theorem all_hasKey (t : Tables) (sessionId : Option Text) :
    sessionId.all t.sessions.hasKey = true ↔ t.Refers sessionId := by
  simp [Tables.Refers, Option.all_eq_true]

instance (t : Tables) (sessionId : Option Text) : Decidable (t.Refers sessionId) :=
  decidable_of_iff _ (all_hasKey t sessionId)

/-- `INSERT INTO requests`. -/
def insertRequest (t : Tables) (m : RequestMetric) (now : ℤ) : Except Failure Tables :=
  if h : t.Refers m.sessionId then
    .ok
      { sessions := t.sessions
        requests := t.requests.insert (rowOf m now)
        foreignKey := by
          intro a ha id' h'
          rw [RowTable.rows_insert, List.mem_append, List.mem_singleton] at ha
          rcases ha with ha | rfl
          · exact t.foreignKey a ha id' h'
          · exact h id' h' }
  else .error (.error (.db "FOREIGN KEY constraint failed".toList))

/-- `DELETE FROM requests`. -/
def deleteRequests (t : Tables) : Tables := ⟨t.sessions, .empty, by simp⟩

/-- `DELETE FROM sessions`: the requests keep their rows without their sessions. -/
def deleteSessions (t : Tables) : Tables where
  sessions := .empty
  requests := t.requests.update fun _ r => { r with sessionId := none }
  foreignKey a ha id h := by
    obtain ⟨r, -, hr⟩ := RowTable.mem_update.mp ha
    rw [hr] at h
    cases h

/-- `SUM` of integers: an overflow is an error. -/
def sum (l : List ℤ) : Except Failure ℤ :=
  match l.foldlM add 0 with
  | some n => .ok n
  | none => .error (.error (.db "integer overflow".toList))

/-- The arithmetic of `f64` in the statistics. -/
structure Floats where
  zero : F64
  /-- `AVG` of the values as reals. -/
  avg : List ℤ → F64
  /-- `a as f64 / b as f64`. -/
  ratio : ℤ → ℤ → F64

/-- Aggregated statistics across all recorded requests. -/
structure StatsReport where
  totalRequests : ℤ
  totalSessions : ℤ
  cacheHits : ℤ
  cacheHitRate : F64
  avgLatencyMs : F64
  totalRealTokens : ℤ
  localCount : ℤ
  apiCount : ℤ
  deriving DecidableEq

/-- `SUM(CASE WHEN embedding_source = source THEN 1 ELSE 0 END)`. -/
def sumSource (rows : List RequestRow) (source : String) : Except Failure ℤ :=
  sum (rows.map fun r => if r.embeddingSource = some source.toList then 1 else 0)

/-- The statement on `requests` in `aggregate_stats`; the fields it does not give have their defaults. -/
def requestTotals (fl : Floats) (t : Tables) : Except Failure StatsReport := do
  let rows := t.requests.rows.map Prod.snd
  let cacheHits ← sum (rows.map RequestRow.cacheHit)
  let times := rows.filterMap RequestRow.responseTimeMs
  let totalRealTokens ← sum (rows.filterMap RequestRow.contextTokensEstimated)
  let localCount ← sumSource rows "local"
  let apiCount ← sumSource rows "api"
  return {
    totalRequests := rows.length
    totalSessions := 0
    cacheHits := cacheHits
    cacheHitRate := fl.zero
    avgLatencyMs := if times = [] then fl.zero else fl.avg times
    totalRealTokens := totalRealTokens
    localCount := localCount
    apiCount := apiCount }

/-- `SELECT COUNT(*) FROM requests`. -/
def countRequests (t : Tables) : ℤ := t.requests.rows.length

/-- `SELECT COUNT(*) FROM sessions`. -/
def countSessions (t : Tables) : ℤ := t.sessions.rows.length

/-- The end of `aggregate_stats`. -/
def withSessions (fl : Floats) (report : StatsReport) (totalSessions : ℤ) : StatsReport :=
  { report with
    totalSessions := totalSessions
    cacheHitRate :=
      if 0 < report.totalRequests then fl.ratio report.cacheHits report.totalRequests else fl.zero }

/-- `aggregate_stats`, if no other process comes between its two statements. -/
def aggregateStats (fl : Floats) (t : Tables) : Except Failure StatsReport := do
  let report ← requestTotals fl t
  return withSessions fl report (countSessions t)

end BrainEngine.Core.Stats
