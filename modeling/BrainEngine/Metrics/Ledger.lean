import BrainEngine.Core.Stats
import Mathlib.Data.List.Dedup
import Mathlib.Algebra.BigOperators.Ring.Finset
import Mathlib.Algebra.Order.BigOperators.Group.List
import Mathlib.Algebra.Order.Ring.Int

/-! # The ledger behind the statistics

What the statements on the two tables do, as a list of events. `recorded` and `seen` read off the events
which requests have been recorded, and which sessions seen, since they were last deleted; `Kept` says that
the tables are just this. Then the statistics are those of the ledger (`aggregateStats_of_kept`). -/

namespace BrainEngine.Metrics.Ledger

open BrainEngine.Rust.Str BrainEngine.Rust.I64 BrainEngine.Lib.Keyed BrainEngine.Lib.Rowid
open BrainEngine.Core.External BrainEngine.Core.Stats

/-- A statement that took effect, or a call of `record_request` that ended without. The calls of
`record_request` are numbered. -/
inductive Event
  | session (call : Option ℕ) (id : Text) (now : ℤ)
  | ended (id : Text) (now : ℤ)
  | request (call : ℕ) (m : RequestMetric) (now : ℤ)
  /-- The foreign key is not there. -/
  | refused (call : ℕ)
  /-- The database is busy, or the process dies. -/
  | failed (call : ℕ)
  | deletedRequests
  | deletedSessions

/-- An event and what it makes of the tables. -/
def Writes (t : Tables) : Event → Tables → Prop
  | .session _ id now, t' => t' = insertSession t id now
  | .ended id now, t' => t' = updateSession t id now
  | .request _ m now, t' => insertRequest t m now = .ok t'
  | .refused _, t' => t' = t
  | .failed _, t' => t' = t
  | .deletedRequests, t' => t' = deleteRequests t
  | .deletedSessions, t' => t' = deleteSessions t

def recordedStep (l : List RequestMetric) : Event → List RequestMetric
  | .request _ m _ => l ++ [m]
  | .deletedRequests => []
  | _ => l

/-- The requests recorded since the last deletion. -/
def recorded (events : List Event) : List RequestMetric := events.foldl recordedStep []

def seenStep (l : List Text) : Event → List Text
  | .session _ id _ => l ++ [id]
  | .deletedSessions => []
  | _ => l

/-- The sessions seen since the last deletion, in order, with repetitions. -/
def seen (events : List Event) : List Text := events.foldl seenStep []

variable {events : List Event} {e : Event} {t t' : Tables}

theorem recorded_append (events : List Event) (e : Event) :
    recorded (events ++ [e]) = recordedStep (recorded events) e := by
  simp [recorded]

theorem seen_append (events : List Event) (e : Event) : seen (events ++ [e]) = seenStep (seen events) e := by
  simp [seen]

/-! ### The tables and the ledger -/

/-- The columns that the statistics read, all but the session. -/
def measured (r : RequestRow) : ℤ × Option ℤ × Option ℤ × Option Text :=
  (r.cacheHit, r.responseTimeMs, r.contextTokensEstimated, r.embeddingSource)

/-- The tables hold what the ledger says. -/
structure Kept (events : List Event) (t : Tables) : Prop where
  requests : t.requests.rows.map (fun a => measured a.2) =
    (recorded events).map fun m => measured (rowOf m 0)
  sessions : ∀ id, id ∈ t.sessions.keys ↔ id ∈ seen events

theorem kept_empty : Kept [] Tables.empty := ⟨rfl, fun _ => Iff.rfl⟩

theorem insertRequest_eq_ok {m : RequestMetric} {now : ℤ} : insertRequest t m now = .ok t' ↔
    t.Refers m.sessionId ∧ t'.sessions = t.sessions ∧ t'.requests = t.requests.insert (rowOf m now) := by
  unfold insertRequest
  split_ifs with h
  · rw [Except.ok.injEq]
    constructor
    · rintro rfl
      exact ⟨h, rfl, rfl⟩
    · rintro ⟨-, h1, h2⟩
      obtain ⟨ses, req, fk⟩ := t'
      obtain rfl : ses = t.sessions := h1
      obtain rfl : req = t.requests.insert (rowOf m now) := h2
      rfl
  · constructor
    · intro he
      cases he
    · rintro ⟨h1, -⟩
      exact absurd h1 h

/-- **One event.** -/
theorem Kept.write (h : Kept events t) (hw : Writes t e t') : Kept (events ++ [e]) t' := by
  constructor
  · rw [recorded_append]
    cases e with
    | session call id now =>
      obtain rfl : t' = insertSession t id now := hw
      exact h.requests
    | ended id now =>
      obtain rfl : t' = updateSession t id now := hw
      exact h.requests
    | request call m now =>
      obtain ⟨-, -, hreq⟩ := insertRequest_eq_ok.mp hw
      rw [hreq, RowTable.rows_insert, List.map_append, h.requests, recordedStep, List.map_append]
      rfl
    | refused call =>
      obtain rfl : t' = t := hw
      exact h.requests
    | failed call =>
      obtain rfl : t' = t := hw
      exact h.requests
    | deletedRequests =>
      obtain rfl : t' = deleteRequests t := hw
      rfl
    | deletedSessions =>
      obtain rfl : t' = deleteSessions t := hw
      show (t.requests.update _).rows.map _ = _
      rw [RowTable.rows_update, List.map_map]
      exact h.requests
  · intro id
    rw [seen_append]
    cases e with
    | session call id' now =>
      obtain rfl : t' = insertSession t id' now := hw
      rw [insertSession, KeyTable.mem_keys_insertIgnore, h.sessions, seenStep, List.mem_append,
        List.mem_singleton]
    | ended id' now =>
      obtain rfl : t' = updateSession t id' now := hw
      rw [updateSession, KeyTable.keys_modify]
      exact h.sessions id
    | request call m now =>
      obtain ⟨-, hses, -⟩ := insertRequest_eq_ok.mp hw
      rw [hses]
      exact h.sessions id
    | refused call =>
      obtain rfl : t' = t := hw
      exact h.sessions id
    | failed call =>
      obtain rfl : t' = t := hw
      exact h.sessions id
    | deletedRequests =>
      obtain rfl : t' = deleteRequests t := hw
      exact h.sessions id
    | deletedSessions =>
      obtain rfl : t' = deleteSessions t := hw
      exact Iff.rfl

/-! ### Sums -/

theorem foldlM_add {a : ℤ} {l : List ℤ} (ha : 0 ≤ a) (hl : ∀ n ∈ l, 0 ≤ n) :
    l.foldlM add a = if a + l.sum < 2 ^ 63 ∨ l = [] then some (a + l.sum) else none := by
  induction l generalizing a with
  | nil => simp
  | cons n l ih =>
    have hn : 0 ≤ n := hl n List.mem_cons_self
    have hrest : ∀ n ∈ l, 0 ≤ n := fun n h => hl n (List.mem_cons_of_mem _ h)
    have hsum : 0 ≤ l.sum := List.sum_nonneg hrest
    rw [List.foldlM_cons, List.sum_cons]
    by_cases hfit : a + n < 2 ^ 63
    · rw [add_eq ⟨by omega, hfit⟩ rfl]
      show l.foldlM add (a + n) = _
      rw [ih (by omega) hrest]
      by_cases hnil : l = []
      · rw [if_pos (Or.inr hnil), hnil, List.sum_nil, if_pos (Or.inl (by omega))]
        congr 1
        omega
      · by_cases hall : a + (n + l.sum) < 2 ^ 63
        · rw [if_pos (Or.inl (by omega)), if_pos (Or.inl hall)]
          congr 1
          omega
        · rw [if_neg (by simp only [hnil, or_false]; omega), if_neg (by simp; omega)]
    · have hnone : add a n = none := by
        unfold add checked
        rw [if_neg fun h => hfit h.2]
      rw [hnone, if_neg (by simp; omega)]
      rfl

/-- **The sum of numbers that are not negative**, if it fits. -/
theorem sum_eq {l : List ℤ} (hl : ∀ n ∈ l, 0 ≤ n) :
    sum l = if l.sum < 2 ^ 63 then .ok l.sum else .error (.error (.db "integer overflow".toList)) := by
  unfold sum
  rw [foldlM_add le_rfl hl, zero_add]
  by_cases h : l.sum < 2 ^ 63
  · rw [if_pos (Or.inl h), if_pos h]
  · have hnil : l ≠ [] := by
      rintro rfl
      simp at h
    rw [if_neg (by simp only [hnil, or_false]; exact h), if_neg h]

theorem sum_map_ite {α : Type} (p : α → Bool) (l : List α) :
    (l.map fun a => if p a then (1 : ℤ) else 0).sum = l.countP p := by
  induction l with
  | nil => rfl
  | cons a l ih =>
    rw [List.map_cons, List.sum_cons, ih, List.countP_cons]
    push_cast
    split_ifs <;> omega

/-- **Counting by a sum.** -/
theorem sum_ite {α : Type} {p : α → Bool} {l : List α} (h : (l.length : ℤ) < 2 ^ 63) :
    sum (l.map fun a => if p a then 1 else 0) = .ok ↑(l.countP p) := by
  have hle : l.countP p ≤ l.length := List.countP_le_length
  rw [sum_eq, sum_map_ite, if_pos (by omega)]
  intro n hn
  obtain ⟨a, -, rfl⟩ := List.mem_map.mp hn
  split_ifs <;> omega

/-! ### The statistics -/

/-- The tokens of the contexts that were recorded. -/
def realTokens (ms : List RequestMetric) : ℤ := (ms.filterMap RequestMetric.contextTokensEstimated).sum

/-- The requests that used a backend. -/
def usedSource (source : String) (m : RequestMetric) : Bool := m.embeddingSource = some source.toList

/-- The report of a ledger. -/
def reportOf (fl : Floats) (ms : List RequestMetric) (ids : List Text) : StatsReport where
  totalRequests := ms.length
  totalSessions := ids.dedup.length
  cacheHits := ms.countP RequestMetric.cacheHit
  cacheHitRate := if ms = [] then fl.zero else fl.ratio (ms.countP RequestMetric.cacheHit) ms.length
  avgLatencyMs :=
    let times := ms.filterMap fun m => m.responseTimeMs.map ofU64
    if times = [] then fl.zero else fl.avg times
  totalRealTokens := realTokens ms
  localCount := ms.countP (usedSource "local")
  apiCount := ms.countP (usedSource "api")

/-- The numbers of a ledger are such as the engine writes: no context costs less than nothing, and there
are no more rows than there are ids. -/
structure Plain (ms : List RequestMetric) : Prop where
  tokens : ∀ m ∈ ms, ∀ n, m.contextTokensEstimated = some n → 0 ≤ n
  count : (ms.length : ℤ) < 2 ^ 63

theorem Plain.perm {ms ms' : List RequestMetric} (hperm : ms.Perm ms') (h : Plain ms) : Plain ms' :=
  ⟨fun m hm => h.tokens m (hperm.symm.subset hm), by rw [← hperm.length_eq]; exact h.count⟩

/-- The part of the report that comes from the requests. -/
def totalsOf (fl : Floats) (ms : List RequestMetric) : StatsReport :=
  { reportOf fl ms [] with cacheHitRate := fl.zero }

theorem withSessions_totalsOf (fl : Floats) (ms : List RequestMetric) (ids : List Text) :
    withSessions fl (totalsOf fl ms) ids.dedup.length = reportOf fl ms ids := by
  unfold withSessions totalsOf reportOf
  rcases eq_or_ne ms [] with rfl | hne
  · rfl
  · have hpos : (0 : ℤ) < ms.length := by
      have := List.length_pos_of_ne_nil hne
      omega
    simp only [if_pos hpos, if_neg hne]

theorem requests_of_kept (h : Kept events t) {α : Type} (g : ℤ × Option ℤ × Option ℤ × Option Text → α) :
    (t.requests.rows.map Prod.snd).map (fun r => g (measured r)) =
      (recorded events).map fun m => g (measured (rowOf m 0)) := by
  have heq := congrArg (List.map g) h.requests
  simpa [List.map_map, Function.comp_def] using heq

theorem filterMap_of_kept (h : Kept events t) {α : Type}
    (g : ℤ × Option ℤ × Option ℤ × Option Text → Option α) :
    (t.requests.rows.map Prod.snd).filterMap (fun r => g (measured r)) =
      (recorded events).filterMap fun m => g (measured (rowOf m 0)) := by
  have heq := congrArg (List.filterMap g) h.requests
  simpa [List.filterMap_map, Function.comp_def] using heq

theorem sumSource_of_kept (h : Kept events t) (hp : Plain (recorded events)) (source : String) :
    sumSource (t.requests.rows.map Prod.snd) source = .ok ↑((recorded events).countP (usedSource source)) := by
  have hmap := requests_of_kept h fun c => if c.2.2.2 = some source.toList then (1 : ℤ) else 0
  have huse : (recorded events).map (fun m => if m.embeddingSource = some source.toList then (1 : ℤ) else 0) =
      (recorded events).map fun m => if usedSource source m then 1 else 0 := by
    simp [usedSource]
  have hrows : (t.requests.rows.map Prod.snd).map (fun r => if r.embeddingSource = some source.toList then
      (1 : ℤ) else 0) = (recorded events).map fun m => if usedSource source m then 1 else 0 := hmap.trans huse
  unfold sumSource
  rw [hrows]
  exact sum_ite hp.count

/-- **The totals are those of the ledger**, unless they overflow. -/
theorem requestTotals_of_kept (fl : Floats) (h : Kept events t) (hp : Plain (recorded events)) :
    requestTotals fl t = if realTokens (recorded events) < 2 ^ 63 then .ok (totalsOf fl (recorded events))
      else .error (.error (.db "integer overflow".toList)) := by
  let rows := t.requests.rows.map Prod.snd
  have hlen : rows.length = (recorded events).length := by
    simpa [rows] using congrArg List.length h.requests
  have hhits : sum (rows.map RequestRow.cacheHit) =
      .ok ↑((recorded events).countP RequestMetric.cacheHit) := by
    have hmap : rows.map RequestRow.cacheHit = (recorded events).map fun m => if m.cacheHit then 1 else 0 :=
      requests_of_kept h Prod.fst
    rw [hmap]
    exact sum_ite hp.count
  have htimes : rows.filterMap RequestRow.responseTimeMs =
      (recorded events).filterMap fun m => m.responseTimeMs.map ofU64 :=
    filterMap_of_kept h fun c => c.2.1
  have htokens : rows.filterMap RequestRow.contextTokensEstimated =
      (recorded events).filterMap RequestMetric.contextTokensEstimated :=
    filterMap_of_kept h fun c => c.2.2.1
  have hpos : ∀ n ∈ (recorded events).filterMap RequestMetric.contextTokensEstimated, 0 ≤ n := by
    intro n hn
    obtain ⟨m, hm, heq⟩ := List.mem_filterMap.mp hn
    exact hp.tokens m hm n heq
  have hsum := sum_eq hpos
  unfold requestTotals
  show (sum (rows.map RequestRow.cacheHit) >>= _) = _
  rw [hhits]
  show (sum (rows.filterMap RequestRow.contextTokensEstimated) >>= _) = _
  rw [htokens, hsum]
  show _ = if realTokens (recorded events) < 2 ^ 63 then _ else _
  by_cases hfit : realTokens (recorded events) < 2 ^ 63
  · rw [if_pos hfit]
    have hfit' : ((recorded events).filterMap RequestMetric.contextTokensEstimated).sum < 2 ^ 63 := hfit
    rw [if_pos hfit']
    show (sumSource rows "local" >>= _) = _
    rw [sumSource_of_kept h hp]
    show (sumSource rows "api" >>= _) = _
    rw [sumSource_of_kept h hp]
    show Except.ok _ = Except.ok _
    rw [htimes, hlen]
    rfl
  · have hfit' : ¬((recorded events).filterMap RequestMetric.contextTokensEstimated).sum < 2 ^ 63 := hfit
    rw [if_neg hfit, if_neg hfit']
    rfl

/-- **The sessions that were seen**, each counted once. -/
theorem countSessions_of_kept (h : Kept events t) : countSessions t = (seen events).dedup.length := by
  have hperm : t.sessions.keys.Perm (seen events).dedup := by
    refine (List.perm_ext_iff_of_nodup t.sessions.nodup (List.nodup_dedup _)).mpr fun id => ?_
    rw [List.mem_dedup]
    exact h.sessions id
  have hlen := hperm.length_eq
  rw [KeyTable.keys, List.length_map] at hlen
  unfold countSessions
  rw [hlen]

/-- **The statistics are those of the ledger.** -/
theorem aggregateStats_of_kept (fl : Floats) (h : Kept events t) (hp : Plain (recorded events)) :
    aggregateStats fl t = if realTokens (recorded events) < 2 ^ 63
      then .ok (reportOf fl (recorded events) (seen events))
      else .error (.error (.db "integer overflow".toList)) := by
  unfold aggregateStats
  rw [requestTotals_of_kept fl h hp, countSessions_of_kept h]
  split_ifs
  · exact congrArg Except.ok (withSessions_totalsOf fl _ _)
  · rfl

end BrainEngine.Metrics.Ledger
