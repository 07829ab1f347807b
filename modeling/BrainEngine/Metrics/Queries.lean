import BrainEngine.Cache.Timed
import BrainEngine.Core.Query
import BrainEngine.Core.Router
import BrainEngine.Core.Sample
import BrainEngine.Metrics.Recording

/-! # What the queries leave in the statistics

Each answer to a query is recorded once: a cached one as a hit, a retrieval with the tokens of its context.
So the statistics can be read off the answers (`stats_of_answers`), whoever gave them and however their
recordings took turns. -/

namespace BrainEngine.Metrics.Queries

open BrainEngine.Rust.Str BrainEngine.Rust.I64 BrainEngine.Lib.Machine BrainEngine.Core.External
open BrainEngine.Core.Vectors BrainEngine.Core.Retrieve BrainEngine.Core.Cache BrainEngine.Core.Query
open BrainEngine.Core.Router BrainEngine.Core.Stats BrainEngine.Metrics.Ledger BrainEngine.Metrics.Recording

/-- What a query measures besides its answer. -/
structure Measured where
  /-- `CLAUDE_SESSION_ID`, or made of the process id. -/
  sessionId : Text
  responseTimeMs : ℕ
  retrievalTimeMs : ℕ
  /-- Only the command line asks for a route. -/
  route : RouteDecision

/-- The metric of an answer. -/
def metricOf (c : Core.Query.Call) (x : Measured) : Answer → Option RequestMetric
  | .cached _ _ => some
    { sessionId := some x.sessionId, responseTimeMs := some x.responseTimeMs, cacheHit := true }
  | .live ctx => some
    { sessionId := some x.sessionId
      responseTimeMs := some x.responseTimeMs
      contextTokensEstimated := some (ofU64 ctx.contextTokens)
      tokensSavedEstimated := some (ofU64 ctx.theoreticalSaved)
      chunksUsed := some (ofU64 ctx.chunks.length)
      retrievalTimeMs := some x.retrievalTimeMs
      embeddingSource := some "local".toList
      llmUsed := match c.frontEnd with
        | .daemon => none
        | .cli => some x.route.route.asStr
      decisionReason := match c.frontEnd with
        | .daemon => none
        | .cli => some x.route.reason
      cacheHit := false }
  | .notIndexed _ => none

/-- A query, what it measured, and its answer. -/
structure Served where
  call : Core.Query.Call
  measured : Measured
  answer : Answer

def Served.metric (s : Served) : Option RequestMetric := metricOf s.call s.measured s.answer

/-- The answer is what `handle_query` gives on some cache and index. -/
def Genuine (x : Extern) (e : Engine) (l : Lance) (s : Served) : Prop :=
  ∃ ix t t', handleQuery x e l ix t s.call = (.ok s.answer, t')

def Served.cached (s : Served) : Bool :=
  match s.answer with
  | .cached _ _ => true
  | _ => false

def Served.live (s : Served) : Bool :=
  match s.answer with
  | .live _ => true
  | _ => false

/-- The tokens of the context of an answer. -/
def Served.contextTokens (s : Served) : ℕ :=
  match s.answer with
  | .live ctx => ctx.contextTokens
  | _ => 0

variable {x : Extern} {e : Engine} {l : Lance} {s : Served}

/-- A context that is an answer has been retrieved. -/
theorem retrieve_of_live {ix : Index} {c : Core.Query.Call} {t t' : CacheTable} {ctx : Context}
    (h : handleQuery x e l ix t c = (.ok (.live ctx), t')) : ∃ v, retrieve l ix c v = .ok ctx := by
  unfold handleQuery at h
  split at h
  · cases h
  · split at h
    · cases h
    · split at h
      · cases h
      · next v _ =>
        split at h
        · cases h
        · split at h
          · cases h
          · next ctx' hret =>
            obtain rfl := Answer.live.inj (Except.ok.inj (Prod.mk.inj h).1)
            exact ⟨v, hret⟩

/-- **A retrieval keeps to the budget.** -/
theorem contextTokens_le (h : Genuine x e l s) : s.contextTokens ≤ s.call.limits.tokens := by
  obtain ⟨ix, t, t', hq⟩ := h
  unfold Served.contextTokens
  split
  · next ctx hans =>
    rw [hans] at hq
    obtain ⟨v, hret⟩ := retrieve_of_live hq
    unfold retrieve at hret
    cases hs : search l ix.vs ix.db v s.call.limits.topK with
    | error f =>
      rw [hs] at hret
      cases hret
    | ok retrieved =>
      rw [hs] at hret
      obtain rfl := Except.ok.inj hret
      exact (assemble_spec retrieved s.call.limits.tokens (projectTotal ix.db)).2.2
  · exact Nat.zero_le _

/-! ### The ledger of some answers -/

theorem hit_metric (s : Served) : (s.metric.map RequestMetric.cacheHit).getD false = s.cached := by
  unfold Served.metric Served.cached metricOf
  cases s.answer <;> rfl

theorem local_metric (s : Served) : (s.metric.map (usedSource "local")).getD false = s.live := by
  unfold Served.metric Served.live metricOf usedSource
  cases s.answer <;> rfl

theorem api_metric (s : Served) : (s.metric.map (usedSource "api")).getD false = false := by
  unfold Served.metric metricOf usedSource
  cases s.answer <;> rfl

theorem isSome_metric (s : Served) : s.metric.isSome = (s.cached || s.live) := by
  unfold Served.metric Served.cached Served.live metricOf
  cases s.answer <;> rfl

theorem tokens_metric (s : Served) : (s.metric.bind RequestMetric.contextTokensEstimated).getD 0 =
    ofU64 s.contextTokens := by
  have hzero : ofU64 0 = 0 := ofU64_of_lt (n := 0) (by omega)
  rcases hans : s.answer with ⟨response, kind⟩ | ctx | message
  · have hm : s.metric.bind RequestMetric.contextTokensEstimated = none := by
      rw [Served.metric, hans]
      rfl
    rw [hm, Served.contextTokens, hans, hzero]
    rfl
  · have hm : s.metric.bind RequestMetric.contextTokensEstimated = some (ofU64 ctx.contextTokens) := by
      rw [Served.metric, hans]
      rfl
    rw [hm, Served.contextTokens, hans, Option.getD_some]
  · have hm : s.metric.bind RequestMetric.contextTokensEstimated = none := by
      rw [Served.metric, hans]
      rfl
    rw [hm, Served.contextTokens, hans, hzero]
    rfl

theorem countP_metrics {p : RequestMetric → Bool} {q : Served → Bool}
    (h : ∀ s : Served, (s.metric.map p).getD false = q s) (served : List Served) :
    (served.filterMap Served.metric).countP p = served.countP q := by
  rw [List.countP_filterMap]
  exact congrArg (List.countP · served) (funext h)

theorem sum_filterMap {α : Type} (g : α → Option ℤ) (l : List α) :
    (l.filterMap g).sum = (l.map fun a => (g a).getD 0).sum := by
  induction l with
  | nil => rfl
  | cons a l ih =>
    rw [List.map_cons, List.sum_cons, ← ih]
    cases h : g a with
    | none => rw [List.filterMap_cons_none h, Option.getD_none, zero_add]
    | some n => rw [List.filterMap_cons_some h, List.sum_cons, Option.getD_some]

theorem realTokens_metrics {served : List Served} (h : ∀ s ∈ served, s.contextTokens < 2 ^ 63) :
    realTokens (served.filterMap Served.metric) = ↑(served.map Served.contextTokens).sum := by
  unfold realTokens
  rw [List.filterMap_filterMap, sum_filterMap]
  have hmap : served.map (fun s => ((s.metric.bind RequestMetric.contextTokensEstimated).getD 0)) =
      served.map fun s => (s.contextTokens : ℤ) := by
    refine List.map_congr_left fun s hs => ?_
    rw [tokens_metric, ofU64_of_lt (h s hs)]
  rw [hmap, Nat.cast_list_sum, List.map_map]
  rfl

/-- The metrics of answers with small contexts are plain. -/
theorem plain_metrics {served : List Served} (h : ∀ s ∈ served, s.contextTokens < 2 ^ 63)
    (hlen : served.length < 2 ^ 63) : Plain (served.filterMap Served.metric) := by
  constructor
  · intro m hm n hn
    obtain ⟨s, hs, heq⟩ := List.mem_filterMap.mp hm
    have htokens := tokens_metric s
    rw [heq, ofU64_of_lt (h s hs)] at htokens
    have hn' : n = s.contextTokens := by
      rw [← htokens]
      show n = m.contextTokensEstimated.getD 0
      rw [hn, Option.getD_some]
    omega
  · have hle := List.length_filterMap_le Served.metric served
    omega

/-- **The statistics are those of the answers.** However the daemon and any number of commands take turns:
when every answer to a query has been recorded, no statement has failed and nothing has been reset, the
statistics count the answers, those from the cache as hits and the retrievals as local ones; and their
tokens are those of the contexts that were returned, within the budgets of the queries. -/
theorem stats_of_answers {fl : Core.Stats.Floats} {c : Lib.Processes.Pool World Place} {served : List Served}
    (h : Reaches (step fl) free start c) (hq : Quiet c) (hgenuine : ∀ s ∈ served, Genuine x e l s)
    (hasked : (c.shared.asked.map Prod.snd).Perm (served.filterMap Served.metric))
    (hfailed : ∀ i, .failed i ∉ c.shared.events) (hrequests : .deletedRequests ∉ c.shared.events)
    (hsessions : .deletedSessions ∉ c.shared.events) (hlen : served.length < 2 ^ 63)
    (hbudget : (served.map fun s => s.call.limits.tokens).sum < 2 ^ 63) :
    ∃ report, aggregateStats fl c.shared.tables = .ok report ∧
      report.totalRequests = served.countP (fun s => s.cached || s.live) ∧
      report.cacheHits = served.countP Served.cached ∧
      report.localCount = served.countP Served.live ∧ report.apiCount = 0 ∧
      report.totalRealTokens = (served.map Served.contextTokens).sum ∧
      (served.map Served.contextTokens).sum ≤ (served.map fun s => s.call.limits.tokens).sum := by
  have hle : (served.map Served.contextTokens).sum ≤ (served.map fun s => s.call.limits.tokens).sum :=
    List.sum_le_sum fun s hs => contextTokens_le (hgenuine s hs)
  have hsmall : ∀ s ∈ served, s.contextTokens < 2 ^ 63 := by
    intro s hs
    have := List.single_le_sum (fun _ _ => Nat.zero_le _) _ (List.mem_map_of_mem (f := Served.contextTokens) hs)
    omega
  have hplain := plain_metrics hsmall hlen
  have hperm := ((asked_of_quiet h hq).2.2 hfailed hrequests hsessions).trans hasked
  have hreport := (report_of_reaches h (hplain.perm hasked.symm)).1
  have htokens : realTokens (recorded c.shared.events) = ↑(served.map Served.contextTokens).sum := by
    rw [← realTokens_metrics hsmall]
    exact (hperm.filterMap _).sum_eq
  rw [htokens, if_pos (by omega)] at hreport
  refine ⟨_, hreport, ?_, ?_, ?_, ?_, htokens, hle⟩
  · show ((recorded c.shared.events).length : ℤ) = _
    rw [hperm.length_eq, List.length_filterMap_eq_countP]
    exact congrArg (fun q => ((served.countP q : ℕ) : ℤ)) (funext isSome_metric)
  · show ((recorded c.shared.events).countP RequestMetric.cacheHit : ℤ) = _
    rw [hperm.countP_eq, countP_metrics hit_metric]
  · show ((recorded c.shared.events).countP (usedSource "local") : ℤ) = _
    rw [hperm.countP_eq, countP_metrics local_metric]
  · show ((recorded c.shared.events).countP (usedSource "api") : ℤ) = _
    rw [hperm.countP_eq, countP_metrics api_metric]
    simp

/-- A query to the daemon. -/
def queryA : Core.Query.Call :=
  ⟨.daemon, ['a'], ⟨5, 4000⟩, false, {}, Core.Sample.bge, 1, 2, 3, 4⟩

def indexA : Index := ⟨Core.Sample.indexedOnce.vs, Core.Sample.indexedOnce.db⟩

def servedA (ctx : Context) : Served :=
  ⟨queryA, ⟨['d'], 7, 3, route {} ⟨10, 100⟩ none false⟩, .live ctx⟩

/-- One query to the daemon over two small files is answered and recorded. -/
theorem stats_servedA : ∃ ctx c, Reaches (step noFloats) free start c ∧
    Genuine Core.Sample.sample Cache.Timed.unit Core.Sample.scan (servedA ctx) ∧
    ∃ report, aggregateStats noFloats c.shared.tables = .ok report ∧ report.totalRequests = 1 ∧
      report.totalRealTokens = ctx.contextTokens ∧ ctx.contextTokens ≤ 4000 := by
  have hlive : ((handleQuery Core.Sample.sample Cache.Timed.unit Core.Sample.scan indexA .empty queryA).1.map
      fun a => (match a with | .live _ => true | _ => false : Bool)) = .ok true := by decide
  obtain ⟨a, hans, htrue⟩ := Lib.Outcome.map_eq_ok.mp hlive
  obtain ⟨ctx, rfl⟩ : ∃ ctx, a = .live ctx := by
    split at htrue
    · exact ⟨_, rfl⟩
    · cases htrue
  have hgenuine : Genuine Core.Sample.sample Cache.Timed.unit Core.Sample.scan (servedA ctx) :=
    ⟨indexA, .empty, _, Prod.ext hans rfl⟩
  let m : RequestMetric := (metricOf queryA (servedA ctx).measured (.live ctx)).get rfl
  let acts : List (ℕ × Action) := [(0, .call (.recordRequest m)), (0, .go 1), (0, .go 2)]
  have hrun : run (step noFloats) acts start = some ((run (step noFloats) acts start).get rfl) := rfl
  have hquiet : Quiet ((run (step noFloats) acts start).get rfl) := by
    intro p
    by_cases hp : p = 0
    · rw [hp]
      rfl
    · rw [Lib.Processes.places_of_run hrun (by simpa [acts] using hp)]
      rfl
  have hevents : ((run (step noFloats) acts start).get rfl).shared.events =
      [.session (some 0) ['d'] 1, .request 0 m 2] := rfl
  have hasked : (((run (step noFloats) acts start).get rfl).shared.asked.map Prod.snd).Perm
      ([servedA ctx].filterMap Served.metric) := List.Perm.refl _
  obtain ⟨report, h1, h2, -, -, -, h3, h4⟩ := stats_of_answers (reaches_of_run hrun) hquiet
    (by simpa using hgenuine) hasked (by simp [hevents]) (by simp [hevents]) (by simp [hevents])
    (show 1 < 2 ^ 63 by omega) (show 4000 + 0 < 2 ^ 63 by omega)
  exact ⟨ctx, _, reaches_of_run hrun, hgenuine, report, h1, h2, h3, h4⟩

end BrainEngine.Metrics.Queries
