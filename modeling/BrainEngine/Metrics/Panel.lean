import BrainEngine.Client.Panel
import BrainEngine.Metrics.Log
import BrainEngine.Metrics.Recording

/-! # What the session panel counts

The Stop hook reads the log of the day while other processes append to it. `panel_of_reaches`: it counts the
lines that stand alone. Two lines whose writes have come directly behind each other are one line of the file,
which is no JSON, and neither is counted. `panels_inTurn` is about logs without such lines. -/

namespace BrainEngine.Metrics.Panel

open BrainEngine.Rust.Str BrainEngine.Rust.Json BrainEngine.Js.Values BrainEngine.Lib.Machine
open BrainEngine.Lib.Processes BrainEngine.Lib.Pieces BrainEngine.Core.Stats BrainEngine.Client.Panel
open BrainEngine.Metrics.Log

/-! ### Reading lines -/

/-- An integer as it is written. -/
def numberText : Number → Option JsString
  | .posInt n => some (js (toString n.toNat))
  | .negInt n => some (js (toString n.toInt))
  | .float _ => none

/-- What `JSON.parse` makes of an integer or a truth value. -/
def scalar : Value → Option Json
  | .bool b => some (.bool b)
  | .number n => (numberText n).map .num
  | _ => none

/-- The properties of a line that the panel reads. -/
def panelKeys : List String := ["context_tokens_estimated", "response_time_ms", "cache_hit"]

/-- `JSON.parse` reads the lines back, but not several without a line break between them. -/
structure Legible (print : Value → Text) (parse : Text → Option Json) (lines : List Line) : Prop where
  /-- `to_string` escapes line breaks. -/
  oneLine : ∀ l ∈ lines, '\n' ∉ l.text print
  parsed : ∀ l ∈ lines, ∃ o, parse (l.text print) = some (.obj o) ∧ ∀ key ∈ panelKeys,
    o.lookup (js key) = ((logFields l.ts l.metric).lookup key.toList).bind scalar
  torn : ∀ ls : List Line, (∀ l ∈ ls, l ∈ lines) → 2 ≤ ls.length → parse (ls.flatMap (Line.text print)) = none
  empty : parse [] = none

section
variable {N : Type} (arith : Arithmetic N)

/-- A number of a request, or zero. -/
def amount (n : Option Number) : N :=
  match n.bind numberText with
  | some text => arith.ofText text
  | none => arith.zero

def addRequest (t : Totals N) (l : Line) : Totals N where
  n := t.n + 1
  realTokens := arith.add t.realTokens (amount arith (l.metric.contextTokensEstimated.map ofI64))
  time := arith.add t.time (amount arith (l.metric.responseTimeMs.map ofU64))
  hits := if l.metric.cacheHit then t.hits + 1 else t.hits

/-- The sums over requests, one after the other. -/
def tally (ls : List Line) : Option (Totals N) :=
  if ls = [] then none else some (ls.foldl (addRequest arith) (.zero arith))

end

variable {N : Type} {arith : Arithmetic N} {print : Value → Text} {parse : Text → Option Json}
  {lines : List Line}

theorem lookup_optField {key : String} {k : Text} (hk : k ≠ key.toList) (v : Option Value)
    (obj : List (Text × Value)) : (optField key v obj).lookup k = obj.lookup k := by
  cases v with
  | none => rfl
  | some v =>
    show (insertField key.toList v obj).lookup k = obj.lookup k
    rw [lookup_insertField, if_neg hk]

theorem lookup_optField_self (key : String) (v : Option Value) (obj : List (Text × Value)) :
    (optField key v obj).lookup key.toList = v.or (obj.lookup key.toList) := by
  cases v with
  | none => rfl
  | some v =>
    show (insertField key.toList v obj).lookup key.toList = _
    rw [lookup_insertField, if_pos rfl]
    rfl

/-- Optional fields, one after the other. -/
def withFields (fs : List (String × Option Value)) (obj : List (Text × Value)) : List (Text × Value) :=
  fs.foldl (fun obj f => optField f.1 f.2 obj) obj

theorem lookup_withFields_of_notMem {k : Text} : ∀ {fs : List (String × Option Value)}
    {obj : List (Text × Value)}, (∀ f ∈ fs, k ≠ f.1.toList) → (withFields fs obj).lookup k = obj.lookup k
  | [], _, _ => rfl
  | f :: fs, obj, h => by
    have hrest : ∀ f ∈ fs, k ≠ f.1.toList := fun f hf => h f (List.mem_cons_of_mem _ hf)
    have hstep : withFields (f :: fs) obj = withFields fs (optField f.1 f.2 obj) := rfl
    rw [hstep, lookup_withFields_of_notMem hrest, lookup_optField (h f List.mem_cons_self)]

/-- A field keeps its value when fields with other keys follow. -/
theorem lookup_withFields {key : String} {v : Option Value} : ∀ {fs : List (String × Option Value)}
    {obj : List (Text × Value)}, (fs.map Prod.fst).Nodup → (key, v) ∈ fs →
      obj.lookup key.toList = none → (withFields fs obj).lookup key.toList = v
  | f :: fs, obj, hn, h, hobj => by
    rw [List.map_cons, List.nodup_cons] at hn
    have hstep : withFields (f :: fs) obj = withFields fs (optField f.1 f.2 obj) := rfl
    rw [hstep]
    rcases List.mem_cons.mp h with rfl | h
    · have hrest : ∀ f ∈ fs, key.toList ≠ f.1.toList := fun f hf he =>
        hn.1 (List.mem_map.mpr ⟨f, hf, (String.toList_inj.mp he).symm⟩)
      rw [lookup_withFields_of_notMem hrest, lookup_optField_self, hobj, Option.or_none]
    · have hne : key.toList ≠ f.1.toList := fun he =>
        hn.1 (List.mem_map.mpr ⟨_, h, String.toList_inj.mp he⟩)
      exact lookup_withFields hn.2 h (by rw [lookup_optField hne, hobj])

/-- The optional fields of a line. -/
def optionalFields (m : RequestMetric) : List (String × Option Value) := [
  ("session_id", m.sessionId.map .string),
  ("response_time_ms", m.responseTimeMs.map fun v => .number (ofU64 v)),
  ("context_tokens_estimated", m.contextTokensEstimated.map fun v => .number (ofI64 v)),
  ("tokens_saved_estimated", m.tokensSavedEstimated.map fun v => .number (ofI64 v)),
  ("chunks_used", m.chunksUsed.map fun v => .number (ofI64 v)),
  ("retrieval_time_ms", m.retrievalTimeMs.map fun v => .number (ofU64 v)),
  ("embedding_source", m.embeddingSource.map .string),
  ("llm_used", m.llmUsed.map .string),
  ("cpu_usage_percent", m.cpuUsagePercent.map ofF64),
  ("memory_usage_mb", m.memoryUsageMb.map fun v => .number (ofI64 v)),
  ("decision_reason", m.decisionReason.map .string)]

theorem logFields_eq (ts : Text) (m : RequestMetric) : logFields ts m =
    insertField "cache_hit".toList (.bool m.cacheHit)
      (withFields (optionalFields m) (insertField "ts".toList (.string ts) [])) := rfl

/-- **An optional field of a line** has the value of the request. -/
theorem lookup_logFields (ts : Text) {m : RequestMetric} {key : String} {v : Option Value}
    (h : (key, v) ∈ optionalFields m) : (logFields ts m).lookup key.toList = v := by
  have hkeys : (optionalFields m).map Prod.fst = ["session_id", "response_time_ms",
    "context_tokens_estimated", "tokens_saved_estimated", "chunks_used", "retrieval_time_ms",
    "embedding_source", "llm_used", "cpu_usage_percent", "memory_usage_mb", "decision_reason"] := rfl
  have hkey : key ∈ (optionalFields m).map Prod.fst := List.mem_map.mpr ⟨_, h, rfl⟩
  have hne : ∀ k ∈ (optionalFields m).map Prod.fst, k ≠ "cache_hit" ∧ k ≠ "ts" := by
    rw [hkeys]
    decide
  have hnd : ((optionalFields m).map Prod.fst).Nodup := by
    rw [hkeys]
    decide
  obtain ⟨h1, h2⟩ := hne key hkey
  rw [logFields_eq, lookup_insertField, if_neg (String.toList_inj.not.mpr h1)]
  refine lookup_withFields hnd h ?_
  rw [lookup_insertField, if_neg (String.toList_inj.not.mpr h2), List.lookup_nil]

theorem lookup_tokens (ts : Text) (m : RequestMetric) :
    (logFields ts m).lookup "context_tokens_estimated".toList =
      (m.contextTokensEstimated.map ofI64).map .number := by
  rw [Option.map_map]
  exact lookup_logFields ts (.tail _ (.tail _ (.head _)))

theorem lookup_time (ts : Text) (m : RequestMetric) :
    (logFields ts m).lookup "response_time_ms".toList =
      (m.responseTimeMs.map ofU64).map .number := by
  rw [Option.map_map]
  exact lookup_logFields ts (.tail _ (.head _))

theorem lookup_cacheHit (ts : Text) (m : RequestMetric) :
    (logFields ts m).lookup "cache_hit".toList = some (.bool m.cacheHit) := by
  unfold logFields
  rw [lookup_insertField, if_pos rfl]

theorem scalar_number (v : Option Number) :
    orZero arith ((v.map Value.number).bind scalar) = some (amount arith v) := by
  cases v with
  | none => rfl
  | some n =>
    show orZero arith ((numberText n).map .num) = some (amount arith (some n))
    cases n with
    | _ => rfl

/-- A line that is read back adds its request. -/
theorem addLine_line (hp : Legible print parse lines) {l : Line} (hl : l ∈ lines) (t : Totals N) :
    addLine arith parse t (l.text print) = some (addRequest arith t l) := by
  obtain ⟨o, ho, hkeys⟩ := hp.parsed l hl
  have htokens : o.lookup (js "context_tokens_estimated") = _ := hkeys _ (by decide)
  have htime : o.lookup (js "response_time_ms") = _ := hkeys _ (by decide)
  have hhit : o.lookup (js "cache_hit") = _ := hkeys _ (by decide)
  rw [lookup_tokens] at htokens
  rw [lookup_time] at htime
  rw [lookup_cacheHit] at hhit
  have hget : ∀ key : String, (Json.obj o).get key = o.lookup (js key) := fun _ => rfl
  unfold addLine
  rw [ho]
  dsimp only
  rw [hget, hget, hget, htokens, htime, hhit, scalar_number, scalar_number]
  rfl

/-- **A log that was written in pieces**: its lines are the groups between line breaks, and only the lines
alone count. -/
theorem foldlM_groups (hp : Legible print parse lines) {gs : List (List Line)}
    (h : ∀ g ∈ gs, ∀ l ∈ g, l ∈ lines) (t : Totals N) :
    (gs.map (List.flatMap (Line.text print))).foldlM (addLine arith parse) t =
      some ((gs.filterMap single).foldl (addRequest arith) t) := by
  induction gs generalizing t with
  | nil => rfl
  | cons g gs ih =>
    have hgs : ∀ g ∈ gs, ∀ l ∈ g, l ∈ lines := fun g hg => h g (List.mem_cons_of_mem _ hg)
    have hg : ∀ l ∈ g, l ∈ lines := h g List.mem_cons_self
    rw [List.map_cons, List.foldlM_cons]
    match g with
    | [] =>
      rw [List.flatMap_nil, addLine_of_none hp.empty]
      exact ih hgs t
    | [l] =>
      rw [List.flatMap_singleton, addLine_line hp (hg l List.mem_cons_self)]
      exact ih hgs (addRequest arith t l)
    | l :: l' :: g =>
      have htorn := hp.torn (l :: l' :: g) hg (Nat.le_add_left 2 g.length)
      rw [addLine_of_none htorn]
      exact ih hgs t

theorem n_foldl (ls : List Line) (t : Totals N) : (ls.foldl (addRequest arith) t).n = t.n + ls.length := by
  induction ls generalizing t with
  | nil => rfl
  | cons l ls ih =>
    rw [List.foldl_cons, ih, List.length_cons]
    show t.n + 1 + ls.length = t.n + (ls.length + 1)
    omega

/-- **The panel of a log** is about the lines alone. -/
theorem sums_content {ps : List (Piece Line)} (hp : Legible print parse (items ps)) :
    sums arith parse ((content '\n' (Line.text print) ps).splitOn '\n') = tally arith (alone ps) := by
  have hmem : ∀ g ∈ groups ps, ∀ l ∈ g, l ∈ items ps := fun g hg l hl => by
    rw [← flatten_groups]
    exact List.mem_flatten.mpr ⟨g, hg, hl⟩
  rw [splitOn_content hp.oneLine, sums, foldlM_groups hp hmem]
  show (if ((alone ps).foldl (addRequest arith) (.zero arith)).n = 0 then none else
    some ((alone ps).foldl (addRequest arith) (.zero arith))) = _
  have hn : ((alone ps).foldl (addRequest arith) (.zero arith)).n =
      (Totals.zero arith).n + (alone ps).length := n_foldl (alone ps) (.zero arith)
  have hzero : (Totals.zero arith).n = 0 := rfl
  have hnil : (alone ps = []) ↔ (alone ps).length = 0 := List.length_eq_zero_iff.symm
  unfold tally
  refine if_congr ?_ rfl rfl
  rw [hnil, hn, hzero, Nat.zero_add]

/-! ### Any number of processes -/

variable {c c' : Pool World Place} {day : Text}

theorem items_pieces_sublist (w : World) (file : Text) : (items (w.pieces file)).Sublist w.lines := by
  unfold World.pieces World.lines items
  exact ((List.filter_sublist (p := fun e : Text × Piece Line => e.1 = file)).map Prod.snd).filterMap _

/-- **What the panel counts**, at any moment and however the processes take turns: the requests whose lines
stand alone, each once and each in the table. These are all that have a line exactly if no line has come
directly behind another. -/
theorem panel_of_reaches (h : Reaches (step print) free start c)
    (hp : Legible print parse (items (c.shared.pieces (fileName day)))) :
    sessionPanel arith parse (c.shared.files (fileName day)) =
      tally arith (alone (c.shared.pieces (fileName day))) ∧
    ((alone (c.shared.pieces (fileName day))).map Line.call).Nodup ∧
    (∀ l ∈ alone (c.shared.pieces (fileName day)), ∃ p, c.shared.recorded[l.call]? = some (p, l.metric)) ∧
    (alone (c.shared.pieces (fileName day)) = items (c.shared.pieces (fileName day)) ↔
      (c.shared.pieces (fileName day)).IsChain Apart) := by
  obtain ⟨hsound, -⟩ := sound_of_reaches h
  have hsub := (alone_sublist _).trans (items_pieces_sublist c.shared (fileName day))
  have hcalls : (c.shared.lines.map Line.call).Nodup := (List.nodup_append.mp hsound.nodup).1
  refine ⟨?_, (hsub.map Line.call).nodup hcalls, fun l hl => hsound.recorded l (hsub.subset hl),
    alone_eq_items_iff _⟩
  rw [sessionPanel_eq hp.empty]
  show sums arith parse ((c.shared.contents (fileName day)).splitOn '\n') = _
  rw [hsound.contents]
  exact sums_content hp

/-! ### Processes that wait for each other -/

/-- A line is written while no process is between its line and its line break, and each line gets one. -/
def InTurn (c : Pool World Place) (m : ℕ × Action) : Prop :=
  match c.places m.1 with
  | .writing file _ => m.2 = .written → ∀ q, c.places q ≠ .ending file
  | .ending _ => m.2 = .written
  | _ => True

/-- The lines of a log are apart, and behind the last one comes its line break. -/
def Tidy (c : Pool World Place) : Prop :=
  ∀ file, (c.shared.pieces file).IsChain Apart ∧
    ∀ l, (c.shared.pieces file).getLast? = some (.item l) → ∃ q, c.places q = .ending file

/-- A piece behind others that it is apart from. -/
theorem isChain_concat {ps : List (Piece Line)} {p : Piece Line} (h : ps.IsChain Apart)
    (hlast : p = .separator ∨ ∀ l, ps.getLast? ≠ some (.item l)) : (ps ++ [p]).IsChain Apart := by
  refine List.isChain_append.mpr ⟨h, List.isChain_singleton p, fun x hx y hy => ?_⟩
  obtain rfl : p = y := Option.some.inj hy
  rcases hlast with hp | hp
  · exact .inr hp
  · cases x with
    | item l => exact absurd hx (hp l)
    | separator => exact .inl rfl

theorem tidy_step {m : ℕ × Action} (h : Tidy c) (hok : InTurn c m) (hs : step print c m = some c') :
    Tidy c' := by
  obtain ⟨p, a⟩ := m
  obtain ⟨⟨w, place⟩, hstep, rfl⟩ := turn_eq_some.mp hs
  dsimp only at hstep ⊢
  -- a process that is not between its two writes keeps what it was for others
  have hkeep : ∀ {file}, (∀ g, c.places p ≠ .ending g) → (∃ q, c.places q = .ending file) →
      ∃ q, Function.update c.places p place q = .ending file := by
    rintro file hm ⟨q, hq⟩
    refine ⟨q, ?_⟩
    rw [Function.update_of_ne ?_, hq]
    rintro rfl
    exact hm file hq
  have hquiet : w.writes = c.shared.writes → (∀ g, c.places p ≠ .ending g) →
      Tidy ⟨w, Function.update c.places p place⟩ := by
    intro hw hm file
    have hpieces : w.pieces file = c.shared.pieces file := by
      unfold World.pieces
      rw [hw]
    show (w.pieces file).IsChain Apart ∧ _
    rw [hpieces]
    exact ⟨(h file).1, fun l hl => hkeep hm ((h file).2 l hl)⟩
  have hchange := change_of_stepOf hstep
  unfold InTurn at hok
  dsimp only at hok
  obtain ⟨old, hold⟩ : ∃ old, old = c.places p := ⟨_, rfl⟩
  rw [← hold] at hchange hok hkeep hquiet
  cases hchange with
  | start m' => exact hquiet rfl nofun
  | record m' now => exact hquiet rfl nofun
  | create file l now clock => exact hquiet rfl nofun
  | line file l =>
    have hfree : ∀ q, c.places q ≠ .ending file := hok rfl
    intro g
    show ((c.shared.append print file (.item l)).pieces g).IsChain Apart ∧ _
    rw [pieces_append]
    split_ifs with hg
    · subst hg
      refine ⟨isChain_concat (h g).1 (.inr fun k hk => ?_), fun k _ => ⟨p, Function.update_self ..⟩⟩
      obtain ⟨q, hq⟩ := (h g).2 k hk
      exact hfree q hq
    · rw [List.append_nil]
      exact ⟨(h g).1, fun k hk => hkeep nofun ((h g).2 k hk)⟩
  | newline file =>
    intro g
    show ((c.shared.append print file .separator).pieces g).IsChain Apart ∧ _
    rw [pieces_append]
    split_ifs with hg
    · refine ⟨isChain_concat (h g).1 (.inl rfl), fun k hk => ?_⟩
      rw [List.getLast?_concat] at hk
      cases hk
    · rw [List.append_nil]
      refine ⟨(h g).1, fun k hk => ?_⟩
      obtain ⟨q, hq⟩ := (h g).2 k hk
      refine ⟨q, ?_⟩
      show Function.update c.places p .idle q = .ending g
      rw [Function.update_of_ne ?_, hq]
      -- the process that moves was at the end of another log
      rintro rfl
      rw [hq] at hold
      exact hg (Place.ending.inj hold).symm
  | fail _ _ _ ha hfail =>
    refine hquiet rfl fun g hg => ?_
    rw [hg] at hok
    exact ha hok

/-- No process has a request in the table whose line is not written. -/
def Quiet (c : Pool World Place) : Prop := ∀ q, (c.places q).call = none

/-- The calls with a line, if none is without. -/
theorem calls_of_quiet {ok : Pool World Place → ℕ × Action → Prop} (h : Reaches (step print) ok start c)
    (hq : Quiet c) (hl : c.shared.lost = []) :
    (c.shared.lines.map Line.call).Perm (List.range c.shared.recorded.length) := by
  obtain ⟨hsound, hholds⟩ := sound_of_reaches h
  have hsettled : c.shared.settled = c.shared.lines.map Line.call := by
    unfold World.settled
    rw [hl, List.append_nil]
  rw [← hsettled]
  refine (List.perm_ext_iff_of_nodup hsound.nodup List.nodup_range).mpr fun i => ?_
  rw [List.mem_range]
  refine ⟨hsound.bound i, fun hi => ?_⟩
  obtain ⟨⟨q, m⟩, hm⟩ : ∃ a, c.shared.recorded[i]? = some a := ⟨_, List.getElem?_eq_getElem hi⟩
  refine ((hholds q).told i m hm).resolve_right fun hc => ?_
  rw [hq q] at hc
  cases hc

theorem tidy_start : Tidy start := by
  intro file
  have hnil : start.shared.pieces file = [] := rfl
  rw [hnil]
  exact ⟨List.isChain_nil, by simp⟩

/-- **Logs in turn**: if each line is followed by its line break before another line comes, then at any moment
the panel of a day counts every line of the day; and once every request in the table has been given its line,
with no write that failed and no process that died, the lines of all logs are the requests of the table. -/
theorem panels_inTurn (h : Reaches (step print) InTurn start c) :
    (∀ day, Legible print parse (items (c.shared.pieces (fileName day))) →
      sessionPanel arith parse (c.shared.files (fileName day)) =
        tally arith (items (c.shared.pieces (fileName day)))) ∧
    (Quiet c → c.shared.lost = [] →
      (c.shared.lines.map Line.metric).Perm (c.shared.recorded.map Prod.snd)) := by
  obtain ⟨hsound, -⟩ := sound_of_reaches h
  have htidy : Tidy c := h.invariant tidy_start fun ht hok hs => tidy_step ht hok hs
  refine ⟨fun day hp => ?_, fun hq hl => ?_⟩
  · rw [sessionPanel_eq hp.empty, ← (alone_eq_items_iff _).mpr (htidy (fileName day)).1]
    show sums arith parse ((c.shared.contents (fileName day)).splitOn '\n') = _
    rw [hsound.contents]
    exact sums_content hp
  · have hfound : (c.shared.lines.map Line.call).filterMap
        (fun i => c.shared.recorded[i]?.map Prod.snd) = c.shared.lines.map Line.metric := by
      rw [List.filterMap_map, ← List.filterMap_eq_map]
      refine List.filterMap_congr fun l hl => ?_
      obtain ⟨p, hp⟩ := hsound.recorded l hl
      simp [hp]
    rw [← hfound, ← Recording.filterMap_range Prod.snd c.shared.recorded]
    exact (calls_of_quiet h hq hl).filterMap _

/-! ### Two processes on one day -/

/-- A request, and its line as it is printed. -/
def sampleMetric : RequestMetric := { contextTokensEstimated := some 7 }

def sampleText : Text :=
  "\x7b\"cache_hit\":false,\"context_tokens_estimated\":7,\"ts\":\"2026-06-13T00:00:00Z\"\x7d".toList

def sampleParse (text : Text) : Option Json :=
  if text = sampleText then
    some (.obj [(js "cache_hit", .bool false), (js "context_tokens_estimated", .num (js "7")),
      (js "ts", .str (js "2026-06-13T00:00:00Z"))])
  else none

/-- Numbers without fraction or sign. -/
def naturals : Arithmetic ℕ where
  ofText text := text.foldl (fun n c => 10 * n + (c.toNat - 48)) 0
  add := Nat.add

theorem legible_sample {lines : List Line} (h : ∀ l ∈ lines, l.metric = sampleMetric) :
    Legible (fun _ => sampleText) sampleParse lines := by
  have hbreak : '\n' ∉ sampleText := by decide
  refine ⟨fun l _ => hbreak, fun l hl => ⟨_, rfl, fun key hkey => ?_⟩, fun ls _ hlen => ?_, rfl⟩
  · rw [h l hl]
    simp only [panelKeys, List.mem_cons, List.not_mem_nil, or_false] at hkey
    rcases hkey with rfl | rfl | rfl
    · rw [lookup_tokens]
      rfl
    · rw [lookup_time]
      rfl
    · rw [lookup_cacheHit]
      rfl
  · have hlong : (ls.flatMap (Line.text fun _ => sampleText)).length = ls.length * sampleText.length := by
      rw [List.length_flatMap]
      show (ls.map fun _ => sampleText.length).sum = _
      simp
    have hpos : sampleText.length = 76 := by decide
    refine if_neg fun he => ?_
    have heq := congrArg List.length he
    rw [hlong, hpos] at heq
    omega

/-- The second process writes its line before the first one has ended its own. A third line follows. -/
def overlapping : List (ℕ × Action) :=
  [(0, .recordRequest sampleMetric), (0, .inserted 1781308800), (0, .opened 1781308800),
    (1, .recordRequest sampleMetric), (1, .inserted 1781308800), (1, .opened 1781308800),
    (0, .written), (1, .written), (0, .written), (1, .written),
    (0, .recordRequest sampleMetric), (0, .inserted 1781308800), (0, .opened 1781308800), (0, .written),
    (0, .written)]

/-- The log of the day. -/
def sampleLog : Text := fileName "2026-06-13".toList

theorem panel_overlapping : ∃ c, Reaches (step fun _ => sampleText) free start c ∧
    c.shared.recorded.length = 3 ∧
    sessionPanel naturals sampleParse (c.shared.files sampleLog) = some ⟨1, 7, 0, 0⟩ ∧
    tally naturals (alone (c.shared.pieces sampleLog)) = some ⟨1, 7, 0, 0⟩ := by
  have hrun : run (step fun _ => sampleText) overlapping start =
      some ((run (step fun _ => sampleText) overlapping start).get rfl) := rfl
  obtain ⟨c, hc⟩ : ∃ c, c = (run (step fun _ => sampleText) overlapping start).get rfl := ⟨_, rfl⟩
  rw [← hc] at hrun
  have hreach := reaches_of_run hrun
  have hpieces : c.shared.pieces sampleLog = [.item ⟨"2026-06-13T00:00:00Z".toList, sampleMetric, 0⟩,
      .item ⟨"2026-06-13T00:00:00Z".toList, sampleMetric, 1⟩, .separator, .separator,
      .item ⟨"2026-06-13T00:00:00Z".toList, sampleMetric, 2⟩, .separator] := by
    rw [hc]
    rfl
  have hlegible : Legible (fun _ => sampleText) sampleParse (items (c.shared.pieces sampleLog)) := by
    refine legible_sample fun l hl => ?_
    rw [hpieces] at hl
    simp only [items, List.filterMap_cons, List.filterMap_nil, List.mem_cons, List.not_mem_nil,
      or_false] at hl
    rcases hl with rfl | rfl | rfl <;> rfl
  have hpanel : sessionPanel naturals sampleParse (c.shared.files sampleLog) = _ :=
    (panel_of_reaches hreach hlegible).1
  have htally : tally naturals (alone (c.shared.pieces sampleLog)) = some ⟨1, 7, 0, 0⟩ := by
    rw [hpieces]
    decide
  refine ⟨c, hreach, ?_, hpanel.trans htally, htally⟩
  rw [hc]
  rfl

/-- Process `p` moves, and does not stop between its two writes. -/
def moves (p : ℕ) (c : Pool World Place) (m : ℕ × Action) : Bool :=
  m.1 == p && match c.places p, m.2 with
    | .ending _, .written => true
    | .ending _, _ => false
    | _, _ => true

/-- A process takes its turn while no other is between its two writes. -/
theorem reaches_alone {p : ℕ} {ms : List (ℕ × Action)}
    (h : run (stepIf (step print) (moves p)) ms c = some c')
    (hc : ∀ q, q ≠ p → ∀ file, c.places q ≠ .ending file) :
    Reaches (step print) InTurn c c' ∧ ∀ q, q ≠ p → c'.places q = c.places q := by
  induction ms generalizing c with
  | nil =>
    obtain rfl := Option.some.inj h
    exact ⟨.refl, fun _ _ => rfl⟩
  | cons m ms ih =>
    obtain ⟨u, hu, hrun⟩ := (run_cons _).mp h
    obtain ⟨q, a⟩ := m
    unfold stepIf at hu
    split_ifs at hu with hm
    rw [moves, Bool.and_eq_true, beq_iff_eq] at hm
    obtain ⟨rfl, hm⟩ := hm
    obtain ⟨d, -, hd⟩ := turn_eq_some.mp hu
    have hplaces : ∀ r, r ≠ q → u.places r = c.places r := fun r hr => by
      rw [hd]
      exact Function.update_of_ne hr _ _
    have hturn : InTurn c (q, a) := by
      unfold InTurn
      dsimp only at hm ⊢
      split
      · next file l hplace =>
        intro _ r hr
        by_cases hrq : r = q
        · rw [hrq, hplace] at hr
          cases hr
        · exact hc r hrq file hr
      · next file hplace =>
        rw [hplace] at hm
        cases a with
        | written => rfl
        | _ => cases hm
      · trivial
    obtain ⟨hrest, hkept⟩ := ih hrun fun r hr file => by
      rw [hplaces r hr]
      exact hc r hr file
    exact ⟨.head hturn hu hrest, fun r hr => (hkept r hr).trans (hplaces r hr)⟩

/-- One call of `record_request`, up to the line break of its line. -/
def turnOf (p : ℕ) (now : ℤ) : List (ℕ × Action) :=
  [.recordRequest sampleMetric, .inserted now, .opened now, .written, .written].map (p, ·)

/-- Two calls, one after the other. -/
def afterTurns : Option (Pool World Place) :=
  (run (stepIf (step fun _ => sampleText) (moves 0)) (turnOf 0 1781308800) start).bind
    (run (stepIf (step fun _ => sampleText) (moves 1)) (turnOf 1 1781308800))

theorem panels_afterTurns : ∃ c, afterTurns = some c ∧
    sessionPanel naturals sampleParse (c.shared.files sampleLog) = some ⟨2, 14, 0, 0⟩ ∧
    (c.shared.lines.map Line.metric).Perm (c.shared.recorded.map Prod.snd) := by
  obtain ⟨s, hs⟩ : ∃ s, s =
    (run (stepIf (step fun _ => sampleText) (moves 0)) (turnOf 0 1781308800) start).get rfl := ⟨_, rfl⟩
  have hfirst : run (stepIf (step fun _ => sampleText) (moves 0)) (turnOf 0 1781308800) start = some s := by
    rw [hs]
    rfl
  obtain ⟨c, hc⟩ : ∃ c, c = afterTurns.get rfl := ⟨_, rfl⟩
  have hboth : afterTurns = some c := by
    rw [hc]
    rfl
  have hsecond : run (stepIf (step fun _ => sampleText) (moves 1)) (turnOf 1 1781308800) s = some c := by
    rw [afterTurns, hfirst] at hboth
    exact hboth
  obtain ⟨hreach, hplaces⟩ := reaches_alone hfirst nofun
  have hidle : ∀ q, s.places q = .idle := fun q => by
    by_cases hq : q = 0
    · rw [hq, hs]
      rfl
    · exact hplaces q hq
  obtain ⟨hreach', hplaces'⟩ := reaches_alone hsecond fun q _ file => by
    rw [hidle q]
    exact nofun
  have hquiet : Quiet c := fun q => by
    by_cases hq : q = 1
    · rw [hq, hc]
      rfl
    · rw [hplaces' q hq, hidle q]
      rfl
  have hpieces : c.shared.pieces sampleLog = [.item ⟨"2026-06-13T00:00:00Z".toList, sampleMetric, 0⟩,
      .separator, .item ⟨"2026-06-13T00:00:00Z".toList, sampleMetric, 1⟩, .separator] := by
    rw [hc]
    rfl
  have hlegible : Legible (fun _ => sampleText) sampleParse (items (c.shared.pieces sampleLog)) := by
    refine legible_sample fun l hl => ?_
    rw [hpieces] at hl
    simp only [items, List.filterMap_cons, List.filterMap_nil, List.mem_cons, List.not_mem_nil,
      or_false] at hl
    rcases hl with rfl | rfl <;> rfl
  have hlost : c.shared.lost = [] := by
    rw [hc]
    rfl
  have hpanels : (∀ day, _ → sessionPanel naturals sampleParse (c.shared.files (fileName day)) = _) ∧ _ :=
    panels_inTurn (hreach.trans hreach')
  refine ⟨c, hboth, (hpanels.1 _ hlegible).trans ?_, hpanels.2 hquiet hlost⟩
  rw [show fileName "2026-06-13".toList = sampleLog from rfl, hpieces]
  decide

end BrainEngine.Metrics.Panel
