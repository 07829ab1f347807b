import BrainEngine.Core.Stats
import BrainEngine.Lib.Pieces
import BrainEngine.Lib.Processes
import BrainEngine.Rust.Json

/-! # The daily logs

`record_request` appends a line to the log of the day once the request is in the table. `writeln!` gives the
file its line and its line break in two writes, and any number of processes append. A write goes through
or fails; a process may die between any two. `sound_of_reaches` says what the files contain, `told_of_reaches`
what becomes of each recorded request. -/

namespace BrainEngine.Metrics.Log

open BrainEngine.Rust.Str BrainEngine.Rust.Json BrainEngine.Lib.Machine BrainEngine.Lib.Processes
open BrainEngine.Lib.Pieces BrainEngine.Core.Metrics BrainEngine.Core.Stats

/-! ### Lines -/

/-- `json!` of an `i64`. -/
def ofI64 (v : ℤ) : Number := if 0 ≤ v then .posInt v.toNat.toUInt64 else .negInt v.toInt64

/-- `json!` of a `u64`. -/
def ofU64 (v : ℕ) : Number := .posInt v.toUInt64

/-- `json!` of an `f64`: what is not finite has no number. -/
def ofF64 (bits : F64) : Value :=
  if bits &&& 0x7ff0000000000000 = 0x7ff0000000000000 then .null else .number (.float bits)

/-- `opt_field!` -/
def optField (key : String) (v : Option Value) (obj : List (Text × Value)) : List (Text × Value) :=
  match v with
  | some v => insertField key.toList v obj
  | none => obj

def logFields (ts : Text) (m : RequestMetric) : List (Text × Value) :=
  let obj := insertField "ts".toList (.string ts) []
  let obj := optField "session_id" (m.sessionId.map .string) obj
  let obj := optField "response_time_ms" (m.responseTimeMs.map fun v => .number (ofU64 v)) obj
  let obj := optField "context_tokens_estimated" (m.contextTokensEstimated.map fun v => .number (ofI64 v)) obj
  let obj := optField "tokens_saved_estimated" (m.tokensSavedEstimated.map fun v => .number (ofI64 v)) obj
  let obj := optField "chunks_used" (m.chunksUsed.map fun v => .number (ofI64 v)) obj
  let obj := optField "retrieval_time_ms" (m.retrievalTimeMs.map fun v => .number (ofU64 v)) obj
  let obj := optField "embedding_source" (m.embeddingSource.map .string) obj
  let obj := optField "llm_used" (m.llmUsed.map .string) obj
  let obj := optField "cpu_usage_percent" (m.cpuUsagePercent.map ofF64) obj
  let obj := optField "memory_usage_mb" (m.memoryUsageMb.map fun v => .number (ofI64 v)) obj
  let obj := optField "decision_reason" (m.decisionReason.map .string) obj
  insertField "cache_hit".toList (.bool m.cacheHit) obj

/-- `print` is `to_string`. -/
def buildLogLine (print : Value → Text) (ts : Text) (m : RequestMetric) : Text :=
  print (.object (logFields ts m))

/-- A line of a log, with the call it is from. -/
structure Line where
  ts : Text
  metric : RequestMetric
  call : ℕ
  deriving DecidableEq

def Line.text (print : Value → Text) (l : Line) : Text := buildLogLine print l.ts l.metric

/-! ### Processes -/

/-- Where a process is. -/
inductive Place
  | idle
  /-- Before `INSERT INTO requests`. -/
  | inserting (m : RequestMetric)
  /-- Before the log is opened, in call `i`. -/
  | opening (i : ℕ) (m : RequestMetric) (now : ℤ)
  | writing (file : Text) (l : Line)
  /-- Between the two writes of `writeln!`. -/
  | ending (file : Text)
  | dead

/-- The logs, and what has happened: the requests recorded and by whom, the writes, and the calls without a
line. -/
structure World where
  files : Text → Option Text
  recorded : List (ℕ × RequestMetric)
  writes : List (Text × Piece Line)
  lost : List ℕ

inductive Action
  | recordRequest (m : RequestMetric)
  /-- The request is in the table, at this time. -/
  | inserted (now : ℤ)
  /-- The log is open, where the clock gives `clock`. -/
  | opened (clock : ℤ)
  | written
  | failed
  | die

/-- The call whose line is not written yet. -/
def Place.call : Place → Option (ℕ × RequestMetric)
  | .opening i m _ => some (i, m)
  | .writing _ l => some (l.call, l.metric)
  | _ => none

def World.contents (w : World) (file : Text) : Text := (w.files file).getD []

/-- The log is there. -/
def World.create (w : World) (file : Text) : World :=
  { w with files := Function.update w.files file (some (w.contents file)) }

/-- One write at the end of a log. -/
def World.append (print : Value → Text) (w : World) (file : Text) (p : Piece Line) : World :=
  { w with
    files := Function.update w.files file (some (w.contents file ++ content '\n' (Line.text print) [p]))
    writes := w.writes ++ [(file, p)] }

/-- The call ends here. -/
def World.fail (w : World) (place : Place) : World :=
  { w with lost := w.lost ++ (place.call.map Prod.fst).toList }

/-- The path of the log of a day. -/
def fileName (day : Text) : Text := day ++ ".log".toList

variable (print : Value → Text)

/-- One step of process `p`. There is none where the arithmetic of the dates overflows. -/
def stepOf (p : ℕ) (w : World) : Place → Action → Option (World × Place)
  | .idle, .recordRequest m => some (w, .inserting m)
  | .inserting m, .inserted now =>
    some ({ w with recorded := w.recorded ++ [(p, m)] }, .opening w.recorded.length m now)
  | .opening i m now, .opened clock => do
    let day ← todayLabel clock
    let ts ← iso8601 now
    return (w.create (fileName day), .writing (fileName day) ⟨ts, m, i⟩)
  | .writing file l, .written => some (w.append print file (.item l), .ending file)
  | .ending file, .written => some (w.append print file .separator, .idle)
  | .idle, .failed => none
  | .dead, _ => none
  | place, .failed => some (w.fail place, .idle)
  | place, .die => some (w.fail place, .dead)
  | _, _ => none

def step : Pool World Place → ℕ × Action → Option (Pool World Place) := turn (stepOf print)

/-- No logs, and processes that have not begun. -/
def start : Pool World Place := ⟨⟨fun _ => none, [], [], []⟩, fun _ => .idle⟩

/-- The writes to one log. -/
def World.pieces (w : World) (file : Text) : List (Piece Line) :=
  (w.writes.filter fun e => e.1 = file).map Prod.snd

/-- The lines of all logs. -/
def World.lines (w : World) : List Line := items (w.writes.map Prod.snd)

/-! ### One step -/

variable {print} {p : ℕ} {w w' : World} {place place' : Place} {a : Action}

/-- What a step changes. -/
inductive Change (print : Value → Text) (p : ℕ) (w : World) : Place → Action → World → Place → Prop
  | start (m : RequestMetric) : Change print p w .idle (.recordRequest m) w (.inserting m)
  | record (m : RequestMetric) (now : ℤ) : Change print p w (.inserting m) (.inserted now)
      { w with recorded := w.recorded ++ [(p, m)] } (.opening w.recorded.length m now)
  | create (file : Text) (l : Line) (now clock : ℤ) : Change print p w (.opening l.call l.metric now)
      (.opened clock) (w.create file) (.writing file l)
  | line (file : Text) (l : Line) : Change print p w (.writing file l) .written
      (w.append print file (.item l)) (.ending file)
  | newline (file : Text) : Change print p w (.ending file) .written (w.append print file .separator) .idle
  | fail (place place' : Place) (a : Action) (ha : a ≠ .written) (h : place' = .idle ∨ place' = .dead) :
      Change print p w place a (w.fail place) place'

/-- **What a step can do.** -/
theorem change_of_stepOf (h : stepOf print p w place a = some (w', place')) :
    Change print p w place a w' place' := by
  unfold stepOf at h
  split at h
  · obtain ⟨rfl, rfl⟩ := Prod.mk.inj (Option.some.inj h)
    exact .start _
  · obtain ⟨rfl, rfl⟩ := Prod.mk.inj (Option.some.inj h)
    exact .record _ _
  · next i m now clock =>
    obtain ⟨day, -, h⟩ := Option.bind_eq_some_iff.mp h
    obtain ⟨ts, -, h⟩ := Option.bind_eq_some_iff.mp h
    obtain ⟨rfl, rfl⟩ := Prod.mk.inj (Option.some.inj h)
    exact .create _ ⟨ts, m, i⟩ now clock
  · obtain ⟨rfl, rfl⟩ := Prod.mk.inj (Option.some.inj h)
    exact .line _ _
  · obtain ⟨rfl, rfl⟩ := Prod.mk.inj (Option.some.inj h)
    exact .newline _
  · cases h
  · cases h
  · obtain ⟨rfl, rfl⟩ := Prod.mk.inj (Option.some.inj h)
    exact .fail _ _ _ nofun (.inl rfl)
  · obtain ⟨rfl, rfl⟩ := Prod.mk.inj (Option.some.inj h)
    exact .fail _ _ _ nofun (.inr rfl)
  · cases h

@[simp] theorem contents_create (w : World) (file g : Text) : (w.create file).contents g = w.contents g := by
  unfold World.create World.contents
  by_cases hg : g = file
  · subst hg
    simp
  · simp [Function.update_of_ne hg]

theorem contents_append (w : World) (file : Text) (p : Piece Line) (g : Text) :
    (w.append print file p).contents g =
      w.contents g ++ if g = file then content '\n' (Line.text print) [p] else [] := by
  unfold World.append World.contents
  by_cases hg : g = file
  · subst hg
    simp
  · simp [hg]

theorem pieces_append (w : World) (file : Text) (p : Piece Line) (g : Text) :
    (w.append print file p).pieces g = w.pieces g ++ if g = file then [p] else [] := by
  unfold World.append World.pieces
  rw [List.filter_append, List.map_append]
  by_cases hg : g = file
  · simp [hg]
  · simp [hg, Ne.symm hg]

theorem lines_append (w : World) (file : Text) (p : Piece Line) :
    (w.append print file p).lines = w.lines ++ items [p] := by
  unfold World.append World.lines
  rw [List.map_append, items_append]
  rfl

/-! ### What holds throughout -/

/-- The calls that have a line, or will have none. -/
def World.settled (w : World) : List ℕ := w.lines.map Line.call ++ w.lost

/-- The logs and the calls. -/
structure Sound (print : Value → Text) (w : World) : Prop where
  contents : ∀ file, w.contents file = content '\n' (Line.text print) (w.pieces file)
  nodup : w.settled.Nodup
  recorded : ∀ l ∈ w.lines, ∃ p, w.recorded[l.call]? = some (p, l.metric)
  bound : ∀ i ∈ w.settled, i < w.recorded.length

/-- Process `p`, and its calls. -/
structure Holds (p : ℕ) (w : World) (place : Place) : Prop where
  owns : ∀ i m, place.call = some (i, m) → w.recorded[i]? = some (p, m) ∧ i ∉ w.settled
  told : ∀ i m, w.recorded[i]? = some (p, m) → i ∈ w.settled ∨ place.call = some (i, m)

/-- The request of a call stays, and a new one is at the end. -/
theorem getElem?_concat {α : Type} {l : List α} {a b : α} {i : ℕ} :
    (l ++ [b])[i]? = some a ↔ l[i]? = some a ∨ i = l.length ∧ b = a := by
  rcases Nat.lt_trichotomy i l.length with hi | hi | hi
  · rw [List.getElem?_append_left hi]
    simp [Nat.ne_of_lt hi]
  · subst hi
    simp
  · rw [List.getElem?_append_right (Nat.le_of_lt hi), List.getElem?_eq_none (Nat.le_of_lt hi)]
    have hpos : [b].length ≤ i - l.length := by
      rw [List.length_singleton]
      omega
    rw [List.getElem?_eq_none hpos]
    simp [Nat.ne_of_gt hi]

theorem settled_append_item (w : World) (file : Text) (l : Line) :
    (w.append print file (.item l)).settled.Perm (l.call :: w.settled) := by
  unfold World.settled
  rw [lines_append, List.map_append, List.append_assoc]
  exact List.perm_middle

theorem settled_append_separator (w : World) (file : Text) :
    (w.append print file .separator).settled = w.settled := by
  unfold World.settled
  rw [lines_append]
  show (w.lines ++ []).map Line.call ++ w.lost = _
  rw [List.append_nil]

theorem settled_fail (w : World) (place : Place) :
    (w.fail place).settled = w.settled ++ (place.call.map Prod.fst).toList := by
  unfold World.settled World.fail World.lines
  rw [List.append_assoc]

/-- One write keeps the contents. -/
theorem contents_write (h : Sound print w) (file : Text) (p : Piece Line) (g : Text) :
    (w.append print file p).contents g =
      content '\n' (Line.text print) ((w.append print file p).pieces g) := by
  rw [contents_append, pieces_append, content_append, h.contents g]
  split_ifs
  · rfl
  · rfl

theorem sound_step (hs : Sound print w) (hh : Holds p w place) (h : Change print p w place a w' place') :
    Sound print w' := by
  cases h with
  | start m => exact hs
  | record m now =>
    refine ⟨hs.contents, hs.nodup, fun l hl => ?_, fun i hi => ?_⟩
    · obtain ⟨q, hq⟩ := hs.recorded l hl
      exact ⟨q, getElem?_concat.mpr (.inl hq)⟩
    · have hlt := hs.bound i hi
      show i < (w.recorded ++ [(p, m)]).length
      rw [List.length_append]
      omega
  | create file l now clock =>
    exact ⟨fun g => (contents_create w file g).trans (hs.contents g), hs.nodup, hs.recorded, hs.bound⟩
  | line file l =>
    obtain ⟨hrec, hnew⟩ := hh.owns l.call l.metric rfl
    have hperm : (w.append print file (.item l)).settled.Perm (l.call :: w.settled) :=
      settled_append_item w file l
    refine ⟨contents_write hs file _, ?_, fun m hm => ?_, fun i hi => ?_⟩
    · rw [hperm.nodup_iff]
      exact List.nodup_cons.mpr ⟨hnew, hs.nodup⟩
    · rw [lines_append, List.mem_append] at hm
      rcases hm with hm | hm
      · exact hs.recorded m hm
      · obtain rfl : m = l := List.mem_singleton.mp hm
        exact ⟨p, hrec⟩
    · rcases List.mem_cons.mp (hperm.mem_iff.mp hi) with rfl | hi
      · exact (List.getElem?_eq_some_iff.mp hrec).1
      · exact hs.bound i hi
  | newline file =>
    have hsettled : (w.append print file .separator).settled = w.settled :=
      settled_append_separator w file
    refine ⟨contents_write hs file _, ?_, fun m hm => ?_, fun i hi => ?_⟩
    · rw [hsettled]
      exact hs.nodup
    · rw [lines_append, List.mem_append] at hm
      exact hs.recorded m (hm.resolve_right List.not_mem_nil)
    · rw [hsettled] at hi
      exact hs.bound i hi
  | fail place place' a =>
    have hsettled := settled_fail w place
    refine ⟨hs.contents, ?_, hs.recorded, fun i hi => ?_⟩
    · rw [hsettled, List.nodup_append]
      refine ⟨hs.nodup, Option.toList_nodup _, fun i hi j hj hij => ?_⟩
      subst hij
      obtain ⟨⟨j, m⟩, hc, rfl⟩ := Option.map_eq_some_iff.mp (Option.mem_toList.mp hj)
      exact (hh.owns _ _ hc).2 hi
    · rw [hsettled, List.mem_append] at hi
      rcases hi with hi | hi
      · exact hs.bound i hi
      · obtain ⟨⟨j, m⟩, hc, rfl⟩ := Option.map_eq_some_iff.mp (Option.mem_toList.mp hi)
        exact (List.getElem?_eq_some_iff.mp (hh.owns _ _ hc).1).1

/-- What is settled by a step is the call of the process that moves. -/
theorem mem_settled_step (h : Change print p w place a w' place') {i : ℕ} :
    i ∈ w'.settled ↔ i ∈ w.settled ∨ ((∃ m, place.call = some (i, m)) ∧ place'.call = none) := by
  cases h with
  | start m => simp [Place.call]
  | record m now => simp [Place.call, World.settled, World.lines]
  | create file l now clock => simp [Place.call, World.settled, World.lines, World.create]
  | line file l =>
    rw [(settled_append_item w file l).mem_iff, List.mem_cons]
    simp [Place.call, eq_comm, or_comm]
  | newline file => simp [Place.call, settled_append_separator]
  | fail place place' a ha h =>
    have hnone : place'.call = none := by
      rcases h with rfl | rfl
      · rfl
      · rfl
    rw [settled_fail, List.mem_append, Option.mem_toList, Option.map_eq_some_iff]
    simp [hnone]

/-- A step records the request of the process that moves, or none. -/
theorem recorded_step (h : Change print p w place a w' place') : w'.recorded = w.recorded ∨
    ∃ m now, place = .inserting m ∧ w'.recorded = w.recorded ++ [(p, m)] ∧
      place' = .opening w.recorded.length m now := by
  cases h with
  | record m now => exact .inr ⟨m, now, rfl, rfl, rfl⟩
  | _ => exact .inl rfl

/-- The call of a process begins with its record and ends when it is settled. -/
theorem call_step (h : Change print p w place a w' place') : place'.call = place.call ∨
    (place'.call = none ∧ w'.recorded = w.recorded) ∨
      (place.call = none ∧ ∃ m, place'.call = some (w.recorded.length, m) ∧
        w'.recorded = w.recorded ++ [(p, m)]) := by
  cases h with
  | start m => exact .inl rfl
  | record m now => exact .inr (.inr ⟨rfl, m, rfl, rfl⟩)
  | create file l now clock => exact .inl rfl
  | line file l => exact .inr (.inl ⟨rfl, rfl⟩)
  | newline file => exact .inl rfl
  | fail place place' a ha h =>
    refine .inr (.inl ⟨?_, rfl⟩)
    rcases h with rfl | rfl
    · rfl
    · rfl

theorem holds_own (hs : Sound print w) (hh : Holds p w place) (h : Change print p w place a w' place') :
    Holds p w' place' := by
  have hsettled : ∀ i, i ∈ w'.settled ↔ _ := fun i => mem_settled_step h
  rcases call_step h with hcall | ⟨hcall, hrec⟩ | ⟨hcall, m, hcall', hrec⟩
  · -- no call begins or ends
    have hrec : w'.recorded = w.recorded := by
      rcases recorded_step h with hrec | ⟨m, now, rfl, -, rfl⟩
      · exact hrec
      · cases hcall
    have hsame : ∀ i, i ∈ w'.settled ↔ i ∈ w.settled := fun i => by
      rw [hsettled, hcall]
      refine or_iff_left ?_
      rintro ⟨⟨m, hm⟩, hnone⟩
      rw [hm] at hnone
      cases hnone
    refine ⟨fun i m hi => ?_, fun i m hi => ?_⟩
    · rw [hcall] at hi
      rw [hrec, hsame]
      exact hh.owns i m hi
    · rw [hrec] at hi
      rw [hcall, hsame]
      exact hh.told i m hi
  · refine ⟨fun i m hi => ?_, fun i m hi => ?_⟩
    · rw [hcall] at hi
      cases hi
    · rw [hrec] at hi
      refine .inl ((hsettled i).mpr ?_)
      exact (hh.told i m hi).imp_right fun hc => ⟨⟨m, hc⟩, hcall⟩
  · have hsame : ∀ i, i ∈ w'.settled ↔ i ∈ w.settled := fun i => by
      rw [hsettled, hcall]
      refine or_iff_left ?_
      rintro ⟨⟨m, hm⟩, -⟩
      cases hm
    refine ⟨fun i m' hi => ?_, fun i m' hi => ?_⟩
    · rw [hcall', Option.some.injEq, Prod.mk.injEq] at hi
      obtain ⟨rfl, rfl⟩ := hi
      refine ⟨?_, fun hmem => ?_⟩
      · rw [hrec]
        exact getElem?_concat.mpr (.inr ⟨rfl, rfl⟩)
      · exact absurd (hs.bound _ ((hsame _).mp hmem)) (Nat.lt_irrefl _)
    · rw [hrec] at hi
      rcases getElem?_concat.mp hi with hi | ⟨rfl, hm⟩
      · rcases hh.told i m' hi with hmem | hc
        · exact .inl ((hsame i).mpr hmem)
        · rw [hcall] at hc
          cases hc
      · rw [(Prod.mk.inj hm).2] at hcall'
        exact .inr hcall'

theorem holds_other {q : ℕ} {other : Place} (hq : q ≠ p) (hh : Holds p w place)
    (ho : Holds q w other) (h : Change print p w place a w' place') : Holds q w' other := by
  refine ⟨fun i m hi => ?_, fun i m hi => ?_⟩
  · obtain ⟨hrec, hnew⟩ := ho.owns i m hi
    refine ⟨?_, fun hmem => ?_⟩
    · rcases recorded_step h with hsame | ⟨m', now, -, hsame, -⟩
      · rw [hsame]
        exact hrec
      · rw [hsame]
        exact getElem?_concat.mpr (.inl hrec)
    · rcases (mem_settled_step h).mp hmem with hmem | ⟨⟨m', hm'⟩, -⟩
      · exact hnew hmem
      · -- the call would be of both processes
        have hown := (hh.owns i m' hm').1
        rw [hrec, Option.some.injEq, Prod.mk.injEq] at hown
        exact hq hown.1
  · have hold : w.recorded[i]? = some (q, m) := by
      rcases recorded_step h with hsame | ⟨m', now, -, hsame, -⟩
      · rwa [hsame] at hi
      · rw [hsame] at hi
        rcases getElem?_concat.mp hi with hi | ⟨-, hm⟩
        · exact hi
        · exact absurd (Prod.mk.inj hm).1.symm hq
    exact (ho.told i m hold).imp_left fun hmem => (mem_settled_step h).mpr (.inl hmem)

variable {ok : Pool World Place → ℕ × Action → Prop} {c c' : Pool World Place}

/-- **The logs at any moment**, and what has become of the calls. -/
theorem sound_of_reaches (h : Reaches (step print) ok start c) :
    Sound print c.shared ∧ ∀ q, Holds q c.shared (c.places q) := by
  have hlines : start.shared.lines = [] := rfl
  have hsettled : start.shared.settled = [] := rfl
  have hrecorded : start.shared.recorded = [] := rfl
  have hstart : Sound print start.shared :=
    ⟨fun _ => rfl, by simp [hsettled], by simp [hlines], by simp [hsettled]⟩
  have hholds : ∀ q, Holds q start.shared .idle := fun q =>
    ⟨by simp [Place.call], by simp [hrecorded]⟩
  have hall : ∀ q, Sound print c.shared ∧ Holds q c.shared (c.places q) := by
    refine h.invariant (I := fun c => ∀ q, Sound print c.shared ∧ Holds q c.shared (c.places q))
      (fun q => ⟨hstart, hholds q⟩) fun {c c' m} hc _ ht => ?_
    refine turn_assertion (J := fun q w place => Sound print w ∧ Holds q w place)
      (fun hJ hstep => ?_) (fun hq hJ hJ' hstep => ?_) hc ht
    · have hchange := change_of_stepOf hstep
      exact ⟨sound_step hJ.1 hJ.2 hchange, holds_own hJ.1 hJ.2 hchange⟩
    · have hchange := change_of_stepOf hstep
      exact ⟨sound_step hJ'.1 hJ'.2 hchange, holds_other hq hJ'.2 hJ.2 hchange⟩
  exact ⟨(hall 0).1, fun q => (hall q).2⟩

end BrainEngine.Metrics.Log
