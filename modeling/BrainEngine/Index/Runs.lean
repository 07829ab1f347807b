import BrainEngine.Lib.Outcome
import BrainEngine.Core.Docs

/-! # Runs of the indexer that succeed

`indexProject_ok_iff` and `classify_ok_iff` say what a successful run has done: the candidates of the
walk in order, each with an outcome, and the transaction of these outcomes. -/

namespace BrainEngine.Index.Runs

open BrainEngine.Rust.Str BrainEngine.Lib.Outcome BrainEngine.Core.External BrainEngine.Core.Config
open BrainEngine.Core.Chunking BrainEngine.Core.Symbols BrainEngine.Core.Walk
open BrainEngine.Core.Database BrainEngine.Core.Index BrainEngine.Core.Docs

variable {x : Extern} {t : Tree} {cfg : ProjectConfig} {now : ℕ} {db db' : Db}

theorem surface_ok_iff {work : List (Text × Except Failure FileWork)}
    {ws : List (Text × FileWork)} :
    surface work = .ok ws ↔ List.Forall₂ (fun a w => a.1 = w.1 ∧ a.2 = .ok w.2) work ws := by
  have hiff : (fun (a : Text × Except Failure FileWork) (w : Text × FileWork) =>
      ((a.1, ·) <$> a.2 : Except Failure _) = .ok w) = fun a w => a.1 = w.1 ∧ a.2 = .ok w.2 := by
    funext a w
    rw [map_eq_ok, eq_iff_iff]
    constructor
    · rintro ⟨v, hv, rfl⟩; exact ⟨rfl, hv⟩
    · rintro ⟨h1, h2⟩; exact ⟨w.2, h2, by rw [h1]⟩
  rw [← hiff]
  unfold surface
  split_ifs with hp
  · -- a panic is no value, so the loop does not return either
    refine iff_of_false (by simp) fun h => ?_
    obtain ⟨a, ha, hpa⟩ := List.any_eq_true.mp hp
    obtain ⟨w, -, hw⟩ := exists_right h ha
    obtain ⟨v, hv, -⟩ := map_eq_ok.mp hw
    simp [hv] at hpa
  · exact mapM_eq_ok

/-- The candidates of a walk with the outcomes of their classification. -/
def Outcomes (x : Extern) (t : Tree) (cfg : ProjectConfig) (db : Db) :
    List WalkEntry → List (Text × FileWork) → Prop :=
  List.Forall₂ fun e w => e.relPath = w.1 ∧ classify x t cfg (loadExisting db) e = .ok w.2

/-- The summary before the first file. -/
def start (outcome : WalkOutcome) : IndexStats where
  scanned := outcome.entries.length
  skippedLarge := outcome.skippedLarge
  skippedExcluded := outcome.skippedExcluded

/-- The summary of a run with these outcomes. -/
def summary (outcome : WalkOutcome) (ws : List (Text × FileWork)) (db : Db) : IndexStats :=
  { ws.foldl count (start outcome) with
    removed := (vanished (loadExisting db) (ws.map Prod.fst)).length }

/-- **A successful run** and its summary. -/
theorem indexProject_eq_ok {stats : IndexStats} :
    indexProject x t cfg now db = .ok (db', stats) ↔
      ∃ outcome ws, walk x t cfg = .ok outcome ∧ Outcomes x t cfg db outcome.entries ws ∧
        db' = transaction now ws db ∧ stats = summary outcome ws db := by
  unfold indexProject Outcomes
  constructor
  · intro h
    obtain ⟨outcome, h1, h⟩ := bind_eq_ok.mp h
    obtain ⟨ws, h2, h⟩ := bind_eq_ok.mp h
    have h3 := surface_ok_iff.mp h2
    rw [List.forall₂_map_left_iff] at h3
    obtain ⟨h4, h5⟩ := Prod.mk.inj (Except.ok.inj h)
    exact ⟨outcome, ws, h1, h3, h4.symm, h5.symm⟩
  · rintro ⟨outcome, ws, h1, h2, rfl, rfl⟩
    refine bind_eq_ok.mpr ⟨outcome, h1, bind_eq_ok.mpr ⟨ws, surface_ok_iff.mpr ?_, rfl⟩⟩
    rw [List.forall₂_map_left_iff]
    exact h2

/-- **A successful run**, whatever its summary. -/
theorem indexProject_ok_iff : (∃ stats, indexProject x t cfg now db = .ok (db', stats)) ↔
    ∃ outcome ws, walk x t cfg = .ok outcome ∧ Outcomes x t cfg db outcome.entries ws ∧
      db' = transaction now ws db := by
  simp only [indexProject_eq_ok]
  constructor
  · rintro ⟨stats, outcome, ws, h1, h2, h3, -⟩
    exact ⟨outcome, ws, h1, h2, h3⟩
  · rintro ⟨outcome, ws, h1, h2, h3⟩
    exact ⟨_, outcome, ws, h1, h2, h3, rfl⟩

theorem indexProject_of_isOk (h : (indexProject x t cfg now db).isOk) :
    ∃ stats, indexProject x t cfg now db = .ok (runIndex x t cfg now db, stats) := by
  unfold runIndex
  rcases hr : indexProject x t cfg now db with f | ⟨db', stats⟩
  · rw [hr] at h
    simp [Except.isOk, Except.toBool] at h
  · exact ⟨stats, rfl⟩

theorem fst_outcomes {es : List WalkEntry} {ws : List (Text × FileWork)}
    (h : Outcomes x t cfg db es ws) : ws.map Prod.fst = es.map WalkEntry.relPath := by
  induction h with
  | nil => rfl
  | cons h _ ih => rw [List.map_cons, List.map_cons, ih, h.1]

/-- The candidate behind an outcome. -/
theorem exists_entry {es : List WalkEntry} {ws : List (Text × FileWork)}
    (h : Outcomes x t cfg db es ws) {w : Text × FileWork} (hw : w ∈ ws) :
    ∃ e ∈ es, e.relPath = w.1 ∧ classify x t cfg (loadExisting db) e = .ok w.2 := by
  obtain ⟨e, he, h1⟩ := exists_left h hw
  exact ⟨e, he, h1⟩

/-- The outcomes of a run that succeeds. -/
def plan (x : Extern) (t : Tree) (cfg : ProjectConfig) (db : Db) : List (Text × FileWork) :=
  match walk x t cfg with
  | .error _ => []
  | .ok outcome =>
    match surface (outcome.entries.map fun e => (e.relPath, classify x t cfg (loadExisting db) e)) with
    | .error _ => []
    | .ok ws => ws

theorem plan_spec {stats : IndexStats} (h : indexProject x t cfg now db = .ok (db', stats)) :
    ∃ outcome : WalkOutcome, Outcomes x t cfg db outcome.entries (plan x t cfg db) ∧
      db' = transaction now (plan x t cfg db) db := by
  unfold indexProject at h
  obtain ⟨outcome, h1, h⟩ := bind_eq_ok.mp h
  obtain ⟨ws, h2, h⟩ := bind_eq_ok.mp h
  have hplan : plan x t cfg db = ws := by
    unfold plan
    rw [h1]
    dsimp only
    rw [h2]
  have h3 := surface_ok_iff.mp h2
  rw [List.forall₂_map_left_iff] at h3
  rw [hplan]
  exact ⟨outcome, h3, (Prod.mk.inj (Except.ok.inj h)).1.symm⟩

theorem transaction_plan {stats : IndexStats} (h : indexProject x t cfg now db = .ok (db', stats)) :
    db' = transaction now (plan x t cfg db) db := by
  obtain ⟨outcome, -, h⟩ := plan_spec h
  exact h

/-! ### One run after the other -/

/-- The databases that runs of the indexer reach, over any directories and with any configurations. A
run that fails leaves the database as it was. -/
inductive Reachable (x : Extern) : Db → Prop
  | empty : Reachable x Db.empty
  | run {db : Db} (h : Reachable x db) (t : Tree) (cfg : ProjectConfig) (now : ℕ) :
    Reachable x (runIndex x t cfg now db)

theorem wellFormed_runIndex (h : WellFormed db) : WellFormed (runIndex x t cfg now db) := by
  rcases hr : indexProject x t cfg now db with f | ⟨db', stats⟩
  · unfold runIndex
    rw [hr]
    exact h
  · have heq : runIndex x t cfg now db = db' := by
      unfold runIndex
      rw [hr]
    rw [heq, transaction_plan hr]
    exact wellFormed_transaction h _

theorem wellFormed_of_reachable (h : Reachable x db) : WellFormed db := by
  induction h with
  | empty => exact wellFormed_empty
  | run _ t cfg now ih => exact wellFormed_runIndex ih

/-! ### One file -/

section Classify
variable {existing : List (Text × ExistingFile)} {e : WalkEntry} {w : FileWork} {c : ChangedFile}

/-- The row of the last run has the size and the time of the file now. -/
def Untouched (existing : List (Text × ExistingFile)) (e : WalkEntry) : Prop :=
  ∃ p, existing.lookup e.relPath = some p ∧ p.size = e.size ∧ p.mtime = e.mtime

/-- The row of the last run has this hash. -/
def SameHash (existing : List (Text × ExistingFile)) (e : WalkEntry) (hash : Text) : Prop :=
  ∃ p, existing.lookup e.relPath = some p ∧ p.hash = hash

theorem changedFile_ok_iff {text : Text} : changedFile x cfg e text = .ok c ↔
    ∃ symbols, extract x text (detectLanguage e.relPath) = .ok symbols ∧
      c = { hash := x.sha256Hex text, size := e.size, mtime := e.mtime,
            lang := detectLanguage e.relPath, chunks := chunkText x text cfg.chunk, symbols } := by
  unfold changedFile
  simp only [bind_eq_ok]
  constructor
  · rintro ⟨symbols, h1, h2⟩; exact ⟨symbols, h1, (Except.ok.inj h2).symm⟩
  · rintro ⟨symbols, h1, rfl⟩; exact ⟨symbols, h1, rfl⟩

/-- **A successful classification**: on the fast path without reading, else by the content. -/
theorem classify_ok_iff : classify x t cfg existing e = .ok w ↔
    Untouched existing e ∧ w = .unchanged ∨
      ¬Untouched existing e ∧ ∃ bytes, t.read e.absPath = .ok bytes ∧
        (textOf bytes = none ∧ w = .skippedBinary ∨
          ∃ text, textOf bytes = some text ∧
            (SameHash existing e (x.sha256Hex text) ∧ w = .touched e.size e.mtime ∨
              ¬SameHash existing e (x.sha256Hex text) ∧
                ∃ c, changedFile x cfg e text = .ok c ∧ w = .changed c)) := by
  have hu : ((existing.lookup e.relPath).any fun p => p.size = e.size ∧ p.mtime = e.mtime) = true ↔
      Untouched existing e := by
    simp [Untouched, Option.any_eq_true]
  have hs : ∀ hash, ((existing.lookup e.relPath).any fun p => p.hash = hash) = true ↔
      SameHash existing e hash := by
    simp [SameHash, Option.any_eq_true]
  unfold classify
  simp only
  by_cases h1 : Untouched existing e
  · rw [if_pos (hu.mpr h1)]
    simp only [h1, true_and, not_true_eq_false, false_and, or_false, Except.ok.injEq, eq_comm]
  · rw [if_neg (hu.not.mpr h1)]
    simp only [h1, false_and, not_false_eq_true, true_and, false_or]
    rcases t.read e.absPath with m | bytes
    · simp only [reduceCtorEq, false_and, exists_false]
    · have hb : ∀ P : List UInt8 → Prop, (∃ bytes', (Except.ok bytes : Except Text _) = .ok bytes' ∧
          P bytes') ↔ P bytes := by
        simp
      rw [hb]
      dsimp only
      rcases textOf bytes with _ | text
      · simp only [true_and, reduceCtorEq, false_and, exists_false, or_false, Except.ok.injEq,
          eq_comm]
      · have ht' : ∀ P : Text → Prop, (∃ text', some text = some text' ∧ P text') ↔ P text := by
          simp
        dsimp only
        rw [ht']
        simp only [reduceCtorEq, false_and, false_or]
        by_cases h2 : SameHash existing e (x.sha256Hex text)
        · rw [if_pos ((hs _).mpr h2)]
          simp only [h2, true_and, not_true_eq_false, false_and, or_false, Except.ok.injEq, eq_comm]
        · rw [if_neg ((hs _).not.mpr h2), map_eq_ok]
          simp only [h2, false_and, not_false_eq_true, true_and, false_or, eq_comm]

/-- Only a text that was read is written. -/
theorem text_of_changed (h : classify x t cfg existing e = .ok (.changed c)) :
    ∃ text, changedFile x cfg e text = .ok c := by
  rcases classify_ok_iff.mp h with ⟨-, h⟩ | ⟨-, bytes, -, ⟨-, h⟩ | ⟨text, -, ⟨-, h⟩ | ⟨-, c', h1, h2⟩⟩⟩
  · simp at h
  · simp at h
  · simp at h
  · cases h2
    exact ⟨text, h1⟩

end Classify

end BrainEngine.Index.Runs
