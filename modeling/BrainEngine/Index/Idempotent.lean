import BrainEngine.Index.Incremental

/-! # Indexing twice

A run leaves the size and the time of every text file in its row, so the next run over the same
directory finds each file unchanged without reading it; a binary file has no row or one that does not
fit, and is read and skipped again (`classify_again`). So the second run writes nothing
(`indexProject_again`). -/

namespace BrainEngine.Index.Idempotent

open BrainEngine.Rust.Str BrainEngine.Lib.Outcome BrainEngine.Core.External BrainEngine.Core.Config
open BrainEngine.Core.Walk BrainEngine.Core.Database BrainEngine.Core.Index BrainEngine.Core.Docs
open BrainEngine.Core.Sample BrainEngine.Index.Runs BrainEngine.Index.Incremental

variable {x : Extern} {cfg : ProjectConfig} {t : Tree} {db db' : Db} {now : ℕ}

/-! ### One file -/

/-- What the second run finds where the first one found this. -/
def again : FileWork → FileWork
  | .skippedBinary => .skippedBinary
  | _ => .unchanged

/-- **The second classification** of a file, from the entry that the first one has left. -/
theorem classify_again (h : WellFormed db) (h' : WellFormed db') {e : WalkEntry} {w : FileWork}
    (hc : classify x t cfg (loadExisting db) e = .ok w)
    (hd : docAt db' e.relPath = persistAt w (docAt db e.relPath)) :
    classify x t cfg (loadExisting db') e = .ok (again w) := by
  have hfit : ∀ d, docAt db' e.relPath = some d → d.sizeBytes.toUInt64 = e.size → d.mtime = e.mtime →
      classify x t cfg (loadExisting db') e = .ok .unchanged := fun d hd hs hm =>
    classify_ok_iff.mpr (Or.inl ⟨(untouched_iff h').mpr ⟨d, hd, hs, hm⟩, rfl⟩)
  rcases classify_ok_iff.mp hc with ⟨hu, rfl⟩ | ⟨hu, bytes, hr, ⟨hb, rfl⟩ | ⟨text, -, hw⟩⟩
  · obtain ⟨d, h1, h2, h3⟩ := (untouched_iff h).mp hu
    exact hfit d (hd.trans h1) h2 h3
  · -- a binary file: its old row, if it has one, does not fit now either
    have hu' : ¬Untouched (loadExisting db') e := by
      rw [untouched_iff h', hd]
      rwa [untouched_iff h] at hu
    exact classify_ok_iff.mpr (Or.inr ⟨hu', bytes, hr, Or.inl ⟨hb, rfl⟩⟩)
  · rcases hw with ⟨hs, rfl⟩ | ⟨-, c, hcf, rfl⟩
    · obtain ⟨d, h1, -⟩ := (sameHash_iff h).mp hs
      rw [h1] at hd
      exact hfit _ hd (UInt64.toUInt64_toInt64 e.size) rfl
    · obtain ⟨symbols, -, rfl⟩ := changedFile_ok_iff.mp hcf
      exact hfit _ hd (UInt64.toUInt64_toInt64 e.size) rfl

/-! ### All files -/

/-- The outcomes of the second run. -/
def allAgain (ws : List (Text × FileWork)) : List (Text × FileWork) :=
  ws.map fun w => (w.1, again w.2)

theorem fst_allAgain (ws : List (Text × FileWork)) :
    (allAgain ws).map Prod.fst = ws.map Prod.fst := by
  simp [allAgain, Function.comp_def]

theorem outcomes_again (h : WellFormed db) (hdis : Distinct x cfg t) {ws : List (Text × FileWork)}
    (hw : Outcomes x t cfg db (entries x t cfg) ws) :
    Outcomes x t cfg (transaction now ws db) (entries x t cfg) (allAgain ws) := by
  have h' : WellFormed (transaction now ws db) := wellFormed_transaction h ws
  unfold Outcomes allAgain
  rw [List.forall₂_map_right_iff]
  refine List.forall₂_iff_zip.mpr ⟨hw.length_eq, ?_⟩
  rintro e ⟨p, w⟩ hz
  have hm := (List.of_mem_zip hz).2
  obtain ⟨hp, hc⟩ := List.forall₂_zip hw hz
  subst hp
  exact ⟨rfl, classify_again h h' hc (docAt_run h hdis hw hm)⟩

theorem persist_again (now : ℕ) (db : Db) (w : Text × FileWork) :
    persist now db (w.1, again w.2) = db := by
  obtain ⟨p, w⟩ := w
  cases w with
  | unchanged => rfl
  | touched size mtime => rfl
  | changed c => rfl
  | skippedBinary => rfl

/-- The first run has removed the rows of the files that are not there. -/
theorem vanished_transaction (h : WellFormed db) (ws : List (Text × FileWork)) :
    vanished (loadExisting (transaction now ws db)) (ws.map Prod.fst) = [] := by
  rw [List.eq_nil_iff_forall_not_mem]
  intro i hi
  obtain ⟨r, hr, hp⟩ := mem_vanished.mp hi
  have hd := docAt_of_mem (wellFormed_transaction h ws) hr
  rw [docAt_removeVanished h, if_neg hp] at hd
  simp at hd

/-- **The second transaction** changes nothing. -/
theorem transaction_again (h : WellFormed db) (ws : List (Text × FileWork)) (now' : ℕ) :
    transaction now' (allAgain ws) (transaction now ws db) = transaction now ws db := by
  have hkeep : ∀ (ws : List (Text × FileWork)) (db : Db), (allAgain ws).foldl (persist now') db = db := by
    intro ws db
    induction ws with
    | nil => rfl
    | cons w ws ih =>
      rw [allAgain, List.map_cons, List.foldl_cons, persist_again]
      exact ih
  unfold transaction
  rw [hkeep, fst_allAgain]
  have hnone : vanished (loadExisting (transaction now ws db)) (ws.map Prod.fst) = [] :=
    vanished_transaction h ws
  unfold transaction at hnone
  rw [hnone, List.foldl_nil]

/-! ### The summary -/

/-- The summary of the second run after this one. -/
def quiet (stats : IndexStats) : IndexStats :=
  { stats with
    indexed := 0
    unchanged := stats.indexed + stats.unchanged
    removed := 0
    chunksWritten := 0 }

/-- Each file adds to the second summary what it adds to the first, made quiet. -/
theorem count_again (stats : IndexStats) (w : Text × FileWork) :
    count (quiet stats) (w.1, again w.2) = quiet (count stats w) := by
  obtain ⟨p, w⟩ := w
  cases w with
  | unchanged => rfl
  | touched size mtime => rfl
  | changed c =>
    simp only [count, again, quiet, IndexStats.mk.injEq, true_and, and_true]
    omega
  | skippedBinary => rfl

theorem foldl_count_again : ∀ (ws : List (Text × FileWork)) (stats : IndexStats),
    (allAgain ws).foldl count (quiet stats) = quiet (ws.foldl count stats)
  | [], _ => rfl
  | w :: ws, stats => by
    rw [allAgain, List.map_cons, List.foldl_cons, count_again, List.foldl_cons]
    exact foldl_count_again ws (count stats w)

theorem summary_again (h : WellFormed db) (outcome : WalkOutcome) (ws : List (Text × FileWork)) :
    summary outcome (allAgain ws) (transaction now ws db) = quiet (summary outcome ws db) := by
  have hfold : (allAgain ws).foldl count (start outcome) =
      quiet (ws.foldl count (start outcome)) := foldl_count_again ws (start outcome)
  unfold summary
  rw [hfold, fst_allAgain, vanished_transaction h]
  rfl

/-! ### The second run -/

/-- **Indexing is idempotent.** After a successful run from any reachable database over a directory
whose walk yields each path once, a second run over the same directory succeeds, leaves the database as
it is, and reports every text file as unchanged. -/
theorem indexProject_again (h : Reachable x db) (hdis : Distinct x cfg t) {stats : IndexStats}
    (hr : indexProject x t cfg now db = .ok (db', stats)) (now' : ℕ) :
    indexProject x t cfg now' db' = .ok (db', { stats with
      indexed := 0
      unchanged := stats.indexed + stats.unchanged
      removed := 0
      chunksWritten := 0 }) := by
  have hwf := wellFormed_of_reachable h
  obtain ⟨outcome, ws, hwalk, hw, rfl, rfl⟩ := indexProject_eq_ok.mp hr
  rw [← entries_of_walk hwalk] at hw
  refine indexProject_eq_ok.mpr ⟨outcome, allAgain ws, hwalk, ?_, ?_, ?_⟩
  · rw [← entries_of_walk hwalk]
    exact outcomes_again hwf hdis hw
  · exact (transaction_again hwf ws now').symm
  · exact (summary_again hwf outcome ws).symm

/-- Two files, indexed twice. -/
theorem indexProject_again_aAndB : ∃ stats : IndexStats,
    indexProject sample aAndB {} 2 (runIndex sample aAndB {} 1 Db.empty) =
      .ok (runIndex sample aAndB {} 1 Db.empty, { stats with
        indexed := 0
        unchanged := stats.indexed + stats.unchanged
        removed := 0
        chunksWritten := 0 }) := by
  obtain ⟨stats, hr⟩ := indexProject_of_isOk
    (by decide : (indexProject sample aAndB {} 1 Db.empty).isOk)
  exact ⟨stats, indexProject_again .empty (by unfold Distinct; decide) hr 2⟩

end BrainEngine.Index.Idempotent
