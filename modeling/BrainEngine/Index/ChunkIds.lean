import BrainEngine.Core.Embedding
import BrainEngine.Index.Runs

/-! # Chunk ids across index transactions

A transaction deletes the chunks of rewritten and vanished files and inserts new ones, without a mark,
from the greatest id then in use on. The id of a deleted chunk can come back; `txFresh used` says that
it does not for the ids in `used`. -/

namespace BrainEngine.Index.ChunkIds

open BrainEngine.Rust.Str BrainEngine.Lib.Rowid BrainEngine.Core.External BrainEngine.Core.Config
open BrainEngine.Core.Chunking BrainEngine.Core.Walk BrainEngine.Core.Database
open BrainEngine.Core.Embedding BrainEngine.Core.Index BrainEngine.Core.Docs BrainEngine.Index.Runs

variable {x : Extern} {t : Tree} {cfg : ProjectConfig} {now : ℕ} {db db' : Db}

/-- The chunk table when the chunks of a changed file have been deleted. -/
def withoutFile (now : ℕ) (db : Db) (path : Text) (c : ChangedFile) : RowTable ChunkRow :=
  db.chunks.deleteWhere fun _ ch => ch.fileId = targetId db path c now

/-- None of the ids the chunks of a changed file get is in `used`. -/
def stepFresh (used : List ℕ) (now : ℕ) (db : Db) (w : Text × FileWork) : Bool :=
  match w.2 with
  | .changed c =>
    (List.range c.chunks.length).all fun j => (withoutFile now db w.1 c).maxId + 1 + j ∉ used
  | _ => true

/-- No chunk that the transaction inserts gets an id in `used`. -/
def txFresh (used : List ℕ) (now : ℕ) : Db → List (Text × FileWork) → Bool
  | _, [] => true
  | db, w :: ws => stepFresh used now db w && txFresh used now (persist now db w) ws

/-! ### Chunks and their paths -/

/-- The chunk row `ch` under the id `i` belongs to the file at `path`. -/
def ChunkAt (db : Db) (path : Text) (i : ℕ) (ch : ChunkRow) : Prop :=
  (i, ch) ∈ db.chunks.rows ∧ ∃ f, (ch.fileId, f) ∈ db.files.rows ∧ f.path = path

/-- A chunk is not touched by the writes of other files, and not by those that are no rewrite. -/
theorem chunkAt_persist {w : Text × FileWork} {path : Text} {i : ℕ} {ch : ChunkRow}
    (h : ChunkAt db path i ch) (hw : ∀ c, w = (path, .changed c) → False) :
    ChunkAt (persist now db w) path i ch := by
  obtain ⟨h, f, hf, hp⟩ := h
  obtain ⟨f', hf', hp'⟩ := mem_files_persist now hf w
  refine ⟨?_, f', hf', hp'.trans hp⟩
  obtain ⟨q, w⟩ := w
  cases w with
  | unchanged => exact h
  | skippedBinary => exact h
  | touched size mtime => exact h
  | changed c =>
    refine RowTable.mem_replace_of_ne h fun hid => hw c ?_
    have hid : ch.fileId = targetId db q c now := hid
    rw [hid] at hf
    have hq : f.path = q := path_upsertFile hf
    rw [← hp, hq]

theorem chunkAt_persistAll {path : Text} {i : ℕ} {ch : ChunkRow} : ∀ (ws : List (Text × FileWork))
    {db : Db}, ChunkAt db path i ch → (∀ c, (path, FileWork.changed c) ∉ ws) →
      ChunkAt (ws.foldl (persist now) db) path i ch
  | [], _, h, _ => h
  | _ :: ws, _, h, hw =>
    chunkAt_persistAll ws (chunkAt_persist h fun c hc => hw c (hc ▸ List.mem_cons_self))
      fun c hc => hw c (List.mem_cons_of_mem _ hc)

theorem chunkAt_removeVanished {ws : List (Text × FileWork)} {path : Text} {i : ℕ} {ch : ChunkRow}
    (h : ChunkAt (ws.foldl (persist now) db) path i ch) (hs : path ∈ ws.map Prod.fst) :
    ChunkAt (transaction now ws db) path i ch := by
  obtain ⟨h, f, hf, hp⟩ := h
  have hi : ch.fileId ∉ vanished (loadExisting db) (ws.map Prod.fst) := by
    rw [mem_vanished_iff hf, hp]
    exact not_not.mpr hs
  exact ⟨mem_chunks_deleteFiles.mpr ⟨h, hi⟩, f, mem_files_deleteFiles.mpr ⟨hf, hi⟩, hp⟩

/-- **A chunk survives a transaction** that sees its file and does not rewrite it. -/
theorem chunkAt_transaction {ws : List (Text × FileWork)} {path : Text} {i : ℕ} {ch : ChunkRow}
    (h : ChunkAt db path i ch) (hw : ∀ c, (path, FileWork.changed c) ∉ ws)
    (hs : path ∈ ws.map Prod.fst) : ChunkAt (transaction now ws db) path i ch :=
  chunkAt_removeVanished (chunkAt_persistAll ws h hw) hs

/-! ### The rows afterwards -/

/-- A chunk row of `db` that is still there in `db'`, with its file. -/
structure Kept (db db' : Db) (i : ℕ) (ch : ChunkRow) : Prop where
  mem : (i, ch) ∈ db.chunks.rows
  chunkAt : ∀ path, ChunkAt db path i ch → ChunkAt db' path i ch

/-- A chunk row that writing the outcomes `ws` inserts. -/
structure Inserted (now : ℕ) (db : Db) (ws : List (Text × FileWork)) (i : ℕ) (ch : ChunkRow) :
    Prop where
  unmarked : ch.vectorId = none
  source : ∃ path c, (path, FileWork.changed c) ∈ ws ∧ chunkOf ch ∈ c.chunks
  fresh : ∀ used, txFresh used now db ws = true → i ∉ used

theorem mem_chunks_persist {w : Text × FileWork} {i : ℕ} {ch : ChunkRow}
    (h : (i, ch) ∈ (persist now db w).chunks.rows) :
    Kept db (persist now db w) i ch ∨ Inserted now db [w] i ch := by
  have hkept : ∀ {db' : Db}, (i, ch) ∈ db.chunks.rows → (i, ch) ∈ db'.chunks.rows →
      (∀ f, (ch.fileId, f) ∈ db.files.rows → ∃ f', (ch.fileId, f') ∈ db'.files.rows ∧
        f'.path = f.path) → Kept db db' i ch := by
    intro db' h h' hfiles
    refine ⟨h, fun path hc => ⟨h', ?_⟩⟩
    obtain ⟨-, f, hf, hp⟩ := hc
    obtain ⟨f', hf', hp'⟩ := hfiles f hf
    exact ⟨f', hf', hp'.trans hp⟩
  have hfiles : ∀ f, (ch.fileId, f) ∈ db.files.rows →
      ∃ f', (ch.fileId, f') ∈ (persist now db w).files.rows ∧ f'.path = f.path :=
    fun f hf => mem_files_persist now hf w
  obtain ⟨path, w⟩ := w
  cases w with
  | unchanged => exact Or.inl (hkept h h hfiles)
  | skippedBinary => exact Or.inl (hkept h h hfiles)
  | touched size mtime => exact Or.inl (hkept h h hfiles)
  | changed c =>
    rcases RowTable.mem_replace ChunkRow.fileId h with ⟨h', -⟩ | ⟨⟨j, hj, hi⟩, hch⟩
    · exact Or.inl (hkept h' h hfiles)
    · obtain ⟨ch', hch', rfl⟩ := List.mem_map.mp hch
      refine Or.inr ⟨rfl, ⟨path, c, List.mem_cons_self, hch'⟩, fun used hu => ?_⟩
      have hu : stepFresh used now db (path, .changed c) = true := by simpa [txFresh] using hu
      have hall := List.all_eq_true.mp hu j (List.mem_range.mpr (by simpa using hj))
      have hfresh := of_decide_eq_true hall
      rw [hi]
      exact hfresh

theorem mem_chunks_persistAll {i : ℕ} {ch : ChunkRow} : ∀ (ws : List (Text × FileWork)) {db : Db},
    (i, ch) ∈ (ws.foldl (persist now) db).chunks.rows →
      Kept db (ws.foldl (persist now) db) i ch ∨ Inserted now db ws i ch
  | [], db, h => Or.inl ⟨h, fun _ hc => hc⟩
  | w :: ws, db, h => by
    have hfresh : ∀ {used}, txFresh used now db (w :: ws) = true →
        txFresh used now db [w] = true ∧ txFresh used now (persist now db w) ws = true := by
      intro used hu
      simpa [txFresh] using hu
    rcases mem_chunks_persistAll ws h with hk | hn
    · rcases mem_chunks_persist hk.mem with hk' | hn
      · exact Or.inl ⟨hk'.mem, fun path hc => hk.chunkAt path (hk'.chunkAt path hc)⟩
      · obtain ⟨path, c, hc, hch⟩ := hn.source
        refine Or.inr ⟨hn.unmarked, ⟨path, c, ?_, hch⟩, fun used hu => hn.fresh used (hfresh hu).1⟩
        rw [List.mem_singleton.mp hc]
        exact List.mem_cons_self
    · obtain ⟨path, c, hc, hch⟩ := hn.source
      exact Or.inr ⟨hn.unmarked, ⟨path, c, List.mem_cons_of_mem _ hc, hch⟩,
        fun used hu => hn.fresh used (hfresh hu).2⟩

/-- **A chunk row after a transaction** was there before with its file, or has been inserted. -/
theorem mem_chunks_transaction {ws : List (Text × FileWork)} {i : ℕ} {ch : ChunkRow}
    (h : (i, ch) ∈ (transaction now ws db).chunks.rows) :
    Kept db (transaction now ws db) i ch ∨ Inserted now db ws i ch := by
  obtain ⟨h', hi⟩ := mem_chunks_deleteFiles.mp h
  refine (mem_chunks_persistAll ws h').imp (fun hk => ⟨hk.mem, fun path hc => ⟨h, ?_⟩⟩) id
  obtain ⟨-, f, hf, hp⟩ := hk.chunkAt path hc
  exact ⟨f, mem_files_deleteFiles.mpr ⟨hf, hi⟩, hp⟩

/-- The chunk that gets an id of `used` when a file is rewritten. -/
theorem exists_of_not_stepFresh {used : List ℕ} {w : Text × FileWork}
    (h : stepFresh used now db w = false) :
    ∃ i ∈ used, ∃ ch, ch.vectorId = none ∧ ChunkAt (persist now db w) w.1 i ch := by
  obtain ⟨path, w⟩ := w
  cases w with
  | unchanged => simp [stepFresh] at h
  | skippedBinary => simp [stepFresh] at h
  | touched size mtime => simp [stepFresh] at h
  | changed c =>
    unfold stepFresh at h
    dsimp only at h
    obtain ⟨j, hj, hu⟩ := List.all_eq_false.mp h
    have hj := List.mem_range.mp hj
    have hu : (withoutFile now db path c).maxId + 1 + j ∈ used := by simpa using hu
    refine ⟨_, hu, chunkRow (targetId db path c now) now c.chunks[j], rfl, ?_,
      fileRow path c now, mem_files_writeChanged.mpr (Or.inl ⟨rfl, rfl⟩), rfl⟩
    exact RowTable.mem_insertAll_of_getElem (by simpa using hj) (by rw [List.getElem_map]; rfl)

variable (now db) in
/-- **A transaction that is not fresh** leaves an unmarked chunk under an id of `used`, because each
file is written once. -/
theorem exists_of_not_txFresh {used : List ℕ} {ws : List (Text × FileWork)}
    (hn : (ws.map Prod.fst).Nodup) (h : txFresh used now db ws = false) :
    ∃ i ∈ used, ∃ ch, (i, ch) ∈ (transaction now ws db).chunks.rows ∧ ch.vectorId = none := by
  have key : ∀ (ws : List (Text × FileWork)) {db : Db}, (ws.map Prod.fst).Nodup →
      txFresh used now db ws = false → ∃ path ∈ ws.map Prod.fst, ∃ i ∈ used, ∃ ch,
        ch.vectorId = none ∧ ChunkAt (ws.foldl (persist now) db) path i ch := by
    intro ws
    induction ws with
    | nil => intro db _ h; simp [txFresh] at h
    | cons w ws ih =>
      intro db hn h
      rw [List.map_cons, List.nodup_cons] at hn
      rw [txFresh, Bool.and_eq_false_iff] at h
      rcases h with h | h
      · obtain ⟨i, hi, ch, hv, hch⟩ := exists_of_not_stepFresh h
        refine ⟨w.1, List.mem_cons_self, i, hi, ch, hv, chunkAt_persistAll ws hch fun c hc => ?_⟩
        exact hn.1 (List.mem_map.mpr ⟨_, hc, rfl⟩)
      · obtain ⟨path, hp, i, hi, ch, hv, hch⟩ := ih hn.2 h
        exact ⟨path, List.mem_cons_of_mem _ hp, i, hi, ch, hv, hch⟩
  obtain ⟨path, hp, i, hi, ch, hv, hch⟩ := key ws hn h
  exact ⟨i, hi, ch, (chunkAt_removeVanished hch hp).1, hv⟩

/-! ### Marks -/

/-- The outcomes `ws` leave the marks alone: the files of the marked chunks have been seen, and are not
rewritten. -/
def MarksStay (ws : List (Text × FileWork)) (db : Db) : Prop :=
  ∀ a ∈ db.chunks.rows, a.2.vectorId ≠ none → ∀ f, (a.2.fileId, f) ∈ db.files.rows →
    f.path ∈ ws.map Prod.fst ∧ ∀ c, (f.path, FileWork.changed c) ∉ ws

theorem unmarked_of_changed {path : Text} {c : ChangedFile} (hwf : WellFormed db)
    {ws : List (Text × FileWork)} (hc : (path, FileWork.changed c) ∈ ws) {i : ℕ} {ch : ChunkRow}
    (h : ChunkAt (ws.foldl (persist now) db) path i ch) : ch.vectorId = none := by
  obtain ⟨ws₁, ws₂, rfl⟩ := List.append_of_mem hc
  rw [List.foldl_append, List.foldl_cons] at h
  have hwf₁ := wellFormed_persistAll now hwf ws₁
  generalize ws₁.foldl (persist now) db = db₁ at h hwf₁
  have hwf₂ : WellFormed (persist now db₁ (path, .changed c)) := wellFormed_persist hwf₁ _
  obtain ⟨h, f, hf, hp⟩ := h
  rcases mem_chunks_persistAll ws₂ h with hk | hn
  · obtain ⟨g, hg⟩ := RowTable.mem_ids.mp (hwf₂.keys.chunks _ hk.mem)
    obtain ⟨g', hg', hgp⟩ := mem_files_persistAll now ws₂ hg
    have hpath : g.path = path := by rw [← hgp, RowTable.row_unique hg' hf, hp]
    rcases mem_chunks_writeChanged hk.mem with ⟨-, hne⟩ | ⟨ch', -, rfl⟩
    · -- the row of a path is the one that is written
      have htarget : (targetId db₁ path c now, fileRow path c now) ∈
          (persist now db₁ (path, .changed c)).files.rows :=
        mem_files_writeChanged.mpr (Or.inl ⟨rfl, rfl⟩)
      have hsame := List.inj_on_of_nodup_map hwf₂.paths hg htarget hpath
      exact absurd (Prod.mk.inj hsame).1 hne
    · rfl
  · exact hn.unmarked

/-- **The marks after a transaction are those before**, exactly if it rewrites and removes no file with a
marked chunk. -/
theorem marks_transaction_iff (hwf : WellFormed db) {ws : List (Text × FileWork)} :
    marks (transaction now ws db) = marks db ↔ MarksStay ws db := by
  rw [marks_eq_iff (pairwise_marks db)]
  constructor
  · rintro h ⟨i, ch⟩ hch hv f hf
    obtain ⟨v, hv⟩ := Option.ne_none_iff_exists'.mp hv
    obtain ⟨ch', hch', hv'⟩ := mem_marks.mp ((h (i, v)).mpr (mem_marks.mpr ⟨ch, hch, hv⟩))
    -- what is marked afterwards was there before
    rcases mem_chunks_transaction hch' with hk | hn
    · have hat : ChunkAt db f.path i ch' := by
        rw [RowTable.row_unique hk.mem hch]
        exact ⟨hch, f, hf, rfl⟩
      obtain ⟨-, g, hg, hgp⟩ := hk.chunkAt f.path hat
      obtain ⟨hg, hid⟩ := mem_files_deleteFiles.mp hg
      rw [mem_vanished_iff hg, hgp, not_not] at hid
      refine ⟨hid, fun c hc => ?_⟩
      have hmem := (mem_chunks_deleteFiles.mp hch').1
      rw [unmarked_of_changed hwf hc ⟨hmem, g, hg, hgp⟩] at hv'
      cases hv'
    · rw [hn.unmarked] at hv'
      cases hv'
  · rintro h ⟨i, v⟩
    rw [mem_marks, mem_marks]
    constructor
    · rintro ⟨ch, hch, hv⟩
      rcases mem_chunks_transaction hch with hk | hn
      · exact ⟨ch, hk.mem, hv⟩
      · rw [hn.unmarked] at hv
        cases hv
    · rintro ⟨ch, hch, hv⟩
      obtain ⟨f, hf⟩ := RowTable.mem_ids.mp (hwf.keys.chunks _ hch)
      obtain ⟨hs, hw⟩ := h (i, ch) hch (by rw [hv]; exact Option.some_ne_none v) f hf
      exact ⟨ch, (chunkAt_transaction ⟨hch, f, hf, rfl⟩ hw hs).1, hv⟩

/-! ### Runs of the indexer -/

theorem mem_chunks_indexProject {stats : IndexStats}
    (hr : indexProject x t cfg now db = .ok (db', stats)) {i : ℕ} {ch : ChunkRow}
    (h : (i, ch) ∈ db'.chunks.rows) :
    Kept db db' i ch ∨ Inserted now db (plan x t cfg db) i ch := by
  rw [transaction_plan hr] at h ⊢
  exact mem_chunks_transaction h

/-- What a run inserts are chunks of texts. -/
theorem chunkOf_inserted {stats : IndexStats}
    (hr : indexProject x t cfg now db = .ok (db', stats)) {i : ℕ} {ch : ChunkRow}
    (h : Inserted now db (plan x t cfg db) i ch) :
    ∃ text, chunkOf ch ∈ chunkText x text cfg.chunk := by
  obtain ⟨outcome, hw, -⟩ := plan_spec hr
  obtain ⟨path, c, hc, hch⟩ := h.source
  obtain ⟨e, -, -, hcl⟩ := exists_entry hw hc
  obtain ⟨text, ht⟩ := text_of_changed hcl
  obtain ⟨symbols, -, rfl⟩ := changedFile_ok_iff.mp ht
  exact ⟨text, hch⟩

theorem metaTable_transaction (ws : List (Text × FileWork)) :
    (transaction now ws db).metaTable = db.metaTable := by
  have h1 : ∀ (ws : List (Text × FileWork)) (db : Db),
      (ws.foldl (persist now) db).metaTable = db.metaTable := by
    intro ws
    induction ws with
    | nil => intro db; rfl
    | cons w ws ih =>
      intro db
      rw [List.foldl_cons, ih]
      obtain ⟨path, w⟩ := w
      cases w <;> rfl
  have h2 : ∀ (ids : List ℕ) (db : Db), (ids.foldl deleteFile db).metaTable = db.metaTable := by
    intro ids
    induction ids with
    | nil => intro db; rfl
    | cons id ids ih => intro db; rw [List.foldl_cons, ih]; rfl
  unfold transaction
  rw [h2, h1]

theorem metaTable_indexProject {stats : IndexStats}
    (hr : indexProject x t cfg now db = .ok (db', stats)) : db'.metaTable = db.metaTable := by
  rw [transaction_plan hr]
  exact metaTable_transaction _

theorem wellFormed_indexProject {stats : IndexStats}
    (hr : indexProject x t cfg now db = .ok (db', stats)) (h : WellFormed db) : WellFormed db' := by
  rw [transaction_plan hr]
  exact wellFormed_transaction h _

end BrainEngine.Index.ChunkIds
