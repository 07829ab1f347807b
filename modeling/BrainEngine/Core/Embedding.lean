import BrainEngine.Core.Vectors
import BrainEngine.Core.Database
import Mathlib.Data.List.Sort

/-! # Embedders and the marks of embedded chunks

`chunks.vector_id` is `NULL` until the chunk's vector has been stored; the statements that read and
write it are those of `commands/index.rs` and of the worker. -/

namespace BrainEngine.Core.Embedding

open BrainEngine.Rust.Str BrainEngine.Lib.Rowid BrainEngine.Core.Vectors BrainEngine.Core.Database

/-- An embedding backend. Its dimension is a `usize`. -/
structure Embedder where
  modelId : Text
  dim : ℕ
  dim_lt : dim < 2 ^ 64
  embed : List Text → Except Text (List (List F32))

/-- What the `meta` table keeps of an embedder. -/
def Embedder.pin (e : Embedder) : ModelPin := ⟨e.modelId, e.dim⟩

/-- The contract of `Embedder::embed`: one vector per input text. -/
def OnePerText (e : Embedder) : Prop :=
  ∀ texts vectors, e.embed texts = .ok vectors → vectors.length = texts.length

structure PendingChunk where
  id : ℕ
  content : Text
  filePath : Text
  deriving DecidableEq

/-- `SELECT id FROM chunks`. -/
def getAllChunkIds (db : Db) : List ℕ := db.chunks.ids

/-- The chunks with `vector_id IS NULL`, joined with their files. -/
def getPendingChunks (db : Db) : List PendingChunk :=
  db.chunks.rows.filterMap fun a =>
    if a.2.vectorId = none then
      (db.files.get? a.2.fileId).map fun f =>
        { id := a.1, content := a.2.content, filePath := f.path }
    else none

/-- `SELECT COUNT(*) FROM chunks WHERE vector_id IS NOT NULL`. -/
def alreadyEmbeddedCount (db : Db) : ℕ := db.chunks.rows.countP fun a => a.2.vectorId.isSome

/-- `UPDATE chunks SET vector_id = ?`, on the rows that `p` selects. -/
def setVectorId (db : Db) (p : ℕ → Bool) (v : Option Text) : Db :=
  { db with chunks := db.chunks.update fun i c => if p i then { c with vectorId := v } else c }

/-- `UPDATE chunks SET vector_id = NULL`. -/
def clearMarks (db : Db) : Db := setVectorId db (fun _ => true) none

/-- `UPDATE chunks SET vector_id = ?1 WHERE id = ?2`, with the id itself as the vector id. -/
def markChunk (db : Db) (id : ℕ) : Db := setVectorId db (fun i => i = id) (some (ofNat id))

variable {db : Db}

theorem mem_setVectorId {p : ℕ → Bool} {v : Option Text} {i : ℕ} {c : ChunkRow} :
    (i, c) ∈ (setVectorId db p v).chunks.rows ↔ ∃ c', (i, c') ∈ db.chunks.rows ∧
      c = if p i then { c' with vectorId := v } else c' :=
  RowTable.mem_update

@[simp] theorem ids_setVectorId (p : ℕ → Bool) (v : Option Text) :
    (setVectorId db p v).chunks.ids = db.chunks.ids :=
  RowTable.ids_update _ _

/-! ### Databases that differ only in marks -/

/-- `db'` is `db` up to vector ids and the `meta` table. -/
structure Remarked (db db' : Db) : Prop where
  files : db'.files = db.files
  symbols : db'.symbols = db.symbols
  chunks : ∃ v : ℕ × ChunkRow → Option Text,
    db'.chunks.rows = db.chunks.rows.map fun a => (a.1, { a.2 with vectorId := v a })

theorem Remarked.refl (db : Db) : Remarked db db :=
  ⟨rfl, rfl, fun a => a.2.vectorId, by simp⟩

theorem Remarked.trans {db db' db'' : Db} (h : Remarked db db') (h' : Remarked db' db'') :
    Remarked db db'' := by
  obtain ⟨v, hv⟩ := h.chunks
  obtain ⟨v', hv'⟩ := h'.chunks
  refine ⟨h'.files.trans h.files, h'.symbols.trans h.symbols,
    fun a => v' (a.1, { a.2 with vectorId := v a }), ?_⟩
  rw [hv', hv, List.map_map]
  rfl

theorem remarked_setVectorId (p : ℕ → Bool) (v : Option Text) : Remarked db (setVectorId db p v) := by
  refine ⟨rfl, rfl, fun a => if p a.1 then v else a.2.vectorId, ?_⟩
  refine List.map_congr_left fun a _ => Prod.ext rfl ?_
  dsimp only
  split_ifs
  · rfl
  · rfl

section
variable {db' : Db} (h : Remarked db db')
include h

theorem Remarked.mem {i : ℕ} {c : ChunkRow} (hc : (i, c) ∈ db.chunks.rows) :
    ∃ v, (i, { c with vectorId := v }) ∈ db'.chunks.rows := by
  obtain ⟨v, hv⟩ := h.chunks
  exact ⟨v (i, c), by rw [hv]; exact List.mem_map.mpr ⟨(i, c), hc, rfl⟩⟩

theorem Remarked.exists_mem {i : ℕ} {c : ChunkRow} (hc : (i, c) ∈ db'.chunks.rows) :
    ∃ c' v, (i, c') ∈ db.chunks.rows ∧ c = { c' with vectorId := v } := by
  obtain ⟨v, hv⟩ := h.chunks
  rw [hv] at hc
  obtain ⟨⟨j, c'⟩, hc', he⟩ := List.mem_map.mp hc
  obtain ⟨rfl, rfl⟩ := Prod.mk.inj he
  exact ⟨c', _, hc', rfl⟩

theorem Remarked.ids : db'.chunks.ids = db.chunks.ids := by
  obtain ⟨v, hv⟩ := h.chunks
  unfold RowTable.ids
  rw [hv, List.map_map]
  rfl

theorem Remarked.foreignKeys (hf : ForeignKeys db) : ForeignKeys db' := by
  refine ⟨?_, by rw [h.files, h.symbols]; exact hf.symbols⟩
  rintro ⟨i, c⟩ hc
  obtain ⟨c', v, hc', rfl⟩ := h.exists_mem hc
  rw [h.files]
  exact hf.chunks (i, c') hc'

end

/-! ### Pending chunks -/

/-- A pending chunk is an unmarked row with its file. -/
theorem mem_getPendingChunks {p : PendingChunk} : p ∈ getPendingChunks db ↔
    ∃ c f, (p.id, c) ∈ db.chunks.rows ∧ c.vectorId = none ∧ (c.fileId, f) ∈ db.files.rows ∧
      p.content = c.content ∧ p.filePath = f.path := by
  simp only [getPendingChunks, List.mem_filterMap]
  constructor
  · rintro ⟨⟨i, c⟩, hc, h⟩
    split_ifs at h with hv
    obtain ⟨f, hf, rfl⟩ := Option.map_eq_some_iff.mp h
    exact ⟨c, f, hc, hv, RowTable.get?_eq_some.mp hf, rfl, rfl⟩
  · rintro ⟨c, f, hc, hv, hf, h1, h2⟩
    refine ⟨(p.id, c), hc, ?_⟩
    rw [if_pos hv, RowTable.get?_eq_some.mpr hf]
    cases p
    simp only [Option.map_some, Option.some.injEq, PendingChunk.mk.injEq, true_and]
    exact ⟨h1.symm, h2.symm⟩

/-- The ids of pending chunks increase. -/
theorem pairwise_getPendingChunks : (getPendingChunks db).Pairwise fun p q => p.id < q.id := by
  refine List.Pairwise.filterMap _ ?_ db.chunks.sorted
  intro a a' haa p hp q hq
  have key : ∀ {a : ℕ × ChunkRow} {p : PendingChunk}, p ∈ (if a.2.vectorId = none then
      (db.files.get? a.2.fileId).map fun f =>
        ({ id := a.1, content := a.2.content, filePath := f.path } : PendingChunk)
      else none) → p.id = a.1 := by
    intro a p hp
    split_ifs at hp
    · obtain ⟨f, -, rfl⟩ := Option.map_eq_some_iff.mp hp
      rfl
    · simp at hp
  rw [key hp, key hq]
  exact haa

theorem nodup_pending_ids : ((getPendingChunks db).map PendingChunk.id).Nodup := by
  have h : ((getPendingChunks db).map PendingChunk.id).Pairwise (· < ·) :=
    List.pairwise_map.mpr pairwise_getPendingChunks
  exact h.imp fun h => h.ne

/-- With its foreign keys, every unmarked chunk is pending. -/
theorem exists_pending (h : ForeignKeys db) {i : ℕ} {c : ChunkRow} (hc : (i, c) ∈ db.chunks.rows)
    (hv : c.vectorId = none) : ∃ p ∈ getPendingChunks db, p.id = i := by
  obtain ⟨f, hf⟩ := RowTable.mem_ids.mp (h.chunks _ hc)
  exact ⟨⟨i, c.content, f.path⟩, mem_getPendingChunks.mpr ⟨c, f, hc, hv, hf, rfl, rfl⟩, rfl⟩

/-! ### Marks -/

/-- The chunks that have a vector id, each with it. -/
def marks (db : Db) : List (ℕ × Text) := db.chunks.rows.filterMap fun a => a.2.vectorId.map (a.1, ·)

/-- The mark that a chunk gets when its vector has been stored. -/
def PendingChunk.mark (p : PendingChunk) : ℕ × Text := (p.id, ofNat p.id)

theorem mem_marks {i : ℕ} {v : Text} :
    (i, v) ∈ marks db ↔ ∃ c, (i, c) ∈ db.chunks.rows ∧ c.vectorId = some v := by
  simp only [marks, List.mem_filterMap, Option.map_eq_some_iff, Prod.exists, Prod.mk.injEq]
  constructor
  · rintro ⟨j, c, hc, w, hw, rfl, rfl⟩; exact ⟨c, hc, hw⟩
  · rintro ⟨c, hc, hv⟩; exact ⟨i, c, hc, v, hv, rfl, rfl⟩

theorem pairwise_marks (db : Db) : (marks db).Pairwise fun a b => a.1 < b.1 := by
  refine List.Pairwise.filterMap _ ?_ db.chunks.sorted
  intro a a' haa b hb b' hb'
  obtain ⟨v, -, rfl⟩ := Option.map_eq_some_iff.mp hb
  obtain ⟨v', -, rfl⟩ := Option.map_eq_some_iff.mp hb'
  exact haa

/-- Marks stand in the order of the ids, so it is enough to know which there are. -/
theorem marks_eq_iff {l : List (ℕ × Text)} (hl : l.Pairwise fun a b => a.1 < b.1) :
    marks db = l ↔ ∀ a, a ∈ marks db ↔ a ∈ l := by
  have : Std.Antisymm fun a b : ℕ × Text => a.1 < b.1 := ⟨fun a b h h' => absurd h h'.asymm⟩
  have : Std.Irrefl fun a b : ℕ × Text => a.1 < b.1 := ⟨fun a => lt_irrefl a.1⟩
  exact ⟨fun h a => by rw [h], fun h => (pairwise_marks db).eq_of_mem_iff hl h⟩

theorem marks_congr {db' : Db} (h : db.chunks = db'.chunks) : marks db = marks db' := by
  unfold marks
  rw [h]

@[simp] theorem marks_clearMarks (db : Db) : marks (clearMarks db) = [] := by
  refine List.eq_nil_iff_forall_not_mem.mpr fun a ha => ?_
  obtain ⟨c, hc, hv⟩ := mem_marks.mp ha
  obtain ⟨c', -, rfl⟩ := mem_setVectorId.mp hc
  simp at hv

end BrainEngine.Core.Embedding
