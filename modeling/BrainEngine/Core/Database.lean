import BrainEngine.Lib.Rowid
import BrainEngine.Rust.Str

/-! # The metadata database

The tables `meta`, `files`, `chunks` and `symbols` with the columns of the schema. `files`, `chunks`
and `symbols` have an `INTEGER PRIMARY KEY` without `AUTOINCREMENT`: they are `RowTable`s. Deleting a
file cascades to its chunks and symbols. -/

namespace BrainEngine.Core.Database

open BrainEngine.Rust.Str BrainEngine.Lib.Rowid

structure FileRow where
  path : Text
  hash : Text
  sizeBytes : Int64
  mtime : ℕ
  lang : Option Text
  chunkCount : ℕ
  indexedAt : ℕ
  deriving DecidableEq

structure ChunkRow where
  fileId : ℕ
  ordinal : ℕ
  startLine : ℕ
  endLine : ℕ
  content : Text
  contentHash : Text
  tokenEstimate : ℕ
  /-- Set when the chunk's vector has been stored. -/
  vectorId : Option Text
  createdAt : ℕ
  deriving DecidableEq

structure SymbolRow where
  fileId : ℕ
  name : Text
  kind : Text
  signature : Option Text
  startLine : ℕ
  endLine : ℕ
  visibility : Option Text
  doc : Option Text
  deriving DecidableEq

structure Db where
  metaTable : List (Text × Text)
  files : RowTable FileRow
  chunks : RowTable ChunkRow
  symbols : RowTable SymbolRow

/-- The database of a fresh project. -/
def Db.empty : Db := ⟨[], .empty, .empty, .empty⟩

/-! ### Meta -/

/-- Read a value from the `meta` table. -/
def getMeta (db : Db) (key : Text) : Option Text := db.metaTable.lookup key

/-- `INSERT … ON CONFLICT(key) DO UPDATE` on the pairs of the table. -/
def upsertPair (key value : Text) : List (Text × Text) → List (Text × Text)
  | [] => [(key, value)]
  | (k, v) :: rest => if k = key then (k, value) :: rest else (k, v) :: upsertPair key value rest

/-- Upsert a value into the `meta` table. -/
def setMeta (db : Db) (key value : Text) : Db :=
  { db with metaTable := upsertPair key value db.metaTable }

theorem lookup_upsertPair (key value key' : Text) : ∀ l : List (Text × Text),
    (upsertPair key value l).lookup key' = if key' = key then some value else l.lookup key'
  | [] => by
    by_cases h : key' = key
    · simp [upsertPair, h]
    · have hb : (key' == key) = false := by simpa using h
      simp [upsertPair, h, List.lookup_cons, hb]
  | (k, v) :: rest => by
    have ih := lookup_upsertPair key value key' rest
    unfold upsertPair
    by_cases hk : k = key
    · subst hk
      by_cases h : key' = k
      · simp [h]
      · have hb : (key' == k) = false := by simpa using h
        simp [h, List.lookup_cons, hb]
    · rw [if_neg hk, List.lookup_cons, List.lookup_cons, ih]
      by_cases h : key' = key
      · have hb : (key == k) = false := by
          simpa using fun e : key = k => hk e.symm
        rw [h, hb, if_pos rfl]
      · rw [if_neg h, if_neg h]

@[simp] theorem getMeta_setMeta (db : Db) (key value key' : Text) :
    getMeta (setMeta db key value) key' = if key' = key then some value else getMeta db key' :=
  lookup_upsertPair key value key' db.metaTable

theorem getMeta_congr {db db' : Db} (h : db'.metaTable = db.metaTable) (key : Text) :
    getMeta db' key = getMeta db key := by
  unfold getMeta
  rw [h]

/-! ### Files and what belongs to them -/

/-- `INSERT INTO files … ON CONFLICT(path) DO UPDATE` and the `SELECT id` after it: the row of that
path is overwritten in place, or a new row is added. -/
def upsertFile (files : RowTable FileRow) (row : FileRow) : RowTable FileRow × ℕ :=
  match files.rows.find? fun a => a.2.path = row.path with
  | some (id, _) => (files.update fun i r => if i = id then row else r, id)
  | none => (files.insert row, files.maxId + 1)

/-- **The rows after the upsert**: the new one under its id, and the others as they were. -/
theorem mem_upsertFile {files : RowTable FileRow} {row : FileRow} {i : ℕ} {r : FileRow} :
    (i, r) ∈ (upsertFile files row).1.rows ↔
      i = (upsertFile files row).2 ∧ r = row ∨ i ≠ (upsertFile files row).2 ∧ (i, r) ∈ files.rows := by
  unfold upsertFile
  split
  · next id r' hf =>
    have hid : (id, r') ∈ files.rows := List.mem_of_find?_eq_some hf
    simp only [RowTable.mem_update]
    constructor
    · rintro ⟨r'', h, rfl⟩
      split_ifs with hi
      · exact Or.inl ⟨hi, rfl⟩
      · exact Or.inr ⟨hi, h⟩
    · rintro (⟨rfl, rfl⟩ | ⟨hi, h⟩)
      · exact ⟨r', hid, by rw [if_pos rfl]⟩
      · exact ⟨r, h, by rw [if_neg hi]⟩
  · simp only [RowTable.rows_insert, List.mem_append, List.mem_singleton, Prod.mk.injEq]
    have hfresh : ∀ r, (files.maxId + 1, r) ∉ files.rows := fun r h =>
      RowTable.maxId_succ_notMem files 0 (RowTable.mem_ids_of_mem h)
    constructor
    · rintro (h | h)
      · exact Or.inr ⟨fun hi => hfresh r (hi ▸ h), h⟩
      · exact Or.inl h
    · rintro (h | ⟨-, h⟩)
      · exact Or.inr h
      · exact Or.inl h

/-- The row that is overwritten has the path of the new one. -/
theorem path_upsertFile {files : RowTable FileRow} {row r : FileRow}
    (h : ((upsertFile files row).2, r) ∈ files.rows) : r.path = row.path := by
  unfold upsertFile at h
  split at h
  · next id r' hf =>
    have hp : r'.path = row.path := by simpa using List.find?_some hf
    rw [RowTable.row_unique h (List.mem_of_find?_eq_some hf), hp]
  · exact absurd (RowTable.mem_ids_of_mem h) (RowTable.maxId_succ_notMem files 0)

theorem nodup_paths_upsertFile {files : RowTable FileRow} (row : FileRow)
    (hu : (files.rows.map fun a => a.2.path).Nodup) :
    ((upsertFile files row).1.rows.map fun a => a.2.path).Nodup := by
  unfold upsertFile
  split
  · next id r' hf =>
    have hp' : r'.path = row.path := by simpa using List.find?_some hf
    have hmap : (files.rows.map fun a => (if a.1 = id then row else a.2).path) =
        files.rows.map fun a => a.2.path := by
      refine List.map_congr_left fun a ha => ?_
      split_ifs with hi
      · have : a.2 = r' := RowTable.row_unique (t := files) (i := id) (hi ▸ ha)
          (List.mem_of_find?_eq_some hf)
        rw [this, hp']
      · rfl
    simpa [Function.comp_def, hmap] using hu
  · next hf =>
    rw [RowTable.rows_insert, List.map_append, List.map_singleton]
    refine List.nodup_append.mpr ⟨hu, List.nodup_singleton _, ?_⟩
    intro p hp q hq hpq
    obtain ⟨a, ha, rfl⟩ := List.mem_map.mp hp
    rw [List.mem_singleton] at hq
    exact List.find?_eq_none.mp hf a ha (by simp [hpq, hq])

/-- `DELETE FROM files WHERE id = ?`, with `ON DELETE CASCADE`. -/
def deleteFile (db : Db) (id : ℕ) : Db :=
  { db with
    files := db.files.deleteWhere fun i _ => i = id
    chunks := db.chunks.deleteWhere fun _ c => c.fileId = id
    symbols := db.symbols.deleteWhere fun _ s => s.fileId = id }

/-- The chunk rows of a file, in id order. -/
def chunksOf (db : Db) (id : ℕ) : List ChunkRow := db.chunks.rowsOf ChunkRow.fileId id

/-- The symbol rows of a file, in id order. -/
def symbolsOf (db : Db) (id : ℕ) : List SymbolRow := db.symbols.rowsOf SymbolRow.fileId id

/-- No chunk or symbol row belongs to a missing file. -/
structure ForeignKeys (db : Db) : Prop where
  chunks : ∀ a ∈ db.chunks.rows, a.2.fileId ∈ db.files.ids
  symbols : ∀ a ∈ db.symbols.rows, a.2.fileId ∈ db.files.ids

end BrainEngine.Core.Database
