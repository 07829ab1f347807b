import BrainEngine.Core.Index

/-! # What the index says about each file

`docAt db path` is what the tables say about the file at `path`, without row ids and times. In a
database that is `WellFormed` the tables are this map and nothing else: paths are unique and no chunk
or symbol row is outside a file. Each write of the transaction is an update of the map at one path;
`persist_docAt` and `docAt_removeVanished` put the writes of a run together. -/

namespace BrainEngine.Core.Docs

open BrainEngine.Rust.Str BrainEngine.Lib.Rowid BrainEngine.Core.External BrainEngine.Core.Config
open BrainEngine.Core.Chunking BrainEngine.Core.Symbols BrainEngine.Core.Walk
open BrainEngine.Core.Database BrainEngine.Core.Index

/-- The entry of a file: its row and what belongs to it, without ids and times. -/
structure Doc where
  hash : Text
  sizeBytes : Int64
  mtime : ℕ
  lang : Option Text
  chunkCount : ℕ
  chunks : List Chunk
  symbols : List ExtractedSymbol
  deriving DecidableEq

def chunkOf (r : ChunkRow) : Chunk where
  ordinal := r.ordinal
  startLine := r.startLine
  endLine := r.endLine
  content := r.content
  contentHash := r.contentHash
  tokenEstimate := r.tokenEstimate

def symbolOf (r : SymbolRow) : ExtractedSymbol where
  name := r.name
  kind := r.kind
  signature := r.signature
  startLine := r.startLine
  endLine := r.endLine
  visibility := r.visibility
  doc := r.doc

def docOf (db : Db) (a : ℕ × FileRow) : Doc where
  hash := a.2.hash
  sizeBytes := a.2.sizeBytes
  mtime := a.2.mtime
  lang := a.2.lang
  chunkCount := a.2.chunkCount
  chunks := (chunksOf db a.1).map chunkOf
  symbols := (symbolsOf db a.1).map symbolOf

/-- The entries of all files, with their paths. -/
def docs (db : Db) : List (Text × Doc) := db.files.rows.map fun a => (a.2.path, docOf db a)

def docAt (db : Db) (path : Text) : Option Doc := (docs db).lookup path

/-- Paths are unique and no row belongs to a missing file. -/
structure WellFormed (db : Db) : Prop where
  paths : (db.files.rows.map fun a => a.2.path).Nodup
  keys : ForeignKeys db

theorem wellFormed_empty : WellFormed Db.empty :=
  ⟨List.nodup_nil, fun a h => absurd h (by simp [Db.empty]), fun a h => absurd h (by simp [Db.empty])⟩

theorem lookup_eq_some_iff {α β : Type} [BEq α] [LawfulBEq α] {l : List (α × β)}
    (h : (l.map Prod.fst).Nodup) {a : α} {b : β} : l.lookup a = some b ↔ (a, b) ∈ l := by
  induction l with
  | nil => simp
  | cons p l ih =>
    rw [List.map_cons, List.nodup_cons] at h
    rw [List.lookup_cons, List.mem_cons]
    by_cases hp : a = p.1
    · have hnot : (a, b) ∉ l := fun hm => h.1 (List.mem_map.mpr ⟨_, hm, hp⟩)
      simp [hp, Prod.ext_iff, eq_comm, hp ▸ hnot]
    · have hb : (a == p.1) = false := by simpa using hp
      rw [hb, ih h.2]
      simp [Prod.ext_iff, hp]

theorem lookup_eq_none_iff {α β : Type} [BEq α] [LawfulBEq α] {l : List (α × β)} {a : α} :
    l.lookup a = none ↔ a ∉ l.map Prod.fst := by
  rw [List.lookup_eq_none_iff]
  constructor
  · intro h hm
    obtain ⟨p, hp, rfl⟩ := List.mem_map.mp hm
    simpa using h p hp
  · intro h p hp
    have : a ≠ p.1 := fun e => h (List.mem_map.mpr ⟨p, hp, e.symm⟩)
    simpa using this

/-- Two maps are permutations of each other just if they agree at every key. -/
theorem perm_iff_lookup {α β : Type} [BEq α] [LawfulBEq α] {l l' : List (α × β)}
    (h : (l.map Prod.fst).Nodup) (h' : (l'.map Prod.fst).Nodup) :
    l.Perm l' ↔ ∀ a, l.lookup a = l'.lookup a := by
  rw [List.perm_ext_iff_of_nodup h.of_map h'.of_map]
  constructor
  · intro he a
    ext b
    rw [lookup_eq_some_iff h, lookup_eq_some_iff h', he]
  · rintro he ⟨a, b⟩
    rw [← lookup_eq_some_iff h, ← lookup_eq_some_iff h', he]

section
variable {db : Db} {path : Text} {d : Doc}

theorem nodup_docs (h : WellFormed db) : ((docs db).map Prod.fst).Nodup := by
  simpa [docs, Function.comp_def] using h.paths

/-- The entry at a path is that of the row with this path. -/
theorem docAt_eq_some (h : WellFormed db) :
    docAt db path = some d ↔ ∃ a ∈ db.files.rows, a.2.path = path ∧ docOf db a = d := by
  unfold docAt
  rw [lookup_eq_some_iff (nodup_docs h)]
  simp only [docs, List.mem_map, Prod.mk.injEq]

theorem docAt_of_mem (h : WellFormed db) {a : ℕ × FileRow} (ha : a ∈ db.files.rows) :
    docAt db a.2.path = some (docOf db a) :=
  (docAt_eq_some h).mpr ⟨a, ha, rfl, rfl⟩

/-- Two databases have the same entries just if they have the same entry at every path. -/
theorem perm_docs {db' : Db} (h : WellFormed db) (h' : WellFormed db') :
    (docs db).Perm (docs db') ↔ ∀ p, docAt db p = docAt db' p :=
  perm_iff_lookup (nodup_docs h) (nodup_docs h')

end

/-! ### Rewriting a file -/

@[simp] theorem chunkOf_chunkRow (fileId now : ℕ) (ch : Chunk) :
    chunkOf (chunkRow fileId now ch) = ch := rfl

@[simp] theorem symbolOf_symbolRow (fileId : ℕ) (s : ExtractedSymbol) :
    symbolOf (symbolRow fileId s) = s := rfl

/-- The entry that a payload becomes. -/
def newDoc (c : ChangedFile) : Doc where
  hash := c.hash
  sizeBytes := c.size.toInt64
  mtime := c.mtime
  lang := c.lang
  chunkCount := c.chunks.length
  chunks := c.chunks
  symbols := c.symbols

section
variable {db : Db} {path : Text} {c : ChangedFile} {now : ℕ}

/-- The id under which a payload is written. -/
def targetId (db : Db) (path : Text) (c : ChangedFile) (now : ℕ) : ℕ :=
  (upsertFile db.files (fileRow path c now)).2

theorem mem_files_writeChanged {i : ℕ} {r : FileRow} :
    (i, r) ∈ (writeChanged path c now db).files.rows ↔
      i = targetId db path c now ∧ r = fileRow path c now ∨
        i ≠ targetId db path c now ∧ (i, r) ∈ db.files.rows :=
  mem_upsertFile

theorem chunksOf_writeChanged (i : ℕ) : chunksOf (writeChanged path c now db) i =
    if i = targetId db path c now then c.chunks.map (chunkRow i now) else chunksOf db i := by
  have hown : ∀ r ∈ c.chunks.map (chunkRow (targetId db path c now) now),
      r.fileId = targetId db path c now := by simp [chunkRow]
  have h := RowTable.rowsOf_replace ChunkRow.fileId db.chunks hown i
  unfold chunksOf writeChanged replaceChunks
  refine h.trans ?_
  split_ifs with hi
  · rw [hi]
  · rfl

theorem symbolsOf_writeChanged (i : ℕ) : symbolsOf (writeChanged path c now db) i =
    if i = targetId db path c now then c.symbols.map (symbolRow i) else symbolsOf db i := by
  have hown : ∀ r ∈ c.symbols.map (symbolRow (targetId db path c now)),
      r.fileId = targetId db path c now := by simp [symbolRow]
  have h := RowTable.rowsOf_replace SymbolRow.fileId db.symbols hown i
  unfold symbolsOf writeChanged replaceForFile
  refine h.trans ?_
  split_ifs with hi
  · rw [hi]
  · rfl

/-- A chunk row after a rewrite was there and is not the file's, or is new. -/
theorem mem_chunks_writeChanged {i : ℕ} {r : ChunkRow}
    (h : (i, r) ∈ (writeChanged path c now db).chunks.rows) :
    (i, r) ∈ db.chunks.rows ∧ r.fileId ≠ targetId db path c now ∨
      ∃ ch ∈ c.chunks, r = chunkRow (targetId db path c now) now ch := by
  rcases RowTable.mem_replace ChunkRow.fileId h with h | ⟨-, h⟩
  · exact Or.inl h
  · obtain ⟨ch, hch, rfl⟩ := List.mem_map.mp h
    exact Or.inr ⟨ch, hch, rfl⟩

theorem wellFormed_writeChanged (h : WellFormed db) : WellFormed (writeChanged path c now db) := by
  have hid : ∀ i, i = targetId db path c now ∨ i ∈ db.files.ids →
      i ∈ (writeChanged path c now db).files.ids := by
    intro i hi
    by_cases hit : i = targetId db path c now
    · exact RowTable.mem_ids_of_mem (mem_files_writeChanged.mpr (Or.inl ⟨hit, rfl⟩))
    · obtain ⟨r, hr⟩ := RowTable.mem_ids.mp (hi.resolve_left hit)
      exact RowTable.mem_ids_of_mem (mem_files_writeChanged.mpr (Or.inr ⟨hit, hr⟩))
  refine ⟨nodup_paths_upsertFile _ h.paths, ?_, ?_⟩
  · rintro ⟨i, r⟩ hr
    rcases mem_chunks_writeChanged hr with ⟨hr, -⟩ | ⟨ch, -, rfl⟩
    · exact hid _ (Or.inr (h.keys.chunks _ hr))
    · exact hid _ (Or.inl rfl)
  · rintro ⟨i, r⟩ hr
    rcases RowTable.mem_replace SymbolRow.fileId hr with ⟨hr, -⟩ | ⟨-, hr⟩
    · exact hid _ (Or.inr (h.keys.symbols _ hr))
    · obtain ⟨s, -, rfl⟩ := List.mem_map.mp hr
      exact hid _ (Or.inl rfl)

/-- **A rewrite changes the entry of its path** and no other. -/
theorem docAt_writeChanged (h : WellFormed db) (q : Text) :
    docAt (writeChanged path c now db) q = if q = path then some (newDoc c) else docAt db q := by
  have h' : WellFormed (writeChanged path c now db) := wellFormed_writeChanged h
  have hdoc : ∀ a : ℕ × FileRow, a.1 ≠ targetId db path c now →
      docOf (writeChanged path c now db) a = docOf db a := by
    intro a ha
    simp [docOf, chunksOf_writeChanged, symbolsOf_writeChanged, ha]
  split_ifs with hq
  · refine (docAt_eq_some h').mpr ⟨(targetId db path c now, fileRow path c now),
      mem_files_writeChanged.mpr (Or.inl ⟨rfl, rfl⟩), hq.symm, ?_⟩
    simp [docOf, chunksOf_writeChanged, symbolsOf_writeChanged, newDoc, fileRow,
      Function.comp_def]
  · ext d
    rw [docAt_eq_some h', docAt_eq_some h]
    constructor
    · rintro ⟨⟨i, r⟩, ha, rfl, rfl⟩
      rcases mem_files_writeChanged.mp ha with ⟨-, rfl⟩ | ⟨hi, ha⟩
      · exact absurd rfl hq
      · exact ⟨(i, r), ha, rfl, (hdoc _ hi).symm⟩
    · rintro ⟨⟨i, r⟩, ha, rfl, rfl⟩
      have hi : i ≠ targetId db path c now := by
        rintro rfl
        exact hq (path_upsertFile ha)
      exact ⟨(i, r), mem_files_writeChanged.mpr (Or.inr ⟨hi, ha⟩), rfl, hdoc _ hi⟩

end

/-! ### Touching a file -/

section
variable {db : Db} {path : Text} {size : UInt64} {mtime now : ℕ}

theorem mem_files_touchFile {i : ℕ} {r : FileRow} :
    (i, r) ∈ (touchFile path size mtime now db).files.rows ↔ ∃ r', (i, r') ∈ db.files.rows ∧
      r = if r'.path = path then { r' with sizeBytes := size.toInt64, mtime, indexedAt := now } else r' :=
  RowTable.mem_update

theorem paths_touchFile : ((touchFile path size mtime now db).files.rows.map fun a => a.2.path) =
    db.files.rows.map fun a => a.2.path := by
  simp only [touchFile, RowTable.rows_update, List.map_map]
  refine List.map_congr_left fun a _ => ?_
  simp only [Function.comp_apply]
  split_ifs
  · rfl
  · rfl

theorem wellFormed_touchFile (h : WellFormed db) :
    WellFormed (touchFile path size mtime now db) := by
  have hids : (touchFile path size mtime now db).files.ids = db.files.ids := RowTable.ids_update _ _
  refine ⟨by rw [paths_touchFile]; exact h.paths, fun a ha => ?_, fun a ha => ?_⟩
  · rw [hids]; exact h.keys.chunks a ha
  · rw [hids]; exact h.keys.symbols a ha

theorem docAt_touchFile (h : WellFormed db) (q : Text) :
    docAt (touchFile path size mtime now db) q =
      if q = path then (docAt db q).map fun d => { d with sizeBytes := size.toInt64, mtime }
      else docAt db q := by
  ext d
  rw [docAt_eq_some (wellFormed_touchFile h)]
  split_ifs with hq
  · rw [Option.map_eq_some_iff]
    constructor
    · rintro ⟨⟨i, r⟩, ha, rfl, rfl⟩
      obtain ⟨r', hr', rfl⟩ := mem_files_touchFile.mp ha
      by_cases hp : r'.path = path
      · exact ⟨docOf db (i, r'), (docAt_eq_some h).mpr ⟨_, hr', by simp [hp], rfl⟩, by
          simp only [if_pos hp]; rfl⟩
      · rw [if_neg hp] at hq
        exact absurd hq hp
    · rintro ⟨d', hd', rfl⟩
      obtain ⟨⟨i, r'⟩, hr', rfl, rfl⟩ := (docAt_eq_some h).mp hd'
      exact ⟨(i, _), mem_files_touchFile.mpr ⟨r', hr', (if_pos hq).symm⟩, rfl, rfl⟩
  · rw [docAt_eq_some h]
    constructor
    · rintro ⟨⟨i, r⟩, ha, rfl, rfl⟩
      obtain ⟨r', hr', rfl⟩ := mem_files_touchFile.mp ha
      by_cases hp : r'.path = path
      · simp [hp] at hq
      · exact ⟨(i, r'), hr', by simp [hp], by simp only [if_neg hp]; rfl⟩
    · rintro ⟨⟨i, r⟩, ha, rfl, rfl⟩
      exact ⟨(i, r), mem_files_touchFile.mpr ⟨r, ha, (if_neg hq).symm⟩, rfl, rfl⟩

end

/-! ### Removing files -/

section
variable {db : Db}

theorem mem_files_deleteFile {id : ℕ} {a : ℕ × FileRow} :
    a ∈ (deleteFile db id).files.rows ↔ a ∈ db.files.rows ∧ a.1 ≠ id := by
  simp [deleteFile, List.mem_filter]

theorem mem_chunks_deleteFile {id : ℕ} {a : ℕ × ChunkRow} :
    a ∈ (deleteFile db id).chunks.rows ↔ a ∈ db.chunks.rows ∧ a.2.fileId ≠ id := by
  simp [deleteFile, List.mem_filter]

theorem mem_ids_deleteFile {id i : ℕ} (hi : i ∈ db.files.ids) (hne : i ≠ id) :
    i ∈ (deleteFile db id).files.ids := by
  obtain ⟨r, hr⟩ := RowTable.mem_ids.mp hi
  exact RowTable.mem_ids_of_mem (mem_files_deleteFile.mpr ⟨hr, hne⟩)

/-- The cascade keeps the foreign keys. -/
theorem wellFormed_deleteFile (h : WellFormed db) (id : ℕ) : WellFormed (deleteFile db id) := by
  refine ⟨h.paths.sublist (List.filter_sublist.map _), fun a ha => ?_, fun a ha => ?_⟩
  · obtain ⟨h1, h2⟩ := mem_chunks_deleteFile.mp ha
    exact mem_ids_deleteFile (h.keys.chunks a h1) h2
  · have ha' : a ∈ db.symbols.rows ∧ a.2.fileId ≠ id := by
      simpa [deleteFile, List.mem_filter] using ha
    exact mem_ids_deleteFile (h.keys.symbols a ha'.1) ha'.2

theorem docOf_deleteFile {id : ℕ} {a : ℕ × FileRow} (h : a.1 ≠ id) :
    docOf (deleteFile db id) a = docOf db a := by
  have hc : chunksOf (deleteFile db id) a.1 = chunksOf db a.1 := RowTable.rowsOf_deleteWhere h
  have hs : symbolsOf (deleteFile db id) a.1 = symbolsOf db a.1 := RowTable.rowsOf_deleteWhere h
  simp [docOf, hc, hs]

theorem wellFormed_deleteFiles (ids : List ℕ) (h : WellFormed db) :
    WellFormed (ids.foldl deleteFile db) := by
  induction ids generalizing db with
  | nil => exact h
  | cons id ids ih => exact ih (wellFormed_deleteFile h id)

theorem mem_files_deleteFiles {ids : List ℕ} {a : ℕ × FileRow} :
    a ∈ (ids.foldl deleteFile db).files.rows ↔ a ∈ db.files.rows ∧ a.1 ∉ ids := by
  induction ids generalizing db with
  | nil => simp
  | cons id ids ih =>
    rw [List.foldl_cons, ih, mem_files_deleteFile, List.mem_cons]
    tauto

theorem mem_chunks_deleteFiles {ids : List ℕ} {a : ℕ × ChunkRow} :
    a ∈ (ids.foldl deleteFile db).chunks.rows ↔ a ∈ db.chunks.rows ∧ a.2.fileId ∉ ids := by
  induction ids generalizing db with
  | nil => simp
  | cons id ids ih =>
    rw [List.foldl_cons, ih, mem_chunks_deleteFile, List.mem_cons]
    tauto

theorem docOf_deleteFiles {ids : List ℕ} {a : ℕ × FileRow} (h : a.1 ∉ ids) :
    docOf (ids.foldl deleteFile db) a = docOf db a := by
  induction ids generalizing db with
  | nil => rfl
  | cons id ids ih =>
    rw [List.mem_cons, not_or] at h
    rw [List.foldl_cons, ih h.2, docOf_deleteFile h.1]

end

/-! ### A whole transaction -/

/-- What an outcome does to the entry of its file. -/
def persistAt (w : FileWork) (d : Option Doc) : Option Doc :=
  match w with
  | .unchanged => d
  | .skippedBinary => d
  | .touched size mtime => d.map fun d => { d with sizeBytes := size.toInt64, mtime }
  | .changed c => some (newDoc c)

section
variable {db : Db} {now : ℕ}

theorem wellFormed_persist (h : WellFormed db) (w : Text × FileWork) :
    WellFormed (persist now db w) := by
  obtain ⟨p, w⟩ := w
  cases w with
  | unchanged => exact h
  | skippedBinary => exact h
  | touched size mtime => exact wellFormed_touchFile h
  | changed c => exact wellFormed_writeChanged h

theorem docAt_persist (h : WellFormed db) (w : Text × FileWork) (q : Text) :
    docAt (persist now db w) q = if q = w.1 then persistAt w.2 (docAt db q) else docAt db q := by
  obtain ⟨p, w⟩ := w
  cases w with
  | unchanged => simp [persist, persistAt]
  | skippedBinary => simp [persist, persistAt]
  | touched size mtime => exact docAt_touchFile h q
  | changed c => exact docAt_writeChanged h q

variable (now) in
/-- File rows keep their id and path. -/
theorem mem_files_persist {i : ℕ} {r : FileRow} (h : (i, r) ∈ db.files.rows)
    (w : Text × FileWork) : ∃ r', (i, r') ∈ (persist now db w).files.rows ∧ r'.path = r.path := by
  obtain ⟨p, w⟩ := w
  cases w with
  | unchanged => exact ⟨r, h, rfl⟩
  | skippedBinary => exact ⟨r, h, rfl⟩
  | touched size mtime =>
    refine ⟨_, mem_files_touchFile.mpr ⟨r, h, rfl⟩, ?_⟩
    split_ifs
    · rfl
    · rfl
  | changed c =>
    by_cases hi : i = targetId db p c now
    · subst hi
      exact ⟨fileRow p c now, mem_files_writeChanged.mpr (Or.inl ⟨rfl, rfl⟩), (path_upsertFile h).symm⟩
    · exact ⟨r, mem_files_writeChanged.mpr (Or.inr ⟨hi, h⟩), rfl⟩

/-- A file row under an id was there with the same path, or has the path just written. -/
theorem mem_files_of_persist {i : ℕ} {r : FileRow} {w : Text × FileWork}
    (h : (i, r) ∈ (persist now db w).files.rows) :
    (∃ r', (i, r') ∈ db.files.rows ∧ r'.path = r.path) ∨ r.path = w.1 := by
  obtain ⟨p, w⟩ := w
  cases w with
  | unchanged => exact Or.inl ⟨r, h, rfl⟩
  | skippedBinary => exact Or.inl ⟨r, h, rfl⟩
  | touched size mtime =>
    obtain ⟨r', hr', rfl⟩ := mem_files_touchFile.mp h
    refine Or.inl ⟨r', hr', ?_⟩
    split_ifs
    · rfl
    · rfl
  | changed c =>
    rcases mem_files_writeChanged.mp h with ⟨-, rfl⟩ | ⟨-, h⟩
    · exact Or.inr rfl
    · exact Or.inl ⟨r, h, rfl⟩

variable (now) in
theorem wellFormed_persistAll (h : WellFormed db) (ws : List (Text × FileWork)) :
    WellFormed (ws.foldl (persist now) db) := by
  induction ws generalizing db with
  | nil => exact h
  | cons w ws ih => exact ih (wellFormed_persist h w)

variable (now) in
theorem mem_files_persistAll {i : ℕ} : ∀ (ws : List (Text × FileWork)) {db : Db} {r : FileRow},
    (i, r) ∈ db.files.rows → ∃ r', (i, r') ∈ (ws.foldl (persist now) db).files.rows ∧ r'.path = r.path
  | [], db, r, h => ⟨r, h, rfl⟩
  | w :: ws, db, r, h => by
    obtain ⟨r', h', hp'⟩ := mem_files_persist now h w
    obtain ⟨r'', h'', hp''⟩ := mem_files_persistAll ws h'
    exact ⟨r'', h'', hp''.trans hp'⟩

theorem mem_files_of_persistAll {i : ℕ} {r : FileRow} : ∀ (ws : List (Text × FileWork)) {db : Db},
    (i, r) ∈ (ws.foldl (persist now) db).files.rows →
      (∃ r', (i, r') ∈ db.files.rows ∧ r'.path = r.path) ∨ r.path ∈ ws.map Prod.fst
  | [], db, h => Or.inl ⟨r, h, rfl⟩
  | w :: ws, db, h => by
    rcases mem_files_of_persistAll ws h with ⟨r', h', hp'⟩ | h
    · rcases mem_files_of_persist h' with ⟨r'', h'', hp''⟩ | hp
      · exact Or.inl ⟨r'', h'', hp''.trans hp'⟩
      · exact Or.inr (List.mem_cons.mpr (Or.inl (hp'.symm.trans hp)))
    · exact Or.inr (List.mem_cons_of_mem _ h)

theorem mem_vanished {seen : List Text} {i : ℕ} : i ∈ vanished (loadExisting db) seen ↔
    ∃ r, (i, r) ∈ db.files.rows ∧ r.path ∉ seen := by
  simp only [vanished, loadExisting, List.mem_map, List.mem_filter, Prod.exists]
  constructor
  · rintro ⟨p, e, ⟨⟨j, r, hr, h1⟩, h2⟩, rfl⟩
    obtain ⟨rfl, rfl⟩ := Prod.mk.inj h1
    exact ⟨r, hr, by simpa using h2⟩
  · rintro ⟨r, hr, hp⟩
    exact ⟨_, _, ⟨⟨i, r, hr, rfl⟩, by simpa using hp⟩, rfl⟩

/-- After the writes, the rows to remove are those of the paths that were not seen. -/
theorem mem_vanished_iff {ws : List (Text × FileWork)} {i : ℕ} {r : FileRow}
    (h : (i, r) ∈ (ws.foldl (persist now) db).files.rows) :
    i ∈ vanished (loadExisting db) (ws.map Prod.fst) ↔ r.path ∉ ws.map Prod.fst := by
  rw [mem_vanished]
  constructor
  · rintro ⟨r0, h0, hp0⟩
    obtain ⟨r', h', hp'⟩ := mem_files_persistAll now ws h0
    rw [RowTable.row_unique h h', hp']
    exact hp0
  · intro hp
    rcases mem_files_of_persistAll ws h with ⟨r', h', hp'⟩ | h
    · exact ⟨r', h', by rwa [hp']⟩
    · exact absurd h hp

theorem wellFormed_transaction (h : WellFormed db) (ws : List (Text × FileWork)) :
    WellFormed (transaction now ws db) :=
  wellFormed_deleteFiles _ (wellFormed_persistAll now h ws)

/-- The removals drop the entries of the paths that were not seen. -/
theorem docAt_removeVanished (h : WellFormed db) (ws : List (Text × FileWork)) (q : Text) :
    docAt (transaction now ws db) q =
      if q ∈ ws.map Prod.fst then docAt (ws.foldl (persist now) db) q else none := by
  have h1 := wellFormed_persistAll now h ws
  ext d
  rw [docAt_eq_some (wellFormed_transaction h ws)]
  constructor
  · rintro ⟨⟨i, r⟩, ha, rfl, rfl⟩
    obtain ⟨ha, hi⟩ := mem_files_deleteFiles.mp ha
    have hp := (mem_vanished_iff ha).not.mp hi
    rw [if_pos (not_not.mp hp)]
    exact (docAt_eq_some h1).mpr ⟨(i, r), ha, rfl, (docOf_deleteFiles hi).symm⟩
  · intro hd
    split_ifs at hd with hq
    obtain ⟨⟨i, r⟩, ha, rfl, rfl⟩ := (docAt_eq_some h1).mp hd
    have hi := (mem_vanished_iff ha).not.mpr (not_not.mpr hq)
    exact ⟨(i, r), mem_files_deleteFiles.mpr ⟨ha, hi⟩, rfl, docOf_deleteFiles hi⟩

theorem docAt_persistAll (q : Text) : ∀ (ws : List (Text × FileWork)) {db : Db}, WellFormed db →
    (ws.map Prod.fst).Nodup → docAt (ws.foldl (persist now) db) q =
      match ws.lookup q with
      | some w => persistAt w (docAt db q)
      | none => docAt db q
  | [], db, _, _ => rfl
  | w :: ws, db, h, hn => by
    rw [List.map_cons, List.nodup_cons] at hn
    rw [List.foldl_cons, docAt_persistAll q ws (wellFormed_persist h w) hn.2, docAt_persist h,
      List.lookup_cons]
    by_cases hq : q = w.1
    · have hnone : ws.lookup q = none := lookup_eq_none_iff.mpr (hq ▸ hn.1)
      have hb : (q == w.1) = true := by simpa using hq
      rw [hnone, hb, if_pos hq]
    · have hb : (q == w.1) = false := by simpa using hq
      rw [hb, if_neg hq]

/-- **The index after a run over different paths**: each outcome acts on the entry of its file, and
there is no other entry. -/
theorem docAt_transaction (h : WellFormed db) {ws : List (Text × FileWork)}
    (hn : (ws.map Prod.fst).Nodup) (q : Text) :
    docAt (transaction now ws db) q = (ws.lookup q).bind fun w => persistAt w (docAt db q) := by
  rw [docAt_removeVanished h, docAt_persistAll q ws h hn]
  cases hl : ws.lookup q with
  | none =>
    rw [if_neg (lookup_eq_none_iff.mp hl)]
    rfl
  | some w =>
    have hm : (q, w) ∈ ws := (lookup_eq_some_iff hn).mp hl
    rw [if_pos (List.mem_map.mpr ⟨_, hm, rfl⟩)]
    rfl

/-- **What holds of every entry**: a property that refreshing the size and the time keeps and that
the written payloads have. -/
theorem docAt_transaction_inv {P : Text → Doc → Prop} (h : WellFormed db)
    {ws : List (Text × FileWork)} (h0 : ∀ p d, docAt db p = some d → P p d)
    (htouch : ∀ p d (size : UInt64) mtime, P p d → P p { d with sizeBytes := size.toInt64, mtime })
    (hnew : ∀ p c, (p, FileWork.changed c) ∈ ws → P p (newDoc c)) {p : Text} {d : Doc}
    (hd : docAt (transaction now ws db) p = some d) : P p d := by
  rw [docAt_removeVanished h] at hd
  split_ifs at hd
  clear * - h h0 htouch hnew hd
  induction ws generalizing db with
  | nil => exact h0 p d hd
  | cons w ws ih =>
    refine ih (wellFormed_persist h w) ?_ (fun q c hc => hnew q c (List.mem_cons_of_mem _ hc)) hd
    intro q e he
    rw [docAt_persist h] at he
    split_ifs at he with hq
    · obtain ⟨p', w⟩ := w
      subst hq
      cases w with
      | unchanged => exact h0 _ _ he
      | skippedBinary => exact h0 _ _ he
      | touched size mtime =>
        obtain ⟨e', he', rfl⟩ := Option.map_eq_some_iff.mp he
        exact htouch _ _ _ _ (h0 _ _ he')
      | changed c =>
        rw [← Option.some.inj he]
        exact hnew _ c List.mem_cons_self
    · exact h0 _ _ he

end

end BrainEngine.Core.Docs
