import BrainEngine.Core.Chunking
import BrainEngine.Core.Symbols
import BrainEngine.Core.Walk
import BrainEngine.Core.Database

/-! # Incremental project indexer

`indexProject` classifies every candidate file against the rows of the last run and then persists
the outcome in one transaction: a run that fails has no database, and the old one stays. -/

namespace BrainEngine.Core.Index

open BrainEngine.Rust.Str BrainEngine.Lib.Rowid BrainEngine.Core.External BrainEngine.Core.Config
open BrainEngine.Core.Chunking BrainEngine.Core.Symbols BrainEngine.Core.Walk
open BrainEngine.Core.Database

/-- Summary of an indexing run. -/
structure IndexStats where
  scanned : ℕ := 0
  indexed : ℕ := 0
  unchanged : ℕ := 0
  removed : ℕ := 0
  chunksWritten : ℕ := 0
  skippedBinary : ℕ := 0
  skippedLarge : ℕ := 0
  skippedExcluded : ℕ := 0
  deriving DecidableEq

/-- Payload for a file whose content changed and must be (re)written. -/
structure ChangedFile where
  hash : Text
  size : UInt64
  mtime : ℕ
  lang : Option Text
  chunks : List Chunk
  symbols : List ExtractedSymbol

/-- Per-file outcome computed before the write phase. -/
inductive FileWork
  | unchanged
  | touched (size : UInt64) (mtime : ℕ)
  | changed (changed : ChangedFile)
  | skippedBinary

/-- Snapshot of a file row used for change detection. -/
structure ExistingFile where
  id : ℕ
  hash : Text
  size : UInt64
  mtime : ℕ

/-! ### Content and language -/

/-- A NUL byte in the first 8 KiB. -/
def isProbablyBinary (bytes : List UInt8) : Bool := (bytes.take 8192).contains 0

/-- The text of a file, unless it is binary. -/
def textOf (bytes : List UInt8) : Option Text :=
  if isProbablyBinary bytes then none else fromUtf8 bytes

/-- `Path::extension`, for a path of components joined by `/`. -/
def extension (path : Text) : Option Text :=
  let name := path.reverse.takeWhile (· ≠ '/')
  let ext := name.takeWhile (· ≠ '.')
  -- what stands before the last dot of the file name; it is empty for `.gitignore`
  if (name.drop (ext.length + 1)).isEmpty then none else some ext.reverse

def languages : List (List String × String) := [
  (["rs"], "rust"), (["ts", "tsx"], "typescript"), (["js", "jsx", "mjs", "cjs"], "javascript"),
  (["py"], "python"), (["go"], "go"), (["java"], "java"), (["kt", "kts"], "kotlin"),
  (["c", "h"], "c"), (["cc", "cpp", "cxx", "hpp"], "cpp"), (["rb"], "ruby"), (["php"], "php"),
  (["cs"], "csharp"), (["swift"], "swift"), (["scala"], "scala"), (["sh", "bash", "zsh"], "shell"),
  (["sql"], "sql"), (["md", "markdown"], "markdown"), (["json"], "json"), (["toml"], "toml"),
  (["yaml", "yml"], "yaml"), (["html", "htm"], "html"), (["css", "scss", "sass"], "css")]

/-- Best-effort language label from a file's extension. -/
def detectLanguage (relPath : Text) : Option Text := do
  let ext := toAsciiLowercase (← extension relPath)
  let entry ← languages.find? fun l => ext ∈ l.1.map String.toList
  return entry.2.toList

/-! ### Phase A: classification -/

/-- The current `files` rows, keyed by path. -/
def loadExisting (db : Db) : List (Text × ExistingFile) :=
  db.files.rows.map fun a =>
    (a.2.path, { id := a.1, hash := a.2.hash, size := a.2.sizeBytes.toUInt64, mtime := a.2.mtime })

/-- The payload of a file with this text. -/
def changedFile (x : Extern) (cfg : ProjectConfig) (entry : WalkEntry) (text : Text) :
    Except Failure ChangedFile := do
  let lang := detectLanguage entry.relPath
  let symbols ← extract x text lang
  return {
    hash := x.sha256Hex text, size := entry.size, mtime := entry.mtime, lang
    chunks := chunkText x text cfg.chunk, symbols }

/-- Classify one file. -/
def classify (x : Extern) (t : Tree) (cfg : ProjectConfig) (existing : List (Text × ExistingFile))
    (entry : WalkEntry) : Except Failure FileWork :=
  let prev := existing.lookup entry.relPath
  -- fast path: the file is not read
  if prev.any fun p => p.size = entry.size ∧ p.mtime = entry.mtime then .ok .unchanged
  else match t.read entry.absPath with
    | .error e => .error (.error (.io entry.absPath e))
    | .ok bytes =>
      match textOf bytes with
      | none => .ok .skippedBinary
      | some text =>
        if prev.any fun p => p.hash = x.sha256Hex text then .ok (.touched entry.size entry.mtime)
        else FileWork.changed <$> changedFile x cfg entry text

/-- The outcomes, or the first error. The files are classified in parallel, so a panic anywhere comes
before every error. -/
def surface (work : List (Text × Except Failure FileWork)) :
    Except Failure (List (Text × FileWork)) :=
  if work.any fun w => match w.2 with | .error .panic => true | _ => false then .error .panic
  else work.mapM fun w => (w.1, ·) <$> w.2

/-! ### Phase B: one transaction -/

def fileRow (relPath : Text) (c : ChangedFile) (now : ℕ) : FileRow where
  path := relPath
  hash := c.hash
  sizeBytes := c.size.toInt64
  mtime := c.mtime
  lang := c.lang
  chunkCount := c.chunks.length
  indexedAt := now

def chunkRow (fileId now : ℕ) (ch : Chunk) : ChunkRow where
  fileId := fileId
  ordinal := ch.ordinal
  startLine := ch.startLine
  endLine := ch.endLine
  content := ch.content
  contentHash := ch.contentHash
  tokenEstimate := ch.tokenEstimate
  vectorId := none
  createdAt := now

def symbolRow (fileId : ℕ) (s : ExtractedSymbol) : SymbolRow where
  fileId := fileId
  name := s.name
  kind := s.kind
  signature := s.signature
  startLine := s.startLine
  endLine := s.endLine
  visibility := s.visibility
  doc := s.doc

/-- `symbols::replace_for_file`: `DELETE FROM symbols WHERE file_id = ?` and the inserts. -/
def replaceForFile (symbols : RowTable SymbolRow) (fileId : ℕ) (ss : List ExtractedSymbol) :
    RowTable SymbolRow :=
  symbols.replace SymbolRow.fileId fileId (ss.map (symbolRow fileId))

/-- `DELETE FROM chunks WHERE file_id = ?` and the inserts: a changed file's chunks are replaced
wholesale. -/
def replaceChunks (chunks : RowTable ChunkRow) (fileId now : ℕ) (cs : List Chunk) :
    RowTable ChunkRow :=
  chunks.replace ChunkRow.fileId fileId (cs.map (chunkRow fileId now))

/-- Upsert a changed file and replace its chunks. -/
def writeChanged (relPath : Text) (c : ChangedFile) (now : ℕ) (db : Db) : Db :=
  let u := upsertFile db.files (fileRow relPath c now)
  { db with
    files := u.1
    symbols := replaceForFile db.symbols u.2 c.symbols
    chunks := replaceChunks db.chunks u.2 now c.chunks }

/-- `UPDATE files SET size_bytes, mtime, indexed_at WHERE path = ?`. -/
def touchFile (relPath : Text) (size : UInt64) (mtime now : ℕ) (db : Db) : Db :=
  { db with
    files := db.files.update fun _ r =>
      if r.path = relPath then { r with sizeBytes := size.toInt64, mtime, indexedAt := now } else r }

/-- What the transaction writes for one classified file. -/
def persist (now : ℕ) (db : Db) (w : Text × FileWork) : Db :=
  match w.2 with
  | .unchanged => db
  | .skippedBinary => db
  | .touched size mtime => touchFile w.1 size mtime now db
  | .changed c => writeChanged w.1 c now db

/-- What one classified file adds to the summary. -/
def count (stats : IndexStats) (w : Text × FileWork) : IndexStats :=
  match w.2 with
  | .unchanged => { stats with unchanged := stats.unchanged + 1 }
  | .skippedBinary => { stats with skippedBinary := stats.skippedBinary + 1 }
  | .touched _ _ => { stats with unchanged := stats.unchanged + 1 }
  | .changed c => { stats with
      indexed := stats.indexed + 1
      chunksWritten := stats.chunksWritten + c.chunks.length }

/-- The rows of the last run whose files were not seen. -/
def vanished (existing : List (Text × ExistingFile)) (seen : List Text) : List ℕ :=
  (existing.filter fun p => !seen.contains p.1).map fun p => p.2.id

/-- Persist the outcomes within a single transaction. The rows of vanished files are removed in table
order; the source's hash map has them in any order, and the deletions commute. -/
def transaction (now : ℕ) (classified : List (Text × FileWork)) (db : Db) : Db :=
  (vanished (loadExisting db) (classified.map Prod.fst)).foldl deleteFile
    (classified.foldl (persist now) db)

/-- Index (or re-index) a project directory. -/
def indexProject (x : Extern) (t : Tree) (cfg : ProjectConfig) (now : ℕ) (db : Db) :
    Except Failure (Db × IndexStats) := do
  let outcome ← walk x t cfg
  let existing := loadExisting db
  let classified ← surface (outcome.entries.map fun entry =>
    (entry.relPath, classify x t cfg existing entry))
  let stats : IndexStats := {
    scanned := outcome.entries.length
    skippedLarge := outcome.skippedLarge
    skippedExcluded := outcome.skippedExcluded }
  let stats := classified.foldl count stats
  return (transaction now classified db,
    { stats with removed := (vanished existing (classified.map Prod.fst)).length })

/-- The database after a run: a run that fails leaves it unchanged. -/
def runIndex (x : Extern) (t : Tree) (cfg : ProjectConfig) (now : ℕ) (db : Db) : Db :=
  match indexProject x t cfg now db with
  | .ok (db', _) => db'
  | .error _ => db

end BrainEngine.Core.Index
