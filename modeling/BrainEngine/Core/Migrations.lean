import Mathlib.Data.Nat.Notation

/-! # The schema and its migrations

What `db.rs` does to the schema of the metadata database. `migrate` reads `user_version` once; its
statements are autocommitted one by one, and each version is written after the statements of its
migration. -/

namespace BrainEngine.Core.Migrations

structure Column where
  name : String
  /-- Type and constraints. -/
  decl : String
  deriving DecidableEq

structure Table where
  name : String
  columns : List Column
  constraints : List String := []
  deriving DecidableEq

structure Index where
  name : String
  table : String
  column : String
  deriving DecidableEq

structure Schema where
  tables : List Table
  indexes : List Index
  deriving DecidableEq

def Schema.empty : Schema := ⟨[], []⟩

def Schema.hasTable (s : Schema) (name : String) : Bool := s.tables.any fun t => t.name = name

def Schema.hasIndex (s : Schema) (name : String) : Bool := s.indexes.any fun i => i.name = name

inductive Stmt
  /-- `CREATE TABLE IF NOT EXISTS`. -/
  | createTable (t : Table)
  /-- `CREATE INDEX IF NOT EXISTS`. -/
  | createIndex (i : Index)
  /-- `ALTER TABLE … ADD COLUMN`. -/
  | addColumn (table : String) (c : Column)
  deriving DecidableEq

/-- What a statement does; there is no result where SQLite reports an error: no such table, or a
duplicate column. -/
def Stmt.apply : Stmt → Schema → Option Schema
  | .createTable t, s => if s.hasTable t.name then some s else some { s with tables := s.tables ++ [t] }
  | .createIndex i, s =>
    if s.hasIndex i.name then some s
    else if s.hasTable i.table then some { s with indexes := s.indexes ++ [i] }
    else none
  | .addColumn table c, s =>
    if s.tables.any fun t => t.name = table ∧ t.columns.all fun d => d.name ≠ c.name then
      some { s with tables := s.tables.map fun t =>
        if t.name = table then { t with columns := t.columns ++ [c] } else t }
    else none

/-! ### Migrations -/

def schemaVersion : ℕ := 4

def metaTable : Table where
  name := "meta"
  columns := [⟨"key", "TEXT PRIMARY KEY"⟩, ⟨"value", "TEXT NOT NULL"⟩]

def filesTable : Table where
  name := "files"
  columns := [
    ⟨"id", "INTEGER PRIMARY KEY"⟩, ⟨"path", "TEXT NOT NULL UNIQUE"⟩, ⟨"hash", "TEXT NOT NULL"⟩,
    ⟨"size_bytes", "INTEGER NOT NULL"⟩, ⟨"mtime", "INTEGER NOT NULL"⟩, ⟨"lang", "TEXT"⟩,
    ⟨"chunk_count", "INTEGER NOT NULL DEFAULT 0"⟩, ⟨"indexed_at", "INTEGER NOT NULL"⟩]

def chunksTable : Table where
  name := "chunks"
  columns := [
    ⟨"id", "INTEGER PRIMARY KEY"⟩,
    ⟨"file_id", "INTEGER NOT NULL REFERENCES files(id) ON DELETE CASCADE"⟩,
    ⟨"ordinal", "INTEGER NOT NULL"⟩, ⟨"start_line", "INTEGER NOT NULL"⟩,
    ⟨"end_line", "INTEGER NOT NULL"⟩, ⟨"content", "TEXT NOT NULL"⟩,
    ⟨"content_hash", "TEXT NOT NULL"⟩, ⟨"token_estimate", "INTEGER NOT NULL DEFAULT 0"⟩,
    ⟨"vector_id", "TEXT"⟩, ⟨"created_at", "INTEGER NOT NULL"⟩]
  constraints := ["UNIQUE(file_id, ordinal)"]

def cacheTable : Table where
  name := "cache"
  columns := [
    ⟨"key", "TEXT PRIMARY KEY"⟩, ⟨"response", "TEXT NOT NULL"⟩, ⟨"created_at", "INTEGER NOT NULL"⟩,
    ⟨"expires_at", "INTEGER"⟩]

def sessionsTable : Table where
  name := "sessions"
  columns := [
    ⟨"id", "TEXT PRIMARY KEY"⟩, ⟨"started_at", "INTEGER NOT NULL"⟩, ⟨"ended_at", "INTEGER"⟩]

def requestsTable : Table where
  name := "requests"
  columns := [
    ⟨"id", "INTEGER PRIMARY KEY"⟩,
    ⟨"session_id", "TEXT REFERENCES sessions(id) ON DELETE SET NULL"⟩,
    ⟨"timestamp", "INTEGER NOT NULL"⟩, ⟨"response_time_ms", "INTEGER"⟩,
    ⟨"context_tokens_estimated", "INTEGER"⟩, ⟨"tokens_saved_estimated", "INTEGER"⟩,
    ⟨"chunks_used", "INTEGER"⟩, ⟨"retrieval_time_ms", "INTEGER"⟩, ⟨"embedding_source", "TEXT"⟩,
    ⟨"llm_used", "TEXT"⟩, ⟨"cpu_usage_percent", "REAL"⟩, ⟨"memory_usage_mb", "INTEGER"⟩,
    ⟨"decision_reason", "TEXT"⟩, ⟨"cache_hit", "INTEGER"⟩]

def summariesTable : Table where
  name := "summaries"
  columns := [
    ⟨"id", "INTEGER PRIMARY KEY"⟩, ⟨"scope", "TEXT NOT NULL"⟩, ⟨"target", "TEXT NOT NULL"⟩,
    ⟨"summary", "TEXT NOT NULL"⟩, ⟨"source_hash", "TEXT NOT NULL"⟩,
    ⟨"token_estimate", "INTEGER NOT NULL DEFAULT 0"⟩, ⟨"model_used", "TEXT"⟩,
    ⟨"created_at", "INTEGER NOT NULL"⟩]
  constraints := ["UNIQUE(scope, target)"]

def symbolsTable : Table where
  name := "symbols"
  columns := [
    ⟨"id", "INTEGER PRIMARY KEY"⟩,
    ⟨"file_id", "INTEGER NOT NULL REFERENCES files(id) ON DELETE CASCADE"⟩,
    ⟨"name", "TEXT NOT NULL"⟩, ⟨"kind", "TEXT NOT NULL"⟩, ⟨"signature", "TEXT"⟩,
    ⟨"start_line", "INTEGER NOT NULL"⟩, ⟨"end_line", "INTEGER NOT NULL"⟩, ⟨"visibility", "TEXT"⟩,
    ⟨"doc", "TEXT"⟩]

/-- Initial schema. -/
def migrationV1 : List Stmt := [
  .createTable metaTable, .createTable filesTable, .createTable chunksTable,
  .createIndex ⟨"idx_chunks_file", "chunks", "file_id"⟩,
  .createTable cacheTable,
  .createIndex ⟨"idx_cache_expires", "cache", "expires_at"⟩,
  .createTable sessionsTable, .createTable requestsTable,
  .createIndex ⟨"idx_requests_session", "requests", "session_id"⟩]

/-- The column for semantic lookup. -/
def addQueryVector : Stmt := .addColumn "cache" ⟨"query_vector", "TEXT"⟩

/-- Semantic lookup. -/
def migrationV2 : List Stmt := [addQueryVector]

/-- Knowledge Digest summaries. -/
def migrationV3 : List Stmt := [
  .createTable summariesTable, .createIndex ⟨"idx_summaries_target", "summaries", "target"⟩]

/-- Code Map symbols. -/
def migrationV4 : List Stmt := [
  .createTable symbolsTable, .createIndex ⟨"idx_symbols_name", "symbols", "name"⟩,
  .createIndex ⟨"idx_symbols_file", "symbols", "file_id"⟩]

/-- A step of `migrate` after the version has been read. -/
inductive Step
  | execute (st : Stmt)
  | setVersion (version : ℕ)
  deriving DecidableEq

/-- The statements of one migration and the version after them. -/
def migration (version : ℕ) (sts : List Stmt) : List Step :=
  sts.map .execute ++ [.setVersion version]

/-- `migrate` on a database of this version: the outstanding migrations. -/
def migrate (version : ℕ) : List Step :=
  (if version < 1 then migration 1 migrationV1 else []) ++
    (if version < 2 then migration 2 migrationV2 else []) ++
    (if version < 3 then migration 3 migrationV3 else []) ++
    (if version < 4 then migration 4 migrationV4 else [])

end BrainEngine.Core.Migrations
