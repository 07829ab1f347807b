import BrainEngine.Core.Database
import BrainEngine.Lib.Ranked
import Mathlib.Data.List.Lex
import Mathlib.Data.Prod.Lex

/-! # Symbol search

`search` makes one SQL query of its optional filters. In which order SQLite gives rows that
`ORDER BY` does not tell apart is not said: `Searches` holds of each list the query may answer. -/

namespace BrainEngine.Core.SymbolSearch

open BrainEngine.Rust.Str BrainEngine.Lib.Ranked BrainEngine.Core.Database

/-- A persisted symbol with its file path. -/
structure SymbolRecord where
  file : Text
  name : Text
  kind : Text
  signature : Option Text
  startLine : ℕ
  endLine : ℕ
  visibility : Option Text
  doc : Option Text
  deriving DecidableEq

def symbolRecord (path : Text) (s : SymbolRow) : SymbolRecord where
  file := path
  name := s.name
  kind := s.kind
  signature := s.signature
  startLine := s.startLine
  endLine := s.endLine
  visibility := s.visibility
  doc := s.doc

/-- `FROM symbols s JOIN files f ON f.id = s.file_id`. -/
def joined (db : Db) : List SymbolRecord :=
  db.symbols.rows.flatMap fun s =>
    (db.files.rows.filter fun f => f.1 = s.2.fileId).map fun f => symbolRecord f.2.path s.2

/-- `s LIKE pattern` in SQLite: `%` is any text, `_` any character, and the letters of ASCII are the
same in both cases. -/
def like : Text → Text → Bool
  | [], s => s.isEmpty
  | c :: pattern, s =>
    if c = '%' then s.tails.any (like pattern)
    else
      match s with
      | [] => false
      | d :: s => (c = '_' || c.toLower == d.toLower) && like pattern s

/-- `(s.name = ?1 OR s.name LIKE ?2)` and `s.kind = ?3`, each only if it is asked for. -/
def clauses (name kind : Option Text) (r : SymbolRecord) : Bool :=
  (match name with
    | some n => r.name = n || like ('%' :: n ++ ['%']) r.name
    | none => true) &&
  (match kind with
    | some k => r.kind = k
    | none => true)

/-- `f.path, s.start_line`. -/
def location (r : SymbolRecord) : Text ×ₗ ℕ := toLex (r.file, r.startLine)

/-- `ORDER BY CASE WHEN s.name = ?1 THEN 0 ELSE 1 END, f.path, s.start_line`. -/
def orderKey (name : Option Text) (r : SymbolRecord) : ℕ ×ₗ (Text ×ₗ ℕ) :=
  toLex (if r.name = name.getD [] then 0 else 1, location r)

/-- `limit.max(1).min(200)`. -/
def clampLimit (limit : ℕ) : ℕ := min (max limit 1) 200

/-- The rows that the query is about. -/
def candidates (db : Db) (name kind : Option Text) : List SymbolRecord :=
  (joined db).filter (clauses name kind)

/-- `search` may answer `result`. -/
def Searches (db : Db) (name kind : Option Text) (limit : ℕ) (result : List SymbolRecord) : Prop :=
  Selects (orderKey name) (candidates db name kind) (clampLimit limit) result

example : like "%o_b%".toList "FooXBar".toList = true := by decide

end BrainEngine.Core.SymbolSearch
