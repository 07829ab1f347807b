import BrainEngine.Core.External
import BrainEngine.Core.Migrations
import Mathlib.Logic.Function.Basic

/-! # Project initialisation

`initProject` creates what a project brain needs and is not there: its directories, the configuration
file, the database with the schema of today, and a line of `.gitignore`. Its calls change the project
directory one after the other, so what was changed before an error stays. -/

namespace BrainEngine.Core.Scaffold

open BrainEngine.Rust.Str BrainEngine.Core.External BrainEngine.Core.Migrations

/-! ### The project directory -/

/-- What is at a path. -/
inductive Entry (α : Type)
  | absent
  | directory
  | file (content : α)

/-- `Path::exists`. -/
def Entry.present {α : Type} : Entry α → Bool
  | .absent => false
  | _ => true

/-- A value of SQLite. -/
inductive Cell
  | null
  | integer (n : ℤ)
  | real (bits : UInt64)
  | text (t : Text)
  | blob (bytes : List UInt8)
  deriving DecidableEq

/-- A database file: version, schema, the rows of each table, and whether `journal_mode` is `WAL`. -/
structure Database where
  userVersion : ℕ
  schema : Schema
  rows : String → List (List Cell)
  wal : Bool

/-- A file that SQLite has just created. -/
def Database.new : Database := ⟨0, .empty, fun _ => [], false⟩

/-- The directories of a project brain. -/
inductive BrainDir
  | brainDir
  | vectorsDir
  | cacheDir
  | summariesDir
  | logsDir
  deriving DecidableEq

/-- All directories that must exist, each after the one it is in. -/
def directories : List BrainDir := [.brainDir, .vectorsDir, .cacheDir, .summariesDir, .logsDir]

def BrainDir.path (root : Text) : BrainDir → Text
  | .brainDir => root ++ "/.brain".toList
  | .vectorsDir => root ++ "/.brain/vectors".toList
  | .cacheDir => root ++ "/.brain/cache".toList
  | .summariesDir => root ++ "/.brain/summaries".toList
  | .logsDir => root ++ "/.brain/logs".toList

def configFile (root : Text) : Text := root ++ "/brain.config.json".toList

def metadataDb (root : Text) : Text := root ++ "/.brain/metadata.db".toList

def gitignoreFile (root : Text) : Text := root ++ "/.gitignore".toList

/-- What initialisation reads and changes below the project root. -/
structure ProjectDir where
  rootIsDir : Bool
  dirs : BrainDir → Entry Unit
  config : Entry (List UInt8)
  database : Entry Database
  /-- The text of `.gitignore`; there is none if its bytes are not UTF-8. -/
  gitignore : Entry (Option Text)

/-- A record of what `init` actually changed. -/
structure InitReport where
  createdDirs : List Text := []
  createdFiles : List Text := []
  dbCreated : Bool := false
  gitignoreUpdated : Bool := false
  deriving DecidableEq

inductive Access
  | createDir
  | read
  | write
  | openDb

/-- The machine: the accesses that it refuses, with the error's text, what SQLite says of a statement
that fails, and the JSON of the default configuration, whose project name is that of the directory. -/
structure Machine where
  refuses : Access → Text → Option Text
  statementError : Step → Text
  defaultConfig : Text → List UInt8

/-- The directory and the report so far. -/
structure Progress where
  dir : ProjectDir
  report : InitReport

/-- The calls of an initialisation. -/
abbrev Init := EStateM BrainError Progress

/-- An access that may be refused. -/
def access (m : Machine) (a : Access) (path : Text) (error : Text → BrainError) : Init Unit :=
  match m.refuses a path with
  | some message => throw (error message)
  | none => pure ()

/-! ### The database -/

/-- What a statement does to the rows: a new table has none, and a new column is `NULL` in every row. -/
def rowsAfter (st : Stmt) (d : Database) : String → List (List Cell) :=
  match st with
  | .createTable t => if d.schema.hasTable t.name then d.rows else Function.update d.rows t.name []
  | .createIndex _ => d.rows
  | .addColumn table _ => Function.update d.rows table ((d.rows table).map (· ++ [.null]))

/-- One step of `migrate`. -/
def Database.execute (d : Database) : Step → Option Database
  | .execute st => (st.apply d.schema).map fun schema => { d with schema, rows := rowsAfter st d }
  | .setVersion v => some { d with userVersion := v }

def putDatabase (d : Database) : Init Unit :=
  modify fun s => { s with dir := { s.dir with database := .file d } }

/-- The steps one after the other, each committed for itself. -/
def runSteps (m : Machine) : Database → List Step → Init Unit
  | _, [] => pure ()
  | d, step :: rest =>
    match d.execute step with
    | none => throw (.db (m.statementError step))
    | some d' => do
      putDatabase d'
      runSteps m d' rest

/-- `db::open`: the file is created if it is missing, and brought to the schema of today. Its directory
is there. -/
def openDatabase (m : Machine) (root : Text) : Init Unit := do
  access m .openDb (metadataDb root) .db
  let s ← get
  match s.dir.database with
  | .directory => throw (.db "unable to open database file".toList)
  | .absent => do
    let d : Database := { Database.new with wal := true }
    putDatabase d
    runSteps m d (migrate d.userVersion)
  | .file d => do
    let d := { d with wal := true }
    putDatabase d
    runSteps m d (migrate d.userVersion)

/-! ### Directories and files -/

/-- Create a directory, recording it if newly created. -/
def createDir (m : Machine) (root : Text) (dir : BrainDir) : Init Unit := do
  let s ← get
  match s.dir.dirs dir with
  | .directory => pure ()
  | .file _ => throw (.notADirectory (dir.path root))
  | .absent => do
    access m .createDir (dir.path root) (.io (dir.path root))
    set { s with
      dir := { s.dir with dirs := Function.update s.dir.dirs dir .directory }
      report := { s.report with createdDirs := s.report.createdDirs ++ [dir.path root] } }

/-- `config::save_if_absent` for the configuration: an existing file is left untouched. -/
def saveIfAbsent (m : Machine) (root : Text) : Init Bool := do
  let s ← get
  if s.dir.config.present then pure false
  else do
    access m .write (configFile root) (.io (configFile root))
    set { s with dir := { s.dir with config := .file (m.defaultConfig root ++ [10]) } }
    pure true

def gitignoreEntry : Text := ".brain/".toList

/-- A line that makes git ignore the project brain. -/
def ignoresBrain (line : Text) : Bool :=
  line = gitignoreEntry || line = ".brain".toList || line = "/.brain/".toList ||
    line = "/.brain".toList

/-- The text with the entry at its end. -/
def withEntry (existing : Text) : Text :=
  let updated := if !existing.isEmpty && existing.getLast? ≠ some '\n' then existing ++ ['\n'] else existing
  updated ++ "\n# Brain Engine local data (do not commit)\n".toList ++ gitignoreEntry ++ ['\n']

/-- `read_to_string` of `.gitignore`; a missing file is empty. -/
def readGitignore (m : Machine) (root : Text) : Init Text := do
  access m .read (gitignoreFile root) (.io (gitignoreFile root))
  let s ← get
  match s.dir.gitignore with
  | .absent => pure []
  | .file (some text) => pure text
  | .file none => throw (.io (gitignoreFile root) "stream did not contain valid UTF-8".toList)
  | .directory => throw (.io (gitignoreFile root) "Is a directory (os error 21)".toList)

/-- Ensure `.brain/` is ignored by git. Returns `true` if the file was modified. -/
def ensureGitignore (m : Machine) (root : Text) : Init Bool := do
  let existing ← readGitignore m root
  if (lines existing).any fun line => ignoresBrain (trim line) then pure false
  else do
    access m .write (gitignoreFile root) (.io (gitignoreFile root))
    modify fun s => { s with
      dir := { s.dir with gitignore := .file (some (withEntry existing)) } }
    pure true

/-- A change of the report, if there is something to report. -/
def recordIf (b : Bool) (f : InitReport → InitReport) : Init Unit :=
  modify fun s => { s with report := if b then f s.report else s.report }

/-- Create the project brain layout, config, database and gitignore entry. -/
def initProject (m : Machine) (root : Text) : Init Unit := do
  let s ← get
  if !s.dir.rootIsDir then throw (.notADirectory root)
  else do
    directories.forM (createDir m root)
    let created ← saveIfAbsent m root
    recordIf created fun r => { r with createdFiles := r.createdFiles ++ [configFile root] }
    let s ← get
    let dbExisted := s.dir.database.present
    openDatabase m root
    recordIf (!dbExisted) fun r =>
      { r with dbCreated := true, createdFiles := r.createdFiles ++ [metadataDb root] }
    let gitignoreUpdated ← ensureGitignore m root
    recordIf true fun r => { r with gitignoreUpdated }

end BrainEngine.Core.Scaffold
