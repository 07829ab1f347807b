import BrainEngine.Core.Index
import BrainEngine.Lib.Keyed
import BrainEngine.Lib.Sorted
import Mathlib.Data.List.Lex
import Mathlib.Data.List.ReduceOption
import Mathlib.Data.List.Sort

/-! # Knowledge digest

Summaries of files, of modules (directories) and of the project. `syncProjectSummaries` brings the
table `summaries` and its mirror on disk in line with the table `files`; each of its statements is a
transaction of its own, so what was written before an error stays. -/

namespace BrainEngine.Core.Summarize

open BrainEngine.Rust.Str BrainEngine.Lib.Keyed BrainEngine.Lib.Sorted BrainEngine.Core.External
open BrainEngine.Core.Chunking

/-- Knowledge Digest summary generation config. -/
structure SummariesConfig where
  enabled : Bool := true
  maxSummaryTokens : ℕ := 120

structure FileRow where
  path : Text
  hash : Text
  lang : Option Text
  deriving DecidableEq

structure FileSummary where
  path : Text
  hash : Text
  summary : Text
  deriving DecidableEq

/-- Summary of a digest synchronization run. -/
structure SummaryStats where
  filesSeen : ℕ := 0
  fileSummariesWritten : ℕ := 0
  moduleSummariesWritten : ℕ := 0
  projectSummaryWritten : Bool := false
  removed : ℕ := 0
  deriving DecidableEq

/-! ### Texts -/

def truncateChars (text : Text) (maxChars : ℕ) : Text :=
  if text.length ≤ maxChars then text else text.take (maxChars - 1) ++ "...".toList

/-- On a 64-bit machine, where `saturating_mul` ends at `usize::MAX`. -/
def clampTokens (text : Text) (maxTokens : ℕ) : Text :=
  if maxTokens = 0 ∨ estimate text ≤ maxTokens then text
  else truncateChars text (min (maxTokens * 4) (2 ^ 64 - 1))

def looksLikeShebang (line : Text) : Bool := startsWith line "#!".toList

def commentMarks : List Text := ["//!", "///", "//", "# ", "* "].map String.toList

/-- What stands in a comment line, after its mark. -/
def commentText (trimmed : Text) : Option Text := commentMarks.findSome? (stripPrefix trimmed)

/-- The loop over the first lines; `out` are the notes so far. -/
def notesFrom (out : List Text) : List Text → List Text
  | [] => out
  | line :: lines =>
    let trimmed := trim line
    if trimmed.isEmpty then if out.isEmpty then notesFrom out lines else out
    else match commentText trimmed with
      | some text =>
        let cleaned := trim (trimMatches (· = '*') (trim text))
        let out := if cleaned.isEmpty then out else out ++ [truncateChars cleaned 180]
        if 4 ≤ out.length then out else notesFrom out lines
      | none => if out.isEmpty && looksLikeShebang trimmed then notesFrom out lines else out

def leadingComments (content : Text) : List Text := notesFrom [] ((lines content).take 30)

def declarationPrefixes : List Text := [
  "pub fn ", "fn ", "pub struct ", "struct ", "pub enum ", "enum ", "pub trait ", "trait ", "impl ",
  "export function ", "function ", "export const ", "const ", "let ", "class ", "export class ",
  "def ", "async def ", "type ", "interface "].map String.toList

def isDeclaration (line : Text) : Bool := declarationPrefixes.any (startsWith line)

/-- The loop over the lines; `out` are the declarations so far. -/
def declarationsFrom (out : List Text) : List Text → List Text
  | [] => out
  | line :: lines =>
    let trimmed := trim line
    if trimmed.isEmpty || startsWith trimmed "//".toList || startsWith trimmed ['#'] then
      declarationsFrom out lines
    else
      let out := if isDeclaration trimmed then out ++ [truncateChars trimmed 140] else out
      if 12 ≤ out.length then out else declarationsFrom out lines

def declarations (content : Text) : List Text := declarationsFrom [] (lines content)

/-- Build a short, deterministic file summary. -/
def summarizeFile (path content : Text) (lang : Option Text) (cfg : SummariesConfig) : Text :=
  let label := match lang with
    | some l => " (".toList ++ l ++ ")".toList
    | none => []
  let head := "File `".toList ++ path ++ "`".toList ++ label ++ ".".toList
  let doc := leadingComments content
  let notes := if doc.isEmpty then []
    else ["Top notes: ".toList ++ join [' '] doc ++ ".".toList]
  let decls := declarations content
  let symbols := if decls.isEmpty then []
    else ["Key symbols: ".toList ++ join "; ".toList decls ++ ".".toList]
  let parts := head :: (notes ++ symbols)
  let parts := if parts.length = 1 then
      let first := (((lines content).map trim).find? fun l => !l.isEmpty).getD
        "No visible text content.".toList
      parts ++ ["Starts with: ".toList ++ truncateChars first 160 ++ ".".toList]
    else parts
  clampTokens (join [' '] parts) cfg.maxSummaryTokens

/-- `Path::parent`, for a path of components joined by `/`; empty for a single component. -/
def parent (path : Text) : Text := ((path.reverse.dropWhile (· ≠ '/')).drop 1).reverse

def moduleTarget (path : Text) : Text := if parent path = [] then ['.'] else parent path

def summarizeModule (module : Text) (files : List FileSummary) : Text :=
  join ['\n'] (("Module `".toList ++ module ++ "` contains ".toList ++ ofNat files.length ++
      " indexed file(s).".toList) ::
    (files.take 8).map fun file =>
      "- `".toList ++ file.path ++ "`: ".toList ++ truncateChars file.summary 180)

/-- How many files each module has. -/
def moduleCounts (files : List FileSummary) : SortedMap Text ℕ :=
  counts (fun file => moduleTarget file.path) files

def summarizeProject (files : List FileSummary) : Text :=
  let modules := moduleCounts files
  let moduleList := join ", ".toList ((modules.entries.take 12).map fun m =>
    m.1 ++ " (".toList ++ ofNat m.2 ++ ")".toList)
  "Project has ".toList ++ ofNat files.length ++ " indexed file(s) across ".toList ++
    ofNat modules.entries.length ++ " module(s). Main modules: ".toList ++
    (if moduleList.isEmpty then "none".toList else moduleList) ++ ".".toList

def aggregateHash (x : Extern) (hashes : List Text) : Text := x.sha256Hex (join ['\n'] hashes)

/-! ### Table and mirror -/

inductive Scope
  | file
  | module
  | project
  deriving DecidableEq

structure SummaryRow where
  summary : Text
  sourceHash : Text
  tokenEstimate : ℕ
  modelUsed : Text
  createdAt : ℕ

abbrev SummaryTable := KeyTable (Scope × Text) SummaryRow

/-- What a synchronization changes: the table, and the files of the mirror with their contents. -/
structure Digest where
  summaries : SummaryTable
  mirror : KeyTable Text Text

def Digest.empty : Digest := ⟨.empty, .empty⟩

inductive ReadError
  | notFound
  | other (source : Text)

/-- The disk as one synchronization finds it. -/
structure Disk where
  read : Text → Except ReadError (List UInt8)
  createDirError : Text → Option Text
  writeError : Text → Option Text

/-- The calls of a synchronization. -/
abbrev Sync := EStateM BrainError Digest

def modelHeuristic : Text := "heuristic".toList

def projectTarget : Text := "PROJECT".toList

/-- `std::fs::read_to_string`. -/
def readToString (disk : Disk) (path : Text) : Except ReadError Text :=
  match disk.read path with
  | .error e => .error e
  | .ok bytes =>
    match fromUtf8 bytes with
    | some text => .ok text
    | none => .error (.other "stream did not contain valid UTF-8".toList)

/-- `SELECT path, hash, lang FROM files ORDER BY path`. -/
def loadFiles (db : Database.Db) : List FileRow :=
  (db.files.rows.map fun a => (⟨a.2.path, a.2.hash, a.2.lang⟩ : FileRow)).insertionSort
    fun a b => a.path ≤ b.path

def loadExistingSummaries (t : SummaryTable) (key : Scope × Text) : Option Text :=
  (t.get? key).map SummaryRow.sourceHash

def readSummary (scope : Scope) (target : Text) : Sync (Option Text) := do
  return ((← get).summaries.get? (scope, target)).map SummaryRow.summary

def sourceHashFor (scope : Scope) (target : Text) : Sync (Option Text) := do
  return ((← get).summaries.get? (scope, target)).map SummaryRow.sourceHash

def deleteStaleScopedSummaries (scope : Scope) (validTargets : List Text) : Sync ℕ := do
  let s ← get
  let stale := s.summaries.rows.filter fun a => a.1.1 = scope && !validTargets.contains a.1.2
  set { s with summaries := s.summaries.deleteWhere fun k _ =>
    k.1 = scope && !validTargets.contains k.2 }
  return stale.length

def deleteStaleFileSummaries (validTargets : List Text) : Sync ℕ :=
  deleteStaleScopedSummaries .file validTargets

def summaryRow (summary sourceHash : Text) (now : ℕ) : SummaryRow where
  summary := summary
  sourceHash := sourceHash
  tokenEstimate := estimate summary
  modelUsed := modelHeuristic
  createdAt := now

def upsertSummary (scope : Scope) (target summary sourceHash : Text) (now : ℕ) : Sync Unit :=
  modify fun s => { s with
    summaries := s.summaries.upsert (scope, target) (summaryRow summary sourceHash now) }

def mirrorPath (summariesDir : Text) (scope : Scope) (target : Text) : Text :=
  match scope with
  | .file => summariesDir ++ '/' :: target ++ ".md".toList
  | .module => summariesDir ++ '/' :: target ++ "/_module.md".toList
  | .project => summariesDir ++ "/PROJECT.md".toList

/-- The place that a path names: `.` is no component of it. -/
def place (path : Text) : Text := join ['/'] ((path.splitOn '/').filter (· ≠ ['.']))

def createDirAll (disk : Disk) (dir : Text) : Sync Unit :=
  match disk.createDirError dir with
  | some e => throw (.io dir e)
  | none => pure ()

def writeSummaryMirror (disk : Disk) (summariesDir : Text) (scope : Scope) (target summary : Text) :
    Sync Unit := do
  let path := mirrorPath summariesDir scope target
  createDirAll disk (parent (place path))
  match disk.writeError path with
  | some e => throw (.io path e)
  | none => modify fun s => { s with mirror := s.mirror.upsert (place path) (summary ++ ['\n']) }

/-! ### Synchronization -/

section
variable (x : Extern) (root summariesDir : Text) (disk : Disk) (cfg : SummariesConfig) (now : ℕ)

/-- A summary that was generated goes to the table and to the mirror. -/
def writeSummary (scope : Scope) (target summary sourceHash : Text) : Sync Unit := do
  upsertSummary scope target summary sourceHash now
  writeSummaryMirror disk summariesDir scope target summary

/-- The stored summary of a file with the same hash. -/
def keptSummary (existing : Scope × Text → Option Text) (file : FileRow) : Sync (Option Text) :=
  if existing (.file, file.path) = some file.hash then readSummary .file file.path else pure none

/-- One round of the loop over the files, with whether the summary was written. A file that is not on
disk has none. -/
def syncFile (existing : Scope × Text → Option Text) (file : FileRow) :
    Sync (Option (FileSummary × Bool)) := do
  match ← keptSummary existing file with
  | some summary => return some (⟨file.path, file.hash, summary⟩, false)
  | none =>
    let abs := root ++ '/' :: file.path
    match readToString disk abs with
    | .error .notFound => return none
    | .error (.other e) => throw (.io abs e)
    | .ok content =>
      let summary := summarizeFile file.path content file.lang cfg
      writeSummary summariesDir disk now .file file.path summary file.hash
      return some (⟨file.path, file.hash, summary⟩, true)

/-- Write a derived summary unless the one in the table has the same source hash. -/
def syncDerived (scope : Scope) (target sourceHash summary : Text) : Sync Bool := do
  if (← sourceHashFor scope target) = some sourceHash then return false
  else
    writeSummary summariesDir disk now scope target summary sourceHash
    return true

/-- One round of the loop over the modules. -/
def syncModule (m : Text × List FileSummary) : Sync Bool :=
  let files := m.2.insertionSort fun a b => a.path ≤ b.path
  syncDerived summariesDir disk now .module m.1 (aggregateHash x (files.map FileSummary.hash))
    (summarizeModule m.1 files)

/-- The files of each module, in module order. -/
def byModule (files : List FileSummary) : SortedMap Text (List FileSummary) :=
  groups (fun file => moduleTarget file.path) files

def syncModuleSummaries (files : List FileSummary) : Sync ℕ := do
  let modules := byModule files
  let _ ← deleteStaleScopedSummaries .module (modules.entries.map Prod.fst)
  let written ← modules.entries.mapM (syncModule x summariesDir disk now)
  return written.count true

def syncProjectSummary (files : List FileSummary) : Sync Bool :=
  syncDerived summariesDir disk now .project projectTarget
    (aggregateHash x (files.map FileSummary.hash)) (summarizeProject files)

/-- Synchronize summaries with the current `files` table. -/
def syncProjectSummaries (db : Database.Db) : Sync SummaryStats :=
  if !cfg.enabled then return {}
  else do
    createDirAll disk summariesDir
    let files := loadFiles db
    let existing := loadExistingSummaries (← get).summaries
    let removed ← deleteStaleFileSummaries (files.map FileRow.path)
    let rounds ← files.mapM (syncFile root summariesDir disk cfg now existing)
    let fileSummaries := rounds.reduceOption.map Prod.fst
    let modules ← syncModuleSummaries x summariesDir disk now fileSummaries
    let project ← syncProjectSummary x summariesDir disk now fileSummaries
    return {
      filesSeen := files.length, removed
      fileSummariesWritten := (rounds.reduceOption.map Prod.snd).count true
      moduleSummariesWritten := modules, projectSummaryWritten := project }

end

end BrainEngine.Core.Summarize
