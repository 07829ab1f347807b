import BrainEngine.Lib.Outcome
import BrainEngine.Core.External
import BrainEngine.Core.Config

/-! # Which files are candidates

The `ignore` crate walks the project directory and applies its `.gitignore` files; `Tree.walker` is
what it yields, in order, and `Tree.read` is what reading a file then returns. `walk` filters the
entries by the globs and the size cap of the configuration. -/

namespace BrainEngine.Core.Walk

open BrainEngine.Rust.Str BrainEngine.Lib.Outcome BrainEngine.Core.External BrainEngine.Core.Config

/-- The metadata of a directory entry. -/
structure Metadata where
  len : UInt64
  /-- The modification time in unix seconds, if it is available and not before 1970. -/
  modified : Option ℕ

/-- A directory entry. -/
structure DirEntry where
  isFile : Bool
  absPath : Text
  /-- The components of the path below the root, if it is below the root. -/
  components : Option (List Text)
  /-- The metadata, unless reading it fails. -/
  metadata : Option Metadata

/-- A project directory as one run finds it. -/
structure Tree where
  walker : List (Except Text DirEntry)
  read : Text → Except Text (List UInt8)

/-- A file that survived all filters. -/
structure WalkEntry where
  relPath : Text
  absPath : Text
  size : UInt64
  mtime : ℕ
  deriving DecidableEq

/-- The candidates, and how many files were filtered. -/
structure WalkOutcome where
  entries : List WalkEntry := []
  skippedLarge : ℕ := 0
  skippedExcluded : ℕ := 0

def relativeSlash (entry : DirEntry) : Option Text := entry.components.map (join ['/'])

def mtimeSecs (m : Metadata) : ℕ := m.modified.getD 0

/-- `build_globset`: the error it fails with, if any. -/
def buildGlobset (x : Extern) : List Text → List Text → Except Failure Unit
  | patterns, [] =>
    match x.globSetError patterns with
    | some message => .error (.error (.glob (join ", ".toList patterns) message))
    | none => .ok ()
  | patterns, pat :: pats =>
    match x.globError pat with
    | some message => .error (.error (.glob pat message))
    | none => buildGlobset x patterns pats

/-- `GlobSet::is_match`. -/
def isMatch (x : Extern) (patterns : List Text) (path : Text) : Bool :=
  patterns.any fun pat => x.globMatches pat path

/-- What the loop does with one result of the walker. -/
def walkStep (x : Extern) (cfg : ProjectConfig) (outcome : WalkOutcome) :
    Except Text DirEntry → Except Failure WalkOutcome
  | .error e => .error (.error (.walk e))
  | .ok entry =>
    if !entry.isFile then .ok outcome
    else match relativeSlash entry with
      | none => .ok outcome
      | some relPath =>
        if !isMatch x cfg.includeGlobs relPath || isMatch x cfg.excludeGlobs relPath then
          .ok { outcome with skippedExcluded := outcome.skippedExcluded + 1 }
        else match entry.metadata with
          | none => .ok outcome
          | some m =>
            if cfg.maxFileSizeBytes < m.len then
              .ok { outcome with skippedLarge := outcome.skippedLarge + 1 }
            else
              .ok { outcome with
                entries := outcome.entries ++
                  [{ relPath, absPath := entry.absPath, size := m.len, mtime := mtimeSecs m }] }

/-- Walk the project, returning indexing candidates. -/
def walk (x : Extern) (t : Tree) (cfg : ProjectConfig) : Except Failure WalkOutcome := do
  buildGlobset x cfg.includeGlobs cfg.includeGlobs
  buildGlobset x cfg.excludeGlobs cfg.excludeGlobs
  t.walker.foldlM (walkStep x cfg) {}

/-! ### The candidates in closed form -/

/-- The regular file below the root that a result of the walker is, if its metadata can be read. -/
def fileOf : Except Text DirEntry → Option WalkEntry
  | .error _ => none
  | .ok entry =>
    if entry.isFile then do
      let relPath ← relativeSlash entry
      let m ← entry.metadata
      return { relPath, absPath := entry.absPath, size := m.len, mtime := mtimeSecs m }
    else none

/-- The regular files of a directory. -/
def files (t : Tree) : List WalkEntry := t.walker.filterMap fileOf

/-- The globs and the size cap let the file through. -/
def admits (x : Extern) (cfg : ProjectConfig) (e : WalkEntry) : Bool :=
  isMatch x cfg.includeGlobs e.relPath && !isMatch x cfg.excludeGlobs e.relPath &&
    e.size ≤ cfg.maxFileSizeBytes

/-- One round of the loop adds the file it is about, if it is let through. -/
theorem entries_walkStep {x : Extern} {cfg : ProjectConfig} {o o' : WalkOutcome}
    {r : Except Text DirEntry} (h : walkStep x cfg o r = .ok o') :
    o'.entries = o.entries ++ (fileOf r).toList.filter (admits x cfg) := by
  unfold walkStep at h
  cases r with
  | error e => cases h
  | ok entry =>
    simp only [fileOf]
    by_cases hf : entry.isFile
    · rw [if_pos hf]
      simp only [hf, Bool.not_true, Bool.false_eq_true, if_false] at h
      cases hp : relativeSlash entry with
      | none =>
        rw [hp] at h
        cases h
        simp
      | some relPath =>
        simp only [hp] at h
        cases hm : entry.metadata with
        | none =>
          simp only [hm] at h
          have ho : o'.entries = o.entries := by
            split_ifs at h
            · cases h; rfl
            · cases h; rfl
          simp [ho]
        | some m =>
          simp only [hm] at h
          split_ifs at h with hg hs
          · have hrefused : ∀ e : WalkEntry, e.relPath = relPath → admits x cfg e = false := by
              rintro e rfl
              unfold admits
              rcases (Bool.or_eq_true _ _).mp hg with hg | hg
              · rw [Bool.not_eq_true'] at hg
                simp [hg]
              · simp [hg]
            cases h
            simp [hrefused]
          · cases h
            simp [admits, hs]
          · cases h
            simp only [Bool.or_eq_true, Bool.not_eq_true', not_or] at hg
            simp [admits, hg, UInt64.not_lt.mp hs]
    · simp only [hf, Bool.not_false, if_true] at h
      cases h
      simp [hf]

/-- **The candidates** are the files that are let through, in the order of the walker. -/
theorem entries_walk {x : Extern} {t : Tree} {cfg : ProjectConfig} {outcome : WalkOutcome}
    (h : walk x t cfg = .ok outcome) : outcome.entries = (files t).filter (admits x cfg) := by
  have hloop : ∀ (rs : List (Except Text DirEntry)) (o o' : WalkOutcome),
      rs.foldlM (walkStep x cfg) o = .ok o' →
        o'.entries = o.entries ++ (rs.filterMap fileOf).filter (admits x cfg) := by
    intro rs
    induction rs with
    | nil =>
      intro o o' h
      cases h
      simp
    | cons r rs ih =>
      intro o o' h
      rw [List.foldlM_cons] at h
      obtain ⟨o₁, h1, h2⟩ := bind_eq_ok.mp h
      rw [ih o₁ o' h2, entries_walkStep h1, List.append_assoc, ← List.filter_append]
      congr 2
      cases hr : fileOf r with
      | none => simp [hr]
      | some e => simp [hr]
  unfold walk at h
  obtain ⟨-, -, h⟩ := bind_eq_ok.mp h
  obtain ⟨-, -, h⟩ := bind_eq_ok.mp h
  simpa [files] using hloop _ _ _ h

end BrainEngine.Core.Walk
