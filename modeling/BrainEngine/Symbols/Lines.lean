import BrainEngine.Lib.Scan
import BrainEngine.Rust.Trim
import BrainEngine.Index.Signatures

/-! # The extractors as one pass

The three extractors differ in their tables, in the prefix that makes a declaration public and in what
they do with comments. `declared` says what a line declares and `docsAfter` which docs wait after it;
with these, every extractor is a pass that looks at each line once (`extract_eq_scan`). What comes of
a line is read off from there. -/

namespace BrainEngine.Symbols.Lines

open BrainEngine.Rust.Str BrainEngine.Rust.Trim BrainEngine.Lib.Outcome BrainEngine.Lib.Scan
open BrainEngine.Core.External BrainEngine.Core.Symbols BrainEngine.Index.Signatures

/-- The languages that have an extractor. -/
inductive Language
  | rust
  | tsJs
  | python
  deriving DecidableEq

def languageOf (lang : Option Text) : Option Language :=
  let l := lang.getD []
  if l = "rust".toList then some .rust
  else if l = "typescript".toList ∨ l = "javascript".toList then some .tsJs
  else if l = "python".toList then some .python
  else none

/-! ### Declarations -/

/-- The keywords of declarations with the kinds of symbol. -/
def specs : Language → List (Text × Text)
  | .rust => rustSpecs
  | .tsJs => tsJsSpecs
  | .python => pythonSpecs

/-- The prefix of public declarations. -/
def publicPrefix : Language → Option Text
  | .rust => some "pub ".toList
  | .tsJs => some "export ".toList
  | .python => none

/-- The line without the prefix of public declarations. -/
def unpublished : Language → Text → Text
  | .rust, line => (stripPrefix line "pub ".toList).getD line
  | .tsJs, line => ((stripPrefix line "export default ".toList).or
      (stripPrefix line "export ".toList)).getD line
  | .python, line => line

def visibility (L : Language) (line : Text) : Option Text :=
  match publicPrefix L with
  | some pre => if startsWith line pre then some "pub".toList else none
  | none => none

/-- The name in what follows a keyword. What an `impl` is for need not be a name. -/
def nameOf (x : Extern) (kind rest : Text) : Option Text :=
  if kind = "impl".toList then
    some (trimMatches (· == '{') ((firstWord rest).getD "impl".toList))
  else symbolName x rest

/-- The name and the kind that a line declares. -/
def declared (x : Extern) (L : Language) (line : Text) : Option (Text × Text) :=
  match findSpec (unpublished L line) (specs L) with
  | none => none
  | some (rest, kind) => (nameOf x kind rest).map fun name => (name, kind)

/-! ### The pass -/

/-- The docs that wait after a line. -/
def docsAfter (x : Extern) : Language → List Text → Text → List Text
  | .rust, docs, line =>
    match rustDoc (trim line) with
    | some doc => docs ++ [doc]
    | none => if startsWith (trim line) "#[".toList then docs else []
  | .tsJs, docs, line =>
    match jsDoc (trim line) with
    | some doc => docs ++ [doc]
    | none =>
      if (trim line).isEmpty || startsWith (trim line) "//".toList ||
        startsWith (trim line) "*".toList then docs else []
  | .python, docs, line =>
    match pythonDoc (trim line) with
    | some doc => docs ++ [doc]
    | none =>
      if (trim line).isEmpty then docs
      else
        match findSpec (trim line) pythonSpecs with
        | none => []
        | some (tail, _) => if (symbolName x tail).isNone then docs else []

/-- The symbol of a line, if it declares one. -/
def lineOut (x : Extern) (L : Language) (docs : List Text) (lineNo : ℕ) (line : Text) :
    Except Failure (Option ExtractedSymbol) :=
  match declared x L (trim line) with
  | none => .ok none
  | some (name, kind) => some <$>
      symbolOfLine (trim line) lineNo name kind (visibility L (trim line)) (takeDocs docs)

/-! ### Lines that cannot declare anything -/

/-- The text begins with a letter. -/
def letterFirst (t : Text) : Bool := t.head?.any Char.isAlpha

theorem stripPrefix_of_not_letterFirst {t pre : Text} (hpre : letterFirst pre = true)
    (h : letterFirst t = false) : stripPrefix t pre = none := by
  cases hs : stripPrefix t pre with
  | none => rfl
  | some rest =>
    obtain rfl := stripPrefix_eq_some.mp hs
    cases pre with
    | nil => cases hpre
    | cons c cs =>
      rw [show letterFirst (c :: cs ++ rest) = letterFirst (c :: cs) from rfl, hpre] at h
      cases h

theorem findSpec_of_not_letterFirst {t : Text} (h : letterFirst t = false) :
    ∀ {table : List (Text × Text)}, (∀ p ∈ table, letterFirst p.1 = true) → findSpec t table = none
  | [], _ => rfl
  | (pre, kind) :: table, hall => by
    have hpre : letterFirst pre = true := hall (pre, kind) List.mem_cons_self
    rw [findSpec, stripPrefix_of_not_letterFirst hpre h]
    exact findSpec_of_not_letterFirst h fun p hp => hall p (List.mem_cons_of_mem _ hp)

theorem letterFirst_specs (L : Language) : ∀ p ∈ specs L, letterFirst p.1 = true := by
  cases L with
  | rust => decide
  | tsJs => decide
  | python => decide

theorem unpublished_of_not_letterFirst {L : Language} {t : Text} (h : letterFirst t = false) :
    unpublished L t = t := by
  cases L with
  | rust =>
    have hpub : stripPrefix t "pub ".toList = none := stripPrefix_of_not_letterFirst (by decide) h
    simp only [unpublished, hpub, Option.getD_none]
  | tsJs =>
    have hdefault : stripPrefix t "export default ".toList = none :=
      stripPrefix_of_not_letterFirst (by decide) h
    have hexport : stripPrefix t "export ".toList = none :=
      stripPrefix_of_not_letterFirst (by decide) h
    simp only [unpublished, hdefault, hexport, Option.or_none, Option.getD_none]
  | python => rfl

/-- **A comment declares nothing**: every keyword begins with a letter. -/
theorem declared_of_not_letterFirst {x : Extern} {L : Language} {t : Text}
    (h : letterFirst t = false) : declared x L t = none := by
  unfold declared
  rw [unpublished_of_not_letterFirst h, findSpec_of_not_letterFirst h (letterFirst_specs L)]

theorem letterFirst_of_isPrefix {t pre : Text} (h : pre <+: t) (hne : pre ≠ [])
    (hpre : letterFirst pre = false) : letterFirst t = false := by
  obtain ⟨rest, rfl⟩ := h
  obtain ⟨c, cs, rfl⟩ := List.exists_cons_of_ne_nil hne
  exact hpre

theorem letterFirst_of_startsWith {t pre : Text} (h : startsWith t pre = true) (hne : pre ≠ [])
    (hpre : letterFirst pre = false) : letterFirst t = false :=
  letterFirst_of_isPrefix (startsWith_iff.mp h) hne hpre

/-- The lines that the extractors skip: empty ones, and those with the signs of a comment. -/
theorem letterFirst_of_comment {t a b : Text}
    (h : (t.isEmpty = true ∨ startsWith t a = true) ∨ startsWith t b = true)
    (ha : a ≠ [] ∧ letterFirst a = false) (hb : b ≠ [] ∧ letterFirst b = false) : letterFirst t = false := by
  rcases h with (h | h) | h
  · rw [List.isEmpty_iff.mp h]
    rfl
  · exact letterFirst_of_startsWith h ha.1 ha.2
  · exact letterFirst_of_startsWith h hb.1 hb.2

theorem letterFirst_of_stripPrefix {t pre rest : Text} (h : stripPrefix t pre = some rest)
    (hne : pre ≠ []) (hpre : letterFirst pre = false) : letterFirst t = false :=
  letterFirst_of_isPrefix ⟨rest, (stripPrefix_eq_some.mp h).symm⟩ hne hpre

theorem letterFirst_of_rustDoc {t doc : Text} (h : rustDoc t = some doc) : letterFirst t = false := by
  unfold rustDoc at h
  obtain ⟨hsome, -⟩ := Option.filter_eq_some_iff.mp h
  obtain ⟨rest, hrest, -⟩ := Option.map_eq_some_iff.mp hsome
  rcases Option.or_eq_some_iff.mp hrest with h | ⟨-, h⟩
  · exact letterFirst_of_stripPrefix h (by decide) (by decide)
  · exact letterFirst_of_stripPrefix h (by decide) (by decide)

theorem letterFirst_of_jsDoc {t doc : Text} (h : jsDoc t = some doc) : letterFirst t = false := by
  unfold jsDoc at h
  obtain ⟨hsome, -⟩ := Option.filter_eq_some_iff.mp h
  obtain ⟨rest, hrest, -⟩ := Option.map_eq_some_iff.mp hsome
  rcases Option.or_eq_some_iff.mp hrest with h | ⟨-, h⟩
  · rcases Option.or_eq_some_iff.mp h with h | ⟨-, h⟩
    · exact letterFirst_of_stripPrefix h (by decide) (by decide)
    · exact letterFirst_of_stripPrefix h (by decide) (by decide)
  · exact letterFirst_of_stripPrefix h (by decide) (by decide)

theorem letterFirst_of_pythonDoc {t doc : Text} (h : pythonDoc t = some doc) :
    letterFirst t = false := by
  unfold pythonDoc at h
  obtain ⟨hsome, -⟩ := Option.filter_eq_some_iff.mp h
  obtain ⟨rest, hrest, -⟩ := Option.map_eq_some_iff.mp hsome
  exact letterFirst_of_stripPrefix hrest (by decide) (by decide)

/-! ### One line of each extractor -/

/-- A keyword that is found stands in front. -/
theorem findSpec_eq_some {s rest kind : Text} : ∀ {table : List (Text × Text)},
    findSpec s table = some (rest, kind) → ∃ pre, (pre, kind) ∈ table ∧ s = pre ++ rest
  | (pre, kind') :: table, h => by
    rw [findSpec] at h
    cases hs : stripPrefix s pre with
    | some rest' =>
      rw [hs] at h
      obtain ⟨rfl, rfl⟩ := Prod.mk.inj (Option.some.inj h)
      exact ⟨pre, List.mem_cons_self, stripPrefix_eq_some.mp hs⟩
    | none =>
      rw [hs] at h
      obtain ⟨pre', hmem, heq⟩ := findSpec_eq_some h
      exact ⟨pre', List.mem_cons_of_mem _ hmem, heq⟩

/-- The kind of `impl` belongs to one keyword, and that to Rust. -/
theorem spec_impl {L : Language} {pre kind : Text} (h : (pre, kind) ∈ specs L)
    (hk : kind = "impl".toList) : L = .rust ∧ pre = "impl ".toList := by
  have hall : ∀ p ∈ specs L, p.2 = "impl".toList → L = .rust ∧ p.1 = "impl ".toList := by
    cases L with
    | rust => decide
    | tsJs => decide
    | python => decide
  exact hall (pre, kind) h hk

/-- Outside Rust no kind of symbol is that of `impl`. -/
theorem nameOf_eq_symbolName {x : Extern} {L : Language} (hL : L ≠ .rust) {s rest kind : Text}
    (h : findSpec s (specs L) = some (rest, kind)) : nameOf x kind rest = symbolName x rest := by
  obtain ⟨pre, hmem, -⟩ := findSpec_eq_some h
  exact if_neg fun hk => hL (spec_impl hmem hk).1

section
variable (x : Extern)

/-- What a line that is no comment puts out, for given docs. -/
def declarationOut (L : Language) (line : Text) (lineNo : ℕ) (doc : Option Text) :
    Except Failure (Option ExtractedSymbol) :=
  match declared x L line with
  | none => .ok none
  | some (name, kind) => some <$> symbolOfLine line lineNo name kind (visibility L line) doc

theorem parseRustDecl_eq (line : Text) (lineNo : ℕ) (doc : Option Text) :
    parseRustDecl x line lineNo doc = declarationOut x .rust line lineNo doc := by
  unfold parseRustDecl declarationOut declared
  simp only [unpublished, specs, visibility, publicPrefix]
  cases findSpec ((stripPrefix line "pub ".toList).getD line) rustSpecs with
  | none => rfl
  | some p =>
    obtain ⟨rest, kind⟩ := p
    simp only [← nameOf.eq_1]
    cases nameOf x kind rest with
    | none => rfl
    | some name => rfl

theorem parseTsJsDecl_eq (line : Text) (lineNo : ℕ) (doc : Option Text) :
    parseTsJsDecl x line lineNo doc = declarationOut x .tsJs line lineNo doc := by
  unfold parseTsJsDecl declarationOut declared
  simp only [unpublished, specs, visibility, publicPrefix]
  cases hf : findSpec (((stripPrefix line "export default ".toList).or
      (stripPrefix line "export ".toList)).getD line) tsJsSpecs with
  | none => rfl
  | some p =>
    obtain ⟨rest, kind⟩ := p
    have hname : nameOf x kind rest = symbolName x rest := nameOf_eq_symbolName (L := .tsJs) (by decide) hf
    simp only [hname]
    cases symbolName x rest with
    | none => rfl
    | some name => rfl

theorem lineOut_of_not_letterFirst {L : Language} {docs : List Text} {lineNo : ℕ} {line : Text}
    (h : letterFirst (trim line) = false) : lineOut x L docs lineNo line = .ok none := by
  unfold lineOut
  rw [declared_of_not_letterFirst h]

theorem extractRustFrom_eq : ∀ (ls : List Text) (lineNo : ℕ) (docs : List Text),
    extractRustFrom x ls lineNo docs = scan (docsAfter x .rust) (lineOut x .rust) ls lineNo docs
  | [], _, _ => rfl
  | line :: ls, lineNo, docs => by
    rw [extractRustFrom]
    cases hd : rustDoc (trim line) with
    | some doc =>
      have hnext : docsAfter x .rust docs line = docs ++ [doc] := by simp only [docsAfter, hd]
      rw [scan_cons_none (lineOut_of_not_letterFirst x (letterFirst_of_rustDoc hd)), hnext]
      exact extractRustFrom_eq ls _ _
    | none =>
      have hnext : docsAfter x .rust docs line =
          if startsWith (trim line) "#[".toList then docs else [] := by simp only [docsAfter, hd]
      by_cases hc : (trim line).isEmpty || startsWith (trim line) "//".toList ||
        startsWith (trim line) "#".toList
      · have hno : letterFirst (trim line) = false := by
          simp only [Bool.or_eq_true] at hc
          exact letterFirst_of_comment hc ⟨by decide, by decide⟩ ⟨by decide, by decide⟩
        rw [scan_cons_none (lineOut_of_not_letterFirst x hno), hnext]
        simp only [hc, if_true]
        exact extractRustFrom_eq ls _ _
      · -- an attribute would have been a comment
        have hattr : startsWith (trim line) "#[".toList = false := by
          by_contra hattr
          refine hc ?_
          have hpre : "#".toList <+: trim line :=
            List.IsPrefix.trans (by decide) (startsWith_iff.mp (Bool.not_eq_false _ ▸ hattr))
          rw [startsWith_iff.mpr hpre, Bool.or_true]
        simp only [hc, if_false, hattr, Bool.false_eq_true] at hnext ⊢
        rw [parseRustDecl_eq, scan, hnext, extractRustFrom_eq ls]
        rfl

theorem extractTsJsFrom_eq : ∀ (ls : List Text) (lineNo : ℕ) (docs : List Text),
    extractTsJsFrom x ls lineNo docs = scan (docsAfter x .tsJs) (lineOut x .tsJs) ls lineNo docs
  | [], _, _ => rfl
  | line :: ls, lineNo, docs => by
    rw [extractTsJsFrom]
    cases hd : jsDoc (trim line) with
    | some doc =>
      have hnext : docsAfter x .tsJs docs line = docs ++ [doc] := by simp only [docsAfter, hd]
      rw [scan_cons_none (lineOut_of_not_letterFirst x (letterFirst_of_jsDoc hd)), hnext]
      exact extractTsJsFrom_eq ls _ _
    | none =>
      by_cases hc : (trim line).isEmpty || startsWith (trim line) "//".toList ||
        startsWith (trim line) "*".toList
      · have hnext : docsAfter x .tsJs docs line = docs := by simp only [docsAfter, hd, hc, if_true]
        have hno : letterFirst (trim line) = false := by
          simp only [Bool.or_eq_true] at hc
          exact letterFirst_of_comment hc ⟨by decide, by decide⟩ ⟨by decide, by decide⟩
        rw [scan_cons_none (lineOut_of_not_letterFirst x hno), hnext]
        simp only [hc, if_true]
        exact extractTsJsFrom_eq ls _ _
      · have hnext : docsAfter x .tsJs docs line = [] := by
          simp only [docsAfter, hd, hc, Bool.false_eq_true, if_false]
        simp only [hc, Bool.false_eq_true, if_false]
        rw [parseTsJsDecl_eq, scan, hnext, extractTsJsFrom_eq ls]
        rfl

theorem extractPythonFrom_eq : ∀ (ls : List Text) (lineNo : ℕ) (docs : List Text),
    extractPythonFrom x ls lineNo docs = scan (docsAfter x .python) (lineOut x .python) ls lineNo docs
  | [], _, _ => rfl
  | line :: ls, lineNo, docs => by
    rw [extractPythonFrom]
    cases hd : pythonDoc (trim line) with
    | some doc =>
      have hnext : docsAfter x .python docs line = docs ++ [doc] := by simp only [docsAfter, hd]
      rw [scan_cons_none (lineOut_of_not_letterFirst x (letterFirst_of_pythonDoc hd)), hnext]
      exact extractPythonFrom_eq ls _ _
    | none =>
      by_cases hc : (trim line).isEmpty
      · have hnext : docsAfter x .python docs line = docs := by simp only [docsAfter, hd, hc, if_true]
        have hno : letterFirst (trim line) = false := by
          rw [List.isEmpty_iff.mp hc]
          rfl
        rw [scan_cons_none (lineOut_of_not_letterFirst x hno), hnext]
        simp only [hc, if_true]
        exact extractPythonFrom_eq ls _ _
      · simp only [hc, Bool.false_eq_true, if_false]
        cases hs : findSpec (trim line) pythonSpecs with
        | none =>
          have hnext : docsAfter x .python docs line = [] := by
            simp only [docsAfter, hd, hc, hs, Bool.false_eq_true, if_false]
          have hout : lineOut x .python docs lineNo line = .ok none := by
            simp only [lineOut, declared, unpublished, specs, hs]
          rw [scan_cons_none hout, hnext]
          exact extractPythonFrom_eq ls _ _
        | some p =>
          obtain ⟨tail, kind⟩ := p
          have hname : nameOf x kind tail = symbolName x tail :=
            nameOf_eq_symbolName (L := .python) (by decide) hs
          cases hn : symbolName x tail with
          | none =>
            have hnext : docsAfter x .python docs line = docs := by
              simp only [docsAfter, hd, hc, hs, hn, Bool.false_eq_true, if_false, Option.isNone_none,
                if_true]
            have hout : lineOut x .python docs lineNo line = .ok none := by
              simp only [lineOut, declared, unpublished, specs, hs, hname, hn, Option.map_none]
            simp only [hn]
            rw [scan_cons_none hout, hnext]
            exact extractPythonFrom_eq ls _ _
          | some name =>
            have hnext : docsAfter x .python docs line = [] := by
              simp only [docsAfter, hd, hc, hs, hn, Bool.false_eq_true, if_false, Option.isNone_some]
            have hout : lineOut x .python docs lineNo line = some <$>
                symbolOfLine (trim line) lineNo name kind none (takeDocs docs) := by
              simp only [lineOut, declared, unpublished, specs, hs, hname, hn, Option.map_some,
                visibility, publicPrefix]
            simp only [hn]
            rw [scan, hnext, hout, extractPythonFrom_eq ls]
            cases symbolOfLine (trim line) lineNo name kind none (takeDocs docs) with
            | error e => rfl
            | ok symbol => rfl

/-- **Extraction is one pass** over the lines; without an extractor there are no symbols. -/
theorem extract_eq_scan (content : Text) (lang : Option Text) :
    extract x content lang =
      match languageOf lang with
      | some L => scan (docsAfter x L) (lineOut x L) (lines content) 1 []
      | none => .ok [] := by
  unfold extract languageOf
  dsimp only
  split_ifs with hrust htsJs hpython
  · exact extractRustFrom_eq x _ _ _
  · exact extractTsJsFrom_eq x _ _ _
  · exact extractPythonFrom_eq x _ _ _
  · rfl

end

end BrainEngine.Symbols.Lines
