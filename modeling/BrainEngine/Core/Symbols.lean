import BrainEngine.Core.External

/-! # Symbol extraction

The line-based extractors for Rust, TypeScript / JavaScript and Python. Each goes through the lines
with the doc comments that wait for the next declaration. `signatureFromLine` calls
`String::truncate`, which panics inside a character, so an extractor may panic. -/

namespace BrainEngine.Core.Symbols

open BrainEngine.Rust.Str BrainEngine.Core.External

/-- A symbol extracted from one source file. -/
structure ExtractedSymbol where
  name : Text
  kind : Text
  signature : Option Text
  startLine : ℕ
  endLine : ℕ
  visibility : Option Text
  doc : Option Text
  deriving DecidableEq

/-- The docs as one text, taken out of the list. -/
def takeDocs (docs : List Text) : Option Text :=
  if docs.isEmpty then none else some (join [' '] docs)

def symbolName (x : Extern) (rest : Text) : Option Text :=
  let t := trim rest
  let name := splitFirst (fun c => !(isAlphanumeric x c || c == '_'))
    (trimStartText "r#".toList t.length t)
  if name.isEmpty then none else some name

/-- The line without the opening brace, cut to 237 bytes and `...` if it is longer than 240. -/
def signatureFromLine (line : Text) : Except Failure Text :=
  let out := trim (trimEndMatches (· == '{') (trim line))
  if 240 < byteLen out then
    match truncate 237 out with
    | some cut => .ok (cut ++ "...".toList)
    | none => .error .panic
  else .ok out

/-- The symbol of a line that declares `name`. -/
def symbolOfLine (line : Text) (lineNo : ℕ) (name kind : Text) (visibility doc : Option Text) :
    Except Failure ExtractedSymbol := do
  let signature ← signatureFromLine line
  return {
    name, kind, signature := some signature, startLine := lineNo, endLine := lineNo, visibility, doc }

/-- The first of `specs` that stands in front of `s`, with what follows it. -/
def findSpec (s : Text) : List (Text × Text) → Option (Text × Text)
  | [] => none
  | (pre, kind) :: specs =>
    match stripPrefix s pre with
    | some rest => some (rest, kind)
    | none => findSpec s specs

/-- Texts of a table in the source. -/
def table (l : List (String × String)) : List (Text × Text) :=
  l.map fun p => (p.1.toList, p.2.toList)

/-! ### Rust -/

def rustDoc (line : Text) : Option Text :=
  ((stripPrefix line "///".toList).or (stripPrefix line "//!".toList)).map trim
    |>.filter fun s => !s.isEmpty

def rustSpecs : List (Text × Text) := table [
  ("async fn ", "fn"), ("fn ", "fn"), ("struct ", "struct"), ("enum ", "enum"),
  ("trait ", "trait"), ("type ", "type"), ("const ", "const"), ("impl ", "impl")]

def parseRustDecl (x : Extern) (line : Text) (lineNo : ℕ) (doc : Option Text) :
    Except Failure (Option ExtractedSymbol) :=
  let visibility := if startsWith line "pub ".toList then some "pub".toList else none
  let s := (stripPrefix line "pub ".toList).getD line
  match findSpec s rustSpecs with
  | none => .ok none
  | some (rest, kind) =>
    let name := if kind = "impl".toList then
        some (trimMatches (· == '{') ((firstWord rest).getD "impl".toList))
      else symbolName x rest
    match name with
    | none => .ok none
    | some name => some <$> symbolOfLine line lineNo name kind visibility doc

def extractRustFrom (x : Extern) : List Text → ℕ → List Text → Except Failure (List ExtractedSymbol)
  | [], _, _ => .ok []
  | line :: rest, lineNo, docs =>
    let trimmed := trim line
    match rustDoc trimmed with
    | some doc => extractRustFrom x rest (lineNo + 1) (docs ++ [doc])
    | none =>
      if trimmed.isEmpty || startsWith trimmed "//".toList || startsWith trimmed "#".toList then
        extractRustFrom x rest (lineNo + 1) (if startsWith trimmed "#[".toList then docs else [])
      else do
        let symbol ← parseRustDecl x trimmed lineNo (takeDocs docs)
        let symbols ← extractRustFrom x rest (lineNo + 1) []
        return symbol.toList ++ symbols

/-! ### TypeScript and JavaScript -/

def jsDoc (line : Text) : Option Text :=
  (((stripPrefix line "///".toList).or (stripPrefix line "*".toList)).or
      (stripPrefix line "//".toList)).map
    (fun s => trim (trimMatches (· == '*') (trimMatches (· == '/') (trim s))))
    |>.filter fun s => !s.isEmpty

def tsJsSpecs : List (Text × Text) := table [
  ("async function ", "fn"), ("function ", "fn"), ("class ", "class"), ("interface ", "type"),
  ("type ", "type"), ("const ", "const"), ("let ", "const")]

def parseTsJsDecl (x : Extern) (line : Text) (lineNo : ℕ) (doc : Option Text) :
    Except Failure (Option ExtractedSymbol) :=
  let visibility := if startsWith line "export ".toList then some "pub".toList else none
  let s := ((stripPrefix line "export default ".toList).or
    (stripPrefix line "export ".toList)).getD line
  match findSpec s tsJsSpecs with
  | none => .ok none
  | some (rest, kind) =>
    match symbolName x rest with
    | none => .ok none
    | some name => some <$> symbolOfLine line lineNo name kind visibility doc

def extractTsJsFrom (x : Extern) : List Text → ℕ → List Text → Except Failure (List ExtractedSymbol)
  | [], _, _ => .ok []
  | line :: rest, lineNo, docs =>
    let trimmed := trim line
    match jsDoc trimmed with
    | some doc => extractTsJsFrom x rest (lineNo + 1) (docs ++ [doc])
    | none =>
      if trimmed.isEmpty || startsWith trimmed "//".toList || startsWith trimmed "*".toList then
        extractTsJsFrom x rest (lineNo + 1) docs
      else do
        let symbol ← parseTsJsDecl x trimmed lineNo (takeDocs docs)
        let symbols ← extractTsJsFrom x rest (lineNo + 1) []
        return symbol.toList ++ symbols

/-! ### Python -/

def pythonSpecs : List (Text × Text) :=
  table [("async def ", "fn"), ("def ", "fn"), ("class ", "class")]

def pythonDoc (line : Text) : Option Text :=
  ((stripPrefix line "#".toList).map trim).filter fun s => !s.isEmpty

def extractPythonFrom (x : Extern) :
    List Text → ℕ → List Text → Except Failure (List ExtractedSymbol)
  | [], _, _ => .ok []
  | line :: rest, lineNo, docs =>
    let trimmed := trim line
    match pythonDoc trimmed with
    | some doc => extractPythonFrom x rest (lineNo + 1) (docs ++ [doc])
    | none =>
      if trimmed.isEmpty then extractPythonFrom x rest (lineNo + 1) docs
      else
        match findSpec trimmed pythonSpecs with
        | none => extractPythonFrom x rest (lineNo + 1) []
        | some (tail, kind) =>
          match symbolName x tail with
          -- a declaration without a name leaves the docs for the next one
          | none => extractPythonFrom x rest (lineNo + 1) docs
          | some name => do
            let symbol ← symbolOfLine trimmed lineNo name kind none (takeDocs docs)
            let symbols ← extractPythonFrom x rest (lineNo + 1) []
            return symbol :: symbols

/-! ### All languages -/

/-- Extract symbols from source text. -/
def extract (x : Extern) (content : Text) (lang : Option Text) :
    Except Failure (List ExtractedSymbol) :=
  let l := lang.getD []
  if l = "rust".toList then extractRustFrom x (lines content) 1 []
  else if l = "typescript".toList ∨ l = "javascript".toList then
    extractTsJsFrom x (lines content) 1 []
  else if l = "python".toList then extractPythonFrom x (lines content) 1 []
  else .ok []

end BrainEngine.Core.Symbols
