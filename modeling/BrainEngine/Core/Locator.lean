import BrainEngine.Lib.Ranked
import BrainEngine.Lib.Sorted
import BrainEngine.Rust.Spans
import Mathlib.Algebra.Group.Defs
import Mathlib.Data.List.Lex
import Mathlib.Data.Prod.Lex
import Mathlib.Order.OrderDual

/-! # The locator

`extract_targets` finds what a prompt names, and `rank_targets` makes a list of likely edit targets of the
chunks that a query has found. A score is an element of any linear order with an addition: `f32` is not
modelled, so that the arithmetic is exact. `lower` is `str::to_lowercase`. -/

namespace BrainEngine.Core.Locator

open BrainEngine.Rust.Str BrainEngine.Rust.Spans BrainEngine.Lib.Ranked BrainEngine.Lib.Sorted

/-- What the locator reads of a retrieved chunk. -/
structure RetrievedChunk (S : Type) where
  filePath : Text
  startLine : ℕ
  content : Text
  score : S

/-- One ranked file/line target for an action prompt. -/
structure LocatorTarget (S : Type) where
  file : Text
  line : ℕ
  why : Text
  score : S

structure Candidate (S : Type) where
  file : Text
  line : ℕ
  whyTerms : List Text
  score : S

variable {S : Type} (lower : Text → Text)

def matchedTerms (chunk : RetrievedChunk S) (promptTargets : List Text) : List Text :=
  let path := lower chunk.filePath
  let content := lower chunk.content
  promptTargets.filter fun target =>
    let t := lower target
    3 ≤ byteLen t && (mentions t path || mentions t content)

/-- `str::eq_ignore_ascii_case`. -/
def eqIgnoreAsciiCase (a b : Text) : Bool := toAsciiLowercase a = toAsciiLowercase b

/-- A term that is not there yet, but for the case of its letters, is added at the end. -/
def addTerm (terms : List Text) (term : Text) : List Text :=
  if terms.any fun t => eqIgnoreAsciiCase t term then terms else terms ++ [term]

/-! ### The targets of a prompt -/

def isQuote (c : Char) : Bool := c = '`' || c = '"' || c = '\''

/-- The inner loop: where the closing quote is, and what is left of the iterator. -/
def seekQuote (ch : Char) : List (ℕ × Char) → Option ℕ × List (ℕ × Char)
  | [] => (none, [])
  | (stop, next) :: chars => if next = ch then (some stop, chars) else seekQuote ch chars

/-- The outer loop, for less than `fuel` rounds. -/
def quotedLoop (prompt : Text) : ℕ → List (ℕ × Char) → List Text → Option (List Text)
  | 0, _, _ => none
  | _ + 1, [], spans => some spans
  | fuel + 1, (start, ch) :: chars, spans =>
    if !isQuote ch then quotedLoop prompt fuel chars spans
    else
      match seekQuote ch chars with
      | (none, rest) => quotedLoop prompt fuel rest spans
      | (some stop, rest) => do
        let span := trim (← slice (start + ch.utf8Size) stop prompt)
        quotedLoop prompt fuel rest (if span.isEmpty then spans else spans ++ [span])

/-- There is no result where a slice begins or ends inside a character. -/
def quotedSpans (prompt : Text) : Option (List Text) :=
  quotedLoop prompt (prompt.length + 1) (charIndices prompt) []

def isPunctuation (c : Char) : Bool := ".,;:()[]\x7b\x7d\"'`".toList.contains c

def fileExtensions : List Text :=
  [".rs".toList, ".ts".toList, ".tsx".toList, ".js".toList, ".jsx".toList, ".py".toList, ".go".toList,
    ".java".toList, ".kt".toList, ".swift".toList, ".rb".toList, ".php".toList, ".css".toList,
    ".scss".toList, ".html".toList, ".md".toList, ".json".toList, ".toml".toList, ".yaml".toList,
    ".yml".toList]

def looksLikeFile (token : Text) : Bool :=
  token.contains '/' || fileExtensions.any fun ext => endsWith token ext

def looksLikeSymbol (token : Text) : Bool :=
  mentions "::".toList token || token.contains '.' || token.contains '_' || token.any Char.isUpper

def stopWords : List Text :=
  ["crie".toList, "criar".toList, "adicione".toList, "adicionar".toList, "implemente".toList,
    "implementar".toList, "edite".toList, "editar".toList, "corrija".toList, "corrigir".toList,
    "remova".toList, "remover".toList, "create".toList, "add".toList, "implement".toList, "edit".toList,
    "fix".toList, "remove".toList, "uma".toList, "um".toList, "the".toList, "para".toList, "com".toList,
    "sem".toList, "from".toList, "into".toList]

def looksLikeFeatureWord (token : Text) : Bool :=
  4 ≤ byteLen token && !stopWords.any fun w => eqIgnoreAsciiCase token w

/-- A target that is not there yet, but for the case of its letters; there are twelve at most. -/
def pushTarget (out : List Text) (value : Text) : List Text :=
  let value := trim value
  if value.isEmpty || out.any fun v => eqIgnoreAsciiCase v value then out
  else if out.length < 12 then out ++ [value]
  else out

/-- One token of the prompt. -/
def pushToken (out : List Text) (raw : Text) : List Text :=
  let token := trimMatches isPunctuation raw
  if byteLen token < 3 then out
  else if looksLikeFile token || looksLikeSymbol token || looksLikeFeatureWord token then
    pushTarget out token
  else out

def extractTargets (prompt : Text) : Option (List Text) := do
  let spans ← quotedSpans prompt
  let out := spans.foldl pushTarget []
  return (splitWhitespace prompt).foldl pushToken out

example : extractTargets "corrija o `Auth guard` em src/auth.rs (auth GUARD)".toList =
    some ["Auth guard".toList, "Auth".toList, "guard".toList, "src/auth.rs".toList] := by decide

/-! ### The ranking -/

section
variable [LinearOrder S] [AddMonoid S] (quarter : S) (promptTargets : List Text)

/-- The score of a chunk with its lexical boost. -/
def boostedScore (chunk : RetrievedChunk S) : S :=
  chunk.score + (matchedTerms lower chunk promptTargets).length • quarter

/-- What a chunk makes of the candidate of its file. -/
def updateCandidate (chunk : RetrievedChunk S) (o : Option (Candidate S)) : Candidate S :=
  let matched := matchedTerms lower chunk promptTargets
  let score := boostedScore lower quarter promptTargets chunk
  let entry := o.getD
    { file := chunk.filePath, line := chunk.startLine, whyTerms := [], score := score }
  let entry := if entry.score < score then { entry with line := chunk.startLine, score := score } else entry
  { entry with whyTerms := matched.foldl addTerm entry.whyTerms }

/-- The order of the candidates: by descending score, then by file. -/
def rankKey (c : Candidate S) : Sᵒᵈ ×ₗ Text := toLex (OrderDual.toDual c.score, c.file)

def whyText (terms : List Text) : Text :=
  if terms.isEmpty then "semantic match from current index".toList
  else "matches ".toList ++ join ", ".toList terms

def targetOf (c : Candidate S) : LocatorTarget S where
  file := c.file
  line := c.line
  why := whyText c.whyTerms
  score := c.score

/-- The candidates by file. -/
def byFile (chunks : List (RetrievedChunk S)) : SortedMap Text (Candidate S) :=
  tally RetrievedChunk.filePath (updateCandidate lower quarter promptTargets) chunks

def rankTargets (chunks : List (RetrievedChunk S)) (maxTargets : ℕ) : List (LocatorTarget S) :=
  if maxTargets = 0 then []
  else
    let candidates := (byFile lower quarter promptTargets chunks).entries.map Prod.snd
    ((sortBy rankKey candidates).take maxTargets).map targetOf

end

end BrainEngine.Core.Locator
