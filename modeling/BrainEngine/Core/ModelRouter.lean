import BrainEngine.Rust.Str
import BrainEngine.Lib.Sorted
import Mathlib.Algebra.Group.Int.Defs
import Mathlib.Data.List.Lex

/-! # The model router

A prompt is classified by the words in it, every model gets points for the class, and the model with
most points is chosen. `Lowercase` is `str::to_lowercase`, of which only what it makes of the empty text
is said. -/

namespace BrainEngine.Core.ModelRouter

open BrainEngine.Rust.Str BrainEngine.Lib.Sorted

/-- `str::to_lowercase`. -/
structure Lowercase where
  map : Text → Text
  map_nil : map [] = []

/-- A selectable model tier. -/
inductive Model
  | opus
  | sonnet
  | deepSeek
  | haiku
  | «local»
  deriving DecidableEq

/-- Lowercase identifier. -/
def Model.asStr : Model → Text
  | .opus => "opus".toList
  | .sonnet => "sonnet".toList
  | .deepSeek => "deepseek".toList
  | .haiku => "haiku".toList
  | .local => "local".toList

/-- Tie-break preference: lower wins when two models share the top score. -/
def Model.tieBreakRank : Model → ℕ
  | .sonnet => 0
  | .opus => 1
  | .deepSeek => 2
  | .haiku => 3
  | .local => 4

/-- All models, in tie-break order. -/
def Model.all : List Model := [.sonnet, .opus, .deepSeek, .haiku, .local]

/-- Coarse request category. -/
inductive RequestType
  | faq
  | code
  | architecture
  | text
  | unknown
  deriving DecidableEq

/-- Estimated reasoning depth required. -/
inductive Complexity
  | low
  | medium
  | high
  deriving DecidableEq

/-- The structured classification of a single request. -/
structure RequestClass where
  reqType : RequestType
  complexity : Complexity
  hasCode : Bool
  isCritical : Bool
  deriving DecidableEq

/-- The outcome of model routing. -/
structure ModelDecision where
  model : Model
  scores : SortedMap Text ℤ
  class' : RequestClass
  reason : Text

/-! ### Classification -/

def texts (l : List String) : List Text := l.map String.toList

/-- Word count threshold above which a prompt is considered at least "medium". -/
def longPromptWords : ℕ := 60

/-- Word count threshold below which an unspecific prompt stays "low". -/
def shortPromptWords : ℕ := 12

/-- `split_whitespace().count()`, `inWord` inside a word. -/
def countWords (inWord : Bool) : Text → ℕ
  | [] => 0
  | c :: cs =>
    if isWhitespace c then countWords false cs
    else if inWord then countWords true cs
    else countWords true cs + 1

def containsAny (haystack : Text) (needles : List Text) : Bool :=
  needles.any fun n => mentions n haystack

def codeMarkers : List Text := texts [
  "function ", "=>", "();", " def ", "class ", "import ", "fn ", " let ",
  " const ", "public ", "private ", "#include", "</", "\x7b\n", "\x7d);",
  "return ", "console.log", "println!", "->", "::", "git ", "npm ", "cargo "]

/-- Fenced blocks or at least two distinct markers. -/
def detectCode (raw lower : Text) : Bool :=
  if mentions "```".toList raw then true
  else 2 ≤ (codeMarkers.filter fun m => mentions m lower).length

def criticalWords : List Text := texts [
  "production", "produção", "security", "segurança", "vulnerab",
  "payment", "pagamento", "auth", "password", "senha", "credential",
  "critical", "crítico", "urgent", "urgente", "data loss", "perda de dados",
  "migration", "migração", "delete all", "drop table", "lgpd", "gdpr",
  "compliance", "financ"]

/-- High-stakes correctness/security/availability words. -/
def detectCritical (toLower : Lowercase) (lower : Text) (extra : List Text) : Bool :=
  if containsAny lower criticalWords then true
  else extra.any fun w =>
    let w := toLower.map (trim w)
    !w.isEmpty && mentions w lower

def archWords : List Text := texts [
  "architect", "arquitet", "system design", "design the", "scalab",
  "escalab", "microservice", "infrastructure", "infraestrutura",
  "trade-off", "tradeoff", "high-level", "plan the", "planejar",
  "audit", "auditoria", "throughput", "distributed", "data model",
  "schema design"]

def codeWords : List Text := texts [
  "bug", "error", "erro", "exception", "stack trace", "stacktrace",
  "implement", "implementar", "refactor", "refatorar", "debug",
  "compile", "compilar", "function", "função", "fix ", "corrigir",
  "unit test", "endpoint", "api ", "regex", "algorithm", "algoritmo"]

def textWords : List Text := texts [
  "write a", "escreve", "escrever", "essay", "redação", "blog",
  "summary", "summarize", "resumo", "resumir", "translate", "traduzir",
  "rewrite", "reescrever", "tweet", "post ", "caption", "legenda",
  "headline", "slogan", "copy "]

def faqWords : List Text := texts [
  "what is", "o que é", "what's", "how do", "how to", "como faço",
  "como ", "when ", "quando ", "where ", "onde ", "which ", "qual ",
  "who ", "quem ", "define", "meaning of", "significado"]

/-- Type detection in priority order. -/
def detectType (lower : Text) (hasCode : Bool) : RequestType :=
  if containsAny lower archWords then .architecture
  else if hasCode || containsAny lower codeWords then .code
  else if containsAny lower textWords then .text
  else if (trimEndMatches isWhitespace lower).getLast? = some '?' || containsAny lower faqWords then .faq
  else .unknown

def multistepWords : List Text := texts [
  "step by step", "passo a passo", "multiple", "vários", "várias",
  "and then", "e depois", "migrate", "migrar", "across", "end-to-end",
  "ponta a ponta", "several", "first.*then", "pipeline"]

/-- Architecture and critical work is high-effort, short lookups are low. -/
def detectComplexity (lower : Text) (words : ℕ) (reqType : RequestType) (isCritical : Bool) :
    Complexity :=
  if reqType = .architecture ∨ isCritical = true then .high
  else if longPromptWords ≤ words ∨ containsAny lower multistepWords = true then .high
  else if reqType = .faq ∨ words ≤ shortPromptWords then .low
  else .medium

def classify (toLower : Lowercase) (prompt : Text) (extraCritical : List Text) : RequestClass :=
  let lower := toLower.map prompt
  let words := countWords false prompt
  let hasCode := detectCode prompt lower
  let isCritical := detectCritical toLower lower extraCritical
  let reqType := detectType lower hasCode
  { reqType, complexity := detectComplexity lower words reqType isCritical, hasCode, isCritical }

/-! ### Selection -/

structure Scores where
  opus : ℤ := 0
  sonnet : ℤ := 0
  deepseek : ℤ := 0
  haiku : ℤ := 0
  «local» : ℤ := 0

/-- The points so far and the reasons for them. -/
abbrev Tally := Scores × List Text

/-- The guardrail weight. -/
def scoreCritical (c : RequestClass) (t : Tally) : Tally :=
  if c.isCritical then ({ t.1 with opus := t.1.opus + 100 }, t.2 ++ ["critical→opus".toList]) else t

def scoreComplexity (c : RequestClass) (t : Tally) : Tally :=
  match c.complexity with
  | .high =>
    ({ t.1 with opus := t.1.opus + 2, sonnet := t.1.sonnet + 1 }, t.2 ++ ["high_complexity".toList])
  | .medium => ({ t.1 with sonnet := t.1.sonnet + 2 }, t.2 ++ ["medium_complexity".toList])
  | .low =>
    ({ t.1 with haiku := t.1.haiku + 1, «local» := t.1.local + 1, deepseek := t.1.deepseek + 1 },
      t.2 ++ ["low_complexity".toList])

def scoreType (c : RequestClass) (t : Tally) : Tally :=
  match c.reqType with
  | .architecture =>
    ({ t.1 with opus := t.1.opus + 3, sonnet := t.1.sonnet + 1 }, t.2 ++ ["type:architecture".toList])
  | .code =>
    if c.complexity = .low then
      ({ t.1 with deepseek := t.1.deepseek + 2 }, t.2 ++ ["type:code(simple)".toList])
    else
      ({ t.1 with sonnet := t.1.sonnet + 3, deepseek := t.1.deepseek + 1 },
        t.2 ++ ["type:code(complex)".toList])
  | .faq =>
    ({ t.1 with «local» := t.1.local + 3, haiku := t.1.haiku + 1 }, t.2 ++ ["type:faq".toList])
  | .text =>
    if c.complexity = .low then
      ({ t.1 with haiku := t.1.haiku + 3 }, t.2 ++ ["type:text(short)".toList])
    else ({ t.1 with sonnet := t.1.sonnet + 2 }, t.2 ++ ["type:text".toList])
  | .unknown => ({ t.1 with sonnet := t.1.sonnet + 1 }, t.2 ++ ["type:unknown→sonnet".toList])

def scoreCode (c : RequestClass) (t : Tally) : Tally :=
  if c.hasCode then
    ({ t.1 with sonnet := t.1.sonnet + 1, deepseek := t.1.deepseek + 1 }, t.2 ++ ["has_code".toList])
  else t

def Scores.intoMap (s : Scores) : SortedMap Text ℤ :=
  let m := SortedMap.empty
  let m := m.entry Model.opus.asStr fun _ => s.opus
  let m := m.entry Model.sonnet.asStr fun _ => s.sonnet
  let m := m.entry Model.deepSeek.asStr fun _ => s.deepseek
  let m := m.entry Model.haiku.asStr fun _ => s.haiku
  m.entry Model.local.asStr fun _ => s.local

/-- The best model so far, with its score and rank. -/
structure Leader where
  best : Model
  bestScore : ℤ
  bestRank : ℕ

def leaderStep (scores : SortedMap Text ℤ) (l : Leader) (m : Model) : Leader :=
  let sc := (scores.get? m.asStr).getD 0
  let rank := m.tieBreakRank
  if l.bestScore < sc ∨ sc = l.bestScore ∧ rank < l.bestRank then ⟨m, sc, rank⟩ else l

/-- The model with the highest score; the leader before the first one has `i32::MIN` points and the rank
`u8::MAX`. -/
def pickWinner (scores : SortedMap Text ℤ) : Model :=
  (Model.all.foldl (leaderStep scores) ⟨.sonnet, -2 ^ 31, 255⟩).best

/-- Pick a model from a `RequestClass` using additive scoring. -/
def selectModel (c : RequestClass) : ModelDecision :=
  let t := scoreCode c (scoreType c (scoreComplexity c (scoreCritical c ({}, []))))
  let scores := t.1.intoMap
  { model := pickWinner scores, scores, class' := c, reason := join ", ".toList t.2 }

/-- Classify `prompt` and select a model in one call. -/
def route (toLower : Lowercase) (prompt : Text) (criticalKeywords : List Text) : ModelDecision :=
  selectModel (classify toLower prompt criticalKeywords)

end BrainEngine.Core.ModelRouter
