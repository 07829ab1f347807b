import BrainEngine.Js.Values
import BrainEngine.Rust.Str

/-! # The session panel

`sessionPanel` reads the log of the day and adds up what its lines say. A line that is not JSON is passed
over. What `JSON.parse` gives for a line, and the sums of numbers, are parameters; the panel's text is left
out. -/

namespace BrainEngine.Client.Panel

open BrainEngine.Rust.Str BrainEngine.Js.Values

/-- JavaScript's numbers. -/
structure Arithmetic (N : Type) where
  ofText : JsString → N
  add : N → N → N

structure Totals (N : Type) where
  n : ℕ
  realTokens : N
  time : N
  hits : ℕ
  deriving DecidableEq

section
variable {N : Type} (arith : Arithmetic N) (parse : Text → Option Json)

def Arithmetic.zero : N := arith.ofText (js "0")

def Totals.zero : Totals N := ⟨0, arith.zero, arith.zero, 0⟩

/-- What `+= v || 0` adds: `true` counts as 1. There is no result for texts, lists and objects, to which
`+=` appends. -/
def orZero (v : Option Json) : Option N :=
  match v with
  | none => some arith.zero
  | some (.num text) => some (arith.ofText text)
  | some (.bool true) => some (arith.ofText (js "1"))
  | some w => if w.truthy then none else some arith.zero

/-- One line of the log. A property of `null` throws. -/
def addLine (t : Totals N) (l : Text) : Option (Totals N) :=
  match parse l with
  | none => some t
  | some .null => none
  | some m => do
    let tokens ← orZero arith (m.get "context_tokens_estimated")
    let time ← orZero arith (m.get "response_time_ms")
    return ⟨t.n + 1, arith.add t.realTokens tokens, arith.add t.time time,
      if (m.get "cache_hit").any Json.truthy then t.hits + 1 else t.hits⟩

/-- The sums over these lines, if any of them counts. -/
def sums (lines : List Text) : Option (Totals N) := do
  let t ← lines.foldlM (addLine arith parse) (.zero arith)
  if t.n = 0 then none else some t

/-- The sums of the panel, from the log of the day. -/
def sessionPanel (file : Option Text) : Option (Totals N) :=
  file.bind fun text => sums arith parse ((text.splitOn '\n').filter fun l => !l.isEmpty)

/-! ### Lines that are passed over -/

variable {arith parse} {t : Totals N}

theorem addLine_of_none {l : Text} (h : parse l = none) : addLine arith parse t l = some t := by
  rw [addLine, h]

/-- Nothing is lost with the empty lines. -/
theorem foldlM_filter (h : parse [] = none) (lines : List Text) (t : Totals N) :
    (lines.filter fun l => !l.isEmpty).foldlM (addLine arith parse) t =
      lines.foldlM (addLine arith parse) t := by
  induction lines generalizing t with
  | nil => rfl
  | cons l lines ih =>
    by_cases hl : l = []
    · subst hl
      rw [List.filter_cons_of_neg (by simp), List.foldlM_cons, addLine_of_none h, ih]
      rfl
    · rw [List.filter_cons_of_pos (by simpa using hl), List.foldlM_cons, List.foldlM_cons]
      exact congrArg _ (funext fun t => ih t)

/-- The panel for a file that is missing is that for an empty one. -/
theorem sessionPanel_eq (h : parse [] = none) (file : Option Text) :
    sessionPanel arith parse file = sums arith parse ((file.getD []).splitOn '\n') := by
  cases file with
  | none =>
    show none = sums arith parse [[]]
    rw [sums, List.foldlM_cons, addLine_of_none h]
    rfl
  | some text =>
    show sums arith parse ((text.splitOn '\n').filter fun l => !l.isEmpty) = _
    rw [sums, foldlM_filter h]
    rfl

end

end BrainEngine.Client.Panel
