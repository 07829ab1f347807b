import Mathlib.Data.List.Basic
import Mathlib.Tactic.Common

/-! # JavaScript's strings and JSON values

A string is the list of its UTF-16 code units. `Json` is what `JSON.parse` returns, with the operations
that the client applies to it; a number goes by its text. Property access on `null`, which throws, is
left to the caller. -/

namespace BrainEngine.Js.Values

abbrev JsString := List UInt16

/-- A string literal of characters with one code unit each. -/
def js (s : String) : JsString := s.toList.map fun c => c.toNat.toUInt16

inductive Json
  | null
  | bool (b : Bool)
  | num (text : JsString)
  | str (s : JsString)
  | arr (xs : List Json)
  | obj (fields : List (JsString × Json))

/-- What counts as true. -/
def Json.truthy : Json → Bool
  | .null => false
  | .bool b => b
  | .num text => text ≠ js "0"
  | .str s => !s.isEmpty
  | .arr _ => true
  | .obj _ => true

/-- A property, if there is one. -/
def Json.get (v : Json) (key : String) : Option Json :=
  match v with
  | .obj fields => fields.lookup (js key)
  | _ => none

/-- `=== "…"`. -/
def isStr (v : Option Json) (s : String) : Bool :=
  match v with
  | some (.str t) => t = js s
  | _ => false

/-- `a || b`, where only `a` may be missing. -/
def orElse (a : Option Json) (b : Json) : Json :=
  match a with
  | some v => if v.truthy then v else b
  | none => b

/-- `a || b`. -/
def orElse? (a b : Option Json) : Option Json :=
  match a with
  | some v => if v.truthy then some v else b
  | none => b

mutual

/-- What `join` makes of an element. There is no result where it throws: an object whose `toString` is
no function. -/
def Json.piece : Json → Option JsString
  | .null => some []
  | .bool b => some (js (if b then "true" else "false"))
  | .num text => some text
  | .str s => some s
  | .arr xs => (Json.pieces xs).map fun ps => (js ",").intercalate ps
  | .obj fields =>
    if (fields.lookup (js "toString")).isSome then none else some (js "[object Object]")

def Json.pieces : List Json → Option (List JsString)
  | [] => some []
  | x :: xs =>
    match x.piece, Json.pieces xs with
    | some p, some ps => some (p :: ps)
    | _, _ => none

end

/-! ### Regular expressions

The forms of pattern that the client uses, with the flag `i` where it has no digits. -/

/-- Without the flag `u`, only ASCII letters are other letters' capitals in these patterns. -/
def lowerUnit (c : UInt16) : UInt16 := if 65 ≤ c ∧ c ≤ 90 then c + 32 else c

/-- A literal, in lower case, at the beginning. -/
def litAt (lit : String) (s : JsString) : Bool := (js lit).isPrefixOf (s.map lowerUnit)

/-- `.` matches all but line terminators. -/
def dot (c : UInt16) : Bool := c ≠ 0x0A && c ≠ 0x0D && c ≠ 0x2028 && c ≠ 0x2029

/-- `.?lit`. -/
def optDotThen (lit : String) (s : JsString) : Bool :=
  litAt lit s || match s with
    | c :: rest => dot c && litAt lit rest
    | [] => false

/-- `.*lit`. -/
def dotsThen (lit : String) : JsString → Bool
  | [] => litAt lit []
  | c :: rest => litAt lit (c :: rest) || dot c && dotsThen lit rest

/-- Somewhere in the string. -/
def somewhere (p : JsString → Bool) (s : JsString) : Bool := s.tails.any p

/-- A character of `\w`. -/
def isWordUnit (c : UInt16) : Bool :=
  (48 ≤ c && c ≤ 57) || (65 ≤ c && c ≤ 90) || c == 95 || (97 ≤ c && c ≤ 122)

/-- `\blit\b` for a literal of word characters, after the character `prev`. -/
def wordFrom (lit : String) : Option UInt16 → JsString → Bool
  | _, [] => false
  | prev, c :: rest =>
    !prev.any isWordUnit && (js lit).isPrefixOf (c :: rest) &&
      !((c :: rest).drop lit.length).head?.any isWordUnit || wordFrom lit (some c) rest

end BrainEngine.Js.Values
