import BrainEngine.Core.Hooks

/-! # Uninstalling the hooks

`cleanSettings` is the step of `uninstall.sh` that takes the hooks out of a settings file: a `grep`, and a
filter of `jq`. A filter is a function here, with `none` for an error. -/

namespace BrainEngine.Core.Uninstall

open BrainEngine.Rust.Str BrainEngine.Rust.Json BrainEngine.Core.Hooks
open BrainEngine.Lib.Utf8 (encode)

/-! ### Filters -/

/-- All but `null` and `false`. -/
def truthy : Value → Bool
  | .null => false
  | .bool b => b
  | _ => true

/-- `.key`, which is `null` for a missing field and for `null`. -/
def field (key : String) : Value → Option Value
  | .object fields => some ((fields.lookup key.toList).getD .null)
  | .null => some .null
  | _ => none

/-- `.[]`. -/
def iterate : Value → Option (List Value)
  | .array items => some items
  | .object fields => some (fields.map Prod.snd)
  | _ => none

/-- What `a // b` has of the outputs of `a`: an error ends them quietly. -/
def outputs (a : Value → Option Value) (inputs : List Value) : List Value :=
  (((inputs.map a).takeWhile Option.isSome).filterMap id).filter truthy

/-- `any(test(pattern))`, which looks no further than the first match; only strings can be tested. -/
def anyTest (pattern : Text) : List Value → Option Bool
  | [] => some false
  | .string s :: vs => if mentions pattern s then some true else anyTest pattern vs
  | _ :: _ => none

/-- `[.[] | select(keep)]` -/
def select (keep : Value → Option Bool) : List Value → Option (List Value)
  | [] => some []
  | v :: vs => do
    let kept ← keep v
    let rest ← select keep vs
    return if kept then v :: rest else rest

/-! ### The filter of `clean_settings` -/

def brain : Text := "brain".toList

/-- `[(.hooks // [])[].command // ""]` -/
def groupStrings (group : Value) : List Value :=
  let hooks := ((outputs (field "hooks") [group]).head?).getD (.array [])
  let found := outputs (field "command") ((iterate hooks).getD [])
  if found.isEmpty then [.string []] else found

/-- The group is kept: none of its commands mentions brain. -/
def keepGroup (group : Value) : Option Bool := (anyTest brain (groupStrings group)).map (!·)

/-- The events with the groups that are kept, without those that are emptied. -/
def stripEvents (hooks : List (Text × Value)) : Option (List (Text × Value)) := do
  let kept ← hooks.mapM fun a => ((iterate a.2).bind (select keepGroup)).map (a.1, ·)
  return (kept.filter fun a => 0 < a.2.length).map fun a => (a.1, .array a.2)

/-- The filter. Where `hooks` is no object, `with_entries` fails, or is left to the version of `jq` if it
is an array. -/
def strip (root : Value) : Option Value := do
  let hooks ← field "hooks" root
  if !truthy hooks then return root
  match root, hooks with
  | .object fields, .object events =>
    let events ← stripEvents events
    if events.isEmpty then return .object (fields.filter fun a => a.1 ≠ "hooks".toList)
    else return .object (insertField "hooks".toList (.object events) fields)
  | _, _ => none

/-! ### The step -/

/-- The machine of an uninstallation: its option, and what the tools do. -/
structure Machine where
  dryRun : Bool
  hasJq : Bool
  /-- The value that `jq` reads from a file. -/
  parse : List UInt8 → Option Value
  /-- The output is moved over the file. -/
  moves : Bool

/-- The value that `clean_settings` replaces a file by, if it does. -/
def cleanSettings (m : Machine) : SettingsFile → Option Value
  | .bytes content =>
    if !mentions (encode brain) content then none
    else if m.dryRun then none
    else if m.hasJq then ((m.parse content).bind strip).filter fun _ => m.moves
    else none
  | _ => none

end BrainEngine.Core.Uninstall
