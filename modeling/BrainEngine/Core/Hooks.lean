import BrainEngine.Core.External
import BrainEngine.Rust.Json
import BrainEngine.Rust.Utf8

/-! # Hook registration

`mergeSettings` adds the hook commands to `.claude/settings.json`. What it cannot read as a JSON object,
and what has another kind than it expects in there, it takes for empty. -/

namespace BrainEngine.Core.Hooks

open BrainEngine.Rust.Str BrainEngine.Rust.Json BrainEngine.Core.External
open BrainEngine.Lib.Utf8 (encode)

/-- What is at the path of the settings. -/
inductive SettingsFile
  | missing
  | unreadable (source : Text)
  | bytes (content : List UInt8)

/-- `Path::exists`. -/
def SettingsFile.present : SettingsFile → Bool
  | .missing => false
  | _ => true

/-- `serde_json::from_str` and `serde_json::to_string_pretty`, which does not fail on a value. -/
structure Serde where
  fromStr : Text → Option Value
  toStringPretty : Value → Text

/-- How `std::fs::write` fails: before it has opened the file, or once the file has been emptied, after
so many bytes. -/
inductive WriteError
  | refused (source : Text)
  | stopped (source : Text) (length : ℕ)

/-- The disk as one call finds it. -/
structure Disk where
  createDirError : Option Text
  writeError : Option WriteError

/-- What a call does to the file. -/
inductive Change
  | none
  | written (v : Value)
  /-- There are only the first bytes of the text. -/
  | torn (v : Value) (length : ℕ)

/-- What a call returns, and what it does to the file. -/
structure Merge where
  result : Except BrainError Bool
  change : Change

def settingsDir (root : Text) : Text := root ++ "/.claude".toList

def settingsPath (root : Text) : Text := settingsDir root ++ "/settings.json".toList

/-- The text that is written for a value. -/
def settingsText (serde : Serde) (v : Value) : Text := serde.toStringPretty v ++ ['\n']

def Change.after (serde : Serde) : Change → SettingsFile → SettingsFile
  | .none, file => file
  | .written v, _ => .bytes (encode (settingsText serde v))
  | .torn v length, _ => .bytes ((encode (settingsText serde v)).take length)

/-! ### The value -/

/-- The events and the commands that are registered for them. -/
def entries : List (String × String) := [
  ("UserPromptSubmit", "$CLAUDE_PROJECT_DIR/.claude/hooks/pre_prompt.sh"),
  ("Stop", "$CLAUDE_PROJECT_DIR/.claude/hooks/post_response.sh")]

/-- The group that is pushed for a command. -/
def hookGroup (cmd : String) : Value :=
  .object [("hooks".toList, .array [.object [("type".toList, .string "command".toList),
    ("command".toList, .string cmd.toList)]])]

/-- The group has the command. -/
def groupHas (cmd : String) (group : Value) : Bool :=
  ((group.get "hooks").bind Value.asArray).any fun hs =>
    hs.any fun h => h.getStr "command" = some cmd.toList

/-- The fields of an object, none if it is missing or something else. -/
def fieldsOr : Option Value → List (Text × Value)
  | some (.object fields) => fields
  | _ => []

/-- The items of an array, none if it is missing or something else. -/
def itemsOr : Option Value → List Value
  | some (.array items) => items
  | _ => []

/-- One round of the loop, on the fields of `hooks` and whether anything has changed. -/
def addHook (acc : List (Text × Value) × Bool) (entry : String × String) : List (Text × Value) × Bool :=
  let arr := itemsOr (acc.1.lookup entry.1.toList)
  if arr.any (groupHas entry.2) then (insertField entry.1.toList (.array arr) acc.1, acc.2)
  else (insertField entry.1.toList (.array (arr ++ [hookGroup entry.2])) acc.1, true)

/-- The settings with the hooks, and whether a hook has been added. -/
def mergeValue (rootVal : Value) : Value × Bool :=
  let rootObj := fieldsOr (some rootVal)
  let (hooks, changed) := entries.foldl addHook (fieldsOr (rootObj.lookup "hooks".toList), false)
  (.object (insertField "hooks".toList (.object hooks) rootObj), changed)

/-! ### The file -/

/-- The settings in the file. -/
def loadSettings (serde : Serde) (path : Text) : SettingsFile → Except BrainError Value
  | .missing => .ok (.object [])
  | .unreadable source => .error (.io path source)
  | .bytes content =>
    match fromUtf8 content with
    | none => .error (.io path "stream did not contain valid UTF-8".toList)
    | some txt => .ok ((serde.fromStr txt).getD (.object []))

/-- The write at the end. -/
def saveSettings (disk : Disk) (root : Text) (v : Value) (changed : Bool) : Merge :=
  match disk.createDirError, disk.writeError with
  | some e, _ => ⟨.error (.io (settingsDir root) e), .none⟩
  | none, some (.refused e) => ⟨.error (.io (settingsPath root) e), .none⟩
  | none, some (.stopped e length) => ⟨.error (.io (settingsPath root) e), .torn v length⟩
  | none, none => ⟨.ok changed, .written v⟩

/-- Idempotently add our hook commands to `settings.json`. -/
def mergeSettings (serde : Serde) (disk : Disk) (root : Text) (file : SettingsFile) : Merge :=
  match loadSettings serde (settingsPath root) file with
  | .error e => ⟨.error e, .none⟩
  | .ok rootVal =>
    let (v, changed) := mergeValue rootVal
    if changed || !file.present then saveSettings disk root v changed else ⟨.ok changed, .none⟩

end BrainEngine.Core.Hooks
