import BrainEngine.Lib.Keyed
import BrainEngine.Core.External

/-! # LLM availability state

`~/.brain/llm_state.json` records which providers are blocked, and until when. It is read and written
whole; what is in it goes by what `serde_json` makes of it, as the text of a map reads back as the
map. -/

namespace BrainEngine.Core.Llm

open BrainEngine.Rust.Str BrainEngine.Lib.Keyed BrainEngine.Core.External

/-- Per-provider block entry. -/
structure ProviderBlock where
  /-- Unix seconds, an `i64`. -/
  blockedUntil : Int64
  reason : Text
  deriving DecidableEq

/-- Full contents of the file, by provider. -/
abbrev LlmState := KeyTable Text ProviderBlock

/-- What is at the path of the file. -/
inductive StateFile
  | missing
  /-- No JSON of a state, and what `serde_json` says of it. -/
  | malformed (message : Text)
  | json (state : LlmState)

/-- An empty state if the file is missing, an error if it is malformed. -/
def read (path : Text) : StateFile → Except BrainError LlmState
  | .missing => .ok KeyTable.empty
  | .malformed message => .error (.configParse path message)
  | .json state => .ok state

/-- The file after the state has been persisted. -/
def write (state : LlmState) : StateFile := .json state

/-- `is_blocked`, at a time. -/
def isBlocked (state : LlmState) (provider : Text) (now : Int64) : Bool :=
  (state.get? provider).any fun b => now < b.blockedUntil

/-- `secs_remaining`, at a time; the difference wraps around in a release build. -/
def secsRemaining (state : LlmState) (provider : Text) (now : Int64) : Option Int64 :=
  (state.get? provider).bind fun b =>
    let rem := b.blockedUntil - now
    if 0 < rem then some rem else none

/-- The entry that `block` inserts; the sum wraps around in a release build. -/
def blockEntry (now : Int64) (windowSecs : UInt64) (reason : Text) : ProviderBlock :=
  ⟨now + windowSecs.toInt64, reason⟩

/-- A call of `block`, with the time it reads from the clock, or of `unblock`. -/
inductive Call
  | block (provider : Text) (now : Int64) (windowSecs : UInt64) (reason : Text)
  | unblock (provider : Text)

def Call.provider : Call → Text
  | .block provider _ _ _ => provider
  | .unblock provider => provider

/-- What a call does to the state it has read, before it writes it. -/
def Call.apply : Call → LlmState → LlmState
  | .block provider now windowSecs reason, state =>
    state.upsert provider (blockEntry now windowSecs reason)
  | .unblock provider, state => state.deleteWhere fun k _ => k = provider

/-- A call on what is at the path: the file afterwards, or the error of reading it. -/
def Call.perform (path : Text) (call : Call) (file : StateFile) : Except BrainError StateFile :=
  match read path file with
  | .ok state => .ok (write (call.apply state))
  | .error e => .error e

/-- `brain llm block <provider> --hours <hours>`, with `claude_window_hours` from the configuration; the
product wraps around in a release build. -/
def blockCall (claudeWindowHours : UInt64) (provider : Text) (hours : Option UInt64) (now : Int64) :
    Call :=
  .block provider now (hours.getD claudeWindowHours * 3600) "rate_limit".toList

/-- The entry that a call establishes for its provider. -/
def Call.entry : Call → Option ProviderBlock
  | .block _ now windowSecs reason => some (blockEntry now windowSecs reason)
  | .unblock _ => none

theorem get?_apply (call : Call) (state : LlmState) (k : Text) :
    (call.apply state).get? k = if k = call.provider then call.entry else state.get? k := by
  cases call with
  | block provider now windowSecs reason => exact KeyTable.get?_upsert k
  | unblock provider =>
    refine (KeyTable.get?_deleteWhere k).trans ?_
    by_cases h : k = provider
    · simp [h, Call.provider, Call.entry]
    · simp only [h, Call.provider, if_false, decide_false, Bool.not_false]
      cases KeyTable.get? state k with
      | none => rfl
      | some b => rfl

/-- What is said of a provider changes with the calls for it only. -/
theorem isBlocked_apply (call : Call) (state : LlmState) (provider : Text) (now : Int64) :
    isBlocked (call.apply state) provider now =
      if provider = call.provider then call.entry.any fun b => now < b.blockedUntil
      else isBlocked state provider now := by
  unfold isBlocked
  rw [get?_apply]
  split_ifs
  · rfl
  · rfl

end BrainEngine.Core.Llm
