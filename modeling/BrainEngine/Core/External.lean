import BrainEngine.Rust.Str

/-! # What the engine takes from outside, and how it fails

`Extern` collects the third-party functions the engine calls on plain data: SHA-256 (`sha2`), glob
patterns (`globset`), the Unicode tables behind `char::is_alphanumeric` and the error texts of LanceDB.
The model is a function of them; what a result needs of them is a hypothesis there. -/

namespace BrainEngine.Core.External

open BrainEngine.Rust.Str

/-- Third-party functions on plain data. -/
structure Extern where
  /-- `sha256_hex(text.as_bytes())`: the lowercase hex digest of the UTF-8 bytes of a text. -/
  sha256Hex : Text → Text
  /-- `Glob::new(pattern)`: the error's text, if the pattern is invalid. -/
  globError : Text → Option Text
  /-- `GlobSetBuilder::build()`: the error's text, if the set is refused. -/
  globSetError : List Text → Option Text
  /-- Whether a valid pattern matches a path. -/
  globMatches : Text → Text → Bool
  /-- `Alphabetic` or `Numeric`, for characters beyond ASCII. -/
  unicodeAlphanumeric : Char → Bool
  /-- What LanceDB says when a batch of the second dimension is added to a table of the first. -/
  schemaError : ℕ → ℕ → Text

/-- `char::is_alphanumeric`. -/
def isAlphanumeric (x : Extern) (c : Char) : Bool :=
  if c.toNat < 128 then c.isAlphanum else x.unicodeAlphanumeric c

/-- `BrainError`, the variants the modelled functions raise. -/
inductive BrainError
  | notADirectory (path : Text)
  | configParse (path source : Text)
  | io (path source : Text)
  | db (message : Text)
  | glob (pattern message : Text)
  | walk (message : Text)
  | embed (message : Text)
  | vector (message : Text)
  deriving DecidableEq

/-- How a call ends when it does not return a value. -/
inductive Failure
  | error (e : BrainError)
  | panic
  deriving DecidableEq

end BrainEngine.Core.External
