import BrainEngine.Rust.Str

/-! # The project configuration

The fields of `brain.config.json` that the modelled functions read, with the defaults a missing field
gets. -/

namespace BrainEngine.Core.Config

open BrainEngine.Rust.Str

/-- Chunking parameters. -/
structure ChunkConfig where
  maxLines : ℕ := 120
  overlapLines : ℕ := 20
  deriving DecidableEq

/-- Per-project configuration. -/
structure ProjectConfig where
  includeGlobs : List Text := ["**/*".toList]
  excludeGlobs : List Text := [
    "**/.git/**", "**/.brain/**", "brain.config.json", "**/brain.config.json",
    "**/node_modules/**", "**/target/**", "**/dist/**", "**/build/**", "**/.venv/**", "**/*.lock",
    "**/*.min.*", "**/.env", "**/.env.*", "**/*.pem", "**/*.key"].map String.toList
  maxFileSizeBytes : UInt64 := 1024 * 1024
  chunk : ChunkConfig := {}

end BrainEngine.Core.Config
