import BrainEngine.Rust.Usize
import BrainEngine.Core.External
import BrainEngine.Core.Config

/-! # Line-window chunking

`chunkText` cuts a text into windows of `max_lines` lines, each starting `step` lines after the one
before. The loop has a fuel argument, the number of lines, which it never uses up because `step` is
positive (`chunkLoop_fuel`). `chunkTextUsize` is the same function with the sums of `usize`. -/

namespace BrainEngine.Core.Chunking

open BrainEngine.Rust.Str BrainEngine.Rust.Usize BrainEngine.Core.External BrainEngine.Core.Config

/-- A chunk of a file; lines are counted from `1` and both ends belong to it. -/
structure Chunk where
  ordinal : ℕ
  startLine : ℕ
  endLine : ℕ
  content : Text
  contentHash : Text
  tokenEstimate : ℕ
  deriving DecidableEq

/-- `tokens::estimate`: one token for four bytes, and at least one. -/
def estimate (text : Text) : ℕ := max ((byteLen text + 3) / 4) 1

/-- The exclusive end of the window that starts at `start`. -/
def stopAt (lines : List Text) (maxLines start : ℕ) : ℕ := min (start + maxLines) lines.length

/-- The chunk of the window that starts at `start`. -/
def window (x : Extern) (lines : List Text) (maxLines start ordinal : ℕ) : Chunk :=
  let stop := stopAt lines maxLines start
  let content := join ['\n'] ((lines.drop start).take (stop - start))
  { ordinal
    startLine := start + 1
    endLine := stop
    content
    contentHash := x.sha256Hex content
    tokenEstimate := estimate content }

/-- The `while` loop, from the window that starts at `start` on. -/
def chunkLoop (x : Extern) (lines : List Text) (maxLines step : ℕ) : ℕ → ℕ → ℕ → List Chunk
  | 0, _, _ => []
  | fuel + 1, start, ordinal =>
    if start < lines.length then
      window x lines maxLines start ordinal ::
        if stopAt lines maxLines start = lines.length then []
        else chunkLoop x lines maxLines step fuel (start + step) (ordinal + 1)
    else []

/-- The number of lines a window advances. -/
def stepOf (cfg : ChunkConfig) : ℕ :=
  let maxLines := max cfg.maxLines 1
  maxLines - min cfg.overlapLines (maxLines - 1)

/-- Split `text` into overlapping line windows. -/
def chunkText (x : Extern) (text : Text) (cfg : ChunkConfig) : List Chunk :=
  let ls := lines text
  if ls.isEmpty || (trim text).isEmpty then []
  else chunkLoop x ls (max cfg.maxLines 1) (stepOf cfg) ls.length 0 0

/-- The `while` loop with the sums of `usize`. There is no result if one overflows, or if the loop has
not ended after `fuel` rounds. -/
def chunkLoopUsize (x : Extern) (lines : List Text) (maxLines step : ℕ) :
    ℕ → ℕ → ℕ → Option (List Chunk)
  | 0, _, _ => none
  | fuel + 1, start, ordinal =>
    if start < lines.length then do
      let sum ← checkedAdd start maxLines
      let stop := min sum lines.length
      let content := join ['\n'] ((lines.drop start).take (stop - start))
      let startLine ← checkedAdd start 1
      let chunk : Chunk := {
        ordinal, startLine, endLine := stop, content
        contentHash := x.sha256Hex content
        tokenEstimate := estimate content }
      let nextOrdinal ← checkedAdd ordinal 1
      if stop = lines.length then return [chunk]
      else do
        let nextStart ← checkedAdd start step
        let chunks ← chunkLoopUsize x lines maxLines step fuel nextStart nextOrdinal
        return chunk :: chunks
    else return []

/-- `chunk_text` with the sums of `usize`; the two differences in `stepOf` cannot be negative. -/
def chunkTextUsize (x : Extern) (fuel : ℕ) (text : Text) (cfg : ChunkConfig) : Option (List Chunk) :=
  let ls := lines text
  if ls.isEmpty || (trim text).isEmpty then some []
  else chunkLoopUsize x ls (max cfg.maxLines 1) (stepOf cfg) fuel 0 0

theorem one_le_estimate (text : Text) : 1 ≤ estimate text := le_max_right _ _

section Loop
variable {x : Extern} {ls : List Text} {maxLines step : ℕ}

theorem chunkLoop_of_le {fuel start ordinal : ℕ} (h : ls.length ≤ start) :
    chunkLoop x ls maxLines step fuel start ordinal = [] := by
  cases fuel with
  | zero => rfl
  | succ fuel => rw [chunkLoop, if_neg (by omega)]

/-- **The fuel is enough**: with a positive step, more of it changes nothing. -/
theorem chunkLoop_fuel (hstep : 0 < step) : ∀ (fuel start ordinal : ℕ),
    ls.length - start ≤ fuel →
      chunkLoop x ls maxLines step (fuel + 1) start ordinal =
        chunkLoop x ls maxLines step fuel start ordinal
  | 0, start, ordinal, h => by
    rw [chunkLoop_of_le (by omega), chunkLoop_of_le (by omega)]
  | fuel + 1, start, ordinal, h => by
    have ih := chunkLoop_fuel hstep fuel (start + step) (ordinal + 1) (by omega)
    rw [chunkLoop, ih]
    conv_rhs => rw [chunkLoop]

theorem ordinals_chunkLoop : ∀ (fuel start ordinal : ℕ),
    (chunkLoop x ls maxLines step fuel start ordinal).map Chunk.ordinal =
      List.range' ordinal (chunkLoop x ls maxLines step fuel start ordinal).length
  | 0, start, ordinal => by simp [chunkLoop]
  | fuel + 1, start, ordinal => by
    have ih := ordinals_chunkLoop fuel (start + step) (ordinal + 1)
    rw [chunkLoop]
    split_ifs
    · simp [window]
    · rw [List.map_cons, ih, List.length_cons, List.range'_succ]
      rfl
    · simp

/-- What holds of a window that starts inside the text. -/
theorem window_spec (hmax : 0 < maxLines) {start : ℕ} (h : start < ls.length) (ordinal : ℕ) :
    let c := window x ls maxLines start ordinal
    1 ≤ c.startLine ∧ c.startLine ≤ c.endLine ∧ c.endLine ≤ ls.length ∧
      c.contentHash = x.sha256Hex c.content ∧ c.tokenEstimate = estimate c.content := by
  refine ⟨by simp [window], ?_, ?_, rfl, rfl⟩
  · simp only [window, stopAt]
    omega
  · exact min_le_right _ _

theorem mem_chunkLoop (hmax : 0 < maxLines) {c : Chunk} : ∀ (fuel start ordinal : ℕ),
    c ∈ chunkLoop x ls maxLines step fuel start ordinal →
      1 ≤ c.startLine ∧ c.startLine ≤ c.endLine ∧ c.endLine ≤ ls.length ∧
        c.contentHash = x.sha256Hex c.content ∧ c.tokenEstimate = estimate c.content
  | 0, start, ordinal, h => by simp [chunkLoop] at h
  | fuel + 1, start, ordinal, h => by
    rw [chunkLoop] at h
    split_ifs at h with h1
    · rw [List.mem_singleton.mp h]
      exact window_spec hmax h1 ordinal
    · rcases List.mem_cons.mp h with rfl | h
      · exact window_spec hmax h1 ordinal
      · exact mem_chunkLoop hmax fuel (start + step) (ordinal + 1) h
    · simp at h

end Loop

theorem ordinals_chunkText (x : Extern) (text : Text) (cfg : ChunkConfig) :
    (chunkText x text cfg).map Chunk.ordinal = List.range (chunkText x text cfg).length := by
  unfold chunkText
  simp only
  split_ifs
  · simp
  · rw [ordinals_chunkLoop, List.range_eq_range']

/-- **Every chunk** covers lines of the text, with the hash and the estimate of its own content. -/
theorem mem_chunkText {x : Extern} {text : Text} {cfg : ChunkConfig} {c : Chunk}
    (h : c ∈ chunkText x text cfg) :
    1 ≤ c.startLine ∧ c.startLine ≤ c.endLine ∧ c.endLine ≤ (lines text).length ∧
      c.contentHash = x.sha256Hex c.content ∧ c.tokenEstimate = estimate c.content := by
  unfold chunkText at h
  simp only at h
  split_ifs at h
  · simp at h
  · exact mem_chunkLoop (by omega) _ _ _ h

end BrainEngine.Core.Chunking
