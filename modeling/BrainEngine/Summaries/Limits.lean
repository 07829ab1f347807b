import BrainEngine.Rust.Lines
import BrainEngine.Core.Summarize

/-! # The token limit of summaries

A summary over the limit is cut to so many characters, less one, and gets an ellipsis of three. So a cut
text is always over its limit, in characters and all the more in bytes: `limits_iff`. -/

namespace BrainEngine.Summaries.Limits

open BrainEngine.Rust.Str BrainEngine.Rust.Lines BrainEngine.Core.Chunking BrainEngine.Core.Summarize

variable {text : Text} {k m : ℕ}

theorem byteLen_append (s t : Text) : byteLen (s ++ t) = byteLen s + byteLen t := by
  unfold byteLen
  rw [List.map_append, List.sum_append]

theorem estimate_le_iff (hm : 0 < m) : estimate text ≤ m ↔ byteLen text ≤ 4 * m := by
  unfold estimate
  omega

/-! ### Cuts -/

/-- A cut leaves two characters more than there should be. -/
theorem length_truncateChars_of_lt (hk : 0 < k) (h : k < text.length) :
    (truncateChars text k).length = k + 2 := by
  unfold truncateChars
  rw [if_neg (not_le.mpr h), List.length_append, List.length_take,
    Nat.min_eq_left (by omega : k - 1 ≤ text.length)]
  change k - 1 + 3 = k + 2
  omega

theorem length_truncateChars_le_iff (hk : 0 < k) :
    (truncateChars text k).length ≤ k ↔ text.length ≤ k := by
  by_cases h : text.length ≤ k
  · unfold truncateChars
    rw [if_pos h]
  · have hlen := length_truncateChars_of_lt hk (not_le.mp h)
    omega

/-- **A cut to so many characters** has no fewer bytes. -/
theorem lt_byteLen_truncateChars (hk : 0 < k) (h : k < byteLen text) :
    k < byteLen (truncateChars text k) := by
  by_cases hlen : text.length ≤ k
  · unfold truncateChars
    rw [if_pos hlen]
    exact h
  · have h1 := length_truncateChars_of_lt hk (not_le.mp hlen)
    have h2 := length_le_byteLen (truncateChars text k)
    omega

/-- **The clamp** keeps a text within its limit exactly if it is there already. -/
theorem byteLen_clampTokens_le_iff (hm : 0 < m) (htext : byteLen text < 2 ^ 64) :
    byteLen (clampTokens text m) ≤ 4 * m ↔ byteLen text ≤ 4 * m := by
  have hest : estimate text ≤ m ↔ byteLen text ≤ 4 * m := estimate_le_iff hm
  unfold clampTokens
  by_cases h : byteLen text ≤ 4 * m
  · rw [if_pos (Or.inr (hest.mpr h))]
  · -- so the limit is below the largest `usize`
    have hmin : min (m * 4) (2 ^ 64 - 1) = 4 * m := by omega
    have hcond : ¬(m = 0 ∨ estimate text ≤ m) := by
      rintro (h0 | h0)
      · omega
      · exact h (hest.mp h0)
    rw [if_neg hcond, hmin]
    have hlt := lt_byteLen_truncateChars (k := 4 * m) (by omega) (not_le.mp h)
    omega

/-! ### Summaries of files -/

/-- What there is to tell about a file: its name, and the notes and symbols in it, or how it starts. -/
def parts (path content : Text) (lang : Option Text) : List Text :=
  let label := match lang with
    | some l => " (".toList ++ l ++ ")".toList
    | none => []
  let head := "File `".toList ++ path ++ "`".toList ++ label ++ ".".toList
  let notes := if (leadingComments content).isEmpty then []
    else ["Top notes: ".toList ++ join [' '] (leadingComments content) ++ ".".toList]
  let symbols := if (declarations content).isEmpty then []
    else ["Key symbols: ".toList ++ join "; ".toList (declarations content) ++ ".".toList]
  let first := (((lines content).map trim).find? fun l => !l.isEmpty).getD
    "No visible text content.".toList
  if (notes ++ symbols).isEmpty then
    [head, "Starts with: ".toList ++ truncateChars first 160 ++ ".".toList]
  else head :: (notes ++ symbols)

theorem summarizeFile_eq (path content : Text) (lang : Option Text) (cfg : SummariesConfig) :
    summarizeFile path content lang cfg =
      clampTokens (join [' '] (parts path content lang)) cfg.maxSummaryTokens := by
  unfold summarizeFile parts
  dsimp only
  cases (if (leadingComments content).isEmpty then []
      else ["Top notes: ".toList ++ join [' '] (leadingComments content) ++ ".".toList]) ++
    (if (declarations content).isEmpty then []
      else ["Key symbols: ".toList ++ join "; ".toList (declarations content) ++ ".".toList]) with
  | nil => rfl
  | cons p ps =>
    simp only [List.isEmpty_cons, Bool.false_eq_true, if_false]
    refine congrArg (fun l => clampTokens (join [' '] l) cfg.maxSummaryTokens) (if_neg ?_)
    simp

/-- **Limits hold where nothing is cut.** The summary of a file is within the limit of tokens exactly if
all there is to tell about the file is; a clamped text has at most four bytes for each token exactly if
the text has, and a truncated one at most so many characters exactly if the text has. -/
theorem limits_iff (path content : Text) (lang : Option Text) (cfg : SummariesConfig)
    (hcfg : 0 < cfg.maxSummaryTokens)
    (hfile : byteLen (join [' '] (parts path content lang)) < 2 ^ 64) (text : Text)
    (htext : byteLen text < 2 ^ 64) (hm : 0 < m) (hk : 3 ≤ k) :
    (estimate (summarizeFile path content lang cfg) ≤ cfg.maxSummaryTokens ↔
      byteLen (join [' '] (parts path content lang)) ≤ 4 * cfg.maxSummaryTokens) ∧
    (byteLen (clampTokens text m) ≤ 4 * m ↔ byteLen text ≤ 4 * m) ∧
    ((truncateChars text k).length ≤ k ↔ text.length ≤ k) := by
  refine ⟨?_, byteLen_clampTokens_le_iff hm htext, length_truncateChars_le_iff (by omega)⟩
  rw [estimate_le_iff hcfg, summarizeFile_eq]
  exact byteLen_clampTokens_le_iff hcfg hfile

/-- A short file within its limit, and a word within its own. -/
theorem limits_short :
    estimate (summarizeFile "a.rs".toList "fn run() {}".toList none {}) ≤ 120 ∧
      byteLen (clampTokens "brain".toList 2) ≤ 8 ∧ (truncateChars "brain".toList 5).length ≤ 5 := by
  obtain ⟨h1, h2, h3⟩ := limits_iff (m := 2) (k := 5) "a.rs".toList "fn run() {}".toList none {}
    (by decide) (by decide) "brain".toList (by decide) (by decide) (by decide)
  exact ⟨h1.mpr (by decide), h2.mpr (by decide), h3.mpr (by decide)⟩

/-- **A summary of more tokens than its limit**: one token allows the path four characters, and the cut
leaves six. -/
theorem not_limits :
    (¬∀ (path content : Text) (lang : Option Text) (cfg : SummariesConfig), 0 < cfg.maxSummaryTokens →
      estimate (summarizeFile path content lang cfg) ≤ cfg.maxSummaryTokens) ∧
    (¬∀ (text : Text) (m : ℕ), 0 < m → byteLen (clampTokens text m) ≤ 4 * m) ∧
    ¬∀ (text : Text) (k : ℕ), 3 ≤ k → (truncateChars text k).length ≤ k := by
  refine ⟨fun h => ?_, fun h => ?_, fun h => ?_⟩
  · exact absurd (h "a.rs".toList [] none { maxSummaryTokens := 1 } (by decide)) (by decide)
  · exact absurd (h "brain".toList 1 (by decide)) (by decide)
  · exact absurd (h "brain".toList 3 (by decide)) (by decide)

end BrainEngine.Summaries.Limits
