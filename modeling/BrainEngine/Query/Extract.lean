import BrainEngine.Lib.Distinct
import BrainEngine.Query.Quotes

/-! # The targets of a prompt

Both loops of `extract_targets` add to one list: first the quoted spans, then the tokens that are accepted. The
list has the first twelve of them that differ in more than the case of their letters. -/

namespace BrainEngine.Query.Extract

open BrainEngine.Rust.Str BrainEngine.Rust.Spans BrainEngine.Core.Locator BrainEngine.Lib.Distinct
open BrainEngine.Query.Quotes

/-- A token that is worth a look. -/
def accepted (token : Text) : Bool :=
  3 ≤ byteLen token && (looksLikeFile token || looksLikeSymbol token || looksLikeFeatureWord token)

/-- The accepted tokens of a prompt. -/
def acceptedTokens (prompt : Text) : List Text :=
  ((splitWhitespace prompt).map (trimMatches isPunctuation)).filter accepted

/-! ### One list -/

theorem pushTarget_eq (out : List Text) (value : Text) : pushTarget out value =
    if !(trim value).isEmpty then push toAsciiLowercase 12 out (trim value) else out := by
  unfold pushTarget push
  dsimp only
  cases (trim value).isEmpty with
  | true => rfl
  | false => rfl

/-- The values come in one after the other, without the space around them. -/
theorem foldl_pushTarget (values : List Text) (out : List Text) :
    values.foldl pushTarget out = (trimmed values).foldl (push toAsciiLowercase 12) out := by
  unfold trimmed
  rw [List.foldl_filter, List.foldl_map]
  refine List.foldl_ext _ _ _ fun out value _ => ?_
  exact pushTarget_eq out value

/-- A token comes in as a value if it is accepted. -/
theorem foldl_pushToken (raws : List Text) (out : List Text) :
    raws.foldl pushToken out =
      ((raws.map (trimMatches isPunctuation)).filter accepted).foldl pushTarget out := by
  rw [List.foldl_filter, List.foldl_map]
  refine List.foldl_ext _ _ _ fun out raw _ => ?_
  unfold pushToken accepted
  dsimp only
  rcases Nat.lt_or_ge (byteLen (trimMatches isPunctuation raw)) 3 with h | h
  · have hnot : ¬3 ≤ byteLen (trimMatches isPunctuation raw) := by omega
    simp [h, hnot]
  · have hnot : ¬byteLen (trimMatches isPunctuation raw) < 3 := by omega
    simp [h, hnot]

/-- **The targets** of a prompt. -/
theorem extractTargets_eq {prompt : Text} {spans : List Text} (h : quotedSpans prompt = some spans) :
    extractTargets prompt = some
      ((firsts toAsciiLowercase (trimmed (spans ++ acceptedTokens prompt))).take 12) := by
  have hfold := foldl_push toAsciiLowercase 12 (trimmed (spans ++ acceptedTokens prompt))
  rw [← foldl_pushTarget, List.foldl_append] at hfold
  unfold extractTargets
  rw [h]
  simp only [Option.bind_eq_bind, Option.bind_some, Option.pure_def, Option.some.injEq]
  rw [foldl_pushToken]
  exact hfold

/-- **The targets of a prompt** are the first twelve of the quoted spans and the accepted tokens that are not
empty and differ, but for the case of their letters, from those before. -/
theorem extractTargets_dedup (prompt : Text) : ∃ spans targets,
    quotedSpans prompt = some spans ∧ extractTargets prompt = some targets ∧
      targets = (firsts toAsciiLowercase (trimmed (spans ++ acceptedTokens prompt))).take 12 ∧
      targets.length ≤ 12 ∧ (∀ t ∈ targets, t ≠ []) ∧
      targets.Pairwise fun t t' => eqIgnoreAsciiCase t t' = false := by
  obtain ⟨spans, hspans, -⟩ := quotedLoop_returns prompt
  refine ⟨spans, _, hspans, extractTargets_eq hspans, rfl, List.length_take_le _ _, fun t ht => ?_, ?_⟩
  · have hmem := (firsts_sublist toAsciiLowercase _).subset ((List.take_sublist _ _).subset ht)
    have hne := (List.mem_filter.mp hmem).2
    rintro rfl
    cases hne
  · refine ((pairwise_firsts toAsciiLowercase _).sublist (List.take_sublist _ _)).imp fun hne => ?_
    exact decide_eq_false hne

end BrainEngine.Query.Extract
