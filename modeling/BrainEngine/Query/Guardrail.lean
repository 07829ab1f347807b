import BrainEngine.Core.ModelRouter

/-! # The critical guardrail

The weight of a critical request is larger than all the points that another model can get
(`scoreOf_lt_opus`), so that such a request goes to Opus; and more keywords make a request critical, or
change nothing. -/

namespace BrainEngine.Query.Guardrail

open BrainEngine.Rust.Str BrainEngine.Lib.Sorted BrainEngine.Core.ModelRouter

/-! ### The winner -/

def scoreOf (s : Scores) : Model → ℤ
  | .opus => s.opus
  | .sonnet => s.sonnet
  | .deepSeek => s.deepseek
  | .haiku => s.haiku
  | .local => s.local

theorem asStr_eq_iff {m m' : Model} : m.asStr = m'.asStr ↔ m = m' := by
  constructor
  · intro h
    have hall : ∀ m ∈ Model.all, ∀ m' ∈ Model.all, m.asStr = m'.asStr → m = m' := by decide
    have hmem : ∀ m, m ∈ Model.all := by
      intro m
      cases m with
      | _ => decide
    exact hall m (hmem m) m' (hmem m') h
  · rintro rfl
    rfl

theorem get?_intoMap (s : Scores) (m : Model) : s.intoMap.get? m.asStr = some (scoreOf s m) := by
  unfold Scores.intoMap
  simp only [SortedMap.get?_entry, asStr_eq_iff]
  cases m with
  | _ => simp only [reduceCtorEq, if_false, if_true, scoreOf]

/-- The model `m` leads, or is still to come and will lead. -/
def Leads (s : Scores) (m : Model) (l : Leader) : Prop :=
  l.best = m ∧ l.bestScore = scoreOf s m ∧ l.bestRank = m.tieBreakRank

theorem leads_foldl {s : Scores} {m : Model} (h : ∀ m', m' ≠ m → scoreOf s m' < scoreOf s m) :
    ∀ (ms : List Model) (l : Leader), Leads s m l ∨ m ∈ ms ∧ l.bestScore < scoreOf s m →
      Leads s m (ms.foldl (leaderStep s.intoMap) l)
  | [], l, hl => hl.resolve_right fun hm => absurd hm.1 List.not_mem_nil
  | m' :: ms, l, hl => by
    rw [List.foldl_cons]
    refine leads_foldl h ms _ ?_
    unfold leaderStep
    simp only [get?_intoMap, Option.getD_some]
    by_cases hm : m' = m
    · subst hm
      left
      rcases hl with ⟨hbest, hscore, hrank⟩ | ⟨-, hlt⟩
      · rw [if_neg (by omega)]
        exact ⟨hbest, hscore, hrank⟩
      · rw [if_pos (Or.inl hlt)]
        exact ⟨rfl, rfl, rfl⟩
    · have hless := h m' hm
      rcases hl with ⟨hbest, hscore, hrank⟩ | ⟨hmem, hlt⟩
      · left
        rw [if_neg (by omega)]
        exact ⟨hbest, hscore, hrank⟩
      · right
        refine ⟨(List.mem_cons.mp hmem).resolve_left fun heq => hm heq.symm, ?_⟩
        split_ifs
        · exact hless
        · exact hlt

theorem pickWinner_of_above {s : Scores} {m : Model} (hpos : 0 ≤ scoreOf s m)
    (h : ∀ m', m' ≠ m → scoreOf s m' < scoreOf s m) : pickWinner s.intoMap = m := by
  have hmem : m ∈ Model.all := by
    cases m with
    | _ => decide
  exact (leads_foldl h Model.all _ (Or.inr ⟨hmem, by simp only; omega⟩)).1

/-! ### The points of a critical request -/

/-- The points for a class. -/
def pointsOf (c : RequestClass) : Scores :=
  (scoreCode c (scoreType c (scoreComplexity c (scoreCritical c ({}, []))))).1

/-- **The guardrail weight dominates.** -/
theorem scoreOf_lt_opus {c : RequestClass} (h : c.isCritical = true) {m : Model} (hm : m ≠ .opus) :
    scoreOf (pointsOf c) m < 100 ∧ 100 ≤ scoreOf (pointsOf c) .opus := by
  obtain ⟨reqType, complexity, hasCode, isCritical⟩ := c
  obtain rfl : isCritical = true := h
  cases m with
  | opus => exact absurd rfl hm
  | _ =>
    cases reqType with
    | _ =>
      cases complexity with
      | _ =>
        cases hasCode with
        | _ => decide

theorem selectModel_critical {c : RequestClass} (h : c.isCritical = true) :
    (selectModel c).model = .opus ∧ ∀ m : Model, m ≠ .opus →
      ∃ score opus, (selectModel c).scores.get? m.asStr = some score ∧
        (selectModel c).scores.get? Model.opus.asStr = some opus ∧ score < opus := by
  have habove : ∀ m, m ≠ .opus → scoreOf (pointsOf c) m < scoreOf (pointsOf c) .opus := fun m hm => by
    have hlt := scoreOf_lt_opus h hm
    omega
  have hpos : 0 ≤ scoreOf (pointsOf c) .opus := by
    have hlt := (scoreOf_lt_opus h (m := .sonnet) nofun).2
    omega
  exact ⟨pickWinner_of_above hpos habove, fun m hm =>
    ⟨_, _, get?_intoMap _ m, get?_intoMap _ .opus, habove m hm⟩⟩

/-! ### More keywords -/

section
variable {toLower : Lowercase} {prompt : Text} {K K' : List Text}

theorem detectCritical_mono {lower : Text} (h : K ⊆ K') (hc : detectCritical toLower lower K = true) :
    detectCritical toLower lower K' = true := by
  unfold detectCritical at *
  split_ifs at *
  · rfl
  · obtain ⟨w, hw, hmatch⟩ := List.any_eq_true.mp hc
    exact List.any_eq_true.mpr ⟨w, h hw, hmatch⟩

theorem detectCritical_blank {lower : Text} (h : K ⊆ K') (hblank : ∀ w ∈ K', w ∈ K ∨ trim w = []) :
    detectCritical toLower lower K' = detectCritical toLower lower K := by
  refine Bool.eq_iff_iff.mpr ⟨fun hc => ?_, detectCritical_mono h⟩
  unfold detectCritical at *
  split_ifs at *
  · rfl
  · obtain ⟨w, hw, hmatch⟩ := List.any_eq_true.mp hc
    rcases hblank w hw with hin | hnil
    · exact List.any_eq_true.mpr ⟨w, hin, hmatch⟩
    · rw [hnil, toLower.map_nil] at hmatch
      cases hmatch

theorem classify_congr (h : detectCritical toLower (toLower.map prompt) K' =
    detectCritical toLower (toLower.map prompt) K) :
    classify toLower prompt K' = classify toLower prompt K := by
  unfold classify
  simp only [h]

/-- **The critical guardrail is absolute and monotone.** For every prompt and all keyword lists, the one
among the other: a critical prompt goes to Opus, with more points than any other model has; it stays
critical with more keywords; these leave the model as it is or make it Opus; and if they are blank,
they change nothing. -/
theorem guardrail (toLower : Lowercase) (prompt : Text) (K K' : List Text) (h : K ⊆ K') :
    ((classify toLower prompt K).isCritical = true →
      (route toLower prompt K).model = .opus ∧ ∀ m : Model, m ≠ .opus →
        ∃ score opus, (route toLower prompt K).scores.get? m.asStr = some score ∧
          (route toLower prompt K).scores.get? Model.opus.asStr = some opus ∧ score < opus) ∧
    ((classify toLower prompt K).isCritical = true → (classify toLower prompt K').isCritical = true) ∧
    ((route toLower prompt K').model = (route toLower prompt K).model ∨
      (route toLower prompt K').model = .opus) ∧
    ((∀ w ∈ K', w ∈ K ∨ trim w = []) → route toLower prompt K' = route toLower prompt K) := by
  have hmono : (classify toLower prompt K).isCritical = true →
      (classify toLower prompt K').isCritical = true := detectCritical_mono h
  refine ⟨selectModel_critical, hmono, ?_, fun hblank => ?_⟩
  · cases hc : (classify toLower prompt K').isCritical with
    | true => exact Or.inr (selectModel_critical hc).1
    | false =>
      left
      have hc' : (classify toLower prompt K).isCritical = false :=
        Bool.eq_false_iff.mpr fun ht => by simp [hmono ht] at hc
      have heq : classify toLower prompt K' = classify toLower prompt K :=
        classify_congr (hc.trans hc'.symm)
      unfold route
      rw [heq]
  · unfold route
    rw [classify_congr (detectCritical_blank h hblank)]

end

/-- `str::to_lowercase` on ASCII. -/
def asciiLower : Lowercase := ⟨toAsciiLowercase, rfl⟩

/-- A domain word makes a prompt critical, and a blank one changes nothing. -/
theorem guardrail_billing :
    (route asciiLower "Add a Billing page".toList ["billing".toList]).model = .opus ∧
      route asciiLower "Add a Billing page".toList ["billing".toList, " ".toList] =
        route asciiLower "Add a Billing page".toList ["billing".toList] := by
  have hc : (classify asciiLower "Add a Billing page".toList ["billing".toList]).isCritical = true := by
    decide +kernel
  have hsub : ["billing".toList] ⊆ ["billing".toList, " ".toList] := by decide
  obtain ⟨hopus, -, -, hblank⟩ := guardrail asciiLower "Add a Billing page".toList _ _ hsub
  refine ⟨(hopus hc).1, hblank fun w hw => ?_⟩
  rcases List.mem_cons.mp hw with rfl | hw
  · exact Or.inl List.mem_cons_self
  · exact Or.inr (by rw [List.mem_singleton.mp hw]; decide)

end BrainEngine.Query.Guardrail
