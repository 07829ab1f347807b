import BrainEngine.Lib.Outcome
import BrainEngine.Core.Sample

/-! # When symbol extraction panics

The one panic is that of `String::truncate`: the signature of a declaration is longer than 240 bytes,
and a character lies across its byte 237. `Declares` says, language by language, which lines are
declarations, and `returns_extract_iff` that extraction returns exactly if no declaration of the text
is cut inside a character. -/

namespace BrainEngine.Index.Signatures

open BrainEngine.Rust.Str BrainEngine.Lib.Outcome BrainEngine.Core BrainEngine.Core.External
open BrainEngine.Core.Symbols

/-- The call returns a value. -/
def Returns {α : Type} (r : Except Failure α) : Prop := ∃ a, r = .ok a

/-! ### Declarations -/

/-- A line of Rust that is neither doc nor comment and has a keyword with a name behind it. The type
behind `impl` need not be a name. -/
def RustDeclares (x : Extern) (line : Text) : Prop :=
  rustDoc line = none ∧
    (line.isEmpty || startsWith line "//".toList || startsWith line "#".toList) = false ∧
    ∃ p, findSpec ((stripPrefix line "pub ".toList).getD line) rustSpecs = some p ∧
      (p.2 = "impl".toList ∨ ∃ name, symbolName x p.1 = some name)

/-- A line of TypeScript or JavaScript that is neither doc nor comment and has a keyword with a name
behind it. -/
def TsJsDeclares (x : Extern) (line : Text) : Prop :=
  jsDoc line = none ∧
    (line.isEmpty || startsWith line "//".toList || startsWith line "*".toList) = false ∧
    ∃ p, findSpec (((stripPrefix line "export default ".toList).or
        (stripPrefix line "export ".toList)).getD line) tsJsSpecs = some p ∧
      ∃ name, symbolName x p.1 = some name

/-- A line of Python that is no comment and has a keyword with a name behind it. -/
def PythonDeclares (x : Extern) (line : Text) : Prop :=
  pythonDoc line = none ∧ line.isEmpty = false ∧
    ∃ p, findSpec line pythonSpecs = some p ∧ ∃ name, symbolName x p.1 = some name

/-- The line is a declaration in this language. -/
def Declares (x : Extern) (lang : Option Text) (line : Text) : Prop :=
  let l := lang.getD []
  l = "rust".toList ∧ RustDeclares x line ∨
    (l = "typescript".toList ∨ l = "javascript".toList) ∧ TsJsDeclares x line ∨
    l = "python".toList ∧ PythonDeclares x line

/-- The line without the opening brace at its end. -/
def bare (line : Text) : Text := trim (trimEndMatches (· == '{') (trim line))

/-- The signature is kept whole, or cut between two characters. -/
def CutsBetween (line : Text) : Prop :=
  byteLen (bare line) ≤ 240 ∨ ∃ pre suf, bare line = pre ++ suf ∧ byteLen pre = 237

/-! ### Calls that return -/

section Returns
variable {α β γ : Type} {r : Except Failure α} {r' : Except Failure β}

@[simp] theorem returns_ok (a : α) : Returns (.ok a : Except Failure α) := ⟨a, rfl⟩

@[simp] theorem returns_map (f : α → β) : Returns (f <$> r) ↔ Returns r := by
  constructor
  · rintro ⟨b, h⟩
    obtain ⟨a, ha, -⟩ := map_eq_ok.mp h
    exact ⟨a, ha⟩
  · rintro ⟨a, ha⟩
    exact ⟨f a, map_eq_ok.mpr ⟨a, ha, rfl⟩⟩

/-- Two calls one after the other. -/
theorem returns_both (f : α → β → γ) :
    Returns (r >>= fun a => r' >>= fun b => pure (f a b)) ↔ Returns r ∧ Returns r' := by
  constructor
  · rintro ⟨c, h⟩
    obtain ⟨a, ha, h⟩ := bind_eq_ok.mp h
    obtain ⟨b, hb, -⟩ := bind_eq_ok.mp h
    exact ⟨⟨a, ha⟩, ⟨b, hb⟩⟩
  · rintro ⟨⟨a, ha⟩, ⟨b, hb⟩⟩
    exact ⟨f a b, bind_eq_ok.mpr ⟨a, ha, bind_eq_ok.mpr ⟨b, hb, rfl⟩⟩⟩

end Returns

/-- **A signature** is made unless the cut is inside a character. -/
theorem returns_signatureFromLine (line : Text) :
    Returns (signatureFromLine line) ↔ CutsBetween line := by
  have hcut := isSome_takeBytes 237 (bare line)
  unfold signatureFromLine CutsBetween
  simp only [← bare.eq_1]
  split_ifs with h
  · have htrunc : truncate 237 (bare line) = takeBytes 237 (bare line) := if_pos (by omega)
    rw [htrunc, ← hcut, or_iff_right (by omega)]
    cases takeBytes 237 (bare line) with
    | none => simp [Returns]
    | some cut => simp
  · exact iff_of_true (returns_ok _) (Or.inl (by omega))

theorem returns_symbolOfLine (line : Text) (lineNo : ℕ) (name kind : Text)
    (visibility doc : Option Text) :
    Returns (symbolOfLine line lineNo name kind visibility doc) ↔ CutsBetween line := by
  rw [← returns_signatureFromLine]
  unfold symbolOfLine
  constructor
  · rintro ⟨s, h⟩
    obtain ⟨signature, hs, -⟩ := bind_eq_ok.mp h
    exact ⟨signature, hs⟩
  · rintro ⟨signature, hs⟩
    exact ⟨_, bind_eq_ok.mpr ⟨signature, hs, rfl⟩⟩

/-! ### The extractors -/

section
variable (x : Extern)

theorem returns_parseRustDecl (line : Text) (lineNo : ℕ) (doc : Option Text) :
    Returns (parseRustDecl x line lineNo doc) ↔
      ((∃ p, findSpec ((stripPrefix line "pub ".toList).getD line) rustSpecs = some p ∧
        (p.2 = "impl".toList ∨ ∃ name, symbolName x p.1 = some name)) → CutsBetween line) := by
  unfold parseRustDecl
  dsimp only
  generalize (if startsWith line "pub ".toList = true then some "pub".toList else none) = visibility
  generalize findSpec ((stripPrefix line "pub ".toList).getD line) rustSpecs = found
  generalize "impl".toList = impl
  cases found with
  | none => simp
  | some p =>
    by_cases hk : p.2 = impl
    · simp [hk, returns_symbolOfLine]
    · cases hn : symbolName x p.1 with
      | none => simp [hk, hn]
      | some name => simp [hk, hn, returns_symbolOfLine]

theorem returns_parseTsJsDecl (line : Text) (lineNo : ℕ) (doc : Option Text) :
    Returns (parseTsJsDecl x line lineNo doc) ↔
      ((∃ p, findSpec (((stripPrefix line "export default ".toList).or
          (stripPrefix line "export ".toList)).getD line) tsJsSpecs = some p ∧
        ∃ name, symbolName x p.1 = some name) → CutsBetween line) := by
  unfold parseTsJsDecl
  dsimp only
  generalize (if startsWith line "export ".toList = true then some "pub".toList else none) = visibility
  generalize findSpec (((stripPrefix line "export default ".toList).or
    (stripPrefix line "export ".toList)).getD line) tsJsSpecs = found
  cases found with
  | none => simp
  | some p =>
    cases hn : symbolName x p.1 with
    | none => simp [hn]
    | some name => simp [hn, returns_symbolOfLine]

theorem returns_extractRustFrom : ∀ (ls : List Text) (lineNo : ℕ) (docs : List Text),
    Returns (extractRustFrom x ls lineNo docs) ↔
      ∀ line ∈ ls, RustDeclares x (trim line) → CutsBetween (trim line)
  | [], _, _ => iff_of_true (returns_ok _) (by simp)
  | line :: ls, lineNo, docs => by
    rw [List.forall_mem_cons, extractRustFrom]
    cases hd : rustDoc (trim line) with
    | some doc =>
      have hno : ¬RustDeclares x (trim line) := fun h => by simp [h.1] at hd
      rw [and_iff_right fun h => absurd h hno]
      exact returns_extractRustFrom ls _ _
    | none =>
      dsimp only
      by_cases hc : (trim line).isEmpty || startsWith (trim line) "//".toList ||
        startsWith (trim line) "#".toList
      · have hno : ¬RustDeclares x (trim line) := fun h => absurd hc (Bool.not_eq_true _ ▸ h.2.1)
        rw [if_pos hc, and_iff_right fun h => absurd h hno]
        exact returns_extractRustFrom ls _ _
      · have hdecl : RustDeclares x (trim line) ↔ _ := and_iff_right hd |>.trans
          (and_iff_right (Bool.not_eq_true _ ▸ hc))
        rw [if_neg hc, returns_both, returns_parseRustDecl, returns_extractRustFrom ls, hdecl]

theorem returns_extractTsJsFrom : ∀ (ls : List Text) (lineNo : ℕ) (docs : List Text),
    Returns (extractTsJsFrom x ls lineNo docs) ↔
      ∀ line ∈ ls, TsJsDeclares x (trim line) → CutsBetween (trim line)
  | [], _, _ => iff_of_true (returns_ok _) (by simp)
  | line :: ls, lineNo, docs => by
    rw [List.forall_mem_cons, extractTsJsFrom]
    cases hd : jsDoc (trim line) with
    | some doc =>
      have hno : ¬TsJsDeclares x (trim line) := fun h => by simp [h.1] at hd
      rw [and_iff_right fun h => absurd h hno]
      exact returns_extractTsJsFrom ls _ _
    | none =>
      dsimp only
      by_cases hc : (trim line).isEmpty || startsWith (trim line) "//".toList ||
        startsWith (trim line) "*".toList
      · have hno : ¬TsJsDeclares x (trim line) := fun h => absurd hc (Bool.not_eq_true _ ▸ h.2.1)
        rw [if_pos hc, and_iff_right fun h => absurd h hno]
        exact returns_extractTsJsFrom ls _ _
      · have hdecl : TsJsDeclares x (trim line) ↔ _ := and_iff_right hd |>.trans
          (and_iff_right (Bool.not_eq_true _ ▸ hc))
        rw [if_neg hc, returns_both, returns_parseTsJsDecl, returns_extractTsJsFrom ls, hdecl]

theorem returns_extractPythonFrom : ∀ (ls : List Text) (lineNo : ℕ) (docs : List Text),
    Returns (extractPythonFrom x ls lineNo docs) ↔
      ∀ line ∈ ls, PythonDeclares x (trim line) → CutsBetween (trim line)
  | [], _, _ => iff_of_true (returns_ok _) (by simp)
  | line :: ls, lineNo, docs => by
    rw [List.forall_mem_cons, extractPythonFrom]
    cases hd : pythonDoc (trim line) with
    | some doc =>
      have hno : ¬PythonDeclares x (trim line) := fun h => by simp [h.1] at hd
      rw [and_iff_right fun h => absurd h hno]
      exact returns_extractPythonFrom ls _ _
    | none =>
      dsimp only
      by_cases hc : (trim line).isEmpty
      · have hno : ¬PythonDeclares x (trim line) := fun h => absurd hc (Bool.not_eq_true _ ▸ h.2.1)
        rw [if_pos hc, and_iff_right fun h => absurd h hno]
        exact returns_extractPythonFrom ls _ _
      · rw [if_neg hc]
        cases hs : findSpec (trim line) pythonSpecs with
        | none =>
          have hno : ¬PythonDeclares x (trim line) := fun ⟨_, _, p, hp, _⟩ => by simp [hs] at hp
          rw [and_iff_right fun h => absurd h hno]
          exact returns_extractPythonFrom ls _ _
        | some p =>
          cases hn : symbolName x p.1 with
          | none =>
            have hno : ¬PythonDeclares x (trim line) := fun ⟨_, _, p', hp, name, h⟩ => by
              rw [hs] at hp
              cases hp
              simp [hn] at h
            rw [and_iff_right fun h => absurd h hno]
            simp only [hn]
            exact returns_extractPythonFrom ls _ _
          | some name =>
            have hdecl : PythonDeclares x (trim line) :=
              ⟨hd, Bool.not_eq_true _ ▸ hc, p, hs, name, hn⟩
            simp only [hn]
            rw [returns_both, returns_symbolOfLine, returns_extractPythonFrom ls, forall_prop_of_true hdecl]

/-- **Symbol extraction returns exactly if no declaration is cut inside a character.** For every text
and every language label: a panic comes from a declaration whose signature is longer than 240 bytes and
has no character boundary at byte 237. -/
theorem returns_extract_iff (content : Text) (lang : Option Text) :
    (∃ symbols, extract x content lang = .ok symbols) ↔
      ∀ line ∈ lines content, Declares x lang (trim line) → CutsBetween (trim line) := by
  unfold extract Declares
  dsimp only
  generalize lang.getD [] = l
  by_cases h1 : l = "rust".toList
  · subst h1
    rw [if_pos rfl]
    refine (returns_extractRustFrom x _ _ _).trans (forall₂_congr fun line _ => imp_congr_left ?_)
    simp
  rw [if_neg h1]
  by_cases h2 : l = "typescript".toList ∨ l = "javascript".toList
  · rw [if_pos h2]
    refine (returns_extractTsJsFrom x _ _ _).trans (forall₂_congr fun line _ => imp_congr_left ?_)
    rcases h2 with rfl | rfl
    · simp
    · simp
  rw [if_neg h2]
  by_cases h3 : l = "python".toList
  · subst h3
    rw [if_pos rfl]
    refine (returns_extractPythonFrom x _ _ _).trans (forall₂_congr fun line _ => imp_congr_left ?_)
    simp
  · rw [if_neg h3]
    exact iff_of_true (returns_ok _) fun line _ h => by
      rcases h with ⟨h, -⟩ | ⟨h, -⟩ | ⟨h, -⟩
      · exact absurd h h1
      · exact absurd h h2
      · exact absurd h h3

end

/-- A function whose name has a two-byte character across byte 237 of its line. -/
def longLine : Text := "fn ".toList ++ List.replicate 233 'a' ++ "éaaa".toList

/-- The outside world with the one letter of that line that is not ASCII. -/
def accented : Extern := { Sample.sample with unicodeAlphanumeric := fun c => c = 'é' }

/-- **Extraction panics** on one line of Rust. -/
theorem not_returns_extract :
    ¬∀ (x : Extern) content lang, ∃ symbols, extract x content lang = .ok symbols := by
  intro h
  obtain ⟨symbols, hs⟩ := h accented longLine (some "rust".toList)
  have hpanic : extract accented longLine (some "rust".toList) = .error .panic := by
    decide +kernel
  rw [hpanic] at hs
  cases hs

end BrainEngine.Index.Signatures
