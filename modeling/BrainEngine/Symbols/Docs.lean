import BrainEngine.Symbols.Pointing

/-! # Doc comments of Rust

The docs that wait for a declaration go through a block of `///` lines and attributes. A `///` without
text is no doc line for `rustDoc`, but a comment, and a comment throws the waiting docs away: what is
left of a block is what stands behind its last empty line (`foldl_block`). -/

namespace BrainEngine.Symbols.Docs

open BrainEngine.Rust.Str BrainEngine.Rust.Trim BrainEngine.Lib.Outcome BrainEngine.Lib.Scan
open BrainEngine.Core BrainEngine.Core.External BrainEngine.Core.Symbols
open BrainEngine.Index.Signatures BrainEngine.Symbols.Lines BrainEngine.Symbols.Pointing

/-! ### Blocks -/

/-- An outer doc line. -/
def isDocLine (line : Text) : Bool := startsWith (trim line) "///".toList

/-- An attribute line. -/
def isAttribute (line : Text) : Bool := startsWith (trim line) "#[".toList

/-- A line of the block in front of a declaration. -/
def InBlock (line : Text) : Prop := isDocLine line = true ∨ isAttribute line = true

/-- What stands behind `///`. -/
def docText (line : Text) : Text := trim ((trim line).drop 3)

def EmptyDoc (line : Text) : Prop := isDocLine line = true ∧ docText line = []

def HasText (line : Text) : Prop := isDocLine line = true ∧ docText line ≠ []

/-- The texts of the doc lines that are not empty, in order. -/
def docTexts (block : List Text) : List Text :=
  (block.filter isDocLine).map docText |>.filter fun doc => !doc.isEmpty

/-- The doc of a block: its texts with single spaces between them. -/
def blockDoc (block : List Text) : Option Text :=
  if docTexts block = [] then none else some (join [' '] (docTexts block))

instance (line : Text) : Decidable (InBlock line) := by unfold InBlock; infer_instance

instance (line : Text) : Decidable (EmptyDoc line) := by unfold EmptyDoc; infer_instance

/-- A line `//!` with text. -/
def InnerDoc (line : Text) : Prop :=
  ∃ rest, stripPrefix (trim line) "//!".toList = some rest ∧ trim rest ≠ []

/-! ### What a line does to the docs -/

section
variable {x : Extern} {docs : List Text} {line : Text}

theorem stripPrefix_of_isDocLine (h : isDocLine line = true) :
    stripPrefix (trim line) "///".toList = some ((trim line).drop 3) := if_pos h

theorem rustDoc_of_isDocLine (h : isDocLine line = true) :
    rustDoc (trim line) = if docText line = [] then none else some (docText line) := by
  unfold rustDoc
  rw [stripPrefix_of_isDocLine h]
  show (some (docText line)).filter _ = _
  by_cases hempty : docText line = []
  · simp [hempty, Option.filter]
  · simp [hempty, Option.filter]

theorem docsAfter_of_hasText (h : HasText line) :
    docsAfter x .rust docs line = docs ++ [docText line] := by
  have hdoc : rustDoc (trim line) = some (docText line) := by
    rw [rustDoc_of_isDocLine h.1, if_neg h.2]
  simp only [docsAfter, hdoc]

theorem docsAfter_of_emptyDoc (h : EmptyDoc line) : docsAfter x .rust docs line = [] := by
  have hdoc : rustDoc (trim line) = none := by
    rw [rustDoc_of_isDocLine h.1, if_pos h.2]
  obtain ⟨rest, hrest⟩ := startsWith_iff.mp h.1
  have hattr : startsWith (trim line) "#[".toList = false := by
    rw [← hrest]
    rfl
  simp only [docsAfter, hdoc, hattr, Bool.false_eq_true, if_false]

/-- A line that begins with `#` is no doc line. -/
theorem rustDoc_of_isAttribute (h : isAttribute line = true) : rustDoc (trim line) = none := by
  obtain ⟨rest, hrest⟩ := startsWith_iff.mp h
  rw [← hrest]
  rfl

theorem docsAfter_of_isAttribute (h : isAttribute line = true) : docsAfter x .rust docs line = docs := by
  unfold isAttribute at h
  simp only [docsAfter, rustDoc_of_isAttribute h, h, if_true]

theorem not_isDocLine_of_isAttribute (h : isAttribute line = true) : isDocLine line = false := by
  obtain ⟨rest, hrest⟩ := startsWith_iff.mp h
  unfold isDocLine
  rw [← hrest]
  rfl

/-- **Outside a block** only a `//!` with text leaves docs. -/
theorem docsAfter_eq_nil_iff (h : ¬InBlock line) : docsAfter x .rust docs line = [] ↔ ¬InnerDoc line := by
  have hdoc : stripPrefix (trim line) "///".toList = none := if_neg fun hd => h (Or.inl hd)
  have hattr : startsWith (trim line) "#[".toList = false :=
    Bool.not_eq_true _ ▸ fun ha => h (Or.inr ha)
  have hrust : rustDoc (trim line) =
      ((stripPrefix (trim line) "//!".toList).map trim).filter fun s => !s.isEmpty := by
    unfold rustDoc
    rw [hdoc, Option.none_or]
  unfold InnerDoc
  simp only [docsAfter, hrust, hattr, Bool.false_eq_true, if_false]
  cases stripPrefix (trim line) "//!".toList with
  | none => simp
  | some rest =>
    by_cases hempty : trim rest = []
    · simp [hempty, Option.filter]
    · simp [hempty, Option.filter]

end

/-! ### What a block does to the docs -/

theorem docTexts_append (a b : List Text) : docTexts (a ++ b) = docTexts a ++ docTexts b := by
  simp [docTexts]

theorem docTexts_eq_nil_iff {block : List Text} : docTexts block = [] ↔ ∀ line ∈ block, ¬HasText line := by
  unfold docTexts HasText
  simp only [List.filter_eq_nil_iff, List.mem_map, List.mem_filter, Bool.not_eq_true', not_and,
    not_not]
  constructor
  · intro h line hline hdoc
    have hempty := h (docText line) ⟨line, ⟨hline, hdoc⟩, rfl⟩
    simpa using hempty
  · rintro h _ ⟨line, ⟨hline, hdoc⟩, rfl⟩
    simp [h line hline hdoc]

/-- Without an empty line all the texts of a block are kept. -/
theorem foldl_of_no_emptyDoc (x : Extern) : ∀ {block : List Text} (docs : List Text),
    (∀ line ∈ block, InBlock line) → (∀ line ∈ block, ¬EmptyDoc line) →
      block.foldl (docsAfter x .rust) docs = docs ++ docTexts block
  | [], docs, _, _ => (List.append_nil docs).symm
  | line :: block, docs, hin, hno => by
    have ih : ∀ docs, block.foldl (docsAfter x .rust) docs = docs ++ docTexts block := fun docs =>
      foldl_of_no_emptyDoc x docs (fun l hl => hin l (List.mem_cons_of_mem _ hl)) fun l hl =>
        hno l (List.mem_cons_of_mem _ hl)
    rw [List.foldl_cons, ih, show line :: block = [line] ++ block from rfl, docTexts_append]
    rcases hin line List.mem_cons_self with hdoc | hattr
    · have htext : HasText line := ⟨hdoc, fun h => hno line List.mem_cons_self ⟨hdoc, h⟩⟩
      have hone : docTexts [line] = [docText line] := by
        simp [docTexts, htext.1, htext.2]
      rw [docsAfter_of_hasText htext, hone, List.append_assoc]
    · have hone : docTexts [line] = [] := by
        simp [docTexts, not_isDocLine_of_isAttribute hattr]
      rw [docsAfter_of_isAttribute hattr, hone, List.nil_append]

/-- The last element with a property. -/
theorem exists_last {α : Type} {p : α → Prop} : ∀ {l : List α}, (∃ a ∈ l, p a) →
    ∃ l₁ a l₂, l = l₁ ++ a :: l₂ ∧ p a ∧ ∀ b ∈ l₂, ¬p b
  | [], h => by simp at h
  | a :: l, h => by
    by_cases hl : ∃ b ∈ l, p b
    · obtain ⟨l₁, b, l₂, rfl, hb, hno⟩ := exists_last hl
      exact ⟨a :: l₁, b, l₂, rfl, hb, hno⟩
    · obtain ⟨b, hb, hp⟩ := h
      rcases List.mem_cons.mp hb with rfl | hb
      · exact ⟨[], b, l, rfl, hp, fun c hc hpc => hl ⟨c, hc, hpc⟩⟩
      · exact absurd ⟨b, hb, hp⟩ hl

/-- No doc line with text stands in front of an empty one. -/
def TextLast (block : List Text) : Prop := block.Pairwise fun line later => HasText line → ¬EmptyDoc later

/-- **What a block leaves of the docs**: all of its texts behind what was there, or, with an empty
line, the texts behind the last one. -/
theorem foldl_block (x : Extern) {block : List Text} (hin : ∀ line ∈ block, InBlock line)
    (docs : List Text) :
    (∀ line ∈ block, ¬EmptyDoc line) ∧ TextLast block ∧
        block.foldl (docsAfter x .rust) docs = docs ++ docTexts block ∨
      (∃ line ∈ block, EmptyDoc line) ∧ ∃ lost, docTexts block = lost ++ block.foldl (docsAfter x .rust) docs ∧
        (lost = [] ↔ TextLast block) := by
  by_cases hempty : ∃ line ∈ block, EmptyDoc line
  · right
    refine ⟨hempty, ?_⟩
    obtain ⟨b₁, e, b₂, rfl, he, hno⟩ := exists_last hempty
    have htext : docTexts [e] = [] := docTexts_eq_nil_iff.mpr fun line hline htext => by
      rw [List.mem_singleton.mp hline] at htext
      exact htext.2 he.2
    have hfold : (b₁ ++ e :: b₂).foldl (docsAfter x .rust) docs = docTexts b₂ := by
      rw [List.foldl_append, List.foldl_cons, docsAfter_of_emptyDoc he,
        foldl_of_no_emptyDoc x [] (fun l hl => hin l (by simp [hl])) hno, List.nil_append]
    refine ⟨docTexts b₁, ?_, ?_⟩
    · rw [hfold, docTexts_append, show e :: b₂ = [e] ++ b₂ from rfl, docTexts_append, htext]
      rfl
    · rw [docTexts_eq_nil_iff]
      unfold TextLast
      rw [List.pairwise_append]
      constructor
      · intro hb₁
        refine ⟨?_, ?_, fun line hline _ _ ht => absurd ht (hb₁ line hline)⟩
        · exact List.pairwise_of_forall_mem_list fun line hline _ _ ht => absurd ht (hb₁ line hline)
        · refine List.Pairwise.cons (fun _ _ ht => absurd he.2 ht.2) ?_
          exact List.pairwise_of_forall_mem_list fun _ _ later hlater _ => hno later hlater
      · rintro ⟨-, -, hcross⟩ line hline ht
        exact hcross line hline e List.mem_cons_self ht he
  · left
    have hno : ∀ line ∈ block, ¬EmptyDoc line := fun line hline he => hempty ⟨line, hline, he⟩
    refine ⟨hno, ?_, foldl_of_no_emptyDoc x docs hin hno⟩
    exact List.pairwise_of_forall_mem_list fun _ _ later hlater _ => hno later hlater

/-! ### The doc of a symbol -/

theorem length_join_append {a b : List Text} (ha : a ≠ []) (hb : b ≠ []) :
    (join [' '] b).length < (join [' '] (a ++ b)).length := by
  unfold join
  induction a with
  | nil => exact absurd rfl ha
  | cons t a ih =>
    have hne : a ++ b ≠ [] := by simp [hb]
    rw [List.cons_append, List.intercalate_cons_of_ne_nil hne, List.length_append, List.length_append]
    by_cases ha' : a = []
    · subst ha'
      simp
    · have := ih ha'
      omega

/-- Docs in front make another text. -/
theorem takeDocs_append_eq {a b : List Text} : takeDocs (a ++ b) = takeDocs b ↔ a = [] := by
  constructor
  · intro h
    by_contra ha
    unfold takeDocs at h
    by_cases hb : b = []
    · simp [hb, ha] at h
    · simp only [List.isEmpty_iff, List.append_eq_nil_iff, ha, hb, false_and, if_false,
        Option.some.injEq] at h
      have hlt := length_join_append ha hb
      rw [h] at hlt
      omega
  · rintro rfl
    rfl

theorem blockDoc_eq (block : List Text) : blockDoc block = takeDocs (docTexts block) := by
  unfold blockDoc takeDocs
  simp only [List.isEmpty_iff]

/-- The docs that wait in front of a block. -/
theorem foldl_before_eq_nil_iff {x : Extern} {before : List Text}
    (hmax : ∀ line, before.getLast? = some line → ¬InBlock line) :
    before.foldl (docsAfter x .rust) [] = [] ↔ ∀ line, before.getLast? = some line → ¬InnerDoc line := by
  rcases List.eq_nil_or_concat before with rfl | ⟨init, last, rfl⟩
  · simp
  · rw [List.concat_eq_append, List.getLast?_concat] at hmax ⊢
    rw [List.foldl_concat, docsAfter_eq_nil_iff (hmax last rfl)]
    simp

theorem languageOf_rust : languageOf (some "rust".toList) = some .rust := rfl

theorem exists_declared {x : Extern} {line : Text} (h : RustDeclares x line) :
    ∃ name kind, declared x .rust line = some (name, kind) := by
  obtain ⟨-, -, p, hp, hname⟩ := h
  obtain ⟨rest, kind⟩ := p
  have hf : findSpec (unpublished .rust line) (specs .rust) = some (rest, kind) := hp
  have hname' : ∃ name, nameOf x kind rest = some name := by
    unfold nameOf
    split_ifs with hkind
    · exact ⟨_, rfl⟩
    · rcases hname with himpl | hname
      · exact absurd himpl hkind
      · exact hname
  obtain ⟨name, hname'⟩ := hname'
  exact ⟨name, kind, by simp only [declared, hf, hname', Option.map_some]⟩

/-- The symbol of the line `decl` has as doc what the lines in front of it leave. -/
theorem doc_of_line {x : Extern} {ls after : List Text} {decl : Text} {symbols : List ExtractedSymbol}
    (h : scan (docsAfter x .rust) (lineOut x .rust) (ls ++ decl :: after) 1 [] = .ok symbols)
    (hdecl : RustDeclares x (trim decl)) (doc : Option Text) :
    (∃ s ∈ symbols, s.startLine = ls.length + 1 ∧ s.doc = doc) ↔
      takeDocs (ls.foldl (docsAfter x .rust) []) = doc := by
  have hget : (ls ++ decl :: after)[ls.length]? = some decl := by simp
  have htake : (ls ++ decl :: after).take ls.length = ls := List.take_left
  obtain ⟨name, kind, hd⟩ := exists_declared hdecl
  have hout : ∀ docs n s, lineOut x .rust docs n decl = .ok (some s) → s.doc = takeDocs docs := by
    intro docs n s ho
    simp only [lineOut, hd] at ho
    obtain ⟨s', hs, heq⟩ := map_eq_ok.mp ho
    obtain rfl := Option.some.inj heq
    obtain ⟨-, -, rfl⟩ := symbolOfLine_eq_ok hs
    rfl
  constructor
  · rintro ⟨s, hs, hline, rfl⟩
    obtain ⟨k, line, hk, ho⟩ := (mem_scan h s).mp hs
    have hstart := (points_of_lineOut ho).1
    have hk' : k = ls.length := by omega
    subst hk'
    obtain rfl := Option.some.inj (hget.symm.trans hk)
    rw [htake] at ho
    exact (hout _ _ _ ho).symm
  · rintro rfl
    obtain ⟨o, ho⟩ := out_of_scan h hget
    cases o with
    | none =>
      simp only [lineOut, hd] at ho
      obtain ⟨s, -, heq⟩ := map_eq_ok.mp ho
      cases heq
    | some s =>
      refine ⟨s, (mem_scan h s).mpr ⟨ls.length, decl, hget, ho⟩, ?_, ?_⟩
      · have hstart := (points_of_lineOut ho).1
        omega
      · rw [htake] at ho
        exact hout _ _ _ ho

/-- **When a doc comment is captured whole.** For every Rust source with a declaration behind a block
of `///` lines and attributes: the symbol gets the texts of the block as its doc exactly if extraction
does not panic, no `///` without text stands behind one with text, and the line in front of the block
is no `//!` with text, unless the block has a `///` without text. -/
theorem docs_captured_iff (x : Extern) (content : Text) (before block after : List Text) (decl : Text)
    (hlines : lines content = before ++ block ++ decl :: after)
    (hblock : ∀ line ∈ block, InBlock line)
    (hmax : ∀ line, before.getLast? = some line → ¬InBlock line)
    (hdecl : RustDeclares x (trim decl)) :
    (∃ symbols, extract x content (some "rust".toList) = .ok symbols ∧
        ∃ s ∈ symbols, s.startLine = before.length + block.length + 1 ∧ s.doc = blockDoc block) ↔
      (∀ line ∈ lines content, RustDeclares x (trim line) → CutsBetween (trim line)) ∧
        TextLast block ∧
        ((∀ line, before.getLast? = some line → ¬InnerDoc line) ∨ ∃ line ∈ block, EmptyDoc line) := by
  have hreturns := returns_extractRustFrom x (lines content) 1 []
  have hscan : extract x content (some "rust".toList) =
      scan (docsAfter x .rust) (lineOut x .rust) (before ++ block ++ decl :: after) 1 [] := by
    rw [extract_eq_scan, languageOf_rust, hlines]
  have hex : extract x content (some "rust".toList) = extractRustFrom x (lines content) 1 [] := rfl
  have hsymbol : ∀ symbols, extract x content (some "rust".toList) = .ok symbols →
      ((∃ s ∈ symbols, s.startLine = before.length + block.length + 1 ∧ s.doc = blockDoc block) ↔
        TextLast block ∧
          ((∀ line, before.getLast? = some line → ¬InnerDoc line) ∨ ∃ line ∈ block, EmptyDoc line)) := by
    intro symbols hs
    rw [hscan] at hs
    rw [← List.length_append, doc_of_line hs hdecl, List.foldl_append, blockDoc_eq,
      ← foldl_before_eq_nil_iff (x := x) hmax]
    generalize before.foldl (docsAfter x .rust) [] = waiting
    rcases foldl_block x hblock waiting with ⟨hno, hlast, hfold⟩ | ⟨hempty, lost, htexts, hlost⟩
    · have hnone : ¬∃ line ∈ block, EmptyDoc line := fun ⟨line, hline, he⟩ => hno line hline he
      rw [hfold, takeDocs_append_eq]
      simp [hlast, hnone]
    · rw [htexts, eq_comm, takeDocs_append_eq, hlost]
      simp [hempty]
  constructor
  · rintro ⟨symbols, hs, hdoc⟩
    exact ⟨hreturns.mp ⟨symbols, hex ▸ hs⟩, (hsymbol symbols hs).mp hdoc⟩
  · rintro ⟨hcuts, hcond⟩
    obtain ⟨symbols, hs⟩ := hreturns.mpr hcuts
    have hs' : extract x content (some "rust".toList) = .ok symbols := hex.trans hs
    exact ⟨symbols, hs', (hsymbol symbols hs').mpr hcond⟩

/-- Two paragraphs of doc. -/
def paragraphs : Text := "/// A\n///\n/// B\nfn f()".toList

/-- One paragraph of doc on two lines, with an attribute. -/
def oneParagraph : Text := "/// A\n/// B\n#[c]\nfn f()".toList

/-- **The first paragraph is lost.** -/
theorem not_docs_captured :
    ¬∀ (x : Extern) (content : Text) (before block after : List Text) (decl : Text),
      lines content = before ++ block ++ decl :: after → (∀ line ∈ block, InBlock line) →
      (∀ line, before.getLast? = some line → ¬InBlock line) → RustDeclares x (trim decl) →
      ∃ symbols, extract x content (some "rust".toList) = .ok symbols ∧
        ∃ s ∈ symbols, s.startLine = before.length + block.length + 1 ∧ s.doc = blockDoc block := by
  intro h
  obtain ⟨symbols, hs, s, hmem, -, hdoc⟩ := h Sample.sample paragraphs []
    ["/// A".toList, "///".toList, "/// B".toList] [] "fn f()".toList (by decide)
    (by decide) nofun ⟨by decide, by decide, _, rfl, Or.inr ⟨"f".toList, by decide⟩⟩
  have hex : extract Sample.sample paragraphs (some "rust".toList) = .ok [{
      name := "f".toList, kind := "fn".toList, signature := some "fn f()".toList
      startLine := 4, endLine := 4, visibility := none, doc := some "B".toList }] := by decide
  rw [hex] at hs
  obtain rfl := Except.ok.inj hs
  rw [List.mem_singleton.mp hmem] at hdoc
  revert hdoc
  decide

/-- One paragraph is captured. -/
theorem docs_captured_oneParagraph :
    ∃ symbols, extract Sample.sample oneParagraph (some "rust".toList) = .ok symbols ∧
      ∃ s ∈ symbols, s.startLine = 4 ∧ s.doc = blockDoc ["/// A".toList, "/// B".toList, "#[c]".toList] := by
  refine (docs_captured_iff Sample.sample oneParagraph []
    ["/// A".toList, "/// B".toList, "#[c]".toList] [] "fn f()".toList (by decide) (by decide) nofun
    ⟨by decide, by decide, _, rfl, Or.inr ⟨"f".toList, by decide⟩⟩).mpr ⟨?_, ?_, Or.inl nofun⟩
  · have hlines : lines oneParagraph =
        ["/// A".toList, "/// B".toList, "#[c]".toList, "fn f()".toList] := by decide
    rw [hlines]
    intro line hline _
    exact Or.inl ((by decide : ∀ line ∈ ["/// A".toList, "/// B".toList, "#[c]".toList, "fn f()".toList],
      byteLen (bare (trim line)) ≤ 240) line hline)
  · have hnone : ∀ line ∈ ["/// A".toList, "/// B".toList, "#[c]".toList], ¬EmptyDoc line := by decide
    exact List.pairwise_of_forall_mem_list fun _ _ later hlater _ => hnone later hlater

end BrainEngine.Symbols.Docs
