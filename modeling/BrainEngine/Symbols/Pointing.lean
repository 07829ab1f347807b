import BrainEngine.Symbols.Lines

/-! # Symbols point at their declarations

What `extract` returns is in the order of the lines, and each symbol says of its line what stands
there. A line without a symbol has no keyword of the language with a name behind it. -/

namespace BrainEngine.Symbols.Pointing

open BrainEngine.Rust.Str BrainEngine.Rust.Trim BrainEngine.Lib.Outcome BrainEngine.Lib.Scan
open BrainEngine.Core BrainEngine.Core.External BrainEngine.Core.Symbols
open BrainEngine.Index.Signatures BrainEngine.Symbols.Lines

/-- The signature of a line: all of it up to 240 bytes, else its first 237 bytes and an ellipsis. -/
def SignatureOf (whole signature : Text) : Prop :=
  byteLen whole ≤ 240 ∧ signature = whole ∨
    240 < byteLen whole ∧ ∃ cut, cut <+: whole ∧ byteLen cut = 237 ∧
      signature = cut ++ "...".toList

/-- The line begins with the prefix of public declarations. -/
def IsPublic (L : Language) (line : Text) : Prop := ∃ pre, publicPrefix L = some pre ∧ pre <+: trim line

/-- What a symbol says of its line. -/
structure Points (L : Language) (line : Text) (s : ExtractedSymbol) : Prop where
  endLine : s.endLine = s.startLine
  name : s.name <:+: line
  signature : ∃ signature, s.signature = some signature ∧ SignatureOf (bare line) signature
  visibility : s.visibility = some "pub".toList ↔ IsPublic L line

/-- No keyword of the language stands in front of the line with a name behind it; no `impl` does. -/
def DeclaresNothing (x : Extern) (L : Language) (line : Text) : Prop :=
  ∀ pre kind rest, (pre, kind) ∈ specs L → unpublished L (trim line) = pre ++ rest →
    kind ≠ "impl".toList ∧ symbolName x rest = none

/-! ### One line -/

theorem signatureOf_of_ok {line signature : Text} (h : signatureFromLine line = .ok signature) :
    SignatureOf (bare line) signature := by
  unfold signatureFromLine at h
  simp only [← bare.eq_1] at h
  split_ifs at h with hlen
  · have htrunc : truncate 237 (bare line) = takeBytes 237 (bare line) := if_pos (by omega)
    rw [htrunc] at h
    cases hcut : takeBytes 237 (bare line) with
    | none =>
      rw [hcut] at h
      cases h
    | some cut =>
      rw [hcut] at h
      obtain ⟨hpre, hbytes⟩ := takeBytes_eq_some hcut
      exact Or.inr ⟨hlen, cut, hpre, hbytes, (Except.ok.inj h).symm⟩
  · exact Or.inl ⟨by omega, (Except.ok.inj h).symm⟩

theorem bare_trim (line : Text) : bare (trim line) = bare line := by
  unfold bare
  rw [trim_trim]

/-- The fields of the symbol of a line. -/
theorem symbolOfLine_eq_ok {line name kind : Text} {lineNo : ℕ} {visibility doc : Option Text}
    {s : ExtractedSymbol} (h : symbolOfLine line lineNo name kind visibility doc = .ok s) :
    ∃ signature, SignatureOf (bare line) signature ∧
      s = { name, kind, signature := some signature, startLine := lineNo, endLine := lineNo,
            visibility, doc } := by
  obtain ⟨signature, hs, h⟩ := bind_eq_ok.mp h
  exact ⟨signature, signatureOf_of_ok hs, (Except.ok.inj h).symm⟩

theorem unpublished_isSuffix (L : Language) (line : Text) : unpublished L line <:+ line := by
  have hgetD : ∀ o : Option Text, (∀ rest, o = some rest → rest <:+ line) → o.getD line <:+ line := by
    intro o ho
    cases o with
    | none => exact List.suffix_rfl
    | some rest => exact ho rest rfl
  have hstrip : ∀ {pre rest}, stripPrefix line pre = some rest → rest <:+ line := fun {pre _} h =>
    ⟨pre, (stripPrefix_eq_some.mp h).symm⟩
  cases L with
  | rust => exact hgetD _ fun rest h => hstrip h
  | tsJs =>
    refine hgetD _ fun rest h => ?_
    rcases Option.or_eq_some_iff.mp h with h | ⟨-, h⟩
    · exact hstrip h
    · exact hstrip h
  | python => exact List.suffix_rfl

theorem symbolName_isInfix {x : Extern} {rest name : Text} (h : symbolName x rest = some name) :
    name <:+: rest := by
  unfold symbolName at h
  dsimp only at h
  split_ifs at h
  rw [← Option.some.inj h]
  exact (splitFirst_isPrefix _ _).isInfix.trans
    ((trimStartText_isSuffix _ _ _).isInfix.trans (trim_isInfix rest))

theorem nameOf_isInfix {x : Extern} {pre kind rest name : Text} (h : nameOf x kind rest = some name)
    (hpre : kind = "impl".toList → kind <:+: pre) : name <:+: pre ++ rest := by
  unfold nameOf at h
  split_ifs at h with hkind
  · rw [← Option.some.inj h]
    refine (trimMatches_isInfix _ _).trans ?_
    cases hw : firstWord rest with
    | none => exact (hkind ▸ hpre hkind).trans (List.prefix_append _ _).isInfix
    | some w => exact (firstWord_isInfix hw).trans (List.suffix_append _ _).isInfix
  · exact (symbolName_isInfix h).trans (List.suffix_append _ _).isInfix

theorem declared_isInfix {x : Extern} {L : Language} {line name kind : Text}
    (h : declared x L line = some (name, kind)) : name <:+: line := by
  unfold declared at h
  cases hf : findSpec (unpublished L line) (specs L) with
  | none =>
    rw [hf] at h
    cases h
  | some p =>
    obtain ⟨rest, kind'⟩ := p
    rw [hf] at h
    obtain ⟨name', hname, heq⟩ := Option.map_eq_some_iff.mp h
    obtain ⟨rfl, rfl⟩ := Prod.mk.inj heq
    obtain ⟨pre, hmem, hline⟩ := findSpec_eq_some hf
    have hpre : kind' = "impl".toList → kind' <:+: pre := by
      intro hk
      rw [(spec_impl hmem hk).2, hk]
      exact List.IsPrefix.isInfix (by decide)
    have hin : name' <:+: unpublished L line := hline ▸ nameOf_isInfix hname hpre
    exact hin.trans (unpublished_isSuffix L line).isInfix

theorem visibility_eq_pub {L : Language} {line : Text} :
    visibility L (trim line) = some "pub".toList ↔ IsPublic L line := by
  unfold visibility IsPublic
  cases publicPrefix L with
  | none => simp
  | some pre =>
    dsimp only
    split_ifs with h
    · simpa using startsWith_iff.mp h
    · simpa using fun hpre => h (startsWith_iff.mpr hpre)

/-- **A symbol says what stands in its line.** -/
theorem points_of_lineOut {x : Extern} {L : Language} {docs : List Text} {lineNo : ℕ} {line : Text}
    {s : ExtractedSymbol} (h : lineOut x L docs lineNo line = .ok (some s)) :
    s.startLine = lineNo ∧ Points L line s := by
  unfold lineOut at h
  cases hd : declared x L (trim line) with
  | none =>
    rw [hd] at h
    cases h
  | some p =>
    obtain ⟨name, kind⟩ := p
    rw [hd] at h
    obtain ⟨s', hs, heq⟩ := map_eq_ok.mp h
    obtain rfl := Option.some.inj heq
    obtain ⟨signature, hsig, rfl⟩ := symbolOfLine_eq_ok hs
    rw [bare_trim] at hsig
    exact ⟨rfl, rfl, (declared_isInfix hd).trans (trim_isInfix line), ⟨signature, rfl, hsig⟩,
      visibility_eq_pub⟩

/-! ### Lines without a symbol -/

/-- A keyword that is the only one in front is found. -/
theorem findSpec_of_unique {s pre kind rest : Text} (hs : s = pre ++ rest) :
    ∀ {table : List (Text × Text)}, (pre, kind) ∈ table →
      (∀ p ∈ table, p.1 <+: s → p = (pre, kind)) → findSpec s table = some (rest, kind)
  | (pre', kind') :: table, hmem, huniq => by
    rw [findSpec]
    cases hstrip : stripPrefix s pre' with
    | some rest' =>
      have hs' : s = pre' ++ rest' := stripPrefix_eq_some.mp hstrip
      obtain ⟨rfl, rfl⟩ := Prod.mk.inj (huniq (pre', kind') List.mem_cons_self ⟨rest', hs'.symm⟩)
      rw [hs] at hs'
      rw [List.append_cancel_left hs']
    | none =>
      have hne : (pre, kind) ≠ (pre', kind') := by
        intro heq
        obtain ⟨rfl, rfl⟩ := Prod.mk.inj heq
        rw [stripPrefix_eq_some.mpr hs] at hstrip
        cases hstrip
      exact findSpec_of_unique hs (List.mem_of_ne_of_mem hne hmem) fun p hp =>
        huniq p (List.mem_cons_of_mem _ hp)

/-- No keyword of a language begins with another. -/
theorem findSpec_of_mem {L : Language} {pre kind rest : Text} (h : (pre, kind) ∈ specs L) :
    findSpec (pre ++ rest) (specs L) = some (rest, kind) := by
  have hfree : ∀ p ∈ specs L, ∀ q ∈ specs L, p.1 <+: q.1 → p = q := by
    cases L with
    | rust => decide
    | tsJs => decide
    | python => decide
  refine findSpec_of_unique rfl h fun p hp hfront => ?_
  rcases List.prefix_or_prefix_of_prefix hfront (List.prefix_append pre rest) with hle | hle
  · exact hfree p hp _ h hle
  · exact (hfree _ h p hp hle).symm

theorem declaresNothing_of_lineOut {x : Extern} {L : Language} {docs : List Text} {lineNo : ℕ}
    {line : Text} (h : lineOut x L docs lineNo line = .ok none) : DeclaresNothing x L line := by
  intro pre kind rest hmem hline
  unfold lineOut at h
  cases hd : declared x L (trim line) with
  | some p =>
    rw [hd] at h
    obtain ⟨s, -, heq⟩ := map_eq_ok.mp h
    cases heq
  | none =>
    unfold declared at hd
    rw [hline, findSpec_of_mem hmem] at hd
    have hname : nameOf x kind rest = none := Option.map_eq_none_iff.mp hd
    unfold nameOf at hname
    split_ifs at hname with hkind
    exact ⟨hkind, hname⟩

/-- **Extracted symbols point at their declarations.** For every text and language label on which
extraction returns: the symbols come in the order of their lines, each says of its line what stands
there, and the lines without a symbol declare nothing. -/
theorem extracted_symbols_point (x : Extern) (content : Text) (lang : Option Text)
    (symbols : List ExtractedSymbol) (h : extract x content lang = .ok symbols) :
    symbols.Pairwise (fun s s' => s.startLine < s'.startLine) ∧
      (∀ s ∈ symbols, 1 ≤ s.startLine ∧ s.startLine ≤ (lines content).length ∧
        ∃ L line, languageOf lang = some L ∧ (lines content)[s.startLine - 1]? = some line ∧
          Points L line s) ∧
      ∀ L k line, languageOf lang = some L → (lines content)[k]? = some line →
        (∀ s ∈ symbols, s.startLine ≠ k + 1) → DeclaresNothing x L line := by
  rw [extract_eq_scan] at h
  cases hl : languageOf lang with
  | none =>
    rw [hl] at h
    cases h
    refine ⟨List.Pairwise.nil, nofun, nofun⟩
  | some L =>
    rw [hl] at h
    refine ⟨pairwise_scan (fun hout => (points_of_lineOut hout).1) h, ?_, ?_⟩
    · intro s hs
      obtain ⟨k, line, hk, hout⟩ := (mem_scan h s).mp hs
      obtain ⟨hstart, hpoints⟩ := points_of_lineOut hout
      have hlt : k < (lines content).length := (List.getElem?_eq_some_iff.mp hk).1
      have hidx : s.startLine - 1 = k := by omega
      exact ⟨by omega, by omega, L, line, rfl, hidx ▸ hk, hpoints⟩
    · rintro L' k line hL' hk hno
      obtain rfl := Option.some.inj hL'
      obtain ⟨o, ho⟩ := out_of_scan h hk
      cases o with
      | none => exact declaresNothing_of_lineOut ho
      | some s =>
        have hs : s ∈ symbols := (mem_scan h s).mpr ⟨k, line, hk, ho⟩
        have hstart := (points_of_lineOut ho).1
        exact absurd (by omega) (hno s hs)

/-- The symbol of a function without parameters. -/
def functionAt (name : String) (line : ℕ) : ExtractedSymbol where
  name := name.toList
  kind := "fn".toList
  signature := some ("fn ".toList ++ name.toList ++ "()".toList)
  startLine := line
  endLine := line
  visibility := none
  doc := none

/-- Two functions with a line between them. -/
theorem extracted_symbols_point_pair :
    extract Sample.sample "fn a() \x7b\n\nfn b()".toList (some "rust".toList) =
        .ok [functionAt "a" 1, functionAt "b" 3] ∧
      ∀ s ∈ [functionAt "a" 1, functionAt "b" 3], 1 ≤ s.startLine ∧ s.startLine ≤ 3 := by
  have h : extract Sample.sample "fn a() \x7b\n\nfn b()".toList (some "rust".toList) =
      .ok [functionAt "a" 1, functionAt "b" 3] := by decide
  refine ⟨h, fun s hs => ?_⟩
  obtain ⟨hpos, hle, -⟩ := (extracted_symbols_point _ _ _ _ h).2.1 s hs
  exact ⟨hpos, hle⟩

end BrainEngine.Symbols.Pointing
