import BrainEngine.Js.Text
import BrainEngine.Lib.Lexing

/-! # Eco compression

`compressCode` drops lines of a chunk: dividers, blank lines, and in ultra mode a block of imports at the
top. It knows them by how they look. `unaltered_iff` says when the chunk reads the same without them, in
whichever language it is written. -/

namespace BrainEngine.Client.Compress

open BrainEngine.Js.Values BrainEngine.Js.Text BrainEngine.Lib.Lexing

/-! ### Patterns -/

/-- `[\s=\-*~_]`. -/
def ruleUnit (c : UInt16) : Bool :=
  isSpace c || c == 0x3D || c == 0x2D || c == 0x2A || c == 0x7E || c == 0x5F

/-- `[\s=\-*~_]{4,}[\s]*(?:\*\/)?[\s]*$`. The star of `*/` is a character of the rule too. -/
def ruleOnly (s : JsString) : Bool :=
  let rule := s.takeWhile ruleUnit
  match s.dropWhile ruleUnit with
  | [] => 4 ≤ rule.length
  | c :: rest => c == 0x2F && rest.all isSpace && rule.getLast? == some 0x2A && 5 ≤ rule.length

/-- `DECORATIVE_LINE_RE`. -/
def decorative (line : JsString) : Bool :=
  let line := line.dropWhile isSpace
  ["//", "#", "/*", "*"].any fun opener =>
    (js opener).isPrefixOf line && ruleOnly (line.drop opener.length)

theorem ruleUnit_of_isSpace {c : UInt16} (h : isSpace c = true) : ruleUnit c = true := by
  rw [ruleUnit, h]
  rfl

/-- **The pattern of the rule**, as it is written: four characters of the rule, white space, the end of
a comment or nothing, white space. -/
theorem ruleOnly_iff (s : JsString) : ruleOnly s = true ↔ ∃ rule gap close trail,
    s = rule ++ gap ++ close ++ trail ∧ (∀ c ∈ rule, ruleUnit c = true) ∧ 4 ≤ rule.length ∧
      (∀ c ∈ gap, isSpace c = true) ∧ (close = [] ∨ close = js "*/") ∧ ∀ c ∈ trail, isSpace c = true := by
  have hclose : js "*/" = [0x2A, 0x2F] := rfl
  rw [hclose]
  constructor
  · intro h
    have hsplit : s.takeWhile ruleUnit ++ s.dropWhile ruleUnit = s := List.takeWhile_append_dropWhile
    have hrule : ∀ c ∈ s.takeWhile ruleUnit, ruleUnit c = true := fun c => List.mem_takeWhile_imp
    unfold ruleOnly at h
    dsimp only at h
    split at h
    · next hd =>
      rw [hd, List.append_nil] at hsplit
      refine ⟨s.takeWhile ruleUnit, [], [], [], by simp [hsplit], hrule, by simpa using h, ?_⟩
      simp
    · next c rest hd =>
      simp only [Bool.and_eq_true, beq_iff_eq, List.all_eq_true, decide_eq_true_eq] at h
      obtain ⟨⟨⟨hc, hrest⟩, hstar⟩, hlen⟩ := h
      obtain ⟨body, hbody⟩ := List.getLast?_eq_some_iff.mp hstar
      rw [hd, hc, hbody] at hsplit
      rw [hbody, List.length_append, List.length_singleton] at hlen
      rw [hbody] at hrule
      refine ⟨body, [], [0x2A, 0x2F], rest, by simp [← hsplit], fun c hc => ?_, by omega, by simp,
        .inr rfl, hrest⟩
      exact hrule c (List.mem_append_left _ hc)
  · rintro ⟨rule, gap, close, trail, rfl, hrule, hlen, hgap, hclose | hclose, htrail⟩
    · subst hclose
      have hall : ∀ c ∈ rule ++ gap ++ [] ++ trail, ruleUnit c = true := fun c hc => by
        rw [List.append_nil, List.mem_append, List.mem_append] at hc
        rcases hc with (hc | hc) | hc
        · exact hrule c hc
        · exact ruleUnit_of_isSpace (hgap c hc)
        · exact ruleUnit_of_isSpace (htrail c hc)
      rw [ruleOnly, List.takeWhile_eq_self_iff.mpr hall, List.dropWhile_eq_nil_iff.mpr hall]
      simp only [List.length_append, decide_eq_true_eq]
      omega
    · subst hclose
      have hall : ∀ c ∈ rule ++ gap ++ [0x2A], ruleUnit c = true := fun c hc => by
        rw [List.mem_append, List.mem_append, List.mem_singleton] at hc
        rcases hc with (hc | hc) | rfl
        · exact hrule c hc
        · exact ruleUnit_of_isSpace (hgap c hc)
        · decide
      have hs : rule ++ gap ++ [0x2A, 0x2F] ++ trail = rule ++ gap ++ [0x2A] ++ 0x2F :: trail := by simp
      have htake : (rule ++ gap ++ [0x2A] ++ 0x2F :: trail).takeWhile ruleUnit = rule ++ gap ++ [0x2A] := by
        rw [List.takeWhile_append_of_pos hall, List.takeWhile_cons_of_neg (by decide), List.append_nil]
      have hdrop : (rule ++ gap ++ [0x2A] ++ 0x2F :: trail).dropWhile ruleUnit = 0x2F :: trail := by
        rw [List.dropWhile_append_of_pos hall, List.dropWhile_cons_of_neg (by decide)]
      rw [ruleOnly, hs, htake, hdrop]
      simp only [List.getLast?_concat, List.length_append, List.length_singleton, beq_self_eq_true,
        Bool.true_and, Bool.and_true, Bool.and_eq_true, List.all_eq_true, decide_eq_true_eq]
      exact ⟨htrail, by omega⟩

/-- **The pattern of a divider**, as it is written: white space, the beginning of a comment, a rule. -/
theorem decorative_iff (line : JsString) : decorative line = true ↔ ∃ indent opener rest,
    line = indent ++ js opener ++ rest ∧ (∀ c ∈ indent, isSpace c = true) ∧
      opener ∈ ["//", "#", "/*", "*"] ∧ ruleOnly rest = true := by
  have hlength : ∀ opener ∈ ["//", "#", "/*", "*"], (js opener).length = opener.length := by decide
  have hhead : ∀ opener ∈ ["//", "#", "/*", "*"], ((js opener).dropWhile isSpace) = js opener := by decide
  unfold decorative
  simp only [List.any_eq_true, Bool.and_eq_true, List.isPrefixOf_iff_prefix]
  constructor
  · rintro ⟨opener, ho, ⟨rest, hrest⟩, hrule⟩
    refine ⟨line.takeWhile isSpace, opener, rest, ?_, fun c => List.mem_takeWhile_imp, ho, ?_⟩
    · rw [List.append_assoc, hrest, List.takeWhile_append_dropWhile]
    · rwa [← hrest, ← hlength opener ho, List.drop_left] at hrule
  · rintro ⟨indent, opener, rest, rfl, hindent, ho, hrule⟩
    have hne : ¬((js opener).dropWhile isSpace).isEmpty = true := by
      rw [hhead opener ho]
      revert opener
      decide
    have hdrop : (indent ++ js opener ++ rest).dropWhile isSpace = js opener ++ rest := by
      rw [List.append_assoc, List.dropWhile_append_of_pos hindent, List.dropWhile_append, if_neg hne,
        hhead opener ho]
    refine ⟨opener, ho, ?_, ?_⟩
    · rw [hdrop]
      exact List.prefix_append _ _
    · rw [hdrop, ← hlength opener ho, List.drop_left]
      exact hrule

/-- `BLANK_RE`. -/
def blank (line : JsString) : Bool := line.all isSpace

/-- `IMPORT_RE`. -/
def importLike (line : JsString) : Bool :=
  ["import", "from", "require", "use ", "#include", "using ", "package "].any fun word =>
    (js word).isPrefixOf (line.dropWhile isSpace)

/-! ### Compression

The steps are the same for lines that are marked with their places: `text` is the text of a line. -/

section
variable {α : Type} (text : α → JsString)

/-- Drop decorative divider lines. -/
def dropDecorative (lines : List α) : List α := lines.filter fun l => !decorative (text l)

/-- Of a run of blank lines keep two, `blankRun` having been met. -/
def collapse : ℕ → List α → List α
  | _, [] => []
  | blankRun, l :: lines =>
    if blank (text l) then
      if blankRun + 1 ≤ 2 then l :: collapse (blankRun + 1) lines else collapse (blankRun + 1) lines
    else l :: collapse 0 lines

/-- The index of the first line that is neither an import nor blank. -/
def firstNonImport (lines : List α) : ℕ :=
  (lines.takeWhile fun l => blank (text l) || importLike (text l)).length

/-- The line in place of the imports. -/
def omitted (n : ℕ) : JsString :=
  js "// [" ++ js (toString n) ++ js " import lines omitted]"

/-- The lines that are left, after the line in place of the imports. -/
def compressLines (ultra : Bool) (lines : List α) : List JsString × List α :=
  let lines := collapse text 0 (dropDecorative text lines)
  let n := firstNonImport text lines
  if ultra = true ∧ 3 < n ∧ n < lines.length then ([omitted n], lines.drop n) else ([], lines)

end

/-- The lines of a chunk without white space at their ends. -/
def linesOf (src : JsString) : List JsString := (splitLines src).map trimEnd

def compressCode (src : JsString) (ultra : Bool) : JsString :=
  let r := compressLines id ultra (linesOf src)
  trimEnd (joinLines (r.1 ++ r.2))

/-- The lines that survive, with their numbers. The empty ones at the end fall to the last `trimEnd`. -/
def kept (ultra : Bool) (lines : List JsString) : List (JsString × ℕ) :=
  (compressLines Prod.fst ultra lines.zipIdx).2.rdropWhile fun l => l.1.isEmpty

/-! ### Unaltered code -/

/-- A line may be dropped: it is a divider, or in ultra mode an import. -/
def Droppable (L : LineLanguage UInt16) (ultra : Bool) (s : L.State) (l : JsString) : Prop :=
  L.Divider s l ∨ ultra = true ∧ L.importLine s l = true

/-- The compressed chunk reads like the chunk. -/
structure Unaltered (L : LineLanguage UInt16) (ultra : Bool) (src : JsString) : Prop where
  /-- The lines that survive, in their order, after one marker at most. -/
  survive : (kept ultra (linesOf src)).Sublist (linesOf src).zipIdx ∧ ∃ marker,
    (marker = [] ∨ ultra = true ∧ ∃ n, marker = [omitted n]) ∧
      compressCode src ultra = joinLines (marker ++ (kept ultra (linesOf src)).map Prod.fst)
  dropped : ∀ i l, (linesOf src)[i]? = some l → l ≠ [] → (l, i) ∉ kept ultra (linesOf src) →
    Droppable L ultra (L.after L.start ((linesOf src).take i)) l
  code : L.code L.start ((kept ultra (linesOf src)).map Prod.fst) = L.code L.start (linesOf src)
  balanced : L.after L.start (linesOf src) = L.start →
    L.after L.start ((kept ultra (linesOf src)).map Prod.fst) = L.start

/-- The line looks blank, or like a divider or an import. -/
def header (l : JsString) : Bool := decorative l || blank l || importLike l

/-- The lines before the first that does not. -/
def leading (lines : List JsString) : List JsString := lines.takeWhile header

/-- The leading lines are taken for imports: more than three of them count, and others follow. -/
def Strips (ultra : Bool) (lines : List JsString) : Prop :=
  ultra = true ∧ 3 < (collapse id 0 (dropDecorative id (leading lines))).length ∧
    (leading lines).length < lines.length

instance (ultra : Bool) (lines : List JsString) : Decidable (Strips ultra lines) :=
  inferInstanceAs (Decidable (_ ∧ _ ∧ _))

/-- The lines are what they look like: dividers leave comments alone, and the leading lines are imports
where they are taken for such. -/
structure Apt (L : LineLanguage UInt16) (ultra : Bool) (lines : List JsString) : Prop where
  dividers : ∀ i l, lines[i]? = some l → decorative l = true →
    Droppable L ultra (L.after L.start (lines.take i)) l
  imports : Strips ultra lines → ∀ i l, lines[i]? = some l → i < (leading lines).length → l ≠ [] →
    Droppable L ultra (L.after L.start (lines.take i)) l

example : decorative (js "  /* ======= */") = true := by decide

/-! ### Steps -/

section
variable {α β : Type} {text : α → JsString} {lines lead rest : List α} {a : α} {n : ℕ} {ultra : Bool}

theorem mem_dropDecorative : a ∈ dropDecorative text lines ↔ a ∈ lines ∧ decorative (text a) = false := by
  unfold dropDecorative
  rw [List.mem_filter, Bool.not_eq_true']

theorem collapse_sublist : (collapse text n lines).Sublist lines := by
  induction lines generalizing n with
  | nil => exact .slnil
  | cons l lines ih =>
    rw [collapse]
    split_ifs
    · exact ih.cons_cons l
    · exact ih.cons l
    · exact ih.cons_cons l

theorem mem_collapse (h : blank (text a) = false) : a ∈ collapse text n lines ↔ a ∈ lines := by
  refine ⟨fun ha => collapse_sublist.subset ha, fun ha => ?_⟩
  induction lines generalizing n with
  | nil => cases ha
  | cons l lines ih =>
    rw [collapse]
    rcases List.mem_cons.mp ha with rfl | ha
    · rw [if_neg (by simp [h])]
      exact List.mem_cons_self
    · split_ifs
      · exact List.mem_cons_of_mem l (ih ha)
      · exact ih ha
      · exact List.mem_cons_of_mem l (ih ha)

/-- A line that is not blank starts afresh. -/
theorem collapse_append {y : α} (h : blank (text y) = false) (ys : List α) :
    collapse text n (lines ++ y :: ys) = collapse text n lines ++ collapse text 0 (y :: ys) := by
  have hy : ∀ m, collapse text m (y :: ys) = y :: collapse text 0 ys := fun m => by
    rw [collapse, if_neg (by simp [h])]
  induction lines generalizing n with
  | nil => rw [List.nil_append, hy, hy, collapse, List.nil_append]
  | cons l lines ih =>
    rw [List.cons_append, collapse, collapse]
    split_ifs
    · rw [ih, List.cons_append]
    · rw [ih]
    · rw [ih, List.cons_append]

theorem compressLines_sublist : (compressLines text ultra lines).2.Sublist lines := by
  have hsub : (collapse text 0 (dropDecorative text lines)).Sublist lines :=
    collapse_sublist.trans List.filter_sublist
  unfold compressLines
  dsimp only
  split_ifs
  · exact (List.drop_sublist _ _).trans hsub
  · exact hsub

/-- **The steps, with the leading lines apart.** -/
theorem compressLines_append (text : α → JsString) (ultra : Bool)
    (hlead : ∀ l ∈ lead, header (text l) = true) (hrest : ∀ l ∈ rest.head?, header (text l) = false) :
    compressLines text ultra (lead ++ rest) =
      if ultra = true ∧ 3 < (collapse text 0 (dropDecorative text lead)).length ∧ rest ≠ [] then
        ([omitted (collapse text 0 (dropDecorative text lead)).length],
          collapse text 0 (dropDecorative text rest))
      else
        ([], collapse text 0 (dropDecorative text lead) ++ collapse text 0 (dropDecorative text rest)) := by
  obtain ⟨block, hb⟩ : ∃ block, block = collapse text 0 (dropDecorative text lead) := ⟨_, rfl⟩
  rw [← hb]
  have hblock : ∀ l ∈ block, (blank (text l) || importLike (text l)) = true := fun l hl => by
    rw [hb] at hl
    obtain ⟨hl, hd⟩ := mem_dropDecorative.mp (collapse_sublist.subset hl)
    have hl := hlead l hl
    rwa [header, hd, Bool.false_or] at hl
  have hdrop : dropDecorative text (lead ++ rest) = dropDecorative text lead ++ dropDecorative text rest :=
    List.filter_append ..
  cases rest with
  | nil =>
    have hall : dropDecorative text (lead ++ []) = dropDecorative text lead := by rw [List.append_nil]
    have hnil : collapse text 0 (dropDecorative text []) = [] := rfl
    have hfirst : firstNonImport text block = block.length := by
      rw [firstNonImport, List.takeWhile_eq_self_iff.mpr hblock]
    have hshort : ¬(ultra = true ∧ 3 < block.length ∧ block.length < block.length) := fun h =>
      lt_irrefl _ h.2.2
    rw [compressLines, hall, hnil, List.append_nil, ← hb, hfirst, if_neg hshort, if_neg (by simp)]
  | cons y ys =>
    have hy := hrest y rfl
    rw [header, Bool.or_eq_false_iff, Bool.or_eq_false_iff] at hy
    obtain ⟨⟨hyd, hyb⟩, hyi⟩ := hy
    have hcons : dropDecorative text (y :: ys) = y :: dropDecorative text ys :=
      List.filter_cons_of_pos (by simp [hyd])
    have hall : collapse text 0 (dropDecorative text (lead ++ y :: ys)) =
        block ++ collapse text 0 (dropDecorative text (y :: ys)) := by
      rw [hdrop, hcons, collapse_append hyb, hb]
    have hhead : collapse text 0 (dropDecorative text (y :: ys)) =
        y :: collapse text 0 (dropDecorative text ys) := by
      rw [hcons, collapse, if_neg (by simp [hyb])]
    have hfirst : firstNonImport text (block ++ collapse text 0 (dropDecorative text (y :: ys))) =
        block.length := by
      rw [firstNonImport, hhead, List.takeWhile_append_of_pos hblock, List.takeWhile_cons_of_neg,
        List.append_nil]
      simp [hyb, hyi]
    have hlt : block.length < (block ++ collapse text 0 (dropDecorative text (y :: ys))).length := by
      rw [hhead, List.length_append, List.length_cons]
      omega
    have hne : y :: ys ≠ [] := List.cons_ne_nil y ys
    rw [compressLines, hall, hfirst, List.drop_left]
    simp only [hlt, hne, ne_eq, not_false_eq_true, and_true]

/-! ### Marked lines -/

theorem map_dropDecorative (f : β → α) (lines : List β) :
    (dropDecorative (text ∘ f) lines).map f = dropDecorative text (lines.map f) := by
  unfold dropDecorative
  rw [List.filter_map]
  rfl

theorem map_collapse (text : α → JsString) (n : ℕ) (f : β → α) (lines : List β) :
    (collapse (text ∘ f) n lines).map f = collapse text n (lines.map f) := by
  induction lines generalizing n with
  | nil => rfl
  | cons l lines ih =>
    rw [List.map_cons, collapse, collapse, ← ih, ← ih]
    simp only [Function.comp_apply]
    split_ifs
    · rfl
    · rfl
    · rfl

/-- The marks do not matter. -/
theorem compressLines_map (text : α → JsString) (ultra : Bool) (f : β → α) (lines : List β) :
    compressLines text ultra (lines.map f) =
      ((compressLines (text ∘ f) ultra lines).1, (compressLines (text ∘ f) ultra lines).2.map f) := by
  have hlines := map_collapse text 0 f (dropDecorative (text ∘ f) lines)
  rw [map_dropDecorative] at hlines
  have hfirst : ∀ ls : List β, firstNonImport text (ls.map f) = firstNonImport (text ∘ f) ls := by
    intro ls
    unfold firstNonImport
    rw [List.takeWhile_map, List.length_map]
    rfl
  unfold compressLines
  dsimp only
  rw [← hlines, hfirst, List.length_map]
  split_ifs
  · rw [List.map_drop]
  · rfl

end

/-! ### The lines that survive -/

section
variable {src l : JsString} {lines : List JsString} {ultra : Bool} {i : ℕ}

theorem trimEnd_of_mem_linesOf (h : l ∈ linesOf src) : trimEnd l = l := by
  obtain ⟨l', -, rfl⟩ := List.mem_map.mp h
  exact trimEnd_trimEnd l'

theorem blank_eq_false (h : trimEnd l = l) (hne : l ≠ []) : blank l = false := by
  by_contra hb
  have hall : ∀ c ∈ l, isSpace c = true := List.all_eq_true.mp (Bool.of_not_eq_false hb)
  exact hne (h.symm.trans (List.rdropWhile_eq_nil_iff.mpr hall))

theorem zipIdx_leading (lines : List JsString) : ∃ rest,
    lines.zipIdx = (leading lines).zipIdx ++ rest.zipIdx (leading lines).length ∧
      (rest ≠ [] ↔ (leading lines).length < lines.length) ∧
      ∀ l ∈ rest.head?, header l = false := by
  have hsplit : leading lines ++ lines.dropWhile header = lines := List.takeWhile_append_dropWhile
  refine ⟨lines.dropWhile header, ?_, ?_, fun l hl => ?_⟩
  · conv_lhs => rw [← hsplit]
    rw [List.zipIdx_append, Nat.zero_add]
  · have hlen := congrArg List.length hsplit
    rw [List.length_append] at hlen
    rw [← List.length_pos_iff]
    omega
  · have hhead := List.head?_dropWhile_not header lines
    rw [Option.mem_def.mp hl] at hhead
    exact hhead

theorem mem_zipIdx_iff {lead rest : List JsString}
    (h : (l, i) ∈ lead.zipIdx ∨ (l, i) ∈ rest.zipIdx lead.length) :
    ((l, i) ∈ lead.zipIdx ↔ i < lead.length) ∧ ((l, i) ∈ rest.zipIdx lead.length ↔ ¬i < lead.length) := by
  have hfront : (l, i) ∈ lead.zipIdx → i < lead.length := fun hm => by
    have hlt := List.snd_lt_of_mem_zipIdx hm
    simpa using hlt
  have hback : (l, i) ∈ rest.zipIdx lead.length → ¬i < lead.length := fun hm => by
    have hle := List.le_snd_of_mem_zipIdx hm
    simpa using hle
  exact ⟨⟨hfront, fun hi => h.resolve_right fun hr => hback hr hi⟩,
    ⟨hback, fun hi => h.resolve_left fun hl => hi (hfront hl)⟩⟩

/-- The marks do not change how many lines count. -/
theorem length_collapse_zipIdx (lines : List JsString) :
    (collapse Prod.fst 0 (dropDecorative Prod.fst lines.zipIdx)).length =
      (collapse id 0 (dropDecorative id lines)).length := by
  have hmap := map_collapse id 0 Prod.fst (dropDecorative (id ∘ Prod.fst) lines.zipIdx)
  rw [map_dropDecorative, List.zipIdx_map_fst] at hmap
  rw [← hmap, List.length_map]
  rfl

/-- **Which lines are dropped**, but for blank ones: dividers, and leading lines taken for imports. -/
theorem notMem_kept_iff (htrim : ∀ l ∈ lines, trimEnd l = l) (hl : lines[i]? = some l) (hne : l ≠ []) :
    (l, i) ∉ kept ultra lines ↔
      decorative l = true ∨ Strips ultra lines ∧ i < (leading lines).length := by
  obtain ⟨rest, hsplit, hrest, hhead⟩ := zipIdx_leading lines
  have hblank : blank l = false := blank_eq_false (htrim l (List.mem_of_getElem? hl)) hne
  have hmem : (l, i) ∈ (leading lines).zipIdx ∨ (l, i) ∈ rest.zipIdx (leading lines).length := by
    rw [← List.mem_append, ← hsplit]
    exact List.mk_mem_zipIdx_iff_getElem?.mpr hl
  have hlead : ∀ a ∈ (leading lines).zipIdx, header a.1 = true := fun a ha =>
    List.mem_takeWhile_imp (List.fst_mem_of_mem_zipIdx ha)
  have hothers : ∀ a ∈ (rest.zipIdx (leading lines).length).head?, header a.1 = false := fun a ha => by
    rw [List.head?_zipIdx, Option.mem_def, Option.map_eq_some_iff] at ha
    obtain ⟨l', hl', rfl⟩ := ha
    exact hhead l' hl'
  have hsteps := compressLines_append Prod.fst ultra hlead hothers
  have hstrips : ultra = true ∧
      3 < (collapse Prod.fst 0 (dropDecorative Prod.fst (leading lines).zipIdx)).length ∧
        rest.zipIdx (leading lines).length ≠ [] ↔ Strips ultra lines := by
    rw [length_collapse_zipIdx, ne_eq, List.zipIdx_eq_nil_iff, ← ne_eq, hrest]
    rfl
  have hend : (l, i).1.isEmpty = false := by simpa using hne
  have hleft : ∀ ls : List (JsString × ℕ), (l, i) ∈ collapse Prod.fst 0 (dropDecorative Prod.fst ls) ↔
      (l, i) ∈ ls ∧ decorative l = false := fun ls => by
    rw [mem_collapse hblank, mem_dropDecorative]
  unfold kept
  rw [mem_rdropWhile (fun a : JsString × ℕ => a.1.isEmpty) hend, hsplit, hsteps,
    if_congr hstrips rfl rfl]
  by_cases hs : Strips ultra lines
  · rw [if_pos hs, hleft, (mem_zipIdx_iff hmem).2]
    cases decorative l with
    | true => simp
    | false => simp [hs]
  · rw [if_neg hs, List.mem_append, hleft, hleft, ← or_and_right, eq_true hmem]
    cases decorative l with
    | true => simp
    | false => simp [hs]

theorem trimEnd_omitted (n : ℕ) : trimEnd (omitted n) = omitted n := by
  unfold omitted
  exact trimEnd_append _ (by decide) (by decide)

theorem compressLines_fst {α : Type} (text : α → JsString) (ultra : Bool) (ls : List α) :
    (compressLines text ultra ls).1 = [] ∨
      ultra = true ∧ ∃ n, (compressLines text ultra ls).1 = [omitted n] := by
  unfold compressLines
  dsimp only
  split_ifs with h
  · exact .inr ⟨h.1, _, rfl⟩
  · exact .inl rfl

/-- **The result consists of the lines that survive**, after the line in place of the imports. -/
theorem compressCode_eq (src : JsString) (ultra : Bool) : compressCode src ultra =
    joinLines ((compressLines id ultra (linesOf src)).1 ++ (kept ultra (linesOf src)).map Prod.fst) := by
  have hmap := compressLines_map id ultra Prod.fst (linesOf src).zipIdx
  rw [List.zipIdx_map_fst] at hmap
  have hkept : (kept ultra (linesOf src)).map Prod.fst =
      (compressLines id ultra (linesOf src)).2.rdropWhile List.isEmpty := by
    rw [hmap, ← map_rdropWhile]
    rfl
  have hfront : (compressLines id ultra (linesOf src)).1.rdropWhile List.isEmpty =
      (compressLines id ultra (linesOf src)).1 := by
    rcases compressLines_fst id ultra (linesOf src) with h | ⟨-, n, h⟩
    · rw [h]
      exact List.rdropWhile_nil _
    · rw [h, List.rdropWhile_singleton]
      rfl
  have htrim : ∀ l ∈ (compressLines id ultra (linesOf src)).1 ++ (compressLines id ultra (linesOf src)).2,
      trimEnd l = l := fun l hl => by
    rcases List.mem_append.mp hl with hl | hl
    · rcases compressLines_fst id ultra (linesOf src) with h | ⟨-, n, h⟩
      · rw [h] at hl
        cases hl
      · rw [h, List.mem_singleton] at hl
        rw [hl, trimEnd_omitted]
    · exact trimEnd_of_mem_linesOf (compressLines_sublist.subset hl)
  unfold compressCode
  rw [trimEnd_joinLines htrim, rdropWhile_append _ hfront, hkept]

theorem kept_sublist (ultra : Bool) (lines : List JsString) : (kept ultra lines).Sublist lines.zipIdx :=
  (List.rdropWhile_prefix _ _).sublist.trans compressLines_sublist

end

variable {L : LineLanguage UInt16} {ultra : Bool} {s : L.State} {l src : JsString}

theorem Droppable.idle (h : Droppable L ultra s l) : L.Idle s l := by
  rcases h with h | ⟨-, h⟩
  · exact h.idle
  · exact LineLanguage.idle_of_importLine h

/-- If what is dropped may be dropped, the rest reads like the whole. -/
theorem read_kept (h : ∀ i l, (linesOf src)[i]? = some l → l ≠ [] → (l, i) ∉ kept ultra (linesOf src) →
    Droppable L ultra (L.after L.start ((linesOf src).take i)) l) :
    L.code L.start ((kept ultra (linesOf src)).map Prod.fst) = L.code L.start (linesOf src) ∧
      L.after L.start ((kept ultra (linesOf src)).map Prod.fst) = L.after L.start (linesOf src) := by
  refine LineLanguage.read_selection (kept_sublist ultra (linesOf src)) fun i l hl hnot => ?_
  rw [Nat.zero_add] at hnot
  by_cases hne : l = []
  · subst hne
    exact LineLanguage.idle_nil
  · exact (h i l hl hne hnot).idle

/-- **When compression leaves the code alone**, in any language: lines that look like dividers, and
leading lines that are taken for imports, are what they look like. -/
theorem unaltered_iff (L : LineLanguage UInt16) (ultra : Bool) (src : JsString) :
    Unaltered L ultra src ↔ Apt L ultra (linesOf src) := by
  have htrim : ∀ l ∈ linesOf src, trimEnd l = l := fun l => trimEnd_of_mem_linesOf
  constructor
  · intro h
    refine ⟨fun i l hl hd => ?_, fun hs i l hl hi hne => ?_⟩
    · have hne : l ≠ [] := by
        rintro rfl
        exact absurd hd (by decide)
      exact h.dropped i l hl hne ((notMem_kept_iff htrim hl hne).mpr (.inl hd))
    · exact h.dropped i l hl hne ((notMem_kept_iff htrim hl hne).mpr (.inr ⟨hs, hi⟩))
  · intro h
    have hdropped : ∀ i l, (linesOf src)[i]? = some l → l ≠ [] → (l, i) ∉ kept ultra (linesOf src) →
        Droppable L ultra (L.after L.start ((linesOf src).take i)) l := fun i l hl hne hnot => by
      rcases (notMem_kept_iff htrim hl hne).mp hnot with hd | ⟨hs, hi⟩
      · exact h.dividers i l hl hd
      · exact h.imports hs i l hl hi hne
    obtain ⟨hcode, hafter⟩ := read_kept hdropped
    exact {
      survive := ⟨kept_sublist ultra _, _, compressLines_fst id ultra _, compressCode_eq src ultra⟩
      dropped := hdropped
      code := hcode
      balanced := fun hb => hafter.trans hb }

/-! ### A language -/

/-- Where a line of the C family is: in the code, behind a `/` there, in either kind of comment, or
behind a `*` in a block comment. -/
inductive Place
  | code
  | slash
  | line
  | block
  | star

/-- Whether a block comment is open at the end of a line, and the text outside comments. -/
def scanLine : Place → JsString → Bool × JsString
  | .code, [] => (false, [])
  | .slash, [] => (false, [0x2F])
  | .line, [] => (false, [])
  | .block, [] => (true, [])
  | .star, [] => (true, [])
  | .code, c :: rest =>
    if c = 0x2F then scanLine .slash rest else ((scanLine .code rest).1, c :: (scanLine .code rest).2)
  | .slash, c :: rest =>
    if c = 0x2F then scanLine .line rest
    else if c = 0x2A then scanLine .block rest
    else ((scanLine .code rest).1, 0x2F :: c :: (scanLine .code rest).2)
  | .line, _ :: rest => scanLine .line rest
  | .block, c :: rest => scanLine (if c = 0x2A then .star else .block) rest
  | .star, c :: rest =>
    if c = 0x2F then scanLine .code rest else scanLine (if c = 0x2A then .star else .block) rest

/-- A line that begins inside a block comment or outside. -/
def scanFrom (inside : Bool) (l : JsString) : Bool × JsString :=
  scanLine (if inside then .block else .code) l

/-- Block and line comments, and lines with `import`. -/
def cFamily : LineLanguage UInt16 where
  State := Bool
  start := false
  next inside l := (scanFrom inside l).1
  outside inside l := (trimEnd (scanFrom inside l).2).dropWhile isSpace
  importLine inside l :=
    !inside && !(scanFrom inside l).1 && (js "import ").isPrefixOf (l.dropWhile isSpace)
  next_nil inside := by
    cases inside with
    | false => rfl
    | true => rfl
  outside_nil inside := by
    cases inside with
    | false => rfl
    | true => rfl
  next_import inside l h := by
    rw [Bool.and_eq_true, Bool.and_eq_true, Bool.not_eq_true', Bool.not_eq_true'] at h
    exact h.1.2.trans h.1.1.symm

/-- A block comment that begins with a divider. -/
def banner : JsString := js "/* ====\n f\n */"

/-- Four calls of a function whose name begins like an import. -/
def setup : JsString :=
  js "importantSetup();\nimportantSetup();\nimportantSetup();\nimportantSetup();\nrun();"

/-- **A comment loses its beginning**, and calls are taken for imports. -/
theorem not_unaltered :
    (compressCode banner false = js " f\n */" ∧ ¬Unaltered cFamily false banner) ∧
      compressCode setup true = js "// [4 import lines omitted]\nrun();" ∧
        ¬Unaltered cFamily true setup := by
  refine ⟨⟨by decide, fun h => ?_⟩, by decide, fun h => ?_⟩
  · have hdrop := h.dropped 0 (js "/* ====") (by decide) (by decide) (by decide)
    rcases hdrop with ⟨-, hnext⟩ | ⟨hultra, -⟩
    · have hopen : true = false := hnext
      cases hopen
    · cases hultra
  · have hdrop := h.dropped 0 (js "importantSetup();") (by decide) (by decide) (by decide)
    rcases hdrop with ⟨hout, -⟩ | ⟨-, himport⟩
    · have hcode : js "importantSetup();" = [] := hout
      exact absurd hcode (by decide)
    · have hword : false = true := himport
      cases hword

end BrainEngine.Client.Compress
