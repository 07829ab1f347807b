import BrainEngine.Client.Context
import BrainEngine.Client.Compress
import BrainEngine.Lib.Sections

/-! # The context in the eco styles

`formatContextEco` writes no fences: a chunk is its place in brackets, with the compressed lines indented
below. `ecoChunks_formatContextEco_iff` says when the text is read back as the chunks. It asks for nothing
of what stands in them. -/

namespace BrainEngine.Client.Eco

open BrainEngine.Js.Values BrainEngine.Js.Text BrainEngine.Lib.Paths BrainEngine.Client.Context
open BrainEngine.Client.Compress (compressCode)
open BrainEngine.Lib.Sections (Section sections fst_mem_of_mem_sections sections_render)

/-! ### Formatting -/

/-- `trim()`. -/
def trim (s : JsString) : JsString := (trimEnd s).dropWhile isSpace

def targetLineEco (t : Target) : JsString :=
  let line := if 0 < t.line then js ":" ++ num t.line else []
  js "- " ++ t.file ++ line ++ js " (" ++ orText (some t.why) (js "semantic match") ++ js ")"

/-- Compact locator for eco modes. -/
def formatLocatorEco (locator : Option Locator) : JsString :=
  match locator with
  | none => []
  | some loc =>
    if loc.intent.kind = js "action" then
      if loc.targets.isEmpty then js "[brain:locator] action; no confident file target\n"
      else
        let lines := js "[brain:locator] action targets:" :: loc.targets.map targetLineEco
        let lines := lines ++
          if loc.injectDirective then [js "instruction: start here; avoid broad discovery unless needed"]
          else []
        joinLines lines ++ js "\n"
    else []

def header (c : Chunk) : JsString :=
  js "[" ++ c.filePath ++ js ":" ++ num c.startLine ++ js "-" ++ num c.endLine ++ js "]"

def indent (l : JsString) : JsString := js "  " ++ l

def chunkTextEco (ultra : Bool) (c : Chunk) : JsString :=
  header c ++ js "\n" ++ joinLines ((splitLines (compressCode c.content ultra)).map indent)

/-- The line above the chunks. -/
def mark : JsString := js "[brain]"

def formatContextEco (result : Option QueryResult) (ultra : Bool) : JsString :=
  match result with
  | none => []
  | some r =>
    match r.cached with
    | some response => js "[brain:cache] " ++ trim response ++ js "\n"
    | none =>
      let locator := formatLocatorEco r.locator
      if r.chunks.isEmpty then locator
      else
        let body := joinLines (r.chunks.map (chunkTextEco ultra))
        let retrieved := mark ++ js "\n" ++ body ++ js "\n"
        if locator.isEmpty then retrieved else locator ++ js "\n" ++ retrieved

/-! ### Reading -/

def indented (l : JsString) : Bool := (js "  ").isPrefixOf l

/-- The lines below the last mark, each of which ends in a line break. -/
def below (text : JsString) : List JsString := (splitLines text).dropLast.rtakeWhile (· != mark)

/-- The chunks of a text: the places, and what stands indented below them. -/
def ecoChunks (text : JsString) : List (JsString × JsString) :=
  (sections indented (below text)).map fun s => (s.1, joinLines (s.2.map (List.drop 2)))

/-! ### The lines of the context -/

/-- Of a list, what stands behind the last element that fails. -/
theorem rtakeWhile_append_cons {α : Type} {p : α → Bool} {a : α} {b : List α}
    (hb : ∀ x ∈ b, p x = true) (ha : p a = false) (first : List α) :
    (first ++ a :: b).rtakeWhile p = b := by
  have hrev : (first ++ a :: b).reverse = b.reverse ++ a :: first.reverse := by simp
  have hb' : ∀ x ∈ b.reverse, p x = true := fun x hx => hb x (List.mem_reverse.mp hx)
  rw [List.rtakeWhile, hrev, List.takeWhile_append_of_pos hb', List.takeWhile_cons_of_neg (by simp [ha]),
    List.append_nil, List.reverse_reverse]

/-- A chunk's place with its indented lines. -/
def ecoSection (ultra : Bool) (c : Chunk) : Section JsString :=
  (header c, (splitLines (compressCode c.content ultra)).map indent)

variable {r : QueryResult} {ultra : Bool}

theorem indented_indent (l : JsString) : indented (indent l) = true :=
  List.isPrefixOf_iff_prefix.mpr (List.prefix_append _ l)

theorem indent_ne_mark (l : JsString) : indent l ≠ mark := fun h => by
  have hhead := congrArg List.head? h
  cases hhead

theorem indented_header (c : Chunk) : indented (header c) = false := by
  unfold indented header
  rfl

theorem colon_mem_header (c : Chunk) : 0x3A ∈ header c := by
  have hcolon : 0x3A ∈ js ":" := by decide
  unfold header
  simp only [List.mem_append]
  tauto

theorem header_ne_mark (c : Chunk) : header c ≠ mark := fun h => by
  have hcolon := colon_mem_header c
  rw [h] at hcolon
  exact absurd hcolon (by decide)

/-- The digits of a number break no line. -/
theorem newline_notMem_num (n : ℕ) : 0x0A ∉ num n := by
  intro h
  obtain ⟨c, hc, hcode⟩ := List.mem_map.mp h
  rw [Nat.toString_eq_repr, Nat.toList_repr] at hc
  have hdigit : c.isDigit = true := Nat.isDigit_of_mem_toDigits (by omega) (by omega) hc
  have hrange : 48 ≤ c.toNat ∧ c.toNat ≤ 57 := by simpa [Char.isDigit, UInt32.le_iff_toNat_le] using hdigit
  have hval := congrArg UInt16.toNat hcode
  have hmod : c.toNat.toUInt16.toNat = c.toNat := by
    rw [Nat.toUInt16, UInt16.toNat_ofNat']
    omega
  rw [hmod] at hval
  have hten : (0x0A : UInt16).toNat = 10 := rfl
  omega

theorem newline_notMem_header (c : Chunk) : 0x0A ∉ header c ↔ 0x0A ∉ c.filePath := by
  have hopen : 0x0A ∉ js "[" := by decide
  have hcolon : 0x0A ∉ js ":" := by decide
  have hdash : 0x0A ∉ js "-" := by decide
  have hclose : 0x0A ∉ js "]" := by decide
  have hstart := newline_notMem_num c.startLine
  have hend := newline_notMem_num c.endLine
  unfold header
  simp only [List.mem_append]
  tauto

theorem free_indent {l : JsString} (h : 0x0A ∉ l) : 0x0A ∉ indent l := by
  have hspaces : 0x0A ∉ js "  " := by decide
  unfold indent
  simp only [List.mem_append]
  tauto

theorem splitLines_chunkTextEco (c : Chunk) : splitLines (chunkTextEco ultra c) =
    splitLines (header c) ++ (ecoSection ultra c).2 := by
  have hbreak : js "\n" = [0x0A] := by decide
  have hform : chunkTextEco ultra c = header c ++ 0x0A :: joinLines (ecoSection ultra c).2 := by
    simp [chunkTextEco, ecoSection, hbreak]
  have hfree : ∀ l ∈ (ecoSection ultra c).2, 0x0A ∉ l := fun l hl => by
    obtain ⟨m, hm, rfl⟩ := List.mem_map.mp hl
    exact free_indent (free_of_mem_splitOn _ m hm)
  have hne : (ecoSection ultra c).2 ≠ [] := by
    simp [ecoSection, splitLines, List.splitOn_ne_nil]
  rw [hform, splitLines_append]
  congr 1
  exact List.splitOn_intercalate 0x0A hfree hne

/-- **The lines of the context**: those of the locator, the mark and the chunks. -/
theorem splitLines_formatContextEco (ultra : Bool) (h : r.cached = none) (hc : r.chunks ≠ []) : ∃ first,
    (splitLines (formatContextEco (some r) ultra)).dropLast = first ++ mark ::
      r.chunks.flatMap fun c => splitLines (header c) ++ (ecoSection ultra c).2 := by
  have hbreak : js "\n" = [0x0A] := by decide
  have hmark : splitLines mark = [mark] := splitLines_line (by decide)
  have hbody : splitLines (joinLines (r.chunks.map (chunkTextEco ultra))) =
      r.chunks.flatMap fun c => splitLines (header c) ++ (ecoSection ultra c).2 := by
    rw [splitLines_joinLines (by simpa using hc), List.flatMap_map]
    exact congrArg (r.chunks.flatMap ·) (funext splitLines_chunkTextEco)
  have hretrieved : splitLines
      (mark ++ 0x0A :: (joinLines (r.chunks.map (chunkTextEco ultra)) ++ 0x0A :: [])) =
      mark :: (r.chunks.flatMap fun c => splitLines (header c) ++ (ecoSection ultra c).2) ++ [[]] := by
    rw [splitLines_append, splitLines_append, hmark, hbody]
    rfl
  have hform : formatContextEco (some r) ultra =
      if (formatLocatorEco r.locator).isEmpty then
        mark ++ 0x0A :: (joinLines (r.chunks.map (chunkTextEco ultra)) ++ 0x0A :: [])
      else formatLocatorEco r.locator ++
        0x0A :: (mark ++ 0x0A :: (joinLines (r.chunks.map (chunkTextEco ultra)) ++ 0x0A :: [])) := by
    simp [formatContextEco, h, hc, hbreak]
  rw [hform]
  split_ifs with hl
  · refine ⟨[], ?_⟩
    rw [hretrieved, List.dropLast_concat]
    rfl
  · refine ⟨splitLines (formatLocatorEco r.locator), ?_⟩
    rw [splitLines_append, hretrieved, ← List.append_assoc, List.dropLast_concat]

/-! ### Reading back -/

/-- Where no place has a line break, the lines below the mark are the sections. -/
theorem below_formatContextEco (h : r.cached = none) (hc : r.chunks ≠ [])
    (hfree : ∀ c ∈ r.chunks, 0x0A ∉ c.filePath) :
    below (formatContextEco (some r) ultra) = Lib.Sections.render (r.chunks.map (ecoSection ultra)) := by
  obtain ⟨first, hlines⟩ := splitLines_formatContextEco ultra h hc
  have hsections : (r.chunks.flatMap fun c => splitLines (header c) ++ (ecoSection ultra c).2) =
      Lib.Sections.render (r.chunks.map (ecoSection ultra)) := by
    rw [Lib.Sections.render, List.flatMap_map]
    refine List.flatMap_congr fun c hc => ?_
    rw [splitLines_line ((newline_notMem_header c).mpr (hfree c hc))]
    rfl
  have hmark : ∀ l ∈ Lib.Sections.render (r.chunks.map (ecoSection ultra)), (l != mark) = true := by
    intro l hl
    obtain ⟨s, hs, hl⟩ := List.mem_flatMap.mp hl
    obtain ⟨c, -, rfl⟩ := List.mem_map.mp hs
    rw [bne_iff_ne]
    rcases List.mem_cons.mp hl with rfl | hl
    · exact header_ne_mark c
    · obtain ⟨m, -, rfl⟩ := List.mem_map.mp hl
      exact indent_ne_mark m
  unfold below
  rw [hlines, hsections]
  exact rtakeWhile_append_cons hmark (by simp) first

/-- **When the context is read back as its chunks**: no chunk's file has a line break in its name. What
stands in the chunks and in the locator does not matter. -/
theorem ecoChunks_formatContextEco_iff (r : QueryResult) (ultra : Bool) (h : r.cached = none)
    (hc : r.chunks ≠ []) : ecoChunks (formatContextEco (some r) ultra) =
      r.chunks.map (fun c => (header c, compressCode c.content ultra)) ↔
        ∀ c ∈ r.chunks, 0x0A ∉ c.filePath := by
  constructor
  · intro hread c hcm
    have hmem : (header c, compressCode c.content ultra) ∈ ecoChunks (formatContextEco (some r) ultra) := by
      rw [hread]
      exact List.mem_map.mpr ⟨c, hcm, rfl⟩
    obtain ⟨s, hs, heq⟩ := List.mem_map.mp hmem
    have hline : header c ∈ below (formatContextEco (some r) ultra) := by
      rw [← (Prod.mk.inj heq).1]
      exact fst_mem_of_mem_sections hs
    have hsplit := List.dropLast_subset _ ((List.rtakeWhile_suffix _ _).subset hline)
    exact (newline_notMem_header c).mp (free_of_mem_splitOn _ _ hsplit)
  · intro hfree
    have hwell : ∀ s ∈ r.chunks.map (ecoSection ultra),
        indented s.1 = false ∧ ∀ l ∈ s.2, indented l = true := fun s hs => by
      obtain ⟨c, -, rfl⟩ := List.mem_map.mp hs
      refine ⟨indented_header c, fun l hl => ?_⟩
      obtain ⟨m, -, rfl⟩ := List.mem_map.mp hl
      exact indented_indent m
    unfold ecoChunks
    rw [below_formatContextEco h hc hfree, sections_render hwell, List.map_map]
    refine List.map_congr_left fun c _ => ?_
    have hlines : (ecoSection ultra c).2.map (List.drop 2) = splitLines (compressCode c.content ultra) := by
      rw [ecoSection, List.map_map]
      exact List.map_id _
    show (header c, joinLines ((ecoSection ultra c).2.map (List.drop 2))) = _
    rw [hlines, joinLines_splitLines]

/-- A fence in a chunk and a mark in it are read back with it. -/
theorem ecoChunks_markdown :
    ecoChunks (formatContextEco (some (markdown "[brain]\n```\nb  ")) false) =
      (markdown "[brain]\n```\nb  ").chunks.map (fun c => (header c, compressCode c.content false)) ↔
        ∀ c ∈ (markdown "[brain]\n```\nb  ").chunks, 0x0A ∉ c.filePath :=
  ecoChunks_formatContextEco_iff _ false rfl (by decide)

end BrainEngine.Client.Eco
