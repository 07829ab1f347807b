import BrainEngine.Js.Text
import BrainEngine.Lib.Fences

/-! # The context of a prompt

`formatContext` writes the chunks that a query has found as fenced blocks. Nothing in a chunk is escaped:
`fencedBlocks_formatContext_iff` says when the blocks that a reader finds are the chunks. -/

namespace BrainEngine.Client.Context

open BrainEngine.Js.Values BrainEngine.Js.Text BrainEngine.Lib.Fences BrainEngine.Lib.Paths

/-! ### Formatting -/

/-- A chunk of a query's result. -/
structure Chunk where
  filePath : JsString
  startLine : ℕ
  endLine : ℕ
  content : JsString

structure Intent where
  kind : JsString
  verb : Option JsString
  targets : List JsString

structure Target where
  file : JsString
  line : ℕ
  why : JsString

structure Locator where
  injectDirective : Bool
  intent : Intent
  targets : List Target

/-- What the daemon sends as the result of a query. -/
structure QueryResult where
  cacheHit : Bool
  response : Option JsString
  locator : Option Locator
  chunks : List Chunk

/-- A number in a template. -/
def num (n : ℕ) : JsString := js (toString n)

/-- `s || other`. -/
def orText (s : Option JsString) (other : JsString) : JsString :=
  match s with
  | some t => if t = [] then other else t
  | none => other

def targetLine (t : Target) : JsString :=
  let line := if 0 < t.line then js ":" ++ num t.line else []
  let why := if t.why = [] then [] else js " -> " ++ t.why
  js "  - " ++ t.file ++ line ++ why

def formatLocator (locator : Option Locator) : JsString :=
  match locator with
  | none => []
  | some loc =>
    if loc.intent.kind = js "action" then
      let verb := orText loc.intent.verb (js "action")
      let targetText :=
        if loc.intent.targets.isEmpty then js "not specified"
        else (js ", ").intercalate (loc.intent.targets.take 6)
      let lines := [js "## Brain Engine — locator (for this task)",
        js "Intent: " ++ verb ++ js ". Targets: " ++ targetText ++ js "."]
      let lines := lines ++
        if loc.targets.isEmpty then
          [js "Relevant files: no confident locator target from the current index."]
        else js "Relevant files:" :: loc.targets.map targetLine
      let lines := lines ++
        if loc.injectDirective && !loc.targets.isEmpty then
          [js "INSTRUCTION: start from these files. Avoid broad project-wide grep/glob discovery unless " ++
            js "these targets are insufficient."]
        else []
      joinLines lines ++ js "\n"
    else []

def heading (c : Chunk) : JsString :=
  js "### " ++ c.filePath ++ js ":" ++ num c.startLine ++ js "-" ++ num c.endLine

def chunkText (c : Chunk) : JsString :=
  heading c ++ js "\n```\n" ++ trimEnd c.content ++ js "\n```"

/-- The answer from the cache: `cache_hit && response`. -/
def QueryResult.cached (r : QueryResult) : Option JsString :=
  if r.cacheHit then r.response.filter fun s => !s.isEmpty else none

/-- The line above the chunks. -/
def title : JsString := js "## Brain Engine — retrieved context (additive)"

def formatContext (result : Option QueryResult) : JsString :=
  match result with
  | none => []
  | some r =>
    match r.cached with
    | some response => js "## Brain Engine — cached answer (additive context)\n\n" ++ response ++ js "\n"
    | none =>
      let locator := formatLocator r.locator
      if r.chunks.isEmpty then locator
      else
        let body := (js "\n\n").intercalate (r.chunks.map chunkText)
        let retrieved := title ++ js "\n\n" ++ body ++ js "\n"
        if locator.isEmpty then retrieved ++ js "\n" else locator ++ js "\n\n" ++ retrieved

/-! ### Reading -/

def fence : JsString := js "```"

def opensFence (l : JsString) : Bool := l == fence

/-- A line of three backticks or more. -/
def closesFence (l : JsString) : Bool := 3 ≤ l.length && l.all (· == 0x60)

/-- The contents of the fenced blocks of a text. -/
def fencedBlocks (text : JsString) : List JsString :=
  (blocks opensFence closesFence none (splitLines text)).map joinLines

/-- The chunks' lines close no fence, and the other lines that come from outside open none. -/
structure Contained (r : QueryResult) : Prop where
  locator : ∀ l ∈ splitLines (formatLocator r.locator), l ≠ fence
  headings : ∀ c ∈ r.chunks, ∀ l ∈ splitLines (heading c), l ≠ fence
  contents : ∀ c ∈ r.chunks, ∀ l ∈ splitLines (trimEnd c.content), closesFence l = false

/-! ### The lines of the context -/

/-- A chunk behind the empty line before it. -/
def chunkSection (c : Chunk) : Section JsString where
  outer := [] :: splitLines (heading c)
  content := splitLines (trimEnd c.content)

variable {r : QueryResult}

theorem splitLines_nil : splitLines [] = [[]] := rfl

theorem splitLines_fence : splitLines fence = [fence] := by decide

theorem splitLines_chunkText (c : Chunk) (t : JsString) : splitLines (chunkText c ++ 0x0A :: t) =
    splitLines (heading c) ++ fence :: (splitLines (trimEnd c.content) ++ fence :: splitLines t) := by
  have hopen : js "\n```\n" = 0x0A :: (fence ++ [0x0A]) := by decide
  have hclose : js "\n```" = 0x0A :: fence := by decide
  have hform : chunkText c ++ 0x0A :: t =
      heading c ++ 0x0A :: (fence ++ 0x0A :: (trimEnd c.content ++ 0x0A :: (fence ++ 0x0A :: t))) := by
    simp [chunkText, hopen, hclose]
  rw [hform, splitLines_append, splitLines_append, splitLines_append, splitLines_append, splitLines_fence]
  rfl

/-- The lines of the chunks, behind an empty one. -/
theorem splitLines_body (tail : JsString) : ∀ {chunks : List Chunk}, chunks ≠ [] →
    [] :: splitLines ((js "\n\n").intercalate (chunks.map chunkText) ++ 0x0A :: tail) =
      render fence (chunks.map chunkSection) (splitLines tail)
  | [], h => absurd rfl h
  | [c], _ => by
    rw [List.map_singleton, List.intercalate_singleton, splitLines_chunkText, List.map_singleton,
      render_cons]
    rfl
  | c :: d :: chunks, _ => by
    have hsep : js "\n\n" = [0x0A, 0x0A] := by decide
    have ih := splitLines_body tail (List.cons_ne_nil d chunks)
    have hcons : (js "\n\n").intercalate ((c :: d :: chunks).map chunkText) ++ 0x0A :: tail =
        chunkText c ++ 0x0A :: ([] ++ 0x0A ::
          ((js "\n\n").intercalate ((d :: chunks).map chunkText) ++ 0x0A :: tail)) := by
      rw [List.map_cons, List.map_cons, List.intercalate_cons_cons, hsep]
      simp
    have hmap : (c :: d :: chunks).map chunkSection =
        chunkSection c :: (d :: chunks).map chunkSection := rfl
    rw [hcons, splitLines_chunkText, splitLines_append, splitLines_nil, hmap, render_cons,
      List.singleton_append, ih]
    rfl

/-- **The lines of the context**: those of the locator and the title, the chunks, and empty ones. -/
theorem splitLines_formatContext (h : r.cached = none) : ∃ first last,
    splitLines (formatContext (some r)) = first ++ render fence (r.chunks.map chunkSection) last ∧
      (∀ l ∈ first, l ∈ splitLines (formatLocator r.locator) ∨ l ∈ [[], title]) ∧
      (∀ l ∈ splitLines (formatLocator r.locator), l ∈ first ∨ l = []) ∧ ∀ l ∈ last, l = [] := by
  have hsep : js "\n\n" = [0x0A, 0x0A] := by decide
  have hend : js "\n" = [0x0A] := by decide
  have htitle : splitLines title = [title] := splitLines_line (by decide)
  have hform : formatContext (some r) =
      if r.chunks.isEmpty then formatLocator r.locator
      else if (formatLocator r.locator).isEmpty then
        title ++ js "\n\n" ++ (js "\n\n").intercalate (r.chunks.map chunkText) ++ js "\n" ++ js "\n"
      else formatLocator r.locator ++ js "\n\n" ++
        (title ++ js "\n\n" ++ (js "\n\n").intercalate (r.chunks.map chunkText) ++ js "\n") := by
    rw [formatContext, h]
  rw [hform, hsep, hend]
  split_ifs with hc hl
  · -- no chunks
    have hnil : r.chunks = [] := List.isEmpty_iff.mp hc
    refine ⟨splitLines (formatLocator r.locator), [], ?_, fun l hl => .inl hl, fun l hl => .inl hl, nofun⟩
    rw [hnil]
    exact (List.append_nil _).symm
  · -- no locator
    have hne : r.chunks ≠ [] := fun hnil => hc (List.isEmpty_iff.mpr hnil)
    refine ⟨[title], [[], []], ?_, fun l hl => .inr (by simp_all), fun l hm => .inr ?_, by simp⟩
    · have hlines := splitLines_body [0x0A] hne
      have htext : ∀ b : JsString, title ++ [0x0A, 0x0A] ++ b ++ [0x0A] ++ [0x0A] =
          title ++ 0x0A :: ([] ++ 0x0A :: (b ++ 0x0A :: [0x0A])) := fun b => by simp
      rw [hsep] at hlines
      rw [htext, splitLines_append, splitLines_append, htitle, splitLines_nil, List.singleton_append,
        List.singleton_append, List.singleton_append, hlines]
      rfl
    · rw [List.isEmpty_iff.mp hl, splitLines_nil] at hm
      exact List.mem_singleton.mp hm
  · have hne : r.chunks ≠ [] := fun hnil => hc (List.isEmpty_iff.mpr hnil)
    refine ⟨splitLines (formatLocator r.locator) ++ [[], title], [[]], ?_, fun l hl => ?_, fun l hm => ?_,
      by simp⟩
    · have hlines := splitLines_body [] hne
      have htext : ∀ a b : JsString, a ++ [0x0A, 0x0A] ++ (title ++ [0x0A, 0x0A] ++ b ++ [0x0A]) =
          a ++ 0x0A :: ([] ++ 0x0A :: (title ++ 0x0A :: ([] ++ 0x0A :: (b ++ 0x0A :: [])))) := fun a b => by
        simp
      rw [hsep] at hlines
      rw [htext, splitLines_append, splitLines_append, splitLines_append, splitLines_append, htitle,
        splitLines_nil, List.singleton_append, List.singleton_append, List.singleton_append, hlines,
        List.append_assoc]
      rfl
    · rcases List.mem_append.mp hl with hl | hl
      · exact .inl hl
      · exact .inr hl
    · exact .inl (List.mem_append_left _ hm)

/-! ### Reading back -/

theorem opensFence_eq_false {l : JsString} : opensFence l = false ↔ l ≠ fence := by
  rw [opensFence, beq_eq_false_iff_ne]

theorem closesFence_of_opensFence (l : JsString) (h : opensFence l = true) : closesFence l = true := by
  have hl : l = fence := by simpa [opensFence] using h
  rw [hl]
  decide

/-- The lines of a text, but for the one of the empty text. -/
theorem mem_of_mem_splitLines {b : List JsString} (hb : ∀ l ∈ b, 0x0A ∉ l) {l : JsString}
    (hl : l ∈ splitLines (joinLines b)) : l ∈ b ∨ l = [] := by
  by_cases hnil : b = []
  · subst hnil
    exact .inr (List.mem_singleton.mp hl)
  · have hsplit : splitLines (joinLines b) = b := List.splitOn_intercalate 0x0A hb hnil
    rw [hsplit] at hl
    exact .inl hl

theorem opensFence_fence : opensFence fence = true := by decide

theorem closesFence_fence : closesFence fence = true := by decide

theorem opensFence_nil : opensFence [] = false := by decide

theorem opensFence_title : ∀ l ∈ [[], title], opensFence l = false := by decide

/-- Chunks that stay inside are read back. -/
theorem fencedBlocks_of_contained (h : r.cached = none) (hr : Contained r) :
    fencedBlocks (formatContext (some r)) = r.chunks.map fun c => trimEnd c.content := by
  obtain ⟨first, last, hlines, hfirst, -, hlast⟩ := splitLines_formatContext h
  have hf : ∀ l ∈ first, opensFence l = false := fun l hl => by
    rcases hfirst l hl with hl | hl
    · exact opensFence_eq_false.mpr (hr.locator l hl)
    · exact opensFence_title l hl
  have hs : ∀ s ∈ r.chunks.map chunkSection,
      (∀ l ∈ s.outer, opensFence l = false) ∧ ∀ l ∈ s.content, closesFence l = false := fun s hs => by
    obtain ⟨c, hc, rfl⟩ := List.mem_map.mp hs
    refine ⟨fun l hl => ?_, hr.contents c hc⟩
    rcases List.mem_cons.mp hl with rfl | hl
    · exact opensFence_nil
    · exact opensFence_eq_false.mpr (hr.headings c hc l hl)
  have hl : ∀ l ∈ last, opensFence l = false := fun l hl => by
    rw [hlast l hl]
    exact opensFence_nil
  unfold fencedBlocks
  rw [hlines, blocks_outer hf, blocks_render opensFence_fence closesFence_fence hs hl, List.map_map,
    List.map_map]
  refine List.map_congr_left fun c _ => ?_
  exact joinLines_splitLines (trimEnd c.content)

/-- No line of a block closes a fence. -/
theorem closesFence_of_mem_fencedBlocks {text content : JsString} (h : content ∈ fencedBlocks text) :
    ∀ l ∈ splitLines content, closesFence l = false := by
  obtain ⟨b, hb, rfl⟩ := List.mem_map.mp h
  have hfree : ∀ l ∈ splitLines text, 0x0A ∉ l := free_of_mem_splitOn text
  have hb' : ∀ l ∈ b, 0x0A ∉ l ∧ closesFence l = false :=
    forall_mem_blocks (fun l hl hclose => ⟨hfree l hl, hclose⟩) none nofun b hb
  intro l hl
  rcases mem_of_mem_splitLines (fun l hl => (hb' l hl).1) hl with hl | rfl
  · exact (hb' l hl).2
  · rfl

/-- Chunks that are read back have stayed inside. -/
theorem contained_of_fencedBlocks (h : r.cached = none)
    (heq : fencedBlocks (formatContext (some r)) = r.chunks.map fun c => trimEnd c.content) :
    Contained r := by
  obtain ⟨first, last, hlines, -, hlocator, -⟩ := splitLines_formatContext h
  have hlen : (blocks opensFence closesFence none
      (first ++ render fence (r.chunks.map chunkSection) last)).length ≤
        (r.chunks.map chunkSection).length := by
    have hl := congrArg List.length heq
    rw [fencedBlocks, hlines, List.length_map, List.length_map] at hl
    rw [hl, List.length_map]
  obtain ⟨hf, hs, -⟩ := opens_eq_false_of_length opensFence_fence closesFence_of_opensFence hlen
  refine ⟨fun l hl => ?_, fun c hc l hl => ?_, fun c hc => ?_⟩
  · rcases hlocator l hl with hl | rfl
    · exact opensFence_eq_false.mp (hf l hl)
    · exact opensFence_eq_false.mp opensFence_nil
  · have hsec := hs (chunkSection c) (List.mem_map_of_mem hc) l (List.mem_cons_of_mem [] hl)
    exact opensFence_eq_false.mp hsec
  · have hmem : trimEnd c.content ∈ r.chunks.map fun c => trimEnd c.content := List.mem_map_of_mem hc
    rw [← heq] at hmem
    exact closesFence_of_mem_fencedBlocks hmem

/-- **When chunks stay inside their fences**: no line of theirs consists of three backticks or more, and
neither the locator nor a heading has a line of three. -/
theorem fencedBlocks_formatContext_iff (r : QueryResult) (h : r.cached = none) :
    fencedBlocks (formatContext (some r)) = r.chunks.map (fun c => trimEnd c.content) ↔ Contained r :=
  ⟨contained_of_fencedBlocks h, fencedBlocks_of_contained h⟩

/-- A result with one chunk of a Markdown file. -/
def markdown (content : String) : QueryResult where
  cacheHit := false
  response := none
  locator := none
  chunks := [⟨js "a.md", 1, 3, js content⟩]

theorem fencedBlocks_markdown : fencedBlocks (formatContext (some (markdown "a\n``\nb  "))) =
    (markdown "a\n``\nb  ").chunks.map (fun c => trimEnd c.content) ↔ Contained (markdown "a\n``\nb  ") :=
  fencedBlocks_formatContext_iff _ rfl

/-- **A fence in a chunk ends its block**: the rest stands outside, and another block begins behind. -/
theorem not_fencedBlocks :
    fencedBlocks (formatContext (some (markdown "a\n```\nb"))) = [js "a", js "\n"] ∧
      (markdown "a\n```\nb").chunks.map (fun c => trimEnd c.content) = [js "a\n```\nb"] ∧
        fencedBlocks (formatContext (some (markdown "a\n```\nb"))) ≠
          (markdown "a\n```\nb").chunks.map fun c => trimEnd c.content := by
  have hread : fencedBlocks (formatContext (some (markdown "a\n```\nb"))) = [js "a", js "\n"] := by decide
  have hchunks : (markdown "a\n```\nb").chunks.map (fun c => trimEnd c.content) = [js "a\n```\nb"] := by
    decide
  refine ⟨hread, hchunks, ?_⟩
  rw [hread, hchunks]
  decide

end BrainEngine.Client.Context
