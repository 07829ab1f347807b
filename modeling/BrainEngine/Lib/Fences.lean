import Mathlib.Data.List.Count
import Mathlib.Tactic.Common

/-! # Fenced blocks

A text in which a line may open a block that ends with the first later line that closes it, or with the
text. `blocks_render` reads back the contents of the sections of a document, if no line around them opens
a block and no line of theirs closes one. By `opens_eq_false_of_length` and `forall_mem_blocks` they are
not read back otherwise. -/

namespace BrainEngine.Lib.Fences

variable {α : Type} (opens closes : α → Bool)

/-- The blocks of a text, by their lines; `inside` are those of the open block. -/
def blocks : Option (List α) → List α → List (List α)
  | none, [] => []
  | some inside, [] => [inside]
  | none, l :: lines => if opens l then blocks (some []) lines else blocks none lines
  | some inside, l :: lines =>
    if closes l then inside :: blocks none lines else blocks (some (inside ++ [l])) lines

/-- Lines in front of a block, and the lines in it. -/
structure Section (α : Type) where
  outer : List α
  content : List α

/-- The sections of a document with fences around their contents, and its last lines. -/
def render (fence : α) (sections : List (Section α)) (last : List α) : List α :=
  (sections.flatMap fun s => s.outer ++ fence :: (s.content ++ [fence])) ++ last

theorem render_cons (fence : α) (s : Section α) (sections : List (Section α)) (last : List α) :
    render fence (s :: sections) last =
      s.outer ++ fence :: (s.content ++ fence :: render fence sections last) := by
  unfold render
  rw [List.flatMap_cons, List.append_assoc, List.append_assoc, List.cons_append, List.append_assoc,
    List.singleton_append]

variable {opens closes} {fence : α} {sections : List (Section α)} {last lines : List α}

theorem blocks_outer {outer : List α} (h : ∀ l ∈ outer, opens l = false) (closes : α → Bool)
    (lines : List α) :
    blocks opens closes none (outer ++ lines) = blocks opens closes none lines := by
  induction outer with
  | nil => rfl
  | cons l outer ih =>
    have hl := h l List.mem_cons_self
    rw [List.cons_append, blocks, if_neg (by simp [hl])]
    exact ih fun l' hl' => h l' (List.mem_cons_of_mem l hl')

theorem blocks_content {content : List α} (h : ∀ l ∈ content, closes l = false) (lines : List α)
    (inside : List α) : blocks opens closes (some inside) (content ++ lines) =
      blocks opens closes (some (inside ++ content)) lines := by
  induction content generalizing inside with
  | nil => rw [List.nil_append, List.append_nil]
  | cons l content ih =>
    have hl := h l List.mem_cons_self
    rw [List.cons_append, blocks, if_neg (by simp [hl]),
      ih (fun l' hl' => h l' (List.mem_cons_of_mem l hl')), List.append_assoc, List.singleton_append]

/-- **The contents are read back.** -/
theorem blocks_render (hopen : opens fence = true) (hclose : closes fence = true)
    (hsections : ∀ s ∈ sections, (∀ l ∈ s.outer, opens l = false) ∧ ∀ l ∈ s.content, closes l = false)
    (hlast : ∀ l ∈ last, opens l = false) :
    blocks opens closes none (render fence sections last) = sections.map Section.content := by
  induction sections with
  | nil =>
    have hread := blocks_outer hlast closes []
    rw [List.append_nil] at hread
    exact hread
  | cons s sections ih =>
    obtain ⟨houter, hcontent⟩ := hsections s List.mem_cons_self
    rw [render_cons, blocks_outer houter closes, blocks, if_pos hopen, blocks_content hcontent,
      List.nil_append, blocks, if_pos hclose, ih fun s' hs' => hsections s' (List.mem_cons_of_mem s hs'), List.map_cons]

/-- **The lines of the blocks** are lines of the text that close none. -/
theorem forall_mem_blocks {P : α → Prop} (hlines : ∀ l ∈ lines, closes l = false → P l) :
    ∀ inside : Option (List α), (∀ b ∈ inside, ∀ l ∈ b, P l) →
      ∀ b ∈ blocks opens closes inside lines, ∀ l ∈ b, P l := by
  induction lines with
  | nil =>
    intro inside hin b hb
    cases inside with
    | none => cases hb
    | some c =>
      have hbc : b = c := List.mem_singleton.mp hb
      exact hin b (by rw [hbc]; rfl)
  | cons l lines ih =>
    have ih := ih fun l' hl' => hlines l' (List.mem_cons_of_mem l hl')
    intro inside hin b hb
    cases inside with
    | none =>
      rw [blocks] at hb
      split_ifs at hb
      · exact ih (some []) (fun c hc => by cases hc; nofun) b hb
      · exact ih none nofun b hb
    | some c =>
      rw [blocks] at hb
      split_ifs at hb with hl
      · rcases List.mem_cons.mp hb with rfl | hb
        · exact hin b rfl
        · exact ih none nofun b hb
      · refine ih (some (c ++ [l])) (fun d hd => ?_) b hb
        cases hd
        intro l' hl'
        rcases List.mem_append.mp hl' with hl' | hl'
        · exact hin c rfl l' hl'
        · rw [List.mem_singleton.mp hl']
          exact hlines l List.mem_cons_self (Bool.eq_false_iff.mpr hl)

/-- Every line that opens blocks begins or ends one. -/
theorem countP_opens_le (hsub : ∀ l, opens l = true → closes l = true) (lines : List α) :
    lines.countP opens ≤ 2 * (blocks opens closes none lines).length ∧
      ∀ inside, lines.countP opens + 1 ≤ 2 * (blocks opens closes (some inside) lines).length := by
  induction lines with
  | nil =>
    refine ⟨?_, fun inside => ?_⟩
    · rw [List.countP_nil]
      omega
    · show 0 + 1 ≤ 2 * [inside].length
      rw [List.length_singleton]
      omega
  | cons l lines ih =>
    obtain ⟨hnone, hsome⟩ := ih
    refine ⟨?_, fun inside => ?_⟩
    · rw [blocks]
      split_ifs with hl
      · rw [List.countP_cons_of_pos hl]
        exact hsome []
      · rw [List.countP_cons_of_neg hl]
        exact hnone
    · rw [blocks]
      split_ifs with hl
      · have hle : (l :: lines).countP opens ≤ lines.countP opens + 1 := by
          rw [List.countP_cons]
          split_ifs
          · exact Nat.le_refl _
          · exact Nat.le_succ _
        rw [List.length_cons]
        omega
      · rw [List.countP_cons_of_neg fun ho => hl (hsub l ho)]
        exact hsome _

theorem countP_render (hopen : opens fence = true) (sections : List (Section α)) (last : List α) :
    2 * sections.length + (sections.flatMap Section.outer).countP opens + last.countP opens ≤
      (render fence sections last).countP opens := by
  induction sections with
  | nil => simp [render]
  | cons s sections ih =>
    rw [render_cons, List.countP_append, List.countP_cons_of_pos hopen, List.countP_append,
      List.countP_cons_of_pos hopen, List.length_cons, List.flatMap_cons, List.countP_append]
    omega

/-- **If there are no more blocks than sections**, no line around them opens one. -/
theorem opens_eq_false_of_length {first : List α} (hopen : opens fence = true)
    (hsub : ∀ l, opens l = true → closes l = true)
    (hlen : (blocks opens closes none (first ++ render fence sections last)).length ≤ sections.length) :
    (∀ l ∈ first, opens l = false) ∧ (∀ s ∈ sections, ∀ l ∈ s.outer, opens l = false) ∧
      ∀ l ∈ last, opens l = false := by
  have hle := (countP_opens_le hsub (first ++ render fence sections last)).1
  rw [List.countP_append] at hle
  have hcount := countP_render hopen sections last
  have hzero : ∀ {ls : List α}, ls.countP opens = 0 → ∀ l ∈ ls, opens l = false := fun h l hl => by
    have hnot := List.countP_eq_zero.mp h l hl
    exact Bool.eq_false_iff.mpr hnot
  refine ⟨hzero (by omega), fun s hs l hl => ?_, hzero (by omega)⟩
  exact hzero (by omega) l (List.mem_flatMap.mpr ⟨s, hs, hl⟩)

end BrainEngine.Lib.Fences
