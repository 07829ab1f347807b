import Mathlib.Data.List.Basic
import Mathlib.Tactic.Common

/-! # Indented sections

A section is a heading with indented lines below it. Where a fence can be closed by what stands in it, no
indented line ends its section: `sections_render` reads sections back, whatever they contain. -/

namespace BrainEngine.Lib.Sections

variable {α : Type} {inner : α → Bool}

/-- A heading and the lines below it. -/
abbrev Section (α : Type) := α × List α

/-- The sections of a list of lines: `inner` lines belong to the heading above them. -/
def sections (inner : α → Bool) : List α → List (Section α)
  | [] => []
  | l :: ls => if inner l then sections inner ls else (l, ls.takeWhile inner) :: sections inner ls

/-- Sections one below the other. -/
def render (ss : List (Section α)) : List α := ss.flatMap fun s => s.1 :: s.2

theorem render_cons (s : Section α) (ss : List (Section α)) : render (s :: ss) = s.1 :: (s.2 ++ render ss) :=
  rfl

/-- Indented lines above the first heading belong to no section. -/
theorem sections_append_inner {a : List α} (h : ∀ l ∈ a, inner l = true) (b : List α) :
    sections inner (a ++ b) = sections inner b := by
  induction a with
  | nil => rfl
  | cons l a ih =>
    have hl : inner l = true := h l List.mem_cons_self
    rw [List.cons_append, sections, if_pos hl]
    exact ih fun m hm => h m (List.mem_cons_of_mem l hm)

/-- **Sections are read back**, whatever stands in them. -/
theorem sections_render {ss : List (Section α)}
    (h : ∀ s ∈ ss, inner s.1 = false ∧ ∀ l ∈ s.2, inner l = true) : sections inner (render ss) = ss := by
  induction ss with
  | nil => rfl
  | cons s ss ih =>
    obtain ⟨hhead, hbelow⟩ := h s List.mem_cons_self
    have hss : ∀ s ∈ ss, inner s.1 = false ∧ ∀ l ∈ s.2, inner l = true := fun t ht =>
      h t (List.mem_cons_of_mem s ht)
    have hnext : (render ss).takeWhile inner = [] := by
      cases ss with
      | nil => rfl
      | cons t ss =>
        have ht : inner t.1 = false := (hss t List.mem_cons_self).1
        rw [render_cons]
        exact List.takeWhile_cons_of_neg (by simp [ht])
    have htake : (s.2 ++ render ss).takeWhile inner = s.2 := by
      rw [List.takeWhile_append_of_pos hbelow, hnext, List.append_nil]
    rw [render_cons, sections, if_neg (by simp [hhead]), htake, sections_append_inner hbelow, ih hss]

/-- A heading is one of the lines. -/
theorem fst_mem_of_mem_sections {ls : List α} {s : Section α} (h : s ∈ sections inner ls) : s.1 ∈ ls := by
  induction ls with
  | nil => cases h
  | cons l ls ih =>
    unfold sections at h
    split_ifs at h with hl
    · exact List.mem_cons_of_mem l (ih h)
    · rcases List.mem_cons.mp h with rfl | h
      · exact List.mem_cons_self
      · exact List.mem_cons_of_mem l (ih h)

end BrainEngine.Lib.Sections
