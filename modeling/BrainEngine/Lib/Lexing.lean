import Mathlib.Data.List.Basic
import Mathlib.Tactic.Common

/-! # Languages, line by line

What a language makes of comments and imports, one line after the other: the state between two lines
says whether a comment is open. A line is idle in a state if it changes neither the state nor what
stands outside comments and imports. `read_selection` says that a selection of lines reads as all of
them do if each line left out is idle where it stands. -/

namespace BrainEngine.Lib.Lexing

/-- Empty lines say nothing, and an import statement leaves no comment open. -/
structure LineLanguage (χ : Type) where
  State : Type
  /-- No comment is open. -/
  start : State
  next : State → List χ → State
  /-- The text on a line outside comments. -/
  outside : State → List χ → List χ
  /-- The line is an import or include statement. -/
  importLine : State → List χ → Bool
  next_nil : ∀ s, next s [] = s
  outside_nil : ∀ s, outside s [] = []
  next_import : ∀ s l, importLine s l = true → next s l = s

namespace LineLanguage

variable {χ : Type} (L : LineLanguage χ)

/-- The state after some lines. -/
def after (s : L.State) (lines : List (List χ)) : L.State := lines.foldl L.next s

/-- The text outside comments and imports. -/
def code (s : L.State) : List (List χ) → List (List χ)
  | [] => []
  | l :: lines =>
    if L.importLine s l = true ∨ L.outside s l = [] then code (L.next s l) lines
    else L.outside s l :: code (L.next s l) lines

/-- A line of comments only, that opens none and closes none. -/
def Divider (s : L.State) (l : List χ) : Prop := L.outside s l = [] ∧ L.next s l = s

/-- A line without which the text reads the same. -/
def Idle (s : L.State) (l : List χ) : Prop :=
  L.next s l = s ∧ (L.importLine s l = true ∨ L.outside s l = [])

variable {L} {s : L.State} {l : List χ}

theorem idle_nil : L.Idle s [] := ⟨L.next_nil s, .inr (L.outside_nil s)⟩

theorem Divider.idle (h : L.Divider s l) : L.Idle s l := ⟨h.2, .inr h.1⟩

theorem idle_of_importLine (h : L.importLine s l = true) : L.Idle s l := ⟨L.next_import s l h, .inl h⟩

/-- An idle line at the beginning. -/
theorem Idle.code_cons (h : L.Idle s l) (lines : List (List χ)) :
    L.code s (l :: lines) = L.code s lines := by
  rw [code, if_pos h.2, h.1]

/-- **A selection of lines reads as all lines do** if each line left out is idle. -/
theorem read_selection {lines : List (List χ)} : ∀ {n : ℕ} {s : L.State} {kept : List (List χ × ℕ)},
    kept.Sublist (lines.zipIdx n) →
    (∀ i l, lines[i]? = some l → (l, n + i) ∉ kept → L.Idle (L.after s (lines.take i)) l) →
    L.code s (kept.map Prod.fst) = L.code s lines ∧ L.after s (kept.map Prod.fst) = L.after s lines := by
  induction lines with
  | nil =>
    intro n s kept h _
    have hnil : kept = [] := List.sublist_nil.mp h
    subst hnil
    exact ⟨rfl, rfl⟩
  | cons l lines ih =>
    intro n s kept h hidle
    rw [List.zipIdx_cons] at h
    have hlater : ∀ i l' {kept' : List (List χ × ℕ)}, lines[i]? = some l' →
        kept = kept' ∨ kept = (l, n) :: kept' → (l', n + 1 + i) ∉ kept' →
          L.Idle (L.after s ((l :: lines).take (i + 1))) l' := by
      intro i l' kept' hl hk hnot
      have hi : n + (i + 1) = n + 1 + i := by omega
      refine hidle (i + 1) l' hl fun hmem => ?_
      rw [hi] at hmem
      rcases hk with rfl | rfl
      · exact hnot hmem
      · rcases List.mem_cons.mp hmem with heq | hmem
        · have hn := congrArg Prod.snd heq
          simp only at hn
          omega
        · exact hnot hmem
    rcases List.sublist_cons_iff.mp h with h' | ⟨kept', rfl, h'⟩
    · -- the line is left out
      have hnot : (l, n) ∉ kept := fun hmem => by
        have hle := List.le_snd_of_mem_zipIdx (h'.subset hmem)
        simp only at hle
        omega
      have hl : L.Idle s l := hidle 0 l rfl hnot
      have hrest := ih (s := s) h' fun i l' hl' hn => by
        have := hlater i l' hl' (.inl rfl) hn
        rwa [List.take_succ_cons, after, List.foldl_cons, hl.1] at this
      refine ⟨?_, ?_⟩
      · rw [hrest.1, hl.code_cons]
      · rw [hrest.2, after, after, List.foldl_cons, hl.1]
    · -- the line is kept
      have hrest := ih (s := L.next s l) h' fun i l' hl' hn => hlater i l' hl' (.inr rfl) hn
      refine ⟨?_, ?_⟩
      · rw [List.map_cons, code, code, hrest.1]
      · exact hrest.2

end LineLanguage

end BrainEngine.Lib.Lexing
