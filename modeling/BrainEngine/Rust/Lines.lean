import BrainEngine.Rust.Str
import Mathlib.Data.List.TakeWhile

/-! # Lines and white space

What `lines` and `trim` leave of a text: nothing of a blank one, and the lines of two texts one after
the other if the first is a whole number of lines. -/

namespace BrainEngine.Rust.Lines

open BrainEngine.Rust.Str

/-- Nothing but white space. -/
def Blank (text : Text) : Prop := ∀ c ∈ text, isWhitespace c = true

/-- `trim` leaves nothing just of blank texts. -/
theorem trim_eq_nil {t : Text} : trim t = [] ↔ Blank t := by
  unfold trim trimMatches trimEndMatches trimStartMatches Blank
  rw [List.reverse_eq_nil_iff, List.dropWhile_eq_nil_iff]
  constructor
  · intro h
    by_contra hn
    rw [← List.dropWhile_eq_nil_iff] at hn
    -- the first character that is left is no white space
    obtain ⟨c, rest, hc⟩ := List.exists_cons_of_ne_nil hn
    have hfirst := List.head?_dropWhile_not isWhitespace t
    rw [hc, List.head?_cons] at hfirst
    have hws := h c (by rw [hc]; simp)
    dsimp only at hfirst
    rw [hws] at hfirst
    cases hfirst
  · intro h c hc
    exact h c ((List.dropWhile_suffix isWhitespace).subset (List.mem_reverse.mp hc))

/-- What a line that is going on adds to the lines. -/
theorem linesFrom_cons_of_ne {acc cs : Text} {c : Char} (h : c ≠ '\n') :
    linesFrom acc (c :: cs) = linesFrom (c :: acc) cs := linesFrom.eq_3 acc c cs h

theorem linesFrom_ne_nil : ∀ (acc t : Text), acc ≠ [] ∨ t ≠ [] → linesFrom acc t ≠ []
  | acc, [], h => by
    have he : acc.isEmpty = false := by simpa using h
    simp [linesFrom, he]
  | acc, c :: cs, _ => by
    by_cases hc : c = '\n'
    · subst hc
      simp [linesFrom]
    · rw [linesFrom_cons_of_ne hc]
      exact linesFrom_ne_nil (c :: acc) cs (Or.inl (by simp))

theorem lines_eq_nil {t : Text} : lines t = [] ↔ t = [] := by
  constructor
  · intro h
    by_contra hne
    exact linesFrom_ne_nil [] t (Or.inr hne) h
  · rintro rfl
    rfl

/-- The lines of a text that goes on after a whole number of lines. -/
theorem linesFrom_append : ∀ (acc a b : Text),
    linesFrom acc (a ++ '\n' :: b) = linesFrom acc (a ++ ['\n']) ++ lines b
  | _, [], _ => rfl
  | acc, c :: cs, b => by
    by_cases hc : c = '\n'
    · subst hc
      rw [List.cons_append, List.cons_append, linesFrom, linesFrom, linesFrom_append [] cs b]
      rfl
    · rw [List.cons_append, List.cons_append, linesFrom_cons_of_ne hc, linesFrom_cons_of_ne hc,
        linesFrom_append (c :: acc) cs b]

theorem mem_lines_append {a b line : Text} (h : line ∈ lines b) : line ∈ lines (a ++ '\n' :: b) := by
  unfold lines
  rw [linesFrom_append]
  exact List.mem_append_right _ h

theorem length_linesFrom_le : ∀ (acc t : Text),
    (linesFrom acc t).length ≤ t.length + if acc.isEmpty then 0 else 1
  | acc, [] => by
    unfold linesFrom
    split_ifs
    · simp
    · simp
  | acc, c :: cs => by
    by_cases hc : c = '\n'
    · subst hc
      have ih := length_linesFrom_le [] cs
      simp only [List.isEmpty_nil, if_true] at ih
      simp only [linesFrom, List.length_cons]
      omega
    · have ih := length_linesFrom_le (c :: acc) cs
      rw [linesFrom_cons_of_ne hc]
      simp only [List.isEmpty_cons, Bool.false_eq_true, if_false] at ih
      rw [List.length_cons]
      omega

theorem length_le_byteLen (t : Text) : t.length ≤ byteLen t := by
  induction t with
  | nil => exact Nat.zero_le _
  | cons c t ih =>
    have hc : 1 ≤ c.utf8Size := c.utf8Size_pos
    simp only [byteLen, List.map_cons, List.sum_cons, List.length_cons] at ih ⊢
    omega

theorem length_lines_le (t : Text) : (lines t).length ≤ byteLen t := by
  have h := length_linesFrom_le [] t
  simp only [List.isEmpty_nil, if_true] at h
  exact h.trans (length_le_byteLen t)

end BrainEngine.Rust.Lines
