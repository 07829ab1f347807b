import Mathlib.Data.List.Basic
import Mathlib.Tactic.Common

/-! # Paths

A path is the names of its components with a separator between them. `splitOn` and `render` are inverse
to each other on names without separators, and `below_render` says in terms of names when one path lies
below another. -/

namespace BrainEngine.Lib.Paths

variable {α : Type} [DecidableEq α] {sep : α}

/-- The path with these names. -/
def render (sep : α) (names : List (List α)) : List α := [sep].intercalate names

/-- Names that are the components of a path. -/
structure Named (sep : α) (names : List (List α)) : Prop where
  ne_nil : names ≠ []
  free : ∀ n ∈ names, sep ∉ n

/-- The second path lies below the first one. -/
def Below (sep : α) (a b : List α) : Prop := ∃ rest, b = a ++ sep :: rest

omit [DecidableEq α] in
theorem below_iff_isPrefix {a b : List α} : Below sep a b ↔ a ++ [sep] <+: b := by
  unfold Below List.IsPrefix
  refine exists_congr fun rest => ?_
  rw [List.append_assoc, List.singleton_append, eq_comm]

instance (a b : List α) : Decidable (Below sep a b) := decidable_of_iff _ below_iff_isPrefix.symm

/-! ### Names -/

theorem free_of_mem_splitOn (t : List α) : ∀ n ∈ t.splitOn sep, sep ∉ n := by
  induction t with
  | nil => simp
  | cons c t ih =>
    rw [List.splitOn_cons_eq_if_modifyHead]
    by_cases hc : c = sep
    · rw [if_pos (by simpa using hc)]
      intro n hn
      rcases List.mem_cons.mp hn with rfl | hn
      · simp
      · exact ih n hn
    · rw [if_neg (by simpa using hc)]
      obtain ⟨m, ms, hms⟩ := List.exists_cons_of_ne_nil (List.splitOn_ne_nil sep t)
      rw [hms] at ih ⊢
      intro n hn
      rcases List.mem_cons.mp hn with rfl | hn
      · have hm := ih m List.mem_cons_self
        simp [Ne.symm hc, hm]
      · exact ih n (List.mem_cons_of_mem _ hn)

theorem named_splitOn (t : List α) : Named sep (t.splitOn sep) :=
  ⟨List.splitOn_ne_nil sep t, free_of_mem_splitOn t⟩

theorem Named.splitOn_render {names : List (List α)} (h : Named sep names) :
    (render sep names).splitOn sep = names := List.splitOn_intercalate sep h.free h.ne_nil

theorem render_splitOn (t : List α) : render sep (t.splitOn sep) = t := List.intercalate_splitOn sep

theorem Named.render_inj {names names' : List (List α)} (h : Named sep names) (h' : Named sep names') :
    render sep names = render sep names' ↔ names = names' := by
  constructor
  · intro he
    rw [← h.splitOn_render, he, h'.splitOn_render]
  · rintro rfl
    rfl

omit [DecidableEq α] in
theorem Named.append {a b : List (List α)} (ha : Named sep a) (hb : ∀ n ∈ b, sep ∉ n) :
    Named sep (a ++ b) := by
  refine ⟨by simp [ha.ne_nil], fun n hn => ?_⟩
  rcases List.mem_append.mp hn with hn | hn
  · exact ha.free n hn
  · exact hb n hn

/-! ### Appending -/

omit [DecidableEq α] in
theorem render_append {a b : List (List α)} (ha : a ≠ []) (hb : b ≠ []) :
    render sep (a ++ b) = render sep a ++ sep :: render sep b := by
  unfold render
  induction a with
  | nil => exact absurd rfl ha
  | cons n a ih =>
    by_cases h : a = []
    · subst h
      rw [List.cons_append, List.nil_append, List.intercalate_cons_of_ne_nil hb,
        List.intercalate_singleton, List.append_assoc, List.singleton_append]
    · rw [List.cons_append, List.intercalate_cons_of_ne_nil (by simp [h]), ih h,
        List.intercalate_cons_of_ne_nil h]
      simp

omit [DecidableEq α] in
/-- A suffix of the path is one of its last name. -/
theorem render_concat_append (a : List (List α)) (n s : List α) :
    render sep (a ++ [n]) ++ s = render sep (a ++ [n ++ s]) := by
  by_cases h : a = []
  · subst h
    simp [render]
  · rw [render_append h (by simp), render_append h (by simp)]
    simp [render]

/-- **Below** a path are the paths with further names. -/
theorem below_render {a b : List (List α)} (ha : Named sep a) (hb : Named sep b) :
    Below sep (render sep a) (render sep b) ↔ ∃ rest, rest ≠ [] ∧ b = a ++ rest := by
  constructor
  · rintro ⟨t, ht⟩
    refine ⟨t.splitOn sep, List.splitOn_ne_nil sep t, ?_⟩
    rw [← hb.splitOn_render, ht, List.splitOn_append_cons_self, ha.splitOn_render]
  · rintro ⟨rest, hrest, rfl⟩
    exact ⟨render sep rest, render_append ha.ne_nil hrest⟩

end BrainEngine.Lib.Paths
