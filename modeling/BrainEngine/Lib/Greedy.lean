import Mathlib.Algebra.Order.Monoid.Canonical.Defs
import Mathlib.Algebra.Order.Monoid.Defs
import Mathlib.Algebra.BigOperators.Group.List.Basic
import Mathlib.Data.List.Basic
import Mathlib.Tactic.Common

/-! # Packing in order

The elements of a list are tried one after the other: one that fits into what is left of a budget is
kept, and one that does not is dropped. What is kept is in order and within the budget
(`sum_kept_le`); a beginning that fits is kept whole (`isPrefix_kept`); and nothing that was dropped
would fit beside what was kept in the end (`lt_of_mem_dropped`), because the sum only grows. -/

namespace BrainEngine.Lib.Greedy

variable {α M : Type} [AddCommMonoid M] [LinearOrder M] (w : α → M) (budget : M)

/-- What is kept, when `used` is already spent. -/
def kept (used : M) : List α → List α
  | [] => []
  | a :: l => if used + w a ≤ budget then a :: kept (used + w a) l else kept used l

/-- What is dropped. -/
def dropped (used : M) : List α → List α
  | [] => []
  | a :: l => if used + w a ≤ budget then dropped (used + w a) l else a :: dropped used l

variable {w budget} {used : M} {a : α} {l : List α}

theorem kept_cons_of_le (h : used + w a ≤ budget) :
    kept w budget used (a :: l) = a :: kept w budget (used + w a) l := if_pos h

theorem kept_cons_of_lt (h : ¬used + w a ≤ budget) :
    kept w budget used (a :: l) = kept w budget used l := if_neg h

theorem dropped_cons_of_le (h : used + w a ≤ budget) :
    dropped w budget used (a :: l) = dropped w budget (used + w a) l := if_pos h

theorem dropped_cons_of_lt (h : ¬used + w a ≤ budget) :
    dropped w budget used (a :: l) = a :: dropped w budget used l := if_neg h

theorem kept_sublist : ∀ (l : List α) (used : M), (kept w budget used l).Sublist l
  | [], _ => List.Sublist.slnil
  | a :: l, used => by
    by_cases h : used + w a ≤ budget
    · rw [kept_cons_of_le h]
      exact (kept_sublist l (used + w a)).cons_cons a
    · rw [kept_cons_of_lt h]
      exact (kept_sublist l used).cons a

theorem dropped_sublist : ∀ (l : List α) (used : M), (dropped w budget used l).Sublist l
  | [], _ => List.Sublist.slnil
  | a :: l, used => by
    by_cases h : used + w a ≤ budget
    · rw [dropped_cons_of_le h]
      exact (dropped_sublist l (used + w a)).cons a
    · rw [dropped_cons_of_lt h]
      exact (dropped_sublist l used).cons_cons a

/-- **Every element** is kept or dropped. -/
theorem perm_kept_dropped : ∀ (l : List α) (used : M),
    (kept w budget used l ++ dropped w budget used l).Perm l
  | [], _ => List.Perm.nil
  | a :: l, used => by
    by_cases h : used + w a ≤ budget
    · rw [kept_cons_of_le h, dropped_cons_of_le h]
      exact (perm_kept_dropped l (used + w a)).cons a
    · rw [kept_cons_of_lt h, dropped_cons_of_lt h]
      exact List.perm_middle.trans ((perm_kept_dropped l used).cons a)

/-- **The budget is kept.** -/
theorem sum_kept_le : ∀ (l : List α) {used : M}, used ≤ budget →
    used + ((kept w budget used l).map w).sum ≤ budget
  | [], used, hu => by simpa [kept] using hu
  | a :: l, used, hu => by
    by_cases h : used + w a ≤ budget
    · rw [kept_cons_of_le h, List.map_cons, List.sum_cons, ← add_assoc]
      exact sum_kept_le l h
    · rw [kept_cons_of_lt h]
      exact sum_kept_le l hu

section
variable [CanonicallyOrderedAdd M]

/-- **A beginning that fits** is kept whole. -/
theorem isPrefix_kept : ∀ (l : List α) {used : M} {p : List α}, p <+: l →
    used + (p.map w).sum ≤ budget → p <+: kept w budget used l
  | [], used, p, hp, _ => by
    rw [List.prefix_nil.mp hp]
    exact List.nil_prefix
  | a :: l, used, [], _, _ => List.nil_prefix
  | a :: l, used, b :: p, hp, hb => by
    obtain ⟨rfl, htail⟩ := List.cons_prefix_cons.mp hp
    rw [List.map_cons, List.sum_cons, ← add_assoc] at hb
    rw [kept_cons_of_le (le_self_add.trans hb)]
    exact List.cons_prefix_cons.mpr ⟨rfl, isPrefix_kept l htail hb⟩

variable [IsOrderedAddMonoid M]

/-- **Nothing that was dropped** fits beside what is kept. -/
theorem lt_of_mem_dropped : ∀ (l : List α) {used : M} {a : α}, a ∈ dropped w budget used l →
    budget < used + ((kept w budget used l).map w).sum + w a
  | [], used, a, ha => by simp [dropped] at ha
  | b :: l, used, a, ha => by
    by_cases h : used + w b ≤ budget
    · rw [dropped_cons_of_le h] at ha
      rw [kept_cons_of_le h, List.map_cons, List.sum_cons, ← add_assoc]
      exact lt_of_mem_dropped l ha
    · rw [dropped_cons_of_lt h] at ha
      rw [kept_cons_of_lt h]
      rcases List.mem_cons.mp ha with rfl | ha
      · -- it did not fit when it was tried, and more has been kept since
        exact (lt_of_not_ge h).trans_le (add_le_add_left le_self_add _)
      · exact lt_of_mem_dropped l ha

end
end BrainEngine.Lib.Greedy
