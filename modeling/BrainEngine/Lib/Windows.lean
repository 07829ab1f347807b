import Mathlib.Algebra.Order.Group.Nat
import Mathlib.Data.List.Basic
import Mathlib.Data.List.Range
import Mathlib.Tactic.Common

/-! # Sliding windows

A list is cut into pieces of length `width`, each starting `step` elements after the one before, until
one reaches the end of the list. There are `count width step n` of them for `n` elements: `lt_count`
says which piece starts when, and `rejoin_pieces` that the list is put together again by the pieces
without what each shares with the one before. -/

namespace BrainEngine.Lib.Windows

/-- The number of windows over `n` elements. -/
def count (width step n : ℕ) : ℕ := if n = 0 then 0 else (n - width + step - 1) / step + 1

variable {width step n k : ℕ}

variable (width step) in
theorem count_pos (h : 0 < n) : 0 < count width step n := by
  unfold count
  rw [if_neg (by omega)]
  exact Nat.succ_pos _

variable (width) in
/-- **There is a next window** just if this one does not reach the end. -/
theorem succ_lt_count (hs : 0 < step) (hn : 0 < n) :
    k + 1 < count width step n ↔ k * step + width < n := by
  unfold count
  have hmul : (k + 1) * step = k * step + step := Nat.succ_mul k step
  rw [if_neg (by omega), Nat.add_lt_add_iff_right, Nat.lt_iff_add_one_le,
    Nat.le_div_iff_mul_le hs, hmul]
  omega

theorem start_lt (hs : 0 < step) (hw : step ≤ width) (h : k < count width step n) : k * step < n := by
  have hn : 0 < n := by
    rcases Nat.eq_zero_or_pos n with rfl | hn
    · exact absurd h (Nat.not_lt_zero _)
    · exact hn
  cases k with
  | zero => omega
  | succ k =>
    have hk := (succ_lt_count width hs hn).mp h
    rw [Nat.succ_mul]
    omega

/-- The last window reaches the end. -/
theorem le_of_last (hs : 0 < step) (hn : 0 < n) (h : count width step n = k + 1) :
    n ≤ k * step + width := by
  by_contra hlt
  have := (succ_lt_count width hs hn).mpr (Nat.lt_of_not_le hlt)
  omega

theorem count_of_le (hs : 0 < step) (hn : 0 < n) (h : n ≤ width) : count width step n = 1 := by
  have h0 := count_pos width step hn
  have h1 := (succ_lt_count (k := 0) width hs hn).not
  omega

/-- **Every element is in a window.** -/
theorem exists_window (hs : 0 < step) (hw : step ≤ width) {i : ℕ} (hi : i < n) :
    ∃ k < count width step n, k * step ≤ i ∧ i < k * step + width := by
  have hpos := count_pos width step (n := n) (by omega)
  have hdiv : i / step * step ≤ i := Nat.div_mul_le_self i step
  by_cases hk : i / step < count width step n
  · have hlt : i < i / step * step + step := Nat.lt_div_mul_add hs
    exact ⟨i / step, hk, hdiv, by omega⟩
  · -- beyond the start of the last window, which reaches the end
    obtain ⟨m, hm⟩ := Nat.exists_eq_succ_of_ne_zero hpos.ne'
    have hlast := le_of_last hs (by omega) hm
    have hmul : m * step ≤ i / step * step := Nat.mul_le_mul_right step (by omega)
    exact ⟨m, by omega, by omega, by omega⟩

section Pieces
variable {α : Type}

/-- The windows over a list. -/
def pieces (width step : ℕ) (l : List α) : List (List α) :=
  (List.range (count width step l.length)).map fun k => (l.drop (k * step)).take width

/-- The pieces one after the other, without the first `overlap` elements of each but the first. -/
def rejoin (overlap : ℕ) : List (List α) → List α
  | [] => []
  | p :: ps => p ++ ps.flatMap fun q => q.drop overlap

theorem rejoin_concat {overlap : ℕ} {ps : List (List α)} (h : ps ≠ []) (p : List α) :
    rejoin overlap (ps ++ [p]) = rejoin overlap ps ++ p.drop overlap := by
  cases ps with
  | nil => exact absurd rfl h
  | cons q ps => simp [rejoin]

theorem rejoin_take (hw : step ≤ width) (l : List α) : ∀ m : ℕ,
    rejoin (width - step) ((List.range (m + 1)).map fun k => (l.drop (k * step)).take width) =
      l.take (m * step + width)
  | 0 => by simp [rejoin]
  | m + 1 => by
    have hstart : (m + 1) * step + (width - step) = m * step + width := by
      rw [Nat.succ_mul]
      omega
    have hend : (m + 1) * step + width = m * step + width + step := by
      rw [Nat.succ_mul]
      omega
    have hnew : width - (width - step) = step := by omega
    rw [List.range_succ, List.map_append, List.map_singleton, rejoin_concat (by simp),
      rejoin_take hw l m, List.drop_take, List.drop_drop, hstart, hnew, hend]
    exact List.take_add.symm

/-- **The pieces make up the list.** -/
theorem rejoin_pieces (hs : 0 < step) (hw : step ≤ width) (l : List α) :
    rejoin (width - step) (pieces width step l) = l := by
  unfold pieces
  rcases Nat.eq_zero_or_pos l.length with h | h
  · rw [List.length_eq_zero_iff.mp h]
    rfl
  · obtain ⟨m, hm⟩ := Nat.exists_eq_succ_of_ne_zero (count_pos width step h).ne'
    rw [hm, rejoin_take hw, List.take_of_length_le (le_of_last hs h hm)]

end Pieces

end BrainEngine.Lib.Windows
