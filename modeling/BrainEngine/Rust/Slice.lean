import Mathlib.Data.List.Basic
import Mathlib.Tactic.Common

/-! # Rust's slices -/

namespace BrainEngine.Rust.Slice

variable {α : Type}

/-- `chunks` with a bound on the number of pieces. -/
def chunksFrom (n : ℕ) : ℕ → List α → List (List α)
  | 0, _ => []
  | fuel + 1, l => if l.isEmpty then [] else l.take n :: chunksFrom n fuel (l.drop n)

/-- `slice::chunks`: pieces of length `n`, the last one perhaps shorter. -/
def chunks (n : ℕ) (l : List α) : List (List α) := chunksFrom n l.length l

theorem flatten_chunksFrom {n : ℕ} (hn : 0 < n) : ∀ (fuel : ℕ) (l : List α), l.length ≤ fuel →
    (chunksFrom n fuel l).flatten = l
  | 0, l, h => by
    rw [List.length_eq_zero_iff.mp (Nat.le_zero.mp h)]
    rfl
  | fuel + 1, l, h => by
    unfold chunksFrom
    split_ifs with hl
    · rw [List.isEmpty_iff.mp hl]
      rfl
    · have hd : (l.drop n).length ≤ fuel := by
        rw [List.length_drop]
        omega
      rw [List.flatten_cons, flatten_chunksFrom hn fuel _ hd, List.take_append_drop]

/-- **The pieces make up the slice.** -/
theorem flatten_chunks {n : ℕ} (hn : 0 < n) (l : List α) : (chunks n l).flatten = l :=
  flatten_chunksFrom hn l.length l (Nat.le_refl _)

/-- With `k` whole pieces' worth of elements there are `k` pieces at least. -/
theorem le_length_chunksFrom {n : ℕ} (hn : 0 < n) : ∀ (k fuel : ℕ) (l : List α),
    l.length ≤ fuel → k * n ≤ l.length → k ≤ (chunksFrom n fuel l).length
  | 0, fuel, l, _, _ => Nat.zero_le _
  | k + 1, 0, l, h, hk => by
    have := Nat.mul_le_mul_left (k + 1) hn
    omega
  | k + 1, fuel + 1, l, h, hk => by
    have hl : l.isEmpty = false := by
      cases l with
      | nil =>
        have := Nat.mul_le_mul_left (k + 1) hn
        simp at hk
        omega
      | cons a l => rfl
    have hd : k * n ≤ (l.drop n).length := by
      rw [List.length_drop, Nat.le_sub_iff_add_le]
      · rw [← Nat.succ_mul]
        exact hk
      · rw [Nat.succ_mul] at hk
        omega
    have := le_length_chunksFrom hn k fuel (l.drop n) (by rw [List.length_drop]; omega) hd
    unfold chunksFrom
    rw [hl]
    simp only [Bool.false_eq_true, if_false, List.length_cons]
    omega

theorem le_length_chunks {n k : ℕ} (hn : 0 < n) {l : List α} (h : k * n ≤ l.length) :
    k ≤ (chunks n l).length :=
  le_length_chunksFrom hn k l.length l (Nat.le_refl _) h

/-- Pieces that have been put together are cut again where they were. -/
theorem chunksFrom_flatten {n : ℕ} (hn : 0 < n) : ∀ (ls : List (List α)) (fuel : ℕ),
    ls.flatten.length ≤ fuel → (∀ l ∈ ls, l.length = n) → chunksFrom n fuel ls.flatten = ls
  | [], fuel, _, _ => by
    cases fuel with
    | zero => rfl
    | succ fuel => rfl
  | l :: ls, fuel, hfuel, hlen => by
    have hl : l.length = n := hlen l List.mem_cons_self
    rw [List.flatten_cons, List.length_append] at hfuel
    cases fuel with
    | zero => omega
    | succ fuel =>
      have hne : (l ++ ls.flatten).isEmpty = false := by
        cases l with
        | nil =>
          rw [List.length_nil] at hl
          omega
        | cons a l => rfl
      have ih := chunksFrom_flatten hn ls fuel (by omega) fun l' hl' =>
        hlen l' (List.mem_cons_of_mem _ hl')
      rw [List.flatten_cons, chunksFrom, hne, List.take_left' hl, List.drop_left' hl, ih]
      rfl

theorem chunks_flatten {n : ℕ} (hn : 0 < n) {ls : List (List α)} (h : ∀ l ∈ ls, l.length = n) :
    chunks n ls.flatten = ls :=
  chunksFrom_flatten hn ls _ (Nat.le_refl _) h

/-- `sort_unstable_by_key`: the elements in the order of their keys. In which order it leaves elements
of one key is not said. -/
structure UnstableSort (key : α → ℕ) where
  sort : List α → List α
  perm : ∀ l, (sort l).Perm l
  sorted : ∀ l, (sort l).Pairwise fun a b => key a ≤ key b

end BrainEngine.Rust.Slice
