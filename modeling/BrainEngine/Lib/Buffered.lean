import Mathlib.Data.List.Basic
import Mathlib.Tactic.Common

/-! # A stream read through a buffer

A stream arrives in pieces, and `readUntil` takes from them what stands before a delimiter, with it, or
everything if there is none. What it takes, and what it leaves, depend on the stream alone and not on how
it was cut (`readUntil_eq`, `readUntil_flatten`). -/

namespace BrainEngine.Lib.Buffered

variable {α : Type} [DecidableEq α]

/-- What is read, and the pieces that are left. -/
def readUntil (d : α) : List (List α) → List α × List (List α)
  | [] => ([], [])
  | x :: xs =>
    if d ∈ x then (x.takeWhile (· ≠ d) ++ [d], (x.dropWhile (· ≠ d)).tail :: xs)
    else (x ++ (readUntil d xs).1, (readUntil d xs).2)

/-- A list up to the first delimiter. -/
def upTo (d : α) (l : List α) : List α := if d ∈ l then l.takeWhile (· ≠ d) ++ [d] else l

variable {d : α} {xs : List (List α)} {l x y rest : List α}

theorem takeWhile_append_of_mem (h : d ∈ x) : (x ++ y).takeWhile (· ≠ d) = x.takeWhile (· ≠ d) := by
  induction x with
  | nil => cases h
  | cons a x ih =>
    rw [List.cons_append]
    by_cases ha : a = d
    · rw [List.takeWhile_cons_of_neg (by simpa using ha), List.takeWhile_cons_of_neg (by simpa using ha)]
    · have hx : d ∈ x := (List.mem_cons.mp h).resolve_left fun he => ha he.symm
      rw [List.takeWhile_cons_of_pos (by simpa using ha), List.takeWhile_cons_of_pos (by simpa using ha),
        ih hx]

theorem upTo_append_of_mem (h : d ∈ x) : upTo d (x ++ y) = x.takeWhile (· ≠ d) ++ [d] := by
  unfold upTo
  rw [if_pos (List.mem_append_left _ h), takeWhile_append_of_mem h]

theorem upTo_append_of_notMem (h : d ∉ x) : upTo d (x ++ y) = x ++ upTo d y := by
  have htake : (x ++ y).takeWhile (· ≠ d) = x ++ y.takeWhile (· ≠ d) :=
    List.takeWhile_append_of_pos fun a ha => by simpa using fun he : a = d => h (he ▸ ha)
  unfold upTo
  rw [htake]
  by_cases hy : d ∈ y
  · rw [if_pos (List.mem_append_right _ hy), if_pos hy, List.append_assoc]
  · rw [if_neg (by simp [h, hy]), if_neg hy]

theorem upTo_delim (h : d ∉ l) : upTo d (l ++ d :: rest) = l ++ [d] := by
  rw [upTo_append_of_notMem h]
  simp [upTo]

/-- **What is read**, wherever the cuts are. -/
theorem readUntil_eq (d : α) (xs : List (List α)) : (readUntil d xs).1 = upTo d xs.flatten := by
  induction xs with
  | nil => rfl
  | cons x xs ih =>
    unfold readUntil
    rw [List.flatten_cons]
    split_ifs with hd
    · exact (upTo_append_of_mem hd).symm
    · rw [upTo_append_of_notMem hd, ih]

theorem dropWhile_ne (h : d ∈ x) : x.dropWhile (· ≠ d) = d :: (x.dropWhile (· ≠ d)).tail := by
  induction x with
  | nil => cases h
  | cons a x ih =>
    by_cases ha : a = d
    · simp [ha]
    · have hx : d ∈ x := (List.mem_cons.mp h).resolve_left fun he => ha he.symm
      rw [List.dropWhile_cons_of_pos (by simpa using ha)]
      exact ih hx

/-- **Nothing is lost.** -/
theorem readUntil_flatten (d : α) (xs : List (List α)) :
    (readUntil d xs).1 ++ (readUntil d xs).2.flatten = xs.flatten := by
  induction xs with
  | nil => rfl
  | cons x xs ih =>
    unfold readUntil
    split_ifs with hd
    · have hx : x.takeWhile (· ≠ d) ++ x.dropWhile (· ≠ d) = x := List.takeWhile_append_dropWhile
      rw [dropWhile_ne hd, ← List.singleton_append, ← List.append_assoc] at hx
      rw [List.flatten_cons, List.flatten_cons, ← List.append_assoc]
      exact congrArg (· ++ xs.flatten) hx
    · rw [List.append_assoc, ih, List.flatten_cons]

/-- **One record** of a stream of records. -/
theorem readUntil_delim (hl : d ∉ l) (h : xs.flatten = l ++ d :: rest) :
    (readUntil d xs).1 = l ++ [d] ∧ (readUntil d xs).2.flatten = rest := by
  have hread : (readUntil d xs).1 = l ++ [d] := by
    rw [readUntil_eq, h, upTo_delim hl]
  have hall := readUntil_flatten d xs
  rw [hread, h, List.append_assoc, List.singleton_append] at hall
  exact ⟨hread, (List.cons.inj (List.append_cancel_left hall)).2⟩

end BrainEngine.Lib.Buffered
