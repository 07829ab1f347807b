import Mathlib.Data.List.Induction
import Mathlib.Tactic.Common

/-! # The first of their kind

Elements with one key are of one kind. A list with room for `cap` elements, to which an element is added if it
is of a new kind, has the first elements of their kind, up to `cap` of them (`foldl_push`). -/

namespace BrainEngine.Lib.Distinct

variable {α κ : Type} [DecidableEq κ] (key : α → κ)

/-- The list without those elements that are of the kind of an earlier one. -/
def firsts : List α → List α
  | [] => []
  | a :: as => a :: (firsts as).filter fun b => key b ≠ key a

/-- An element of a new kind is added, if there is room. -/
def push (cap : ℕ) (out : List α) (a : α) : List α :=
  if out.any fun b => key b = key a then out
  else if out.length < cap then out ++ [a]
  else out

variable {a : α}

/-- **The last element** stays if it is of a new kind. -/
theorem firsts_concat (key : α → κ) (l : List α) (a : α) : firsts key (l ++ [a]) =
    if ∃ b ∈ l, key b = key a then firsts key l else firsts key l ++ [a] := by
  induction l with
  | nil => simp [firsts]
  | cons b l ih =>
    rw [List.cons_append, firsts, ih, firsts]
    by_cases hb : key b = key a
    · -- an element of the kind of the first one
      have hex : ∃ c ∈ b :: l, key c = key a := ⟨b, List.mem_cons_self, hb⟩
      rw [if_pos hex]
      split_ifs
      · rfl
      · rw [List.filter_append]
        simp [hb]
    · have hiff : (∃ c ∈ b :: l, key c = key a) ↔ ∃ c ∈ l, key c = key a := by
        simp [hb]
      simp only [hiff]
      split_ifs
      · rfl
      · have hne : key a ≠ key b := Ne.symm hb
        rw [List.filter_append]
        simp [hne]

theorem firsts_sublist (key : α → κ) : ∀ l : List α, (firsts key l).Sublist l
  | [] => List.Sublist.slnil
  | a :: l => (List.filter_sublist.trans (firsts_sublist key l)).cons_cons a

/-- Every kind is there. -/
theorem exists_mem_firsts (key : α → κ) : ∀ {l : List α}, a ∈ l → ∃ b ∈ firsts key l, key b = key a
  | b :: l, h => by
    by_cases hb : key b = key a
    · exact ⟨b, List.mem_cons_self, hb⟩
    · have hmem : a ∈ l := (List.mem_cons.mp h).resolve_left fun heq => hb (congrArg key heq.symm)
      obtain ⟨c, hc, hkey⟩ := exists_mem_firsts key hmem
      refine ⟨c, List.mem_cons_of_mem _ (List.mem_filter.mpr ⟨hc, ?_⟩), hkey⟩
      rw [hkey]
      exact decide_eq_true (Ne.symm hb)

/-- **No two** are of one kind. -/
theorem pairwise_firsts (key : α → κ) : ∀ l : List α, (firsts key l).Pairwise fun a b => key a ≠ key b
  | [] => List.Pairwise.nil
  | a :: l => by
    refine List.Pairwise.cons (fun b hb => ?_) ((pairwise_firsts key l).filter _)
    have hne := of_decide_eq_true (List.mem_filter.mp hb).2
    exact Ne.symm hne

/-- **The list with room** has the first elements of their kind. -/
theorem foldl_push (key : α → κ) (cap : ℕ) (l : List α) :
    l.foldl (push key cap) [] = (firsts key l).take cap := by
  induction l using List.reverseRecOn with
  | nil => exact List.take_nil.symm
  | append_singleton l a ih =>
    rw [List.foldl_append, List.foldl_cons, List.foldl_nil, ih, firsts_concat]
    unfold push
    rcases Nat.lt_or_ge (firsts key l).length cap with hroom | hfull
    · -- nothing has been left out for want of room
      have htake : (firsts key l).take cap = firsts key l := List.take_of_length_le (Nat.le_of_lt hroom)
      have hany : ((firsts key l).any fun b => key b = key a) = true ↔ ∃ b ∈ l, key b = key a := by
        rw [List.any_eq_true]
        constructor
        · rintro ⟨b, hb, heq⟩
          exact ⟨b, (firsts_sublist key l).subset hb, of_decide_eq_true heq⟩
        · rintro ⟨b, hb, heq⟩
          obtain ⟨c, hc, hkey⟩ := exists_mem_firsts key hb
          exact ⟨c, hc, decide_eq_true (hkey.trans heq)⟩
      rw [htake]
      simp only [hany, hroom, if_true]
      split_ifs
      · exact htake.symm
      · rw [List.take_of_length_le]
        rw [List.length_append, List.length_singleton]
        exact hroom
    · have hlen : ¬((firsts key l).take cap).length < cap := by
        rw [List.length_take]
        omega
      have hconcat : (firsts key l ++ [a]).take cap = (firsts key l).take cap := List.take_append_of_le_length hfull
      rw [if_neg hlen, ite_self]
      split_ifs
      · rfl
      · exact hconcat.symm

end BrainEngine.Lib.Distinct
