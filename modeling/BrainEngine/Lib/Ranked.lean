import Mathlib.Data.List.Sort
import Mathlib.Data.List.Count
import Mathlib.Tactic.Common

/-! # The first rows in an order

`Selects key rows n result` says that `result` may come of "ordered by `key`, the first `n`": rows with
the same key stand in any order. `selects_imp_iff` compares two such requests: every answer to the one
is an answer to the other just if this holds of the rows that can come out at all, those with fewer
than `n` rows in front of them. -/

namespace BrainEngine.Lib.Ranked

variable {α κ κ' : Type} [LinearOrder κ] [LinearOrder κ'] {key : α → κ} {key' : α → κ'}
  {rows result : List α} {n : ℕ}

/-- The rows in the order of their keys. -/
def InOrder (key : α → κ) (rows : List α) : Prop := rows.Pairwise fun a b => key a ≤ key b

/-- The first `n` rows, in the order of their keys. -/
def Selects (key : α → κ) (rows : List α) (n : ℕ) (result : List α) : Prop :=
  ∃ all, all.Perm rows ∧ InOrder key all ∧ result = all.take n

/-- The rows, sorted. -/
def sortBy (key : α → κ) (rows : List α) : List α := rows.insertionSort fun a b => key a ≤ key b

theorem perm_sortBy (key : α → κ) (rows : List α) : (sortBy key rows).Perm rows :=
  List.perm_insertionSort _ _

theorem inOrder_sortBy (key : α → κ) (rows : List α) : InOrder key (sortBy key rows) :=
  List.pairwise_insertionSort (fun a b : α => key a ≤ key b) rows

theorem selects_sortBy (key : α → κ) (rows : List α) (n : ℕ) :
    Selects key rows n ((sortBy key rows).take n) :=
  ⟨_, perm_sortBy key rows, inOrder_sortBy key rows, rfl⟩

/-- **What is selected** and what is left: the rows, those selected in order and in front of the rest,
and as many as there can be. -/
theorem selects_iff : Selects key rows n result ↔
    ∃ rest, (result ++ rest).Perm rows ∧ InOrder key result ∧
      (∀ a ∈ result, ∀ b ∈ rest, key a ≤ key b) ∧ result.length = min n rows.length := by
  constructor
  · rintro ⟨all, hperm, hsorted, rfl⟩
    refine ⟨all.drop n, ?_, ?_, ?_, ?_⟩
    · rw [List.take_append_drop]
      exact hperm
    · exact hsorted.sublist (List.take_sublist n all)
    · unfold InOrder at hsorted
      rw [← List.take_append_drop n all, List.pairwise_append] at hsorted
      exact hsorted.2.2
    · rw [List.length_take, hperm.length_eq]
  · rintro ⟨rest, hperm, hsorted, hfront, hlen⟩
    refine ⟨result ++ sortBy key rest, ?_, ?_, ?_⟩
    · exact ((perm_sortBy key rest).append_left result).trans hperm
    · refine List.pairwise_append.mpr ⟨hsorted, inOrder_sortBy key rest, fun a ha b hb => ?_⟩
      exact hfront a ha b ((perm_sortBy key rest).mem_iff.mp hb)
    · have htotal := hperm.length_eq
      rw [List.length_append] at htotal
      rcases Nat.le_total n rows.length with h | h
      · rw [Nat.min_eq_left h] at hlen
        rw [List.take_left' hlen]
      · rw [Nat.min_eq_right h] at hlen
        have hrest : rest = [] := List.length_eq_zero_iff.mp (by omega)
        rw [hrest, List.take_of_length_le]
        · exact (List.append_nil result).symm
        · have hnil : sortBy key ([] : List α) = [] := rfl
          rw [hnil, List.append_nil]
          omega

theorem length_of_selects (h : Selects key rows n result) : result.length = min n rows.length := by
  obtain ⟨all, hperm, -, rfl⟩ := h
  rw [List.length_take, hperm.length_eq]

/-- A limit that the rows stay below is no limit. -/
theorem selects_iff_of_length_le (h : rows.length ≤ n) :
    Selects key rows n result ↔ result.Perm rows ∧ InOrder key result := by
  constructor
  · rintro ⟨all, hperm, hsorted, rfl⟩
    have hall : all.take n = all := List.take_of_length_le (by rw [hperm.length_eq]; exact h)
    rw [hall]
    exact ⟨hperm, hsorted⟩
  · rintro ⟨hperm, hsorted⟩
    exact ⟨result, hperm, hsorted, (List.take_of_length_le (by rw [hperm.length_eq]; exact h)).symm⟩

/-! ### Rows that can come out -/

/-- The number of rows that stand in front of this one in every order. -/
def before (key : α → κ) (rows : List α) (a : α) : ℕ := rows.countP fun r => key r < key a

/-- A row that is selected has fewer than `n` rows in front. -/
theorem before_lt (h : Selects key rows n result) {a : α} (ha : a ∈ result) : before key rows a < n := by
  obtain ⟨all, hperm, hsorted, rfl⟩ := h
  obtain ⟨i, hi, rfl⟩ := List.mem_iff_getElem.mp ha
  rw [List.length_take] at hi
  have hall : i < all.length := by omega
  rw [List.getElem_take]
  -- none of the rows from here on is in front
  have hdrop : (all.drop i).countP (fun r => key r < key all[i]) = 0 := by
    rw [List.countP_eq_zero]
    intro r hr
    obtain ⟨j, hj, rfl⟩ := List.mem_iff_getElem.mp hr
    rw [List.getElem_drop]
    rw [List.length_drop] at hj
    have hle : key all[i] ≤ key all[i + j] := by
      rcases Nat.eq_zero_or_pos j with rfl | hpos
      · exact le_rfl
      · exact List.pairwise_iff_getElem.mp hsorted i (i + j) hall (by omega) (by omega)
    simpa using hle
  have hsplit : before key rows all[i] =
      (all.take i).countP (fun r => key r < key all[i]) + (all.drop i).countP fun r => key r < key all[i] := by
    unfold before
    rw [← hperm.countP_eq, ← List.countP_append, List.take_append_drop]
  have htake : (all.take i).countP (fun r => key r < key all[i]) ≤ i :=
    List.countP_le_length.trans (List.length_take_le i all)
  omega

/-- A row with fewer than `n` rows in front can come out, and then nothing but such rows stands in front
of it. -/
theorem exists_selects {a : α} (ha : a ∈ rows) (hn : before key rows a < n) :
    ∃ front back, Selects key rows n (front ++ a :: back) ∧ ∀ r ∈ front, key r < key a := by
  obtain ⟨s, t, rfl⟩ := List.append_of_mem ha
  let others := s ++ t
  let front := sortBy key (others.filter fun r => key r < key a)
  let back := sortBy key (others.filter fun r => !decide (key r < key a))
  have hothers : (front ++ back).Perm others :=
    ((perm_sortBy key _).append (perm_sortBy key _)).trans (List.filter_append_perm _ _)
  have hfront : ∀ r ∈ front, key r < key a := fun r hr => by
    have hr' := (perm_sortBy key _).mem_iff.mp hr
    simpa using (List.mem_filter.mp hr').2
  have hback : ∀ r ∈ back, key a ≤ key r := fun r hr => by
    have hr' := (perm_sortBy key _).mem_iff.mp hr
    simpa using (List.mem_filter.mp hr').2
  have hall : (front ++ a :: back).Perm (s ++ a :: t) :=
    List.perm_middle.trans ((hothers.cons a).trans List.perm_middle.symm)
  have hsorted : InOrder key (front ++ a :: back) := by
    refine List.pairwise_append.mpr ⟨inOrder_sortBy key _,
      List.pairwise_cons.mpr ⟨hback, inOrder_sortBy key _⟩, fun r hr b hb => ?_⟩
    rcases List.mem_cons.mp hb with rfl | hb
    · exact (hfront r hr).le
    · exact (hfront r hr).le.trans (hback b hb)
  have hlen : front.length < n := by
    have hbefore : before key (front ++ a :: back) a = front.length := by
      have hf : front.countP (fun r => key r < key a) = front.length :=
        List.countP_eq_length.mpr fun r hr => by simpa using hfront r hr
      have hb : (a :: back).countP (fun r => key r < key a) = 0 :=
        List.countP_eq_zero.mpr fun r hr => by
          rcases List.mem_cons.mp hr with rfl | hr
          · simp
          · simpa using hback r hr
      unfold before
      rw [List.countP_append, hf, hb, Nat.add_zero]
    have hperm : before key (front ++ a :: back) a = before key (s ++ a :: t) a := hall.countP_eq _
    omega
  refine ⟨front, back.take (n - front.length - 1), ⟨front ++ a :: back, hall, hsorted, ?_⟩, hfront⟩
  obtain ⟨k, hk⟩ : ∃ k, n - front.length = k + 1 := ⟨n - front.length - 1, by omega⟩
  rw [List.take_append, List.take_of_length_le hlen.le, hk, List.take_succ_cons, Nat.add_sub_cancel]

/-- **When one request does for another.** Every answer to "the first `n` by `key`" is an answer to
"the first `n` by `key'` of the rows with `p`" exactly if each row that can come out has `p` and is in
front, by `key'` too, of the rows with `p` that it is in front of by `key`. -/
theorem selects_imp_iff (p : α → Bool) :
    (∀ result, Selects key rows n result → Selects key' (rows.filter p) n result) ↔
      ∀ a ∈ rows, before key rows a < n →
        p a = true ∧ ∀ r ∈ rows, p r = true → key a ≤ key r → key' a ≤ key' r := by
  constructor
  · intro h a ha hn
    obtain ⟨front, back, hsel, hfront⟩ := exists_selects ha hn
    obtain ⟨rest, hperm, hsorted, hcross, -⟩ := selects_iff.mp (h _ hsel)
    have hmem : a ∈ rows.filter p := hperm.mem_iff.mp (by simp)
    refine ⟨(List.mem_filter.mp hmem).2, fun r hr hp hle => ?_⟩
    have hr' := hperm.mem_iff.mpr (List.mem_filter.mpr ⟨hr, hp⟩)
    unfold InOrder at hsorted
    rw [List.pairwise_append, List.pairwise_cons] at hsorted
    rcases List.mem_append.mp hr' with hr' | hr'
    · rcases List.mem_append.mp hr' with hr' | hr'
      · exact absurd (hfront r hr') (not_lt.mpr hle)
      · rcases List.mem_cons.mp hr' with rfl | hr'
        · exact le_rfl
        · exact hsorted.2.1.1 r hr'
    · exact hcross a (by simp) r hr'
  · intro h result hsel
    obtain ⟨rest, hperm, hsorted, hcross, hlen⟩ := selects_iff.mp hsel
    have hrows : ∀ {a}, a ∈ result → a ∈ rows := fun ha =>
      hperm.mem_iff.mp (List.mem_append_left _ ha)
    have hin : ∀ a ∈ result, p a = true ∧ ∀ r ∈ rows, p r = true → key a ≤ key r → key' a ≤ key' r :=
      fun a ha => h a (hrows ha) (before_lt hsel ha)
    have hperm' : (result ++ rest.filter p).Perm (rows.filter p) := by
      have hf := hperm.filter p
      rw [List.filter_append, List.filter_eq_self.mpr fun a ha => (hin a ha).1] at hf
      exact hf
    refine selects_iff.mpr ⟨rest.filter p, hperm', ?_, ?_, ?_⟩
    · exact hsorted.imp_of_mem fun {a b} ha hb hle => (hin a ha).2 b (hrows hb) (hin b hb).1 hle
    · intro a ha b hb
      obtain ⟨hb, hp⟩ := List.mem_filter.mp hb
      exact (hin a ha).2 b (hperm.mem_iff.mp (List.mem_append_right _ hb)) hp (hcross a ha b hb)
    · have hsum := hperm'.length_eq
      have hle := List.length_filter_le p rows
      rw [List.length_append] at hsum
      omega

end BrainEngine.Lib.Ranked
