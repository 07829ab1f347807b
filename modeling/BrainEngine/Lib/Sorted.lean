import Mathlib.Data.List.Basic
import Mathlib.Order.Lattice
import Mathlib.Tactic.Common

/-! # Maps in key order

A `SortedMap` is a map whose entries are iterated in the order of their keys; the order is a field.
`entry` updates the value under a key, which may be missing. `tally` puts the elements of a list under
their keys one after the other; `get?_tally` says what stands under each key in the end. -/

namespace BrainEngine.Lib.Sorted

/-- Values `ν` under increasing keys `κ`. -/
structure SortedMap (κ ν : Type) [LinearOrder κ] where
  entries : List (κ × ν)
  sorted : entries.Pairwise fun a b => a.1 < b.1

section Lists
variable {κ ν : Type} [LinearOrder κ] {l : List (κ × ν)} {k : κ} {f : Option ν → ν}

/-- Update the value under a key of a sorted list. -/
def entryList (k : κ) (f : Option ν → ν) : List (κ × ν) → List (κ × ν)
  | [] => [(k, f none)]
  | (j, v) :: rest =>
    if k < j then (k, f none) :: (j, v) :: rest
    else if k = j then (k, f (some v)) :: rest
    else (j, v) :: entryList k f rest

theorem fst_of_mem_entryList {a : κ × ν} (h : a ∈ entryList k f l) : a.1 = k ∨ a ∈ l := by
  induction l with
  | nil =>
    rw [List.mem_singleton.mp h]
    exact Or.inl rfl
  | cons b rest ih =>
    obtain ⟨j, v⟩ := b
    unfold entryList at h
    split_ifs at h with h1 h2
    · rcases List.mem_cons.mp h with rfl | h
      · exact Or.inl rfl
      · exact Or.inr h
    · rcases List.mem_cons.mp h with rfl | h
      · exact Or.inl rfl
      · exact Or.inr (List.mem_cons_of_mem _ h)
    · rcases List.mem_cons.mp h with rfl | h
      · exact Or.inr List.mem_cons_self
      · exact (ih h).imp_right (List.mem_cons_of_mem _)

theorem sorted_entryList (h : l.Pairwise fun a b => a.1 < b.1) :
    (entryList k f l).Pairwise fun a b => a.1 < b.1 := by
  induction l with
  | nil => exact List.pairwise_singleton _ _
  | cons b rest ih =>
    obtain ⟨j, v⟩ := b
    have hb := List.pairwise_cons.mp h
    unfold entryList
    split_ifs with h1 h2
    · refine List.pairwise_cons.mpr ⟨fun a ha => ?_, h⟩
      rcases List.mem_cons.mp ha with rfl | ha
      · exact h1
      · exact h1.trans (hb.1 a ha)
    · subst h2
      exact List.pairwise_cons.mpr hb
    · refine List.pairwise_cons.mpr ⟨fun a ha => ?_, ih hb.2⟩
      rcases fst_of_mem_entryList ha with rfl | ha
      · exact lt_of_le_of_ne (not_lt.mp h1) (Ne.symm h2)
      · exact hb.1 a ha

theorem lookup_entryList (h : l.Pairwise fun a b => a.1 < b.1) (i : κ) :
    (entryList k f l).lookup i = if i = k then some (f (l.lookup k)) else l.lookup i := by
  have hik : i ≠ k → (i == k) = false := fun hi => by simpa using hi
  induction l with
  | nil =>
    by_cases hi : i = k
    · simp [entryList, hi]
    · simp [entryList, List.lookup_cons, hi, hik hi]
  | cons b rest ih =>
    obtain ⟨j, v⟩ := b
    have hb := List.pairwise_cons.mp h
    unfold entryList
    by_cases h1 : k < j
    · -- the key is below the first one, so it is missing
      have hmiss : ((j, v) :: rest).lookup k = none := by
        refine List.lookup_eq_none_iff.mpr fun a ha => ?_
        rcases List.mem_cons.mp ha with rfl | ha
        · simpa using h1.ne
        · simpa using (h1.trans (hb.1 a ha)).ne
      rw [if_pos h1, hmiss]
      by_cases hi : i = k
      · simp [hi]
      · rw [List.lookup_cons, hik hi, if_neg hi]
    · rw [if_neg h1]
      by_cases h2 : k = j
      · subst h2
        rw [if_pos rfl]
        by_cases hi : i = k
        · simp [hi]
        · rw [if_neg hi, List.lookup_cons, List.lookup_cons, hik hi]
      · have hkj : (k == j) = false := by simpa using h2
        rw [if_neg h2, List.lookup_cons, List.lookup_cons, List.lookup_cons, ih hb.2, hkj]
        by_cases hi : i = k
        · rw [hi, hkj, if_pos rfl]
        · rw [if_neg hi, if_neg hi]

end Lists

namespace SortedMap
variable {κ ν : Type} [LinearOrder κ] {m : SortedMap κ ν} {k : κ} {v : ν}

def empty : SortedMap κ ν := ⟨[], List.Pairwise.nil⟩

def get? (m : SortedMap κ ν) (k : κ) : Option ν := m.entries.lookup k

/-- `entry(k)` and the update of its value. -/
def entry (m : SortedMap κ ν) (k : κ) (f : Option ν → ν) : SortedMap κ ν :=
  ⟨entryList k f m.entries, sorted_entryList m.sorted⟩

@[simp] theorem get?_empty (k : κ) : (empty : SortedMap κ ν).get? k = none := rfl

theorem get?_entry (f : Option ν → ν) (i : κ) :
    (m.entry k f).get? i = if i = k then some (f (m.get? k)) else m.get? i :=
  lookup_entryList m.sorted i

theorem nodup_keys (m : SortedMap κ ν) : (m.entries.map Prod.fst).Nodup := by
  have h : (m.entries.map Prod.fst).Pairwise (· < ·) := List.pairwise_map.mpr m.sorted
  exact h.imp fun h => h.ne

theorem mem_entries : (k, v) ∈ m.entries ↔ m.get? k = some v := by
  obtain ⟨l, hl⟩ := m
  unfold get?
  dsimp only
  induction l with
  | nil => simp
  | cons a rest ih =>
    obtain ⟨j, w⟩ := a
    have ha := List.pairwise_cons.mp hl
    rw [List.mem_cons, List.lookup_cons, ih ha.2]
    by_cases hk : k = j
    · subst hk
      have hn : rest.lookup k = none :=
        List.lookup_eq_none_iff.mpr fun b hb => by simpa using (ha.1 b hb).ne
      simp [hn, eq_comm]
    · have hb : (k == j) = false := by simpa using hk
      simp [hk, hb]

end SortedMap

/-! ### Putting elements under their keys -/

section Tally
variable {α κ ν : Type} [LinearOrder κ] (key : α → κ) (f : α → Option ν → ν)

/-- The elements of a list, one after the other, update the value under their key. -/
def tally (l : List α) : SortedMap κ ν := l.foldl (fun m a => m.entry (key a) (f a)) .empty

/-- The updates of one key. -/
def updates (l : List α) (o : Option ν) : Option ν := l.foldl (fun o a => some (f a o)) o

theorem get?_foldl_entry (k : κ) (l : List α) (m : SortedMap κ ν) :
    (l.foldl (fun m a => m.entry (key a) (f a)) m).get? k =
      updates f (l.filter fun a => key a = k) (m.get? k) := by
  induction l generalizing m with
  | nil => rfl
  | cons a l ih =>
    rw [List.foldl_cons, ih, SortedMap.get?_entry]
    by_cases h : key a = k
    · rw [if_pos h.symm, List.filter_cons_of_pos (by simpa using h), h]
      rfl
    · rw [if_neg (Ne.symm h), List.filter_cons_of_neg (by simpa using h)]

/-- **Under a key** stands what the elements with that key made of it. -/
theorem get?_tally (l : List α) (k : κ) :
    (tally key f l).get? k = updates f (l.filter fun a => key a = k) none := get?_foldl_entry key f k l .empty

end Tally

/-- The elements of a list under their keys, in the order of the list. -/
def groups {α κ : Type} [LinearOrder κ] (key : α → κ) (l : List α) : SortedMap κ (List α) :=
  tally key (fun a o => o.getD [] ++ [a]) l

/-- How many elements of a list have each key. -/
def counts {α κ : Type} [LinearOrder κ] (key : α → κ) (l : List α) : SortedMap κ ℕ :=
  tally key (fun _ o => o.getD 0 + 1) l

section
variable {α β κ : Type} [LinearOrder κ] {key : α → κ} {l : List α} {k : κ}

theorem counts_map (key : β → κ) (f : α → β) (l : List α) :
    counts key (l.map f) = counts (fun a => key (f a)) l := by
  unfold counts tally
  rw [List.foldl_map]

theorem updates_append (g : List α) : ∀ acc : List α,
    updates (fun a o => o.getD [] ++ [a]) g (some acc) = some (acc ++ g) := by
  induction g with
  | nil => simp [updates]
  | cons a g ih =>
    intro acc
    calc _ = updates (fun a o => o.getD [] ++ [a]) g (some (acc ++ [a])) := rfl
      _ = some (acc ++ a :: g) := by rw [ih]; simp

/-- **A group** is the sublist of the elements with its key. -/
theorem get?_groups : (groups key l).get? k =
    if (l.filter fun a => key a = k) = [] then none else some (l.filter fun a => key a = k) := by
  unfold groups
  rw [get?_tally]
  cases l.filter fun a => key a = k with
  | nil => rfl
  | cons a g =>
    rw [if_neg (by simp)]
    exact updates_append g [a]

theorem mem_groups {g : List α} : (k, g) ∈ (groups key l).entries ↔
    g ≠ [] ∧ g = l.filter fun a => key a = k := by
  rw [SortedMap.mem_entries, get?_groups]
  split_ifs with h
  · refine iff_of_false (by simp) ?_
    rintro ⟨hg, rfl⟩
    exact hg h
  · rw [Option.some.injEq]
    constructor
    · rintro rfl; exact ⟨h, rfl⟩
    · rintro ⟨-, rfl⟩; rfl

end

end BrainEngine.Lib.Sorted
