import Mathlib.Data.List.Basic
import Mathlib.Data.List.Range
import Mathlib.Data.List.Nodup
import Mathlib.Tactic.Common

/-! # Tables whose rows are numbered by the store

A `RowTable` is a table with an integer primary key that the store assigns itself: a new row gets
one more than the greatest id *in the table now*, so the id of a deleted row can come back. The rows
are kept in id order, which is the order of insertion among the rows that are left. The order is a
field, so ids are unique in every table that can be built. -/

namespace BrainEngine.Lib.Rowid

/-- A table of rows `ρ` under increasing ids. -/
structure RowTable (ρ : Type) where
  rows : List (ℕ × ρ)
  sorted : rows.Pairwise fun a b => a.1 < b.1

namespace RowTable
variable {ρ : Type}

/-- The ids in use. -/
def ids (t : RowTable ρ) : List ℕ := t.rows.map Prod.fst

/-- The greatest id in use, `0` for the empty table. -/
def maxId (t : RowTable ρ) : ℕ := t.ids.foldr max 0

theorem le_foldr_max {l : List ℕ} {i : ℕ} (h : i ∈ l) : i ≤ l.foldr max 0 := by
  induction l with
  | nil => simp at h
  | cons a l ih =>
    rcases List.mem_cons.mp h with rfl | h
    · exact le_max_left _ _
    · exact (ih h).trans (le_max_right _ _)

theorem le_maxId {t : RowTable ρ} {i : ℕ} (h : i ∈ t.ids) : i ≤ t.maxId := le_foldr_max h

theorem maxId_succ_notMem (t : RowTable ρ) (n : ℕ) : t.maxId + 1 + n ∉ t.ids := by
  intro h
  have := le_maxId h
  omega

theorem mem_ids {t : RowTable ρ} {i : ℕ} : i ∈ t.ids ↔ ∃ r, (i, r) ∈ t.rows := by
  simp [ids]

theorem mem_ids_of_mem {t : RowTable ρ} {i : ℕ} {r : ρ} (h : (i, r) ∈ t.rows) : i ∈ t.ids :=
  mem_ids.mpr ⟨r, h⟩

theorem nodup_ids (t : RowTable ρ) : t.ids.Nodup := by
  have h : t.ids.Pairwise (· < ·) := List.pairwise_map.mpr t.sorted
  exact h.imp fun h => h.ne

/-- **An id names one row.** -/
theorem row_unique {t : RowTable ρ} {i : ℕ} {a b : ρ} (ha : (i, a) ∈ t.rows)
    (hb : (i, b) ∈ t.rows) : a = b := by
  have h := List.inj_on_of_nodup_map t.nodup_ids ha hb rfl
  exact (Prod.mk.inj h).2

/-- The row under an id. -/
def get? (t : RowTable ρ) (i : ℕ) : Option ρ := (t.rows.find? fun a => a.1 = i).map Prod.snd

theorem get?_eq_some {t : RowTable ρ} {i : ℕ} {r : ρ} : t.get? i = some r ↔ (i, r) ∈ t.rows := by
  simp only [get?, Option.map_eq_some_iff]
  constructor
  · rintro ⟨⟨j, r'⟩, h, rfl⟩
    have hj : j = i := by simpa using List.find?_some h
    rw [← hj]
    exact List.mem_of_find?_eq_some h
  · intro h
    cases hf : t.rows.find? fun a => a.1 = i with
    | none => exact absurd (List.find?_eq_none.mp hf _ h) (by simp)
    | some a =>
      obtain ⟨j, r'⟩ := a
      have hj : j = i := by simpa using List.find?_some hf
      subst hj
      exact ⟨_, rfl, row_unique (List.mem_of_find?_eq_some hf) h⟩

/-! ### Operations -/

/-- The table without rows. -/
def empty : RowTable ρ := ⟨[], .nil⟩

/-- `INSERT`: the new row gets the greatest id in use plus one. -/
def insert (t : RowTable ρ) (r : ρ) : RowTable ρ where
  rows := t.rows ++ [(t.maxId + 1, r)]
  sorted := by
    refine List.pairwise_append.mpr ⟨t.sorted, List.pairwise_singleton _ _, ?_⟩
    intro a ha b hb
    rw [List.mem_singleton.mp hb]
    have := le_maxId (mem_ids_of_mem (r := a.2) ha)
    simp only
    omega

/-- One `INSERT` for each row, in order. -/
def insertAll (t : RowTable ρ) (rs : List ρ) : RowTable ρ := rs.foldl insert t

/-- `DELETE`: drop the rows that `p` selects. -/
def deleteWhere (t : RowTable ρ) (p : ℕ → ρ → Bool) : RowTable ρ where
  rows := t.rows.filter fun a => !p a.1 a.2
  sorted := t.sorted.sublist List.filter_sublist

/-- `UPDATE`: rewrite every row in place. -/
def update (t : RowTable ρ) (f : ℕ → ρ → ρ) : RowTable ρ where
  rows := t.rows.map fun a => (a.1, f a.1 a.2)
  sorted := by
    rw [List.pairwise_map]
    exact t.sorted

@[simp] theorem rows_empty : (empty : RowTable ρ).rows = [] := rfl

@[simp] theorem ids_empty : (empty : RowTable ρ).ids = [] := rfl

@[simp] theorem rows_insert (t : RowTable ρ) (r : ρ) :
    (t.insert r).rows = t.rows ++ [(t.maxId + 1, r)] := rfl

@[simp] theorem rows_deleteWhere (t : RowTable ρ) (p : ℕ → ρ → Bool) :
    (t.deleteWhere p).rows = t.rows.filter fun a => !p a.1 a.2 := rfl

@[simp] theorem rows_update (t : RowTable ρ) (f : ℕ → ρ → ρ) :
    (t.update f).rows = t.rows.map fun a => (a.1, f a.1 a.2) := rfl

@[simp] theorem ids_update (t : RowTable ρ) (f : ℕ → ρ → ρ) : (t.update f).ids = t.ids := by
  simp [ids, Function.comp_def]

theorem mem_update {t : RowTable ρ} {f : ℕ → ρ → ρ} {i : ℕ} {r : ρ} :
    (i, r) ∈ (t.update f).rows ↔ ∃ r', (i, r') ∈ t.rows ∧ r = f i r' := by
  simp only [rows_update, List.mem_map, Prod.mk.injEq, Prod.exists]
  constructor
  · rintro ⟨j, r', h, rfl, rfl⟩; exact ⟨r', h, rfl⟩
  · rintro ⟨r', h, rfl⟩; exact ⟨i, r', h, rfl, rfl⟩

theorem mem_deleteWhere {t : RowTable ρ} {p : ℕ → ρ → Bool} {i : ℕ} {r : ρ} :
    (i, r) ∈ (t.deleteWhere p).rows ↔ (i, r) ∈ t.rows ∧ p i r = false := by
  simp [rows_deleteWhere, List.mem_filter]

theorem foldr_max_append (l : List ℕ) (n : ℕ) (h : ∀ i ∈ l, i ≤ n) :
    (l ++ [n]).foldr max 0 = n := by
  induction l with
  | nil => simp
  | cons a l ih =>
    rw [List.cons_append, List.foldr_cons, ih fun i hi => h i (List.mem_cons_of_mem _ hi)]
    exact max_eq_right (h a List.mem_cons_self)

theorem maxId_insert (t : RowTable ρ) (r : ρ) : (t.insert r).maxId = t.maxId + 1 := by
  have h : (t.insert r).ids = t.ids ++ [t.maxId + 1] := by simp [ids]
  unfold maxId
  rw [h]
  exact foldr_max_append _ _ fun i hi => (le_maxId hi).trans (Nat.le_succ _)

/-- **The rows of a sequence of inserts** get consecutive ids, from the greatest id in use on. -/
theorem rows_insertAll (t : RowTable ρ) (rs : List ρ) :
    (t.insertAll rs).rows = t.rows ++ (List.range' (t.maxId + 1) rs.length).zip rs := by
  induction rs generalizing t with
  | nil => simp [insertAll]
  | cons r rs ih =>
    have h : t.insertAll (r :: rs) = (t.insert r).insertAll rs := rfl
    rw [h, ih, maxId_insert, rows_insert, List.length_cons, List.range'_succ, List.zip_cons_cons,
      List.append_assoc, List.singleton_append]

/-- A row of `insertAll` is an old row, or one of the new rows under an id that was not in use. -/
theorem mem_insertAll {t : RowTable ρ} {rs : List ρ} {i : ℕ} {r : ρ}
    (h : (i, r) ∈ (t.insertAll rs).rows) :
    (i, r) ∈ t.rows ∨ (∃ j < rs.length, i = t.maxId + 1 + j) ∧ r ∈ rs := by
  rw [rows_insertAll, List.mem_append] at h
  rcases h with h | h
  · exact Or.inl h
  · obtain ⟨h1, h2⟩ := List.of_mem_zip h
    obtain ⟨h3, h4⟩ := List.mem_range'_1.mp h1
    exact Or.inr ⟨⟨i - (t.maxId + 1), by omega, by omega⟩, h2⟩

theorem mem_insertAll_of_mem {t : RowTable ρ} {rs : List ρ} {a : ℕ × ρ} (h : a ∈ t.rows) :
    a ∈ (t.insertAll rs).rows := by
  rw [rows_insertAll]
  exact List.mem_append_left _ h

/-- The `j`-th new row gets the `j`-th id after the greatest one. -/
theorem mem_insertAll_of_getElem {t : RowTable ρ} {rs : List ρ} {j : ℕ} {r : ρ} (hj : j < rs.length)
    (hr : rs[j] = r) : (t.maxId + 1 + j, r) ∈ (t.insertAll rs).rows := by
  rw [rows_insertAll]
  refine List.mem_append_right _ (List.mem_iff_getElem.mpr ⟨j, by simpa using hj, ?_⟩)
  simp [hr]

/-- The new rows, read back without their ids. -/
theorem map_snd_zip_range' (n : ℕ) (rs : List ρ) :
    ((List.range' n rs.length).zip rs).map Prod.snd = rs :=
  List.map_snd_zip (by simp)

/-! ### Rows that belong to an owner -/

section Owner
variable (owner : ρ → ℕ)

/-- The rows of an owner, in id order. -/
def rowsOf (t : RowTable ρ) (o : ℕ) : List ρ :=
  (t.rows.filter fun a => owner a.2 = o).map Prod.snd

/-- The rows of an owner are deleted and others inserted in their place. -/
def replace (t : RowTable ρ) (o : ℕ) (rs : List ρ) : RowTable ρ :=
  (t.deleteWhere fun _ r => owner r = o).insertAll rs

variable {owner}

theorem filter_zip_range' {o n : ℕ} {rs : List ρ} (h : ∀ r ∈ rs, owner r = o) (o' : ℕ) :
    ((List.range' n rs.length).zip rs).filter (fun a => owner a.2 = o') =
      if o' = o then (List.range' n rs.length).zip rs else [] := by
  split_ifs with ho
  · refine List.filter_eq_self.mpr fun a ha => ?_
    have := h a.2 (List.of_mem_zip ha).2
    simp [this, ho]
  · refine List.filter_eq_nil_iff.mpr fun a ha => ?_
    have := h a.2 (List.of_mem_zip ha).2
    simp [this, Ne.symm ho]

variable (owner) in
/-- **Replacing** gives the owner the new rows and leaves the other owners theirs. -/
theorem rowsOf_replace (t : RowTable ρ) {o : ℕ} {rs : List ρ} (h : ∀ r ∈ rs, owner r = o)
    (o' : ℕ) : (t.replace owner o rs).rowsOf owner o' = if o' = o then rs else t.rowsOf owner o' := by
  unfold rowsOf replace
  rw [rows_insertAll, List.filter_append, filter_zip_range' h, rows_deleteWhere,
    List.filter_filter, List.map_append]
  split_ifs with ho
  · have hnil : t.rows.filter (fun a => decide (owner a.2 = o') && !decide (owner a.2 = o)) = [] := by
      refine List.filter_eq_nil_iff.mpr fun a _ => ?_
      simp [ho]
    rw [hnil, map_snd_zip_range']
    rfl
  · rw [List.map_nil, List.append_nil]
    congr 1
    refine List.filter_congr fun a _ => ?_
    by_cases ha : owner a.2 = o'
    · simp [ha, ho]
    · simp [ha]

variable (owner) in
/-- A row after a replacement is one of another owner that was there, or one of the new rows under
an id that was not in use. -/
theorem mem_replace {t : RowTable ρ} {o : ℕ} {rs : List ρ} {i : ℕ} {r : ρ}
    (h : (i, r) ∈ (t.replace owner o rs).rows) :
    (i, r) ∈ t.rows ∧ owner r ≠ o ∨
      (∃ j < rs.length, i = (t.deleteWhere fun _ r => owner r = o).maxId + 1 + j) ∧ r ∈ rs := by
  rcases mem_insertAll h with h | h
  · obtain ⟨h1, h2⟩ := mem_deleteWhere.mp h
    exact Or.inl ⟨h1, by simpa using h2⟩
  · exact Or.inr h

theorem mem_replace_of_ne {t : RowTable ρ} {o : ℕ} {rs : List ρ} {i : ℕ} {r : ρ}
    (h : (i, r) ∈ t.rows) (ho : owner r ≠ o) : (i, r) ∈ (t.replace owner o rs).rows :=
  mem_insertAll_of_mem (mem_deleteWhere.mpr ⟨h, by simpa using ho⟩)

theorem rowsOf_deleteWhere {t : RowTable ρ} {o o' : ℕ} (h : o' ≠ o) :
    (t.deleteWhere fun _ r => owner r = o).rowsOf owner o' = t.rowsOf owner o' := by
  unfold rowsOf
  rw [rows_deleteWhere, List.filter_filter]
  congr 1
  refine List.filter_congr fun a _ => ?_
  by_cases ha : owner a.2 = o'
  · simp [ha, h]
  · simp [ha]

/-- **Every row is listed under its owner**, if all owners are in `os`. -/
theorem perm_rowsOf {os : List ℕ} (hn : os.Nodup) {l : List (ℕ × ρ)} (h : ∀ a ∈ l, owner a.2 ∈ os) :
    l.Perm (os.flatMap fun o => l.filter fun a => owner a.2 = o) := by
  induction os generalizing l with
  | nil =>
    have hl : l = [] := List.eq_nil_iff_forall_not_mem.mpr fun a ha => by simpa using h a ha
    rw [hl]
    simp
  | cons o os ih =>
    rw [List.nodup_cons] at hn
    let rest := l.filter fun a => !decide (owner a.2 = o)
    have hrest : ∀ a ∈ rest, owner a.2 ∈ os := by
      intro a ha
      obtain ⟨ha, hne⟩ := List.mem_filter.mp ha
      exact (List.mem_cons.mp (h a ha)).resolve_left (by simpa using hne)
    -- the rows of the other owners are not among those of the first
    have hsame : ∀ o' ∈ os, (rest.filter fun a => owner a.2 = o') = l.filter fun a => owner a.2 = o' := by
      intro o' ho'
      have hne : o' ≠ o := fun he => hn.1 (he ▸ ho')
      rw [List.filter_filter]
      refine List.filter_congr fun a _ => ?_
      by_cases ha : owner a.2 = o'
      · simp [ha, hne]
      · simp [ha]
    have hperm := ih hn.2 hrest
    rw [List.flatMap_congr hsame] at hperm
    rw [List.flatMap_cons]
    exact (List.filter_append_perm _ l).symm.trans (hperm.append_left _)

end Owner

end RowTable

end BrainEngine.Lib.Rowid
