import Mathlib.Data.List.Basic
import Mathlib.Data.List.Nodup
import Mathlib.Tactic.Common

/-! # Tables with a primary key

A `KeyTable` is a table whose rows are inserted under keys of the caller's choice, no two under the
same one. `INSERT OR REPLACE` deletes the row under the key and appends the new one, `ON CONFLICT DO
UPDATE` rewrites it where it is, `INSERT OR IGNORE` leaves it. -/

namespace BrainEngine.Lib.Keyed

/-- A table of rows `ρ` under keys `κ`. -/
structure KeyTable (κ ρ : Type) where
  rows : List (κ × ρ)
  nodup : (rows.map Prod.fst).Nodup

namespace KeyTable
variable {κ ρ : Type}

/-- The table without rows. -/
def empty : KeyTable κ ρ := ⟨[], List.nodup_nil⟩

/-- The keys in use. -/
def keys (t : KeyTable κ ρ) : List κ := t.rows.map Prod.fst

/-- `DELETE`: drop the rows that `p` selects. -/
def deleteWhere (t : KeyTable κ ρ) (p : κ → ρ → Bool) : KeyTable κ ρ where
  rows := t.rows.filter fun a => !p a.1 a.2
  nodup := (List.filter_sublist.map Prod.fst).nodup t.nodup

variable {t : KeyTable κ ρ} {k j : κ} {r : ρ} {p : κ → ρ → Bool}

/-- **A key names one row.** -/
theorem row_unique {a b : ρ} (ha : (k, a) ∈ t.rows) (hb : (k, b) ∈ t.rows) : a = b :=
  (Prod.mk.inj (List.inj_on_of_nodup_map t.nodup ha hb rfl)).2

@[simp] theorem rows_empty : (empty : KeyTable κ ρ).rows = [] := rfl

@[simp] theorem keys_empty : (empty : KeyTable κ ρ).keys = [] := rfl

theorem mem_deleteWhere {a : κ × ρ} :
    a ∈ (t.deleteWhere p).rows ↔ a ∈ t.rows ∧ p a.1 a.2 = false := by
  simp [deleteWhere, List.mem_filter]

variable [DecidableEq κ]

/-- The row under a key. -/
def get? (t : KeyTable κ ρ) (k : κ) : Option ρ := (t.rows.find? fun a => a.1 = k).map Prod.snd

/-- `INSERT OR REPLACE`. -/
def replace (t : KeyTable κ ρ) (k : κ) (r : ρ) : KeyTable κ ρ where
  rows := t.rows.filter (fun a => a.1 ≠ k) ++ [(k, r)]
  nodup := by
    rw [List.map_append, List.map_singleton]
    refine List.nodup_append.mpr ⟨(List.filter_sublist.map Prod.fst).nodup t.nodup,
      List.nodup_singleton _, fun a ha b hb he => ?_⟩
    rw [List.mem_singleton.mp hb] at he
    obtain ⟨c, hc, rfl⟩ := List.mem_map.mp ha
    exact absurd he (by simpa using (List.mem_filter.mp hc).2)

theorem keys_overwrite (l : List (κ × ρ)) :
    (l.map fun a => if a.1 = k then (k, r) else a).map Prod.fst = l.map Prod.fst := by
  rw [List.map_map]
  refine List.map_congr_left fun a _ => ?_
  simp only [Function.comp_apply]
  split_ifs with h
  · exact h.symm
  · rfl

/-- `ON CONFLICT DO UPDATE`. -/
def upsert (t : KeyTable κ ρ) (k : κ) (r : ρ) : KeyTable κ ρ :=
  if h : k ∈ t.rows.map Prod.fst then
    { rows := t.rows.map fun a => if a.1 = k then (k, r) else a
      nodup := by rw [keys_overwrite]; exact t.nodup }
  else
    { rows := t.rows ++ [(k, r)]
      nodup := by
        rw [List.map_append, List.map_singleton]
        refine List.nodup_append.mpr ⟨t.nodup, List.nodup_singleton _, fun a ha b hb he => h ?_⟩
        rw [List.mem_singleton.mp hb] at he
        have hk : a = k := he
        exact hk ▸ ha }

/-- Whether a key is in use. -/
def hasKey (t : KeyTable κ ρ) (k : κ) : Bool := decide (k ∈ t.keys)

@[simp] theorem hasKey_eq_true : t.hasKey k = true ↔ k ∈ t.keys := decide_eq_true_iff

/-- `INSERT OR IGNORE`. -/
def insertIgnore (t : KeyTable κ ρ) (k : κ) (r : ρ) : KeyTable κ ρ :=
  if h : k ∈ t.keys then t
  else
    { rows := t.rows ++ [(k, r)]
      nodup := by
        rw [List.map_append, List.map_singleton]
        refine List.nodup_append.mpr ⟨t.nodup, List.nodup_singleton _, fun a ha b hb he => h ?_⟩
        rw [List.mem_singleton.mp hb] at he
        have hk : a = k := he
        exact hk ▸ ha }

/-- `UPDATE` of the row under a key. -/
def modify (t : KeyTable κ ρ) (k : κ) (f : ρ → ρ) : KeyTable κ ρ where
  rows := t.rows.map fun a => (a.1, if a.1 = k then f a.2 else a.2)
  nodup := by
    rw [List.map_map]
    exact t.nodup

@[simp] theorem keys_modify (f : ρ → ρ) : (t.modify k f).keys = t.keys := by
  simp [keys, modify, Function.comp_def]

theorem mem_keys_insertIgnore : j ∈ (t.insertIgnore k r).keys ↔ j ∈ t.keys ∨ j = k := by
  unfold insertIgnore
  split_ifs with h
  · constructor
    · exact Or.inl
    · rintro (hj | rfl)
      · exact hj
      · exact h
  · simp [keys]

theorem get?_eq_some : t.get? k = some r ↔ (k, r) ∈ t.rows := by
  simp only [get?, Option.map_eq_some_iff]
  constructor
  · rintro ⟨⟨j, r'⟩, h, rfl⟩
    have hj : j = k := by simpa using List.find?_some h
    rw [← hj]
    exact List.mem_of_find?_eq_some h
  · intro h
    cases hf : t.rows.find? fun a => a.1 = k with
    | none => exact absurd (List.find?_eq_none.mp hf _ h) (by simp)
    | some a =>
      obtain ⟨j, r'⟩ := a
      have hj : j = k := by simpa using List.find?_some hf
      subst hj
      exact ⟨_, rfl, row_unique (List.mem_of_find?_eq_some hf) h⟩

/-- What a table holds under a key, from its rows. -/
theorem get?_eq_of_mem_iff {o : Option ρ} (h : ∀ r, (k, r) ∈ t.rows ↔ o = some r) : t.get? k = o := by
  ext r
  rw [get?_eq_some]
  exact h r

@[simp] theorem get?_empty : (empty : KeyTable κ ρ).get? k = none := rfl

theorem mem_replace {a : κ × ρ} :
    a ∈ (t.replace k r).rows ↔ a ∈ t.rows ∧ a.1 ≠ k ∨ a = (k, r) := by
  simp [replace, List.mem_filter]

theorem get?_replace (j : κ) : (t.replace k r).get? j = if j = k then some r else t.get? j := by
  refine get?_eq_of_mem_iff fun r' => ?_
  rw [mem_replace]
  split_ifs with h
  · simp [h, eq_comm]
  · rw [get?_eq_some]
    simp [h]

theorem get?_deleteWhere (j : κ) :
    (t.deleteWhere p).get? j = (t.get? j).filter fun r => !p j r := by
  refine get?_eq_of_mem_iff fun r' => ?_
  rw [mem_deleteWhere, Option.filter_eq_some_iff, get?_eq_some]
  simp

theorem mem_upsert {a : κ × ρ} :
    a ∈ (t.upsert k r).rows ↔ a ∈ t.rows ∧ a.1 ≠ k ∨ a = (k, r) := by
  obtain ⟨i, r'⟩ := a
  unfold upsert
  split_ifs with hk
  · obtain ⟨b, hb, hbk⟩ := List.mem_map.mp hk
    simp only [List.mem_map]
    constructor
    · rintro ⟨c, hc, h⟩
      split_ifs at h with hck
      · exact Or.inr h.symm
      · subst h
        exact Or.inl ⟨hc, hck⟩
    · rintro (⟨h, hi⟩ | h)
      · exact ⟨(i, r'), h, if_neg hi⟩
      · exact ⟨b, hb, by rw [if_pos hbk, h]⟩
  · rw [List.mem_append, List.mem_singleton]
    refine or_congr_left ⟨fun h => ⟨h, ?_⟩, And.left⟩
    rintro rfl
    exact hk (List.mem_map.mpr ⟨_, h, rfl⟩)

theorem get?_upsert (j : κ) : (t.upsert k r).get? j = if j = k then some r else t.get? j := by
  refine get?_eq_of_mem_iff fun r' => ?_
  rw [mem_upsert]
  split_ifs with h
  · simp [h, eq_comm]
  · rw [get?_eq_some]
    simp [h]

end KeyTable

end BrainEngine.Lib.Keyed
