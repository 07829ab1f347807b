import BrainEngine.Lib.Paths
import Mathlib.Data.List.Chain

/-! # Texts that several writers append to

A file of records that is appended to in single writes: an item, or the separator behind it. Nothing keeps
the two writes of one writer together. `splitOn_content` says what stands between the separators of the text,
`alone_eq_items_iff` when that is one item at a time. -/

namespace BrainEngine.Lib.Pieces

open BrainEngine.Lib.Paths

inductive Piece (β : Type)
  | item (b : β)
  | separator

variable {α β : Type}

/-- The text that the writes have left. -/
def content (sep : α) (text : β → List α) (ps : List (Piece β)) : List α :=
  ps.flatMap fun
    | .item b => text b
    | .separator => [sep]

def items (ps : List (Piece β)) : List β :=
  ps.filterMap fun
    | .item b => some b
    | .separator => none

/-- What stands between the separators. -/
def groups : List (Piece β) → List (List β)
  | [] => [[]]
  | .separator :: ps => [] :: groups ps
  | .item b :: ps => (groups ps).modifyHead (b :: ·)

/-- The item of a group of one. -/
def single : List β → Option β
  | [b] => some b
  | _ => none

/-- The items that have a line of their own. -/
def alone (ps : List (Piece β)) : List β := (groups ps).filterMap single

/-- One of the two is a separator. -/
def Apart (p q : Piece β) : Prop := p = .separator ∨ q = .separator

variable {sep : α} {text : β → List α} {ps : List (Piece β)}

theorem items_append (ps qs : List (Piece β)) : items (ps ++ qs) = items ps ++ items qs :=
  List.filterMap_append

theorem content_append (ps qs : List (Piece β)) :
    content sep text (ps ++ qs) = content sep text ps ++ content sep text qs := List.flatMap_append

theorem exists_groups (ps : List (Piece β)) : ∃ g gs, groups ps = g :: gs := by
  induction ps with
  | nil => exact ⟨[], [], rfl⟩
  | cons p ps ih =>
    obtain ⟨g, gs, hg⟩ := ih
    cases p with
    | separator => exact ⟨[], groups ps, rfl⟩
    | item b => exact ⟨b :: g, gs, by rw [groups, hg, List.modifyHead_cons]⟩

theorem flatten_groups (ps : List (Piece β)) : (groups ps).flatten = items ps := by
  induction ps with
  | nil => rfl
  | cons p ps ih =>
    cases p with
    | separator =>
      show [] ++ (groups ps).flatten = items ps
      exact ih
    | item b =>
      obtain ⟨g, gs, hg⟩ := exists_groups ps
      have hitems : items (.item b :: ps) = b :: items ps := rfl
      rw [hitems, ← ih, groups, hg, List.modifyHead_cons, List.flatten_cons, List.flatten_cons,
        List.cons_append]

/-- What stands in front of the first separator is longer by a text without separators. -/
theorem splitOn_append_free [DecidableEq α] {a : List α} (ha : sep ∉ a) (t : List α) :
    (a ++ t).splitOn sep = (t.splitOn sep).modifyHead (a ++ ·) := by
  induction a with
  | nil =>
    show t.splitOn sep = (t.splitOn sep).modifyHead id
    rw [List.modifyHead_id, id]
  | cons c a ih =>
    rw [List.mem_cons, not_or] at ha
    rw [List.cons_append, List.splitOn_cons_eq_if_modifyHead, if_neg (by simpa using Ne.symm ha.1),
      ih ha.2, List.modifyHead_modifyHead]
    rfl

/-- **Between the separators of the text** stand the texts of the items, one group at a time. -/
theorem splitOn_content [DecidableEq α] (h : ∀ b ∈ items ps, sep ∉ text b) :
    (content sep text ps).splitOn sep = (groups ps).map (List.flatMap text) := by
  induction ps with
  | nil => rfl
  | cons p ps ih =>
    cases p with
    | separator =>
      have hcons : content sep text (.separator :: ps) = sep :: content sep text ps := rfl
      rw [hcons, List.splitOn_cons_eq_if_modifyHead, if_pos (by simp), ih h]
      rfl
    | item b =>
      have hb : sep ∉ text b := h b List.mem_cons_self
      have hps : ∀ b ∈ items ps, sep ∉ text b := fun c hc => h c (List.mem_cons_of_mem b hc)
      have hcons : content sep text (.item b :: ps) = text b ++ content sep text ps := rfl
      obtain ⟨g, gs, hg⟩ := exists_groups ps
      rw [hcons, splitOn_append_free hb, ih hps, groups, hg]
      rfl

/-! ### Items alone -/

theorem filterMap_sublist_flatten (gs : List (List β)) :
    (gs.filterMap single).Sublist gs.flatten := by
  induction gs with
  | nil => exact .slnil
  | cons g gs ih =>
    match g with
    | [] => exact ih
    | [b] => exact ih.cons_cons b
    | b :: c :: g => exact ih.trans (List.sublist_append_right (b :: c :: g) gs.flatten)

theorem alone_sublist (ps : List (Piece β)) : (alone ps).Sublist (items ps) := by
  rw [← flatten_groups]
  exact filterMap_sublist_flatten (groups ps)

theorem filterMap_eq_flatten_iff (gs : List (List β)) :
    (gs.filterMap single) = gs.flatten ↔ ∀ g ∈ gs, g.length ≤ 1 := by
  induction gs with
  | nil => simp
  | cons g gs ih =>
    rw [List.forall_mem_cons, ← ih]
    match g with
    | [] => exact ⟨fun h => ⟨Nat.zero_le 1, h⟩, fun h => h.2⟩
    | [b] => exact ⟨fun h => ⟨Nat.le_refl 1, List.tail_eq_of_cons_eq h⟩, fun h => congrArg (b :: ·) h.2⟩
    | b :: c :: g =>
      constructor
      · intro h
        have hlen := (filterMap_sublist_flatten gs).length_le
        have heq := congrArg List.length h
        have hsum : ((b :: c :: g) :: gs).flatten.length = g.length + 2 + gs.flatten.length := by
          rw [List.flatten_cons, List.length_append]
          rfl
        rw [hsum] at heq
        have hskip : (((b :: c :: g) :: gs).filterMap single).length =
            (gs.filterMap single).length := rfl
        omega
      · rintro ⟨hlen, -⟩
        have htwo : (b :: c :: g).length = g.length + 2 := rfl
        omega

theorem length_le_iff_isChain (ps : List (Piece β)) :
    (∀ g ∈ groups ps, g.length ≤ 1) ↔ ps.IsChain Apart := by
  induction ps with
  | nil => simp [groups]
  | cons p ps ih =>
    cases p with
    | separator =>
      have hall : (∀ g ∈ groups (.separator :: ps), g.length ≤ 1) ↔ ∀ g ∈ groups ps, g.length ≤ 1 := by
        simp [groups]
      rw [hall, ih, List.isChain_cons]
      exact ⟨fun h => ⟨fun _ _ => .inl rfl, h⟩, fun h => h.2⟩
    | item b =>
      rw [List.isChain_cons, ← ih]
      match ps with
      | [] => simp [groups]
      | .separator :: ps =>
        simp [groups, Apart]
      | .item c :: ps =>
        obtain ⟨g, gs, hg⟩ := exists_groups ps
        have happart : ¬Apart (.item b) (.item c) := by
          rintro (h | h)
          · cases h
          · cases h
        have htwo : ∃ g ∈ groups (.item b :: .item c :: ps), 2 ≤ g.length :=
          ⟨b :: c :: g, by simp [groups, hg], Nat.le_add_left 2 g.length⟩
        constructor
        · intro h
          obtain ⟨g, hmem, hlen⟩ := htwo
          have hone := h g hmem
          omega
        · rintro ⟨h, -⟩
          exact absurd (h (.item c) rfl) happart

/-- **When every item stands alone**: no item has been written directly behind another. -/
theorem alone_eq_items_iff (ps : List (Piece β)) : alone ps = items ps ↔ ps.IsChain Apart := by
  rw [← flatten_groups, ← length_le_iff_isChain]
  exact filterMap_eq_flatten_iff (groups ps)

end BrainEngine.Lib.Pieces
