import BrainEngine.Js.Values
import BrainEngine.Lib.Paths
import Mathlib.Data.List.DropRight

/-! # Lines of JavaScript's strings -/

namespace BrainEngine.Js.Text

open BrainEngine.Js.Values BrainEngine.Lib.Paths

/-- `\s`, which is what `trimEnd` takes off as well: white space and line terminators. -/
def isSpace (c : UInt16) : Bool :=
  (0x09 ≤ c && c ≤ 0x0D) || c == 0x20 || c == 0xA0 || c == 0x1680 || (0x2000 ≤ c && c ≤ 0x200A) ||
    c == 0x2028 || c == 0x2029 || c == 0x202F || c == 0x205F || c == 0x3000 || c == 0xFEFF

def trimEnd (s : JsString) : JsString := s.rdropWhile isSpace

/-- `split('\n')`. -/
def splitLines (s : JsString) : List JsString := s.splitOn 0x0A

/-- `join('\n')`. -/
def joinLines (lines : List JsString) : JsString := render 0x0A lines

/-! ### Trimming -/

@[simp] theorem trimEnd_nil : trimEnd [] = [] := List.rdropWhile_nil isSpace

@[simp] theorem joinLines_singleton (l : JsString) : joinLines [l] = l := by
  show [0x0A].intercalate [l] = l
  exact List.intercalate_singleton

theorem joinLines_concat {lines : List JsString} (h : lines ≠ []) (l : JsString) :
    joinLines (lines ++ [l]) = joinLines lines ++ 0x0A :: l := by
  unfold joinLines
  rw [render_append h (List.cons_ne_nil l [])]
  exact congrArg (fun s => render 0x0A lines ++ 0x0A :: s) (joinLines_singleton l)

theorem trimEnd_trimEnd (s : JsString) : trimEnd (trimEnd s) = trimEnd s :=
  List.rdropWhile_idempotent isSpace s

/-- What the end of a list is trimmed of is not there. -/
theorem mem_rdropWhile {α : Type} (p : α → Bool) {ls : List α} {a : α} (h : p a = false) :
    a ∈ ls.rdropWhile p ↔ a ∈ ls := by
  have hsplit := List.rdropWhile_append_rtakeWhile (p := p) (l := ls)
  refine ⟨fun ha => (List.rdropWhile_prefix p ls).subset ha, fun ha => ?_⟩
  rw [← hsplit, List.mem_append] at ha
  refine ha.resolve_right fun hr => ?_
  rw [List.mem_rtakeWhile_imp hr] at h
  cases h

theorem rdropWhile_append {α : Type} (p : α → Bool) {a b : List α} (h : a.rdropWhile p = a) :
    (a ++ b).rdropWhile p = a ++ b.rdropWhile p := by
  induction b using List.reverseRecOn with
  | nil => rw [List.append_nil, List.rdropWhile_nil, List.append_nil, h]
  | append_singleton b x ih =>
    rw [← List.append_assoc]
    by_cases hx : p x = true
    · rw [List.rdropWhile_concat_pos _ _ _ hx, List.rdropWhile_concat_pos _ _ _ hx, ih]
    · rw [List.rdropWhile_concat_neg _ _ _ hx, List.rdropWhile_concat_neg _ _ _ hx, List.append_assoc]

theorem map_rdropWhile {α β : Type} (p : β → Bool) (f : α → β) (ls : List α) :
    (ls.rdropWhile (p ∘ f)).map f = (ls.map f).rdropWhile p := by
  have hrev : (ls.map f).reverse = ls.reverse.map f := List.map_reverse.symm
  unfold List.rdropWhile
  rw [List.map_reverse, hrev, List.dropWhile_map]

/-- Of a text without white space at its end nothing is taken, whatever stands in front of it. -/
theorem trimEnd_append (a : JsString) {s : JsString} (hs : trimEnd s = s) (hne : s ≠ []) :
    trimEnd (a ++ s) = a ++ s := by
  refine List.rdropWhile_eq_self_iff.mpr fun h => ?_
  have hlast := List.rdropWhile_eq_self_iff.mp hs hne
  rw [List.getLast_append_of_ne_nil h hne]
  exact hlast

/-- **Lines without white space at their ends** lose no more than the empty ones behind the last. -/
theorem trimEnd_joinLines {lines : List JsString} (h : ∀ l ∈ lines, trimEnd l = l) :
    trimEnd (joinLines lines) = joinLines (lines.rdropWhile List.isEmpty) := by
  induction lines using List.reverseRecOn with
  | nil => rfl
  | append_singleton lines l ih =>
    have hl : trimEnd l = l := h l (by simp)
    have hlines : ∀ l ∈ lines, trimEnd l = l := fun l hl => h l (List.mem_append_left _ hl)
    by_cases hnil : lines = []
    · subst hnil
      rw [List.nil_append, joinLines_singleton, hl, List.rdropWhile_singleton]
      split_ifs with he
      · exact List.isEmpty_iff.mp he
      · exact (joinLines_singleton l).symm
    · have happ := joinLines_concat hnil l
      by_cases he : l = []
      · subst he
        rw [happ, List.rdropWhile_concat_pos _ _ _ rfl, ← ih hlines]
        exact List.rdropWhile_concat_pos _ _ _ rfl
      · rw [List.rdropWhile_concat_neg _ _ _ (by simpa using he), happ]
        have hcons : joinLines lines ++ 0x0A :: l = (joinLines lines ++ [0x0A]) ++ l := by simp
        rw [hcons]
        exact trimEnd_append _ hl he

/-! ### Lines -/

theorem joinLines_splitLines (s : JsString) : joinLines (splitLines s) = s := render_splitOn s

/-- A line break between two texts separates their lines. -/
theorem splitLines_append (a b : JsString) : splitLines (a ++ 0x0A :: b) = splitLines a ++ splitLines b :=
  List.splitOn_append_cons_self a b

/-- A text without line breaks is a line. -/
theorem splitLines_line {l : JsString} (h : 0x0A ∉ l) : splitLines l = [l] := by
  have hfree : ∀ n ∈ [l], 0x0A ∉ n := fun n hn => by
    rw [List.mem_singleton.mp hn]
    exact h
  have hnamed : Named (0x0A : UInt16) [l] := ⟨List.cons_ne_nil l [], hfree⟩
  have hsplit := hnamed.splitOn_render
  rwa [show render 0x0A [l] = l from joinLines_singleton l] at hsplit

/-- The lines of joined texts are the lines of each. -/
theorem splitLines_joinLines {ts : List JsString} (h : ts ≠ []) :
    splitLines (joinLines ts) = ts.flatMap splitLines := by
  induction ts using List.reverseRecOn with
  | nil => exact absurd rfl h
  | append_singleton ts t ih =>
    rw [List.flatMap_append, List.flatMap_singleton]
    by_cases hts : ts = []
    · rw [hts, List.nil_append, joinLines_singleton, List.flatMap_nil, List.nil_append]
    · rw [joinLines_concat hts, splitLines_append, ih hts]

end BrainEngine.Js.Text
