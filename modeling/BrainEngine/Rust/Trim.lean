import BrainEngine.Rust.Str
import Mathlib.Data.List.DropRight

/-! # What trimming leaves

`trim` and its relatives give a part of the text they are called on, `trim` one that neither begins nor
ends with white space, so that a second `trim` does nothing. -/

namespace BrainEngine.Rust.Trim

open BrainEngine.Rust.Str

variable {p : Char → Bool} {t : Text}

theorem trimEndMatches_isPrefix (p : Char → Bool) (t : Text) : trimEndMatches p t <+: t :=
  List.rdropWhile_prefix p t

theorem trimMatches_isInfix (p : Char → Bool) (t : Text) : trimMatches p t <:+: t :=
  (trimEndMatches_isPrefix p _).isInfix.trans (List.dropWhile_suffix p).isInfix

theorem trim_isInfix (t : Text) : trim t <:+: t := trimMatches_isInfix isWhitespace t

/-- A text that ends in a character of no interest loses nothing at its end. -/
theorem trimEndMatches_eq_self (h : ∀ c, t.getLast? = some c → p c = false) :
    trimEndMatches p t = t := by
  refine List.rdropWhile_eq_self_iff.mpr fun hne => ?_
  have hlast := h (t.getLast hne) (List.getLast?_eq_some_getLast hne)
  simp [hlast]

theorem trimStartMatches_eq_self (h : ∀ c, t.head? = some c → p c = false) :
    trimStartMatches p t = t := by
  cases t with
  | nil => rfl
  | cons c cs =>
    have hc := h c rfl
    simp [trimStartMatches, hc]

theorem trim_eq_self (hhead : ∀ c, t.head? = some c → isWhitespace c = false)
    (hlast : ∀ c, t.getLast? = some c → isWhitespace c = false) : trim t = t := by
  unfold trim trimMatches
  rw [trimStartMatches_eq_self hhead, trimEndMatches_eq_self hlast]

/-- The last character that trimming leaves stays. -/
theorem getLast?_trimEndMatches {c : Char} (h : (trimEndMatches p t).getLast? = some c) :
    p c = false := by
  have hne : List.rdropWhile p t ≠ [] := by
    intro hnil
    unfold trimEndMatches at h
    rw [show (t.reverse.dropWhile p).reverse = [] from hnil] at h
    cases h
  have hlast := List.rdropWhile_last_not p t hne
  have heq : (List.rdropWhile p t).getLast hne = c :=
    Option.some.inj ((List.getLast?_eq_some_getLast hne).symm.trans h)
  rw [heq] at hlast
  exact Bool.not_eq_true _ ▸ hlast

theorem head?_trimStartMatches {c : Char} (h : (trimStartMatches p t).head? = some c) :
    p c = false := by
  have hhead := List.head?_dropWhile_not p t
  unfold trimStartMatches at h
  rw [h] at hhead
  exact hhead

/-- White space in front of a text that has none at its ends. -/
theorem trim_append {front : Text} (hfront : ∀ c ∈ front, isWhitespace c = true)
    (hhead : ∀ c, t.head? = some c → isWhitespace c = false)
    (hlast : ∀ c, t.getLast? = some c → isWhitespace c = false) : trim (front ++ t) = t := by
  have hself := trim_eq_self hhead hlast
  unfold trim trimMatches trimStartMatches at hself ⊢
  rw [List.dropWhile_append_of_pos hfront]
  exact hself

theorem head?_trim {c : Char} (h : (trim t).head? = some c) : isWhitespace c = false := by
  obtain ⟨rest, hrest⟩ := trimEndMatches_isPrefix isWhitespace (trimStartMatches isWhitespace t)
  refine head?_trimStartMatches (t := t) ?_
  rw [← hrest]
  unfold trim trimMatches at h
  rw [List.head?_append, h]
  rfl

theorem getLast?_trim {c : Char} (h : (trim t).getLast? = some c) : isWhitespace c = false :=
  getLast?_trimEndMatches h

/-- **Trimming twice** is trimming once. -/
theorem trim_trim (t : Text) : trim (trim t) = trim t :=
  trim_eq_self (fun _ => head?_trim) fun _ => getLast?_trim

/-! ### Prefixes -/

theorem stripPrefix_eq_some {t pre rest : Text} : stripPrefix t pre = some rest ↔ t = pre ++ rest := by
  unfold stripPrefix
  split_ifs with h
  · obtain ⟨tail, rfl⟩ := List.isPrefixOf_iff_prefix.mp h
    simp [eq_comm]
  · refine iff_of_false (by simp) ?_
    rintro rfl
    exact h (List.isPrefixOf_iff_prefix.mpr (List.prefix_append _ _))

theorem startsWith_iff {t pre : Text} : startsWith t pre = true ↔ pre <+: t :=
  List.isPrefixOf_iff_prefix

theorem trimStartText_isSuffix (pre : Text) : ∀ (n : ℕ) (t : Text), trimStartText pre n t <:+ t
  | 0, t => List.suffix_rfl
  | n + 1, t => by
    unfold trimStartText
    split_ifs
    · exact (trimStartText_isSuffix pre n _).trans (List.drop_suffix _ _)
    · exact List.suffix_rfl

theorem splitFirst_isPrefix (p : Char → Bool) (t : Text) : splitFirst p t <+: t :=
  List.takeWhile_prefix _

theorem firstWord_isInfix {w : Text} (h : firstWord t = some w) : w <:+: t := by
  unfold firstWord at h
  dsimp only at h
  split_ifs at h
  rw [← Option.some.inj h]
  exact (splitFirst_isPrefix _ _).isInfix.trans (List.dropWhile_suffix _).isInfix

/-- What `takeBytes` gives is a beginning of that many bytes. -/
theorem takeBytes_eq_some : ∀ {n : ℕ} {t pre : Text}, takeBytes n t = some pre →
    pre <+: t ∧ byteLen pre = n
  | 0, t, pre, h => by
    rw [takeBytes, Option.some.injEq] at h
    subst h
    exact ⟨List.nil_prefix, rfl⟩
  | n + 1, [], pre, h => by cases h
  | n + 1, c :: cs, pre, h => by
    rw [takeBytes] at h
    split_ifs at h with hc
    obtain ⟨pre', hpre, rfl⟩ := Option.map_eq_some_iff.mp h
    obtain ⟨hp, hlen⟩ := takeBytes_eq_some hpre
    refine ⟨List.cons_prefix_cons.mpr ⟨rfl, hp⟩, ?_⟩
    simp only [byteLen, List.map_cons, List.sum_cons] at hlen ⊢
    omega

end BrainEngine.Rust.Trim
