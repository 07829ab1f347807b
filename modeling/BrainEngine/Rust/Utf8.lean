import BrainEngine.Lib.Utf8
import BrainEngine.Rust.Str

/-! # Texts and their bytes

`fromUtf8` reads back what a text is written as. -/

namespace BrainEngine.Rust.Utf8

open BrainEngine.Rust.Str
open BrainEngine.Lib.Utf8 (encode encode_cons toNat_ofNat)

variable {n v lo : ℕ} {a b b' b'' : UInt8} {c : Char} {s : List UInt8}

/-! ### Bytes -/

theorem ofNat_lt_iff (h : n < 256) (k : UInt8) : UInt8.ofNat n < k ↔ n < k.toNat := by
  rw [UInt8.lt_iff_toNat_lt, toNat_ofNat h]

theorem isCont_ofNat (v : ℕ) : isCont (UInt8.ofNat (v % 0x40 + 0x80)) = true := by
  have hlow : (0x80 : UInt8).toNat = 0x80 := rfl
  have hhigh : (0xC0 : UInt8).toNat = 0xC0 := rfl
  unfold isCont
  rw [Bool.and_eq_true, decide_eq_true_iff, decide_eq_true_iff, ofNat_lt_iff (by omega),
    UInt8.le_iff_toNat_le, toNat_ofNat (by omega)]
  omega

theorem contBits_ofNat (v : ℕ) : contBits (UInt8.ofNat (v % 0x40 + 0x80)) = v % 0x40 := by
  unfold contBits
  rw [toNat_ofNat (by omega)]
  omega

theorem scalar_eq (hv : v.isValidChar) (hlo : lo ≤ v) (h : n = v) :
    scalar lo n = some (Char.ofNat v) := by
  subst h
  exact if_pos ⟨hlo, hv⟩

/-! ### Characters of one to four bytes -/

theorem fromUtf8_one (h : a < 0x80) : fromUtf8 (a :: s) = (fromUtf8 s).map (Char.ofNat a.toNat :: ·) := by
  rw [fromUtf8.eq_def]
  exact if_pos h

theorem fromUtf8_two (h1 : ¬a < 0x80) (h2 : ¬a < 0xC0) (h3 : a < 0xE0) (hb : isCont b = true)
    (hc : scalar 0x80 (a.toNat % 32 * 64 + contBits b) = some c) :
    fromUtf8 (a :: b :: s) = (fromUtf8 s).map (c :: ·) := by
  rw [fromUtf8.eq_def]
  simp only [h1, h2, h3, hb, hc, if_true, if_false, Bool.not_true, Bool.false_eq_true]
  rfl

theorem fromUtf8_three (h1 : ¬a < 0x80) (h2 : ¬a < 0xC0) (h3 : ¬a < 0xE0) (h4 : a < 0xF0)
    (hb : isCont b = true) (hb' : isCont b' = true)
    (hc : scalar 0x800 (a.toNat % 16 * 4096 + contBits b * 64 + contBits b') = some c) :
    fromUtf8 (a :: b :: b' :: s) = (fromUtf8 s).map (c :: ·) := by
  rw [fromUtf8.eq_def]
  simp only [h1, h2, h3, h4, hb, hb', hc, if_true, if_false, Bool.not_true, Bool.false_eq_true]
  rfl

theorem fromUtf8_four (h1 : ¬a < 0x80) (h2 : ¬a < 0xC0) (h3 : ¬a < 0xE0) (h4 : ¬a < 0xF0)
    (h5 : ¬0xF8 ≤ a) (hb : isCont b = true) (hb' : isCont b' = true) (hb'' : isCont b'' = true)
    (hc : scalar 0x10000 (a.toNat % 8 * 262144 + contBits b * 4096 + contBits b' * 64 +
      contBits b'') = some c) :
    fromUtf8 (a :: b :: b' :: b'' :: s) = (fromUtf8 s).map (c :: ·) := by
  rw [fromUtf8.eq_def]
  simp only [h1, h2, h3, h4, h5, hb, hb', hb'', hc, if_false, Bool.not_true, Bool.false_or,
    decide_false, Bool.false_eq_true]
  rfl

/-- **A character** is read back. -/
theorem fromUtf8_encodeChar (c : Char) (s : List UInt8) :
    fromUtf8 (String.utf8EncodeChar c ++ s) = (fromUtf8 s).map (c :: ·) := by
  have hvalid : c.val.toNat.isValidChar := c.valid
  have hbound : c.val.toNat < 0xD800 ∨ 0xDFFF < c.val.toNat ∧ c.val.toNat < 0x110000 := c.valid
  have hc : Char.ofNat c.val.toNat = c := Char.ofNat_toNat c
  have h80 : (0x80 : UInt8).toNat = 0x80 := rfl
  have hC0 : (0xC0 : UInt8).toNat = 0xC0 := rfl
  have hE0 : (0xE0 : UInt8).toNat = 0xE0 := rfl
  have hF0 : (0xF0 : UInt8).toNat = 0xF0 := rfl
  have hF8 : (0xF8 : UInt8).toNat = 0xF8 := rfl
  unfold String.utf8EncodeChar
  generalize c.val.toNat = v at hvalid hbound hc
  subst hc
  dsimp only
  split_ifs with h1 h2 h3
  · have ha : UInt8.ofNat v < 0x80 := (ofNat_lt_iff (by omega) _).mpr (by omega)
    rw [List.singleton_append, fromUtf8_one ha, toNat_ofNat (by omega)]
  · refine fromUtf8_two ?_ ?_ ?_ (isCont_ofNat _) (scalar_eq hvalid (by omega) ?_)
    · rw [ofNat_lt_iff (by omega)]; omega
    · rw [ofNat_lt_iff (by omega)]; omega
    · rw [ofNat_lt_iff (by omega)]; omega
    · rw [toNat_ofNat (by omega), contBits_ofNat]; omega
  · refine fromUtf8_three ?_ ?_ ?_ ?_ (isCont_ofNat _) (isCont_ofNat _)
      (scalar_eq hvalid (by omega) ?_)
    · rw [ofNat_lt_iff (by omega)]; omega
    · rw [ofNat_lt_iff (by omega)]; omega
    · rw [ofNat_lt_iff (by omega)]; omega
    · rw [ofNat_lt_iff (by omega)]; omega
    · rw [toNat_ofNat (by omega), contBits_ofNat, contBits_ofNat]; omega
  · refine fromUtf8_four ?_ ?_ ?_ ?_ ?_ (isCont_ofNat _) (isCont_ofNat _) (isCont_ofNat _)
      (scalar_eq hvalid (by omega) ?_)
    · rw [ofNat_lt_iff (by omega)]; omega
    · rw [ofNat_lt_iff (by omega)]; omega
    · rw [ofNat_lt_iff (by omega)]; omega
    · rw [ofNat_lt_iff (by omega)]; omega
    · rw [UInt8.not_le, ofNat_lt_iff (by omega)]; omega
    · rw [toNat_ofNat (by omega), contBits_ofNat, contBits_ofNat, contBits_ofNat]; omega

/-- **A text** is read back. -/
theorem fromUtf8_encode (t : Text) : fromUtf8 (encode t) = some t := by
  induction t with
  | nil => rfl
  | cons c t ih => rw [encode_cons, fromUtf8_encodeChar, ih, Option.map_some]

end BrainEngine.Rust.Utf8
