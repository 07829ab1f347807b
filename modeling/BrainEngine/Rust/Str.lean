import Mathlib.Algebra.Ring.Nat
import Mathlib.Data.Char
import Mathlib.Data.List.Basic
import Mathlib.Tactic.Common

/-! # Rust's strings

A text is the list of its characters. The functions are those of Rust's `str`, `String` and
`String::from_utf8` that the engine calls, under Rust's names; positions and lengths that Rust counts
in bytes are counted in bytes of the UTF-8 encoding here. -/

namespace BrainEngine.Rust.Str

/-- A Rust `String`. -/
abbrev Text := List Char

/-! ### Characters -/

/-- `char::is_whitespace`: the Unicode property `White_Space`. -/
def isWhitespace (c : Char) : Bool :=
  let n := c.toNat
  (9 ≤ n && n ≤ 13) || n == 0x20 || n == 0x85 || n == 0xA0 || n == 0x1680 ||
    (0x2000 ≤ n && n ≤ 0x200A) || n == 0x2028 || n == 0x2029 || n == 0x202F || n == 0x205F ||
    n == 0x3000

/-- `str::len`: the number of bytes. -/
def byteLen (t : Text) : ℕ := (t.map Char.utf8Size).sum

/-- `str::to_ascii_lowercase`. -/
def toAsciiLowercase (t : Text) : Text := t.map Char.toLower

/-- `str::contains`, of characters or of bytes: the pattern is somewhere in it. -/
def mentions {α : Type} [BEq α] (pattern s : List α) : Bool := s.tails.any pattern.isPrefixOf

/-! ### Lines -/

/-- A line without the `\r` before its `\n`; the line is given backwards. -/
def dropCr : Text → Text
  | '\r' :: cs => cs
  | cs => cs

/-- `lines` with the current line, backwards, in `acc`. Only a line that its `\n` ends loses a `\r`,
and there is no empty line after the last `\n`. -/
def linesFrom : Text → Text → List Text
  | acc, [] => if acc.isEmpty then [] else [acc.reverse]
  | acc, '\n' :: cs => (dropCr acc).reverse :: linesFrom [] cs
  | acc, c :: cs => linesFrom (c :: acc) cs

/-- `str::lines`. -/
def lines (t : Text) : List Text := linesFrom [] t

/-- `[&str]::join`. -/
def join (sep : Text) (ts : List Text) : Text := sep.intercalate ts

/-! ### Prefixes and trimming -/

/-- `str::trim_start_matches` for a set of characters. -/
def trimStartMatches (p : Char → Bool) (t : Text) : Text := t.dropWhile p

/-- `str::trim_end_matches` for a set of characters. -/
def trimEndMatches (p : Char → Bool) (t : Text) : Text := (t.reverse.dropWhile p).reverse

/-- `str::trim_matches` for a set of characters. -/
def trimMatches (p : Char → Bool) (t : Text) : Text := trimEndMatches p (trimStartMatches p t)

/-- `str::trim`. -/
def trim (t : Text) : Text := trimMatches isWhitespace t

/-- `str::starts_with`. -/
def startsWith (t pre : Text) : Bool := pre.isPrefixOf t

/-- `str::strip_prefix`. -/
def stripPrefix (t pre : Text) : Option Text :=
  if pre.isPrefixOf t then some (t.drop pre.length) else none

/-- `trim_start_matches` for a nonempty text, which it removes as often as it stands in front; `n`
bounds the number of times. -/
def trimStartText (pre : Text) : ℕ → Text → Text
  | 0, t => t
  | n + 1, t => if pre.isPrefixOf t then trimStartText pre n (t.drop pre.length) else t

/-- `split(p).next()`: what stands before the first character of `p`. -/
def splitFirst (p : Char → Bool) (t : Text) : Text := t.takeWhile fun c => !p c

/-- `split_whitespace().next()`. -/
def firstWord (t : Text) : Option Text :=
  let w := splitFirst isWhitespace (trimStartMatches isWhitespace t)
  if w.isEmpty then none else some w

/-- The first `n` bytes, if they end where a character ends. -/
def takeBytes : ℕ → Text → Option Text
  | 0, _ => some []
  | _ + 1, [] => none
  | n + 1, c :: cs =>
    if c.utf8Size ≤ n + 1 then (takeBytes (n + 1 - c.utf8Size) cs).map (c :: ·) else none

/-- `String::truncate`. There is no result where Rust panics: `n` is inside a character. -/
def truncate (n : ℕ) (t : Text) : Option Text :=
  if n ≤ byteLen t then takeBytes n t else some t

/-- **There is a cut after `n` bytes** just if the text has a beginning of `n` bytes. -/
theorem isSome_takeBytes : ∀ (n : ℕ) (t : Text),
    (takeBytes n t).isSome ↔ ∃ pre suf, t = pre ++ suf ∧ byteLen pre = n
  | 0, t => by
    simp only [takeBytes, Option.isSome_some, true_iff]
    exact ⟨[], t, rfl, rfl⟩
  | n + 1, [] => by
    simp [takeBytes, byteLen]
  | n + 1, c :: cs => by
    rw [takeBytes]
    split_ifs with h
    · rw [Option.isSome_map, isSome_takeBytes]
      constructor
      · rintro ⟨pre, suf, rfl, hlen⟩
        refine ⟨c :: pre, suf, rfl, ?_⟩
        simp only [byteLen, List.map_cons, List.sum_cons] at hlen ⊢
        omega
      · rintro ⟨_ | ⟨d, pre⟩, suf, heq, hlen⟩
        · simp [byteLen] at hlen
        · obtain ⟨rfl, rfl⟩ := List.cons.inj heq
          refine ⟨pre, suf, rfl, ?_⟩
          simp only [byteLen, List.map_cons, List.sum_cons] at hlen ⊢
          omega
    · refine iff_of_false (by simp) ?_
      rintro ⟨_ | ⟨d, pre⟩, suf, heq, hlen⟩
      · simp [byteLen] at hlen
      · obtain ⟨rfl, rfl⟩ := List.cons.inj heq
        simp only [byteLen, List.map_cons, List.sum_cons] at hlen
        omega

/-! ### Numbers -/

/-- `usize::to_string`. -/
def ofNat (n : ℕ) : Text := Nat.toDigits 10 n

/-- A number without the `+` in front. -/
def dropPlus : Text → Text
  | '+' :: ds => ds
  | ds => ds

/-- `str::parse::<usize>().ok()` on a 64-bit machine. -/
def parseUsize (t : Text) : Option ℕ :=
  let ds := dropPlus t
  if ds.isEmpty then none
  else if ds.all Char.isDigit then
    let n := Nat.ofDigitChars 10 ds 0
    if n < 2 ^ 64 then some n else none
  else none

/-- **Reading back what was written.** -/
theorem parseUsize_ofNat {n : ℕ} (h : n < 2 ^ 64) : parseUsize (ofNat n) = some n := by
  have hd : ∀ c ∈ ofNat n, c.isDigit := fun c hc =>
    Nat.isDigit_of_mem_toDigits (by decide) (by decide) hc
  have hne : (ofNat n).isEmpty = false := by
    simp [ofNat]
  have hp : dropPlus (ofNat n) = ofNat n := by
    unfold dropPlus
    split
    · next ds heq =>
      have := hd '+' (by rw [heq]; exact List.mem_cons_self)
      simp at this
    · rfl
  have ha : (ofNat n).all Char.isDigit = true := List.all_eq_true.mpr hd
  have hv : Nat.ofDigitChars 10 (ofNat n) 0 = n := Nat.ofDigitChars_ten_toDigits
  simp only [parseUsize, hp, hne, ha, hv, if_pos h, Bool.false_eq_true, if_true, if_false]

/-! ### UTF-8 -/

/-- A continuation byte. -/
def isCont (b : UInt8) : Bool := 0x80 ≤ b && b < 0xC0

/-- The six bits of a continuation byte. -/
def contBits (b : UInt8) : ℕ := b.toNat % 64

/-- The character with number `n`, if that is a scalar value that needs this many bytes. -/
def scalar (lo n : ℕ) : Option Char :=
  if lo ≤ n ∧ n.isValidChar then some (Char.ofNat n) else none

/-- `String::from_utf8(bytes).ok()`: well-formed UTF-8 and nothing else. -/
def fromUtf8 : List UInt8 → Option Text
  | [] => some []
  | a :: s =>
    if a < 0x80 then (fromUtf8 s).map (Char.ofNat a.toNat :: ·)
    else if a < 0xC0 then none
    else match s with
      | [] => none
      | b :: s =>
        if !isCont b then none
        else if a < 0xE0 then do
          let c ← scalar 0x80 (a.toNat % 32 * 64 + contBits b)
          (fromUtf8 s).map (c :: ·)
        else match s with
          | [] => none
          | b' :: s =>
            if !isCont b' then none
            else if a < 0xF0 then do
              let c ← scalar 0x800 (a.toNat % 16 * 4096 + contBits b * 64 + contBits b')
              (fromUtf8 s).map (c :: ·)
            else match s with
              | [] => none
              | b'' :: s =>
                if !isCont b'' || 0xF8 ≤ a then none
                else do
                  let c ← scalar 0x10000
                    (a.toNat % 8 * 262144 + contBits b * 4096 + contBits b' * 64 + contBits b'')
                  (fromUtf8 s).map (c :: ·)

example : fromUtf8 [0x61, 0xC3, 0xA9, 0xE2, 0x82, 0xAC, 0xF0, 0x9F, 0x98, 0x80] =
    some "aé€😀".toList := by decide

example : lines "a\r\nb\n\nc\r".toList = ["a".toList, "b".toList, [], "c\r".toList] := by decide

end BrainEngine.Rust.Str
