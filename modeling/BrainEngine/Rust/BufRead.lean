import BrainEngine.Lib.Buffered
import BrainEngine.Rust.Utf8

/-! # Lines of a stream of bytes

`read_line` of the standard library and `next_line` of Tokio, on a stream that arrives in pieces. Both read
up to a newline byte, which is never a part of another character, and only then decode. -/

namespace BrainEngine.Rust.BufRead

open BrainEngine.Rust.Str BrainEngine.Rust.Utf8 BrainEngine.Lib.Buffered
open BrainEngine.Lib.Utf8 (encode encode_cons encode_append toNat_ofNat)

/-- `BufRead::read_line`: a line with its end, empty at the end of the stream, and what is left. There is no
result if the bytes are not UTF-8. -/
def readLine (pieces : List (List UInt8)) : Option (Text × List (List UInt8)) :=
  (fromUtf8 (readUntil 0x0A pieces).1).map fun t => (t, (readUntil 0x0A pieces).2)

/-- A line without its end. -/
def stripEnd (t : Text) : Text :=
  if t.getLast? = some '\n' then
    if t.dropLast.getLast? = some '\r' then t.dropLast.dropLast else t.dropLast
  else t

/-- `Lines::next_line`: `some none` is the end of the stream. -/
def nextLine (pieces : List (List UInt8)) : Option (Option (Text × List (List UInt8))) :=
  (readLine pieces).map fun r => if r.1 = [] then none else some (stripEnd r.1, r.2)

/-! ### The newline byte -/

theorem newline_mem_encodeChar {c : Char} (h : (0x0A : UInt8) ∈ String.utf8EncodeChar c) : c = '\n' := by
  have hbound : c.val.toNat < 0xD800 ∨ 0xDFFF < c.val.toNat ∧ c.val.toNat < 0x110000 := c.valid
  have hc : Char.ofNat c.val.toNat = c := Char.ofNat_toNat c
  have hbyte : ∀ n, n < 256 → (0x0A : UInt8) = UInt8.ofNat n → n = 0x0A := by
    intro n hn he
    have := congrArg UInt8.toNat he
    rw [toNat_ofNat hn] at this
    exact this.symm
  unfold String.utf8EncodeChar at h
  generalize c.val.toNat = v at hbound hc h
  subst hc
  dsimp only at h
  split_ifs at h with h1 h2 h3
  · have hv := hbyte v (by omega) (List.mem_singleton.mp h)
    rw [hv]
  · simp only [List.mem_cons, List.not_mem_nil, or_false] at h
    rcases h with h | h
    all_goals
      have := hbyte _ (by omega) h
      omega
  · simp only [List.mem_cons, List.not_mem_nil, or_false] at h
    rcases h with h | h | h
    all_goals
      have := hbyte _ (by omega) h
      omega
  · simp only [List.mem_cons, List.not_mem_nil, or_false] at h
    rcases h with h | h | h | h
    all_goals
      have := hbyte _ (by omega) h
      omega

theorem newline_notMem_encode {t : Text} (h : '\n' ∉ t) : (0x0A : UInt8) ∉ encode t := by
  intro hmem
  obtain ⟨c, hc, hbyte⟩ := List.mem_flatMap.mp hmem
  exact h (newline_mem_encodeChar hbyte ▸ hc)

/-! ### Streams of lines -/

variable {t : Text} {pieces : List (List UInt8)} {rest : List UInt8}

/-- **A line is read whole**, wherever the stream is cut. -/
theorem readLine_eq (ht : '\n' ∉ t) (h : pieces.flatten = encode (t ++ ['\n']) ++ rest) :
    ∃ pieces', readLine pieces = some (t ++ ['\n'], pieces') ∧ pieces'.flatten = rest := by
  have hsplit : pieces.flatten = encode t ++ 0x0A :: rest := by
    rw [h, encode_append, List.append_assoc]
    rfl
  obtain ⟨h1, h2⟩ := readUntil_delim (newline_notMem_encode ht) hsplit
  have hbytes : (readUntil 0x0A pieces).1 = encode (t ++ ['\n']) := by
    rw [h1, encode_append]
    rfl
  refine ⟨_, ?_, h2⟩
  unfold readLine
  rw [hbytes, fromUtf8_encode, Option.map_some]

theorem stripEnd_newline (h : t.getLast? ≠ some '\r') : stripEnd (t ++ ['\n']) = t := by
  unfold stripEnd
  rw [List.getLast?_append_of_ne_nil _ (by simp), List.dropLast_concat]
  simp [h]

/-- **The next line** is what the client sent. -/
theorem nextLine_eq (ht : '\n' ∉ t) (hr : t.getLast? ≠ some '\r')
    (h : pieces.flatten = encode (t ++ ['\n']) ++ rest) :
    ∃ pieces', nextLine pieces = some (some (t, pieces')) ∧ pieces'.flatten = rest := by
  obtain ⟨pieces', h1, h2⟩ := readLine_eq ht h
  refine ⟨pieces', ?_, h2⟩
  unfold nextLine
  rw [h1, Option.map_some, if_neg (by simp), stripEnd_newline hr]

end BrainEngine.Rust.BufRead
