import BrainEngine.Rust.Str

/-! # Positions in a text

The characters of a text with the bytes they begin at, the slices between two such positions, and words. -/

namespace BrainEngine.Rust.Spans

open BrainEngine.Rust.Str

/-- The characters of a text that begins at byte `n`. -/
def charIndicesFrom : ℕ → Text → List (ℕ × Char)
  | _, [] => []
  | n, c :: cs => (n, c) :: charIndicesFrom (n + c.utf8Size) cs

/-- `str::char_indices`. -/
def charIndices (t : Text) : List (ℕ × Char) := charIndicesFrom 0 t

/-- What comes after the first `n` bytes, if they end where a character ends. -/
def dropBytes : ℕ → Text → Option Text
  | 0, t => some t
  | _ + 1, [] => none
  | n + 1, c :: cs => if c.utf8Size ≤ n + 1 then dropBytes (n + 1 - c.utf8Size) cs else none

/-- `&t[start..stop]`. There is no result where Rust panics. -/
def slice (start stop : ℕ) (t : Text) : Option Text :=
  if start ≤ stop then (dropBytes start t).bind (takeBytes (stop - start)) else none

/-- `str::ends_with`. -/
def endsWith (t suf : Text) : Bool := suf.isSuffixOf t

/-- `str::split_whitespace`. -/
def splitWhitespace (t : Text) : List Text := (t.splitOnP isWhitespace).filter fun w => !w.isEmpty

@[simp] theorem byteLen_nil : byteLen [] = 0 := rfl

@[simp] theorem byteLen_cons (c : Char) (t : Text) : byteLen (c :: t) = c.utf8Size + byteLen t := List.sum_cons

@[simp] theorem byteLen_append (a b : Text) : byteLen (a ++ b) = byteLen a + byteLen b := by
  unfold byteLen
  rw [List.map_append, List.sum_append]

theorem dropBytes_append : ∀ a b : Text, dropBytes (byteLen a) (a ++ b) = some b
  | [], b => by simp [dropBytes]
  | c :: a, b => by
    have hpos := c.utf8Size_pos
    obtain ⟨n, hn⟩ : ∃ n, byteLen (c :: a) = n + 1 :=
      ⟨byteLen (c :: a) - 1, by rw [byteLen_cons]; omega⟩
    have hlen : n + 1 - c.utf8Size = byteLen a := by
      rw [byteLen_cons] at hn
      omega
    rw [hn, List.cons_append, dropBytes, if_pos (by rw [byteLen_cons] at hn; omega), hlen]
    exact dropBytes_append a b

theorem takeBytes_append : ∀ a b : Text, takeBytes (byteLen a) (a ++ b) = some a
  | [], b => by simp [takeBytes]
  | c :: a, b => by
    have hpos := c.utf8Size_pos
    obtain ⟨n, hn⟩ : ∃ n, byteLen (c :: a) = n + 1 :=
      ⟨byteLen (c :: a) - 1, by rw [byteLen_cons]; omega⟩
    have hlen : n + 1 - c.utf8Size = byteLen a := by
      rw [byteLen_cons] at hn
      omega
    rw [hn, List.cons_append, takeBytes, if_pos (by rw [byteLen_cons] at hn; omega), hlen,
      takeBytes_append a b]
    rfl

/-- **A slice** between the positions of two characters. -/
theorem slice_append (a w b : Text) :
    slice (byteLen a) (byteLen a + byteLen w) (a ++ (w ++ b)) = some w := by
  unfold slice
  rw [if_pos (Nat.le_add_right _ _), dropBytes_append, Option.bind_some, Nat.add_sub_cancel_left]
  exact takeBytes_append w b

example : slice 1 4 "aéb€".toList = some "éb".toList := by decide

example : slice 1 2 "aéb€".toList = none := by decide

end BrainEngine.Rust.Spans
