import BrainEngine.Lib.Windows
import BrainEngine.Rust.Lines
import BrainEngine.Core.Sample
import Mathlib.Order.Interval.Finset.Nat

/-! # Chunks as sliding windows

`chunkText` cuts the lines of a text that is not blank into the windows of `Lib.Windows`
(`chunkText_eq`). Everything else about chunks is read off this closed form: which lines each covers,
what neighbours share, and that the chunks make up the text. -/

namespace BrainEngine.Index.Windows

open BrainEngine.Rust.Str BrainEngine.Rust.Usize BrainEngine.Rust.Lines BrainEngine.Lib.Windows
open BrainEngine.Core BrainEngine.Core.External BrainEngine.Core.Config BrainEngine.Core.Chunking

section Loop
variable {x : Extern} {ls : List Text} {maxLines step : ℕ}

/-- The window reaches the end just if it is the last one. -/
theorem stopAt_eq_length {start : ℕ} :
    stopAt ls maxLines start = ls.length ↔ ls.length ≤ start + maxLines := by
  unfold stopAt
  exact min_eq_right_iff

/-- **The loop** emits the windows from the `k`-th on. -/
theorem chunkLoop_eq (hs : 0 < step) (hw : step ≤ maxLines) : ∀ (fuel k : ℕ),
    k < count maxLines step ls.length → ls.length - k * step ≤ fuel →
      chunkLoop x ls maxLines step fuel (k * step) k =
        (List.range' k (count maxLines step ls.length - k)).map fun j =>
          window x ls maxLines (j * step) j
  | 0, k, hk, hf => by
    have := start_lt hs hw hk
    omega
  | fuel + 1, k, hk, hf => by
    have hstart := start_lt hs hw hk
    have hnext := succ_lt_count (k := k) maxLines hs (by omega : 0 < ls.length)
    rw [chunkLoop, if_pos hstart]
    split_ifs with hlast
    · have hone : count maxLines step ls.length - k = 1 := by
        have := (stopAt_eq_length.mp hlast)
        omega
      rw [hone]
      rfl
    · have hmore : k + 1 < count maxLines step ls.length :=
        hnext.mpr (Nat.lt_of_not_le fun h => hlast (stopAt_eq_length.mpr h))
      have hsucc : k * step + step = (k + 1) * step := (Nat.succ_mul k step).symm
      have hrange : count maxLines step ls.length - k =
          count maxLines step ls.length - (k + 1) + 1 := by omega
      rw [hsucc, chunkLoop_eq hs hw fuel (k + 1) hmore (by rw [← hsucc]; omega), hrange,
        List.range'_succ, List.map_cons]

/-- **No sum of the loop overflows**: a window that is not the last one is shorter than the text. -/
theorem chunkLoopUsize_eq (hw : step ≤ maxLines) (hs : 0 < step) (hls : ls.length < 2 ^ 63)
    (hmax : maxLines < 2 ^ 64) : ∀ (fuel start ordinal : ℕ), ls.length - start ≤ fuel →
      ordinal ≤ start → (start = 0 ∨ maxLines < ls.length) →
        chunkLoopUsize x ls maxLines step (fuel + 1) start ordinal =
          some (chunkLoop x ls maxLines step fuel start ordinal)
  | 0, start, ordinal, hf, ho, hm => by
    rw [chunkLoopUsize, if_neg (by omega)]
    rfl
  | fuel + 1, start, ordinal, hf, ho, hm => by
    by_cases hstart : start < ls.length
    · have hsum : start + maxLines < 2 ^ 64 := by omega
      rw [chunkLoopUsize, if_pos hstart, checkedAdd_of_lt hsum, checkedAdd_of_lt (by omega),
        checkedAdd_of_lt (by omega), chunkLoop, if_pos hstart]
      simp only [Option.bind_eq_bind, Option.bind_some]
      by_cases hlast : stopAt ls maxLines start = ls.length
      · rw [if_pos hlast, if_pos (by exact hlast)]
        rfl
      · have hlt := Nat.lt_of_not_le fun h => hlast (stopAt_eq_length.mpr h)
        rw [if_neg hlast, if_neg (by exact hlast), checkedAdd_of_lt (by omega), Option.bind_some,
          chunkLoopUsize_eq hw hs hls hmax fuel (start + step) (ordinal + 1) (by omega) (by omega)
            (Or.inr (by omega))]
        rfl
    · rw [chunkLoopUsize, if_neg hstart, chunkLoop, if_neg hstart]
      rfl

end Loop

/-! ### What the windows are -/

/-- The lines that a chunk covers. -/
def linesOf (ls : List Text) (c : Chunk) : List Text :=
  (ls.drop (c.startLine - 1)).take (c.endLine + 1 - c.startLine)

/-- The numbers of these lines. -/
def lineNumbers (c : Chunk) : Finset ℕ := Finset.Icc c.startLine c.endLine

/-- `cs` is a window of `maxLines` lines that slides over `ls`, sharing `overlap` lines with the window
before. -/
structure SlidingWindow (ls : List Text) (maxLines overlap : ℕ) (cs : List Chunk) : Prop where
  ordinal : ∀ k (h : k < cs.length), cs[k].ordinal = k
  covers : ∀ k (h : k < cs.length), cs[k].startLine = k * (maxLines - overlap) + 1 ∧
    cs[k].endLine = min (k * (maxLines - overlap) + maxLines) ls.length
  content : ∀ k (h : k < cs.length), cs[k].content = join ['\n'] (linesOf ls cs[k])
  last : ∀ c ∈ cs.getLast?, c.endLine = ls.length
  shared : ∀ k (h : k + 1 < cs.length), (lineNumbers cs[k] ∩ lineNumbers cs[k + 1]).card = overlap
  incomparable : ∀ i j (hi : i < cs.length) (hj : j < cs.length), i ≠ j →
    ¬lineNumbers cs[i] ⊆ lineNumbers cs[j]
  rejoin : rejoin overlap (cs.map (linesOf ls)) = ls

section Spec
variable {x : Extern} {ls : List Text} {maxLines step : ℕ}

/-- The windows over `ls`, as chunks. -/
def windows (x : Extern) (ls : List Text) (maxLines step : ℕ) : List Chunk :=
  (List.range (count maxLines step ls.length)).map fun k => window x ls maxLines (k * step) k

@[simp] theorem length_windows : (windows x ls maxLines step).length = count maxLines step ls.length := by
  simp [windows]

theorem getElem_windows {k : ℕ} (h : k < (windows x ls maxLines step).length) :
    (windows x ls maxLines step)[k] = window x ls maxLines (k * step) k := by
  simp [windows]

theorem linesOf_window (start ordinal : ℕ) :
    linesOf ls (window x ls maxLines start ordinal) = (ls.drop start).take maxLines := by
  simp only [linesOf, window, stopAt, Nat.add_sub_cancel, Nat.add_sub_add_right]
  rw [List.take_eq_take_iff, List.length_drop]
  omega

theorem map_linesOf_windows :
    (windows x ls maxLines step).map (linesOf ls) = pieces maxLines step ls := by
  unfold windows pieces
  rw [List.map_map]
  exact List.map_congr_left fun k _ => linesOf_window _ _

variable (hs : 0 < step) (hn : 0 < ls.length)
include hs hn

/-- A window before the last one is full. -/
theorem endLine_of_next {k : ℕ} (h : k + 1 < count maxLines step ls.length) :
    (window x ls maxLines (k * step) k).endLine = k * step + maxLines ∧
      k * step + maxLines < ls.length := by
  have hlt := (succ_lt_count maxLines hs hn).mp h
  exact ⟨min_eq_left hlt.le, hlt⟩

variable (hw : step ≤ maxLines)
include hw

theorem shared_windows {k : ℕ} (h : k + 1 < count maxLines step ls.length) :
    (lineNumbers (window x ls maxLines (k * step) k) ∩
      lineNumbers (window x ls maxLines ((k + 1) * step) (k + 1))).card = maxLines - step := by
  obtain ⟨he, hlt⟩ := endLine_of_next (x := x) hs hn h
  have hnext : (k + 1) * step = k * step + step := Nat.succ_mul k step
  have hstop : k * step + maxLines ≤ stopAt ls maxLines ((k + 1) * step) := by
    unfold stopAt
    omega
  -- what both cover: from the start of the later one to the end of the earlier one
  have hinter : lineNumbers (window x ls maxLines (k * step) k) ∩
      lineNumbers (window x ls maxLines ((k + 1) * step) (k + 1)) =
        Finset.Icc ((k + 1) * step + 1) (k * step + maxLines) := by
    unfold lineNumbers
    rw [he]
    ext i
    simp only [Finset.mem_inter, Finset.mem_Icc, window]
    omega
  rw [hinter, Nat.card_Icc]
  omega

theorem incomparable_windows {i j : ℕ} (hi : i < count maxLines step ls.length)
    (hj : j < count maxLines step ls.length) (hij : i ≠ j) :
    ¬lineNumbers (window x ls maxLines (i * step) i) ⊆
      lineNumbers (window x ls maxLines (j * step) j) := by
  have hmax : 0 < maxLines := by omega
  obtain ⟨-, hle, -⟩ := window_spec (x := x) hmax (start_lt hs hw hi) i
  intro hsub
  rcases Nat.lt_or_gt_of_ne hij with hlt | hlt
  · -- the first line of the earlier window comes before the later one
    have hmem := hsub (Finset.mem_Icc.mpr ⟨le_rfl, hle⟩)
    have hstart : i * step < j * step := Nat.mul_lt_mul_of_pos_right hlt hs
    have hge := (Finset.mem_Icc.mp hmem).1
    simp only [window] at hge
    omega
  · -- the last line of the later window comes after the earlier one, which is full
    have hmem := hsub (Finset.mem_Icc.mpr ⟨hle, le_rfl⟩)
    have hnext : j + 1 < count maxLines step ls.length := by omega
    obtain ⟨he, hfull⟩ := endLine_of_next (x := x) hs hn hnext
    have hstart : j * step < i * step := Nat.mul_lt_mul_of_pos_right hlt hs
    have hend := (Finset.mem_Icc.mp hmem).2
    rw [he] at hend
    have hstop : (window x ls maxLines (i * step) i).endLine =
        min (i * step + maxLines) ls.length := rfl
    omega

theorem slidingWindow_windows :
    SlidingWindow ls maxLines (maxLines - step) (windows x ls maxLines step) := by
  have hstep : maxLines - (maxLines - step) = step := by omega
  constructor
  · intro k h
    rw [getElem_windows]
    rfl
  · intro k h
    rw [getElem_windows, hstep]
    exact ⟨rfl, rfl⟩
  · intro k h
    rw [getElem_windows]
    simp only [linesOf, window, Nat.add_sub_cancel, Nat.add_sub_add_right]
  · intro c hc
    obtain ⟨m, hm⟩ := Nat.exists_eq_succ_of_ne_zero
      (count_pos maxLines step hn).ne'
    have hlast : c = window x ls maxLines (m * step) m := by
      rw [windows, hm, List.range_succ, List.map_append, List.map_singleton,
        List.getLast?_concat] at hc
      exact (Option.some.inj hc).symm
    rw [hlast]
    exact min_eq_right (le_of_last hs hn hm)
  · intro k h
    rw [getElem_windows, getElem_windows]
    exact shared_windows hs hn hw (by simpa using h)
  · intro i j hi hj hij
    rw [getElem_windows, getElem_windows]
    exact incomparable_windows hs hn hw (by simpa using hi) (by simpa using hj) hij
  · rw [map_linesOf_windows]
    exact rejoin_pieces hs hw ls

end Spec

section
variable {x : Extern} {ls : List Text} {maxLines step : ℕ}

variable (maxLines step) in
theorem endLine_head (hn : 0 < ls.length) :
    (windows x ls maxLines step).head?.map Chunk.endLine = some (min maxLines ls.length) := by
  obtain ⟨m, hm⟩ := Nat.exists_eq_succ_of_ne_zero (count_pos maxLines step hn).ne'
  simp [windows, hm, List.range_succ_eq_map, window, stopAt]

theorem startLine_second (hs : 0 < step) (hw : maxLines < ls.length) :
    (windows x ls maxLines step)[1]?.map Chunk.startLine = some (step + 1) := by
  have hlt : 1 < count maxLines step ls.length := (succ_lt_count (k := 0) maxLines hs (by omega)).mpr (by omega)
  simp [windows, hlt, window]

/-- A text that fits in one window. -/
theorem windows_of_le (hn : 0 < ls.length) (hs : 0 < step) (hw : ls.length ≤ maxLines) :
    windows x ls maxLines step = [window x ls ls.length 0 0] := by
  have hstop : stopAt ls maxLines 0 = stopAt ls ls.length 0 := by
    unfold stopAt
    omega
  simp [windows, count_of_le hs hn hw, window, hstop]

end

/-! ### Chunking -/

section
variable (x : Extern) (text : Text) (cfg : ChunkConfig)

theorem stepOf_pos : 0 < stepOf cfg := by
  unfold stepOf
  dsimp only
  omega

theorem stepOf_le : stepOf cfg ≤ max cfg.maxLines 1 := Nat.sub_le _ _

/-- **The chunks** of a text are the windows over its lines. -/
theorem chunkText_eq (h : ¬Blank text) :
    chunkText x text cfg = windows x (lines text) (max cfg.maxLines 1) (stepOf cfg) := by
  have hne : lines text ≠ [] := fun hnil => h fun c hc => by
    rw [lines_eq_nil.mp hnil] at hc
    cases hc
  have htrim : trim text ≠ [] := fun hnil => h (trim_eq_nil.mp hnil)
  have hn : 0 < (lines text).length := List.length_pos_iff.mpr hne
  have hcount : 0 < count (max cfg.maxLines 1) (stepOf cfg) (lines text).length := count_pos _ _ hn
  have hloop := chunkLoop_eq (x := x) (stepOf_pos cfg) (stepOf_le cfg) (lines text).length 0 hcount
    (by omega)
  have hcond : ((lines text).isEmpty || (trim text).isEmpty) = false := by simp [hne, htrim]
  unfold chunkText
  simp only [hcond, Bool.false_eq_true, if_false]
  rw [Nat.zero_mul] at hloop
  rw [hloop, Nat.sub_zero, ← List.range_eq_range']
  rfl

theorem chunkText_of_blank (h : Blank text) : chunkText x text cfg = [] := by
  unfold chunkText
  simp [trim_eq_nil.mpr h]

/-- Two configurations cut a text of `n` lines in the same places: into a single window, or into
windows of the same length and overlap. -/
def SameWindows (a b : ChunkConfig) (n : ℕ) : Prop :=
  n ≤ max a.maxLines 1 ∧ n ≤ max b.maxLines 1 ∨
    max a.maxLines 1 = max b.maxLines 1 ∧
      min a.overlapLines (max a.maxLines 1 - 1) = min b.overlapLines (max b.maxLines 1 - 1)

/-- **When two configurations give the same chunks.** -/
theorem chunkText_eq_iff (a b : ChunkConfig) : chunkText x text a = chunkText x text b ↔
    Blank text ∨ SameWindows a b (lines text).length := by
  by_cases h : Blank text
  · simp [chunkText_of_blank x text _ h, h]
  have hn : 0 < (lines text).length := List.length_pos_iff.mpr fun hnil => h fun c hc => by
    rw [lines_eq_nil.mp hnil] at hc
    cases hc
  have hstep : ∀ c : ChunkConfig, stepOf c =
      max c.maxLines 1 - min c.overlapLines (max c.maxLines 1 - 1) := fun c => rfl
  rw [chunkText_eq x text a h, chunkText_eq x text b h, or_iff_right h]
  unfold SameWindows
  constructor
  · intro heq
    -- the end of the first chunk gives the length of the windows, the start of the second their step
    have hheada := endLine_head (x := x) (max a.maxLines 1) (stepOf a) hn
    have hfirst := hheada.symm.trans
      ((congrArg (fun cs => cs.head?.map Chunk.endLine) heq).trans (endLine_head _ _ hn))
    have hend := Option.some.inj hfirst
    by_cases hle : (lines text).length ≤ max a.maxLines 1
    · exact Or.inl ⟨hle, by omega⟩
    · have hsecond := (startLine_second (x := x) (stepOf_pos a) (Nat.lt_of_not_le hle)).symm.trans
        ((congrArg (fun cs => cs[1]?.map Chunk.startLine) heq).trans
          (startLine_second (stepOf_pos b) (by omega)))
      have hsame := Option.some.inj hsecond
      rw [hstep, hstep] at hsame
      exact Or.inr ⟨by omega, by omega⟩
  · rintro (⟨ha, hb⟩ | ⟨hmax, hover⟩)
    · rw [windows_of_le hn (stepOf_pos a) ha, windows_of_le hn (stepOf_pos b) hb]
    · rw [hstep, hstep, hover, hmax]

/-- **No sum of `chunk_text` overflows**, and its loop ends, on a text that fits in memory. -/
theorem chunkTextUsize_eq (htext : byteLen text < 2 ^ 63) (hmax : cfg.maxLines < 2 ^ 64) :
    chunkTextUsize x ((lines text).length + 1) text cfg = some (chunkText x text cfg) := by
  have hlen : (lines text).length < 2 ^ 63 := (length_lines_le text).trans_lt htext
  unfold chunkTextUsize chunkText
  dsimp only
  split_ifs
  · rfl
  · exact chunkLoopUsize_eq (stepOf_le cfg) (stepOf_pos cfg) hlen (by omega) _ 0 0 (by omega) le_rfl
      (Or.inl rfl)

/-- **Chunking is an exact sliding window.** On every text that fits in memory, with all parameters:
the loop ends and no sum overflows; there is no chunk just if the text is blank; and otherwise the
chunks are a window that slides over its lines. -/
theorem slidingWindow_chunkText (htext : byteLen text < 2 ^ 63) (hmax : cfg.maxLines < 2 ^ 64) :
    (∃ fuel, chunkTextUsize x fuel text cfg = some (chunkText x text cfg)) ∧
      (chunkText x text cfg = [] ↔ Blank text) ∧
      (¬Blank text → SlidingWindow (lines text) (max cfg.maxLines 1)
        (min cfg.overlapLines (max cfg.maxLines 1 - 1)) (chunkText x text cfg)) := by
  have hwindow : ¬Blank text → SlidingWindow (lines text) (max cfg.maxLines 1)
      (min cfg.overlapLines (max cfg.maxLines 1 - 1)) (chunkText x text cfg) ∧
        chunkText x text cfg ≠ [] := by
    intro h
    have hn : 0 < (lines text).length := List.length_pos_iff.mpr fun hnil => h fun c hc => by
      rw [lines_eq_nil.mp hnil] at hc
      cases hc
    have hoverlap : max cfg.maxLines 1 - stepOf cfg =
        min cfg.overlapLines (max cfg.maxLines 1 - 1) := by
      unfold stepOf
      dsimp only
      omega
    rw [chunkText_eq x text cfg h, ← hoverlap]
    refine ⟨slidingWindow_windows (stepOf_pos cfg) hn (stepOf_le cfg), ?_⟩
    rw [← List.length_pos_iff, length_windows]
    exact count_pos _ _ hn
  refine ⟨⟨_, chunkTextUsize_eq x text cfg htext hmax⟩, ⟨fun h => ?_, chunkText_of_blank x text cfg⟩,
    fun h => (hwindow h).1⟩
  by_contra hb
  exact (hwindow hb).2 h

end

/-- Three lines, two at a time: the middle one is in both chunks. -/
theorem slidingWindow_threeLines :
    SlidingWindow ["a".toList, "b".toList, "c".toList] 2 1
      (chunkText Sample.sample "a\nb\nc".toList { maxLines := 2, overlapLines := 1 }) :=
  (slidingWindow_chunkText Sample.sample "a\nb\nc".toList { maxLines := 2, overlapLines := 1 }
    (by decide) (by decide)).2.2 fun h => absurd (h 'a' (by decide)) (by decide)

end BrainEngine.Index.Windows
