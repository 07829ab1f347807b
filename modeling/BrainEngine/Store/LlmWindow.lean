import BrainEngine.Core.Llm
import Mathlib.Algebra.Ring.Int.Defs

/-! # How long a block lasts

The hours of a block are multiplied in `u64`, cast to `i64` and added to the clock; the remaining time
is a difference of `i64`. `block_iff` says where none of this wraps around, which is exactly where a
block lasts as long as asked, and where `is_blocked` and `secs_remaining` agree. -/

namespace BrainEngine.Store.LlmWindow

open BrainEngine.Rust.Str BrainEngine.Lib.Keyed BrainEngine.Core.External BrainEngine.Core.Llm

/-- From `now` on, the provider is blocked for exactly this many hours. -/
def Lasts (state : LlmState) (provider : Text) (hours : UInt64) (now : Int64) : Prop :=
  ∀ t, now ≤ t →
    (isBlocked state provider t = true ↔ t.toInt < now.toInt + 3600 * hours.toNat)

/-- The two readers of a provider's entry agree. -/
def Agree (state : LlmState) (provider : Text) (t : Int64) : Prop :=
  isBlocked state provider t = true ↔ (secsRemaining state provider t).isSome = true

variable {state : LlmState} {provider : Text} {hours : UInt64} {now t : Int64}

/-! ### The end of a block -/

theorem toInt_toInt64 (w : UInt64) : w.toInt64.toInt = (w.toNat : ℤ).bmod (2 ^ 64) :=
  BitVec.toInt_eq_toNat_bmod w.toBitVec

theorem toInt_until (now : Int64) (hours : UInt64) :
    (now + (hours * 3600).toInt64).toInt = (now.toInt + 3600 * hours.toNat).bmod (2 ^ 64) := by
  have hmul : ((hours * 3600).toNat : ℤ) = (3600 * hours.toNat : ℤ) % (2 ^ 64 : ℕ) := by
    rw [UInt64.toNat_mul, Int.natCast_mod, mul_comm]
    push_cast
    rfl
  rw [Int64.toInt_add, toInt_toInt64, Int.add_bmod_bmod, hmul, Int.add_bmod, Int.emod_bmod,
    ← Int.add_bmod]

theorem isBlocked_blockCall (cw : UInt64) (t : Int64) :
    isBlocked ((blockCall cw provider (some hours) now).apply state) provider t = true ↔
      t.toInt < (now.toInt + 3600 * hours.toNat).bmod (2 ^ 64) := by
  rw [isBlocked_apply, ← toInt_until, ← Int64.lt_iff_toInt_lt]
  simp [blockCall, Call.provider, Call.entry, blockEntry]

/-- **A block lasts as long as asked** exactly if it ends before the clock does. -/
theorem lasts_iff (cw : UInt64) (hnow : 0 ≤ now) :
    Lasts ((blockCall cw provider (some hours) now).apply state) provider hours now ↔
      now.toInt + 3600 * hours.toNat < 2 ^ 63 := by
  have h0 : 0 ≤ now.toInt := Int64.le_iff_toInt_le.mp hnow
  constructor
  · intro h
    by_contra hle
    -- the last moment of the clock lies before the end that was asked for
    have hlast := (h Int64.maxValue (Int64.le_maxValue now)).mpr (by
      rw [Int64.toInt_maxValue]
      omega)
    rw [isBlocked_blockCall cw, ← toInt_until, Int64.toInt_maxValue] at hlast
    have hbound := Int64.toInt_lt (now + (hours * 3600).toInt64)
    omega
  · intro h t ht
    rw [isBlocked_blockCall cw, Int.bmod_eq_of_le (by omega) (by omega)]

/-! ### The two readers -/

theorem sub_pos_iff {b t : Int64} (ht : 0 ≤ t) :
    (t < b ↔ 0 < b - t) ↔ t.toInt - 2 ^ 63 ≤ b.toInt := by
  have h0 : 0 ≤ t.toInt := Int64.le_iff_toInt_le.mp ht
  have hb := Int64.le_toInt b
  have hb' := Int64.toInt_lt b
  have ht' := Int64.toInt_lt t
  rw [Int64.lt_iff_toInt_lt, Int64.lt_iff_toInt_lt, Int64.toInt_sub, Int64.toInt_zero]
  by_cases h : t.toInt - 2 ^ 63 ≤ b.toInt
  · rw [Int.bmod_eq_of_le (by omega) (by omega)]
    omega
  · have hwrap : (b.toInt - t.toInt).bmod (2 ^ 64) = b.toInt - t.toInt + 2 ^ 64 := by
      rw [← Int.add_bmod_right, Int.bmod_eq_of_le (by omega) (by omega)]
      rfl
    rw [hwrap]
    omega

/-- **The readers agree** exactly if the difference of an entry does not wrap around. -/
theorem agree_iff (ht : 0 ≤ t) : Agree state provider t ↔
    ∀ b, state.get? provider = some b → t.toInt - 2 ^ 63 ≤ b.blockedUntil.toInt := by
  unfold Agree isBlocked secsRemaining
  cases state.get? provider with
  | none => simp
  | some b =>
    simp only [Option.any_some, decide_eq_true_eq, Option.bind_some, Option.some.injEq, forall_eq',
      ← sub_pos_iff ht]
    refine iff_congr Iff.rfl ?_
    split_ifs with h
    · simp [h]
    · simp [h]

/-- **Where blocks last as long as asked.** Whatever is in the file, as far as it can be read:
`brain llm block` blocks the provider for exactly the hours asked for if and only if the block ends
before the last second of `i64`, and leaves the other entries as they are. The two readers of any entry
agree if and only if the entry is at most `2 ^ 63` seconds before the time of reading. -/
theorem block_iff {path : Text} {file : StateFile} (hread : read path file = .ok state)
    (claudeWindowHours : UInt64) (provider : Text) (hours : UInt64) (hnow : 0 ≤ now) (s : LlmState)
    (p : Text) (ht : 0 ≤ t) :
    ∃ file' state',
      (blockCall claudeWindowHours provider (some hours) now).perform path file = .ok file' ∧
      read path file' = .ok state' ∧
      (Lasts state' provider hours now ↔ now.toInt + 3600 * hours.toNat < 2 ^ 63) ∧
      (∀ q, q ≠ provider → state'.get? q = state.get? q) ∧
      (Agree s p t ↔ ∀ b, s.get? p = some b → t.toInt - 2 ^ 63 ≤ b.blockedUntil.toInt) := by
  refine ⟨write ((blockCall claudeWindowHours provider (some hours) now).apply state), _, ?_, rfl,
    lasts_iff claudeWindowHours hnow, fun q hq => ?_, agree_iff ht⟩
  · unfold Call.perform
    rw [hread]
  · rw [get?_apply]
    exact if_neg hq

/-- Five hours from 1000 on. -/
theorem lasts_fiveHours : ∃ file' state',
    (blockCall 5 "claude".toList (some 5) 1000).perform [] .missing = .ok file' ∧
      read [] file' = .ok state' ∧ Lasts state' "claude".toList 5 1000 ∧
        Agree .empty "deepseek".toList 1000 := by
  have hread : read [] .missing = .ok KeyTable.empty := rfl
  have h0 : (0 : Int64) ≤ 1000 := by decide
  obtain ⟨file', state', h1, h2, h3, -, h5⟩ :=
    block_iff hread 5 "claude".toList 5 h0 .empty "deepseek".toList h0
  exact ⟨file', state', h1, h2, h3.mpr (by decide), h5.mpr (by simp)⟩

/-- **A block of 2562047788015216 hours** ends in the past, and **an entry of the least `i64`** is no
block, but has time remaining. -/
theorem not_lasts_and_not_agree :
    (¬∀ (state : LlmState) (cw : UInt64) (provider : Text) (hours : UInt64) (now : Int64), 0 ≤ now →
      Lasts ((blockCall cw provider (some hours) now).apply state) provider hours now) ∧
    ¬∀ (state : LlmState) (provider : Text) (t : Int64), 0 ≤ t → Agree state provider t := by
  constructor
  · intro h
    have hlasts := h .empty 5 "claude".toList 2562047788015216 1700000000 (by decide)
    exact absurd ((hlasts 1700000000 (by decide)).mpr (by decide)) (by decide)
  · intro h
    have hagree := h (KeyTable.empty.upsert "claude".toList ⟨Int64.minValue, []⟩) "claude".toList 1
      (by decide)
    exact absurd (hagree.mpr (by decide)) (by decide)

end BrainEngine.Store.LlmWindow
