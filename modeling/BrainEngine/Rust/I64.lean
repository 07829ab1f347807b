import Mathlib.Algebra.Group.Int.Defs
import Mathlib.Algebra.Ring.Nat
import Mathlib.Tactic.Common

/-! # Signed machine integers

The arithmetic of `i64`, with no result where it overflows, and the casts to and from the unsigned types. A
value of `i64` is an integer, one of `u64` or `u32` a natural number. -/

namespace BrainEngine.Rust.I64

/-- The values of `i64`. -/
def InI64 (n : ℤ) : Prop := -2 ^ 63 ≤ n ∧ n < 2 ^ 63

instance (n : ℤ) : Decidable (InI64 n) := by
  unfold InI64; infer_instance

def checked (n : ℤ) : Option ℤ := if InI64 n then some n else none

def add (a b : ℤ) : Option ℤ := checked (a + b)
def sub (a b : ℤ) : Option ℤ := checked (a - b)
def mul (a b : ℤ) : Option ℤ := checked (a * b)

/-- Division, which rounds to zero. -/
def div (a b : ℤ) : Option ℤ := if b = 0 then none else checked (a.tdiv b)

/-- `u64 as i64` -/
def ofU64 (n : ℕ) : ℤ := (n : ℤ).bmod (2 ^ 64)

/-- `i64 as u64` -/
def asU64 (n : ℤ) : ℕ := (n % 2 ^ 64).toNat

/-- `i64 as u32` -/
def asU32 (n : ℤ) : ℕ := (n % 2 ^ 32).toNat

variable {a b c : ℤ}

theorem checked_of_mem (h : InI64 a) : checked a = some a := if_pos h

/-! The results that fit, given by their values. -/

theorem add_eq (h : InI64 c) (heq : a + b = c) : add a b = some c := by
  subst heq
  exact checked_of_mem h

theorem sub_eq (h : InI64 c) (heq : a - b = c) : sub a b = some c := by
  subst heq
  exact checked_of_mem h

theorem mul_eq (h : InI64 c) (heq : a * b = c) : mul a b = some c := by
  subst heq
  exact checked_of_mem h

theorem div_eq (ha : 0 ≤ a) (hb : 0 < b) (h : InI64 c) (heq : a / b = c) : div a b = some c := by
  subst heq
  unfold div
  rw [if_neg (Int.ne_of_gt hb), Int.tdiv_eq_ediv_of_nonneg ha]
  exact checked_of_mem h

theorem ofU64_of_lt {n : ℕ} (h : n < 2 ^ 63) : ofU64 n = n := by
  unfold ofU64
  exact Int.bmod_eq_of_le (by omega) (by omega)

theorem asU64_of_mem (h : 0 ≤ a) (h' : a < 2 ^ 63) : asU64 a = a.toNat := by
  unfold asU64
  rw [Int.emod_eq_of_lt h (by omega)]

theorem asU32_of_mem (h : 0 ≤ a) (h' : a < 2 ^ 32) : asU32 a = a.toNat := by
  unfold asU32
  rw [Int.emod_eq_of_lt h h']

end BrainEngine.Rust.I64
