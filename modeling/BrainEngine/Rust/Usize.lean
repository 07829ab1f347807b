import Mathlib.Algebra.Ring.Nat
import Mathlib.Tactic.Common

/-! # Machine integers

Sums of `usize` on a 64-bit machine. Where a function of the engine is modelled with natural numbers,
a second version with these sums shows that none of them overflows. -/

namespace BrainEngine.Rust.Usize

/-- The sum of two `usize`, if it does not overflow. -/
def checkedAdd (a b : ℕ) : Option ℕ := if a + b < 2 ^ 64 then some (a + b) else none

theorem checkedAdd_of_lt {a b : ℕ} (h : a + b < 2 ^ 64) : checkedAdd a b = some (a + b) := if_pos h

end BrainEngine.Rust.Usize
