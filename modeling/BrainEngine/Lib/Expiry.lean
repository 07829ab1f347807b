import Mathlib.Order.Lattice
import Mathlib.Data.Set.Defs
import Mathlib.Data.List.Induction
import Mathlib.Tactic.Common

/-! # Values that expire

A timed map: values are put under keys until a deadline, or for good, and cleared all at once. What it
holds follows from the events alone: the last put under a key since the last clear. -/

namespace BrainEngine.Lib.Expiry

variable {κ ρ τ : Type} [LinearOrder τ]

/-- A value with this deadline is there at `t`. -/
def live (deadline : Option τ) (t : τ) : Bool := deadline.all fun d => t < d

inductive Event (κ ρ τ : Type)
  | put (k : κ) (r : ρ) (deadline : Option τ)
  | clear

section
variable [DecidableEq κ]

/-- What an event makes of the value under `k`. -/
def apply (k : κ) (o : Option (ρ × Option τ)) : Event κ ρ τ → Option (ρ × Option τ)
  | .put k' r d => if k' = k then some (r, d) else o
  | .clear => none

/-- The last put under `k` since the last clear. -/
def last (es : List (Event κ ρ τ)) (k : κ) : Option (ρ × Option τ) := es.foldl (apply k) none

/-- The keys whose value is there at `t`. -/
def held (es : List (Event κ ρ τ)) (t : τ) : Set κ :=
  {k | ∃ r d, last es k = some (r, d) ∧ live d t = true}

omit [LinearOrder τ] in
theorem last_append (es : List (Event κ ρ τ)) (e : Event κ ρ τ) (k : κ) :
    last (es ++ [e]) k = apply k (last es k) e := by
  simp [last]

omit [LinearOrder τ] in
/-- Only what was put is held. -/
theorem put_of_last {es : List (Event κ ρ τ)} {k : κ} {r : ρ} {d : Option τ}
    (h : last es k = some (r, d)) : .put k r d ∈ es := by
  induction es using List.reverseRecOn with
  | nil => cases h
  | append_singleton es e ih =>
    rw [last_append] at h
    cases e with
    | clear => cases h
    | put k' r' d' =>
      simp only [apply] at h
      split_ifs at h with hk
      · cases h
        subst hk
        exact List.mem_append_right _ (List.mem_singleton_self _)
      · exact List.mem_append_left _ (ih h)

end

end BrainEngine.Lib.Expiry
