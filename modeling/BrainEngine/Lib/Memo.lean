import Mathlib.Tactic.Common

/-! # Derived values under a fingerprint

A derived value is stored with a fingerprint of what it was derived from and derived anew only when the
fingerprint changes. The store is right after a round exactly if the inputs that it did not tell apart
have the same derived value (`settled_iff`). -/

namespace BrainEngine.Lib.Memo

variable {ι κ ν : Type} [DecidableEq κ] (fp : ι → κ) (gen : ι → ν)

/-- The stored value that belongs to an input. -/
def ideal (i : ι) : ν × κ := (gen i, fp i)

/-- One round: what is stored then, after what was stored before. -/
def refresh (stored : Option (ν × κ)) (i : ι) : ν × κ :=
  match stored with
  | some v => if v.2 = fp i then v else ideal fp gen i
  | none => ideal fp gen i

/-- The store belongs to the input; nothing is stored where there is no input. -/
def Settled (stored : Option (ν × κ)) (i : Option ι) : Prop := stored = i.map (ideal fp gen)

variable {fp gen} {stored : Option (ν × κ)} {i j : Option ι}

@[simp] theorem snd_refresh (stored : Option (ν × κ)) (i : ι) : (refresh fp gen stored i).2 = fp i := by
  unfold refresh
  split
  · split_ifs with h
    · exact h
    · rfl
  · rfl

/-- What is stored under the fingerprint of the input stays. -/
theorem refresh_of_eq {v : ν × κ} {i : ι} (h : v.2 = fp i) : refresh fp gen (some v) i = v := if_pos h

/-- **One round** settles the store exactly if no two inputs with one fingerprint differ in what is
derived from them. -/
theorem settled_iff (h : Settled fp gen stored i) :
    Settled fp gen (j.map (refresh fp gen stored)) j ↔
      ∀ a ∈ i, ∀ b ∈ j, fp a = fp b → gen a = gen b := by
  unfold Settled at h ⊢
  subst h
  rcases j with _ | b
  · simp
  · rcases i with _ | a
    · simp [refresh]
    · simp only [Option.map_some, Option.some.injEq, Option.mem_def, forall_eq']
      unfold refresh ideal
      dsimp only
      split_ifs with hf
      · simp [hf]
      · simp [hf]

end BrainEngine.Lib.Memo
