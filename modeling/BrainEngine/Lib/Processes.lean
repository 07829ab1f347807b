import BrainEngine.Lib.Machine
import Mathlib.Logic.Function.Basic

/-! # Processes that share a state

Any number of processes, numbered, each with a place in its own code, take turns on one shared state.
An assertion about a process and the shared state holds throughout if the steps of that process keep it
and the steps of the others do not disturb it; `Reaches.assertion` asks for just these two. -/

namespace BrainEngine.Lib.Processes

open BrainEngine.Lib.Machine

/-- The shared state, and where each process is. -/
structure Pool (σ β : Type) where
  shared : σ
  places : ℕ → β

section
variable {σ β α : Type} (step : ℕ → σ → β → α → Option (σ × β))

/-- One step of process `p`. -/
def turn (c : Pool σ β) (m : ℕ × α) : Option (Pool σ β) :=
  (step m.1 c.shared (c.places m.1) m.2).map fun d =>
    ⟨d.1, Function.update c.places m.1 d.2⟩

variable {step}

theorem turn_eq_some {c c' : Pool σ β} {m : ℕ × α} : turn step c m = some c' ↔
    ∃ d, step m.1 c.shared (c.places m.1) m.2 = some d ∧
      c' = ⟨d.1, Function.update c.places m.1 d.2⟩ := by
  unfold turn
  rw [Option.map_eq_some_iff]
  simp only [eq_comm]

/-- One step keeps an assertion about every process, if it keeps that of the process that moves and
does not disturb those of the others. -/
theorem turn_assertion {J : ℕ → σ → β → Prop} {c c' : Pool σ β} {m : ℕ × α}
    (hown : ∀ {s l}, J m.1 c.shared (c.places m.1) →
      step m.1 c.shared (c.places m.1) m.2 = some (s, l) → J m.1 s l)
    (hother : ∀ {q s l}, q ≠ m.1 → J q c.shared (c.places q) → J m.1 c.shared (c.places m.1) →
      step m.1 c.shared (c.places m.1) m.2 = some (s, l) → J q s (c.places q))
    (hc : ∀ q, J q c.shared (c.places q)) (ht : turn step c m = some c') :
    ∀ q, J q c'.shared (c'.places q) := by
  obtain ⟨⟨s, l⟩, hs, rfl⟩ := turn_eq_some.mp ht
  intro q
  by_cases hq : q = m.1
  · subst hq
    dsimp only
    rw [Function.update_self]
    exact hown (hc _) hs
  · dsimp only
    rw [Function.update_of_ne hq]
    exact hother hq (hc q) (hc m.1) hs

/-- A process stays where it is in a run without it. -/
theorem places_of_run {c d : Pool σ β} {ms : List (ℕ × α)} (h : run (turn step) ms c = some d) {q : ℕ}
    (hq : q ∉ ms.map Prod.fst) : d.places q = c.places q := by
  induction ms generalizing c with
  | nil =>
    rw [run_nil, Option.some.injEq] at h
    rw [h]
  | cons m ms ih =>
    obtain ⟨u, hu, h⟩ := (run_cons _).mp h
    rw [List.map_cons, List.mem_cons, not_or] at hq
    obtain ⟨e, -, rfl⟩ := turn_eq_some.mp hu
    rw [ih h hq.2]
    exact Function.update_of_ne hq.1 _ _

end

end BrainEngine.Lib.Processes
