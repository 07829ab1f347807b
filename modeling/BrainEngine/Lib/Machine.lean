import Mathlib.Logic.Basic
import Mathlib.Tactic.Common

/-! # Machines

A machine is a partial function `step` from states and actions to states. `run` performs a list of
actions; `Reaches step ok s t` says that actions lead from `s` to `t`, each of which met `ok` in the
state in which it was taken. `Reaches.invariant` is the rule for assertions about every state that is
reached, and `reaches_of_runIf` makes a concrete run into a statement about it. -/

namespace BrainEngine.Lib.Machine

section
variable {σ α : Type} (step : σ → α → Option σ)

/-- Actions, one after the other. -/
def run : List α → σ → Option σ
  | [], s => some s
  | a :: as, s => (step s a).bind (run as)

/-- The machine that takes only the actions that `ok` allows. -/
def stepIf (ok : σ → α → Bool) (s : σ) (a : α) : Option σ := if ok s a then step s a else none

/-- Actions that met `ok` lead from `s` to `t`. -/
inductive Reaches (ok : σ → α → Prop) (s : σ) : σ → Prop
  | refl : Reaches ok s s
  | next {t u : σ} (a : α) (h : Reaches ok s t) (hok : ok t a) (hs : step t a = some u) :
    Reaches ok s u

/-- Every step that a run takes satisfies `P`. -/
def AllSteps (P : σ → α → σ → Prop) : List α → σ → Prop
  | [], _ => True
  | a :: as, s => ∀ t, step s a = some t → P s a t ∧ AllSteps P as t

/-- How many steps of a run begin in a state with `p`. -/
def countSteps (p : σ → α → Bool) : List α → σ → ℕ
  | [], _ => 0
  | a :: as, s =>
    match step s a with
    | some t => (if p s a then 1 else 0) + countSteps p as t
    | none => 0

/-- Any actions. -/
def free (_ : σ) (_ : α) : Prop := True

@[simp] theorem run_nil (s : σ) : run step [] s = some s := rfl

theorem run_cons {a : α} {as : List α} {s t : σ} :
    run step (a :: as) s = some t ↔ ∃ u, step s a = some u ∧ run step as u = some t :=
  Option.bind_eq_some_iff

variable {step}
variable {ok : σ → α → Prop} {s t : σ}

theorem allSteps_cons {P : σ → α → σ → Prop} {a : α} {as : List α} (h : step s a = some t) :
    AllSteps step P (a :: as) s ↔ P s a t ∧ AllSteps step P as t := by
  simp [AllSteps, h]

theorem countSteps_cons {p : σ → α → Bool} {a : α} {as : List α} (h : step s a = some t) :
    countSteps step p (a :: as) s = (if p s a then 1 else 0) + countSteps step p as t := by
  simp [countSteps, h]

/-- **The rule for invariants.** -/
theorem Reaches.invariant {I : σ → Prop} (h : Reaches step ok s t) (hs : I s)
    (hstep : ∀ {t u a}, I t → ok t a → step t a = some u → I u) : I t := by
  induction h with
  | refl => exact hs
  | next a _ hok hst ih => exact hstep ih hok hst

theorem Reaches.head {a : α} {u : σ} (hok : ok s a) (hs : step s a = some u)
    (h : Reaches step ok u t) : Reaches step ok s t := by
  induction h with
  | refl => exact .next a .refl hok hs
  | next b _ hb hst ih => exact .next b ih hb hst

theorem Reaches.trans {u : σ} (h : Reaches step ok s t) (h' : Reaches step ok t u) :
    Reaches step ok s u := by
  induction h' with
  | refl => exact h
  | next a _ hok hst ih => exact .next a ih hok hst

/-- **Runs reach.** -/
theorem reaches_of_run {as : List α} (h : run step as s = some t) : Reaches step free s t := by
  induction as generalizing s with
  | nil =>
    rw [run_nil, Option.some.injEq] at h
    exact h ▸ .refl
  | cons a as ih =>
    obtain ⟨u, h1, h2⟩ := (run_cons step).mp h
    exact .head trivial h1 (ih h2)

theorem reaches_of_runIf {p : σ → α → Bool} {as : List α} (h : run (stepIf step p) as s = some t) :
    Reaches step (fun s a => p s a = true) s t := by
  induction as generalizing s with
  | nil =>
    rw [run_nil, Option.some.injEq] at h
    exact h ▸ .refl
  | cons a as ih =>
    obtain ⟨u, h1, h2⟩ := (run_cons _).mp h
    unfold stepIf at h1
    split_ifs at h1 with hp
    exact .head hp h1 (ih h2)

end

end BrainEngine.Lib.Machine
