import Mathlib.Data.List.Forall2
import Mathlib.Tactic.Common

/-! # Calls that return

Inversion of the `Except` monad: a composed call returns a value exactly when its parts do. -/

namespace BrainEngine.Lib.Outcome

variable {ε α β : Type}

theorem bind_eq_ok {c : Except ε α} {f : α → Except ε β} {b : β} :
    (c >>= f) = .ok b ↔ ∃ a, c = .ok a ∧ f a = .ok b := by
  cases c with
  | error e => simp [bind, Except.bind]
  | ok a => simp [bind, Except.bind]

theorem map_eq_ok {c : Except ε α} {f : α → β} {b : β} :
    (f <$> c) = .ok b ↔ ∃ a, c = .ok a ∧ f a = b := by
  cases c with
  | error e => simp [Functor.map, Except.map]
  | ok a => simp [Functor.map, Except.map]

/-- **A loop of calls returns** when each call does, with the list of the answers. -/
theorem mapM_eq_ok {f : α → Except ε β} : ∀ {l : List α} {r : List β},
    l.mapM f = .ok r ↔ List.Forall₂ (fun a b => f a = .ok b) l r
  | [], r => by
    simp [pure, Except.pure, eq_comm]
  | a :: l, r => by
    rw [List.mapM_cons, bind_eq_ok, List.forall₂_cons_left_iff]
    constructor
    · rintro ⟨b, h1, h⟩
      obtain ⟨bs, h2, h3⟩ := bind_eq_ok.mp h
      exact ⟨b, bs, h1, mapM_eq_ok.mp h2, (Except.ok.inj h3).symm⟩
    · rintro ⟨b, bs, h1, h2, rfl⟩
      exact ⟨b, h1, bind_eq_ok.mpr ⟨bs, mapM_eq_ok.mpr h2, rfl⟩⟩

theorem exists_right {R : α → β → Prop} {l : List α} {r : List β} (h : List.Forall₂ R l r) {a : α}
    (ha : a ∈ l) : ∃ b ∈ r, R a b := by
  induction h with
  | nil => simp at ha
  | cons hab _ ih =>
    rcases List.mem_cons.mp ha with rfl | ha
    · exact ⟨_, List.mem_cons_self, hab⟩
    · obtain ⟨b, hb, h⟩ := ih ha
      exact ⟨b, List.mem_cons_of_mem _ hb, h⟩

theorem exists_left {R : α → β → Prop} {l : List α} {r : List β} (h : List.Forall₂ R l r) {b : β}
    (hb : b ∈ r) : ∃ a ∈ l, R a b := exists_right h.flip hb

theorem exists_forall₂ {R : α → β → Prop} : ∀ {l : List α}, (∀ a ∈ l, ∃ b, R a b) →
    ∃ r, List.Forall₂ R l r
  | [], _ => ⟨[], List.Forall₂.nil⟩
  | a :: l, h => by
    obtain ⟨b, hb⟩ := h a List.mem_cons_self
    obtain ⟨r, hr⟩ := exists_forall₂ fun a ha => h a (List.mem_cons_of_mem _ ha)
    exact ⟨b :: r, List.Forall₂.cons hb hr⟩

end BrainEngine.Lib.Outcome
