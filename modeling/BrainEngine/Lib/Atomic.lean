import Mathlib.Logic.Basic
import Mathlib.Tactic.Common

/-! # Programs of atomic steps that can stop anywhere

A `Prog Op α` performs operations of a family `Op` one after the other, each depending on the answers
to the earlier ones, and ends with an `α`. The operations get their meaning from a handler `exec`,
which answers and changes a state, or fails and changes nothing.

* `eval` runs a program to its end, `after n` performs its first `n` steps: a program that is
  interrupted (an operation fails, the process dies) leaves a state that some `after n` reaches.
* `wp C p Q s`: from `s` every step of `p` ends in a state of `C`, and if `p` ends, then with `Q`.
  `wp_after` and `wp_eval` read it back; `wp_bind` and `wp_forM` are the rules for sequences and
  loops. -/

namespace BrainEngine.Lib.Atomic

/-- Programs over the operations `Op` with answers in `α`. -/
inductive Prog (Op : Type → Type) (α : Type) : Type 1
  | ret (a : α)
  | op {β : Type} (o : Op β) (k : β → Prog Op α)

namespace Prog
variable {Op : Type → Type} {α β γ σ ε : Type}

/-- Sequencing. -/
protected def bind : Prog Op α → (α → Prog Op β) → Prog Op β
  | ret a, f => f a
  | op o k, f => op o fun b => (k b).bind f

instance : Monad (Prog Op) where
  pure := ret
  bind := Prog.bind

/-- The program that performs one operation. -/
def perform (o : Op β) : Prog Op β := op o ret

@[simp] theorem pure_eq (a : α) : (pure a : Prog Op α) = ret a := rfl

@[simp] theorem ret_bind (a : α) (f : α → Prog Op β) : (ret a >>= f) = f a := rfl

@[simp] theorem op_bind (o : Op γ) (k : γ → Prog Op α) (f : α → Prog Op β) :
    (op o k >>= f) = op o fun b => k b >>= f := rfl

@[simp] theorem perform_bind (o : Op γ) (f : γ → Prog Op β) : (perform o >>= f) = op o f := rfl

theorem bind_assoc (p : Prog Op α) (f : α → Prog Op β) (g : β → Prog Op γ) :
    p >>= f >>= g = p >>= fun a => f a >>= g := by
  induction p with
  | ret a => rfl
  | op o k ih => exact congrArg (op o) (funext fun b => ih b)

section Semantics
variable (exec : ∀ β, Op β → σ → Except ε (β × σ))

/-- One step. There is none from a program that has ended, or whose next operation fails. -/
def next : Prog Op α → σ → Option (Prog Op α × σ)
  | ret _, _ => none
  | op o k, s =>
    match exec _ o s with
    | .ok (b, t) => some (k b, t)
    | .error _ => none

/-- The first `n` steps. -/
def after : ℕ → Prog Op α → σ → Option (Prog Op α × σ)
  | 0, p, s => some (p, s)
  | n + 1, p, s => (next exec p s).bind fun c => after n c.1 c.2

/-- The whole run. -/
def eval : Prog Op α → σ → Except ε (α × σ)
  | ret a, s => .ok (a, s)
  | op o k, s =>
    match exec _ o s with
    | .ok (b, t) => eval (k b) t
    | .error e => .error e

/-- The state that a run leaves, at its end or at the operation that fails. -/
def final : Prog Op α → σ → σ
  | ret _, s => s
  | op o k, s =>
    match exec _ o s with
    | .ok (b, t) => final (k b) t
    | .error _ => s

@[simp] theorem after_zero (p : Prog Op α) (s : σ) : after exec 0 p s = some (p, s) := rfl

@[simp] theorem after_ret_succ (n : ℕ) (a : α) (s : σ) :
    after exec (n + 1) (ret a : Prog Op α) s = none := rfl

/-- **Steps of an operation**: it answers, and the rest makes the other steps. -/
theorem after_op {n : ℕ} {o : Op β} {k : β → Prog Op α} {s t : σ} {q : Prog Op α} :
    after exec (n + 1) (op o k) s = some (q, t) ↔
      ∃ b u, exec _ o s = .ok (b, u) ∧ after exec n (k b) u = some (q, t) := by
  simp only [after, next]
  rcases exec _ o s with e | ⟨b, u⟩
  · simp
  · simp

/-- One more step. -/
theorem after_succ {n : ℕ} {p q : Prog Op α} {s t : σ} (h : after exec n p s = some (q, t)) :
    after exec (n + 1) p s = next exec q t := by
  induction n generalizing p s with
  | zero =>
    simp only [after_zero, Option.some.injEq, Prod.mk.injEq] at h
    rw [h.1, h.2, after]
    rcases next exec q t with _ | c
    · rfl
    · rfl
  | succ n ih =>
    cases p with
    | ret a => simp at h
    | op o k =>
      obtain ⟨b, u, h1, h2⟩ := (after_op exec).mp h
      rw [← ih h2]
      simp only [after, next, h1, Option.bind_some]

/-- The same for an operation whose answer is known. -/
theorem after_op_of_ok {n : ℕ} {o : Op β} {k : β → Prog Op α} {b : β} {s u t : σ} {q : Prog Op α}
    (ho : exec _ o s = .ok (b, u)) (h : after exec n (op o k) s = some (q, t)) :
    n = 0 ∧ t = s ∨ ∃ m, n = m + 1 ∧ after exec m (k b) u = some (q, t) := by
  cases n with
  | zero =>
    simp only [after_zero, Option.some.injEq, Prod.mk.injEq] at h
    exact Or.inl ⟨rfl, h.2.symm⟩
  | succ n =>
    obtain ⟨b', u', hb, h⟩ := (after_op exec).mp h
    rw [ho] at hb
    obtain ⟨rfl, rfl⟩ := Prod.mk.inj (Except.ok.inj hb)
    exact Or.inr ⟨n, rfl, h⟩

theorem eval_op {o : Op β} {k : β → Prog Op α} {s t : σ} {a : α} :
    eval exec (op o k) s = .ok (a, t) ↔
      ∃ b u, exec _ o s = .ok (b, u) ∧ eval exec (k b) u = .ok (a, t) := by
  simp only [eval]
  rcases exec _ o s with e | ⟨b, u⟩
  · simp
  · simp

theorem eval_bind {p : Prog Op α} {f : α → Prog Op β} {s t : σ} {b : β} :
    eval exec (p >>= f) s = .ok (b, t) ↔
      ∃ a u, eval exec p s = .ok (a, u) ∧ eval exec (f a) u = .ok (b, t) := by
  induction p generalizing s with
  | ret a => simp [eval]
  | op o k ih =>
    rw [op_bind, eval_op]
    simp only [ih, eval_op]
    constructor
    · rintro ⟨c, v, h1, a, u, h2, h3⟩; exact ⟨a, u, ⟨c, v, h1, h2⟩, h3⟩
    · rintro ⟨a, u, ⟨c, v, h1, h2⟩, h3⟩; exact ⟨c, v, h1, a, u, h2, h3⟩

/-- A run that ends is a sequence of steps to the end. -/
theorem after_of_eval {p : Prog Op α} {s t : σ} {a : α} (h : eval exec p s = .ok (a, t)) :
    ∃ n, after exec n p s = some (ret a, t) := by
  induction p generalizing s with
  | ret b =>
    simp only [eval, Except.ok.injEq, Prod.mk.injEq] at h
    obtain ⟨rfl, rfl⟩ := h
    exact ⟨0, rfl⟩
  | op o k ih =>
    obtain ⟨b, u, h1, h2⟩ := (eval_op exec).mp h
    obtain ⟨n, hn⟩ := ih b h2
    exact ⟨n + 1, (after_op exec).mpr ⟨b, u, h1, hn⟩⟩

/-- Where `n` steps of a sequence lead: into the first part, or past its end into the second. -/
theorem after_bind {n : ℕ} {p : Prog Op α} {f : α → Prog Op β} {s t : σ} {q : Prog Op β}
    (h : after exec n (p >>= f) s = some (q, t)) :
    (∃ p', after exec n p s = some (p', t)) ∨
      ∃ m a u, m ≤ n ∧ after exec m p s = some (ret a, u) ∧
        after exec (n - m) (f a) u = some (q, t) := by
  induction p generalizing n s with
  | ret a => exact Or.inr ⟨0, a, s, Nat.zero_le _, rfl, h⟩
  | op o k ih =>
    cases n with
    | zero =>
      simp only [after_zero, Option.some.injEq, Prod.mk.injEq] at h
      exact Or.inl ⟨op o k, by rw [after_zero, h.2]⟩
    | succ n =>
      rw [op_bind] at h
      obtain ⟨b, u, h1, h2⟩ := (after_op exec).mp h
      rcases ih b h2 with ⟨p', hp⟩ | ⟨m, a, v, hm, h3, h4⟩
      · exact Or.inl ⟨p', (after_op exec).mpr ⟨b, u, h1, hp⟩⟩
      · exact Or.inr ⟨m + 1, a, v, by omega, (after_op exec).mpr ⟨b, u, h1, h3⟩, by
          rw [Nat.add_sub_add_right]; exact h4⟩

/-! ### Reasoning about every stopping point -/

/-- Every step ends in a state of `C`, and the end satisfies `Q`. -/
def wp (C : σ → Prop) : Prog Op α → (α → σ → Prop) → σ → Prop
  | ret a, Q, s => Q a s
  | op o k, Q, s => ∀ b t, exec _ o s = .ok (b, t) → C t ∧ wp C (k b) Q t

variable {exec}
variable {C : σ → Prop}

@[simp] theorem wp_ret {a : α} {Q : α → σ → Prop} {s : σ} :
    wp exec C (ret a : Prog Op α) Q s ↔ Q a s := Iff.rfl

theorem wp_mono {p : Prog Op α} {Q Q' : α → σ → Prop} {s : σ} (h : wp exec C p Q s)
    (hQ : ∀ a t, Q a t → Q' a t) : wp exec C p Q' s := by
  induction p generalizing s with
  | ret a => exact hQ a s h
  | op o k ih => exact fun b t ho => ⟨(h b t ho).1, ih b (h b t ho).2⟩

/-- **The rule for sequences.** -/
theorem wp_bind {p : Prog Op α} {f : α → Prog Op β} {Q : β → σ → Prop} {s : σ}
    (h : wp exec C p (fun a t => wp exec C (f a) Q t) s) : wp exec C (p >>= f) Q s := by
  induction p generalizing s with
  | ret a => exact h
  | op o k ih => exact fun b t ho => ⟨(h b t ho).1, ih b (h b t ho).2⟩

/-- **The rule for loops**: an assertion about the elements still to come. -/
theorem wp_forM {l : List γ} {body : γ → Prog Op PUnit} (I : List γ → σ → Prop) {s : σ}
    (hs : I l s) (hstep : ∀ x xs s, I (x :: xs) s → wp exec C (body x) (fun _ t => I xs t) s) :
    wp exec C (l.forM body) (fun _ t => I [] t) s := by
  induction l generalizing s with
  | nil => exact hs
  | cons x xs ih =>
    refine wp_bind (wp_mono (hstep x xs s hs) ?_)
    intro _ t ht
    exact ih ht

/-- **Every stopping point**: the state is in `C`, and the rest of the program is still right. -/
theorem wp_after {p q : Prog Op α} {Q : α → σ → Prop} {s t : σ} {n : ℕ} (h : wp exec C p Q s)
    (hs : C s) (hn : after exec n p s = some (q, t)) : C t ∧ wp exec C q Q t := by
  induction n generalizing p s with
  | zero =>
    simp only [after_zero, Option.some.injEq, Prod.mk.injEq] at hn
    obtain ⟨rfl, rfl⟩ := hn
    exact ⟨hs, h⟩
  | succ n ih =>
    cases p with
    | ret a => simp at hn
    | op o k =>
      obtain ⟨b, u, h1, h2⟩ := (after_op exec).mp hn
      exact ih (h b u h1).2 (h b u h1).1 h2

/-- **The end of a run.** -/
theorem wp_eval {p : Prog Op α} {Q : α → σ → Prop} {s t : σ} {a : α} (h : wp exec C p Q s)
    (he : eval exec p s = .ok (a, t)) : Q a t := by
  induction p generalizing s with
  | ret b =>
    simp only [eval, Except.ok.injEq, Prod.mk.injEq] at he
    obtain ⟨rfl, rfl⟩ := he
    exact h
  | op o k ih =>
    obtain ⟨b, u, h1, h2⟩ := (eval_op exec).mp he
    exact ih b (h b u h1).2 h2

end Semantics

end Prog

end BrainEngine.Lib.Atomic
