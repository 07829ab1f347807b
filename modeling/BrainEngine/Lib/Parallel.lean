import BrainEngine.Lib.Atomic

/-! # Two programs that overlap

Two programs on one state take turns, one operation at a time; a list of sides says whose turn it is.
`ok` may forbid an operation, in view of what is left of the other program and of the state.
`overlap_invariant` is the rule for assertions about both programs and the state: it asks only for what
one step of one program preserves. -/

namespace BrainEngine.Lib.Parallel

open BrainEngine.Lib.Atomic BrainEngine.Lib.Atomic.Prog

/-- Which of the two programs moves. -/
inductive Side
  | left
  | right
  deriving DecidableEq

/-- What is left of both programs, and the state. -/
structure Config (Op : Type → Type) (α σ : Type) where
  left : Prog Op α
  right : Prog Op α
  state : σ

section
variable {Op : Type → Type} {α β σ ε : Type}
variable (exec : ∀ β, Op β → σ → Except ε (β × σ)) (ok : ∀ β, Op β → Prog Op α → σ → Bool)

/-- One step of one program beside another, if its operation is allowed. -/
def nextIf : Prog Op α → Prog Op α → σ → Option (Prog Op α × σ)
  | ret _, _, _ => none
  | op o k, q, s => if ok _ o q s then next exec (op o k) s else none

/-- One turn. -/
def turn (c : Config Op α σ) : Side → Option (Config Op α σ)
  | .left => (nextIf exec ok c.left c.right c.state).map fun d => ⟨d.1, c.right, d.2⟩
  | .right => (nextIf exec ok c.right c.left c.state).map fun d => ⟨c.left, d.1, d.2⟩

/-- The turns of a schedule. -/
def overlap : List Side → Config Op α σ → Option (Config Op α σ)
  | [], c => some c
  | m :: ms, c => (turn exec ok c m).bind (overlap ms)

/-- The program has ended. -/
def ended : Prog Op α → Bool
  | ret _ => true
  | op _ _ => false

variable {exec ok}

theorem nextIf_eq_some {p p' q : Prog Op α} {s t : σ} (h : nextIf exec ok p q s = some (p', t)) :
    ∃ (β : Type) (o : Op β) (k : β → Prog Op α) (b : β), p = op o k ∧ ok β o q s = true ∧
      exec β o s = .ok (b, t) ∧ p' = k b := by
  cases p with
  | ret a => simp [nextIf] at h
  | @op β o k =>
    have h : (if ok β o q s then next exec (op o k) s else none) = some (p', t) := h
    split_ifs at h with hok
    rcases he : exec β o s with f | ⟨b, u⟩
    · simp only [next, he] at h
      simp at h
    · simp only [next, he, Option.some.injEq, Prod.mk.injEq] at h
      obtain ⟨rfl, rfl⟩ := h
      exact ⟨β, o, k, b, rfl, hok, he, rfl⟩

/-- **The rule for overlapping programs.** A symmetric assertion about what is left of the two programs
and the state holds throughout, if every allowed step of the one program keeps it. -/
theorem overlap_invariant {J : Prog Op α → Prog Op α → σ → Prop}
    (hsymm : ∀ {p q s}, J p q s → J q p s)
    (hstep : ∀ {β : Type} {o : Op β} {k : β → Prog Op α} {q s b t}, J (op o k) q s →
      ok β o q s = true → exec β o s = .ok (b, t) → J (k b) q t) :
    ∀ {ms : List Side} {c c' : Config Op α σ}, overlap exec ok ms c = some c' →
      J c.left c.right c.state → J c'.left c'.right c'.state
  | [], c, c', h, hc => by
    rw [← Option.some.inj h]
    exact hc
  | m :: ms, c, c', h, hc => by
    obtain ⟨d, hd, h⟩ := Option.bind_eq_some_iff.mp h
    refine overlap_invariant (J := J) hsymm hstep h ?_
    cases m with
    | left =>
      obtain ⟨⟨p', t⟩, hn, rfl⟩ := Option.map_eq_some_iff.mp hd
      obtain ⟨β, o, k, b, hp, hok, he, rfl⟩ := nextIf_eq_some hn
      rw [hp] at hc
      exact hstep hc hok he
    | right =>
      obtain ⟨⟨p', t⟩, hn, rfl⟩ := Option.map_eq_some_iff.mp hd
      obtain ⟨β, o, k, b, hp, hok, he, rfl⟩ := nextIf_eq_some hn
      rw [hp] at hc
      exact hsymm (hstep (hsymm hc) hok he)

end

end BrainEngine.Lib.Parallel
