import BrainEngine.Lib.Outcome

/-! # Passes with memory

A pass through a list that numbers the elements, keeps a state from one element to the next, and may
put out a result for each. What comes out of an element depends on the state that the elements before
it leave. -/

namespace BrainEngine.Lib.Scan

open BrainEngine.Lib.Outcome

variable {σ α β ε : Type} (next : σ → α → σ) (out : σ → ℕ → α → Except ε (Option β))

/-- The results of a pass, the first element having number `n`. -/
def scan : List α → ℕ → σ → Except ε (List β)
  | [], _, _ => .ok []
  | a :: as, n, s => do
    let o ← out s n a
    let bs ← scan as (n + 1) (next s a)
    return o.toList ++ bs

variable {next out}

/-- One step of the pass. -/
theorem scan_cons_eq_ok {a : α} {as : List α} {n : ℕ} {s : σ} {bs : List β} :
    scan next out (a :: as) n s = .ok bs ↔ ∃ o bs', out s n a = .ok o ∧
      scan next out as (n + 1) (next s a) = .ok bs' ∧ bs = o.toList ++ bs' := by
  rw [scan, bind_eq_ok]
  constructor
  · rintro ⟨o, ho, h⟩
    obtain ⟨bs', hbs, h⟩ := bind_eq_ok.mp h
    exact ⟨o, bs', ho, hbs, (Except.ok.inj h).symm⟩
  · rintro ⟨o, bs', ho, hbs, rfl⟩
    exact ⟨o, ho, bind_eq_ok.mpr ⟨bs', hbs, rfl⟩⟩

/-- An element of which nothing comes only changes the state. -/
theorem scan_cons_none {a : α} {n : ℕ} {s : σ} (h : out s n a = .ok none) (as : List α) :
    scan next out (a :: as) n s = scan next out as (n + 1) (next s a) := by
  rw [scan, h]
  cases scan next out as (n + 1) (next s a) with
  | error e => rfl
  | ok bs => rfl

/-- **What a pass puts out**: the results of the elements, each with its number and with the state
that the elements before it leave. -/
theorem mem_scan : ∀ {as : List α} {n : ℕ} {s : σ} {bs : List β}, scan next out as n s = .ok bs →
    ∀ b, b ∈ bs ↔ ∃ k a, as[k]? = some a ∧
      out ((as.take k).foldl next s) (n + k) a = .ok (some b)
  | [], n, s, bs, h, b => by
    cases h
    simp
  | a :: as, n, s, bs, h, b => by
    obtain ⟨o, bs', ho, hbs, rfl⟩ := scan_cons_eq_ok.mp h
    rw [List.mem_append, mem_scan hbs, Option.mem_toList]
    constructor
    · rintro (rfl | ⟨k, a', hk, hb⟩)
      · exact ⟨0, a, rfl, ho⟩
      · refine ⟨k + 1, a', hk, ?_⟩
        rw [← Nat.add_assoc, Nat.add_right_comm]
        exact hb
    · rintro ⟨_ | k, a', hk, hb⟩
      · cases hk
        left
        have heq : Except.ok o = Except.ok (some b) := ho.symm.trans hb
        exact Except.ok.inj heq
      · refine Or.inr ⟨k, a', hk, ?_⟩
        rw [Nat.add_assoc, Nat.add_comm 1 k]
        exact hb

/-- In a pass that comes to an end, every element has been answered. -/
theorem out_of_scan : ∀ {as : List α} {n : ℕ} {s : σ} {bs : List β}, scan next out as n s = .ok bs →
    ∀ {k a}, as[k]? = some a → ∃ o, out ((as.take k).foldl next s) (n + k) a = .ok o
  | [], n, s, bs, _, k, a, hk => by
    cases hk
  | a :: as, n, s, bs, h, k, a', hk => by
    obtain ⟨o, bs', ho, hbs, -⟩ := scan_cons_eq_ok.mp h
    cases k with
    | zero =>
      cases hk
      exact ⟨o, ho⟩
    | succ k =>
      obtain ⟨o', ho'⟩ := out_of_scan hbs hk
      refine ⟨o', ?_⟩
      rw [← Nat.add_assoc, Nat.add_right_comm]
      exact ho'

/-- **Results that carry their numbers** come in the order of the elements. -/
theorem pairwise_scan {pos : β → ℕ} (hpos : ∀ {s n a b}, out s n a = .ok (some b) → pos b = n)
    {as : List α} : ∀ {n : ℕ} {s : σ} {bs : List β}, scan next out as n s = .ok bs →
      bs.Pairwise fun b b' => pos b < pos b' := by
  induction as with
  | nil =>
    intro n s bs h
    cases h
    exact List.Pairwise.nil
  | cons a as ih =>
    intro n s bs h
    obtain ⟨o, bs', ho, hbs, rfl⟩ := scan_cons_eq_ok.mp h
    cases o with
    | none => exact ih hbs
    | some b =>
      refine List.Pairwise.cons (fun b' hb' => ?_) (ih hbs)
      obtain ⟨k, a', -, hk⟩ := (mem_scan hbs b').mp hb'
      have h1 : pos b = n := hpos ho
      have h2 : pos b' = n + 1 + k := hpos hk
      omega

end BrainEngine.Lib.Scan
