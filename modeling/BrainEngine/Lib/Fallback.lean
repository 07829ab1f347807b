import Mathlib.Logic.Relation
import Mathlib.Data.List.Perm.Subperm
import Mathlib.Tactic.Common

/-! # First choice and fallback

A name stands for itself, or for two other names, of which the second is resolved when the first has
failed. `resolve` follows these references down to a given depth. When no name that can be reached
comes back to itself, the number of the referring names bounds the depth, whatever the other names
answer; when they all fail, it ends only then. -/

namespace BrainEngine.Lib.Fallback

variable {ν σ ε α : Type} {refs : ν → Option (ν × ν)} {answer : ν → σ → Except ε α × σ}

variable (refs answer) in
/-- The answer of a name, which may take steps on a state. There is none when the depth runs out. -/
def resolve : ℕ → ν → σ → Option (Except ε α × σ)
  | 0, _, _ => none
  | depth + 1, n, s =>
    match refs n with
    | none => some (answer n s)
    | some (first, second) =>
      match resolve depth first s with
      | none => none
      | some (.ok a, t) => some (.ok a, t)
      | some (.error _, t) => resolve depth second t

variable (refs) in
/-- One of the two references. -/
def Refers (m n : ν) : Prop := ∃ first second, refs m = some (first, second) ∧ (n = first ∨ n = second)

variable (refs) in
/-- No name that `n` leads to leads back to itself. -/
def NoCycle (n : ν) : Prop :=
  ∀ m, Relation.ReflTransGen (Refers refs) n m → ¬Relation.TransGen (Refers refs) m m

theorem refers_first {m first second : ν} (h : refs m = some (first, second)) :
    Refers refs m first :=
  ⟨first, second, h, Or.inl rfl⟩

theorem refers_second {m first second : ν} (h : refs m = some (first, second)) :
    Refers refs m second :=
  ⟨first, second, h, Or.inr rfl⟩

theorem resolve_of_none {n : ν} (h : refs n = none) (depth : ℕ) (s : σ) :
    resolve refs answer (depth + 1) n s = some (answer n s) := by
  rw [resolve, h]

/-- References to names that stand for themselves make no cycle. -/
theorem noCycle_of_flat (h : ∀ m first second, refs m = some (first, second) →
    refs first = none ∧ refs second = none) (n : ν) : NoCycle refs n := by
  intro m _ hcycle
  obtain ⟨k, ⟨first, second, hm, hk⟩, hback⟩ := Relation.TransGen.head'_iff.mp hcycle
  have hnone : refs k = none := by
    rcases hk with rfl | rfl
    · exact (h m _ _ hm).1
    · exact (h m _ _ hm).2
  rcases Relation.ReflTransGen.cases_head hback with rfl | ⟨l, ⟨_, _, hl, -⟩, -⟩
  · rw [hnone] at hm
    simp at hm
  · rw [hnone] at hl
    simp at hl

theorem isSome_resolve {n first second : ν} {depth : ℕ} {s : σ} (h : refs n = some (first, second))
    (h1 : (resolve refs answer depth first s).isSome)
    (h2 : ∀ t, (resolve refs answer depth second t).isSome) :
    (resolve refs answer (depth + 1) n s).isSome := by
  obtain ⟨⟨r, t⟩, hr⟩ := Option.isSome_iff_exists.mp h1
  rw [resolve, h]
  dsimp only
  rw [hr]
  cases r with
  | ok a => rfl
  | error e => exact h2 t

/-! ### Without cycles -/

/-- `path` are the referring names on the way to `m`. They are different, so there are not more of them
than referring names at all. -/
theorem isSome_of_path {n : ν} (hn : NoCycle refs n) {names : List ν}
    (hnames : ∀ m, (refs m).isSome → m ∈ names) : ∀ (depth : ℕ) (path : List ν) (m : ν) (s : σ),
      path.Nodup → (∀ v ∈ path, v ∈ names ∧ Relation.TransGen (Refers refs) v m) →
      Relation.ReflTransGen (Refers refs) n m → names.length < path.length + depth →
      (resolve refs answer depth m s).isSome
  | 0, path, m, s, hnodup, hpath, hm, hlen => by
    have hle := (hnodup.subperm fun v hv => (hpath v hv).1).length_le
    omega
  | depth + 1, path, m, s, hnodup, hpath, hm, hlen => by
    rcases hr : refs m with _ | ⟨first, second⟩
    · rw [resolve_of_none hr]
      rfl
    · have hmem : m ∈ names := hnames m (by rw [hr]; rfl)
      have hnew : m ∉ path := fun h => hn m hm (hpath m h).2
      -- one step down, `m` is on the way as well
      have hnext : ∀ k, Refers refs m k → ∀ t, (resolve refs answer depth k t).isSome := by
        intro k hk t
        refine isSome_of_path hn hnames depth (m :: path) k t (List.nodup_cons.mpr ⟨hnew, hnodup⟩) ?_
          (hm.tail hk) ?_
        · intro v hv
          rcases List.mem_cons.mp hv with rfl | hv
          · exact ⟨hmem, .single hk⟩
          · exact ⟨(hpath v hv).1, (hpath v hv).2.tail hk⟩
        · rw [List.length_cons]
          omega
      exact isSome_resolve hr (hnext first (refers_first hr) s) (hnext second (refers_second hr))

variable (answer) in
/-- **Without cycles every resolution ends**, at most as deep as there are referring names. -/
theorem isSome_of_noCycle {n : ν} (h : NoCycle refs n) {names : List ν}
    (hnames : ∀ m, (refs m).isSome → m ∈ names) (s : σ) :
    (resolve refs answer (names.length + 1) n s).isSome :=
  isSome_of_path h hnames _ [] n s List.nodup_nil (fun v hv => absurd hv List.not_mem_nil) .refl
    (by simp)

/-! ### When everything fails -/

section Fails
variable (hfail : ∀ m s, refs m = none → ∃ e t, answer m s = (.error e, t))
include hfail

/-- What ends then ends with a failure, from any state. -/
theorem fails_of_isSome : ∀ {depth : ℕ} {m : ν} {s : σ}, (resolve refs answer depth m s).isSome →
    ∀ s', ∃ e t, resolve refs answer depth m s' = some (.error e, t)
  | 0, m, s, h, s' => by simp [resolve] at h
  | depth + 1, m, s, h, s' => by
    rcases hr : refs m with _ | ⟨first, second⟩
    · obtain ⟨e, t, ht⟩ := hfail m s' hr
      exact ⟨e, t, by rw [resolve_of_none hr, ht]⟩
    · rw [resolve, hr] at h
      dsimp only at h
      rcases h1 : resolve refs answer depth first s with _ | r
      · rw [h1] at h
        simp at h
      have hfirst := fails_of_isSome (Option.isSome_iff_exists.mpr ⟨r, h1⟩)
      obtain ⟨e, t, he⟩ := hfirst s
      rw [he] at h
      obtain ⟨e', t', he'⟩ := hfirst s'
      obtain ⟨e'', t'', he''⟩ := fails_of_isSome h t'
      refine ⟨e'', t'', ?_⟩
      rw [resolve, hr]
      dsimp only
      rw [he']
      exact he''

theorem isSome_of_refers {depth : ℕ} {m k : ν} {s : σ}
    (h : (resolve refs answer (depth + 1) m s).isSome) (hk : Refers refs m k) :
    (resolve refs answer depth k s).isSome := by
  obtain ⟨first, second, hr, hk⟩ := hk
  rw [resolve, hr] at h
  dsimp only at h
  rcases h1 : resolve refs answer depth first s with _ | r
  · rw [h1] at h
    simp at h
  have hsome : (resolve refs answer depth first s).isSome := Option.isSome_iff_exists.mpr ⟨r, h1⟩
  rcases hk with rfl | rfl
  · exact hsome
  · obtain ⟨e, t, he⟩ := fails_of_isSome hfail hsome s
    rw [he] at h
    obtain ⟨e', t', he'⟩ := fails_of_isSome hfail h s
    rw [he']
    rfl

theorem isSome_of_transGen {depth : ℕ} {m k : ν} {s : σ}
    (h : (resolve refs answer depth m s).isSome) (hk : Relation.TransGen (Refers refs) m k) :
    ∃ depth' < depth, (resolve refs answer depth' k s).isSome := by
  have hstep : ∀ {depth : ℕ} {m k : ν}, (resolve refs answer depth m s).isSome → Refers refs m k →
      ∃ depth' < depth, (resolve refs answer depth' k s).isSome := by
    intro depth m k h hk
    cases depth with
    | zero => simp [resolve] at h
    | succ depth => exact ⟨depth, by omega, isSome_of_refers hfail h hk⟩
  induction hk with
  | single hk => exact hstep h hk
  | tail _ hk ih =>
    obtain ⟨d, hd, h⟩ := ih
    obtain ⟨d', hd', h⟩ := hstep h hk
    exact ⟨d', by omega, h⟩

theorem not_transGen_of_isSome {m : ν} {s : σ} : ∀ (depth : ℕ),
    (resolve refs answer depth m s).isSome → ¬Relation.TransGen (Refers refs) m m := by
  intro depth
  induction depth using Nat.strongRecOn with
  | ind depth ih =>
    intro h hcycle
    obtain ⟨depth', hlt, h'⟩ := isSome_of_transGen hfail h hcycle
    exact ih depth' hlt h' hcycle

/-- **What ends when everything fails has no cycle.** -/
theorem noCycle_of_isSome {n : ν} {depth : ℕ} {s : σ}
    (h : (resolve refs answer depth n s).isSome) : NoCycle refs n := by
  intro m hm
  rcases Relation.reflTransGen_iff_eq_or_transGen.mp hm with rfl | hm
  · exact not_transGen_of_isSome hfail depth h
  · obtain ⟨depth', -, h'⟩ := isSome_of_transGen hfail h hm
    exact not_transGen_of_isSome hfail depth' h'

end Fails

end BrainEngine.Lib.Fallback
