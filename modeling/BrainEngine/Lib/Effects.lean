import BrainEngine.Lib.Outcome
import Mathlib.Tactic.Common

/-! # Calls that change a state

Inversion of `EStateM`, whose calls keep what they changed when they fail: a composed call returns
exactly when its parts do, one in the state that the other left. `mapM_invariant` is the rule for a loop
of such calls; `Ends` also speaks of the states that failed calls leave. -/

namespace BrainEngine.Lib.Effects

variable {ε σ α β : Type} {s s' : σ}

theorem pure_ok {a b : α} : (pure a : EStateM ε σ α) s = .ok b s' ↔ a = b ∧ s = s' := by
  change EStateM.Result.ok a s = .ok b s' ↔ _
  simp

theorem throw_ok {e : ε} {b : α} : ¬ (throw e : EStateM ε σ α) s = .ok b s' := by
  change ¬ EStateM.Result.error e s = .ok b s'
  simp

theorem get_ok {t : σ} : (get : EStateM ε σ σ) s = .ok t s' ↔ s = t ∧ s = s' := by
  change EStateM.Result.ok s s = .ok t s' ↔ _
  simp

theorem modify_ok {f : σ → σ} {u : PUnit} : (modify f : EStateM ε σ PUnit) s = .ok u s' ↔ f s = s' := by
  change EStateM.Result.ok PUnit.unit (f s) = .ok u s' ↔ _
  simp

theorem set_ok {t : σ} {u : PUnit} : (set t : EStateM ε σ PUnit) s = .ok u s' ↔ t = s' := by
  change EStateM.Result.ok PUnit.unit t = .ok u s' ↔ _
  simp

theorem bind_ok {c : EStateM ε σ α} {f : α → EStateM ε σ β} {b : β} :
    (c >>= f) s = .ok b s' ↔ ∃ a t, c s = .ok a t ∧ f a t = .ok b s' := by
  change (match c s with
    | .ok a t => f a t
    | .error e t => .error e t) = .ok b s' ↔ _
  cases c s with
  | ok a t => simp
  | error e t => simp

/-- A call that begins by reading the state. -/
theorem get_bind {f : σ → EStateM ε σ β} : (get >>= f) s = f s s := rfl

/-- **A loop of calls** keeps an assertion about the elements that are done, their answers and the
state. -/
theorem mapM_invariant {f : α → EStateM ε σ β} {I : List α → List β → σ → Prop} {l : List α}
    {r : List β} (h : l.mapM f s = .ok r s') (h0 : I [] [] s)
    (hstep : ∀ {as a bs b s s'}, as ++ [a] <+: l → I as bs s → f a s = .ok b s' →
      I (as ++ [a]) (bs ++ [b]) s') : I l r s' := by
  suffices hs : ∀ (rest as : List α) (bs r : List β) (s : σ), as ++ rest <+: l → I as bs s →
      rest.mapM f s = .ok r s' → I (as ++ rest) (bs ++ r) s' by
    exact hs l [] [] r s (List.prefix_refl l) h0 h
  intro rest
  induction rest with
  | nil =>
    intro as bs r s _ hI hr
    rw [List.mapM_nil, pure_ok] at hr
    obtain ⟨rfl, rfl⟩ := hr
    simpa using hI
  | cons a rest ih =>
    intro as bs r s hp hI hr
    rw [List.mapM_cons, bind_ok] at hr
    obtain ⟨b, t, h1, hr⟩ := hr
    obtain ⟨bs', t', h2, hr⟩ := bind_ok.mp hr
    obtain ⟨rfl, rfl⟩ := pure_ok.mp hr
    have hpa : as ++ [a] <+: l := (List.prefix_append_right_inj _ |>.mpr (by simp)).trans hp
    have := ih (as ++ [a]) (bs ++ [b]) bs' t (by simpa using hp) (hstep hpa hI h1) h2
    simpa using this

/-- **A loop that changes nothing**: no round does. -/
theorem mapM_stationary {f : α → EStateM ε σ β} {g : α → β} {l : List α}
    (h : ∀ a ∈ l, f a s = .ok (g a) s) : l.mapM f s = .ok (l.map g) s := by
  induction l with
  | nil => rfl
  | cons a l ih =>
    have hl := ih fun b hb => h b (List.mem_cons_of_mem _ hb)
    rw [List.mapM_cons]
    refine bind_ok.mpr ⟨g a, s, h a List.mem_cons_self, bind_ok.mpr ⟨l.map g, s, hl, rfl⟩⟩

/-- **A loop over different keys**, each round of which updates what the state shows under its own key:
in the end every key of the loop is updated once, and no other key. -/
theorem mapM_update {κ ν : Type} [DecidableEq κ] {f : α → EStateM ε σ β} {V : σ → κ → ν}
    {key : α → κ} {U : α → ν → ν} {Q : α → β → Prop} {l : List α} {r : List β}
    (h : l.mapM f s = .ok r s') (hn : (l.map key).Nodup)
    (hstep : ∀ a ∈ l, ∀ {t b t'}, V t (key a) = V s (key a) → f a t = .ok b t' →
      Q a b ∧ ∀ k, V t' k = if k = key a then U a (V t k) else V t k) :
    List.Forall₂ Q l r ∧ (∀ a ∈ l, V s' (key a) = U a (V s (key a))) ∧
      ∀ k, k ∉ l.map key → V s' k = V s k := by
  refine mapM_invariant (I := fun as bs t => List.Forall₂ Q as bs ∧
    (∀ a ∈ as, V t (key a) = U a (V s (key a))) ∧
      ∀ k, k ∉ as.map key → V t k = V s k) h ⟨.nil, by simp, by simp⟩ ?_
  rintro as a bs b t t' hp ⟨hQ, hdone, hrest⟩ hf
  have ha : a ∈ l := hp.subset (by simp)
  have hnew : key a ∉ as.map key := by
    have h := hn.sublist (hp.sublist.map key)
    rw [List.map_append, List.map_singleton] at h
    exact fun hm => (List.nodup_append.mp h).2.2 _ hm _ (List.mem_singleton_self _) rfl
  obtain ⟨hq, hview⟩ := hstep a ha (hrest _ hnew) hf
  refine ⟨List.rel_append hQ (.cons hq .nil), fun c hc => ?_, fun k hk => ?_⟩
  · rw [hview]
    rcases List.mem_append.mp hc with hc | hc
    · have hne : key c ≠ key a := fun he => hnew (he ▸ List.mem_map_of_mem hc)
      rw [if_neg hne, hdone c hc]
    · rw [List.mem_singleton.mp hc, if_pos rfl, hrest _ hnew]
  · rw [List.map_append, List.mem_append, not_or] at hk
    rw [hview, if_neg fun he => hk.2 (by simp [he]), hrest k hk.1]

/-! ### Calls that may fail -/

/-- A call either returns with `Q` or leaves a state with `E`. -/
def Ends (E : σ → Prop) (c : EStateM ε σ α) (s : σ) (Q : α → σ → Prop) : Prop :=
  match c s with
  | .ok a t => Q a t
  | .error _ t => E t

/-- The state that a call leaves. -/
def final : EStateM.Result ε σ α → σ
  | .ok _ t => t
  | .error _ t => t

variable {E : σ → Prop} {c : EStateM ε σ α} {Q R : α → σ → Prop}

theorem ends_pure {a : α} (h : Q a s) : Ends E (pure a : EStateM ε σ α) s Q := h

theorem ends_throw {e : ε} (h : E s) : Ends E (throw e : EStateM ε σ α) s Q := h

theorem ends_modify {f : σ → σ} {Q : PUnit → σ → Prop} (h : Q ⟨⟩ (f s)) :
    Ends E (modify f : EStateM ε σ PUnit) s Q := h

theorem ends_get {Q : σ → σ → Prop} (h : Q s s) : Ends E (get : EStateM ε σ σ) s Q := h

theorem Ends.bind {f : α → EStateM ε σ β} {Q : β → σ → Prop}
    (h : Ends E c s fun a t => Ends E (f a) t Q) : Ends E (c >>= f) s Q := by
  unfold Ends at h ⊢
  change (match (match c s with
    | .ok a t => f a t
    | .error e t => .error e t) with
    | .ok a t => Q a t
    | .error _ t => E t)
  cases hc : c s with
  | ok a t => rw [hc] at h; exact h
  | error e t => rw [hc] at h; exact h

theorem Ends.mono (h : Ends E c s Q) (hQ : ∀ a t, c s = .ok a t → Q a t → R a t) : Ends E c s R := by
  unfold Ends at h ⊢
  cases hc : c s with
  | ok a t => rw [hc] at h; exact hQ a t hc h
  | error e t => rw [hc] at h; exact h

theorem Ends.imp {E' : σ → Prop} (h : Ends E c s Q) (hE : ∀ t, E t → E' t) : Ends E' c s Q := by
  unfold Ends at h ⊢
  cases hc : c s with
  | ok a t => rw [hc] at h; exact h
  | error e t => rw [hc] at h; exact hE t h

/-- What a call that returned is known to have done. -/
theorem Ends.of_ok {a : α} {t : σ} (h : Ends E c s Q) (hc : c s = .ok a t) : Q a t := by
  unfold Ends at h
  rwa [hc] at h

theorem Ends.final {I : σ → Prop} (h : Ends I c s fun _ => I) : I (final (c s)) := by
  unfold Ends at h
  cases hc : c s with
  | ok a t => rw [hc] at h; exact h
  | error e t => rw [hc] at h; exact h

/-- **A loop of calls that may fail** keeps what each of them keeps. -/
theorem ends_mapM {f : α → EStateM ε σ β} {I : σ → Prop} {l : List α} (hs : I s)
    (h : ∀ a ∈ l, ∀ t, I t → Ends E (f a) t fun _ => I) : Ends E (l.mapM f) s fun _ => I := by
  induction l generalizing s with
  | nil => exact hs
  | cons a l ih =>
    rw [List.mapM_cons]
    refine .bind ((h a List.mem_cons_self s hs).mono fun b t _ ht => ?_)
    exact .bind ((ih ht fun c hc => h c (List.mem_cons_of_mem _ hc)).mono fun bs t' _ ht' => ht')

end BrainEngine.Lib.Effects
