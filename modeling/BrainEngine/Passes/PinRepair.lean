import BrainEngine.Core.Sample
import BrainEngine.Passes.Stages

/-! # Half-written pins

The pin is two values, written one after the other. `check_model_pin` takes the absence of either for
the absence of the pin, `set_model_pin_if_absent` looks for the model id alone; a pin whose dimension
cannot be read is what they disagree on. The next run does not write it, and does not notice another
model. -/

namespace BrainEngine.Passes.PinRepair

open BrainEngine.Rust.Str BrainEngine.Lib.Atomic BrainEngine.Lib.Atomic.Prog BrainEngine.Core.External
open BrainEngine.Core.Database BrainEngine.Core.Index BrainEngine.Core.Vectors
open BrainEngine.Core.Embedding
open BrainEngine.Core.Passes BrainEngine.Core.Sample
open BrainEngine.Passes.Loop BrainEngine.Passes.Stages

variable {x : Extern} {e : Embedder} {p : Party} {r : Request} {reindex : Bool} {s t : Project}

/-- The pin is right after the pin step of the CLI, and another model that was recorded is noticed. -/
structure Repairs (x : Extern) (reindex : Bool) (e : Embedder) (s : Project) : Prop where
  matched : ∀ t, eval (exec x) (prepare reindex e) s = .ok ((), t) →
    eval (exec x) (checkModelPin e) t = .ok (.matched, t)
  rebuilds : ∀ m, getMeta s.db modelIdKey = some m → m ≠ e.modelId →
    eval (exec x) (needFullReindex reindex e) s = .ok (true, s)

/-- A model id without a dimension that can be read. -/
def Half (db : Db) : Prop :=
  (getMeta db modelIdKey).isSome ∧ (getMeta db dimKey).bind parseUsize = none

/-! ### The two checks -/

theorem eval_checkModelPin : eval (exec x) (checkModelPin e) s = .ok (pinStatusOf s.db e, s) := rfl

theorem pinStatusOf_pinned (e : Embedder) (db : Db) : pinStatusOf (pinned e db) e = .matched := by
  unfold pinStatusOf pinned
  rw [getMeta_modelIdKey, getMeta_setMeta, getMeta_setMeta, if_pos rfl, if_pos rfl, Option.bind_some,
    parseUsize_ofNat e.dim_lt]
  unfold pinStatus
  dsimp only
  rw [if_pos ⟨rfl, rfl⟩]

theorem pinStatusOf_half (h : Half s.db) (e : Embedder) : pinStatusOf s.db e = .absent := by
  obtain ⟨m, hm⟩ := Option.isSome_iff_exists.mp h.1
  unfold pinStatusOf
  rw [hm, h.2]
  rfl

theorem pinOf_half (h : Half s.db) : pinOf s.db = none := by
  unfold pinOf
  rw [h.2]
  simp

/-- A whole pin that does not ask for a rebuild is the embedder's. -/
theorem pinStatusOf_of_not_full {m : Text} {d : ℕ} (hm : getMeta s.db modelIdKey = some m)
    (hd : (getMeta s.db dimKey).bind parseUsize = some d)
    (hfull : ¬full .cli reindex e s.db = true) : pinStatusOf s.db e = .matched := by
  have hpin : pinOf s.db = some ⟨m, d⟩ := by
    unfold pinOf
    rw [hm, hd]
    rfl
  have heq : (⟨m, d⟩ : ModelPin) = e.pin := by
    by_contra hne
    exact hfull (full_cli_iff.mpr (Or.inr ⟨_, hpin, hne⟩))
  unfold pinStatusOf
  rw [hm, hd]
  unfold pinStatus
  dsimp only
  rw [if_pos ⟨congrArg ModelPin.modelId heq, congrArg ModelPin.dim heq⟩]

/-! ### After the pin step -/

theorem prepared_half (h : Half s.db) : prepared .cli false e s = s := by
  have hfull : ¬full .cli false e s.db = true := by
    intro hfull
    rcases full_cli_iff.mp hfull with hr | ⟨pin, hpin, -⟩
    · exact absurd hr Bool.false_ne_true
    · rw [pinOf_half h] at hpin
      exact absurd hpin (by simp)
  have habs : ¬(Party.cli = .cli ∧ (getMeta s.db modelIdKey).isNone = true) := by
    rintro ⟨-, hnone⟩
    have hsome := h.1
    rw [Option.isNone_iff_eq_none.mp hnone] at hsome
    exact absurd hsome (by simp)
  unfold prepared
  rw [if_neg hfull, if_neg habs]

/-- The step leaves the embedder's pin if there was a whole pin, or no model id. -/
theorem pinStatusOf_prepared (h : reindex = true ∨ ¬Half s.db) :
    pinStatusOf (prepared .cli reindex e s).db e = .matched := by
  unfold prepared
  split_ifs with hfull habs
  · exact pinStatusOf_pinned _ _
  · exact pinStatusOf_pinned _ _
  · have hhalf : ¬Half s.db := by
      rcases h with hr | hh
      · exact absurd (full_cli_iff.mpr (Or.inl hr)) hfull
      · exact hh
    obtain ⟨m, hm⟩ : ∃ m, getMeta s.db modelIdKey = some m := by
      rw [← Option.ne_none_iff_exists']
      intro hnone
      exact habs ⟨rfl, by rw [hnone]; rfl⟩
    obtain ⟨d, hd⟩ : ∃ d, (getMeta s.db dimKey).bind parseUsize = some d := by
      rw [← Option.ne_none_iff_exists']
      intro hnone
      exact hhalf ⟨by rw [hm]; rfl, hnone⟩
    exact pinStatusOf_of_not_full hm hd hfull

theorem full_of_other {m : Text} (hm : getMeta s.db modelIdKey = some m) (hne : m ≠ e.modelId)
    (h : reindex = true ∨ ¬Half s.db) : full .cli reindex e s.db = true := by
  rcases h with hr | hhalf
  · exact full_cli_iff.mpr (Or.inl hr)
  obtain ⟨d, hd⟩ : ∃ d, (getMeta s.db dimKey).bind parseUsize = some d := by
    rw [← Option.ne_none_iff_exists']
    intro hnone
    exact hhalf ⟨by rw [hm]; rfl, hnone⟩
  refine full_cli_iff.mpr (Or.inr ⟨⟨m, d⟩, ?_, fun heq => hne (congrArg ModelPin.modelId heq)⟩)
  unfold pinOf
  rw [hm, hd]
  rfl

/-- **The pin is repaired exactly when it is not half-written**, or rebuilt on demand. -/
theorem repairs_iff : Repairs x reindex e s ↔ reindex = true ∨ ¬Half s.db := by
  constructor
  · intro h
    by_contra hn
    push Not at hn
    obtain ⟨hr, hhalf⟩ := hn
    have hr : reindex = false := by simpa using hr
    rw [hr] at h
    have hstep := h.matched s (by rw [eval_prepare, prepared_half hhalf])
    rw [eval_checkModelPin, pinStatusOf_half hhalf] at hstep
    simp at hstep
  · intro h
    refine ⟨fun t ht => ?_, fun m hm hne => ?_⟩
    · rw [eval_prepare] at ht
      obtain ⟨-, rfl⟩ := Prod.mk.inj (Except.ok.inj ht)
      rw [eval_checkModelPin, pinStatusOf_prepared h]
    · rw [eval_needFullReindex, full_of_other hm hne h]

/-! ### A run that stopped -/

/-- A first run that stopped between the two writes. -/
def stopped : Project := stateAfter sample 5 (pass .cli (request aAndB 1) bge) Project.empty

/-- **A half-written pin** stays, and the run of another model takes it for its own. -/
theorem not_repairs : ¬∀ reindex e s, Repairs sample reindex e s := by
  intro h
  have hhalf : Half stopped.db := ⟨by decide, by decide⟩
  have hbuilt := (h false nomic stopped).rebuilds _ (show _ = some bge.modelId by decide) (by decide)
  rw [eval_needFullReindex] at hbuilt
  have hfull : full .cli false nomic stopped.db = true :=
    (Prod.mk.inj (Except.ok.inj hbuilt)).1
  rcases full_cli_iff.mp hfull with hr | ⟨pin, hpin, -⟩
  · exact absurd hr Bool.false_ne_true
  · rw [pinOf_half hhalf] at hpin
    exact absurd hpin (by simp)

end BrainEngine.Passes.PinRepair
