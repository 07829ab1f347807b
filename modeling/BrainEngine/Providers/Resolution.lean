import BrainEngine.Core.Provider

/-! # Provider resolution ends unless entries refer to themselves

An `auto` entry refers to two names of the same registry, and nothing keeps these from leading back to
it. `fromProvider` returns, whatever the environment, exactly when they do not. -/

namespace BrainEngine.Providers.Resolution

open BrainEngine.Rust.Str BrainEngine.Rust.Json BrainEngine.Lib.Fallback BrainEngine.Core.Api
open BrainEngine.Core.Provider

variable {w : World} {providers : Providers} {dir : Option Text} {name : Text}

theorem mem_of_refs {m : Text} {r : Text × Text} (h : refs providers m = some r) :
    ∃ cfg, (m, cfg) ∈ providers.embedding ∧ runtimeOf cfg = "auto".toList := by
  unfold refs at h
  split at h
  · simp at h
  · next cfg hcfg =>
    obtain ⟨l, l', heq, -⟩ := List.lookup_eq_some_iff.mp hcfg
    refine ⟨cfg, by rw [heq]; simp, ?_⟩
    by_contra hauto
    rw [if_neg hauto] at h
    simp at h

/-- **Without cycles every resolution returns**, at most one level deeper than there are entries. -/
theorem isSome_fromProvider (h : NoCycle (refs providers) name) (w : World) (dir : Option Text) :
    (fromProvider w providers dir (providers.embedding.length + 1) name 0).isSome := by
  have hnames : ∀ m, (refs providers m).isSome → m ∈ providers.embedding.map Prod.fst := by
    intro m hm
    obtain ⟨r, hr⟩ := Option.isSome_iff_exists.mp hm
    obtain ⟨cfg, hcfg, -⟩ := mem_of_refs hr
    exact List.mem_map.mpr ⟨(m, cfg), hcfg, rfl⟩
  have hsome := isSome_of_noCycle (answer w providers dir) h hnames 0
  rw [List.length_map] at hsome
  rw [fromProvider_eq]
  exact hsome

/-- A world in which nothing can be built: no variable is set and the model does not load. -/
def offline : World where
  env _ := none
  tryNew _ _ := some "Failed to retrieve onnx/model.onnx".toList

variable (name) in
theorem apiNew_offline (cfg : Value) : ∃ e, apiNew offline name cfg = .error e := by
  unfold apiNew
  rcases required name cfg "api_base" with e | apiBase
  · exact ⟨e, rfl⟩
  rcases required name cfg "model" with e | model
  · exact ⟨e, rfl⟩
  rcases required name cfg "api_key_env" with e | apiKeyEnv
  · exact ⟨e, rfl⟩
  exact ⟨.missingApiKey apiKeyEnv, rfl⟩

theorem answer_offline (m : Text) (attempts : ℕ) :
    ∃ e t, answer offline providers dir m attempts = (.error e, t) := by
  unfold answer
  split
  · exact ⟨_, _, rfl⟩
  · next cfg _ =>
    split_ifs
    · exact ⟨_, _, rfl⟩
    · obtain ⟨e, he⟩ := apiNew_offline m cfg
      exact ⟨e, attempts, by rw [he]⟩
    · exact ⟨_, _, rfl⟩

theorem noCycle_of_isSome_offline {depth : ℕ}
    (h : (fromProvider offline providers dir depth name 0).isSome) :
    NoCycle (refs providers) name := by
  rw [fromProvider_eq] at h
  exact noCycle_of_isSome (fun m s _ => answer_offline m s) h

/-- **Resolution returns, whatever the environment, exactly when no entry that the name leads to leads
back to itself.** -/
theorem returns_iff (providers : Providers) (name : Text) :
    (∀ w dir, ∃ depth, (fromProvider w providers dir depth name 0).isSome) ↔
      NoCycle (refs providers) name := by
  constructor
  · intro h
    obtain ⟨depth, hdepth⟩ := h offline none
    exact noCycle_of_isSome_offline hdepth
  · exact fun h w dir => ⟨_, isSome_fromProvider h w dir⟩

/-- The registry that comes with the program has no references. -/
theorem noCycle_default (name : Text) : NoCycle (refs Providers.default) name := by
  refine noCycle_of_flat (fun m first second hm => ?_) name
  obtain ⟨cfg, hcfg, hauto⟩ := mem_of_refs hm
  have hall : ∀ a ∈ Providers.default.embedding, runtimeOf a.2 ≠ "auto".toList := by decide
  exact absurd hauto (hall _ hcfg)

/-- **An entry that is its own first choice** is resolved for ever. -/
theorem not_returns : ¬∀ (providers : Providers) (name : Text) (w : World) (dir : Option Text),
    ∃ depth, (fromProvider w providers dir depth name 0).isSome := by
  intro h
  obtain ⟨depth, hdepth⟩ := h
    ⟨[("a".toList, .object [("runtime".toList, str "auto"), ("primary".toList, str "a")])]⟩ "a".toList
    offline none
  have hself : Refers (refs ⟨[("a".toList, .object [("runtime".toList, str "auto"),
      ("primary".toList, str "a")])]⟩) "a".toList "a".toList :=
    ⟨"a".toList, "local".toList, by decide, Or.inl rfl⟩
  exact noCycle_of_isSome_offline hdepth _ .refl (.single hself)

end BrainEngine.Providers.Resolution
