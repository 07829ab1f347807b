import BrainEngine.Core.Api
import BrainEngine.Lib.Fallback
import BrainEngine.Rust.Json

/-! # Building an embedder from a provider entry

`from_provider`, with a bound on the depth of its recursion. What it prints is left out. The local
model is built by a library: whether that succeeds may differ from one attempt to the next, so the
attempts are counted. -/

namespace BrainEngine.Core.Provider

open BrainEngine.Rust.Str BrainEngine.Rust.Json BrainEngine.Lib.Fallback BrainEngine.Core.Api

/-- The registry of `~/.brain/providers.json`: the embedding providers by name. -/
structure Providers where
  embedding : List (Text × Value)

/-- A JSON string. -/
def str (s : String) : Value := .string s.toList

def Providers.default : Providers where
  embedding := [
    ("local".toList, .object [("model".toList, str "bge-small-en-v1.5"),
      ("dim".toList, .number (.posInt 384)), ("runtime".toList, str "cpu")]),
    ("deepseek".toList, .object [("api_base".toList, str "https://api.deepseek.com"),
      ("model".toList, str "deepseek-embedding"), ("api_key_env".toList, str "DEEPSEEK_API_KEY")]),
    ("openai".toList, .object [("api_base".toList, str "https://api.openai.com/v1"),
      ("model".toList, str "text-embedding-3-small"), ("dim".toList, .number (.posInt 1536)),
      ("api_key_env".toList, str "OPENAI_API_KEY")])]

/-- What building an embedder depends on. -/
structure World where
  /-- `env::var`. -/
  env : Text → Option Text
  /-- `TextEmbedding::try_new` for a cache directory, at each attempt: the error's text, if it fails. -/
  tryNew : Option Text → ℕ → Option Text

/-- `Box<dyn Embedder>`. -/
inductive Backend
  | localModel
  | api (api : ApiEmbedder)

/-- `LocalEmbedder::new`. -/
def localNew (w : World) (modelCacheDir : Option Text) (attempts : ℕ) :
    Except EmbedError Backend × ℕ :=
  match w.tryNew modelCacheDir attempts with
  | some message => (.error (.fastembed message), attempts + 1)
  | none => (.ok .localModel, attempts + 1)

/-- A field that the provider must have. -/
def required (providerName : Text) (cfg : Value) (field : String) : Except EmbedError Text :=
  match cfg.getStr field with
  | some text => .ok text
  | none => .error (.api ("provider '".toList ++ providerName ++ "' missing '".toList ++
      field.toList ++ "'".toList))

/-- The branch `"api"`. -/
def apiNew (w : World) (providerName : Text) (cfg : Value) : Except EmbedError Backend := do
  let apiBase ← required providerName cfg "api_base"
  let model ← required providerName cfg "model"
  let apiKeyEnv ← required providerName cfg "api_key_env"
  let dim := ((cfg.get "dim").bind Value.asU64).getD 1024
  let api ← ApiEmbedder.new w.env apiBase model apiKeyEnv dim.toNat dim.toNat_lt
  return .api api

/-- The field `runtime`. -/
def runtimeOf (cfg : Value) : Text := (cfg.getStr "runtime").getD "api".toList

/-- `from_provider`: the embedder or the error, and the attempts made by then. -/
def fromProvider (w : World) (providers : Providers) (modelCacheDir : Option Text) :
    ℕ → Text → ℕ → Option (Except EmbedError Backend × ℕ)
  | 0, _, _ => none
  | depth + 1, providerName, attempts =>
    match providers.embedding.lookup providerName with
    | none => some (.error (.unknownProvider providerName), attempts)
    | some cfg =>
      let runtime := runtimeOf cfg
      if runtime = "cpu".toList ∨ runtime = "local".toList then
        some (localNew w modelCacheDir attempts)
      else if runtime = "api".toList then some (apiNew w providerName cfg, attempts)
      else if runtime = "auto".toList then
        let primary := (cfg.getStr "primary").getD "deepseek".toList
        let fallback := (cfg.getStr "fallback").getD "local".toList
        match fromProvider w providers modelCacheDir depth primary attempts with
        | none => none
        | some (.ok emb, attempts) => some (.ok emb, attempts)
        | some (.error _, attempts) => fromProvider w providers modelCacheDir depth fallback attempts
      else some (.error (.unsupportedRuntime runtime), attempts)

/-! ### As first choices and fallbacks -/

/-- The two names that an `auto` entry refers to. -/
def refs (providers : Providers) (name : Text) : Option (Text × Text) :=
  match providers.embedding.lookup name with
  | none => none
  | some cfg =>
    if runtimeOf cfg = "auto".toList then
      some ((cfg.getStr "primary").getD "deepseek".toList, (cfg.getStr "fallback").getD "local".toList)
    else none

/-- What the other entries are: an embedder or an error. -/
def answer (w : World) (providers : Providers) (modelCacheDir : Option Text) (name : Text)
    (attempts : ℕ) : Except EmbedError Backend × ℕ :=
  match providers.embedding.lookup name with
  | none => (.error (.unknownProvider name), attempts)
  | some cfg =>
    if runtimeOf cfg = "cpu".toList ∨ runtimeOf cfg = "local".toList then
      localNew w modelCacheDir attempts
    else if runtimeOf cfg = "api".toList then (apiNew w name cfg, attempts)
    else (.error (.unsupportedRuntime (runtimeOf cfg)), attempts)

section
variable {providers : Providers} {name : Text} {cfg : Value}

theorem refs_of_unknown (h : providers.embedding.lookup name = none) :
    refs providers name = none := by
  unfold refs
  rw [h]

variable (h : providers.embedding.lookup name = some cfg)
include h

theorem refs_of_auto (hauto : runtimeOf cfg = "auto".toList) : refs providers name =
    some ((cfg.getStr "primary").getD "deepseek".toList, (cfg.getStr "fallback").getD "local".toList) := by
  unfold refs
  rw [h]
  exact if_pos hauto

theorem refs_of_not_auto (hauto : runtimeOf cfg ≠ "auto".toList) : refs providers name = none := by
  unfold refs
  rw [h]
  exact if_neg hauto

end

/-- **The recursion of `from_provider`** is that of first choices and fallbacks. -/
theorem fromProvider_eq (w : World) (providers : Providers) (modelCacheDir : Option Text) :
    ∀ (depth : ℕ) (name : Text) (attempts : ℕ),
      fromProvider w providers modelCacheDir depth name attempts =
        resolve (refs providers) (answer w providers modelCacheDir) depth name attempts
  | 0, _, _ => rfl
  | depth + 1, name, attempts => by
    have ih := fromProvider_eq w providers modelCacheDir depth
    unfold fromProvider
    rcases hl : providers.embedding.lookup name with _ | cfg
    · rw [resolve_of_none (refs_of_unknown hl), answer, hl]
    dsimp only
    by_cases hauto : runtimeOf cfg = "auto".toList
    · have hlocal : ¬("auto".toList = "cpu".toList ∨ "auto".toList = "local".toList) := by decide
      have hapi : "auto".toList ≠ "api".toList := by decide
      rw [hauto, if_neg hlocal, if_neg hapi, if_pos rfl, resolve, refs_of_auto hl hauto]
      simp only [ih]
      rcases resolve (refs providers) (answer w providers modelCacheDir) depth
        ((cfg.getStr "primary").getD "deepseek".toList) attempts with _ | ⟨r, attempts⟩
      · rfl
      · cases r with
        | ok emb => rfl
        | error e => rfl
    · rw [if_neg hauto, resolve_of_none (refs_of_not_auto hl hauto), answer, hl]
      dsimp only
      split_ifs
      · rfl
      · rfl
      · rfl

end BrainEngine.Core.Provider
