import BrainEngine.Core.Embedding

/-! # The remote embedder

`ApiEmbedder` of `api.rs`. The server is a function from requests to replies; what it answers is in no
way checked against what it was asked. -/

namespace BrainEngine.Core.Api

open BrainEngine.Rust.Str BrainEngine.Rust.Slice BrainEngine.Core.Vectors BrainEngine.Core.Embedding

/-- `EmbedError`, the variants the modelled functions raise. -/
inductive EmbedError
  | fastembed (message : Text)
  | unknownProvider (name : Text)
  | unsupportedRuntime (runtime : Text)
  | missingApiKey (envVar : Text)
  | api (message : Text)
  deriving DecidableEq

/-- The texts of `EmbedError`. -/
def EmbedError.text : EmbedError → Text
  | .fastembed message => "fastembed error: ".toList ++ message
  | .unknownProvider name =>
    "unknown embedding provider '".toList ++ name ++ "'; check ~/.brain/providers.json".toList
  | .unsupportedRuntime runtime => "unsupported embedding runtime '".toList ++ runtime ++ "'".toList
  | .missingApiKey envVar =>
    "missing API key: environment variable '".toList ++ envVar ++ "' is not set".toList
  | .api message => "API request failed: ".toList ++ message

structure ApiEmbedder where
  url : Text
  model : Text
  apiKey : Text
  dim : ℕ
  dim_lt : dim < 2 ^ 64

/-- What is posted: the body, and the headers with the key. -/
structure EmbedRequest where
  url : Text
  apiKey : Text
  model : Text
  input : List Text

structure EmbedData where
  embedding : List F32
  index : ℕ
  deriving DecidableEq

/-- How a request ends. -/
inductive Reply
  /-- Nothing comes back. -/
  | unsent (message : Text)
  /-- A status other than success, with the text that came with it. -/
  | status (status text : Text)
  /-- Success, with a body that is no `EmbedResponse`. -/
  | invalid (message : Text)
  | data (items : List EmbedData)

/-- `trim_end_matches`. -/
def trimEndMatches (c : Char) (text : Text) : Text := (text.reverse.dropWhile (· = c)).reverse

/-- Build from parsed `providers.json` fields, with the environment variables. -/
def ApiEmbedder.new (env : Text → Option Text) (apiBase model apiKeyEnv : Text) (dim : ℕ)
    (dim_lt : dim < 2 ^ 64) : Except EmbedError ApiEmbedder :=
  match env apiKeyEnv with
  | none => .error (.missingApiKey apiKeyEnv)
  | some apiKey => .ok {
    url := trimEndMatches '/' apiBase ++ "/embeddings".toList
    model, apiKey, dim, dim_lt }

def ApiEmbedder.request (api : ApiEmbedder) (texts : List Text) : EmbedRequest :=
  { url := api.url, apiKey := api.apiKey, model := api.model, input := texts }

/-- `ApiEmbedder::embed`: the embeddings of the response in the order of their indices. -/
def ApiEmbedder.embed (s : UnstableSort EmbedData.index) (server : EmbedRequest → Reply)
    (api : ApiEmbedder) (texts : List Text) : Except EmbedError (List (List F32)) :=
  match server (api.request texts) with
  | .unsent message => .error (.api message)
  | .status status text => .error (.api ("HTTP ".toList ++ status ++ ": ".toList ++ text))
  | .invalid message => .error (.api ("invalid response JSON: ".toList ++ message))
  | .data items => .ok ((s.sort items).map EmbedData.embedding)

/-- The embedder of a server that does not change. -/
def ApiEmbedder.embedder (s : UnstableSort EmbedData.index) (server : EmbedRequest → Reply)
    (api : ApiEmbedder) : Embedder where
  modelId := api.model
  dim := api.dim
  dim_lt := api.dim_lt
  embed texts := (api.embed s server texts).mapError EmbedError.text

end BrainEngine.Core.Api
