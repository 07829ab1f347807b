import BrainEngine.Core.Cache
import BrainEngine.Core.Retrieve
import BrainEngine.Core.Embedding

/-! # Queries

`handle_query` of the daemon and `query::run` of the command line, from the cache to the assembled
context. Both look the query up by its text, then by its vector, and store what they retrieve under the
text and the model; only the command line asks first whether there is anything to search. Metrics, the
locator and the two routers change neither the cache nor the chunks. -/

namespace BrainEngine.Core.Query

open BrainEngine.Rust.Str BrainEngine.Core.External BrainEngine.Core.Vectors
open BrainEngine.Core.Database BrainEngine.Core.Embedding BrainEngine.Core.Retrieve
open BrainEngine.Core.Cache

/-- What is searched. -/
structure Index where
  vs : VectorStore
  db : Db

inductive FrontEnd
  | daemon
  | cli
  deriving DecidableEq

/-- The limits of a request. -/
structure Limits where
  topK : ℕ
  tokens : ℕ
  deriving DecidableEq

/-- A query with its settings, and what the clock says at each of its four readings. -/
structure Call where
  frontEnd : FrontEnd
  query : Text
  limits : Limits
  noCache : Bool
  cfg : CacheConfig
  embedder : Embedder
  atExact : ℤ
  atSemantic : ℤ
  atStore : ℤ
  atPurge : ℤ

inductive Answer
  /-- From the cache. -/
  | cached (response : Text) (kind : HitKind)
  | live (ctx : Context)
  /-- Nothing to search. -/
  | notIndexed (message : Text)

/-- `citation`. -/
def citation (c : RetrievedChunk) : Text :=
  c.filePath ++ ":".toList ++ ofNat c.startLine ++ "-".toList ++ ofNat c.endLine

/-- The text that is stored: `build_cache_response`, or the daemon's, which ends one line earlier. -/
def cachedText (frontEnd : FrontEnd) (ctx : Context) : Text :=
  let quoted := ctx.chunks.map fun c =>
    citation c ++ "\n".toList ++ trimEndMatches isWhitespace c.content ++ "\n".toList
  match frontEnd with
  | .daemon => join "\n".toList quoted
  | .cli => quoted.flatMap fun q => q ++ "\n".toList

/-- Why the command line does not search. -/
def nothingToSearch (db : Db) : FrontEnd → Option Text
  | .daemon => none
  | .cli =>
    if db.chunks.rows.length = 0 then some "no chunks indexed — run `brain index` first".toList
    else if alreadyEmbeddedCount db = 0 then
      some "no embeddings found — run `brain index` (without --no-embed) first".toList
    else none

variable (x : Extern) (e : Engine) (l : Lance) (ix : Index)

/-- A lookup, unless the request is without the cache. -/
def tryCache (t : CacheTable) (c : Call) (queryVector : Option (List F32)) (now : ℤ) : CacheLookup :=
  if c.noCache then .miss else lookup x e t c.cfg c.query c.embedder.modelId queryVector now

/-- A retrieval is stored, and expired entries are dropped. -/
def remember (t : CacheTable) (c : Call) (v : List F32) (ctx : Context) : CacheTable :=
  let stored := store x e t c.cfg c.query c.embedder.modelId (cachedText c.frontEnd ctx)
    (if c.cfg.semanticEnabled then some v else none) none c.atStore
  (purgeExpired stored c.atPurge).1

/-- Only a retrieval that found something is stored. -/
def storable (c : Call) (ctx : Context) : Bool := !c.noCache && !ctx.chunks.isEmpty

/-- `retrieve::search` and `context::assemble`. -/
def retrieve (c : Call) (v : List F32) : Except Failure Context :=
  (search l ix.vs ix.db v c.limits.topK).map fun retrieved =>
    assemble retrieved c.limits.tokens (projectTotal ix.db)

/-- The vector of the query. A backend without a vector for it is a panic. -/
def embedQuery (c : Call) : Except Failure (List F32) :=
  match c.embedder.embed [c.query] with
  | .error message => .error (.error (.embed message))
  | .ok [] => .error .panic
  | .ok (v :: _) => .ok v

/-- The answer to a query, and the cache after it. -/
def handleQuery (t : CacheTable) (c : Call) : Except Failure Answer × CacheTable :=
  match nothingToSearch ix.db c.frontEnd with
  | some message => (.ok (.notIndexed message), t)
  | none =>
    match tryCache x e t c none c.atExact with
    | .hit response kind => (.ok (.cached response kind), t)
    | .miss =>
      match embedQuery c with
      | .error f => (.error f, t)
      | .ok v =>
        match if c.cfg.semanticEnabled then tryCache x e t c (some v) c.atSemantic else .miss with
        | .hit response kind => (.ok (.cached response kind), t)
        | .miss =>
          match retrieve l ix c v with
          | .error f => (.error f, t)
          | .ok ctx => (.ok (.live ctx), if storable c ctx then remember x e t c v ctx else t)

/-! ### What is retrieved -/

variable {l} {ix} {c : Call} {v : List F32} {ctx : Context}

/-- Every chunk that is retrieved costs something. -/
theorem one_le_enrich {db : Db} {hits : List SearchHit} {c : RetrievedChunk} (h : c ∈ enrich db hits) :
    1 ≤ c.tokenEstimate := by
  obtain ⟨hit, -, rfl⟩ := List.mem_map.mp h
  unfold enrichHit
  dsimp only
  split_ifs with h0
  · exact Chunking.one_le_estimate _
  · exact Nat.one_le_iff_ne_zero.mpr h0

/-- A context fits limits. -/
structure Fits (ctx : Context) (lim : Limits) : Prop where
  topK : ctx.chunks.length ≤ lim.topK
  tokens : (ctx.chunks.map RetrievedChunk.tokenEstimate).sum ≤ lim.tokens

/-- **A retrieval fits its own limits**, and its chunks cost something. -/
theorem fits_of_retrieve (hl : l.Lawful) (h : retrieve l ix c v = .ok ctx) :
    Fits ctx c.limits ∧ ∀ k ∈ ctx.chunks, 1 ≤ k.tokenEstimate := by
  unfold retrieve search at h
  cases hs : searchVectors l ix.vs v c.limits.topK with
  | error f =>
    rw [hs] at h
    cases h
  | ok hits =>
    rw [hs] at h
    cases h
    obtain ⟨found, hf, -, hlen⟩ := searchVectors_ok hl hs
    have hhits : hits.length ≤ c.limits.topK := by
      rw [hf, extractHits, List.length_map]
      exact hlen
    have hret : ∀ {rs : List RetrievedChunk}, rs = (if hits.isEmpty then [] else enrich ix.db hits) →
        rs.length ≤ c.limits.topK ∧ ∀ k ∈ rs, 1 ≤ k.tokenEstimate := by
      rintro rs rfl
      split_ifs
      · exact ⟨Nat.zero_le _, by simp⟩
      · exact ⟨by simpa [enrich] using hhits, fun k hk => one_le_enrich hk⟩
    obtain ⟨hk, hone⟩ := hret rfl
    obtain ⟨hsub, hsum, hle⟩ := assemble_spec (if hits.isEmpty then [] else enrich ix.db hits)
      c.limits.tokens (projectTotal ix.db)
    refine ⟨⟨hsub.length_le.trans hk, ?_⟩, fun k hk => hone k (hsub.subset hk)⟩
    rw [← hsum]
    exact hle

end BrainEngine.Core.Query
