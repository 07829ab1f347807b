import BrainEngine.Lib.Greedy
import BrainEngine.Rust.Usize
import BrainEngine.Core.Vectors
import BrainEngine.Core.Docs
import Mathlib.Data.List.Perm.Subperm
import Mathlib.Algebra.Order.Group.Nat
import Mathlib.Algebra.Order.BigOperators.Group.List

/-! # Retrieval and context assembly

The hits of the vector search get their lines and token counts from the database; the context packs
them, in rank order, into a token budget. -/

namespace BrainEngine.Core.Retrieve

open BrainEngine.Rust.Str BrainEngine.Rust.Usize BrainEngine.Lib.Rowid BrainEngine.Lib.Greedy
open BrainEngine.Core.External BrainEngine.Core.Chunking
open BrainEngine.Core.Database BrainEngine.Core.Docs BrainEngine.Core.Vectors

/-- LanceDB's nearest-neighbour query, which answers with rows and their distances, and the score
`(1 - distance).clamp(0, 1)` of `f32` arithmetic. -/
structure Lance where
  nearest : VectorTable → List F32 → ℕ → Except Text (List (VectorRow × F32))
  score : F32 → F32

/-- A query answers with rows of the table, each at most as often as it is there, and with at most as
many as it is asked for. -/
structure Lance.Lawful (l : Lance) : Prop where
  subperm : ∀ {tbl query limit hits}, l.nearest tbl query limit = .ok hits →
    (hits.map Prod.fst).Subperm tbl.rows
  length_le : ∀ {tbl query limit hits}, l.nearest tbl query limit = .ok hits → hits.length ≤ limit

/-- A single result from a vector search. -/
structure SearchHit where
  chunkId : ℕ
  filePath : Text
  content : Text
  score : F32
  deriving DecidableEq

/-- `extract_hits`. -/
def extractHits (l : Lance) (hits : List (VectorRow × F32)) : List SearchHit :=
  hits.map fun h =>
    { chunkId := h.1.chunkId, filePath := h.1.filePath, content := h.1.content, score := l.score h.2 }

/-- `VectorStore::search`: the `top_k` closest chunks to the query. -/
def searchVectors (l : Lance) (vs : VectorStore) (query : List F32) (topK : ℕ) :
    Except Failure (List SearchHit) :=
  if topK = 0 ∨ query = [] then .ok []
  else match vs with
    | none => .ok []
    | some tbl =>
      if tbl.rows.length = 0 then .ok []
      else match l.nearest tbl query (min topK tbl.rows.length) with
        | .ok hits => .ok (extractHits l hits)
        | .error message => .error (.error (.vector message))

/-- A fully enriched chunk returned by the retrieval pipeline. -/
structure RetrievedChunk where
  chunkId : ℕ
  filePath : Text
  startLine : ℕ
  endLine : ℕ
  content : Text
  score : F32
  tokenEstimate : ℕ
  deriving DecidableEq

/-- `SELECT id, start_line, end_line, token_estimate FROM chunks WHERE id IN (…)`, by id. -/
def chunkMeta (db : Db) (ids : List ℕ) : List (ℕ × ℕ × ℕ × ℕ) :=
  (db.chunks.rows.filter fun a => a.1 ∈ ids).map fun a =>
    (a.1, a.2.startLine, a.2.endLine, a.2.tokenEstimate)

/-- One hit with its metadata; a hit whose chunk is not in the database gets zeros, and an estimate of
zero is replaced by the byte heuristic. -/
def enrichHit (found : List (ℕ × ℕ × ℕ × ℕ)) (hit : SearchHit) : RetrievedChunk :=
  let m := (found.lookup hit.chunkId).getD (0, 0, 0)
  { chunkId := hit.chunkId
    filePath := hit.filePath
    startLine := m.1
    endLine := m.2.1
    content := hit.content
    score := hit.score
    tokenEstimate := if m.2.2 = 0 then estimate hit.content else m.2.2 }

/-- Join search hits with the metadata of the database, in rank order. -/
def enrich (db : Db) (hits : List SearchHit) : List RetrievedChunk :=
  hits.map (enrichHit (chunkMeta db (hits.map SearchHit.chunkId)))

/-- `retrieve::search`. -/
def search (l : Lance) (vs : VectorStore) (db : Db) (query : List F32) (topK : ℕ) :
    Except Failure (List RetrievedChunk) :=
  (searchVectors l vs query topK).map fun hits => if hits.isEmpty then [] else enrich db hits

/-- The assembled context. -/
structure Context where
  chunks : List RetrievedChunk := []
  contextTokens : ℕ := 0
  projectTokens : ℕ := 0
  theoreticalSaved : ℕ := 0
  droppedCount : ℕ := 0
  deriving DecidableEq

/-- One chunk is packed if it fits, and dropped otherwise. -/
def pack (budget : ℕ) (ctx : Context) (c : RetrievedChunk) : Context :=
  if ctx.contextTokens + c.tokenEstimate ≤ budget then
    { ctx with contextTokens := ctx.contextTokens + c.tokenEstimate, chunks := ctx.chunks ++ [c] }
  else { ctx with droppedCount := ctx.droppedCount + 1 }

/-- `context::assemble`. -/
def assemble (retrieved : List RetrievedChunk) (budget projectTokens : ℕ) : Context :=
  let ctx := retrieved.foldl (pack budget) { projectTokens }
  { ctx with theoreticalSaved := projectTokens - ctx.contextTokens }

/-- The loop of `assemble` with the sums of `usize`, if none overflows. -/
def packUsize (budget : ℕ) : Context → List RetrievedChunk → Option Context
  | ctx, [] => some ctx
  | ctx, chunk :: retrieved => do
    let sum ← checkedAdd ctx.contextTokens chunk.tokenEstimate
    if sum ≤ budget then
      packUsize budget { ctx with contextTokens := sum, chunks := ctx.chunks ++ [chunk] } retrieved
    else
      let droppedCount ← checkedAdd ctx.droppedCount 1
      packUsize budget { ctx with droppedCount } retrieved

/-- `assemble` with the sums of `usize`; the difference saturates at zero. -/
def assembleUsize (retrieved : List RetrievedChunk) (budget projectTokens : ℕ) : Option Context := do
  let ctx ← packUsize budget { projectTokens } retrieved
  return { ctx with theoreticalSaved := projectTokens - ctx.contextTokens }

/-- `tokens::project_total`. -/
def projectTotal (db : Db) : ℕ := (db.chunks.rows.map fun a => a.2.tokenEstimate).sum

/-! ### Hits -/

/-- **Hits are rows of the store**, each at most as often as it is there. -/
theorem searchVectors_ok {l : Lance} (hl : l.Lawful) {vs : VectorStore} {query : List F32} {topK : ℕ}
    {hits : List SearchHit} (h : searchVectors l vs query topK = .ok hits) :
    ∃ found : List (VectorRow × F32), hits = extractHits l found ∧
      (found.map Prod.fst).Subperm (rows vs) ∧ found.length ≤ topK := by
  have hnil : ∀ {hits : List SearchHit}, (.ok [] : Except Failure (List SearchHit)) = .ok hits →
      ∃ found : List (VectorRow × F32), hits = extractHits l found ∧
        (found.map Prod.fst).Subperm (rows vs) ∧ found.length ≤ topK := by
    intro hits h
    cases h
    exact ⟨[], rfl, List.nil_subperm, Nat.zero_le _⟩
  unfold searchVectors at h
  split_ifs at h
  · exact hnil h
  cases vs with
  | none => exact hnil h
  | some tbl =>
    dsimp only at h
    split_ifs at h
    · exact hnil h
    rcases hn : l.nearest tbl query (min topK tbl.rows.length) with message | found
    · rw [hn] at h
      simp at h
    · rw [hn] at h
      cases h
      exact ⟨found, rfl, hl.subperm hn, (hl.length_le hn).trans (min_le_left _ _)⟩

theorem lookup_chunkMeta {db : Db} {ids : List ℕ} {i : ℕ} {c : ChunkRow}
    (hc : (i, c) ∈ db.chunks.rows) (hi : i ∈ ids) :
    (chunkMeta db ids).lookup i = some (c.startLine, c.endLine, c.tokenEstimate) := by
  have hkeys : (chunkMeta db ids).map Prod.fst =
      (db.chunks.rows.filter fun a => a.1 ∈ ids).map Prod.fst := by
    unfold chunkMeta
    rw [List.map_map]
    rfl
  have hnd : ((chunkMeta db ids).map Prod.fst).Nodup := by
    rw [hkeys]
    exact (List.filter_sublist.map Prod.fst).nodup db.chunks.nodup_ids
  rw [lookup_eq_some_iff hnd]
  exact List.mem_map.mpr ⟨(i, c), List.mem_filter.mpr ⟨hc, by simpa using hi⟩, rfl⟩

/-! ### Packing -/

theorem foldl_pack (budget : ℕ) : ∀ (cs : List RetrievedChunk) (ctx : Context),
    cs.foldl (pack budget) ctx = { ctx with
      chunks := ctx.chunks ++ kept RetrievedChunk.tokenEstimate budget ctx.contextTokens cs
      contextTokens := ctx.contextTokens + ((kept RetrievedChunk.tokenEstimate budget
        ctx.contextTokens cs).map RetrievedChunk.tokenEstimate).sum
      droppedCount := ctx.droppedCount +
        (dropped RetrievedChunk.tokenEstimate budget ctx.contextTokens cs).length }
  | [], ctx => by simp [kept, dropped]
  | c :: cs, ctx => by
    rw [List.foldl_cons]
    by_cases h : ctx.contextTokens + c.tokenEstimate ≤ budget
    · have hp : pack budget ctx c = { ctx with
          contextTokens := ctx.contextTokens + c.tokenEstimate, chunks := ctx.chunks ++ [c] } :=
        if_pos h
      rw [foldl_pack budget cs, hp, kept_cons_of_le h, dropped_cons_of_le h]
      simp [Nat.add_assoc]
    · have hp : pack budget ctx c = { ctx with droppedCount := ctx.droppedCount + 1 } := if_neg h
      rw [foldl_pack budget cs, hp, kept_cons_of_lt h, dropped_cons_of_lt h]
      simp [Nat.add_assoc, Nat.add_comm]

/-- **The assembled context**: what the greedy packing keeps, and its cost. -/
theorem assemble_eq (retrieved : List RetrievedChunk) (budget projectTokens : ℕ) :
    let chunks := kept RetrievedChunk.tokenEstimate budget 0 retrieved
    assemble retrieved budget projectTokens = {
      chunks
      contextTokens := (chunks.map RetrievedChunk.tokenEstimate).sum
      projectTokens
      theoreticalSaved := projectTokens - (chunks.map RetrievedChunk.tokenEstimate).sum
      droppedCount := (dropped RetrievedChunk.tokenEstimate budget 0 retrieved).length } := by
  unfold assemble
  rw [foldl_pack]
  simp

/-- **The cost of a context** is that of its chunks, which are some of the retrieved ones, and at most
the budget. -/
theorem assemble_spec (retrieved : List RetrievedChunk) (budget projectTokens : ℕ) :
    (assemble retrieved budget projectTokens).chunks.Sublist retrieved ∧
      (assemble retrieved budget projectTokens).contextTokens =
        ((assemble retrieved budget projectTokens).chunks.map RetrievedChunk.tokenEstimate).sum ∧
      (assemble retrieved budget projectTokens).contextTokens ≤ budget := by
  rw [assemble_eq]
  refine ⟨kept_sublist retrieved 0, rfl, ?_⟩
  have h := sum_kept_le (w := RetrievedChunk.tokenEstimate) retrieved (Nat.zero_le budget)
  rwa [Nat.zero_add] at h

/-- Chunks of the table that are all different cost at most as much as the whole table. -/
theorem sum_le_projectTotal {db : Db} {cs : List RetrievedChunk}
    (hnd : (cs.map RetrievedChunk.chunkId).Nodup)
    (hmem : ∀ c ∈ cs, ∃ row, (c.chunkId, row) ∈ db.chunks.rows ∧ c.tokenEstimate = row.tokenEstimate) :
    (cs.map RetrievedChunk.tokenEstimate).sum ≤ projectTotal db := by
  let key (c : RetrievedChunk) : ℕ × ℕ := (c.chunkId, c.tokenEstimate)
  have hnodup : (cs.map key).Nodup := by
    refine List.Nodup.of_map Prod.fst ?_
    rw [List.map_map]
    exact hnd
  have hsub : cs.map key ⊆ db.chunks.rows.map fun a => (a.1, a.2.tokenEstimate) := by
    intro a ha
    obtain ⟨c, hc, rfl⟩ := List.mem_map.mp ha
    obtain ⟨row, hrow, ht⟩ := hmem c hc
    exact List.mem_map.mpr ⟨_, hrow, by simp [key, ht]⟩
  obtain ⟨part, hperm, hpart⟩ := List.subperm_of_subset hnodup hsub
  have h1 : (cs.map RetrievedChunk.tokenEstimate).sum = (part.map Prod.snd).sum := by
    have := (hperm.map Prod.snd).sum_eq
    rw [this, List.map_map]
    rfl
  have h2 : (part.map Prod.snd).sum ≤ ((db.chunks.rows.map fun a =>
      (a.1, a.2.tokenEstimate)).map Prod.snd).sum :=
    (hpart.map Prod.snd).sum_le_sum fun _ _ => Nat.zero_le _
  rw [List.map_map] at h2
  rw [h1]
  exact h2

end BrainEngine.Core.Retrieve
