import BrainEngine.Core.Sample

/-! # The token budget

What `assemble` packs is the greedy choice of `Lib.Greedy`, so its soundness and maximality are those
of the choice; none of its sums overflows if the estimates together do not. -/

namespace BrainEngine.Query.Packing

open BrainEngine.Rust.Usize BrainEngine.Lib.Greedy BrainEngine.Core.Retrieve

/-- The token estimates of some chunks together. -/
def tokens (cs : List RetrievedChunk) : ℕ := (cs.map RetrievedChunk.tokenEstimate).sum

/-- `ctx` packs the retrieved chunks soundly and as far as the budget goes. -/
structure Packs (retrieved : List RetrievedChunk) (budget projectTokens : ℕ) (ctx : Context) :
    Prop where
  rankOrder : ctx.chunks.Sublist retrieved
  cost : ctx.contextTokens = tokens ctx.chunks
  sound : ctx.contextTokens ≤ budget
  /-- The chunks before the first one that does not fit are kept. -/
  firstFit : ∀ pre, pre <+: retrieved → tokens pre ≤ budget → pre <+: ctx.chunks
  /-- The chunks that are not kept are counted, and none of them would fit now. -/
  maximal : ∃ rest : List RetrievedChunk, rest.Sublist retrieved ∧
    (ctx.chunks ++ rest).Perm retrieved ∧ rest.length = ctx.droppedCount ∧
      ∀ c ∈ rest, budget < ctx.contextTokens + c.tokenEstimate
  counted : ctx.chunks.length + ctx.droppedCount = retrieved.length
  saved : (ctx.theoreticalSaved : ℤ) = max 0 ((projectTokens : ℤ) - ctx.contextTokens)

variable {retrieved : List RetrievedChunk} {budget projectTokens : ℕ}

variable (retrieved budget projectTokens) in
theorem packs_assemble : Packs retrieved budget projectTokens (assemble retrieved budget projectTokens) := by
  have hperm : (kept RetrievedChunk.tokenEstimate budget 0 retrieved ++
      dropped RetrievedChunk.tokenEstimate budget 0 retrieved).Perm retrieved :=
    perm_kept_dropped retrieved 0
  have hsum := sum_kept_le (w := RetrievedChunk.tokenEstimate) retrieved (Nat.zero_le budget)
  rw [Nat.zero_add] at hsum
  rw [assemble_eq]
  constructor
  · exact kept_sublist retrieved 0
  · rfl
  · exact hsum
  · intro pre hpre hb
    refine isPrefix_kept retrieved hpre ?_
    rw [Nat.zero_add]
    exact hb
  · refine ⟨_, dropped_sublist retrieved 0, hperm, rfl, fun c hc => ?_⟩
    have hlt := lt_of_mem_dropped retrieved hc
    rwa [Nat.zero_add] at hlt
  · have hlen := hperm.length_eq
    rwa [List.length_append] at hlen
  · dsimp only
    omega

/-- **No sum of the loop overflows** if the estimates that are left do not with what is spent. -/
theorem packUsize_eq : ∀ (cs : List RetrievedChunk) (ctx : Context),
    ctx.contextTokens + tokens cs < 2 ^ 64 → ctx.droppedCount + cs.length < 2 ^ 64 →
      packUsize budget ctx cs = some (cs.foldl (pack budget) ctx)
  | [], ctx, _, _ => rfl
  | c :: cs, ctx, hsum, hlen => by
    have htokens : tokens (c :: cs) = c.tokenEstimate + tokens cs := List.sum_cons
    rw [List.length_cons] at hlen
    rw [packUsize, checkedAdd_of_lt (by omega), List.foldl_cons]
    simp only [Option.bind_eq_bind, Option.bind_some]
    by_cases h : ctx.contextTokens + c.tokenEstimate ≤ budget
    · have hp : pack budget ctx c = { ctx with
          contextTokens := ctx.contextTokens + c.tokenEstimate, chunks := ctx.chunks ++ [c] } :=
        if_pos h
      rw [if_pos h, hp]
      exact packUsize_eq cs _ (by dsimp only; omega) (by dsimp only; omega)
    · have hp : pack budget ctx c = { ctx with droppedCount := ctx.droppedCount + 1 } := if_neg h
      rw [if_neg h, checkedAdd_of_lt (by omega), hp]
      exact packUsize_eq cs _ (by dsimp only; omega) (by dsimp only; omega)

/-- **Budget packing is sound and maximal.** If the estimates of the retrieved chunks together are below
`2 ^ 64`, as the length of a `Vec` is, no sum overflows, and the context packs the chunks. -/
theorem packs_assembleUsize (hsum : tokens retrieved < 2 ^ 64) (hlen : retrieved.length < 2 ^ 64)
    (budget projectTokens : ℕ) :
    ∃ ctx, assembleUsize retrieved budget projectTokens = some ctx ∧
      Packs retrieved budget projectTokens ctx := by
  refine ⟨assemble retrieved budget projectTokens, ?_, packs_assemble retrieved budget projectTokens⟩
  unfold assembleUsize
  rw [packUsize_eq retrieved { projectTokens } (by rwa [Nat.zero_add]) (by rwa [Nat.zero_add])]
  rfl

/-- A chunk that costs so much. -/
def costing (chunkId tokenEstimate : ℕ) : RetrievedChunk where
  chunkId := chunkId
  filePath := "a.txt".toList
  startLine := 1
  endLine := 1
  content := []
  score := 0
  tokenEstimate := tokenEstimate

/-- The second of three chunks does not fit, and the third one does. -/
theorem packs_threeChunks : ∃ ctx,
    assembleUsize [costing 1 40, costing 2 80, costing 3 50] 100 1000 = some ctx ∧
      Packs [costing 1 40, costing 2 80, costing 3 50] 100 1000 ctx :=
  packs_assembleUsize (by decide) (by decide) 100 1000

end BrainEngine.Query.Packing
