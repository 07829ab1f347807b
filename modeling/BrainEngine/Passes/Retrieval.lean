import BrainEngine.Core.Retrieve
import BrainEngine.Passes.Mirror

/-! # Retrieval returns live chunks

A hit carries the text and the path that were stored with the vector, and gets its lines and its token
count from the chunk that has its id now. `Inv` says that the two belong together. An embedding pass
keeps it if it gives no id of a vector to a new chunk or rebuilds the store, and a pass without
embedding, which prunes nothing, if it rewrites and removes no file that has a vector. -/

namespace BrainEngine.Passes.Retrieval

open BrainEngine.Rust.Str BrainEngine.Lib.Rowid BrainEngine.Lib.Atomic BrainEngine.Lib.Atomic.Prog
open BrainEngine.Lib.Outcome
open BrainEngine.Core.External BrainEngine.Core.Chunking BrainEngine.Core.Database
open BrainEngine.Core.Index BrainEngine.Core.Docs BrainEngine.Core.Vectors
open BrainEngine.Core.Embedding BrainEngine.Core.Passes BrainEngine.Core.Sample
open BrainEngine.Core.Retrieve BrainEngine.Index.Runs BrainEngine.Index.ChunkIds
open BrainEngine.Passes.Loop BrainEngine.Passes.Stages BrainEngine.Passes.Counts
open BrainEngine.Passes.Mirror

variable {x : Extern} {e : Embedder} {p : Party} {r : Request} {s t : Project} {db db' : Db}

/-- The vector's chunk is in the table, with its text and in its file. -/
def LiveRow (db : Db) (row : VectorRow) : Prop :=
  ∃ c, ChunkAt db row.filePath row.chunkId c ∧ c.content = row.content

/-- The index step of a request neither rewrites nor removes a file that has a vector. -/
def SparesVectors (x : Extern) (s : Project) (r : Request) : Prop :=
  ∀ row ∈ rows s.vs, row.filePath ∈ (plan x r.tree r.cfg s.db).map Prod.fst ∧
    ∀ c, (row.filePath, FileWork.changed c) ∉ plan x r.tree r.cfg s.db

/-- A pass without embedding spares the files that have vectors; one with embedding gives no id of a
vector to a new chunk, or rebuilds the store. -/
def KeepsLive (x : Extern) (s : Project) (p : Party) (r : Request) (e : Embedder) : Prop :=
  r.noEmbed = true ∧ SparesVectors x s r ∨
    r.noEmbed = false ∧ (fresh x s r = true ∨ full p r.reindex e s.db = true)

/-- Every chunk has lines and a token count. -/
def Lined (db : Db) : Prop := ∀ i c, (i, c) ∈ db.chunks.rows →
  1 ≤ c.startLine ∧ c.startLine ≤ c.endLine ∧ 1 ≤ c.tokenEstimate

/-- What holds before the orphans are pruned. -/
structure Ready (s : Project) : Prop where
  wf : WellFormed s.db
  lined : Lined s.db
  unused : Unused s
  nodup : (storedIds s.vs).Nodup
  live : ∀ row ∈ rows s.vs, row.chunkId ∈ s.db.chunks.ids → LiveRow s.db row

/-- What holds between passes. -/
structure Inv (s : Project) : Prop extends Ready s where
  noOrphan : ∀ row ∈ rows s.vs, row.chunkId ∈ s.db.chunks.ids

theorem Inv.liveRow (h : Inv s) {row : VectorRow} (hr : row ∈ rows s.vs) : LiveRow s.db row :=
  h.live row hr (h.noOrphan row hr)

theorem inv_empty : Inv Project.empty := by
  have hno : ∀ i c, (i, c) ∉ Project.empty.db.chunks.rows := fun i c h => by
    simp [Project.empty, Db.empty] at h
  exact ⟨⟨wellFormed_empty, fun i c h => absurd h (hno i c), fun i c h => absurd h (hno i c),
    List.nodup_nil, fun _ h => absurd h List.not_mem_nil⟩, fun _ h => absurd h List.not_mem_nil⟩

/-! ### Marks -/

theorem lined_remarked (h : Remarked db db') (hl : Lined db) : Lined db' := by
  intro i c hc
  obtain ⟨c', v, hc', rfl⟩ := h.exists_mem hc
  exact hl i c' hc'

theorem liveRow_remarked (h : Remarked db db') {row : VectorRow} (hr : LiveRow db row) :
    LiveRow db' row := by
  obtain ⟨c, ⟨hc, f, hf, hp⟩, hcon⟩ := hr
  obtain ⟨v, hv⟩ := h.mem hc
  exact ⟨_, ⟨hv, f, by rw [h.files]; exact hf, hp⟩, hcon⟩

/-! ### The index step -/

section Index
variable {stats : IndexStats} (hi : indexProject x r.tree r.cfg r.now s.db = .ok (db, stats))
include hi

theorem lined_index (h : Lined s.db) : Lined db := by
  intro i c hc
  rcases mem_chunks_indexProject hi hc with hk | hn
  · exact h i c hk.mem
  · obtain ⟨text, ht⟩ := chunkOf_inserted hi hn
    obtain ⟨h1, h2, -, -, h3⟩ := mem_chunkText ht
    have hest : c.tokenEstimate = estimate c.content := h3
    exact ⟨h1, h2, by rw [hest]; exact one_le_estimate _⟩

/-- A fresh index step leaves each vector its chunk, or no chunk. -/
theorem ready_index (h : Inv s) (hf : fresh x s r = true) : Ready { s with db } := by
  refine ⟨wellFormed_indexProject hi h.wf, lined_index hi h.lined, unused_index hi h.unused hf,
    h.nodup, fun row hr hid => ?_⟩
  obtain ⟨c, hc, hcon⟩ := h.liveRow hr
  obtain ⟨c', hc'⟩ := RowTable.mem_ids.mp hid
  rcases mem_chunks_indexProject hi hc' with hk | hn
  · rw [RowTable.row_unique hk.mem hc.1] at hk
    exact ⟨c, hk.chunkAt _ hc, hcon⟩
  · exact absurd (List.mem_map_of_mem (f := fun r => r.chunkId) hr) (hn.fresh _ hf)

/-- An index step that spares the files with vectors leaves each vector its chunk. -/
theorem inv_index (h : Inv s) (hsp : SparesVectors x s r) : Inv { s with db } := by
  have hlive : ∀ row ∈ rows s.vs, ∃ c, ChunkAt db row.filePath row.chunkId c ∧
      c.content = row.content ∧ (row.chunkId, c) ∈ s.db.chunks.rows := by
    intro row hr
    obtain ⟨c, hc, hcon⟩ := h.liveRow hr
    obtain ⟨hseen, hsame⟩ := hsp row hr
    refine ⟨c, ?_, hcon, hc.1⟩
    rw [transaction_plan hi]
    exact chunkAt_transaction hc hsame hseen
  refine ⟨⟨wellFormed_indexProject hi h.wf, lined_index hi h.lined, ?_, h.nodup, ?_⟩, ?_⟩
  · intro i c hc hv hst
    obtain ⟨row, hr, rfl⟩ := List.mem_map.mp hst
    obtain ⟨c', hc', -, hold⟩ := hlive row hr
    rw [RowTable.row_unique hc hc'.1] at hv
    exact h.unused _ c' hold hv hst
  · intro row hr _
    obtain ⟨c, hc, hcon, -⟩ := hlive row hr
    exact ⟨c, hc, hcon⟩
  · intro row hr
    obtain ⟨c, hc, -⟩ := hlive row hr
    exact RowTable.mem_ids_of_mem hc.1

end Index

/-! ### The embedding -/

theorem ready_prepared_full {reindex : Bool} (hwf : WellFormed s.db) (hl : Lined s.db)
    (hfull : full p reindex e s.db = true) : Ready (prepared p reindex e s) := by
  have hnone := prepared_full hfull
  refine ⟨wellFormed_remarked remarked_prepared hwf, lined_remarked remarked_prepared hl,
    unused_prepared.mpr (Or.inl hfull), ?_, fun row hr => ?_⟩
  · rw [hnone]
    exact List.nodup_nil
  · rw [hnone] at hr
    exact absurd hr List.not_mem_nil

theorem ready_prepared {reindex : Bool} (h : Ready s) : Ready (prepared p reindex e s) := by
  cases hfull : full p reindex e s.db with
  | true => exact ready_prepared_full h.wf h.lined hfull
  | false =>
    have hm : Remarked s.db (prepared p reindex e s).db := remarked_prepared
    obtain ⟨-, hvs⟩ := prepared_not_full hfull
    refine ⟨wellFormed_remarked hm h.wf, lined_remarked hm h.lined,
      unused_prepared.mpr (Or.inr h.unused), by rw [hvs]; exact h.nodup, fun row hr hid => ?_⟩
    rw [hvs] at hr
    rw [hm.ids] at hid
    exact liveRow_remarked hm (h.live row hr hid)

/-- The rows afterwards: those of chunks in the table, and new ones for pending chunks. -/
theorem rows_embeds (he : Embeds e s t) : ∃ ps new, ps.Sublist (getPendingChunks s.db) ∧
    List.Forall₂ (RowOf e) ps new ∧
      rows t.vs = (rows s.vs).filter (fun row => row.chunkId ∈ s.db.chunks.ids) ++ new := by
  obtain ⟨ps, hps, hrows⟩ := exists_rowOf_newRows he.embedded
  rw [flatten_batches] at hps
  refine ⟨ps, _, hps, hrows, ?_⟩
  rw [he.rows]
  exact congrArg (· ++ _) (rows_deleteOrphans _ _)

theorem liveRow_embeds (h : Ready s) (he : Embeds e s t) : ∀ row ∈ rows t.vs, LiveRow t.db row := by
  obtain ⟨ps, new, hps, hrows, htrows⟩ := rows_embeds he
  have hremarked : Remarked s.db t.db := he.remarked
  intro row hr
  rw [htrows] at hr
  rcases List.mem_append.mp hr with hr | hr
  · obtain ⟨hr, hid⟩ := List.mem_filter.mp hr
    exact liveRow_remarked hremarked (h.live row hr (of_decide_eq_true hid))
  · obtain ⟨c, hc, hrow⟩ := exists_left hrows hr
    obtain ⟨ch, f, hch, -, hf, h1, h2⟩ := mem_getPendingChunks.mp (hps.subset hc)
    refine liveRow_remarked hremarked ⟨ch, ⟨?_, f, hf, ?_⟩, ?_⟩
    · rw [hrow.chunkId]
      exact hch
    · rw [hrow.filePath, h2]
    · rw [hrow.content, h1]

/-- No pending chunk had a row, so the new ids are new. -/
theorem nodup_embeds (h : Ready s) (he : Embeds e s t) : (storedIds t.vs).Nodup := by
  obtain ⟨ps, new, hps, hrows, htrows⟩ := rows_embeds he
  have hdisj : ∀ i ∈ storedIds s.vs, i ∉ ps.map PendingChunk.id := by
    intro i hst hi
    obtain ⟨c, hc, rfl⟩ := List.mem_map.mp hi
    obtain ⟨ch, f, hch, hv, -⟩ := mem_getPendingChunks.mp (hps.subset hc)
    exact h.unused _ ch hch hv hst
  unfold storedIds
  rw [htrows, List.map_append, chunkIds_rowOf hrows]
  refine List.nodup_append.mpr ⟨?_, (hps.map _).nodup nodup_pending_ids, ?_⟩
  · exact (List.filter_sublist.map _).nodup h.nodup
  · rintro i hi j hj rfl
    exact hdisj i ((List.filter_sublist.map _).subset hi) hj

/-- **Pruning and embedding** leave only live vectors, with different ids. -/
theorem inv_embeds (h : Ready s) (he : Embeds e s t) : Inv t := by
  have hremarked : Remarked s.db t.db := he.remarked
  have hlive := liveRow_embeds h he
  refine ⟨⟨wellFormed_remarked hremarked h.wf, lined_remarked hremarked h.lined, ?_,
    nodup_embeds h he, fun row hr _ => hlive row hr⟩, fun row hr => ?_⟩
  · intro i c hc hv
    exact absurd hv (marked_completes he h.wf.keys hc)
  · obtain ⟨c, hc, -⟩ := hlive row hr
    exact RowTable.mem_ids_of_mem hc.1

/-- **One pass.** -/
theorem inv_pass (h : Inv s) (hok : KeepsLive x s p r e) {a : Unit}
    (hr : eval (exec x) (pass p r e) s = .ok (a, t)) : Inv t := by
  obtain ⟨db, stats, hi, ⟨hn, rfl⟩ | ⟨hn, he⟩⟩ := eval_pass hr
  · rcases hok with ⟨-, hsp⟩ | ⟨hn', -⟩
    · exact inv_index hi h hsp
    · simp [hn] at hn'
  · rcases hok with ⟨hn', -⟩ | ⟨-, hf | hf⟩
    · simp [hn] at hn'
    · exact inv_embeds (ready_prepared (ready_index hi h hf)) he
    · have hfull : full p r.reindex e ({ s with db } : Project).db = true := (full_index hi).trans hf
      exact inv_embeds (ready_prepared_full (wellFormed_indexProject hi h.wf)
        (lined_index hi h.lined) hfull) he

theorem inv_of_passed (h : Passed x (KeepsLive x) s) : Inv s := by
  induction h with
  | empty => exact inv_empty
  | pass _ hok hr ih => exact inv_pass ih hok hr

/-! ### Searching -/

/-- The chunks are in the table, with the text, path, lines and token count of their rows, and no two
of them are the same. -/
structure Live (db : Db) (chunks : List RetrievedChunk) : Prop where
  row : ∀ c ∈ chunks, ∃ ch, ChunkAt db c.filePath c.chunkId ch ∧ c.content = ch.content ∧
    c.startLine = ch.startLine ∧ c.endLine = ch.endLine ∧ c.tokenEstimate = ch.tokenEstimate
  lines : ∀ c ∈ chunks, 1 ≤ c.startLine ∧ c.startLine ≤ c.endLine
  nodup : (chunks.map RetrievedChunk.chunkId).Nodup

/-- The chunk of a live hit, with its metadata. -/
theorem enrichHit_live (hl : Lined db) {ids : List ℕ} {hit : SearchHit} {ch : ChunkRow}
    (hc : (hit.chunkId, ch) ∈ db.chunks.rows) (hi : hit.chunkId ∈ ids) :
    enrichHit (chunkMeta db ids) hit =
      ⟨hit.chunkId, hit.filePath, ch.startLine, ch.endLine, hit.content, hit.score,
        ch.tokenEstimate⟩ := by
  obtain ⟨-, -, htok⟩ := hl _ _ hc
  have hne : ch.tokenEstimate ≠ 0 := by omega
  unfold enrichHit
  rw [lookup_chunkMeta hc hi, Option.getD_some]
  simp [hne]

/-- **Hits of live vectors** are live chunks. -/
theorem live_search {l : Lance} (hl : l.Lawful) (h : Inv s) {query : List F32} {topK : ℕ}
    {chunks : List RetrievedChunk} (hs : search l s.vs s.db query topK = .ok chunks) :
    Live s.db chunks := by
  unfold search at hs
  obtain ⟨hits, hhits, rfl⟩ := map_eq_ok.mp hs
  obtain ⟨found, rfl, hsub, -⟩ := searchVectors_ok hl hhits
  have henrich : (if (extractHits l found).isEmpty then [] else enrich s.db (extractHits l found)) =
      enrich s.db (extractHits l found) := by
    split_ifs with hnil
    · rw [List.isEmpty_iff.mp hnil]
      rfl
    · rfl
  rw [henrich]
  have hrow : ∀ c ∈ enrich s.db (extractHits l found), ∃ ch, ChunkAt s.db c.filePath c.chunkId ch ∧
      c.content = ch.content ∧ c.startLine = ch.startLine ∧ c.endLine = ch.endLine ∧
        c.tokenEstimate = ch.tokenEstimate := by
    intro c hc
    obtain ⟨hit, hhit, rfl⟩ := List.mem_map.mp hc
    have hid := List.mem_map_of_mem (f := SearchHit.chunkId) hhit
    obtain ⟨f, hf, rfl⟩ := List.mem_map.mp hhit
    have hstored : f.1 ∈ rows s.vs := hsub.subset (List.mem_map_of_mem hf)
    obtain ⟨ch, hch, hcon⟩ := h.liveRow hstored
    rw [enrichHit_live h.lined hch.1 hid]
    exact ⟨ch, hch, hcon.symm, rfl, rfl, rfl⟩
  refine ⟨hrow, fun c hc => ?_, ?_⟩
  · obtain ⟨ch, hch, -, h1, h2, -⟩ := hrow c hc
    obtain ⟨h3, h4, -⟩ := h.lined _ _ hch.1
    rw [h1, h2]
    exact ⟨h3, h4⟩
  · have hids : (enrich s.db (extractHits l found)).map RetrievedChunk.chunkId =
        (found.map Prod.fst).map fun row => row.chunkId := by
      simp only [enrich, extractHits, List.map_map]
      rfl
    rw [hids]
    obtain ⟨part, hperm, hpart⟩ := hsub
    exact ((hperm.map _).nodup_iff).mp ((hpart.map _).nodup h.nodup)

/-- **Retrieval returns only live chunks**, after any sequence of passes that met the condition; so no
context costs more than the whole project. -/
theorem live_of_passed (h : Passed x (KeepsLive x) s) {l : Lance} (hl : l.Lawful) {query : List F32}
    {topK : ℕ} {chunks : List RetrievedChunk}
    (hs : search l s.vs s.db query topK = .ok chunks) :
    Live s.db chunks ∧ ∀ budget,
      (assemble chunks budget (projectTotal s.db)).contextTokens ≤ projectTotal s.db := by
  have hlive := live_search hl (inv_of_passed h) hs
  refine ⟨hlive, fun budget => ?_⟩
  obtain ⟨hsub, htok, -⟩ := assemble_spec chunks budget (projectTotal s.db)
  rw [htok]
  refine sum_le_projectTotal ((hsub.map _).nodup hlive.nodup) fun c hc => ?_
  obtain ⟨ch, hch, -, -, -, h1⟩ := hlive.row c (hsub.subset hc)
  exact ⟨ch, hch.1, h1⟩

/-- A search after an edit of the first of two files. -/
theorem live_firstEdited :
    let t := stateEval sample (pass .daemon (request firstEdited 2) bge) indexedOnce
    ∃ chunks, search scan t.vs t.db [1, 1] 5 = .ok chunks ∧ chunks.length = 2 ∧ Live t.db chunks := by
  intro t
  have h2 := eval_stateEval (x := sample) (p := pass .daemon (request firstEdited 2) bge)
    (s := indexedOnce) (by decide)
  have hpassed : Passed sample (KeepsLive sample) t :=
    .pass (.pass .empty (Or.inr ⟨rfl, Or.inl (by decide)⟩) eval_indexedOnce)
      (Or.inr ⟨rfl, Or.inl (by decide)⟩) h2
  have hlen : (search scan t.vs t.db [1, 1] 5).map List.length = .ok 2 := by decide
  obtain ⟨chunks, hs, hn⟩ := map_eq_ok.mp hlen
  exact ⟨chunks, hs, hn, (live_of_passed hpassed lawful_scan hs).1⟩

/-- **After an edit of the file that was indexed last** a search returns its chunk twice, and the
context costs more than the project. -/
theorem not_live : ¬∀ s l query topK chunks, Passed sample (fun _ _ _ e => e = bge) s →
    Lance.Lawful l → search l s.vs s.db query topK = .ok chunks →
    Live s.db chunks ∧ ∀ budget,
      (assemble chunks budget (projectTotal s.db)).contextTokens ≤ projectTotal s.db := by
  intro h
  let t := stateEval sample (pass .cli (request lastEdited 2) bge) indexedOnce
  have h2 := eval_stateEval (x := sample) (p := pass .cli (request lastEdited 2) bge)
    (s := indexedOnce) (by decide)
  have hids : (search scan t.vs t.db [1, 1] 5).map (List.map RetrievedChunk.chunkId) =
      .ok [1, 2, 2] := by decide
  obtain ⟨chunks, hs, hdup⟩ := map_eq_ok.mp hids
  have hlive := (h t scan [1, 1] 5 chunks (.pass (.pass .empty rfl eval_indexedOnce) rfl h2)
    lawful_scan hs).1
  have hnodup := hlive.nodup
  rw [hdup] at hnodup
  exact absurd hnodup (by decide)

end BrainEngine.Passes.Retrieval
