import BrainEngine.Core.Docs
import BrainEngine.Passes.Stages

/-! # How many rows a chunk has

An embedding pass that succeeds keeps the rows of the chunks in the table and adds one row for each
pending chunk. So a marked chunk keeps the number of its rows, and an unmarked one gets one more than
it had. -/

namespace BrainEngine.Passes.Counts

open BrainEngine.Rust.Str BrainEngine.Lib.Rowid BrainEngine.Core.External BrainEngine.Core.Database
open BrainEngine.Core.Vectors BrainEngine.Core.Embedding BrainEngine.Core.Passes BrainEngine.Core.Docs
open BrainEngine.Passes.Loop BrainEngine.Passes.Stages

/-- Every marked chunk has exactly one row. -/
def MarkedOnce (s : Project) : Prop :=
  ∀ i c, (i, c) ∈ s.db.chunks.rows → c.vectorId ≠ none → (storedIds s.vs).count i = 1

/-- No unmarked chunk has a row. -/
def Unused (s : Project) : Prop :=
  ∀ i c, (i, c) ∈ s.db.chunks.rows → c.vectorId = none → i ∉ storedIds s.vs

/-- Every chunk has exactly one row. -/
def OneEach (s : Project) : Prop := ∀ i ∈ s.db.chunks.ids, (storedIds s.vs).count i = 1

variable {e : Embedder} {s t : Project}

theorem storedIds_newRows (hone : OnePerText e) {bs : List (List PendingChunk)}
    (h : ∀ b ∈ bs, Embedded e b) :
    (newRows e bs).map (fun r => r.chunkId) = bs.flatten.map PendingChunk.id :=
  chunkIds_rowOf (rowOf_newRows hone h)

theorem count_pending (h : ForeignKeys s.db) {i : ℕ} {c : ChunkRow} (hc : (i, c) ∈ s.db.chunks.rows) :
    ((getPendingChunks s.db).map PendingChunk.id).count i = if c.vectorId = none then 1 else 0 := by
  split_ifs with hv
  · obtain ⟨p, hp, rfl⟩ := exists_pending h hc hv
    exact List.count_eq_one_of_mem nodup_pending_ids (List.mem_map.mpr ⟨p, hp, rfl⟩)
  · refine List.count_eq_zero_of_not_mem fun hi => ?_
    obtain ⟨p, hp, rfl⟩ := List.mem_map.mp hi
    obtain ⟨c', f, hc', hv', -⟩ := mem_getPendingChunks.mp hp
    rw [RowTable.row_unique hc hc'] at hv
    exact hv hv'

theorem wellFormed_remarked {db db' : Db} (h : Remarked db db') (hwf : WellFormed db) :
    WellFormed db' :=
  ⟨by rw [h.files]; exact hwf.paths, h.foreignKeys hwf.keys⟩

section Completes
variable (h : Completes e s t)
include h

theorem ids_completes : t.db.chunks.ids = s.db.chunks.ids := h.remarked.ids

/-- **The ids in the store afterwards.** -/
theorem storedIds_completes (hone : OnePerText e) :
    storedIds t.vs = storedIds s.vs ++ (getPendingChunks s.db).map PendingChunk.id := by
  have hnew := storedIds_newRows hone h.embedded
  rw [flatten_batches] at hnew
  unfold storedIds
  rw [h.rows, List.map_append, hnew]

/-- **The rows of one chunk afterwards.** -/
theorem count_completes (hone : OnePerText e) (hf : ForeignKeys s.db) {i : ℕ} {c : ChunkRow}
    (hc : (i, c) ∈ s.db.chunks.rows) : (storedIds t.vs).count i =
      (storedIds s.vs).count i + if c.vectorId = none then 1 else 0 := by
  rw [storedIds_completes h hone, List.count_append, count_pending hf hc]

/-- Every chunk is marked afterwards. -/
theorem marked_completes (hf : ForeignKeys s.db) {i : ℕ} {c : ChunkRow}
    (hc : (i, c) ∈ t.db.chunks.rows) : c.vectorId ≠ none := by
  rw [h.db] at hc
  obtain ⟨c', hc', rfl⟩ := mem_markAll.mp hc
  split_ifs with hi
  · simp
  · intro hv
    obtain ⟨p, hp, rfl⟩ := exists_pending hf hc' hv
    exact hi (List.mem_map.mpr ⟨p, hp, rfl⟩)

/-- **One row for each chunk**: where each marked chunk had one, this is what writing the pending
chunks leaves if and only if no unmarked chunk had any. -/
theorem oneEach_completes_iff (hone : OnePerText e) (hf : ForeignKeys s.db) (hm : MarkedOnce s) :
    OneEach t ↔ Unused s := by
  unfold OneEach
  rw [ids_completes h]
  constructor
  · intro ho i c hc hv hi
    have hcount := count_completes h hone hf hc
    rw [ho i (RowTable.mem_ids_of_mem hc), if_pos hv] at hcount
    have hpos := List.count_pos_iff.mpr hi
    omega
  · intro hu i hi
    obtain ⟨c, hc⟩ := RowTable.mem_ids.mp hi
    rw [count_completes h hone hf hc]
    split_ifs with hv
    · rw [List.count_eq_zero_of_not_mem (hu i c hc hv)]
    · rw [hm i c hc hv]

theorem wellFormed_completes (hwf : WellFormed s.db) : WellFormed t.db :=
  wellFormed_remarked h.remarked hwf

end Completes

/-! ### Pruning -/

theorem storedIds_pruned :
    storedIds (pruned s).vs = (storedIds s.vs).filter (· ∈ s.db.chunks.ids) :=
  storedIds_deleteOrphans _ _

/-- Pruning keeps the rows of every chunk. -/
theorem count_pruned {i : ℕ} (hi : i ∈ s.db.chunks.ids) :
    (storedIds (pruned s).vs).count i = (storedIds s.vs).count i := by
  rw [storedIds_pruned, List.count_filter (by simpa using hi)]

theorem markedOnce_pruned (h : MarkedOnce s) : MarkedOnce (pruned s) := by
  intro i c hc hv
  have hc : (i, c) ∈ s.db.chunks.rows := hc
  rw [count_pruned (RowTable.mem_ids_of_mem hc)]
  exact h i c hc hv

theorem unused_pruned : Unused (pruned s) ↔ Unused s := by
  refine forall₂_congr fun i c => forall₂_congr fun hc _ => not_congr ?_
  have hc : (i, c) ∈ s.db.chunks.rows := hc
  rw [← List.count_pos_iff, ← List.count_pos_iff, count_pruned (RowTable.mem_ids_of_mem hc)]

/-- After pruning and writing, every vector belongs to a chunk. -/
theorem mem_ids_of_stored (h : Embeds e s t) (hone : OnePerText e) {i : ℕ}
    (hi : i ∈ storedIds t.vs) : i ∈ t.db.chunks.ids := by
  rw [storedIds_completes h hone, List.mem_append, storedIds_pruned] at hi
  rw [ids_completes h]
  rcases hi with hi | hi
  · exact of_decide_eq_true (List.mem_filter.mp hi).2
  · obtain ⟨p, hp, rfl⟩ := List.mem_map.mp hi
    obtain ⟨c, f, hc, -⟩ := mem_getPendingChunks.mp hp
    exact RowTable.mem_ids_of_mem hc

theorem oneEach_embeds_iff (h : Embeds e s t) (hone : OnePerText e) (hf : ForeignKeys s.db)
    (hm : MarkedOnce s) : OneEach t ↔ Unused s :=
  (oneEach_completes_iff h hone hf (markedOnce_pruned hm)).trans unused_pruned

/-! ### Before the embedding -/

theorem unmarked_prepared {p : Party} {reindex : Bool} (hfull : full p reindex e s.db = true) {i : ℕ}
    {c : ChunkRow} (hc : (i, c) ∈ (prepared p reindex e s).db.chunks.rows) : c.vectorId = none := by
  unfold prepared at hc
  rw [if_pos hfull] at hc
  have hc : (i, c) ∈ (clearMarks s.db).chunks.rows := hc
  obtain ⟨c', -, rfl⟩ := mem_setVectorId.mp hc
  rfl

theorem prepared_full {p : Party} {reindex : Bool} (hfull : full p reindex e s.db = true) :
    (prepared p reindex e s).vs = none := by
  unfold prepared
  rw [if_pos hfull]

/-- Without a rebuild the decision leaves both stores' chunks alone. -/
theorem prepared_not_full {p : Party} {reindex : Bool} (hfull : full p reindex e s.db = false) :
    (prepared p reindex e s).db.chunks = s.db.chunks ∧ (prepared p reindex e s).vs = s.vs := by
  unfold prepared
  rw [if_neg (by simp [hfull])]
  split_ifs
  · exact ⟨rfl, rfl⟩
  · exact ⟨rfl, rfl⟩

/-- The decision changes marks and the pin, and no other data. -/
theorem remarked_prepared {p : Party} {reindex : Bool} :
    Remarked s.db (prepared p reindex e s).db := by
  unfold prepared
  split_ifs
  · have h : Remarked s.db (clearMarks s.db) := remarked_setVectorId _ _
    exact ⟨h.files, h.symbols, h.chunks⟩
  · have h := Remarked.refl s.db
    exact ⟨h.files, h.symbols, h.chunks⟩
  · exact Remarked.refl s.db

theorem markedOnce_prepared {p : Party} {reindex : Bool} (h : MarkedOnce s) :
    MarkedOnce (prepared p reindex e s) := by
  intro i c hc hv
  cases hfull : full p reindex e s.db with
  | true => exact absurd (unmarked_prepared hfull hc) hv
  | false =>
    obtain ⟨h1, h2⟩ := prepared_not_full hfull
    rw [h1] at hc
    rw [h2]
    exact h i c hc hv

/-- After the decision no unmarked chunk has a row exactly if there is a rebuild or none had before. -/
theorem unused_prepared {p : Party} {reindex : Bool} :
    Unused (prepared p reindex e s) ↔ full p reindex e s.db = true ∨ Unused s := by
  cases hfull : full p reindex e s.db with
  | true =>
    refine iff_of_true ?_ (Or.inl rfl)
    intro i c _ _
    rw [prepared_full hfull]
    simp [storedIds]
  | false =>
    obtain ⟨h1, h2⟩ := prepared_not_full hfull
    unfold Unused
    rw [h1, h2]
    simp

end BrainEngine.Passes.Counts
