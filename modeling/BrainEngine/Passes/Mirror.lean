import BrainEngine.Passes.Counts
import BrainEngine.Passes.Marked

/-! # The vector store and the chunk table

`Mirrored` says that the store holds one vector for each chunk, with the chunk's current text. Pruning
looks only at ids and `upsert` only appends, so a chunk that gets the id of a stored vector ends up
with two. In runs that give no such id, or rebuild the store, every embedding pass leaves a mirror;
`mirror_iff_fresh` says that this is exact. -/

namespace BrainEngine.Passes.Mirror

open BrainEngine.Rust.Str BrainEngine.Lib.Rowid BrainEngine.Lib.Atomic BrainEngine.Lib.Atomic.Prog
open BrainEngine.Core.External BrainEngine.Core.Walk BrainEngine.Core.Database BrainEngine.Core.Index
open BrainEngine.Core.Docs
open BrainEngine.Core.Vectors BrainEngine.Core.Embedding BrainEngine.Core.Passes
open BrainEngine.Core.Sample BrainEngine.Index.Runs BrainEngine.Index.ChunkIds
open BrainEngine.Passes.Loop BrainEngine.Passes.Stages BrainEngine.Passes.Counts
open BrainEngine.Passes.Marked

/-- The rows of the store are the rows of the chunk table, as ids with contents. -/
def Mirrored (t : Project) : Prop :=
  ((rows t.vs).map fun r => (r.chunkId, r.content)).Perm
    (t.db.chunks.rows.map fun a => (a.1, a.2.content))

/-- The index step of a request gives no chunk an id that a vector has. -/
def fresh (x : Extern) (s : Project) (r : Request) : Bool :=
  txFresh (storedIds s.vs) r.now s.db (plan x r.tree r.cfg s.db)

/-- A pass gives no id of a vector to a new chunk, or drops all vectors. -/
def NoReuse (x : Extern) (s : Project) (p : Party) (r : Request) (e : Embedder) : Prop :=
  OnePerText e ∧
    (fresh x s r = true ∨ r.noEmbed = false ∧ full p r.reindex e s.db = true)

variable {x : Extern} {e : Embedder} {p : Party} {r : Request} {s t : Project}

/-- Among marked chunks whose vectors are stored, and no other vectors, a mirror is one row each. -/
theorem mirror_iff_oneEach (hlive : ∀ i ∈ storedIds t.vs, i ∈ t.db.chunks.ids)
    (hm : MarkedStored t) (hall : ∀ i c, (i, c) ∈ t.db.chunks.rows → c.vectorId ≠ none) :
    Mirrored t ↔ OneEach t := by
  constructor
  · intro h i hi
    have hperm : (storedIds t.vs).Perm t.db.chunks.ids := by
      have := h.map Prod.fst
      rwa [List.map_map, List.map_map] at this
    rw [hperm.count_eq]
    exact List.count_eq_one_of_mem t.db.chunks.nodup_ids hi
  · intro h
    have hnodup : (storedIds t.vs).Nodup := by
      refine List.nodup_iff_count_le_one.mpr fun i => ?_
      by_cases hi : i ∈ storedIds t.vs
      · exact (h i (hlive i hi)).le
      · rw [List.count_eq_zero_of_not_mem hi]
        exact Nat.zero_le 1
    have hkeys : ((rows t.vs).map fun r => (r.chunkId, r.content)).Nodup := by
      refine List.Nodup.of_map Prod.fst ?_
      rw [List.map_map]
      exact hnodup
    have hkeys' : (t.db.chunks.rows.map fun a => (a.1, a.2.content)).Nodup := by
      refine List.Nodup.of_map Prod.fst ?_
      rw [List.map_map]
      exact t.db.chunks.nodup_ids
    refine (List.perm_ext_iff_of_nodup hkeys hkeys').mpr fun a => ?_
    obtain ⟨i, content⟩ := a
    simp only [List.mem_map, Prod.mk.injEq, Prod.exists]
    constructor
    · rintro ⟨r, hr, rfl, rfl⟩
      have hid : r.chunkId ∈ storedIds t.vs := List.mem_map.mpr ⟨r, hr, rfl⟩
      obtain ⟨c, hc⟩ := RowTable.mem_ids.mp (hlive _ hid)
      -- the row that the mark vouches for is this row, since the id is stored once
      obtain ⟨r', hr', hi', hcon⟩ := hm _ c hc (hall _ c hc)
      have hrr : r' = r := List.inj_on_of_nodup_map hnodup hr' hr hi'
      exact ⟨r.chunkId, c, hc, rfl, by rw [← hrr, hcon]⟩
    · rintro ⟨j, c, hc, rfl, rfl⟩
      obtain ⟨r, hr, hi, hcon⟩ := hm j c hc (hall j c hc)
      exact ⟨r, hr, hi, hcon⟩

/-! ### One pass -/

/-- What holds between passes that give no id twice. -/
structure Inv (s : Project) : Prop where
  wf : WellFormed s.db
  once : MarkedOnce s
  unused : Unused s
  stored : MarkedStored s

theorem inv_empty : Inv Project.empty := by
  have hno : ∀ i c, (i, c) ∉ Project.empty.db.chunks.rows := fun i c h => by
    simp [Project.empty, Db.empty] at h
  exact ⟨wellFormed_empty, fun i c h => absurd h (hno i c), fun i c h => absurd h (hno i c),
    fun i c h => absurd h (hno i c)⟩

section Index
variable {db : Db} {stats : IndexStats}
  (hi : indexProject x r.tree r.cfg r.now s.db = .ok (db, stats))
include hi

theorem markedOnce_index (h : MarkedOnce s) : MarkedOnce { s with db } := by
  intro i c hc hv
  rcases mem_chunks_indexProject hi hc with hk | hn
  · exact h i c hk.mem hv
  · exact absurd hn.unmarked hv

/-- A fresh index step gives no id of a vector to an unmarked chunk. -/
theorem unused_index (h : Unused s) (hf : fresh x s r = true) : Unused { s with db } := by
  intro i c hc hv
  rcases mem_chunks_indexProject hi hc with hk | hn
  · exact h i c hk.mem hv
  · exact hn.fresh _ hf

theorem fresh_of_unused (hd : ((plan x r.tree r.cfg s.db).map Prod.fst).Nodup)
    (h : Unused { s with db }) : fresh x s r = true := by
  by_contra hf
  obtain ⟨i, hu, c, hc, hv⟩ := exists_of_not_txFresh r.now s.db hd
    (Bool.eq_false_iff.mpr hf)
  rw [← transaction_plan hi] at hc
  exact h i c hc hv hu

theorem full_index : full p r.reindex e db = full p r.reindex e s.db :=
  full_congr (metaTable_indexProject hi)

end Index

theorem embeds_of_pass (hn : r.noEmbed = false) {a : Unit}
    (hr : eval (exec x) (pass p r e) s = .ok (a, t)) :
    ∃ db stats, indexProject x r.tree r.cfg r.now s.db = .ok (db, stats) ∧
      Embeds e (prepared p r.reindex e { s with db }) t := by
  obtain ⟨db, stats, hi, ⟨hn', -⟩ | ⟨-, he⟩⟩ := eval_pass hr
  · simp [hn] at hn'
  · exact ⟨db, stats, hi, he⟩

/-- **An embedding pass leaves one row for each chunk** exactly if its index step is fresh or it
rebuilds the store. -/
theorem oneEach_pass_iff (h : Inv s) (hone : OnePerText e)
    (hd : ((plan x r.tree r.cfg s.db).map Prod.fst).Nodup) (hn : r.noEmbed = false) {a : Unit}
    (hr : eval (exec x) (pass p r e) s = .ok (a, t)) :
    OneEach t ↔ fresh x s r = true ∨ full p r.reindex e s.db = true := by
  obtain ⟨db, stats, hi, he⟩ := embeds_of_pass hn hr
  have hwf := wellFormed_indexProject hi h.wf
  rw [oneEach_embeds_iff he hone (remarked_prepared.foreignKeys hwf.keys)
    (markedOnce_prepared (markedOnce_index hi h.once)), unused_prepared, or_comm]
  have hfull : full p r.reindex e ({ s with db } : Project).db = full p r.reindex e s.db :=
    full_index hi
  rw [hfull]
  exact or_congr_left ⟨fresh_of_unused hi hd, unused_index hi h.unused⟩

/-- After an embedding pass every chunk is marked and every vector belongs to a chunk. -/
theorem mirror_pass_iff (h : Inv s) (hone : OnePerText e) (hn : r.noEmbed = false) {a : Unit}
    (hr : eval (exec x) (pass p r e) s = .ok (a, t)) : Mirrored t ↔ OneEach t := by
  obtain ⟨db, stats, hi, he⟩ := embeds_of_pass hn hr
  have hwf := wellFormed_indexProject hi h.wf
  exact mirror_iff_oneEach (fun i hs => mem_ids_of_stored he hone hs)
    (markedStored_eval hone h.stored hr)
    (fun i c hc => marked_completes he (remarked_prepared.foreignKeys hwf.keys) hc)

/-- **One pass** that gives no id twice keeps the invariant. -/
theorem inv_pass (h : Inv s) (hok : NoReuse x s p r e) {a : Unit}
    (hr : eval (exec x) (pass p r e) s = .ok (a, t)) : Inv t := by
  obtain ⟨hone, hok⟩ := hok
  have hstored := markedStored_eval hone h.stored hr
  obtain ⟨db, stats, hi, ⟨hn, rfl⟩ | ⟨hn, he⟩⟩ := eval_pass hr
  · have hf : fresh x s r = true := by
      rcases hok with hf | ⟨hn', -⟩
      · exact hf
      · simp [hn] at hn'
    exact ⟨wellFormed_indexProject hi h.wf, markedOnce_index hi h.once, unused_index hi h.unused hf,
      hstored⟩
  · have hwf := wellFormed_indexProject hi h.wf
    have hremarked : Remarked db (prepared p r.reindex e { s with db }).db :=
      remarked_prepared (s := { s with db })
    have hkeys := hremarked.foreignKeys hwf.keys
    have hmarked : ∀ i c, (i, c) ∈ t.db.chunks.rows → c.vectorId ≠ none := fun i c hc =>
      marked_completes he hkeys hc
    have hone' : OneEach t := by
      refine (oneEach_embeds_iff he hone hkeys (markedOnce_prepared (markedOnce_index hi h.once))).mpr
        (unused_prepared.mpr ?_)
      rcases hok with hf | ⟨-, hfull⟩
      · exact Or.inr (unused_index hi h.unused hf)
      · exact Or.inl ((full_index hi).trans hfull)
    refine ⟨wellFormed_completes he (wellFormed_remarked hremarked hwf), ?_, ?_, hstored⟩
    · intro i c hc _
      exact hone' i (RowTable.mem_ids_of_mem hc)
    · intro i c hc hv
      exact absurd hv (hmarked i c hc)

/-! ### Every pass -/

theorem inv_of_passed (h : Passed x (NoReuse x) s) : Inv s := by
  induction h with
  | empty => exact inv_empty
  | pass _ hok hr ih => exact inv_pass ih hok hr

/-- **The vector store mirrors the chunk table, exactly while no id is given twice.** After any
sequence of passes that met the condition, the next embedding pass leaves a mirror if and only if it
gives no chunk the id of a stored vector or rebuilds the store. -/
theorem mirror_iff_fresh (h : Passed x (NoReuse x) s) (hone : OnePerText e)
    (hd : ((plan x r.tree r.cfg s.db).map Prod.fst).Nodup) (hn : r.noEmbed = false)
    (hr : eval (exec x) (pass p r e) s = .ok ((), t)) :
    Mirrored t ↔ fresh x s r = true ∨ full p r.reindex e s.db = true :=
  (mirror_pass_iff (inv_of_passed h) hone hn hr).trans
    (oneEach_pass_iff (inv_of_passed h) hone hd hn hr)

theorem mirrored_firstEdited :
    Mirrored (stateEval sample (pass .daemon (request firstEdited 2) bge) indexedOnce) := by
  have h1 := eval_indexedOnce
  have h2 := eval_stateEval (x := sample) (p := pass .daemon (request firstEdited 2) bge)
    (s := indexedOnce) (by decide)
  have hpassed : Passed sample (NoReuse sample) indexedOnce :=
    .pass .empty ⟨onePerText_constant _ _ _, Or.inl (by decide)⟩ h1
  exact (mirror_iff_fresh hpassed (onePerText_constant _ _ _) (by decide) rfl h2).mpr
    (Or.inl (by decide))

/-- **An edit of the file that was indexed last** leaves two vectors for its chunk. -/
theorem not_mirrored : ¬∀ s p r t, Passed sample (fun _ _ _ e => e = bge) s → r.noEmbed = false →
    eval (exec sample) (pass p r bge) s = .ok ((), t) → Mirrored t := by
  intro h
  have h1 := eval_indexedOnce
  have h2 := eval_stateEval (x := sample) (p := pass .cli (request lastEdited 2) bge)
    (s := indexedOnce) (by decide)
  have hm := h _ _ _ _ (.pass .empty rfl h1) rfl h2
  exact absurd hm.length_eq (by decide)

end BrainEngine.Passes.Mirror
