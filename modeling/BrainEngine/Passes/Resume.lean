import BrainEngine.Passes.Counts
import BrainEngine.Core.Sample

/-! # Running an interrupted embedding again

A batch is stored at once and marked chunk by chunk, and a second run stores again whatever has no
mark. So a run that stops between the upsert of a batch and its last mark leaves chunks that the next
run stores twice; `resume_iff` says that there is no other way. -/

namespace BrainEngine.Passes.Resume

open BrainEngine.Rust.Str BrainEngine.Lib.Rowid BrainEngine.Lib.Atomic BrainEngine.Lib.Atomic.Prog
open BrainEngine.Core.External BrainEngine.Core.Database BrainEngine.Core.Vectors
open BrainEngine.Core.Embedding BrainEngine.Core.Passes BrainEngine.Core.Sample
open BrainEngine.Passes.Loop BrainEngine.Passes.Stages BrainEngine.Passes.Counts

/-- The embedding of a party: `embed_pending_chunks`, or the batch loop of `handle_index`. -/
def embedding (p : Party) (e : Embedder) : Prog Op Unit :=
  match p with
  | .cli => do
    let _ ← embedPendingChunks e
    return ()
  | .daemon => do
    let _ ← embedPendingDaemon e
    return ()

/-- The queries before the first batch. -/
def readSteps : Party → ℕ
  | .cli => 2
  | .daemon => 1

variable {x : Extern} {e e' : Embedder} {p p' : Party} {s t u : Project} {n : ℕ} {q : Prog Op Unit}

/-- **Where `n` steps lead.** -/
theorem after_embedding (h : after (exec x) n (embedding p e) s = some (q, t)) :
    Wrote e (progress (batches s.db) (n - readSteps p)).1
      (progress (batches s.db) (n - readSteps p)).2 s t := by
  have hstay : t = s → n - readSteps p = 0 → Wrote e (progress (batches s.db) (n - readSteps p)).1
      (progress (batches s.db) (n - readSteps p)).2 s t := by
    rintro rfl hn
    rw [hn, progress_zero]
    exact Wrote.refl _
  cases p with
  | cli =>
    rcases after_op_of_ok (exec x) rfl h with ⟨rfl, rfl⟩ | ⟨n, rfl, h1⟩
    · exact hstay rfl rfl
    rcases after_op_of_ok (exec x) rfl h1 with ⟨rfl, rfl⟩ | ⟨n, rfl, h2⟩
    · exact hstay rfl rfl
    have h2 : after (exec x) n ((if (getPendingChunks s.db).isEmpty = true then ret _ else
      embedBatches e (getPendingChunks s.db) >>= fun _ => ret _) >>= fun _ => ret ()) s =
        some (q, t) := h2
    split_ifs at h2 with hnil
    · rcases n with _ | n
      · cases h2
        exact hstay rfl rfl
      · simp at h2
    · rw [Prog.bind_assoc] at h2
      exact after_embedBatches_bind (k := fun _ => ret ()) (fun _ _ => rfl) h2
  | daemon =>
    rcases after_op_of_ok (exec x) rfl h with ⟨rfl, rfl⟩ | ⟨n, rfl, h1⟩
    · exact hstay rfl rfl
    have h1 : after (exec x) n ((embedBatches e (getPendingChunks s.db) >>= fun _ => ret _) >>=
      fun _ => ret ()) s = some (q, t) := h1
    rw [Prog.bind_assoc] at h1
    exact after_embedBatches_bind (k := fun _ => ret ()) (fun _ _ => rfl) h1

theorem completes_of_embedding (h : eval (exec x) (embedding p e) s = .ok ((), t)) :
    Completes e s t := by
  cases p with
  | cli =>
    obtain ⟨a, v, hv, h⟩ := (eval_bind (exec x)).mp h
    cases h
    exact completes_of_cli hv
  | daemon =>
    obtain ⟨a, v, hv, h⟩ := (eval_bind (exec x)).mp h
    cases h
    exact completes_of_daemon hv

theorem storedIds_wrote {bs : List (List PendingChunk)} {ps : List PendingChunk}
    (h : Wrote e bs ps s t) (hone : OnePerText e) :
    storedIds t.vs = storedIds s.vs ++ bs.flatten.map PendingChunk.id := by
  unfold storedIds
  rw [h.rows, List.map_append, storedIds_newRows hone h.embedded]

/-- The rows of a chunk when a stopped run has been completed: those of the start, one if its batch was
stored, and one if it was not marked. -/
theorem count_resumed {bs : List (List PendingChunk)} {ps : List PendingChunk}
    (h : Wrote e bs ps s t) (hc : Completes e' t u) (hone : OnePerText e) (hone' : OnePerText e')
    (hf : ForeignKeys s.db) {i : ℕ} {c : ChunkRow} (hi : (i, c) ∈ s.db.chunks.rows) :
    (storedIds u.vs).count i = (storedIds s.vs).count i +
      (bs.flatten.map PendingChunk.id).count i +
        if c.vectorId = none ∧ i ∉ ps.map PendingChunk.id then 1 else 0 := by
  have hi' : (i, if i ∈ ps.map PendingChunk.id then { c with vectorId := some (ofNat i) } else c) ∈
      t.db.chunks.rows := by
    rw [h.db]
    exact mem_markAll.mpr ⟨c, hi, rfl⟩
  rw [count_completes hc hone' (h.remarked.foreignKeys hf) hi', storedIds_wrote h hone,
    List.count_append]
  by_cases hm : i ∈ ps.map PendingChunk.id
  · simp [hm]
  · simp [hm]

/-! ### What the first run has stored -/

section Progress
variable {k : ℕ}

theorem mem_pending_of_progress {c : PendingChunk} (h : c ∈ (progress (batches s.db) k).1.flatten) :
    c ∈ getPendingChunks s.db := by
  obtain ⟨b, hb, hcb⟩ := List.mem_flatten.mp h
  have hflat : (batches s.db).flatten = getPendingChunks s.db := flatten_batches _
  rw [← hflat]
  exact List.mem_flatten.mpr ⟨b, (isPrefix_progress _ _).subset hb, hcb⟩

theorem unmarked_of_progress {i : ℕ} {c : ChunkRow} (hc : (i, c) ∈ s.db.chunks.rows)
    (h : i ∈ (progress (batches s.db) k).1.flatten.map PendingChunk.id) : c.vectorId = none := by
  obtain ⟨p, hp, rfl⟩ := List.mem_map.mp h
  obtain ⟨c', f, hc', hv, -⟩ := mem_getPendingChunks.mp (mem_pending_of_progress hp)
  rwa [RowTable.row_unique hc hc']

theorem nodup_batches : ((batches s.db).flatten.map PendingChunk.id).Nodup := by
  have hflat : (batches s.db).flatten = getPendingChunks s.db := flatten_batches _
  rw [hflat]
  exact nodup_pending_ids

theorem nodup_progress : ((progress (batches s.db) k).1.flatten.map PendingChunk.id).Nodup := by
  have hnd := nodup_batches (s := s)
  obtain ⟨rest, hrest⟩ := isPrefix_progress (batches s.db) k
  rw [← hrest, List.flatten_append, List.map_append, List.nodup_append] at hnd
  exact hnd.1

end Progress

/-! ### The second run -/

section Complete
variable {k : ℕ}
  (hw : Wrote e (progress (batches s.db) k).1 (progress (batches s.db) k).2 s t)
  (hc : Completes e' t u) (hone : OnePerText e) (hone' : OnePerText e') (hf : ForeignKeys s.db)
include hw hc hone hone' hf

/-- A stop within a batch leaves a chunk stored and unmarked, which is stored again. -/
theorem not_midBatch_of_oneEach (h : OneEach u) : midBatch (batches s.db) k = false := by
  by_contra hmid
  obtain ⟨p, hp, hnot⟩ := progress_of_midBatch nodup_batches (by simpa using hmid)
  obtain ⟨c, f, hi, hv, -⟩ := mem_getPendingChunks.mp (mem_pending_of_progress hp)
  have hcount := count_resumed hw hc hone hone' hf hi
  have hpos := List.count_pos_iff.mpr (List.mem_map_of_mem (f := PendingChunk.id) hp)
  have hu : p.id ∈ u.db.chunks.ids := by
    rw [ids_completes hc, hw.remarked.ids]
    exact RowTable.mem_ids_of_mem hi
  rw [h _ hu, if_pos ⟨hv, hnot⟩] at hcount
  omega

/-- An unmarked chunk gets a row from one of the two runs, besides those it had. -/
theorem unused_of_oneEach (hmid : midBatch (batches s.db) k = false) (h : OneEach u) : Unused s := by
  intro i c hi hv hst
  have hcount := count_resumed hw hc hone hone' hf hi
  have hpos := List.count_pos_iff.mpr hst
  have hu : i ∈ u.db.chunks.ids := by
    rw [ids_completes hc, hw.remarked.ids]
    exact RowTable.mem_ids_of_mem hi
  rw [h i hu, progress_of_not_midBatch hmid] at hcount
  by_cases hps : i ∈ (progress (batches s.db) k).1.flatten.map PendingChunk.id
  · have := List.count_pos_iff.mpr hps
    omega
  · rw [if_pos ⟨hv, hps⟩] at hcount
    omega

/-- Between batches, what is stored is marked, so that each unmarked chunk is stored by one of the two
runs. -/
theorem oneEach_of_not_midBatch (hmid : midBatch (batches s.db) k = false) (hm : MarkedOnce s)
    (hu : Unused s) : OneEach u := by
  intro i hi
  rw [ids_completes hc, hw.remarked.ids] at hi
  obtain ⟨c, hic⟩ := RowTable.mem_ids.mp hi
  have hcount := count_resumed hw hc hone hone' hf hic
  rw [progress_of_not_midBatch hmid] at hcount
  by_cases hps : i ∈ (progress (batches s.db) k).1.flatten.map PendingChunk.id
  · have hv := unmarked_of_progress hic hps
    rw [hcount, List.count_eq_zero_of_not_mem (hu i c hic hv),
      List.count_eq_one_of_mem nodup_progress hps, if_neg fun h => h.2 hps]
  · rw [hcount, List.count_eq_zero_of_not_mem hps]
    by_cases hv : c.vectorId = none
    · rw [List.count_eq_zero_of_not_mem (hu i c hic hv), if_pos ⟨hv, hps⟩]
    · rw [hm i c hic hv, if_neg fun h => hv h.1]

end Complete

/-- **An interrupted embedding resumes cleanly, exactly if it stopped between batches.** From a state
where each marked chunk has one row, the run that completes leaves one row for each chunk if and only
if no unmarked chunk had a row at the start and the first run did not stop between the upsert of a
batch and its last mark. -/
theorem resume_iff (hone : OnePerText e) (hone' : OnePerText e') (hf : ForeignKeys s.db)
    (hm : MarkedOnce s) (hn : after (exec x) n (embedding p e) s = some (q, t))
    (hr : eval (exec x) (embedding p' e') t = .ok ((), u)) :
    OneEach u ↔ Unused s ∧ midBatch (batches s.db) (n - readSteps p) = false := by
  have hw := after_embedding hn
  have hc := completes_of_embedding hr
  constructor
  · intro h
    have hmid := not_midBatch_of_oneEach hw hc hone hone' hf h
    exact ⟨unused_of_oneEach hw hc hone hone' hf hmid h, hmid⟩
  · rintro ⟨hu, hmid⟩
    exact oneEach_of_not_midBatch hw hc hone hone' hf hmid hm hu

theorem foreignKeys_notEmbedded : ForeignKeys notEmbedded.db := by
  refine ⟨?_, ?_⟩
  · decide
  · decide

theorem unmarked_notEmbedded : ∀ i c, (i, c) ∈ notEmbedded.db.chunks.rows → c.vectorId = none := by
  have h : ∀ a ∈ notEmbedded.db.chunks.rows, a.2.vectorId = none := by decide
  exact fun i c hc => h _ hc

/-- Stopped after the embedder's answer and before the upsert, then completed. -/
theorem oneEach_resumed : OneEach (stateEval sample (embedding .cli bge)
    (stateAfter sample 3 (embedding .cli bge) notEmbedded)) := by
  obtain ⟨q, hq⟩ := after_stateAfter (x := sample) (n := 3) (p := embedding .cli bge)
    (s := notEmbedded) (by decide)
  have hr := eval_stateEval (x := sample) (p := embedding .cli bge)
    (s := stateAfter sample 3 (embedding .cli bge) notEmbedded) (by decide)
  refine (resume_iff (onePerText_constant _ _ _) (onePerText_constant _ _ _)
    foreignKeys_notEmbedded (fun i c hc hv => absurd (unmarked_notEmbedded i c hc) hv) hq hr).mpr
    ⟨?_, by decide⟩
  intro i c _ _
  have hnone : storedIds notEmbedded.vs = [] := by decide
  rw [hnone]
  exact List.not_mem_nil

/-- **Stopped after the upsert**, the run that completes stores the whole batch a second time. -/
theorem not_oneEach_resumed : ¬∀ p e s n q t p' e' u, OnePerText e → OnePerText e' →
    ForeignKeys s.db → MarkedOnce s → Unused s →
    after (exec sample) n (embedding p e) s = some (q, t) →
    eval (exec sample) (embedding p' e') t = .ok ((), u) → OneEach u := by
  intro h
  obtain ⟨q, hq⟩ := after_stateAfter (x := sample) (n := 4) (p := embedding .cli bge)
    (s := notEmbedded) (by decide)
  have hr := eval_stateEval (x := sample) (p := embedding .cli bge)
    (s := stateAfter sample 4 (embedding .cli bge) notEmbedded) (by decide)
  have hnone : storedIds notEmbedded.vs = [] := by decide
  have ho := h _ _ _ _ _ _ _ _ _ (onePerText_constant _ _ _) (onePerText_constant _ _ _)
    foreignKeys_notEmbedded (fun i c hc hv => absurd (unmarked_notEmbedded i c hc) hv)
    (fun i c _ _ => by rw [hnone]; exact List.not_mem_nil) hq hr
  have hone := ho 1 (by decide)
  exact absurd hone (by decide)

end BrainEngine.Passes.Resume
