import BrainEngine.Index.ChunkIds
import BrainEngine.Passes.Loop
import BrainEngine.Core.Sample

/-! # Marked implies stored

A chunk whose mark is set is never embedded again, so its vector must be there. `MarkedStored` holds
after every step of both passes, with any flags, so it holds wherever they stop: the index transaction
inserts only unmarked chunks, the store is cleared only when no mark is left, and a batch is stored
before its chunks are marked. The argument is about any handler that `Serves` the passes, and says of
the stored vectors whatever is known of the embedder's answers. -/

namespace BrainEngine.Passes.Marked

open BrainEngine.Rust.Str BrainEngine.Lib.Atomic BrainEngine.Lib.Atomic.Prog BrainEngine.Lib.Outcome
open BrainEngine.Core.External BrainEngine.Core.Database BrainEngine.Core.Index
open BrainEngine.Core.Vectors BrainEngine.Core.Embedding BrainEngine.Core.Passes
open BrainEngine.Core.Sample BrainEngine.Index.ChunkIds BrainEngine.Passes.Loop

/-- The store has a row with this chunk id and this content. -/
def Stored (vs : VectorStore) (id : ℕ) (content : Text) : Prop :=
  ∃ r ∈ rows vs, r.chunkId = id ∧ r.content = content

/-- Every chunk with a mark has its vector. -/
def MarkedStored (s : Project) : Prop :=
  ∀ i c, (i, c) ∈ s.db.chunks.rows → c.vectorId ≠ none → Stored s.vs i c.content

/-- The states that sequences of passes reach, each pass stopped after any number of steps. -/
inductive Stopped (x : Extern) : Project → Prop
  | empty : Stopped x Project.empty
  | stop {s t : Project} {q : Prog Op Unit} (h : Stopped x s) (p : Party) (r : Request) (e : Embedder)
    (hone : OnePerText e) (n : ℕ) (hn : after (exec x) n (pass p r e) s = some (q, t)) : Stopped x t

/-- A row with this chunk id and this content, whose vector belongs to the content. -/
def StoredAs (Of : Text → List F32 → Prop) (vs : VectorStore) (id : ℕ) (content : Text) : Prop :=
  ∃ r ∈ rows vs, r.chunkId = id ∧ r.content = content ∧ Of content r.vector

/-- Every chunk with a mark has such a row. -/
def MarkedAs (Of : Text → List F32 → Prop) (s : Project) : Prop :=
  ∀ i c, (i, c) ∈ s.db.chunks.rows → c.vectorId ≠ none → StoredAs Of s.vs i c.content

/-- Whether a step asks the embedder. -/
def asks {β : Type} : Op β → Bool
  | .embed _ _ => true
  | _ => false

/-- A handler over states that contain a project. It makes the steps of `exec`, but for the answers of
its embedder; when they are stored, every chunk of the batch has its vector. -/
structure Serves {σ : Type} (x : Extern) (e : Embedder) (Of : Text → List F32 → Prop)
    (handle : ∀ β, Op β → σ → Except Failure (β × σ)) (project : σ → Project) : Prop where
  other : ∀ {β : Type} {o : Op β} {s t : σ} {b : β}, asks o = false → handle β o s = .ok (b, t) →
    exec x β o (project s) = .ok (b, project t)
  embed : ∀ {texts : List Text} {s t : σ} {vectors : List (List F32)},
    handle _ (.embed e texts) s = .ok (vectors, t) → project t = project s ∧
      ∀ {b : List PendingChunk} {vs vs' : VectorStore}, b.map PendingChunk.content = texts →
        upsert x vs (chunkVectors b vectors) e.dim e.pin = .ok vs' →
        ∀ p ∈ b, StoredAs Of vs' p.id p.content

variable {x : Extern} {e : Embedder} {s t : Project}

theorem markedStored_iff : MarkedStored s ↔ MarkedAs (fun _ _ => True) s := by
  unfold MarkedStored MarkedAs Stored StoredAs
  simp

/-- After an upsert the chunks of the batch have their vectors. -/
theorem stored_upsert (hone : OnePerText e) {b : List PendingChunk} {vectors : List (List F32)}
    {vs vs' : VectorStore} (he : e.embed (b.map PendingChunk.content) = .ok vectors)
    (hu : upsert x vs (chunkVectors b vectors) e.dim e.pin = .ok vs') {p : PendingChunk}
    (hp : p ∈ b) : Stored vs' p.id p.content := by
  have hw := wrote_upsert (s := ⟨Db.empty, vs⟩) he hu
  have hrow := rowOf_batch hone (hw.embedded b (List.mem_singleton.mpr rfl))
  obtain ⟨r, hr, hpr⟩ := exists_right hrow hp
  refine ⟨r, ?_, hpr.chunkId, hpr.content⟩
  have hrows : rows vs' = rows vs ++ newRows e [b] := hw.rows
  rw [hrows]
  simp [newRows, hr]

/-- The model itself serves its passes. -/
theorem serves_exec (hone : OnePerText e) : Serves x e (fun _ _ => True) (exec x) id := by
  refine ⟨fun _ h => h, fun h => ?_⟩
  obtain ⟨he, rfl⟩ := exec_embed h
  refine ⟨rfl, fun hb hu p hp => ?_⟩
  subst hb
  obtain ⟨r, hr, hi, hcon⟩ := stored_upsert hone he hu hp
  exact ⟨r, hr, hi, hcon, trivial⟩

section Serves
variable {σ : Type} {Of : Text → List F32 → Prop}
  {handle : ∀ β, Op β → σ → Except Failure (β × σ)} {project : σ → Project} {c : σ}

/-! ### Steps -/

theorem markedAs_of_unmarked (h : ∀ i c, (i, c) ∈ s.db.chunks.rows → c.vectorId = none) :
    MarkedAs Of s :=
  fun i c hc hv => absurd (h i c hc) hv

theorem markedAs_indexProject {r : Request} {db : Db} {stats : IndexStats} (h : MarkedAs Of s)
    (hr : indexProject x r.tree r.cfg r.now s.db = .ok (db, stats)) :
    MarkedAs Of { s with db } := by
  intro i c hc hv
  rcases mem_chunks_indexProject hr hc with hk | hn
  · exact h i c hk.mem hv
  · exact absurd hn.unmarked hv

/-- The rows that pruning deletes belong to no chunk. -/
theorem markedAs_prune (h : MarkedAs Of s) :
    MarkedAs Of { s with vs := deleteOrphans s.vs (getAllChunkIds s.db) } := by
  intro i c hc hv
  obtain ⟨r, hr, hi, hcon⟩ := h i c hc hv
  have hid : r.chunkId ∈ getAllChunkIds s.db := by
    rw [hi]
    exact BrainEngine.Lib.Rowid.RowTable.mem_ids_of_mem hc
  exact ⟨r, mem_deleteOrphans.mpr ⟨hr, hid⟩, hi, hcon⟩

theorem markedAs_upsert {cs : List ChunkVector} {vs : VectorStore} (h : MarkedAs Of s)
    (hu : upsert x s.vs cs e.dim e.pin = .ok vs) : MarkedAs Of { s with vs } := by
  intro i c hc hv
  obtain ⟨r, hr, hi, hcon⟩ := h i c hc hv
  obtain ⟨batch, hrows, -⟩ := rows_upsert hu
  exact ⟨r, by rw [hrows]; exact List.mem_append_left _ hr, hi, hcon⟩

/-- The chunk is in the table with the content that was read. -/
def Current (db : Db) (p : PendingChunk) : Prop :=
  ∃ c, (p.id, c) ∈ db.chunks.rows ∧ c.content = p.content

theorem current_markChunk {p : PendingChunk} (id : ℕ) (h : Current s.db p) :
    Current (markChunk s.db id) p := by
  obtain ⟨c, hc, hcon⟩ := h
  refine ⟨_, mem_setVectorId.mpr ⟨c, hc, rfl⟩, ?_⟩
  split_ifs
  · exact hcon
  · exact hcon

/-- A chunk may be marked when its vector has been stored. -/
theorem markedAs_markChunk {p : PendingChunk} (h : MarkedAs Of s) (hc : Current s.db p)
    (hs : StoredAs Of s.vs p.id p.content) : MarkedAs Of { s with db := markChunk s.db p.id } := by
  intro i c' hc' hv
  obtain ⟨c, hi, rfl⟩ := mem_setVectorId.mp hc'
  by_cases hp : i = p.id
  · subst hp
    obtain ⟨c₀, hc₀, hcon⟩ := hc
    have hcc : c = c₀ := BrainEngine.Lib.Rowid.RowTable.row_unique hi hc₀
    simp only [decide_true, if_true]
    rw [hcc, hcon]
    exact hs
  · simp only [hp, decide_false, Bool.false_eq_true, if_false] at hv ⊢
    exact h i c hi hv

/-- Without marks there is nothing to lose: neither party clears the store before. -/
theorem markedAs_of_clearMarks {db : Db} (h : t.db.chunks = (clearMarks db).chunks) :
    MarkedAs Of t := by
  refine markedAs_of_unmarked fun i c hc => ?_
  rw [h] at hc
  obtain ⟨c', -, rfl⟩ := mem_setVectorId.mp hc
  rfl

/-! ### Programs -/

variable (Of project) in
/-- What holds at every stopping point. -/
abbrev Marks (c : σ) : Prop := MarkedAs Of (project c)

variable (hs : Serves x e Of handle project)
include hs

section
variable {α β : Type} {o : Op β} {k : β → Prog Op α} {b : β} {u : Project} {Q : α → σ → Prop}
  (ha : asks o = false) (ho : exec x β o (project c) = .ok (b, u))
include ha ho

/-- A step that does not ask the embedder, when its answer is known. -/
theorem Serves.wp_op (hu : MarkedAs Of u)
    (h : ∀ d, Marks Of project d → project d = u → wp handle (Marks Of project) (k b) Q d) :
    wp handle (Marks Of project) (op o k) Q c := by
  intro b' d hd
  have hd := hs.other ha hd
  rw [ho] at hd
  obtain ⟨rfl, rfl⟩ := Prod.mk.inj (Except.ok.inj hd)
  exact ⟨hu, h d hu rfl⟩

/-- A step that changes neither store's chunks. -/
theorem Serves.wp_same (hchunks : u.db.chunks = (project c).db.chunks) (hvs : u.vs = (project c).vs)
    (hc : Marks Of project c)
    (h : ∀ d, Marks Of project d → project d = u → wp handle (Marks Of project) (k b) Q d) :
    wp handle (Marks Of project) (op o k) Q c := by
  refine hs.wp_op ha ho ?_ h
  unfold MarkedAs
  rw [hchunks, hvs]
  exact hc

/-- A step after the marks have been cleared. Whatever it does to the vectors, no chunk needs one. -/
theorem Serves.wp_cleared {db : Db} (hchunks : u.db.chunks = (project c).db.chunks)
    (hc : (project c).db.chunks = (clearMarks db).chunks)
    (h : ∀ d, (project d).db.chunks = (clearMarks db).chunks →
      wp handle (Marks Of project) (k b) Q d) :
    wp handle (Marks Of project) (op o k) Q c := by
  have hu : u.db.chunks = (clearMarks db).chunks := hchunks.trans hc
  exact hs.wp_op ha ho (markedAs_of_clearMarks hu) fun d _ hd => h d (by rw [hd, hu])

end

/-- The marks of a stored batch; `bs` are chunks still to come. -/
theorem wp_marks {b bs : List PendingChunk} (h : Marks Of project c)
    (hb : ∀ p ∈ b, Current (project c).db p ∧ StoredAs Of (project c).vs p.id p.content)
    (hbs : ∀ p ∈ bs, Current (project c).db p) :
    wp handle (Marks Of project) (b.forM fun p => perform (.markChunk p.id))
      (fun _ d => Marks Of project d ∧ ∀ p ∈ bs, Current (project d).db p) c := by
  let I : List PendingChunk → σ → Prop := fun rest d =>
    Marks Of project d ∧
      (∀ p ∈ rest, Current (project d).db p ∧ StoredAs Of (project d).vs p.id p.content) ∧
        ∀ p ∈ bs, Current (project d).db p
  refine wp_mono (wp_forM I ⟨h, hb, hbs⟩ ?_) fun _ d hd => ⟨hd.1, hd.2.2⟩
  rintro p ps c ⟨h, hp, hbs⟩
  obtain ⟨hcur, hst⟩ := hp p List.mem_cons_self
  have hm := markedAs_markChunk h hcur hst
  refine hs.wp_op rfl rfl hm fun d hm hd => ?_
  have hdb : (project d).db = markChunk (project c).db p.id := by rw [hd]
  have hvs : (project d).vs = (project c).vs := by rw [hd]
  refine ⟨hm, fun p' hp' => ?_, fun p' hp' => ?_⟩
  · obtain ⟨hcur', hst'⟩ := hp p' (List.mem_cons_of_mem _ hp')
    rw [hdb, hvs]
    exact ⟨current_markChunk _ hcur', hst'⟩
  · rw [hdb]
    exact current_markChunk _ (hbs p' hp')

theorem wp_embedBatch {b bs : List PendingChunk} (h : Marks Of project c)
    (hb : ∀ p ∈ b, Current (project c).db p) (hbs : ∀ p ∈ bs, Current (project c).db p) :
    wp handle (Marks Of project) (embedBatch e b)
      (fun _ d => Marks Of project d ∧ ∀ p ∈ bs, Current (project d).db p) c := by
  intro vectors d hd
  obtain ⟨heq, hstored⟩ := hs.embed hd
  rw [← heq] at hb hbs
  have h : Marks Of project d := by
    rw [Marks, heq]
    exact h
  refine ⟨h, ?_⟩
  intro _ f hf
  obtain ⟨vs, hup, heq'⟩ := exec_upsert (hs.other rfl hf)
  have hdb : (project f).db = (project d).db := by rw [heq']
  have hvs : (project f).vs = vs := by rw [heq']
  have hm : Marks Of project f := by
    rw [Marks, heq']
    exact markedAs_upsert h hup
  refine ⟨hm, wp_marks hs hm (fun p hp => ⟨?_, ?_⟩) fun p hp => ?_⟩
  · rw [hdb]
    exact hb p hp
  · rw [hvs]
    exact hstored rfl hup p hp
  · rw [hdb]
    exact hbs p hp

/-- **The batch loop**, over chunks that are in the table. -/
theorem wp_embedBatches {pending : List PendingChunk} (h : Marks Of project c)
    (hp : ∀ p ∈ pending, Current (project c).db p) :
    wp handle (Marks Of project) (embedBatches e pending) (fun _ d => Marks Of project d) c := by
  let I : List (List PendingChunk) → σ → Prop := fun rest d =>
    Marks Of project d ∧ ∀ p ∈ rest.flatten, Current (project d).db p
  refine wp_mono (wp_forM I ⟨h, ?_⟩ ?_) fun _ d hd => hd.1
  · rw [Rust.Slice.flatten_chunks (by decide)]
    exact hp
  · rintro b bs c ⟨h, hb⟩
    exact wp_embedBatch hs h (fun p hp => hb p (List.mem_append_left _ hp))
      fun p hp => hb p (List.mem_append_right _ hp)

omit hs in
theorem current_of_pending : ∀ p ∈ getPendingChunks s.db, Current s.db p := by
  intro p hp
  obtain ⟨c, f, hc, -, -, hcon, -⟩ := mem_getPendingChunks.mp hp
  exact ⟨c, hc, hcon.symm⟩

theorem wp_pruneOrphans (h : Marks Of project c) :
    wp handle (Marks Of project) pruneOrphans (fun _ d => Marks Of project d) c := by
  refine hs.wp_same rfl rfl rfl rfl h fun d h hd => ?_
  rw [← hd]
  exact hs.wp_op rfl rfl (markedAs_prune h) fun f h _ => h

theorem wp_embedPendingChunks (h : Marks Of project c) :
    wp handle (Marks Of project) (embedPendingChunks e) (fun _ d => Marks Of project d) c := by
  refine hs.wp_same rfl rfl rfl rfl h fun d h _ => ?_
  refine hs.wp_same rfl rfl rfl rfl h fun f h hf => ?_
  rw [← hf]
  show wp handle (Marks Of project) (if (getPendingChunks (project f).db).isEmpty = true then ret _
    else embedBatches e (getPendingChunks (project f).db) >>= fun _ => ret _) _ f
  split_ifs
  · exact h
  · exact wp_bind (wp_mono (wp_embedBatches hs h current_of_pending) fun _ _ hd => hd)

theorem wp_embedPendingDaemon (h : Marks Of project c) :
    wp handle (Marks Of project) (embedPendingDaemon e) (fun _ d => Marks Of project d) c := by
  refine hs.wp_same rfl rfl rfl rfl h fun d h hd => ?_
  rw [← hd]
  exact wp_bind (p := embedBatches e (getPendingChunks (project d).db))
    (wp_mono (wp_embedBatches hs h current_of_pending) fun _ _ hd => hd)

theorem wp_pruneAndEmbed (h : Marks Of project c) :
    wp handle (Marks Of project) (pruneAndEmbed e) (fun _ d => Marks Of project d) c := by
  refine wp_bind (wp_mono (wp_pruneOrphans hs h) fun _ d hd => ?_)
  refine wp_bind (wp_mono (wp_embedPendingChunks hs hd) fun _ f hf => ?_)
  exact hs.wp_same rfl rfl rfl rfl hf fun g hg _ => hg

/-- Every statement of a reset leaves the chunk table without marks. -/
theorem wp_resetVectors :
    wp handle (Marks Of project) (resetVectors e) (fun _ d => Marks Of project d) c := by
  refine hs.wp_op rfl rfl (markedAs_of_clearMarks rfl) fun d _ hd => ?_
  have hd : (project d).db.chunks = (clearMarks (project c).db).chunks := by rw [hd]
  refine hs.wp_cleared rfl rfl rfl hd fun f hf => hs.wp_cleared rfl rfl rfl hf fun g hg => ?_
  exact hs.wp_cleared rfl rfl rfl hg fun k hk => markedAs_of_clearMarks hk

theorem wp_resetVectorsDaemon :
    wp handle (Marks Of project) (resetVectorsDaemon e) (fun _ d => Marks Of project d) c := by
  refine hs.wp_op rfl rfl (markedAs_of_clearMarks rfl) fun d _ hd => ?_
  have hd : (project d).db.chunks = (clearMarks (project c).db).chunks := by rw [hd]
  refine hs.wp_cleared rfl rfl rfl hd fun f hf => hs.wp_cleared rfl rfl rfl hf fun g hg => ?_
  exact hs.wp_cleared rfl rfl rfl hg fun k hk => markedAs_of_clearMarks hk

theorem wp_setModelPin (h : Marks Of project c) :
    wp handle (Marks Of project) (setModelPin e) (fun _ d => Marks Of project d) c :=
  hs.wp_same rfl rfl rfl rfl h fun _ h _ => hs.wp_same rfl rfl rfl rfl h fun _ h _ => h

theorem wp_setModelPinIfAbsent (h : Marks Of project c) :
    wp handle (Marks Of project) (setModelPinIfAbsent e) (fun _ d => Marks Of project d) c := by
  refine hs.wp_same rfl rfl rfl rfl h fun d h _ => ?_
  show wp handle (Marks Of project) (if (getMeta (project c).db modelIdKey).isNone = true
    then setModelPin e else ret ()) _ d
  split_ifs
  · exact wp_setModelPin hs h
  · exact h

theorem wp_needFullReindex {reindex : Bool} (h : Marks Of project c) :
    wp handle (Marks Of project) (needFullReindex reindex e) (fun _ d => Marks Of project d) c := by
  cases reindex with
  | true => exact h
  | false =>
    exact hs.wp_same rfl rfl rfl rfl h fun _ h _ => hs.wp_same rfl rfl rfl rfl h fun _ h _ => h

theorem wp_prepare {reindex : Bool} (h : Marks Of project c) :
    wp handle (Marks Of project) (prepare reindex e) (fun _ d => Marks Of project d) c := by
  refine wp_bind (wp_mono (wp_needFullReindex hs h) fun full d hd => ?_)
  cases full with
  | true => exact wp_resetVectors hs
  | false => exact wp_setModelPinIfAbsent hs hd

theorem wp_indexProject {r : Request} (h : Marks Of project c) :
    wp handle (Marks Of project) (perform (.indexProject r.tree r.cfg r.now))
      (fun _ d => Marks Of project d) c := by
  intro stats d hd
  obtain ⟨db, hi, heq⟩ := exec_indexProject (hs.other rfl hd)
  have hm : Marks Of project d := by
    rw [Marks, heq]
    exact markedAs_indexProject h hi
  exact ⟨hm, hm⟩

/-- **Every step of a pass** keeps the invariant. -/
theorem wp_pass (p : Party) (r : Request) (h : Marks Of project c) :
    wp handle (Marks Of project) (pass p r e) (fun _ d => Marks Of project d) c := by
  cases p with
  | cli =>
    refine wp_bind (p := run r e) (wp_mono (Q := fun _ d => Marks Of project d) ?_ fun _ _ hd => hd)
    refine wp_bind (wp_mono (wp_indexProject hs h) fun stats d hd => ?_)
    split_ifs
    · exact hd
    · refine wp_bind (p := embedStage r.reindex e) (wp_mono (Q := fun _ d => Marks Of project d) ?_
        fun _ _ hd => hd)
      exact wp_bind (wp_mono (wp_prepare hs hd) fun _ f hf => wp_pruneAndEmbed hs hf)
  | daemon =>
    refine wp_bind (p := handleIndex r e) (wp_mono (Q := fun _ d => Marks Of project d) ?_
      fun _ _ hd => hd)
    refine wp_bind (wp_mono (wp_indexProject hs h) fun stats d hd => ?_)
    split_ifs
    · exact hd
    · refine wp_bind (p := embedStageDaemon r.reindex e) (wp_mono
        (Q := fun _ d => Marks Of project d) ?_ fun _ _ hd => hd)
      refine wp_bind (p := prepareDaemon r.reindex e) (wp_mono
        (Q := fun _ d => Marks Of project d) ?_ ?_)
      · unfold prepareDaemon
        split_ifs
        · exact wp_resetVectorsDaemon hs
        · exact hd
      · intro _ f hf
        exact wp_bind (wp_mono (wp_pruneOrphans hs hf) fun _ g hg => wp_embedPendingDaemon hs hg)

/-- **Wherever a pass stops**, the marked chunks have their vectors. -/
theorem markedAs_after {p : Party} {r : Request} {n : ℕ} {q : Prog Op Unit} {d : σ}
    (h : MarkedAs Of (project c)) (hn : after handle n (pass p r e) c = some (q, d)) :
    MarkedAs Of (project d) :=
  (wp_after (wp_pass hs p r h) h hn).1

end Serves

/-- **A pass that ends** leaves the marked chunks stored. -/
theorem markedStored_eval {p : Party} {r : Request} {a : Unit} (hone : OnePerText e)
    (h : MarkedStored s) (hr : eval (exec x) (pass p r e) s = .ok (a, t)) : MarkedStored t := by
  have hm : Marks (fun _ _ => True) id s := markedStored_iff.mp h
  have hwp := wp_pass (serves_exec (x := x) hone) p r hm
  exact markedStored_iff.mpr (wp_eval (Q := fun _ d => Marks (fun _ _ => True) id d) hwp hr)

/-- **Marked implies stored**, in every state that passes of both parties reach, wherever they
stop. -/
theorem markedStored_of_stopped (h : Stopped x s) : MarkedStored s := by
  induction h with
  | empty =>
    refine markedStored_iff.mpr (markedAs_of_unmarked fun i c hc => ?_)
    exact absurd hc (by simp [Project.empty, Db.empty])
  | stop _ p r e hone n hn ih =>
    exact markedStored_iff.mpr (markedAs_after (serves_exec hone) (markedStored_iff.mp ih) hn)

/-- A first run of the CLI that stops when it has marked one of two chunks. -/
theorem markedStored_midBatch :
    let r : Request := ⟨treeOf [("a.txt", 1, ascii "a"), ("b.txt", 1, ascii "b")], {}, 1, false, false⟩
    let t := stateAfter sample 13 (pass .cli r bge) Project.empty
    MarkedStored t ∧ (t.db.chunks.rows.map fun a => a.2.vectorId) = [some "1".toList, none] ∧
      storedIds t.vs = [1, 2] := by
  intro r t
  obtain ⟨q, hq⟩ := after_stateAfter (x := sample) (n := 13) (p := pass .cli r bge)
    (s := Project.empty) (by decide)
  refine ⟨markedStored_of_stopped
    (.stop .empty .cli r bge (onePerText_constant _ _ _) 13 hq), ?_, ?_⟩
  · decide
  · decide

end BrainEngine.Passes.Marked
