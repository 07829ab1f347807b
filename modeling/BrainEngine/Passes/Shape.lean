import BrainEngine.Passes.Stages

/-! # The shape of a pass

What is left of a pass after some of its steps, as far as another pass beside it is concerned: the ids
it prunes with next (`validIds`), the chunks it has stored and is to mark (`due`), and those that it is
to store (`Unstored`). A program is `PassLike` if each step and its answer are followed as in a pass:
pruning by the ids that have been read, a batch by its marks, and the batch loop by rest. -/

namespace BrainEngine.Passes.Shape

open BrainEngine.Lib.Atomic BrainEngine.Lib.Atomic.Prog
open BrainEngine.Core.External BrainEngine.Core.Database BrainEngine.Core.Index BrainEngine.Core.Vectors
open BrainEngine.Core.Embedding BrainEngine.Core.Passes
open BrainEngine.Rust.Str BrainEngine.Passes.Loop BrainEngine.Passes.Stages

variable {x : Extern} {e : Embedder} {α β : Type}

/-! ### The next steps -/

/-- The ids with which a program prunes next. -/
def validIds : Prog Op α → Option (List ℕ)
  | op (.deleteOrphans ids) _ => some ids
  | _ => none

/-- The program is in its batch loop: it has read the pending chunks and not set its last mark. -/
def inBatches : Prog Op α → Bool
  | op (.embed _ _) _ => true
  | op (.upsert _ _) _ => true
  | op (.markChunk _) _ => true
  | _ => false

/-- The chunks that a program marks before it does anything else. -/
def due : Prog Op α → List ℕ
  | op (.markChunk id) k => id :: due (k ())
  | _ => []

def isIndex : Op β → Bool
  | .indexProject _ _ _ => true
  | _ => false

/-- The program has committed its index transaction. -/
def Indexed : Prog Op α → Prop
  | ret _ => True
  | op o k => isIndex o = false ∧ ∀ b, Indexed (k b)

/-- What the batch loop of a program is still to store is not among `ids`. -/
def Unstored : Prog Op α → List ℕ → Prop
  | op (.embed e texts) k, ids => ∀ vectors, e.embed texts = .ok vectors → Unstored (k vectors) ids
  | op (.upsert cs _) k, ids =>
    (∀ c ∈ cs, c.chunkId ∉ ids) ∧ Unstored (k ()) (ids ++ cs.map ChunkVector.chunkId)
  | op (.markChunk _) k, ids => Unstored (k ()) ids
  | _, _ => True

/-- The program neither prunes nor is in its batch loop. -/
structure Resting (p : Prog Op α) : Prop where
  valid : validIds p = none
  batches : inBatches p = false

theorem due_of_not_inBatches {p : Prog Op α} (h : inBatches p = false) : due p = [] := by
  cases p with
  | ret a => rfl
  | op o k =>
    cases o with
    | markChunk id => simp [inBatches] at h
    | _ => rfl

theorem unstored_of_not_inBatches {p : Prog Op α} (h : inBatches p = false) (ids : List ℕ) :
    Unstored p ids := by
  cases p with
  | ret a => exact trivial
  | op o k =>
    cases o with
    | embed e texts => simp [inBatches] at h
    | upsert cs e => simp [inBatches] at h
    | markChunk id => simp [inBatches] at h
    | _ => exact trivial

theorem not_inBatches_of_valid {p : Prog Op α} {ids : List ℕ} (h : validIds p = some ids) :
    inBatches p = false := by
  cases p with
  | ret a => rfl
  | op o k =>
    cases o with
    | deleteOrphans ids => rfl
    | _ => simp [validIds] at h

theorem unstored_mono {p : Prog Op α} {ids ids' : List ℕ} (hsub : ids' ⊆ ids) (h : Unstored p ids) :
    Unstored p ids' := by
  induction p generalizing ids ids' with
  | ret a => exact trivial
  | op o k ih =>
    cases o with
    | embed e texts => exact fun vectors he => ih vectors hsub (h vectors he)
    | upsert cs e =>
      refine ⟨fun c hc hi => h.1 c hc (hsub hi), ih () ?_ h.2⟩
      exact List.append_subset.mpr ⟨fun i hi => List.mem_append_left _ (hsub hi),
        List.subset_append_right _ _⟩
    | markChunk id => exact ih () hsub h
    | _ => exact trivial

/-- What follows a step and its answer. -/
def Follows : Op β → β → Prog Op α → Prop
  | .markChunk _, _, p => validIds p = none
  | .upsert cs _, _, p =>
    (cs.map ChunkVector.chunkId).Nodup ∧ due p = cs.map ChunkVector.chunkId ∧ validIds p = none ∧
      Indexed p
  | .embed _ _, _, p => due p = [] ∧ validIds p = none
  | .getPendingChunks, pending, p => due p = [] ∧ validIds p = none ∧
      ∀ ids, (∀ c ∈ pending, c.id ∉ ids) → Unstored p ids
  | .getAllChunkIds, ids, p => validIds p = some ids
  | .deleteOrphans _, _, p => Resting p ∧ Indexed p
  | _, _, p => Resting p

/-- Every step of the program, from whatever state, is followed as it should be. -/
def PassLike (x : Extern) : Prog Op α → Prop
  | ret _ => True
  | op o k => ∀ s b t, exec x _ o s = .ok (b, t) → Follows o b (k b) ∧ PassLike x (k b)

/-- A program that comes after the index transaction and is at rest. -/
structure Tail (x : Extern) (p : Prog Op α) : Prop where
  passLike : PassLike x p
  resting : Resting p
  indexed : Indexed p

theorem tail_ret (a : α) : Tail x (ret a : Prog Op α) := ⟨trivial, ⟨rfl, rfl⟩, trivial⟩

/-- A step between which and the next one the program is at rest. -/
def isPlain : Op β → Bool
  | .getMeta _ => true
  | .setMeta _ _ => true
  | .clearMarks => true
  | .alreadyEmbeddedCount => true
  | .clearVectors => true
  | .countVectors => true
  | _ => false

theorem tail_op {o : Op β} {k : β → Prog Op α} (ho : isPlain o = true) (hk : ∀ b, Tail x (k b)) :
    Tail x (op o k) := by
  have hfollows : ∀ b, Follows o b (k b) := by
    intro b
    cases o
    all_goals first
      | exact (hk b).resting
      | simp [isPlain] at ho
  refine ⟨fun s b t _ => ⟨hfollows b, (hk b).passLike⟩, ⟨?_, ?_⟩, ?_, fun b => (hk b).indexed⟩
  · cases o with
    | deleteOrphans ids => simp [isPlain] at ho
    | _ => rfl
  · cases o with
    | embed e texts => simp [isPlain] at ho
    | upsert cs e => simp [isPlain] at ho
    | markChunk id => simp [isPlain] at ho
    | _ => rfl
  · cases o with
    | indexProject tree cfg now => simp [isPlain] at ho
    | _ => rfl

/-! ### The batch loop -/

/-- The marks of a batch, and a program after them. -/
def marksThen (b : List PendingChunk) (p : Prog Op α) : Prog Op α :=
  (b.forM fun c => perform (.markChunk c.id)) >>= fun _ => p

/-- The batch loop, and a program after it. -/
def batchesThen (e : Embedder) (bs : List (List PendingChunk)) (p : Prog Op α) : Prog Op α :=
  bs.forM (embedBatch e) >>= fun _ => p

theorem batchesThen_cons (b : List PendingChunk) (bs : List (List PendingChunk)) (p : Prog Op α) :
    batchesThen e (b :: bs) p = op (.embed e (b.map PendingChunk.content)) fun vectors =>
      op (.upsert (chunkVectors b vectors) e) fun _ => marksThen b (batchesThen e bs p) := by
  unfold marksThen batchesThen
  rw [← Prog.bind_assoc]
  rfl

section Marks
variable {p : Prog Op α}

theorem due_marksThen (h : due p = []) : ∀ b, due (marksThen b p) = b.map PendingChunk.id
  | [] => h
  | c :: b => congrArg (c.id :: ·) (due_marksThen h b)

theorem validIds_marksThen (h : validIds p = none) : ∀ b, validIds (marksThen b p) = none
  | [] => h
  | _ :: _ => rfl

theorem indexed_marksThen (h : Indexed p) : ∀ b, Indexed (marksThen b p)
  | [] => h
  | _ :: b => ⟨rfl, fun _ => indexed_marksThen h b⟩

theorem unstored_marksThen {ids : List ℕ} (h : Unstored p ids) : ∀ b, Unstored (marksThen b p) ids
  | [] => h
  | _ :: b => unstored_marksThen h b

theorem passLike_marksThen (hv : validIds p = none) (h : PassLike x p) :
    ∀ b, PassLike x (marksThen b p)
  | [] => h
  | _ :: b => fun _ _ _ _ => ⟨validIds_marksThen hv b, passLike_marksThen hv h b⟩

end Marks

theorem chunkIds_chunkVectors : ∀ {b : List PendingChunk} {vectors : List (List F32)},
    vectors.length = b.length →
      (chunkVectors b vectors).map ChunkVector.chunkId = b.map PendingChunk.id
  | [], _, _ => rfl
  | p :: _, _ :: _, h => congrArg (p.id :: ·) (chunkIds_chunkVectors (by simpa using h))
  | _ :: _, [], h => by simp at h

/-- With an answer of the embedder the rows of a batch have the ids of its chunks. -/
theorem chunkIds_batch (hone : OnePerText e) {b : List PendingChunk} {vectors : List (List F32)}
    (h : e.embed (b.map PendingChunk.content) = .ok vectors) :
    (chunkVectors b vectors).map ChunkVector.chunkId = b.map PendingChunk.id :=
  chunkIds_chunkVectors (by rw [hone _ _ h, List.length_map])

section Batches
variable {p : Prog Op α}

theorem due_batchesThen (h : due p = []) : ∀ bs, due (batchesThen e bs p) = []
  | [] => h
  | _ :: _ => rfl

theorem validIds_batchesThen (h : validIds p = none) : ∀ bs, validIds (batchesThen e bs p) = none
  | [] => h
  | _ :: _ => rfl

theorem indexed_batchesThen (h : Indexed p) : ∀ bs, Indexed (batchesThen e bs p)
  | [] => h
  | b :: bs => by
    rw [batchesThen_cons]
    exact ⟨rfl, fun _ => ⟨rfl, fun _ => indexed_marksThen (indexed_batchesThen h bs) b⟩⟩

/-- What the loop stores are its chunks. -/
theorem unstored_batchesThen (hone : OnePerText e) (hp : ∀ ids, Unstored p ids) :
    ∀ {bs : List (List PendingChunk)} {ids : List ℕ}, (bs.flatten.map PendingChunk.id).Nodup →
      (∀ c ∈ bs.flatten, c.id ∉ ids) → Unstored (batchesThen e bs p) ids
  | [], ids, _, _ => hp ids
  | b :: bs, ids, hnd, hids => by
    rw [batchesThen_cons]
    rw [List.flatten_cons, List.map_append, List.nodup_append] at hnd
    obtain ⟨-, hbs, hdisj⟩ := hnd
    intro vectors hv
    have hb := chunkIds_batch hone hv
    refine ⟨fun c hc => ?_, unstored_marksThen (unstored_batchesThen hone hp hbs ?_) b⟩
    · have hcb := List.mem_map_of_mem (f := ChunkVector.chunkId) hc
      rw [hb] at hcb
      obtain ⟨c', hc', hi⟩ := List.mem_map.mp hcb
      rw [← hi]
      exact hids c' (List.mem_append_left _ hc')
    · intro c hc hi
      rcases List.mem_append.mp hi with hi | hi
      · exact hids c (List.mem_append_right _ hc) hi
      · rw [hb] at hi
        exact hdisj _ hi _ (List.mem_map_of_mem hc) rfl

theorem passLike_batchesThen (hone : OnePerText e) (hp : Tail x p) :
    ∀ {bs : List (List PendingChunk)}, (bs.flatten.map PendingChunk.id).Nodup →
      PassLike x (batchesThen e bs p)
  | [], _ => hp.passLike
  | b :: bs, hnd => by
    rw [batchesThen_cons]
    rw [List.flatten_cons, List.map_append, List.nodup_append] at hnd
    obtain ⟨hb, hbs, -⟩ := hnd
    have hv := validIds_batchesThen (e := e) hp.resting.valid bs
    have hdue := due_batchesThen (e := e) (due_of_not_inBatches hp.resting.batches) bs
    refine fun s vectors t he => ⟨⟨rfl, rfl⟩, fun s' _ t' _ => ⟨⟨?_, ?_, ?_, ?_⟩, ?_⟩⟩
    · rw [chunkIds_batch hone (exec_embed he).1]
      exact hb
    · rw [chunkIds_batch hone (exec_embed he).1]
      exact due_marksThen hdue b
    · exact validIds_marksThen hv b
    · exact indexed_marksThen (indexed_batchesThen hp.indexed bs) b
    · exact passLike_marksThen hv (passLike_batchesThen hone hp hbs) b

end Batches

/-- Reading the pending chunks, and what comes after: the batch loop, or nothing if there are none. -/
theorem tail_pending (hone : OnePerText e) {k : List PendingChunk → Prog Op α}
    (rest : List PendingChunk → Prog Op α) (hrest : ∀ pending, Tail x (rest pending))
    (hk : ∀ pending, k pending = batchesThen e (Rust.Slice.chunks batchSize pending) (rest pending)) :
    Tail x (op .getPendingChunks k) := by
  refine ⟨fun s pending t hp => ?_, ⟨rfl, rfl⟩, rfl, fun pending => ?_⟩
  · cases hp
    have hflat : (Rust.Slice.chunks batchSize (getPendingChunks s.db)).flatten =
        getPendingChunks s.db := flatten_batches _
    have hnd : ((Rust.Slice.chunks batchSize (getPendingChunks s.db)).flatten.map
        PendingChunk.id).Nodup := by
      rw [hflat]
      exact nodup_pending_ids
    have htail := hrest (getPendingChunks s.db)
    have hdue := due_of_not_inBatches htail.resting.batches
    rw [hk]
    refine ⟨⟨due_batchesThen hdue _, validIds_batchesThen htail.resting.valid _, fun ids hids => ?_⟩,
      passLike_batchesThen hone htail hnd⟩
    refine unstored_batchesThen hone (unstored_of_not_inBatches htail.resting.batches) hnd ?_
    rw [hflat]
    exact hids
  · rw [hk]
    exact indexed_batchesThen (hrest pending).indexed _

/-! ### The passes -/

theorem tail_embedPendingChunks (hone : OnePerText e) {k : EmbedStats → Prog Op α}
    (hk : ∀ a, Tail x (k a)) : Tail x (embedPendingChunks e >>= k) := by
  refine tail_op (o := .alreadyEmbeddedCount) rfl fun n => ?_
  let rest (pending : List PendingChunk) : Prog Op α := k
    { embedded := ((Rust.Slice.chunks batchSize pending).map List.length).sum, alreadyEmbedded := n }
  refine tail_pending hone rest (fun _ => hk _) fun pending => ?_
  show (if pending.isEmpty = true then ret _ else embedBatches e pending >>= fun _ => ret _) >>= k = _
  split_ifs with hnil
  · rw [List.isEmpty_iff.mp hnil]
    rfl
  · exact Prog.bind_assoc _ _ _

theorem tail_embedPendingDaemon (hone : OnePerText e) {k : ℕ → Prog Op α} (hk : ∀ a, Tail x (k a)) :
    Tail x (embedPendingDaemon e >>= k) := by
  let rest (pending : List PendingChunk) : Prog Op α :=
    k ((Rust.Slice.chunks batchSize pending).map List.length).sum
  refine tail_pending hone rest (fun _ => hk _) fun pending => ?_
  show (embedBatches e pending >>= fun _ => ret _) >>= k = _
  exact Prog.bind_assoc _ _ _

section
variable {k : Unit → Prog Op α} (hk : ∀ a, Tail x (k a))
include hk

theorem tail_pruneOrphans : Tail x (pruneOrphans >>= k) := by
  refine ⟨fun s ids t _ => ⟨rfl, fun _ _ _ _ => ⟨⟨(hk _).resting, (hk _).indexed⟩, (hk _).passLike⟩⟩,
    ⟨rfl, rfl⟩, rfl, fun ids => ⟨rfl, fun _ => (hk _).indexed⟩⟩

theorem tail_setModelPin : Tail x (setModelPin e >>= k) :=
  tail_op (o := .setMeta modelIdKey e.modelId) rfl fun _ =>
    tail_op (o := .setMeta dimKey (ofNat e.dim)) rfl fun _ => hk _

theorem tail_resetVectors : Tail x (resetVectors e >>= k) :=
  tail_op (o := .clearMarks) rfl fun _ => tail_op (o := .setMeta modelIdKey e.modelId) rfl fun _ =>
    tail_op (o := .setMeta dimKey (ofNat e.dim)) rfl fun _ =>
      tail_op (o := .clearVectors) rfl fun _ => hk _

theorem tail_resetVectorsDaemon : Tail x (resetVectorsDaemon e >>= k) :=
  tail_op (o := .clearMarks) rfl fun _ => tail_op (o := .clearVectors) rfl fun _ =>
    tail_op (o := .setMeta modelIdKey e.modelId) rfl fun _ =>
      tail_op (o := .setMeta dimKey (ofNat e.dim)) rfl fun _ => hk _

theorem tail_setModelPinIfAbsent : Tail x (setModelPinIfAbsent e >>= k) := by
  refine tail_op (o := .getMeta modelIdKey) rfl fun pm => ?_
  show Tail x ((if pm.isNone = true then setModelPin e else ret ()) >>= k)
  split_ifs
  · exact tail_setModelPin hk
  · exact hk _

theorem tail_prepare (reindex : Bool) : Tail x (prepare reindex e >>= k) := by
  have hdecide : ∀ full : Bool,
      Tail x ((if full = true then resetVectors e else setModelPinIfAbsent e) >>= k) := by
    intro full
    split_ifs
    · exact tail_resetVectors hk
    · exact tail_setModelPinIfAbsent hk
  cases reindex with
  | true => exact hdecide true
  | false =>
    exact tail_op (o := .getMeta modelIdKey) rfl fun pm =>
      tail_op (o := .getMeta dimKey) rfl fun pd => hdecide _

theorem tail_prepareDaemon (reindex : Bool) : Tail x (prepareDaemon reindex e >>= k) := by
  unfold prepareDaemon
  split_ifs
  · exact tail_resetVectorsDaemon hk
  · exact hk _

end

/-- **A pass is pass-like**, and at rest before its index transaction. -/
theorem passLike_pass (hone : OnePerText e) (p : Party) (r : Request) :
    PassLike x (pass p r e) ∧ Resting (pass p r e) := by
  cases p with
  | cli =>
    have htail : ∀ stats : IndexStats, Tail x ((if r.noEmbed = true then ret (stats, none) else
        embedStage r.reindex e >>= fun st => ret (stats, some st)) >>= fun _ => ret ()) := by
      intro stats
      split_ifs
      · exact tail_ret _
      · rw [Prog.bind_assoc]
        show Tail x ((prepare r.reindex e >>= fun _ => pruneOrphans >>= fun _ =>
          embedPendingChunks e >>= fun st => op .countVectors fun total => ret (st, total)) >>= _)
        simp only [Prog.bind_assoc]
        exact tail_prepare (fun _ => tail_pruneOrphans fun _ => tail_embedPendingChunks hone
          fun _ => tail_op (o := .countVectors) rfl fun _ => tail_ret _) _
    exact ⟨fun s stats t _ => ⟨(htail stats).resting, (htail stats).passLike⟩, ⟨rfl, rfl⟩⟩
  | daemon =>
    have htail : ∀ stats : IndexStats, Tail x ((if r.noEmbed = true then ret (stats, 0) else
        embedStageDaemon r.reindex e >>= fun n => ret (stats, n)) >>= fun _ => ret ()) := by
      intro stats
      split_ifs
      · exact tail_ret _
      · rw [Prog.bind_assoc]
        show Tail x ((prepareDaemon r.reindex e >>= fun _ => pruneOrphans >>= fun _ =>
          embedPendingDaemon e) >>= _)
        simp only [Prog.bind_assoc]
        exact tail_prepareDaemon (fun _ => tail_pruneOrphans fun _ => tail_embedPendingDaemon hone
          fun _ => tail_ret _) _
    exact ⟨fun s stats t _ => ⟨(htail stats).resting, (htail stats).passLike⟩, ⟨rfl, rfl⟩⟩

end BrainEngine.Passes.Shape
