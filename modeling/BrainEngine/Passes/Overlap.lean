import BrainEngine.Lib.Parallel
import BrainEngine.Passes.Shape
import BrainEngine.Passes.Mirror

/-! # Two passes that overlap

Nothing keeps two passes apart: each prunes with the ids and stores the pending chunks that it has read
earlier. `inTurn` says when a step leaves to the other pass what that has read: nothing is indexed while
the other pass is pruning, and no pending chunks are read while the other pass is in its batch loop. If
all steps are in turn, and no chunk gets the id of a vector, every marked chunk has exactly one vector,
wherever the two passes are. -/

namespace BrainEngine.Passes.Overlap

open BrainEngine.Rust.Str BrainEngine.Lib.Rowid BrainEngine.Lib.Atomic BrainEngine.Lib.Atomic.Prog
open BrainEngine.Lib.Parallel
open BrainEngine.Core.External BrainEngine.Core.Database BrainEngine.Core.Index
open BrainEngine.Core.Vectors
open BrainEngine.Core.Embedding BrainEngine.Core.Passes BrainEngine.Core.Sample
open BrainEngine.Index.Runs BrainEngine.Index.ChunkIds
open BrainEngine.Passes.Stages BrainEngine.Passes.Counts
open BrainEngine.Passes.Mirror BrainEngine.Passes.Shape

variable {x : Extern} {e : Embedder} {s t : Project} {α β : Type}

/-- A step in its turn, beside what is left of another pass. -/
def inTurn (x : Extern) (β : Type) : Op β → Prog Op α → Project → Bool
  | .indexProject tree cfg now, q, s =>
    (validIds q).isNone && txFresh (storedIds s.vs) now s.db (plan x tree cfg s.db)
  | .getPendingChunks, q, _ => !inBatches q
  -- the steps of a full reindex have no turn
  | .clearMarks, _, _ => false
  | .clearVectors, _, _ => false
  | _, _, _ => true

/-! ### Steps -/

/-- The assertion about what is left of one pass, `p`, beside another one, `q`. A chunk that `p` is
about to mark has exactly one row, or is out of the table for good: no pass will insert it again. -/
structure Ahead (x : Extern) (p q : Prog Op α) (s : Project) : Prop where
  passLike : PassLike x p
  due : ∀ i ∈ due p, Indexed p ∧ ((storedIds s.vs).count i = 1 ∨ i ∉ s.db.chunks.ids ∧ Indexed q)
  valid : ∀ ids, validIds p = some ids → s.db.chunks.ids ⊆ ids
  unstored : Unstored p (storedIds s.vs)

/-- The assertion about two passes. -/
structure Sound (x : Extern) (p q : Prog Op α) (s : Project) : Prop where
  once : MarkedOnce s
  unused : ∀ i c, (i, c) ∈ s.db.chunks.rows → c.vectorId = none → i ∈ storedIds s.vs →
    i ∈ due p ∨ i ∈ due q
  apart : inBatches p = false ∨ inBatches q = false
  left : Ahead x p q s
  right : Ahead x q p s

theorem Sound.symm {p q : Prog Op α} (h : Sound x p q s) : Sound x q p s :=
  ⟨h.once, fun i c hc hv hi => (h.unused i c hc hv hi).symm, h.apart.symm, h.right, h.left⟩

/-- While one pass is in its batch loop the other is not. -/
theorem Sound.not_inBatches {p q : Prog Op α} (h : Sound x p q s) (hp : inBatches p = true) :
    inBatches q = false := by
  rcases h.apart with hp' | hq
  · rw [hp] at hp'
    exact absurd hp' (by simp)
  · exact hq

theorem valid_of_none {p : Prog Op α} (h : validIds p = none) :
    ∀ ids, validIds p = some ids → s.db.chunks.ids ⊆ ids := by
  intro ids hids
  rw [h] at hids
  exact absurd hids (by simp)

theorem ahead_of_not_due {p q : Prog Op α} (ho : PassLike x p) (hdue : due p = [])
    (hvalid : ∀ ids, validIds p = some ids → s.db.chunks.ids ⊆ ids)
    (hun : Unstored p (storedIds s.vs)) : Ahead x p q s := by
  refine ⟨ho, fun i hi => ?_, hvalid, hun⟩
  rw [hdue] at hi
  exact absurd hi List.not_mem_nil

/-- A program that is at rest has only to be pass-like. -/
theorem ahead_of_resting {p q : Prog Op α} (ho : PassLike x p) (h : Resting p) : Ahead x p q s :=
  ahead_of_not_due ho (due_of_not_inBatches h.batches) (valid_of_none h.valid)
    (unstored_of_not_inBatches h.batches _)

section Step
variable {o : Op β} {k : β → Prog Op α} {q : Prog Op α} {b : β}

/-- The other program after a step that leaves the ids in the table: its due marks keep their rows, or
leave the table, and it is in its batch loop only if no row was added. -/
theorem Ahead.other (h : Ahead x q (op o k) s)
    (hcount : ∀ i, (storedIds s.vs).count i = 1 →
      (storedIds t.vs).count i = 1 ∨ i ∉ t.db.chunks.ids ∧ Indexed (k b))
    (hids : t.db.chunks.ids = s.db.chunks.ids)
    (hun : inBatches q = false ∨ storedIds t.vs ⊆ storedIds s.vs) : Ahead x q (k b) t := by
  refine ⟨h.passLike, fun i hi => ?_, fun ids hv => by rw [hids]; exact h.valid ids hv, ?_⟩
  · obtain ⟨hq, hi⟩ := h.due i hi
    refine ⟨hq, ?_⟩
    rcases hi with hi | ⟨hi, hidx⟩
    · exact hcount i hi
    · rw [← hids] at hi
      exact Or.inr ⟨hi, hidx.2 b⟩
  · rcases hun with hq | hsub
    · exact unstored_of_not_inBatches hq _
    · exact unstored_mono hsub h.unstored

/-- A step that changes neither vectors nor chunks, from a program that has no due marks to one that
has none. -/
theorem sound_same (h : Sound x (op o k) q s) (hvs : t.vs = s.vs) (hdb : t.db.chunks = s.db.chunks)
    (hdue : due (op o k) = []) (hdue' : due (k b) = [])
    (hapart : inBatches (k b) = false ∨ inBatches q = false) (hleft : Ahead x (k b) q t) :
    Sound x (k b) q t := by
  refine ⟨?_, ?_, hapart, hleft, h.right.other ?_ (by rw [hdb]) (Or.inr (by rw [hvs]; simp))⟩
  · intro i c hc hv
    rw [hdb] at hc
    rw [hvs]
    exact h.once i c hc hv
  · intro i c hc hv hi
    rw [hdb] at hc
    rw [hvs] at hi
    have hun := h.unused i c hc hv hi
    rw [hdue] at hun
    rw [hdue']
    exact hun
  · exact fun i hi => Or.inl (by rw [hvs]; exact hi)

/-- Such a step to a program at rest. -/
theorem sound_resting (h : Sound x (op o k) q s) (he : exec x _ o s = .ok (b, t)) (hvs : t.vs = s.vs)
    (hdb : t.db.chunks = s.db.chunks) (hdue : due (op o k) = []) (hrest : Resting (k b)) :
    Sound x (k b) q t :=
  sound_same h hvs hdb hdue (due_of_not_inBatches hrest.batches) (Or.inl hrest.batches)
    (ahead_of_resting (h.left.passLike _ _ _ he).2 hrest)

end Step

section Steps
variable {q : Prog Op α}

theorem sound_indexProject {tree : BrainEngine.Core.Walk.Tree}
    {cfg : BrainEngine.Core.Config.ProjectConfig} {now : ℕ} {k : IndexStats → Prog Op α}
    {stats : IndexStats} (h : Sound x (op (.indexProject tree cfg now) k) q s)
    (hok : inTurn x _ (.indexProject tree cfg now) q s = true)
    (he : exec x _ (.indexProject tree cfg now) s = .ok (stats, t)) : Sound x (k stats) q t := by
  obtain ⟨hrest, ho⟩ := h.left.passLike _ _ _ he
  have hrest : Resting (k stats) := hrest
  obtain ⟨db, hi, rfl⟩ := exec_indexProject he
  obtain ⟨hvalid, hfresh⟩ := Bool.and_eq_true_iff.mp hok
  have hright : Ahead x q (k stats) { s with db } := by
    refine ⟨h.right.passLike, fun i hi => ?_, fun ids hv => ?_, h.right.unstored⟩
    · obtain ⟨hq, hi | ⟨-, hidx⟩⟩ := h.right.due i hi
      · exact ⟨hq, Or.inl hi⟩
      · exact absurd hidx.1 (by simp [isIndex])
    · rw [hv] at hvalid
      simp at hvalid
  refine ⟨?_, fun i c hc hv hst => ?_, Or.inl hrest.batches, ahead_of_resting ho hrest, hright⟩
  · exact markedOnce_index (r := ⟨tree, cfg, now, false, false⟩) hi h.once
  · rcases mem_chunks_indexProject hi hc with hk | hn
    · rcases h.unused i c hk.mem hv hst with hp | hq
      · exact absurd hp List.not_mem_nil
      · exact Or.inr hq
    · exact absurd hst (hn.fresh _ hfresh)

/-- A mark is set on a chunk with exactly one row. -/
theorem sound_markChunk {id : ℕ} {k : Unit → Prog Op α}
    (h : Sound x (op (.markChunk id) k) q s) :
    Sound x (k ()) q { s with db := markChunk s.db id } := by
  have hids : (markChunk s.db id).chunks.ids = s.db.chunks.ids := ids_setVectorId _ _
  obtain ⟨hvalid, ho⟩ := h.left.passLike s _ _ rfl
  have hvalid : validIds (k ()) = none := hvalid
  have hq := h.not_inBatches rfl
  refine ⟨fun i c' hc' hv => ?_, fun i c' hc' hv hst => ?_, Or.inr hq,
    ⟨ho, fun i hi => ?_, valid_of_none hvalid, h.left.unstored⟩,
    h.right.other (fun i hi => Or.inl hi) hids (Or.inl hq)⟩
  · obtain ⟨c, hc, rfl⟩ := mem_setVectorId.mp hc'
    by_cases hi : i = id
    · subst hi
      obtain ⟨-, hcount | ⟨hno, -⟩⟩ := h.left.due i List.mem_cons_self
      · exact hcount
      · exact absurd (RowTable.mem_ids_of_mem hc) hno
    · simp only [hi, decide_false, Bool.false_eq_true, if_false] at hv
      exact h.once i c hc hv
  · obtain ⟨c, hc, rfl⟩ := mem_setVectorId.mp hc'
    by_cases hi : i = id
    · simp [hi] at hv
    · simp only [hi, decide_false, Bool.false_eq_true, if_false] at hv
      rcases h.unused i c hc hv hst with hp | hq
      · exact Or.inl ((List.mem_cons.mp hp).resolve_left hi)
      · exact Or.inr hq
  · obtain ⟨hidx, hi⟩ := h.left.due i (List.mem_cons_of_mem _ hi)
    refine ⟨hidx.2 (), hi.imp_right fun hno => ⟨?_, hno.2⟩⟩
    show i ∉ (markChunk s.db id).chunks.ids
    rw [hids]
    exact hno.1

theorem sound_deleteOrphans {ids : List ℕ} {k : Unit → Prog Op α}
    (h : Sound x (op (.deleteOrphans ids) k) q s) :
    Sound x (k ()) q { s with vs := deleteOrphans s.vs ids } := by
  obtain ⟨⟨hrest, hidx⟩, ho⟩ := h.left.passLike s _ _ rfl
  have hstored : storedIds (deleteOrphans s.vs ids) = (storedIds s.vs).filter (· ∈ ids) :=
    storedIds_deleteOrphans _ _
  -- the rows of chunks in the table are kept
  have hcount : ∀ i ∈ s.db.chunks.ids, (storedIds (deleteOrphans s.vs ids)).count i =
      (storedIds s.vs).count i := by
    intro i hi
    rw [hstored, List.count_filter (by simpa using h.left.valid ids rfl hi)]
  have hsub : storedIds (deleteOrphans s.vs ids) ⊆ storedIds s.vs := by
    rw [hstored]
    exact List.filter_sublist.subset
  refine ⟨fun i c hc hv => ?_, fun i c hc hv hst => ?_, Or.inl hrest.batches,
    ahead_of_resting ho hrest, h.right.other (fun i hi => ?_) rfl (Or.inr hsub)⟩
  · have hc : (i, c) ∈ s.db.chunks.rows := hc
    exact (hcount i (RowTable.mem_ids_of_mem hc)).trans (h.once i c hc hv)
  · rcases h.unused i c hc hv (hsub hst) with hp | hq
    · exact absurd hp List.not_mem_nil
    · exact Or.inr hq
  · by_cases hin : i ∈ s.db.chunks.ids
    · exact Or.inl ((hcount i hin).trans hi)
    · exact Or.inr ⟨hin, hidx⟩

theorem sound_upsert {cs : List ChunkVector} {k : Unit → Prog Op α} {a : Unit}
    (h : Sound x (op (.upsert cs e) k) q s)
    (he : exec x _ (.upsert cs e) s = .ok (a, t)) : Sound x (k a) q t := by
  obtain ⟨⟨hnd, hdue, hvalid, hidx⟩, ho⟩ := h.left.passLike _ _ _ he
  obtain ⟨vs, hu, rfl⟩ := exec_upsert he
  have hstored : storedIds vs = storedIds s.vs ++ cs.map ChunkVector.chunkId := storedIds_upsert hu
  have hq := h.not_inBatches rfl
  obtain ⟨hno, hun⟩ := h.left.unstored
  -- no chunk of the batch had a row
  have hnew : ∀ i ∈ cs.map ChunkVector.chunkId, i ∉ storedIds s.vs := by
    intro i hi
    obtain ⟨c, hc, rfl⟩ := List.mem_map.mp hi
    exact hno c hc
  have hkeep : ∀ i, (storedIds s.vs).count i = 1 → (storedIds vs).count i = 1 := by
    intro i hi
    have hin : i ∈ storedIds s.vs := List.count_pos_iff.mp (by omega)
    have hout : i ∉ cs.map ChunkVector.chunkId := fun hc => hnew i hc hin
    rw [hstored, List.count_append, hi, List.count_eq_zero_of_not_mem hout]
  refine ⟨fun i c hc hv => hkeep i (h.once i c hc hv), fun i c hc hv hst => ?_, Or.inr hq,
    ⟨ho, fun i hi => ⟨hidx, Or.inl ?_⟩, valid_of_none hvalid, ?_⟩,
    h.right.other (fun i hi => Or.inl (hkeep i hi)) rfl (Or.inl hq)⟩
  · have hst : i ∈ storedIds vs := hst
    rw [hstored] at hst
    rcases List.mem_append.mp hst with hst | hst
    · rcases h.unused i c hc hv hst with hp | hq
      · exact absurd hp List.not_mem_nil
      · exact Or.inr hq
    · rw [hdue]
      exact Or.inl hst
  · rw [hdue] at hi
    show (storedIds vs).count i = 1
    rw [hstored, List.count_append, List.count_eq_zero_of_not_mem (hnew i hi),
      List.count_eq_one_of_mem hnd hi]
  · show Unstored (k a) (storedIds vs)
    rw [hstored]
    exact hun

/-- The ids that are read for pruning are those of the table. -/
theorem sound_getAllChunkIds {k : List ℕ → Prog Op α} (h : Sound x (op .getAllChunkIds k) q s) :
    Sound x (k (getAllChunkIds s.db)) q s := by
  obtain ⟨hvalid, ho⟩ := h.left.passLike s _ _ rfl
  have hvalid : validIds (k (getAllChunkIds s.db)) = some (getAllChunkIds s.db) := hvalid
  have hno := not_inBatches_of_valid hvalid
  have hdue := due_of_not_inBatches hno
  refine sound_same h rfl rfl rfl hdue (Or.inl hno)
    (ahead_of_not_due ho hdue (fun ids hv => ?_) (unstored_of_not_inBatches hno _))
  rw [hvalid] at hv
  rw [← Option.some.inj hv]
  exact List.Subset.refl _

/-- No chunk that is read as pending has a row: the other pass is not in its batch loop. -/
theorem sound_getPendingChunks {k : List PendingChunk → Prog Op α}
    (h : Sound x (op .getPendingChunks k) q s) (hok : inTurn x _ .getPendingChunks q s = true) :
    Sound x (k (getPendingChunks s.db)) q s := by
  obtain ⟨⟨hdue, hvalid, hun⟩, ho⟩ := h.left.passLike s _ _ rfl
  have hq : inBatches q = false := by simpa [inTurn] using hok
  refine sound_same h rfl rfl rfl hdue (Or.inr hq)
    (ahead_of_not_due ho hdue (valid_of_none hvalid) (hun _ ?_))
  intro p hp hst
  obtain ⟨c, f, hc, hv, -⟩ := mem_getPendingChunks.mp hp
  rcases h.unused p.id c hc hv hst with hi | hi
  · exact absurd hi List.not_mem_nil
  · rw [due_of_not_inBatches hq] at hi
    exact absurd hi List.not_mem_nil

theorem sound_embed {texts : List Text} {k : List (List F32) → Prog Op α} {vectors : List (List F32)}
    (h : Sound x (op (.embed e texts) k) q s)
    (he : exec x _ (.embed e texts) s = .ok (vectors, t)) : Sound x (k vectors) q t := by
  obtain ⟨⟨hdue, hvalid⟩, ho⟩ := h.left.passLike _ _ _ he
  obtain ⟨hv, rfl⟩ := exec_embed he
  exact sound_same h rfl rfl rfl hdue (Or.inr (h.not_inBatches rfl))
    (ahead_of_not_due ho hdue (valid_of_none hvalid) (h.left.unstored vectors hv))

end Steps

/-- **One step** of a pass in its turn. -/
theorem sound_step {o : Op β} {k : β → Prog Op α} {q : Prog Op α} {b : β}
    (h : Sound x (op o k) q s) (hok : inTurn x β o q s = true) (he : exec x β o s = .ok (b, t)) :
    Sound x (k b) q t := by
  have hfollows := (h.left.passLike _ _ _ he).1
  cases o with
  | indexProject tree cfg now => exact sound_indexProject h hok he
  | getMeta key =>
    cases he
    exact sound_resting h rfl rfl rfl rfl hfollows
  | setMeta key value =>
    cases he
    exact sound_resting h rfl rfl rfl rfl hfollows
  | clearMarks => simp [inTurn] at hok
  | markChunk id =>
    cases he
    exact sound_markChunk h
  | alreadyEmbeddedCount =>
    cases he
    exact sound_resting h rfl rfl rfl rfl hfollows
  | getAllChunkIds =>
    cases he
    exact sound_getAllChunkIds h
  | getPendingChunks =>
    cases he
    exact sound_getPendingChunks h hok
  | embed e texts => exact sound_embed h he
  | upsert cs e => exact sound_upsert h he
  | deleteOrphans ids =>
    cases he
    exact sound_deleteOrphans h
  | clearVectors => simp [inTurn] at hok
  | countVectors =>
    cases he
    exact sound_resting h rfl rfl rfl rfl hfollows

theorem markedOnce_empty : MarkedOnce Project.empty :=
  fun i c hc => absurd hc (by simp [Project.empty, Db.empty])

theorem unused_empty : Unused Project.empty :=
  fun i c hc => absurd hc (by simp [Project.empty, Db.empty])

/-- **Passes that overlap in turn lose and duplicate nothing**: wherever the schedule has got to, every
marked chunk has exactly one row. -/
theorem markedOnce_of_overlap {p₁ p₂ : Party} {r₁ r₂ : Request} {e₁ e₂ : Embedder}
    (hone₁ : OnePerText e₁) (hone₂ : OnePerText e₂) (hm : MarkedOnce s) (hu : Unused s)
    {ms : List Side} {c : Config Op Unit Project}
    (h : overlap (exec x) (inTurn x) ms ⟨pass p₁ r₁ e₁, pass p₂ r₂ e₂, s⟩ = some c) :
    MarkedOnce c.state := by
  obtain ⟨ho₁, hrest₁⟩ := passLike_pass (x := x) hone₁ p₁ r₁
  obtain ⟨ho₂, hrest₂⟩ := passLike_pass (x := x) hone₂ p₂ r₂
  have hstart : Sound x (pass p₁ r₁ e₁) (pass p₂ r₂ e₂) s :=
    ⟨hm, fun i c hc hv hi => absurd hi (hu i c hc hv), Or.inl hrest₁.batches,
      ahead_of_resting ho₁ hrest₁, ahead_of_resting ho₂ hrest₂⟩
  exact (overlap_invariant (J := Sound x) Sound.symm sound_step h hstart).once

/-- The CLI and the daemon on a fresh project. -/
def both : Config Op Unit Project :=
  ⟨pass .cli (request aAndB 1) bge, pass .daemon (request aAndB 1) bge, Project.empty⟩

/-- Both index, read the chunk ids and prune side by side; then the CLI embeds, and the daemon finds
nothing left to do. -/
def politeSchedule : List Side :=
  [.left, .right] ++ List.replicate 5 .left ++ [.left, .right, .left, .right] ++
    List.replicate 7 .left ++ [.right]

/-- The daemon embeds between the CLI's reading of the pending chunks and its first batch. -/
def rudeSchedule : List Side :=
  List.replicate 10 .left ++ List.replicate 8 .right ++ List.replicate 5 .left

theorem markedOnce_polite : ∃ c, overlap (exec sample) (inTurn sample) politeSchedule both = some c ∧
    ended c.left = true ∧ ended c.right = true ∧ storedIds c.state.vs = [1, 2] ∧
    MarkedOnce c.state := by
  have hrun : ((overlap (exec sample) (inTurn sample) politeSchedule both).any fun c =>
      ended c.left && ended c.right && storedIds c.state.vs == [1, 2]) = true := by decide +kernel
  obtain ⟨c, hc, hends⟩ := (Option.any_eq_true _ _).mp hrun
  simp only [Bool.and_eq_true, beq_iff_eq] at hends
  exact ⟨c, hc, hends.1.1, hends.1.2, hends.2,
    markedOnce_of_overlap (onePerText_constant _ _ _) (onePerText_constant _ _ _)
      markedOnce_empty unused_empty hc⟩

/-- **Passes that overlap anyhow** store a chunk twice. -/
theorem not_markedOnce_of_overlap : ¬∀ p₁ r₁ e₁ p₂ r₂ e₂ s ms c, OnePerText e₁ → OnePerText e₂ →
    MarkedOnce s → Unused s →
    overlap (exec sample) (fun _ _ _ _ => true) ms ⟨pass p₁ r₁ e₁, pass p₂ r₂ e₂, s⟩ = some c →
    ended c.left = true → ended c.right = true → MarkedOnce c.state := by
  intro h
  have hrun : ((overlap (exec sample) (fun _ _ _ _ => true) rudeSchedule both).any fun c =>
      ended c.left && ended c.right && c.state.db.chunks.rows.any fun a =>
        a.2.vectorId.isSome && (storedIds c.state.vs).count a.1 != 1) = true := by decide +kernel
  obtain ⟨c, hc, hends⟩ := (Option.any_eq_true _ _).mp hrun
  simp only [Bool.and_eq_true, List.any_eq_true, bne_iff_ne] at hends
  obtain ⟨⟨h1, h2⟩, a, ha, hv, hcount⟩ := hends
  have hm := h _ _ _ _ _ _ _ _ _ (onePerText_constant _ _ _) (onePerText_constant _ _ _)
    markedOnce_empty unused_empty hc h1 h2
  refine hcount (hm a.1 a.2 ha fun hn => ?_)
  rw [hn] at hv
  simp at hv

-- An edit that is indexed and embedded while the CLI is pruning: the vector of chunk 3 is lost.
example : ((overlap (exec sample) (fun _ _ _ _ => true)
    (List.replicate 7 .left ++ List.replicate 8 .right ++ List.replicate 4 .left)
    { both with right := pass .daemon (request firstEdited 2) bge }).any fun c =>
      ended c.left && ended c.right && storedIds c.state.vs == [2] &&
        (c.state.db.chunks.rows.map fun a => (a.1, a.2.vectorId)) ==
          [(2, some "2".toList), (3, some "3".toList)]) = true := by decide +kernel

end BrainEngine.Passes.Overlap
