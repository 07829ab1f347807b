import BrainEngine.Lib.Outcome
import BrainEngine.Core.Passes

/-! # The batch loop, stopped anywhere

`progress bs n` are the batches that `n` steps of the loop over `bs` have stored, and the chunks they
have marked. `Wrote` is what the stores look like then; `after_embedBatches` says that the two agree at
every stopping point, `eval_embedBatches` at the end. -/

namespace BrainEngine.Passes.Loop

open BrainEngine.Rust.Str BrainEngine.Lib.Atomic BrainEngine.Lib.Atomic.Prog BrainEngine.Lib.Outcome
open BrainEngine.Core.External
open BrainEngine.Core.Database BrainEngine.Core.Vectors BrainEngine.Core.Embedding
open BrainEngine.Core.Passes

variable {x : Extern} {e : Embedder} {s t u : Project}

/-- The chunks marked one after the other. -/
def markAll (db : Db) (ps : List PendingChunk) : Db := ps.foldl (fun db p => markChunk db p.id) db

theorem markAll_append (db : Db) (ps qs : List PendingChunk) :
    markAll db (ps ++ qs) = markAll (markAll db ps) qs :=
  List.foldl_append

/-- The chunk table after the marks. -/
theorem rows_markAll : ∀ (ps : List PendingChunk) (db : Db), (markAll db ps).chunks.rows =
    db.chunks.rows.map fun a =>
      (a.1, if a.1 ∈ ps.map PendingChunk.id then { a.2 with vectorId := some (ofNat a.1) } else a.2)
  | [], db => by simp [markAll]
  | p :: ps, db => by
    have ih := rows_markAll ps (markChunk db p.id)
    have hrows : (markChunk db p.id).chunks.rows = db.chunks.rows.map fun a =>
        (a.1, if a.1 = p.id then { a.2 with vectorId := some (ofNat p.id) } else a.2) := by
      simp [markChunk, setVectorId]
    have hstep : markAll db (p :: ps) = markAll (markChunk db p.id) ps := rfl
    rw [hstep, ih, hrows, List.map_map]
    refine List.map_congr_left fun a _ => ?_
    simp only [Function.comp_apply, List.map_cons, List.mem_cons]
    by_cases h1 : a.1 = p.id
    · by_cases h2 : a.1 ∈ ps.map PendingChunk.id
      · simp [h1]
      · rw [if_neg h2, if_pos h1, if_pos (Or.inl h1), h1]
    · simp [h1]

theorem mem_markAll {ps : List PendingChunk} {db : Db} {i : ℕ} {c : ChunkRow} :
    (i, c) ∈ (markAll db ps).chunks.rows ↔ ∃ c', (i, c') ∈ db.chunks.rows ∧
      c = if i ∈ ps.map PendingChunk.id then { c' with vectorId := some (ofNat i) } else c' := by
  rw [rows_markAll]
  simp only [List.mem_map, Prod.mk.injEq, Prod.exists]
  constructor
  · rintro ⟨j, c', h, rfl, rfl⟩; exact ⟨c', h, rfl⟩
  · rintro ⟨c', h, rfl⟩; exact ⟨i, c', h, rfl, rfl⟩

/-- From no mark at all, the marks of the chunks that have been written. -/
theorem marks_markAll {db : Db} {ps : List PendingChunk} (hnone : marks db = [])
    (h : ps.Sublist (getPendingChunks db)) : marks (markAll db ps) = ps.map PendingChunk.mark := by
  refine (marks_eq_iff (List.pairwise_map.mpr (pairwise_getPendingChunks.sublist h))).mpr ?_
  rintro ⟨i, v⟩
  rw [mem_marks, List.mem_map]
  constructor
  · rintro ⟨c, hc, hv⟩
    obtain ⟨c', hc', rfl⟩ := mem_markAll.mp hc
    split_ifs at hv with hi
    · obtain ⟨p, hp, rfl⟩ := List.mem_map.mp hi
      exact ⟨p, hp, Prod.ext rfl (Option.some.inj hv)⟩
    · have hmem : (i, v) ∈ marks db := mem_marks.mpr ⟨c', hc', hv⟩
      rw [hnone] at hmem
      exact absurd hmem List.not_mem_nil
  · rintro ⟨p, hp, hpm⟩
    obtain ⟨rfl, rfl⟩ := Prod.mk.inj hpm
    obtain ⟨c, -, hc, -⟩ := mem_getPendingChunks.mp (h.subset hp)
    exact ⟨_, mem_markAll.mpr ⟨c, hc, rfl⟩, by rw [if_pos (List.mem_map_of_mem hp)]⟩

/-- Marks leave everything else alone. -/
theorem remarked_markAll : ∀ (ps : List PendingChunk) (db : Db), Remarked db (markAll db ps)
  | [], db => Remarked.refl db
  | p :: ps, db => (remarked_setVectorId _ _).trans (remarked_markAll ps (markChunk db p.id))

theorem metaTable_markAll : ∀ (ps : List PendingChunk) (db : Db),
    (markAll db ps).metaTable = db.metaTable
  | [], _ => rfl
  | p :: ps, db => metaTable_markAll ps (markChunk db p.id)

/-- The rows that the vectors of a batch become. -/
def batchRows (e : Embedder) (b : List PendingChunk) : List VectorRow :=
  match e.embed (b.map PendingChunk.content) with
  | .ok vectors => (buildBatch (chunkVectors b vectors) e.dim e.pin).toOption.getD []
  | .error _ => []

/-- The rows of several batches. -/
def newRows (e : Embedder) (bs : List (List PendingChunk)) : List VectorRow := bs.flatMap (batchRows e)

@[simp] theorem newRows_nil : newRows e [] = [] := rfl

theorem newRows_cons (b : List PendingChunk) (bs : List (List PendingChunk)) :
    newRows e (b :: bs) = batchRows e b ++ newRows e bs :=
  List.flatMap_cons

theorem newRows_append (bs bs' : List (List PendingChunk)) :
    newRows e (bs ++ bs') = newRows e bs ++ newRows e bs' :=
  List.flatMap_append

/-- The row `r` is the vector of the chunk `p`. -/
structure RowOf (e : Embedder) (p : PendingChunk) (r : VectorRow) : Prop where
  chunkId : r.chunkId = p.id
  filePath : r.filePath = p.filePath
  content : r.content = p.content
  producer : r.producer = e.pin

/-- The embedder answers for the batch, and the rows it makes can be stored. -/
def Embedded (e : Embedder) (b : List PendingChunk) : Prop :=
  ∃ vectors, e.embed (b.map PendingChunk.content) = .ok vectors ∧
    (chunkVectors b vectors = [] ∨
      buildBatch (chunkVectors b vectors) e.dim e.pin = .ok (batchRows e b))

/-- Without vectors there are no rows. -/
theorem batchRows_of_nil {b : List PendingChunk} {vectors : List (List F32)}
    (he : e.embed (b.map PendingChunk.content) = .ok vectors) (h : chunkVectors b vectors = []) :
    batchRows e b = [] := by
  unfold batchRows
  rw [he]
  dsimp only
  rw [h]
  unfold buildBatch
  dsimp only
  split_ifs
  · rfl
  · rfl
  · rfl

/-- The batches `bs` have been stored and the chunks `ps` marked between `s` and `t`. -/
structure Wrote (e : Embedder) (bs : List (List PendingChunk)) (ps : List PendingChunk)
    (s t : Project) : Prop where
  db : t.db = markAll s.db ps
  rows : rows t.vs = rows s.vs ++ newRows e bs
  embedded : ∀ b ∈ bs, Embedded e b
  same : newRows e bs = [] → t.vs = s.vs
  dim : newRows e bs ≠ [] → ∀ tbl ∈ s.vs, tbl.dim = listSize e.dim

/-- The database is another only in its marks. -/
theorem Wrote.remarked {bs : List (List PendingChunk)} {ps : List PendingChunk}
    (h : Wrote e bs ps s t) : Remarked s.db t.db := by
  rw [h.db]
  exact remarked_markAll _ _

theorem Wrote.metaTable {bs : List (List PendingChunk)} {ps : List PendingChunk}
    (h : Wrote e bs ps s t) : t.db.metaTable = s.db.metaTable := by
  rw [h.db]
  exact metaTable_markAll _ _

theorem Wrote.refl (s : Project) : Wrote e [] [] s s :=
  ⟨rfl, by simp, by simp, fun _ => rfl, fun h => absurd rfl h⟩

theorem Wrote.trans {bs bs' : List (List PendingChunk)} {ps ps' : List PendingChunk}
    (h : Wrote e bs ps s t) (h' : Wrote e bs' ps' t u) : Wrote e (bs ++ bs') (ps ++ ps') s u := by
  refine ⟨?_, ?_, ?_, ?_, ?_⟩
  · rw [h'.db, h.db, markAll_append]
  · rw [h'.rows, h.rows, newRows_append, List.append_assoc]
  · intro b hb
    exact (List.mem_append.mp hb).elim (h.embedded b) (h'.embedded b)
  · intro hn
    rw [newRows_append, List.append_eq_nil_iff] at hn
    rw [h'.same hn.2, h.same hn.1]
  · intro hn
    by_cases h1 : newRows e bs = []
    · rw [newRows_append, h1, List.nil_append] at hn
      rw [← h.same h1]
      exact h'.dim hn
    · exact h.dim h1

/-- Marking is the part of a batch that changes only the database. -/
theorem wrote_mark (ps : List PendingChunk) :
    Wrote e [] ps s { s with db := markAll s.db ps } :=
  ⟨rfl, by simp, by simp, fun _ => rfl, fun h => absurd rfl h⟩

/-- Storing is the part that changes only the vector store. -/
theorem wrote_upsert {b : List PendingChunk} {vectors : List (List F32)} {vs : VectorStore}
    (he : e.embed (b.map PendingChunk.content) = .ok vectors)
    (h : upsert x s.vs (chunkVectors b vectors) e.dim e.pin = .ok vs) :
    Wrote e [b] [] s { s with vs } := by
  have hrows : ∀ batch, buildBatch (chunkVectors b vectors) e.dim e.pin = .ok batch →
      batchRows e b = batch := by
    intro batch hb
    simp [batchRows, he, hb, Except.toOption]
  rcases upsert_ok h with ⟨hnil, rfl⟩ | ⟨batch, hb, hdim, rfl⟩
  · have h0 := batchRows_of_nil he hnil
    refine ⟨rfl, by simp [newRows, h0], ?_, fun _ => rfl, fun hn => absurd (by simp [newRows, h0]) hn⟩
    simp only [List.mem_singleton, forall_eq]
    exact ⟨vectors, he, Or.inl hnil⟩
  · have h0 := hrows _ hb
    refine ⟨rfl, by simp [newRows, h0], ?_, ?_, fun _ => hdim⟩
    · simp only [List.mem_singleton, forall_eq]
      exact ⟨vectors, he, Or.inr (by rw [h0]; exact hb)⟩
    · intro hn
      have hlen := (buildBatch_ok hb).length_eq
      have hnil : batch = [] := by simpa [newRows, h0] using hn
      rw [hnil, List.length_nil, List.length_eq_zero_iff] at hlen
      rw [hlen] at h
      simpa [upsert] using h.symm

/-! ### Steps of the loop -/

/-- The batches stored and the chunks marked in the first `n` steps over `bs`: a batch is one call of
the embedder, one upsert, and one mark for each chunk. -/
def progress : List (List PendingChunk) → ℕ → List (List PendingChunk) × List PendingChunk
  | [], _ => ([], [])
  | b :: bs, n =>
    if n < 2 then ([], [])
    else if n < 2 + b.length then ([b], b.take (n - 2))
    else (b :: (progress bs (n - (2 + b.length))).1, b ++ (progress bs (n - (2 + b.length))).2)

@[simp] theorem progress_zero (bs : List (List PendingChunk)) : progress bs 0 = ([], []) := by
  cases bs with
  | nil => rfl
  | cons b bs => rfl

theorem progress_within {b : List PendingChunk} {n : ℕ} (h : n < b.length)
    (bs : List (List PendingChunk)) : progress (b :: bs) (n + 2) = ([b], b.take n) := by
  have h2 : ¬n + 2 < 2 := by omega
  have hlt : n + 2 < 2 + b.length := by omega
  rw [progress, if_neg h2, if_pos hlt, Nat.add_sub_cancel]

theorem progress_past {b : List PendingChunk} {n : ℕ} (h : b.length ≤ n)
    (bs : List (List PendingChunk)) : progress (b :: bs) (n + 2) =
      (b :: (progress bs (n - b.length)).1, b ++ (progress bs (n - b.length)).2) := by
  have h2 : ¬n + 2 < 2 := by omega
  have hge : ¬n + 2 < 2 + b.length := by omega
  have hsub : n + 2 - (2 + b.length) = n - b.length := by omega
  rw [progress, if_neg h2, if_neg hge, hsub]

/-- How many batches `n` steps over batches of `size` chunks have stored: a batch takes `size + 2` steps,
and the second of them stores it. -/
def storedBatches (size n : ℕ) : ℕ := n / (size + 2) + if 2 ≤ n % (size + 2) then 1 else 0

/-- How many chunks they have marked: all of the batches that are behind them, and one for each step
after the second of the batch where they stop. -/
def markedChunks (size n : ℕ) : ℕ := n / (size + 2) * size + (n % (size + 2) - 2)

theorem storedBatches_lt {size n : ℕ} (h : n < size + 2) :
    storedBatches size n = if 2 ≤ n then 1 else 0 := by
  rw [storedBatches, Nat.div_eq_of_lt h, Nat.mod_eq_of_lt h, Nat.zero_add]

theorem markedChunks_lt {size n : ℕ} (h : n < size + 2) : markedChunks size n = n - 2 := by
  rw [markedChunks, Nat.div_eq_of_lt h, Nat.mod_eq_of_lt h, Nat.zero_mul, Nat.zero_add]

theorem storedBatches_add (size n : ℕ) :
    storedBatches size (n + (size + 2)) = storedBatches size n + 1 := by
  have hpos : 0 < size + 2 := by omega
  rw [storedBatches, storedBatches, Nat.add_div_right n hpos, Nat.add_mod_right]
  omega

theorem markedChunks_add (size n : ℕ) :
    markedChunks size (n + (size + 2)) = size + markedChunks size n := by
  have hpos : 0 < size + 2 := by omega
  rw [markedChunks, markedChunks, Nat.add_div_right n hpos, Nat.add_mod_right, Nat.succ_mul]
  omega

/-- One batch alone. -/
theorem progress_singleton {size : ℕ} {b : List PendingChunk} (hb : b.length ≤ size) (n : ℕ) :
    progress [b] n = ([b].take (storedBatches size n), b.take (markedChunks size n)) := by
  rcases Nat.lt_or_ge n (size + 2) with hn | hn
  · rw [storedBatches_lt hn, markedChunks_lt hn, progress]
    split_ifs with h1 h2 h3
    · omega
    · have h0 : n - 2 = 0 := by omega
      rw [h0]
      rfl
    · rfl
    · omega
    · rw [List.take_of_length_le (by omega : b.length ≤ n - 2)]
      simp [progress]
    · omega
  · obtain ⟨n, rfl⟩ := Nat.exists_eq_add_of_le' hn
    have hm : b.length ≤ size + markedChunks size n := by omega
    rw [storedBatches_add, markedChunks_add, List.take_of_length_le hm, progress,
      if_neg (by omega), if_neg (by omega)]
    simp [progress]

/-- A whole batch in front of others. -/
theorem progress_cons {size : ℕ} {b : List PendingChunk} {bs : List (List PendingChunk)}
    (hb : b.length = size) (ih : ∀ n, progress bs n =
      (bs.take (storedBatches size n), bs.flatten.take (markedChunks size n))) (n : ℕ) :
    progress (b :: bs) n =
      ((b :: bs).take (storedBatches size n), (b :: bs).flatten.take (markedChunks size n)) := by
  rw [List.flatten_cons]
  rcases Nat.lt_or_ge n (size + 2) with hn | hn
  · have hlast : markedChunks size n ≤ b.length := by
      rw [markedChunks_lt hn]
      omega
    have hsingle := progress_singleton hb.le n
    rw [List.take_append_of_le_length hlast, storedBatches_lt hn]
    rw [storedBatches_lt hn] at hsingle
    have h2 : (progress (b :: bs) n) = progress [b] n := by
      rw [progress, progress]
      split_ifs
      · rfl
      · rfl
      · omega
    rw [h2, hsingle]
    split_ifs
    · rfl
    · rfl
  · obtain ⟨n, rfl⟩ := Nat.exists_eq_add_of_le' hn
    have hstep : n + (size + 2) = n + size + 2 := by omega
    rw [storedBatches_add, markedChunks_add, List.take_succ_cons, List.take_append, hb,
      List.take_of_length_le (by omega : b.length ≤ size + markedChunks size n),
      Nat.add_sub_cancel_left, hstep, progress_past (by omega), hb, Nat.add_sub_cancel, ih]

theorem progress_chunksFrom (size : ℕ) : ∀ (fuel : ℕ) (l : List PendingChunk) (n : ℕ),
    progress (Rust.Slice.chunksFrom size fuel l) n =
      ((Rust.Slice.chunksFrom size fuel l).take (storedBatches size n),
        (Rust.Slice.chunksFrom size fuel l).flatten.take (markedChunks size n))
  | 0, l, n => by simp [Rust.Slice.chunksFrom, progress]
  | fuel + 1, l, n => by
    unfold Rust.Slice.chunksFrom
    split_ifs with hnil
    · simp [progress]
    rcases Nat.le_total size l.length with hl | hl
    · exact progress_cons (List.length_take_of_le hl) (progress_chunksFrom size fuel (l.drop size)) n
    · have hrest : Rust.Slice.chunksFrom size fuel (l.drop size) = [] := by
        rw [List.drop_of_length_le hl]
        cases fuel <;> rfl
      rw [hrest, List.flatten_singleton]
      exact progress_singleton (List.length_take_le _ _) n

/-- **The steps of the loop over the pieces of a slice**, counted. -/
theorem progress_chunks {size : ℕ} (hpos : 0 < size) (l : List PendingChunk) (n : ℕ) :
    progress (Rust.Slice.chunks size l) n =
      ((Rust.Slice.chunks size l).take (storedBatches size n), l.take (markedChunks size n)) := by
  have hflat : (Rust.Slice.chunksFrom size l.length l).flatten = l := Rust.Slice.flatten_chunks hpos l
  have h := progress_chunksFrom size l.length l n
  rw [hflat] at h
  exact h

/-- The batches of an embedding that starts in this database. -/
def batches (db : Db) : List (List PendingChunk) := Rust.Slice.chunks batchSize (getPendingChunks db)

/-- The marks of a batch, with what comes after them. -/
theorem after_marks {α : Type} {k : PUnit → Prog Op α} {q : Prog Op α} : ∀ (b : List PendingChunk)
    {n : ℕ} {s : Project}, after (exec x) n ((b.forM fun c => perform (.markChunk c.id)) >>= k) s =
      some (q, t) →
    (n < b.length ∧ t = { s with db := markAll s.db (b.take n) } ∧ ∀ a, q ≠ ret a) ∨
      (b.length ≤ n ∧
        after (exec x) (n - b.length) (k ⟨⟩) { s with db := markAll s.db b } = some (q, t))
  | [], n, s, h => Or.inr ⟨Nat.zero_le _, h⟩
  | c :: b, 0, s, h => by
    simp only [after_zero, Option.some.injEq, Prod.mk.injEq] at h
    obtain ⟨rfl, rfl⟩ := h
    exact Or.inl ⟨by simp, rfl, fun a ha => by cases ha⟩
  | c :: b, n + 1, s, h => by
    obtain ⟨_, u, hu, h⟩ := (after_op (exec x)).mp h
    cases hu
    rcases after_marks b h with ⟨h1, h2, h3⟩ | ⟨h1, h2⟩
    · exact Or.inl ⟨by simpa using h1, h2, h3⟩
    · exact Or.inr ⟨by simpa using h1, by rw [List.length_cons, Nat.add_sub_add_right]; exact h2⟩

/-- **Where `n` steps of the loop lead.** The induction is on the batches; a batch is passed when its
last chunk is marked. -/
theorem after_embedBatches {q : Prog Op PUnit} : ∀ (bs : List (List PendingChunk)) {n : ℕ}
    {s : Project}, after (exec x) n (bs.forM (embedBatch e)) s = some (q, t) →
    Wrote e (progress bs n).1 (progress bs n).2 s t ∧
      ((∃ a, q = ret a) → ∀ m, n ≤ m → progress bs m = (bs, bs.flatten))
  | [], n, s, h => by
    cases n with
    | zero =>
      simp only [after_zero, Option.some.injEq, Prod.mk.injEq] at h
      rw [← h.2]
      exact ⟨Wrote.refl s, fun _ _ _ => rfl⟩
    | succ n => exact absurd h (by simp [List.forM, pure])
  | b :: bs, n, s, h => by
    have hprog : (b :: bs).forM (embedBatch e) =
      op (.embed e (b.map PendingChunk.content)) fun vectors =>
        op (.upsert (chunkVectors b vectors) e) fun _ =>
          (b.forM fun c => perform (.markChunk c.id)) >>= fun _ => bs.forM (embedBatch e) := rfl
    rw [hprog] at h
    match n with
    | 0 =>
      simp only [after_zero, Option.some.injEq, Prod.mk.injEq] at h
      obtain ⟨rfl, rfl⟩ := h
      exact ⟨Wrote.refl s, fun ⟨a, ha⟩ => by cases ha⟩
    | 1 =>
      obtain ⟨vectors, u, hu, h⟩ := (after_op (exec x)).mp h
      simp only [after_zero, Option.some.injEq, Prod.mk.injEq] at h
      obtain ⟨rfl, rfl⟩ := h
      rw [(exec_embed hu).2]
      exact ⟨Wrote.refl s, fun ⟨a, ha⟩ => by cases ha⟩
    | n + 2 =>
      obtain ⟨vectors, u, hu, h⟩ := (after_op (exec x)).mp h
      obtain ⟨_, v, hv, h⟩ := (after_op (exec x)).mp h
      obtain ⟨hembed, rfl⟩ := exec_embed hu
      obtain ⟨vs, hup, rfl⟩ := exec_upsert hv
      have hw := wrote_upsert hembed hup
      rcases after_marks b h with ⟨h1, rfl, h3⟩ | ⟨h1, h3⟩
      · rw [progress_within h1]
        exact ⟨hw.trans (wrote_mark (b.take n)), fun ⟨a, ha⟩ => absurd ha (h3 a)⟩
      · obtain ⟨h4, h5⟩ := after_embedBatches bs h3
        rw [progress_past h1]
        refine ⟨(hw.trans (wrote_mark b)).trans h4, fun ha m hm => ?_⟩
        obtain ⟨m, rfl⟩ : ∃ m', m = m' + 2 := ⟨m - 2, by omega⟩
        rw [progress_past (by omega), h5 ha (m - b.length) (by omega)]
        rfl

/-- **The whole loop.** -/
theorem eval_embedBatches {bs : List (List PendingChunk)} {a : PUnit}
    (h : eval (exec x) (bs.forM (embedBatch e)) s = .ok (a, t)) : Wrote e bs bs.flatten s t := by
  obtain ⟨n, hn⟩ := after_of_eval (exec x) h
  obtain ⟨h1, h2⟩ := after_embedBatches bs hn
  rw [h2 ⟨a, rfl⟩ n le_rfl] at h1
  exact h1

/-- The loop, with a program after it that only reads. -/
theorem after_embedBatches_bind {α : Type} {k : PUnit → Prog Op α} {bs : List (List PendingChunk)}
    {n : ℕ} {q : Prog Op α}
    (hk : ∀ a u, wp (exec x) (fun v => v = u) (k a) (fun _ v => v = u) u)
    (h : after (exec x) n (bs.forM (embedBatch e) >>= k) s = some (q, t)) :
    Wrote e (progress bs n).1 (progress bs n).2 s t := by
  rcases after_bind (exec x) h with ⟨p', hp'⟩ | ⟨m, a, u, hm, h1, h2⟩
  · exact (after_embedBatches bs hp').1
  · have htu : t = u := (wp_after (hk a u) rfl h2).1
    obtain ⟨h3, h4⟩ := after_embedBatches bs h1
    rw [h4 ⟨a, rfl⟩ m le_rfl] at h3
    rw [h4 ⟨a, rfl⟩ n hm, htu]
    exact h3

/-! ### Where the loop is -/

/-- Whether the `n`-th step is an upsert, or a mark of the same batch before the last. -/
def midBatch : List (List PendingChunk) → ℕ → Bool
  | [], _ => false
  | b :: bs, n =>
    if n < 2 then false else if n < 2 + b.length then true else midBatch bs (n - (2 + b.length))

/-- The stored batches are a part of all. -/
theorem isPrefix_progress : ∀ (bs : List (List PendingChunk)) (n : ℕ), (progress bs n).1 <+: bs
  | [], n => List.nil_prefix
  | b :: bs, n => by
    unfold progress
    split_ifs
    · exact List.nil_prefix
    · exact List.prefix_iff_eq_take.mpr rfl
    · exact (List.prefix_cons_inj b).mpr (isPrefix_progress bs _)

/-- Between batches, what is stored is marked. -/
theorem progress_of_not_midBatch : ∀ {bs : List (List PendingChunk)} {n : ℕ},
    midBatch bs n = false → (progress bs n).2 = (progress bs n).1.flatten
  | [], n, _ => rfl
  | b :: bs, n, h => by
    unfold midBatch at h
    unfold progress
    split_ifs at h ⊢ with h1 h2
    · rfl
    · rw [List.flatten_cons, progress_of_not_midBatch h]

/-- Inside a batch, some chunk is stored and not marked. -/
theorem progress_of_midBatch : ∀ {bs : List (List PendingChunk)} {n : ℕ},
    (bs.flatten.map PendingChunk.id).Nodup → midBatch bs n = true →
      ∃ p ∈ (progress bs n).1.flatten, p.id ∉ (progress bs n).2.map PendingChunk.id
  | [], n, _, h => by simp [midBatch] at h
  | b :: bs, n, hnd, h => by
    rw [List.flatten_cons, List.map_append, List.nodup_append] at hnd
    unfold midBatch at h
    unfold progress
    split_ifs at h ⊢ with h1 h2
    · have hlt : n - 2 < b.length := by omega
      refine ⟨b[n - 2], by simp, fun hm => ?_⟩
      have hsplit : b.map PendingChunk.id =
          (b.take (n - 2)).map PendingChunk.id ++ (b.drop (n - 2)).map PendingChunk.id := by
        rw [← List.map_append, List.take_append_drop]
      have hnd1 := hnd.1
      rw [hsplit, List.nodup_append] at hnd1
      have hdrop : (b[n - 2]).id ∈ (b.drop (n - 2)).map PendingChunk.id := by
        refine List.mem_map.mpr ⟨b[n - 2], ?_, rfl⟩
        rw [List.drop_eq_getElem_cons hlt]
        exact List.mem_cons_self
      exact hnd1.2.2 _ hm _ hdrop rfl
    · obtain ⟨p, hp, hpm⟩ := progress_of_midBatch hnd.2.1 h
      refine ⟨p, List.mem_append_right _ hp, fun hm => ?_⟩
      rw [List.map_append, List.mem_append] at hm
      rcases hm with hm | hm
      · have hin : p ∈ bs.flatten := by
          obtain ⟨c, hc, hpc⟩ := List.mem_flatten.mp hp
          exact List.mem_flatten.mpr ⟨c, (isPrefix_progress bs _).subset hc, hpc⟩
        exact hnd.2.2 _ hm _ (List.mem_map.mpr ⟨p, hin, rfl⟩) rfl
      · exact hpm hm

/-! ### What has been written -/

/-- The chunks of a stored batch have their rows, up to the vectors that the embedder returned. -/
theorem rowOf_take {b : List PendingChunk} {vectors : List (List F32)}
    (he : e.embed (b.map PendingChunk.content) = .ok vectors)
    (hb : chunkVectors b vectors = [] ∨
      buildBatch (chunkVectors b vectors) e.dim e.pin = .ok (batchRows e b)) :
    List.Forall₂ (RowOf e) (b.take vectors.length) (batchRows e b) := by
  have h1 : List.Forall₂ (fun (p : PendingChunk) (c : ChunkVector) => c.chunkId = p.id ∧
      c.filePath = p.filePath ∧ c.content = p.content) (b.take vectors.length)
      (chunkVectors b vectors) := by
    clear hb he
    induction b generalizing vectors with
    | nil =>
      rw [List.take_nil]
      exact List.Forall₂.nil
    | cons p b ih =>
      cases vectors with
      | nil => exact List.Forall₂.nil
      | cons v vectors => exact List.Forall₂.cons ⟨rfl, rfl, rfl⟩ ih
  rcases hb with hnil | hb
  · rw [batchRows_of_nil he hnil]
    rw [hnil] at h1
    rw [List.forall₂_nil_right_iff.mp h1]
    exact List.Forall₂.nil
  have h2 := buildBatch_ok hb
  generalize chunkVectors b vectors = cs at h1 h2
  generalize batchRows e b = rs at h2
  generalize b.take vectors.length = ps at h1
  clear hb he
  induction h1 generalizing rs with
  | nil =>
    cases h2
    exact List.Forall₂.nil
  | cons hpc _ ih =>
    cases h2 with
    | cons hcr h2 =>
      exact List.Forall₂.cons ⟨hcr.1.trans hpc.1, hcr.2.1.trans hpc.2.1, hcr.2.2.1.trans hpc.2.2,
        hcr.2.2.2⟩ (ih _ h2)

theorem chunkIds_rowOf {ps : List PendingChunk} {rs : List VectorRow}
    (h : List.Forall₂ (RowOf e) ps rs) : rs.map (fun r => r.chunkId) = ps.map PendingChunk.id := by
  induction h with
  | nil => rfl
  | cons hpr _ ih => rw [List.map_cons, List.map_cons, hpr.chunkId, ih]

/-- With one vector for each text, every chunk of a stored batch has its row. -/
theorem rowOf_batch (hone : OnePerText e) {b : List PendingChunk} (h : Embedded e b) :
    List.Forall₂ (RowOf e) b (batchRows e b) := by
  obtain ⟨vectors, he, hb⟩ := h
  have hlen : vectors.length = b.length := by
    rw [hone _ _ he, List.length_map]
  have htake := rowOf_take he hb
  rw [hlen, List.take_length] at htake
  exact htake

theorem rowOf_newRows (hone : OnePerText e) : ∀ {bs : List (List PendingChunk)},
    (∀ b ∈ bs, Embedded e b) → List.Forall₂ (RowOf e) bs.flatten (newRows e bs)
  | [], _ => List.Forall₂.nil
  | b :: bs, h => by
    rw [newRows_cons, List.flatten_cons]
    exact List.rel_append (rowOf_batch hone (h b List.mem_cons_self))
      (rowOf_newRows hone fun b hb => h b (List.mem_cons_of_mem _ hb))

/-- Whatever the embedder returns, the rows belong to some of the chunks, in order. -/
theorem exists_rowOf_newRows : ∀ {bs : List (List PendingChunk)}, (∀ b ∈ bs, Embedded e b) →
    ∃ ps, ps.Sublist bs.flatten ∧ List.Forall₂ (RowOf e) ps (newRows e bs)
  | [], _ => ⟨[], List.Sublist.slnil, List.Forall₂.nil⟩
  | b :: bs, h => by
    obtain ⟨vectors, he, hb⟩ := h b List.mem_cons_self
    obtain ⟨ps, hps, hrows⟩ := exists_rowOf_newRows fun b hb => h b (List.mem_cons_of_mem _ hb)
    refine ⟨b.take vectors.length ++ ps, ?_, ?_⟩
    · rw [List.flatten_cons]
      exact (List.take_sublist _ _).append hps
    · rw [newRows_cons]
      exact List.rel_append (rowOf_take he hb) hrows

/-- Whatever the embedder returns, the rows of a batch are marked as its own. -/
theorem producer_batchRows {b : List PendingChunk} {r : VectorRow} (h : r ∈ batchRows e b) :
    r.producer = e.pin := by
  unfold batchRows at h
  split at h
  · next vectors _ =>
    rcases hb : buildBatch (chunkVectors b vectors) e.dim e.pin with f | rs
    · simp [hb, Except.toOption] at h
    · rw [hb] at h
      obtain ⟨c, -, hc⟩ := exists_left (buildBatch_ok hb) h
      exact hc.2.2.2
  · simp at h

theorem producer_newRows {bs : List (List PendingChunk)} {r : VectorRow} (h : r ∈ newRows e bs) :
    r.producer = e.pin := by
  obtain ⟨b, -, hr⟩ := List.mem_flatMap.mp h
  exact producer_batchRows hr

end BrainEngine.Passes.Loop
