import BrainEngine.Core.External
import BrainEngine.Rust.Slice

/-! # The vector store

A LanceDB table `chunks` that may not exist, with the operations of `VectorStore`. `add` appends and
`delete` removes the rows that match; a table is created with the list size of the first batch and
refuses batches of another one. The row of a vector also records which embedder's run stored it, which
is no column of the table: nothing below reads it, and only statements refer to it. -/

namespace BrainEngine.Core.Vectors

open BrainEngine.Rust.Str BrainEngine.Rust.Slice BrainEngine.Core.External

/-- An `f32`, by its bits. -/
abbrev F32 := UInt32

/-- What identifies an embedder: the two values pinned in the `meta` table. -/
structure ModelPin where
  modelId : Text
  dim : ℕ
  deriving DecidableEq

/-- A fully embedded chunk ready to be written. -/
structure ChunkVector where
  chunkId : ℕ
  vector : List F32
  filePath : Text
  content : Text
  deriving DecidableEq

/-- A row of the table. -/
structure VectorRow extends ChunkVector where
  /-- Whose run stored the row. -/
  producer : ModelPin
  deriving DecidableEq

structure VectorTable where
  dim : ℕ
  rows : List VectorRow
  deriving DecidableEq

abbrev VectorStore := Option VectorTable

/-- The rows, none if the table does not exist. -/
def rows (vs : VectorStore) : List VectorRow := match vs with
  | some tbl => tbl.rows
  | none => []

/-- The chunk ids in use. -/
def storedIds (vs : VectorStore) : List ℕ := (rows vs).map fun r => r.chunkId

/-- `dim as i32`. -/
def asI32 (dim : ℕ) : Int32 := Int32.ofNat dim

/-- The list size of the vector column; a negative one has no batches. -/
def listSize (dim : ℕ) : ℕ := (asI32 dim).toInt.toNat

/-- The length of the vector column `FixedSizeListArray::try_new` makes of `n` floats. -/
def columnLength (n size : ℕ) : ℕ := if size = 0 then 0 else n / size

/-- `build_batch`: the vectors are put one after the other and cut again every `dim as i32` floats. -/
def buildBatch (chunks : List ChunkVector) (dim : ℕ) (producer : ModelPin) :
    Except Failure (List VectorRow) :=
  let allFloats := chunks.flatMap fun c => c.vector
  if (asI32 dim).toInt < 0 then .error (.error (.vector
    ("building vector column: Invalid argument error: ".toList ++
      "Size cannot be negative, got -".toList ++ ofNat (asI32 dim).toInt.natAbs)))
  else if columnLength allFloats.length (listSize dim) = chunks.length then
    .ok (List.zipWith (fun c v => { c with vector := v, producer })
      chunks (Rust.Slice.chunks (listSize dim) allFloats))
  else .error (.error (.vector
    ("building record batch: Invalid argument error: ".toList ++
      "all columns in a record batch must have the same length".toList)))

/-- Insert a batch of chunk vectors, creating the table if needed. -/
def upsert (x : Extern) (vs : VectorStore) (chunks : List ChunkVector) (dim : ℕ)
    (producer : ModelPin) : Except Failure VectorStore :=
  if chunks.isEmpty then .ok vs
  else do
    let batch ← buildBatch chunks dim producer
    let tbl := vs.getD { dim := listSize dim, rows := [] }
    if tbl.dim = listSize dim then return some { tbl with rows := tbl.rows ++ batch }
    else .error (.error (.vector (x.schemaError tbl.dim (listSize dim))))

/-- Delete every row whose `chunk_id` is not present in `validIds`. -/
def deleteOrphans (vs : VectorStore) (validIds : List ℕ) : VectorStore :=
  match vs with
  | none => none
  | some tbl =>
    if validIds.isEmpty then some { tbl with rows := [] }
    else some { tbl with rows := tbl.rows.filter fun r => r.chunkId ∈ validIds }

/-- Total number of vectors currently in the store. -/
def count (vs : VectorStore) : ℕ := match vs with
  | some tbl => tbl.rows.length
  | none => 0

/-- Drop the table. -/
def clear (_ : VectorStore) : VectorStore := none

@[simp] theorem rows_none : rows none = [] := rfl

@[simp] theorem rows_some (tbl : VectorTable) : rows (some tbl) = tbl.rows := rfl

@[simp] theorem rows_clear (vs : VectorStore) : rows (clear vs) = [] := rfl

/-- **Pruning** keeps the rows of valid ids, also when there is none. -/
theorem rows_deleteOrphans (vs : VectorStore) (ids : List ℕ) :
    rows (deleteOrphans vs ids) = (rows vs).filter fun r => r.chunkId ∈ ids := by
  cases vs with
  | none => rfl
  | some tbl =>
    unfold deleteOrphans
    dsimp only
    split_ifs with h
    · have hids : ids = [] := List.isEmpty_iff.mp h
      simp [hids]
    · rfl

theorem mem_deleteOrphans {vs : VectorStore} {ids : List ℕ} {r : VectorRow} :
    r ∈ rows (deleteOrphans vs ids) ↔ r ∈ rows vs ∧ r.chunkId ∈ ids := by
  rw [rows_deleteOrphans, List.mem_filter, decide_eq_true_eq]

theorem storedIds_deleteOrphans (vs : VectorStore) (ids : List ℕ) :
    storedIds (deleteOrphans vs ids) = (storedIds vs).filter (· ∈ ids) := by
  unfold storedIds
  rw [rows_deleteOrphans, List.filter_map]
  rfl

/-- A batch has a row for each chunk, in order, with its id, path and content. -/
theorem buildBatch_ok {chunks : List ChunkVector} {dim : ℕ} {producer : ModelPin}
    {batch : List VectorRow} (h : buildBatch chunks dim producer = .ok batch) :
    List.Forall₂ (fun (c : ChunkVector) (r : VectorRow) => r.chunkId = c.chunkId ∧
      r.filePath = c.filePath ∧ r.content = c.content ∧ r.producer = producer) chunks batch := by
  unfold buildBatch at h
  dsimp only at h
  split_ifs at h with hneg hl
  cases h
  generalize listSize dim = size at hl ⊢
  generalize chunks.flatMap (fun c => c.vector) = floats at hl ⊢
  have hlen : chunks.length ≤ (Rust.Slice.chunks size floats).length := by
    unfold columnLength at hl
    split_ifs at hl with hd
    · omega
    · refine le_length_chunks (Nat.pos_of_ne_zero hd) ?_
      rw [← hl]
      exact Nat.div_mul_le_self _ _
  clear hl
  generalize Rust.Slice.chunks size floats = vecs at hlen ⊢
  induction chunks generalizing vecs with
  | nil => simp
  | cons c cs ih =>
    cases vecs with
    | nil => simp at hlen
    | cons v vecs =>
      exact List.Forall₂.cons ⟨rfl, rfl, rfl, rfl⟩ (ih vecs (by simpa using hlen))

/-- A positive `i32` is the dimension, or less than half of it. -/
theorem listSize_cases {dim : ℕ} (h : ¬(asI32 dim).toInt < 0) :
    listSize dim = dim ∨ 2 * listSize dim < dim := by
  unfold listSize
  unfold asI32 at h ⊢
  rw [Int32.toInt_ofNat'] at h ⊢
  have hsize : Int32.size = 4294967296 := rfl
  rw [hsize, Int.bmod_def] at h ⊢
  split_ifs at h ⊢ with hr
  · omega
  · omega

/-- Vectors of `dim` floats make a column of their number only if they are not cut smaller. -/
theorem listSize_eq {n dim : ℕ} (hneg : ¬(asI32 dim).toInt < 0) (hn : 0 < n)
    (h : columnLength (n * dim) (listSize dim) = n) : 0 < listSize dim ∧ listSize dim = dim := by
  unfold columnLength at h
  split_ifs at h with hzero
  · omega
  have hpos : 0 < listSize dim := Nat.pos_of_ne_zero hzero
  refine ⟨hpos, (listSize_cases hneg).resolve_right fun hlt => ?_⟩
  have hquot : n * dim / listSize dim < n + 1 := by omega
  have hle : n * dim < (n + 1) * listSize dim := (Nat.div_lt_iff_lt_mul hpos).mp hquot
  have hge : n * (2 * listSize dim) ≤ n * dim := Nat.mul_le_mul_left n (Nat.le_of_lt hlt)
  have htwo : (n + 1) * listSize dim ≤ n * 2 * listSize dim :=
    Nat.mul_le_mul_right (listSize dim) (by omega)
  rw [Nat.mul_assoc] at htwo
  omega

/-- **Vectors of the right length are stored as they are.** -/
theorem buildBatch_vectors {chunks : List ChunkVector} {dim : ℕ} {producer : ModelPin}
    {batch : List VectorRow} (h : buildBatch chunks dim producer = .ok batch)
    (hlen : ∀ c ∈ chunks, c.vector.length = dim) :
    batch = chunks.map fun c => { c with producer } := by
  have hfloats : chunks.flatMap (fun c => c.vector) = (chunks.map ChunkVector.vector).flatten :=
    List.flatMap_def
  have hsum : (chunks.flatMap fun c => c.vector).length = chunks.length * dim := by
    rw [List.length_flatMap, List.map_congr_left hlen, List.map_const', List.sum_replicate_nat]
  unfold buildBatch at h
  dsimp only at h
  rw [hsum] at h
  split_ifs at h with hneg hl
  cases h
  rcases chunks with _ | ⟨c, cs⟩
  · rfl
  obtain ⟨hpos, hdim⟩ := listSize_eq hneg (Nat.succ_pos _) hl
  rw [hdim] at hpos ⊢
  rw [hfloats, chunks_flatten hpos]
  · rw [List.zipWith_map_right, List.zipWith_self]
  · intro v hv
    obtain ⟨c', hc', rfl⟩ := List.mem_map.mp hv
    exact hlen c' hc'

/-- **What an upsert that succeeds does**: nothing for no chunks; otherwise it appends the batch to a
table of the right dimension. -/
theorem upsert_ok {x : Extern} {vs vs' : VectorStore} {chunks : List ChunkVector} {dim : ℕ}
    {producer : ModelPin} (h : upsert x vs chunks dim producer = .ok vs') :
    chunks = [] ∧ vs' = vs ∨
      ∃ batch, buildBatch chunks dim producer = .ok batch ∧
        (∀ tbl ∈ vs, tbl.dim = listSize dim) ∧
          vs' = some { dim := listSize dim, rows := rows vs ++ batch } := by
  unfold upsert at h
  generalize listSize dim = size at h ⊢
  split_ifs at h with he
  · exact Or.inl ⟨List.isEmpty_iff.mp he, (Except.ok.inj h).symm⟩
  · rcases hb : buildBatch chunks dim producer with f | batch
    · rw [hb] at h
      simp [bind, Except.bind] at h
    · rw [hb] at h
      simp only [bind, Except.bind, pure, Except.pure] at h
      split_ifs at h with hd
      refine Or.inr ⟨batch, rfl, ?_, ?_⟩
      · rintro tbl htbl
        rw [Option.mem_def.mp htbl] at hd
        exact hd
      · rw [← Except.ok.inj h]
        cases vs with
        | none => rfl
        | some tbl =>
          have hd : tbl.dim = size := hd
          rw [← hd]
          rfl

/-- The rows after an upsert: those before, and one for each chunk. -/
theorem rows_upsert {x : Extern} {vs vs' : VectorStore} {chunks : List ChunkVector} {dim : ℕ}
    {producer : ModelPin} (h : upsert x vs chunks dim producer = .ok vs') :
    ∃ batch, rows vs' = rows vs ++ batch ∧
      List.Forall₂ (fun (c : ChunkVector) (r : VectorRow) => r.chunkId = c.chunkId ∧
        r.filePath = c.filePath ∧ r.content = c.content ∧ r.producer = producer) chunks batch := by
  rcases upsert_ok h with ⟨rfl, rfl⟩ | ⟨batch, hb, -, rfl⟩
  · exact ⟨[], by simp, List.Forall₂.nil⟩
  · exact ⟨batch, rfl, buildBatch_ok hb⟩

theorem storedIds_upsert {x : Extern} {vs vs' : VectorStore} {chunks : List ChunkVector} {dim : ℕ}
    {producer : ModelPin} (h : upsert x vs chunks dim producer = .ok vs') :
    storedIds vs' = storedIds vs ++ chunks.map ChunkVector.chunkId := by
  obtain ⟨batch, hrows, hbatch⟩ := rows_upsert h
  have hids : batch.map (fun r => r.chunkId) = chunks.map ChunkVector.chunkId := by
    clear hrows h
    induction hbatch with
    | nil => rfl
    | cons hcr _ ih => rw [List.map_cons, List.map_cons, hcr.1, ih]
  unfold storedIds
  rw [hrows, List.map_append, hids]

end BrainEngine.Core.Vectors
