import BrainEngine.Lib.Atomic
import BrainEngine.Lib.Outcome
import BrainEngine.Core.Index
import BrainEngine.Core.Embedding

/-! # The two indexing passes

`brain index` of the CLI and `handle_index` of the daemon as programs of atomic steps on the project's
database and vector store: each SQLite statement or transaction is one step, and so is each call of
the store and of the embedder. What a run only prints is left out, and so are the summaries it writes
between indexing and embedding, which are in tables and files of their own. An upsert that creates the
table is one step with the creation of the empty table. -/

namespace BrainEngine.Core.Passes

open BrainEngine.Rust.Str BrainEngine.Lib.Atomic BrainEngine.Lib.Outcome
open BrainEngine.Core.External BrainEngine.Core.Config
open BrainEngine.Core.Walk BrainEngine.Core.Database BrainEngine.Core.Index BrainEngine.Core.Vectors
open BrainEngine.Core.Embedding

/-- The two stores of a project. -/
structure Project where
  db : Db
  vs : VectorStore

/-- The project after `brain init`. -/
def Project.empty : Project := ⟨Db.empty, none⟩

/-- The atomic steps, with their answers. -/
inductive Op : Type → Type
  | indexProject (t : Tree) (cfg : ProjectConfig) (now : ℕ) : Op IndexStats
  | getMeta (key : Text) : Op (Option Text)
  | setMeta (key value : Text) : Op Unit
  | clearMarks : Op Unit
  | markChunk (id : ℕ) : Op Unit
  | alreadyEmbeddedCount : Op ℕ
  | getAllChunkIds : Op (List ℕ)
  | getPendingChunks : Op (List PendingChunk)
  | embed (e : Embedder) (texts : List Text) : Op (List (List F32))
  | upsert (chunks : List ChunkVector) (e : Embedder) : Op Unit
  | deleteOrphans (validIds : List ℕ) : Op Unit
  | clearVectors : Op Unit
  | countVectors : Op ℕ

/-- What a step does. -/
def exec (x : Extern) (β : Type) : Op β → Project → Except Failure (β × Project)
  | .indexProject t cfg now, s =>
    (indexProject x t cfg now s.db).map fun r => (r.2, { s with db := r.1 })
  | .getMeta key, s => .ok (getMeta s.db key, s)
  | .setMeta key value, s => .ok ((), { s with db := setMeta s.db key value })
  | .clearMarks, s => .ok ((), { s with db := clearMarks s.db })
  | .markChunk id, s => .ok ((), { s with db := markChunk s.db id })
  | .alreadyEmbeddedCount, s => .ok (alreadyEmbeddedCount s.db, s)
  | .getAllChunkIds, s => .ok (getAllChunkIds s.db, s)
  | .getPendingChunks, s => .ok (getPendingChunks s.db, s)
  | .embed e texts, s =>
    match e.embed texts with
    | .ok vectors => .ok (vectors, s)
    | .error message => .error (.error (.embed message))
  | .upsert chunks e, s => (upsert x s.vs chunks e.dim e.pin).map fun vs => ((), { s with vs })
  | .deleteOrphans validIds, s => .ok ((), { s with vs := deleteOrphans s.vs validIds })
  | .clearVectors, s => .ok ((), { s with vs := clear s.vs })
  | .countVectors, s => .ok (count s.vs, s)

/-! ### The steps that can fail -/

theorem exec_indexProject {x : Extern} {s s' : Project} {t : Tree} {cfg : ProjectConfig} {now : ℕ}
    {stats : IndexStats} (h : exec x _ (.indexProject t cfg now) s = .ok (stats, s')) :
    ∃ db, indexProject x t cfg now s.db = .ok (db, stats) ∧ s' = { s with db } := by
  obtain ⟨⟨db, st⟩, hi, hs⟩ := map_eq_ok.mp h
  obtain ⟨rfl, rfl⟩ := Prod.mk.inj hs
  exact ⟨db, hi, rfl⟩

theorem exec_embed {x : Extern} {s s' : Project} {e : Embedder} {texts : List Text}
    {vectors : List (List F32)} (h : exec x _ (.embed e texts) s = .ok (vectors, s')) :
    e.embed texts = .ok vectors ∧ s' = s := by
  simp only [exec] at h
  split at h
  · next he =>
    obtain ⟨rfl, rfl⟩ := Prod.mk.inj (Except.ok.inj h)
    exact ⟨he, rfl⟩
  · simp at h

theorem exec_upsert {x : Extern} {s s' : Project} {cs : List ChunkVector} {e : Embedder} {a : Unit}
    (h : exec x _ (.upsert cs e) s = .ok (a, s')) :
    ∃ vs, upsert x s.vs cs e.dim e.pin = .ok vs ∧ s' = { s with vs } := by
  obtain ⟨vs, hu, hs⟩ := map_eq_ok.mp h
  exact ⟨vs, hu, (Prod.mk.inj hs).2.symm⟩

open Prog (perform)

/-! ### Model pin -/

def modelIdKey : Text := "embedding.model_id".toList

def dimKey : Text := "embedding.dim".toList

inductive ModelPinStatus
  /-- No pin recorded yet. -/
  | absent
  /-- Pinned model matches the current embedder. -/
  | matched
  /-- Pinned model differs. -/
  | mismatch (pinnedModel : Text) (pinnedDim : ℕ)
  deriving DecidableEq

/-- How the values of the `meta` table compare with the embedder. -/
def pinStatus (pinnedModel : Option Text) (pinnedDim : Option ℕ) (e : Embedder) : ModelPinStatus :=
  match pinnedModel, pinnedDim with
  | none, _ => .absent
  | _, none => .absent
  | some pm, some pd => if pm = e.modelId ∧ pd = e.dim then .matched else .mismatch pm pd

/-- Read the pinned model and compare it with the current embedder. -/
def checkModelPin (e : Embedder) : Prog Op ModelPinStatus := do
  let pinnedModel ← perform (.getMeta modelIdKey)
  let pinnedDim ← perform (.getMeta dimKey)
  return pinStatus pinnedModel (pinnedDim.bind parseUsize) e

/-- The two statements that write the pin. -/
def setModelPin (e : Embedder) : Prog Op Unit := do
  perform (.setMeta modelIdKey e.modelId)
  perform (.setMeta dimKey (ofNat e.dim))

/-- Write the model pin only when no pin exists yet. -/
def setModelPinIfAbsent (e : Embedder) : Prog Op Unit := do
  let pinnedModel ← perform (.getMeta modelIdKey)
  if pinnedModel.isNone then setModelPin e else return ()

/-! ### Embedding -/

structure EmbedStats where
  embedded : ℕ
  alreadyEmbedded : ℕ
  deriving DecidableEq

/-- The rows of a batch: chunks and vectors side by side, up to the shorter of the two lists. -/
def chunkVectors (batch : List PendingChunk) (vectors : List (List F32)) : List ChunkVector :=
  List.zipWith (fun c v =>
    { chunkId := c.id, vector := v, filePath := c.filePath, content := c.content }) batch vectors

/-- One batch: embed, store, and only then mark. -/
def embedBatch (e : Embedder) (batch : List PendingChunk) : Prog Op PUnit := do
  let vectors ← perform (.embed e (batch.map PendingChunk.content))
  perform (.upsert (chunkVectors batch vectors) e)
  batch.forM fun c => perform (.markChunk c.id)

def batchSize : ℕ := 64

/-- The loop over the batches. -/
def embedBatches (e : Embedder) (pending : List PendingChunk) : Prog Op PUnit :=
  (Rust.Slice.chunks batchSize pending).forM (embedBatch e)

/-- Embed all chunks with `vector_id IS NULL`. -/
def embedPendingChunks (e : Embedder) : Prog Op EmbedStats := do
  let alreadyEmbedded ← perform .alreadyEmbeddedCount
  let pending ← perform .getPendingChunks
  if pending.isEmpty then return { embedded := 0, alreadyEmbedded }
  embedBatches e pending
  return { embedded := ((Rust.Slice.chunks batchSize pending).map List.length).sum, alreadyEmbedded }

/-- Delete the vectors of chunks that are no longer in the table. -/
def pruneOrphans : Prog Op Unit := do
  let ids ← perform .getAllChunkIds
  perform (.deleteOrphans ids)

/-! ### The passes -/

/-- What a client asks for, with the directory and the configuration the run finds. -/
structure Request where
  tree : Tree
  cfg : ProjectConfig
  now : ℕ
  reindex : Bool
  noEmbed : Bool

/-- Steps 4 and 5 of the CLI: prune, embed, count. -/
def pruneAndEmbed (e : Embedder) : Prog Op (EmbedStats × ℕ) := do
  pruneOrphans
  let embedStats ← embedPendingChunks e
  let totalVectors ← perform .countVectors
  return (embedStats, totalVectors)

/-- What the CLI does before a full reindex. -/
def resetVectors (e : Embedder) : Prog Op Unit := do
  perform .clearMarks
  setModelPin e
  perform .clearVectors

/-- `need_full_reindex`. -/
def needFullReindex (reindex : Bool) (e : Embedder) : Prog Op Bool :=
  if reindex then return true
  else do
    let status ← checkModelPin e
    return match status with
      | .mismatch _ _ => true
      | _ => false

/-- Step 3 of the CLI. -/
def prepare (reindex : Bool) (e : Embedder) : Prog Op Unit := do
  let full ← needFullReindex reindex e
  if full then resetVectors e else setModelPinIfAbsent e

/-- The CLI from the pin check on. -/
def embedStage (reindex : Bool) (e : Embedder) : Prog Op (EmbedStats × ℕ) := do
  prepare reindex e
  pruneAndEmbed e

/-- `brain index`. -/
def run (r : Request) (e : Embedder) : Prog Op (IndexStats × Option (EmbedStats × ℕ)) := do
  let indexStats ← perform (.indexProject r.tree r.cfg r.now)
  if r.noEmbed then return (indexStats, none)
  else
    let stats ← embedStage r.reindex e
    return (indexStats, some stats)

/-- What the daemon does before a full reindex: the same statements in another order. -/
def resetVectorsDaemon (e : Embedder) : Prog Op Unit := do
  perform .clearMarks
  perform .clearVectors
  setModelPin e

/-- The reindex branch of the daemon. There is no pin check. -/
def prepareDaemon (reindex : Bool) (e : Embedder) : Prog Op Unit :=
  if reindex then resetVectorsDaemon e else return ()

/-- The batch loop of the daemon over the chunks that are pending now. -/
def embedPendingDaemon (e : Embedder) : Prog Op ℕ := do
  let pending ← perform .getPendingChunks
  embedBatches e pending
  return ((Rust.Slice.chunks batchSize pending).map List.length).sum

/-- The daemon from the reindex branch on. -/
def embedStageDaemon (reindex : Bool) (e : Embedder) : Prog Op ℕ := do
  prepareDaemon reindex e
  pruneOrphans
  embedPendingDaemon e

/-- `handle_index`. -/
def handleIndex (r : Request) (e : Embedder) : Prog Op (IndexStats × ℕ) := do
  let stats ← perform (.indexProject r.tree r.cfg r.now)
  if r.noEmbed then return (stats, 0)
  else
    let embedded ← embedStageDaemon r.reindex e
    return (stats, embedded)

/-- Who runs a pass. -/
inductive Party
  | cli
  | daemon
  deriving DecidableEq

/-- The pass of a party, without its answer. -/
def pass (p : Party) (r : Request) (e : Embedder) : Prog Op Unit :=
  match p with
  | .cli => do
    let _ ← run r e
    return ()
  | .daemon => do
    let _ ← handleIndex r e
    return ()

end BrainEngine.Core.Passes
