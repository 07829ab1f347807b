import BrainEngine.Index.Runs
import BrainEngine.Core.Sample

/-! # Every indexed file is a consistent snapshot

Hash, counter, chunks and symbols of a file are written by separate statements, and later runs rewrite
some of them and leave the others. In every database that runs of the indexer reach, whatever the
directories and configurations of these runs, they still belong to one content and one chunk
configuration. -/

namespace BrainEngine.Index.Snapshot

open BrainEngine.Rust.Str BrainEngine.Lib.Rowid BrainEngine.Core.External BrainEngine.Core.Config
open BrainEngine.Core.Chunking BrainEngine.Core.Symbols BrainEngine.Core.Walk
open BrainEngine.Core.Database BrainEngine.Core.Index BrainEngine.Core.Docs
open BrainEngine.Core.Sample BrainEngine.Index.Runs

/-- The rows of a file are those of the content `c` under the configuration `k`. -/
structure FileSnapshot (x : Extern) (db : Db) (a : ℕ × FileRow) (c : Text) (k : ChunkConfig) :
    Prop where
  hash : a.2.hash = x.sha256Hex c
  lang : a.2.lang = detectLanguage a.2.path
  chunks : (chunksOf db a.1).map chunkOf = chunkText x c k
  ordinals : (chunksOf db a.1).map ChunkRow.ordinal = List.range a.2.chunkCount
  count : a.2.chunkCount = (chunkText x c k).length
  symbols : extract x c (detectLanguage a.2.path) = .ok ((symbolsOf db a.1).map symbolOf)

/-- Every file is a snapshot, paths are unique and no row belongs to a missing file. -/
structure Consistent (x : Extern) (db : Db) : Prop where
  files : ∀ a ∈ db.files.rows, ∃ c k, FileSnapshot x db a c k
  paths : (db.files.rows.map fun a => a.2.path).Nodup
  keys : ForeignKeys db

/-! ### Entries -/

/-- The entry of a file is that of the content `c` under the configuration `k`. -/
structure DocSnapshot (x : Extern) (path : Text) (d : Doc) (c : Text) (k : ChunkConfig) : Prop where
  hash : d.hash = x.sha256Hex c
  lang : d.lang = detectLanguage path
  chunks : d.chunks = chunkText x c k
  count : d.chunkCount = (chunkText x c k).length
  symbols : extract x c (detectLanguage path) = .ok d.symbols

variable {x : Extern} {db : Db}

theorem docSnapshot_newDoc {cfg : ProjectConfig} {e : WalkEntry} {text : Text} {c : ChangedFile}
    (h : changedFile x cfg e text = .ok c) : DocSnapshot x e.relPath (newDoc c) text cfg.chunk := by
  obtain ⟨symbols, hs, rfl⟩ := changedFile_ok_iff.mp h
  exact ⟨rfl, rfl, rfl, rfl, hs⟩

/-- A well-formed database whose entries are snapshots. -/
structure Snapshots (x : Extern) (db : Db) : Prop where
  wf : WellFormed db
  docs : ∀ p d, docAt db p = some d → ∃ c k, DocSnapshot x p d c k

theorem snapshots_empty : Snapshots x Db.empty :=
  ⟨wellFormed_empty, fun p d h => by simp [docAt, Core.Docs.docs, Db.empty] at h⟩

/-- **One run** keeps every entry a snapshot: the outcomes leave an entry, refresh its size and time,
or write a new one. -/
theorem snapshots_run (t : Tree) (cfg : ProjectConfig) (now : ℕ) (h : Snapshots x db) :
    Snapshots x (runIndex x t cfg now db) := by
  unfold runIndex
  rcases hr : indexProject x t cfg now db with f | ⟨db', stats⟩
  · exact h
  · obtain ⟨outcome, ws, -, hw, rfl⟩ := indexProject_ok_iff.mp ⟨stats, hr⟩
    refine ⟨wellFormed_transaction h.wf ws, fun p d hd => ?_⟩
    refine docAt_transaction_inv (P := fun p d => ∃ c k, DocSnapshot x p d c k) h.wf h.docs ?_ ?_ hd
    · rintro p d size mtime ⟨c, k, hs⟩
      exact ⟨c, k, hs.hash, hs.lang, hs.chunks, hs.count, hs.symbols⟩
    · intro p c hc
      obtain ⟨e, -, rfl, hcl⟩ := exists_entry hw hc
      obtain ⟨text, ht⟩ := text_of_changed hcl
      exact ⟨text, cfg.chunk, docSnapshot_newDoc ht⟩

/-- **Every run.** -/
theorem snapshots_of_reachable (h : Reachable x db) : Snapshots x db := by
  induction h with
  | empty => exact snapshots_empty
  | run _ t cfg now ih => exact snapshots_run t cfg now ih

theorem fileSnapshot_of_doc {a : ℕ × FileRow} {c : Text} {k : ChunkConfig}
    (h : DocSnapshot x a.2.path (docOf db a) c k) : FileSnapshot x db a c k := by
  refine ⟨h.hash, h.lang, h.chunks, ?_, h.count, h.symbols⟩
  have h1 : (chunksOf db a.1).map ChunkRow.ordinal =
      ((chunksOf db a.1).map chunkOf).map Chunk.ordinal := by
    rw [List.map_map]
    rfl
  have h2 : a.2.chunkCount = (chunkText x c k).length := h.count
  rw [h1, show (chunksOf db a.1).map chunkOf = chunkText x c k from h.chunks, ordinals_chunkText, h2]

/-- **Every indexed file is a consistent snapshot**, in every database that runs of the indexer
reach. -/
theorem consistent_of_indexed (h : Reachable x db) : Consistent x db := by
  have hs := snapshots_of_reachable h
  refine ⟨fun a ha => ?_, hs.wf.paths, hs.wf.keys⟩
  obtain ⟨c, k, hd⟩ := hs.docs _ _ (docAt_of_mem hs.wf ha)
  exact ⟨c, k, fileSnapshot_of_doc hd⟩

/-- Two runs, with an edit, a deletion and another configuration in between. -/
theorem consistent_two_runs :
    let db := runIndex sample (treeOf [("a.txt", 2, ascii "b\nc")]) { chunk := ⟨1, 0⟩ } 2
      (runIndex sample (treeOf [("a.txt", 1, ascii "a"), ("b.txt", 1, ascii "b")]) {} 1 Db.empty)
    Consistent sample db ∧ db.files.rows.length = 1 ∧ db.chunks.rows.length = 2 := by
  refine ⟨consistent_of_indexed (.run (.run .empty _ _ _) _ _ _), ?_, ?_⟩
  · decide
  · decide

end BrainEngine.Index.Snapshot
