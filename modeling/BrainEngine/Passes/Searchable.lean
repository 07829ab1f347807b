import BrainEngine.Index.Incremental
import BrainEngine.Index.Windows
import BrainEngine.Passes.Retrieval

/-! # The store and the files on disk

What all layers together are for: after an embedding pass the vector store holds the windows over the
files of the directory and nothing else, and a search answers with lines that stand in them. `Orderly`
collects what the layers ask of a pass: of the index step that it sees what changed, of the embedding
that it gives no id of a vector to a new chunk. -/

namespace BrainEngine.Passes.Searchable

open BrainEngine.Rust.Str BrainEngine.Rust.Lines BrainEngine.Lib.Rowid BrainEngine.Lib.Greedy
open BrainEngine.Lib.Atomic BrainEngine.Lib.Atomic.Prog
open BrainEngine.Core.External BrainEngine.Core.Config BrainEngine.Core.Chunking BrainEngine.Core.Walk
open BrainEngine.Core.Database BrainEngine.Core.Index BrainEngine.Core.Docs BrainEngine.Core.Vectors
open BrainEngine.Core.Embedding BrainEngine.Core.Passes BrainEngine.Core.Retrieve
open BrainEngine.Core.Sample
open BrainEngine.Index.Runs BrainEngine.Index.ChunkIds BrainEngine.Index.Incremental
open BrainEngine.Index.Windows
open BrainEngine.Passes.Loop BrainEngine.Passes.Stages BrainEngine.Passes.Counts
open BrainEngine.Passes.Marked BrainEngine.Passes.Mirror BrainEngine.Passes.Retrieval

/-- The text of a candidate, if it is one. -/
def textAt (t : Tree) (e : WalkEntry) : Option Text :=
  match t.read e.absPath with
  | .ok bytes => textOf bytes
  | .error _ => none

/-- The windows over the text files of a directory, with their paths. -/
def treeChunks (x : Extern) (cfg : ProjectConfig) (t : Tree) : List (Text × Chunk) :=
  (entries x t cfg).flatMap fun e =>
    ((textAt t e).elim [] fun text => chunkText x text cfg.chunk).map (e.relPath, ·)

/-- What the layers ask of a pass that runs on `s` after the directory `prev`. -/
structure Orderly (x : Extern) (cfg : ProjectConfig) (prev : Option Tree) (s : Project) (p : Party)
    (r : Request) (e : Embedder) : Prop where
  sameCfg : r.cfg = cfg
  distinct : Distinct x cfg r.tree
  tracked : ∀ t₀ ∈ prev, Tracked x cfg t₀ r.tree
  textStays : TextStays x cfg s.db r.tree
  noReuse : NoReuse x s p r e
  keepsLive : KeepsLive x s p r e

/-- Sequences of orderly passes: the last directory and the stores. -/
inductive Followed (x : Extern) (cfg : ProjectConfig) : Option Tree → Project → Prop
  | start : Followed x cfg none Project.empty
  | next {prev : Option Tree} {s s' : Project} {p : Party} {r : Request} {e : Embedder}
    (h : Followed x cfg prev s) (ho : Orderly x cfg prev s p r e)
    (hr : eval (exec x) (pass p r e) s = .ok ((), s')) : Followed x cfg (some r.tree) s'

/-- The lines of a retrieved chunk stand in the file of `t` that it names. -/
structure Quotes (x : Extern) (cfg : ProjectConfig) (t : Tree) (c : RetrievedChunk) : Prop where
  first : 1 ≤ c.startLine
  ordered : c.startLine ≤ c.endLine
  verbatim : ∃ e ∈ entries x t cfg, e.relPath = c.filePath ∧ ∃ text, TextAt t e text ∧
    c.endLine ≤ (lines text).length ∧
      c.content = join ['\n'] (((lines text).drop (c.startLine - 1)).take (c.endLine + 1 - c.startLine))

variable {x : Extern} {cfg : ProjectConfig} {prev : Option Tree} {s s' : Project} {p : Party}
  {r : Request} {e : Embedder} {t : Tree} {db db' : Db}

theorem textAt_eq_some {e : WalkEntry} {text : Text} : textAt t e = some text ↔ TextAt t e text := by
  unfold textAt TextAt
  cases t.read e.absPath with
  | ok bytes => simp
  | error m => simp

/-! ### Marks -/

theorem docOf_remarked (h : Remarked db db') (a : ℕ × FileRow) : docOf db' a = docOf db a := by
  obtain ⟨v, hv⟩ := h.chunks
  have hchunks : (chunksOf db' a.1).map chunkOf = (chunksOf db a.1).map chunkOf := by
    unfold chunksOf RowTable.rowsOf
    rw [hv, List.filter_map, List.map_map, List.map_map, List.map_map]
    rfl
  have hsymbols : symbolsOf db' a.1 = symbolsOf db a.1 := by
    unfold symbolsOf
    rw [h.symbols]
  unfold docOf
  rw [hchunks, hsymbols]

theorem docs_remarked (h : Remarked db db') : docs db' = docs db := by
  unfold docs
  rw [h.files]
  exact List.map_congr_left fun a _ => by rw [docOf_remarked h]

theorem docAt_remarked (h : Remarked db db') (path : Text) : docAt db' path = docAt db path := by
  unfold docAt
  rw [docs_remarked h]

theorem synced_remarked (h : Remarked db db') (hs : Synced x cfg t db) : Synced x cfg t db' :=
  ⟨wellFormed_remarked h hs.wf, hs.walked, hs.distinct,
    fun e he => by rw [docAt_remarked h]; exact hs.right e he,
    fun q hq => by rw [docAt_remarked h]; exact hs.only q hq⟩

/-! ### One pass -/

theorem nodup_plan (h : Distinct x cfg t) : ((plan x t cfg db).map Prod.fst).Nodup := by
  unfold plan
  split
  · exact List.nodup_nil
  · next outcome hwalk =>
    split
    · exact List.nodup_nil
    · next ws hs =>
      have hw := surface_ok_iff.mp hs
      rw [List.forall₂_map_left_iff] at hw
      rw [fst_outcomes hw, ← entries_of_walk hwalk]
      exact h

/-- After the index step, the rest of a pass only marks. -/
theorem remarked_pass {a : Unit} (hr : eval (exec x) (pass p r e) s = .ok (a, s')) :
    ∃ db stats, indexProject x r.tree r.cfg r.now s.db = .ok (db, stats) ∧ Remarked db s'.db := by
  obtain ⟨db, stats, hi, ⟨-, rfl⟩ | ⟨-, he⟩⟩ := eval_pass hr
  · exact ⟨db, stats, hi, Remarked.refl db⟩
  · have h1 : Remarked db (prepared p r.reindex e { s with db }).db :=
      remarked_prepared (s := { s with db })
    exact ⟨db, stats, hi, h1.trans he.remarked⟩

theorem synced_pass (h : Known x cfg prev s.db) (ho : Orderly x cfg prev s p r e)
    (hr : eval (exec x) (pass p r e) s = .ok ((), s')) : Synced x cfg r.tree s'.db := by
  obtain ⟨db, stats, hi, hm⟩ := remarked_pass hr
  rw [ho.sameCfg] at hi
  exact synced_remarked hm (synced_step h ho.distinct ho.tracked ho.textStays hi)

/-- What holds between orderly passes. -/
structure Inv (x : Extern) (cfg : ProjectConfig) (prev : Option Tree) (s : Project) : Prop where
  known : Known x cfg prev s.db
  mirror : Mirror.Inv s
  live : Retrieval.Inv s

theorem inv_pass (h : Inv x cfg prev s) (ho : Orderly x cfg prev s p r e)
    (hr : eval (exec x) (pass p r e) s = .ok ((), s')) : Inv x cfg (some r.tree) s' :=
  ⟨synced_pass h.known ho hr, Mirror.inv_pass h.mirror ho.noReuse hr,
    Retrieval.inv_pass h.live ho.keepsLive hr⟩

/-- **Every sequence of orderly passes.** -/
theorem inv_of_followed (h : Followed x cfg prev s) : Inv x cfg prev s := by
  induction h with
  | start => exact ⟨rfl, Mirror.inv_empty, Retrieval.inv_empty⟩
  | next _ ho hr ih => exact inv_pass ih ho hr

/-! ### Chunks by file -/

/-- The path of a chunk's file. -/
def pathOf (db : Db) (c : ChunkRow) : Text := ((db.files.get? c.fileId).map FileRow.path).getD []

theorem pathOf_eq {c : ChunkRow} {f : FileRow} (hf : (c.fileId, f) ∈ db.files.rows) :
    pathOf db c = f.path := by
  unfold pathOf
  rw [RowTable.get?_eq_some.mpr hf]
  rfl

theorem perm_chunks (h : WellFormed db) :
    (db.chunks.rows.map fun a => (pathOf db a.2, chunkOf a.2)).Perm
      ((docs db).flatMap fun q => q.2.chunks.map (q.1, ·)) := by
  have hrows : db.chunks.rows.Perm
      (db.files.ids.flatMap fun i => db.chunks.rows.filter fun a => a.2.fileId = i) :=
    RowTable.perm_rowsOf db.files.nodup_ids fun a ha => h.keys.chunks a ha
  have hgroup := hrows.map fun a => (pathOf db a.2, chunkOf a.2)
  have heq : ((db.files.ids.flatMap fun i => db.chunks.rows.filter fun a => a.2.fileId = i).map
      fun a => (pathOf db a.2, chunkOf a.2)) =
        (docs db).flatMap fun q => q.2.chunks.map (q.1, ·) := by
    unfold RowTable.ids docs
    rw [List.map_flatMap, List.flatMap_map, List.flatMap_map]
    refine List.flatMap_congr fun f hf => ?_
    unfold docOf chunksOf RowTable.rowsOf
    dsimp only
    rw [List.map_map, List.map_map]
    refine List.map_congr_left fun a ha => ?_
    have hid : a.2.fileId = f.1 := by simpa using (List.mem_filter.mp ha).2
    have hfile : (a.2.fileId, f.2) ∈ db.files.rows := by
      rw [hid]
      exact hf
    simp only [Function.comp_apply, pathOf_eq hfile]
  rw [heq] at hgroup
  exact hgroup

/-! ### Entries and files -/

/-- The chunks of a right entry are the windows over the file's text. -/
theorem chunks_right {e : WalkEntry} {d : Option Doc} (h : Right x cfg t e d) :
    (d.elim [] Doc.chunks) = (textAt t e).elim [] fun text => chunkText x text cfg.chunk := by
  rcases h with ⟨⟨bytes, hb, hn⟩, rfl⟩ | ⟨d, ⟨text, c, ht, hc, rfl⟩, rfl⟩
  · have hnone : textAt t e = none := by
      unfold textAt
      rw [hb]
      exact hn
    rw [hnone]
    rfl
  · obtain ⟨symbols, -, rfl⟩ := changedFile_ok_iff.mp hc
    rw [textAt_eq_some.mpr ht]
    rfl

/-- The entries that `Synced` vouches for, in the order of the walk. -/
theorem perm_docs_entries (h : Synced x cfg t db) : (docs db).Perm
    ((entries x t cfg).filterMap fun e => (docAt db e.relPath).map (e.relPath, ·)) := by
  have hkeys : ∀ es : List WalkEntry, ((es.filterMap fun e => (docAt db e.relPath).map
      (e.relPath, ·)).map Prod.fst).Sublist (es.map WalkEntry.relPath) := by
    intro es
    induction es with
    | nil => exact List.Sublist.refl _
    | cons e es ih =>
      cases hd : docAt db e.relPath with
      | none =>
        simp only [List.filterMap_cons, hd, Option.map_none, List.map_cons]
        exact ih.cons _
      | some d =>
        simp only [List.filterMap_cons, hd, Option.map_some, List.map_cons]
        exact ih.cons_cons _
  have hnd := (hkeys (entries x t cfg)).nodup h.distinct
  refine (List.perm_ext_iff_of_nodup (nodup_docs h.wf).of_map hnd.of_map).mpr ?_
  rintro ⟨q, d⟩
  rw [← lookup_eq_some_iff (nodup_docs h.wf), List.mem_filterMap]
  constructor
  · intro hd
    have hq : q ∈ (entries x t cfg).map WalkEntry.relPath := by
      by_contra hn
      have hnone := h.only q hn
      unfold docAt at hnone
      rw [hnone] at hd
      cases hd
    obtain ⟨e, he, rfl⟩ := List.mem_map.mp hq
    have hd' : docAt db e.relPath = some d := hd
    exact ⟨e, he, by rw [hd']; rfl⟩
  · rintro ⟨e, -, he⟩
    obtain ⟨d', hd', heq⟩ := Option.map_eq_some_iff.mp he
    obtain ⟨rfl, rfl⟩ := Prod.mk.inj heq
    exact hd'

/-- **The chunk table is the windows over the files.** -/
theorem perm_treeChunks (h : Synced x cfg t db) :
    (db.chunks.rows.map fun a => (pathOf db a.2, chunkOf a.2)).Perm (treeChunks x cfg t) := by
  have heq : ((entries x t cfg).filterMap fun e => (docAt db e.relPath).map (e.relPath, ·)).flatMap
      (fun q => q.2.chunks.map (q.1, ·)) = treeChunks x cfg t := by
    unfold treeChunks
    rw [List.filterMap_eq_flatMap_toList, List.flatMap_assoc]
    refine List.flatMap_congr fun e he => ?_
    rw [← chunks_right (h.right e he)]
    cases docAt db e.relPath with
    | none => rfl
    | some d => simp
  rw [← heq]
  exact (perm_chunks h.wf).trans ((perm_docs_entries h).flatMap_right _)

/-! ### The store -/

/-- The path of the file of the chunk under an id. -/
def pathById (db : Db) (i : ℕ) : Text := ((db.chunks.get? i).map (pathOf db)).getD []

theorem pathById_eq {i : ℕ} {c : ChunkRow} (hc : (i, c) ∈ db.chunks.rows) :
    pathById db i = pathOf db c := by
  unfold pathById
  rw [RowTable.get?_eq_some.mpr hc]
  rfl

theorem perm_rows (hm : Mirrored s) (hl : Retrieval.Inv s) :
    ((rows s.vs).map fun row => (row.filePath, row.content)).Perm
      (s.db.chunks.rows.map fun a => (pathOf s.db a.2, a.2.content)) := by
  have hrows : ((rows s.vs).map fun row => (row.filePath, row.content)) =
      ((rows s.vs).map fun row => (row.chunkId, row.content)).map fun q =>
        (pathById s.db q.1, q.2) := by
    rw [List.map_map]
    refine List.map_congr_left fun row hr => ?_
    obtain ⟨c, ⟨hc, f, hf, hp⟩, -⟩ := hl.liveRow hr
    simp only [Function.comp_apply, pathById_eq hc, pathOf_eq hf, hp]
  have hchunks : (s.db.chunks.rows.map fun a => (a.1, a.2.content)).map
      (fun q => (pathById s.db q.1, q.2)) =
        s.db.chunks.rows.map fun a => (pathOf s.db a.2, a.2.content) := by
    rw [List.map_map]
    refine List.map_congr_left fun a ha => ?_
    simp only [Function.comp_apply, pathById_eq (c := a.2) ha]
  rw [hrows, ← hchunks]
  exact hm.map _

/-- The paths and texts of the vectors are those of the windows over the text files of `t`, each as
often as it occurs there. -/
def StoreOf (x : Extern) (cfg : ProjectConfig) (t : Tree) (s : Project) : Prop :=
  ((rows s.vs).map fun row => (row.filePath, row.content)).Perm
    ((treeChunks x cfg t).map fun c => (c.1, c.2.content))

theorem storeOf_pass (h : Inv x cfg prev s) (ho : Orderly x cfg prev s p r e)
    (hn : r.noEmbed = false) (hr : eval (exec x) (pass p r e) s = .ok ((), s')) :
    StoreOf x cfg r.tree s' := by
  have h' := inv_pass h ho hr
  have hfull : fresh x s r = true ∨ full p r.reindex e s.db = true := by
    rcases ho.noReuse.2 with hf | ⟨-, hf⟩
    · exact Or.inl hf
    · exact Or.inr hf
  have hd : ((plan x r.tree r.cfg s.db).map Prod.fst).Nodup := by
    rw [ho.sameCfg]
    exact nodup_plan ho.distinct
  have hmirror : Mirrored s' := (mirror_pass_iff h.mirror ho.noReuse.1 hn hr).mpr
    ((oneEach_pass_iff h.mirror ho.noReuse.1 hd hn hr).mpr hfull)
  have hchunks := (perm_treeChunks h'.known).map fun c : Text × Chunk => (c.1, c.2.content)
  rw [List.map_map] at hchunks
  exact (perm_rows hmirror h'.live).trans hchunks

/-- The stores are those of the directory `t`. -/
structure UpToDate (x : Extern) (cfg : ProjectConfig) (t : Tree) (s : Project) : Prop where
  inv : Inv x cfg (some t) s
  store : StoreOf x cfg t s

/-- The lines of a text that is not blank are covered by its chunks. -/
theorem exists_chunk_of_line {text : Text} {k : ChunkConfig} (hb : ¬Blank text) {n : ℕ} (h1 : 1 ≤ n)
    (hn : n ≤ (lines text).length) : ∃ c ∈ chunkText x text k, c.startLine ≤ n ∧ n ≤ c.endLine := by
  obtain ⟨j, hj, hle, hlt⟩ := Lib.Windows.exists_window (stepOf_pos k) (stepOf_le k)
    (show n - 1 < (lines text).length by omega)
  rw [chunkText_eq x text k hb]
  refine ⟨_, List.mem_map.mpr ⟨j, List.mem_range.mpr hj, rfl⟩, ?_, ?_⟩
  · simp only [window]
    omega
  · simp only [window, stopAt]
    omega

/-- **The store is the windows over the files on disk.** After an orderly pass that embeds, following
orderly passes, the vectors are those of the windows over the text files of the directory and no
others; so every line of a file that is not blank can be found. -/
theorem store_eq_treeChunks (h : Followed x cfg prev s) (ho : Orderly x cfg prev s p r e)
    (hn : r.noEmbed = false) (hr : eval (exec x) (pass p r e) s = .ok ((), s')) :
    StoreOf x cfg r.tree s' ∧
      ∀ f ∈ entries x r.tree cfg, ∀ text, TextAt r.tree f text → ¬Blank text →
        ∀ n, 1 ≤ n → n ≤ (lines text).length → ∃ row ∈ rows s'.vs, row.filePath = f.relPath ∧
          ∃ c ∈ chunkText x text cfg.chunk, row.content = c.content ∧ c.startLine ≤ n ∧ n ≤ c.endLine := by
  have hstore := storeOf_pass (inv_of_followed h) ho hn hr
  refine ⟨hstore, fun f hf text ht hb n h1 hn => ?_⟩
  obtain ⟨c, hc, hstart, hend⟩ := exists_chunk_of_line (x := x) (k := cfg.chunk) hb h1 hn
  have hmem : (f.relPath, c) ∈ treeChunks x cfg r.tree := by
    refine List.mem_flatMap.mpr ⟨f, hf, ?_⟩
    rw [textAt_eq_some.mpr ht]
    exact List.mem_map_of_mem hc
  obtain ⟨row, hrow, heq⟩ := List.mem_map.mp
    (hstore.symm.subset (List.mem_map_of_mem (f := fun c => (c.1, c.2.content)) hmem))
  obtain ⟨hp, hcon⟩ := Prod.mk.inj heq
  exact ⟨row, hrow, hp, c, hc, hcon, hstart, hend⟩

theorem orderly_first : Orderly sample {} none Project.empty .cli (Core.Sample.request aAndB 1) bge :=
  ⟨rfl, by unfold Distinct; decide, by simp, textStays_empty,
    ⟨onePerText_constant _ _ _, Or.inl (by decide)⟩, Or.inr ⟨rfl, Or.inl (by decide)⟩⟩

theorem store_indexedOnce : StoreOf sample {} aAndB indexedOnce ∧ (treeChunks sample {} aAndB).length = 2 :=
  ⟨(store_eq_treeChunks .start orderly_first rfl eval_indexedOnce).1, by decide⟩

/-! ### Searching -/

/-- The lines that a chunk of a text covers. -/
theorem content_of_mem_chunkText {text : Text} {k : ChunkConfig} {c : Chunk}
    (h : c ∈ chunkText x text k) : c.content = join ['\n'] (linesOf (lines text) c) := by
  by_cases hb : Blank text
  · rw [chunkText_of_blank x text k hb] at h
    cases h
  · rw [chunkText_eq x text k hb] at h
    obtain ⟨j, -, rfl⟩ := List.mem_map.mp h
    simp only [linesOf, window, Nat.add_sub_cancel, Nat.add_sub_add_right]

/-- **A chunk of the table stands in the file on disk.** -/
theorem exists_text_of_chunkAt (h : Synced x cfg t db) {path : Text} {i : ℕ} {c : ChunkRow}
    (hc : ChunkAt db path i c) : ∃ e ∈ entries x t cfg, e.relPath = path ∧ ∃ text,
      TextAt t e text ∧ chunkOf c ∈ chunkText x text cfg.chunk := by
  obtain ⟨hc, f, hf, hp⟩ := hc
  have hmem : (path, chunkOf c) ∈ db.chunks.rows.map fun a => (pathOf db a.2, chunkOf a.2) :=
    List.mem_map.mpr ⟨(i, c), hc, by rw [pathOf_eq hf, hp]⟩
  have htree := (perm_treeChunks h).subset hmem
  unfold treeChunks at htree
  obtain ⟨e, he, hin⟩ := List.mem_flatMap.mp htree
  cases htext : textAt t e with
  | none =>
    rw [htext] at hin
    simp at hin
  | some text =>
    rw [htext] at hin
    obtain ⟨k, hk, hpair⟩ := List.mem_map.mp hin
    obtain ⟨h1, h2⟩ := Prod.mk.inj hpair
    subst h2
    exact ⟨e, he, h1, text, textAt_eq_some.mp htext, hk⟩

/-- **A search quotes the files on disk.** -/
theorem quotes_search (h : Inv x cfg (some t) s) {l : Lance} (hl : l.Lawful) {query : List F32}
    {topK : ℕ} {chunks : List RetrievedChunk} (hs : search l s.vs s.db query topK = .ok chunks) :
    ∀ c ∈ chunks, Quotes x cfg t c ∧ c.tokenEstimate = estimate c.content := by
  have hlive := live_search hl h.live hs
  intro c hc
  obtain ⟨h1, h2⟩ := hlive.lines c hc
  obtain ⟨row, hrow, hcon, hstart, hend, htok⟩ := hlive.row c hc
  obtain ⟨e, he, hp, text, htext, hmem⟩ := exists_text_of_chunkAt h.known hrow
  obtain ⟨-, -, hlast, -, hest⟩ := mem_chunkText hmem
  have hest : row.tokenEstimate = estimate row.content := hest
  refine ⟨⟨h1, h2, e, he, hp, text, htext, ?_, ?_⟩, ?_⟩
  · rw [hend]
    exact hlast
  · rw [hcon, hstart, hend]
    exact content_of_mem_chunkText hmem
  · rw [htok, hcon]
    exact hest

theorem projectTotal_eq (h : Synced x cfg t db) :
    projectTotal db = ((treeChunks x cfg t).map fun c => estimate c.2.content).sum := by
  have hest : (treeChunks x cfg t).map (fun c => c.2.tokenEstimate) =
      (treeChunks x cfg t).map fun c => estimate c.2.content := by
    refine List.map_congr_left fun c hc => ?_
    obtain ⟨e, -, hin⟩ := List.mem_flatMap.mp hc
    cases htext : textAt t e with
    | none =>
      rw [htext] at hin
      simp at hin
    | some text =>
      rw [htext] at hin
      obtain ⟨k, hk, rfl⟩ := List.mem_map.mp hin
      exact (mem_chunkText hk).2.2.2.2
  have hsum := ((perm_treeChunks h).map fun c => c.2.tokenEstimate).sum_eq
  rw [List.map_map, hest] at hsum
  exact hsum

/-- **An assembled context quotes the files on disk, at its price.** After orderly passes, the last one
over `t`, every chunk of the context stands in the file of `t` that it names; the context costs the
tokens of what it quotes, within the budget; what it costs and what it is said to save add up to the
tokens of all windows over the files of `t`; and every retrieved chunk is in it or counted as dropped. -/
theorem context_quotes (h : Followed x cfg (some t) s) {l : Lance} (hl : l.Lawful) {query : List F32}
    {topK : ℕ} {chunks : List RetrievedChunk} (hs : search l s.vs s.db query topK = .ok chunks)
    (budget : ℕ) :
    let ctx := assemble chunks budget (projectTotal s.db)
    (∀ c ∈ ctx.chunks, Quotes x cfg t c) ∧
      ctx.contextTokens = (ctx.chunks.map fun c => estimate c.content).sum ∧
      ctx.contextTokens ≤ budget ∧
      ctx.contextTokens + ctx.theoreticalSaved =
        ((treeChunks x cfg t).map fun c => estimate c.2.content).sum ∧
      ctx.chunks.length + ctx.droppedCount = chunks.length := by
  intro ctx
  have hinv := inv_of_followed h
  have hquotes := quotes_search hinv hl hs
  have hlive := live_search hl hinv.live hs
  obtain ⟨hsub, htok, hle⟩ := assemble_spec chunks budget (projectTotal s.db)
  have hest : ctx.chunks.map RetrievedChunk.tokenEstimate = ctx.chunks.map fun c => estimate c.content :=
    List.map_congr_left fun c hc => (hquotes c (hsub.subset hc)).2
  have hcost : ctx.contextTokens ≤ projectTotal s.db := by
    rw [htok]
    refine sum_le_projectTotal ((hsub.map _).nodup hlive.nodup) fun c hc => ?_
    obtain ⟨row, hrow, -, -, -, h1⟩ := hlive.row c (hsub.subset hc)
    exact ⟨row, hrow.1, h1⟩
  have hsaved : ctx.theoreticalSaved = projectTotal s.db - ctx.contextTokens := rfl
  have hlen : ctx.chunks.length + ctx.droppedCount = chunks.length := by
    have hperm : (kept RetrievedChunk.tokenEstimate budget 0 chunks ++
        dropped RetrievedChunk.tokenEstimate budget 0 chunks).Perm chunks := perm_kept_dropped chunks 0
    have hlen := hperm.length_eq
    rw [List.length_append] at hlen
    simpa [ctx, assemble_eq] using hlen
  refine ⟨fun c hc => (hquotes c (hsub.subset hc)).1, ?_, hle, ?_, hlen⟩
  · rw [← hest]
    exact htok
  · rw [← projectTotal_eq hinv.known]
    omega

theorem context_indexedOnce : ∃ chunks, search scan indexedOnce.vs indexedOnce.db [1, 1] 5 = .ok chunks ∧
    chunks.length = 2 ∧ ∀ c ∈ (assemble chunks 1 (projectTotal indexedOnce.db)).chunks,
      Quotes sample {} aAndB c := by
  have hlen : (search scan indexedOnce.vs indexedOnce.db [1, 1] 5).map List.length = .ok 2 := by decide
  obtain ⟨chunks, hs, hn⟩ := Lib.Outcome.map_eq_ok.mp hlen
  have hfollowed : Followed sample {} (some aAndB) indexedOnce :=
    .next .start orderly_first eval_indexedOnce
  exact ⟨chunks, hs, hn, (context_quotes hfollowed lawful_scan hs 1).1⟩

end BrainEngine.Passes.Searchable
