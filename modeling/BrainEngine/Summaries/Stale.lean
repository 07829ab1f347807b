import BrainEngine.Lib.Machine
import BrainEngine.Index.Snapshot
import BrainEngine.Summaries.Sync

/-! # Stale summaries

A module's and the project's summary are written anew only if the aggregate of the content hashes has
changed, but their texts name paths and modules. `current_of_reaches` says in which runs no summary is
stale; a renamed file makes one that is. -/

namespace BrainEngine.Summaries.Stale

open BrainEngine.Rust.Str BrainEngine.Lib.Keyed BrainEngine.Lib.Sorted BrainEngine.Lib.Memo
open BrainEngine.Lib.Machine BrainEngine.Core.External BrainEngine.Core.Config BrainEngine.Core.Walk
open BrainEngine.Core.Index BrainEngine.Core.Docs BrainEngine.Core.Sample BrainEngine.Core.Summarize
open BrainEngine.Index.Runs BrainEngine.Index.Snapshot BrainEngine.Summaries.Sync
open BrainEngine.Core.Database (Db)

/-- A project's index and its digest. -/
structure Project where
  db : Db
  digest : Digest

def Project.empty : Project := ⟨Db.empty, Digest.empty⟩

/-- What a run finds: the directory as the indexer walks it, and the disk of the synchronization. -/
structure Run where
  tree : Tree
  disk : Disk
  now : ℕ
  syncNow : ℕ

section
variable (x : Extern) (root dir : Text) (cfg : ProjectConfig) (scfg : SummariesConfig)

/-- `index_project` and then `sync_project_summaries`. There is no result if one of them fails. -/
def step (s : Project) (a : Run) : Option Project :=
  match indexProject x a.tree cfg a.now s.db with
  | .error _ => none
  | .ok (db, _) =>
    match syncProjectSummaries x root dir a.disk scfg a.syncNow db s.digest with
    | .error _ _ => none
    | .ok _ digest => some ⟨db, digest⟩

/-- The stored summaries of the indexed files. -/
def currentSummaries (s : Project) : List FileSummary :=
  (loadFiles s.db).filterMap fun f =>
    (s.digest.summaries.get? (.file, f.path)).map fun r => ⟨f.path, f.hash, r.summary⟩

/-- **No summary is stale**: modules and project have the summaries of the current files, and exactly
the modules with files have one. -/
structure Current (s : Project) : Prop where
  modules : ∀ m row, s.digest.summaries.get? (.module, m) = some row →
    row.summary = summarizeModule m ((currentSummaries s).filter fun f => moduleTarget f.path = m)
  project : ∃ row, s.digest.summaries.get? (.project, projectTarget) = some row ∧
    row.summary = summarizeProject (currentSummaries s)
  exact : ∀ m, (s.digest.summaries.get? (.module, m)).isSome = true ↔
    ∃ f ∈ loadFiles s.db, moduleTarget f.path = m

/-! ### The condition -/

/-- The files of a module. -/
def filesOf (files : List FileRow) (m : Text) : List FileRow :=
  files.filter fun f => moduleTarget f.path = m

/-- What the project's summary tells of the modules: the first twelve with their sizes, and how many
there are. -/
def outline (files : List FileRow) : List (Text × ℕ) × ℕ :=
  let modules := counts (fun f : FileRow => moduleTarget f.path) files
  (modules.entries.take 12, modules.entries.length)

/-- From one run to the next, a module that keeps the sequence of its content hashes keeps its first
eight paths, and a project that keeps it keeps what is told of its modules. -/
structure Told (files files' : List FileRow) : Prop where
  modules : ∀ m, (filesOf files m).map FileRow.hash = (filesOf files' m).map FileRow.hash →
    ((filesOf files m).take 8).map FileRow.path = ((filesOf files' m).take 8).map FileRow.path
  project : files.map FileRow.hash = files'.map FileRow.hash → outline files = outline files'

/-- The texts whose hashes a synchronization compares. -/
def aggregated (files : List FileRow) : Set Text :=
  {t | t = join ['\n'] (files.map FileRow.hash) ∨
    ∃ m, t = join ['\n'] ((filesOf files m).map FileRow.hash)}

/-- The files that the index has after a run. -/
def nextFiles (s : Project) (a : Run) : List FileRow := loadFiles (runIndex x a.tree cfg a.now s.db)

/-- All files are readable, and SHA-256 has no collision among what is aggregated. -/
structure Regular (s : Project) (a : Run) : Prop where
  readable : ∀ f ∈ nextFiles x cfg s a, Readable root a.disk f
  sha : Set.InjOn x.sha256Hex (aggregated (loadFiles s.db) ∪ aggregated (nextFiles x cfg s a))

/-- The form of a digest in hex. -/
def HexDigests (x : Extern) : Prop :=
  ∀ t, (x.sha256Hex t).length = 64 ∧ (x.sha256Hex t).all Char.isAlphanum = true

end

variable {x : Extern} {root dir : Text} {cfg : ProjectConfig} {scfg : SummariesConfig}
variable {s s' u : Project} {a : Run} {files files' : List FileRow}

/-! ### Aggregates -/

theorem join_injective {l l' : List Text} (h : ∀ t ∈ l, t ≠ [] ∧ '\n' ∉ t) (h' : ∀ t ∈ l', t ≠ [] ∧ '\n' ∉ t)
    (he : join ['\n'] l = join ['\n'] l') : l = l' := by
  have hnil : ∀ {l : List Text}, (∀ t ∈ l, t ≠ [] ∧ '\n' ∉ t) → l ≠ [] → join ['\n'] l ≠ [] := by
    intro l h hl
    cases l with
    | nil => exact absurd rfl hl
    | cons t l =>
      have ht := (h t List.mem_cons_self).1
      cases l with
      | nil => simpa [join] using ht
      | cons t' l => simp [join, List.intercalate_cons_cons]
  by_cases hl : l = []
  · by_contra hne
    rw [hl] at he hne
    exact hnil h' (Ne.symm hne) he.symm
  · have hl' : l' ≠ [] := by
      rintro rfl
      exact hnil h hl he
    have h1 := List.splitOn_intercalate '\n' (fun t ht => (h t ht).2) hl
    have h2 := List.splitOn_intercalate '\n' (fun t ht => (h' t ht).2) hl'
    unfold join at he
    rw [← h1, he, h2]

/-- **Content hashes are told apart** by their aggregate, in so far as SHA-256 has no collision. -/
theorem hashes_of_aggregateHash {T : Set Text} (hx : HexDigests x) (hsha : Set.InjOn x.sha256Hex T)
    {l l' : List Text} (hl : ∀ t ∈ l, ∃ c, t = x.sha256Hex c) (hl' : ∀ t ∈ l', ∃ c, t = x.sha256Hex c)
    (hT : join ['\n'] l ∈ T) (hT' : join ['\n'] l' ∈ T) (h : aggregateHash x l = aggregateHash x l') :
    l = l' := by
  have hform : ∀ c, x.sha256Hex c ≠ [] ∧ '\n' ∉ x.sha256Hex c := by
    intro c
    obtain ⟨hlen, hc⟩ := hx c
    refine ⟨fun h0 => ?_, fun hn => absurd (List.all_eq_true.mp hc _ hn) (by decide)⟩
    rw [h0] at hlen
    simp at hlen
  refine join_injective (fun t ht => ?_) (fun t ht => ?_) (hsha hT hT' h)
  · obtain ⟨c, rfl⟩ := hl t ht
    exact hform c
  · obtain ⟨c, rfl⟩ := hl' t ht
    exact hform c

/-! ### Files and their summaries -/

section
variable {F G : FileRow → FileSummary} {m : Text}

theorem inModule_map {g : List FileSummary} (hF : ∀ f, (F f).path = f.path) (files : List FileRow) :
    inModule (files.map F) m = some g ↔ filesOf files m ≠ [] ∧ g = (filesOf files m).map F := by
  have hfilter : (files.map F).filter (fun f => moduleTarget f.path = m) = (filesOf files m).map F := by
    unfold filesOf
    rw [List.filter_map]
    congr 2
    funext f
    simp [hF]
  rw [inModule_eq_some, hfilter]
  constructor
  · rintro ⟨hne, rfl⟩; exact ⟨by simpa using hne, rfl⟩
  · rintro ⟨hne, rfl⟩; exact ⟨by simpa using hne, rfl⟩

theorem moduleCounts_map (hF : ∀ f, (F f).path = f.path) (files : List FileRow) :
    moduleCounts (files.map F) = counts (fun f : FileRow => moduleTarget f.path) files := by
  unfold moduleCounts
  rw [counts_map]
  simp only [hF]

/-- Files that agree in path and hash have the same summaries. -/
theorem map_eq_map (hp : files.map FileRow.path = files'.map FileRow.path)
    (hh : files.map FileRow.hash = files'.map FileRow.hash)
    (h : ∀ f ∈ files, ∀ g ∈ files', f.path = g.path → f.hash = g.hash → F f = G g) :
    files.map F = files'.map G := by
  induction files generalizing files' with
  | nil =>
    cases files' with
    | nil => rfl
    | cons g files' => simp at hp
  | cons f files ih =>
    cases files' with
    | nil => simp at hp
    | cons g files' =>
      simp only [List.map_cons, List.cons.injEq] at hp hh ⊢
      refine ⟨h f List.mem_cons_self g List.mem_cons_self hp.1 hh.1, ih hp.2 hh.2 fun f' hf g' hg => ?_⟩
      exact h f' (List.mem_cons_of_mem _ hf) g' (List.mem_cons_of_mem _ hg)

/-- What a module's summary is made of. -/
theorem summarizeModule_congr {l l' : List FileSummary} (hl : l.length = l'.length)
    (h8 : l.take 8 = l'.take 8) : summarizeModule m l = summarizeModule m l' := by
  unfold summarizeModule
  rw [hl, h8]

/-- What the project's summary is made of. -/
theorem summarizeProject_congr (hF : ∀ f, (F f).path = f.path) (hG : ∀ f, (G f).path = f.path)
    (hl : files.length = files'.length) (ho : outline files = outline files') :
    summarizeProject (files.map F) = summarizeProject (files'.map G) := by
  obtain ⟨h12, hn⟩ := Prod.mk.inj ho
  unfold summarizeProject
  rw [moduleCounts_map hF, moduleCounts_map hG]
  dsimp only
  rw [h12, hn, List.length_map, List.length_map, hl]

end

/-! ### The index -/

theorem mem_loadFiles {db : Db} {f : FileRow} : f ∈ loadFiles db ↔
    ∃ a ∈ db.files.rows, (⟨a.2.path, a.2.hash, a.2.lang⟩ : FileRow) = f := by
  unfold loadFiles
  rw [(List.perm_insertionSort _ _).mem_iff, List.mem_map]

theorem nodup_paths_loadFiles {db : Db} (h : WellFormed db) : ((loadFiles db).map FileRow.path).Nodup := by
  have hp := (List.perm_insertionSort (fun a b : FileRow => a.path ≤ b.path)
    (db.files.rows.map fun a => ⟨a.2.path, a.2.hash, a.2.lang⟩)).map FileRow.path
  refine hp.nodup_iff.mpr ?_
  rw [List.map_map]
  exact h.paths

/-- The hashes of the index are digests. -/
theorem hash_of_mem {db : Db} (h : Snapshots x db) {f : FileRow} (hf : f ∈ loadFiles db) :
    ∃ c, f.hash = x.sha256Hex c := by
  obtain ⟨a, ha, rfl⟩ := mem_loadFiles.mp hf
  obtain ⟨c, k, hd⟩ := h.docs _ _ (docAt_of_mem h.wf ha)
  exact ⟨c, hd.hash⟩

theorem step_eq_some : step x root dir cfg scfg s a = some u ↔ ∃ stats stats',
    indexProject x a.tree cfg a.now s.db = .ok (u.db, stats) ∧
      syncProjectSummaries x root dir a.disk scfg a.syncNow u.db s.digest = .ok stats' u.digest := by
  unfold step
  rcases indexProject x a.tree cfg a.now s.db with f | ⟨db, stats⟩
  · simp
  · dsimp only
    rcases hr : syncProjectSummaries x root dir a.disk scfg a.syncNow db s.digest with
      ⟨stats', digest⟩ | ⟨e, digest⟩
    · dsimp only
      constructor
      · intro h
        cases h
        exact ⟨stats, stats', rfl, hr⟩
      · rintro ⟨_, _, h1, h2⟩
        cases h1
        rw [hr] at h2
        cases h2
        rfl
    · refine iff_of_false (by simp) ?_
      rintro ⟨_, _, h1, h2⟩
      cases h1
      rw [hr] at h2
      cases h2

/-! ### The invariant -/

/-- What is stored for files, modules and project belongs to the files of the index. -/
structure Fresh (x : Extern) (s : Project) : Prop where
  files : ∀ f ∈ loadFiles s.db, ∃ text, stored s.digest (.file, f.path) = some (text, f.hash)
  modules : ∀ m, Settled (listHash x) (summarizeModule m) (stored s.digest (.module, m))
    (inModule (currentSummaries s) m)
  project : Settled (listHash x) summarizeProject (stored s.digest (.project, projectTarget))
    (some (currentSummaries s))

theorem get?_of_stored {k : Scope × Text} {v : Text × Text} (h : stored s.digest k = some v) :
    ∃ row, s.digest.summaries.get? k = some row ∧ row.summary = v.1 := by
  obtain ⟨row, hrow, rfl⟩ := Option.map_eq_some_iff.mp h
  exact ⟨row, hrow, rfl⟩

/-- The stored summary of a file of the index. -/
def storedSummary (s : Project) (f : FileRow) : FileSummary :=
  ⟨f.path, f.hash, ((stored s.digest (.file, f.path)).map Prod.fst).getD []⟩

theorem currentSummaries_eq (h : ∀ f ∈ loadFiles s.db, (stored s.digest (.file, f.path)).isSome) :
    currentSummaries s = (loadFiles s.db).map (storedSummary s) := by
  unfold currentSummaries
  rw [← List.filterMap_eq_map]
  refine List.filterMap_congr fun f hf => ?_
  obtain ⟨v, hv⟩ := Option.isSome_iff_exists.mp (h f hf)
  obtain ⟨row, hrow, hsum⟩ := get?_of_stored hv
  rw [hrow]
  simp [storedSummary, hv, hsum]

theorem Fresh.isSome_file (h : Fresh x s) : ∀ f ∈ loadFiles s.db, (stored s.digest (.file, f.path)).isSome := by
  intro f hf
  obtain ⟨text, ht⟩ := h.files f hf
  rw [ht]
  rfl

/-- **A fresh digest** has no stale summary. -/
theorem Fresh.current (h : Fresh x s) : Current s := by
  have hcur : currentSummaries s = (loadFiles s.db).map (storedSummary s) :=
    currentSummaries_eq h.isSome_file
  refine ⟨fun m row hrow => ?_, get?_of_stored h.project, fun m => ?_⟩
  · have hm := h.modules m
    unfold Settled stored at hm
    rw [hrow] at hm
    obtain ⟨l, hl, hv⟩ := Option.map_eq_some_iff.mp hm.symm
    rw [← (inModule_eq_some.mp hl).2]
    exact (Prod.mk.inj hv).1.symm
  · have hm : (s.digest.summaries.get? (.module, m)).isSome = (inModule (currentSummaries s) m).isSome := by
      have := congrArg Option.isSome (h.modules m)
      rwa [stored, Option.isSome_map, Option.isSome_map] at this
    rw [hm, hcur, Option.isSome_iff_exists]
    simp only [inModule_map (F := storedSummary s) fun _ => rfl]
    rw [exists_and_left, and_iff_left ⟨_, rfl⟩]
    simp [filesOf, List.filter_eq_nil_iff]

/-! ### A run -/

/-- Files that were there with the same hash keep their summary. -/
theorem summaryAfter_eq {disk : Disk} (h : Fresh x s) {f g : FileRow} (hf : f ∈ loadFiles s.db)
    (hp : f.path = g.path) (hh : f.hash = g.hash) :
    storedSummary s f = summaryAfter root disk scfg s.digest g := by
  obtain ⟨text, ht⟩ := h.files f hf
  unfold storedSummary summaryAfter refreshed
  rw [← hp, ht, refresh_of_eq hh, ← hh]
  rfl

/-- **A module that the aggregate does not tell apart** has the same summary. -/
theorem summarizeModule_eq {disk : Disk} {m : Text} (h : Fresh x s) (htold : Told (loadFiles s.db) files)
    (hh : (filesOf (loadFiles s.db) m).map FileRow.hash = (filesOf files m).map FileRow.hash) :
    summarizeModule m ((filesOf (loadFiles s.db) m).map (storedSummary s)) =
      summarizeModule m ((filesOf files m).map (summaryAfter root disk scfg s.digest)) := by
  have hlen : (filesOf (loadFiles s.db) m).length = (filesOf files m).length := by
    simpa using congrArg List.length hh
  refine summarizeModule_congr (by simpa using hlen) ?_
  rw [← List.map_take, ← List.map_take]
  refine map_eq_map (htold.modules m hh) (by rw [List.map_take, List.map_take, hh]) ?_
  intro f hf g _ hp hhash
  exact summaryAfter_eq h (List.mem_of_mem_filter (List.mem_of_mem_take hf)) hp hhash

theorem summarizeProject_eq {disk : Disk} (htold : Told (loadFiles s.db) files)
    (hh : (loadFiles s.db).map FileRow.hash = files.map FileRow.hash) :
    summarizeProject ((loadFiles s.db).map (storedSummary s)) =
      summarizeProject (files.map (summaryAfter root disk scfg s.digest)) :=
  summarizeProject_congr (fun _ => rfl) (fun _ => rfl) (by simpa using congrArg List.length hh)
    (htold.project hh)

/-- The source hash of files is the aggregate of their content hashes. -/
theorem listHash_map {F : FileRow → FileSummary} (hF : ∀ f, (F f).hash = f.hash) (files : List FileRow) :
    listHash x (files.map F) = aggregateHash x (files.map FileRow.hash) := by
  unfold listHash
  rw [List.map_map]
  congr 2
  funext f
  exact hF f

/-- Two lists of indexed files with one source hash have the same content hashes. -/
theorem hashes_eq (hx : HexDigests x) (hs : Snapshots x s.db) (hu : Snapshots x u.db)
    (hsha : Set.InjOn x.sha256Hex (aggregated (loadFiles s.db) ∪ aggregated (loadFiles u.db)))
    {F G : FileRow → FileSummary} (hF : ∀ f, (F f).hash = f.hash) (hG : ∀ f, (G f).hash = f.hash)
    (hf : files ⊆ loadFiles s.db) (hf' : files' ⊆ loadFiles u.db)
    (hT : join ['\n'] (files.map FileRow.hash) ∈ aggregated (loadFiles s.db))
    (hT' : join ['\n'] (files'.map FileRow.hash) ∈ aggregated (loadFiles u.db))
    (he : listHash x (files.map F) = listHash x (files'.map G)) :
    files.map FileRow.hash = files'.map FileRow.hash := by
  rw [listHash_map hF, listHash_map hG] at he
  refine hashes_of_aggregateHash hx hsha (fun t ht => ?_) (fun t ht => ?_) (Or.inl hT) (Or.inr hT') he
  · obtain ⟨f, hm, rfl⟩ := List.mem_map.mp ht
    exact hash_of_mem hs (hf hm)
  · obtain ⟨f, hm, rfl⟩ := List.mem_map.mp ht
    exact hash_of_mem hu (hf' hm)

/-- **One run** that the condition covers keeps the digest fresh. -/
theorem fresh_step (hx : HexDigests x) (hen : scfg.enabled = true) (hs : Snapshots x s.db)
    (h : Fresh x s ∨ s = .empty) (hreg : Regular x root cfg s a)
    (htold : Told (loadFiles s.db) (nextFiles x cfg s a)) (hstep : step x root dir cfg scfg s a = some u) :
    Snapshots x u.db ∧ Fresh x u := by
  obtain ⟨stats, stats', hindex, hsync⟩ := step_eq_some.mp hstep
  have hdb : runIndex x a.tree cfg a.now s.db = u.db := by
    unfold runIndex
    rw [hindex]
  have hnext : nextFiles x cfg s a = loadFiles u.db := by
    unfold nextFiles
    rw [hdb]
  obtain ⟨hread, hsha⟩ := hreg
  rw [hnext] at hread hsha htold
  have hu : Snapshots x u.db := hdb ▸ snapshots_run a.tree cfg a.now hs
  obtain ⟨hfiles, hmod, hproj⟩ :=
    syncProjectSummaries_ok hen (nodup_paths_loadFiles hu.wf) hread hsync
  have hcur : currentSummaries u = (loadFiles u.db).map (storedSummary u) :=
    currentSummaries_eq fun f hf => by
      rw [hfiles f hf]
      rfl
  have hcur' : currentSummaries u = summariesAfter root a.disk scfg s.digest (loadFiles u.db) := by
    rw [hcur]
    refine List.map_congr_left fun f hf => ?_
    unfold storedSummary summaryAfter
    rw [hfiles f hf]
    rfl
  refine ⟨hu, fun f hf => ⟨(refreshed root a.disk scfg s.digest f).1, ?_⟩, fun m => ?_, ?_⟩
  · have hsnd : (refreshed root a.disk scfg s.digest f).2 = f.hash := snd_refresh _ _
    rw [hfiles f hf, ← hsnd]
  · rw [hmod, hcur']
    rcases h with h | rfl
    · refine (settled_iff (h.modules m)).mpr fun l hl l' hl' he => ?_
      rw [currentSummaries_eq h.isSome_file, Option.mem_def, inModule_map fun _ => rfl] at hl
      rw [summariesAfter, Option.mem_def, inModule_map fun _ => rfl] at hl'
      obtain ⟨-, rfl⟩ := hl
      obtain ⟨-, rfl⟩ := hl'
      exact summarizeModule_eq h htold (hashes_eq hx hs hu hsha (fun _ => rfl) (fun _ => rfl)
        (List.filter_subset_self _) (List.filter_subset_self _) (Or.inr ⟨m, rfl⟩) (Or.inr ⟨m, rfl⟩) he)
    · exact (settled_iff (i := none) rfl).mpr (by simp)
  · rw [hproj, hcur']
    rcases h with h | rfl
    · refine (settled_iff (j := some _) h.project).mpr fun l hl l' hl' he => ?_
      obtain rfl := Option.some.inj hl
      obtain rfl := Option.some.inj hl'
      rw [currentSummaries_eq h.isSome_file] at he ⊢
      exact summarizeProject_eq htold (hashes_eq hx hs hu hsha (fun _ => rfl) (fun _ => rfl)
        (List.Subset.refl _) (List.Subset.refl _) (Or.inl rfl) (Or.inl rfl) he)
    · rfl

/-! ### Runs -/

/-- A run of this kind that keeps what the condition demands. -/
def Covered (x : Extern) (root : Text) (cfg : ProjectConfig) (s : Project) (a : Run) : Prop :=
  Regular x root cfg s a ∧ Told (loadFiles s.db) (nextFiles x cfg s a)

theorem snapshots_and_fresh (hx : HexDigests x) (hen : scfg.enabled = true)
    (h : Reaches (step x root dir cfg scfg) (Covered x root cfg) .empty s) :
    Snapshots x s.db ∧ (Fresh x s ∨ s = .empty) := by
  refine h.invariant (I := fun s => Snapshots x s.db ∧ (Fresh x s ∨ s = .empty))
    ⟨snapshots_empty, Or.inr rfl⟩ ?_
  rintro s a u ⟨hs, hf⟩ ⟨hreg, htold⟩ hstep
  obtain ⟨hu, hfu⟩ := fresh_step hx hen hs hf hreg htold hstep
  exact ⟨hu, Or.inl hfu⟩

/-- **No stale summary**: after every run of a sequence of covered runs, the summaries of modules and
project are those of the current files. -/
theorem current_of_reaches (hx : HexDigests x) (hen : scfg.enabled = true)
    (h : Reaches (step x root dir cfg scfg) (Covered x root cfg) .empty s) (hok : Covered x root cfg s a)
    (hstep : step x root dir cfg scfg s a = some u) : Current u := by
  obtain ⟨hs, hf⟩ := snapshots_and_fresh hx hen h
  exact (fresh_step hx hen hs hf hok.1 hok.2 hstep).2.current

/-- Runs between which files are only edited are covered. -/
theorem told_of_paths (h : files.map FileRow.path = files'.map FileRow.path) : Told files files' := by
  have hmod : ∀ (l : List FileRow) m, (filesOf l m).map FileRow.path =
      (l.map FileRow.path).filter fun p => moduleTarget p = m := by
    intro l m
    rw [List.filter_map]
    rfl
  have hout : ∀ l : List FileRow, counts (fun f : FileRow => moduleTarget f.path) l =
      counts moduleTarget (l.map FileRow.path) := fun l => (counts_map _ _ l).symm
  refine ⟨fun m _ => ?_, fun _ => ?_⟩
  · rw [List.map_take, List.map_take, hmod, hmod, h]
  · unfold outline
    rw [hout, hout, h]

/-- There is nothing to keep from an empty index. -/
theorem told_nil : Told [] files := by
  refine ⟨fun m h => ?_, fun h => ?_⟩
  · have hnil : filesOf files m = [] := List.map_eq_nil_iff.mp h.symm
    rw [hnil]
    rfl
  · rw [List.map_eq_nil_iff.mp h.symm]

/-! ### A file in the root directory -/

/-- SHA-256 of the texts that occur. -/
def hexes : List (String × String) := [
  ("", "e3b0c44298fc1c149afbf4c8996fb92427ae41e4649b934ca495991b7852b855"),
  ("a", "ca978112ca1bbdcafac231b39a23dc4da786eff8147c4e72b9807785afee48bb"),
  ("b", "3e23e8160039594a33894f6564e1b1348bbd7a0088d42c4acb73eeaed59c009d"),
  ("ca978112ca1bbdcafac231b39a23dc4da786eff8147c4e72b9807785afee48bb",
    "da3811154d59c4267077ddd8bb768fa9b06399c486e1fc00485116b57c9872f5"),
  ("3e23e8160039594a33894f6564e1b1348bbd7a0088d42c4acb73eeaed59c009d",
    "dba1de6de88c058e5e0922171e0bd97e79e20e9fc6c1d2737a91146765527305")]

def hex : Extern where
  __ := sample
  sha256Hex text := match hexes.find? fun d => d.1.toList = text with
    | some d => d.2.toList
    | none => List.replicate 64 '0'

theorem hexDigests_hex : HexDigests hex := by
  intro t
  dsimp only [hex]
  split
  · next d hd =>
    have hall : (hexes.all fun d =>
        d.2.toList.length = 64 && d.2.toList.all Char.isAlphanum) = true := by
      decide +kernel
    simpa using List.all_eq_true.mp hall d (List.mem_of_find?_eq_some hd)
  · exact ⟨List.length_replicate, by rw [List.all_replicate]; decide⟩

/-- A run over a directory with one file. -/
def runOf (name : String) (mtime : ℕ) (content : String) : Run where
  tree := treeOf [(name, mtime, ascii content)]
  disk := {
    read := fun path => if path = "/p/".toList ++ name.toList then .ok (ascii content) else .error .notFound
    createDirError := fun _ => none
    writeError := fun _ => none }
  now := mtime
  syncNow := mtime

/-- A run in `/p`. -/
abbrev stepHere : Project → Run → Option Project :=
  step hex "/p".toList "/p/.brain/summaries".toList {} {}

/-- The project after a run. -/
def next (s : Project) (a : Run) : Project := (stepHere s a).getD s

theorem step_next (h : (stepHere s a).isSome) : stepHere s a = some (next s a) := by
  obtain ⟨u, hu⟩ := Option.isSome_iff_exists.mp h
  rw [next, hu]
  rfl

def once : Project := next .empty (runOf "a.txt" 1 "a")

/-- The file is edited. -/
def edited : Project := next once (runOf "a.txt" 2 "b")

/-- The file is renamed. -/
def renamed : Project := next once (runOf "c.txt" 1 "a")

def rowOf (name content : String) : FileRow := ⟨name.toList, hex.sha256Hex content.toList, none⟩

theorem aggregated_nil : aggregated [] ⊆ {[]} := by
  rintro t (rfl | ⟨m, rfl⟩)
  · rfl
  · rfl

theorem aggregated_singleton (f : FileRow) : aggregated [f] ⊆ {[], f.hash} := by
  rintro t (rfl | ⟨m, rfl⟩)
  · exact Or.inr (by simp [join])
  · unfold filesOf
    by_cases h : moduleTarget f.path = m
    · exact Or.inr (by simp [join, h])
    · exact Or.inl (by simp [join, h])

/-- What is aggregated in these runs. -/
def texts : List Text := [[], hex.sha256Hex "a".toList, hex.sha256Hex "b".toList]

theorem injOn_hex : Set.InjOn hex.sha256Hex {t | t ∈ texts} := by
  have hd : ∀ s ∈ texts, ∀ t ∈ texts, hex.sha256Hex s = hex.sha256Hex t → s = t := by decide +kernel
  exact fun s hs t ht => hd s hs t ht

theorem regular_runOf {name content : String} {mtime : ℕ} (hs : aggregated (loadFiles s.db) ⊆ {t | t ∈ texts})
    (hn : nextFiles hex {} s (runOf name mtime content) = [rowOf name content])
    (hc : hex.sha256Hex content.toList ∈ texts)
    (hr : readToString (runOf name mtime content).disk ("/p".toList ++ '/' :: name.toList) =
      .ok content.toList) :
    Regular hex "/p".toList {} s (runOf name mtime content) := by
  refine ⟨fun f hf => ?_, injOn_hex.mono (Set.union_subset hs ?_)⟩
  · rw [hn, List.mem_singleton] at hf
    subst hf
    exact ⟨_, hr⟩
  · rw [hn]
    refine (aggregated_singleton _).trans ?_
    rintro t (rfl | rfl)
    · exact List.mem_cons_self
    · exact hc

/-- What the runs do: all of them return, the index has these files, and the summary of the module after the
renaming is not that of its files. -/
theorem runs_spec :
    ((stepHere .empty (runOf "a.txt" 1 "a")).isSome ∧ (stepHere once (runOf "a.txt" 2 "b")).isSome ∧
      (stepHere once (runOf "c.txt" 1 "a")).isSome) ∧
    (nextFiles hex {} .empty (runOf "a.txt" 1 "a") = [rowOf "a.txt" "a"] ∧
      loadFiles once.db = [rowOf "a.txt" "a"] ∧
      nextFiles hex {} once (runOf "a.txt" 2 "b") = [rowOf "a.txt" "b"] ∧
      nextFiles hex {} once (runOf "c.txt" 1 "a") = [rowOf "c.txt" "a"]) ∧
    ((renamed.digest.summaries.get? (.module, ['.'])).any fun row =>
      row.summary ≠ summarizeModule ['.'] ((currentSummaries renamed).filter fun f =>
        moduleTarget f.path = ['.'])) = true := by
  decide +kernel

theorem aggregated_once : aggregated (loadFiles once.db) ⊆ {t | t ∈ texts} := by
  rw [runs_spec.2.1.2.1]
  refine (aggregated_singleton _).trans ?_
  rintro t (rfl | rfl)
  · exact List.mem_cons_self
  · exact List.mem_cons_of_mem _ List.mem_cons_self

theorem covered_once : Covered hex "/p".toList {} .empty (runOf "a.txt" 1 "a") := by
  refine ⟨regular_runOf (aggregated_nil.trans ?_) runs_spec.2.1.1 (by simp [texts]) rfl, told_nil⟩
  rintro t rfl
  exact List.mem_cons_self

theorem covered_edited : Covered hex "/p".toList {} once (runOf "a.txt" 2 "b") := by
  refine ⟨regular_runOf aggregated_once runs_spec.2.1.2.2.1 (by simp [texts]) rfl, ?_⟩
  rw [runs_spec.2.1.2.2.1, runs_spec.2.1.2.1]
  exact told_of_paths (by simp [rowOf])

theorem current_edited : Current edited :=
  current_of_reaches hexDigests_hex rfl (.next _ .refl covered_once (step_next runs_spec.1.1))
    covered_edited (step_next runs_spec.1.2.1)

/-- A renamed file: the module's summary names the old path. -/
theorem not_current : ¬ ∀ (x : Extern) (root dir : Text) (cfg : ProjectConfig) (scfg : SummariesConfig)
    (s : Project) (a : Run) (u : Project), HexDigests x → scfg.enabled = true →
    Reaches (step x root dir cfg scfg) (Regular x root cfg) .empty s → Regular x root cfg s a →
    step x root dir cfg scfg s a = some u → Current u := by
  intro h
  have hreg : Regular hex "/p".toList {} once (runOf "c.txt" 1 "a") :=
    regular_runOf aggregated_once runs_spec.2.1.2.2.2 (by simp [texts]) rfl
  have hc := h hex "/p".toList _ {} {} once _ renamed hexDigests_hex rfl
    (.next _ .refl covered_once.1 (step_next runs_spec.1.1)) hreg (step_next runs_spec.1.2.2)
  obtain ⟨row, hrow, hstale⟩ := (Option.any_eq_true _ _).mp runs_spec.2.2
  exact of_decide_eq_true hstale (hc.modules _ row hrow)

end BrainEngine.Summaries.Stale
