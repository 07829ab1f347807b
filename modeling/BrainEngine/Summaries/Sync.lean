import BrainEngine.Lib.Effects
import BrainEngine.Lib.Memo
import BrainEngine.Core.Summarize

/-! # What a synchronization leaves in the table

`stored` is the summary under a key with its source hash. A synchronization that returns has refreshed
what is stored for each file, each module and the project, and dropped what is stored for files and
modules that are gone. -/

namespace BrainEngine.Summaries.Sync

open BrainEngine.Rust.Str BrainEngine.Lib.Keyed BrainEngine.Lib.Sorted BrainEngine.Lib.Effects
open BrainEngine.Lib.Memo BrainEngine.Core.External BrainEngine.Core.Summarize

/-- The summary and the source hash under a key. -/
def stored (s : Digest) (k : Scope × Text) : Option (Text × Text) :=
  (s.summaries.get? k).map fun r => (r.summary, r.sourceHash)

variable {x : Extern} {root dir : Text} {disk : Disk} {cfg : SummariesConfig} {now : ℕ}
variable {s s' : Digest} {scope : Scope} {target summary sourceHash : Text} {k : Scope × Text}

/-! ### Single calls -/

theorem readSummary_ok {o : Option Text} : readSummary scope target s = .ok o s' ↔
    (stored s (scope, target)).map Prod.fst = o ∧ s = s' := by
  simp only [readSummary, stored, bind_ok, get_ok, pure_ok, Option.map_map]
  constructor
  · rintro ⟨-, t, ⟨rfl, rfl⟩, rfl, rfl⟩; exact ⟨rfl, rfl⟩
  · rintro ⟨rfl, rfl⟩; exact ⟨s, s, ⟨rfl, rfl⟩, rfl, rfl⟩

theorem sourceHashFor_ok {o : Option Text} : sourceHashFor scope target s = .ok o s' ↔
    (stored s (scope, target)).map Prod.snd = o ∧ s = s' := by
  simp only [sourceHashFor, stored, bind_ok, get_ok, pure_ok, Option.map_map]
  constructor
  · rintro ⟨-, t, ⟨rfl, rfl⟩, rfl, rfl⟩; exact ⟨rfl, rfl⟩
  · rintro ⟨rfl, rfl⟩; exact ⟨s, s, ⟨rfl, rfl⟩, rfl, rfl⟩

theorem createDirAll_ok {path : Text} {u : Unit} (h : createDirAll disk path s = .ok u s') : s' = s := by
  unfold createDirAll at h
  cases he : disk.createDirError path with
  | some e => rw [he] at h; exact absurd h throw_ok
  | none => rw [he] at h; exact (pure_ok.mp h).2.symm

theorem writeSummaryMirror_ok {u : Unit}
    (h : writeSummaryMirror disk dir scope target summary s = .ok u s') : s'.summaries = s.summaries := by
  unfold writeSummaryMirror at h
  obtain ⟨v, t, h1, h⟩ := bind_ok.mp h
  rw [← createDirAll_ok h1]
  cases he : disk.writeError (mirrorPath dir scope target) with
  | some e => rw [he] at h; exact absurd h throw_ok
  | none => rw [he] at h; rw [← modify_ok.mp h]

theorem writeSummary_ok {u : Unit}
    (h : writeSummary dir disk now scope target summary sourceHash s = .ok u s') (k : Scope × Text) :
    stored s' k = if k = (scope, target) then some (summary, sourceHash) else stored s k := by
  unfold writeSummary at h
  obtain ⟨v, t, h1, h2⟩ := bind_ok.mp h
  unfold stored
  rw [writeSummaryMirror_ok h2, ← modify_ok.mp h1, KeyTable.get?_upsert]
  split_ifs with hk
  · rfl
  · rfl

theorem deleteStale_ok {valid : List Text} {n : ℕ}
    (h : deleteStaleScopedSummaries scope valid s = .ok n s') (k : Scope × Text) :
    stored s' k = if k.1 = scope ∧ k.2 ∉ valid then none else stored s k := by
  unfold deleteStaleScopedSummaries at h
  obtain ⟨v, t, h1, h⟩ := bind_ok.mp h
  obtain ⟨rfl, rfl⟩ := get_ok.mp h1
  obtain ⟨u, t, h2, h⟩ := bind_ok.mp h
  obtain ⟨-, rfl⟩ := pure_ok.mp h
  rw [← set_ok.mp h2]
  unfold stored
  rw [KeyTable.get?_deleteWhere]
  cases s.summaries.get? k with
  | none => simp
  | some r =>
    by_cases hk : k.1 = scope ∧ k.2 ∉ valid
    · rw [if_pos hk]
      simp [hk.1, hk.2]
    · have hb : (decide (k.1 = scope) && !valid.contains k.2) = false := by
        rw [Bool.eq_false_iff]
        simpa using hk
      rw [if_neg hk, Option.filter_some, hb]
      rfl

/-! ### Rounds -/

/-- **A derived summary** is refreshed. -/
theorem syncDerived_ok {ι : Type} (fp gen : ι → Text) {i : ι} {b : Bool}
    (h : syncDerived dir disk now scope target (fp i) (gen i) s = .ok b s') (k : Scope × Text) :
    stored s' k = if k = (scope, target) then some (refresh fp gen (stored s k) i) else stored s k := by
  unfold syncDerived at h
  obtain ⟨o, t, h1, h⟩ := bind_ok.mp h
  obtain ⟨rfl, rfl⟩ := sourceHashFor_ok.mp h1
  split_ifs at h with he
  · -- the source hash is the one in the table
    obtain ⟨-, rfl⟩ := pure_ok.mp h
    split_ifs with hk
    · subst hk
      obtain ⟨v, hv, hf⟩ := Option.map_eq_some_iff.mp he
      rw [hv, refresh, if_pos hf]
    · rfl
  · obtain ⟨u, t, h2, h⟩ := bind_ok.mp h
    obtain ⟨-, rfl⟩ := pure_ok.mp h
    rw [writeSummary_ok h2]
    split_ifs with hk
    · subst hk
      unfold refresh
      cases hv : stored s (scope, target) with
      | none => rfl
      | some v =>
        rw [hv] at he
        have hf : v.2 ≠ fp i := fun hf => he (by simp [hf])
        simp [hf, ideal]
    · rfl

/-- The summary of a file as it is on disk. -/
def generated (root : Text) (disk : Disk) (cfg : SummariesConfig) (file : FileRow) : Text :=
  match readToString disk (root ++ '/' :: file.path) with
  | .ok content => summarizeFile file.path content file.lang cfg
  | .error _ => []

/-- The file is on disk and readable. -/
def Readable (root : Text) (disk : Disk) (file : FileRow) : Prop :=
  ∃ content, readToString disk (root ++ '/' :: file.path) = .ok content

/-- The file is not on disk. -/
def Missing (root : Text) (disk : Disk) (file : FileRow) : Prop :=
  readToString disk (root ++ '/' :: file.path) = .error .notFound

/-- What is stored for a file once its round is over; a file that is not on disk keeps what was. -/
def fileAfter (root : Text) (disk : Disk) (cfg : SummariesConfig) (file : FileRow)
    (o : Option (Text × Text)) : Option (Text × Text) :=
  match readToString disk (root ++ '/' :: file.path) with
  | .error .notFound => o
  | _ => some (refresh FileRow.hash (generated root disk cfg) o file)

/-- What is stored for a file, if it belongs to the file's content. -/
def upToDate (file : FileRow) (o : Option (Text × Text)) : Option (Text × Text) :=
  o.filter fun v => v.2 = file.hash

/-- The summary of a file that takes part in those of its module and of the project. -/
def summaryOf (file : FileRow) (o : Option (Text × Text)) : Option FileSummary :=
  (upToDate file o).map fun v => ⟨file.path, file.hash, v.1⟩

theorem upToDate_eq_some {file : FileRow} {o : Option (Text × Text)} {v : Text × Text} :
    upToDate file o = some v ↔ o = some v ∧ v.2 = file.hash := by
  unfold upToDate
  rw [Option.filter_eq_some_iff, decide_eq_true_eq]

/-- Without an up-to-date summary there is a new one. -/
theorem refresh_of_upToDate {gen : FileRow → Text} {file : FileRow} {o : Option (Text × Text)}
    (h : upToDate file o = none) : refresh FileRow.hash gen o file = (gen file, file.hash) := by
  unfold refresh
  cases o with
  | none => rfl
  | some v =>
    have hne : v.2 ≠ file.hash := by
      intro he
      rw [upToDate_eq_some.mpr ⟨rfl, he⟩] at h
      cases h
    exact if_neg hne

/-- **An up-to-date summary** stays. -/
theorem fileAfter_of_upToDate {file : FileRow} {o : Option (Text × Text)} {v : Text × Text}
    (h : upToDate file o = some v) : fileAfter root disk cfg file o = some v := by
  obtain ⟨rfl, hv⟩ := upToDate_eq_some.mp h
  unfold fileAfter
  split
  · rfl
  · rw [refresh_of_eq hv]

theorem fileAfter_of_missing {file : FileRow} (h : Missing root disk file) (o : Option (Text × Text)) :
    fileAfter root disk cfg file o = o := by
  unfold fileAfter
  rw [h]

theorem fileAfter_of_readable {file : FileRow} (h : Readable root disk file)
    (o : Option (Text × Text)) :
    fileAfter root disk cfg file o = some (refresh FileRow.hash (generated root disk cfg) o file) := by
  obtain ⟨content, hc⟩ := h
  unfold fileAfter
  rw [hc]

/-- The summary that is kept is the one that is up to date. -/
theorem keptSummary_ok {existing : Scope × Text → Option Text} {file : FileRow} {kept : Option Text}
    (hex : existing (.file, file.path) = (stored s (.file, file.path)).map Prod.snd) :
    keptSummary existing file s = .ok kept s' ↔
      (upToDate file (stored s (.file, file.path))).map Prod.fst = kept ∧ s = s' := by
  unfold keptSummary
  rw [hex]
  cases hv : stored s (.file, file.path) with
  | none =>
    rw [if_neg (by simp)]
    exact pure_ok
  | some v =>
    by_cases hf : v.2 = file.hash
    · rw [if_pos (by simp [hf]), readSummary_ok, hv, upToDate_eq_some.mpr ⟨rfl, hf⟩]
    · have hnone : upToDate file (some v) = none := Option.filter_some_neg (by simpa using hf)
      rw [if_neg (by simpa using hf), hnone]
      exact pure_ok

/-- **A file's round**, if the source hash that was loaded is the one in the table. -/
theorem syncFile_ok {existing : Scope × Text → Option Text} {file : FileRow}
    {o : Option (FileSummary × Bool)}
    (hex : existing (.file, file.path) = (stored s (.file, file.path)).map Prod.snd)
    (h : syncFile root dir disk cfg now existing file s = .ok o s') :
    o.map Prod.fst =
        summaryOf file (fileAfter root disk cfg file (stored s (.file, file.path))) ∧
      ∀ k, stored s' k = if k = (.file, file.path) then
        fileAfter root disk cfg file (stored s (.file, file.path)) else stored s k := by
  unfold syncFile at h
  obtain ⟨kept, t, h1, h⟩ := bind_ok.mp h
  obtain ⟨hkept, rfl⟩ := (keptSummary_ok hex).mp h1
  cases hup : upToDate file (stored s (.file, file.path)) with
  | some v =>
    rw [hup] at hkept
    subst hkept
    obtain ⟨rfl, rfl⟩ := pure_ok.mp h
    rw [fileAfter_of_upToDate hup]
    obtain ⟨hs, hv⟩ := upToDate_eq_some.mp hup
    refine ⟨?_, fun k => ?_⟩
    · unfold summaryOf
      rw [upToDate_eq_some.mpr ⟨rfl, hv⟩]
      rfl
    · split_ifs with hk
      · rw [hk, hs]
      · rfl
  | none =>
    rw [hup] at hkept
    subst hkept
    dsimp only [Option.map_none] at h
    rcases hr : readToString disk (root ++ '/' :: file.path) with (_ | e) | content
    · rw [hr] at h
      obtain ⟨rfl, rfl⟩ := pure_ok.mp h
      rw [fileAfter_of_missing hr]
      refine ⟨?_, fun k => ?_⟩
      · unfold summaryOf
        rw [hup]
        rfl
      · split_ifs with hk
        · rw [hk]
        · rfl
    · rw [hr] at h
      exact absurd h throw_ok
    · rw [hr] at h
      obtain ⟨u, t, h2, h⟩ := bind_ok.mp h
      obtain ⟨rfl, rfl⟩ := pure_ok.mp h
      have hg : generated root disk cfg file = summarizeFile file.path content file.lang cfg := by
        unfold generated
        rw [hr]
      rw [fileAfter_of_readable ⟨content, hr⟩, refresh_of_upToDate hup, hg]
      refine ⟨?_, writeSummary_ok h2⟩
      unfold summaryOf
      rw [upToDate_eq_some.mpr ⟨rfl, rfl⟩]
      rfl

/-! ### Loops -/

/-- The summaries of the files that have one, from what is stored. -/
def fileSummaries (files : List FileRow) (V : Scope × Text → Option (Text × Text)) : List FileSummary :=
  files.filterMap fun f => summaryOf f (V (.file, f.path))

/-- **The loop over the files.** -/
theorem syncFiles_ok {existing : Scope × Text → Option Text} {files : List FileRow}
    {rounds : List (Option (FileSummary × Bool))} (hn : (files.map FileRow.path).Nodup)
    (hex : ∀ f ∈ files, existing (.file, f.path) = (stored s (.file, f.path)).map Prod.snd)
    (h : files.mapM (syncFile root dir disk cfg now existing) s = .ok rounds s') :
    rounds.reduceOption.map Prod.fst = fileSummaries files (stored s') ∧
      (∀ f ∈ files, stored s' (.file, f.path) =
        fileAfter root disk cfg f (stored s (.file, f.path))) ∧
      ∀ k, k ∉ files.map (fun f => (Scope.file, f.path)) → stored s' k = stored s k := by
  have hn' : (files.map fun f => (Scope.file, f.path)).Nodup := by
    have h := hn.map (f := fun p => (Scope.file, p)) fun p q h => (Prod.mk.inj h).2
    rwa [List.map_map] at h
  obtain ⟨hQ, hdone, hrest⟩ := mapM_update (V := stored) (U := fileAfter root disk cfg)
    (Q := fun f o => o.map Prod.fst =
      summaryOf f (fileAfter root disk cfg f (stored s (.file, f.path)))) h hn' (by
      intro f hf t b t' hview hround
      have hex' := hex f hf
      rw [← hview] at hex'
      obtain ⟨h1, h2⟩ := syncFile_ok hex' hround
      refine ⟨?_, fun k => ?_⟩
      · rw [h1, hview]
      · rw [h2]
        split_ifs with hk
        · rw [hk]
        · rfl)
  refine ⟨?_, hdone, hrest⟩
  have hsum : fileSummaries files (stored s') = files.filterMap fun f =>
      summaryOf f (fileAfter root disk cfg f (stored s (.file, f.path))) := by
    refine List.filterMap_congr fun f hf => ?_
    rw [hdone f hf]
  rw [hsum]
  clear h hn hex hn' hdone hrest hsum
  induction hQ with
  | nil => rfl
  | @cons f o files rounds h _ ih =>
    rw [List.filterMap_cons, ← h]
    cases o with
    | none => exact ih
    | some v =>
      rw [List.reduceOption_cons_of_some, List.map_cons, ih]
      rfl

/-- The source hash of a list of files. -/
def listHash (x : Extern) (files : List FileSummary) : Text :=
  aggregateHash x (files.map FileSummary.hash)

/-- The files of a module, if it has any. -/
def inModule (files : List FileSummary) (m : Text) : Option (List FileSummary) := (byModule files).get? m

theorem inModule_eq_some {files g : List FileSummary} {m : Text} : inModule files m = some g ↔
    g ≠ [] ∧ g = files.filter fun f => moduleTarget f.path = m := by
  unfold inModule byModule
  rw [← SortedMap.mem_entries, mem_groups]
  congr!

/-- **A module's round**: its summary is refreshed. -/
theorem syncModule_ok {m : Text} {files : List FileSummary} {b : Bool}
    (hs : files.Pairwise fun a b => a.path ≤ b.path)
    (h : syncModule x dir disk now (m, files) s = .ok b s') (k : Scope × Text) :
    stored s' k = if k = (.module, m) then
      some (refresh (listHash x) (summarizeModule m) (stored s k) files) else stored s k := by
  unfold syncModule at h
  dsimp only at h
  rw [hs.insertionSort_eq] at h
  exact syncDerived_ok (listHash x) (summarizeModule m) h k

/-- **The loop over the modules**: what is stored for each module is refreshed, and dropped if the
module has no files. -/
theorem syncModuleSummaries_ok {files : List FileSummary} {n : ℕ}
    (hs : files.Pairwise fun a b => a.path ≤ b.path)
    (h : syncModuleSummaries x dir disk now files s = .ok n s') :
    (∀ m, stored s' (.module, m) =
      (inModule files m).map (refresh (listHash x) (summarizeModule m) (stored s (.module, m)))) ∧
      ∀ k, k.1 ≠ .module → stored s' k = stored s k := by
  unfold syncModuleSummaries at h
  obtain ⟨n', t, h1, h⟩ := bind_ok.mp h
  obtain ⟨written, t', h2, h⟩ := bind_ok.mp h
  obtain ⟨-, rfl⟩ := pure_ok.mp h
  have hsorted : ∀ a ∈ (byModule files).entries,
      a.2.Pairwise fun a b => a.path ≤ b.path := by
    rintro ⟨m, g⟩ ha
    obtain ⟨-, rfl⟩ := mem_groups.mp ha
    exact hs.sublist List.filter_sublist
  have hn := (byModule files).nodup_keys
  have hn' : ((byModule files).entries.map fun a => (Scope.module, a.1)).Nodup := by
    have h := hn.map (f := fun p => (Scope.module, p)) fun p q h => (Prod.mk.inj h).2
    rwa [List.map_map] at h
  obtain ⟨-, hdone, hrest⟩ := mapM_update (V := stored) (Q := fun _ _ => True) (U := fun a o =>
    some (refresh (listHash x) (summarizeModule a.1) o a.2)) h2 hn' (by
      intro a ha t b t' _ hround
      have hm := syncModule_ok (hsorted a ha) hround
      refine ⟨trivial, fun k => ?_⟩
      rw [hm k])
  refine ⟨fun m => ?_, fun k hk => ?_⟩
  · cases hg : inModule files m with
    | none =>
      have hm : m ∉ (byModule files).entries.map Prod.fst := by
        intro hm
        obtain ⟨⟨m', g⟩, ha, rfl⟩ := List.mem_map.mp hm
        rw [SortedMap.mem_entries] at ha
        exact absurd (hg.symm.trans ha) (by simp)
      rw [hrest _ (by simpa using hm), deleteStale_ok h1, if_pos ⟨rfl, hm⟩]
      rfl
    | some g =>
      have ha := SortedMap.mem_entries.mpr hg
      rw [hdone _ ha, deleteStale_ok h1, if_neg (by simpa using ⟨g, ha⟩)]
      rfl
  · rw [hrest k (by rintro h; obtain ⟨a, -, rfl⟩ := List.mem_map.mp h; exact hk rfl), deleteStale_ok h1,
      if_neg fun h => hk h.1]

/-! ### The whole synchronization -/

theorem pairwise_loadFiles (db : Core.Database.Db) :
    (loadFiles db).Pairwise fun a b => a.path ≤ b.path := by
  have : Std.Total fun a b : FileRow => a.path ≤ b.path := ⟨fun a b => le_total a.path b.path⟩
  have : IsTrans FileRow fun a b => a.path ≤ b.path := ⟨fun _ _ _ => le_trans⟩
  exact List.pairwise_insertionSort _ _

theorem path_of_mem_summaryOf {file : FileRow} {o : Option (Text × Text)} {v : FileSummary}
    (h : summaryOf file o = some v) : v.path = file.path ∧ v.hash = file.hash := by
  obtain ⟨w, -, rfl⟩ := Option.map_eq_some_iff.mp h
  exact ⟨rfl, rfl⟩

theorem pairwise_fileSummaries (db : Core.Database.Db) (V : Scope × Text → Option (Text × Text)) :
    (fileSummaries (loadFiles db) V).Pairwise fun a b => a.path ≤ b.path := by
  refine (pairwise_loadFiles db).filterMap _ fun f g hle a ha b hb => ?_
  rw [(path_of_mem_summaryOf ha).1, (path_of_mem_summaryOf hb).1]
  exact hle

/-- **A synchronization**: what is stored for files, modules and project, and nothing for other files. -/
theorem syncProjectSummaries_stored {db : Core.Database.Db} {stats : SummaryStats}
    (hen : cfg.enabled = true) (hn : ((loadFiles db).map FileRow.path).Nodup)
    (h : syncProjectSummaries x root dir disk cfg now db s = .ok stats s') :
    (∀ f ∈ loadFiles db, stored s' (.file, f.path) =
      fileAfter root disk cfg f (stored s (.file, f.path))) ∧
      (∀ p, p ∉ (loadFiles db).map FileRow.path → stored s' (.file, p) = none) ∧
      (∀ m, stored s' (.module, m) = (inModule (fileSummaries (loadFiles db) (stored s')) m).map
        (refresh (listHash x) (summarizeModule m) (stored s (.module, m)))) ∧
      stored s' (.project, projectTarget) = some (refresh (listHash x) summarizeProject
        (stored s (.project, projectTarget)) (fileSummaries (loadFiles db) (stored s'))) := by
  unfold syncProjectSummaries at h
  rw [hen] at h
  obtain ⟨u, t0, h0, h⟩ := bind_ok.mp h
  rw [createDirAll_ok h0] at h
  obtain ⟨v, t1, h1, h⟩ := bind_ok.mp h
  obtain ⟨rfl, rfl⟩ := get_ok.mp h1
  obtain ⟨removed, t2, h2, h⟩ := bind_ok.mp h
  obtain ⟨rounds, t3, h3, h⟩ := bind_ok.mp h
  obtain ⟨modules, t4, h4, h⟩ := bind_ok.mp h
  obtain ⟨project, t5, h5, h⟩ := bind_ok.mp h
  obtain ⟨-, rfl⟩ := pure_ok.mp h
  -- no stale file is one of those in the table `files`
  have hold : ∀ f ∈ loadFiles db, stored t2 (.file, f.path) = stored s (.file, f.path) := by
    intro f hf
    rw [deleteStale_ok h2, if_neg fun h => h.2 (List.mem_map_of_mem hf)]
  have hother : ∀ k : Scope × Text, k.1 ≠ .file → stored t2 k = stored s k := by
    intro k hk
    rw [deleteStale_ok h2, if_neg fun h => hk h.1]
  obtain ⟨hsum, hfiles, hrest⟩ := syncFiles_ok hn (fun f hf => by
    rw [hold f hf]
    simp [loadExistingSummaries, stored, Function.comp_def]) h3
  have hnot : ∀ k : Scope × Text, k.1 ≠ .file → stored t3 k = stored s k := by
    intro k hk
    rw [hrest k fun h => ?_, hother k hk]
    obtain ⟨f, -, rfl⟩ := List.mem_map.mp h
    exact hk rfl
  rw [hsum] at h4 h5
  obtain ⟨hmod, hmrest⟩ := syncModuleSummaries_ok (pairwise_fileSummaries _ _) h4
  have hproj := syncDerived_ok (listHash x) summarizeProject h5
  -- modules and project leave the files alone
  have hfile : ∀ p, stored t5 (.file, p) = stored t3 (.file, p) := by
    intro p
    rw [hproj, if_neg (by simp), hmrest _ (by simp)]
  have hsame : fileSummaries (loadFiles db) (stored t5) = fileSummaries (loadFiles db) (stored t3) := by
    refine List.filterMap_congr fun f _ => ?_
    rw [hfile]
  rw [hsame]
  refine ⟨fun f hf => ?_, fun p hp => ?_, fun m => ?_, ?_⟩
  · rw [hfile, hfiles f hf, hold f hf]
  · rw [hfile, hrest, deleteStale_ok h2, if_pos ⟨rfl, hp⟩]
    intro hk
    obtain ⟨f, hf, he⟩ := List.mem_map.mp hk
    exact hp (List.mem_map.mpr ⟨f, hf, (Prod.mk.inj he).2⟩)
  · rw [hproj, if_neg (by simp), hmod, hnot _ (by simp)]
  · rw [hproj, if_pos rfl, hmrest _ (by simp), hnot _ (by simp)]

/-! ### Readable files -/

/-- What is stored for a file once its round is over. -/
def refreshed (root : Text) (disk : Disk) (cfg : SummariesConfig) (s : Digest) (file : FileRow) :
    Text × Text :=
  refresh FileRow.hash (generated root disk cfg) (stored s (.file, file.path)) file

/-- What a file's summary is once its round is over. -/
def summaryAfter (root : Text) (disk : Disk) (cfg : SummariesConfig) (s : Digest) (file : FileRow) :
    FileSummary :=
  ⟨file.path, file.hash, (refreshed root disk cfg s file).1⟩

/-- What the files' summaries are in the end. -/
def summariesAfter (root : Text) (disk : Disk) (cfg : SummariesConfig) (s : Digest)
    (files : List FileRow) : List FileSummary := files.map (summaryAfter root disk cfg s)

/-- **A synchronization** of readable files refreshes what is stored for files, modules and project. -/
theorem syncProjectSummaries_ok {db : Core.Database.Db} {stats : SummaryStats} (hen : cfg.enabled = true)
    (hn : ((loadFiles db).map FileRow.path).Nodup) (hr : ∀ f ∈ loadFiles db, Readable root disk f)
    (h : syncProjectSummaries x root dir disk cfg now db s = .ok stats s') :
    (∀ f ∈ loadFiles db, stored s' (.file, f.path) = some (refreshed root disk cfg s f)) ∧
      (∀ m, stored s' (.module, m) =
        (inModule (summariesAfter root disk cfg s (loadFiles db)) m).map
          (refresh (listHash x) (summarizeModule m) (stored s (.module, m)))) ∧
      stored s' (.project, projectTarget) = some (refresh (listHash x) summarizeProject
        (stored s (.project, projectTarget)) (summariesAfter root disk cfg s (loadFiles db))) := by
  obtain ⟨hfiles, -, hmod, hproj⟩ := syncProjectSummaries_stored hen hn h
  have hfiles' : ∀ f ∈ loadFiles db, stored s' (.file, f.path) = some (refreshed root disk cfg s f) := by
    intro f hf
    rw [hfiles f hf, fileAfter_of_readable (hr f hf)]
    rfl
  have hsum : fileSummaries (loadFiles db) (stored s') =
      summariesAfter root disk cfg s (loadFiles db) := by
    unfold fileSummaries summariesAfter
    rw [← List.filterMap_eq_map]
    refine List.filterMap_congr fun f hf => ?_
    have hup : upToDate f (some (refreshed root disk cfg s f)) = some (refreshed root disk cfg s f) :=
      upToDate_eq_some.mpr ⟨rfl, snd_refresh _ _⟩
    unfold summaryOf
    rw [hfiles' f hf, hup]
    rfl
  rw [hsum] at hmod hproj
  exact ⟨hfiles', hmod, hproj⟩

end BrainEngine.Summaries.Sync
