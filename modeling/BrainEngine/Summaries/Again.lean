import BrainEngine.Summaries.Stale

/-! # Synchronizing twice

After a synchronization the digest is in step with the files: each has an up-to-date summary or is not
on disk, and modules and project have the source hashes of these summaries. A synchronization that finds
the digest in step does nothing. -/

namespace BrainEngine.Summaries.Again

open BrainEngine.Rust.Str BrainEngine.Lib.Keyed BrainEngine.Lib.Sorted BrainEngine.Lib.Effects
open BrainEngine.Lib.Memo BrainEngine.Core.External BrainEngine.Core.Summarize
open BrainEngine.Summaries.Sync BrainEngine.Summaries.Stale

/-- The digest is in step with the files. -/
structure InStep (x : Extern) (root : Text) (disk : Disk) (files : List FileRow) (s : Digest) : Prop where
  current : ∀ f ∈ files, (upToDate f (stored s (.file, f.path))).isSome ∨ Missing root disk f
  only : ∀ p, p ∉ files.map FileRow.path → stored s (.file, p) = none
  modules : ∀ m, (stored s (.module, m)).map Prod.snd =
    (inModule (fileSummaries files (stored s)) m).map (listHash x)
  project : (stored s (.project, projectTarget)).map Prod.snd =
    some (listHash x (fileSummaries files (stored s)))

variable {x : Extern} {root dir : Text} {disk : Disk} {cfg : SummariesConfig} {now : ℕ}
variable {s s' : Digest} {scope : Scope} {target summary sourceHash : Text} {files : List FileRow}
variable {db : Core.Database.Db} {stats : SummaryStats}

/-! ### After a synchronization -/

theorem isSome_upToDate_fileAfter (f : FileRow) (o : Option (Text × Text)) :
    (upToDate f (fileAfter root disk cfg f o)).isSome ∨ Missing root disk f := by
  have hnew : (upToDate f (some (refresh FileRow.hash (generated root disk cfg) o f))).isSome := by
    rw [upToDate_eq_some.mpr ⟨rfl, snd_refresh _ _⟩]
    rfl
  rcases hr : readToString disk (root ++ '/' :: f.path) with (_ | e) | content
  · exact Or.inr hr
  · left
    unfold fileAfter
    rw [hr]
    exact hnew
  · left
    unfold fileAfter
    rw [hr]
    exact hnew

/-- **A synchronization** brings the digest in step. -/
theorem inStep_of_sync (hen : cfg.enabled = true) (hn : ((loadFiles db).map FileRow.path).Nodup)
    (h : syncProjectSummaries x root dir disk cfg now db s = .ok stats s') :
    InStep x root disk (loadFiles db) s' := by
  obtain ⟨hfiles, honly, hmod, hproj⟩ := syncProjectSummaries_stored hen hn h
  refine ⟨fun f hf => ?_, honly, fun m => ?_, ?_⟩
  · rw [hfiles f hf]
    exact isSome_upToDate_fileAfter f _
  · rw [hmod, Option.map_map]
    congr 1
    funext l
    exact snd_refresh _ _
  · rw [hproj, Option.map_some, snd_refresh]

/-! ### In step -/

theorem createDirAll_again {path : Text} {u : Unit} {t : Digest}
    (h : createDirAll disk path s = .ok u t) : createDirAll disk path s' = .ok () s' := by
  unfold createDirAll at h ⊢
  cases he : disk.createDirError path with
  | some e => rw [he] at h; exact absurd h throw_ok
  | none => rfl

theorem deleteStale_same {valid : List Text}
    (h : ∀ target, target ∉ valid → stored s (scope, target) = none) :
    deleteStaleScopedSummaries scope valid s = .ok 0 s := by
  have hrows : ∀ a ∈ s.summaries.rows, a.1.1 = scope → a.1.2 ∈ valid := by
    rintro ⟨⟨sc, t⟩, r⟩ ha rfl
    by_contra ht
    have hnone := h t ht
    unfold stored at hnone
    rw [KeyTable.get?_eq_some.mpr ha] at hnone
    cases hnone
  have hstale : s.summaries.rows.filter (fun a => a.1.1 = scope && !valid.contains a.1.2) = [] :=
    List.filter_eq_nil_iff.mpr fun a ha => by simpa using hrows a ha
  have hkept : (s.summaries.deleteWhere fun k _ => k.1 = scope && !valid.contains k.2) = s.summaries := by
    have hfilter : s.summaries.rows.filter (fun a => !(a.1.1 = scope && !valid.contains a.1.2)) =
        s.summaries.rows := by
      refine List.filter_eq_self.mpr fun a ha => ?_
      by_cases hs : a.1.1 = scope
      · simp [hrows a ha hs]
      · simp [hs]
    unfold KeyTable.deleteWhere
    congr
  unfold deleteStaleScopedSummaries
  rw [get_bind, hstale, hkept]
  rfl

theorem syncDerived_same (h : (stored s (scope, target)).map Prod.snd = some sourceHash) :
    syncDerived dir disk now scope target sourceHash summary s = .ok false s := by
  unfold syncDerived
  refine bind_ok.mpr ⟨_, s, sourceHashFor_ok.mpr ⟨rfl, rfl⟩, ?_⟩
  rw [if_pos h]
  rfl

theorem syncFile_same {existing : Scope × Text → Option Text} {f : FileRow}
    (hf : (upToDate f (stored s (.file, f.path))).isSome ∨ Missing root disk f)
    (hex : existing (.file, f.path) = (stored s (.file, f.path)).map Prod.snd) :
    syncFile root dir disk cfg now existing f s =
      .ok ((summaryOf f (stored s (.file, f.path))).map fun v => (v, false)) s := by
  unfold syncFile summaryOf
  refine bind_ok.mpr ⟨_, s, (keptSummary_ok hex).mpr ⟨rfl, rfl⟩, ?_⟩
  cases hup : upToDate f (stored s (.file, f.path)) with
  | some v => rfl
  | none =>
    have hr := hf.resolve_left (by simp [hup])
    unfold Missing at hr
    dsimp only [Option.map_none]
    rw [hr]
    rfl

theorem syncModuleSummaries_same {l : List FileSummary} (hs : l.Pairwise fun a b => a.path ≤ b.path)
    (h : ∀ m, (stored s (.module, m)).map Prod.snd = (inModule l m).map (listHash x)) :
    syncModuleSummaries x dir disk now l s = .ok 0 s := by
  have hmodule : ∀ a ∈ (byModule l).entries, syncModule x dir disk now a s = .ok false s := by
    rintro ⟨m, g⟩ ha
    have hg : inModule l m = some g := SortedMap.mem_entries.mp ha
    have hsorted : g.Pairwise fun a b => a.path ≤ b.path := by
      obtain ⟨-, rfl⟩ := mem_groups.mp ha
      exact hs.sublist List.filter_sublist
    unfold syncModule
    dsimp only
    rw [hsorted.insertionSort_eq]
    refine syncDerived_same ?_
    rw [h, hg]
    rfl
  have hdelete : deleteStaleScopedSummaries .module ((byModule l).entries.map Prod.fst) s = .ok 0 s := by
    refine deleteStale_same fun m hm => ?_
    have hnone : inModule l m = none := by
      rw [Option.eq_none_iff_forall_ne_some]
      intro g hg
      exact hm (List.mem_map.mpr ⟨(m, g), SortedMap.mem_entries.mpr hg, rfl⟩)
    have hm' := h m
    rw [hnone] at hm'
    exact Option.map_eq_none_iff.mp hm'
  unfold syncModuleSummaries
  refine bind_ok.mpr ⟨0, s, hdelete, bind_ok.mpr ⟨_, s, mapM_stationary hmodule, ?_⟩⟩
  rw [List.map_const', List.count_replicate]
  rfl

theorem rounds_same (files : List FileRow) (V : Scope × Text → Option (Text × Text)) :
    ((files.map fun f => (summaryOf f (V (.file, f.path))).map fun v => (v, false)).reduceOption.map
        Prod.fst = fileSummaries files V) ∧
      ((files.map fun f => (summaryOf f (V (.file, f.path))).map fun v => (v, false)).reduceOption.map
        Prod.snd).count true = 0 := by
  unfold fileSummaries
  induction files with
  | nil => exact ⟨rfl, rfl⟩
  | cons f files ih =>
    rw [List.map_cons, List.filterMap_cons]
    cases summaryOf f (V (.file, f.path)) with
    | none => exact ih
    | some v =>
      obtain ⟨h1, h2⟩ := ih
      rw [Option.map_some, List.reduceOption_cons_of_some, List.map_cons, List.map_cons, h1]
      exact ⟨rfl, h2⟩

/-- **A synchronization in step** does nothing. -/
theorem sync_of_inStep {u : Unit} {t t' : Digest} (hen : cfg.enabled = true)
    (hdir : createDirAll disk dir t = .ok u t') (h : InStep x root disk (loadFiles db) s) :
    syncProjectSummaries x root dir disk cfg now db s =
      .ok { filesSeen := (loadFiles db).length } s := by
  have hround : ∀ f ∈ loadFiles db,
      syncFile root dir disk cfg now (loadExistingSummaries s.summaries) f s =
        .ok ((summaryOf f (stored s (.file, f.path))).map fun v => (v, false)) s := by
    intro f hf
    refine syncFile_same (h.current f hf) ?_
    simp [loadExistingSummaries, stored, Function.comp_def]
  have hdelete : deleteStaleFileSummaries ((loadFiles db).map FileRow.path) s = .ok 0 s :=
    deleteStale_same h.only
  obtain ⟨hfst, hsnd⟩ := rounds_same (loadFiles db) (stored s)
  have hmodules : syncModuleSummaries x dir disk now (fileSummaries (loadFiles db) (stored s)) s =
      .ok 0 s := syncModuleSummaries_same (pairwise_fileSummaries db (stored s)) h.modules
  have hproject : syncProjectSummary x dir disk now (fileSummaries (loadFiles db) (stored s)) s =
      .ok false s := syncDerived_same h.project
  unfold syncProjectSummaries
  rw [hen]
  refine bind_ok.mpr ⟨(), s, createDirAll_again hdir, bind_ok.mpr ⟨s, s, rfl, bind_ok.mpr
    ⟨0, s, hdelete, bind_ok.mpr ⟨_, s, mapM_stationary hround, ?_⟩⟩⟩⟩
  rw [hfst, hsnd]
  exact bind_ok.mpr ⟨0, s, hmodules, bind_ok.mpr ⟨false, s, hproject, rfl⟩⟩

/-- **Synchronizing twice.** Whatever the digest and the disk: after a synchronization that returns, a
second one leaves the table and the mirror as they are and reports that nothing was written or
removed. -/
theorem sync_again (hen : cfg.enabled = true) (hn : ((loadFiles db).map FileRow.path).Nodup)
    (h : syncProjectSummaries x root dir disk cfg now db s = .ok stats s') (later : ℕ) :
    syncProjectSummaries x root dir disk cfg later db s' =
      .ok { filesSeen := (loadFiles db).length } s' := by
  have hin := inStep_of_sync hen hn h
  unfold syncProjectSummaries at h
  rw [hen] at h
  obtain ⟨u, t, hdir, -⟩ := bind_ok.mp h
  exact sync_of_inStep hen hdir hin

/-- A renamed file, whose old summary is stale. -/
theorem sync_renamed : ∃ stats s',
    syncProjectSummaries hex "/p".toList "/p/.brain/summaries".toList (runOf "c.txt" 1 "a").disk {} 1
        renamed.db once.digest = .ok stats s' ∧
      syncProjectSummaries hex "/p".toList "/p/.brain/summaries".toList (runOf "c.txt" 1 "a").disk {} 2
        renamed.db s' = .ok { filesSeen := 1 } s' := by
  have hr := step_next runs_spec.1.2.2
  obtain ⟨-, stats, -, hsync⟩ := step_eq_some.mp hr
  have hone : loadFiles renamed.db = [rowOf "c.txt" "a"] := by decide +kernel
  have hn : ((loadFiles renamed.db).map FileRow.path).Nodup := by
    rw [hone]
    exact List.nodup_singleton _
  refine ⟨stats, _, hsync, ?_⟩
  have hagain := sync_again rfl hn hsync 2
  rwa [hone] at hagain

end BrainEngine.Summaries.Again
