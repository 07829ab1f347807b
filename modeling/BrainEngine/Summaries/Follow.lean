import BrainEngine.Summaries.Again
import BrainEngine.Summaries.Paths
import BrainEngine.Index.Runs

/-! # The mirror and the table

Every summary that is written goes to the table and then to the mirror, but what is deleted from the
table stays in the mirror. `follows_of_reaches` says in which runs the mirror shows what is in the
table. -/

namespace BrainEngine.Summaries.Follow

open BrainEngine.Rust.Str BrainEngine.Lib.Keyed BrainEngine.Lib.Sorted BrainEngine.Lib.Effects
open BrainEngine.Lib.Machine BrainEngine.Core.External BrainEngine.Core.Config BrainEngine.Core.Walk
open BrainEngine.Core.Index BrainEngine.Core.Docs BrainEngine.Core.Summarize BrainEngine.Index.Runs
open BrainEngine.Summaries.Sync BrainEngine.Summaries.Stale BrainEngine.Summaries.Again
open BrainEngine.Summaries.Paths

/-- **The mirror follows the table**: its files are those of the rows, each with the row's summary. -/
def Follows (dir : Text) (s : Digest) : Prop :=
  ∀ path content, s.mirror.get? path = some content ↔
    ∃ k v, stored s k = some v ∧ mirrorPlace dir k = path ∧ content = v.1 ++ ['\n']

/-- A run of the indexer, or a synchronization, each with its configuration and what it finds. -/
inductive Action
  | index (tree : Tree) (cfg : ProjectConfig) (now : ℕ)
  | sync (disk : Disk) (cfg : SummariesConfig) (now : ℕ)

section
variable (x : Extern) (root dir : Text)

/-- What an action leaves, also if it fails: a failed run of the indexer changes nothing, a failed
synchronization may. -/
def step (s : Project) : Action → Option Project
  | .index tree cfg now => some ⟨runIndex x tree cfg now s.db, s.digest⟩
  | .sync disk cfg now =>
    some ⟨s.db, final (syncProjectSummaries x root dir disk cfg now s.db s.digest)⟩

/-- The paths of the index. -/
def indexed (s : Project) : Set Text := {p | p ∈ (loadFiles s.db).map FileRow.path}

/-- No summary loses its target: the file of each is indexed, and the module of each has an indexed file
that keeps its summary or is on disk. -/
structure LosesNone (disk : Disk) (s : Project) : Prop where
  files : ∀ p, (stored s.digest (.file, p)).isSome → p ∈ indexed s
  modules : ∀ m, (stored s.digest (.module, m)).isSome → ∃ f ∈ loadFiles s.db, moduleTarget f.path = m ∧
    ((upToDate f (stored s.digest (.file, f.path))).isSome ∨ ¬Missing root disk f)

/-- The mirror file of a target can be written. -/
def Writable (disk : Disk) (k : Scope × Text) : Prop :=
  disk.createDirError (parent (mirrorPlace dir k)) = none ∧
    disk.writeError (mirrorPath dir k.1 k.2) = none

/-- The files that are indexed are among these, and an enabled synchronization loses no target and can
write every mirror file. -/
def Undisturbed (files : Set Text) (s : Project) : Action → Prop
  | .index _ _ _ => True
  | .sync disk cfg _ => indexed s ⊆ files ∧ (cfg.enabled = true →
      LosesNone root disk s ∧ ∀ k ∈ targets files, Writable dir disk k)

end

/-- The digest after a summary has been written to table and mirror. -/
def written (dir : Text) (s : Digest) (k : Scope × Text) (summary sourceHash : Text) (now : ℕ) : Digest where
  summaries := s.summaries.upsert k (summaryRow summary sourceHash now)
  mirror := s.mirror.upsert (mirrorPlace dir k) (summary ++ ['\n'])

/-- The digest after the stale summaries have been deleted. -/
def dropped (s : Digest) (scope : Scope) (valid : List Text) : Digest where
  summaries := s.summaries.deleteWhere fun k _ => k.1 = scope && !valid.contains k.2
  mirror := s.mirror

variable {x : Extern} {root dir : Text} {disk : Disk} {cfg : SummariesConfig} {now : ℕ}
variable {s t : Digest} {k : Scope × Text} {summary sourceHash : Text} {T : Set (Scope × Text)}
variable {I : Digest → Prop} {files : List FileRow} {db : Core.Database.Db} {valid : List Text}
variable {scope : Scope} {target : Text}

/-! ### Single changes -/

theorem stored_written (l : Scope × Text) : stored (written dir s k summary sourceHash now) l =
    if l = k then some (summary, sourceHash) else stored s l := by
  unfold stored written
  dsimp only
  rw [KeyTable.get?_upsert]
  split_ifs
  · rfl
  · rfl

theorem deleteStale_eq (s : Digest) (scope : Scope) (valid : List Text) :
    ∃ n, deleteStaleScopedSummaries scope valid s = .ok n (dropped s scope valid) := ⟨_, rfl⟩

theorem stored_dropped (l : Scope × Text) : stored (dropped s scope valid) l =
    if l.1 = scope ∧ l.2 ∉ valid then none else stored s l := by
  obtain ⟨n, h⟩ := deleteStale_eq s scope valid
  exact deleteStale_ok h l

theorem dropped_same (h : ∀ target, target ∉ valid → stored s (scope, target) = none) :
    dropped s scope valid = s := by
  obtain ⟨n, hn⟩ := deleteStale_eq s scope valid
  rw [deleteStale_same h] at hn
  exact (EStateM.Result.ok.inj hn).2.symm

/-- What a call leaves when it fails, if the mirror files of `T` can be written. -/
def Unless (dir : Text) (disk : Disk) (T : Set (Scope × Text)) (I : Digest → Prop) (t : Digest) : Prop :=
  (∀ k ∈ T, Writable dir disk k) → I t

/-- **Writing a summary.** -/
theorem ends_writeSummary (hk : k ∈ T) (hI : I (written dir s k summary sourceHash now)) :
    Ends (Unless dir disk T I) (writeSummary dir disk now k.1 k.2 summary sourceHash) s fun _ => I := by
  unfold writeSummary upsertSummary writeSummaryMirror createDirAll
  refine .bind (ends_modify (.bind ?_))
  cases hd : disk.createDirError (parent (place (mirrorPath dir k.1 k.2))) with
  | some e =>
    refine ends_throw fun hw => ?_
    have hok := (hw k hk).1
    unfold mirrorPlace at hok
    rw [hd] at hok
    cases hok
  | none =>
    refine ends_pure ?_
    cases hwr : disk.writeError (mirrorPath dir k.1 k.2) with
    | some e =>
      refine ends_throw fun hw => ?_
      have hok := (hw k hk).2
      rw [hwr] at hok
      cases hok
    | none => exact ends_modify hI

/-! ### Synchronizing -/

/-- **A file's round.** -/
theorem ends_syncFile {existing : Scope × Text → Option Text} {f : FileRow}
    (hT : (.file, f.path) ∈ T)
    (hwrite : ∀ s k summary sourceHash, k ∈ T → I s → I (written dir s k summary sourceHash now))
    (hs : I s) : Ends (Unless dir disk T I) (syncFile root dir disk cfg now existing f) s fun _ => I := by
  have hkept : Ends (Unless dir disk T I) (keptSummary existing f) s fun _ => I := by
    unfold keptSummary
    split_ifs
    · exact hs
    · exact hs
  unfold syncFile
  refine .bind (hkept.mono fun kept t _ ht => ?_)
  cases kept with
  | some summary => exact ends_pure ht
  | none =>
    dsimp only
    rcases readToString disk (root ++ '/' :: f.path) with (_ | e) | content
    · exact ends_pure ht
    · exact ends_throw fun _ => ht
    · refine .bind ((ends_writeSummary hT (hwrite t _ _ _ hT ht)).mono fun _ u _ hu => ?_)
      exact ends_pure hu

/-- **A derived summary's round.** -/
theorem ends_syncDerived (hT : (scope, target) ∈ T)
    (hwrite : ∀ s k summary sourceHash, k ∈ T → I s → I (written dir s k summary sourceHash now))
    (hs : I s) :
    Ends (Unless dir disk T I) (syncDerived dir disk now scope target sourceHash summary) s
      fun _ => I := by
  have hhash : Ends (Unless dir disk T I) (sourceHashFor scope target) s fun _ => I := hs
  unfold syncDerived
  refine .bind (hhash.mono fun o t _ ht => ?_)
  split_ifs
  · exact ends_pure ht
  · refine .bind ((ends_writeSummary hT (hwrite t _ _ _ hT ht)).mono fun _ u _ hu => ?_)
    exact ends_pure hu

/-- The modules of some files. -/
def modulesOf (l : List FileSummary) : List Text := (byModule l).entries.map Prod.fst

theorem mem_modulesOf {l : List FileSummary} {m : Text} :
    m ∈ modulesOf l ↔ ∃ f ∈ l, moduleTarget f.path = m := by
  have hentry : m ∈ modulesOf l ↔ ∃ g, inModule l m = some g := by
    unfold modulesOf inModule
    simp only [← SortedMap.mem_entries, List.mem_map, Prod.exists, exists_and_right, exists_eq_right]
  rw [hentry]
  constructor
  · rintro ⟨g, hg⟩
    obtain ⟨hne, rfl⟩ := inModule_eq_some.mp hg
    obtain ⟨f, hf⟩ := List.exists_mem_of_ne_nil _ hne
    obtain ⟨hf, he⟩ := List.mem_filter.mp hf
    exact ⟨f, hf, of_decide_eq_true he⟩
  · rintro ⟨f, hf, he⟩
    have hmem : f ∈ l.filter fun f => moduleTarget f.path = m :=
      List.mem_filter.mpr ⟨hf, decide_eq_true he⟩
    exact ⟨_, inModule_eq_some.mpr ⟨List.ne_nil_of_mem hmem, rfl⟩⟩

theorem mem_fileSummaries {V : Scope × Text → Option (Text × Text)} {v : FileSummary} :
    v ∈ fileSummaries files V ↔ ∃ f ∈ files, summaryOf f (V (.file, f.path)) = some v :=
  List.mem_filterMap

/-- **The modules' round**: the stale ones are deleted, and each of the others has its own. -/
theorem ends_syncModuleSummaries {l : List FileSummary}
    (hT : ∀ g ∈ l, (Scope.module, moduleTarget g.path) ∈ T)
    (hwrite : ∀ s k summary sourceHash, k ∈ T → I s → I (written dir s k summary sourceHash now))
    (hs : I (dropped s .module (modulesOf l))) :
    Ends (Unless dir disk T I) (syncModuleSummaries x dir disk now l) s fun _ => I := by
  have hdelete : Ends (Unless dir disk T I) (deleteStaleScopedSummaries .module (modulesOf l)) s
      fun _ v => v = dropped s .module (modulesOf l) := rfl
  unfold syncModuleSummaries
  refine .bind (hdelete.mono fun _ v _ hv => ?_)
  subst hv
  refine .bind ((ends_mapM hs fun a ha v hv => ?_).mono fun _ w _ hw => ends_pure hw)
  obtain ⟨g, hg, he⟩ := mem_modulesOf.mp (List.mem_map_of_mem ha)
  exact ends_syncDerived (he ▸ hT g hg) hwrite hv

/-- **The rule for synchronizations.** What the two deletions and every written summary keep, a
synchronization keeps, if it returns or if the mirror files can be written. -/
theorem ends_sync (hen : cfg.enabled = true) (hn : ((loadFiles db).map FileRow.path).Nodup)
    (hT : targets {p | p ∈ (loadFiles db).map FileRow.path} ⊆ T)
    (hwrite : ∀ s k summary sourceHash, k ∈ T → I s → I (written dir s k summary sourceHash now))
    (hs : I s) (hfiles : I (dropped s .file ((loadFiles db).map FileRow.path)))
    (hmodules : ∀ t, I t → (∀ m, stored t (.module, m) = stored s (.module, m)) →
      (∀ f ∈ loadFiles db, stored t (.file, f.path) =
        fileAfter root disk cfg f (stored s (.file, f.path))) →
      I (dropped t .module (modulesOf (fileSummaries (loadFiles db) (stored t))))) :
    Ends (Unless dir disk T I) (syncProjectSummaries x root dir disk cfg now db) s fun _ => I := by
  have hfileT : ∀ f ∈ loadFiles db, (Scope.file, f.path) ∈ T :=
    fun f hf => hT (Or.inl ⟨_, List.mem_map_of_mem hf, rfl⟩)
  have hmoduleT : ∀ f ∈ loadFiles db, (Scope.module, moduleTarget f.path) ∈ T :=
    fun f hf => hT (Or.inr (Or.inl ⟨_, List.mem_map_of_mem hf, rfl⟩))
  unfold syncProjectSummaries
  rw [hen]
  have hdir : Ends (Unless dir disk T I) (createDirAll disk dir) s fun _ t => t = s := by
    unfold createDirAll
    cases disk.createDirError dir with
    | some e => exact ends_throw fun _ => hs
    | none => exact ends_pure rfl
  refine .bind (hdir.mono fun _ t _ ht => ?_)
  subst ht
  refine .bind (ends_get ?_)
  have hdelete : Ends (Unless dir disk T I)
      (deleteStaleFileSummaries ((loadFiles db).map FileRow.path)) t
      fun _ u => u = dropped t .file ((loadFiles db).map FileRow.path) := rfl
  refine .bind (hdelete.mono fun _ u _ hu => ?_)
  subst hu
  have hloop : Ends (Unless dir disk T I) ((loadFiles db).mapM
      (syncFile root dir disk cfg now (loadExistingSummaries t.summaries)))
      (dropped t .file ((loadFiles db).map FileRow.path)) fun _ => I :=
    ends_mapM hfiles fun f hf u hu => ends_syncFile (hfileT f hf) hwrite hu
  refine .bind (hloop.mono fun rounds u hok hu => ?_)
  -- what the loop has left, if it returned
  have hold : ∀ f ∈ loadFiles db, stored (dropped t .file ((loadFiles db).map FileRow.path))
      (.file, f.path) = stored t (.file, f.path) := by
    intro f hf
    rw [stored_dropped, if_neg fun h => h.2 (List.mem_map_of_mem hf)]
  obtain ⟨hsum, hdone, hrest⟩ := syncFiles_ok hn (fun f hf => by
    rw [hold f hf]
    simp [loadExistingSummaries, stored, Function.comp_def]) hok
  rw [hsum]
  have hkept : ∀ m, stored u (.module, m) = stored t (.module, m) := by
    intro m
    rw [hrest _ (by simp), stored_dropped, if_neg (by simp)]
  have hcurrent : ∀ f ∈ loadFiles db, stored u (.file, f.path) =
      fileAfter root disk cfg f (stored t (.file, f.path)) := by
    intro f hf
    rw [hdone f hf, hold f hf]
  have hmoduleT' : ∀ g ∈ fileSummaries (loadFiles db) (stored u),
      (Scope.module, moduleTarget g.path) ∈ T := by
    intro g hg
    obtain ⟨f, hf, hsum⟩ := mem_fileSummaries.mp hg
    rw [(path_of_mem_summaryOf hsum).1]
    exact hmoduleT f hf
  have hmod : Ends (Unless dir disk T I) (syncModuleSummaries x dir disk now
      (fileSummaries (loadFiles db) (stored u))) u fun _ => I :=
    ends_syncModuleSummaries hmoduleT' hwrite (hmodules u hu hkept hcurrent)
  refine .bind (hmod.mono fun _ v _ hv => ?_)
  refine .bind ((ends_syncDerived (hT (Or.inr (Or.inr rfl))) hwrite hv).mono fun _ w _ hw => ?_)
  exact ends_pure hw

/-! ### What is kept -/

theorem targets_mono {F G : Set Text} (h : F ⊆ G) : targets F ⊆ targets G := by
  rintro k (⟨q, hq, rfl⟩ | ⟨q, hq, rfl⟩ | rfl)
  · exact Or.inl ⟨q, h hq, rfl⟩
  · exact Or.inr (Or.inl ⟨q, h hq, rfl⟩)
  · exact Or.inr (Or.inr rfl)

/-- Only targets of `T` have a summary. -/
def Within (T : Set (Scope × Text)) (s : Digest) : Prop := ∀ k, (stored s k).isSome → k ∈ T

theorem within_written (hk : k ∈ T) (h : Within T s) :
    Within T (written dir s k summary sourceHash now) := by
  intro l hl
  rw [stored_written] at hl
  split_ifs at hl with hlk
  · exact hlk ▸ hk
  · exact h l hl

theorem within_dropped (h : Within T s) : Within T (dropped s scope valid) := by
  intro l hl
  rw [stored_dropped] at hl
  split_ifs at hl with hstale
  · cases hl
  · exact h l hl

/-- **Writing a summary** keeps the mirror in line with the table. -/
theorem follows_written (hinj : Set.InjOn (mirrorPlace dir) T) (hk : k ∈ T) (hin : Within T s)
    (h : Follows dir s) : Follows dir (written dir s k summary sourceHash now) := by
  intro path content
  have hget : (written dir s k summary sourceHash now).mirror.get? path =
      if path = mirrorPlace dir k then some (summary ++ ['\n']) else s.mirror.get? path :=
    KeyTable.get?_upsert path
  rw [hget]
  by_cases hp : path = mirrorPlace dir k
  · rw [if_pos hp, Option.some.injEq]
    constructor
    · rintro rfl
      exact ⟨k, (summary, sourceHash), by rw [stored_written, if_pos rfl], hp.symm, rfl⟩
    · rintro ⟨l, v, hl, hpl, rfl⟩
      rw [stored_written] at hl
      split_ifs at hl with hlk
      · rw [← Option.some.inj hl]
      · -- two targets would share the mirror file
        exact absurd (hinj (hin l (by simp [hl])) hk (hpl.trans hp)) hlk
  · rw [if_neg hp, h path content]
    refine exists_congr fun l => exists_congr fun v => ?_
    rw [stored_written]
    split_ifs with hlk
    · subst hlk
      refine iff_of_false ?_ ?_
      · rintro ⟨-, hpl, -⟩
        exact hp hpl.symm
      · rintro ⟨-, hpl, -⟩
        exact hp hpl.symm
    · rfl

/-- A file that has an up-to-date summary or is on disk has a summary after the loop. -/
theorem exists_summaryOf {f : FileRow} {o : Option (Text × Text)}
    (h : (upToDate f o).isSome ∨ ¬Missing root disk f) :
    ∃ v, summaryOf f (fileAfter root disk cfg f o) = some v := by
  have hup : (upToDate f (fileAfter root disk cfg f o)).isSome := by
    rcases h with h | h
    · obtain ⟨v, hv⟩ := Option.isSome_iff_exists.mp h
      rw [fileAfter_of_upToDate hv, upToDate_eq_some.mpr ⟨rfl, (upToDate_eq_some.mp hv).2⟩]
      rfl
    · exact (isSome_upToDate_fileAfter f o).resolve_right h
  obtain ⟨v, hv⟩ := Option.isSome_iff_exists.mp hup
  exact ⟨_, by rw [summaryOf, hv]; rfl⟩

/-- **A synchronization that loses no target** keeps the mirror in line with the table. -/
theorem ends_follows {F : Set Text} {p : Project} (hen : cfg.enabled = true)
    (hinj : Set.InjOn (mirrorPlace dir) (targets F)) (hdb : WellFormed p.db) (hF : indexed p ⊆ F)
    (hnone : LosesNone root disk p) (h : Follows dir p.digest) (hin : Within (targets F) p.digest) :
    Ends (Unless dir disk (targets F) fun t => Follows dir t ∧ Within (targets F) t)
      (syncProjectSummaries x root dir disk cfg now p.db) p.digest
      fun _ t => Follows dir t ∧ Within (targets F) t := by
  refine ends_sync hen (nodup_paths_loadFiles hdb) (targets_mono hF) ?_ ⟨h, hin⟩ ?_ ?_
  · rintro s k summary sourceHash hk ⟨hs, hw⟩
    exact ⟨follows_written hinj hk hw hs, within_written hk hw⟩
  · rw [dropped_same]
    · exact ⟨h, hin⟩
    · intro q hq
      rw [← Option.not_isSome_iff_eq_none]
      exact fun hs => hq (hnone.files q hs)
  · rintro t ⟨ht, hw⟩ hkept hcurrent
    rw [dropped_same]
    · exact ⟨ht, hw⟩
    · intro m hm
      rw [hkept, ← Option.not_isSome_iff_eq_none]
      intro hs
      obtain ⟨f, hf, rfl, hcur⟩ := hnone.modules m hs
      obtain ⟨v, hv⟩ : ∃ v, summaryOf f (fileAfter root disk cfg f
          (stored p.digest (.file, f.path))) = some v := exists_summaryOf hcur
      refine hm (mem_modulesOf.mpr ⟨v, mem_fileSummaries.mpr ⟨f, hf, ?_⟩, ?_⟩)
      · rw [hcurrent f hf, hv]
      · rw [(path_of_mem_summaryOf hv).1]

/-! ### What is lost -/

variable {F : Set Text} {p : Project} {u : Digest} {stats : SummaryStats}

/-- No mirror file disappears, and there are summaries for the same targets only. -/
theorem mirror_grows (hen : cfg.enabled = true) (hdb : WellFormed p.db) (hF : indexed p ⊆ F)
    (hin : Within (targets F) p.digest)
    (h : syncProjectSummaries x root dir disk cfg now p.db p.digest = .ok stats u) :
    (∀ path, (p.digest.mirror.get? path).isSome → (u.mirror.get? path).isSome) ∧
      Within (targets F) u := by
  have hends : Ends (Unless dir disk (targets F) fun t =>
      (∀ path, (p.digest.mirror.get? path).isSome → (t.mirror.get? path).isSome) ∧
        Within (targets F) t) (syncProjectSummaries x root dir disk cfg now p.db) p.digest
      fun _ t => (∀ path, (p.digest.mirror.get? path).isSome → (t.mirror.get? path).isSome) ∧
        Within (targets F) t := by
    refine ends_sync hen (nodup_paths_loadFiles hdb) (targets_mono hF) ?_ ⟨fun _ => id, hin⟩
      ⟨fun _ => id, within_dropped hin⟩ fun t ht _ _ => ⟨ht.1, within_dropped ht.2⟩
    rintro s k summary sourceHash hk ⟨hs, hw⟩
    refine ⟨fun path hpath => ?_, within_written hk hw⟩
    unfold written
    dsimp only
    rw [KeyTable.get?_upsert]
    split_ifs
    · rfl
    · exact hs path hpath
  exact hends.of_ok h

/-- **A mirror that still follows the table** has lost no summary. -/
theorem isSome_of_follows (hinj : Set.InjOn (mirrorPlace dir) (targets F)) {s u : Digest}
    (hs : Follows dir s) (hu : Follows dir u) (hins : Within (targets F) s)
    (hinu : Within (targets F) u)
    (hgrows : ∀ path, (s.mirror.get? path).isSome → (u.mirror.get? path).isSome) {k : Scope × Text}
    (hk : (stored s k).isSome) : (stored u k).isSome := by
  obtain ⟨v, hv⟩ := Option.isSome_iff_exists.mp hk
  have hmirror := (hs (mirrorPlace dir k) _).mpr ⟨k, v, hv, rfl, rfl⟩
  obtain ⟨content, hc⟩ := Option.isSome_iff_exists.mp (hgrows _ (by rw [hmirror]; rfl))
  obtain ⟨l, w, hl, hpl, -⟩ := (hu _ _).mp hc
  have hls : (stored u l).isSome := by
    rw [hl]
    rfl
  rwa [← hinj (hinu l hls) (hins k hk) hpl]

/-- **A synchronization that returns** keeps the mirror in line with the table exactly if it loses no
target. -/
theorem follows_iff (hen : cfg.enabled = true) (hinj : Set.InjOn (mirrorPlace dir) (targets F))
    (hdb : WellFormed p.db) (hF : indexed p ⊆ F) (hs : Follows dir p.digest)
    (hin : Within (targets F) p.digest)
    (h : syncProjectSummaries x root dir disk cfg now p.db p.digest = .ok stats u) :
    Follows dir u ↔ LosesNone root disk p := by
  constructor
  · intro hu
    obtain ⟨hgrows, hinu⟩ := mirror_grows hen hdb hF hin h
    obtain ⟨hfiles, honly, hmod, -⟩ :=
      syncProjectSummaries_stored hen (nodup_paths_loadFiles hdb) h
    refine ⟨fun q hq => ?_, fun m hm => ?_⟩
    · have hq' := isSome_of_follows hinj hs hu hin hinu hgrows hq
      by_contra hnot
      rw [honly q hnot] at hq'
      cases hq'
    · have hm' := isSome_of_follows hinj hs hu hin hinu hgrows hm
      rw [hmod, Option.isSome_map] at hm'
      obtain ⟨g, hg⟩ := Option.isSome_iff_exists.mp hm'
      obtain ⟨hne, rfl⟩ := inModule_eq_some.mp hg
      obtain ⟨v, hv⟩ := List.exists_mem_of_ne_nil _ hne
      obtain ⟨hv, hvm⟩ := List.mem_filter.mp hv
      obtain ⟨f, hf, hsum⟩ := mem_fileSummaries.mp hv
      have hpath := of_decide_eq_true hvm
      rw [(path_of_mem_summaryOf hsum).1] at hpath
      refine ⟨f, hf, hpath, ?_⟩
      by_cases hmiss : Missing root disk f
      · left
        rw [hfiles f hf, fileAfter_of_missing hmiss] at hsum
        obtain ⟨w, hw, -⟩ := Option.map_eq_some_iff.mp hsum
        rw [hw]
        rfl
      · exact Or.inr hmiss
  · intro hnone
    exact ((ends_follows hen hinj hdb hF hnone hs hin).of_ok h).1

/-! ### Runs -/

theorem follows_empty : Follows dir Digest.empty := by
  intro path content
  simp [Digest.empty, stored]

theorem within_empty : Within T Digest.empty := by
  intro k hk
  simp [Digest.empty, stored] at hk

/-- **What every undisturbed run keeps.** -/
theorem inLine_of_reaches {s : Project} (hinj : Set.InjOn (mirrorPlace dir) (targets F))
    (hdb : WellFormed db)
    (h : Reaches (step x root dir) (Undisturbed root dir F) ⟨db, Digest.empty⟩ s) :
    WellFormed s.db ∧ Follows dir s.digest ∧ Within (targets F) s.digest := by
  refine h.invariant (I := fun s => WellFormed s.db ∧ Follows dir s.digest ∧ Within (targets F) s.digest)
    ⟨hdb, follows_empty, within_empty⟩ ?_
  rintro p q a ⟨hp, hf, hin⟩ hok hstep
  cases a with
  | index tree cfg now =>
    cases hstep
    exact ⟨wellFormed_runIndex hp, hf, hin⟩
  | sync disk cfg now =>
    cases hstep
    obtain ⟨hF, hundisturbed⟩ := hok
    refine ⟨hp, ?_⟩
    by_cases hen : cfg.enabled = true
    · obtain ⟨hnone, hwritable⟩ := hundisturbed hen
      exact ((ends_follows hen hinj hp hF hnone hf hin).imp fun t ht => ht hwritable).final
    · have hskip : syncProjectSummaries x root dir disk cfg now p.db p.digest = .ok {} p.digest := by
        unfold syncProjectSummaries
        rw [Bool.not_eq_true] at hen
        rw [hen]
        rfl
      rw [hskip]
      exact ⟨hf, hin⟩

/-- **The mirror follows the table** in every state of an undisturbed run from an empty digest, also
after actions that fail. In each of these states, a synchronization that returns keeps it so exactly if
it loses no target. -/
theorem follows_of_reaches {s : Project} (hinj : Set.InjOn (mirrorPlace dir) (targets F))
    (hdb : WellFormed db)
    (h : Reaches (step x root dir) (Undisturbed root dir F) ⟨db, Digest.empty⟩ s) :
    Follows dir s.digest ∧ ∀ disk cfg now stats u, cfg.enabled = true → indexed s ⊆ F →
      syncProjectSummaries x root dir disk cfg now s.db s.digest = .ok stats u →
        (Follows dir u ↔ LosesNone root disk s) := by
  obtain ⟨hs, hf, hin⟩ := inLine_of_reaches hinj hdb h
  exact ⟨hf, fun disk cfg now stats u hen hF hsync => follows_iff hen hinj hs hF hf hin hsync⟩

/-! ### A file and its new name -/

def summariesDir : Text := "/p/.brain/summaries".toList

/-- The files of the two runs. -/
def here : Set Text := {"a.txt".toList, "c.txt".toList}

theorem injOn_here : Set.InjOn (mirrorPlace summariesDir) (targets here) := by
  have hco : Coexist here := by
    refine ⟨?_, ?_⟩
    · rintro p (rfl | rfl) <;> decide
    · rintro p (rfl | rfl) q (rfl | rfl) <;> decide
  refine (unambiguous_of_clear hco ⟨?_, ?_, ?_, ?_, ?_⟩).distinct
  · rintro p (rfl | rfl) <;> decide
  · rintro (h | h)
    · exact absurd h (by decide)
    · exact absurd h (by decide)
  · rintro p (rfl | rfl) q (rfl | rfl) <;> decide
  · rintro p (rfl | rfl) q (rfl | rfl) <;> decide
  · rintro q (rfl | rfl) <;> decide

/-- A step of the project in `/p`. -/
abbrev stepHere : Project → Action → Option Project := step hex "/p".toList summariesDir

/-- A run of the indexer over a directory with one file. -/
def index (name : String) : Action := .index (runOf name 1 "a").tree {} 1

/-- A synchronization there. -/
def sync (name : String) : Action := .sync (runOf name 1 "a").disk {} 1

/-- The project once the file has been indexed, once it has been summarized, and once it has been
indexed under its new name. -/
def arrived : Project := ((stepHere .empty (index "a.txt")).getD .empty)

def summarized : Project := ((stepHere arrived (sync "a.txt")).getD .empty)

def moved : Project := ((stepHere summarized (index "c.txt")).getD .empty)

theorem indexed_here : indexed arrived ⊆ here ∧ indexed summarized ⊆ here ∧ indexed moved ⊆ here := by
  have hone : (loadFiles arrived.db).map FileRow.path = ["a.txt".toList] ∧
      (loadFiles moved.db).map FileRow.path = ["c.txt".toList] := by decide +kernel
  have harrived : indexed arrived ⊆ here := by
    intro p hp
    have hp' : p ∈ (loadFiles arrived.db).map FileRow.path := hp
    rw [hone.1] at hp'
    exact Or.inl (List.mem_singleton.mp hp')
  refine ⟨harrived, harrived, fun p hp => ?_⟩
  have hp' : p ∈ (loadFiles moved.db).map FileRow.path := hp
  rw [hone.2] at hp'
  exact Or.inr (List.mem_singleton.mp hp')

/-- The mirror follows the table after the first synchronization. -/
theorem follows_summarized : Follows summariesDir summarized.digest := by
  have h1 : Reaches stepHere (Undisturbed "/p".toList summariesDir here) .empty arrived :=
    .next (index "a.txt") .refl trivial rfl
  have hnone : ∀ k, ¬(stored arrived.digest k).isSome := fun k hk => within_empty (T := ∅) k hk
  have hlose : LosesNone "/p".toList (runOf "a.txt" 1 "a").disk arrived :=
    ⟨fun p hp => absurd hp (hnone _), fun m hm => absurd hm (hnone _)⟩
  have h2 : Undisturbed "/p".toList summariesDir here arrived (sync "a.txt") :=
    ⟨indexed_here.1, fun _ => ⟨hlose, fun k _ => ⟨rfl, rfl⟩⟩⟩
  exact (follows_of_reaches injOn_here wellFormed_empty (.next (sync "a.txt") h1 h2 rfl)).1

/-- **The mirror file of a file that is gone** stays. -/
theorem not_follows : ¬∀ (x : Extern) (root dir : Text) (F : Set Text) (s : Project) (disk : Disk)
    (cfg : SummariesConfig) (now : ℕ) (stats : SummaryStats) (u : Digest),
    Set.InjOn (mirrorPlace dir) (targets F) →
      Reaches (step x root dir) (fun s _ => indexed s ⊆ F) .empty s → indexed s ⊆ F →
        cfg.enabled = true → syncProjectSummaries x root dir disk cfg now s.db s.digest = .ok stats u →
          Follows dir u := by
  intro h
  have hreach : Reaches stepHere (fun s _ => indexed s ⊆ here) .empty moved :=
    .next (index "c.txt") (.next (sync "a.txt") (.next (index "a.txt") .refl (by
      rintro p ⟨⟩) rfl) indexed_here.1 rfl) indexed_here.2.1 rfl
  have hlost : (match syncProjectSummaries hex "/p".toList summariesDir (runOf "c.txt" 1 "a").disk {} 1
      moved.db moved.digest with
    | .ok _ u => (u.mirror.get? (mirrorPlace summariesDir (.file, "a.txt".toList))).isSome &&
        u.summaries.rows.all fun a =>
          mirrorPlace summariesDir a.1 ≠ mirrorPlace summariesDir (.file, "a.txt".toList)
    | .error _ _ => false) = true := by
    decide +kernel
  cases hsync : syncProjectSummaries hex "/p".toList summariesDir (runOf "c.txt" 1 "a").disk {} 1
      moved.db moved.digest with
  | error e t => rw [hsync] at hlost; cases hlost
  | ok stats u =>
    rw [hsync] at hlost
    obtain ⟨hsome, hall⟩ := Bool.and_eq_true_iff.mp hlost
    obtain ⟨content, hc⟩ := Option.isSome_iff_exists.mp hsome
    have hfollows := h _ _ _ _ _ _ _ _ _ _ injOn_here hreach indexed_here.2.2 rfl hsync
    obtain ⟨k, v, hv, hk, -⟩ := (hfollows _ _).mp hc
    obtain ⟨row, hrow, -⟩ := Option.map_eq_some_iff.mp hv
    have hne := List.all_eq_true.mp hall _ (KeyTable.get?_eq_some.mp hrow)
    exact of_decide_eq_true hne hk

end BrainEngine.Summaries.Follow
