import BrainEngine.Lib.Effects
import BrainEngine.Rust.Lines
import BrainEngine.Core.Scaffold
import BrainEngine.Store.Migrate

/-! # Initialising a project again

A step of `migrate` keeps the rows of every table and the values under their columns (`Keeps`). Each
call of `initProject` leaves alone what is there and makes what is not, so a run that succeeds leaves a
directory in which each call finds its work done (`Settled`). -/

namespace BrainEngine.Store.Init

open BrainEngine.Rust.Str BrainEngine.Rust.Lines BrainEngine.Lib.Effects
open BrainEngine.Core.External BrainEngine.Core.Migrations BrainEngine.Core.Scaffold
open BrainEngine.Store.Migrate

/-! ### What is kept -/

/-- A complete sequence of migrations has led to the version of the database. -/
def Complete (d : Database) : Prop :=
  d.userVersion ≤ schemaVersion ∧ d.schema = schemaAt (offset d.userVersion)

/-- Every table of `d` is in `d'`, with its columns, perhaps more columns behind them, and its rows,
which agree in the columns of `d`. -/
structure Keeps (d d' : Database) : Prop where
  columns : ∀ t ∈ d.schema.tables, ∃ t' ∈ d'.schema.tables, t'.name = t.name ∧ t.columns <+: t'.columns
  rows : ∀ t ∈ d.schema.tables, List.Forall₂ (· <+: ·) (d.rows t.name) (d'.rows t.name)

/-- The text of `.gitignore`; a missing file counts as empty. -/
def gitignoreText : Entry (Option Text) → Option Text
  | .absent => some []
  | .directory => none
  | .file text => text

/-- One of the lines makes git ignore the project brain. -/
def Ignored (text : Text) : Prop := ∃ line ∈ lines text, ignoresBrain (trim line) = true

/-- Every call of an initialisation finds its work done. -/
structure Settled (m : Machine) (root : Text) (dir : ProjectDir) : Prop where
  rootIsDir : dir.rootIsDir = true
  dirs : ∀ d ∈ directories, dir.dirs d = .directory
  config : dir.config.present = true
  database : ∃ d, dir.database = .file d ∧ d.userVersion = schemaVersion ∧ d.wal = true
  gitignore : ∃ text, dir.gitignore = .file (some text) ∧ Ignored text
  openDb : m.refuses .openDb (metadataDb root) = none
  read : m.refuses .read (gitignoreFile root) = none

/-! ### The database -/

section
variable {d d' d'' : Database}

theorem Keeps.refl (d : Database) : Keeps d d :=
  ⟨fun t ht => ⟨t, ht, rfl, List.prefix_refl _⟩,
    fun _ _ => List.forall₂_same.mpr fun _ _ => List.prefix_refl _⟩

theorem Keeps.trans (h : Keeps d d') (h' : Keeps d' d'') : Keeps d d'' := by
  refine ⟨fun t ht => ?_, fun t ht => ?_⟩
  · obtain ⟨t', ht', hn, hc⟩ := h.columns t ht
    obtain ⟨t'', ht'', hn', hc'⟩ := h'.columns t' ht'
    exact ⟨t'', ht'', hn'.trans hn, hc.trans hc'⟩
  · obtain ⟨t', ht', hn, -⟩ := h.columns t ht
    have h1 := h.rows t ht
    have h2 := h'.rows t' ht'
    rw [hn] at h2
    refine List.forall₂_iff_get.mpr ⟨h1.length_eq.trans h2.length_eq, fun i hi hi'' => ?_⟩
    have hi' := h1.length_eq ▸ hi
    exact (h1.get hi hi').trans (h2.get hi' hi'')

/-- **A statement keeps the rows.** -/
theorem keeps_execute {step : Step} (h : d.execute step = some d') : Keeps d d' := by
  cases step with
  | setVersion v =>
    cases h
    exact ⟨(Keeps.refl d).columns, (Keeps.refl d).rows⟩
  | execute st =>
    obtain ⟨schema, hs, rfl⟩ := Option.map_eq_some_iff.mp h
    cases st with
    | createTable t =>
      simp only [Stmt.apply] at hs
      split_ifs at hs with hex
      · cases hs
        refine ⟨(Keeps.refl d).columns, fun t' ht' => ?_⟩
        simp only [rowsAfter, if_pos hex]
        exact (Keeps.refl d).rows t' ht'
      · cases hs
        refine ⟨fun t' ht' => ⟨t', List.mem_append_left _ ht', rfl, List.prefix_refl _⟩,
          fun t' ht' => ?_⟩
        -- the new table has another name than every table that is there
        have hne : t'.name ≠ t.name := fun he =>
          hex (List.any_eq_true.mpr ⟨t', ht', by simpa using he⟩)
        simp only [rowsAfter, if_neg hex, Function.update_of_ne hne]
        exact (Keeps.refl d).rows t' ht'
    | createIndex i =>
      have htables : schema.tables = d.schema.tables := by
        simp only [Stmt.apply] at hs
        split_ifs at hs
        · cases hs; rfl
        · cases hs; rfl
      refine ⟨fun t ht => ⟨t, htables ▸ ht, rfl, List.prefix_refl _⟩, (Keeps.refl d).rows⟩
    | addColumn table c =>
      simp only [Stmt.apply] at hs
      split_ifs at hs
      cases hs
      refine ⟨fun t ht => ⟨_, List.mem_map_of_mem ht, ?_, ?_⟩, fun t ht => ?_⟩
      · split_ifs
        · rfl
        · rfl
      · split_ifs
        · exact List.prefix_append _ _
        · exact List.prefix_refl _
      · by_cases hn : t.name = table
        · simp only [rowsAfter, hn, Function.update_self]
          rw [List.forall₂_map_right_iff]
          exact List.forall₂_same.mpr fun _ _ => List.prefix_append _ _
        · simp only [rowsAfter, Function.update_of_ne hn]
          exact (Keeps.refl d).rows t ht

/-- The version after some steps. -/
def versionAfter (v : ℕ) (steps : List Step) : ℕ :=
  steps.foldl (fun v step => (writes step).getD v) v

theorem versionAfter_migrate : ∀ v ≤ schemaVersion, versionAfter v (migrate v) = schemaVersion := by
  decide

theorem execute_spec {step : Step} (h : d.execute step = some d') :
    d'.userVersion = (writes step).getD d.userVersion ∧ d'.wal = d.wal := by
  cases step with
  | setVersion v =>
    cases h
    exact ⟨rfl, rfl⟩
  | execute st =>
    obtain ⟨schema, -, rfl⟩ := Option.map_eq_some_iff.mp h
    exact ⟨rfl, rfl⟩

/-- **Migrations that succeed** keep the rows. -/
theorem runSteps_ok {m : Machine} {s' : Progress} : ∀ (steps : List Step) {d : Database}
    {s : Progress}, runSteps m d steps s = .ok () s' → s.dir.database = .file d →
      ∃ d', Keeps d d' ∧ d'.userVersion = versionAfter d.userVersion steps ∧ d'.wal = d.wal ∧
        s' = { s with dir := { s.dir with database := .file d' } }
  | [], d, s, h, hd => by
    obtain ⟨-, rfl⟩ := pure_ok.mp h
    refine ⟨d, Keeps.refl d, rfl, rfl, ?_⟩
    rw [← hd]
  | step :: steps, d, s, h, hd => by
    unfold runSteps at h
    cases he : d.execute step with
    | none =>
      rw [he] at h
      exact absurd h throw_ok
    | some d₁ =>
      simp only [he] at h
      obtain ⟨_, t, hput, h⟩ := bind_ok.mp h
      have ht := modify_ok.mp hput
      subst ht
      obtain ⟨d', hk, hv, hw, rfl⟩ := runSteps_ok steps h rfl
      obtain ⟨hv₁, hw₁⟩ := execute_spec he
      refine ⟨d', (keeps_execute he).trans hk, ?_, hw.trans hw₁, rfl⟩
      rw [hv, hv₁]
      rfl

end

/-! ### The calls -/

section
variable {m : Machine} {root : Text} {s s' : Progress}

/-- A call that begins with an access goes on if this is not refused. -/
theorem access_bind_ok {α : Type} {a : Access} {path : Text} {error : Text → BrainError}
    {f : Unit → Init α} {r : α} : (access m a path error >>= f) s = .ok r s' ↔
      m.refuses a path = none ∧ f () s = .ok r s' := by
  rw [bind_ok]
  unfold access
  cases h : m.refuses a path with
  | none =>
    simp only [pure_ok, true_and]
    constructor
    · rintro ⟨_, _, rfl, hf⟩; exact hf
    · intro hf; exact ⟨(), s, rfl, hf⟩
  | some message =>
    refine iff_of_false ?_ (by simp)
    rintro ⟨_, _, ht, -⟩
    exact throw_ok ht

/-- A call that begins by changing the state. -/
theorem modify_bind_ok {α : Type} {g : Progress → Progress} {f : PUnit → Init α} {r : α} :
    (modify g >>= f) s = .ok r s' ↔ f () (g s) = .ok r s' := Iff.rfl

theorem createDir_ok {dir : BrainDir} {u : Unit} : createDir m root dir s = .ok u s' ↔
    s.dir.dirs dir = .directory ∧ s = s' ∨
      s.dir.dirs dir = .absent ∧ m.refuses .createDir (dir.path root) = none ∧ { s with
        dir := { s.dir with dirs := Function.update s.dir.dirs dir .directory }
        report := { s.report with createdDirs := s.report.createdDirs ++ [dir.path root] } } = s' := by
  unfold createDir
  rw [get_bind]
  cases h : s.dir.dirs dir with
  | absent => simp [access_bind_ok, set_ok]
  | directory => simp [pure_ok]
  | file u => simp [throw_ok]

theorem saveIfAbsent_ok {b : Bool} : saveIfAbsent m root s = .ok b s' ↔
    s.dir.config.present = true ∧ false = b ∧ s = s' ∨
      s.dir.config.present = false ∧ m.refuses .write (configFile root) = none ∧ true = b ∧
        { s with dir := { s.dir with config := .file (m.defaultConfig root ++ [10]) } } = s' := by
  unfold saveIfAbsent
  rw [get_bind]
  cases h : s.dir.config.present with
  | true => simp [pure_ok]
  | false =>
    simp only [Bool.false_eq_true, if_false, false_and, false_or, true_and]
    rw [access_bind_ok, bind_ok]
    simp [set_ok, pure_ok]

/-- The file that `db::open` finds, as it leaves it to the migrations. -/
def opened : Entry Database → Option Database
  | .absent => some { Database.new with wal := true }
  | .directory => none
  | .file d => some { d with wal := true }

theorem openDatabase_ok {u : Unit} : openDatabase m root s = .ok u s' ↔
    m.refuses .openDb (metadataDb root) = none ∧ ∃ d, opened s.dir.database = some d ∧
      runSteps m d (migrate d.userVersion)
        { s with dir := { s.dir with database := .file d } } = .ok () s' := by
  unfold openDatabase
  rw [access_bind_ok, get_bind]
  cases h : s.dir.database with
  | absent => simp [opened, putDatabase, modify_bind_ok]
  | directory => simp [opened, throw_ok]
  | file d => simp [opened, putDatabase, modify_bind_ok]

theorem readGitignore_ok {text : Text} : readGitignore m root s = .ok text s' ↔
    m.refuses .read (gitignoreFile root) = none ∧ gitignoreText s.dir.gitignore = some text ∧ s = s' := by
  unfold readGitignore
  rw [access_bind_ok, get_bind]
  cases h : s.dir.gitignore with
  | absent => simp [gitignoreText, pure_ok]
  | directory => simp [gitignoreText, throw_ok]
  | file t =>
    cases t with
    | none => simp [gitignoreText, throw_ok]
    | some t => simp [gitignoreText, pure_ok]

theorem ensureGitignore_ok {b : Bool} : ensureGitignore m root s = .ok b s' ↔
    m.refuses .read (gitignoreFile root) = none ∧ ∃ text, gitignoreText s.dir.gitignore = some text ∧
      (Ignored text ∧ false = b ∧ s = s' ∨
        ¬Ignored text ∧ m.refuses .write (gitignoreFile root) = none ∧ true = b ∧
          { s with dir := { s.dir with gitignore := .file (some (withEntry text)) } } = s') := by
  have hany : ∀ text, ((lines text).any fun line => ignoresBrain (trim line)) = true ↔ Ignored text :=
    fun text => by simp [Ignored, List.any_eq_true]
  unfold ensureGitignore
  rw [bind_ok]
  simp only [readGitignore_ok]
  constructor
  · rintro ⟨text, _, ⟨hr, ht, rfl⟩, h⟩
    refine ⟨hr, text, ht, ?_⟩
    split_ifs at h with hi
    · exact Or.inl ⟨(hany text).mp hi, pure_ok.mp h⟩
    · exact Or.inr ⟨(hany text).not.mp hi, access_bind_ok.mp h |>.imp id fun h => pure_ok.mp h⟩
  · rintro ⟨hr, text, ht, ⟨hi, h⟩ | ⟨hi, hw, h⟩⟩
    · exact ⟨text, s, ⟨hr, ht, rfl⟩, by rw [if_pos ((hany text).mpr hi)]; exact pure_ok.mpr h⟩
    · refine ⟨text, s, ⟨hr, ht, rfl⟩, ?_⟩
      rw [if_neg ((hany text).not.mpr hi), access_bind_ok]
      exact ⟨hw, pure_ok.mpr h⟩

theorem recordIf_ok {b : Bool} {f : InitReport → InitReport} {u : Unit} :
    recordIf b f s = .ok u s' ↔ { s with report := if b then f s.report else s.report } = s' :=
  modify_ok

/-! ### Runs -/

/-- The directories are there after the loop; nothing else below the root has changed. -/
theorem createDirs_ok : ∀ (l : List BrainDir) {s : Progress} {u : Unit},
    l.forM (createDir m root) s = .ok u s' → (∀ d ∈ l, s'.dir.dirs d = .directory) ∧
      (∀ d, s.dir.dirs d = .directory → s'.dir.dirs d = .directory) ∧
        s'.dir = { s.dir with dirs := s'.dir.dirs }
  | [], s, u, h => by
    obtain ⟨-, rfl⟩ := pure_ok.mp h
    exact ⟨by simp, fun d hd => hd, rfl⟩
  | d :: l, s, u, h => by
    obtain ⟨_, t, hcreate, h⟩ := bind_ok.mp h
    obtain ⟨hl, hstay, hframe⟩ := createDirs_ok l h
    rcases createDir_ok.mp hcreate with ⟨hd, rfl⟩ | ⟨-, -, rfl⟩
    · exact ⟨List.forall_mem_cons.mpr ⟨hstay d hd, hl⟩, hstay, hframe⟩
    · refine ⟨List.forall_mem_cons.mpr ⟨hstay d (Function.update_self ..), hl⟩, fun d' hd' => ?_, hframe⟩
      refine hstay d' ?_
      by_cases he : d' = d
      · rw [he]
        exact Function.update_self ..
      · exact (Function.update_of_ne he ..).trans hd'

theorem createDirs_again : ∀ (l : List BrainDir) {s : Progress},
    (∀ d ∈ l, s.dir.dirs d = .directory) → l.forM (createDir m root) s = .ok () s
  | [], s, _ => rfl
  | d :: l, s, h => by
    obtain ⟨hd, hl⟩ := List.forall_mem_cons.mp h
    exact bind_ok.mpr ⟨(), s, createDir_ok.mpr (Or.inl ⟨hd, rfl⟩), createDirs_again l hl⟩

/-- The entry comes after the old text, on a line of its own. -/
theorem withEntry_spec (text : Text) : text <+: withEntry text ∧ Ignored (withEntry text) := by
  -- the comment in front of the entry ends with a line break
  have htail : ∀ updated : Text, updated ++ "\n# Brain Engine local data (do not commit)\n".toList ++
      gitignoreEntry ++ ['\n'] = updated ++ "\n# Brain Engine local data (do not commit)".toList ++
        '\n' :: ".brain/\n".toList := by
    intro updated
    rw [List.append_assoc, List.append_assoc, List.append_assoc]
    exact congrArg (updated ++ ·) (by decide)
  have hpre : ∃ pre, withEntry text = pre ++ '\n' :: ".brain/\n".toList ∧ text <+: pre := by
    unfold withEntry
    dsimp only
    split_ifs
    · refine ⟨_, htail _, ?_⟩
      rw [List.append_assoc]
      exact List.prefix_append _ _
    · exact ⟨_, htail _, List.prefix_append _ _⟩
  obtain ⟨pre, heq, htext⟩ := hpre
  rw [heq]
  exact ⟨htext.trans (List.prefix_append _ _),
    ".brain/".toList, mem_lines_append (by decide), by decide⟩

/-- **What an initialisation keeps**: an existing configuration file, the rows of an existing database,
and the text of `.gitignore`, which gets the entry. -/
structure Kept (dir dir' : ProjectDir) : Prop where
  config : dir.config.present = true → dir'.config = dir.config
  database : ∀ d, dir.database = .file d → ∃ d', dir'.database = .file d' ∧ Keeps d d'
  gitignore : ∃ old new, gitignoreText dir.gitignore = some old ∧ dir'.gitignore = .file (some new) ∧
    old <+: new ∧ Ignored new

/-- The database after `db::open`. -/
theorem database_opened (hdb : ∀ d, s.dir.database = .file d → d.userVersion ≤ schemaVersion)
    {u : Unit} (h : openDatabase m root s = .ok u s') : m.refuses .openDb (metadataDb root) = none ∧
      ∃ d', s' = { s with dir := { s.dir with database := .file d' } } ∧
        d'.userVersion = schemaVersion ∧ d'.wal = true ∧
          ∀ d, s.dir.database = .file d → Keeps d d' := by
  obtain ⟨ho, d, hd, hrun⟩ := openDatabase_ok.mp h
  obtain ⟨d', hk, hv, hw, rfl⟩ := runSteps_ok _ hrun rfl
  refine ⟨ho, d', rfl, ?_⟩
  cases hs : s.dir.database with
  | directory =>
    rw [hs] at hd
    cases hd
  | absent =>
    rw [hs] at hd
    cases hd
    exact ⟨hv.trans (versionAfter_migrate 0 (by decide)), hw, fun d hd => by cases hd⟩
  | file d₀ =>
    rw [hs] at hd
    cases hd
    refine ⟨hv.trans (versionAfter_migrate _ (hdb d₀ hs)), hw, fun d hd => ?_⟩
    cases hd
    exact ⟨hk.columns, hk.rows⟩

/-- The configuration file after `save_if_absent`. -/
theorem config_saved {b : Bool} (h : saveIfAbsent m root s = .ok b s') :
    s'.dir.config.present = true ∧ (s.dir.config.present = true → s'.dir.config = s.dir.config) ∧
      s'.dir = { s.dir with config := s'.dir.config } := by
  rcases saveIfAbsent_ok.mp h with ⟨hp, -, rfl⟩ | ⟨hp, -, -, rfl⟩
  · exact ⟨hp, fun _ => rfl, rfl⟩
  · exact ⟨rfl, fun hp' => by simp [hp] at hp', rfl⟩

/-- `.gitignore` after `ensure_gitignore`. -/
theorem gitignore_ensured {b : Bool} (h : ensureGitignore m root s = .ok b s') :
    m.refuses .read (gitignoreFile root) = none ∧
      (∃ old new, gitignoreText s.dir.gitignore = some old ∧ s'.dir.gitignore = .file (some new) ∧
        old <+: new ∧ Ignored new) ∧ s'.dir = { s.dir with gitignore := s'.dir.gitignore } := by
  obtain ⟨hr, text, ht, ⟨hi, -, rfl⟩ | ⟨-, -, -, rfl⟩⟩ := ensureGitignore_ok.mp h
  · refine ⟨hr, ⟨text, text, ht, ?_, List.prefix_refl _, hi⟩, rfl⟩
    cases hg : s.dir.gitignore with
    | absent =>
      -- a missing file has no line
      rw [hg] at ht
      cases ht
      obtain ⟨line, hl, -⟩ := hi
      cases hl
    | directory =>
      rw [hg] at ht
      cases ht
    | file t =>
      rw [hg] at ht
      exact congrArg Entry.file ht
  · obtain ⟨hpre, hi⟩ := withEntry_spec text
    exact ⟨hr, ⟨text, _, ht, rfl, hpre, hi⟩, rfl⟩

/-- **A run that succeeds** keeps what is there, and leaves nothing to do. -/
theorem settled_of_ok (hdb : ∀ d, s.dir.database = .file d → d.userVersion ≤ schemaVersion)
    (h : initProject m root s = .ok () s') : Settled m root s'.dir ∧ Kept s.dir s'.dir := by
  unfold initProject at h
  rw [get_bind] at h
  split_ifs at h with hroot
  · exact absurd h throw_ok
  obtain ⟨_, s₁, h₁, h⟩ := bind_ok.mp h
  obtain ⟨created, s₂, h₂, h⟩ := bind_ok.mp h
  obtain ⟨_, s₃, h₃, h⟩ := bind_ok.mp h
  rw [get_bind] at h
  obtain ⟨_, s₄, h₄, h⟩ := bind_ok.mp h
  obtain ⟨_, s₅, h₅, h⟩ := bind_ok.mp h
  obtain ⟨updated, s₆, h₆, h₇⟩ := bind_ok.mp h
  obtain ⟨hdirs, -, f₁⟩ := createDirs_ok directories h₁
  obtain ⟨hconfig, hsame, f₂⟩ := config_saved h₂
  obtain rfl := recordIf_ok.mp h₃
  have hdb₃ : s₂.dir.database = s.dir.database := by rw [f₂, f₁]
  obtain ⟨ho, d', rfl, hv, hw, hkeep⟩ := database_opened (by rw [hdb₃]; exact hdb) h₄
  obtain rfl := recordIf_ok.mp h₅
  obtain ⟨hr, ⟨old, new, hold, hnew, hpre, hi⟩, f₆⟩ := gitignore_ensured h₆
  obtain rfl := recordIf_ok.mp h₇
  dsimp only at f₆ hold hkeep ⊢
  rw [hdb₃] at hkeep
  have hgit : s₂.dir.gitignore = s.dir.gitignore := by rw [f₂, f₁]
  have hroot' : s.dir.rootIsDir = true := by simpa using hroot
  refine ⟨⟨?_, ?_, ?_, ⟨d', ?_, hv, hw⟩, ⟨new, hnew, hi⟩, ho, hr⟩, ⟨fun hp => ?_, fun d hd => ?_, ?_⟩⟩
  · rw [f₆, f₂, f₁]
    exact hroot'
  · intro d hd
    rw [f₆, f₂]
    exact hdirs d hd
  · rw [f₆]
    exact hconfig
  · rw [f₆]
  · rw [f₆]
    dsimp only
    rw [hsame (by rw [f₁]; exact hp), f₁]
  · rw [f₆]
    exact ⟨d', rfl, hkeep d hd⟩
  · exact ⟨old, new, hgit ▸ hold, hnew, hpre, hi⟩

/-- **A run in a settled directory** changes nothing and has nothing to report. -/
theorem initProject_of_settled {dir : ProjectDir} (h : Settled m root dir) :
    initProject m root ⟨dir, {}⟩ = .ok () ⟨dir, {}⟩ := by
  obtain ⟨d, hd, hv, hw⟩ := h.database
  obtain ⟨text, ht, hi⟩ := h.gitignore
  have hopened : opened dir.database = some d := by
    rw [hd, opened, ← hw]
  have hdir : { dir with database := .file d } = dir := by rw [← hd]
  have hsteps : migrate d.userVersion = [] := by
    rw [hv]
    rfl
  unfold initProject
  rw [get_bind, if_neg (by simp [h.rootIsDir])]
  refine bind_ok.mpr ⟨(), _, createDirs_again directories h.dirs, ?_⟩
  refine bind_ok.mpr ⟨false, _, saveIfAbsent_ok.mpr (Or.inl ⟨h.config, rfl, rfl⟩), ?_⟩
  refine bind_ok.mpr ⟨(), _, recordIf_ok.mpr rfl, ?_⟩
  rw [get_bind]
  refine bind_ok.mpr ⟨(), ⟨dir, {}⟩, openDatabase_ok.mpr ⟨h.openDb, d, hopened, ?_⟩, ?_⟩
  · rw [hsteps, hdir]
    rfl
  refine bind_ok.mpr ⟨(), ⟨dir, {}⟩, recordIf_ok.mpr ?_, ?_⟩
  · rw [hd]
    rfl
  refine bind_ok.mpr ⟨false, ⟨dir, {}⟩, ensureGitignore_ok.mpr ⟨h.read, text, ?_, ?_⟩, recordIf_ok.mpr rfl⟩
  · rw [ht]
    rfl
  · exact Or.inl ⟨hi, rfl, rfl⟩

variable (m root) in
/-- **Initialisation is non-destructive and idempotent.** From every project directory whose database,
if there is one, is at a version that complete migrations lead to: a run that succeeds keeps the
configuration file, the rows of the database and the text of `.gitignore`, which then ignores the brain;
and a second run succeeds, changes nothing and has nothing to report. -/
theorem initProject_again {dir dir' : ProjectDir} {report : InitReport}
    (hdb : ∀ d, dir.database = .file d → Complete d)
    (h : initProject m root ⟨dir, {}⟩ = .ok () ⟨dir', report⟩) :
    Kept dir dir' ∧ initProject m root ⟨dir', {}⟩ = .ok () ⟨dir', {}⟩ := by
  obtain ⟨hsettled, hkept⟩ := settled_of_ok (fun d hd => (hdb d hd).1) h
  exact ⟨hkept, initProject_of_settled hsettled⟩

end

/-! ### A project of an older version -/

/-- A machine that refuses nothing. -/
def machine : Machine := ⟨fun _ _ => none, fun _ => [], fun _ => [0x7B, 0x7D]⟩

/-- A brain whose database has an answer in its cache and is still at version 1. The last line of
`.gitignore` has no end. -/
def olderProject : ProjectDir where
  rootIsDir := true
  dirs d := if d = .brainDir then .directory else .absent
  config := .file [0x7B, 0x7D, 0x0A]
  database := .file {
    userVersion := 1
    schema := schemaAt (offset 1)
    rows name := if name = "cache" then [[.text "k".toList, .text "r".toList, .integer 0, .null]] else []
    wal := false }
  gitignore := .file (some "target".toList)

theorem initProject_again_olderProject : ∃ dir' report,
    initProject machine [] ⟨olderProject, {}⟩ = .ok () ⟨dir', report⟩ ∧ Kept olderProject dir' ∧
      initProject machine [] ⟨dir', {}⟩ = .ok () ⟨dir', {}⟩ := by
  have hok : (match initProject machine [] ⟨olderProject, {}⟩ with
    | .ok _ _ => true
    | .error _ _ => false) = true := by decide +kernel
  cases h : initProject machine [] ⟨olderProject, {}⟩ with
  | ok u s => exact ⟨s.dir, s.report, rfl, initProject_again machine [] (fun d hd => by
      cases hd
      exact ⟨by decide, rfl⟩) h⟩
  | error e s =>
    rw [h] at hok
    cases hok

end BrainEngine.Store.Init
