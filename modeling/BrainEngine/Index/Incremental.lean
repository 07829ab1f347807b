import BrainEngine.Index.Runs
import BrainEngine.Core.Sample

/-! # Incremental indexing and indexing from scratch

A run leaves alone what it finds unchanged, so its result depends on the rows of all earlier runs.
`Synced` says that the entries of the index are those of the files of one directory; it is what a run
into an empty database establishes, and `synced_step` shows that the next run carries it over to the
next directory, except in one case: a file that has a row and is no longer text is skipped, and its row
and chunks stay. -/

namespace BrainEngine.Index.Incremental

open BrainEngine.Rust.Str BrainEngine.Lib.Outcome BrainEngine.Core.External BrainEngine.Core.Config
open BrainEngine.Core.Chunking BrainEngine.Core.Symbols BrainEngine.Core.Walk
open BrainEngine.Core.Database BrainEngine.Core.Index BrainEngine.Core.Docs
open BrainEngine.Core.Sample BrainEngine.Index.Runs

/-- The candidates of a directory. -/
def entries (x : Extern) (t : Tree) (cfg : ProjectConfig) : List WalkEntry :=
  match walk x t cfg with
  | .ok outcome => outcome.entries
  | .error _ => []

/-- The text of a candidate. -/
def TextAt (t : Tree) (e : WalkEntry) (text : Text) : Prop :=
  ∃ bytes, t.read e.absPath = .ok bytes ∧ textOf bytes = some text

/-- A walk yields each path once. -/
def Distinct (x : Extern) (cfg : ProjectConfig) (t : Tree) : Prop :=
  ((entries x t cfg).map WalkEntry.relPath).Nodup

/-- How a file may differ from the same file in an earlier directory: a change of its content changes
its size or its time, and SHA-256 tells the two contents apart. -/
structure Tracked (x : Extern) (cfg : ProjectConfig) (t t' : Tree) : Prop where
  stat : ∀ e ∈ entries x t cfg, ∀ e' ∈ entries x t' cfg, e.relPath = e'.relPath →
    e.size = e'.size → e.mtime = e'.mtime → t.read e.absPath = t'.read e'.absPath
  hash : ∀ e ∈ entries x t cfg, ∀ e' ∈ entries x t' cfg, e.relPath = e'.relPath →
    ∀ text text', TextAt t e text → TextAt t' e' text' →
      x.sha256Hex text = x.sha256Hex text' → text = text'

/-- Every candidate that has a row is still text. -/
def TextStays (x : Extern) (cfg : ProjectConfig) (db : Db) (t : Tree) : Prop :=
  ∀ e ∈ entries x t cfg, (∃ a ∈ db.files.rows, a.2.path = e.relPath) →
    ∀ bytes, t.read e.absPath = .ok bytes → textOf bytes ≠ none

/-- Sequences of successful runs with one configuration, each over a directory that the condition `C`
allows: the last directory and the database. -/
inductive Sequence (x : Extern) (cfg : ProjectConfig) (C : Db → Tree → Prop) :
    Option Tree → Db → Prop
  | start : Sequence x cfg C none Db.empty
  | next {prev : Option Tree} {db db' : Db} {t : Tree} {now : ℕ} {stats : IndexStats}
    (h : Sequence x cfg C prev db) (hd : Distinct x cfg t) (ht : ∀ t₀ ∈ prev, Tracked x cfg t₀ t)
    (hc : C db t) (hr : indexProject x t cfg now db = .ok (db', stats)) :
    Sequence x cfg C (some t) db'

/-- A run into an empty database succeeds and leaves the same files, chunks and symbols, up to row ids
and times. -/
def SameAsScratch (x : Extern) (cfg : ProjectConfig) (t : Tree) (db : Db) : Prop :=
  ∀ now, ∃ db₀ stats, indexProject x t cfg now Db.empty = .ok (db₀, stats) ∧
    (docs db).Perm (docs db₀) ∧ ForeignKeys db ∧ ForeignKeys db₀

variable {x : Extern} {cfg : ProjectConfig} {t t' : Tree} {db db' : Db} {now : ℕ}

theorem entries_of_walk {outcome : WalkOutcome} (h : walk x t cfg = .ok outcome) :
    entries x t cfg = outcome.entries := by
  unfold entries
  rw [h]

/-! ### What classification compares -/

theorem lookup_loadExisting (h : WellFormed db) {p : Text} {f : ExistingFile} :
    (loadExisting db).lookup p = some f ↔ ∃ a ∈ db.files.rows, a.2.path = p ∧
      f = { id := a.1, hash := a.2.hash, size := a.2.sizeBytes.toUInt64, mtime := a.2.mtime } := by
  have hn : ((loadExisting db).map Prod.fst).Nodup := by
    simpa [loadExisting, Function.comp_def] using h.paths
  rw [lookup_eq_some_iff hn]
  simp only [loadExisting, List.mem_map, Prod.mk.injEq]
  constructor
  · rintro ⟨a, ha, h1, h2⟩; exact ⟨a, ha, h1, h2.symm⟩
  · rintro ⟨a, ha, h1, h2⟩; exact ⟨a, ha, h1, h2.symm⟩

theorem untouched_iff (h : WellFormed db) {e : WalkEntry} : Untouched (loadExisting db) e ↔
    ∃ d, docAt db e.relPath = some d ∧ d.sizeBytes.toUInt64 = e.size ∧ d.mtime = e.mtime := by
  constructor
  · rintro ⟨f, hf, h1, h2⟩
    obtain ⟨a, ha, hp, rfl⟩ := (lookup_loadExisting h).mp hf
    exact ⟨docOf db a, (docAt_eq_some h).mpr ⟨a, ha, hp, rfl⟩, h1, h2⟩
  · rintro ⟨d, hd, h1, h2⟩
    obtain ⟨a, ha, hp, rfl⟩ := (docAt_eq_some h).mp hd
    exact ⟨_, (lookup_loadExisting h).mpr ⟨a, ha, hp, rfl⟩, h1, h2⟩

theorem sameHash_iff (h : WellFormed db) {e : WalkEntry} {hash : Text} :
    SameHash (loadExisting db) e hash ↔ ∃ d, docAt db e.relPath = some d ∧ d.hash = hash := by
  constructor
  · rintro ⟨f, hf, h1⟩
    obtain ⟨a, ha, hp, rfl⟩ := (lookup_loadExisting h).mp hf
    exact ⟨docOf db a, (docAt_eq_some h).mpr ⟨a, ha, hp, rfl⟩, h1⟩
  · rintro ⟨d, hd, h1⟩
    obtain ⟨a, ha, hp, rfl⟩ := (docAt_eq_some h).mp hd
    exact ⟨_, (lookup_loadExisting h).mpr ⟨a, ha, hp, rfl⟩, h1⟩

/-! ### One file -/

/-- `d` is the entry of the file `e` of `t`. -/
def IsText (x : Extern) (cfg : ProjectConfig) (t : Tree) (e : WalkEntry) (d : Doc) : Prop :=
  ∃ text c, TextAt t e text ∧ changedFile x cfg e text = .ok c ∧ d = newDoc c

/-- The entry of the file `e` of `t` is right: there is one if the file is text. -/
def Right (x : Extern) (cfg : ProjectConfig) (t : Tree) (e : WalkEntry) (d : Option Doc) : Prop :=
  (∃ bytes, t.read e.absPath = .ok bytes ∧ textOf bytes = none) ∧ d = none ∨
    ∃ d', IsText x cfg t e d' ∧ d = some d'

/-- The payload of a text depends on the candidate through its path; size and time are copied. -/
theorem changedFile_congr {e e' : WalkEntry} {text : Text} {c : ChangedFile}
    (hp : e.relPath = e'.relPath) (h : changedFile x cfg e text = .ok c) :
    changedFile x cfg e' text = .ok { c with size := e'.size, mtime := e'.mtime } := by
  obtain ⟨symbols, hs, rfl⟩ := changedFile_ok_iff.mp h
  exact changedFile_ok_iff.mpr ⟨symbols, hp ▸ hs, by rw [hp]⟩

theorem right_unique {e : WalkEntry} {d d' : Option Doc} (h : Right x cfg t e d)
    (h' : Right x cfg t e d') : d = d' := by
  rcases h with ⟨⟨b, hb, hn⟩, rfl⟩ | ⟨d1, ⟨text, c, ⟨b, hb, ht⟩, hc, rfl⟩, rfl⟩
  · rcases h' with ⟨-, rfl⟩ | ⟨d2, ⟨text', c', ⟨b', hb', ht'⟩, -, -⟩, rfl⟩
    · rfl
    · rw [hb] at hb'
      cases hb'
      rw [hn] at ht'
      simp at ht'
  · rcases h' with ⟨⟨b', hb', hn'⟩, rfl⟩ | ⟨d2, ⟨text', c', ⟨b', hb', ht'⟩, hc', rfl⟩, rfl⟩
    · rw [hb] at hb'
      cases hb'
      rw [ht] at hn'
      simp at hn'
    · rw [hb] at hb'
      cases hb'
      rw [ht] at ht'
      cases ht'
      rw [hc] at hc'
      cases hc'
      rfl

/-- **A file without an entry** gets the right one. -/
theorem right_of_new (h : WellFormed db) {e : WalkEntry} {w : FileWork}
    (hd : docAt db e.relPath = none) (hc : classify x t cfg (loadExisting db) e = .ok w) :
    Right x cfg t e (persistAt w (docAt db e.relPath)) := by
  have hu : ¬Untouched (loadExisting db) e := by simp [untouched_iff h, hd]
  have hs : ∀ hash, ¬SameHash (loadExisting db) e hash := by simp [sameHash_iff h, hd]
  rcases classify_ok_iff.mp hc with ⟨h1, -⟩ | ⟨-, bytes, hr, ⟨ht, rfl⟩ | ⟨text, ht, h2⟩⟩
  · exact absurd h1 hu
  · exact Or.inl ⟨⟨bytes, hr, ht⟩, hd⟩
  · rcases h2 with ⟨h2, -⟩ | ⟨-, c, h3, rfl⟩
    · exact absurd h2 (hs _)
    · exact Or.inr ⟨newDoc c, ⟨text, c, ⟨bytes, hr, ht⟩, h3, rfl⟩, rfl⟩

/-- **A file with an entry** that was right in an earlier directory gets the one that is right now, if
it is still text. The cases are those of `classify`. -/
theorem right_of_old (h : WellFormed db) (ht : Tracked x cfg t t') {e e' : WalkEntry}
    (he : e ∈ entries x t cfg) (he' : e' ∈ entries x t' cfg) (hp : e.relPath = e'.relPath) {d : Doc}
    (hd : docAt db e'.relPath = some d) (hi : IsText x cfg t e d)
    (hstay : ∀ bytes, t'.read e'.absPath = .ok bytes → textOf bytes ≠ none) {w : FileWork}
    (hc : classify x t' cfg (loadExisting db) e' = .ok w) :
    Right x cfg t' e' (persistAt w (docAt db e'.relPath)) := by
  obtain ⟨text, c, hat, hcf, rfl⟩ := hi
  have hcf' := changedFile_congr hp hcf
  have hsize : c.size = e.size ∧ c.mtime = e.mtime := by
    obtain ⟨symbols, -, rfl⟩ := changedFile_ok_iff.mp hcf
    exact ⟨rfl, rfl⟩
  have hhash : c.hash = x.sha256Hex text := by
    obtain ⟨symbols, -, rfl⟩ := changedFile_ok_iff.mp hcf
    rfl
  rcases classify_ok_iff.mp hc with ⟨h1, rfl⟩ | ⟨-, bytes, hr, ⟨hb, rfl⟩ | ⟨text', htx, h2⟩⟩
  · -- unchanged: the same content, because size and time are the same
    obtain ⟨d', hd', h3, h4⟩ := (untouched_iff h).mp h1
    rw [hd] at hd'
    cases hd'
    have hse : c.size = e'.size := h3
    have hme : c.mtime = e'.mtime := h4
    have hread := ht.stat e he e' he' hp (hsize.1.symm.trans hse) (hsize.2.symm.trans hme)
    obtain ⟨b, hb, htb⟩ := hat
    rw [← hse, ← hme] at hcf'
    exact Or.inr ⟨newDoc c, ⟨text, c, ⟨b, hread ▸ hb, htb⟩, hcf', rfl⟩, hd⟩
  · exact absurd hb (hstay bytes hr)
  · rcases h2 with ⟨h2, rfl⟩ | ⟨-, c', h3, rfl⟩
    · -- touched: the same content, because the digest is the same
      obtain ⟨d', hd', h3⟩ := (sameHash_iff h).mp h2
      rw [hd] at hd'
      cases hd'
      have htext : text = text' :=
        ht.hash e he e' he' hp text text' hat ⟨bytes, hr, htx⟩ (hhash.symm.trans h3)
      subst htext
      exact Or.inr ⟨_, ⟨text, _, ⟨bytes, hr, htx⟩, hcf', rfl⟩, by rw [hd]; rfl⟩
    · exact Or.inr ⟨newDoc c', ⟨text', c', ⟨bytes, hr, htx⟩, h3, rfl⟩, rfl⟩

/-! ### All files -/

/-- The entries are those of the files of `t`. -/
structure Synced (x : Extern) (cfg : ProjectConfig) (t : Tree) (db : Db) : Prop where
  wf : WellFormed db
  walked : ∃ outcome, walk x t cfg = .ok outcome
  distinct : Distinct x cfg t
  right : ∀ e ∈ entries x t cfg, Right x cfg t e (docAt db e.relPath)
  only : ∀ p, p ∉ (entries x t cfg).map WalkEntry.relPath → docAt db p = none

/-- The databases the next run may start from: empty, or right for the last directory. -/
def Known (x : Extern) (cfg : ProjectConfig) (prev : Option Tree) (db : Db) : Prop :=
  match prev with
  | none => db = Db.empty
  | some t => Synced x cfg t db

theorem docAt_empty (p : Text) : docAt Db.empty p = none := rfl

theorem wellFormed_of_known {prev : Option Tree} (h : Known x cfg prev db) : WellFormed db := by
  cases prev with
  | none =>
    have h : db = Db.empty := h
    rw [h]
    exact wellFormed_empty
  | some t => exact Synced.wf h

/-- An entry is that of a file of the last directory. -/
theorem isText_of_known {prev : Option Tree} (h : Known x cfg prev db) {p : Text} {d : Doc}
    (hd : docAt db p = some d) :
    ∃ t₀ ∈ prev, ∃ e ∈ entries x t₀ cfg, e.relPath = p ∧ IsText x cfg t₀ e d := by
  cases prev with
  | none =>
    have h : db = Db.empty := h
    rw [h, docAt_empty] at hd
    simp at hd
  | some t =>
    have h : Synced x cfg t db := h
    have hm : p ∈ (entries x t cfg).map WalkEntry.relPath := by
      by_contra hn
      rw [h.only p hn] at hd
      simp at hd
    obtain ⟨e, he, rfl⟩ := List.mem_map.mp hm
    rcases h.right e he with ⟨-, hn⟩ | ⟨d', hd', hs⟩
    · rw [hd] at hn
      simp at hn
    · rw [hd] at hs
      cases hs
      exact ⟨t, rfl, e, he, rfl, hd'⟩

theorem docAt_run (h : WellFormed db) (hdis : Distinct x cfg t) {ws : List (Text × FileWork)}
    (hw : Outcomes x t cfg db (entries x t cfg) ws) {e : WalkEntry} {w : FileWork}
    (hm : (e.relPath, w) ∈ ws) :
    docAt (transaction now ws db) e.relPath = persistAt w (docAt db e.relPath) := by
  have hn : (ws.map Prod.fst).Nodup := by
    rw [fst_outcomes hw]
    exact hdis
  rw [docAt_transaction h hn, (lookup_eq_some_iff hn).mpr hm]
  rfl

/-- **One run** makes the entries right for its directory, if every file with a row is still text. -/
theorem synced_step {prev : Option Tree} (h : Known x cfg prev db) (hdis : Distinct x cfg t)
    (ht : ∀ t₀ ∈ prev, Tracked x cfg t₀ t) (hc : TextStays x cfg db t) {stats : IndexStats}
    (hr : indexProject x t cfg now db = .ok (db', stats)) : Synced x cfg t db' := by
  obtain ⟨outcome, ws, hwalk, hw, rfl⟩ := indexProject_ok_iff.mp ⟨stats, hr⟩
  rw [← entries_of_walk hwalk] at hw
  have hwf := wellFormed_of_known h
  have hn : (ws.map Prod.fst).Nodup := by
    rw [fst_outcomes hw]
    exact hdis
  refine ⟨wellFormed_transaction hwf ws, ⟨outcome, hwalk⟩, hdis, fun e he => ?_, fun p hp => ?_⟩
  · obtain ⟨⟨p, w⟩, hm, hp, hcl⟩ := exists_right hw he
    subst hp
    rw [docAt_run hwf hdis hw hm]
    cases hd : docAt db e.relPath with
    | none =>
      rw [← hd]
      exact right_of_new hwf hd hcl
    | some d =>
      obtain ⟨t₀, h0, e₀, he0, hp0, hi⟩ := isText_of_known h hd
      obtain ⟨a, ha, hpa, -⟩ := (docAt_eq_some hwf).mp hd
      rw [← hd]
      exact right_of_old hwf (ht t₀ h0) he0 he hp0 hd hi (hc e he ⟨a, ha, hpa⟩) hcl
  · rw [docAt_transaction hwf hn, lookup_eq_none_iff.mpr (by rwa [fst_outcomes hw])]
    rfl

/-- A directory can be indexed from scratch if the walk succeeds and every candidate has a right
entry. -/
theorem exists_run_empty {outcome : WalkOutcome} (hwalk : walk x t cfg = .ok outcome)
    (h : ∀ e ∈ entries x t cfg, ∃ d, Right x cfg t e d) (now : ℕ) :
    ∃ db₀ stats, indexProject x t cfg now Db.empty = .ok (db₀, stats) := by
  have hcl : ∀ e ∈ entries x t cfg, ∃ w : Text × FileWork,
      e.relPath = w.1 ∧ classify x t cfg (loadExisting Db.empty) e = .ok w.2 := by
    intro e he
    have hu : ¬Untouched (loadExisting Db.empty) e := by
      simp [untouched_iff wellFormed_empty, docAt_empty]
    have hs : ∀ hash, ¬SameHash (loadExisting Db.empty) e hash := by
      simp [sameHash_iff wellFormed_empty, docAt_empty]
    obtain ⟨d, ⟨⟨bytes, hr, hb⟩, -⟩ | ⟨d, ⟨text, c, ⟨bytes, hr, hb⟩, hc, -⟩, -⟩⟩ := h e he
    · exact ⟨(e.relPath, .skippedBinary), rfl,
        classify_ok_iff.mpr (Or.inr ⟨hu, bytes, hr, Or.inl ⟨hb, rfl⟩⟩)⟩
    · exact ⟨(e.relPath, .changed c), rfl,
        classify_ok_iff.mpr (Or.inr ⟨hu, bytes, hr, Or.inr ⟨text, hb, Or.inr ⟨hs _, c, hc, rfl⟩⟩⟩)⟩
  obtain ⟨ws, hws⟩ := exists_forall₂ hcl
  rw [entries_of_walk hwalk] at hws
  obtain ⟨stats, hr⟩ := indexProject_ok_iff.mpr ⟨outcome, ws, hwalk, hws, rfl⟩
  exact ⟨transaction now ws Db.empty, stats, hr⟩

theorem docAt_unique (h : Synced x cfg t db) (h' : Synced x cfg t db') (p : Text) :
    docAt db p = docAt db' p := by
  by_cases hm : p ∈ (entries x t cfg).map WalkEntry.relPath
  · obtain ⟨e, he, rfl⟩ := List.mem_map.mp hm
    exact right_unique (h.right e he) (h'.right e he)
  · rw [h.only p hm, h'.only p hm]

theorem textStays_empty : TextStays x cfg Db.empty t := by
  rintro e - ⟨a, ha, -⟩
  simp [Db.empty] at ha

theorem sameAsScratch_of_synced (h : Synced x cfg t db) : SameAsScratch x cfg t db := by
  intro now
  obtain ⟨outcome, hwalk⟩ := h.walked
  obtain ⟨db₀, stats, hr⟩ := exists_run_empty hwalk (fun e he => ⟨_, h.right e he⟩) now
  have h0 : Synced x cfg t db₀ :=
    have hk : Known x cfg none Db.empty := rfl
    synced_step hk h.distinct (by simp) textStays_empty hr
  exact ⟨db₀, stats, hr, (perm_docs h.wf h0.wf).mpr (docAt_unique h h0), h.wf.keys, h0.wf.keys⟩

/-- **Every run** of a sequence in which the files with a row stay text. -/
theorem known_of_sequence {prev : Option Tree} (h : Sequence x cfg (TextStays x cfg) prev db) :
    Known x cfg prev db := by
  induction h with
  | start => rfl
  | next _ hd ht hc hr ih => exact synced_step ih hd ht hc hr

/-! ### Binary files -/

theorem docAt_skipped (h : WellFormed db) (hdis : Distinct x cfg t) {ws : List (Text × FileWork)}
    (hw : Outcomes x t cfg db (entries x t cfg) ws) {e : WalkEntry} (he : e ∈ entries x t cfg)
    {bytes : List UInt8} (hr : t.read e.absPath = .ok bytes) (hb : textOf bytes = none) :
    docAt (transaction now ws db) e.relPath = docAt db e.relPath := by
  obtain ⟨⟨p, w⟩, hm, hp, hcl⟩ := exists_right hw he
  subst hp
  rw [docAt_run h hdis hw hm]
  rcases classify_ok_iff.mp hcl with ⟨-, rfl⟩ | ⟨-, bytes', hr', ⟨-, rfl⟩ | ⟨text, ht, -⟩⟩
  · rfl
  · rfl
  · rw [hr] at hr'
    cases hr'
    rw [hb] at ht
    simp at ht

/-- **Incremental indexing equals indexing from scratch, exactly while no file with a row turns
binary.** After any sequence of runs that met the condition, the next successful run leaves what a run
into an empty database leaves if and only if it meets the condition too. -/
theorem sameAsScratch_iff {prev : Option Tree} (h : Sequence x cfg (TextStays x cfg) prev db)
    (hdis : Distinct x cfg t) (ht : ∀ t₀ ∈ prev, Tracked x cfg t₀ t) {stats : IndexStats}
    (hr : indexProject x t cfg now db = .ok (db', stats)) :
    SameAsScratch x cfg t db' ↔ TextStays x cfg db t := by
  have hk := known_of_sequence h
  constructor
  · rintro hs e he ⟨a, ha, hpa⟩ bytes hre hb
    have hwf := wellFormed_of_known hk
    obtain ⟨outcome, ws, hwalk, hw, rfl⟩ := indexProject_ok_iff.mp ⟨stats, hr⟩
    rw [← entries_of_walk hwalk] at hw
    obtain ⟨db₀, stats₀, hr0, hperm, -, -⟩ := hs 0
    obtain ⟨outcome', ws', hwalk', hw', rfl⟩ := indexProject_ok_iff.mp ⟨stats₀, hr0⟩
    rw [← entries_of_walk hwalk'] at hw'
    have heq := (perm_docs (wellFormed_transaction hwf ws)
      (wellFormed_transaction wellFormed_empty ws')).mp hperm e.relPath
    -- the row stays in the one database and never comes into the other
    rw [docAt_skipped hwf hdis hw he hre hb, docAt_skipped wellFormed_empty hdis hw' he hre hb,
      docAt_empty, ← hpa, docAt_of_mem hwf ha] at heq
    simp at heq
  · intro hc
    exact sameAsScratch_of_synced (synced_step hk hdis ht hc hr)

/-! ### Small directories -/

def editedFile : Tree := treeOf [("a.txt", 2, ascii "c")]

def binaryFile : Tree := treeOf [("a.txt", 2, [0])]

theorem tracked_aAndB {t : Tree} (bytes : List UInt8)
    (ht : entries sample t {} = [⟨"a.txt".toList, "a.txt".toList, 1, 2⟩])
    (hr : t.read "a.txt".toList = .ok bytes)
    (hh : ∀ text, textOf bytes = some text → text = "c".toList) : Tracked sample {} aAndB t := by
  have h1 : entries sample aAndB {} =
      [⟨"a.txt".toList, "a.txt".toList, 1, 1⟩, ⟨"b.txt".toList, "b.txt".toList, 1, 1⟩] := by decide
  refine ⟨?_, ?_⟩
  · intro e he e' he' _ _ hm
    rw [h1] at he
    rw [ht] at he'
    simp only [List.mem_cons, List.not_mem_nil, or_false] at he he'
    rcases he with rfl | rfl
    · rw [he'] at hm
      simp at hm
    · rw [he'] at hm
      simp at hm
  · rintro e he e' he' hp text text' ⟨b, hb, hbt⟩ ⟨b', hb', hbt'⟩ hs
    rw [h1] at he
    rw [ht] at he'
    simp only [List.mem_cons, List.not_mem_nil, or_false] at he he'
    subst he'
    rw [hr] at hb'
    cases hb'
    have hc := hh text' hbt'
    subst hc
    rcases he with rfl | rfl
    · have ha : aAndB.read "a.txt".toList = .ok (ascii "a") := by rfl
      rw [ha] at hb
      cases hb
      have htext : text = "a".toList := by
        have : textOf (ascii "a") = some "a".toList := by decide
        rw [this] at hbt
        exact (Option.some.inj hbt).symm
      subst htext
      exact absurd hs (by decide)
    · exact absurd hp (by decide)

/-- An edit and a deletion: the next run leaves what a run from scratch leaves. -/
theorem sameAsScratch_editedFile : SameAsScratch sample {} editedFile
    (runIndex sample editedFile {} 2 (runIndex sample aAndB {} 1 Db.empty)) := by
  have ok1 : (indexProject sample aAndB {} 1 Db.empty).isOk := by decide
  obtain ⟨stats, h1⟩ := indexProject_of_isOk ok1
  have ok2 : (indexProject sample editedFile {} 2 (runIndex sample aAndB {} 1 Db.empty)).isOk := by
    decide
  obtain ⟨stats', h2⟩ := indexProject_of_isOk ok2
  have hseq : Sequence sample {} (TextStays sample {}) (some aAndB) _ :=
    .next .start (by unfold Distinct; decide) (by simp) textStays_empty h1
  have he : entries sample editedFile {} = [⟨"a.txt".toList, "a.txt".toList, 1, 2⟩] := by decide
  have htr : Tracked sample {} aAndB editedFile :=
    tracked_aAndB (ascii "c") he rfl fun text h => by
      have : textOf (ascii "c") = some "c".toList := by decide
      rw [this] at h
      exact (Option.some.inj h).symm
  refine (sameAsScratch_iff hseq (by unfold Distinct; decide) (by simpa using htr) h2).mpr ?_
  intro e hm _ bytes hr
  rw [he, List.mem_singleton] at hm
  subst hm
  have hc : editedFile.read "a.txt".toList = .ok (ascii "c") := by rfl
  rw [hc] at hr
  cases hr
  decide

/-- **A text file that turns binary keeps its old row**: without the condition, the law fails. -/
theorem not_sameAsScratch : ¬∀ t db, Sequence sample {} (fun _ _ => True) (some t) db →
    SameAsScratch sample {} t db := by
  intro h
  have ok1 : (indexProject sample aAndB {} 1 Db.empty).isOk := by decide
  obtain ⟨stats, h1⟩ := indexProject_of_isOk ok1
  have ok2 : (indexProject sample binaryFile {} 2 (runIndex sample aAndB {} 1 Db.empty)).isOk := by
    decide
  obtain ⟨stats', h2⟩ := indexProject_of_isOk ok2
  have he : entries sample binaryFile {} = [⟨"a.txt".toList, "a.txt".toList, 1, 2⟩] := by decide
  have htr : Tracked sample {} aAndB binaryFile :=
    tracked_aAndB [0] he rfl fun text h => by
      have : textOf [0] = none := by decide
      rw [this] at h
      simp at h
  obtain ⟨db₀, stats₀, h3, hperm, -, -⟩ := h binaryFile _
    (.next (.next .start (by unfold Distinct; decide) (by simp) trivial h1)
      (by unfold Distinct; decide) (by simpa using htr) trivial h2) 3
  have ok3 : (indexProject sample binaryFile {} 3 Db.empty).isOk := by decide
  obtain ⟨stats₁, h4⟩ := indexProject_of_isOk ok3
  rw [h4] at h3
  cases h3
  exact absurd hperm.length_eq (by decide)

end BrainEngine.Index.Incremental
