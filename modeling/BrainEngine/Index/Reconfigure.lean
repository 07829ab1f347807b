import BrainEngine.Index.Incremental
import BrainEngine.Index.Windows

/-! # A change of the configuration

The next run after a change of the globs or the size cap finds other candidates, and adds and removes
rows accordingly. The chunk parameters act only where a file is written: a file that has a row is found
unchanged and keeps the chunks that the old parameters gave it (`docAt_kept`). So the index is that of
the new configuration exactly if the old and the new parameters cut these files in the same places. -/

namespace BrainEngine.Index.Reconfigure

open BrainEngine.Rust.Str BrainEngine.Rust.Lines BrainEngine.Lib.Outcome
open BrainEngine.Core.External BrainEngine.Core.Config BrainEngine.Core.Chunking
open BrainEngine.Core.Walk BrainEngine.Core.Database BrainEngine.Core.Index BrainEngine.Core.Docs
open BrainEngine.Core.Sample BrainEngine.Index.Runs BrainEngine.Index.Incremental
open BrainEngine.Index.Windows

/-- A directory has each of its files once. -/
def Once (t : Tree) : Prop := ((files t).map WalkEntry.relPath).Nodup

/-- The entry of a file without its symbols. -/
def withoutSymbols (d : Doc) : Doc := { d with symbols := [] }

/-- What `files` and `chunks` say about each file, without row ids and times of writing. -/
def filesAndChunks (db : Db) : List (Text × Doc) :=
  (docs db).map fun a => (a.1, withoutSymbols a.2)

/-- A run into an empty database succeeds and leaves the same files and chunks. -/
def SameAsAlone (x : Extern) (t : Tree) (cfg : ProjectConfig) (db : Db) : Prop :=
  ∀ now, ∃ db₀ stats, indexProject x t cfg now Db.empty = .ok (db₀, stats) ∧
    (filesAndChunks db).Perm (filesAndChunks db₀)

/-- Both configurations cut each text that is a candidate under both in the same places. -/
def SameCuts (x : Extern) (t : Tree) (old new : ProjectConfig) : Prop :=
  ∀ e ∈ files t, admits x old e → admits x new e → ∀ text, TextAt t e text →
    Blank text ∨ SameWindows old.chunk new.chunk (lines text).length

variable {x : Extern} {t : Tree} {old new cfg : ProjectConfig} {db db' : Db} {now now' : ℕ}
  {stats stats' : IndexStats}

/-! ### Files and chunks -/

theorem lookup_filesAndChunks (db : Db) (p : Text) :
    (filesAndChunks db).lookup p = (docAt db p).map withoutSymbols := by
  unfold filesAndChunks docAt
  induction docs db with
  | nil => rfl
  | cons a l ih =>
    rw [List.map_cons, List.lookup_cons, List.lookup_cons]
    cases p == a.1 with
    | true => rfl
    | false => exact ih

theorem perm_filesAndChunks (h : WellFormed db) (h' : WellFormed db') :
    (filesAndChunks db).Perm (filesAndChunks db') ↔
      ∀ p, (docAt db p).map withoutSymbols = (docAt db' p).map withoutSymbols := by
  have hn : ∀ {db : Db}, WellFormed db → ((filesAndChunks db).map Prod.fst).Nodup := by
    intro db h
    have := nodup_docs h
    rwa [filesAndChunks, List.map_map]
  rw [perm_iff_lookup (hn h) (hn h')]
  simp only [lookup_filesAndChunks]

/-! ### Candidates under two configurations -/

theorem mem_entries {outcome : WalkOutcome} (hwalk : walk x t cfg = .ok outcome) {e : WalkEntry} :
    e ∈ entries x t cfg ↔ e ∈ files t ∧ admits x cfg e = true := by
  rw [entries_of_walk hwalk, entries_walk hwalk, List.mem_filter]

theorem distinct_of_once (h : Once t) {outcome : WalkOutcome} (hwalk : walk x t cfg = .ok outcome) :
    Distinct x cfg t := by
  unfold Distinct
  rw [entries_of_walk hwalk, entries_walk hwalk]
  exact h.sublist (List.filter_sublist.map _)

theorem eq_of_once (h : Once t) {e e' : WalkEntry} (he : e ∈ files t) (he' : e' ∈ files t)
    (hp : e.relPath = e'.relPath) : e = e' :=
  List.inj_on_of_nodup_map h he he' hp

/-! ### One file -/

theorem changedFile_reconfigure {e : WalkEntry} {text : Text} {c : ChangedFile}
    (h : changedFile x old e text = .ok c) (new : ProjectConfig) :
    c.chunks = chunkText x text old.chunk ∧
      changedFile x new e text = .ok { c with chunks := chunkText x text new.chunk } := by
  obtain ⟨symbols, hs, rfl⟩ := changedFile_ok_iff.mp h
  exact ⟨rfl, changedFile_ok_iff.mpr ⟨symbols, hs, rfl⟩⟩

theorem textAt_unique {e : WalkEntry} {text text' : Text} (h : TextAt t e text)
    (h' : TextAt t e text') : text = text' := by
  obtain ⟨b, hb, ht⟩ := h
  obtain ⟨b', hb', ht'⟩ := h'
  rw [hb] at hb'
  cases hb'
  rw [ht] at ht'
  exact Option.some.inj ht'

/-- **A file that has an entry keeps it** in the next run over the same directory. -/
theorem docAt_kept (h : WellFormed db) (hdis : Distinct x new t) {ws : List (Text × FileWork)}
    (hw : Outcomes x t new db (entries x t new) ws) {e : WalkEntry} (he : e ∈ entries x t new)
    {d : Doc} (hd : docAt db e.relPath = some d) (hi : IsText x old t e d) :
    docAt (transaction now ws db) e.relPath = some d := by
  obtain ⟨⟨p, w⟩, hm, hp, hc⟩ := exists_right hw he
  subst hp
  obtain ⟨text, c, -, hcf, rfl⟩ := hi
  obtain ⟨symbols, -, rfl⟩ := changedFile_ok_iff.mp hcf
  have hu : Untouched (loadExisting db) e :=
    (untouched_iff h).mpr ⟨_, hd, UInt64.toUInt64_toInt64 e.size, rfl⟩
  rw [docAt_run h hdis hw hm, hd]
  rcases classify_ok_iff.mp hc with ⟨-, rfl⟩ | ⟨hnu, -⟩
  · rfl
  · exact absurd hu hnu

/-! ### Both runs -/

/-- What the second run leaves for a candidate: its old entry, if the first run has made one, or else
the right one. -/
structure Kept (x : Extern) (t : Tree) (old new : ProjectConfig) (db : Db) (e : WalkEntry) : Prop where
  file : e ∈ files t
  admitted : admits x old e = true
  entry : ∃ d, IsText x old t e d ∧ docAt db e.relPath = some d

/-- Where the chunks are the same, the old entry is right. -/
theorem right_of_kept {e : WalkEntry} (hk : Kept x t old new db' e)
    (hsame : ∀ text, TextAt t e text → chunkText x text old.chunk = chunkText x text new.chunk) :
    Right x new t e (docAt db' e.relPath) := by
  obtain ⟨d, ⟨text, c, hat, hcf, rfl⟩, hd⟩ := hk.entry
  obtain ⟨hchunks, hcf'⟩ := changedFile_reconfigure hcf new
  rw [← hsame text hat, ← hchunks] at hcf'
  rw [hd]
  exact Or.inr ⟨_, ⟨text, c, hat, hcf', rfl⟩, rfl⟩

section
variable (hone : Once t) (h₁ : indexProject x t old now Db.empty = .ok (db, stats))
include hone h₁

theorem synced_first : Synced x old t db := by
  obtain ⟨outcome, ws, hwalk, -⟩ := indexProject_eq_ok.mp h₁
  have hk : Known x old none Db.empty := rfl
  exact synced_step hk (distinct_of_once hone hwalk) (by simp) textStays_empty h₁

variable (h₂ : indexProject x t new now' db = .ok (db', stats'))
include h₂

/-- **The second run**, file by file. -/
theorem kept_or_right {e : WalkEntry} (he : e ∈ entries x t new) :
    Kept x t old new db' e ∨ Right x new t e (docAt db' e.relPath) := by
  have hs := synced_first hone h₁
  obtain ⟨outcome₁, hwalk₁⟩ := hs.walked
  obtain ⟨outcome, ws, hwalk, hw, rfl, -⟩ := indexProject_eq_ok.mp h₂
  rw [← entries_of_walk hwalk] at hw
  have hdis := distinct_of_once hone hwalk
  have hfile := ((mem_entries hwalk).mp he).1
  obtain ⟨⟨p, w⟩, hm, hp, hc⟩ := exists_right hw he
  subst hp
  cases hd : docAt db e.relPath with
  | none =>
    right
    rw [docAt_run hs.wf hdis hw hm]
    exact right_of_new hs.wf hd hc
  | some d =>
    left
    -- the first run has made the entry for a candidate with this path, which is this file
    have hpath : e.relPath ∈ (entries x t old).map WalkEntry.relPath := by
      by_contra hn
      rw [hs.only _ hn] at hd
      simp at hd
    obtain ⟨e₁, he₁, hp⟩ := List.mem_map.mp hpath
    obtain ⟨hfile₁, hadm⟩ := (mem_entries hwalk₁).mp he₁
    have heq := eq_of_once hone hfile₁ hfile hp
    subst heq
    rcases hs.right e₁ he₁ with ⟨-, hnone⟩ | ⟨d', hi, hd'⟩
    · rw [hd] at hnone
      simp at hnone
    · rw [hd] at hd'
      cases hd'
      exact ⟨hfile, hadm, d, hi, docAt_kept hs.wf hdis hw he hd hi⟩

theorem docAt_second_of_notMem {p : Text} (hp : p ∉ (entries x t new).map WalkEntry.relPath) :
    docAt db' p = none := by
  have hs := synced_first hone h₁
  obtain ⟨outcome, ws, hwalk, hw, rfl, -⟩ := indexProject_eq_ok.mp h₂
  rw [← entries_of_walk hwalk] at hw
  rw [docAt_removeVanished hs.wf, if_neg (by rwa [fst_outcomes hw])]

/-- The new configuration alone: the run into an empty database succeeds, and its entries are right. -/
theorem exists_alone (now₀ : ℕ) : ∃ db₀ stats₀,
    indexProject x t new now₀ Db.empty = .ok (db₀, stats₀) ∧ Synced x new t db₀ := by
  obtain ⟨outcome, ws, hwalk, -⟩ := indexProject_eq_ok.mp h₂
  have hright : ∀ e ∈ entries x t new, ∃ d, Right x new t e d := by
    intro e he
    rcases kept_or_right hone h₁ h₂ he with hk | hr
    · obtain ⟨d, ⟨text, c, hat, hcf, -⟩, -⟩ := hk.entry
      exact ⟨_, Or.inr ⟨_, ⟨text, _, hat, (changedFile_reconfigure hcf new).2, rfl⟩, rfl⟩⟩
    · exact ⟨_, hr⟩
  obtain ⟨db₀, stats₀, h₀⟩ := exists_run_empty hwalk hright now₀
  have hk : Known x new none Db.empty := rfl
  exact ⟨db₀, stats₀, h₀,
    synced_step hk (distinct_of_once hone hwalk) (by simp) textStays_empty h₀⟩

/-- Where the entry of a candidate under both configurations is that of a run from scratch, the chunks
are the same. -/
theorem chunks_of_same {e : WalkEntry} (he : e ∈ files t) (ho : admits x old e = true)
    (hn : admits x new e = true) {text : Text} (hat : TextAt t e text) {db₀ : Db}
    (h₀ : Synced x new t db₀) (hsame : (docAt db' e.relPath).map withoutSymbols =
      (docAt db₀ e.relPath).map withoutSymbols) :
    chunkText x text old.chunk = chunkText x text new.chunk := by
  have hs := synced_first hone h₁
  obtain ⟨outcome₁, hwalk₁⟩ := hs.walked
  obtain ⟨outcome, ws, hwalk, hw, rfl, -⟩ := indexProject_eq_ok.mp h₂
  rw [← entries_of_walk hwalk] at hw
  have he₁ := (mem_entries hwalk₁).mpr ⟨he, ho⟩
  have he₂ := (mem_entries hwalk).mpr ⟨he, hn⟩
  -- the text makes an entry under either configuration
  have htext : ∀ {cfg : ProjectConfig} {d : Option Doc}, Right x cfg t e d →
      ∃ c, changedFile x cfg e text = .ok c ∧ d = some (newDoc c) := by
    rintro cfg d (⟨⟨b, hb, hbin⟩, -⟩ | ⟨d', ⟨text', c, hat', hcf, rfl⟩, rfl⟩)
    · obtain ⟨b', hb', ht'⟩ := hat
      rw [hb] at hb'
      cases hb'
      rw [hbin] at ht'
      simp at ht'
    · rw [textAt_unique hat hat']
      exact ⟨c, hcf, rfl⟩
  obtain ⟨c₁, hcf₁, hd₁⟩ := htext (hs.right e he₁)
  obtain ⟨c₀, hcf₀, hd₀⟩ := htext (h₀.right e he₂)
  have hi : IsText x old t e (newDoc c₁) := ⟨text, c₁, hat, hcf₁, rfl⟩
  rw [docAt_kept hs.wf (distinct_of_once hone hwalk) hw he₂ hd₁ hi, hd₀, Option.map_some,
    Option.map_some, Option.some.injEq] at hsame
  have hchunks : c₁.chunks = c₀.chunks := congrArg Doc.chunks hsame
  rw [(changedFile_reconfigure hcf₁ new).1, (changedFile_reconfigure hcf₀ old).1] at hchunks
  exact hchunks

/-- **The index reflects the new configuration, exactly if the chunk parameters cut the files that stay
in the same places.** Index a directory with one configuration and then with another: what the index
says about files and chunks is what a run with the second one alone leaves, if and only if each text
that both let through is blank, a single window under both, or cut into windows of one length and
overlap. -/
theorem sameAsAlone_iff : SameAsAlone x t new db' ↔ SameCuts x t old new := by
  have hs := synced_first hone h₁
  obtain ⟨outcome, ws, hwalk, hw, hdb', -⟩ := indexProject_eq_ok.mp h₂
  have hwf : WellFormed db' := hdb' ▸ wellFormed_transaction hs.wf ws
  constructor
  · intro h e he ho hn text hat
    obtain ⟨db₀, stats₀, h₀, hperm⟩ := h 0
    obtain ⟨db₀', stats₀', h₀', hsync⟩ := exists_alone hone h₁ h₂ 0
    rw [h₀] at h₀'
    cases h₀'
    have hsame := (perm_filesAndChunks hwf hsync.wf).mp hperm e.relPath
    exact (chunkText_eq_iff x text _ _).mp (chunks_of_same hone h₁ h₂ he ho hn hat hsync hsame)
  · intro hcuts now₀
    obtain ⟨db₀, stats₀, h₀, hsync⟩ := exists_alone hone h₁ h₂ now₀
    refine ⟨db₀, stats₀, h₀, (perm_filesAndChunks hwf hsync.wf).mpr fun p => ?_⟩
    by_cases hp : p ∈ (entries x t new).map WalkEntry.relPath
    · obtain ⟨e, he, rfl⟩ := List.mem_map.mp hp
      have hright : Right x new t e (docAt db' e.relPath) := by
        rcases kept_or_right hone h₁ h₂ he with hk | hr
        · refine right_of_kept hk fun text hat => (chunkText_eq_iff x text _ _).mpr ?_
          exact hcuts e hk.file hk.admitted ((mem_entries hwalk).mp he).2 text hat
        · exact hr
      rw [right_unique hright (hsync.right e he)]
    · rw [docAt_second_of_notMem hone h₁ h₂ hp, hsync.only p hp]

end

/-! ### Small directories -/

def twoLines : Tree := treeOf [("a.txt", 1, ascii "b\nc")]

/-- One line a chunk, without overlap. -/
def lineByLine : ProjectConfig := { chunk := { maxLines := 1, overlapLines := 0 } }

/-- Two lines a chunk. -/
def pairs : ProjectConfig := { chunk := { maxLines := 2, overlapLines := 0 } }

theorem files_twoLines : files twoLines = [⟨"a.txt".toList, "a.txt".toList, 3, 1⟩] := by decide

/-- Both configurations leave the two lines in one chunk. -/
theorem sameAsAlone_pairs : SameAsAlone sample twoLines pairs
    (runIndex sample twoLines pairs 2 (runIndex sample twoLines {} 1 Db.empty)) := by
  obtain ⟨stats, h₁⟩ := indexProject_of_isOk
    (by decide : (indexProject sample twoLines {} 1 Db.empty).isOk)
  obtain ⟨stats', h₂⟩ := indexProject_of_isOk
    (by decide : (indexProject sample twoLines pairs 2 (runIndex sample twoLines {} 1 Db.empty)).isOk)
  refine (sameAsAlone_iff (by unfold Once; decide) h₁ h₂).mpr fun e he _ _ text hat => ?_
  rw [files_twoLines, List.mem_singleton] at he
  subst he
  have htext : TextAt twoLines ⟨"a.txt".toList, "a.txt".toList, 3, 1⟩ "b\nc".toList :=
    ⟨ascii "b\nc", rfl, by decide⟩
  rw [textAt_unique hat htext]
  exact Or.inr (Or.inl (by decide))

/-- **The two lines stay in one chunk** when the new configuration has a chunk for each. -/
theorem not_sameAsAlone : ¬∀ (x : Extern) (t : Tree) (old new : ProjectConfig) (now now' : ℕ)
    (db db' : Db) (stats stats' : IndexStats), Once t →
      indexProject x t old now Db.empty = .ok (db, stats) →
        indexProject x t new now' db = .ok (db', stats') → SameAsAlone x t new db' := by
  intro h
  obtain ⟨stats, h₁⟩ := indexProject_of_isOk
    (by decide : (indexProject sample twoLines {} 1 Db.empty).isOk)
  obtain ⟨stats', h₂⟩ := indexProject_of_isOk (by decide :
    (indexProject sample twoLines lineByLine 2 (runIndex sample twoLines {} 1 Db.empty)).isOk)
  obtain ⟨db₀, stats₀, h₀, hperm⟩ := h _ _ _ _ _ _ _ _ _ _ (by unfold Once; decide) h₁ h₂ 3
  obtain ⟨stats₃, h₃⟩ := indexProject_of_isOk
    (by decide : (indexProject sample twoLines lineByLine 3 Db.empty).isOk)
  rw [h₃] at h₀
  cases h₀
  have hcount := (hperm.map fun a => a.2.chunks.length).sum_eq
  exact absurd hcount (by decide)

end BrainEngine.Index.Reconfigure
