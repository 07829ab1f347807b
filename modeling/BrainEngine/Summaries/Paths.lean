import BrainEngine.Lib.Paths
import BrainEngine.Core.Summarize

/-! # Mirror paths

Files, modules and the project share one directory of mirror files: a file adds `.md` to its name, a
module has `_module.md`, the project `PROJECT.md`. `unambiguous_iff` lists the names that collide. -/

namespace BrainEngine.Summaries.Paths

open BrainEngine.Rust.Str BrainEngine.Lib.Paths BrainEngine.Core.Summarize

/-- Relative paths of files that can be in one tree: their names are names of files, and no file is a
directory of another. -/
structure Coexist (files : Set Text) : Prop where
  names : ∀ p ∈ files, ∀ n ∈ p.splitOn '/', n ≠ [] ∧ n ≠ ['.'] ∧ n ≠ ['.', '.']
  apart : ∀ p ∈ files, ∀ q ∈ files, ¬Below '/' p q

/-- What is summarized in a project with these files. -/
def targets (files : Set Text) : Set (Scope × Text) :=
  {k | (∃ p ∈ files, k = (.file, p)) ∨ (∃ p ∈ files, k = (.module, moduleTarget p)) ∨
    k = (.project, projectTarget)}

/-- The place of a mirror file. -/
def mirrorPlace (dir : Text) (k : Scope × Text) : Text := place (mirrorPath dir k.1 k.2)

/-- No two targets share a mirror file, and none is in the way of another's directory. -/
structure Unambiguous (dir : Text) (files : Set Text) : Prop where
  distinct : Set.InjOn (mirrorPlace dir) (targets files)
  apart : ∀ k ∈ targets files, ∀ l ∈ targets files, ¬Below '/' (mirrorPlace dir k) (mirrorPlace dir l)

/-- The last component of a path. -/
def fileName (p : Text) : Text := (p.splitOn '/').getLastD []

/-- A file in the same directory. -/
def sibling (p name : Text) : Text := render '/' ((p.splitOn '/').dropLast ++ [name])

/-- No file has a name that mirrors use, and no directory has the name of a mirror file. -/
structure Clear (files : Set Text) : Prop where
  notModule : ∀ p ∈ files, fileName p ≠ "_module".toList
  notProject : projectTarget ∉ files
  belowFile : ∀ p ∈ files, ∀ q ∈ files, ¬Below '/' (p ++ ".md".toList) q
  belowModule : ∀ p ∈ files, ∀ q ∈ files, ¬Below '/' (sibling p "_module.md".toList) q
  belowProject : ∀ q ∈ files, ¬Below '/' "PROJECT.md".toList q

variable {dir p q n : Text} {files : Set Text} {ds es rest : List Text} {x y : Text} {k l : Scope × Text}

/-! ### Directories and names -/

theorem exists_names (p : Text) : ∃ ds n, p.splitOn '/' = ds ++ [n] := by
  rcases List.eq_nil_or_concat (p.splitOn '/') with h | ⟨ds, n, h⟩
  · exact absurd h (List.splitOn_ne_nil '/' p)
  · exact ⟨ds, n, h.trans List.concat_eq_append⟩

theorem render_names (h : p.splitOn '/' = ds ++ [n]) : p = render '/' (ds ++ [n]) := by
  rw [← h, render_splitOn]

theorem free_names (h : p.splitOn '/' = ds ++ [n]) : (∀ d ∈ ds, '/' ∉ d) ∧ '/' ∉ n := by
  have hfree : ∀ d ∈ p.splitOn '/', '/' ∉ d := free_of_mem_splitOn p
  rw [h] at hfree
  exact ⟨fun d hd => hfree d (List.mem_append_left _ hd), hfree n (by simp)⟩

theorem parent_render (h : '/' ∉ n) :
    parent (render '/' (ds ++ [n])) = if ds = [] then [] else render '/' ds := by
  have hdrop : ∀ t : Text, (n.reverse ++ t).dropWhile (fun c => decide (c ≠ '/')) =
      t.dropWhile fun c => decide (c ≠ '/') := by
    intro t
    refine List.dropWhile_append_of_pos fun c hc => ?_
    have hne : c ≠ '/' := by
      rintro rfl
      exact h (List.mem_reverse.mp hc)
    simpa using hne
  unfold parent
  split_ifs with hds
  · subst hds
    have hn : render '/' ([] ++ [n]) = n := by simp [render]
    have hnil := hdrop []
    rw [List.append_nil] at hnil
    rw [hn, hnil]
    rfl
  · have hcat : render '/' (ds ++ [n]) = render '/' ds ++ '/' :: n := by
      rw [render_append hds (by simp)]
      simp [render]
    rw [hcat, List.reverse_append, List.reverse_cons, List.append_assoc, hdrop]
    simp

/-- The components of a module's directory. -/
theorem components_moduleTarget (hn : ∀ m ∈ p.splitOn '/', m ≠ [] ∧ m ≠ ['.'] ∧ m ≠ ['.', '.'])
    (h : p.splitOn '/' = ds ++ [n]) : ((moduleTarget p).splitOn '/').filter (· ≠ ['.']) = ds := by
  obtain ⟨hfree, hfree'⟩ := free_names h
  rw [h] at hn
  have hpar : parent p = if ds = [] then [] else render '/' ds := by
    rw [render_names h]
    exact parent_render hfree'
  unfold moduleTarget
  rw [hpar]
  by_cases hds : ds = []
  · subst hds
    rfl
  · have hne : render '/' ds ≠ [] := by
      intro h0
      have hnil := (show Named '/' ds from ⟨hds, hfree⟩).splitOn_render
      rw [h0] at hnil
      exact (hn [] (List.mem_append_left _ (by rw [← hnil]; simp))).1 rfl
    rw [if_neg hds, if_neg hne, (show Named '/' ds from ⟨hds, hfree⟩).splitOn_render]
    refine List.filter_eq_self.mpr fun d hd => ?_
    simpa using (hn d (List.mem_append_left _ hd)).2.1

/-! ### Where the mirror files are -/

/-- The directory and the name of a target's mirror file. -/
inductive Mirrored (files : Set Text) : Scope × Text → List Text → Text → Prop
  | file {p n : Text} {ds : List Text} (hp : p ∈ files) (h : p.splitOn '/' = ds ++ [n]) :
    Mirrored files (.file, p) ds (n ++ ".md".toList)
  | module {p n : Text} {ds : List Text} (hp : p ∈ files) (h : p.splitOn '/' = ds ++ [n]) :
    Mirrored files (.module, moduleTarget p) ds "_module.md".toList
  | project : Mirrored files (.project, projectTarget) [] "PROJECT.md".toList

theorem exists_mirrored (h : k ∈ targets files) : ∃ ds x, Mirrored files k ds x := by
  rcases h with ⟨p, hp, rfl⟩ | ⟨p, hp, rfl⟩ | rfl
  · obtain ⟨ds, n, h⟩ := exists_names p
    exact ⟨ds, _, .file hp h⟩
  · obtain ⟨ds, n, h⟩ := exists_names p
    exact ⟨ds, _, .module hp h⟩
  · exact ⟨[], _, .project⟩

theorem Mirrored.mem_targets (h : Mirrored files k ds x) : k ∈ targets files := by
  cases h with
  | file hp _ => exact Or.inl ⟨_, hp, rfl⟩
  | module hp _ => exact Or.inr (Or.inl ⟨_, hp, rfl⟩)
  | project => exact Or.inr (Or.inr rfl)

/-- The components of a directory. -/
def components (path : Text) : List Text := (path.splitOn '/').filter (· ≠ ['.'])

theorem components_cons (a b : Text) : components (a ++ '/' :: b) = components a ++ components b := by
  unfold components
  rw [List.splitOn_append_cons_self, List.filter_append]

theorem free_components (path : Text) : ∀ n ∈ components path, '/' ∉ n :=
  fun n hn => free_of_mem_splitOn path n (List.mem_of_mem_filter hn)

/-- **The components of a mirror file.** -/
theorem Mirrored.components_eq (hc : Coexist files) (h : Mirrored files k ds x) :
    components (mirrorPath dir k.1 k.2) = components dir ++ (ds ++ [x]) := by
  cases h with
  | @file p n ds hp h =>
    obtain ⟨hfree, hfree'⟩ := free_names h
    have hn := hc.names p hp
    rw [h] at hn
    have hcat : mirrorPath dir .file p = dir ++ '/' :: render '/' (ds ++ [n ++ ".md".toList]) := by
      rw [← render_concat_append, ← render_names h]
      simp [mirrorPath]
    have hnamed : Named '/' (ds ++ [n ++ ".md".toList]) := by
      refine ⟨by simp, fun m hm => ?_⟩
      rcases List.mem_append.mp hm with hm | hm
      · exact hfree m hm
      · rw [List.mem_singleton.mp hm]
        simp [hfree']
    rw [hcat, components_cons]
    congr 1
    unfold components
    rw [hnamed.splitOn_render]
    refine List.filter_eq_self.mpr fun m hm => ?_
    rcases List.mem_append.mp hm with hm | hm
    · simpa using (hn m (List.mem_append_left _ hm)).2.1
    · have hlen : ".md".toList.length = 3 := rfl
      have hne : n ++ ".md".toList ≠ ['.'] := fun he => by
        have := congrArg List.length he
        rw [List.length_append, hlen, List.length_singleton] at this
        omega
      rw [List.mem_singleton.mp hm]
      simpa using hne
  | @module p n ds hp h =>
    have hcat : mirrorPath dir .module (moduleTarget p) =
        dir ++ '/' :: (moduleTarget p ++ '/' :: "_module.md".toList) := by
      simp [mirrorPath]
    have hlast : components "_module.md".toList = ["_module.md".toList] := by decide
    rw [hcat, components_cons, components_cons, hlast]
    congr 2
    exact components_moduleTarget (hc.names p hp) h
  | project =>
    have hcat : mirrorPath dir .project projectTarget = dir ++ '/' :: "PROJECT.md".toList := rfl
    have hlast : components "PROJECT.md".toList = ["PROJECT.md".toList] := by decide
    rw [hcat, components_cons, hlast]
    rfl

theorem Mirrored.free (hc : Coexist files) (h : Mirrored files k ds x) : ∀ n ∈ ds ++ [x], '/' ∉ n := by
  intro n hn
  have hfree := free_components (mirrorPath [] k.1 k.2)
  rw [h.components_eq hc] at hfree
  exact hfree n (List.mem_append_right _ hn)

/-- **The place of a mirror file.** -/
theorem Mirrored.mirrorPlace_eq (hc : Coexist files) (h : Mirrored files k ds x) :
    mirrorPlace dir k = render '/' (components dir ++ (ds ++ [x])) := by
  rw [← h.components_eq hc]
  rfl

theorem Mirrored.named (hc : Coexist files) (h : Mirrored files k ds x) :
    Named '/' (components dir ++ (ds ++ [x])) := by
  refine ⟨by simp, fun n hn => ?_⟩
  rcases List.mem_append.mp hn with hn | hn
  · exact free_components dir n hn
  · exact h.free hc n hn

theorem Mirrored.place_eq_iff (hc : Coexist files) (hk : Mirrored files k ds x)
    (hl : Mirrored files l es y) :
    mirrorPlace dir k = mirrorPlace dir l ↔ ds ++ [x] = es ++ [y] := by
  rw [hk.mirrorPlace_eq hc, hl.mirrorPlace_eq hc, (hk.named hc).render_inj (hl.named hc),
    List.append_cancel_left_eq]

theorem Mirrored.below_iff (hc : Coexist files) (hk : Mirrored files k ds x)
    (hl : Mirrored files l es y) : Below '/' (mirrorPlace dir k) (mirrorPlace dir l) ↔
      ∃ rest, rest ≠ [] ∧ es ++ [y] = ds ++ [x] ++ rest := by
  rw [hk.mirrorPlace_eq hc, hl.mirrorPlace_eq hc, below_render (hk.named hc) (hl.named hc)]
  refine exists_congr fun rest => and_congr_right fun _ => ?_
  rw [List.append_assoc, List.append_cancel_left_eq]

/-! ### Collisions -/

theorem below_of_isPrefix (hfree : ∀ n ∈ ds ++ [x], '/' ∉ n) (h : p.splitOn '/' = es ++ [n])
    (hpre : ds ++ [x] <+: es) : Below '/' (render '/' (ds ++ [x])) p := by
  obtain ⟨rest, rfl⟩ := hpre
  obtain ⟨hes, hn⟩ := free_names h
  rw [render_names h]
  refine (below_render ⟨by simp, hfree⟩ ⟨by simp, fun m hm => ?_⟩).mpr
    ⟨rest ++ [n], by simp, by simp⟩
  rcases List.mem_append.mp hm with hm | hm
  · exact hes m hm
  · rw [List.mem_singleton.mp hm]
    exact hn

/-- Below a mirror's place in the tree there is no file. -/
theorem Clear.not_below (hc : Clear files) (hk : Mirrored files k ds x) (hq : q ∈ files) :
    ¬Below '/' (render '/' (ds ++ [x])) q := by
  cases hk with
  | file hp h =>
    rw [← render_concat_append, ← render_names h]
    exact hc.belowFile _ hp q hq
  | module hp h =>
    have hs := hc.belowModule _ hp q hq
    unfold sibling at hs
    rwa [h, List.dropLast_concat] at hs
  | project => exact hc.belowProject q hq

/-- No mirror file's directory is in a mirror's place. -/
theorem Clear.not_isPrefix (hco : Coexist files) (hc : Clear files) (hk : Mirrored files k ds x)
    (hl : Mirrored files l es y) : ¬ds ++ [x] <+: es := by
  intro hpre
  cases hl with
  | file hq h => exact hc.not_below hk hq (below_of_isPrefix (hk.free hco) h hpre)
  | module hq h => exact hc.not_below hk hq (below_of_isPrefix (hk.free hco) h hpre)
  | project =>
    have := List.prefix_nil.mp hpre
    simp at this

theorem fileName_eq (h : p.splitOn '/' = ds ++ [n]) : fileName p = n := by
  unfold fileName
  rw [h, List.getLastD_concat]

theorem moduleTarget_congr {m : Text} (h : p.splitOn '/' = ds ++ [n]) (h' : q.splitOn '/' = ds ++ [m]) :
    moduleTarget p = moduleTarget q := by
  unfold moduleTarget
  rw [render_names h, render_names h', parent_render (free_names h).2, parent_render (free_names h').2]

/-- **Mirror files in one place** are those of one target. -/
theorem Clear.eq_of_place (hc : Clear files) (hk : Mirrored files k ds x) (hl : Mirrored files l es y)
    (hd : ds = es) (hx : x = y) : k = l := by
  have hmodule : ∀ {n : Text}, n ++ ".md".toList = "_module.md".toList → n = "_module".toList := by
    intro n h
    exact List.append_cancel_right (show n ++ ".md".toList = "_module".toList ++ ".md".toList from h)
  have hproject : ∀ {n : Text}, n ++ ".md".toList = "PROJECT.md".toList → n = projectTarget := by
    intro n h
    exact List.append_cancel_right (show n ++ ".md".toList = projectTarget ++ ".md".toList from h)
  have hne : "_module.md".toList ≠ "PROJECT.md".toList := by decide
  subst hd
  cases hk with
  | file hp h =>
    cases hl with
    | file hq h' =>
      have hn := List.append_cancel_right hx
      rw [render_names h, render_names h', hn]
    | module hq h' => exact absurd ((fileName_eq h).trans (hmodule hx)) (hc.notModule _ hp)
    | project =>
      have hroot := render_names h
      rw [hproject hx] at hroot
      exact absurd (hroot ▸ hp) (by simpa [render] using hc.notProject)
  | module hp h =>
    cases hl with
    | file hq h' => exact absurd ((fileName_eq h').trans (hmodule hx.symm)) (hc.notModule _ hq)
    | module hq h' => rw [moduleTarget_congr h h']
    | project => exact absurd hx hne
  | project =>
    cases hl with
    | file hq h' =>
      have hroot := render_names h'
      rw [hproject hx.symm] at hroot
      exact absurd (hroot ▸ hq) (by simpa [render] using hc.notProject)
    | module hq h' => exact absurd hx.symm hne
    | project => rfl

theorem unambiguous_of_clear (hco : Coexist files) (hc : Clear files) : Unambiguous dir files := by
  refine ⟨fun k hk l hl he => ?_, fun k hk l hl hb => ?_⟩
  · obtain ⟨ds, x, hk⟩ := exists_mirrored hk
    obtain ⟨es, y, hl⟩ := exists_mirrored hl
    obtain ⟨hd, hx⟩ := List.append_inj' ((hk.place_eq_iff hco hl).mp he) rfl
    exact hc.eq_of_place hk hl hd (List.singleton_inj.mp hx)
  · obtain ⟨ds, x, hk⟩ := exists_mirrored hk
    obtain ⟨es, y, hl⟩ := exists_mirrored hl
    obtain ⟨rest, hrest, he⟩ := (hk.below_iff hco hl).mp hb
    -- the rest ends with the other's name, so the directory has the whole of the first
    obtain ⟨r, z, rfl⟩ := (List.eq_nil_or_concat' rest).resolve_left hrest
    rw [← List.append_assoc] at he
    exact hc.not_isPrefix hco hk hl ⟨r, (List.append_inj' he rfl).1.symm⟩

/-! ### The exact condition -/

theorem mirrored_file (hp : p ∈ files) : ∃ ds n, p.splitOn '/' = ds ++ [n] ∧
    Mirrored files (.file, p) ds (n ++ ".md".toList) ∧
      Mirrored files (.module, moduleTarget p) ds "_module.md".toList := by
  obtain ⟨ds, n, h⟩ := exists_names p
  exact ⟨ds, n, h, .file hp h, .module hp h⟩

/-- A file below a mirror's place in the tree has its own mirror file below the mirror. -/
theorem Unambiguous.not_below (hco : Coexist files) (hu : Unambiguous dir files)
    (hk : Mirrored files k ds x) (hq : q ∈ files) : ¬Below '/' (render '/' (ds ++ [x])) q := by
  intro hb
  obtain ⟨es, m, h, hl, -⟩ := mirrored_file hq
  obtain ⟨hes, hm⟩ := free_names h
  have hnamed : Named '/' (es ++ [m]) := by
    rw [← h]
    exact named_splitOn q
  rw [render_names h, below_render ⟨by simp, hk.free hco⟩ hnamed] at hb
  obtain ⟨rest, hrest, he⟩ := hb
  obtain ⟨r, z, rfl⟩ := (List.eq_nil_or_concat' rest).resolve_left hrest
  rw [← List.append_assoc] at he
  obtain ⟨hd, -⟩ := List.append_inj' he rfl
  refine hu.apart k hk.mem_targets (.file, q) hl.mem_targets ((hk.below_iff hco hl).mpr
    ⟨r ++ [m ++ ".md".toList], by simp, ?_⟩)
  rw [hd, List.append_assoc]

theorem clear_of_unambiguous (hco : Coexist files) (hu : Unambiguous dir files) : Clear files := by
  refine ⟨fun p hp hn => ?_, fun hp => ?_, fun p hp q hq => ?_, fun p hp q hq => ?_, fun q hq => ?_⟩
  · obtain ⟨ds, n, h, hk, hl⟩ := mirrored_file hp
    rw [fileName_eq h] at hn
    subst hn
    have he := hu.distinct hk.mem_targets hl.mem_targets ((hk.place_eq_iff hco hl).mpr rfl)
    exact absurd (Prod.mk.inj he).1 (by simp)
  · have hsplit : projectTarget.splitOn '/' = [] ++ [projectTarget] := by decide
    have hk : Mirrored files (.file, projectTarget) [] (projectTarget ++ ".md".toList) := .file hp hsplit
    have hl : Mirrored files (.project, projectTarget) [] "PROJECT.md".toList := .project
    have he := hu.distinct hk.mem_targets hl.mem_targets ((hk.place_eq_iff hco hl).mpr rfl)
    exact absurd (Prod.mk.inj he).1 (by simp)
  · obtain ⟨ds, n, h, hk, -⟩ := mirrored_file hp
    have hb := hu.not_below hco hk hq
    rwa [← render_concat_append, ← render_names h] at hb
  · obtain ⟨ds, n, h, -, hl⟩ := mirrored_file hp
    have hb := hu.not_below hco hl hq
    unfold sibling
    rwa [h, List.dropLast_concat]
  · exact hu.not_below hco .project hq

/-- **When mirror paths are unambiguous**: exactly if no file is called `_module`, none in the root
`PROJECT`, and no directory with files in it has the name of a file's, a module's or the project's
mirror file. -/
theorem unambiguous_iff (hco : Coexist files) (dir : Text) : Unambiguous dir files ↔ Clear files :=
  ⟨clear_of_unambiguous hco, unambiguous_of_clear hco⟩

/-- A file in a directory. -/
theorem unambiguous_lib : Unambiguous "/p/.brain/summaries".toList {"src/lib.rs".toList} := by
  have hco : Coexist {"src/lib.rs".toList} := by
    refine ⟨?_, ?_⟩
    · rintro p rfl
      decide
    · rintro p rfl q rfl
      decide
  refine (unambiguous_iff hco _).mpr ⟨?_, ?_, ?_, ?_, ?_⟩
  · rintro p rfl
    decide
  · exact (by decide : projectTarget ≠ "src/lib.rs".toList)
  · rintro p rfl q rfl
    decide
  · rintro p rfl q rfl
    decide
  · rintro q rfl
    decide

/-- **A file called `_module`** has the mirror file of its directory. -/
theorem not_unambiguous : ¬∀ (dir : Text) (files : Set Text), Coexist files → Unambiguous dir files := by
  intro h
  have hco : Coexist {"src/_module".toList} := by
    refine ⟨?_, ?_⟩
    · rintro p rfl
      decide
    · rintro p rfl q rfl
      decide
  have hu := h "/p/.brain/summaries".toList _ hco
  have hk : (Scope.file, "src/_module".toList) ∈ targets {"src/_module".toList} :=
    Or.inl ⟨_, rfl, rfl⟩
  have hl : (Scope.module, moduleTarget "src/_module".toList) ∈ targets {"src/_module".toList} :=
    Or.inr (Or.inl ⟨_, rfl, rfl⟩)
  exact absurd (Prod.mk.inj (hu.distinct hk hl (by decide))).1 (by decide)

end BrainEngine.Summaries.Paths
