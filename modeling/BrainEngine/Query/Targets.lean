import BrainEngine.Core.Locator
import Mathlib.Data.List.Dedup
import Mathlib.Data.List.Induction

/-! # The ranking of edit targets

The candidate of a file is what its chunks make of it, one after the other: `Best` says what that is,
and one more chunk keeps it (`Best.update`). The targets are then the first candidates by score and
file. -/

namespace BrainEngine.Query.Targets

open BrainEngine.Rust.Str BrainEngine.Lib.Ranked BrainEngine.Lib.Sorted BrainEngine.Core.Locator

variable {S : Type} [LinearOrder S] [AddMonoid S] (lower : Text → Text) (quarter : S)
  (promptTargets : List Text)

/-! ### Terms without repeats -/

/-- No two terms are the same but for the case of their letters. -/
def NoRepeats (terms : List Text) : Prop := terms.Pairwise fun t t' => eqIgnoreAsciiCase t t' = false

/-- Every term is there, but for the case of its letters. -/
def Covers (terms matched : List Text) : Prop := ∀ t ∈ matched, ∃ t' ∈ terms, eqIgnoreAsciiCase t' t = true

theorem eqIgnoreAsciiCase_refl (t : Text) : eqIgnoreAsciiCase t t = true := decide_eq_true rfl

theorem addTerm_spec {terms : List Text} (h : NoRepeats terms) (term : Text) :
    NoRepeats (addTerm terms term) ∧ terms ⊆ addTerm terms term ∧
      addTerm terms term ⊆ terms ++ [term] ∧ Covers (addTerm terms term) [term] := by
  unfold addTerm
  split_ifs with hany
  · obtain ⟨t, ht, heq⟩ := List.any_eq_true.mp hany
    refine ⟨h, List.Subset.refl _, List.subset_append_left _ _, fun t' ht' => ⟨t, ht, ?_⟩⟩
    rw [List.mem_singleton.mp ht']
    exact heq
  · have hnone : ∀ t ∈ terms, eqIgnoreAsciiCase t term = false := fun t ht => by
      by_contra heq
      exact hany (List.any_eq_true.mpr ⟨t, ht, Bool.not_eq_false _ ▸ heq⟩)
    refine ⟨List.pairwise_append.mpr ⟨h, List.pairwise_singleton _ _, fun t ht t' ht' => ?_⟩,
      List.subset_append_left _ _, List.Subset.refl _, fun t ht => ?_⟩
    · rw [List.mem_singleton.mp ht']
      exact hnone t ht
    · rw [List.mem_singleton.mp ht]
      exact ⟨term, by simp, eqIgnoreAsciiCase_refl term⟩

/-- **The terms of a chunk** are added without repeats. -/
theorem foldl_addTerm : ∀ (matched : List Text) {terms : List Text}, NoRepeats terms →
    NoRepeats (matched.foldl addTerm terms) ∧ terms ⊆ matched.foldl addTerm terms ∧
      matched.foldl addTerm terms ⊆ terms ++ matched ∧ Covers (matched.foldl addTerm terms) matched
  | [], terms, h => ⟨h, List.Subset.refl _, by simp, nofun⟩
  | term :: matched, terms, h => by
    obtain ⟨h1, hsub, hfrom, hcov⟩ := addTerm_spec h term
    obtain ⟨ih, ihsub, ihfrom, ihcov⟩ := foldl_addTerm matched h1
    refine ⟨ih, List.Subset.trans hsub ihsub, fun t ht => ?_, fun t ht => ?_⟩
    · rcases List.mem_append.mp (ihfrom ht) with ht | ht
      · rcases List.mem_append.mp (hfrom ht) with ht | ht
        · exact List.mem_append_left _ ht
        · rw [List.mem_singleton.mp ht]
          simp
      · simp [ht]
    · rcases List.mem_cons.mp ht with rfl | ht
      · obtain ⟨t', ht', heq⟩ := hcov t List.mem_cons_self
        exact ⟨t', ihsub ht', heq⟩
      · exact ihcov t ht

/-! ### The candidate of a file -/

/-- `c` is the best of the chunks `g` of a file: the first chunk with the greatest score, and the terms
that any chunk matches. -/
structure Best (g : List (RetrievedChunk S)) (c : Candidate S) : Prop where
  first : ∃ pre chunk post, g = pre ++ chunk :: post ∧ c.line = chunk.startLine ∧
    c.score = boostedScore lower quarter promptTargets chunk ∧
      ∀ b ∈ pre, boostedScore lower quarter promptTargets b < c.score
  greatest : ∀ b ∈ g, boostedScore lower quarter promptTargets b ≤ c.score
  noRepeats : NoRepeats c.whyTerms
  matched : ∀ t ∈ c.whyTerms, ∃ b ∈ g, t ∈ matchedTerms lower b promptTargets
  covers : ∀ b ∈ g, Covers c.whyTerms (matchedTerms lower b promptTargets)

variable {lower quarter promptTargets}

theorem Best.singleton (chunk : RetrievedChunk S) :
    Best lower quarter promptTargets [chunk] (updateCandidate lower quarter promptTargets chunk none) := by
  have hnil : NoRepeats [] := List.Pairwise.nil
  obtain ⟨hno, -, hfrom, hcov⟩ := foldl_addTerm (matchedTerms lower chunk promptTargets) hnil
  unfold updateCandidate
  simp only [Option.getD_none, lt_self_iff_false, if_false]
  refine ⟨⟨[], chunk, [], rfl, rfl, rfl, nofun⟩, ?_, hno, ?_, ?_⟩
  · intro b hb
    rw [List.mem_singleton.mp hb]
  · intro t ht
    exact ⟨chunk, List.mem_cons_self, hfrom ht⟩
  · intro b hb
    rw [List.mem_singleton.mp hb]
    exact hcov

/-- **One more chunk.** -/
theorem Best.update {g : List (RetrievedChunk S)} {c : Candidate S}
    (h : Best lower quarter promptTargets g c) (chunk : RetrievedChunk S) :
    Best lower quarter promptTargets (g ++ [chunk])
      (updateCandidate lower quarter promptTargets chunk (some c)) := by
  obtain ⟨hno, hsub, hfrom, hcov⟩ := foldl_addTerm (matchedTerms lower chunk promptTargets) h.noRepeats
  have hmatched : ∀ t ∈ (matchedTerms lower chunk promptTargets).foldl addTerm c.whyTerms,
      ∃ b ∈ g ++ [chunk], t ∈ matchedTerms lower b promptTargets := by
    intro t ht
    rcases List.mem_append.mp (hfrom ht) with ht | ht
    · obtain ⟨b, hb, hbt⟩ := h.matched t ht
      exact ⟨b, List.mem_append_left _ hb, hbt⟩
    · exact ⟨chunk, by simp, ht⟩
  have hcovers : ∀ b ∈ g ++ [chunk],
      Covers ((matchedTerms lower chunk promptTargets).foldl addTerm c.whyTerms)
        (matchedTerms lower b promptTargets) := by
    intro b hb t ht
    rcases List.mem_append.mp hb with hb | hb
    · obtain ⟨t', ht', heq⟩ := h.covers b hb t ht
      exact ⟨t', hsub ht', heq⟩
    · rw [List.mem_singleton.mp hb] at ht
      exact hcov t ht
  obtain ⟨pre, best, post, hg, hline, hscore, hpre⟩ := h.first
  unfold updateCandidate
  simp only [Option.getD_some]
  split_ifs with hlt
  · refine ⟨⟨g, chunk, [], rfl, rfl, rfl, fun b hb => (h.greatest b hb).trans_lt hlt⟩, ?_, hno, hmatched,
      hcovers⟩
    intro b hb
    rcases List.mem_append.mp hb with hb | hb
    · exact ((h.greatest b hb).trans_lt hlt).le
    · rw [List.mem_singleton.mp hb]
  · refine ⟨⟨pre, best, post ++ [chunk], ?_, hline, hscore, hpre⟩, ?_, hno, hmatched, hcovers⟩
    · rw [hg, List.append_assoc]
      rfl
    · intro b hb
      rcases List.mem_append.mp hb with hb | hb
      · exact h.greatest b hb
      · rw [List.mem_singleton.mp hb]
        exact not_lt.mp hlt

variable (lower quarter promptTargets) in
/-- **All the chunks of a file.** -/
theorem best_updates (f : Text) : ∀ g : List (RetrievedChunk S), (∀ b ∈ g, b.filePath = f) → g ≠ [] →
    ∃ c, updates (updateCandidate lower quarter promptTargets) g none = some c ∧ c.file = f ∧
      Best lower quarter promptTargets g c := by
  intro g
  induction g using List.reverseRecOn with
  | nil => exact fun _ h => absurd rfl h
  | append_singleton g chunk ih =>
    intro hfile _
    have hchunk : chunk.filePath = f := hfile chunk (by simp)
    unfold updates
    rw [List.foldl_concat]
    by_cases hg : g = []
    · subst hg
      refine ⟨_, rfl, ?_, Best.singleton chunk⟩
      show (updateCandidate lower quarter promptTargets chunk none).file = f
      simp only [updateCandidate, Option.getD_none, lt_self_iff_false, if_false]
      exact hchunk
    · obtain ⟨c, hc, hcf, hbest⟩ := ih (fun b hb => hfile b (List.mem_append_left _ hb)) hg
      unfold updates at hc
      rw [hc]
      refine ⟨_, rfl, ?_, hbest.update chunk⟩
      unfold updateCandidate
      simp only [Option.getD_some]
      split_ifs
      · exact hcf
      · exact hcf

/-! ### The candidates -/

section
variable {chunks : List (RetrievedChunk S)}

/-- The chunks of a file. -/
def ofFile (chunks : List (RetrievedChunk S)) (f : Text) : List (RetrievedChunk S) :=
  chunks.filter fun c => c.filePath = f

/-- **The candidate of a file** is the best of its chunks; there is one for each file that has chunks. -/
theorem mem_byFile {f : Text} {c : Candidate S} :
    (f, c) ∈ (byFile lower quarter promptTargets chunks).entries ↔
      updates (updateCandidate lower quarter promptTargets) (ofFile chunks f) none = some c := by
  unfold byFile
  rw [SortedMap.mem_entries, get?_tally]
  exact iff_of_eq (congrArg (fun l => updates _ l none = some c)
    (List.filter_congr fun a _ => decide_eq_decide.mpr Iff.rfl))

theorem best_of_mem_byFile {f : Text} {c : Candidate S}
    (h : (f, c) ∈ (byFile lower quarter promptTargets chunks).entries) :
    c.file = f ∧ Best lower quarter promptTargets (ofFile chunks f) c := by
  have hu := mem_byFile.mp h
  have hne : ofFile chunks f ≠ [] := by
    intro hnil
    rw [hnil] at hu
    cases hu
  obtain ⟨c', hc', hfile, hbest⟩ := best_updates lower quarter promptTargets f (ofFile chunks f)
    (fun b hb => by simpa using (List.mem_filter.mp hb).2) hne
  obtain rfl := Option.some.inj (hu.symm.trans hc')
  exact ⟨hfile, hbest⟩

variable (lower quarter promptTargets) in
theorem exists_mem_byFile {b : RetrievedChunk S} (hb : b ∈ chunks) :
    ∃ c, (b.filePath, c) ∈ (byFile lower quarter promptTargets chunks).entries := by
  have hmem : b ∈ ofFile chunks b.filePath := List.mem_filter.mpr ⟨hb, by simp⟩
  obtain ⟨c, hc, -⟩ := best_updates lower quarter promptTargets b.filePath (ofFile chunks b.filePath)
    (fun b hb => by simpa using (List.mem_filter.mp hb).2) (List.ne_nil_of_mem hmem)
  exact ⟨c, mem_byFile.mpr hc⟩

/-- The candidates in the order of their files. -/
def candidates (lower : Text → Text) (quarter : S) (promptTargets : List Text)
    (chunks : List (RetrievedChunk S)) : List (Candidate S) :=
  (byFile lower quarter promptTargets chunks).entries.map Prod.snd

theorem files_candidates : (candidates lower quarter promptTargets chunks).map Candidate.file =
    (byFile lower quarter promptTargets chunks).entries.map Prod.fst := by
  unfold candidates
  rw [List.map_map]
  refine List.map_congr_left fun e he => ?_
  obtain ⟨f, c⟩ := e
  exact (best_of_mem_byFile he).1

theorem nodup_files : ((candidates lower quarter promptTargets chunks).map Candidate.file).Nodup := by
  rw [files_candidates]
  exact SortedMap.nodup_keys _

theorem best_of_mem {c : Candidate S} (h : c ∈ candidates lower quarter promptTargets chunks) :
    Best lower quarter promptTargets (ofFile chunks c.file) c := by
  obtain ⟨⟨f, c'⟩, he, rfl⟩ := List.mem_map.mp h
  obtain ⟨hfile, hbest⟩ := best_of_mem_byFile he
  show Best lower quarter promptTargets (ofFile chunks c'.file) c'
  rw [hfile]
  exact hbest

variable (lower quarter promptTargets) in
theorem exists_candidate {b : RetrievedChunk S} (hb : b ∈ chunks) :
    ∃ c ∈ candidates lower quarter promptTargets chunks, c.file = b.filePath := by
  obtain ⟨c, hc⟩ := exists_mem_byFile lower quarter promptTargets hb
  exact ⟨c, List.mem_map.mpr ⟨_, hc, rfl⟩, (best_of_mem_byFile hc).1⟩

/-- There are as many candidates as files. -/
theorem length_candidates : (candidates lower quarter promptTargets chunks).length =
    (chunks.map RetrievedChunk.filePath).dedup.length := by
  have hperm : ((candidates lower quarter promptTargets chunks).map Candidate.file).Perm
      (chunks.map RetrievedChunk.filePath).dedup := by
    rw [List.perm_ext_iff_of_nodup nodup_files (List.nodup_dedup _)]
    intro f
    rw [List.mem_dedup]
    constructor
    · intro hf
      obtain ⟨c, hc, rfl⟩ := List.mem_map.mp hf
      obtain ⟨pre, b, post, hg, -⟩ := (best_of_mem hc).first
      have hb : b ∈ ofFile chunks c.file := by
        rw [hg]
        simp
      obtain ⟨hb, hfile⟩ := List.mem_filter.mp hb
      exact List.mem_map.mpr ⟨b, hb, by simpa using hfile⟩
    · intro hf
      obtain ⟨b, hb, rfl⟩ := List.mem_map.mp hf
      obtain ⟨c, hc, hfile⟩ := exists_candidate lower quarter promptTargets hb
      exact List.mem_map.mpr ⟨c, hc, hfile⟩
  have hlen := hperm.length_eq
  rw [List.length_map] at hlen
  exact hlen

end

/-! ### The targets -/

/-- The target comes before a file with this score: by descending score, then by file. -/
def Precedes (t : LocatorTarget S) (score : S) (file : Text) : Prop :=
  score < t.score ∨ score = t.score ∧ t.file < file

variable (lower quarter promptTargets) in
/-- What a target says of its file: its score is the greatest of the file's chunks, its line that of the
first chunk with this score, and its terms are, without repeats, those that a chunk of the file
matches. -/
structure Describes (chunks : List (RetrievedChunk S)) (t : LocatorTarget S) : Prop where
  line : ∃ pre chunk post, chunks = pre ++ chunk :: post ∧ chunk.filePath = t.file ∧
    t.line = chunk.startLine ∧ t.score = boostedScore lower quarter promptTargets chunk ∧
      ∀ b ∈ pre, b.filePath = t.file → boostedScore lower quarter promptTargets b < t.score
  greatest : ∀ b ∈ chunks, b.filePath = t.file → boostedScore lower quarter promptTargets b ≤ t.score
  terms : ∃ terms, t.why = whyText terms ∧ NoRepeats terms ∧
    (∀ term ∈ terms, ∃ b ∈ chunks, b.filePath = t.file ∧ term ∈ matchedTerms lower b promptTargets) ∧
      ∀ b ∈ chunks, b.filePath = t.file → Covers terms (matchedTerms lower b promptTargets)

variable {chunks : List (RetrievedChunk S)}

omit [LinearOrder S] [AddMonoid S] in
theorem mem_ofFile {f : Text} {b : RetrievedChunk S} : b ∈ ofFile chunks f ↔ b ∈ chunks ∧ b.filePath = f := by
  simp [ofFile]

theorem describes_of_best {c : Candidate S} (h : Best lower quarter promptTargets (ofFile chunks c.file) c) :
    Describes lower quarter promptTargets chunks (targetOf c) := by
  refine ⟨?_, fun b hb hfile => h.greatest b (mem_ofFile.mpr ⟨hb, hfile⟩), c.whyTerms, rfl, h.noRepeats, ?_,
    fun b hb hfile => h.covers b (mem_ofFile.mpr ⟨hb, hfile⟩)⟩
  · have hof : ∀ b : RetrievedChunk S, decide (b.filePath = c.file) = true ↔
        b.filePath = (targetOf c).file := fun _ => decide_eq_true_iff
    obtain ⟨pre, chunk, post, hg, hline, hscore, hpre⟩ := h.first
    obtain ⟨l₁, l₂, hl, rfl, hl₂⟩ := List.filter_eq_append_iff.mp hg
    obtain ⟨m₁, m₂, rfl, hm₁, hchunk, -⟩ := List.filter_eq_cons_iff.mp hl₂
    refine ⟨l₁ ++ m₁, chunk, m₂, ?_, (hof chunk).mp hchunk, hline, hscore, fun b hb hfile => ?_⟩
    · rw [hl, List.append_assoc]
    · rcases List.mem_append.mp hb with hb | hb
      · exact hpre b (List.mem_filter.mpr ⟨hb, (hof b).mpr hfile⟩)
      · exact absurd ((hof b).mpr hfile) (hm₁ b hb)
  · intro term hterm
    obtain ⟨b, hb, hmatch⟩ := h.matched term hterm
    obtain ⟨hb, hfile⟩ := mem_ofFile.mp hb
    exact ⟨b, hb, hfile, hmatch⟩

/-- The score of a candidate is that of the best chunk. -/
theorem score_of_best {c : Candidate S} {b : RetrievedChunk S}
    (h : Best lower quarter promptTargets (ofFile chunks c.file) c) (hb : b ∈ chunks)
    (hfile : c.file = b.filePath)
    (hbest : ∀ b' ∈ chunks, b'.filePath = b.filePath →
      boostedScore lower quarter promptTargets b' ≤ boostedScore lower quarter promptTargets b) :
    c.score = boostedScore lower quarter promptTargets b := by
  obtain ⟨pre, chunk, post, hg, -, hs, -⟩ := h.first
  have hchunk : chunk ∈ ofFile chunks c.file := by
    rw [hg]
    simp
  obtain ⟨hin, hcf⟩ := mem_ofFile.mp hchunk
  refine le_antisymm ?_ (h.greatest b (mem_ofFile.mpr ⟨hb, hfile.symm⟩))
  rw [hs]
  exact hbest chunk hin (hcf.trans hfile)

omit [AddMonoid S] in
/-- Candidates of different files in order. -/
theorem precedes_of_le {a b : Candidate S} (h : rankKey a ≤ rankKey b) (hne : a.file ≠ b.file) :
    Precedes (targetOf a) b.score b.file := by
  rcases Prod.Lex.toLex_le_toLex.mp h with h | ⟨hscore, hfile⟩
  · exact Or.inl (OrderDual.toDual_lt_toDual.mp h)
  · exact Or.inr ⟨(OrderDual.toDual_inj.mp hscore).symm, lt_of_le_of_ne hfile hne⟩

/-- **Locator ranking is a top-k over files.** For all chunks with scores in any linear order, all prompt
targets and every number of targets: there is one target for each file, up to that number; each says
of its file what its chunks are; they come by descending score, then by file; and the files left out
come after all of them. -/
theorem rank_targets_top (lower : Text → Text) (quarter : S) (promptTargets : List Text)
    (chunks : List (RetrievedChunk S)) (maxTargets : ℕ) :
    let targets := rankTargets lower quarter promptTargets chunks maxTargets
    targets.length = min maxTargets (chunks.map RetrievedChunk.filePath).dedup.length ∧
      (targets.map LocatorTarget.file).Nodup ∧
      (∀ t ∈ targets, Describes lower quarter promptTargets chunks t) ∧
      targets.Pairwise (fun a b => Precedes a b.score b.file) ∧
      ∀ b ∈ chunks, b.filePath ∉ targets.map LocatorTarget.file →
        (∀ b' ∈ chunks, b'.filePath = b.filePath →
          boostedScore lower quarter promptTargets b' ≤ boostedScore lower quarter promptTargets b) →
        ∀ t ∈ targets, Precedes t (boostedScore lower quarter promptTargets b) b.filePath := by
  intro targets
  by_cases hmax : maxTargets = 0
  · have hnil : targets = [] := if_pos hmax
    rw [hnil, hmax]
    exact ⟨rfl, List.nodup_nil, nofun, List.Pairwise.nil, nofun⟩
  · obtain ⟨rest, hperm, hsorted, hcross, hlen⟩ := selects_iff.mp
      (selects_sortBy rankKey (candidates lower quarter promptTargets chunks) maxTargets)
    have htargets : targets = ((sortBy rankKey (candidates lower quarter promptTargets chunks)).take
        maxTargets).map targetOf := if_neg hmax
    generalize (sortBy rankKey (candidates lower quarter promptTargets chunks)).take maxTargets = first at *
    have hfiles : targets.map LocatorTarget.file = first.map Candidate.file := by
      rw [htargets, List.map_map]
      rfl
    have hnodup : ((first ++ rest).map Candidate.file).Nodup :=
      (hperm.map Candidate.file).nodup_iff.mpr nodup_files
    rw [List.map_append, List.nodup_append] at hnodup
    have hmem : ∀ {c}, c ∈ first ++ rest → Best lower quarter promptTargets (ofFile chunks c.file) c :=
      fun hc => best_of_mem (hperm.mem_iff.mp hc)
    refine ⟨?_, ?_, ?_, ?_, ?_⟩
    · rw [htargets, List.length_map, hlen, length_candidates]
    · rw [hfiles]
      exact hnodup.1
    · intro t ht
      rw [htargets] at ht
      obtain ⟨c, hc, rfl⟩ := List.mem_map.mp ht
      exact describes_of_best (hmem (List.mem_append_left _ hc))
    · rw [htargets, List.pairwise_map]
      have hne : first.Pairwise fun a b => a.file ≠ b.file := List.pairwise_map.mp hnodup.1
      exact hsorted.imp₂ (fun {a b} hle hne => precedes_of_le hle hne) hne
    · intro b hb hout hbest t ht
      rw [htargets] at ht
      obtain ⟨a, ha, rfl⟩ := List.mem_map.mp ht
      obtain ⟨c, hc, hfile⟩ := exists_candidate lower quarter promptTargets hb
      have hrest : c ∈ rest := by
        rcases List.mem_append.mp (hperm.mem_iff.mpr hc) with hc | hc
        · rw [hfiles] at hout
          exact absurd (List.mem_map.mpr ⟨c, hc, hfile⟩) hout
        · exact hc
      have hscore : c.score = boostedScore lower quarter promptTargets b :=
        score_of_best (hmem (List.mem_append_right first hrest)) hb hfile hbest
      have hne : a.file ≠ c.file :=
        hnodup.2.2 _ (List.mem_map_of_mem ha) _ (List.mem_map_of_mem hrest)
      have hprecedes := precedes_of_le (hcross a ha c hrest) hne
      rw [hscore, hfile] at hprecedes
      exact hprecedes

end BrainEngine.Query.Targets
