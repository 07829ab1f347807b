import BrainEngine.Cache.Models

/-! # The best semantic hit

What `semanticLookup` returns, from the rows alone: the first of the eligible rows above the threshold
that no eligible row exceeds. Rows that are not eligible change nothing. -/

namespace BrainEngine.Cache.Best

open BrainEngine.Rust.Str BrainEngine.Lib.Keyed BrainEngine.Core.External BrainEngine.Core.Vectors
open BrainEngine.Core.Cache BrainEngine.Cache.Timed BrainEngine.Cache.Models

/-- A live row with a vector of the query's length, and its similarity. -/
structure Scores (e : Engine) (queryVector : List F32) (now : ℤ) (r : CacheRow) (s : F32) : Prop where
  isLive : r.isLive now = true
  vector : ∃ json stored, r.queryVector = some json ∧ e.fromStr json = some stored ∧
    stored.length = queryVector.length ∧ s = cosineSimilarity e.toFloats queryVector stored

/-- The first of the best rows of a scan: it is above the threshold, no row that scores is better, and
the rows before it that are above the threshold are worse. -/
def FirstBest (e : Engine) (cfg : CacheConfig) (queryVector : List F32) (now : ℤ)
    (rows : List (Text × CacheRow)) (a : Text × CacheRow) : Prop :=
  ∃ s pre post, rows = pre ++ a :: post ∧ Scores e queryVector now a.2 s ∧
    f32Gt s cfg.semanticThreshold = true ∧
    (∀ b ∈ rows, ∀ s', Scores e queryVector now b.2 s' → f32Gt s' s = false) ∧
    ∀ b ∈ pre, ∀ s', Scores e queryVector now b.2 s' →
      f32Gt s' cfg.semanticThreshold = true → f32Gt s s' = true

/-- The rows of a scan that score. -/
def eligible (e : Engine) (t : CacheTable) (queryVector : List F32) (now : ℤ) :
    List (Text × CacheRow) :=
  (candidates e t now).filter fun a => (similarity e queryVector a.2).isSome

variable {e : Engine} {t : CacheTable} {cfg : CacheConfig} {qv : List F32} {now : ℤ}

theorem similarity_eq_some {r : CacheRow} {s : F32} : similarity e qv r = some s ↔
    ∃ json stored, r.queryVector = some json ∧ e.fromStr json = some stored ∧
      stored.length = qv.length ∧ s = cosineSimilarity e.toFloats qv stored := by
  unfold similarity
  constructor
  · intro h
    split at h
    · cases h
    · next stored hs =>
      obtain ⟨json, hj, hf⟩ := Option.bind_eq_some_iff.mp hs
      split_ifs at h with hlen
      exact ⟨json, stored, hj, hf, not_ne_iff.mp hlen, (Option.some.inj h).symm⟩
  · rintro ⟨json, stored, hj, hf, hlen, rfl⟩
    rw [hj, Option.bind_some, hf]
    dsimp only
    rw [if_neg (not_ne_iff.mpr hlen)]

theorem scores_iff {r : CacheRow} {s : F32} :
    Scores e qv now r s ↔ r.isLive now = true ∧ similarity e qv r = some s := by
  rw [similarity_eq_some]
  exact ⟨fun h => ⟨h.1, h.2⟩, fun h => ⟨h.1, h.2⟩⟩

theorem f32Gt_irrefl (a : F32) : f32Gt a a = false := by
  rw [Bool.eq_false_iff]
  intro h
  obtain ⟨m, n, ha, hb, hlt⟩ := f32Gt_iff.mp h
  rw [ha, Option.some.injEq] at hb
  omega

theorem mem_candidates (hscan : ∀ l, (e.scan l).Perm l) {a : Text × CacheRow} :
    a ∈ candidates e t now ↔ a ∈ t.rows ∧ a.2.queryVector.isSome = true ∧ a.2.isLive now = true := by
  unfold candidates
  rw [(hscan _).mem_iff, List.mem_filter, Bool.and_eq_true]

theorem scores_of_mem (hscan : ∀ l, (e.scan l).Perm l) {a : Text × CacheRow} {s : F32} :
    a ∈ t.rows ∧ Scores e qv now a.2 s ↔
      a ∈ candidates e t now ∧ similarity e qv a.2 = some s := by
  rw [mem_candidates hscan, scores_iff]
  constructor
  · rintro ⟨ha, hlive, hs⟩
    obtain ⟨json, -, hj, -⟩ := similarity_eq_some.mp hs
    exact ⟨⟨ha, by simp [hj], hlive⟩, hs⟩
  · rintro ⟨⟨ha, -, hlive⟩, hs⟩
    exact ⟨ha, hlive, hs⟩

/-- **The closest row** is the first of the best. -/
theorem closest_iff (hscan : ∀ l, (e.scan l).Perm l) {a : Text × CacheRow} :
    Closest e t cfg qv now a ↔ FirstBest e cfg qv now (candidates e t now) a := by
  have hscore : ∀ b ∈ candidates e t now, ∀ s,
      Scores e qv now b.2 s ↔ similarity e qv b.2 = some s := by
    intro b hb s
    rw [scores_iff, and_iff_right ((mem_candidates hscan).mp hb).2.2]
  constructor
  · rintro ⟨s, pre, post, hl, hs, hgt, hpre, hpost⟩
    have ha : a ∈ candidates e t now := by rw [hl]; simp
    have hin : ∀ b ∈ pre, b ∈ candidates e t now := by
      intro b hb
      rw [hl]
      exact List.mem_append_left _ hb
    refine ⟨s, pre, post, hl, (hscore a ha s).mpr hs, hgt, fun b hb s' hs' => ?_,
      fun b hb s' hs' => hpre b hb s' ((hscore b (hin b hb) s').mp hs')⟩
    rw [hscore b hb] at hs'
    rw [hl] at hb
    rcases List.mem_append.mp hb with hb | hb
    · -- a row before `a` is below it, or not even above the threshold
      rw [Bool.eq_false_iff]
      intro hbig
      have hback := f32Gt_trans (hpre b hb s' hs' (f32Gt_trans hbig hgt)) hbig
      rw [f32Gt_irrefl] at hback
      cases hback
    · rcases List.mem_cons.mp hb with rfl | hb
      · obtain rfl : s = s' := Option.some.inj (hs.symm.trans hs')
        exact f32Gt_irrefl s
      · exact hpost b hb s' hs'
  · rintro ⟨s, pre, post, hl, hs, hgt, hmax, hpre⟩
    have hmem : ∀ b, b ∈ pre ∨ b = a ∨ b ∈ post → b ∈ candidates e t now := by
      intro b hb
      rw [hl]
      simpa using hb
    refine ⟨s, pre, post, hl, (hscore a (hmem a (Or.inr (Or.inl rfl))) s).mp hs, hgt,
      fun b hb s' hs' => ?_, fun b hb s' hs' => ?_⟩
    · exact hpre b hb s' ((hscore b (hmem b (Or.inl hb)) s').mpr hs')
    · have hb' := hmem b (Or.inr (Or.inr hb))
      exact hmax b hb' s' ((hscore b hb' s').mpr hs')

/-- **No hit** exactly if no row of the table scores above the threshold. -/
theorem semanticLookup_eq_none (hscan : ∀ l, (e.scan l).Perm l) :
    semanticLookup e t cfg qv now = none ↔
      ∀ a ∈ t.rows, ∀ s, Scores e qv now a.2 s → f32Gt s cfg.semanticThreshold = false := by
  unfold semanticLookup
  rcases foldl_semanticStep e qv cfg.semanticThreshold (candidates e t now) with
    ⟨hf, hnone⟩ | ⟨a, s, hfirst, hf⟩
  · rw [hf]
    refine iff_of_true rfl fun a ha s hs => ?_
    obtain ⟨ha', hs'⟩ := (scores_of_mem hscan).mp ⟨ha, hs⟩
    exact hnone a ha' s hs'
  · rw [hf]
    refine iff_of_false (by simp) fun h => ?_
    obtain ⟨pre, post, hl, hs, hgt, -⟩ := hfirst
    have ha : a ∈ candidates e t now := by rw [hl]; simp
    obtain ⟨hrow, hscore⟩ := (scores_of_mem hscan).mpr ⟨ha, hs⟩
    rw [h a hrow s hscore] at hgt
    cases hgt

/-- **Rows that do not score** are skipped. -/
theorem foldl_filter_similarity (l : List (Text × CacheRow)) (best : F32 × Option Text) :
    (l.filter fun a => (similarity e qv a.2).isSome).foldl
        (fun best a => semanticStep e qv best a.2) best =
      l.foldl (fun best a => semanticStep e qv best a.2) best := by
  induction l generalizing best with
  | nil => rfl
  | cons a l ih =>
    cases hs : similarity e qv a.2 with
    | none =>
      have hskip : semanticStep e qv best a.2 = best := by rw [semanticStep_eq, hs]
      rw [List.filter_cons_of_neg (by simp [hs]), List.foldl_cons, hskip, ih]
    | some s =>
      rw [List.filter_cons_of_pos (by simp [hs]), List.foldl_cons, List.foldl_cons, ih]

/-- **The best eligible entry.** A semantic lookup finds nothing exactly if no row scores above the
threshold, and otherwise it returns the response of the first of the best rows of the scan; tables
whose scans have the same eligible rows have the same lookups. -/
theorem semanticLookup_best (hscan : ∀ l, (e.scan l).Perm l) (t : CacheTable) (cfg : CacheConfig)
    (qv : List F32) (now : ℤ) :
    (semanticLookup e t cfg qv now = none ↔
      ∀ a ∈ t.rows, ∀ s, Scores e qv now a.2 s → f32Gt s cfg.semanticThreshold = false) ∧
    (∀ r, semanticLookup e t cfg qv now = some r ↔
      ∃ a, FirstBest e cfg qv now (candidates e t now) a ∧ a.2.response = r) ∧
    ∀ t', eligible e t' qv now = eligible e t qv now →
      semanticLookup e t' cfg qv now = semanticLookup e t cfg qv now := by
  refine ⟨semanticLookup_eq_none hscan, fun r => ?_, fun t' h => ?_⟩
  · rw [semanticLookup_eq_some]
    exact exists_congr fun a => and_congr_left' (closest_iff hscan)
  · unfold semanticLookup
    rw [← foldl_filter_similarity (candidates e t' now), ← foldl_filter_similarity (candidates e t now)]
    unfold eligible at h
    rw [h]

/-- A row with this vector and this deadline. -/
def rowOf (response : String) (vector : String) (expiresAt : Option ℤ) : CacheRow where
  response := response.toList
  createdAt := 100
  expiresAt := expiresAt
  queryVector := some vector.toList

/-- A live row, one whose vector is no JSON, and one that has expired. -/
def mixed : CacheTable :=
  ((KeyTable.empty.replace "k1".toList (rowOf "malformed" "[" none)).replace "k2".toList
    (rowOf "expired" "[1.0]" (some 150))).replace "k3".toList (rowOf "foo is bar" "[1.0]" none)

theorem semanticLookup_mixed : (∀ l, (unit.scan l).Perm l) ∧
    ∃ a, FirstBest unit fuzzy [0x3F800000] 200 (candidates unit mixed 200) a ∧
      a.2.response = "foo is bar".toList := by
  have hscan : ∀ l, (unit.scan l).Perm l := fun l => List.Perm.refl l
  have hl : semanticLookup unit mixed fuzzy [0x3F800000] 200 = some "foo is bar".toList := by decide
  exact ⟨hscan, ((semanticLookup_best hscan mixed fuzzy [0x3F800000] 200).2.1 _).mp hl⟩

end BrainEngine.Cache.Best
