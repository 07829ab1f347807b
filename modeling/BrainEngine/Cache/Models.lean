import BrainEngine.Cache.Timed

/-! # The models of cache hits

The exact path binds the model through the key; the semantic path takes the closest vector of the same
length, whatever its model. `stored_of_hit` says when a hit is nevertheless a response of the model it
was asked for. -/

namespace BrainEngine.Cache.Models

open BrainEngine.Rust.Str BrainEngine.Lib.Keyed BrainEngine.Core.External BrainEngine.Core.Vectors
open BrainEngine.Core.Cache BrainEngine.Cache.Timed

/-- A response was stored under a model. -/
def StoredUnder (past : List Op) (model response : Text) : Prop :=
  ∃ cfg query qv ttlOverride now, .store cfg query model response qv ttlOverride now ∈ past

/-! ### The closest row -/

/-- How similar the vector of a row is, if it has one of the right length. -/
def similarity (e : Engine) (queryVector : List F32) (r : CacheRow) : Option F32 :=
  match r.queryVector.bind e.fromStr with
  | none => none
  | some stored =>
    if stored.length ≠ queryVector.length then none
    else some (cosineSimilarity e.toFloats queryVector stored)

/-- The first of the rows whose similarity `s` exceeds the threshold and is not exceeded. -/
def First (sim : Text × CacheRow → Option F32) (threshold : F32) (l : List (Text × CacheRow))
    (a : Text × CacheRow) (s : F32) : Prop :=
  ∃ pre post, l = pre ++ a :: post ∧ sim a = some s ∧ f32Gt s threshold = true ∧
    (∀ b ∈ pre, ∀ s', sim b = some s' → f32Gt s' threshold = true → f32Gt s s' = true) ∧
    ∀ b ∈ post, ∀ s', sim b = some s' → f32Gt s' s = false

/-- The live row that is closest to a vector. -/
def Closest (e : Engine) (t : CacheTable) (cfg : CacheConfig) (queryVector : List F32) (now : ℤ)
    (a : Text × CacheRow) : Prop :=
  ∃ s, First (fun a => similarity e queryVector a.2) cfg.semanticThreshold (candidates e t now) a s

/-- No other model's row is closest when the semantic path is taken. -/
def OwnModel (x : Extern) (e : Engine) (P : Set (Text × Text)) (t : CacheTable) (cfg : CacheConfig)
    (query model : Text) (queryVector : Option (List F32)) (now : ℤ) : Prop :=
  cfg.semanticEnabled = false ∨ queryVector = none ∨
    (∃ r, (makeKey x query model, r) ∈ t.rows ∧ r.isLive now = true) ∨
    ∀ v a, queryVector = some v → Closest e t cfg v now a →
      ∃ q, (q, model) ∈ P ∧ a.1 = makeKey x q model

/-! ### The scan -/

variable {x : Extern} {e : Engine} {P : Set (Text × Text)} {past : List Op} {t : CacheTable}
variable {cfg : CacheConfig} {qv : List F32} {now : ℤ}

theorem f32Gt_iff {a b : F32} :
    f32Gt a b = true ↔ ∃ m n, f32Key a = some m ∧ f32Key b = some n ∧ n < m := by
  unfold f32Gt
  cases f32Key a <;> cases f32Key b <;> simp

theorem f32Gt_trans {a b c : F32} (h : f32Gt a b = true) (h' : f32Gt b c = true) :
    f32Gt a c = true := by
  obtain ⟨m, n, ha, hb, hlt⟩ := f32Gt_iff.mp h
  obtain ⟨n', k, hb', hc, hlt'⟩ := f32Gt_iff.mp h'
  rw [hb, Option.some.injEq] at hb'
  subst hb'
  exact f32Gt_iff.mpr ⟨m, k, ha, hc, hlt'.trans hlt⟩

theorem f32Gt_of_not_gt {a b c d : F32} (h : f32Gt a b = true) (hc : f32Gt c d = true)
    (h' : f32Gt c b = false) : f32Gt a c = true := by
  obtain ⟨m, n, ha, hb, hlt⟩ := f32Gt_iff.mp h
  obtain ⟨k, l, hk, -, -⟩ := f32Gt_iff.mp hc
  refine f32Gt_iff.mpr ⟨m, k, ha, hk, lt_of_le_of_lt ?_ hlt⟩
  by_contra hgt
  rw [f32Gt_iff.mpr ⟨k, n, hk, hb, not_le.mp hgt⟩] at h'
  cases h'

theorem semanticStep_eq (best : F32 × Option Text) (r : CacheRow) :
    semanticStep e qv best r = match similarity e qv r with
      | none => best
      | some s => if f32Gt s best.1 then (s, some r.response) else best := by
  unfold semanticStep similarity
  cases r.queryVector.bind e.fromStr with
  | none => rfl
  | some stored =>
    dsimp only
    by_cases hl : stored.length ≠ qv.length
    · rw [if_pos hl, if_pos hl]
    · rw [if_neg hl, if_neg hl]

theorem First.new {sim : Text × CacheRow → Option F32} {thr : F32} {l : List (Text × CacheRow)}
    {b : Text × CacheRow} {s : F32} (h : ∀ a ∈ l, ∀ s, sim a = some s → f32Gt s thr = false)
    (hb : sim b = some s) (hgt : f32Gt s thr = true) : First sim thr (l ++ [b]) b s := by
  refine ⟨l, [], rfl, hb, hgt, fun a ha u hu hut => ?_, by simp⟩
  rw [h a ha u hu] at hut
  cases hut

theorem First.skip {sim : Text × CacheRow → Option F32} {thr : F32} {l : List (Text × CacheRow)}
    {a b : Text × CacheRow} {s : F32} (h : First sim thr l a s)
    (hb : ∀ s', sim b = some s' → f32Gt s' s = false) : First sim thr (l ++ [b]) a s := by
  obtain ⟨pre, post, rfl, h1, h2, h3, h4⟩ := h
  refine ⟨pre, post ++ [b], by simp, h1, h2, h3, fun c hc => ?_⟩
  rcases List.mem_append.mp hc with hc | hc
  · exact h4 c hc
  · rw [List.mem_singleton.mp hc]
    exact hb

theorem First.win {sim : Text × CacheRow → Option F32} {thr : F32} {l : List (Text × CacheRow)}
    {a b : Text × CacheRow} {s s' : F32} (h : First sim thr l a s) (hb : sim b = some s')
    (hgt : f32Gt s' s = true) : First sim thr (l ++ [b]) b s' := by
  obtain ⟨pre, post, rfl, h1, h2, h3, h4⟩ := h
  refine ⟨pre ++ a :: post, [], rfl, hb, f32Gt_trans hgt h2, fun c hc u hu hut => ?_, by simp⟩
  rcases List.mem_append.mp hc with hc | hc
  · exact f32Gt_trans hgt (h3 c hc u hu hut)
  · rcases List.mem_cons.mp hc with rfl | hc
    · rw [h1, Option.some.injEq] at hu
      exact hu ▸ hgt
    · exact f32Gt_of_not_gt hgt hut (h4 c hc u hu)

/-- **What the scan has found** after some rows: nothing above the threshold, or the first of the
greatest. -/
theorem foldl_semanticStep (e : Engine) (qv : List F32) (thr : F32) (l : List (Text × CacheRow)) :
    (l.foldl (fun best a => semanticStep e qv best a.2) (thr, none) = (thr, none) ∧
      ∀ a ∈ l, ∀ s, similarity e qv a.2 = some s → f32Gt s thr = false) ∨
    ∃ a s, First (fun a => similarity e qv a.2) thr l a s ∧
      l.foldl (fun best a => semanticStep e qv best a.2) (thr, none) = (s, some a.2.response) := by
  induction l using List.reverseRecOn with
  | nil => exact Or.inl ⟨rfl, by simp⟩
  | append_singleton l b ih =>
    rw [List.foldl_append, List.foldl_cons, List.foldl_nil, semanticStep_eq]
    rcases ih with ⟨ih, hnone⟩ | ⟨a, s, hfirst, ih⟩
    · rw [ih]
      cases hs : similarity e qv b.2 with
      | none =>
        refine Or.inl ⟨rfl, fun a ha s has => ?_⟩
        rcases List.mem_append.mp ha with ha | ha
        · exact hnone a ha s has
        · rw [List.mem_singleton.mp ha, hs] at has
          cases has
      | some s =>
        dsimp only
        split_ifs with hgt
        · exact Or.inr ⟨b, s, First.new hnone hs hgt, rfl⟩
        · refine Or.inl ⟨rfl, fun a ha u hu => ?_⟩
          rcases List.mem_append.mp ha with ha | ha
          · exact hnone a ha u hu
          · rw [List.mem_singleton.mp ha, hs, Option.some.injEq] at hu
            rw [← hu]
            exact Bool.eq_false_iff.mpr hgt
    · rw [ih]
      cases hs : similarity e qv b.2 with
      | none => exact Or.inr ⟨a, s, hfirst.skip fun s' hs' => by simp [hs] at hs', rfl⟩
      | some s' =>
        dsimp only
        split_ifs with hgt
        · exact Or.inr ⟨b, s', hfirst.win hs hgt, rfl⟩
        · refine Or.inr ⟨a, s, hfirst.skip fun u hu => ?_, rfl⟩
          rw [hs, Option.some.injEq] at hu
          rw [← hu]
          exact Bool.eq_false_iff.mpr hgt

/-- **One row is first.** -/
theorem First.unique {sim : Text × CacheRow → Option F32} {thr : F32} {l : List (Text × CacheRow)}
    {a b : Text × CacheRow} {s s' : F32} (h : First sim thr l a s) (h' : First sim thr l b s') :
    a = b := by
  obtain ⟨pre, post, rfl, ha, hat, hpre, hpost⟩ := h
  obtain ⟨pre', post', hl, hb, hbt, hpre', hpost'⟩ := h'
  -- a row before the other would have to be smaller, and the other not greater
  rcases List.append_eq_append_iff.mp hl with ⟨c, rfl, hc⟩ | ⟨c, rfl, hc⟩
  · cases c with
    | nil => exact (List.cons.inj hc).1
    | cons d c =>
      obtain ⟨rfl, rfl⟩ := List.cons.inj hc
      have h1 := hpre' a (by simp) s ha hat
      rw [hpost b (by simp) s' hb] at h1
      cases h1
  · cases c with
    | nil => exact (List.cons.inj hc).1.symm
    | cons d c =>
      obtain ⟨rfl, rfl⟩ := List.cons.inj hc
      have h1 := hpre b (by simp) s' hb hbt
      rw [hpost' a (by simp) s ha] at h1
      cases h1

/-- **The semantic cache** returns the response of the closest row. -/
theorem semanticLookup_eq_some {r : Text} :
    semanticLookup e t cfg qv now = some r ↔ ∃ a, Closest e t cfg qv now a ∧ a.2.response = r := by
  unfold semanticLookup
  rcases foldl_semanticStep e qv cfg.semanticThreshold (candidates e t now) with
    ⟨hf, hnone⟩ | ⟨a, s, hfirst, hf⟩
  · rw [hf]
    constructor
    · intro h
      cases h
    · rintro ⟨a, ⟨s, pre, post, hl, hs, hgt, -⟩, -⟩
      rw [hnone a (by simp [hl]) s hs] at hgt
      cases hgt
  · rw [hf, Option.some.injEq]
    refine ⟨fun h => ⟨a, ⟨s, hfirst⟩, h⟩, ?_⟩
    rintro ⟨b, ⟨s', hb⟩, rfl⟩
    rw [hfirst.unique hb]

/-- A lookup answers from this entry. -/
def Found (x : Extern) (e : Engine) (t : CacheTable) (cfg : CacheConfig) (query model : Text)
    (queryVector : Option (List F32)) (now : ℤ) (a : Text × CacheRow) : Prop :=
  a ∈ t.rows ∧ (a.1 = makeKey x query model ∧ a.2.isLive now = true ∨
    (∀ r, (makeKey x query model, r) ∈ t.rows → r.isLive now = false) ∧
      cfg.semanticEnabled = true ∧ ∃ v, queryVector = some v ∧ Closest e t cfg v now a)

theorem mem_of_closest (hscan : ∀ l, (e.scan l).Perm l) {a : Text × CacheRow}
    (h : Closest e t cfg qv now a) : a ∈ t.rows := by
  obtain ⟨s, pre, post, hl, -⟩ := h
  have ha : a ∈ candidates e t now := by simp [hl]
  exact (List.mem_filter.mp ((hscan _).mem_iff.mp ha)).1

theorem exactLookup_eq_none {query model : Text} : exactLookup x t query model now = none ↔
    ∀ r, (makeKey x query model, r) ∈ t.rows → r.isLive now = false := by
  rw [Option.eq_none_iff_forall_ne_some]
  simp only [ne_eq, exactLookup_eq_some, not_exists, not_and]
  constructor
  · intro h r hr
    exact Bool.eq_false_iff.mpr (h _ _ r hr rfl)
  · intro h _ _ r hr hv
    cases hv
    exact Bool.eq_false_iff.mp (h r hr)

/-- **Every hit** has its entry. -/
theorem found_of_hit (hscan : ∀ l, (e.scan l).Perm l) {query model r : Text} {kind : HitKind}
    {queryVector : Option (List F32)}
    (h : lookup x e t cfg query model queryVector now = .hit r kind) :
    ∃ a, Found x e t cfg query model queryVector now a ∧ a.2.response = r := by
  unfold lookup at h
  cases hx : exactLookup x t query model now with
  | some r' =>
    rw [hx] at h
    cases h
    obtain ⟨d, row, hmem, hv, hlive⟩ := exactLookup_eq_some.mp hx
    cases hv
    exact ⟨_, ⟨hmem, Or.inl ⟨rfl, hlive⟩⟩, rfl⟩
  | none =>
    rw [hx] at h
    dsimp only at h
    split_ifs at h with hsem
    split at h
    · next r' hb =>
      cases h
      obtain ⟨v, hv, hs⟩ := Option.bind_eq_some_iff.mp hb
      obtain ⟨a, hc, rfl⟩ := semanticLookup_eq_some.mp hs
      exact ⟨a, ⟨mem_of_closest hscan hc, Or.inr ⟨exactLookup_eq_none.mp hx, hsem, v, hv, hc⟩⟩, rfl⟩
    · cases h

/-! ### Every run -/

/-- A row holds what a call stored. -/
def Stored (x : Extern) (P : Set (Text × Text)) (past : List Op) (a : Text × CacheRow) : Prop :=
  ∃ query model, (query, model) ∈ P ∧ a.1 = makeKey x query model ∧
    StoredUnder past model a.2.response

theorem Stored.append {a : Text × CacheRow} (h : Stored x P past a) (op : Op) :
    Stored x P (past ++ [op]) a := by
  obtain ⟨q, m, hp, hk, cfg, q', qv, ttl, now, hmem⟩ := h
  exact ⟨q, m, hp, hk, cfg, q', qv, ttl, now, List.mem_append_left _ hmem⟩

/-- **Every row was stored.** -/
theorem stored_of_mem (h : ∀ op ∈ past, op.Within P) :
    ∀ a ∈ (tableAfter x e past).rows, Stored x P past a := by
  induction past using List.reverseRecOn with
  | nil => simp [tableAfter]
  | append_singleton past op ih =>
    have hop := h op (List.mem_append_right _ (List.mem_singleton_self _))
    have ih := ih fun op hop => h op (List.mem_append_left _ hop)
    unfold tableAfter
    rw [List.foldl_append, List.foldl_cons, List.foldl_nil]
    intro a ha
    cases op with
    | store cfg query model response qv ttl now =>
      rcases KeyTable.mem_replace.mp ha with ⟨ha, -⟩ | rfl
      · exact (ih a ha).append _
      · exact ⟨query, model, hop, rfl, cfg, query, qv, ttl, now,
          List.mem_append_right _ (List.mem_singleton_self _)⟩
    | purgeExpired now => exact (ih a (KeyTable.mem_deleteWhere.mp ha).1).append _
    | clear => exact (ih a (KeyTable.mem_deleteWhere.mp ha).1).append _
    | lookup cfg query model qv now => exact (ih a ha).append _
    | countLive now => exact (ih a ha).append _

/-- A row under the key of a pair holds a response of its model. -/
theorem storedUnder_of_key (hP : Separates x P) (h : ∀ op ∈ past, op.Within P) {query model : Text}
    (hp : (query, model) ∈ P) {r : CacheRow}
    (ha : (makeKey x query model, r) ∈ (tableAfter x e past).rows) :
    StoredUnder past model r.response := by
  obtain ⟨q, m, hp', hk, hs⟩ := stored_of_mem h _ ha
  obtain ⟨-, rfl⟩ := Prod.mk.inj (makeKey_inj hP hp hp' hk)
  exact hs

/-- **When hits keep to the model.** After any calls, a hit returns a response that was stored under the
model of the lookup, if no other model's row is the closest one when the semantic path is taken; where
one is, the lookup returns its response. -/
theorem stored_of_hit (hP : Separates x P) (hscan : ∀ l, (e.scan l).Perm l)
    (h : ∀ op ∈ past, op.Within P) {query model : Text} (hp : (query, model) ∈ P)
    (cfg : CacheConfig) (queryVector : Option (List F32)) (now : ℤ) :
    (OwnModel x e P (tableAfter x e past) cfg query model queryVector now → ∀ r kind,
      lookup x e (tableAfter x e past) cfg query model queryVector now = .hit r kind →
        StoredUnder past model r) ∧
    (¬OwnModel x e P (tableAfter x e past) cfg query model queryVector now →
      ∃ a ∈ (tableAfter x e past).rows, (∀ q, (q, model) ∈ P → a.1 ≠ makeKey x q model) ∧
        lookup x e (tableAfter x e past) cfg query model queryVector now =
          .hit a.2.response .semantic) := by
  constructor
  · intro hown r kind hl
    obtain ⟨⟨k, row⟩, ⟨hmem, hf⟩, rfl⟩ := found_of_hit hscan hl
    rcases hf with ⟨rfl, -⟩ | ⟨hdead, hsem, v, hv, hc⟩
    · exact storedUnder_of_key hP h hp hmem
    · rcases hown with hoff | hnone | ⟨r, hr, hlive⟩ | hown
      · rw [hsem] at hoff
        cases hoff
      · rw [hv] at hnone
        cases hnone
      · rw [hdead r hr] at hlive
        cases hlive
      · obtain ⟨q, hq, rfl⟩ := hown v _ hv hc
        exact storedUnder_of_key hP h hq hmem
  · intro hown
    simp only [OwnModel, not_or, not_forall, not_exists, not_and] at hown
    obtain ⟨hsem, -, hlive, v, a, hv, hc, hk⟩ := hown
    refine ⟨a, mem_of_closest hscan hc, fun q hq => hk q hq, ?_⟩
    have hx : exactLookup x (tableAfter x e past) query model now = none :=
      exactLookup_eq_none.mpr fun r hr => Bool.eq_false_iff.mpr (hlive r hr)
    have hs : semanticLookup e (tableAfter x e past) cfg v now = some a.2.response :=
      semanticLookup_eq_some.mpr ⟨a, hc, rfl⟩
    unfold lookup
    rw [hx]
    simp only [Bool.not_eq_false] at hsem
    simp only [hsem, if_true, hv, Option.bind_some, hs]

/-! ### An answer with a vector -/

def fuzzy : CacheConfig := { semanticEnabled := true }

/-- An answer of the first model, stored with its vector. -/
def withVector : List Op := [
  .store fuzzy "what is foo?".toList "bge-small".toList "foo is bar".toList (some [0x3F800000]) none
    100]

theorem stored_withVector : ∃ r, lookup hashing unit (tableAfter hashing unit withVector) fuzzy
      "what is\x00foo?".toList "bge-small".toList (some [0x3F800000]) 200 = .hit r .semantic ∧
    StoredUnder withVector "bge-small".toList r := by
  have h : ∀ op ∈ withVector, op.Within questions := by simp [withVector, Op.Within, questions]
  have hscan : ∀ l, (unit.scan l).Perm l := fun l => List.Perm.refl l
  have hl : lookup hashing unit (tableAfter hashing unit withVector) fuzzy
      "what is\x00foo?".toList "bge-small".toList (some [0x3F800000]) 200 =
        .hit "foo is bar".toList .semantic := by decide
  refine ⟨_, hl, (stored_of_hit separates_questions hscan h (Or.inr rfl) fuzzy (some [0x3F800000])
    200).1 ?_ _ _ hl⟩
  refine Or.inr (Or.inr (Or.inr fun v a _ hc => ?_))
  -- the table has one row
  obtain ⟨q, m, hp, hk, -⟩ := stored_of_mem h a (mem_of_closest hscan hc)
  have hm : m = "bge-small".toList := by
    rcases hp with hp | hp <;> exact (Prod.mk.inj hp).2
  exact ⟨q, hm ▸ hp, hm ▸ hk⟩

/-- The same question to the first model, another one to the second. -/
def acrossModels : Set (Text × Text) :=
  {("what is foo?".toList, "bge-small".toList), ("what is bar?".toList, "openai-3-small".toList)}

theorem separates_acrossModels : Separates hashing acrossModels := by
  refine ⟨?_, ?_⟩
  · rintro p (rfl | rfl) <;> decide
  · rintro - ⟨p, rfl | rfl, rfl⟩ - ⟨q, rfl | rfl, rfl⟩ h
    · rfl
    · exact absurd h (by decide)
    · exact absurd h (by decide)
    · rfl

/-- **A hit crosses models**: the second model gets the first one's answer. -/
theorem not_storedUnder : Separates hashing acrossModels ∧
    ¬∀ past query model cfg qv now r kind, (∀ op ∈ past, op.Within acrossModels) →
      (query, model) ∈ acrossModels →
        lookup hashing unit (tableAfter hashing unit past) cfg query model qv now = .hit r kind →
          StoredUnder past model r := by
  refine ⟨separates_acrossModels, fun h => ?_⟩
  have hw : ∀ op ∈ withVector, op.Within acrossModels := by
    simp [withVector, Op.Within, acrossModels]
  have hl : lookup hashing unit (tableAfter hashing unit withVector) fuzzy "what is bar?".toList
      "openai-3-small".toList (some [0x3F800000]) 200 = .hit "foo is bar".toList .semantic := by
    decide
  obtain ⟨cfg, q, qv, ttl, now, hmem⟩ := h _ _ _ _ _ _ _ _ hw (Or.inr rfl) hl
  simp [withVector] at hmem

end BrainEngine.Cache.Models
