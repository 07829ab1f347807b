import BrainEngine.Core.Cache
import BrainEngine.Lib.Expiry
import Mathlib.Data.Set.Card

/-! # The exact cache as a timed map

With the semantic cache off, the table behaves as a map from pairs of a query and a model to responses
that expire: `timed_of_run` reads off the calls so far what a lookup returns. Purges drop only what no
later reading of the clock can see. -/

namespace BrainEngine.Cache.Timed

open BrainEngine.Rust.Str BrainEngine.Lib.Keyed BrainEngine.Lib.Expiry BrainEngine.Core.External
open BrainEngine.Core.Vectors BrainEngine.Core.Cache

/-- A call, with its reading of the clock. -/
inductive Op
  | store (cfg : CacheConfig) (query model response : Text) (queryVector : Option (List F32))
    (ttlOverride : Option ℕ) (now : ℤ)
  | lookup (cfg : CacheConfig) (query model : Text) (queryVector : Option (List F32)) (now : ℤ)
  | purgeExpired (now : ℤ)
  | clear
  | countLive (now : ℤ)

/-- What a call makes of the table. -/
def Op.apply (x : Extern) (e : Engine) (t : CacheTable) : Op → CacheTable
  | .store cfg query model response qv ttl now => Core.Cache.store x e t cfg query model response qv ttl now
  | .lookup _ _ _ _ _ => t
  | .purgeExpired now => (Core.Cache.purgeExpired t now).1
  | .clear => (Core.Cache.clear t).1
  | .countLive _ => t

/-- The table after some calls. -/
def tableAfter (x : Extern) (e : Engine) (past : List Op) : CacheTable :=
  past.foldl (Op.apply x e) KeyTable.empty

def Op.reading : Op → Option ℤ
  | .store _ _ _ _ _ _ now => some now
  | .lookup _ _ _ _ now => some now
  | .purgeExpired now => some now
  | .clear => none
  | .countLive now => some now

/-- No call read a later clock. -/
def Since (past : List Op) (t : ℤ) : Prop := ∀ op ∈ past, ∀ now, op.reading = some now → now ≤ t

/-- A call's pair of a query and a model is in `P`. -/
def Op.Within (P : Set (Text × Text)) : Op → Prop
  | .store _ query model _ _ _ _ => (query, model) ∈ P
  | .lookup _ query model _ _ => (query, model) ∈ P
  | _ => True

/-- Seconds until a new entry expires. -/
def ttl (cfg : CacheConfig) (ttlOverride : Option ℕ) : ℕ := ttlOverride.getD cfg.ttlSeconds

/-- The time to live and the deadline are numbers that `i64` has. -/
def Op.Fits : Op → Prop
  | .store cfg _ _ _ _ ttlOverride now =>
    (ttl cfg ttlOverride : ℤ) < 2 ^ 63 ∧ -2 ^ 63 ≤ now + ttl cfg ttlOverride ∧
      now + ttl cfg ttlOverride < 2 ^ 63
  | _ => True

/-- The pairs have keys of their own. -/
structure Separates (x : Extern) (P : Set (Text × Text)) : Prop where
  models : ∀ p ∈ P, '\x00' ∉ p.2
  sha : Set.InjOn x.sha256Hex ((fun p => keyText p.1 p.2) '' P)

/-! ### The timed map -/

/-- `0` seconds mean no expiry in the configuration, but not in a call. -/
def deadline (cfg : CacheConfig) (ttlOverride : Option ℕ) (now : ℤ) : Option ℤ :=
  if ttlOverride = none ∧ cfg.ttlSeconds = 0 then none else some (now + ttl cfg ttlOverride)

/-- What a call means for the timed map. -/
def Op.event : Op → Option (Event (Text × Text) Text ℤ)
  | .store cfg query model response _ ttlOverride now =>
    some (.put (query, model) response (deadline cfg ttlOverride now))
  | .clear => some .clear
  | _ => none

def events (past : List Op) : List (Event (Text × Text) Text ℤ) := past.filterMap Op.event

def Op.isPurge : Op → Bool
  | .purgeExpired _ => true
  | _ => false

/-! ### Keys and deadlines -/

variable {x : Extern} {e : Engine} {P : Set (Text × Text)} {past : List Op} {t : ℤ}

/-- The last zero byte ends the query. -/
theorem keyText_inj {q q' m m' : Text} (hm : '\x00' ∉ m) (hm' : '\x00' ∉ m')
    (h : keyText q m = keyText q' m') : q = q' ∧ m = m' := by
  simp only [keyText, List.append_eq_append_iff, List.cons_eq_append_iff, List.cons_eq_cons] at h
  rcases h with ⟨c, rfl, ⟨rfl, -, rfl⟩ | ⟨d, rfl, rfl⟩⟩ | ⟨c, rfl, ⟨rfl, -, rfl⟩ | ⟨d, rfl, rfl⟩⟩
  · simp
  · simp at hm
  · simp
  · simp at hm'

theorem makeKey_inj (hP : Separates x P) {p p' : Text × Text} (hp : p ∈ P) (hp' : p' ∈ P)
    (h : makeKey x p.1 p.2 = makeKey x p'.1 p'.2) : p = p' := by
  have ht := hP.sha (Set.mem_image_of_mem _ hp) (Set.mem_image_of_mem _ hp') h
  obtain ⟨h1, h2⟩ := keyText_inj (hP.models p hp) (hP.models p' hp') ht
  exact Prod.ext h1 h2

theorem wrapI64_eq {z : ℤ} (h : -2 ^ 63 ≤ z) (h' : z < 2 ^ 63) : wrapI64 z = z :=
  Int.bmod_eq_of_le (by omega) (by omega)

/-- **The deadline that is stored** is the one that is meant. -/
theorem expiresAt_eq {cfg : CacheConfig} {ttlOverride : Option ℕ} {now : ℤ}
    (h : (ttl cfg ttlOverride : ℤ) < 2 ^ 63) (h' : -2 ^ 63 ≤ now + ttl cfg ttlOverride)
    (h'' : now + ttl cfg ttlOverride < 2 ^ 63) :
    expiresAt cfg ttlOverride now = deadline cfg ttlOverride now := by
  have hn : ∀ n : ℕ, (n : ℤ) < 2 ^ 63 → wrapI64 n = n := fun n hn => wrapI64_eq (by omega) hn
  unfold expiresAt deadline
  split
  · simp [ttl]
  · next n hne =>
    simp only [ttl, Option.getD_some] at h h' h''
    simp only [reduceCtorEq, false_and, if_false, ttl, Option.getD_some, hn n h,
      wrapI64_eq h' h'']
  · simp only [ttl, Option.getD_none] at h h' h''
    simp only [true_and, ttl, Option.getD_none, hn _ h, wrapI64_eq h' h'']

/-! ### The refinement -/

/-- What the timed map has of a row. -/
def view (r : CacheRow) : Text × Option ℤ := (r.response, r.expiresAt)

/-- What is there at `t`. -/
def alive (t : ℤ) (v : Text × Option ℤ) : Bool := live v.2 t

theorem isLive_eq (r : CacheRow) (t : ℤ) : r.isLive t = alive t (view r) := rfl

/-- The table holds pairs of `P`, and from now on shows of each what the timed map does. -/
structure Refines (x : Extern) (P : Set (Text × Text)) (past : List Op) (tbl : CacheTable) :
    Prop where
  keys : ∀ a ∈ tbl.rows, ∃ p ∈ P, a.1 = makeKey x p.1 p.2
  views : ∀ p ∈ P, ∀ t, Since past t →
    ((tbl.get? (makeKey x p.1 p.2)).map view).filter (alive t) =
      (last (events past) p).filter (alive t)

theorem since_append {op : Op} : Since (past ++ [op]) t ↔
    Since past t ∧ ∀ now, op.reading = some now → now ≤ t := by
  simp [Since, or_imp, forall_and]

theorem events_append {op : Op} : events (past ++ [op]) = events past ++ op.event.toList := by
  unfold events
  rw [List.filterMap_append]
  cases h : op.event <;> simp [h]

/-- A call that is no event for the timed map, and changes nothing. -/
theorem Refines.skip {tbl : CacheTable} {op : Op} (h : Refines x P past tbl) (he : op.event = none) :
    Refines x P (past ++ [op]) tbl := by
  refine ⟨h.keys, fun p hp t ht => ?_⟩
  rw [events_append, he, Option.toList_none, List.append_nil]
  exact h.views p hp t (since_append.mp ht).1

theorem Refines.store {tbl : CacheTable} (hP : Separates x P) (h : Refines x P past tbl)
    {cfg : CacheConfig} {query model response : Text} {qv : Option (List F32)}
    {ttlOverride : Option ℕ} {now : ℤ} (hp : (query, model) ∈ P)
    (hf : (Op.store cfg query model response qv ttlOverride now).Fits) :
    Refines x P (past ++ [.store cfg query model response qv ttlOverride now])
      (Core.Cache.store x e tbl cfg query model response qv ttlOverride now) := by
  refine ⟨fun a ha => ?_, fun p hp' t ht => ?_⟩
  · rcases KeyTable.mem_replace.mp ha with ⟨ha, -⟩ | rfl
    · exact h.keys a ha
    · exact ⟨(query, model), hp, rfl⟩
  · rw [events_append, Op.event, Option.toList_some, last_append]
    unfold Core.Cache.store
    rw [KeyTable.get?_replace]
    by_cases he : (query, model) = p
    · subst he
      rw [if_pos rfl, Lib.Expiry.apply, if_pos rfl, Option.map_some, view,
        expiresAt_eq hf.1 hf.2.1 hf.2.2]
    · rw [if_neg fun hk => he (makeKey_inj hP hp hp' hk.symm), Lib.Expiry.apply, if_neg he]
      exact h.views p hp' t (since_append.mp ht).1

/-- **A purge** drops what has expired, now and for good. -/
theorem Refines.purge {tbl : CacheTable} {now : ℤ} (h : Refines x P past tbl) :
    Refines x P (past ++ [.purgeExpired now]) (Core.Cache.purgeExpired tbl now).1 := by
  refine ⟨fun a ha => h.keys a (KeyTable.mem_deleteWhere.mp ha).1, fun p hp t ht => ?_⟩
  have he : (Op.purgeExpired now).event = none := rfl
  rw [events_append, he, Option.toList_none, List.append_nil,
    ← h.views p hp t (since_append.mp ht).1]
  have hle : now ≤ t := (since_append.mp ht).2 now rfl
  unfold Core.Cache.purgeExpired
  rw [KeyTable.get?_deleteWhere]
  cases tbl.get? (makeKey x p.1 p.2) with
  | none => rfl
  | some r =>
    by_cases hd : (r.expiresAt.any fun d => d ≤ now) = true
    · -- what is dropped is past its deadline at `t`
      have hdead : alive t (view r) = false := by
        obtain ⟨d, hd1, hd2⟩ := (Option.any_eq_true _ _).mp hd
        simp only [decide_eq_true_eq] at hd2
        simp only [alive, view, live, hd1, Option.all_some, decide_eq_false_iff_not, not_lt]
        exact hd2.trans hle
      simp [Option.filter, hd, hdead]
    · rw [Bool.not_eq_true] at hd
      simp [Option.filter, hd]

theorem Refines.clear {tbl : CacheTable} : Refines x P (past ++ [.clear]) (Core.Cache.clear tbl).1 := by
  refine ⟨fun a ha => by simpa using (KeyTable.mem_deleteWhere.mp ha).2, fun p hp t _ => ?_⟩
  rw [events_append, Op.event, Option.toList_some, last_append]
  unfold Core.Cache.clear
  rw [KeyTable.get?_deleteWhere]
  cases tbl.get? (makeKey x p.1 p.2) <;> rfl

/-- **One call.** -/
theorem Refines.step {tbl : CacheTable} {op : Op} (hP : Separates x P) (h : Refines x P past tbl)
    (hw : op.Within P) (hf : op.Fits) : Refines x P (past ++ [op]) (op.apply x e tbl) := by
  cases op with
  | store cfg query model response qv ttl now => exact h.store hP hw hf
  | lookup cfg query model qv now => exact h.skip rfl
  | purgeExpired now => exact h.purge
  | clear => exact Refines.clear
  | countLive now => exact h.skip rfl

/-- **Every run.** -/
theorem refines_tableAfter (hP : Separates x P) (h : ∀ op ∈ past, op.Within P ∧ op.Fits) :
    Refines x P past (tableAfter x e past) := by
  induction past using List.reverseRecOn with
  | nil => exact ⟨fun a ha => by simp [tableAfter] at ha, fun p hp t _ => rfl⟩
  | append_singleton past op ih =>
    obtain ⟨hw, hf⟩ := h op (List.mem_append_right _ (List.mem_singleton_self _))
    unfold tableAfter
    rw [List.foldl_append]
    exact (ih fun op hop => h op (List.mem_append_left _ hop)).step hP hw hf

/-! ### What is seen -/

variable {tbl : CacheTable}

/-- What the timed map shows at `t` is what the table does. -/
theorem Refines.view_iff (h : Refines x P past tbl) (ht : Since past t) {p : Text × Text}
    (hp : p ∈ P) {v : Text × Option ℤ} :
    (∃ row, (makeKey x p.1 p.2, row) ∈ tbl.rows ∧ view row = v ∧ alive t v = true) ↔
      last (events past) p = some v ∧ alive t v = true := by
  have hv : ((tbl.get? (makeKey x p.1 p.2)).map view).filter (alive t) = some v ↔
      last (events past) p = some v ∧ alive t v = true := by
    rw [h.views p hp t ht, Option.filter_eq_some_iff]
  rw [← hv, Option.filter_eq_some_iff, Option.map_eq_some_iff]
  simp only [KeyTable.get?_eq_some, ← exists_and_right, and_assoc]

theorem exactLookup_eq_some {query model r : Text} :
    exactLookup x tbl query model t = some r ↔
      ∃ d row, (makeKey x query model, row) ∈ tbl.rows ∧ view row = (r, d) ∧
        alive t (r, d) = true := by
  simp only [exactLookup, Option.map_eq_some_iff, Option.filter_eq_some_iff, KeyTable.get?_eq_some,
    isLive_eq, view, Prod.mk.injEq]
  constructor
  · rintro ⟨row, ⟨h1, h2⟩, rfl⟩
    exact ⟨row.expiresAt, row, h1, ⟨rfl, rfl⟩, h2⟩
  · rintro ⟨d, row, h1, ⟨rfl, rfl⟩, h2⟩
    exact ⟨row, ⟨h1, h2⟩, rfl⟩

/-- **A lookup** with the semantic cache off. -/
theorem Refines.lookup_iff (h : Refines x P past tbl) (ht : Since past t) {cfg : CacheConfig}
    (hoff : cfg.semanticEnabled = false) {query model : Text} (hp : (query, model) ∈ P)
    (qv : Option (List F32)) (r : Text) (kind : HitKind) :
    lookup x e tbl cfg query model qv t = .hit r kind ↔
      kind = .exact ∧ ∃ d, last (events past) (query, model) = some (r, d) ∧ live d t = true := by
  have hx : exactLookup x tbl query model t = some r ↔
      ∃ d, last (events past) (query, model) = some (r, d) ∧ live d t = true := by
    rw [exactLookup_eq_some]
    exact exists_congr fun d => h.view_iff ht hp (v := (r, d))
  rw [← hx]
  unfold lookup
  rw [hoff]
  cases exactLookup x tbl query model t with
  | none => simp
  | some r' =>
    simp only [CacheLookup.hit.injEq, Option.some.injEq]
    rw [and_comm, eq_comm (a := HitKind.exact)]

/-- Only pairs that were stored are held. -/
theorem held_subset (h : ∀ op ∈ past, op.Within P ∧ op.Fits) : held (events past) t ⊆ P := by
  rintro p ⟨r, d, hl, -⟩
  obtain ⟨op, hop, he⟩ := List.mem_filterMap.mp (put_of_last hl)
  have hw := (h op hop).1
  cases op with
  | store cfg query model response qv ttl now =>
    cases he
    exact hw
  | _ => cases he

/-- **The count** of live entries is the number of pairs that hit. -/
theorem Refines.countLive_eq (hP : Separates x P) (h : Refines x P past tbl) (ht : Since past t)
    (hsub : held (events past) t ⊆ P) : countLive tbl t = (held (events past) t).ncard := by
  let ks := (tbl.rows.filter fun a => a.2.isLive t).map Prod.fst
  have hnd : ks.Nodup := (List.filter_sublist.map Prod.fst).nodup tbl.nodup
  have hmem : ∀ p ∈ P, makeKey x p.1 p.2 ∈ ks ↔ p ∈ held (events past) t := by
    intro p hp
    have hk : makeKey x p.1 p.2 ∈ ks ↔
        ∃ v row, (makeKey x p.1 p.2, row) ∈ tbl.rows ∧ view row = v ∧ alive t v = true := by
      simp only [ks, List.mem_map, List.mem_filter, isLive_eq]
      constructor
      · rintro ⟨⟨k, row⟩, ⟨h1, h2⟩, rfl⟩
        exact ⟨_, row, h1, rfl, h2⟩
      · rintro ⟨v, row, h1, rfl, h2⟩
        exact ⟨(_, row), ⟨h1, h2⟩, rfl⟩
    rw [hk, exists_congr fun v => h.view_iff ht hp (v := v)]
    simp only [Prod.exists]
    rfl
  have himage : (fun p : Text × Text => makeKey x p.1 p.2) '' held (events past) t =
      (ks.toFinset : Set Text) := by
    ext k
    simp only [Set.mem_image, List.coe_toFinset, Set.mem_ofPred_eq]
    constructor
    · rintro ⟨p, hp, rfl⟩
      exact (hmem p (hsub hp)).mpr hp
    · intro hk
      obtain ⟨a, ha, rfl⟩ := List.mem_map.mp hk
      obtain ⟨p, hp, he⟩ := h.keys a (List.mem_filter.mp ha).1
      exact ⟨p, (hmem p hp).mp (he ▸ hk), he.symm⟩
  have hinj : Set.InjOn (fun p : Text × Text => makeKey x p.1 p.2) (held (events past) t) :=
    fun p hp q hq he => makeKey_inj hP (hsub hp) (hsub hq) he
  rw [← hinj.ncard_image, himage, Set.ncard_coe_finset, List.toFinset_card_of_nodup hnd]
  simp only [countLive, ks, List.length_map, List.countP_eq_length_filter]

/-! ### Purges -/

theorem events_filter_purge (past : List Op) :
    events (past.filter fun op => !op.isPurge) = events past := by
  unfold events
  rw [List.filterMap_filter]
  refine List.filterMap_congr fun op _ => ?_
  cases op <;> rfl

/-- **The exact cache refines a timed map.** After any calls, at a time no earlier than their readings
of the clock: a lookup hits just if the last store for its pair since the last clear has not expired,
and returns what that store stored; the count of live entries is the number of pairs that hit; and
without the purges among the calls, lookups and counts would be the same. -/
theorem timed_of_run (hP : Separates x P) (h : ∀ op ∈ past, op.Within P ∧ op.Fits)
    (ht : Since past t) :
    (∀ cfg query model qv, cfg.semanticEnabled = false → (query, model) ∈ P →
      (∀ r kind, lookup x e (tableAfter x e past) cfg query model qv t = .hit r kind ↔
        kind = .exact ∧ ∃ d, last (events past) (query, model) = some (r, d) ∧ live d t = true) ∧
      lookup x e (tableAfter x e past) cfg query model qv t =
        lookup x e (tableAfter x e (past.filter fun op => !op.isPurge)) cfg query model qv t) ∧
    countLive (tableAfter x e past) t = (held (events past) t).ncard ∧
    countLive (tableAfter x e past) t =
      countLive (tableAfter x e (past.filter fun op => !op.isPurge)) t := by
  have h' : ∀ op ∈ past.filter fun op => !op.isPurge, op.Within P ∧ op.Fits :=
    fun op hop => h op (List.mem_of_mem_filter hop)
  have ht' : Since (past.filter fun op => !op.isPurge) t :=
    fun op hop => ht op (List.mem_of_mem_filter hop)
  have hr := refines_tableAfter (e := e) hP h
  have hr' := refines_tableAfter (e := e) hP h'
  have hc := hr.countLive_eq hP ht (held_subset h)
  refine ⟨fun cfg query model qv hoff hp => ⟨hr.lookup_iff ht hoff hp qv, ?_⟩, hc, ?_⟩
  · cases hl : lookup x e (tableAfter x e past) cfg query model qv t with
    | hit r kind =>
      have := (hr.lookup_iff ht hoff hp qv r kind).mp hl
      rw [← events_filter_purge] at this
      exact ((hr'.lookup_iff ht' hoff hp qv r kind).mpr this).symm
    | miss =>
      cases hl' : lookup x e (tableAfter x e (past.filter fun op => !op.isPurge)) cfg query model
          qv t with
      | hit r kind =>
        have := (hr'.lookup_iff ht' hoff hp qv r kind).mp hl'
        rw [events_filter_purge] at this
        rw [(hr.lookup_iff ht hoff hp qv r kind).mpr this] at hl
        cases hl
      | miss => rfl
  · rw [hc, hr'.countLive_eq hP ht' (held_subset h'), events_filter_purge]

/-! ### Two questions -/

/-- SHA-256 of the texts that occur. -/
def digests : List (String × String) := [
  ("what is foo?\x00bge-small", "ee48cbd592a3b63965874bb8d156fea1a9d5138f26963f147420229b669fb0a1"),
  ("what is\x00foo?\x00bge-small", "46930b705a4a084fa2f4083dc034bae6559432ff3e3c620df51a1fc2d2ddb62b"),
  ("what is bar?\x00openai-3-small", "7f33341f5c64a22849435043f9f955b5bcfbaa6f1d9cb4836419bee83f254af2")]

/-- The outside world of the cache, right on these texts. -/
def hashing : Extern where
  sha256Hex text := match digests.find? fun d => d.1.toList = text with
    | some d => d.2.toList
    | none => []
  globError _ := none
  globSetError _ := none
  globMatches _ _ := false
  unicodeAlphanumeric _ := false
  schemaError _ _ := []

/-- The semantic cache's surroundings, right on the vector of the number one. -/
def unit : Engine where
  add _ b := b
  mul _ b := b
  div a _ := a
  sqrt a := a
  fromStr t := if t = "[1.0]".toList then some [0x3F800000] else none
  toJson v := if v = [0x3F800000] then "[1.0]".toList else []
  scan rows := rows

/-- One question is the other up to a zero byte. -/
def questions : Set (Text × Text) :=
  {("what is foo?".toList, "bge-small".toList), ("what is\x00foo?".toList, "bge-small".toList)}

theorem separates_questions : Separates hashing questions := by
  refine ⟨?_, ?_⟩
  · rintro p (rfl | rfl) <;> decide
  · rintro - ⟨p, rfl | rfl, rfl⟩ - ⟨q, rfl | rfl, rfl⟩ h
    · rfl
    · exact absurd h (by decide)
    · exact absurd h (by decide)
    · rfl

/-- An answer for a week, one that expires at once, and a purge. -/
def answered : List Op := [
  .store {} "what is foo?".toList "bge-small".toList "foo is bar".toList none none 100,
  .store {} "what is\x00foo?".toList "bge-small".toList "stale".toList none (some 0) 100,
  .purgeExpired 200]

theorem timed_answered :
    (∀ r kind, lookup hashing unit (tableAfter hashing unit answered) {} "what is foo?".toList
        "bge-small".toList none 200 = .hit r kind ↔
      kind = .exact ∧ ∃ d, last (events answered) ("what is foo?".toList, "bge-small".toList) =
        some (r, d) ∧ live d 200 = true) ∧
    countLive (tableAfter hashing unit answered) 200 = (held (events answered) 200).ncard := by
  have h : ∀ op ∈ answered, op.Within questions ∧ op.Fits := by
    simp [answered, Op.Within, Op.Fits, questions, ttl]
  have ht : Since answered 200 := by simp [answered, Since, Op.reading]
  have ha := timed_of_run (e := unit) separates_questions h ht
  exact ⟨(ha.1 {} _ _ none rfl (Or.inl rfl)).1, ha.2.1⟩

end BrainEngine.Cache.Timed
