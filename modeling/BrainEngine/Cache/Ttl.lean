import BrainEngine.Cache.Best

/-! # Times to live

`store` casts the time to live to `i64` and adds it to the clock, and both may wrap. An entry lives as
long as it was meant to exactly if its deadline is a number that `i64` has: `respected_iff`. -/

namespace BrainEngine.Cache.Ttl

open BrainEngine.Rust.Str BrainEngine.Lib.Keyed BrainEngine.Lib.Expiry BrainEngine.Core.External
open BrainEngine.Core.Vectors BrainEngine.Core.Cache BrainEngine.Cache.Timed BrainEngine.Cache.Best

/-- What a table says about an entry for a query and a model: it is there until the deadline, whatever
the lookups' configuration, and then neither path finds it. -/
structure Respected (x : Extern) (e : Engine) (t : CacheTable) (query model response : Text)
    (deadline : Option ℤ) (now : ℤ) : Prop where
  hit : ∀ time, now ≤ time → time < 2 ^ 63 → (∀ d, deadline = some d → time < d) → ∀ cfg queryVector,
    lookup x e t cfg query model queryVector time = .hit response .exact
  miss : ∀ time, time < 2 ^ 63 → ∀ d, deadline = some d → d ≤ time →
    (∀ cfg queryVector, cfg.semanticEnabled = false →
      lookup x e t cfg query model queryVector time = .miss) ∧
    ∀ a ∈ candidates e t time, a.1 ≠ makeKey x query model

variable {x : Extern} {e : Engine} {t : CacheTable} {cfg : CacheConfig} {query model response : Text}
variable {qv : Option (List F32)} {ttlOverride : Option ℕ} {now time : ℤ}

theorem wrapI64_lt (z : ℤ) : wrapI64 z < 2 ^ 63 :=
  calc wrapI64 z < (2 ^ 64 + 1) / 2 := Int.bmod_lt (by decide)
    _ = 2 ^ 63 := by decide

/-! ### The entry -/

/-- The row that a store leaves. -/
def storedRow (e : Engine) (cfg : CacheConfig) (response : Text) (qv : Option (List F32))
    (ttlOverride : Option ℕ) (now : ℤ) : CacheRow :=
  ⟨response, now, expiresAt cfg ttlOverride now, qv.map e.toJson⟩

theorem get?_store :
    (store x e t cfg query model response qv ttlOverride now).get? (makeKey x query model) =
      some (storedRow e cfg response qv ttlOverride now) := by
  unfold store
  rw [KeyTable.get?_replace, if_pos rfl]
  rfl

theorem exactLookup_store :
    exactLookup x (store x e t cfg query model response qv ttlOverride now) query model time =
      if live (expiresAt cfg ttlOverride now) time = true then some response else none := by
  have hlive : (storedRow e cfg response qv ttlOverride now).isLive time =
      live (expiresAt cfg ttlOverride now) time := rfl
  unfold exactLookup
  rw [get?_store, Option.filter_some, hlive]
  split_ifs
  · rfl
  · rfl

/-- **A live entry** is a hit. -/
theorem lookup_store_of_live (h : live (expiresAt cfg ttlOverride now) time = true)
    (cfg' : CacheConfig) (qv' : Option (List F32)) :
    lookup x e (store x e t cfg query model response qv ttlOverride now) cfg' query model qv' time =
      .hit response .exact := by
  unfold lookup
  rw [exactLookup_store, if_pos h]

/-- **An entry that is not live** is none. -/
theorem lookup_store_of_not_live (h : live (expiresAt cfg ttlOverride now) time = false)
    {cfg' : CacheConfig} (hoff : cfg'.semanticEnabled = false) (qv' : Option (List F32)) :
    lookup x e (store x e t cfg query model response qv ttlOverride now) cfg' query model qv' time =
      .miss := by
  unfold lookup
  rw [exactLookup_store, if_neg (by simp [h]), hoff]
  rfl

theorem not_candidate_of_not_live (hscan : ∀ l, (e.scan l).Perm l)
    (h : live (expiresAt cfg ttlOverride now) time = false) :
    ∀ a ∈ candidates e (store x e t cfg query model response qv ttlOverride now) time,
      a.1 ≠ makeKey x query model := by
  rintro ⟨k, r⟩ ha rfl
  obtain ⟨hrow, -, hlive⟩ := (mem_candidates hscan).mp ha
  have hr := (KeyTable.get?_eq_some.mpr hrow).symm.trans get?_store
  obtain rfl := Option.some.inj hr
  exact absurd hlive (by rw [isLive_eq]; simp [alive, view, storedRow, h])

/-! ### Deadlines -/

theorem live_eq_true {d : Option ℤ} : live d time = true ↔ ∀ z, d = some z → time < z := by
  cases d <;> simp [live]

theorem deadline_eq_some {d : ℤ} (h : deadline cfg ttlOverride now = some d) :
    d = now + ttl cfg ttlOverride := by
  unfold deadline at h
  split_ifs at h
  exact (Option.some.inj h).symm

/-- **Where the sum fits**, the entry lives as it was meant to. -/
theorem respected_of_lt (hscan : ∀ l, (e.scan l).Perm l) (h0 : 0 ≤ now)
    (h : now + ttl cfg ttlOverride < 2 ^ 63) :
    Respected x e (store x e t cfg query model response qv ttlOverride now) query model response
      (deadline cfg ttlOverride now) now := by
  have hd : expiresAt cfg ttlOverride now = deadline cfg ttlOverride now :=
    expiresAt_eq (by omega) (by omega) h
  refine ⟨fun time _ _ hlive cfg' qv' => ?_, fun time _ d hdl hle => ?_⟩
  · refine lookup_store_of_live ?_ cfg' qv'
    rw [hd]
    exact live_eq_true.mpr hlive
  · have hdead : live (expiresAt cfg ttlOverride now) time = false := by
      rw [hd, hdl]
      simpa [live] using hle
    exact ⟨fun cfg' qv' hoff => lookup_store_of_not_live hdead hoff qv',
      not_candidate_of_not_live hscan hdead⟩

/-- Where it does not fit, the entry is gone at the last moment that `i64` has, if not before. -/
theorem not_live_of_le (hnow : now < 2 ^ 63) (h : 2 ^ 63 ≤ now + ttl cfg ttlOverride) :
    live (expiresAt cfg ttlOverride now) (2 ^ 63 - 1) = false := by
  have hwrap : ∀ z, live (some (wrapI64 z)) (2 ^ 63 - 1) = false := by
    intro z
    have hz := wrapI64_lt z
    simp only [live, Option.all_some, decide_eq_false_iff_not]
    omega
  unfold expiresAt
  split
  · simp only [ttl, Option.getD_some] at h
    omega
  · exact hwrap _
  · simp only [ttl, Option.getD_none] at h
    rw [if_neg (by omega)]
    exact hwrap _

theorem lt_of_respected (h0 : 0 ≤ now) (hnow : now < 2 ^ 63)
    (h : Respected x e (store x e t cfg query model response qv ttlOverride now) query model response
      (deadline cfg ttlOverride now) now) : now + ttl cfg ttlOverride < 2 ^ 63 := by
  by_contra hle
  rw [not_lt] at hle
  have hdead := not_live_of_le hnow hle
  have hhit := h.hit (2 ^ 63 - 1) (by omega) (by omega) (fun d hd => by
    rw [deadline_eq_some hd]
    omega) {} none
  rw [lookup_store_of_not_live hdead rfl] at hhit
  cases hhit

/-- **Times to live are respected** exactly where clock and time to live add up to less than `2 ^ 63`:
every entry is a hit until its deadline, and from then on it is not found. -/
theorem respected_iff (hscan : ∀ l, (e.scan l).Perm l) (x : Extern) (t : CacheTable)
    (query model response : Text) (qv : Option (List F32)) {cfg : CacheConfig}
    {ttlOverride : Option ℕ} {now : ℤ} (h0 : 0 ≤ now) (hnow : now < 2 ^ 63) :
    Respected x e (store x e t cfg query model response qv ttlOverride now) query model response
        (deadline cfg ttlOverride now) now ↔ now + ttl cfg ttlOverride < 2 ^ 63 :=
  ⟨lt_of_respected h0 hnow, respected_of_lt hscan h0⟩

/-- A week. -/
theorem respected_week : Respected hashing unit
      (store hashing unit .empty {} "what is foo?".toList "bge-small".toList "foo is bar".toList none
        none 1700000000) "what is foo?".toList "bge-small".toList "foo is bar".toList
      (deadline {} none 1700000000) 1700000000 :=
  (respected_iff (fun l => List.Perm.refl l) hashing .empty _ _ _ none (by decide)
    (by decide)).mpr (by decide)

/-- **The largest time to live** wraps around, and its entry does not last. -/
theorem not_respected : ¬∀ (x : Extern) (e : Engine) (t : CacheTable) (query model response : Text)
    (qv : Option (List F32)) (cfg : CacheConfig) (ttlOverride : Option ℕ) (now : ℤ),
    (∀ l, (e.scan l).Perm l) → cfg.ttlSeconds < 2 ^ 64 → (∀ n, ttlOverride = some n → n < 2 ^ 64) →
      0 ≤ now → now < 2 ^ 63 →
        Respected x e (store x e t cfg query model response qv ttlOverride now) query model response
          (deadline cfg ttlOverride now) now := by
  intro h
  have hmax := h hashing unit .empty "what is foo?".toList "bge-small".toList "foo is bar".toList none
    { ttlSeconds := 2 ^ 64 - 1 } none 1700000000 (fun l => List.Perm.refl l) (by decide) (by simp)
    (by decide) (by decide)
  exact absurd (lt_of_respected (by decide) (by decide) hmax) (by decide)

end BrainEngine.Cache.Ttl
