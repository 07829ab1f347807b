import BrainEngine.Core.Vectors
import BrainEngine.Lib.Keyed
import Mathlib.Algebra.Ring.Int.Defs

/-! # The response cache

The table `cache` and the functions of `cache.rs` on it. A clock reading is an argument wherever the
source calls `now_secs`. `Engine` is what the semantic cache takes from outside: the arithmetic of
`f32`, the JSON of a vector, and the order in which SQLite returns the rows that a scan selects. Sums
of `i64` wrap, as they do in a release build. -/

namespace BrainEngine.Core.Cache

open BrainEngine.Rust.Str BrainEngine.Lib.Keyed BrainEngine.Core.External BrainEngine.Core.Vectors

/-! ### `f32` -/

/-- The value of an `f32`, up to scale: the order of the floats is that of these numbers. There is
none for a NaN. -/
def f32Key (b : F32) : Option ℤ :=
  let mag : ℤ := b.toNat % 2 ^ 31
  if 0x7F800000 < mag then none else some (if b.toNat < 2 ^ 31 then mag else -mag)

/-- `a > b`. -/
def f32Gt (a b : F32) : Bool :=
  match f32Key a, f32Key b with
  | some x, some y => y < x
  | _, _ => false

/-- The arithmetic of `f32`. -/
structure Floats where
  add : F32 → F32 → F32
  mul : F32 → F32 → F32
  div : F32 → F32 → F32
  sqrt : F32 → F32

/-- `Iterator::sum`, which begins with negative zero. -/
def Floats.sum (f : Floats) (l : List F32) : F32 := l.foldl f.add 0x80000000

/-- `cosine_similarity`. -/
def cosineSimilarity (f : Floats) (a b : List F32) : F32 :=
  let dot := f.sum (List.zipWith f.mul a b)
  let magA := f.sqrt (f.sum (a.map fun x => f.mul x x))
  let magB := f.sqrt (f.sum (b.map fun x => f.mul x x))
  if f32Key magA = some 0 ∨ f32Key magB = some 0 then 0 else f.div dot (f.mul magA magB)

/-! ### The table -/

structure CacheConfig where
  ttlSeconds : ℕ := 7 * 24 * 60 * 60
  semanticEnabled : Bool := false
  /-- `0.95`. -/
  semanticThreshold : F32 := 0x3F733333

inductive HitKind
  /-- Matched by SHA-256 key equality. -/
  | exact
  /-- Matched by cosine similarity above the configured threshold. -/
  | semantic
  deriving DecidableEq

/-- The outcome of a cache lookup. -/
inductive CacheLookup
  | hit (response : Text) (kind : HitKind)
  | miss
  deriving DecidableEq

structure CacheRow where
  response : Text
  createdAt : ℤ
  /-- `NULL` means no expiry. -/
  expiresAt : Option ℤ
  /-- JSON. -/
  queryVector : Option Text

abbrev CacheTable := KeyTable Text CacheRow

/-- The semantic cache's surroundings. -/
structure Engine extends Floats where
  /-- `serde_json::from_str::<Vec<f32>>`. -/
  fromStr : Text → Option (List F32)
  /-- `serde_json::to_string` of a vector. -/
  toJson : List F32 → Text
  /-- The order in which SQLite returns the rows a scan selects. -/
  scan : List (Text × CacheRow) → List (Text × CacheRow)

/-- What is hashed: `query + "\0" + model_id`. -/
def keyText (query model : Text) : Text := query ++ '\x00' :: model

/-- `make_key`. -/
def makeKey (x : Extern) (query model : Text) : Text := x.sha256Hex (keyText query model)

/-- `expires_at IS NULL OR expires_at > now`. -/
def CacheRow.isLive (r : CacheRow) (now : ℤ) : Bool := r.expiresAt.all fun d => now < d

/-- A `u64` as `i64`, and the sum of two `i64`. -/
def wrapI64 (z : ℤ) : ℤ := z.bmod (2 ^ 64)

/-- The deadline of a new entry. -/
def expiresAt (cfg : CacheConfig) (ttlOverride : Option ℕ) (now : ℤ) : Option ℤ :=
  match ttlOverride with
  -- expire right now
  | some 0 => some now
  | some n => some (wrapI64 (now + wrapI64 n))
  | none => if cfg.ttlSeconds = 0 then none else some (wrapI64 (now + wrapI64 cfg.ttlSeconds))

/-- What the scan makes of one row. -/
def semanticStep (e : Engine) (queryVector : List F32) (best : F32 × Option Text) (r : CacheRow) :
    F32 × Option Text :=
  match r.queryVector.bind e.fromStr with
  | none => best
  | some stored =>
    if stored.length ≠ queryVector.length then best
    else
      let sim := cosineSimilarity e.toFloats queryVector stored
      if f32Gt sim best.1 then (sim, some r.response) else best

/-- The live rows with a vector, as the scan returns them. -/
def candidates (e : Engine) (t : CacheTable) (now : ℤ) : List (Text × CacheRow) :=
  e.scan (t.rows.filter fun a => a.2.queryVector.isSome && a.2.isLive now)

/-- `semantic_lookup`. -/
def semanticLookup (e : Engine) (t : CacheTable) (cfg : CacheConfig) (queryVector : List F32)
    (now : ℤ) : Option Text :=
  ((candidates e t now).foldl (fun best a => semanticStep e queryVector best a.2)
    (cfg.semanticThreshold, none)).2

/-- The response of a live entry under the key. -/
def exactLookup (x : Extern) (t : CacheTable) (query model : Text) (now : ℤ) : Option Text :=
  ((t.get? (makeKey x query model)).filter fun r => r.isLive now).map CacheRow.response

/-- `lookup`. -/
def lookup (x : Extern) (e : Engine) (t : CacheTable) (cfg : CacheConfig) (query model : Text)
    (queryVector : Option (List F32)) (now : ℤ) : CacheLookup :=
  match exactLookup x t query model now with
  | some response => .hit response .exact
  | none =>
    if cfg.semanticEnabled then
      match queryVector.bind fun qv => semanticLookup e t cfg qv now with
      | some response => .hit response .semantic
      | none => .miss
    else .miss

/-- `store`. -/
def store (x : Extern) (e : Engine) (t : CacheTable) (cfg : CacheConfig)
    (query model response : Text) (queryVector : Option (List F32)) (ttlOverride : Option ℕ)
    (now : ℤ) : CacheTable :=
  t.replace (makeKey x query model)
    ⟨response, now, expiresAt cfg ttlOverride now, queryVector.map e.toJson⟩

/-- `purge_expired`, with the number of rows removed. -/
def purgeExpired (t : CacheTable) (now : ℤ) : CacheTable × ℕ :=
  let expired (_ : Text) (r : CacheRow) : Bool := r.expiresAt.any fun d => d ≤ now
  (t.deleteWhere expired, t.rows.countP fun a => expired a.1 a.2)

/-- `clear`, with the number of rows removed. -/
def clear (t : CacheTable) : CacheTable × ℕ := (t.deleteWhere fun _ _ => true, t.rows.length)

/-- `count_live`. -/
def countLive (t : CacheTable) (now : ℤ) : ℕ := t.rows.countP fun a => a.2.isLive now

end BrainEngine.Core.Cache
