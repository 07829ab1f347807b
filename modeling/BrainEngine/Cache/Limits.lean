import BrainEngine.Cache.Models
import BrainEngine.Core.Query
import BrainEngine.Core.Sample
import BrainEngine.Lib.Machine

/-! # The limits of cached answers

An entry is written under the limits of one request and read under those of another, and its key knows
neither. `limits_of_run` tells which pairs of limits are safe: those, and no others, for which an answer
from the cache keeps to the limits of the request it answers, whatever the index. -/

namespace BrainEngine.Cache.Limits

open BrainEngine.Rust.Str BrainEngine.Lib.Keyed BrainEngine.Lib.Rowid BrainEngine.Lib.Machine
open BrainEngine.Core.External BrainEngine.Core.Vectors BrainEngine.Core.Database
open BrainEngine.Core.Retrieve BrainEngine.Core.Cache BrainEngine.Core.Query
open BrainEngine.Core.Chunking BrainEngine.Core.Sample BrainEngine.Cache.Models
open BrainEngine.Cache.Timed (hashing unit)

/-- What a retrieval wrote into the cache, and under which limits. -/
structure Written where
  key : Text
  limits : Limits
  frontEnd : FrontEnd
  ctx : Context

/-- The cache, and what retrievals have written into it, the last first. -/
structure Session where
  cache : CacheTable
  log : List Written

section
variable (x : Extern) (e : Engine) (l : Lance) (ix : Index)

/-- One query. -/
def step (s : Session) (c : Call) : Option Session :=
  match handleQuery x e l ix s.cache c with
  | (.ok (.live ctx), t) =>
    some ⟨t, if storable c ctx then ⟨makeKey x c.query c.embedder.modelId, c.limits, c.frontEnd, ctx⟩ ::
      s.log else s.log⟩
  | (_, t) => some ⟨t, s.log⟩

/-- The entry that answers a request. -/
def AnswersFrom (t : CacheTable) (c : Call) (a : Text × CacheRow) : Prop :=
  Found x e t c.cfg c.query c.embedder.modelId none c.atExact a ∨
    ∃ v, embedQuery c = .ok v ∧ Found x e t c.cfg c.query c.embedder.modelId (some v) c.atSemantic a

end

/-- The retrieval that wrote the entry under a key, if one did. -/
def writer (log : List Written) (key : Text) : Option Written := log.find? fun w => w.key = key

/-- What was retrieved under `w` keeps to the limits `r`: fewer tokens, and no more chunks, each of
which costs a token. -/
def Safe (w r : Limits) : Prop :=
  w.topK = 0 ∨ w.tokens = 0 ∨ (min w.topK w.tokens ≤ r.topK ∧ w.tokens ≤ r.tokens)

/-- The entries a request may be answered from were written under safe limits. -/
def WrittenSafely (x : Extern) (e : Engine) (s : Session) (c : Call) : Prop :=
  ∀ a, AnswersFrom x e s.cache c a → ∀ w, writer s.log a.1 = some w → Safe w.limits c.limits

/-- An answer from the cache comes from an entry; if a retrieval wrote that, it quotes what was
retrieved, which fits the limits of the request. -/
def Honours (x : Extern) (e : Engine) (l : Lance) (ix : Index) (s : Session) (c : Call) : Prop :=
  ∀ r kind, (handleQuery x e l ix s.cache c).1 = .ok (.cached r kind) →
    ∃ a, AnswersFrom x e s.cache c a ∧ a.2.response = r ∧ ∀ w, writer s.log a.1 = some w →
      r = cachedText w.frontEnd w.ctx ∧ Fits w.ctx c.limits

/-! ### One query -/

variable {x : Extern} {e : Engine} {l : Lance} {ix : Index} {s s' : Session} {c : Call}

theorem hit_of_tryCache {t : CacheTable} {qv : Option (List F32)} {now : ℤ} {r : Text}
    {kind : HitKind} (h : tryCache x e t c qv now = .hit r kind) :
    lookup x e t c.cfg c.query c.embedder.modelId qv now = .hit r kind := by
  unfold tryCache at h
  split_ifs at h
  exact h

/-- **What a query does**: it answers from an entry, or retrieves, or leaves the cache alone. -/
theorem handleQuery_cases (l : Lance) (ix : Index) (hscan : ∀ l, (e.scan l).Perm l) (t : CacheTable)
    (c : Call) :
    (∃ r kind a, handleQuery x e l ix t c = (.ok (.cached r kind), t) ∧ AnswersFrom x e t c a ∧
      a.2.response = r) ∨
    (∃ v ctx, retrieve l ix c v = .ok ctx ∧ handleQuery x e l ix t c =
      (.ok (.live ctx), if storable c ctx then remember x e t c v ctx else t)) ∨
    (∃ f, handleQuery x e l ix t c = (.error f, t)) ∨
    ∃ m, handleQuery x e l ix t c = (.ok (.notIndexed m), t) := by
  unfold handleQuery
  cases nothingToSearch ix.db c.frontEnd with
  | some m => exact Or.inr (Or.inr (Or.inr ⟨m, rfl⟩))
  | none =>
    dsimp only
    cases h1 : tryCache x e t c none c.atExact with
    | hit r kind =>
      obtain ⟨a, ha, hr⟩ := found_of_hit hscan (hit_of_tryCache h1)
      exact Or.inl ⟨r, kind, a, rfl, Or.inl ha, hr⟩
    | miss =>
      dsimp only
      cases hv : embedQuery c with
      | error f => exact Or.inr (Or.inr (Or.inl ⟨f, rfl⟩))
      | ok v =>
        dsimp only
        split
        · next r kind h2 =>
          have h2 : tryCache x e t c (some v) c.atSemantic = .hit r kind := by
            split_ifs at h2
            exact h2
          obtain ⟨a, ha, hr⟩ := found_of_hit hscan (hit_of_tryCache h2)
          exact Or.inl ⟨r, kind, a, rfl, Or.inr ⟨v, hv, ha⟩, hr⟩
        · cases hret : retrieve l ix c v with
          | error f => exact Or.inr (Or.inr (Or.inl ⟨f, rfl⟩))
          | ok ctx => exact Or.inr (Or.inl ⟨v, ctx, hret, rfl⟩)

/-- What holds of the cache between queries. -/
structure Kept (s : Session) : Prop where
  /-- Each entry has the text of what was retrieved for it. -/
  texts : ∀ a ∈ s.cache.rows, ∀ w, writer s.log a.1 = some w →
    a.2.response = cachedText w.frontEnd w.ctx
  /-- Each retrieval kept to its own limits, and each chunk costs something. -/
  fits : ∀ w ∈ s.log, Fits w.ctx w.limits ∧ ∀ k ∈ w.ctx.chunks, 1 ≤ k.tokenEstimate
  nonempty : ∀ w ∈ s.log, w.ctx.chunks ≠ []

theorem length_le_sum {cs : List RetrievedChunk} (h : ∀ k ∈ cs, 1 ≤ k.tokenEstimate) :
    cs.length ≤ (cs.map RetrievedChunk.tokenEstimate).sum := by
  induction cs with
  | nil => simp
  | cons c cs ih =>
    have h1 := h c List.mem_cons_self
    have h2 := ih fun k hk => h k (List.mem_cons_of_mem _ hk)
    simp only [List.length_cons, List.map_cons, List.sum_cons]
    omega

/-- **Safe limits**: what fits the one fits the other. -/
theorem fits_of_safe {ctx : Context} {w r : Limits} (h : Fits ctx w)
    (hone : ∀ k ∈ ctx.chunks, 1 ≤ k.tokenEstimate) (hne : ctx.chunks ≠ []) (hs : Safe w r) :
    Fits ctx r := by
  have hlen := length_le_sum hone
  have hpos := List.length_pos_iff.mpr hne
  have htop := h.topK
  have htok := h.tokens
  rcases hs with h0 | h0 | ⟨h1, h2⟩
  · omega
  · omega
  · exact ⟨by omega, by omega⟩

theorem honours_of_writtenSafely (hscan : ∀ l, (e.scan l).Perm l) (hk : Kept s)
    (hw : WrittenSafely x e s c) : Honours x e l ix s c := by
  intro r kind hr
  rcases handleQuery_cases l ix hscan s.cache c with
    ⟨r', kind', a, h, ha, hresp⟩ | ⟨v, ctx, -, h⟩ | ⟨f, h⟩ | ⟨m, h⟩
  · rw [h] at hr
    cases hr
    refine ⟨a, ha, hresp, fun w hwa => ?_⟩
    have hmem := List.mem_of_find?_eq_some hwa
    obtain ⟨hfit, hone⟩ := hk.fits w hmem
    have hrow : a ∈ s.cache.rows := by
      rcases ha with ha | ⟨v, -, ha⟩
      · exact ha.1
      · exact ha.1
    exact ⟨hresp.symm.trans (hk.texts a hrow w hwa),
      fits_of_safe hfit hone (hk.nonempty w hmem) (hw a ha w hwa)⟩
  · rw [h] at hr
    cases hr
  · rw [h] at hr
    cases hr
  · rw [h] at hr
    cases hr

/-- The cache after a retrieval was stored: the entry under its key is the new one. -/
theorem mem_remember {t : CacheTable} {v : List F32} {ctx : Context} {a : Text × CacheRow}
    (h : a ∈ (remember x e t c v ctx).rows) :
    a ∈ t.rows ∧ a.1 ≠ makeKey x c.query c.embedder.modelId ∨
      a.1 = makeKey x c.query c.embedder.modelId ∧ a.2.response = cachedText c.frontEnd ctx := by
  rcases KeyTable.mem_replace.mp (KeyTable.mem_deleteWhere.mp h).1 with h | rfl
  · exact Or.inl h
  · exact Or.inr ⟨rfl, rfl⟩

/-- A retrieval that is stored gets the entry under its key, and the last place in the log. -/
theorem kept_remember {v : List F32} {ctx : Context} (hk : Kept s) (hfit : Fits ctx c.limits)
    (hone : ∀ k ∈ ctx.chunks, 1 ≤ k.tokenEstimate) (hne : ctx.chunks ≠ []) :
    Kept ⟨remember x e s.cache c v ctx,
      ⟨makeKey x c.query c.embedder.modelId, c.limits, c.frontEnd, ctx⟩ :: s.log⟩ := by
  refine ⟨fun a ha w hw => ?_, fun w hw => ?_, fun w hw => ?_⟩
  · unfold writer at hw
    rw [List.find?_cons] at hw
    rcases mem_remember ha with ⟨ha, hkey⟩ | ⟨hkey, hresp⟩
    · simp only [hkey.symm, decide_false] at hw
      exact hk.texts a ha w hw
    · simp only [hkey, decide_true, Option.some.injEq] at hw
      rw [← hw]
      exact hresp
  · rcases List.mem_cons.mp hw with rfl | hw
    · exact ⟨hfit, hone⟩
    · exact hk.fits w hw
  · rcases List.mem_cons.mp hw with rfl | hw
    · exact hne
    · exact hk.nonempty w hw

/-- **One query** keeps the texts and the log together. -/
theorem kept_step (hscan : ∀ l, (e.scan l).Perm l) (hl : l.Lawful) (hk : Kept s)
    (h : step x e l ix s c = some s') : Kept s' := by
  unfold step at h
  rcases handleQuery_cases l ix hscan s.cache c with
    ⟨r, kind, a, hq, -⟩ | ⟨v, ctx, hret, hq⟩ | ⟨f, hq⟩ | ⟨m, hq⟩
  · rw [hq] at h
    cases h
    exact hk
  · rw [hq] at h
    obtain ⟨hfit, hone⟩ := fits_of_retrieve hl hret
    dsimp only at h
    by_cases hs : storable c ctx = true
    · rw [if_pos hs, if_pos hs] at h
      cases h
      simp only [storable, Bool.and_eq_true, Bool.not_eq_true', List.isEmpty_eq_false_iff] at hs
      exact kept_remember hk hfit hone hs.2
    · rw [if_neg hs, if_neg hs] at h
      cases h
      exact hk
  · rw [hq] at h
    cases h
    exact hk
  · rw [hq] at h
    cases h
    exact hk

/-! ### Every run -/

theorem kept_start (t : CacheTable) : Kept ⟨t, []⟩ :=
  ⟨fun _ _ _ h => by simp [writer] at h, by simp, by simp⟩

/-- **Every run** whose entries were written safely. -/
theorem allSteps_honours (hscan : ∀ l, (e.scan l).Perm l) (hl : l.Lawful) (cs : List Call)
    (hk : Kept s) (h : AllSteps (step x e l ix) (fun s c _ => WrittenSafely x e s c) cs s) :
    AllSteps (step x e l ix) (fun s c _ => Honours x e l ix s c) cs s := by
  induction cs generalizing s with
  | nil => trivial
  | cons c cs ih =>
    intro s' hs
    obtain ⟨hw, hrest⟩ := h s' hs
    exact ⟨honours_of_writtenSafely hscan hk hw, ih (kept_step hscan hl hk hs) hrest⟩

theorem mem_log_step (h : step x e l ix s c = some s') {w : Written} (hw : w ∈ s'.log) :
    w ∈ s.log ∨ w.limits = c.limits := by
  unfold step at h
  split at h
  · next ctx t _ =>
    by_cases hs : storable c ctx = true
    · rw [if_pos hs] at h
      cases h
      rcases List.mem_cons.mp hw with rfl | hw
      · exact Or.inr rfl
      · exact Or.inl hw
    · rw [if_neg hs] at h
      cases h
      exact Or.inl hw
  · cases h
    exact Or.inl hw

/-- Requests whose limits are safe for each other, in their order, never read what was not written
safely. -/
theorem writtenSafely_of_pairwise (cs : List Call)
    (hlog : ∀ w ∈ s.log, ∀ c ∈ cs, Safe w.limits c.limits)
    (hcs : cs.Pairwise fun c c' => Safe c.limits c'.limits) :
    AllSteps (step x e l ix) (fun s c _ => WrittenSafely x e s c) cs s := by
  induction cs generalizing s with
  | nil => trivial
  | cons c cs ih =>
    obtain ⟨hc, hcs⟩ := List.pairwise_cons.mp hcs
    refine fun s' hs => ⟨fun a _ w hw => ?_, ih (fun w hw c' hc' => ?_) hcs⟩
    · exact hlog w (List.mem_of_find?_eq_some hw) c List.mem_cons_self
    · rcases mem_log_step hs hw with hw | hw
      · exact hlog w hw c' (List.mem_cons_of_mem _ hc')
      · rw [hw]
        exact hc c' hc'

/-! ### Two requests under unsafe limits -/

/-- A line of `n` tokens. -/
def lineOf (n : ℕ) : Text := List.replicate (4 * n) 'x'

/-- A file of `m` lines of `n` tokens, each a chunk of its own, with its vectors. -/
def uniform (x : Extern) (m n : ℕ) : Index where
  vs := some ⟨1, (List.range m).map fun i =>
    ⟨⟨i + 1, [0x3F800000], "a.txt".toList, lineOf n⟩, ⟨"bge".toList, 1⟩⟩⟩
  db := { Db.empty with
    files := RowTable.empty.insert ⟨"a.txt".toList, x.sha256Hex (join "\n".toList (List.replicate m
      (lineOf n))), 0, 0, none, m, 0⟩
    chunks := RowTable.empty.insertAll <| (List.range m).map fun i =>
      ⟨1, i, i + 1, i + 1, lineOf n, x.sha256Hex (lineOf n), n, some (ofNat (i + 1)), 0⟩ }

/-- The same question, under some limits. -/
def ask (limits : Limits) : Call :=
  ⟨.daemon, "what is foo?".toList, limits, false, {}, constant "bge" 1 (by decide), 0, 0, 0, 0⟩

theorem estimate_lineOf {n : ℕ} (hn : 1 ≤ n) : estimate (lineOf n) = n := by
  have hlen : byteLen (lineOf n) = 4 * n := by
    unfold byteLen lineOf
    rw [List.map_replicate, List.sum_replicate]
    exact Nat.mul_one _
  unfold estimate
  rw [hlen]
  omega

theorem chunks_foldl_pack {budget : ℕ} (cs : List RetrievedChunk) (ctx : Context)
    (h : ctx.contextTokens + (cs.map RetrievedChunk.tokenEstimate).sum ≤ budget) :
    (cs.foldl (pack budget) ctx).chunks = ctx.chunks ++ cs := by
  induction cs generalizing ctx with
  | nil => simp
  | cons c cs ih =>
    rw [List.map_cons, List.sum_cons] at h
    have hp : pack budget ctx c = { ctx with
        contextTokens := ctx.contextTokens + c.tokenEstimate, chunks := ctx.chunks ++ [c] } :=
      if_pos (by omega)
    rw [List.foldl_cons, hp, ih _ (by dsimp only; omega)]
    simp

/-- The vectors of the uniform lines. -/
def uniformRows (m n : ℕ) : List VectorRow := (List.range m).map fun i =>
  ⟨⟨i + 1, [0x3F800000], "a.txt".toList, lineOf n⟩, ⟨"bge".toList, 1⟩⟩

/-- All of them, as hits. -/
def uniformHits (m n : ℕ) : List SearchHit := extractHits scan ((uniformRows m n).map fun row => (row, 0))

@[simp] theorem length_uniformRows (m n : ℕ) : (uniformRows m n).length = m := by simp [uniformRows]

@[simp] theorem length_uniformHits (m n : ℕ) : (uniformHits m n).length = m := by
  simp [uniformHits, extractHits]

theorem content_uniformHits {m n : ℕ} {hit : SearchHit} (h : hit ∈ uniformHits m n) :
    hit.content = lineOf n := by
  obtain ⟨a, ha, rfl⟩ := List.mem_map.mp h
  obtain ⟨row, hrow, rfl⟩ := List.mem_map.mp ha
  obtain ⟨i, -, rfl⟩ := List.mem_map.mp hrow
  rfl

theorem searchVectors_uniform {m n k : ℕ} (hm : 1 ≤ m) (hk : m ≤ k) :
    searchVectors scan (uniform x m n).vs [0x3F800000] k = .ok (uniformHits m n) := by
  have htake : (uniformRows m n).take (min k (uniformRows m n).length) = uniformRows m n :=
    List.take_of_length_le (by rw [length_uniformRows]; omega)
  unfold searchVectors
  rw [if_neg (by simp; omega)]
  change (if (uniformRows m n).length = 0 then _ else _) = _
  rw [if_neg (by rw [length_uniformRows]; omega)]
  change Except.ok (extractHits scan (((uniformRows m n).take (min k (uniformRows m n).length)).map _)) = _
  rw [htake]
  rfl

theorem tokenEstimate_uniform {m n : ℕ} (hn : 1 ≤ n) :
    ∀ k ∈ enrich (uniform x m n).db (uniformHits m n), k.tokenEstimate = n := by
  intro k hk
  obtain ⟨hit, hhit, rfl⟩ := List.mem_map.mp hk
  have hline := content_uniformHits hhit
  have hmeta : ∀ a ∈ chunkMeta (uniform x m n).db ((uniformHits m n).map SearchHit.chunkId),
      a.2.2.2 = n := by
    intro a ha
    obtain ⟨row, hrow, rfl⟩ := List.mem_map.mp ha
    rcases RowTable.mem_insertAll (List.mem_filter.mp hrow).1 with h | ⟨-, h⟩
    · cases h
    · obtain ⟨i, -, hi⟩ := List.mem_map.mp h
      rw [← hi]
  unfold enrichHit
  dsimp only
  cases hl : (chunkMeta (uniform x m n).db ((uniformHits m n).map SearchHit.chunkId)).lookup
      hit.chunkId with
  | none => simp [hline, estimate_lineOf hn]
  | some v =>
    obtain ⟨l₁, l₂, hsplit, -⟩ := List.lookup_eq_some_iff.mp hl
    have hv := hmeta (hit.chunkId, v) (by rw [hsplit]; simp)
    dsimp only at hv
    rw [Option.getD_some, hv, if_neg (by omega)]

theorem retrieve_uniform {m n : ℕ} {lim : Limits} (hm : 1 ≤ m) (hn : 1 ≤ n) (hk : m ≤ lim.topK)
    (ht : m * n ≤ lim.tokens) :
    ∃ ctx, retrieve scan (uniform x m n) (ask lim) [0x3F800000] = .ok ctx ∧ ctx.chunks.length = m ∧
      (ctx.chunks.map RetrievedChunk.tokenEstimate).sum = m * n := by
  have hempty : (uniformHits m n).isEmpty = false := by
    rw [List.isEmpty_eq_false_iff, ← List.length_pos_iff, length_uniformHits]
    omega
  have hsum : ((enrich (uniform x m n).db (uniformHits m n)).map RetrievedChunk.tokenEstimate).sum =
      m * n := by
    rw [List.map_congr_left (tokenEstimate_uniform hn), List.map_const']
    simp [enrich]
  have hchunks : (assemble (enrich (uniform x m n).db (uniformHits m n)) lim.tokens
      (projectTotal (uniform x m n).db)).chunks = enrich (uniform x m n).db (uniformHits m n) := by
    unfold assemble
    dsimp only
    rw [chunks_foldl_pack _ _ (by dsimp only; omega)]
    rfl
  refine ⟨assemble (enrich (uniform x m n).db (uniformHits m n)) lim.tokens
    (projectTotal (uniform x m n).db), ?_, ?_, ?_⟩
  · unfold retrieve search
    change Except.map _ (Except.map _ (searchVectors scan (uniform x m n).vs [0x3F800000] lim.topK)) = _
    rw [searchVectors_uniform hm hk]
    simp only [Except.map, hempty]
    rfl
  · rw [hchunks]
    simp [enrich]
  · rw [hchunks, hsum]

theorem lookup_remember {t : CacheTable} {v : List F32} {ctx : Context} {now : ℤ}
    (hp : ∀ d, expiresAt c.cfg none c.atStore = some d → c.atPurge < d ∧ now < d)
    (cfg : CacheConfig) (qv : Option (List F32)) :
    lookup x e (remember x e t c v ctx) cfg c.query c.embedder.modelId qv now =
      .hit (cachedText c.frontEnd ctx) .exact := by
  have hx : exactLookup x (remember x e t c v ctx) c.query c.embedder.modelId now =
      some (cachedText c.frontEnd ctx) := by
    unfold exactLookup remember purgeExpired store
    dsimp only
    rw [KeyTable.get?_deleteWhere, KeyTable.get?_replace, if_pos rfl]
    cases hd : expiresAt c.cfg none c.atStore with
    | none => simp [Option.filter, CacheRow.isLive]
    | some d =>
      obtain ⟨h1, h2⟩ := hp d hd
      simp [Option.filter, CacheRow.isLive, h1, h2]
  unfold lookup
  rw [hx]

theorem handleQuery_cached {t : CacheTable} {r : Text} {kind : HitKind} (hc : c.frontEnd = .daemon)
    (h : tryCache x e t c none c.atExact = .hit r kind) :
    handleQuery x e l ix t c = (.ok (.cached r kind), t) := by
  unfold handleQuery
  rw [hc, h]
  rfl

theorem handleQuery_live {t : CacheTable} {v : List F32} {ctx : Context} (hc : c.frontEnd = .daemon)
    (h : tryCache x e t c none c.atExact = .miss) (hoff : c.cfg.semanticEnabled = false)
    (hv : embedQuery c = .ok v) (hret : retrieve l ix c v = .ok ctx) (hs : storable c ctx = true) :
    handleQuery x e l ix t c = (.ok (.live ctx), remember x e t c v ctx) := by
  unfold handleQuery
  rw [hc, h, hv, hoff]
  simp only [nothingToSearch, Bool.false_eq_true, if_false, hret, hs, if_true]

/-- **Unsafe limits fail**: a second request is answered with more than it may get. -/
theorem not_honours {w r : Limits} {m n : ℕ} (hm : 1 ≤ m) (hn : 1 ≤ n) (hk : m ≤ w.topK)
    (ht : m * n ≤ w.tokens) (hbad : r.topK < m ∨ r.tokens < m * n) :
    ¬AllSteps (step x e scan (uniform x m n)) (fun s c _ => Honours x e scan (uniform x m n) s c)
      [ask w, ask r] ⟨KeyTable.empty, []⟩ := by
  obtain ⟨ctx, hret, hlen, hsum⟩ := retrieve_uniform (x := x) hm hn hk ht
  have hstorable : storable (ask w) ctx = true := by
    have hne : ctx.chunks ≠ [] := List.length_pos_iff.mp (by omega)
    simp [storable, ask, hne]
  let stored := remember x e KeyTable.empty (ask w) [0x3F800000] ctx
  let entry : Written := ⟨makeKey x (ask w).query (ask w).embedder.modelId, w, .daemon, ctx⟩
  -- the first request retrieves and stores
  have hmiss : tryCache x e KeyTable.empty (ask w) none (ask w).atExact = .miss := by
    simp [tryCache, lookup, exactLookup, ask]
  have h1 : handleQuery x e scan (uniform x m n) KeyTable.empty (ask w) = (.ok (.live ctx), stored) :=
    handleQuery_live rfl hmiss rfl rfl hret hstorable
  have hs1 : step x e scan (uniform x m n) ⟨KeyTable.empty, []⟩ (ask w) = some ⟨stored, [entry]⟩ := by
    unfold step
    rw [h1]
    dsimp only
    rw [if_pos hstorable]
    rfl
  -- the second one finds the entry
  have hhit : lookup x e stored (ask r).cfg (ask r).query (ask r).embedder.modelId none
      (ask r).atExact = .hit (cachedText .daemon ctx) .exact := by
    refine lookup_remember (c := ask w) (fun d hd => ?_) _ _
    have hexp : expiresAt (ask w).cfg none (ask w).atStore = some 604800 := by
      change expiresAt {} none 0 = some 604800
      decide
    rw [hexp, Option.some.injEq] at hd
    rw [← hd]
    exact ⟨show (0 : ℤ) < 604800 by decide, show (0 : ℤ) < 604800 by decide⟩
  have h2 : handleQuery x e scan (uniform x m n) stored (ask r) =
      (.ok (.cached (cachedText .daemon ctx) .exact), stored) :=
    handleQuery_cached rfl (by rw [tryCache, if_neg (by simp [ask]), hhit])
  have hs2 : step x e scan (uniform x m n) ⟨stored, [entry]⟩ (ask r) = some ⟨stored, [entry]⟩ := by
    unfold step
    rw [h2]
  intro hall
  rw [allSteps_cons hs1, allSteps_cons hs2] at hall
  obtain ⟨-, hh, -⟩ := hall
  obtain ⟨a, ha, -, hw⟩ := hh _ _ (congrArg Prod.fst h2)
  have hrow : a ∈ stored.rows := by
    rcases ha with ha | ⟨v, -, ha⟩
    · exact ha.1
    · exact ha.1
  have hkey : entry.key = a.1 := by
    rcases mem_remember hrow with ⟨h, -⟩ | ⟨h, -⟩
    · cases h
    · exact h.symm
  obtain ⟨-, hfit⟩ := hw entry (by simp [writer, hkey])
  have h3 : ctx.chunks.length ≤ r.topK := hfit.topK
  have h4 : (ctx.chunks.map RetrievedChunk.tokenEstimate).sum ≤ r.tokens := hfit.tokens
  omega

/-- **The limits of cached answers.** In every run of queries on an index, from any cache: if each entry
that a request may be answered from was written under limits that are safe for it, then each answer from
an entry that a retrieval wrote quotes what fits the limits of the request. And no other pair of limits
is safe: on some index, a second request under `r` is answered with what a first one under `w` stored,
which does not fit `r`. -/
theorem limits_of_run (hscan : ∀ l, (e.scan l).Perm l) :
    (∀ l : Lance, l.Lawful → ∀ ix t cs,
      AllSteps (step x e l ix) (fun s c _ => WrittenSafely x e s c) cs ⟨t, []⟩ →
        AllSteps (step x e l ix) (fun s c _ => Honours x e l ix s c) cs ⟨t, []⟩) ∧
    ∀ w r, ¬Safe w r → ∃ ix, ¬AllSteps (step x e scan ix) (fun s c _ => Honours x e scan ix s c)
      [ask w, ask r] ⟨KeyTable.empty, []⟩ := by
  refine ⟨fun l hl ix t cs => allSteps_honours hscan hl cs (kept_start t), fun w r hbad => ?_⟩
  simp only [Safe, not_or, not_and_or, not_le] at hbad
  obtain ⟨hk, ht, hbad | hbad⟩ := hbad
  · -- one chunk more than asked for
    have hlt := lt_min_iff.mp hbad
    exact ⟨_, not_honours (m := r.topK + 1) (n := 1) (by omega) le_rfl (by omega) (by omega)
      (Or.inl (by omega))⟩
  · -- one chunk of all the tokens
    exact ⟨_, not_honours (m := 1) (n := w.tokens) le_rfl (by omega) (by omega) (by omega)
      (Or.inr (by omega))⟩

/-- A sparing request before a rich one. -/
theorem limits_sparing :
    AllSteps (step hashing unit scan (uniform hashing 5 800))
      (fun s c _ => Honours hashing unit scan (uniform hashing 5 800) s c)
      [ask ⟨3, 2000⟩, ask ⟨5, 4000⟩] ⟨KeyTable.empty, []⟩ := by
  refine (limits_of_run fun l => List.Perm.refl l).1 scan lawful_scan _ _ _
    (writtenSafely_of_pairwise _ (by simp) ?_)
  refine List.pairwise_pair.mpr (Or.inr (Or.inr ⟨?_, ?_⟩))
  · decide
  · decide

/-- **A sparing request after a rich one** is answered with the rich context. -/
theorem not_allSteps_honours : ¬∀ ix t cs, AllSteps (step hashing unit scan ix)
    (fun s c _ => Honours hashing unit scan ix s c) cs ⟨t, []⟩ := fun h =>
  not_honours (w := ⟨5, 4000⟩) (r := ⟨3, 2000⟩) (m := 5) (n := 800) (by decide) (by decide)
    (by decide) (by decide) (Or.inl (by decide)) (h _ _ _)

end BrainEngine.Cache.Limits
