import BrainEngine.Cache.Timed
import BrainEngine.Core.Sample
import BrainEngine.Daemon.Worker

/-! # What is stored comes back

A client stores the answer to a prompt, as the Stop hook does; clients that ask for the prompt
afterwards get this answer, or one that was stored for the prompt later, whatever other requests the
worker has in between and whatever becomes of the index (`served_of_reaches`). It is the order of all
requests that says what "afterwards" means between two connections. -/

namespace BrainEngine.Daemon.ReadBack

open BrainEngine.Rust.Str BrainEngine.Lib.Machine BrainEngine.Lib.Keyed BrainEngine.Core.External
open BrainEngine.Core.Vectors BrainEngine.Core.Cache BrainEngine.Core.Query BrainEngine.Cache.Timed
open BrainEngine.Core.Passes (Project)
open BrainEngine.Daemon.Protocol BrainEngine.Daemon.Linear BrainEngine.Daemon.Worker

variable {V : Type}

/-- The key of a text under the worker's model. -/
def keyOf (w : Setting V) (q : Text) : Text := makeKey w.x q w.embedder.modelId

/-- The cache has this answer to a text, and will have it until `t1`. -/
def Remembers (w : Setting V) (t1 : ℤ) (q : Text) (d : Data) (a : Text) : Prop :=
  ∃ row, d.cache.get? (keyOf w q) = some row ∧ row.response = a ∧ row.isLive t1 = true

/-- The text that a message looks up or stores. -/
def textOf : WorkerMsg → Option Text
  | .query p => some p.query
  | .store p => some p.query
  | _ => none

/-- A time that is shorter than the configured TTL, and does not reach the end of `i64`. -/
structure Period (cfg : CacheConfig) (t0 t1 : ℤ) : Prop where
  start : 0 ≤ t0
  stop : t1 + cfg.ttlSeconds < 2 ^ 63
  short : cfg.ttlSeconds = 0 ∨ t1 < t0 + cfg.ttlSeconds

/-- A handler ran at this time, and its text, if it is another, has another key. -/
structure Proper (w : Setting V) (t0 t1 : ℤ) (q : Text) (msg : WorkerMsg) (i : Input) : Prop where
  lookup : i.atExact ≤ t1
  store : t0 ≤ i.atStore ∧ i.atStore ≤ t1
  purge : i.atPurge ≤ t1
  alone : ∀ q', textOf msg = some q' → keyOf w q' = keyOf w q → q' = q

variable {w : Setting V} {t0 t1 now : ℤ} {q a : Text} {d d' : Data} {msg : WorkerMsg} {i : Input}
  {t : CacheTable} {row : CacheRow} {key : Text}

/-! ### One handler -/

theorem get?_purgeExpired (h : t.get? key = some row) (hlive : row.isLive t1 = true) (hnow : now ≤ t1) :
    (purgeExpired t now).1.get? key = some row := by
  unfold purgeExpired
  dsimp only
  rw [KeyTable.get?_deleteWhere, h, Option.filter_some, if_pos]
  unfold CacheRow.isLive at hlive
  cases hd : row.expiresAt with
  | none => rfl
  | some e =>
    rw [hd, Option.all_some, decide_eq_true_eq] at hlive
    have hlt : ¬e ≤ now := by omega
    simp [hlt]

theorem isLive_stored (hp : Period w.cacheCfg t0 t1) (h : t0 ≤ now ∧ now ≤ t1)
    (e : Engine) (v : Option (List F32)) :
    (⟨a, now, expiresAt w.cacheCfg none now, v.map e.toJson⟩ : CacheRow).isLive t1 = true := by
  have h1 := hp.start
  have h2 := hp.stop
  have hexp : expiresAt w.cacheCfg none now = deadline w.cacheCfg none now := by
    refine expiresAt_eq ?_ ?_ ?_
    · show (w.cacheCfg.ttlSeconds : ℤ) < 2 ^ 63
      omega
    · show -2 ^ 63 ≤ now + (w.cacheCfg.ttlSeconds : ℤ)
      omega
    · show now + (w.cacheCfg.ttlSeconds : ℤ) < 2 ^ 63
      omega
  unfold CacheRow.isLive
  dsimp only
  rw [hexp]
  unfold deadline
  split_ifs with h0
  · rfl
  · have hne : w.cacheCfg.ttlSeconds ≠ 0 := fun he => h0 ⟨rfl, he⟩
    have hlt := hp.short.resolve_left hne
    show decide (t1 < now + (w.cacheCfg.ttlSeconds : ℤ)) = true
    rw [decide_eq_true_eq]
    omega

/-- **A store** is remembered. -/
theorem remembers_handleStore (hp : Period w.cacheCfg t0 t1) (hi : Proper w t0 t1 q (.store ⟨q, a⟩) i)
    (h : handleStore w t ⟨q, a⟩ i = .ok d.cache) : Remembers w t1 q d a := by
  unfold handleStore at h
  cases hv : storeVector w q with
  | error f =>
    rw [hv] at h
    cases h
  | ok v =>
    rw [hv] at h
    have hcache : d.cache = _ := (Except.ok.inj h).symm
    have hrow := isLive_stored (a := a) hp hi.store w.engine v
    refine ⟨_, ?_, rfl, hrow⟩
    rw [hcache]
    refine get?_purgeExpired ?_ hrow hi.purge
    unfold store
    rw [KeyTable.get?_replace]
    exact if_pos rfl

/-- Something is written under another key, and what has expired is dropped. -/
theorem get?_purgeExpired_store {cfg : CacheConfig} {q' : Text} {r : Text} {v : Option (List F32)}
    (hne : keyOf w q' ≠ keyOf w q) (h : t.get? (keyOf w q) = some row) (hlive : row.isLive t1 = true)
    (hnow : now ≤ t1) {at' : ℤ} :
    (purgeExpired (store w.x w.engine t cfg q' w.embedder.modelId r v none at') now).1.get?
      (keyOf w q) = some row := by
  refine get?_purgeExpired ?_ hlive hnow
  unfold store
  rw [KeyTable.get?_replace, if_neg fun he => hne he.symm]
  exact h

theorem remembers_store {p : StoreParams} (hp : Period w.cacheCfg t0 t1)
    (hi : Proper w t0 t1 q (.store p) i) (hd : Remembers w t1 q d a)
    (h : handleStore w d.cache p i = .ok t) :
    ∃ a', Remembers w t1 q { d with cache := t } a' ∧ (a' = a ∨ p = ⟨q, a'⟩) := by
  obtain ⟨q', a'⟩ := p
  by_cases hq : q' = q
  · subst hq
    exact ⟨a', remembers_handleStore hp hi h, Or.inr rfl⟩
  · obtain ⟨row, hrow, hresp, hlive⟩ := hd
    refine ⟨a, ⟨row, ?_, hresp, hlive⟩, Or.inl rfl⟩
    unfold handleStore at h
    cases hv : storeVector w q' with
    | error f =>
      rw [hv] at h
      cases h
    | ok v =>
      rw [hv] at h
      rw [← Except.ok.inj h]
      exact get?_purgeExpired_store (fun he => hq (hi.alone q' rfl he)) hrow hlive hi.purge

/-- **What a query does to the cache**: only after a miss does it write. -/
theorem cache_handleQuery (x : Extern) (e : Engine) (l : Core.Retrieve.Lance) (ix : Index)
    (t : CacheTable) (c : Call) :
    (handleQuery x e l ix t c).2 = t ∨ c.noCache = false ∧ tryCache x e t c none c.atExact = .miss ∧
      ∃ v ctx, (handleQuery x e l ix t c).2 = remember x e t c v ctx := by
  unfold handleQuery
  cases nothingToSearch ix.db c.frontEnd with
  | some m => exact Or.inl rfl
  | none =>
    dsimp only
    cases h1 : tryCache x e t c none c.atExact with
    | hit r kind => exact Or.inl rfl
    | miss =>
      dsimp only
      cases embedQuery c with
      | error f => exact Or.inl rfl
      | ok v =>
        dsimp only
        split
        · exact Or.inl rfl
        · cases retrieve l ix c v with
          | error f => exact Or.inl rfl
          | ok ctx =>
            dsimp only
            split_ifs with hs
            · have hno : c.noCache = false := by
                unfold storable at hs
                rw [Bool.and_eq_true, Bool.not_eq_true'] at hs
                exact hs.1
              exact Or.inr ⟨hno, rfl, v, ctx, rfl⟩
            · exact Or.inl rfl

theorem tryCache_of_remembers {p : QueryParams} (hd : Remembers w t1 p.query d a)
    (hlookup : i.atExact ≤ t1) (hno : p.noCache = false) :
    tryCache w.x w.engine d.cache (call w p i) none (call w p i).atExact = .hit a .exact := by
  obtain ⟨row, hrow, rfl, hlive⟩ := hd
  have hlive' : row.isLive i.atExact = true := by
    unfold CacheRow.isLive at hlive ⊢
    rw [Option.all_eq_true] at hlive ⊢
    intro e he
    have hlt := hlive e he
    rw [decide_eq_true_eq] at hlt ⊢
    omega
  have hx : exactLookup w.x d.cache p.query w.embedder.modelId i.atExact = some row.response := by
    unfold exactLookup
    rw [show d.cache.get? (makeKey w.x p.query w.embedder.modelId) = some row from hrow,
      Option.filter_some, if_pos hlive']
    rfl
  unfold tryCache lookup
  rw [if_neg (by rw [show (call w p i).noCache = p.noCache from rfl, hno]; simp)]
  rw [show exactLookup w.x d.cache (call w p i).query (call w p i).embedder.modelId
    (call w p i).atExact = some row.response from hx]

/-- **A query** leaves what is remembered. -/
theorem remembers_query {p : QueryParams} (hi : Proper w t0 t1 q (.query p) i)
    (hd : Remembers w t1 q d a) :
    Remembers w t1 q { d with cache := (handleQueryMsg w d p i).2 } a := by
  obtain ⟨row, hrow, hresp, hlive⟩ := id hd
  refine ⟨row, ?_, hresp, hlive⟩
  rcases cache_handleQuery w.x w.engine w.lance ⟨d.project.vs, d.project.db⟩ d.cache (call w p i) with
    h | ⟨hno, hmiss, v, ctx, h⟩
  · show (handleQuery _ _ _ _ _ _).2.get? _ = _
    rw [h]
    exact hrow
  · show (handleQuery _ _ _ _ _ _).2.get? _ = _
    rw [h]
    have hne : keyOf w p.query ≠ keyOf w q := fun he => by
      -- the text itself would have been a hit
      obtain rfl := hi.alone p.query rfl he
      rw [tryCache_of_remembers hd hi.lookup hno] at hmiss
      cases hmiss
    exact get?_purgeExpired_store hne hrow hlive hi.purge

/-- **The answer** to a remembered text. -/
theorem handle_query_of_remembers {p : QueryParams} (hd : Remembers w t1 p.query d a)
    (hlookup : i.atExact ≤ t1) (hno : p.noCache = false) :
    handle w d (.query p) i = some (.result (.ok (w.answerJson (.cached a .exact))), d) := by
  have hq : handleQueryMsg w d p i = (.ok (.cached a .exact), d.cache) := by
    unfold handleQueryMsg handleQuery
    rw [tryCache_of_remembers hd hlookup hno]
    rfl
  unfold handle
  dsimp only
  rw [hq]
  rfl

/-- **A handler** forgets nothing but for another answer to the text. -/
theorem remembers_handle {r : Reply V} (hp : Period w.cacheCfg t0 t1) (hi : Proper w t0 t1 q msg i)
    (hd : Remembers w t1 q d a) (h : handle w d msg i = some (r, d')) :
    ∃ a', Remembers w t1 q d' a' ∧ (a' = a ∨ msg = .store ⟨q, a'⟩) := by
  unfold handle at h
  split at h
  · cases h
    exact ⟨a, hd, Or.inl rfl⟩
  · cases h
  · cases h
    exact ⟨a, hd, Or.inl rfl⟩
  · next p =>
    obtain ⟨r', -, he⟩ := Option.map_eq_some_iff.mp h
    obtain ⟨-, rfl⟩ := Prod.mk.inj he
    exact ⟨a, remembers_query hi hd, Or.inl rfl⟩
  · obtain ⟨r', -, he⟩ := Option.map_eq_some_iff.mp h
    obtain ⟨-, rfl⟩ := Prod.mk.inj he
    exact ⟨a, hd, Or.inl rfl⟩
  · next p =>
    split at h
    · next t ht =>
      cases h
      obtain ⟨a', ha, he⟩ := remembers_store hp hi hd ht
      exact ⟨a', ha, he.imp_right fun he => by rw [he]⟩
    · obtain ⟨r', -, he⟩ := Option.map_eq_some_iff.mp h
      obtain ⟨-, rfl⟩ := Prod.mk.inj he
      exact ⟨a, hd, Or.inl rfl⟩
  · cases h
    exact ⟨a, hd, Or.inl rfl⟩

/-! ### The log -/

/-- The handlers of a part of the log ran in the period. -/
def AllProper (w : Setting V) (t0 t1 : ℤ) (q : Text) (log : List (Entry Input Project)) : Prop :=
  ∀ ch msg i, .handled ch msg i ∈ log → Proper w t0 t1 q msg i

theorem remembers_apply {e : Entry Input Project} (hp : Period w.cacheCfg t0 t1)
    (he : ∀ ch msg i, e = .handled ch msg i → Proper w t0 t1 q msg i) (hd : Remembers w t1 q d a) :
    ∃ a', Remembers w t1 q ((handlers w).apply d e) a' ∧
      (a' = a ∨ ∃ ch i, e = .handled ch (.store ⟨q, a'⟩) i) := by
  cases e with
  | handled ch msg i =>
    unfold Handlers.apply
    dsimp only
    cases hh : (handlers w).handle d msg i with
    | none => exact ⟨a, hd, Or.inl rfl⟩
    | some rd =>
      obtain ⟨r, d'⟩ := rd
      obtain ⟨a', ha, hor⟩ := remembers_handle hp (he ch msg i rfl) hd hh
      exact ⟨a', ha, hor.imp_right fun hm => ⟨ch, i, by rw [hm]⟩⟩
  | outside project => exact ⟨a, hd, Or.inl rfl⟩

/-- **A part of the log** forgets nothing but for other answers in it. -/
theorem remembers_replay {log : List (Entry Input Project)} (hp : Period w.cacheCfg t0 t1)
    (hlog : AllProper w t0 t1 q log) (hd : Remembers w t1 q d a) :
    ∃ a', Remembers w t1 q ((handlers w).replay d log) a' ∧
      (a' = a ∨ ∃ ch i, .handled ch (.store ⟨q, a'⟩) i ∈ log) := by
  induction log generalizing d a with
  | nil => exact ⟨a, hd, Or.inl rfl⟩
  | cons e log ih =>
    obtain ⟨b, hb, hor⟩ := remembers_apply hp
      (fun ch msg i he => hlog ch msg i (he ▸ List.mem_cons_self)) hd
    obtain ⟨a', ha, hor'⟩ := ih (fun ch msg i he => hlog ch msg i (List.mem_cons_of_mem _ he)) hb
    refine ⟨a', ha, ?_⟩
    rcases hor' with rfl | ⟨ch, i, hm⟩
    · rcases hor with rfl | ⟨ch, i, he⟩
      · exact Or.inl rfl
      · exact Or.inr ⟨ch, i, he ▸ List.mem_cons_self⟩
    · exact Or.inr ⟨ch, i, List.mem_cons_of_mem _ hm⟩

theorem remembers_of_stored {r : Reply V} (hp : Period w.cacheCfg t0 t1)
    (hi : Proper w t0 t1 q (.store ⟨q, a⟩) i) (h : handle w d (.store ⟨q, a⟩) i = some (r, d'))
    (hr : r.successful = true) : Remembers w t1 q d' a := by
  unfold handle at h
  dsimp only at h
  split at h
  · next t ht =>
    cases h
    exact remembers_handleStore hp hi ht
  · next f hf =>
    obtain ⟨r', hr', he⟩ := Option.map_eq_some_iff.mp h
    obtain ⟨rfl, -⟩ := Prod.mk.inj he
    unfold failed at hr'
    split at hr'
    · cases hr'
      cases hr
    · cases hr'

/-! ### Every run -/

section
variable {serde : Serde V} {d₀ : Data} {s₀ s t : State V Data Input Project}

/-- **What is stored comes back.** Every query that is sent after a store of its text was answered, and
that is answered itself, gets the answer that was stored, or one that was stored for the text later, as
an exact hit of the cache: in every interleaving of connections, the worker and others that change the
project, in every period shorter than the TTL, if no other text has the hash of this one. -/
theorem served_of_reaches {c i id c' j id' : ℕ} {resp resp' : ResponseEnvelope V} {p : QueryParams}
    {a : Text}
    (h₀ : Reaches (step serde (handlers w)) (fun s a => spares s a = true) (start d₀) s₀)
    (h : Reaches (step serde (handlers w)) (fun s a => spares s a = true) s₀ s)
    (h' : Reaches (step serde (handlers w)) (fun s a => spares s a = true) s t)
    (hp : Period w.cacheCfg t0 t1) (hlog : AllProper w t0 t1 p.query (t.log.drop s₀.log.length))
    (hstore : Served serde s₀ s c i id (.store ⟨p.query, a⟩) resp)
    (hquery : Served serde s t c' j id' (.query p) resp') (hno : p.noCache = false) :
    ∃ a', resp' = okResponse id' (w.answerJson (.cached a' .exact)) ∧
      (a' = a ∨ ∃ ch input, .handled ch (.store ⟨p.query, a'⟩) input ∈ t.log.drop s₀.log.length) := by
  have I₀ := inv_of_reaches h₀
  obtain ⟨I, more, hm⟩ := since_of_reaches I₀ h
  obtain ⟨It, more', hm'⟩ := since_of_reaches I h'
  -- the two places in the order
  obtain ⟨k, input, r, d, hk0, hk, hr, he⟩ :=
    hstore.exists_place (inOrder_of_inv I₀) (inOrder_of_inv I) hm.log
  obtain ⟨k', input', r', d', hk0', hk', hr', he'⟩ :=
    hquery.exists_place (inOrder_of_inv I) (inOrder_of_inv It) hm'.log
  have hlt : k < s.log.length := (List.getElem?_eq_some_iff.mp hk).1
  have htake : t.log.take k = s.log.take k := by
    rw [hm'.log, List.take_append_of_le_length (Nat.le_of_lt hlt)]
  have hget : t.log[k]? = s.log[k]? := by rw [hm'.log, List.getElem?_append_left hlt]
  rw [← hget] at hk
  rw [← htake] at hr
  have hin : ∀ {n e}, s₀.log.length ≤ n → t.log[n]? = some e → e ∈ t.log.drop s₀.log.length := by
    intro n e hn he
    refine List.mem_iff_getElem?.mpr ⟨n - s₀.log.length, ?_⟩
    rw [List.getElem?_drop, Nat.add_sub_cancel' hn, he]
  have hlen : s₀.log.length ≤ s.log.length := by
    rw [hm.log, List.length_append]
    omega
  -- what the store left is there for the query
  have hsucc : r.successful = true := by
    obtain ⟨r₁, hr₁, hs₁⟩ := successful_of_ok (by simp) (he ▸ hstore.ok)
    rw [Option.some.inj hr₁]
    exact hs₁
  have hd := remembers_of_stored hp (hlog _ _ _ (hin hk0 hk)) hr hsucc
  have hsub : ∀ e ∈ (t.log.take k').drop (k + 1), e ∈ t.log.drop s₀.log.length := by
    intro e he
    obtain ⟨n, hn⟩ := List.mem_iff_getElem?.mp he
    rw [List.getElem?_drop, List.getElem?_take] at hn
    split_ifs at hn
    exact hin (by omega) hn
  have hsplit : t.log.take k' = t.log.take (k + 1) ++ (t.log.take k').drop (k + 1) := by
    have happ := List.take_append_drop (k + 1) (t.log.take k')
    rw [List.take_take, Nat.min_eq_left (by omega)] at happ
    exact happ.symm
  obtain ⟨a', ha, hor⟩ := remembers_replay hp (fun ch msg i he => hlog ch msg i (hsub _ he)) hd
  rw [← replay_take_succ hk hr, ← replay_append, ← hsplit] at ha
  -- the answer
  have hi' := hlog _ _ _ (hin (by omega) hk')
  have hans : (handlers w).handle _ (.query p) input' = _ := handle_query_of_remembers ha hi'.lookup hno
  rw [hans, Option.some.injEq, Prod.mk.injEq] at hr'
  refine ⟨a', ?_, hor.imp_right fun ⟨ch, i, he⟩ => ⟨ch, i, hsub _ he⟩⟩
  rw [he', ← hr'.1]
  rfl

end

/-! ### An answer for another client -/

def question : Text := "what is foo?".toList

def storeParams : Text := "\x7b\"query\":\"what is foo?\",\"response\":\"foo is bar\"\x7d".toList

def askParams : Text := "\x7b\"query\":\"what is foo?\"\x7d".toList

def storeLine : Text := "\x7b\"id\":1,\"method\":\"store\",\"params\":".toList ++ storeParams ++ ['}']

def askLine : Text := "\x7b\"id\":2,\"method\":\"query\",\"params\":".toList ++ askParams ++ ['}']

/-- `serde_json` on the two lines, its values as texts. -/
def twoRequests : Serde Text where
  fromStr line :=
    if line = storeLine then .ok ⟨1, "store".toList, storeParams⟩
    else if line = askLine then .ok ⟨2, "query".toList, askParams⟩
    else .error "expected value at line 1 column 1".toList
  queryParams v := if v = askParams then .ok ⟨question, 5, 4000, false⟩ else .error []
  indexParams _ := .error []
  storeParams v := if v = storeParams then .ok ⟨question, "foo is bar".toList⟩ else .error []
  symbolsParams _ := .error []
  pong := "\x7b\"pong\":true\x7d".toList

/-- The default configuration, and answers as their texts. -/
def sampleSetting : Setting Text where
  x := hashing
  engine := unit
  lance := Core.Sample.scan
  select _ _ _ _ := []
  cacheCfg := {}
  embedder := Core.Sample.bge
  statusJson _ _ _ _ := []
  answerJson a := match a with
    | .cached response _ => response
    | _ => []
  indexJson _ _ := []
  storedJson := "\x7b\"stored\":true\x7d".toList
  symbolsJson _ := []

/-- A handler at this time. -/
def atTime (now : ℤ) : Input := ⟨now, now, now, now, .error [], ⟨[], fun _ => .error []⟩, 0, none⟩

/-- One client stores. -/
def storing : List (Linear.Action Text Input Project) :=
  [.core (.line 0 storeLine), .core (.conn 0), .core (.conn 0), .core .take, .handle (atTime 100),
    .core (.conn 0), .core (.conn 0)]

/-- Another asks a minute later. -/
def asking : List (Linear.Action Text Input Project) :=
  [.core (.line 1 askLine), .core (.conn 1), .core (.conn 1), .core .take, .handle (atTime 160),
    .core (.conn 1), .core (.conn 1)]

def sampleStart : State Text Data Input Project := start ⟨Project.empty, KeyTable.empty⟩

def afterStoring : Option (State Text Data Input Project) :=
  run (stepIf (step twoRequests (handlers sampleSetting)) spares) storing sampleStart

def afterAsking : Option (State Text Data Input Project) :=
  afterStoring.bind (run (stepIf (step twoRequests (handlers sampleSetting)) spares) asking)

theorem proper_atTime {now : ℤ} (h : 100 ≤ now ∧ now ≤ 160) (hm : textOf msg = some question) :
    Proper sampleSetting 100 160 question msg (atTime now) := by
  refine ⟨h.2, h, h.2, fun q' hq' _ => ?_⟩
  rw [hm, Option.some.injEq] at hq'
  exact hq'.symm

theorem served_afterAsking : ∃ t, afterAsking = some t ∧ ∃ a',
    (t.core.conns 1).out[0]? = some (okResponse 2 (sampleSetting.answerJson (.cached a' .exact))) ∧
    (a' = "foo is bar".toList ∨
      ∃ ch input, .handled ch (.store ⟨question, a'⟩) input ∈ t.log.drop 0) := by
  have hs : afterStoring.map (fun s => ((s.core.conns 0).lines, (s.core.conns 0).out,
      (s.core.conns 1).lines)) =
      some ([storeLine], [okResponse 1 sampleSetting.storedJson], []) := by rfl
  have ht : afterAsking.map (fun t => ((t.core.conns 1).lines, (t.core.conns 1).out)) =
      some ([askLine], [okResponse 2 "foo is bar".toList]) := by rfl
  have hlog : afterAsking.map State.log = some
      [.handled (some (0, 0)) (.store ⟨question, "foo is bar".toList⟩) (atTime 100),
        .handled (some (1, 0)) (.query ⟨question, 5, 4000, false⟩) (atTime 160)] := by rfl
  obtain ⟨s, hs', hse⟩ := Option.map_eq_some_iff.mp hs
  obtain ⟨t, ht', hte⟩ := Option.map_eq_some_iff.mp ht
  obtain ⟨hs1, hs2, hs3⟩ : _ ∧ _ ∧ _ := by simpa only [Prod.mk.injEq] using hse
  obtain ⟨ht1, ht2⟩ := Prod.mk.inj hte
  rw [ht', Option.map_some, Option.some.injEq] at hlog
  have hrun : run (stepIf (step twoRequests (handlers sampleSetting)) spares) asking s = some t := by
    unfold afterAsking at ht'
    rw [hs', Option.bind_some] at ht'
    exact ht'
  have hstart : Reaches (step twoRequests (handlers sampleSetting)) (fun s a => spares s a = true)
      sampleStart sampleStart := .refl
  have hperiod : Period sampleSetting.cacheCfg 100 160 := ⟨by decide, by decide, by decide⟩
  have hproper : AllProper sampleSetting 100 160 question (t.log.drop sampleStart.log.length) := by
    intro ch msg i he
    rw [hlog, show sampleStart.log.length = 0 from rfl, List.drop_zero] at he
    simp only [List.mem_cons, List.not_mem_nil, or_false, Entry.handled.injEq] at he
    rcases he with ⟨-, rfl, rfl⟩ | ⟨-, rfl, rfl⟩
    · exact proper_atTime (by decide) rfl
    · exact proper_atTime (by decide) rfl
  have hstore : Served twoRequests sampleStart s 0 0 1 (.store ⟨question, "foo is bar".toList⟩)
      (okResponse 1 sampleSetting.storedJson) :=
    ⟨Nat.le_refl 0, ⟨storeLine, by rw [hs1]; rfl, by rfl⟩, by rw [hs2]; rfl, rfl⟩
  have hquery : Served twoRequests s t 1 0 2 (.query ⟨question, 5, 4000, false⟩)
      (okResponse 2 "foo is bar".toList) :=
    ⟨by rw [hs3]; rfl, ⟨askLine, by rw [ht1]; rfl, by rfl⟩, by rw [ht2]; rfl, rfl⟩
  obtain ⟨a', ha, hor⟩ := served_of_reaches hstart (reaches_of_runIf hs') (reaches_of_runIf hrun)
    hperiod hproper hstore hquery rfl
  refine ⟨t, ht', a', ?_, hor⟩
  rw [ht2, ← ha]
  rfl

end BrainEngine.Daemon.ReadBack
