import BrainEngine.Passes.Loop

/-! # What a successful pass does

A pass is the index transaction; without `no_embed` it goes on with `prepared`, the state after the
reindex decision, prunes the orphans there and writes every pending chunk (`Embeds`). -/

namespace BrainEngine.Passes.Stages

open BrainEngine.Rust.Str BrainEngine.Lib.Atomic BrainEngine.Lib.Atomic.Prog BrainEngine.Core.External
open BrainEngine.Core.Database BrainEngine.Core.Index BrainEngine.Core.Vectors
open BrainEngine.Core.Embedding BrainEngine.Core.Passes BrainEngine.Passes.Loop

variable {x : Extern} {e : Embedder} {p : Party} {reindex : Bool} {s t : Project}

/-! ### The reindex decision -/

/-- The pin in the `meta` table, compared with the embedder. -/
def pinStatusOf (db : Db) (e : Embedder) : ModelPinStatus :=
  pinStatus (getMeta db modelIdKey) ((getMeta db dimKey).bind parseUsize) e

/-- Whether the vectors are rebuilt: on demand, and by the CLI when the pin names another model. -/
def full (p : Party) (reindex : Bool) (e : Embedder) (db : Db) : Bool :=
  reindex || match p, pinStatusOf db e with
    | .cli, .mismatch _ _ => true
    | _, _ => false

/-- The database with the pin of the embedder. -/
def pinned (e : Embedder) (db : Db) : Db :=
  setMeta (setMeta db modelIdKey e.modelId) dimKey (ofNat e.dim)

/-- The state after the reindex decision. -/
def prepared (p : Party) (reindex : Bool) (e : Embedder) (s : Project) : Project :=
  if full p reindex e s.db then ⟨pinned e (clearMarks s.db), none⟩
  else if p = .cli ∧ (getMeta s.db modelIdKey).isNone then { s with db := pinned e s.db }
  else s

theorem eval_resetVectors : eval (exec x) (resetVectors e) s =
    .ok ((), ⟨pinned e (clearMarks s.db), none⟩) := rfl

theorem eval_needFullReindex : eval (exec x) (needFullReindex reindex e) s =
    .ok (full .cli reindex e s.db, s) := by
  unfold needFullReindex full
  cases reindex with
  | true => rfl
  | false =>
    have hstatus : pinStatus (getMeta s.db modelIdKey) ((getMeta s.db dimKey).bind parseUsize) e =
        pinStatusOf s.db e := rfl
    show Except.ok (_, s) = _
    rw [hstatus]
    cases pinStatusOf s.db e with
    | absent => rfl
    | matched => rfl
    | mismatch pm pd => rfl

/-- The CLI reads the pin in two statements, and goes on with its decision. -/
theorem after_needFullReindex {α : Type} {k : Bool → Prog Op α} {n : ℕ} {q : Prog Op α}
    (h : after (exec x) n (needFullReindex false e >>= k) s = some (q, t)) :
    n < 2 ∧ t = s ∨ ∃ m, n = m + 2 ∧ after (exec x) m (k (full .cli false e s.db)) s = some (q, t) := by
  rcases after_op_of_ok (exec x) rfl h with ⟨rfl, rfl⟩ | ⟨n, rfl, h1⟩
  · exact Or.inl ⟨by omega, rfl⟩
  rcases after_op_of_ok (exec x) rfl h1 with ⟨rfl, rfl⟩ | ⟨n, rfl, h2⟩
  · exact Or.inl ⟨by omega, rfl⟩
  have key : ∀ b, eval (exec x) (needFullReindex false e) s = .ok (b, s) →
      after (exec x) n (k b) s = some (q, t) := by
    rintro b hb
    cases hb
    exact h2
  exact Or.inr ⟨n, rfl, key _ eval_needFullReindex⟩

theorem eval_setModelPinIfAbsent : eval (exec x) (setModelPinIfAbsent e) s =
    .ok ((), if (getMeta s.db modelIdKey).isNone then { s with db := pinned e s.db } else s) := by
  show eval (exec x) (if (getMeta s.db modelIdKey).isNone = true then setModelPin e else ret ()) s = _
  split_ifs
  · rfl
  · rfl

theorem eval_prepare : eval (exec x) (prepare reindex e) s = .ok ((), prepared .cli reindex e s) := by
  unfold prepare prepared
  rw [eval_bind]
  refine ⟨full .cli reindex e s.db, s, eval_needFullReindex, ?_⟩
  split_ifs with h1 h2
  · exact eval_resetVectors
  · rw [eval_setModelPinIfAbsent, if_pos h2.2]
  · rw [eval_setModelPinIfAbsent, if_neg (fun h => h2 ⟨rfl, h⟩)]

theorem eval_prepareDaemon : eval (exec x) (prepareDaemon reindex e) s =
    .ok ((), prepared .daemon reindex e s) := by
  cases reindex with
  | true => rfl
  | false => rfl

/-! ### Pruning and embedding -/

/-- The state after pruning. -/
def pruned (s : Project) : Project := { s with vs := deleteOrphans s.vs (getAllChunkIds s.db) }

/-- Every chunk that is pending in `s` has been written. -/
def Completes (e : Embedder) (s t : Project) : Prop :=
  Wrote e (Rust.Slice.chunks batchSize (getPendingChunks s.db)) (getPendingChunks s.db) s t

/-- The orphans have been pruned and every pending chunk has been written. -/
def Embeds (e : Embedder) (s t : Project) : Prop := Completes e (pruned s) t

theorem flatten_batches (ps : List PendingChunk) : (Rust.Slice.chunks batchSize ps).flatten = ps :=
  Rust.Slice.flatten_chunks (by decide) ps

theorem completes_of_batches {a : PUnit}
    (h : eval (exec x) (embedBatches e (getPendingChunks s.db)) s = .ok (a, t)) : Completes e s t := by
  have hw := eval_embedBatches h
  rw [flatten_batches] at hw
  exact hw

theorem completes_of_cli {a : EmbedStats}
    (h : eval (exec x) (embedPendingChunks e) s = .ok (a, t)) : Completes e s t := by
  have h : eval (exec x) (if (getPendingChunks s.db).isEmpty = true then ret _ else
    embedBatches e (getPendingChunks s.db) >>= fun _ => ret _) s = .ok (a, t) := h
  split_ifs at h with hnil
  · cases h
    unfold Completes
    rw [List.isEmpty_iff.mp hnil]
    exact Wrote.refl _
  · obtain ⟨b, w, hw, h⟩ := (eval_bind (exec x)).mp h
    cases h
    exact completes_of_batches hw

theorem completes_of_daemon {a : ℕ}
    (h : eval (exec x) (embedPendingDaemon e) s = .ok (a, t)) : Completes e s t := by
  have h : eval (exec x) (embedBatches e (getPendingChunks s.db) >>= fun _ => ret _) s =
    .ok (a, t) := h
  obtain ⟨b, w, hw, h⟩ := (eval_bind (exec x)).mp h
  cases h
  exact completes_of_batches hw

theorem embeds_of_pruneAndEmbed {a : EmbedStats × ℕ}
    (h : eval (exec x) (pruneAndEmbed e) s = .ok (a, t)) : Embeds e s t := by
  obtain ⟨_, u, hu, h⟩ := (eval_bind (exec x)).mp h
  cases hu
  obtain ⟨stats, v, hv, h⟩ := (eval_bind (exec x)).mp h
  cases h
  exact completes_of_cli hv

theorem embeds_of_daemon {a : ℕ}
    (h : eval (exec x) (pruneOrphans >>= fun _ => embedPendingDaemon e) s = .ok (a, t)) :
    Embeds e s t := by
  obtain ⟨_, u, hu, h⟩ := (eval_bind (exec x)).mp h
  cases hu
  exact completes_of_daemon h

theorem eval_index {r : Request} {stats : IndexStats} (h : eval (exec x)
    (perform (.indexProject r.tree r.cfg r.now)) s = .ok (stats, t)) :
    ∃ db, indexProject x r.tree r.cfg r.now s.db = .ok (db, stats) ∧ t = { s with db } := by
  obtain ⟨stats', u, hu, h⟩ := (eval_op (exec x)).mp h
  cases h
  exact exec_indexProject hu

theorem eval_run {r : Request} {a : IndexStats × Option (EmbedStats × ℕ)}
    (h : eval (exec x) (run r e) s = .ok (a, t)) :
    ∃ db stats, indexProject x r.tree r.cfg r.now s.db = .ok (db, stats) ∧
      (r.noEmbed = true ∧ t = { s with db } ∨
        r.noEmbed = false ∧ Embeds e (prepared .cli r.reindex e { s with db }) t) := by
  obtain ⟨stats, u, hu, h⟩ := (eval_bind (exec x)).mp h
  obtain ⟨db, hi, rfl⟩ := eval_index hu
  refine ⟨db, stats, hi, ?_⟩
  cases hn : r.noEmbed with
  | true =>
    rw [hn, if_pos rfl] at h
    cases h
    exact Or.inl ⟨rfl, rfl⟩
  | false =>
    rw [hn, if_neg Bool.false_ne_true] at h
    obtain ⟨b, u, hb, hu⟩ := (eval_bind (exec x)).mp h
    cases hu
    obtain ⟨_, v, hv, hb⟩ := (eval_bind (exec x)).mp hb
    rw [eval_prepare] at hv
    cases hv
    exact Or.inr ⟨rfl, embeds_of_pruneAndEmbed hb⟩

theorem eval_handleIndex {r : Request} {a : IndexStats × ℕ}
    (h : eval (exec x) (handleIndex r e) s = .ok (a, t)) :
    ∃ db stats, indexProject x r.tree r.cfg r.now s.db = .ok (db, stats) ∧
      (r.noEmbed = true ∧ t = { s with db } ∨
        r.noEmbed = false ∧ Embeds e (prepared .daemon r.reindex e { s with db }) t) := by
  obtain ⟨stats, u, hu, h⟩ := (eval_bind (exec x)).mp h
  obtain ⟨db, hi, rfl⟩ := eval_index hu
  refine ⟨db, stats, hi, ?_⟩
  cases hn : r.noEmbed with
  | true =>
    rw [hn, if_pos rfl] at h
    cases h
    exact Or.inl ⟨rfl, rfl⟩
  | false =>
    rw [hn, if_neg Bool.false_ne_true] at h
    obtain ⟨b, u, hb, hu⟩ := (eval_bind (exec x)).mp h
    cases hu
    obtain ⟨_, v, hv, hb⟩ := (eval_bind (exec x)).mp hb
    rw [eval_prepareDaemon] at hv
    cases hv
    exact Or.inr ⟨rfl, embeds_of_daemon hb⟩

/-- **A successful pass.** -/
theorem eval_pass {r : Request} {a : Unit} (h : eval (exec x) (pass p r e) s = .ok (a, t)) :
    ∃ db stats, indexProject x r.tree r.cfg r.now s.db = .ok (db, stats) ∧
      (r.noEmbed = true ∧ t = { s with db } ∨
        r.noEmbed = false ∧ Embeds e (prepared p r.reindex e { s with db }) t) := by
  cases p with
  | cli =>
    obtain ⟨b, u, hb, hu⟩ := (eval_bind (exec x)).mp h
    cases hu
    exact eval_run hb
  | daemon =>
    obtain ⟨b, u, hb, hu⟩ := (eval_bind (exec x)).mp h
    cases hu
    exact eval_handleIndex hb

/-- The states that sequences of successful passes reach, where `ok` says from which states with which
requests a pass may run. -/
inductive Passed (x : Extern) (ok : Project → Party → Request → Embedder → Prop) : Project → Prop
  | empty : Passed x ok Project.empty
  | pass {s t : Project} {p : Party} {r : Request} {e : Embedder} {a : Unit} (h : Passed x ok s)
    (hok : ok s p r e) (hr : eval (exec x) (pass p r e) s = .ok (a, t)) : Passed x ok t

/-! ### The pin -/

/-- The decision looks at the database only through the `meta` table. -/
theorem full_congr {db db' : Db} (h : db'.metaTable = db.metaTable) :
    full p reindex e db' = full p reindex e db := by
  unfold full pinStatusOf
  rw [getMeta_congr h, getMeta_congr h]

/-- The pin in the `meta` table. -/
def pinOf (db : Db) : Option ModelPin :=
  (getMeta db modelIdKey).bind fun m => ((getMeta db dimKey).bind parseUsize).map (ModelPin.mk m)

theorem pinOf_congr {db db' : Db} (h : db'.metaTable = db.metaTable) : pinOf db' = pinOf db := by
  unfold pinOf
  rw [getMeta_congr h, getMeta_congr h]

/-- The keys of the pin differ. -/
theorem getMeta_modelIdKey (db : Db) (value : Text) :
    getMeta (setMeta db dimKey value) modelIdKey = getMeta db modelIdKey := by
  rw [getMeta_setMeta, if_neg (by decide)]

theorem getMeta_dimKey (db : Db) (value : Text) :
    getMeta (setMeta db modelIdKey value) dimKey = getMeta db dimKey := by
  rw [getMeta_setMeta, if_neg (by decide)]

@[simp] theorem pinOf_pinned (e : Embedder) (db : Db) : pinOf (pinned e db) = some e.pin := by
  unfold pinOf pinned
  rw [getMeta_modelIdKey, getMeta_setMeta, getMeta_setMeta, if_pos rfl, if_pos rfl]
  simp only [Option.bind_some, parseUsize_ofNat e.dim_lt, Option.map_some]
  rfl

/-- The CLI rebuilds on demand, and when another model is pinned. -/
theorem full_cli_iff {db : Db} : full .cli reindex e db = true ↔
    reindex = true ∨ ∃ pin, pinOf db = some pin ∧ pin ≠ e.pin := by
  unfold full pinStatusOf pinStatus pinOf
  rcases getMeta db modelIdKey with _ | pm
  · simp
  rcases (getMeta db dimKey).bind parseUsize with _ | pd
  · simp
  by_cases h : pm = e.modelId ∧ pd = e.dim
  · simp [h, Embedder.pin]
  · have hne : (⟨pm, pd⟩ : ModelPin) ≠ e.pin := fun hp => h ⟨congrArg ModelPin.modelId hp,
      congrArg ModelPin.dim hp⟩
    simp [h, hne]

end BrainEngine.Passes.Stages
