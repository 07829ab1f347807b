import BrainEngine.Index.ChunkIds
import BrainEngine.Passes.Stages
import BrainEngine.Core.Sample

/-! # A full reindex that fails

Before the first batch both parties set every mark to `NULL` and drop the table. `after_rebuild` says
which state a full reindex has reached when it stops; `unharmed_iff` says when that state still has the
vectors and the marks from before the run. -/

namespace BrainEngine.Passes.Rebuild

open BrainEngine.Rust.Str BrainEngine.Lib.Atomic BrainEngine.Lib.Atomic.Prog
open BrainEngine.Core.External BrainEngine.Core.Database BrainEngine.Core.Index BrainEngine.Core.Docs
open BrainEngine.Core.Vectors BrainEngine.Core.Embedding BrainEngine.Core.Passes
open BrainEngine.Core.Sample BrainEngine.Index.Runs BrainEngine.Index.ChunkIds
open BrainEngine.Passes.Loop BrainEngine.Passes.Stages

variable {x : Extern} {e : Embedder} {p : Party} {r : Request} {s t u : Project} {db : Db} {n : ℕ}
variable {q : Prog Op Unit}

/-- The vectors and the marks of `t` are those of `s`. -/
structure Unharmed (s t : Project) : Prop where
  rows : rows t.vs = rows s.vs
  marks : marks t.db = marks s.db

/-- The steps of a pass before its reindex branch: the index transaction, and the two statements with
which the CLI reads the pin if no reindex is asked for. -/
def decisionSteps : Party → Bool → ℕ
  | .cli, false => 3
  | _, _ => 1

/-- The step of the reindex that drops the table. -/
def dropStep : Party → ℕ
  | .cli => 4
  | .daemon => 2

/-- The steps of the reindex before its first batch. -/
def loopStep : Party → ℕ
  | .cli => 8
  | .daemon => 7

/-- The steps of the reindex before it writes the pin. -/
def pinStep : Party → ℕ
  | .cli => 1
  | .daemon => 2

/-- The pin after `m` of its two statements. -/
def pinWritten (e : Embedder) (m : ℕ) (db : Db) : Db :=
  if m = 0 then db else if m = 1 then setMeta db modelIdKey e.modelId else pinned e db

/-- The vectors of the first `k` batches of `chunks` and the marks of the first `j` chunks, and nothing
else. -/
structure Holds (e : Embedder) (chunks : List PendingChunk) (k j : ℕ) (s : Project) : Prop where
  rows : rows s.vs = newRows e ((Rust.Slice.chunks batchSize chunks).take k)
  marks : marks s.db = (chunks.take j).map PendingChunk.mark

/-- Before the first batch is stored there is nothing. -/
theorem holds_unstored {chunks : List PendingChunk} {i : ℕ} (hi : i < 2) :
    Holds e chunks (storedBatches batchSize i) (markedChunks batchSize i) s ↔
      rows s.vs = [] ∧ marks s.db = [] := by
  have hsize : i < batchSize + 2 := by omega
  have hj : i - 2 = 0 := by omega
  rw [storedBatches_lt hsize, markedChunks_lt hsize, if_neg (by omega), hj]
  exact ⟨fun h => ⟨h.rows, h.marks⟩, fun h => ⟨h.1, h.2⟩⟩

theorem Holds.unharmed {chunks : List PendingChunk} {k j : ℕ} (h : Holds e chunks k j t) :
    Unharmed s t ↔ Holds e chunks k j s := by
  constructor
  · exact fun hu => ⟨hu.rows ▸ h.rows, hu.marks ▸ h.marks⟩
  · exact fun hs => ⟨h.rows.trans hs.rows.symm, h.marks.trans hs.marks.symm⟩

theorem unharmed_of_vs (h : t.vs = s.vs) : Unharmed s t ↔ marks t.db = marks s.db :=
  ⟨fun hu => hu.marks, fun hm => ⟨by rw [h], hm⟩⟩

/-- The state after `m` steps of a full reindex from `s`. -/
structure Rebuilding (p : Party) (e : Embedder) (m : ℕ) (s t : Project) : Prop where
  start : m = 0 → t = s
  unmarked : 0 < m → m < dropStep p → t.vs = s.vs ∧ marks t.db = []
  dropped : dropStep p ≤ m → Holds e (getPendingChunks (clearMarks s.db))
    (storedBatches batchSize (m - loopStep p)) (markedChunks batchSize (m - loopStep p)) t
  pin : t.db.metaTable = (pinWritten e (m - pinStep p) s.db).metaTable

/-- Which steps of a reindex from `u` leave the vectors and the marks of `s`, whose vectors `u` still
has. -/
theorem Rebuilding.unharmed {m : ℕ} (h : Rebuilding p e m u t) (hvs : u.vs = s.vs) : Unharmed s t ↔
    m = 0 ∧ marks u.db = marks s.db ∨
    0 < m ∧ m < dropStep p ∧ marks s.db = [] ∨
    dropStep p ≤ m ∧ m < loopStep p + 2 ∧ rows s.vs = [] ∧ marks s.db = [] ∨
    loopStep p + 2 ≤ m ∧ Holds e (getPendingChunks (clearMarks u.db))
      (storedBatches batchSize (m - loopStep p)) (markedChunks batchSize (m - loopStep p)) s := by
  have hpos : 0 < dropStep p := by cases p <;> decide
  have hloop : dropStep p ≤ loopStep p := by cases p <;> decide
  rcases Nat.eq_zero_or_pos m with h0 | h0
  · rw [h.start h0, unharmed_of_vs hvs]
    simp [h0, hpos.ne']
  have hne : m ≠ 0 := by omega
  rcases Nat.lt_or_ge m (dropStep p) with hd | hd
  · obtain ⟨ht, hmarks⟩ := h.unmarked h0 hd
    have hnd : ¬dropStep p ≤ m := by omega
    have hnl : ¬loopStep p + 2 ≤ m := by omega
    rw [unharmed_of_vs (ht.trans hvs), hmarks, eq_comm]
    simp [h0, hne, hd, hnd, hnl]
  rw [(h.dropped hd).unharmed]
  have hnd : ¬m < dropStep p := by omega
  rcases Nat.lt_or_ge m (loopStep p + 2) with hl | hl
  · have hnl : ¬loopStep p + 2 ≤ m := by omega
    rw [holds_unstored (by omega)]
    simp [hne, hd, hnd, hl, hnl]
  · have hnl : ¬m < loopStep p + 2 := by omega
    simp [hne, hnd, hl, hnl]

theorem rebuilding_of_wrote {m : ℕ} (hm : loopStep p ≤ m)
    (h : Wrote e (progress (batches (clearMarks s.db)) (m - loopStep p)).1
      (progress (batches (clearMarks s.db)) (m - loopStep p)).2 ⟨pinned e (clearMarks s.db), none⟩ t) :
    Rebuilding p e m s t := by
  have hd : dropStep p < loopStep p := by cases p <;> decide
  have hp : pinStep p + 2 ≤ loopStep p := by cases p <;> decide
  rw [batches, progress_chunks (by decide)] at h
  refine ⟨fun h0 => by omega, fun _ h1 => by omega, fun _ => ⟨h.rows, ?_⟩, ?_⟩
  · rw [h.db]
    exact marks_markAll (marks_clearMarks s.db) (List.take_sublist _ _)
  · have h0 : m - pinStep p ≠ 0 := by omega
    have h1 : m - pinStep p ≠ 1 := by omega
    rw [h.metaTable, pinWritten, if_neg h0, if_neg h1]
    rfl

theorem rebuilding_dropped {m : ℕ} (h1 : dropStep p ≤ m) (h2 : m ≤ loopStep p)
    (hv : rows t.vs = []) (hd : t.db.chunks = (clearMarks s.db).chunks)
    (hp : t.db.metaTable = (pinWritten e (m - pinStep p) s.db).metaTable) :
    Rebuilding p e m s t := by
  have hpos : 0 < dropStep p := by cases p <;> decide
  refine ⟨fun h => by omega, fun _ h => by omega, fun _ => ?_, hp⟩
  exact (holds_unstored (by omega)).mpr ⟨hv, (marks_congr hd).trans (marks_clearMarks s.db)⟩

theorem rebuilding_unmarked {m : ℕ} (h1 : 0 < m) (h2 : m < dropStep p) (hv : t.vs = s.vs)
    (hd : t.db.chunks = (clearMarks s.db).chunks)
    (hp : t.db.metaTable = (pinWritten e (m - pinStep p) s.db).metaTable) :
    Rebuilding p e m s t :=
  ⟨fun h => by omega, fun _ _ => ⟨hv, (marks_congr hd).trans (marks_clearMarks s.db)⟩,
    fun h => by omega, hp⟩

theorem rebuilding_zero : Rebuilding p e 0 s s := by
  have hpos : 0 < dropStep p := by cases p <;> decide
  exact ⟨fun _ => rfl, fun h => by omega, fun h => by omega, by rw [Nat.zero_sub]; rfl⟩

/-- A program that changes nothing. -/
def Reads {α : Type} (x : Extern) (k : Prog Op α) : Prop :=
  ∀ u, wp (exec x) (fun v => v = u) k (fun _ v => v = u) u

section
variable {α : Type} {m : ℕ} {q : Prog Op α}

theorem after_rebuildCli {k : EmbedStats × ℕ → Prog Op α} (hk : ∀ a, Reads x (k a))
    (h : after (exec x) m ((resetVectors e >>= fun _ => pruneAndEmbed e) >>= k) s = some (q, t)) :
    Rebuilding .cli e m s t := by
  rcases after_op_of_ok (exec x) rfl h with ⟨rfl, rfl⟩ | ⟨m, rfl, h1⟩
  · exact rebuilding_zero
  rcases after_op_of_ok (exec x) rfl h1 with ⟨rfl, rfl⟩ | ⟨m, rfl, h2⟩
  · exact rebuilding_unmarked (by decide) (by decide) rfl rfl rfl
  rcases after_op_of_ok (exec x) rfl h2 with ⟨rfl, rfl⟩ | ⟨m, rfl, h3⟩
  · exact rebuilding_unmarked (by decide) (by decide) rfl rfl rfl
  rcases after_op_of_ok (exec x) rfl h3 with ⟨rfl, rfl⟩ | ⟨m, rfl, h4⟩
  · exact rebuilding_unmarked (by decide) (by decide) rfl rfl rfl
  -- the table is gone; pruning finds nothing to delete
  rcases after_op_of_ok (exec x) rfl h4 with ⟨rfl, rfl⟩ | ⟨m, rfl, h5⟩
  · exact rebuilding_dropped (by decide) (by decide) rfl rfl rfl
  rcases after_op_of_ok (exec x) rfl h5 with ⟨rfl, rfl⟩ | ⟨m, rfl, h6⟩
  · exact rebuilding_dropped (by decide) (by decide) rfl rfl rfl
  rcases after_op_of_ok (exec x) rfl h6 with ⟨rfl, rfl⟩ | ⟨m, rfl, h7⟩
  · exact rebuilding_dropped (by decide) (by decide) rfl rfl rfl
  rcases after_op_of_ok (exec x) rfl h7 with ⟨rfl, rfl⟩ | ⟨m, rfl, h8⟩
  · exact rebuilding_dropped (by decide) (by decide) rfl rfl rfl
  refine rebuilding_of_wrote (Nat.le_add_left _ _) ?_
  have hm : m + 1 + 1 + 1 + 1 + 1 + 1 + 1 + 1 - loopStep .cli = m := by simp [loopStep]
  have hread : ∀ stats, Reads x (op .countVectors fun total => k (stats, total)) := by
    intro stats u n v hv
    cases hv
    exact ⟨rfl, hk _ _⟩
  have h8 : after (exec x) m ((if (getPendingChunks (clearMarks s.db)).isEmpty = true then ret _ else
    embedBatches e (getPendingChunks (clearMarks s.db)) >>= fun _ => ret _) >>= (fun stats =>
      op .countVectors fun total => ret (stats, total)) >>= k) ⟨pinned e (clearMarks s.db), none⟩ =
    some (q, t) := h8
  rw [Prog.bind_assoc] at h8
  have h8 : after (exec x) m ((if (getPendingChunks (clearMarks s.db)).isEmpty = true then ret _ else
    embedBatches e (getPendingChunks (clearMarks s.db)) >>= fun _ => ret _) >>= fun stats =>
      op .countVectors fun total => k (stats, total)) ⟨pinned e (clearMarks s.db), none⟩ =
    some (q, t) := h8
  rw [hm]
  split_ifs at h8 with hnil
  · have hb : batches (clearMarks s.db) = [] := by
      unfold batches
      rw [List.isEmpty_iff.mp hnil]
      rfl
    rw [hb, (wp_after (hread _ _) rfl h8).1]
    exact Wrote.refl _
  · rw [Prog.bind_assoc] at h8
    exact after_embedBatches_bind (fun _ => hread _) h8

theorem after_rebuildDaemon {k : ℕ → Prog Op α} (hk : ∀ a, Reads x (k a))
    (h : after (exec x) m ((resetVectorsDaemon e >>= fun _ => pruneOrphans >>= fun _ =>
      embedPendingDaemon e) >>= k) s = some (q, t)) : Rebuilding .daemon e m s t := by
  rcases after_op_of_ok (exec x) rfl h with ⟨rfl, rfl⟩ | ⟨m, rfl, h1⟩
  · exact rebuilding_zero
  rcases after_op_of_ok (exec x) rfl h1 with ⟨rfl, rfl⟩ | ⟨m, rfl, h2⟩
  · exact rebuilding_unmarked (by decide) (by decide) rfl rfl rfl
  rcases after_op_of_ok (exec x) rfl h2 with ⟨rfl, rfl⟩ | ⟨m, rfl, h3⟩
  · exact rebuilding_dropped (by decide) (by decide) rfl rfl rfl
  rcases after_op_of_ok (exec x) rfl h3 with ⟨rfl, rfl⟩ | ⟨m, rfl, h4⟩
  · exact rebuilding_dropped (by decide) (by decide) rfl rfl rfl
  rcases after_op_of_ok (exec x) rfl h4 with ⟨rfl, rfl⟩ | ⟨m, rfl, h5⟩
  · exact rebuilding_dropped (by decide) (by decide) rfl rfl rfl
  rcases after_op_of_ok (exec x) rfl h5 with ⟨rfl, rfl⟩ | ⟨m, rfl, h6⟩
  · exact rebuilding_dropped (by decide) (by decide) rfl rfl rfl
  rcases after_op_of_ok (exec x) rfl h6 with ⟨rfl, rfl⟩ | ⟨m, rfl, h7⟩
  · exact rebuilding_dropped (by decide) (by decide) rfl rfl rfl
  refine rebuilding_of_wrote (Nat.le_add_left _ _) ?_
  have hm : m + 1 + 1 + 1 + 1 + 1 + 1 + 1 - loopStep .daemon = m := by simp [loopStep]
  have h7 : after (exec x) m ((embedBatches e (getPendingChunks (clearMarks s.db)) >>= fun _ =>
    ret _) >>= k) ⟨pinned e (clearMarks s.db), none⟩ = some (q, t) := h7
  rw [Prog.bind_assoc] at h7
  rw [hm]
  exact after_embedBatches_bind (fun _ => hk _) h7

end

/-- The first step is the index transaction. -/
theorem index_of_after (h : after (exec x) (n + 1) (pass p r e) s = some (q, t)) :
    ∃ stats u k, exec x _ (.indexProject r.tree r.cfg r.now) s = .ok (stats, u) ∧
      after (exec x) n k u = some (q, t) := by
  cases p with
  | cli =>
    obtain ⟨stats, u, hu, h⟩ := (after_op (exec x)).mp h
    exact ⟨stats, u, _, hu, h⟩
  | daemon =>
    obtain ⟨stats, u, hu, h⟩ := (after_op (exec x)).mp h
    exact ⟨stats, u, _, hu, h⟩

/-- **Where the steps of a pass with a full reindex lead**; `u` is the state after the index
transaction. -/
theorem after_rebuild {stats : IndexStats}
    (ho : exec x _ (.indexProject r.tree r.cfg r.now) s = .ok (stats, u))
    (hne : r.noEmbed = false) (hfull : full p r.reindex e u.db = true)
    (h : after (exec x) (n + 1) (pass p r e) s = some (q, t)) :
    Rebuilding p e (n + 1 - decisionSteps p r.reindex) u t := by
  cases p with
  | cli =>
    obtain ⟨h0, -⟩ | ⟨m, hm, h1⟩ := after_op_of_ok (exec x) ho h
    · omega
    obtain rfl := Nat.succ.inj hm
    have h1 : after (exec x) n ((if r.noEmbed = true then ret _ else embedStage r.reindex e >>=
      fun st => ret (stats, some st)) >>= fun _ => ret ()) u = some (q, t) := h1
    rw [hne, if_neg Bool.false_ne_true, Prog.bind_assoc] at h1
    cases hre : r.reindex with
    | true =>
      rw [hre] at h1
      exact after_rebuildCli (k := fun _ => ret ()) (fun _ _ => rfl) h1
    | false =>
      rw [hre] at h1 hfull
      have h1 : after (exec x) n (needFullReindex false e >>= fun b => ((if b = true then resetVectors e
        else setModelPinIfAbsent e) >>= fun _ => pruneAndEmbed e) >>= fun _ => ret ()) u =
          some (q, t) := h1
      rcases after_needFullReindex h1 with ⟨hn, rfl⟩ | ⟨n, rfl, h3⟩
      · have hstart : n + 1 - decisionSteps .cli false = 0 := by
          simp only [decisionSteps]
          omega
        rw [hstart]
        exact rebuilding_zero
      rw [hfull, if_pos rfl] at h3
      exact after_rebuildCli (k := fun _ => ret ()) (fun _ _ => rfl) h3
  | daemon =>
    obtain ⟨h0, -⟩ | ⟨m, hm, h1⟩ := after_op_of_ok (exec x) ho h
    · omega
    obtain rfl := Nat.succ.inj hm
    have hre : r.reindex = true := by
      unfold full at hfull
      simpa using hfull
    have h1 : after (exec x) n ((if r.noEmbed = true then ret _ else embedStageDaemon r.reindex e >>=
      fun m => ret (stats, m)) >>= fun _ => ret ()) u = some (q, t) := h1
    rw [hne, if_neg Bool.false_ne_true, Prog.bind_assoc, hre] at h1
    exact after_rebuildDaemon (k := fun _ => ret ()) (fun _ _ => rfl) h1

/-- The chunks that a full reindex embeds: all of the indexed directory. -/
def chunksToEmbed (x : Extern) (r : Request) (s : Project) : List PendingChunk :=
  getPendingChunks (clearMarks (runIndex x r.tree r.cfg r.now s.db))

/-- When a full reindex that stops after `n` steps spares the vectors and the marks of `s`: it has not
begun; it has only indexed, and rewritten or removed no file with a marked chunk; the table still
stands, and no chunk was marked; the table is gone and no batch is stored, and there was neither a
vector nor a mark; or `s` was left so by a reindex of the same chunks that had stopped there before. -/
def Spared (p : Party) (x : Extern) (r : Request) (e : Embedder) (s : Project) (n : ℕ) : Prop :=
  let m := n - decisionSteps p r.reindex
  n = 0 ∨
    m = 0 ∧ MarksStay (plan x r.tree r.cfg s.db) s.db ∨
    0 < m ∧ m < dropStep p ∧ marks s.db = [] ∨
    dropStep p ≤ m ∧ m < loopStep p + 2 ∧ rows s.vs = [] ∧ marks s.db = [] ∨
    loopStep p + 2 ≤ m ∧ Holds e (chunksToEmbed x r s)
      (storedBatches batchSize (m - loopStep p)) (markedChunks batchSize (m - loopStep p)) s

/-- **A full reindex that stops harms the vectors or the marks, unless there is nothing to harm.** The
pass stops after any of its steps. -/
theorem unharmed_iff (hwf : WellFormed s.db) (hne : r.noEmbed = false)
    (hfull : full p r.reindex e s.db = true)
    (h : after (exec x) n (pass p r e) s = some (q, t)) : Unharmed s t ↔ Spared p x r e s n := by
  unfold Spared
  cases n with
  | zero =>
    simp only [after_zero, Option.some.injEq, Prod.mk.injEq] at h
    rw [unharmed_of_vs (by rw [h.2]), h.2]
    simp
  | succ n =>
    obtain ⟨stats, u, -, ho, -⟩ := index_of_after h
    obtain ⟨db, hi, rfl⟩ := exec_indexProject ho
    have hdb : runIndex x r.tree r.cfg r.now s.db = db := by rw [runIndex, hi]
    have hreb := after_rebuild ho hne ((full_congr (metaTable_indexProject hi)).trans hfull) h
    have hmarks : marks db = marks s.db ↔ MarksStay (plan x r.tree r.cfg s.db) s.db := by
      rw [transaction_plan hi, marks_transaction_iff hwf]
    have hn : n + 1 ≠ 0 := by omega
    rw [hreb.unharmed (s := s) rfl, hmarks, chunksToEmbed, hdb]
    exact ⟨Or.inr, fun hs => hs.resolve_left hn⟩

/-- The embedder of the samples, out of reach. -/
def unreachable : Embedder := { bge with embed := fun _ => .error "connection refused".toList }

/-- A forced reindex of two files. -/
def forced (now : ℕ) : Request := { request aAndB now with reindex := true }

/-- Two vectors and the mark of the first chunk: a forced reindex has stopped in its first batch. -/
def interrupted : Project := stateAfter sample 12 (pass .cli (forced 2) bge) indexedOnce

/-- A forced reindex that stops where the one before it did. -/
theorem unharmed_interrupted : rows interrupted.vs ≠ [] ∧ marks interrupted.db ≠ [] ∧
    Unharmed interrupted (stateAfter sample 12 (pass .cli (forced 3) bge) interrupted) := by
  refine ⟨by decide, by decide, ?_⟩
  obtain ⟨q, hq⟩ := after_stateAfter (x := sample) (n := 12) (p := pass .cli (forced 3) bge)
    (s := interrupted) (by decide)
  refine (unharmed_iff ⟨by decide, ⟨by decide, by decide⟩⟩ rfl rfl hq).mpr ?_
  exact Or.inr (Or.inr (Or.inr (Or.inr ⟨by decide, by decide, by decide⟩)))

/-- **A forced reindex without an embedder** returns an error, and the vectors are gone. -/
theorem not_unharmed : ¬∀ p r e s f n q t, WellFormed s.db →
    eval (exec sample) (pass p r e) s = .error f → r.noEmbed = false →
    full p r.reindex e s.db = true → after (exec sample) n (pass p r e) s = some (q, t) →
    next (exec sample) q t = none → getPendingChunks t.db ≠ [] → Unharmed s t := by
  intro h
  let cliPass := pass .cli (forced 2) unreachable
  have hfail : eval (exec sample) cliPass indexedOnce =
    .error (.error (.embed "connection refused".toList)) := rfl
  obtain ⟨q, hq⟩ := after_stateAfter (x := sample) (n := 9) (p := cliPass) (s := indexedOnce)
    (by decide)
  have hnext : next (exec sample) q (stateAfter sample 9 cliPass indexedOnce) = none := by
    rw [← after_succ (exec sample) hq]
    rfl
  have hu := h _ _ _ _ _ _ _ _ ⟨by decide, ⟨by decide, by decide⟩⟩ hfail rfl rfl hq hnext (by decide)
  exact absurd hu.rows (by decide)

end BrainEngine.Passes.Rebuild
