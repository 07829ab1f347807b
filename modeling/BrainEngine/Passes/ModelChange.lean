import BrainEngine.Index.ChunkIds
import BrainEngine.Passes.Rebuild
import BrainEngine.Passes.Counts

/-! # A model change that fails

The CLI notices a model change only by the pin, and writes the pin before it drops the table. So when
it stops in between, the next run finds its own pin and keeps the old vectors of the chunks that are
still in the table. `noneOf_iff` says when the next run gets rid of them. -/

namespace BrainEngine.Passes.ModelChange

open BrainEngine.Lib.Atomic BrainEngine.Lib.Atomic.Prog BrainEngine.Core.External
open BrainEngine.Core.Database BrainEngine.Core.Index BrainEngine.Core.Vectors
open BrainEngine.Core.Embedding BrainEngine.Core.Passes BrainEngine.Core.Sample
open BrainEngine.Index.ChunkIds
open BrainEngine.Passes.Loop BrainEngine.Passes.Stages BrainEngine.Passes.Counts
open BrainEngine.Passes.Rebuild

variable {x : Extern} {e e' : Embedder} {r r' : Request} {s t u v : Project} {old : ModelPin} {n : ℕ}

/-- No vector of the model is in the store. -/
def NoneOf (model : ModelPin) (vs : VectorStore) : Prop := ∀ row ∈ rows vs, row.producer ≠ model

/-- **What an embedding pass leaves of the old vectors**: none if it rebuilds, and otherwise those of
the chunks in the table. -/
theorem noneOf_embeds {p : Party} {reindex : Bool} (hne : e.pin ≠ old)
    (h : Embeds e (prepared p reindex e s) t) : NoneOf old t.vs ↔ full p reindex e s.db = true ∨
      ∀ row ∈ rows s.vs, row.producer = old → row.chunkId ∉ s.db.chunks.ids := by
  have hrows := h.rows
  have hkept : ∀ row, row ∈ rows (pruned (prepared p reindex e s)).vs ↔
      row ∈ rows (prepared p reindex e s).vs ∧ row.chunkId ∈ (prepared p reindex e s).db.chunks.ids :=
    fun row => mem_deleteOrphans
  have hnone : NoneOf old t.vs ↔ NoneOf old (pruned (prepared p reindex e s)).vs := by
    unfold NoneOf
    rw [hrows]
    constructor
    · exact fun ho row hr => ho row (List.mem_append_left _ hr)
    · intro ho row hr
      rcases List.mem_append.mp hr with hr | hr
      · exact ho row hr
      · rw [producer_newRows hr]
        exact hne
  rw [hnone]
  unfold NoneOf
  cases hfull : full p reindex e s.db with
  | true =>
    refine iff_of_true (fun row hr => ?_) (Or.inl rfl)
    rw [hkept, prepared_full hfull] at hr
    exact absurd hr.1 List.not_mem_nil
  | false =>
    obtain ⟨hchunks, hvs⟩ := prepared_not_full hfull
    simp only [hkept, hchunks, hvs, Bool.false_eq_true, false_or]
    constructor
    · exact fun ho row hr hp hid => ho row ⟨hr, hid⟩ hp
    · exact fun ho row hr hp => ho row hr.1 hp hr.2

/-! ### The stopped run -/

theorem pinOf_pinWritten {db : Db} (hpin : pinOf db = some old) (m : ℕ) :
    pinOf (pinWritten e m db) =
      if m = 0 then some old else if m = 1 then some ⟨e.modelId, old.dim⟩ else some e.pin := by
  unfold pinWritten
  split_ifs
  · exact hpin
  · unfold pinOf at hpin ⊢
    obtain ⟨pm, hpm, hpin⟩ := Option.bind_eq_some_iff.mp hpin
    obtain ⟨pd, hpd, rfl⟩ := Option.map_eq_some_iff.mp hpin
    rw [getMeta_dimKey, getMeta_setMeta, if_pos rfl, hpd]
    rfl
  · exact pinOf_pinned _ _

/-- The next run notices the change by the pin if at most the first statement of the reindex has been
done, or if the second has and the dimension changes with the model. -/
def Noticed (old : ModelPin) (e : Embedder) (m : ℕ) : Prop := m ≤ 1 ∨ m = 2 ∧ old.dim ≠ e.dim

theorem noticed_iff (hpin : pinOf s.db = some old) (hne : e.pin ≠ old) {m : ℕ}
    (h : Rebuilding .cli e m s t) :
    (∃ pin, pinOf t.db = some pin ∧ pin ≠ e.pin) ↔ Noticed old e m := by
  have ht : pinOf t.db = pinOf (pinWritten e (m - 1) s.db) := pinOf_congr h.pin
  rw [ht, pinOf_pinWritten hpin]
  unfold Noticed
  split_ifs with h0 h1
  · have hm : m ≤ 1 := by omega
    simp [hm, hne.symm]
  · have hm : ¬m ≤ 1 := by omega
    have hm2 : m = 2 := by omega
    simp [hm2, Embedder.pin]
  · have hm : ¬m ≤ 1 := by omega
    have hm2 : m ≠ 2 := by omega
    simp [hm, hm2]

/-- Before the table is dropped it has its old rows, afterwards only new ones. -/
theorem rows_rebuilding {m : ℕ} (h : Rebuilding .cli e m s t) (hne : e.pin ≠ old) :
    if m < 4 then t.vs = s.vs else NoneOf old t.vs := by
  split_ifs with hm
  · by_cases h0 : m = 0
    · rw [h.start h0]
    · exact (h.unmarked (Nat.pos_of_ne_zero h0) hm).1
  · intro row hr
    rw [(h.dropped (Nat.le_of_not_lt hm)).rows] at hr
    rw [producer_newRows hr]
    exact hne

/-! ### The next run -/

/-- The index step of a request leaves no chunk with a vector of the model. -/
def IndexRemoves (x : Extern) (r : Request) (s : Project) (model : ModelPin) : Prop :=
  ∀ db stats, indexProject x r.tree r.cfg r.now s.db = .ok (db, stats) →
    ∀ row ∈ rows s.vs, row.producer = model → row.chunkId ∉ db.chunks.ids

theorem indexRemoves_iff {db : Db} {stats : IndexStats} {model : ModelPin}
    (hi : indexProject x r.tree r.cfg r.now s.db = .ok (db, stats)) : IndexRemoves x r s model ↔
      ∀ row ∈ rows s.vs, row.producer = model → row.chunkId ∉ db.chunks.ids := by
  constructor
  · exact fun ho => ho db stats hi
  · intro ho db' stats' hi'
    rw [hi] at hi'
    obtain ⟨rfl, rfl⟩ := Prod.mk.inj (Except.ok.inj hi')
    exact ho

theorem indexRemoves_of_dropped {m : ℕ} (h : Rebuilding .cli e m s t) (hne : e.pin ≠ old) (hm : 4 ≤ m) :
    IndexRemoves x r t old := by
  have hrows := rows_rebuilding h hne
  rw [if_neg (by omega)] at hrows
  exact fun _ _ _ row hr hp => absurd hp (hrows row hr)

/-- **A model change that fails is made up for by the next run, exactly if** it failed before the pin
was written, or after the table was dropped, or between the two with nothing old to keep. -/
theorem noneOf_iff {q₁ q : Prog Op Unit} (hne : e.pin ≠ old) (he : e'.pin = e.pin)
    (h₁ : after (exec x) 1 (pass .cli r e) s = some (q₁, u)) (hpin : pinOf u.db = some old)
    (hem : r.noEmbed = false) (h : after (exec x) (n + 1) (pass .cli r e) s = some (q, t))
    (hem' : r'.noEmbed = false) (hr : eval (exec x) (pass .cli r' e') t = .ok ((), v)) :
    NoneOf old v.vs ↔ Noticed old e (n + 1 - decisionSteps .cli r.reindex) ∨
      4 ≤ n + 1 - decisionSteps .cli r.reindex ∨ r'.reindex = true ∨ IndexRemoves x r' t old := by
  have hfull : full .cli r.reindex e u.db = true :=
    full_cli_iff.mpr (Or.inr ⟨old, hpin, hne.symm⟩)
  obtain ⟨stats₁, u', k, ho, hu⟩ := index_of_after h₁
  obtain ⟨-, rfl⟩ := Prod.mk.inj (Option.some.inj hu)
  have hreb := after_rebuild ho hem hfull h
  generalize n + 1 - decisionSteps .cli r.reindex = m at hreb ⊢
  obtain ⟨db, stats, hi, ⟨hem'', -⟩ | ⟨-, hemb⟩⟩ := eval_pass hr
  · simp [hem'] at hem''
  have hmeta : full .cli r'.reindex e' db = full .cli r'.reindex e' t.db :=
    full_congr (metaTable_indexProject hi)
  have hnoticed := noticed_iff hpin hne hreb
  rw [← he] at hnoticed
  rw [noneOf_embeds (by rw [he]; exact hne) hemb]
  have hdecide : full .cli r'.reindex e' db = true ↔ r'.reindex = true ∨ Noticed old e m := by
    rw [hmeta, full_cli_iff, hnoticed]
  show full .cli r'.reindex e' db = true ∨ _ ↔ _
  rw [hdecide, ← indexRemoves_iff hi]
  constructor
  · rintro ((h1 | h1) | h1)
    · exact Or.inr (Or.inr (Or.inl h1))
    · exact Or.inl h1
    · exact Or.inr (Or.inr (Or.inr h1))
  · rintro (h1 | h1 | h1 | h1)
    · exact Or.inl (Or.inr h1)
    · exact Or.inr (indexRemoves_of_dropped hreb hne h1)
    · exact Or.inl (Or.inl h1)
    · exact Or.inr h1

/-- A run with the new model, and the state where it stops after `n` steps. -/
def stopped (n : ℕ) : Project := stateAfter sample n (pass .cli (request aAndB 2) nomic) indexedOnce

/-- Stopped after the first statement, and run again. -/
theorem noneOf_noticed :
    NoneOf bge.pin (stateEval sample (pass .cli (request aAndB 3) nomic) (stopped 4)).vs := by
  obtain ⟨q₁, h₁⟩ := after_stateAfter (x := sample) (n := 1)
    (p := pass .cli (request aAndB 2) nomic) (s := indexedOnce) (by decide)
  obtain ⟨q, hq⟩ := after_stateAfter (x := sample) (n := 4)
    (p := pass .cli (request aAndB 2) nomic) (s := indexedOnce) (by decide)
  have hr := eval_stateEval (x := sample) (p := pass .cli (request aAndB 3) nomic) (s := stopped 4)
    (by decide)
  exact (noneOf_iff (n := 3) (by decide) rfl h₁ (by decide) rfl hq rfl hr).mpr
    (Or.inl (Or.inl (by decide)))

/-- **Stopped after the pin was written**, the next run keeps the vectors of the old model. -/
theorem not_noneOf : ¬∀ old e e' r r' s q₁ u n q t v, e.pin ≠ old → e'.pin = e.pin →
    after (exec sample) 1 (pass .cli r e) s = some (q₁, u) → pinOf u.db = some old →
    r.noEmbed = false → after (exec sample) (n + 1) (pass .cli r e) s = some (q, t) →
    r'.noEmbed = false → eval (exec sample) (pass .cli r' e') t = .ok ((), v) →
    NoneOf old v.vs := by
  intro h
  obtain ⟨q₁, h₁⟩ := after_stateAfter (x := sample) (n := 1)
    (p := pass .cli (request aAndB 2) nomic) (s := indexedOnce) (by decide)
  obtain ⟨q, hq⟩ := after_stateAfter (x := sample) (n := 6)
    (p := pass .cli (request aAndB 2) nomic) (s := indexedOnce) (by decide)
  have hr := eval_stateEval (x := sample) (p := pass .cli (request aAndB 3) nomic) (s := stopped 6)
    (by decide)
  have hno := h bge.pin nomic nomic _ _ _ _ _ 5 _ _ _ (by decide) rfl h₁ (by decide) rfl hq rfl hr
  have hkept : ∃ row ∈ rows (stateEval sample (pass .cli (request aAndB 3) nomic) (stopped 6)).vs,
      row.producer = bge.pin := by decide
  obtain ⟨row, hr, hp⟩ := hkept
  exact hno row hr hp

end BrainEngine.Passes.ModelChange
