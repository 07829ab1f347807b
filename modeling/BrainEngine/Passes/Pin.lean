import BrainEngine.Index.ChunkIds
import BrainEngine.Passes.Counts
import BrainEngine.Core.Sample

/-! # One embedding model per index

The CLI compares its embedder with the pin and rebuilds on a mismatch; the daemon writes the pin on a
reindex and otherwise does not look at it. So the daemon keeps the vectors and the pin together exactly
when the pin already names its embedder, or when it has nothing to embed. -/

namespace BrainEngine.Passes.Pin

open BrainEngine.Rust.Str BrainEngine.Lib.Atomic BrainEngine.Lib.Atomic.Prog BrainEngine.Lib.Outcome
open BrainEngine.Core.External
open BrainEngine.Core.Database BrainEngine.Core.Index BrainEngine.Core.Vectors
open BrainEngine.Core.Embedding BrainEngine.Core.Passes BrainEngine.Core.Sample
open BrainEngine.Index.ChunkIds
open BrainEngine.Passes.Loop BrainEngine.Passes.Stages BrainEngine.Passes.Counts

variable {x : Extern} {e : Embedder} {p : Party} {r : Request} {s t : Project}

/-- The two values of the pin in the `meta` table. -/
structure Names (db : Db) (model : ModelPin) : Prop where
  modelId : getMeta db modelIdKey = some model.modelId
  dim : getMeta db dimKey = some (ofNat model.dim)

/-- Every vector comes from the model that the pin names; so they all come from one. -/
def OneModel (s : Project) : Prop := ∀ row ∈ rows s.vs, Names s.db row.producer

/-- The pin is there as a whole or not at all. -/
def Whole (db : Db) : Prop := getMeta db modelIdKey = none ∨ ∃ e : Embedder, Names db e.pin

/-- The daemon writes no vector without the pin: it is asked not to embed or to reindex, the pin names
its embedder, or nothing is pending after its index step. -/
def KeepsPin (x : Extern) (s : Project) (p : Party) (r : Request) (e : Embedder) : Prop :=
  p = .cli ∨ r.noEmbed = true ∨ r.reindex = true ∨ Names s.db e.pin ∨
    ∀ db stats, indexProject x r.tree r.cfg r.now s.db = .ok (db, stats) → getPendingChunks db = []

/-! ### The pin -/

theorem names_congr {db db' : Db} {model : ModelPin} (h : db'.metaTable = db.metaTable) :
    Names db' model ↔ Names db model := by
  have h1 := getMeta_congr h modelIdKey
  have h2 := getMeta_congr h dimKey
  constructor
  · exact fun hn => ⟨h1.symm.trans hn.modelId, h2.symm.trans hn.dim⟩
  · exact fun hn => ⟨h1.trans hn.modelId, h2.trans hn.dim⟩

theorem names_pinned (e : Embedder) (db : Db) : Names (pinned e db) e.pin := by
  refine ⟨?_, ?_⟩
  · unfold pinned
    rw [getMeta_modelIdKey, getMeta_setMeta, if_pos rfl]
    rfl
  · unfold pinned
    rw [getMeta_setMeta, if_pos rfl]
    rfl

theorem pinOf_of_names {db : Db} (h : Names db e.pin) : pinOf db = some e.pin := by
  have hdim : e.pin.dim < 2 ^ 64 := e.dim_lt
  unfold pinOf
  rw [h.modelId, h.dim]
  simp only [Option.bind_some, parseUsize_ofNat hdim, Option.map_some]

/-! ### One pass -/

/-- What holds between passes. -/
structure Inv (s : Project) : Prop where
  whole : Whole s.db
  one : OneModel s

theorem inv_empty : Inv Project.empty :=
  ⟨Or.inl rfl, fun _ hr => absurd hr List.not_mem_nil⟩

theorem inv_index {db : Db} {stats : IndexStats}
    (hi : indexProject x r.tree r.cfg r.now s.db = .ok (db, stats)) (h : Inv s) :
    Inv { s with db } := by
  have hmeta := metaTable_indexProject hi
  refine ⟨?_, fun row hr => (names_congr hmeta).mpr (h.one row hr)⟩
  rcases h.whole with h0 | ⟨e, he⟩
  · exact Or.inl ((getMeta_congr hmeta _).trans h0)
  · exact Or.inr ⟨e, (names_congr hmeta).mpr he⟩

theorem inv_prepared_full {reindex : Bool} (hfull : full p reindex e s.db = true) :
    Inv (prepared p reindex e s) ∧ Names (prepared p reindex e s).db e.pin := by
  have hnames : Names (prepared p reindex e s).db e.pin := by
    unfold prepared
    rw [if_pos hfull]
    exact names_pinned _ _
  refine ⟨⟨Or.inr ⟨e, hnames⟩, fun row hr => ?_⟩, hnames⟩
  rw [prepared_full hfull] at hr
  exact absurd hr List.not_mem_nil

variable (e) in
/-- **The decision of the CLI** always leaves its own pin. -/
theorem inv_prepared_cli (reindex : Bool) (h : Inv s) :
    Inv (prepared .cli reindex e s) ∧ Names (prepared .cli reindex e s).db e.pin := by
  cases hfull : full .cli reindex e s.db with
  | true => exact inv_prepared_full hfull
  | false =>
    have hnot : ¬full .cli reindex e s.db = true := by simp [hfull]
    unfold prepared
    rw [if_neg hnot]
    split_ifs with habs
    · -- without a pin there is no vector yet
      have hnone : getMeta s.db modelIdKey = none := by simpa using habs.2
      refine ⟨⟨Or.inr ⟨e, names_pinned _ _⟩, fun row hr => ?_⟩, names_pinned _ _⟩
      have hn := (h.one row hr).modelId
      rw [hnone] at hn
      simp at hn
    · obtain ⟨e₀, he₀⟩ : ∃ e₀ : Embedder, Names s.db e₀.pin := by
        rcases h.whole with h0 | h0
        · exact absurd ⟨rfl, by rw [h0]; rfl⟩ habs
        · exact h0
      have hpin : e₀.pin = e.pin := by
        by_contra hne
        exact hnot (full_cli_iff.mpr (Or.inr ⟨e₀.pin, pinOf_of_names he₀, hne⟩))
      rw [hpin] at he₀
      exact ⟨h, he₀⟩

/-- Pruning and writing keep the pin; they keep the vectors to it if it names the embedder or nothing
is written. -/
theorem inv_embeds (h : Inv s) (he : Embeds e s t)
    (hok : Names s.db e.pin ∨ getPendingChunks s.db = []) : Inv t := by
  have hmeta : t.db.metaTable = s.db.metaTable := he.metaTable
  refine ⟨?_, fun row hr => (names_congr hmeta).mpr ?_⟩
  · rcases h.whole with h0 | ⟨e₀, he₀⟩
    · exact Or.inl ((getMeta_congr hmeta _).trans h0)
    · exact Or.inr ⟨e₀, (names_congr hmeta).mpr he₀⟩
  · rw [he.rows] at hr
    rcases List.mem_append.mp hr with hr | hr
    · exact h.one row (mem_deleteOrphans.mp hr).1
    · rcases hok with hn | hnil
      · rw [producer_newRows hr]
        exact hn
      · have hnil : getPendingChunks (pruned s).db = [] := hnil
        rw [hnil] at hr
        exact absurd hr List.not_mem_nil

theorem prepared_daemon {reindex : Bool} (h : reindex ≠ true) : prepared .daemon reindex e s = s := by
  have hfull : ¬full .daemon reindex e s.db = true := by simp [full, h]
  unfold prepared
  rw [if_neg hfull, if_neg fun hc => by simp at hc]

/-- **One pass.** -/
theorem inv_pass (h : Inv s) (hok : KeepsPin x s p r e) {a : Unit}
    (hr : eval (exec x) (pass p r e) s = .ok (a, t)) : Inv t := by
  obtain ⟨db, stats, hi, ⟨-, rfl⟩ | ⟨hn, he⟩⟩ := eval_pass hr
  · exact inv_index hi h
  have hu := inv_index hi h
  cases p with
  | cli =>
    obtain ⟨h1, h2⟩ := inv_prepared_cli e r.reindex hu
    exact inv_embeds h1 he (Or.inl h2)
  | daemon =>
    by_cases hre : r.reindex = true
    · have hfull : full .daemon r.reindex e db = true := by simp [full, hre]
      obtain ⟨h1, h2⟩ := inv_prepared_full (s := { s with db }) hfull
      exact inv_embeds h1 he (Or.inl h2)
    · rw [prepared_daemon hre] at he
      refine inv_embeds hu he ?_
      rcases hok with h0 | h0 | h0 | h0 | h0
      · simp at h0
      · simp [hn] at h0
      · exact absurd h0 hre
      · exact Or.inl ((names_congr (metaTable_indexProject hi)).mpr h0)
      · exact Or.inr (h0 db stats hi)

/-- A pass that does not meet the condition stores a vector that the pin does not name. -/
theorem keepsPin_of_oneModel (hone : OnePerText e) (hn : r.noEmbed = false) {a : Unit}
    (hr : eval (exec x) (pass p r e) s = .ok (a, t)) (h : OneModel t) : KeepsPin x s p r e := by
  obtain ⟨db, stats, hi, ⟨hn', -⟩ | ⟨-, he⟩⟩ := eval_pass hr
  · simp [hn] at hn'
  by_contra hk
  unfold KeepsPin at hk
  push Not at hk
  obtain ⟨hp, -, hre, hnames, db', stats', hi', hpending⟩ := hk
  rw [hi] at hi'
  obtain ⟨rfl, rfl⟩ := Prod.mk.inj (Except.ok.inj hi')
  have hp : p = .daemon := by
    cases p with
    | cli => exact absurd rfl hp
    | daemon => rfl
  rw [hp, prepared_daemon hre] at he
  -- the vector of the first pending chunk
  obtain ⟨c, hc⟩ := List.exists_mem_of_ne_nil _ hpending
  have hrows := rowOf_newRows hone he.embedded
  rw [flatten_batches] at hrows
  obtain ⟨row, hrow, -⟩ := exists_right hrows hc
  have hmem : row ∈ rows t.vs := by
    rw [he.rows]
    exact List.mem_append_right _ hrow
  have hnamed := h row hmem
  rw [producer_newRows hrow] at hnamed
  have hmeta : t.db.metaTable = s.db.metaTable := he.metaTable.trans (metaTable_indexProject hi)
  exact hnames ((names_congr hmeta).mp hnamed)

/-! ### Every pass -/

theorem inv_of_passed (h : Passed x (KeepsPin x) s) : Inv s := by
  induction h with
  | empty => exact inv_empty
  | pass _ hok hr ih => exact inv_pass ih hok hr

/-- **One model per index, exactly while the daemon writes no vector without its pin.** After any
sequence of passes that met the condition, the next embedding pass leaves only vectors of the model
that the pin names if and only if it meets the condition. -/
theorem oneModel_iff (h : Passed x (KeepsPin x) s) (hone : OnePerText e) (hn : r.noEmbed = false)
    (hr : eval (exec x) (pass p r e) s = .ok ((), t)) : OneModel t ↔ KeepsPin x s p r e :=
  ⟨keepsPin_of_oneModel hone hn hr, fun hok => (inv_pass (inv_of_passed h) hok hr).one⟩

theorem oneModel_firstEdited :
    OneModel (stateEval sample (pass .daemon (request firstEdited 2) bge) indexedOnce) := by
  have h1 := eval_indexedOnce
  have h2 := eval_stateEval (x := sample) (p := pass .daemon (request firstEdited 2) bge)
    (s := indexedOnce) (by decide)
  have hnames : Names indexedOnce.db bge.pin := ⟨by decide, by decide⟩
  exact (oneModel_iff (.pass .empty (Or.inl rfl) h1) (onePerText_constant _ _ _) rfl h2).mpr
    (Or.inr (Or.inr (Or.inr (Or.inl hnames))))

/-- **A daemon with another model of the same dimension** adds its vectors to those of the CLI. -/
theorem not_oneModel : ¬∀ s p r e t, Passed sample (fun _ _ _ e => OnePerText e) s → OnePerText e →
    r.noEmbed = false → eval (exec sample) (pass p r e) s = .ok ((), t) → OneModel t := by
  intro h
  have h1 := eval_indexedOnce
  have h2 := eval_stateEval (x := sample) (p := pass .daemon (request firstEdited 2) nomic)
    (s := indexedOnce) (by decide)
  have hone := h _ _ _ _ _ (.pass .empty (onePerText_constant _ _ _) h1) (onePerText_constant _ _ _)
    rfl h2
  have hrow : ∃ row ∈ rows (stateEval sample (pass .daemon (request firstEdited 2) nomic)
      indexedOnce).vs, row.producer = nomic.pin := by decide
  obtain ⟨row, hr, hp⟩ := hrow
  have hid := (hone row hr).modelId
  rw [hp] at hid
  exact absurd hid (by decide)

end BrainEngine.Passes.Pin
