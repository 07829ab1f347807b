import BrainEngine.Core.Api
import BrainEngine.Passes.Marked
import Mathlib.Data.List.Sort

/-! # What the remote embedder promises

The trait promises one vector per text, in the order of the texts, each as long as `dim` says. The
remote embedder sorts the items of the response by their indices and passes them on: the promise is
kept exactly when the response is complete. While all responses are complete, no pass marks a chunk
without a vector that the server gave for the chunk's text. -/

namespace BrainEngine.Passes.Contract

open BrainEngine.Rust.Str BrainEngine.Rust.Slice BrainEngine.Lib.Atomic BrainEngine.Lib.Atomic.Prog
open BrainEngine.Lib.Outcome
open BrainEngine.Core.External BrainEngine.Core.Database BrainEngine.Core.Vectors
open BrainEngine.Core.Embedding
open BrainEngine.Core.Api BrainEngine.Core.Passes BrainEngine.Core.Sample BrainEngine.Passes.Marked

/-- The indices are those of `n` texts, each once, and the embeddings have the announced length. -/
structure Complete (dim n : ℕ) (items : List EmbedData) : Prop where
  indices : (items.map EmbedData.index).Perm (List.range n)
  lengths : ∀ d ∈ items, d.embedding.length = dim

/-- The contract of `Embedder::embed`, for `n` texts and the items of a response. -/
structure Honours (dim n : ℕ) (items : List EmbedData) (vectors : List (List F32)) : Prop where
  length : vectors.length = n
  own : ∀ i v, vectors[i]? = some v → ∃ d ∈ items, d.index = i ∧ d.embedding = v
  lengths : ∀ v ∈ vectors, v.length = dim

/-- The server gives `v` for `text`: it stands under the index of the text in a response. -/
def Gives (server : EmbedRequest → Reply) (api : ApiEmbedder) (text : Text) (v : List F32) : Prop :=
  ∃ texts items, server (api.request texts) = .data items ∧
    ∃ d ∈ items, texts[d.index]? = some text ∧ d.embedding = v

/-- The steps of a pass whose embedder is remote. The server may answer every request in its own way:
the state counts the requests. -/
def execApi (x : Extern) (s : UnstableSort EmbedData.index) (server : ℕ → EmbedRequest → Reply)
    (api : ApiEmbedder) (β : Type) : Op β → Project × ℕ → Except Failure (β × (Project × ℕ))
  | .embed _ texts, (t, k) =>
    match api.embed s (server k) texts with
    | .ok vectors => .ok (vectors, (t, k + 1))
    | .error e => .error (.error (.embed e.text))
  | o, (t, k) => (exec x β o t).map fun r => (r.1, (r.2, k))

/-- The states that passes with remote embedders reach, each stopped after any number of steps, when
every response is complete; `Of` relates the texts to the vectors that were given for them. -/
inductive Run (x : Extern) (Of : Text → List F32 → Prop) : Project → Prop
  | empty : Run x Of Project.empty
  | stop {t t' : Project} {q : Prog Op Unit} {k : ℕ} (h : Run x Of t) (p : Party) (r : Request)
    (s : UnstableSort EmbedData.index) (server : ℕ → EmbedRequest → Reply) (api : ApiEmbedder)
    (hc : ∀ k texts items, server k (api.request texts) = .data items →
      Complete api.dim texts.length items)
    (hOf : ∀ k text v, Gives (server k) api text v → Of text v) (n : ℕ)
    (hn : after (execApi x s server api) n (pass p r (api.embedder s (server 0))) (t, 0) =
      some (q, (t', k))) : Run x Of t'

variable {x : Extern} {s : UnstableSort EmbedData.index} {server : EmbedRequest → Reply}
  {api : ApiEmbedder} {texts : List Text} {items : List EmbedData} {dim n : ℕ}

/-! ### Responses -/

theorem embed_data (h : server (api.request texts) = .data items) :
    api.embed s server texts = .ok ((s.sort items).map EmbedData.embedding) := by
  unfold ApiEmbedder.embed
  rw [h]

theorem data_of_embed {vectors : List (List F32)} (h : api.embed s server texts = .ok vectors) :
    ∃ items, server (api.request texts) = .data items ∧
      vectors = (s.sort items).map EmbedData.embedding := by
  unfold ApiEmbedder.embed at h
  split at h
  · simp at h
  · simp at h
  · simp at h
  · next items hi => exact ⟨items, hi, (Except.ok.inj h).symm⟩

theorem index_sort (h : Complete dim n items) : (s.sort items).map EmbedData.index = List.range n := by
  have hperm : ((s.sort items).map EmbedData.index).Perm (List.range n) :=
    ((s.perm items).map _).trans h.indices
  have hsorted : ((s.sort items).map EmbedData.index).Pairwise (· ≤ ·) :=
    List.pairwise_map.mpr (s.sorted items)
  have hrange : (List.range n).Pairwise (· ≤ ·) := List.pairwise_lt_range.imp fun h => h.le
  exact hperm.eq_of_pairwise' hsorted hrange

theorem honours_of_complete (h : Complete dim n items) :
    Honours dim n items ((s.sort items).map EmbedData.embedding) := by
  have hindex := index_sort (s := s) h
  refine ⟨?_, fun i v hv => ?_, fun v hv => ?_⟩
  · have hlen := congrArg List.length hindex
    rw [List.length_map, List.length_range] at hlen
    rw [List.length_map, hlen]
  · rw [List.getElem?_map, Option.map_eq_some_iff] at hv
    obtain ⟨d, hd, rfl⟩ := hv
    refine ⟨d, (s.perm items).mem_iff.mp (List.mem_of_getElem? hd), ?_, rfl⟩
    have hi : ((s.sort items).map EmbedData.index)[i]? = some d.index := by
      rw [List.getElem?_map, hd]
      rfl
    rw [hindex] at hi
    obtain ⟨hlt, heq⟩ := List.getElem?_eq_some_iff.mp hi
    rw [List.getElem_range] at heq
    exact heq.symm
  · obtain ⟨d, hd, rfl⟩ := List.mem_map.mp hv
    exact h.lengths d ((s.perm items).mem_iff.mp hd)

/-- As many vectors as texts, under all their indices, leave no room for others. -/
theorem complete_of_honours (h : Honours dim n items ((s.sort items).map EmbedData.embedding)) :
    Complete dim n items := by
  have hlen : items.length = n := by
    have hlen := h.length
    rwa [List.length_map, (s.perm items).length_eq] at hlen
  refine ⟨?_, fun d hd => ?_⟩
  · have hsub : List.range n ⊆ items.map EmbedData.index := by
      intro i hi
      rw [List.mem_range, ← h.length] at hi
      obtain ⟨d, hd, rfl, -⟩ := h.own i _ (List.getElem?_eq_getElem hi)
      exact List.mem_map.mpr ⟨d, hd, rfl⟩
    have hsubperm := List.nodup_range.subperm hsub
    refine (hsubperm.perm_of_length_le ?_).symm
    rw [List.length_map, List.length_range, hlen]
  · exact h.lengths _ (List.mem_map.mpr ⟨d, (s.perm items).mem_iff.mpr hd, rfl⟩)

/-- **The promise is kept exactly for complete responses.** -/
theorem honours_iff (h : server (api.request texts) = .data items) :
    (∀ vectors, api.embed s server texts = .ok vectors →
      Honours api.dim texts.length items vectors) ↔ Complete api.dim texts.length items := by
  rw [embed_data h]
  constructor
  · exact fun hv => complete_of_honours (hv _ rfl)
  · rintro hc vectors hv
    rw [← Except.ok.inj hv]
    exact honours_of_complete hc

/-! ### Passes -/

theorem mem_chunkVectors {b : List PendingChunk} {vectors : List (List F32)} {c : ChunkVector} :
    c ∈ chunkVectors b vectors ↔
      ∃ p v, (p, v) ∈ b.zip vectors ∧ c = ⟨p.id, v, p.filePath, p.content⟩ := by
  unfold chunkVectors
  rw [← List.map_uncurry_zip_eq_zipWith]
  simp only [List.mem_map, Prod.exists, Function.uncurry_apply_pair]
  constructor
  · rintro ⟨p, v, hpv, rfl⟩; exact ⟨p, v, hpv, rfl⟩
  · rintro ⟨p, v, hpv, rfl⟩; exact ⟨p, v, hpv, rfl⟩

/-- **Vectors that honour the contract** are stored with the chunks of their own texts. -/
theorem storedAs_of_honours {e : Embedder} {b : List PendingChunk} {vectors : List (List F32)}
    {vs vs' : VectorStore} (h : Honours e.dim b.length items vectors)
    (hu : upsert x vs (chunkVectors b vectors) e.dim e.pin = .ok vs') {p : PendingChunk} (hp : p ∈ b) :
    StoredAs (fun text v => ∃ d ∈ items, (b.map PendingChunk.content)[d.index]? = some text ∧
      d.embedding = v) vs' p.id p.content := by
  obtain ⟨i, hi, rfl⟩ := List.getElem_of_mem hp
  have hv : i < vectors.length := by
    rw [h.length]
    exact hi
  have hzip : (b[i], vectors[i]) ∈ b.zip vectors := by
    rw [← List.getElem_zip (h := by rw [List.length_zip]; omega)]
    exact List.getElem_mem _
  have hmem := mem_chunkVectors.mpr ⟨b[i], vectors[i], hzip, rfl⟩
  rcases upsert_ok hu with ⟨hnil, -⟩ | ⟨batch, hb, -, rfl⟩
  · rw [hnil] at hmem
    exact absurd hmem List.not_mem_nil
  have hlen : ∀ c ∈ chunkVectors b vectors, c.vector.length = e.dim := by
    intro c hc
    obtain ⟨q, v, hqv, rfl⟩ := mem_chunkVectors.mp hc
    exact h.lengths v (List.of_mem_zip hqv).2
  obtain ⟨d, hd, hindex, hemb⟩ := h.own i _ (List.getElem?_eq_getElem hv)
  refine ⟨⟨⟨b[i].id, vectors[i], b[i].filePath, b[i].content⟩, e.pin⟩,
    List.mem_append_right _ ?_, rfl, rfl, d, hd, ?_, hemb⟩
  · rw [buildBatch_vectors hb hlen]
    exact List.mem_map.mpr ⟨_, hmem, rfl⟩
  · rw [hindex, List.getElem?_map, List.getElem?_eq_getElem hi]
    rfl

theorem execApi_of_not_asks {server : ℕ → EmbedRequest → Reply} {β : Type} {o : Op β}
    (h : asks o = false) (c : Project × ℕ) :
    execApi x s server api β o c = (exec x β o c.1).map fun r => (r.1, (r.2, c.2)) := by
  obtain ⟨t, k⟩ := c
  cases o with
  | embed e texts => simp [asks] at h
  | _ => rfl

theorem serves_execApi {Of : Text → List F32 → Prop} {server : ℕ → EmbedRequest → Reply}
    (hc : ∀ k texts items, server k (api.request texts) = .data items →
      Complete api.dim texts.length items)
    (hOf : ∀ k text v, Gives (server k) api text v → Of text v) :
    Serves x (api.embedder s (server 0)) Of (execApi x s server api) Prod.fst := by
  refine ⟨fun {β o c c' a} ha h => ?_, fun {texts c c' vectors} h => ?_⟩
  · rw [execApi_of_not_asks ha] at h
    obtain ⟨⟨a', t⟩, hr, heq⟩ := map_eq_ok.mp h
    obtain ⟨rfl, rfl⟩ := Prod.mk.inj heq
    exact hr
  · obtain ⟨t, k⟩ := c
    unfold execApi at h
    dsimp only at h
    split at h
    · next v hv =>
      obtain ⟨rfl, rfl⟩ := Prod.mk.inj (Except.ok.inj h)
      obtain ⟨items, hi, rfl⟩ := data_of_embed hv
      refine ⟨rfl, fun {b vs vs'} hb hu p hp => ?_⟩
      have hh := honours_of_complete (s := s) (hc k texts items hi)
      rw [← hb, List.length_map] at hh
      obtain ⟨r, hr, hid, hcon, d, hd, hindex, hemb⟩ :=
        storedAs_of_honours (e := api.embedder s (server 0)) hh hu hp
      rw [hb] at hindex
      exact ⟨r, hr, hid, hcon, hOf k _ _ ⟨texts, items, hi, d, hd, hindex, hemb⟩⟩
    · simp at h

/-- Every marked chunk has a vector that a server gave for its text. -/
theorem markedAs_of_run {Of : Text → List F32 → Prop} {t : Project} (h : Run x Of t) :
    MarkedAs Of t := by
  induction h with
  | empty =>
    refine markedAs_of_unmarked fun i c hc => ?_
    exact absurd hc (by simp [Project.empty, Db.empty])
  | stop _ p r s server api hc hOf n hn ih => exact markedAs_after (serves_execApi hc hOf) ih hn

/-- **The contract, exactly for complete responses**: each is answered as the trait promises if and
only if it is complete, and in runs where all are, no chunk is marked without a vector that was given
for its text. -/
theorem contract (s : UnstableSort EmbedData.index) (server : EmbedRequest → Reply)
    (api : ApiEmbedder) (texts : List Text) (items : List EmbedData)
    (h : server (api.request texts) = .data items) (x : Extern) (Of : Text → List F32 → Prop)
    (t : Project) :
    ((∀ vectors, api.embed s server texts = .ok vectors →
      Honours api.dim texts.length items vectors) ↔ Complete api.dim texts.length items) ∧
      (Run x Of t → MarkedAs Of t) :=
  ⟨honours_iff h, markedAs_of_run⟩

/-! ### Two servers -/

/-- `sort_unstable_by_key` as an insertion sort. -/
def insertion : UnstableSort EmbedData.index where
  sort := List.insertionSort fun a b => a.index ≤ b.index
  perm := List.perm_insertionSort _
  sorted l := by
    have := List.pairwise_insertionSort (fun a b : EmbedData => a.index ≤ b.index) l
    exact this

def deepseek : ApiEmbedder where
  url := "https://api.deepseek.com/embeddings".toList
  model := "deepseek-embedding".toList
  apiKey := "key".toList
  dim := 1
  dim_lt := Nat.one_lt_two_pow (by decide)

/-- A server that answers every text, the last first. -/
def backwards (r : EmbedRequest) : Reply :=
  .data ((List.range r.input.length).map fun i => ⟨[i.toUInt32], i⟩).reverse

theorem complete_backwards {items : List EmbedData}
    (h : backwards (deepseek.request texts) = .data items) :
    Complete deepseek.dim texts.length items := by
  unfold backwards at h
  injection h with h
  rw [← h]
  refine ⟨?_, fun d hd => ?_⟩
  · rw [List.map_reverse, List.map_map]
    exact (List.reverse_perm _).trans (by simp [Function.comp_def, ApiEmbedder.request])
  · simp only [List.mem_reverse, List.mem_map, List.mem_range] at hd
    obtain ⟨i, -, rfl⟩ := hd
    rfl

/-- A first run with two files, stopped after the first mark. -/
theorem contract_backwards : Honours 1 2 [⟨[1], 1⟩, ⟨[0], 0⟩] [[0], [1]] ∧
    ∃ t, (t.db.chunks.rows.map fun a => a.2.vectorId) = [some "1".toList, none] ∧
      MarkedAs (Gives backwards deepseek) t := by
  have h2 : (after (execApi sample insertion (fun _ => backwards) deepseek) 13
      (pass .cli (request aAndB 1) (deepseek.embedder insertion backwards)) (Project.empty, 0)).map
      (fun r => r.2.1.db.chunks.rows.map fun a => a.2.vectorId) = some [some "1".toList, none] := by
    decide
  obtain ⟨⟨q, t, k⟩, hn, hmarks⟩ := Option.map_eq_some_iff.mp h2
  have hcontract := contract insertion backwards deepseek ["a".toList, "b".toList] _ rfl sample
    (Gives backwards deepseek) t
  refine ⟨hcontract.1.mpr (complete_backwards rfl) _ rfl, t, hmarks, hcontract.2 ?_⟩
  exact .stop .empty .cli (request aAndB 1) insertion (fun _ => backwards) deepseek
    (fun _ _ _ h => complete_backwards h) (fun _ _ _ h => h) 13 hn

/-- **A server that answers nothing**: no error, no vector, and the chunk is marked. -/
theorem not_contract : (¬∀ (s : UnstableSort EmbedData.index) (server : EmbedRequest → Reply)
    (api : ApiEmbedder) (texts : List Text) (items : List EmbedData),
      server (api.request texts) = .data items → ∀ vectors, api.embed s server texts = .ok vectors →
        Honours api.dim texts.length items vectors) ∧
    ¬∀ (server : EmbedRequest → Reply) (p : Party) (r : Request) (t : Project),
      eval (exec sample) (pass p r (deepseek.embedder insertion server)) Project.empty = .ok ((), t) →
        MarkedStored t := by
  refine ⟨fun h => ?_, fun h => ?_⟩
  · have hlen := (h insertion (fun _ => .data []) deepseek ["a".toList] [] rfl [] rfl).length
    exact absurd hlen (by decide)
  · have hrun := eval_stateEval (x := sample) (p := pass .cli (request aAndB 1)
      (deepseek.embedder insertion fun _ => .data [])) (s := Project.empty) (by decide)
    have hstored := h _ _ _ _ hrun
    have hmarked : ∃ a ∈ (stateEval sample (pass .cli (request aAndB 1)
        (deepseek.embedder insertion fun _ => .data [])) Project.empty).db.chunks.rows,
        a.2.vectorId ≠ none := by decide
    obtain ⟨⟨i, c⟩, hc, hv⟩ := hmarked
    obtain ⟨r, hr, -⟩ := hstored i c hc hv
    have hrows : rows (stateEval sample (pass .cli (request aAndB 1)
        (deepseek.embedder insertion fun _ => .data [])) Project.empty).vs = [] := by decide
    rw [hrows] at hr
    exact absurd hr List.not_mem_nil

end BrainEngine.Passes.Contract
