import BrainEngine.Daemon.Protocol
import BrainEngine.Core.SymbolSearch
import BrainEngine.Rust.Json

/-! # Request parameters

How the parameters of `protocol.rs` are decoded from a JSON value, and what becomes of a request whose
parameters are missing or do not decode. `query` and `store` report an error; `index` and `symbols` take
`Default::default()` instead, whose `limit` is not that of a missing field. -/

namespace BrainEngine.Daemon.Params

open BrainEngine.Rust.Str BrainEngine.Rust.Json BrainEngine.Lib.Ranked BrainEngine.Core.Database
open BrainEngine.Core.SymbolSearch BrainEngine.Daemon.Protocol

/-! ### Decoders -/

def decodeBool : Value → Option Bool
  | .bool b => some b
  | _ => none

/-- `usize` on a 64-bit machine. -/
def decodeUsize : Value → Option ℕ
  | .number (.posInt n) => some n.toNat
  | .number (.negInt n) => if 0 ≤ n.toInt then some n.toInt.toNat else none
  | _ => none

/-- `Option<String>`. -/
def decodeOption : Value → Option (Option Text)
  | .null => some none
  | v => v.asStr.map some

/-- The fields of a struct with `n` fields: from an object by their names, other keys being ignored, or
from an array of at most `n` items by their positions. -/
def structFields (n : ℕ) : Value → Option (String → ℕ → Option Value)
  | .object fields => some fun key _ => fields.lookup key.toList
  | .array items => if items.length ≤ n then some fun _ i => items[i]? else none
  | _ => none

/-- A field with a default. -/
def fieldOr {α : Type} (default : α) (decode : Value → Option α) : Option Value → Option α
  | none => some default
  | some v => decode v

def decodeQuery (v : Value) : Option QueryParams := do
  let field ← structFields 4 v
  let query ← (field "query" 0).bind Value.asStr
  let topK ← fieldOr 5 decodeUsize (field "top_k" 1)
  let tokens ← fieldOr 4000 decodeUsize (field "tokens" 2)
  let noCache ← fieldOr false decodeBool (field "no_cache" 3)
  return { query, topK, tokens, noCache }

def decodeIndex (v : Value) : Option IndexParams := do
  let field ← structFields 2 v
  let reindex ← fieldOr false decodeBool (field "reindex" 0)
  let noEmbed ← fieldOr false decodeBool (field "no_embed" 1)
  return { reindex, noEmbed }

def decodeStore (v : Value) : Option StoreParams := do
  let field ← structFields 2 v
  let query ← (field "query" 0).bind Value.asStr
  let response ← (field "response" 1).bind Value.asStr
  return { query, response }

def decodeSymbols (v : Value) : Option SymbolsParams := do
  let field ← structFields 3 v
  let name ← fieldOr none decodeOption (field "name" 0)
  let kind ← fieldOr none decodeOption (field "kind" 1)
  let limit ← fieldOr 20 decodeUsize (field "limit" 2)
  return { name, kind, limit }

/-- What `serde_json` says of lines, and of values that do not decode. -/
structure Texts where
  fromStr : Text → Except Text (RequestEnvelope Value)
  error : Value → Text

/-- A decoder with its error text. -/
def orError {α : Type} (texts : Texts) (decode : Value → Option α) (v : Value) : Except Text α :=
  match decode v with
  | some a => .ok a
  | none => .error (texts.error v)

/-- The decoders of the protocol. -/
def serde (texts : Texts) : Serde Value where
  fromStr := texts.fromStr
  queryParams := orError texts decodeQuery
  indexParams := orError texts decodeIndex
  storeParams := orError texts decodeStore
  symbolsParams := orError texts decodeSymbols
  pong := .object [("pong".toList, .bool true)]

/-! ### Answers -/

/-- A request with or without parameters. -/
structure Request where
  id : ℕ
  method : Text
  params : Option Value

/-- `#[serde(default)]` on the parameters. -/
def Request.envelope (r : Request) : RequestEnvelope Value := ⟨r.id, r.method, r.params.getD .null⟩

/-- What is made of a line that decodes to `env`. -/
def dispatchEnvelope (texts : Texts) (env : RequestEnvelope Value) : Dispatched Value :=
  dispatch (serde { texts with fromStr := fun _ => .ok env }) []

theorem dispatch_of_decoded {texts : Texts} {line : Text} {env : RequestEnvelope Value}
    (h : texts.fromStr line = .ok env) : dispatch (serde texts) line = dispatchEnvelope texts env := by
  have hs : (serde texts).fromStr line = .ok env := h
  have he : (serde { texts with fromStr := fun _ => .ok env }).fromStr [] = .ok env := rfl
  unfold dispatchEnvelope dispatch
  rw [hs, he]
  rfl

def optionJson : Option Text → Value
  | some s => .string s
  | none => .null

def usizeJson (n : ℕ) : Value := .number (.posInt (UInt64.ofNat n))

def symbolJson (s : SymbolRecord) : Value := .object [
  ("file".toList, .string s.file),
  ("name".toList, .string s.name),
  ("kind".toList, .string s.kind),
  ("signature".toList, optionJson s.signature),
  ("start_line".toList, usizeJson s.startLine),
  ("end_line".toList, usizeJson s.endLine),
  ("visibility".toList, optionJson s.visibility),
  ("doc".toList, optionJson s.doc),
  ("lines".toList, .string (ofNat s.startLine ++ '-' :: ofNat s.endLine))]

/-- `{"symbols": […]}`. -/
def symbolsJson (rows : List SymbolRecord) : Value :=
  .object [("symbols".toList, .array (rows.map symbolJson))]

/-- The state of the worker, with the replies that its handlers other than `handle_symbols` may give in
it. -/
structure WorkerState where
  db : Db
  replies : WorkerMsg → Reply Value → Prop

/-- The worker may give this reply to a message. -/
def Handles (w : WorkerState) (msg : WorkerMsg) (reply : Reply Value) : Prop :=
  match msg with
  | .symbols p => ∃ rows, Searches w.db p.name p.kind p.limit rows ∧
      reply = .result (.ok (symbolsJson rows))
  | msg => w.replies msg reply

/-- A request may get this response. -/
def Answers (texts : Texts) (w : WorkerState) (env : RequestEnvelope Value)
    (resp : ResponseEnvelope Value) : Prop :=
  match dispatchEnvelope texts env with
  | .respond r => resp = r
  | .send id msg => ∃ reply, Handles w msg reply ∧ resp = respond (serde texts) id msg (some reply)

/-! ### Uniform decoding -/

/-- The method has parameters, and the value does not decode to them. -/
def Undecodable (method : Text) (v : Value) : Prop :=
  method = "query".toList ∧ decodeQuery v = none ∨ method = "index".toList ∧ decodeIndex v = none ∨
    method = "store".toList ∧ decodeStore v = none ∨ method = "symbols".toList ∧ decodeSymbols v = none

/-- The parameters are absent or `null`. -/
def Request.NoParams (r : Request) : Prop := r.params.getD .null = .null

/-- Missing parameters count as `{}`, and other values that do not decode are reported without a
message to the worker. -/
structure Uniform (texts : Texts) (w : WorkerState) (r : Request) : Prop where
  missing : r.method = "index".toList ∨ r.method = "symbols".toList → r.NoParams →
    ∀ resp, Answers texts w r.envelope resp ↔
      Answers texts w { r with params := some (.object []) }.envelope resp
  reported : ∀ v, r.params = some v → v ≠ .null → Undecodable r.method v →
    ∃ e, dispatchEnvelope texts r.envelope = .respond (errResponse r.id ("bad params: ".toList ++ e))

/-! ### The two defaults -/

section
variable {texts : Texts} {w : WorkerState} {env : RequestEnvelope Value} {r : Request} {id : ℕ}

theorem unwrapOr_orError {α : Type} (default : α) (decode : Value → Option α) (v : Value) :
    unwrapOr default (orError texts decode v) = (decode v).getD default := by
  unfold orError
  cases decode v with
  | none => rfl
  | some a => rfl

theorem dispatch_index (h : env.method = "index".toList) :
    dispatchEnvelope texts env = .send env.id (.index ((decodeIndex env.params).getD {})) := by
  have hd : dispatchEnvelope texts env =
      .send env.id (.index (unwrapOr {} (orError texts decodeIndex env.params))) := by
    simp only [dispatchEnvelope, dispatch, serde, h]
    rfl
  rw [hd, unwrapOr_orError]

theorem dispatch_symbols (h : env.method = "symbols".toList) :
    dispatchEnvelope texts env =
      .send env.id (.symbols ((decodeSymbols env.params).getD { limit := 0 })) := by
  have hd : dispatchEnvelope texts env =
      .send env.id (.symbols (unwrapOr { limit := 0 } (orError texts decodeSymbols env.params))) := by
    simp only [dispatchEnvelope, dispatch, serde, h]
    rfl
  rw [hd, unwrapOr_orError]

/-- A value that does not decode is reported where it must. -/
theorem sendWith_orError {α : Type} {decode : Value → Option α} {v : Value} (msg : α → WorkerMsg)
    (h : decode v = none) : (sendWith id (orError texts decode v) msg : Dispatched Value) =
      .respond (errResponse id ("bad params: ".toList ++ texts.error v)) := by
  rw [orError, h]
  rfl

theorem dispatch_query (h : env.method = "query".toList) :
    dispatchEnvelope texts env = sendWith env.id (orError texts decodeQuery env.params) .query := by
  simp only [dispatchEnvelope, dispatch, serde, h]
  rfl

theorem dispatch_store (h : env.method = "store".toList) :
    dispatchEnvelope texts env = sendWith env.id (orError texts decodeStore env.params) .store := by
  simp only [dispatchEnvelope, dispatch, serde, h]
  rfl

theorem answers_symbols {resp : ResponseEnvelope Value} (h : env.method = "symbols".toList) :
    Answers texts w env resp ↔ ∃ rows,
      Searches w.db ((decodeSymbols env.params).getD { limit := 0 }).name
        ((decodeSymbols env.params).getD { limit := 0 }).kind
        ((decodeSymbols env.params).getD { limit := 0 }).limit rows ∧
      resp = okResponse env.id (symbolsJson rows) := by
  unfold Answers
  rw [dispatch_symbols h]
  constructor
  · rintro ⟨reply, ⟨rows, hrows, rfl⟩, rfl⟩
    exact ⟨rows, hrows, rfl⟩
  · rintro ⟨rows, hrows, rfl⟩
    exact ⟨_, ⟨rows, hrows, rfl⟩, rfl⟩

theorem length_of_symbolsJson {rows rows' : List SymbolRecord} (h : symbolsJson rows = symbolsJson rows') :
    rows.length = rows'.length := by
  unfold symbolsJson at h
  injection h with h
  injection h with h _
  have hv : Value.array (rows.map symbolJson) = Value.array (rows'.map symbolJson) :=
    congrArg Prod.snd h
  injection hv with hv
  have hl := congrArg List.length hv
  rwa [List.length_map, List.length_map] at hl

theorem candidates_none (db : Db) : candidates db none none = joined db :=
  List.filter_eq_self.mpr fun _ _ => rfl

theorem answers_noParams {resp : ResponseEnvelope Value} (hm : r.method = "symbols".toList)
    (hn : r.NoParams) : Answers texts w r.envelope resp ↔ ∃ rows,
      Selects (orderKey none) (joined w.db) 1 rows ∧ resp = okResponse r.id (symbolsJson rows) := by
  have hp : r.envelope.params = .null := hn
  have hd : decodeSymbols .null = none := rfl
  rw [answers_symbols (show r.envelope.method = _ from hm), hp, hd]
  unfold Searches
  simp only [Option.getD_none, candidates_none]
  rfl

theorem answers_empty {resp : ResponseEnvelope Value} (hm : r.method = "symbols".toList) :
    Answers texts w { r with params := some (.object []) }.envelope resp ↔ ∃ rows,
      Selects (orderKey none) (joined w.db) 20 rows ∧ resp = okResponse r.id (symbolsJson rows) := by
  let r' : Request := { r with params := some (.object []) }
  have hp : r'.envelope.params = .object [] := rfl
  have hd : decodeSymbols (.object []) = some { limit := 20 } := rfl
  rw [answers_symbols (show r'.envelope.method = _ from hm), hp, hd]
  unfold Searches
  simp only [Option.getD_some, candidates_none]
  rfl

/-- **The defaults of `symbols` agree** just where there is at most one symbol to find. -/
theorem symbols_missing_iff (hm : r.method = "symbols".toList) (hn : r.NoParams) :
    (∀ resp, Answers texts w r.envelope resp ↔
      Answers texts w { r with params := some (.object []) }.envelope resp) ↔
      (joined w.db).length ≤ 1 := by
  constructor
  · intro h
    have hone := selects_sortBy (orderKey none) (joined w.db) 1
    have ha := (h _).mp ((answers_noParams hm hn).mpr ⟨_, hone, rfl⟩)
    obtain ⟨rows, hrows, heq⟩ := (answers_empty hm).mp ha
    have hj := congrArg ResponseEnvelope.result heq
    have hlen := length_of_symbolsJson (Option.some.inj hj)
    rw [length_of_selects hone, length_of_selects hrows] at hlen
    omega
  · intro h resp
    have hsel : ∀ rows, Selects (orderKey none) (joined w.db) 1 rows ↔
        Selects (orderKey none) (joined w.db) 20 rows := fun rows => by
      rw [selects_iff_of_length_le h, selects_iff_of_length_le (by omega)]
    rw [answers_noParams hm hn, answers_empty hm]
    simp only [hsel]

/-- The defaults of `index` agree. -/
theorem index_missing (hm : r.method = "index".toList) (hn : r.NoParams)
    (resp : ResponseEnvelope Value) : Answers texts w r.envelope resp ↔
      Answers texts w { r with params := some (.object []) }.envelope resp := by
  have hp : r.envelope.params = .null := hn
  let r' : Request := { r with params := some (.object []) }
  have hs : dispatchEnvelope texts r.envelope = dispatchEnvelope texts r'.envelope := by
    rw [dispatch_index (show r.envelope.method = _ from hm),
      dispatch_index (show r'.envelope.method = _ from hm), hp]
    rfl
  unfold Answers
  rw [hs]

/-- **Values that do not decode are reported** just by `query` and `store`. -/
theorem reported_iff {v : Value} (hv : r.params = some v) (hu : Undecodable r.method v) :
    (∃ e, dispatchEnvelope texts r.envelope = .respond (errResponse r.id ("bad params: ".toList ++ e))) ↔
      ¬(r.method = "index".toList ∨ r.method = "symbols".toList) := by
  have hp : r.envelope.params = v := by
    show r.params.getD .null = v
    rw [hv]
    rfl
  constructor
  · rintro ⟨e, he⟩ (hm | hm)
    · rw [dispatch_index (show r.envelope.method = _ from hm)] at he
      cases he
    · rw [dispatch_symbols (show r.envelope.method = _ from hm)] at he
      cases he
  · intro hm
    rcases hu with ⟨hq, hd⟩ | ⟨hi, -⟩ | ⟨hs, hd⟩ | ⟨hs, -⟩
    · rw [dispatch_query (show r.envelope.method = _ from hq), hp]
      exact ⟨_, sendWith_orError _ hd⟩
    · exact absurd (.inl hi) hm
    · rw [dispatch_store (show r.envelope.method = _ from hs), hp]
      exact ⟨_, sendWith_orError _ hd⟩
    · exact absurd (.inr hs) hm

end

/-- **When parameters are decoded uniformly**: a request for symbols without parameters finds at most
one, and one for symbols or an index has parameters that decode. -/
theorem uniform_params_iff (texts : Texts) (w : WorkerState) (r : Request) :
    Uniform texts w r ↔
      (r.method = "symbols".toList → r.NoParams → (joined w.db).length ≤ 1) ∧
      (r.method = "index".toList ∨ r.method = "symbols".toList →
        ∀ v, r.params = some v → v ≠ .null → ¬Undecodable r.method v) := by
  constructor
  · rintro ⟨hmissing, hreported⟩
    refine ⟨fun hm hn => ?_, fun hm v hv hne hu => ?_⟩
    · exact (symbols_missing_iff hm hn).mp (hmissing (.inr hm) hn)
    · exact (reported_iff hv hu).mp (hreported v hv hne hu) hm
  · rintro ⟨hone, hdecodes⟩
    refine ⟨fun hm hn => ?_, fun v hv hne hu => ?_⟩
    · rcases hm with hm | hm
      · exact index_missing hm hn
      · exact (symbols_missing_iff hm hn).mpr (hone hm hn)
    · exact (reported_iff hv hu).mpr fun hm => hdecodes hm v hv hne hu

/-- A worker with two functions of one file in its database. -/
def twoSymbols : WorkerState where
  db := {
    metaTable := []
    files := .insert .empty {
      path := "a.rs".toList, hash := [], sizeBytes := 0, mtime := 0, lang := some "rust".toList
      chunkCount := 0, indexedAt := 0 }
    chunks := .empty
    symbols := .insert (.insert .empty {
      fileId := 1, name := "f".toList, kind := "fn".toList, signature := none, startLine := 1
      endLine := 1, visibility := none, doc := none }) {
      fileId := 1, name := "g".toList, kind := "fn".toList, signature := none, startLine := 2
      endLine := 2, visibility := none, doc := none } }
  replies := fun msg reply => reply.fits msg = true

/-- Texts that are enough for parameters. -/
def someTexts : Texts := ⟨fun _ => .error [], fun _ => "invalid type".toList⟩

/-- A request for symbols without parameters. -/
def symbolsRequest : Request := ⟨1, "symbols".toList, none⟩

/-- A request for an index whose parameter has the wrong type. -/
def indexRequest : Request :=
  ⟨1, "index".toList, some (.object [("reindex".toList, .string "yes".toList)])⟩

/-- **One function of two is found without parameters**, and an index is made although `reindex` does
not decode. -/
theorem not_uniform_params :
    ¬Uniform someTexts twoSymbols symbolsRequest ∧ ¬Uniform someTexts twoSymbols indexRequest := by
  constructor
  · intro h
    have hm : symbolsRequest.method = "symbols".toList := rfl
    have hlen := (symbols_missing_iff hm rfl).mp (h.missing (.inr hm) rfl)
    have htwo : (joined twoSymbols.db).length = 2 := by decide
    omega
  · intro h
    have hm : indexRequest.method = "index".toList := rfl
    have hu : Undecodable indexRequest.method
        (.object [("reindex".toList, .string "yes".toList)]) := .inr (.inl ⟨rfl, rfl⟩)
    exact (reported_iff rfl hu).mp (h.reported _ rfl nofun hu) (.inl hm)

end BrainEngine.Daemon.Params
