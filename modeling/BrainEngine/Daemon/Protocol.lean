import BrainEngine.Rust.Str

/-! # The JSON-line protocol of the daemon

The envelopes and parameters of `protocol.rs`, the messages to the worker, and what `dispatch` makes of
a request line. `Serde` is what `serde_json` does with lines and with the values of type `V` in them. -/

namespace BrainEngine.Daemon.Protocol

open BrainEngine.Rust.Str

/-- Envelope for every inbound request. -/
structure RequestEnvelope (V : Type) where
  id : ℕ
  method : Text
  params : V

/-- Envelope for every outbound response. -/
structure ResponseEnvelope (V : Type) where
  id : ℕ
  ok : Bool
  result : Option V
  error : Option Text
  deriving DecidableEq

variable {V : Type}

/-- `ResponseEnvelope::ok`. -/
def okResponse (id : ℕ) (result : V) : ResponseEnvelope V := ⟨id, true, some result, none⟩

/-- `ResponseEnvelope::err`. -/
def errResponse (id : ℕ) (msg : Text) : ResponseEnvelope V := ⟨id, false, none, some msg⟩

structure QueryParams where
  query : Text
  topK : ℕ := 5
  tokens : ℕ := 4000
  noCache : Bool := false
  deriving DecidableEq

structure IndexParams where
  reindex : Bool := false
  noEmbed : Bool := false
  deriving DecidableEq

structure StoreParams where
  query : Text
  response : Text
  deriving DecidableEq

structure SymbolsParams where
  name : Option Text := none
  kind : Option Text := none
  /-- `20` where the field is missing, but `0` in `SymbolsParams::default()`. -/
  limit : ℕ
  deriving DecidableEq

/-- Messages that can be sent to the worker thread, without their reply channels. -/
inductive WorkerMsg
  | ping
  | status
  | query (params : QueryParams)
  | index (params : IndexParams)
  | store (params : StoreParams)
  | symbols (params : SymbolsParams)
  | shutdown
  deriving DecidableEq

/-- The decoders of the protocol's types. -/
structure Serde (V : Type) where
  fromStr : Text → Except Text (RequestEnvelope V)
  queryParams : V → Except Text QueryParams
  indexParams : V → Except Text IndexParams
  storeParams : V → Except Text StoreParams
  symbolsParams : V → Except Text SymbolsParams
  /-- `{"pong": true}`. -/
  pong : V

/-- A request line is answered at once, or sends a message whose reply is the answer. -/
inductive Dispatched (V : Type)
  | respond (resp : ResponseEnvelope V)
  | send (id : ℕ) (msg : WorkerMsg)

/-- A message whose parameters must decode. -/
def sendWith {α : Type} (id : ℕ) (params : Except Text α) (msg : α → WorkerMsg) : Dispatched V :=
  match params with
  | .ok p => .send id (msg p)
  | .error e => .respond (errResponse id ("bad params: ".toList ++ e))

/-- `unwrap_or_default`. -/
def unwrapOr {α : Type} (default : α) : Except Text α → α
  | .ok a => a
  | .error _ => default

/-- `dispatch` up to the send. -/
def dispatch (serde : Serde V) (line : Text) : Dispatched V :=
  match serde.fromStr line with
  | .error e => .respond (errResponse 0 ("invalid JSON: ".toList ++ e))
  | .ok env =>
    if env.method = "ping".toList then .send env.id .ping
    else if env.method = "status".toList then .send env.id .status
    else if env.method = "query".toList then
      sendWith env.id (serde.queryParams env.params) .query
    else if env.method = "index".toList then
      .send env.id (.index (unwrapOr {} (serde.indexParams env.params)))
    else if env.method = "store".toList then
      sendWith env.id (serde.storeParams env.params) .store
    else if env.method = "symbols".toList then
      .send env.id (.symbols (unwrapOr { limit := 0 } (serde.symbolsParams env.params)))
    else .respond (errResponse env.id ("unknown method: ".toList ++ env.method))

/-- What the worker sends on the reply channel: `()` for a ping. -/
inductive Reply (V : Type)
  | pong
  | result (r : Except Text V)

/-- The response to what arrives on the reply channel, `none` if the channel was dropped. A ping does
not look. -/
def respond (serde : Serde V) (id : ℕ) (msg : WorkerMsg) (reply : Option (Reply V)) :
    ResponseEnvelope V :=
  if msg = .ping then okResponse id serde.pong
  else match reply with
    | some (.result (.ok v)) => okResponse id v
    | some (.result (.error e)) => errResponse id e
    | _ => errResponse id "worker dropped reply".toList

/-- The worker did what it was asked. -/
def Reply.successful : Reply V → Bool
  | .pong => true
  | .result (.ok _) => true
  | .result (.error _) => false

/-- The kind of reply a message gets. -/
def Reply.fits : Reply V → WorkerMsg → Bool
  | .pong, msg => msg = .ping
  | .result _, msg => msg ≠ .ping && msg ≠ .shutdown

variable {serde : Serde V} {line : Text}

/-- What is made of a request with this id: an error under the id, or a message whose answer gets it. -/
def Dispatched.For (id : ℕ) : Dispatched V → Prop
  | .respond resp => resp.ok = false ∧ resp.id = id
  | .send id' msg => id' = id ∧ msg ≠ .shutdown

theorem for_sendWith {α : Type} {id : ℕ} {params : Except Text α} {msg : α → WorkerMsg}
    (h : ∀ p, msg p ≠ .shutdown) : (sendWith id params msg : Dispatched V).For id := by
  cases params with
  | ok p => exact ⟨rfl, h p⟩
  | error e => exact ⟨rfl, rfl⟩

/-- **A request that decodes keeps its id.** -/
theorem for_dispatch {env : RequestEnvelope V} (h : serde.fromStr line = .ok env) :
    (dispatch serde line).For env.id := by
  unfold dispatch
  rw [h]
  dsimp only
  split_ifs
  · exact ⟨rfl, by simp⟩
  · exact ⟨rfl, by simp⟩
  · exact for_sendWith fun p => by simp
  · exact ⟨rfl, by simp⟩
  · exact for_sendWith fun p => by simp
  · exact ⟨rfl, by simp⟩
  · exact ⟨rfl, rfl⟩

/-- A response without the worker reports an error, under the id of a request that decodes. -/
theorem dispatch_respond {resp : ResponseEnvelope V} (h : dispatch serde line = .respond resp) :
    resp.ok = false ∧ ∀ env, serde.fromStr line = .ok env → resp.id = env.id := by
  cases hd : serde.fromStr line with
  | error e =>
    unfold dispatch at h
    rw [hd] at h
    cases h
    exact ⟨rfl, fun env he => by cases he⟩
  | ok env =>
    have hf := for_dispatch hd
    rw [h] at hf
    exact ⟨hf.1, fun env' he => by cases he; exact hf.2⟩

theorem dispatch_send {id : ℕ} {msg : WorkerMsg} (h : dispatch serde line = .send id msg) :
    msg ≠ .shutdown ∧ ∀ env, serde.fromStr line = .ok env → id = env.id := by
  cases hd : serde.fromStr line with
  | error e =>
    unfold dispatch at h
    rw [hd] at h
    cases h
  | ok env =>
    have hf := for_dispatch hd
    rw [h] at hf
    exact ⟨hf.2, fun env' he => by cases he; exact hf.1⟩

theorem id_respond (id : ℕ) (msg : WorkerMsg) (reply : Option (Reply V)) :
    (respond serde id msg reply).id = id := by
  unfold respond
  split_ifs
  · rfl
  · split <;> rfl

/-- Except to a ping, only a successful reply is answered with `ok`. -/
theorem successful_of_ok {id : ℕ} {msg : WorkerMsg} {reply : Option (Reply V)} (hp : msg ≠ .ping)
    (h : (respond serde id msg reply).ok = true) : ∃ r, reply = some r ∧ r.successful = true := by
  unfold respond at h
  rw [if_neg hp] at h
  split at h
  · exact ⟨_, rfl, rfl⟩
  · cases h
  · cases h

end BrainEngine.Daemon.Protocol
