import BrainEngine.Core.Passes
import BrainEngine.Core.Query
import BrainEngine.Core.SymbolSearch
import BrainEngine.Daemon.Linear

/-! # The handlers of the worker

`run_loop` of the worker: what each message does to the project and the cache, and what the reply says.
A handler reads the clock, the directory and the configuration file where the source does. A pass that
fails leaves what it had done. The metrics that `handle_query` records, and the summaries that
`handle_index` writes, are in tables that no reply is made of; a failure of the latter ends the pass. -/

namespace BrainEngine.Daemon.Worker

open BrainEngine.Rust.Str BrainEngine.Lib.Atomic.Prog BrainEngine.Core.External BrainEngine.Core.Config
open BrainEngine.Core.Walk BrainEngine.Core.Database BrainEngine.Core.Index BrainEngine.Core.Vectors
open BrainEngine.Core.Embedding BrainEngine.Core.Passes BrainEngine.Core.Cache BrainEngine.Core.Query
open BrainEngine.Core.SymbolSearch BrainEngine.Daemon.Protocol BrainEngine.Daemon.Linear
open BrainEngine.Core.Retrieve (Lance)

/-- What a worker keeps throughout: its embedder, the configuration of the cache, and the libraries. -/
structure Setting (V : Type) where
  x : Extern
  engine : Engine
  lance : Lance
  /-- What SQLite makes of the query of `symbols::search`. -/
  select : Db → Option Text → Option Text → ℕ → List SymbolRecord
  cacheCfg : CacheConfig
  embedder : Embedder
  /-- `json!` of `handle_status`. -/
  statusJson : ℕ → ℕ → ℕ → Text → V
  answerJson : Answer → V
  indexJson : IndexStats → ℕ → V
  /-- `{"stored": true}`. -/
  storedJson : V
  symbolsJson : List SymbolRecord → V

structure Data where
  project : Project
  cache : CacheTable

/-- What a handler reads while it runs. -/
structure Input where
  atExact : ℤ
  atSemantic : ℤ
  atStore : ℤ
  atPurge : ℤ
  /-- `load_or_default` of the configuration. -/
  cfg : Except Text ProjectConfig
  tree : Tree
  now : ℕ
  /-- The error of `sync_project_summaries`. -/
  syncError : Option Text

/-- `to_string` of an error. -/
def display : BrainError → Text
  | .notADirectory path => "path is not a usable directory: ".toList ++ path
  | .configParse path source => "invalid configuration in ".toList ++ path ++ ": ".toList ++ source
  | .io path source => "filesystem error at ".toList ++ path ++ ": ".toList ++ source
  | .db message => "database error: ".toList ++ message
  | .glob pattern message =>
    "invalid glob pattern '".toList ++ pattern ++ "': ".toList ++ message
  | .walk message => "error walking project tree: ".toList ++ message
  -- the daemon reports the error of the embedder itself
  | .embed message => message
  | .vector message => "vector store error: ".toList ++ message

variable {V : Type}

/-- The reply of a handler that fails. A panic has none. -/
def failed : Failure → Option (Reply V)
  | .error e => some (.result (.error (display e)))
  | .panic => none

def replyOf {α : Type} (json : α → V) : Except Failure α → Option (Reply V)
  | .ok a => some (.result (.ok (json a)))
  | .error f => failed f

variable (w : Setting V)

def handleStatus (d : Data) : Reply V :=
  .result (.ok (w.statusJson d.project.db.files.rows.length d.project.db.chunks.rows.length
    (count d.project.vs) w.embedder.modelId))

/-- A query message with the worker's configuration. -/
def call (p : QueryParams) (i : Input) : Call where
  frontEnd := .daemon
  query := p.query
  limits := ⟨p.topK, p.tokens⟩
  noCache := p.noCache
  cfg := w.cacheCfg
  embedder := w.embedder
  atExact := i.atExact
  atSemantic := i.atSemantic
  atStore := i.atStore
  atPurge := i.atPurge

/-- `handle_query`: its answer, and the cache after it. -/
def handleQueryMsg (d : Data) (p : QueryParams) (i : Input) : Except Failure Answer × CacheTable :=
  handleQuery w.x w.engine w.lance ⟨d.project.vs, d.project.db⟩ d.cache (call w p i)

/-- `handle_index`: its reply, and the project after it. -/
def handleIndexMsg (d : Data) (p : IndexParams) (i : Input) : Option (Reply V) × Project :=
  match i.cfg, i.syncError with
  | .error e, _ => (some (.result (.error e)), d.project)
  | .ok cfg, none =>
    let pass := handleIndex ⟨i.tree, cfg, i.now, p.reindex, p.noEmbed⟩ w.embedder
    (replyOf (fun r => w.indexJson r.1.1 r.1.2) (eval (exec w.x) pass d.project),
      final (exec w.x) pass d.project)
  | .ok cfg, some e =>
    match exec w.x _ (.indexProject i.tree cfg i.now) d.project with
    | .ok (_, project) => (some (.result (.error e)), project)
    | .error f => (failed f, d.project)

/-- The vector that `handle_store` stores. -/
def storeVector (query : Text) : Except Failure (Option (List F32)) :=
  if w.cacheCfg.semanticEnabled then
    match w.embedder.embed [query] with
    | .error message => .error (.error (.embed message))
    | .ok [] => .error .panic
    | .ok (v :: _) => .ok (some v)
  else .ok none

/-- `handle_store`: the cache after it. -/
def handleStore (t : CacheTable) (p : StoreParams) (i : Input) : Except Failure CacheTable :=
  (storeVector w p.query).map fun v =>
    (purgeExpired (store w.x w.engine t w.cacheCfg p.query w.embedder.modelId p.response v none
      i.atStore) i.atPurge).1

/-- `handle_symbols`. -/
def handleSymbols (d : Data) (p : SymbolsParams) : Reply V :=
  .result (.ok (w.symbolsJson (w.select d.project.db p.name p.kind p.limit)))

/-- The body of `run_loop`. -/
def handle (d : Data) (msg : WorkerMsg) (i : Input) : Option (Reply V × Data) :=
  match msg with
  | .ping => some (.pong, d)
  | .shutdown => none
  | .status => some (handleStatus w d, d)
  | .query p =>
    (replyOf w.answerJson (handleQueryMsg w d p i).1).map fun r =>
      (r, { d with cache := (handleQueryMsg w d p i).2 })
  | .index p =>
    (handleIndexMsg w d p i).1.map fun r => (r, { d with project := (handleIndexMsg w d p i).2 })
  | .store p =>
    match handleStore w d.cache p i with
    | .ok t => some (.result (.ok w.storedJson), { d with cache := t })
    | .error f => (failed f).map fun r => (r, d)
  | .symbols p => some (handleSymbols w d p, d)

/-- The worker, beside others that change the project. -/
def handlers : Handlers V Data Input Project where
  handle := handle w
  outside d project := { d with project }

end BrainEngine.Daemon.Worker
