import BrainEngine.Lib.Rowid
import BrainEngine.Lib.Outcome
import BrainEngine.Lib.Atomic
import BrainEngine.Lib.Parallel
import BrainEngine.Lib.Machine
import BrainEngine.Lib.Processes
import BrainEngine.Lib.Keyed
import BrainEngine.Lib.Expiry
import BrainEngine.Lib.Utf8
import BrainEngine.Lib.Buffered
import BrainEngine.Lib.Sorted
import BrainEngine.Lib.Effects
import BrainEngine.Lib.Memo
import BrainEngine.Lib.Windows
import BrainEngine.Lib.Rewrite
import BrainEngine.Lib.Fallback
import BrainEngine.Lib.Paths
import BrainEngine.Lib.Scan
import BrainEngine.Lib.Ranked
import BrainEngine.Lib.Lexing
import BrainEngine.Lib.Fences
import BrainEngine.Lib.Sections
import BrainEngine.Lib.Pieces
import BrainEngine.Lib.Calendar
import BrainEngine.Lib.Quotes
import BrainEngine.Lib.Distinct
import BrainEngine.Rust.Str
import BrainEngine.Rust.Slice
import BrainEngine.Rust.Spans
import BrainEngine.Rust.Usize
import BrainEngine.Rust.I64
import BrainEngine.Rust.Lines
import BrainEngine.Rust.Trim
import BrainEngine.Rust.Utf8
import BrainEngine.Rust.BufRead
import BrainEngine.Js.Values
import BrainEngine.Js.Text
import BrainEngine.Core.External
import BrainEngine.Core.Config
import BrainEngine.Core.Chunking
import BrainEngine.Core.Symbols
import BrainEngine.Core.Walk
import BrainEngine.Core.Database
import BrainEngine.Core.Index
import BrainEngine.Core.Docs
import BrainEngine.Core.Vectors
import BrainEngine.Core.Embedding
import BrainEngine.Core.Passes
import BrainEngine.Core.Retrieve
import BrainEngine.Core.Cache
import BrainEngine.Core.Query
import BrainEngine.Core.Migrations
import BrainEngine.Core.Summarize
import BrainEngine.Core.Sample
import BrainEngine.Core.Llm
import BrainEngine.Core.Scaffold
import BrainEngine.Core.Api
import BrainEngine.Core.Provider
import BrainEngine.Core.Hooks
import BrainEngine.Core.Uninstall
import BrainEngine.Core.SymbolSearch
import BrainEngine.Core.Locator
import BrainEngine.Core.ModelRouter
import BrainEngine.Core.Router
import BrainEngine.Core.Metrics
import BrainEngine.Core.Stats
import BrainEngine.Index.Runs
import BrainEngine.Index.Snapshot
import BrainEngine.Index.Incremental
import BrainEngine.Index.ChunkIds
import BrainEngine.Index.Idempotent
import BrainEngine.Index.Windows
import BrainEngine.Index.Reconfigure
import BrainEngine.Index.Signatures
import BrainEngine.Symbols.Lines
import BrainEngine.Symbols.Pointing
import BrainEngine.Symbols.Docs
import BrainEngine.Symbols.Names
import BrainEngine.Symbols.Search
import BrainEngine.Passes.Loop
import BrainEngine.Passes.Stages
import BrainEngine.Passes.Counts
import BrainEngine.Passes.Marked
import BrainEngine.Passes.Mirror
import BrainEngine.Passes.Retrieval
import BrainEngine.Passes.Pin
import BrainEngine.Passes.Resume
import BrainEngine.Passes.Rebuild
import BrainEngine.Passes.ModelChange
import BrainEngine.Passes.Shape
import BrainEngine.Passes.Overlap
import BrainEngine.Passes.PinRepair
import BrainEngine.Passes.Contract
import BrainEngine.Passes.Searchable
import BrainEngine.Store.Migrate
import BrainEngine.Store.LlmBlocks
import BrainEngine.Store.LlmWindow
import BrainEngine.Store.Init
import BrainEngine.Store.LlmRoute
import BrainEngine.Summaries.Sync
import BrainEngine.Summaries.Stale
import BrainEngine.Summaries.Again
import BrainEngine.Summaries.Limits
import BrainEngine.Summaries.Paths
import BrainEngine.Summaries.Follow
import BrainEngine.Cache.Timed
import BrainEngine.Cache.Models
import BrainEngine.Cache.Limits
import BrainEngine.Cache.Best
import BrainEngine.Cache.Ttl
import BrainEngine.Query.Packing
import BrainEngine.Query.Targets
import BrainEngine.Query.Guardrail
import BrainEngine.Query.Quotes
import BrainEngine.Query.Extract
import BrainEngine.Metrics.Dates
import BrainEngine.Metrics.Stamps
import BrainEngine.Metrics.Ledger
import BrainEngine.Metrics.Recording
import BrainEngine.Metrics.Queries
import BrainEngine.Metrics.Log
import BrainEngine.Metrics.Panel
import BrainEngine.Providers.Resolution
import BrainEngine.Hooks.Merge
import BrainEngine.Hooks.Commands
import BrainEngine.Hooks.Preserve
import BrainEngine.Hooks.Again
import BrainEngine.Hooks.Uninstall
import BrainEngine.Daemon.Protocol
import BrainEngine.Daemon.Params
import BrainEngine.Daemon.Debounce
import BrainEngine.Daemon.Bursts
import BrainEngine.Daemon.Serving
import BrainEngine.Daemon.Replies
import BrainEngine.Daemon.Wire
import BrainEngine.Daemon.Linear
import BrainEngine.Daemon.Worker
import BrainEngine.Daemon.ReadBack
import BrainEngine.Daemon.Watching
import BrainEngine.Client.Framing
import BrainEngine.Client.Stop
import BrainEngine.Client.Compress
import BrainEngine.Client.Panel
import BrainEngine.Client.Context
import BrainEngine.Client.Eco
