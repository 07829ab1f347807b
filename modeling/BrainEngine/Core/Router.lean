import BrainEngine.Core.Llm

/-! # Where a request goes

`router.rs` chooses the model that answers, from the load of the machine and from whether Claude is blocked,
by rules in a fixed order. -/

namespace BrainEngine.Core.Router

open BrainEngine.Rust.Str BrainEngine.Lib.Keyed BrainEngine.Core.External BrainEngine.Core.Llm

/-- The thresholds that the router reads. -/
structure DecisionConfig where
  cpuHighThreshold : UInt8 := 80
  memoryHighThresholdMb : UInt64 := 2048
  claudeWindowHours : UInt64 := 5
  deriving DecidableEq

/-- The load at the time of a decision. -/
structure SystemSnapshot where
  cpuPct : UInt8
  ramUsedMb : UInt64
  deriving DecidableEq

inductive LlmRoute
  | claude
  | deepSeek
  deriving DecidableEq

def LlmRoute.asStr : LlmRoute → Text
  | .claude => "claude".toList
  | .deepSeek => "deepseek".toList

structure RouteDecision where
  route : LlmRoute
  reason : Text
  deriving DecidableEq

/-- `router::route`. -/
def route (cfg : DecisionConfig) (snapshot : SystemSnapshot) (forced : Option LlmRoute)
    (isClaudeBlocked : Bool) : RouteDecision :=
  match forced with
  | some r => ⟨r, "forced: caller explicitly requested '".toList ++ r.asStr ++ "'".toList⟩
  | none =>
    if cfg.cpuHighThreshold ≤ snapshot.cpuPct then
      ⟨.deepSeek, "load_high: cpu ".toList ++ ofNat snapshot.cpuPct.toNat ++ "% >= threshold ".toList ++
        ofNat cfg.cpuHighThreshold.toNat ++ "% — routing to DeepSeek to reduce local load".toList⟩
    else if cfg.memoryHighThresholdMb ≤ snapshot.ramUsedMb then
      ⟨.deepSeek, "load_high: ram ".toList ++ ofNat snapshot.ramUsedMb.toNat ++ "MB >= threshold ".toList ++
        ofNat cfg.memoryHighThresholdMb.toNat ++ "MB — routing to DeepSeek to reduce local load".toList⟩
    else if isClaudeBlocked then
      ⟨.deepSeek, ("rate_limit: Claude is blocked (token quota exhausted) — " ++
        "using DeepSeek until the window resets").toList⟩
    else ⟨.claude, "default: system within limits, using Claude via Claude Code".toList⟩

/-- The route of `brain query`: a file that cannot be read blocks nobody. -/
def routeQuery (cfg : DecisionConfig) (path : Text) (file : StateFile) (snapshot : SystemSnapshot)
    (now : Int64) : RouteDecision :=
  let state := match read path file with
    | .ok state => state
    | .error _ => KeyTable.empty
  route cfg snapshot none (isBlocked state "claude".toList now)

/-! ### What the load decides -/

/-- The machine is under load. -/
def High (cfg : DecisionConfig) (snapshot : SystemSnapshot) : Prop :=
  cfg.cpuHighThreshold ≤ snapshot.cpuPct ∨ cfg.memoryHighThresholdMb ≤ snapshot.ramUsedMb

instance (cfg : DecisionConfig) (snapshot : SystemSnapshot) : Decidable (High cfg snapshot) :=
  inferInstanceAs (Decidable (_ ∨ _))

variable {cfg : DecisionConfig} {snapshot : SystemSnapshot}

theorem route_eq (blocked : Bool) : (route cfg snapshot none blocked).route =
    if High cfg snapshot ∨ blocked = true then .deepSeek else .claude := by
  unfold route High
  by_cases h1 : cfg.cpuHighThreshold ≤ snapshot.cpuPct
  · simp [h1]
  · by_cases h2 : cfg.memoryHighThresholdMb ≤ snapshot.ramUsedMb
    · simp [h1, h2]
    · cases blocked <;> simp [h1, h2]

end BrainEngine.Core.Router
