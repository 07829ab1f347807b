import BrainEngine.Client.Stop
import BrainEngine.Core.Router
import BrainEngine.Store.LlmWindow

/-! # From a rate limit to the route of a query

The Stop hook runs `brain llm block claude` when it reads of a rate limit, users run `brain llm block` and
`unblock` themselves, and `brain query` reads what is left of it all in `llm_state.json`. The last call for
Claude decides (`isBlocked_fileAfter`), so that the end of a block needs no call. -/

namespace BrainEngine.Store.LlmRoute

open BrainEngine.Rust.Str BrainEngine.Lib.Keyed BrainEngine.Core.External BrainEngine.Core.Llm
open BrainEngine.Core.Router BrainEngine.Store.LlmWindow BrainEngine.Js.Values BrainEngine.Client.Stop

/-- What may write the file. -/
inductive Event
  /-- `brain llm block`, with `--hours` or without. -/
  | block (provider : Text) (hours : Option UInt64) (now : Int64)
  | unblock (provider : Text)
  /-- The Stop hook, with what it reads from stdin. -/
  | stop (host : Host) (raw : JsString) (now : Int64)

variable (parse : JsString → Option Json) (cfg : DecisionConfig)

/-- The call of an event. -/
def Event.call : Event → Option Call
  | .block provider hours now => some (blockCall cfg.claudeWindowHours provider hours now)
  | .unblock provider => some (.unblock provider)
  | .stop host raw now =>
    if (hookStop parse host raw).blocked then
      some (blockCall cfg.claudeWindowHours "claude".toList none now)
    else none

/-- The file after a call, which leaves a file that it cannot read. -/
def fileStep (path : Text) (f : StateFile) (call : Call) : StateFile :=
  match call.perform path f with
  | .ok f' => f'
  | .error _ => f

/-- The file after some events, one after the other. -/
def fileAfter (path : Text) (f : StateFile) (events : List Event) : StateFile :=
  (events.filterMap (Event.call parse cfg)).foldl (fileStep path) f

/-- The entry that some calls leave for a provider. -/
def entryAfter (provider : Text) (entry : Option ProviderBlock) (calls : List Call) : Option ProviderBlock :=
  calls.foldl (fun e call => if provider = call.provider then call.entry else e) entry

variable {parse cfg} {path provider : Text} {f : StateFile} {state : LlmState}

theorem fileStep_of_read (h : read path f = .ok state) (call : Call) :
    fileStep path f call = .json (call.apply state) := by
  unfold fileStep Call.perform
  rw [h]
  rfl

/-- **The last call for a provider decides.** -/
theorem read_foldl (h : read path f = .ok state) (calls : List Call) :
    ∃ state', read path (calls.foldl (fileStep path) f) = .ok state' ∧
      state'.get? provider = entryAfter provider (state.get? provider) calls := by
  induction calls generalizing f state with
  | nil => exact ⟨state, h, rfl⟩
  | cons call calls ih =>
    have hstep : read path (fileStep path f call) = .ok (call.apply state) := by
      rw [fileStep_of_read h]
      rfl
    obtain ⟨state', h1, h2⟩ := ih hstep
    refine ⟨state', h1, ?_⟩
    rw [h2, get?_apply]
    rfl

/-- Calls for other providers leave the entry. -/
theorem entryAfter_of_ne {calls : List Call} {entry : Option ProviderBlock}
    (h : ∀ call ∈ calls, call.provider ≠ provider) : entryAfter provider entry calls = entry := by
  induction calls generalizing entry with
  | nil => rfl
  | cons call calls ih =>
    have hne : provider ≠ call.provider := fun he => h call List.mem_cons_self he.symm
    show entryAfter provider (if provider = call.provider then call.entry else entry) calls = entry
    rw [if_neg hne]
    exact ih fun c hc => h c (List.mem_cons_of_mem _ hc)

/-- The event writes nothing about Claude. -/
def SparesClaude (parse : JsString → Option Json) (cfg : DecisionConfig) (ev : Event) : Prop :=
  ∀ call, ev.call parse cfg = some call → call.provider ≠ "claude".toList

/-- **A rate limit turns the queries to DeepSeek, and its end turns them back.** Whatever blocks have been
set and removed before, and whatever happens afterwards that says nothing of Claude: once the Stop hook
has read of a rate limit, a query goes to DeepSeek exactly until the configured hours are over or as long
as the machine is under load, and to Claude otherwise. -/
theorem routeQuery_afterStop (hread : read path f = .ok state) (before after : List Event) {host : Host}
    {raw : JsString} {now : Int64} (hstop : (hookStop parse host raw).blocked = true)
    (hafter : ∀ ev ∈ after, SparesClaude parse cfg ev) (hnow : 0 ≤ now)
    (hfits : now.toInt + 3600 * cfg.claudeWindowHours.toNat < 2 ^ 63) (snapshot : SystemSnapshot)
    {t : Int64} (ht : now ≤ t) :
    (routeQuery cfg path (fileAfter parse cfg path f (before ++ .stop host raw now :: after)) snapshot t).route =
      if High cfg snapshot ∨ t.toInt < now.toInt + 3600 * cfg.claudeWindowHours.toNat
      then .deepSeek else .claude := by
  let call := blockCall cfg.claudeWindowHours "claude".toList none now
  let calls := (before ++ .stop host raw now :: after).filterMap (Event.call parse cfg)
  obtain ⟨state', hread', hentry⟩ : ∃ state', read path (calls.foldl (fileStep path) f) = .ok state' ∧
      state'.get? "claude".toList = entryAfter "claude".toList (state.get? "claude".toList) calls :=
    read_foldl hread calls
  -- the entry is that of the hook's call
  have hcalls : calls = before.filterMap (Event.call parse cfg) ++
      call :: after.filterMap (Event.call parse cfg) := by
    have hcall : (Event.stop host raw now).call parse cfg = some call := if_pos hstop
    show (before ++ _ :: after).filterMap _ = _
    rw [List.filterMap_append, List.filterMap_cons, hcall]
  have hlast : state'.get? "claude".toList = call.entry := by
    rw [hentry, hcalls, entryAfter, List.foldl_append, List.foldl_cons]
    refine entryAfter_of_ne fun c hc => ?_
    obtain ⟨ev, hev, heq⟩ := List.mem_filterMap.mp hc
    exact hafter ev hev c heq
  have hblocked : isBlocked state' "claude".toList t = true ↔
      t.toInt < now.toInt + 3600 * cfg.claudeWindowHours.toNat := by
    have hsame : isBlocked state' "claude".toList t =
        isBlocked (call.apply KeyTable.empty) "claude".toList t := by
      unfold isBlocked
      rw [hlast, get?_apply]
      rfl
    have hlasts : Lasts (call.apply KeyTable.empty) "claude".toList cfg.claudeWindowHours now :=
      (lasts_iff cfg.claudeWindowHours hnow).mpr hfits
    rw [hsame]
    exact hlasts t ht
  have hfile : read path (fileAfter parse cfg path f (before ++ .stop host raw now :: after)) = .ok state' :=
    hread'
  unfold routeQuery
  rw [hfile, route_eq]
  exact if_congr (or_congr_right hblocked) rfl rfl

/-- A transcript that ends with an error 429. -/
def limitedHost : Host := hostOf [entryText "user" "hi", entryText "assistant" "Error 429"]

/-- DeepSeek is blocked after the hook has run, and queries are asked in the last second of the five hours
and one later. -/
theorem routeQuery_limitedHost :
    let events := [.unblock "claude".toList] ++ .stop limitedHost eventText 1000 ::
      [.block "deepseek".toList (some 9) 1001]
    let file := fileAfter parseSome {} [] .missing events
    (routeQuery {} [] file ⟨10, 100⟩ 18999).route = .deepSeek ∧
      (routeQuery {} [] file ⟨10, 100⟩ 19000).route = .claude := by
  intro events file
  have hread : read [] .missing = .ok KeyTable.empty := rfl
  have hstop : (hookStop parseSome limitedHost eventText).blocked = true := by decide +kernel
  have hafter : ∀ ev ∈ [Event.block "deepseek".toList (some 9) 1001], SparesClaude parseSome {} ev := by
    intro ev hev call hcall
    obtain rfl := List.mem_singleton.mp hev
    obtain rfl := Option.some.inj hcall
    show "deepseek".toList ≠ "claude".toList
    decide
  have hroute := fun t ht => routeQuery_afterStop (t := t) hread [.unblock "claude".toList] _
    hstop hafter (show (0 : Int64) ≤ 1000 by decide) (by decide) ⟨10, 100⟩ ht
  have hin := hroute 18999 (by decide)
  have hout := hroute 19000 (by decide)
  rw [if_pos (by decide)] at hin
  rw [if_neg (by decide)] at hout
  exact ⟨hin, hout⟩

end BrainEngine.Store.LlmRoute
