import BrainEngine.Lib.Rewrite
import BrainEngine.Core.Llm
import Mathlib.Tactic.IntervalCases

/-! # Provider blocks set at the same time

Sessions of different projects, and the command line, block and unblock providers in one
`llm_state.json`. Each call is a process of two steps, the read and the write of the whole file, so the
calls are the edits of `Lib.Rewrite`. -/

namespace BrainEngine.Store.LlmBlocks

open BrainEngine.Rust.Str BrainEngine.Lib.Machine BrainEngine.Lib.Processes BrainEngine.Lib.Keyed
open BrainEngine.Lib.Rewrite BrainEngine.Core.External BrainEngine.Core.Llm

/-- `llm_state.json`, with the entry of each provider. -/
def format (path : Text) : Format StateFile LlmState Text (Option ProviderBlock) where
  load f := (read path f).toOption
  save := write
  view state := state.get?
  load_save _ := rfl

/-- A call as an edit of the file. -/
def edit (path : Text) (call : Call) : Edit (format path) where
  key := call.provider
  value := call.entry
  apply := call.apply
  view_apply := get?_apply call

/-- The file and the calls, each at its place. -/
abbrev Calls := Pool StateFile (Place LlmState)

/-- One step of a call: the read, or the write. -/
def step (path : Text) (calls : List Call) : Calls → ℕ → Option Calls :=
  Lib.Rewrite.step (calls.map (edit path))

/-- What the file says about a provider; `none` if it cannot be read. -/
def entry (path : Text) (f : StateFile) (provider : Text) : Option (Option ProviderBlock) :=
  (format path).entry f provider

/-- The provider of each call that has finished has the entry that this call established, and every
other provider has the entry it had in `f₀`. -/
structure NoneLost (path : Text) (calls : List Call) (f₀ : StateFile) (c : Calls) : Prop where
  own : ∀ p call, calls[p]? = some call → c.places p = .done →
    entry path c.shared call.provider = some call.entry
  others : ∀ provider, (∀ p call, calls[p]? = some call → c.places p = .done →
    call.provider ≠ provider) → entry path c.shared provider = entry path f₀ provider

/-- If the call is about to write, the file still has the entries that the call has read. -/
def StillRead (path : Text) (c : Calls) (p : ℕ) : Prop :=
  ∀ state, c.places p = .holding state → ∀ provider,
    entry path c.shared provider = some (state.get? provider)

variable {path : Text} {calls : List Call}

theorem noneLost_iff {f₀ : StateFile} {c : Calls} :
    NoneLost path calls f₀ c ↔ Kept (calls.map (edit path)) f₀ c := by
  have hfin : ∀ {p : ℕ} {e : Edit (format path)}, Finished (calls.map (edit path)) c p e ↔
      ∃ call, calls[p]? = some call ∧ c.places p = .done ∧ edit path call = e := by
    intro p e
    unfold Finished
    rw [List.getElem?_map, Option.map_eq_some_iff]
    constructor
    · rintro ⟨⟨call, hc, he⟩, hp⟩; exact ⟨call, hc, hp, he⟩
    · rintro ⟨call, hc, hp, he⟩; exact ⟨⟨call, hc, he⟩, hp⟩
  constructor
  · intro h
    refine ⟨fun p e he => ?_, fun k hk => h.others k fun p call hc hp => ?_⟩
    · obtain ⟨call, hc, hp, rfl⟩ := hfin.mp he
      exact h.own p call hc hp
    · exact hk p _ (hfin.mpr ⟨call, hc, hp, rfl⟩)
  · intro h
    refine ⟨fun p call hc hp => h.own p _ (hfin.mpr ⟨call, hc, hp, rfl⟩),
      fun k hk => h.others k fun p e he => ?_⟩
    obtain ⟨call, hc, hp, rfl⟩ := hfin.mp he
    exact hk p call hc hp

/-- **No provider block is lost, exactly while each call writes what it could read again.** In every
interleaving of calls for different providers, whatever was in the file: after each step the finished
calls have their entries and all other entries are as at first, if and only if the file still has, when
a call writes, the entries that this call has read. -/
theorem noneLost_iff_stillRead (hd : (calls.map Call.provider).Nodup) (f : StateFile) (ps : List ℕ) :
    AllSteps (step path calls) (fun _ _ c' => NoneLost path calls f c') ps (start f) ↔
      AllSteps (step path calls) (fun c p _ => StillRead path c p) ps (start f) := by
  have hkeys : ((calls.map (edit path)).map Edit.key).Nodup := by
    rw [List.map_map]
    exact hd
  simp only [noneLost_iff]
  exact allSteps_kept_iff hkeys f ps

/-! ### Two sessions -/

/-- One session blocks `claude`, another one `deepseek`. -/
def twoCalls : List Call := [
  .block "claude".toList 1000 18000 "rate_limit".toList,
  .block "deepseek".toList 1000 18000 "rate_limit".toList]

/-- One after the other. -/
theorem noneLost_inTurn : AllSteps (step [] twoCalls) (fun _ _ c' => NoneLost [] twoCalls .missing c')
    [0, 0, 1, 1] (start .missing) := by
  refine (noneLost_iff_stillRead (by decide) .missing [0, 0, 1, 1]).mpr ?_
  -- each call reads and then writes, so it writes what it could read again
  refine fun c₁ h₁ => ⟨fun _ h => (nomatch h), ?_⟩
  cases h₁
  refine fun c₂ h₂ => ⟨fun state h provider => ?_, ?_⟩
  · cases h
    rfl
  cases h₂
  refine fun c₃ h₃ => ⟨fun _ h => (nomatch h), ?_⟩
  cases h₃
  refine fun c₄ h₄ => ⟨fun state h provider => ?_, trivial⟩
  cases h
  rfl

/-- **The block of `claude` is lost** when both sessions read before either writes. -/
theorem not_noneLost : ¬∀ path calls f ps c, (calls.map Call.provider).Nodup →
    run (step path calls) ps (start f) = some c →
      (∀ p < calls.length, (c.places p).isDone = true) → NoneLost path calls f c := by
  intro h
  have hr : (run (step [] twoCalls) [0, 1, 0, 1] (start .missing)).map (fun c =>
      ((c.places 0).isDone, (c.places 1).isDone, entry [] c.shared "claude".toList)) =
        some (true, true, some none) := by decide
  obtain ⟨c, hc, hp⟩ := Option.map_eq_some_iff.mp hr
  obtain ⟨h0, hp⟩ := Prod.mk.inj hp
  obtain ⟨h1, he⟩ := Prod.mk.inj hp
  have hdone : ∀ p < twoCalls.length, (c.places p).isDone = true := by
    intro p hp
    have hp2 : p < 2 := hp
    interval_cases p
    · exact h0
    · exact h1
  have hplace : c.places 0 = .done := by
    cases hc0 : c.places 0 with
    | done => rfl
    | _ =>
      rw [hc0] at h0
      cases h0
  have hown := (h [] twoCalls .missing _ c (by decide) hc hdone).own 0 _ rfl hplace
  rw [show (Call.provider _) = "claude".toList from rfl, he] at hown
  cases hown

end BrainEngine.Store.LlmBlocks
