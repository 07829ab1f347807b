import BrainEngine.Hooks.Merge

/-! # The commands of an event

The commands in the groups of an event. Values that are alike have the same ones, and a merge adds one to
each of its events where it is missing. -/

namespace BrainEngine.Hooks.Commands

open BrainEngine.Rust.Str BrainEngine.Rust.Json BrainEngine.Core.Hooks BrainEngine.Hooks.Merge

/-- The commands of a group. -/
def groupCommands (group : Value) : List Text :=
  (itemsOr (group.get "hooks")).flatMap fun h => (h.getStr "command").toList

/-- The commands that are registered for an event. -/
def commands (event : String) (v : Value) : List Text := (groupsOf v event).flatMap groupCommands

variable {v w group : Value} {a b : Option Value} {xs ys : List Value} {event cmd : String}
variable {e : String × String}

theorem groupHas_iff : groupHas cmd group = true ↔ cmd.toList ∈ groupCommands group := by
  unfold groupHas groupCommands itemsOr
  rcases group.get "hooks" with _ | _ | _ | _ | _ | items | fields
  all_goals simp [Value.asArray]

theorem any_groupHas_iff {gs : List Value} :
    gs.any (groupHas cmd) = true ↔ cmd.toList ∈ gs.flatMap groupCommands := by
  rw [List.any_eq_true, List.mem_flatMap]
  exact exists_congr fun g => and_congr_right fun _ => groupHas_iff

theorem complete_iff : Complete v ↔ ∀ e ∈ entries, e.2.toList ∈ commands e.1 v :=
  forall₂_congr fun _ _ => any_groupHas_iff

/-! ### Values that are alike -/

theorem forall₂_itemsOr (h : Option.Rel Alike a b) : List.Forall₂ Alike (itemsOr a) (itemsOr b) := by
  rcases h with h | _
  · cases h with
    | array h => exact h
    | _ => exact .nil
  · exact .nil

theorem rel_lookup_fieldsOr (h : Option.Rel Alike a b) (key : Text) :
    Option.Rel Alike ((fieldsOr a).lookup key) ((fieldsOr b).lookup key) := by
  rcases h with h | _
  · cases h with
    | object h => exact h key
    | _ => exact .none
  · exact .none

theorem flatMap_eq_of_alike {f : Value → List Text} (h : List.Forall₂ Alike xs ys)
    (hf : ∀ x y, Alike x y → f x = f y) : xs.flatMap f = ys.flatMap f := by
  induction h with
  | nil => rfl
  | cons hab _ ih => rw [List.flatMap_cons, List.flatMap_cons, hf _ _ hab, ih]

theorem forall₂_groupsOf (h : Alike v w) (event : String) :
    List.Forall₂ Alike (groupsOf v event) (groupsOf w event) :=
  forall₂_itemsOr (rel_lookup_fieldsOr (rel_lookup_fieldsOr (.some h) _) _)

theorem groupCommands_eq_of_alike (h : Alike v w) : groupCommands v = groupCommands w :=
  flatMap_eq_of_alike (forall₂_itemsOr (h.get _)) fun _ _ hab => congrArg Option.toList (hab.getStr _)

/-- **Values that are alike** have the same commands. -/
theorem commands_eq_of_alike (h : Alike v w) (event : String) : commands event v = commands event w :=
  flatMap_eq_of_alike (forall₂_groupsOf h event) fun _ _ => groupCommands_eq_of_alike

/-! ### Merging -/

theorem groupCommands_hookGroup (cmd : String) : groupCommands (hookGroup cmd) = [cmd.toList] := rfl

theorem groupsOf_mergeValue (he : e ∈ entries) :
    groupsOf (mergeValue v).1 e.1 = withHook e.2 (groupsOf v e.1) := by
  obtain ⟨f, h, hf, hh, -, hevents, -⟩ := mergeValue_spec v
  unfold groupsOf hooksOf
  rw [hf]
  simp only [fieldsOr, hh, hevents e he, itemsOr]
  rfl

theorem groupsOf_mergeValue_of_notMem (h : ∀ e ∈ entries, event ≠ e.1) :
    groupsOf (mergeValue v).1 event = groupsOf v event := by
  obtain ⟨f, h', hf, hh, -, -, hrest⟩ := mergeValue_spec v
  unfold groupsOf
  rw [← hrest _ fun e he heq => h e he (String.toList_inj.mp heq)]
  unfold hooksOf
  rw [hf]
  simp only [fieldsOr, hh]

/-- **The commands after a merge.** -/
theorem commands_mergeValue (he : e ∈ entries) : commands e.1 (mergeValue v).1 =
    if e.2.toList ∈ commands e.1 v then commands e.1 v else commands e.1 v ++ [e.2.toList] := by
  unfold commands
  rw [groupsOf_mergeValue he, withHook]
  simp only [any_groupHas_iff]
  split_ifs
  · rfl
  · rw [List.flatMap_append, List.flatMap_singleton, groupCommands_hookGroup]

theorem commands_mergeValue_of_notMem (h : ∀ e ∈ entries, event ≠ e.1) :
    commands event (mergeValue v).1 = commands event v :=
  congrArg (·.flatMap groupCommands) (groupsOf_mergeValue_of_notMem h)

/-- Both commands are there after a merge. -/
theorem complete_mergeValue : Complete (mergeValue v).1 := by
  rw [complete_iff]
  intro e he
  rw [commands_mergeValue he]
  split_ifs with h
  · exact h
  · exact List.mem_append_right _ (List.mem_singleton_self _)

end BrainEngine.Hooks.Commands
