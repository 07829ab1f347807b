import BrainEngine.Core.Uninstall
import BrainEngine.Hooks.Commands

/-! # Installing and uninstalling

The uninstaller looks for commands with `brain` in them, and the installer registers none: `not_undone`. -/

namespace BrainEngine.Hooks.Uninstall

open BrainEngine.Rust.Str BrainEngine.Rust.Json BrainEngine.Rust.Utf8 BrainEngine.Core.External
open BrainEngine.Core.Hooks BrainEngine.Core.Uninstall BrainEngine.Hooks.Merge BrainEngine.Hooks.Commands
open BrainEngine.Lib.Utf8 (encode)

/-- Settings as a user has them: an object in which `hooks`, if it is there, maps events to arrays. -/
def UserSettings (v : Value) : Prop :=
  ∃ f, v = .object f ∧ ∀ h, f.lookup "hooks".toList = some h →
    ∃ hs, h = .object hs ∧ ∀ event gs, hs.lookup event = some gs → ∃ items, gs = .array items

/-- None of the two commands is registered for any event. -/
def NoHooks (v : Value) : Prop := ∀ event, ∀ e ∈ entries, e.2.toList ∉ commands event v

/-- **The installation is undone**: the commands are gone, and the user's groups and all other fields are
there, up to their numbers. -/
structure Undone (old new : Value) : Prop where
  gone : NoHooks new
  groups : ∀ event, ∀ g ∈ groupsOf old event, ∃ g' ∈ groupsOf new event, Alike g g'
  others : ∀ key, key ≠ "hooks" → Option.Rel Alike (old.get key) (new.get key)

/-- The settings after the uninstaller has looked at the file. -/
def afterClean (m : Machine) (serde : Serde) (v : Value) : Value :=
  (cleanSettings m (.bytes (encode (settingsText serde v)))).getD v

variable {serde : Serde} {disk : Disk} {root : Text} {file : SettingsFile} {m : Machine}
variable {v w old new group : Value} {vs gs : List Value} {keep : Value → Option Bool} {event cmd : String}
variable {hooks : List (Text × Value)} {b : Bool}

/-! ### What the filter keeps -/

theorem mem_select (h : select keep vs = some gs) (hv : v ∈ vs) (hk : keep v = some true) : v ∈ gs := by
  induction vs generalizing gs with
  | nil => exact absurd hv List.not_mem_nil
  | cons u vs ih =>
    obtain ⟨kept, hkept, hrest⟩ := Option.bind_eq_some_iff.mp h
    obtain ⟨rest, hsel, hgs⟩ := Option.bind_eq_some_iff.mp hrest
    obtain rfl : (if kept then u :: rest else rest) = gs := Option.some.inj hgs
    rcases List.mem_cons.mp hv with rfl | hv
    · rw [hk] at hkept
      cases hkept
      exact List.mem_cons_self
    · have hmem := ih hsel hv
      split_ifs
      · exact List.mem_cons_of_mem _ hmem
      · exact hmem

theorem field_of_get {key : String} (h : v.get key = some w) : field key v = some w := by
  cases v with
  | object fields =>
    exact congrArg (fun o : Option Value => some (o.getD .null)) h
  | _ => cases h

theorem outputs_singleton {a : Value → Option Value} (h : a v = some w) (hw : truthy w = true) :
    outputs a [v] = [w] := by
  simp [outputs, h, hw]

/-- **A group like the one that is registered** is kept, unless its command mentions brain. -/
theorem keepGroup_of_alike (h : Alike (hookGroup cmd) group) (hc : mentions brain cmd.toList = false) :
    keepGroup group = some true := by
  -- the group has one hook, with the command
  obtain ⟨hook, hhooks, hcmd⟩ : ∃ hook, group.get "hooks" = some (.array [hook]) ∧
      hook.get "command" = some (.string cmd.toList) := by
    obtain ⟨items, hitems, hlike⟩ := h.get_some
      (show (hookGroup cmd).get "hooks" = some (.array [.object [("type".toList, .string "command".toList),
        ("command".toList, .string cmd.toList)]]) from rfl)
    obtain ⟨ys, rfl, hys⟩ := hlike.eq_array
    obtain ⟨hook, _, hhook, hnil, rfl⟩ := List.forall₂_cons_left_iff.mp hys
    obtain rfl := List.forall₂_nil_left_iff.mp hnil
    obtain ⟨c, hc, hlike⟩ := hhook.get_some
      (show Value.get "command" _ = some (.string cmd.toList) from rfl)
    exact ⟨hook, hitems, by rw [hc, hlike.eq_string]⟩
  have hstrings : groupStrings group = [.string cmd.toList] := by
    unfold groupStrings
    rw [outputs_singleton (field_of_get hhooks) rfl]
    change (if (outputs (field "command") [hook]).isEmpty then _ else outputs (field "command") [hook]) = _
    rw [outputs_singleton (field_of_get hcmd) rfl]
    rfl
  unfold keepGroup
  rw [hstrings, anyTest, hc]
  rfl

/-- **A group that is kept** is there after the events have been stripped. -/
theorem mem_of_stripEvents {hooks' : List (Text × Value)} {key : Text}
    (h : stripEvents hooks = some hooks') (hgs : hooks.lookup key = some (.array gs)) (hg : group ∈ gs)
    (hk : keepGroup group = some true) : ∃ gs', hooks'.lookup key = some (.array gs') ∧ group ∈ gs' := by
  obtain ⟨kept, hkept, hhooks⟩ := Option.bind_eq_some_iff.mp h
  obtain ⟨gs', hsel, hlook⟩ := lookup_mapM_snd (f := fun v => (iterate v).bind (select keepGroup)) hkept hgs
  have hmem : group ∈ gs' := mem_select hsel hg hk
  have hlen : decide (0 < gs'.length) = true := decide_eq_true (List.length_pos_of_mem hmem)
  refine ⟨gs', ?_, hmem⟩
  rw [← Option.some.inj hhooks, lookup_map_snd, lookup_filter_snd (p := fun l => 0 < l.length) hlook hlen]
  rfl

theorem strip_object {f hs : List (Text × Value)} (h : f.lookup "hooks".toList = some (.object hs)) :
    strip (.object f) = (stripEvents hs).bind fun events =>
      if events.isEmpty then some (.object (f.filter fun a => a.1 ≠ "hooks".toList))
      else some (.object (insertField "hooks".toList (.object events) f)) := by
  unfold strip
  rw [field_of_get (v := .object f) h]
  simp only [truthy, Option.bind_eq_bind, Option.bind_some, Bool.not_true, Bool.false_eq_true,
    if_false, Option.pure_def]

/-- **A group that is kept** is there after the filter. -/
theorem mem_groupsOf_strip (h : strip v = some w) (hg : group ∈ groupsOf v event)
    (hk : keepGroup group = some true) : group ∈ groupsOf w event := by
  obtain ⟨hv, hhooks, harray⟩ := eq_of_mem_groupsOf hg
  rw [hv, strip_object hhooks] at h
  obtain ⟨events, hevents, hw⟩ := Option.bind_eq_some_iff.mp h
  obtain ⟨gs', hlook, hmem⟩ := mem_of_stripEvents hevents harray hg hk
  have hne : ¬events.isEmpty = true := by
    intro hnil
    rw [List.isEmpty_iff.mp hnil] at hlook
    cases hlook
  rw [if_neg hne] at hw
  have hhooks' : hooksOf w = events := by
    rw [← Option.some.inj hw]
    unfold hooksOf
    exact congrArg fieldsOr ((lookup_insertField _ _ _ _).trans (if_pos rfl))
  unfold groupsOf
  rw [hhooks', hlook]
  exact hmem

/-! ### The round trip -/

theorem cleanSettings_eq_some {content : List UInt8} (h : cleanSettings m (.bytes content) = some v) :
    ∃ w, m.parse content = some w ∧ strip w = some v := by
  unfold cleanSettings at h
  dsimp only at h
  split_ifs at h
  exact Option.bind_eq_some_iff.mp (Option.eq_some_of_filter_eq_some h)

theorem commands_no_brain : ∀ e ∈ entries, mentions brain e.2.toList = false := by
  decide

theorem mem_commands {e : String × String} (hg : group ∈ groupsOf v e.1)
    (h : Alike (hookGroup e.2) group) : e.2.toList ∈ commands e.1 v := by
  refine List.mem_flatMap.mpr ⟨group, hg, ?_⟩
  rw [← groupCommands_eq_of_alike h, groupCommands_hookGroup]
  exact List.mem_singleton_self _

/-- **A command that has been installed** is there after the uninstallation. -/
theorem mem_commands_afterClean {e : String × String} (he : e ∈ entries)
    (hold : e.2.toList ∉ commands e.1 old)
    (hparse : ∀ w, m.parse (encode (settingsText serde (mergeValue old).1)) = some w →
      Alike (mergeValue old).1 w) :
    e.2.toList ∈ commands e.1 (afterClean m serde (mergeValue old).1) := by
  have hgroup : hookGroup e.2 ∈ groupsOf (mergeValue old).1 e.1 := by
    rw [groupsOf_mergeValue he]
    unfold withHook
    rw [if_neg fun h => hold (any_groupHas_iff.mp h)]
    exact List.mem_append_right _ (List.mem_singleton_self _)
  unfold afterClean
  rcases hclean : cleanSettings m (.bytes (encode (settingsText serde (mergeValue old).1))) with _ | v
  · exact mem_commands hgroup (.refl _)
  · obtain ⟨w, hw, hstrip⟩ := cleanSettings_eq_some hclean
    obtain ⟨group, hmem, hlike⟩ := exists_of_mem_forall₂ (forall₂_groupsOf (hparse w hw) e.1) hgroup
    have hkeep := keepGroup_of_alike hlike (commands_no_brain e he)
    exact mem_commands (mem_groupsOf_strip hstrip hmem hkeep) hlike

/-- **An installation is never undone**: whatever the machine does, if `jq` reads what has been written,
the commands that a merge has added are there after the uninstallation. -/
theorem not_undone (hload : loadSettings serde (settingsPath root) file = .ok old) (hold : NoHooks old)
    (h : mergeSettings serde disk root file = ⟨.ok b, .written new⟩)
    (hparse : ∀ w, m.parse (encode (settingsText serde new)) = some w → Alike new w) :
    ¬Undone old (afterClean m serde new) := by
  obtain ⟨rootVal, hroot, ⟨-, -, -, hc⟩ | ⟨-, hc⟩⟩ := mergeSettings_ok h
  · cases hc
  · rw [hload] at hroot
    cases hroot
    cases hc
    intro hundone
    have he : ("Stop", "$CLAUDE_PROJECT_DIR/.claude/hooks/post_response.sh") ∈ entries := by decide
    exact hundone.gone _ _ he (mem_commands_afterClean he (hold _ _ he) hparse)

/-! ### Empty settings -/

/-- A machine where everything goes well, and `jq` reads the hooks alone. -/
def usualMachine : Machine := ⟨false, true, fun _ => some hooksValue, true⟩

def emptySettings : SettingsFile := .bytes (encode "\x7b\x7d".toList)

theorem holds_emptySettings : Holds hooksSerde emptySettings (.object []) :=
  ⟨_, _, rfl, fromUtf8_encode _, rfl⟩

theorem noHooks_empty : NoHooks (.object []) := fun _ _ _ h => absurd h List.not_mem_nil

theorem merge_emptySettings : mergeSettings hooksSerde ⟨none, none⟩ "/p".toList emptySettings =
    ⟨.ok true, .written hooksValue⟩ := by
  unfold mergeSettings
  rw [holds_emptySettings.loadSettings]
  rfl

/-- Empty settings are not empty again. -/
theorem not_undone_empty : ¬Undone (.object []) (afterClean usualMachine hooksSerde hooksValue) :=
  not_undone holds_emptySettings.loadSettings noHooks_empty merge_emptySettings fun w hw => by
    cases hw
    exact .refl _

/-- **An uninstallation that leaves the hooks**, where everything goes well. -/
theorem not_forall_undone : ¬∀ (serde : Serde) (root : Text) (file : SettingsFile) (old new : Value)
    (m : Machine), Holds serde file old → UserSettings old → NoHooks old →
      mergeSettings serde ⟨none, none⟩ root file = ⟨.ok true, .written new⟩ →
        (m.dryRun = false ∧ m.hasJq = true ∧ m.moves = true) →
          (∃ w, m.parse (encode (settingsText serde new)) = some w ∧ Alike new w) →
            Undone old (afterClean m serde new) := by
  intro h
  have hundone := h hooksSerde "/p".toList emptySettings (.object []) hooksValue usualMachine
    holds_emptySettings ⟨[], rfl, fun _ hh => by cases hh⟩ noHooks_empty merge_emptySettings
    ⟨rfl, rfl, rfl⟩ ⟨hooksValue, rfl, .refl _⟩
  have he : ("Stop", "$CLAUDE_PROJECT_DIR/.claude/hooks/post_response.sh") ∈ entries := by decide
  refine hundone.gone _ _ he (mem_commands_afterClean he (noHooks_empty _ _ he) fun w hw => ?_)
  cases hw
  exact .refl _

end BrainEngine.Hooks.Uninstall
