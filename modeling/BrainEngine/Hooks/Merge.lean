import BrainEngine.Core.Hooks

/-! # What a merge does to the settings

The loop changes the two events only, and gives each the array it had with the group of the command at
its end, unless some group has the command already (`mergeValue_spec`). -/

namespace BrainEngine.Hooks.Merge

open BrainEngine.Rust.Str BrainEngine.Rust.Json BrainEngine.Rust.Utf8 BrainEngine.Core.External
open BrainEngine.Core.Hooks
open BrainEngine.Lib.Utf8 (encode)

variable {serde : Serde} {disk : Disk} {root path : Text} {file : SettingsFile} {v rootVal : Value}
variable {acc : List (Text × Value) × Bool} {e : String × String} {l : List (String × String)}
variable {k : Text} {event cmd : String} {gs : List Value} {b : Bool} {c : Change}

/-- The groups once the command is there. -/
def withHook (cmd : String) (gs : List Value) : List Value :=
  if gs.any (groupHas cmd) then gs else gs ++ [hookGroup cmd]

/-- The fields of `hooks`. -/
def hooksOf (rootVal : Value) : List (Text × Value) :=
  fieldsOr ((fieldsOr (some rootVal)).lookup "hooks".toList)

/-- The groups of an event. -/
def groupsOf (rootVal : Value) (event : String) : List Value :=
  itemsOr ((hooksOf rootVal).lookup event.toList)

/-- Both commands are there. -/
def Complete (rootVal : Value) : Prop :=
  ∀ e ∈ entries, (groupsOf rootVal e.1).any (groupHas e.2) = true

/-! ### The loop -/

theorem addHook_eq (acc : List (Text × Value) × Bool) (e : String × String) : addHook acc e =
    (insertField e.1.toList (.array (withHook e.2 (itemsOr (acc.1.lookup e.1.toList)))) acc.1,
      acc.2 || !(itemsOr (acc.1.lookup e.1.toList)).any (groupHas e.2)) := by
  unfold addHook withHook
  dsimp only
  cases (itemsOr (acc.1.lookup e.1.toList)).any (groupHas e.2) with
  | true => simp
  | false => simp

theorem lookup_addHook (acc : List (Text × Value) × Bool) (e : String × String) (k : Text) :
    (addHook acc e).1.lookup k = if k = e.1.toList then
      some (.array (withHook e.2 (itemsOr (acc.1.lookup e.1.toList)))) else acc.1.lookup k := by
  rw [addHook_eq]
  exact lookup_insertField _ _ _ _

theorem lookup_loop_of_notMem (hk : ∀ e ∈ l, k ≠ e.1.toList) :
    (l.foldl addHook acc).1.lookup k = acc.1.lookup k := by
  induction l generalizing acc with
  | nil => rfl
  | cons e l ih =>
    rw [List.foldl_cons, ih fun e he => hk e (List.mem_cons_of_mem _ he), lookup_addHook,
      if_neg (hk e List.mem_cons_self)]

theorem ne_event {a : String × String} (ha : a.1 ∉ l.map Prod.fst) (he : e ∈ l) :
    e.1.toList ≠ a.1.toList := by
  intro heq
  rw [String.toList_inj] at heq
  exact ha (heq ▸ List.mem_map_of_mem he)

/-- **An event after the loop.** -/
theorem lookup_loop (hl : (l.map Prod.fst).Nodup) (he : e ∈ l) :
    (l.foldl addHook acc).1.lookup e.1.toList =
      some (.array (withHook e.2 (itemsOr (acc.1.lookup e.1.toList)))) := by
  induction l generalizing acc with
  | nil => exact absurd he List.not_mem_nil
  | cons a l ih =>
    rw [List.map_cons, List.nodup_cons] at hl
    rw [List.foldl_cons]
    rcases List.mem_cons.mp he with rfl | he
    · rw [lookup_loop_of_notMem fun d hd => (ne_event hl.1 hd).symm, lookup_addHook, if_pos rfl]
    · rw [ih hl.2 he, lookup_addHook, if_neg (ne_event hl.1 he)]

theorem changed_loop (hl : (l.map Prod.fst).Nodup) : (l.foldl addHook acc).2 = true ↔
    acc.2 = true ∨ ∃ e ∈ l, (itemsOr (acc.1.lookup e.1.toList)).any (groupHas e.2) = false := by
  induction l generalizing acc with
  | nil => simp
  | cons a l ih =>
    rw [List.map_cons, List.nodup_cons] at hl
    have hother : ∀ e ∈ l, (addHook acc a).1.lookup e.1.toList = acc.1.lookup e.1.toList := by
      intro e he
      rw [lookup_addHook, if_neg (ne_event hl.1 he)]
    have hrest : (∃ e ∈ l, (itemsOr ((addHook acc a).1.lookup e.1.toList)).any (groupHas e.2) = false) ↔
        ∃ e ∈ l, (itemsOr (acc.1.lookup e.1.toList)).any (groupHas e.2) = false := by
      refine exists_congr fun e => and_congr_right fun he => ?_
      rw [hother e he]
    have hhead : (addHook acc a).2 = true ↔
        acc.2 = true ∨ (itemsOr (acc.1.lookup a.1.toList)).any (groupHas a.2) = false := by
      rw [addHook_eq, Bool.or_eq_true, Bool.not_eq_true']
    rw [List.foldl_cons, ih hl.2, hrest, hhead, or_assoc, List.exists_mem_cons_iff]

/-! ### The value -/

theorem nodup_events : (entries.map Prod.fst).Nodup := by decide

/-- **The merged settings.** -/
theorem mergeValue_spec (rootVal : Value) : ∃ f h, (mergeValue rootVal).1 = .object f ∧
    f.lookup "hooks".toList = some (.object h) ∧
    (∀ k, k ≠ "hooks".toList → f.lookup k = (fieldsOr (some rootVal)).lookup k) ∧
    (∀ e ∈ entries, h.lookup e.1.toList = some (.array (withHook e.2 (groupsOf rootVal e.1)))) ∧
    ∀ k, (∀ e ∈ entries, k ≠ e.1.toList) → h.lookup k = (hooksOf rootVal).lookup k := by
  refine ⟨_, (entries.foldl addHook (hooksOf rootVal, false)).1, rfl, ?_, fun k hk => ?_,
    fun e he => lookup_loop nodup_events he, fun k hk => lookup_loop_of_notMem hk⟩
  · exact (lookup_insertField _ _ _ _).trans (if_pos rfl)
  · exact (lookup_insertField _ _ _ _).trans (if_neg hk)

theorem changed_iff : (mergeValue rootVal).2 = true ↔ ¬Complete rootVal := by
  have hloop : (mergeValue rootVal).2 = true ↔
      false = true ∨ ∃ e ∈ entries, (groupsOf rootVal e.1).any (groupHas e.2) = false :=
    changed_loop nodup_events
  rw [hloop]
  unfold Complete
  simp

theorem eq_of_mem_itemsOr {o : Option Value} {g : Value} (h : g ∈ itemsOr o) :
    o = some (.array (itemsOr o)) := by
  unfold itemsOr at h
  split at h
  · rfl
  · exact absurd h List.not_mem_nil

theorem eq_of_lookup_fieldsOr {o : Option Value} {w : Value} (h : (fieldsOr o).lookup k = some w) :
    o = some (.object (fieldsOr o)) := by
  unfold fieldsOr at h
  split at h
  · rfl
  · cases h

/-- **Where a group is**: in the array of its event in an object of an object. -/
theorem eq_of_mem_groupsOf {g : Value} (h : g ∈ groupsOf v event) : v = .object (fieldsOr (some v)) ∧
    (fieldsOr (some v)).lookup "hooks".toList = some (.object (hooksOf v)) ∧
      (hooksOf v).lookup event.toList = some (.array (groupsOf v event)) := by
  have harray : (hooksOf v).lookup event.toList = some (.array (groupsOf v event)) := eq_of_mem_itemsOr h
  have hhooks : (fieldsOr (some v)).lookup "hooks".toList = some (.object (hooksOf v)) :=
    eq_of_lookup_fieldsOr harray
  exact ⟨Option.some.inj (eq_of_lookup_fieldsOr hhooks), hhooks, harray⟩

/-- The arrays of both commands. -/
theorem Complete.spec (h : Complete v) : ∃ f hs, v = .object f ∧
    f.lookup "hooks".toList = some (.object hs) ∧
      ∀ e ∈ entries, hs.lookup e.1.toList = some (.array (groupsOf v e.1)) := by
  have hgroups : ∀ e ∈ entries, ∃ g, g ∈ groupsOf v e.1 := by
    intro e he
    obtain ⟨g, hg, -⟩ := List.any_eq_true.mp (h e he)
    exact ⟨g, hg⟩
  obtain ⟨g, hg⟩ := hgroups _ List.mem_cons_self
  obtain ⟨hv, hhooks, -⟩ := eq_of_mem_groupsOf hg
  refine ⟨_, _, hv, hhooks, fun e he => ?_⟩
  obtain ⟨g', hg'⟩ := hgroups e he
  exact (eq_of_mem_groupsOf hg').2.2

theorem not_complete_empty : ¬Complete (.object []) := by
  intro h
  exact absurd (h _ List.mem_cons_self) (by simp [groupsOf, hooksOf, fieldsOr, itemsOr])

/-! ### The file -/

/-- The file is JSON, with this value. -/
def Holds (serde : Serde) (file : SettingsFile) (v : Value) : Prop :=
  ∃ content t, file = .bytes content ∧ fromUtf8 content = some t ∧ serde.fromStr t = some v

theorem Holds.loadSettings (h : Holds serde file v) :
    loadSettings serde path file = .ok v := by
  obtain ⟨content, t, rfl, ht, hv⟩ := h
  simp [Core.Hooks.loadSettings, ht, hv]

theorem load_bytes (serde : Serde) (path t : Text) : loadSettings serde path (.bytes (encode t)) =
    .ok ((serde.fromStr t).getD (.object [])) := by
  simp only [loadSettings, fromUtf8_encode]

/-- What has both commands is in the file. -/
theorem holds_of_complete (h : loadSettings serde path file = .ok v) (hv : Complete v) :
    Holds serde file v := by
  unfold loadSettings at h
  split at h
  · cases h
    exact absurd hv not_complete_empty
  · cases h
  · rename_i content
    split at h
    · cases h
    · rename_i t ht
      rcases ho : serde.fromStr t with _ | w
      · rw [ho] at h
        cases h
        exact absurd hv not_complete_empty
      · rw [ho] at h
        cases h
        exact ⟨content, t, rfl, ht, ho⟩

/-- **A call that returns**: the settings are in the file as they were, or are written. -/
theorem mergeSettings_ok (h : mergeSettings serde disk root file = ⟨.ok b, c⟩) :
    ∃ rootVal, loadSettings serde (settingsPath root) file = .ok rootVal ∧
      (Complete rootVal ∧ file.present = true ∧ b = false ∧ c = .none ∨
        b = (mergeValue rootVal).2 ∧ c = .written (mergeValue rootVal).1) := by
  unfold mergeSettings at h
  cases hload : loadSettings serde (settingsPath root) file with
  | error e =>
    rw [hload] at h
    cases h
  | ok rootVal =>
    rw [hload] at h
    refine ⟨rootVal, rfl, ?_⟩
    dsimp only at h
    split_ifs at h with hw
    · right
      unfold saveSettings at h
      split at h
      · cases h
      · cases h
      · cases h
      · cases h
        exact ⟨rfl, rfl⟩
    · left
      rw [Bool.or_eq_true, not_or, changed_iff, not_not, Bool.not_eq_true', Bool.not_eq_false] at hw
      refine ⟨hw.1, hw.2, ?_, ?_⟩
      · cases h
        exact Bool.eq_false_iff.mpr fun hc => changed_iff.mp hc hw.1
      · cases h
        rfl

/-! ### The hooks alone -/

/-- The lines of an event with its group. -/
def eventLines (event cmd close : String) : List String := [
  "    \"" ++ event ++ "\": [", "      \x7b", "        \"hooks\": [", "          \x7b",
  "            \"command\": \"" ++ cmd ++ "\",", "            \"type\": \"command\"",
  "          \x7d", "        ]", "      \x7d", "    ]" ++ close]

/-- The text of settings that are the hooks and nothing else; the fields of an object are in the order
of their keys. -/
def hooksText : Text :=
  join ['\n'] ((["\x7b", "  \"hooks\": \x7b"] ++
    eventLines "Stop" "$CLAUDE_PROJECT_DIR/.claude/hooks/post_response.sh" "," ++
    eventLines "UserPromptSubmit" "$CLAUDE_PROJECT_DIR/.claude/hooks/pre_prompt.sh" "" ++
    ["  \x7d", "\x7d"]).map String.toList)

/-- The hooks and nothing else. -/
def hooksValue : Value := (mergeValue (.object [])).1

/-- `serde_json` on an empty object, on the hooks alone and on what is no JSON. -/
def hooksSerde : Serde where
  fromStr t := if t = "\x7b\x7d".toList then some (.object [])
    else if t = hooksText ++ ['\n'] then some hooksValue else none
  toStringPretty _ := hooksText

theorem fromStr_hooksText : hooksSerde.fromStr (hooksText ++ ['\n']) = some hooksValue := by
  have hne : hooksText ++ ['\n'] ≠ "\x7b\x7d".toList := by
    intro h
    have hsecond := congrArg (·[1]?) h
    revert hsecond
    decide
  unfold hooksSerde
  dsimp only
  rw [if_neg hne, if_pos rfl]

end BrainEngine.Hooks.Merge
