import BrainEngine.Hooks.Merge

/-! # What a merge preserves

Settings that are a JSON object with an object of arrays in `hooks` keep everything. Any other content
is taken for empty and written over: `noClobber_iff`. -/

namespace BrainEngine.Hooks.Preserve

open BrainEngine.Rust.Str BrainEngine.Rust.Json BrainEngine.Rust.Utf8 BrainEngine.Core.External
open BrainEngine.Core.Hooks BrainEngine.Hooks.Merge
open BrainEngine.Lib.Utf8 (encode)

/-- White space of JSON and nothing else. -/
def Blank (t : Text) : Prop := ∀ c ∈ t, c ∈ [' ', '\n', '\r', '\t']

/-- The user's settings: those in the file, and none if it is missing or blank. -/
inductive Settings (serde : Serde) : SettingsFile → Value → Prop
  | missing : Settings serde .missing (.object [])
  | blank {content : List UInt8} {t : Text} (ht : fromUtf8 content = some t)
    (hv : serde.fromStr t = none) (hb : Blank t) : Settings serde (.bytes content) (.object [])
  | value {file : SettingsFile} {v : Value} (h : Holds serde file v) : Settings serde file v

/-- The fields of an object; there are none if it is missing. -/
def fieldsIn : Option Value → Option (List (Text × Value))
  | none => some []
  | some (.object fields) => some fields
  | _ => none

/-- The items of an array; there are none if it is missing. -/
def itemsIn : Option Value → Option (List Value)
  | none => some []
  | some (.array items) => some items
  | _ => none

/-- The groups of an event are as they were, or have one more behind them. -/
def GroupsKept (old new : Option Value) : Prop :=
  new = old ∨ ∃ gs added, itemsIn old = some gs ∧ added.length ≤ 1 ∧ new = some (.array (gs ++ added))

/-- The hooks are as they were, but for a group for each of the two events. -/
def HooksKept (old new : Option Value) : Prop :=
  new = old ∨ ∃ hs hs', fieldsIn old = some hs ∧ new = some (.object hs') ∧
    (∀ k, (∀ e ∈ entries, k ≠ e.1.toList) → hs'.lookup k = hs.lookup k) ∧
    ∀ e ∈ entries, GroupsKept (hs.lookup e.1.toList) (hs'.lookup e.1.toList)

/-- Objects, of which the second one has all of the first one unchanged and at most a hook group for
each of the two events besides. -/
def Extends (old new : Value) : Prop :=
  ∃ f g, old = .object f ∧ new = .object g ∧ (∀ k, k ≠ "hooks".toList → g.lookup k = f.lookup k) ∧
    HooksKept (f.lookup "hooks".toList) (g.lookup "hooks".toList)

/-- **No clobbering**: the file is left alone, or what is written to it extends the user's settings. -/
def NoClobber (serde : Serde) (file : SettingsFile) (m : Merge) : Prop :=
  m.change = .none ∨ ∃ b old new, m = ⟨.ok b, .written new⟩ ∧ Settings serde file old ∧ Extends old new

/-- An object, with an object of arrays in `hooks` as far as there is something. -/
def Mergeable (v : Value) : Prop :=
  ∃ f hs, v = .object f ∧ fieldsIn (f.lookup "hooks".toList) = some hs ∧
    ∀ e ∈ entries, ∃ gs, itemsIn (hs.lookup e.1.toList) = some gs

/-- A file that is there and has no text. -/
def Illegible : SettingsFile → Prop
  | .missing => False
  | .unreadable _ => True
  | .bytes content => fromUtf8 content = none

variable {serde : Serde} {disk : Disk} {root path : Text} {file : SettingsFile} {v rootVal : Value}
variable {o : Option Value} {gs : List Value} {cmd : String} {hs : List (Text × Value)}

/-! ### Reading -/

theorem fieldsOr_of_fieldsIn (h : fieldsIn o = some hs) : fieldsOr o = hs := by
  unfold fieldsIn at h
  split at h
  · exact Option.some.inj h
  · exact Option.some.inj h
  · cases h

theorem itemsOr_of_itemsIn (h : itemsIn o = some gs) : itemsOr o = gs := by
  unfold itemsIn at h
  split at h
  · exact Option.some.inj h
  · exact Option.some.inj h
  · cases h

theorem Settings.load (h : Settings serde file v) : loadSettings serde path file = .ok v := by
  rcases h with _ | ⟨ht, hv, -⟩ | h
  · rfl
  · simp [loadSettings, ht, hv]
  · exact h.loadSettings

theorem load_error_iff : (∃ e, loadSettings serde path file = .error e) ↔ Illegible file := by
  unfold loadSettings Illegible
  cases file with
  | missing => simp
  | unreadable source => simp
  | bytes content =>
    dsimp only
    cases fromUtf8 content with
    | none => simp
    | some t => simp

/-! ### Merging -/

theorem withHook_eq (cmd : String) (gs : List Value) :
    ∃ added, added.length ≤ 1 ∧ withHook cmd gs = gs ++ added := by
  unfold withHook
  split_ifs
  · exact ⟨[], by simp, by simp⟩
  · exact ⟨[hookGroup cmd], by simp, rfl⟩

theorem groupsOf_eq {f : List (Text × Value)} (h : fieldsIn (f.lookup "hooks".toList) = some hs)
    (event : String) : groupsOf (.object f) event = itemsOr (hs.lookup event.toList) := by
  unfold groupsOf hooksOf
  exact congrArg (fun l => itemsOr (l.lookup event.toList)) (fieldsOr_of_fieldsIn h)

/-- **Settings that can be merged** keep everything. -/
theorem extends_mergeValue (h : Mergeable v) : Extends v (mergeValue v).1 := by
  obtain ⟨f, hs, rfl, hhs, hgs⟩ := h
  obtain ⟨g, hs', hg, hg', hother, hevents, hrest⟩ := mergeValue_spec (.object f)
  refine ⟨f, g, rfl, hg, hother, Or.inr ⟨hs, hs', hhs, hg', fun k hk => ?_, fun e he => ?_⟩⟩
  · rw [hrest k hk, ← fieldsOr_of_fieldsIn hhs]
    rfl
  · obtain ⟨gs, hgs⟩ := hgs e he
    obtain ⟨added, hlen, hadd⟩ := withHook_eq e.2 gs
    refine Or.inr ⟨gs, added, hgs, hlen, ?_⟩
    rw [hevents e he, groupsOf_eq hhs, itemsOr_of_itemsIn hgs, hadd]

/-- **Settings that keep everything** could be merged: what is there after a merge is an object with an
object of arrays. -/
theorem mergeable_of_extends (h : Extends v (mergeValue v).1) : Mergeable v := by
  obtain ⟨f, g, rfl, hg, -, hhooks⟩ := h
  obtain ⟨g', hs', hg', hlook, -, hevents, -⟩ := mergeValue_spec (.object f)
  obtain rfl : g = g' := Value.object.inj (hg.symm.trans hg')
  rcases hhooks with hsame | ⟨hs, hs'', hhs, hlook', -, hgroups⟩
  · refine ⟨f, hs', rfl, ?_, fun e he => ⟨withHook e.2 (groupsOf (.object f) e.1), ?_⟩⟩
    · rw [← hsame, hlook]
      rfl
    · rw [hevents e he]
      rfl
  · obtain rfl : hs' = hs'' := Value.object.inj (Option.some.inj (hlook.symm.trans hlook'))
    refine ⟨f, hs, rfl, hhs, fun e he => ?_⟩
    rcases hgroups e he with hsame | ⟨gs, -, hgs, -⟩
    · refine ⟨withHook e.2 (groupsOf (.object f) e.1), ?_⟩
      rw [← hsame, hevents e he]
      rfl
    · exact ⟨gs, hgs⟩

theorem mergeable_of_complete (h : Complete v) : Mergeable v := by
  obtain ⟨f, hs, rfl, hhs, hgroups⟩ := h.spec
  refine ⟨f, hs, rfl, ?_, fun e he => ⟨groupsOf (.object f) e.1, ?_⟩⟩
  · rw [hhs]
    rfl
  · rw [hgroups e he]
    rfl

/-! ### The exact condition -/

/-- The directory cannot be created, or the file cannot be opened to be written. -/
def Refused (disk : Disk) : Prop :=
  disk.createDirError.isSome ∨ ∃ e, disk.writeError = some (.refused e)

theorem saveSettings_cases (disk : Disk) (root : Text) (v : Value) (b : Bool) :
    (Refused disk ∧ (saveSettings disk root v b).change = .none) ∨
    (¬Refused disk ∧ disk.writeError ≠ none ∧ ∃ n, (saveSettings disk root v b).change = .torn v n) ∨
    (¬Refused disk ∧ disk.writeError = none ∧ saveSettings disk root v b = ⟨.ok b, .written v⟩) := by
  obtain ⟨_ | e, _ | e | ⟨e, n⟩⟩ := disk
  · exact Or.inr (Or.inr ⟨by simp [Refused], rfl, rfl⟩)
  · exact Or.inl ⟨Or.inr ⟨e, rfl⟩, rfl⟩
  · exact Or.inr (Or.inl ⟨by simp [Refused], by simp, n, rfl⟩)
  · exact Or.inl ⟨Or.inl rfl, rfl⟩
  · exact Or.inl ⟨Or.inl rfl, rfl⟩
  · exact Or.inl ⟨Or.inl rfl, rfl⟩

theorem mergeSettings_eq (h : loadSettings serde (settingsPath root) file = .ok v) :
    mergeSettings serde disk root file = if (mergeValue v).2 || !file.present then
      saveSettings disk root (mergeValue v).1 (mergeValue v).2 else ⟨.ok (mergeValue v).2, .none⟩ := by
  unfold mergeSettings
  rw [h]

/-- Nothing is written exactly if both commands are there. -/
theorem unwritten_iff (h : loadSettings serde (settingsPath root) file = .ok v) :
    ((mergeValue v).2 || !file.present) = false ↔ Complete v := by
  constructor
  · intro hw
    by_contra hc
    rw [changed_iff.mpr hc] at hw
    cases hw
  · intro hc
    obtain ⟨content, t, rfl, -, -⟩ := holds_of_complete h hc
    rw [Bool.eq_false_iff.mpr fun h2 => changed_iff.mp h2 hc]
    rfl

/-- **When a write clobbers nothing**: if it is refused, or if it is not broken off and the settings can be
merged. -/
theorem noClobber_saveSettings_iff (hv : ∀ w, Settings serde file w → w = v) (b : Bool) :
    NoClobber serde file (saveSettings disk root (mergeValue v).1 b) ↔
      Refused disk ∨ disk.writeError = none ∧ Settings serde file v ∧ Mergeable v := by
  obtain ⟨hr, hchange⟩ | ⟨hr, hfault, n, hchange⟩ | ⟨hr, hfault, hsave⟩ :=
    saveSettings_cases disk root (mergeValue v).1 b
  · exact iff_of_true (Or.inl hchange) (Or.inl hr)
  · -- broken off
    refine iff_of_false ?_ ?_
    · rintro (h | ⟨b, old, new, h, -⟩)
      · rw [hchange] at h
        cases h
      · rw [h] at hchange
        cases hchange
    · rintro (h | ⟨h, -⟩)
      · exact hr h
      · exact hfault h
  · rw [hsave]
    constructor
    · rintro (h | ⟨b, old, new, h, hold, hext⟩)
      · cases h
      · cases h
        obtain rfl := hv old hold
        exact Or.inr ⟨hfault, hold, mergeable_of_extends hext⟩
    · rintro (h | ⟨-, hfile, hm⟩)
      · exact absurd h hr
      · exact Or.inr ⟨b, v, _, rfl, hfile, extends_mergeValue hm⟩

/-- **When a merge clobbers nothing**: exactly if the file is there and has no text, if the directory or
the file refuses the write, or if the settings can be merged and the write is not broken off, or not
needed as both commands are there. -/
theorem noClobber_iff (serde : Serde) (disk : Disk) (root : Text) (file : SettingsFile) :
    NoClobber serde file (mergeSettings serde disk root file) ↔
      Illegible file ∨ Refused disk ∨ ∃ v, Settings serde file v ∧ Mergeable v ∧
        (disk.writeError = none ∨ Complete v) := by
  rcases hload : loadSettings serde (settingsPath root) file with e | v
  · refine iff_of_true (Or.inl ?_) (Or.inl (load_error_iff.mp ⟨e, hload⟩))
    unfold mergeSettings
    rw [hload]
  have hlegible : ¬Illegible file := by
    intro hi
    obtain ⟨e, he⟩ := load_error_iff.mpr hi
    rw [hload] at he
    cases he
  have hv : ∀ w, Settings serde file w → w = v := by
    intro w hw
    have hw' : loadSettings serde (settingsPath root) file = .ok w := hw.load
    rw [hload] at hw'
    exact (Except.ok.inj hw').symm
  rw [mergeSettings_eq hload]
  by_cases hc : Complete v
  · rw [(unwritten_iff hload).mpr hc]
    exact iff_of_true (Or.inl rfl) (Or.inr (Or.inr
      ⟨v, .value (holds_of_complete hload hc), mergeable_of_complete hc, Or.inr hc⟩))
  · rw [if_pos (Bool.ne_false_iff.mp fun h => hc ((unwritten_iff hload).mp h)),
      noClobber_saveSettings_iff hv]
    constructor
    · rintro (h | ⟨hfault, hfile, hm⟩)
      · exact Or.inr (Or.inl h)
      · exact Or.inr (Or.inr ⟨v, hfile, hm, Or.inl hfault⟩)
    · rintro (h | h | ⟨w, hw, hm, h⟩)
      · exact absurd h hlegible
      · exact Or.inl h
      · obtain rfl := hv w hw
        exact Or.inr ⟨h.resolve_right hc, hw, hm⟩

/-- Settings with a comma too many. -/
def badText : Text := "\x7b\"model\": \"opus\",\x7d".toList

theorem fromStr_badText : hooksSerde.fromStr badText = none := by decide

theorem not_blank_badText : ¬Blank badText :=
  fun hb => absurd (hb '"' (by decide)) (by decide)

/-- **Settings with a comma too many** are replaced by the hooks. -/
theorem not_noClobber : ¬∀ (serde : Serde) (disk : Disk) (root : Text) (file : SettingsFile),
    NoClobber serde file (mergeSettings serde disk root file) := by
  intro h
  have hread : fromUtf8 (encode badText) = some badText := fromUtf8_encode badText
  have hload : loadSettings hooksSerde (settingsPath "/p".toList) (.bytes (encode badText)) =
      .ok (.object []) := by
    rw [load_bytes, fromStr_badText]
    rfl
  rcases h hooksSerde ⟨none, none⟩ "/p".toList (.bytes (encode badText)) with
    hc | ⟨b, old, new, -, hold, -⟩
  · rw [mergeSettings_eq hload] at hc
    cases hc
  · cases hold with
    | blank ht _ hb =>
      rw [hread] at ht
      cases ht
      exact not_blank_badText hb
    | value hv =>
      obtain ⟨content, t, hc, ht, hv⟩ := hv
      cases hc
      rw [hread] at ht
      cases ht
      rw [fromStr_badText] at hv
      cases hv

end BrainEngine.Hooks.Preserve
