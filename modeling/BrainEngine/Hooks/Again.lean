import BrainEngine.Hooks.Commands

/-! # Merging twice

A merge that returns leaves both commands in the file, each once if it was not there, and the next one
finds nothing to do (`merge_again`). -/

namespace BrainEngine.Hooks.Again

open BrainEngine.Rust.Str BrainEngine.Rust.Json BrainEngine.Rust.Utf8 BrainEngine.Core.External
open BrainEngine.Core.Hooks BrainEngine.Hooks.Merge BrainEngine.Hooks.Commands
open BrainEngine.Lib.Utf8 (encode)

/-- How often a command is registered for an event. -/
def count (event cmd : String) (v : Value) : ℕ := (commands event v).count cmd.toList

/-- The value is read back from its text, up to its numbers. -/
def ReadsBack (serde : Serde) (v : Value) : Prop :=
  ∃ w, serde.fromStr (settingsText serde v) = some w ∧ Alike v w

variable {serde : Serde} {disk : Disk} {root : Text} {file : SettingsFile} {v w : Value}
variable {e : String × String} {event : String} {b : Bool} {c : Change}

theorem count_eq_of_alike (h : Alike v w) (event cmd : String) : count event cmd v = count event cmd w := by
  unfold count
  rw [commands_eq_of_alike h]

theorem complete_iff_count : Complete v ↔ ∀ e ∈ entries, 0 < count e.1 e.2 v := by
  rw [complete_iff]
  exact forall₂_congr fun e _ => List.count_pos_iff.symm

theorem complete_of_alike (h : Alike v w) (hv : Complete v) : Complete w := by
  rw [complete_iff] at hv ⊢
  intro e he
  rw [← commands_eq_of_alike h]
  exact hv e he

theorem commands_distinct : ∀ d ∈ entries, ∀ e ∈ entries, d.1 ≠ e.1 → d.2.toList ≠ e.2.toList := by
  decide

/-- **A command that is registered nowhere** is registered once by a merge, for its event. -/
theorem count_mergeValue (he : e ∈ entries) (h : ∀ event, count event e.2 v = 0) (event : String) :
    count event e.2 (mergeValue v).1 = if event = e.1 then 1 else 0 := by
  have hnot : e.2.toList ∉ commands event v := List.count_eq_zero.mp (h event)
  unfold count
  by_cases hevent : ∃ d ∈ entries, event = d.1
  · obtain ⟨d, hd, rfl⟩ := hevent
    rw [commands_mergeValue hd]
    by_cases heq : d.1 = e.1
    · have hde : d = e := by
        have hall : ∀ d ∈ entries, ∀ e ∈ entries, d.1 = e.1 → d = e := by decide
        exact hall d hd e he heq
      subst hde
      rw [if_neg hnot, if_pos rfl, List.count_append, List.count_eq_zero.mpr hnot]
      simp
    · rw [if_neg heq]
      have hne := commands_distinct d hd e he heq
      split_ifs
      · exact List.count_eq_zero.mpr hnot
      · rw [List.count_append, List.count_eq_zero.mpr hnot, List.count_singleton, beq_false_of_ne hne]
        rfl
  · push Not at hevent
    rw [commands_mergeValue_of_notMem hevent, if_neg (hevent e he)]
    exact List.count_eq_zero.mpr hnot

/-- **The next merge** finds nothing to do where both commands are. -/
theorem mergeSettings_of_complete (h : Holds serde file v) (hv : Complete v) :
    mergeSettings serde disk root file = ⟨.ok false, .none⟩ := by
  have hunchanged : (mergeValue v).2 = false := Bool.eq_false_iff.mpr fun hc => changed_iff.mp hc hv
  obtain ⟨content, t, rfl, ht, hs⟩ := id h
  unfold mergeSettings
  rw [h.loadSettings]
  dsimp only
  rw [hunchanged]
  rfl

/-- **Merging twice.** After a merge that returns, the file is a JSON object with both commands in the
groups of their events, and a command that was registered nowhere is registered once. Every further
merge returns `false` and writes nothing. -/
theorem merge_again (h : mergeSettings serde disk root file = ⟨.ok b, c⟩)
    (hread : ∀ v, c = .written v → ReadsBack serde v) :
    ∃ old new, loadSettings serde (settingsPath root) file = .ok old ∧
      Holds serde (c.after serde file) new ∧ new.isObject = true ∧
      (∀ e ∈ entries, 0 < count e.1 e.2 new) ∧
      (∀ e ∈ entries, (∀ event, count event e.2 old = 0) →
        ∀ event, count event e.2 new = if event = e.1 then 1 else 0) ∧
      ∀ disk', mergeSettings serde disk' root (c.after serde file) = ⟨.ok false, .none⟩ := by
  obtain ⟨old, hload, ⟨hold, -, -, rfl⟩ | ⟨-, rfl⟩⟩ := mergeSettings_ok h
  · have hfile : Holds serde file old := holds_of_complete hload hold
    obtain ⟨f, hs, rfl, -⟩ := hold.spec
    refine ⟨_, _, hload, hfile, rfl, complete_iff_count.mp hold, fun e he hzero => ?_,
      fun disk' => mergeSettings_of_complete hfile hold⟩
    exact absurd (hzero e.1) (Nat.pos_iff_ne_zero.mp (complete_iff_count.mp hold e he))
  · obtain ⟨new, hnew, halike⟩ := hread _ rfl
    have hcomplete : Complete new := complete_of_alike halike complete_mergeValue
    have hfile : Holds serde ((Change.written (mergeValue old).1).after serde file) new :=
      ⟨_, _, rfl, fromUtf8_encode _, hnew⟩
    refine ⟨old, new, hload, hfile, ?_, complete_iff_count.mp hcomplete, fun e he hzero event => ?_,
      fun disk' => mergeSettings_of_complete hfile hcomplete⟩
    · rw [← halike.isObject]
      rfl
    · rw [← count_eq_of_alike halike, count_mergeValue he hzero]

/-- Settings that are missing. -/
theorem merge_again_missing : mergeSettings hooksSerde ⟨none, none⟩ "/p".toList
    (.bytes (encode (hooksText ++ ['\n']))) = ⟨.ok false, .none⟩ := by
  have hmerge : mergeSettings hooksSerde ⟨none, none⟩ "/p".toList .missing =
      ⟨.ok true, .written hooksValue⟩ := rfl
  obtain ⟨-, -, -, -, -, -, -, hagain⟩ := merge_again hmerge fun v hv => by
    cases hv
    exact ⟨hooksValue, fromStr_hooksText, .refl _⟩
  exact hagain ⟨none, none⟩

end BrainEngine.Hooks.Again
