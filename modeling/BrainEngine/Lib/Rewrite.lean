import BrainEngine.Lib.Processes
import Mathlib.Data.List.Nodup

/-! # Files that are rewritten whole

A file says something under each key. Any number of calls change it, each under a key of its own: a
call reads the whole file, and later writes back what it read with its own change. Between the two the
other calls may write. `allSteps_kept_iff` says when no change is lost: in a run, the finished calls
keep their entries after each step if and only if each call writes while the file still says what the
call has read. -/

namespace BrainEngine.Lib.Rewrite

open BrainEngine.Lib.Machine BrainEngine.Lib.Processes

/-- How a file `φ` is read and written: what it contains, and what that says under each key. Reading
may fail, but not on what has been written. -/
structure Format (φ σ κ β : Type) where
  load : φ → Option σ
  save : σ → φ
  view : σ → κ → β
  load_save : ∀ s, load (save s) = some s

variable {φ σ κ β : Type} [DecidableEq κ] {F : Format φ σ κ β}

/-- A change under one key. -/
structure Edit (F : Format φ σ κ β) where
  key : κ
  /-- What the change establishes under its key. -/
  value : β
  apply : σ → σ
  view_apply : ∀ s k, F.view (apply s) k = if k = key then value else F.view s k

/-- What the file says under a key, if it can be read. -/
def Format.entry (F : Format φ σ κ β) (f : φ) (k : κ) : Option β := (F.load f).map fun s => F.view s k

/-- Where a call is. -/
inductive Place (σ : Type)
  | ready
  /-- The file has been read, and this was in it. -/
  | holding (s : σ)
  | done
  /-- The file could not be read. -/
  | failed

def Place.isDone : Place σ → Bool
  | .done => true
  | _ => false

/-- One step of call `p`. -/
def stepOf (edits : List (Edit F)) (p : ℕ) (f : φ) (place : Place σ) (_ : Unit) :
    Option (φ × Place σ) :=
  match edits[p]?, place with
  | some _, .ready =>
    match F.load f with
    | some s => some (f, .holding s)
    | none => some (f, .failed)
  | some e, .holding s => some (F.save (e.apply s), .done)
  | _, _ => none

def step (edits : List (Edit F)) (c : Pool φ (Place σ)) (p : ℕ) : Option (Pool φ (Place σ)) :=
  turn (stepOf edits) c (p, ())

/-- A file, and calls that have not begun. -/
def start (f : φ) : Pool φ (Place σ) := ⟨f, fun _ => .ready⟩

/-- The call `p` has finished and its change is `e`. -/
def Finished (edits : List (Edit F)) (c : Pool φ (Place σ)) (p : ℕ) (e : Edit F) : Prop :=
  edits[p]? = some e ∧ c.places p = .done

/-- The entries of the finished calls are the ones they established, and the others are as they were
in `f₀`. -/
structure Kept (edits : List (Edit F)) (f₀ : φ) (c : Pool φ (Place σ)) : Prop where
  own : ∀ p e, Finished edits c p e → F.entry c.shared e.key = some e.value
  others : ∀ k, (∀ p e, Finished edits c p e → e.key ≠ k) → F.entry c.shared k = F.entry f₀ k

/-- If the call is about to write, the file still says what it has read. -/
def Undisturbed (F : Format φ σ κ β) (c : Pool φ (Place σ)) (p : ℕ) : Prop :=
  ∀ s, c.places p = .holding s → ∀ k, F.entry c.shared k = some (F.view s k)

/-! ### One step -/

section
variable {edits : List (Edit F)} {f₀ : φ} {c c' : Pool φ (Place σ)} {p q : ℕ}

/-- **What a step does**: a call reads, finds that it cannot read, or writes. -/
theorem step_cases (h : step edits c p = some c') : ∃ e, edits[p]? = some e ∧
    ((∃ place : Place σ, c.places p = .ready ∧ place ≠ .done ∧
        (∀ s, place = .holding s → F.load c.shared = some s) ∧
        c' = ⟨c.shared, Function.update c.places p place⟩) ∨
      ∃ s, c.places p = .holding s ∧
        c' = ⟨F.save (e.apply s), Function.update c.places p .done⟩) := by
  obtain ⟨⟨f, place⟩, hd, rfl⟩ := turn_eq_some.mp h
  unfold stepOf at hd
  dsimp only at hd
  split at hd
  · next e he hp =>
    refine ⟨e, he, Or.inl ⟨place, hp, ?_⟩⟩
    split at hd
    · next s hs =>
      cases hd
      refine ⟨by simp, fun s' h => ?_, rfl⟩
      cases h
      exact hs
    · cases hd
      exact ⟨by simp, by simp, rfl⟩
  · next e s he hp =>
    cases hd
    exact ⟨e, he, Or.inr ⟨s, hp, rfl⟩⟩
  · cases hd

theorem finished_of_ne {e : Edit F} {f : φ} {place : Place σ} (hq : q ≠ p) :
    Finished edits ⟨f, Function.update c.places p place⟩ q e ↔ Finished edits c q e := by
  unfold Finished
  dsimp only
  rw [Function.update_of_ne hq]

theorem eq_of_key (hd : (edits.map Edit.key).Nodup) {e e' : Edit F} (hp : edits[p]? = some e)
    (hq : edits[q]? = some e') (hk : e.key = e'.key) : p = q := by
  obtain ⟨hlt, hpe⟩ := List.getElem?_eq_some_iff.mp hp
  obtain ⟨hlt', hqe⟩ := List.getElem?_eq_some_iff.mp hq
  have hi : p < (edits.map Edit.key).length := by simpa using hlt
  have hj : q < (edits.map Edit.key).length := by simpa using hlt'
  have heq : (edits.map Edit.key)[p] = (edits.map Edit.key)[q] := by
    rw [List.getElem_map, List.getElem_map, hpe, hqe, hk]
  exact hd.getElem_inj_iff.mp heq

/-- What holds between the steps of a run that has lost nothing: a call that is about to write has
read the entry under its key as it was at first. -/
structure Inv (edits : List (Edit F)) (f₀ : φ) (c : Pool φ (Place σ)) : Prop extends
    Kept edits f₀ c where
  fresh : ∀ p e s, edits[p]? = some e → c.places p = .holding s →
    F.entry f₀ e.key = some (F.view s e.key)

theorem inv_start (edits : List (Edit F)) (f : φ) : Inv edits f (start f) where
  own p e h := by cases h.2
  others _ _ := rfl
  fresh p e s _ h := by cases h

/-- As long as a call has not finished, nothing has changed under its key. -/
theorem entry_of_unfinished (hd : (edits.map Edit.key).Nodup) (h : Kept edits f₀ c) {e : Edit F}
    (he : edits[p]? = some e) (hp : c.places p ≠ .done) :
    F.entry c.shared e.key = F.entry f₀ e.key := by
  refine h.others e.key fun q e' hq hk => hp ?_
  rw [eq_of_key hd he hq.1 hk.symm]
  exact hq.2

theorem inv_read (hd : (edits.map Edit.key).Nodup) (h : Inv edits f₀ c) {e : Edit F}
    {place : Place σ} (he : edits[p]? = some e) (hp : c.places p = .ready) (hplace : place ≠ .done)
    (hs : ∀ s, place = .holding s → F.load c.shared = some s) :
    Inv edits f₀ ⟨c.shared, Function.update c.places p place⟩ := by
  have hfin : ∀ q e', Finished edits ⟨c.shared, Function.update c.places p place⟩ q e' ↔
      Finished edits c q e' := by
    intro q e'
    by_cases hq : q = p
    · subst hq
      unfold Finished
      simp [hp, hplace]
    · exact finished_of_ne hq
  refine ⟨⟨fun q e' h' => h.own q e' ((hfin q e').mp h'),
    fun k hk => h.others k fun q e' h' => hk q e' ((hfin q e').mpr h')⟩, fun q e' s he' hq => ?_⟩
  by_cases hqp : q = p
  · subst hqp
    dsimp only at hq
    rw [Function.update_self] at hq
    have hee : e = e' := Option.some.inj (he.symm.trans he')
    subst hee
    rw [← entry_of_unfinished hd h.toKept he (by simp [hp])]
    unfold Format.entry
    rw [hs s hq]
    rfl
  · dsimp only at hq
    rw [Function.update_of_ne hqp] at hq
    exact h.fresh q e' s he' hq

theorem entry_save (e : Edit F) (s : σ) (k : κ) :
    F.entry (F.save (e.apply s)) k = if k = e.key then some e.value else some (F.view s k) := by
  unfold Format.entry
  rw [F.load_save, Option.map_some, e.view_apply]
  split_ifs
  · rfl
  · rfl

section Write
variable {e : Edit F} {s : σ} (hd : (edits.map Edit.key).Nodup) (h : Inv edits f₀ c)
  (he : edits[p]? = some e) (hp : c.places p = .holding s)
include hd h he hp

theorem inv_write (hu : Undisturbed F c p) :
    Inv edits f₀ ⟨F.save (e.apply s), Function.update c.places p .done⟩ := by
  refine ⟨⟨fun q e' hq => ?_, fun k hk => ?_⟩, fun q e' s' he' hq => ?_⟩
  · dsimp only
    rw [entry_save]
    by_cases hqp : q = p
    · subst hqp
      have hee : e = e' := Option.some.inj (he.symm.trans hq.1)
      rw [hee, if_pos rfl]
    · have hne : e'.key ≠ e.key := fun hk => hqp (eq_of_key hd hq.1 he hk)
      rw [if_neg hne, ← hu s hp]
      exact h.own q e' ((finished_of_ne hqp).mp hq)
  · have hne : k ≠ e.key := fun hke => hk p e ⟨he, Function.update_self _ _ _⟩ hke.symm
    dsimp only
    rw [entry_save, if_neg hne, ← hu s hp]
    refine h.others k fun q e' hq => ?_
    by_cases hqp : q = p
    · subst hqp
      have hpl := hq.2
      rw [hp] at hpl
      cases hpl
    · exact hk q e' ((finished_of_ne hqp).mpr hq)
  · have hqp : q ≠ p := by
      rintro rfl
      dsimp only at hq
      rw [Function.update_self] at hq
      cases hq
    dsimp only at hq
    rw [Function.update_of_ne hqp] at hq
    exact h.fresh q e' s' he' hq

/-- **A write that keeps everything** was of what the file still said. -/
theorem undisturbed_of_kept
    (hk : Kept edits f₀ ⟨F.save (e.apply s), Function.update c.places p .done⟩) :
    Undisturbed F c p := by
  intro s' hs' k
  have hss : s = s' := by
    rw [hp] at hs'
    cases hs'
    rfl
  subst hss
  by_cases hke : k = e.key
  · rw [hke, entry_of_unfinished hd h.toKept he (by simp [hp])]
    exact h.fresh p e s he hp
  · have hsaved : F.entry (F.save (e.apply s)) k = some (F.view s k) := by
      rw [entry_save, if_neg hke]
    rw [← hsaved]
    by_cases hfin : ∃ q e', Finished edits c q e' ∧ e'.key = k
    · -- the entry of another call that has finished
      obtain ⟨q, e', hq, rfl⟩ := hfin
      have hqp : q ≠ p := by
        rintro rfl
        have hpl := hq.2
        rw [hp] at hpl
        cases hpl
      rw [h.own q e' hq]
      exact (hk.own q e' ((finished_of_ne hqp).mpr hq)).symm
    · -- an entry that nobody has changed
      have hno : ∀ q e', Finished edits c q e' → e'.key ≠ k := fun q e' hq hkk =>
        hfin ⟨q, e', hq, hkk⟩
      rw [h.others k hno]
      refine (hk.others k fun q e' hq => ?_).symm
      by_cases hqp : q = p
      · subst hqp
        have hee : e = e' := Option.some.inj (he.symm.trans hq.1)
        rw [← hee]
        exact Ne.symm hke
      · exact hno q e' ((finished_of_ne hqp).mp hq)

end Write

/-- **One step**: it keeps all entries if and only if it is undisturbed. -/
theorem inv_step (hd : (edits.map Edit.key).Nodup) (h : Inv edits f₀ c)
    (hs : step edits c p = some c') :
    (Undisturbed F c p → Inv edits f₀ c') ∧ (Kept edits f₀ c' → Undisturbed F c p) := by
  obtain ⟨e, he, ⟨place, hp, hplace, hload, rfl⟩ | ⟨s, hp, rfl⟩⟩ := step_cases hs
  · refine ⟨fun _ => inv_read hd h he hp hplace hload, fun _ s hs => ?_⟩
    rw [hp] at hs
    cases hs
  · exact ⟨inv_write hd h he hp, undisturbed_of_kept hd h he hp⟩

theorem allSteps_iff_of_inv (hd : (edits.map Edit.key).Nodup) {ps : List ℕ} (h : Inv edits f₀ c) :
    AllSteps (step edits) (fun _ _ c' => Kept edits f₀ c') ps c ↔
      AllSteps (step edits) (fun c p _ => Undisturbed F c p) ps c := by
  induction ps generalizing c with
  | nil => rfl
  | cons p ps ih =>
    cases hs : step edits c p with
    | none => simp [AllSteps, hs]
    | some c' =>
      obtain ⟨h1, h2⟩ := inv_step hd h hs
      rw [allSteps_cons hs, allSteps_cons hs]
      constructor
      · rintro ⟨hk, hall⟩
        have hu := h2 hk
        exact ⟨hu, (ih (h1 hu)).mp hall⟩
      · rintro ⟨hu, hall⟩
        have hi := h1 hu
        exact ⟨hi.toKept, (ih hi).mpr hall⟩

/-- **No change is lost, exactly while calls write what they could read again**, with their own
change. -/
theorem allSteps_kept_iff (hd : (edits.map Edit.key).Nodup) (f : φ) (ps : List ℕ) :
    AllSteps (step edits) (fun _ _ c' => Kept edits f c') ps (start f) ↔
      AllSteps (step edits) (fun c p _ => Undisturbed F c p) ps (start f) :=
  allSteps_iff_of_inv hd (inv_start edits f)

end

end BrainEngine.Lib.Rewrite
