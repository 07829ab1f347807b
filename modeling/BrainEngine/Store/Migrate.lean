import BrainEngine.Lib.Processes
import BrainEngine.Core.Migrations
import Mathlib.Data.List.Basic
import Mathlib.Tactic.Common

/-! # Migrations that overlap and stop

Any number of processes run `migrate` on one database file, one statement at a time, and a process may
be left at any point for ever. Nothing they do takes the schema back, so the state of the schema is how
much of the script of all migrations has been carried out. Repeating a statement of that part does
nothing, except for the one `ALTER TABLE`, which fails. -/

namespace BrainEngine.Store.Migrate

open BrainEngine.Lib.Machine BrainEngine.Lib.Processes BrainEngine.Core.Migrations

/-- What the database file keeps. -/
structure File where
  userVersion : ℕ
  schema : Schema
  deriving DecidableEq

/-- Where a process is in `migrate`. -/
inductive Place
  /-- Before `current_version`. -/
  | ready
  | running (rest : List Step)
  | done
  /-- A statement reported an error. -/
  | failed
  deriving DecidableEq

/-- A process with these steps left. -/
def goOn : List Step → Place
  | [] => .done
  | rest => .running rest

/-- One step of a process. -/
def stepOf (_ : ℕ) (f : File) (place : Place) (_ : Unit) : Option (File × Place) :=
  match place with
  | .ready => some (f, goOn (migrate f.userVersion))
  | .running (.execute st :: rest) =>
    match st.apply f.schema with
    | some schema => some ({ f with schema }, goOn rest)
    | none => some (f, .failed)
  | .running (.setVersion v :: rest) => some ({ f with userVersion := v }, goOn rest)
  | _ => none

/-- One step of process `p`. -/
def step (c : Pool File Place) (p : ℕ) : Option (Pool File Place) := turn stepOf c (p, ())

/-! ### The script -/

/-- All migrations. -/
def script : List Step := migrate 0

/-- What a step does to the schema. -/
def advance (s : Schema) : Step → Option Schema
  | .execute st => st.apply s
  | .setVersion _ => some s

/-- The schema after the first `n` steps. -/
def schemaAt (n : ℕ) : Schema := ((script.take n).foldlM advance .empty).getD .empty

/-- Where the migrations after a version begin. -/
def offset (version : ℕ) : ℕ := script.length - (migrate version).length

/-- Where the script alters the table. -/
def alterAt : ℕ := 10

/-- A file at a version, with the schema of that version. -/
def fileAt (version : ℕ) : File := ⟨version, schemaAt (offset version)⟩

/-- The version that a step writes. -/
def writes : Step → Option ℕ
  | .execute _ => none
  | .setVersion v => some v

/-- The statement that cannot be repeated. -/
def alters : Step → Bool
  | .execute (.addColumn _ _) => true
  | _ => false

theorem length_script : script.length = 19 := by decide

theorem migrate_eq_drop : ∀ v ≤ schemaVersion, migrate v = script.drop (offset v) := by decide

theorem offset_le : ∀ v ≤ schemaVersion, offset v ≤ 19 := by decide

theorem advance_schemaAt : ∀ n < 19, (script[n]?.bind fun st => advance (schemaAt n) st) =
    some (schemaAt (n + 1)) := by decide

/-- A version is written right after the migrations up to it. -/
theorem setVersion_script : ∀ n < 19, ∀ v ∈ script[n]?.bind writes, v ≤ schemaVersion ∧
    offset v = n + 1 := by decide

theorem alters_script : ∀ n < 19, script[n]?.any alters = decide (n = alterAt) := by decide

theorem script_alterAt : script[alterAt]? = some (.execute addQueryVector) := by decide

theorem alter_again : ∀ n ≤ 19, alterAt < n → addQueryVector.apply (schemaAt n) = none := by decide

theorem script_last : script[18]? = some (.setVersion schemaVersion) := by decide

theorem head_of_offset : ∀ v ≤ schemaVersion, 19 ≤ offset v → v = schemaVersion := by decide

/-! ### What has been executed stays -/

/-- A statement that says `IF NOT EXISTS`, and whose table or index exists. -/
def exists_ : Stmt → Schema → Bool
  | .createTable t, s => s.hasTable t.name
  | .createIndex i, s => s.hasIndex i.name
  | .addColumn _ _, _ => false

theorem apply_of_exists {st : Stmt} {s : Schema} (h : exists_ st s = true) : st.apply s = some s := by
  cases st with
  | createTable t => exact if_pos h
  | createIndex i => exact if_pos h
  | addColumn table c => simp [exists_] at h

theorem exists_of_apply {st : Stmt} {s s' : Schema} (hst : alters (.execute st) = false)
    (h : st.apply s = some s') : exists_ st s' = true := by
  cases st with
  | createTable t =>
    simp only [Stmt.apply] at h
    split_ifs at h with ht
    · cases h
      exact ht
    · cases h
      simp [exists_, Schema.hasTable]
  | createIndex i =>
    simp only [Stmt.apply] at h
    split_ifs at h with hi ht
    · cases h
      exact hi
    · cases h
      simp [exists_, Schema.hasIndex]
  | addColumn table c => simp [alters] at hst

theorem hasTable_apply {st : Stmt} {s s' : Schema} {name : String} (h : st.apply s = some s')
    (ht : s.hasTable name = true) : s'.hasTable name = true := by
  cases st with
  | createTable t =>
    simp only [Stmt.apply] at h
    split_ifs at h
    · cases h
      exact ht
    · cases h
      simp only [Schema.hasTable, List.any_append, Bool.or_eq_true]
      exact Or.inl ht
  | createIndex i =>
    simp only [Stmt.apply] at h
    split_ifs at h
    · cases h
      exact ht
    · cases h
      exact ht
  | addColumn table c =>
    obtain ⟨-, h⟩ := Option.ite_none_right_eq_some.mp h
    cases h
    obtain ⟨t, hm, hn⟩ := List.any_eq_true.mp ht
    refine List.any_eq_true.mpr ⟨_, List.mem_map_of_mem hm, ?_⟩
    split_ifs
    · exact hn
    · exact hn

theorem hasIndex_apply {st : Stmt} {s s' : Schema} {name : String} (h : st.apply s = some s')
    (hi : s.hasIndex name = true) : s'.hasIndex name = true := by
  cases st with
  | createTable t =>
    simp only [Stmt.apply] at h
    split_ifs at h
    · cases h
      exact hi
    · cases h
      exact hi
  | createIndex i =>
    simp only [Stmt.apply] at h
    split_ifs at h
    · cases h
      exact hi
    · cases h
      simp only [Schema.hasIndex, List.any_append, Bool.or_eq_true]
      exact Or.inl hi
  | addColumn table c =>
    obtain ⟨-, h⟩ := Option.ite_none_right_eq_some.mp h
    cases h
    exact hi

theorem exists_apply {st st' : Stmt} {s s' : Schema} (h : st'.apply s = some s')
    (he : exists_ st s = true) : exists_ st s' = true := by
  cases st with
  | createTable t => exact hasTable_apply h he
  | createIndex i => exact hasIndex_apply h he
  | addColumn table c => simp [exists_] at he

theorem exists_advance {st : Stmt} {st' : Step} {s s' : Schema} (h : advance s st' = some s')
    (he : exists_ st s = true) : exists_ st s' = true := by
  cases st' with
  | execute st' => exact exists_apply h he
  | setVersion v =>
    cases h
    exact he

/-- One more step of the script. -/
theorem advance_getElem {n : ℕ} {st : Step} (hn : n < 19) (hst : script[n]? = some st) :
    advance (schemaAt n) st = some (schemaAt (n + 1)) := by
  have h := advance_schemaAt n hn
  rwa [hst, Option.bind_some] at h

/-- **A statement of the script that has been executed**, other than the `ALTER TABLE`, does nothing
when it is executed again. -/
theorem apply_again {j n : ℕ} {st : Stmt} (hj : j < n) (hn : n ≤ 19) (ha : j ≠ alterAt)
    (hst : script[j]? = some (.execute st)) : st.apply (schemaAt n) = some (schemaAt n) := by
  have hne : alters (.execute st) = false := by
    have h := alters_script j (by omega)
    rwa [hst, Option.any_some, decide_eq_false ha] at h
  refine apply_of_exists ?_
  induction hj with
  | refl => exact exists_of_apply hne (advance_getElem (by omega) hst)
  | @step n hj ih =>
    obtain ⟨st', hst'⟩ : ∃ st', script[n]? = some st' :=
      ⟨_, List.getElem?_eq_getElem (by rw [length_script]; omega)⟩
    exact exists_advance (advance_getElem (by omega) hst') (ih (by omega))

/-! ### How far the file is -/

/-- The head schema. -/
def head : File := fileAt schemaVersion

/-- Process `p` is about to alter the table. -/
def atAlter (c : Pool File Place) (p : ℕ) : Bool :=
  match c.places p with
  | .running rest => rest.head?.any alters
  | _ => false

/-- A step does not fail, and a process that ends leaves the head schema. -/
def Ends (_ : Pool File Place) (p : ℕ) (c' : Pool File Place) : Prop :=
  c'.places p ≠ .failed ∧ (c'.places p = .done → c'.shared = head)

/-- The first `n` steps of the script have been carried out; no process is further, and none is before
the `lo`-th. -/
structure At (lo n : ℕ) (c : Pool File Place) : Prop where
  le : n ≤ 19
  schema : c.shared.schema = schemaAt n
  version_le : c.shared.userVersion ≤ schemaVersion
  lo_le : lo ≤ offset c.shared.userVersion
  offset_le : offset c.shared.userVersion ≤ n
  places : ∀ p rest, c.places p = .running rest → ∃ j, lo ≤ j ∧ j ≤ n ∧ j < 19 ∧ rest = script.drop j

theorem goOn_drop {j : ℕ} : goOn (script.drop j) = .running (script.drop j) ∧ j < 19 ∨
    goOn (script.drop j) = .done ∧ 19 ≤ j := by
  by_cases hj : j < 19
  · have : script.drop j = script[j] :: script.drop (j + 1) :=
      List.drop_eq_getElem_cons (by rw [length_script]; omega)
    exact Or.inl ⟨by rw [this]; rfl, hj⟩
  · have : script.drop j = [] := List.drop_eq_nil_of_le (by rw [length_script]; omega)
    exact Or.inr ⟨by rw [this]; rfl, by omega⟩

variable {lo n : ℕ} {c c' : Pool File Place} {p : ℕ}

/-- A process goes on at the `k`-th step of the script, and leaves a file as far as `n'`. -/
theorem at_move {n' k : ℕ} {f : File} (h : At lo n c) (hn : n ≤ n') (hn' : n' ≤ 19)
    (hschema : f.schema = schemaAt n') (hv : f.userVersion ≤ schemaVersion)
    (hlo : lo ≤ offset f.userVersion) (hoff : offset f.userVersion ≤ n') (hk : lo ≤ k) (hk' : k ≤ n')
    (hend : 19 ≤ k → f.userVersion = schemaVersion)
    (hc : c' = ⟨f, Function.update c.places p (goOn (script.drop k))⟩) :
    At lo n' c' ∧ Ends c p c' := by
  subst hc
  refine ⟨⟨hn', hschema, hv, hlo, hoff, fun q rest hq => ?_⟩, ?_⟩
  · dsimp only at hq
    by_cases hqp : q = p
    · rw [hqp, Function.update_self] at hq
      rcases goOn_drop (j := k) with ⟨hg, hlt⟩ | ⟨hg, -⟩
      · rw [hg] at hq
        cases hq
        exact ⟨k, hk, hk', hlt, rfl⟩
      · rw [hg] at hq
        cases hq
    · rw [Function.update_of_ne hqp] at hq
      obtain ⟨j, h1, h2, h3, h4⟩ := h.places q rest hq
      exact ⟨j, h1, Nat.le_trans h2 hn, h3, h4⟩
  · unfold Ends
    dsimp only
    rw [Function.update_self]
    rcases goOn_drop (j := k) with ⟨hg, -⟩ | ⟨hg, hle⟩
    · rw [hg]
      exact ⟨by simp, by simp⟩
    · rw [hg]
      refine ⟨by simp, fun _ => ?_⟩
      have h19 : n' = 19 := by omega
      have hver := hend hle
      cases f
      dsimp only at hschema hver
      rw [hschema, hver, h19]
      rfl

/-- What a step of the script is, with what comes after it. -/
theorem drop_cons {j : ℕ} {st : Step} {rest : List Step} (hj : j < 19)
    (h : st :: rest = script.drop j) : script[j]? = some st ∧ rest = script.drop (j + 1) := by
  have hlt : j < script.length := by
    rw [length_script]
    exact hj
  rw [List.drop_eq_getElem_cons hlt] at h
  obtain ⟨rfl, rfl⟩ := List.cons.inj h
  exact ⟨List.getElem?_eq_getElem hlt, rfl⟩

theorem atAlter_iff {st : Step} {rest : List Step} (h : c.places p = .running (st :: rest)) {j : ℕ}
    (hj : j < 19) (hst : script[j]? = some st) : atAlter c p = true ↔ j = alterAt := by
  have ha := alters_script j hj
  rw [hst, Option.any_some] at ha
  simp [atAlter, h, ha]

/-- What a step does to a file that is as far as `n`: it repeats the `ALTER TABLE` and fails, or it leads
to a file as far as some `n'`, beyond the `ALTER TABLE` if the old one was or if this step was it. -/
def Goes (lo n : ℕ) (c : Pool File Place) (p : ℕ) (c' : Pool File Place) : Prop :=
  (c'.places p = .failed ∧ atAlter c p = true ∧ alterAt < n) ∨
    (Ends c p c' ∧ (atAlter c p = true → n ≤ alterAt) ∧ ∃ n', At lo n' c' ∧
      (alterAt < n' ↔ alterAt < n ∨ atAlter c p = true))

/-- Reading the version. -/
theorem goes_ready (h : At lo n c) (hp : c.places p = .ready) (hs : step c p = some c') :
    Goes lo n c p c' := by
  obtain ⟨⟨f, place⟩, hd, hc⟩ := turn_eq_some.mp hs
  dsimp only at hd hc
  rw [hp] at hd
  cases hd
  have hna : atAlter c p = false := by simp [atAlter, hp]
  rw [migrate_eq_drop _ h.version_le] at hc
  obtain ⟨h1, h2⟩ := at_move h (Nat.le_refl n) h.le h.schema h.version_le h.lo_le h.offset_le h.lo_le
    h.offset_le (fun h19 => head_of_offset _ h.version_le h19) hc
  exact Or.inr ⟨h2, by simp [hna], n, h1, by simp [hna]⟩

/-- A statement of the script: one that was executed before changes nothing, or is the `ALTER TABLE`. -/
theorem goes_execute (h : At lo n c) {st : Stmt} {rest : List Step}
    (hp : c.places p = .running (.execute st :: rest)) (hs : step c p = some c') :
    Goes lo n c p c' := by
  obtain ⟨⟨f, place⟩, hd, hc⟩ := turn_eq_some.mp hs
  dsimp only at hd hc
  rw [hp] at hd
  unfold stepOf at hd
  dsimp only at hd
  obtain ⟨j, hlo, hjn, hj, hrest⟩ := h.places p _ hp
  obtain ⟨hst, rfl⟩ := drop_cons hj hrest
  have hiff := atAlter_iff hp hj hst
  have hend : 19 ≤ j + 1 → c.shared.userVersion = schemaVersion := fun h19 => by
    -- the last step of the script writes a version
    have : j = 18 := by omega
    subst this
    simp [script_last] at hst
  rcases Nat.lt_or_ge j n with hlt | hge
  · by_cases ha : j = alterAt
    · have hst' : st = addQueryVector := by
        rw [ha, script_alterAt] at hst
        simpa using hst.symm
      rw [hst', h.schema, alter_again n h.le (ha ▸ hlt)] at hd
      cases hd
      exact Or.inl ⟨by rw [hc]; simp, hiff.mpr ha, ha ▸ hlt⟩
    · rw [h.schema, apply_again hlt h.le ha hst] at hd
      cases hd
      obtain ⟨h1, h2⟩ := at_move (f := ⟨c.shared.userVersion, schemaAt n⟩) h (Nat.le_refl n) h.le rfl
        h.version_le h.lo_le h.offset_le (by omega) (by omega) hend hc
      have hna : ¬atAlter c p = true := fun h => ha (hiff.mp h)
      exact Or.inr ⟨h2, fun h => absurd h hna, n, h1, by simp [hna]⟩
  · have hjn' : j = n := by omega
    subst hjn'
    have hadv : st.apply (schemaAt j) = some (schemaAt (j + 1)) := advance_getElem hj hst
    rw [h.schema, hadv] at hd
    cases hd
    obtain ⟨h1, h2⟩ := at_move (f := ⟨c.shared.userVersion, schemaAt (j + 1)⟩) h (Nat.le_succ j)
      (by omega) rfl h.version_le h.lo_le (Nat.le_succ_of_le h.offset_le) (by omega)
      (Nat.le_refl _) hend hc
    exact Or.inr ⟨h2, fun h => (hiff.mp h) ▸ Nat.le_refl _, j + 1, h1, by rw [hiff]; omega⟩

/-- Writing a version. -/
theorem goes_setVersion (h : At lo n c) {v : ℕ} {rest : List Step}
    (hp : c.places p = .running (.setVersion v :: rest)) (hs : step c p = some c') :
    Goes lo n c p c' := by
  obtain ⟨⟨f, place⟩, hd, hc⟩ := turn_eq_some.mp hs
  dsimp only at hd hc
  rw [hp] at hd
  cases hd
  obtain ⟨j, hlo, hjn, hj, hrest⟩ := h.places p _ hp
  obtain ⟨hst, rfl⟩ := drop_cons hj hrest
  obtain ⟨hv, hoff⟩ := setVersion_script j hj v (by rw [hst]; rfl)
  have hna : ¬atAlter c p = true := by simp [atAlter, hp, alters]
  have hend : 19 ≤ j + 1 → v = schemaVersion := fun h19 =>
    head_of_offset v hv (by omega)
  rcases Nat.lt_or_ge j n with hlt | hge
  · obtain ⟨h1, h2⟩ := at_move (f := ⟨v, c.shared.schema⟩) h (Nat.le_refl n) h.le h.schema hv
      (by dsimp only; omega) (by dsimp only; omega) (by omega) hlt hend hc
    exact Or.inr ⟨h2, fun h => absurd h hna, n, h1, by simp [hna]⟩
  · have hjn' : j = n := by omega
    subst hjn'
    have hadv : some (schemaAt j) = some (schemaAt (j + 1)) := advance_getElem hj hst
    obtain ⟨h1, h2⟩ := at_move (f := ⟨v, c.shared.schema⟩) h (Nat.le_succ j) (by omega)
      (h.schema.trans (Option.some.inj hadv)) hv (by dsimp only; omega) (by dsimp only; omega)
      (by omega) (Nat.le_refl _) hend hc
    have hne : j ≠ alterAt := by
      rintro rfl
      rw [script_alterAt] at hst
      cases hst
    exact Or.inr ⟨h2, fun h => absurd h hna, j + 1, h1, by simp [hna]; omega⟩

/-- **One step** of a process: it fails if it repeats the `ALTER TABLE`, and otherwise ends well if it
ends. -/
theorem step_at (h : At lo n c) (hs : step c p = some c') : Goes lo n c p c' := by
  cases hp : c.places p with
  | ready => exact goes_ready h hp hs
  | running steps =>
    cases steps with
    | nil => simp [step, turn, stepOf, hp] at hs
    | cons st rest =>
      cases st with
      | execute st => exact goes_execute h hp hs
      | setVersion v => exact goes_setVersion h hp hs
  | done => simp [step, turn, stepOf, hp] at hs
  | failed => simp [step, turn, stepOf, hp] at hs

theorem lo_le_alterAt (h : At lo n c) (ha : atAlter c p = true) : lo ≤ alterAt := by
  unfold atAlter at ha
  split at ha
  · next rest hp =>
    obtain ⟨j, hlo, -, hj, rfl⟩ := h.places p _ hp
    rw [List.head?_drop, alters_script j hj, decide_eq_true_eq] at ha
    omega
  · cases ha

/-! ### Runs -/

/-- In a run, every process ends well exactly if the table is altered once at most; not at all, if
that has been done. -/
theorem allSteps_iff {ps : List ℕ} (h : At lo n c) : AllSteps step Ends ps c ↔
    countSteps step atAlter ps c ≤ if alterAt < n then 0 else 1 := by
  induction ps generalizing n c with
  | nil => simp [AllSteps, countSteps]
  | cons p ps ih =>
    cases hs : step c p with
    | none => simp [AllSteps, countSteps, hs]
    | some c' =>
      rw [allSteps_cons hs, countSteps_cons hs]
      rcases step_at h hs with ⟨hf, ha, hn⟩ | ⟨he, ha, n', h', hn⟩
      · refine iff_of_false (fun h => h.1.1 hf) ?_
        rw [if_pos ha, if_pos hn]
        omega
      · rw [ih h', and_iff_right he]
        by_cases hp : atAlter c p = true
        · have h1 : alterAt < n' := hn.mpr (Or.inr hp)
          have h2 : ¬alterAt < n := Nat.not_lt.mpr (ha hp)
          rw [if_pos h1, if_pos hp, if_neg h2]
          omega
        · have h1 : alterAt < n' ↔ alterAt < n := by simpa [hp] using hn
          simp only [h1, hp, Bool.false_eq_true, if_false, Nat.zero_add]

/-- Where the table has been altered before the start, no process does it again. -/
theorem countSteps_eq_zero {ps : List ℕ} (h : At lo n c) (hlo : alterAt < lo) :
    countSteps step atAlter ps c = 0 := by
  have hno : ∀ {n c}, At lo n c → ∀ p, atAlter c p = false := fun h p =>
    Bool.eq_false_iff.mpr fun ha => absurd (lo_le_alterAt h ha) (Nat.not_le.mpr hlo)
  induction ps generalizing n c with
  | nil => rfl
  | cons p ps ih =>
    cases hs : step c p with
    | none => simp [countSteps, hs]
    | some c' =>
      rw [countSteps_cons hs, hno h p]
      rcases step_at h hs with ⟨-, ha, -⟩ | ⟨-, -, n', h', -⟩
      · rw [hno h p] at ha
        cases ha
      · rw [ih h']
        rfl

/-- No process has begun. -/
def start (version : ℕ) : Pool File Place := ⟨fileAt version, fun _ => .ready⟩

theorem at_start {v : ℕ} (hv : v ≤ schemaVersion) : At (offset v) (offset v) (start v) :=
  ⟨offset_le v hv, rfl, hv, Nat.le_refl _, Nat.le_refl _, fun p rest h => by cases h⟩

/-- **Migration is safe exactly while the table is altered once at most.** From every version, in every
interleaving of processes that may be left anywhere: no step fails, and every process that ends leaves
the head schema with its version, if and only if at most one process executes the `ALTER TABLE`. -/
theorem ends_iff {v : ℕ} (hv : v ≤ schemaVersion) (ps : List ℕ) :
    AllSteps step Ends ps (start v) ↔ countSteps step atAlter ps (start v) ≤ 1 := by
  have h := at_start hv
  rw [allSteps_iff h]
  split_ifs with hn
  · rw [countSteps_eq_zero h hn]
    simp
  · rfl

/-- One process migrates a new database; another follows, and a third only reads the version. -/
theorem ends_twoAfterOne : AllSteps step Ends (List.replicate 20 0 ++ [1, 2]) (start 0) ∧
    ((run step (List.replicate 20 0 ++ [1, 2]) (start 0)).map fun c =>
      (c.shared, c.places 0, c.places 1)) = some (head, .done, .done) :=
  ⟨(ends_iff (by decide) _).mpr (by decide), by decide⟩

/-- **A process that stops between the `ALTER TABLE` and the version** leaves a database that the next
process cannot open. -/
theorem not_ends : ¬∀ v ≤ schemaVersion, ∀ ps, AllSteps step Ends ps (start v) := by
  intro h
  have h1 := h 1 (by decide) [0, 0, 1, 1]
  rw [allSteps_iff (at_start (by decide))] at h1
  exact absurd h1 (by decide)

end BrainEngine.Store.Migrate
