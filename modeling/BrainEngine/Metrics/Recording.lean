import BrainEngine.Lib.Processes
import BrainEngine.Metrics.Ledger

/-! # Recording requests side by side

Any number of processes (the daemon, the command line, its `stats`) call the functions of `metrics.rs` on one
database, which runs one statement at a time. A statement may fail because the database stays busy, and a
process may die between any two. `Sound` holds throughout; from it, what a report counts
(`report_of_reaches`), and what becomes of every call of `record_request` (`settled_of_quiet`). -/

namespace BrainEngine.Metrics.Recording

open BrainEngine.Rust.Str BrainEngine.Lib.Machine BrainEngine.Lib.Processes BrainEngine.Lib.Keyed
open BrainEngine.Core.External BrainEngine.Core.Stats BrainEngine.Metrics.Ledger

inductive Call
  | ensureSession (id : Text)
  | endSession (id : Text)
  | recordRequest (m : RequestMetric)
  | aggregateStats
  | reset

/-- Where a process is. -/
inductive Place
  | idle
  | ensuring (id : Text)
  | ending (id : Text)
  /-- Before `ensure_session` in call `i` of `record_request`. -/
  | recording (i : ℕ) (m : RequestMetric)
  /-- Before `INSERT INTO requests`. -/
  | inserting (i : ℕ) (m : RequestMetric)
  | aggregating
  /-- Before the second statement of `aggregate_stats`. -/
  | counting (report : StatsReport)
  | reported (report : StatsReport)
  | resetting
  | countingSessions (requests : ℤ)
  | deletingRequests (counts : ℤ × ℤ)
  | deletingSessions (counts : ℤ × ℤ)
  | dead

/-- The database, the requests that were to be recorded and by whom, and what has happened. -/
structure World where
  tables : Tables
  asked : List (ℕ × RequestMetric)
  events : List Event

inductive Action
  | call (c : Call)
  /-- The next statement, where the clock gives `now`. -/
  | go (now : ℤ)
  /-- The next statement fails. -/
  | busy
  | die

/-- The call of `record_request` that a process is in. -/
def Place.pending : Place → Option ℕ
  | .recording i _ => some i
  | .inserting i _ => some i
  | _ => none

def World.note (w : World) (t : Tables) (e : Event) : World := { w with tables := t, events := w.events ++ [e] }

/-- The call ends here. -/
def World.fail (w : World) (place : Place) : World :=
  match place.pending with
  | some i => w.note w.tables (.failed i)
  | none => w

def World.begin (p : ℕ) (w : World) : Call → World × Place
  | .ensureSession id => (w, .ensuring id)
  | .endSession id => (w, .ending id)
  | .recordRequest m => ({ w with asked := w.asked ++ [(p, m)] }, .recording w.asked.length m)
  | .aggregateStats => (w, .aggregating)
  | .reset => (w, .resetting)

variable (fl : Floats)

/-- One step of process `p`. -/
def stepOf (p : ℕ) (w : World) : Place → Action → Option (World × Place)
  | .idle, .call c => some (w.begin p c)
  | .reported _, .call c => some (w.begin p c)
  | .ensuring id, .go now => some (w.note (insertSession w.tables id now) (.session none id now), .idle)
  | .ending id, .go now => some (w.note (updateSession w.tables id now) (.ended id now), .idle)
  | .recording i m, .go now =>
    match m.sessionId with
    | some id => some (w.note (insertSession w.tables id now) (.session (some i) id now), .inserting i m)
    | none => some (w, .inserting i m)
  | .inserting i m, .go now =>
    match insertRequest w.tables m now with
    | .ok t => some (w.note t (.request i m now), .idle)
    | .error _ => some (w.note w.tables (.refused i), .idle)
  | .aggregating, .go _ =>
    match requestTotals fl w.tables with
    | .ok report => some (w, .counting report)
    | .error _ => some (w, .idle)
  | .counting report, .go _ => some (w, .reported (withSessions fl report (countSessions w.tables)))
  | .resetting, .go _ => some (w, .countingSessions (countRequests w.tables))
  | .countingSessions n, .go _ => some (w, .deletingRequests (n, countSessions w.tables))
  | .deletingRequests c, .go _ => some (w.note (deleteRequests w.tables) .deletedRequests, .deletingSessions c)
  | .deletingSessions _, .go _ => some (w.note (deleteSessions w.tables) .deletedSessions, .idle)
  | .dead, _ => none
  | place, .busy => some (w.fail place, .idle)
  | place, .die => some (w.fail place, .dead)
  | _, _ => none

def step : Pool World Place → ℕ × Action → Option (Pool World Place) := turn (stepOf fl)

/-- An empty database, and processes that have not begun. -/
def start : Pool World Place := ⟨⟨.empty, [], []⟩, fun _ => .idle⟩

/-! ### One step -/

variable {fl} {p : ℕ} {w w' : World} {place place' : Place} {a : Action}

/-- Where an event happens, and where it leads. -/
def Moves (w : World) (place : Place) (place' : Place) : Event → Prop
  | .session (some i) id _ => ∃ m, place = .recording i m ∧ m.sessionId = some id ∧ place' = .inserting i m
  | .request i m _ => place = .inserting i m ∧ place' = .idle
  | .refused i => ∃ m, place = .inserting i m ∧ ¬w.tables.Refers m.sessionId ∧ place' = .idle
  | .failed i => place.pending = some i ∧ (place' = .idle ∨ place' = .dead)
  | _ => place.pending = none ∧ (place' = .idle ∨ ∃ c, place' = .deletingSessions c)

/-- A step that only reads. -/
structure Reads (fl : Floats) (w : World) (place place' : Place) : Prop where
  pending : place.pending = none
  pending' : place'.pending = none
  counting : ∀ report, place' = .counting report → requestTotals fl w.tables = .ok report
  reported : ∀ report, place' = .reported report → ∃ r, place = .counting r ∧
    report = withSessions fl r (countSessions w.tables)

/-- A step that ends a call without a statement. -/
theorem fail_cases (hp : place'.pending = none) (hidle : place' = .idle ∨ place' = .dead) :
    (w.fail place = w ∧ Reads fl w place place') ∨
      ∃ e t, w.fail place = w.note t e ∧ Writes w.tables e t ∧ Moves w place place' e := by
  unfold World.fail
  cases hpend : place.pending with
  | none =>
    refine Or.inl ⟨rfl, hpend, hp, fun r h => ?_, fun r h => ?_⟩
    · rcases hidle with rfl | rfl <;> cases h
    · rcases hidle with rfl | rfl <;> cases h
  | some i => exact Or.inr ⟨.failed i, w.tables, rfl, rfl, hpend, hidle⟩

/-- **What a step can do.** -/
theorem stepOf_cases (h : stepOf fl p w place a = some (w', place')) :
    (w' = w ∧ Reads fl w place place') ∨
    (∃ m, place.pending = none ∧ w' = { w with asked := w.asked ++ [(p, m)] } ∧
      place' = .recording w.asked.length m) ∨
    (∃ i m, place = .recording i m ∧ m.sessionId = none ∧ w' = w ∧ place' = .inserting i m) ∨
    (∃ e t, w' = w.note t e ∧ Writes w.tables e t ∧ Moves w place place' e) := by
  -- a call that begins, one that ends early, and a statement that writes outside of `record_request`
  have hcall : ∀ c, place.pending = none → w.begin p c = (w', place') →
      (w' = w ∧ Reads fl w place place') ∨ ∃ m, place.pending = none ∧
        w' = { w with asked := w.asked ++ [(p, m)] } ∧ place' = .recording w.asked.length m := by
    intro c hp hc
    cases c with
    | recordRequest m =>
      obtain ⟨rfl, rfl⟩ := Prod.mk.inj hc
      exact Or.inr ⟨m, hp, rfl, rfl⟩
    | _ =>
      obtain ⟨rfl, rfl⟩ := Prod.mk.inj hc
      exact Or.inl ⟨rfl, hp, rfl, by simp, by simp⟩
  have hfail : ∀ q, (q = .idle ∨ q = .dead) → (w.fail place, q) = (w', place') →
      (w' = w ∧ Reads fl w place place') ∨
        ∃ e t, w' = w.note t e ∧ Writes w.tables e t ∧ Moves w place place' e := by
    intro q hq he
    obtain ⟨rfl, rfl⟩ := Prod.mk.inj he
    exact fail_cases (by rcases hq with rfl | rfl <;> rfl) hq
  unfold stepOf at h
  split at h
  · rcases hcall _ rfl (Option.some.inj h) with h1 | h1
    · exact Or.inl h1
    · exact Or.inr (Or.inl h1)
  · rcases hcall _ rfl (Option.some.inj h) with h1 | h1
    · exact Or.inl h1
    · exact Or.inr (Or.inl h1)
  · obtain ⟨rfl, rfl⟩ := Prod.mk.inj (Option.some.inj h)
    exact Or.inr (Or.inr (Or.inr ⟨_, _, rfl, rfl, rfl, Or.inl rfl⟩))
  · obtain ⟨rfl, rfl⟩ := Prod.mk.inj (Option.some.inj h)
    exact Or.inr (Or.inr (Or.inr ⟨_, _, rfl, rfl, rfl, Or.inl rfl⟩))
  · split at h
    · obtain ⟨rfl, rfl⟩ := Prod.mk.inj (Option.some.inj h)
      exact Or.inr (Or.inr (Or.inr ⟨_, _, rfl, rfl, _, rfl, ‹_›, rfl⟩))
    · obtain ⟨rfl, rfl⟩ := Prod.mk.inj (Option.some.inj h)
      exact Or.inr (Or.inr (Or.inl ⟨_, _, rfl, ‹_›, rfl, rfl⟩))
  · split at h
    · obtain ⟨rfl, rfl⟩ := Prod.mk.inj (Option.some.inj h)
      exact Or.inr (Or.inr (Or.inr ⟨_, _, rfl, ‹_›, rfl, rfl⟩))
    · next m now _ f hins =>
      obtain ⟨rfl, rfl⟩ := Prod.mk.inj (Option.some.inj h)
      have hno : ¬w.tables.Refers m.sessionId := by
        intro hr
        unfold insertRequest at hins
        rw [dif_pos hr] at hins
        cases hins
      exact Or.inr (Or.inr (Or.inr ⟨_, _, rfl, rfl, m, rfl, hno, rfl⟩))
  · split at h
    · obtain ⟨rfl, rfl⟩ := Prod.mk.inj (Option.some.inj h)
      refine Or.inl ⟨rfl, rfl, rfl, fun r hr => ?_, by simp⟩
      rw [← Place.counting.inj hr]
      assumption
    · obtain ⟨rfl, rfl⟩ := Prod.mk.inj (Option.some.inj h)
      exact Or.inl ⟨rfl, rfl, rfl, by simp, by simp⟩
  · obtain ⟨rfl, rfl⟩ := Prod.mk.inj (Option.some.inj h)
    refine Or.inl ⟨rfl, rfl, rfl, by simp, fun r hr => ⟨_, rfl, (Place.reported.inj hr).symm⟩⟩
  · obtain ⟨rfl, rfl⟩ := Prod.mk.inj (Option.some.inj h)
    exact Or.inl ⟨rfl, rfl, rfl, by simp, by simp⟩
  · obtain ⟨rfl, rfl⟩ := Prod.mk.inj (Option.some.inj h)
    exact Or.inl ⟨rfl, rfl, rfl, by simp, by simp⟩
  · obtain ⟨rfl, rfl⟩ := Prod.mk.inj (Option.some.inj h)
    exact Or.inr (Or.inr (Or.inr ⟨_, _, rfl, rfl, rfl, Or.inr ⟨_, rfl⟩⟩))
  · obtain ⟨rfl, rfl⟩ := Prod.mk.inj (Option.some.inj h)
    exact Or.inr (Or.inr (Or.inr ⟨_, _, rfl, rfl, rfl, Or.inl rfl⟩))
  · cases h
  · rcases hfail _ (Or.inl rfl) (Option.some.inj h) with h1 | h1
    · exact Or.inl h1
    · exact Or.inr (Or.inr (Or.inr h1))
  · rcases hfail _ (Or.inr rfl) (Option.some.inj h) with h1 | h1
    · exact Or.inl h1
    · exact Or.inr (Or.inr (Or.inr h1))
  · cases h

/-! ### What holds throughout -/

/-- The call that an event ends. -/
def settles : Event → Option ℕ
  | .request i _ _ => some i
  | .refused i => some i
  | .failed i => some i
  | _ => none

/-- The calls of `record_request` that have ended. -/
def settled (events : List Event) : List ℕ := events.filterMap settles

/-- A report on the requests of a ledger. -/
def Totals (fl : Floats) (events : List Event) (report : StatsReport) : Prop :=
  Plain (recorded events) → report = totalsOf fl (recorded events)

/-- What a process was told was true when it was told. -/
def Told (fl : Floats) (events : List Event) : Place → Prop
  | .counting report => ∃ es, es <+: events ∧ Totals fl es report
  | .reported report => ∃ es es' r, es <+: es' ∧ es' <+: events ∧ Totals fl es r ∧
      report = withSessions fl r (seen es').dedup.length
  | _ => True

/-- A session is there, or a reset came after the call saw to it. -/
def Ensured (w : World) (i : ℕ) (id : Text) : Prop :=
  ∃ now, .session (some i) id now ∈ w.events ∧
    (id ∈ w.tables.sessions.keys ∨ [.session (some i) id now, .deletedSessions].Sublist w.events)

/-- The database and the events. -/
structure Sound (w : World) : Prop where
  kept : Kept w.events w.tables
  nodup : (settled w.events).Nodup
  bound : ∀ i ∈ settled w.events, i < w.asked.length
  requests : ∀ i m now, .request i m now ∈ w.events → ∃ p, w.asked[i]? = some (p, m)
  refused : ∀ i, .refused i ∈ w.events → ∃ id now,
    [.session (some i) id now, .deletedSessions, .refused i].Sublist w.events

/-- Process `p`, and its calls. -/
structure Holds (fl : Floats) (p : ℕ) (w : World) (place : Place) : Prop where
  told : Told fl w.events place
  owns : ∀ i m, place = .recording i m ∨ place = .inserting i m →
    w.asked[i]? = some (p, m) ∧ i ∉ settled w.events
  ensured : ∀ i m id, place = .inserting i m → m.sessionId = some id → Ensured w i id
  ended : ∀ i m, w.asked[i]? = some (p, m) → i ∈ settled w.events ∨ place.pending = some i

theorem settled_append (events : List Event) (e : Event) :
    settled (events ++ [e]) = settled events ++ (settles e).toList := by
  unfold settled
  rw [List.filterMap_append]
  cases h : settles e <;> simp [h]

theorem mem_settled_append {events : List Event} {e : Event} {i : ℕ} :
    i ∈ settled (events ++ [e]) ↔ i ∈ settled events ∨ settles e = some i := by
  rw [settled_append, List.mem_append, Option.mem_toList]

theorem Told.append {events : List Event} (h : Told fl events place) (e : Event) :
    Told fl (events ++ [e]) place := by
  unfold Told at h ⊢
  split at h
  · obtain ⟨es, h1, h2⟩ := h
    exact ⟨es, h1.trans (List.prefix_append _ _), h2⟩
  · obtain ⟨es, es', r, h1, h2, h3⟩ := h
    exact ⟨es, es', r, h1, h2.trans (List.prefix_append _ _), h3⟩
  · trivial

/-- The call of `record_request` that a process is in, with its request. -/
theorem exists_of_pending {i : ℕ} (h : place.pending = some i) :
    ∃ m, place = .recording i m ∨ place = .inserting i m := by
  unfold Place.pending at h
  split at h
  · next j m =>
    obtain rfl := Option.some.inj h
    exact ⟨m, Or.inl rfl⟩
  · next j m =>
    obtain rfl := Option.some.inj h
    exact ⟨m, Or.inr rfl⟩
  · cases h

theorem pending_of_owns {i : ℕ} {m : RequestMetric} (h : place = .recording i m ∨ place = .inserting i m) :
    place.pending = some i := by
  rcases h with rfl | rfl <;> rfl

/-- An event ends the call that the process is in, or is the first half of one. -/
theorem moves_cases {e : Event} (h : Moves w place place' e) :
    (place.pending = settles e ∧
      (place' = .idle ∨ place' = .dead ∨ ∃ c, place' = .deletingSessions c)) ∨
    ∃ i m id now, e = .session (some i) id now ∧ place = .recording i m ∧ m.sessionId = some id ∧
      place' = .inserting i m := by
  cases e with
  | session call id now =>
    cases call with
    | none => exact Or.inl ⟨h.1, h.2.imp_right Or.inr⟩
    | some i =>
      obtain ⟨m, h1, h2, h3⟩ := h
      exact Or.inr ⟨i, m, id, now, rfl, h1, h2, h3⟩
  | ended id now => exact Or.inl ⟨h.1, h.2.imp_right Or.inr⟩
  | request i m now =>
    obtain ⟨rfl, rfl⟩ := h
    exact Or.inl ⟨rfl, Or.inl rfl⟩
  | refused i =>
    obtain ⟨m, rfl, -, rfl⟩ := h
    exact Or.inl ⟨rfl, Or.inl rfl⟩
  | failed i => exact Or.inl ⟨h.1, h.2.imp_right Or.inl⟩
  | deletedRequests => exact Or.inl ⟨h.1, h.2.imp_right Or.inr⟩
  | deletedSessions => exact Or.inl ⟨h.1, h.2.imp_right Or.inr⟩

/-- An event ends only the call of the process that moves. -/
theorem pending_of_moves {i : ℕ} {e : Event} (h : Moves w place place' e) (he : settles e = some i) :
    place.pending = some i := by
  rcases moves_cases h with ⟨hpend, -⟩ | ⟨j, m, id, now, rfl, -⟩
  · rw [hpend, he]
  · cases he

/-! ### The step lemmas -/

/-- A session that was there when the call saw to it. -/
theorem Ensured.write {i : ℕ} {id : Text} {e : Event} {t : Tables} (h : Ensured w i id)
    (hw : Writes w.tables e t) : Ensured (w.note t e) i id := by
  obtain ⟨now, hmem, hin⟩ := h
  refine ⟨now, List.mem_append_left _ hmem, ?_⟩
  rcases hin with hin | hsub
  · cases e with
    | session call id' now' =>
      obtain rfl : t = insertSession w.tables id' now' := hw
      exact Or.inl (KeyTable.mem_keys_insertIgnore.mpr (Or.inl hin))
    | ended id' now' =>
      obtain rfl : t = updateSession w.tables id' now' := hw
      refine Or.inl ?_
      show id ∈ (w.tables.sessions.modify _ _).keys
      rw [KeyTable.keys_modify]
      exact hin
    | request j m now' =>
      obtain ⟨-, hses, -⟩ := insertRequest_eq_ok.mp hw
      refine Or.inl ?_
      show id ∈ t.sessions.keys
      rw [hses]
      exact hin
    | refused j =>
      obtain rfl : t = w.tables := hw
      exact Or.inl hin
    | failed j =>
      obtain rfl : t = w.tables := hw
      exact Or.inl hin
    | deletedRequests =>
      obtain rfl : t = deleteRequests w.tables := hw
      exact Or.inl hin
    | deletedSessions =>
      exact Or.inr ((List.singleton_sublist.mpr hmem).append (List.Sublist.refl [Event.deletedSessions]))
  · exact Or.inr (hsub.trans (List.sublist_append_left _ _))

/-- **The database and the events** after a step. -/
theorem sound_step (h : Sound w) (hp : Holds fl p w place)
    (hs : stepOf fl p w place a = some (w', place')) : Sound w' := by
  rcases stepOf_cases hs with ⟨rfl, -⟩ | ⟨m, -, rfl, -⟩ | ⟨i, m, -, -, rfl, -⟩ | ⟨e, t, rfl, hw, hm⟩
  · exact h
  · refine ⟨h.kept, h.nodup, fun i hi => ?_, fun i m' now hi => ?_, h.refused⟩
    · have := h.bound i hi
      rw [List.length_append]
      omega
    · obtain ⟨q, hq⟩ := h.requests i m' now hi
      exact ⟨q, by rw [List.getElem?_append_left (List.getElem?_eq_some_iff.mp hq).1, hq]⟩
  · exact h
  · -- the call that ends is one of this process, and has not ended before
    have hnew : ∀ i, settles e = some i → ∃ m, w.asked[i]? = some (p, m) ∧ i ∉ settled w.events := by
      intro i hi
      obtain ⟨m, hplace⟩ := exists_of_pending (pending_of_moves hm hi)
      exact ⟨m, hp.owns i m hplace⟩
    refine ⟨h.kept.write hw, ?_, fun i hi => ?_, fun i m now hi => ?_, fun i hi => ?_⟩
    · show (settled (w.events ++ [e])).Nodup
      rw [settled_append]
      cases he : settles e with
      | none => simpa using h.nodup
      | some i =>
        obtain ⟨-, -, hnot⟩ := hnew i he
        exact List.nodup_append.mpr ⟨h.nodup, List.nodup_singleton i, fun a ha b hb hab => by
          rw [List.mem_singleton.mp hb] at hab
          exact hnot (hab ▸ ha)⟩
    · rcases mem_settled_append.mp hi with hi | hi
      · exact h.bound i hi
      · obtain ⟨m, hask, -⟩ := hnew i hi
        exact (List.getElem?_eq_some_iff.mp hask).1
    · rcases List.mem_append.mp hi with hi | hi
      · exact h.requests i m now hi
      · obtain rfl := List.mem_singleton.mp hi
        exact ⟨p, (hp.owns i m (Or.inr hm.1)).1⟩
    · rcases List.mem_append.mp hi with hi | hi
      · obtain ⟨id, now, hsub⟩ := h.refused i hi
        exact ⟨id, now, hsub.trans (List.sublist_append_left _ _)⟩
      · obtain rfl := List.mem_singleton.mp hi
        obtain ⟨m, hplace, hno, -⟩ := hm
        -- the session is not there, so it was deleted after the call saw to it
        have hid : ∃ id, m.sessionId = some id ∧ id ∉ w.tables.sessions.keys := by
          by_contra hall
          refine hno fun id hid => ?_
          by_contra hnot
          exact hall ⟨id, hid, hnot⟩
        obtain ⟨id, hid, hnot⟩ := hid
        obtain ⟨now, -, hin | hsub⟩ := hp.ensured i m id hplace hid
        · exact absurd hin hnot
        · exact ⟨id, now, hsub.append (List.Sublist.refl [Event.refused i])⟩

/-- **The process that moves.** -/
theorem holds_own (h : Sound w) (hp : Holds fl p w place)
    (hs : stepOf fl p w place a = some (w', place')) : Holds fl p w' place' := by
  rcases stepOf_cases hs with ⟨rfl, hr⟩ | ⟨m, hnone, rfl, rfl⟩ | ⟨i, m, rfl, hnone, rfl, rfl⟩ |
    ⟨e, t, rfl, hw, hm⟩
  · have hno : ∀ i m, ¬(place' = .recording i m ∨ place' = .inserting i m) := by
      intro i m hplace
      have hpend := hr.pending'
      rw [pending_of_owns hplace] at hpend
      cases hpend
    refine ⟨?_, fun i m h => absurd h (hno i m), fun i m id h => absurd (Or.inr h) (hno i m), fun i m hi => ?_⟩
    · unfold Told
      split
      · next report =>
        refine ⟨_, List.prefix_rfl, fun hplain => ?_⟩
        have hok := hr.counting report rfl
        rw [requestTotals_of_kept fl h.kept hplain] at hok
        split_ifs at hok
        exact (Except.ok.inj hok).symm
      · next report =>
        obtain ⟨r, rfl, hrep⟩ := hr.reported report rfl
        obtain ⟨es, hes, htot⟩ := hp.told
        rw [countSessions_of_kept h.kept] at hrep
        exact ⟨es, _, r, hes, List.prefix_rfl, htot, hrep⟩
      · trivial
    · rcases hp.ended i m hi with hi | hi
      · exact Or.inl hi
      · rw [hr.pending] at hi
        cases hi
  · refine ⟨trivial, fun i m' hplace => ?_, fun i m' id hplace => ?_, fun i m' hi => ?_⟩
    · rcases hplace with hplace | hplace
      · obtain ⟨rfl, rfl⟩ := Place.recording.inj hplace
        exact ⟨by simp, fun hmem => absurd (h.bound _ hmem) (lt_irrefl _)⟩
      · cases hplace
    · cases hplace
    · rcases Nat.lt_or_ge i w.asked.length with hlt | hge
      · rw [List.getElem?_append_left hlt] at hi
        rcases hp.ended i m' hi with hi | hi
        · exact Or.inl hi
        · rw [hnone] at hi
          cases hi
      · have hlt := (List.getElem?_eq_some_iff.mp hi).1
        rw [List.length_append, List.length_singleton] at hlt
        refine Or.inr ?_
        show some w.asked.length = some i
        congr 1
        omega
  · refine ⟨trivial, fun j m' hplace => ?_, fun j m' id hplace hid => ?_, fun j m' hj => ?_⟩
    · rcases hplace with hplace | hplace
      · cases hplace
      · obtain ⟨rfl, rfl⟩ := Place.inserting.inj hplace
        exact hp.owns i m (Or.inl rfl)
    · obtain ⟨rfl, rfl⟩ := Place.inserting.inj hplace
      rw [hnone] at hid
      cases hid
    · exact hp.ended j m' hj
  · rcases moves_cases hm with ⟨hpend, hplace'⟩ | ⟨i, m, id, now, rfl, rfl, hid, rfl⟩
    · have hnone : place'.pending = none := by
        rcases hplace' with rfl | rfl | ⟨c, rfl⟩ <;> rfl
      have hno : ∀ i m, ¬(place' = .recording i m ∨ place' = .inserting i m) := by
        intro i m hplace
        rw [pending_of_owns hplace] at hnone
        cases hnone
      refine ⟨?_, fun i m h => absurd h (hno i m), fun i m id h => absurd (Or.inr h) (hno i m),
        fun i m hi => ?_⟩
      · rcases hplace' with rfl | rfl | ⟨c, rfl⟩ <;> trivial
      · refine Or.inl (mem_settled_append.mpr ?_)
        rw [← hpend]
        exact hp.ended i m hi
    · have hsettled : settled (w.note t (.session (some i) id now)).events = settled w.events := by
        show settled (w.events ++ [_]) = _
        rw [settled_append]
        exact List.append_nil _
      refine ⟨trivial, fun j m' hplace => ?_, fun j m' id' hplace hid' => ?_, fun j m' hj => ?_⟩
      · rcases hplace with hplace | hplace
        · cases hplace
        · obtain ⟨rfl, rfl⟩ := Place.inserting.inj hplace
          rw [hsettled]
          exact hp.owns i m (Or.inl rfl)
      · obtain ⟨rfl, rfl⟩ := Place.inserting.inj hplace
        obtain rfl : id = id' := Option.some.inj (hid.symm.trans hid')
        obtain rfl : t = insertSession w.tables id now := hw
        exact ⟨now, List.mem_append_right _ (List.mem_singleton_self _),
          Or.inl (KeyTable.mem_keys_insertIgnore.mpr (Or.inr rfl))⟩
      · rw [hsettled]
        exact hp.ended j m' hj

/-- **The other processes.** -/
theorem holds_other {q : ℕ} {other : Place} (hq : q ≠ p) (ho : Holds fl q w other) (hp : Holds fl p w place)
    (hs : stepOf fl p w place a = some (w', place')) : Holds fl q w' other := by
  rcases stepOf_cases hs with ⟨rfl, -⟩ | ⟨m, -, rfl, -⟩ | ⟨i, m, -, -, rfl, -⟩ | ⟨e, t, rfl, hw, hm⟩
  · exact ho
  · refine ⟨ho.told, fun i m' hplace => ?_, ho.ensured, fun i m' hi => ?_⟩
    · obtain ⟨hask, hnot⟩ := ho.owns i m' hplace
      exact ⟨by rw [List.getElem?_append_left (List.getElem?_eq_some_iff.mp hask).1, hask], hnot⟩
    · rcases Nat.lt_or_ge i w.asked.length with hlt | hge
      · rw [List.getElem?_append_left hlt] at hi
        exact ho.ended i m' hi
      · rw [List.getElem?_append_right hge] at hi
        have hlt := (List.getElem?_eq_some_iff.mp hi).1
        obtain ⟨_, heq⟩ := List.getElem?_eq_some_iff.mp hi
        simp only [List.getElem_singleton, Prod.mk.injEq] at heq
        exact absurd heq.1.symm hq
  · exact ho
  · refine ⟨ho.told.append e, fun i m hplace => ?_, fun i m id hplace hid => (ho.ensured i m id hplace hid).write hw,
      fun i m hi => ?_⟩
    · obtain ⟨hask, hnot⟩ := ho.owns i m hplace
      refine ⟨hask, fun hmem => ?_⟩
      rcases mem_settled_append.mp hmem with hmem | he
      · exact hnot hmem
      · -- a call has one process
        obtain ⟨m', hplace'⟩ := exists_of_pending (pending_of_moves hm he)
        have hask' := (hp.owns i m' hplace').1
        rw [hask] at hask'
        exact hq (Prod.mk.inj (Option.some.inj hask')).1
    · rcases ho.ended i m hi with hi | hi
      · exact Or.inl (mem_settled_append.mpr (Or.inl hi))
      · exact Or.inr hi

/-! ### Runs -/

variable {c : Pool World Place}

theorem sound_start : Sound (start : Pool World Place).shared :=
  ⟨kept_empty, List.nodup_nil, by simp [start, settled], by simp [start], by simp [start]⟩

theorem holds_start (q : ℕ) : Holds fl q (start : Pool World Place).shared (start.places q) :=
  ⟨trivial, by simp [start], by simp [start], by simp [start]⟩

/-- **What holds throughout**, however the processes take turns. -/
theorem sound_of_reaches (h : Reaches (step fl) free start c) :
    Sound c.shared ∧ ∀ q, Holds fl q c.shared (c.places q) := by
  have hall : ∀ q, Sound c.shared ∧ Holds fl q c.shared (c.places q) := by
    refine Reaches.invariant (I := fun c => ∀ q, Sound c.shared ∧ Holds fl q c.shared (c.places q)) h
      (fun q => ⟨sound_start, holds_start q⟩) fun hi _ hs => ?_
    refine turn_assertion (J := fun q w place => Sound w ∧ Holds fl q w place) ?_ ?_ hi hs
    · intro w place hj hstep
      exact ⟨sound_step hj.1 hj.2 hstep, holds_own hj.1 hj.2 hstep⟩
    · intro q w place hq hj hp hstep
      exact ⟨sound_step hp.1 hp.2 hstep, holds_other hq hj.2 hp.2 hstep⟩
  exact ⟨(hall 0).1, fun q => (hall q).2⟩

/-! ### Reports -/

/-- The requests in the events, with the numbers of their calls. -/
def request? : Event → Option (ℕ × RequestMetric)
  | .request i m _ => some (i, m)
  | _ => none

def requested (events : List Event) : List (ℕ × RequestMetric) := events.filterMap request?

theorem requested_append (events : List Event) (e : Event) :
    requested (events ++ [e]) = requested events ++ requested [e] := List.filterMap_append

theorem recorded_sublist (events : List Event) :
    (recorded events).Sublist ((requested events).map Prod.snd) := by
  induction events using List.reverseRecOn with
  | nil => exact List.Sublist.refl []
  | append_singleton es e ih =>
    rw [recorded_append, requested_append, List.map_append]
    cases e with
    | request i m now => exact ih.append (List.Sublist.refl [m])
    | deletedRequests => exact List.nil_sublist _
    | _ => exact ih.trans (List.sublist_append_left _ _)

theorem requested_sublist (events : List Event) : ((requested events).map Prod.fst).Sublist (settled events) := by
  induction events with
  | nil => exact List.Sublist.refl []
  | cons e es ih =>
    cases e with
    | request i m now => exact ih.cons_cons i
    | refused i => exact ih.cons i
    | failed i => exact ih.cons i
    | _ => exact ih

theorem mem_requested {events : List Event} {i : ℕ} {m : RequestMetric} :
    (i, m) ∈ requested events ↔ ∃ now, .request i m now ∈ events := by
  unfold requested
  rw [List.mem_filterMap]
  constructor
  · rintro ⟨e, he, heq⟩
    cases e with
    | request j m' now =>
      obtain ⟨rfl, rfl⟩ := Prod.mk.inj (Option.some.inj heq)
      exact ⟨now, he⟩
    | _ => cases heq
  · rintro ⟨now, he⟩
    exact ⟨_, he, rfl⟩

/-- No more calls have ended than were made. -/
theorem length_settled_le (h : Sound w) : (settled w.events).length ≤ w.asked.length := by
  have hsub : (settled w.events).Subperm (List.range w.asked.length) :=
    List.subperm_of_subset h.nodup fun i hi => List.mem_range.mpr (h.bound i hi)
  simpa using hsub.length_le

/-- The ledger is plain if the requests are. -/
theorem plain_recorded (h : Sound w) (hp : Plain (w.asked.map Prod.snd)) {es : List Event}
    (hes : es <+: w.events) : Plain (recorded es) := by
  have hsub : (recorded es).Sublist ((requested w.events).map Prod.snd) :=
    (recorded_sublist es).trans ((hes.sublist.filterMap _).map _)
  constructor
  · intro m hm n hn
    obtain ⟨⟨i, m'⟩, hmem, rfl⟩ := List.mem_map.mp (hsub.subset hm)
    obtain ⟨now, he⟩ := mem_requested.mp hmem
    obtain ⟨q, hq⟩ := h.requests i m' now he
    exact hp.tokens m' (List.mem_map.mpr ⟨_, List.mem_of_getElem? hq, rfl⟩) n hn
  · have h1 := hsub.length_le
    have h2 := (requested_sublist w.events).length_le
    have h3 := length_settled_le h
    have h4 := hp.count
    rw [List.length_map] at h1 h2 h4
    omega

/-- **A report is that of the ledger.** However the processes take turns: the statistics of the tables are
those of the requests recorded and the sessions seen since they were last deleted; and what a process
gets from `aggregate_stats`, whose statements others may come between, counts the requests at one moment
of the run and the sessions at that moment or a later one. -/
theorem report_of_reaches (h : Reaches (step fl) free start c) (hp : Plain (c.shared.asked.map Prod.snd)) :
    (aggregateStats fl c.shared.tables =
      if realTokens (recorded c.shared.events) < 2 ^ 63
      then .ok (reportOf fl (recorded c.shared.events) (seen c.shared.events))
      else .error (.error (.db "integer overflow".toList))) ∧
    ∀ p report, c.places p = .reported report →
      ∃ es es', es <+: es' ∧ es' <+: c.shared.events ∧ report = reportOf fl (recorded es) (seen es') := by
  obtain ⟨hsound, hholds⟩ := sound_of_reaches h
  refine ⟨aggregateStats_of_kept fl hsound.kept (plain_recorded hsound hp List.prefix_rfl),
    fun p report hr => ?_⟩
  have htold := (hholds p).told
  rw [hr] at htold
  obtain ⟨es, es', r, h1, h2, htot, hrep⟩ := htold
  refine ⟨es, es', h1, h2, ?_⟩
  rw [hrep, htot (plain_recorded hsound hp (h1.trans h2)), withSessions_totalsOf]

/-- Floats that are all zero. -/
def noFloats : Floats := ⟨0, fun _ => 0, fun _ _ => 0⟩

def liveOne : RequestMetric :=
  { sessionId := some ['s'], contextTokensEstimated := some 1200, embeddingSource := some "local".toList }

def hitOne : RequestMetric := { sessionId := some ['s'], cacheHit := true }

/-- Two requests are recorded side by side, and a third process reads the statistics between them. -/
def sideBySide : List (ℕ × Action) :=
  [(0, .call (.recordRequest liveOne)), (1, .call (.recordRequest hitOne)), (0, .go 1), (1, .go 2), (1, .go 3),
    (2, .call .aggregateStats), (2, .go 4), (0, .go 5), (2, .go 6)]

theorem report_sideBySide : ∃ c, Reaches (step noFloats) free start c ∧
    c.places 2 = .reported ⟨1, 1, 1, 0, 0, 0, 0, 0⟩ ∧
    aggregateStats noFloats c.shared.tables = .ok ⟨2, 1, 1, 0, 0, 1200, 1, 0⟩ ∧
    ∃ es es', es <+: es' ∧ es' <+: c.shared.events ∧
      (⟨1, 1, 1, 0, 0, 0, 0, 0⟩ : StatsReport) = reportOf noFloats (recorded es) (seen es') := by
  have hr : Reaches (step noFloats) free start _ := reaches_of_run (show run _ sideBySide start = some _ from rfl)
  have hplain : Plain ([liveOne, hitOne] : List RequestMetric) := by
    refine ⟨fun m hm n hn => ?_, by decide⟩
    rcases List.mem_cons.mp hm with rfl | hm
    · obtain rfl := Option.some.inj hn
      decide
    · obtain rfl := List.mem_singleton.mp hm
      cases hn
  obtain ⟨-, h2⟩ := report_of_reaches hr hplain
  exact ⟨_, hr, rfl, by rfl, h2 2 _ rfl⟩

/-! ### What becomes of the calls -/

/-- No process is in a call of `record_request`. -/
def Quiet (c : Pool World Place) : Prop := ∀ p, (c.places p).pending = none

/-- **Every call has ended, once.** -/
theorem settled_perm (h : Reaches (step fl) free start c) (hq : Quiet c) :
    (settled c.shared.events).Perm (List.range c.shared.asked.length) := by
  obtain ⟨hsound, hholds⟩ := sound_of_reaches h
  refine (List.perm_ext_iff_of_nodup hsound.nodup List.nodup_range).mpr fun i => ?_
  rw [List.mem_range]
  refine ⟨hsound.bound i, fun hi => ?_⟩
  obtain ⟨⟨p, m⟩, hask⟩ : ∃ a, c.shared.asked[i] = a := ⟨_, rfl⟩
  rcases (hholds p).ended i m (List.getElem?_eq_some_iff.mpr ⟨hi, hask⟩) with hmem | hpend
  · exact hmem
  · rw [hq p] at hpend
    cases hpend

/-- Without deletions the ledger has all requests. -/
theorem recorded_eq {events : List Event} (h : .deletedRequests ∉ events) :
    recorded events = (requested events).map Prod.snd := by
  induction events using List.reverseRecOn with
  | nil => rfl
  | append_singleton es e ih =>
    have hes : .deletedRequests ∉ es := fun hmem => h (List.mem_append_left _ hmem)
    rw [recorded_append, ih hes, requested_append, List.map_append]
    cases e with
    | request i m now => rfl
    | deletedRequests => exact absurd (List.mem_append_right _ (List.mem_singleton_self _)) h
    | _ => exact (List.append_nil _).symm

theorem settled_eq {events : List Event} (hf : ∀ i, .failed i ∉ events) (hr : ∀ i, .refused i ∉ events) :
    settled events = (requested events).map Prod.fst := by
  induction events with
  | nil => rfl
  | cons e es ih =>
    have hes := ih (fun i hi => hf i (List.mem_cons_of_mem _ hi)) fun i hi => hr i (List.mem_cons_of_mem _ hi)
    cases e with
    | request i m now => exact congrArg (i :: ·) hes
    | refused i => exact absurd List.mem_cons_self (hr i)
    | failed i => exact absurd List.mem_cons_self (hf i)
    | _ => exact hes

theorem filterMap_range {α β : Type} (f : α → β) (l : List α) :
    (List.range l.length).filterMap (fun i => l[i]?.map f) = l.map f := by
  induction l with
  | nil => rfl
  | cons a l ih =>
    rw [List.length_cons, List.range_succ_eq_map, List.filterMap_cons, List.filterMap_map]
    show f a :: (List.range l.length).filterMap (fun i => l[i]?.map f) = _
    rw [ih, List.map_cons]

/-- **No request is lost.** However the processes take turns: once none is in a call of `record_request`, each
call has ended in exactly one way; the foreign key was missing only where a reset came between the two
statements of the call; and without a reset and a failed statement, what is recorded are the requests that
were to be, each as often as there was a call. -/
theorem asked_of_quiet (h : Reaches (step fl) free start c) (hq : Quiet c) :
    (settled c.shared.events).Perm (List.range c.shared.asked.length) ∧
      (∀ i, .refused i ∈ c.shared.events → ∃ id now,
        [.session (some i) id now, .deletedSessions, .refused i].Sublist c.shared.events) ∧
      ((∀ i, .failed i ∉ c.shared.events) → .deletedRequests ∉ c.shared.events →
        .deletedSessions ∉ c.shared.events →
          (recorded c.shared.events).Perm (c.shared.asked.map Prod.snd)) := by
  obtain ⟨hsound, -⟩ := sound_of_reaches h
  refine ⟨settled_perm h hq, hsound.refused, fun hf hdr hds => ?_⟩
  have hrefused : ∀ i, .refused i ∉ c.shared.events := by
    intro i hi
    obtain ⟨id, now, hsub⟩ := hsound.refused i hi
    exact hds (hsub.subset (by simp))
  have hperm := settled_perm h hq
  rw [settled_eq hf hrefused] at hperm
  -- a call's request is found under its number
  have hfound : (requested c.shared.events).map Prod.snd =
      ((requested c.shared.events).map Prod.fst).filterMap fun i => c.shared.asked[i]?.map Prod.snd := by
    rw [List.filterMap_map]
    refine (List.filterMap_eq_map_iff_forall_eq_some.mpr fun a ha => ?_).symm
    obtain ⟨i, m⟩ := a
    obtain ⟨now, he⟩ := mem_requested.mp ha
    obtain ⟨q, hask⟩ := hsound.requests i m now he
    simp [hask]
  rw [recorded_eq hdr, hfound, ← filterMap_range Prod.snd c.shared.asked]
  exact hperm.filterMap _

/-- A reset comes between the two statements of a call. -/
def resetBetween : List (ℕ × Action) :=
  [(0, .call (.recordRequest liveOne)), (0, .go 1), (1, .call .reset), (1, .go 2), (1, .go 3), (1, .go 4),
    (1, .go 5), (0, .go 6)]

theorem asked_resetBetween : ∃ c, Reaches (step noFloats) free start c ∧ Quiet c ∧
    .refused 0 ∈ c.shared.events ∧ ∃ id now,
      [.session (some 0) id now, .deletedSessions, .refused 0].Sublist c.shared.events := by
  have hrun : run (step noFloats) resetBetween start =
      some ((run (step noFloats) resetBetween start).get rfl) := rfl
  have hquiet : Quiet ((run (step noFloats) resetBetween start).get rfl) := by
    intro p
    by_cases hp : p ∈ resetBetween.map Prod.fst
    · have hp : p = 0 ∨ p = 1 ∨ p = 0 := by simpa [resetBetween] using hp
      rcases hp with rfl | rfl | rfl <;> rfl
    · rw [places_of_run hrun hp]
      rfl
  have href : .refused 0 ∈ ((run (step noFloats) resetBetween start).get rfl).shared.events :=
    List.mem_of_getElem? (show _[3]? = some (Event.refused 0) from rfl)
  obtain ⟨-, h2, -⟩ := asked_of_quiet (reaches_of_run hrun) hquiet
  exact ⟨_, reaches_of_run hrun, hquiet, href, h2 0 href⟩

end BrainEngine.Metrics.Recording
