import BrainEngine.Lib.Machine

/-! # The debounce thread

`start_from_sync` of the watcher: the callback sends a tick for every event, and a thread turns ticks
into `Index` messages for the worker. A tick is consumed at three places of the loop, and may arrive at
any other; `log` keeps the order in which ticks and `Index` messages are sent, and a tick goes by its
position there. -/

namespace BrainEngine.Daemon.Debounce

open BrainEngine.Lib.Machine

/-- Where the thread is in its loop. -/
inductive Stage
  /-- In `recv`. -/
  | recv
  /-- In `recv_timeout`. -/
  | window
  /-- In the `try_recv` loop. -/
  | drain
  /-- Before `worker_tx.send(Index)`. -/
  | send
  /-- In `blocking_recv` of the reply. -/
  | reply
  /-- Out of the loop. -/
  | ended
  deriving DecidableEq

/-- What is sent. -/
inductive Event
  | tick
  | index
  deriving DecidableEq

structure State where
  /-- The ticks and the `Index` messages sent so far. -/
  log : List Event
  /-- The ticks in the channel. -/
  chan : List ℕ
  /-- The ticks consumed since the last `Index` message. -/
  held : List ℕ
  stage : Stage
  /-- The callback exists: `std_tx` has not been dropped. -/
  watching : Bool
  /-- The worker exists: it holds its receiver and answers. -/
  working : Bool
  deriving DecidableEq

def start : State := ⟨[], [], [], .recv, true, true⟩

inductive Action
  /-- The callback sends a tick. -/
  | tick
  /-- The watcher is dropped. -/
  | unwatch
  /-- The worker stops. -/
  | halt
  | recv
  /-- `recv_timeout` returns: with a tick, or because the time is over or the watcher was dropped. -/
  | recvTimeout
  | tryRecv
  /-- `worker_tx.send` returns; it blocks while the queue is full. -/
  | send
  /-- The reply, or the news that there will be none. -/
  | reply
  deriving DecidableEq

/-- The next tick is taken off the channel. -/
def consume (s : State) (i : ℕ) (rest : List ℕ) (stage : Stage) : State :=
  { s with chan := rest, held := s.held ++ [i], stage }

def step (s : State) : Action → Option State
  | .tick =>
    if s.watching then some { s with log := s.log ++ [.tick], chan := s.chan ++ [s.log.length] }
    else none
  | .unwatch => some { s with watching := false }
  | .halt => some { s with working := false }
  | .recv =>
    if s.stage = .recv then
      match s.chan with
      | i :: rest => some (consume s i rest .window)
      | [] => if s.watching then none else some { s with stage := .ended }
    else none
  | .recvTimeout =>
    if s.stage = .window then
      match s.chan with
      | i :: rest => some (consume s i rest .drain)
      | [] => some { s with stage := .drain }
    else none
  | .tryRecv =>
    if s.stage = .drain then
      match s.chan with
      | i :: rest => some (consume s i rest .drain)
      | [] => some { s with stage := .send }
    else none
  | .send =>
    if s.stage = .send then
      if s.working then some { s with log := s.log ++ [.index], held := [], stage := .reply }
      else some { s with stage := .ended }
    else none
  | .reply =>
    if s.stage = .reply then
      if s.working then some { s with stage := .recv } else some { s with stage := .ended }
    else none

/-- An `Index` message was sent after the `i`-th event. -/
def Followed (log : List Event) (i : ℕ) : Prop := ∃ j, i < j ∧ log[j]? = some .index

/-- Every tick is in the channel, or in a cycle that has not sent its message, or followed by one. -/
def Accounted (s : State) : Prop :=
  ∀ i, s.log[i]? = some .tick → i ∈ s.chan ∨ i ∈ s.held ∨ Followed s.log i

theorem Followed.append {log : List Event} {i : ℕ} (h : Followed log i) (e : Event) :
    Followed (log ++ [e]) i := by
  obtain ⟨j, hj, hl⟩ := h
  exact ⟨j, hj, by rw [List.getElem?_append_left (List.getElem?_eq_some_iff.mp hl).1, hl]⟩

theorem followed_index {log : List Event} {i : ℕ} (h : (log ++ [Event.index])[i]? = some .tick) :
    Followed (log ++ [.index]) i := by
  refine ⟨log.length, ?_, by simp⟩
  obtain ⟨hi, hl⟩ := List.getElem?_eq_some_iff.mp h
  by_contra hn
  have hlast : i = log.length := by
    rw [List.length_append, List.length_singleton] at hi
    omega
  subst hlast
  simp at hl

/-! ### Every reachable state -/

/-- What holds at every point of the loop. -/
structure Inv (s : State) : Prop where
  accounted : Accounted s
  /-- A cycle begins with nothing in hand. -/
  held : s.stage = .recv ∨ s.stage = .reply → s.held = []
  /-- With a worker, the thread ends only when the watcher is gone and every tick has been served. -/
  ended : s.working = true → s.stage = .ended →
    s.watching = false ∧ s.chan = [] ∧ s.held = []

theorem inv_start : Inv start :=
  ⟨fun i h => by simp [start] at h, fun _ => rfl, fun _ h => by simp [start] at h⟩

/-- Taking a tick off the channel keeps account of it. -/
theorem inv_consume {s : State} {i : ℕ} {rest : List ℕ} {stage : Stage} (h : Inv s)
    (hc : s.chan = i :: rest) (hs : stage = .window ∨ stage = .drain) :
    Inv (consume s i rest stage) := by
  refine ⟨fun j hj => ?_, ?_, ?_⟩
  · rcases h.accounted j hj with h1 | h1 | h1
    · rw [hc] at h1
      rcases List.mem_cons.mp h1 with rfl | h1
      · exact Or.inr (Or.inl (by simp [consume]))
      · exact Or.inl h1
    · exact Or.inr (Or.inl (List.mem_append_left _ h1))
    · exact Or.inr (Or.inr h1)
  · rintro (he | he)
    all_goals rcases hs with rfl | rfl <;> simp [consume] at he
  · intro _ he
    rcases hs with rfl | rfl <;> simp [consume] at he

theorem inv_tick {s : State} (h : Inv s) (hw : s.watching = true) :
    Inv { s with log := s.log ++ [.tick], chan := s.chan ++ [s.log.length] } := by
  refine ⟨fun i hi => ?_, h.held, fun h1 h2 => ?_⟩
  · dsimp only at hi ⊢
    by_cases hl : i < s.log.length
    · rw [List.getElem?_append_left hl] at hi
      rcases h.accounted i hi with h1 | h1 | h1
      · exact Or.inl (List.mem_append_left _ h1)
      · exact Or.inr (Or.inl h1)
      · exact Or.inr (Or.inr (h1.append _))
    · -- the new tick is the one just put into the channel
      have hlen := (List.getElem?_eq_some_iff.mp hi).1
      rw [List.length_append, List.length_singleton] at hlen
      have : i = s.log.length := by omega
      exact Or.inl (by simp [this])
  · have := (h.ended h1 h2).1
    rw [hw] at this
    simp at this

/-- The message follows all ticks sent before it. -/
theorem inv_send {s : State} :
    Inv { s with log := s.log ++ [.index], held := [], stage := .reply } := by
  refine ⟨fun i hi => ?_, fun _ => rfl, fun _ h => by simp at h⟩
  exact Or.inr (Or.inr (followed_index hi))

/-- **One step**, at every place of the thread and of the callback. -/
theorem inv_step {s t : State} {a : Action} (h : Inv s) (hs : step s a = some t) : Inv t := by
  cases a with
  | tick =>
    obtain ⟨hw, hs⟩ := Option.ite_none_right_eq_some.mp hs
    cases hs
    exact inv_tick h hw
  | unwatch =>
    cases hs
    exact ⟨h.accounted, h.held, fun h1 h2 => ⟨rfl, (h.ended h1 h2).2⟩⟩
  | halt =>
    cases hs
    exact ⟨h.accounted, h.held, fun h1 => by simp at h1⟩
  | recv =>
    obtain ⟨hst, hs⟩ := Option.ite_none_right_eq_some.mp hs
    split at hs
    · next i rest hc =>
      cases hs
      exact inv_consume h hc (Or.inl rfl)
    · next hc =>
      obtain ⟨hw, hs⟩ := Option.ite_none_left_eq_some.mp hs
      cases hs
      have hh := h.held (Or.inl hst)
      exact ⟨h.accounted, fun _ => hh, fun _ _ => ⟨by simpa using hw, hc, hh⟩⟩
  | recvTimeout =>
    obtain ⟨hst, hs⟩ := Option.ite_none_right_eq_some.mp hs
    split at hs
    · next i rest hc =>
      cases hs
      exact inv_consume h hc (Or.inr rfl)
    · cases hs
      exact ⟨h.accounted, by simp, by simp⟩
  | tryRecv =>
    obtain ⟨hst, hs⟩ := Option.ite_none_right_eq_some.mp hs
    split at hs
    · next i rest hc =>
      cases hs
      exact inv_consume h hc (Or.inr rfl)
    · cases hs
      exact ⟨h.accounted, by simp, by simp⟩
  | send =>
    obtain ⟨hst, hs⟩ := Option.ite_none_right_eq_some.mp hs
    split_ifs at hs with hw
    · cases hs
      exact inv_send
    · cases hs
      exact ⟨h.accounted, by simp, fun h1 => absurd h1 hw⟩
  | reply =>
    obtain ⟨hst, hs⟩ := Option.ite_none_right_eq_some.mp hs
    split_ifs at hs with hw
    · cases hs
      exact ⟨h.accounted, fun _ => h.held (Or.inr hst), by simp⟩
    · cases hs
      exact ⟨h.accounted, by simp, fun h1 => absurd h1 hw⟩

/-- **Every reachable state.** -/
theorem inv_of_reaches {s : State} (h : Reaches step free start s) : Inv s :=
  h.invariant inv_start fun h _ hs => inv_step h hs

/-- **No change is lost.** In every reachable state each tick is in the channel, in a cycle that has
not sent its message, or followed by a message; the thread waits for ticks, or ends beside a worker,
only when every tick has been followed. -/
theorem accounted_of_reaches {s : State} (h : Reaches step free start s) :
    Accounted s ∧
      (s.stage = .recv → s.chan = [] → ∀ i, s.log[i]? = some .tick → Followed s.log i) ∧
      (s.working = true → s.stage = .ended → ∀ i, s.log[i]? = some .tick → Followed s.log i) := by
  have hinv := inv_of_reaches h
  refine ⟨hinv.accounted, fun hs hc i hi => ?_, fun hw hs i hi => ?_⟩
  · have hh := hinv.held (Or.inl hs)
    simpa [hc, hh] using hinv.accounted i hi
  · obtain ⟨-, hc, hh⟩ := hinv.ended hw hs
    simpa [hc, hh] using hinv.accounted i hi

/-- Ticks in the window, in the drain, before the message and during the wait for the reply. -/
def busy : List Action :=
  [.tick, .recv, .tick, .recvTimeout, .tick, .tryRecv, .tryRecv, .tick, .send, .tick, .reply, .recv]

theorem accounted_busy :
    ∃ s, Reaches step free start s ∧ s.log.length = 6 ∧ s.stage = .window ∧ Accounted s := by
  have hr : run step busy start = some
      ⟨[.tick, .tick, .tick, .tick, .index, .tick], [5], [3], .window, true, true⟩ := by decide
  exact ⟨_, reaches_of_run hr, rfl, rfl, (accounted_of_reaches (reaches_of_run hr)).1⟩

end BrainEngine.Daemon.Debounce
