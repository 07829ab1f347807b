import BrainEngine.Daemon.Debounce
import Mathlib.Data.List.SplitBy

/-! # Bursts of ticks

The debounce thread in time: `indexTimes` says when it sends `Index` messages for ticks at given
milliseconds, beside a worker that answers at once. A tick is in the channel from its millisecond on.
`recv_timeout` returns with the second tick of a burst, so that no quiet period is waited for unless
each tick is alone. -/

namespace BrainEngine.Daemon.Bursts

open BrainEngine.Lib.Machine BrainEngine.Daemon.Debounce

/-- `DEBOUNCE_MS`. -/
def debounceMs : ℕ := 500

/-- `recv_timeout(debounce)` from `now` on: when it returns, and the ticks left. -/
def recvTimeout (now : ℕ) : List ℕ → ℕ × List ℕ
  | [] => (now + debounceMs, [])
  | t :: ticks =>
    if t ≤ now + debounceMs then (max now t, ticks) else (now + debounceMs, t :: ticks)

/-- `while try_recv().is_ok()`: the ticks left. -/
def tryRecv (now : ℕ) (ticks : List ℕ) : List ℕ := ticks.dropWhile (· ≤ now)

/-- The ticks left when the first is at `t` and its message has been sent. -/
def left (t : ℕ) (ticks : List ℕ) : List ℕ :=
  tryRecv (recvTimeout t ticks).1 (recvTimeout t ticks).2

theorem length_left_le (t : ℕ) (ticks : List ℕ) : (left t ticks).length ≤ ticks.length := by
  have hdrop := (List.dropWhile_suffix (· ≤ (recvTimeout t ticks).1)
    (l := (recvTimeout t ticks).2)).length_le
  have hrecv : (recvTimeout t ticks).2.length ≤ ticks.length := by
    unfold recvTimeout
    split
    · exact le_rfl
    · split_ifs
      · exact Nat.le_succ _
      · exact le_rfl
  exact hdrop.trans hrecv

/-- When the loop sends its messages. After a message no tick is in the channel, so that `recv` returns
at the next tick. -/
def indexTimes : List ℕ → List ℕ
  | [] => []
  | t :: ticks => (recvTimeout t ticks).1 :: indexTimes (left t ticks)
  termination_by ticks => ticks.length
  decreasing_by exact Nat.lt_succ_of_le (length_left_le t ticks)

/-- The runs of ticks with gaps below 500 ms. -/
def bursts (ticks : List ℕ) : List (List ℕ) := ticks.splitBy fun a b => b < a + debounceMs

/-- One message for each burst, none less than 500 ms after the last tick before it. -/
structure Coalesced (ticks : List ℕ) : Prop where
  counted : (indexTimes ticks).length = (bursts ticks).length
  quiet : ∀ s ∈ indexTimes ticks, ∀ t ∈ ticks, t ≤ s → t + debounceMs ≤ s

variable {t : ℕ} {ticks : List ℕ}

/-! ### Ticks alone -/

theorem recvTimeout_late (h : ∀ u ∈ ticks, t + debounceMs < u) :
    recvTimeout t ticks = (t + debounceMs, ticks) := by
  unfold recvTimeout
  split
  · rfl
  · next u rest =>
    have hu := h u List.mem_cons_self
    rw [if_neg (by omega)]

theorem left_late (h : ∀ u ∈ ticks, t + debounceMs < u) : left t ticks = ticks := by
  unfold left tryRecv
  rw [recvTimeout_late h]
  cases ticks with
  | nil => rfl
  | cons u rest =>
    have hu := h u List.mem_cons_self
    exact List.dropWhile_cons_of_neg (by simpa using hu)

/-- A tick that is alone is waited for. -/
theorem indexTimes_late (h : ∀ u ∈ ticks, t + debounceMs < u) :
    indexTimes (t :: ticks) = (t + debounceMs) :: indexTimes ticks := by
  rw [indexTimes, left_late h, recvTimeout_late h]

theorem indexTimes_apart (h : ticks.Pairwise fun a b => a + debounceMs < b) :
    indexTimes ticks = ticks.map (· + debounceMs) := by
  induction ticks with
  | nil => rw [indexTimes, List.map_nil]
  | cons t ticks ih =>
    obtain ⟨ht, hticks⟩ := List.pairwise_cons.mp h
    rw [indexTimes_late ht, ih hticks, List.map_cons]

theorem bursts_apart (h : ticks.Pairwise fun a b => a + debounceMs < b) :
    bursts ticks = ticks.map fun t => [t] := by
  induction ticks with
  | nil => rfl
  | cons t ticks ih =>
    obtain ⟨ht, hticks⟩ := List.pairwise_cons.mp h
    rw [List.map_cons, ← ih hticks]
    show bursts ([t] ++ ticks) = bursts [t] ++ bursts ticks
    refine List.splitBy_append fun a ha b hb => ?_
    have hat : a = t := by simpa using ha.symm
    have hbm : b ∈ ticks := List.mem_of_mem_head? hb
    have hlt := ht b hbm
    subst hat
    exact decide_eq_false (by omega)

/-- A later tick is later than the message. -/
theorem lt_of_apart (h : ticks.Pairwise fun a b => a + debounceMs < b) {u : ℕ} (ht : t ∈ ticks)
    (hu : u ∈ ticks) (hlt : t < u) : t + debounceMs < u := by
  induction h with
  | nil => simp at ht
  | cons hfirst hrest ih =>
    rcases List.mem_cons.mp ht with rfl | ht'
    · rcases List.mem_cons.mp hu with rfl | hu'
      · omega
      · exact hfirst u hu'
    · rcases List.mem_cons.mp hu with rfl | hu'
      · have hback := hfirst t ht'
        omega
      · exact ih ht' hu'

theorem coalesced_apart (h : ticks.Pairwise fun a b => a + debounceMs < b) : Coalesced ticks := by
  refine ⟨?_, fun s hs u hu hle => ?_⟩
  · rw [indexTimes_apart h, bursts_apart h, List.length_map, List.length_map]
  · rw [indexTimes_apart h] at hs
    obtain ⟨t, ht, rfl⟩ := List.mem_map.mp hs
    by_contra hn
    have hlate := lt_of_apart h ht hu (by omega)
    omega

/-! ### Ticks together -/

/-- The second tick of a burst ends the wait. -/
theorem apart_of_quiet (hs : (t :: ticks).Pairwise (· ≤ ·))
    (hq : ∀ s ∈ indexTimes (t :: ticks), ∀ u ∈ t :: ticks, u ≤ s → u + debounceMs ≤ s) :
    ∀ u ∈ ticks, t + debounceMs < u := by
  cases ticks with
  | nil => nofun
  | cons u rest =>
    obtain ⟨ht, hrest⟩ := List.pairwise_cons.mp hs
    have hu : t + debounceMs < u := by
      by_contra hn
      have hle := ht u List.mem_cons_self
      have hnow : (recvTimeout t (u :: rest)).1 = u := by
        rw [recvTimeout, if_pos (by omega)]
        exact max_eq_right hle
      have hmem : u ∈ indexTimes (t :: u :: rest) := by
        rw [indexTimes, hnow]
        exact List.mem_cons_self
      have hlate := hq u hmem u (by simp) le_rfl
      have hpos : 0 < debounceMs := by decide
      omega
    intro v hv
    rcases List.mem_cons.mp hv with rfl | hv
    · exact hu
    · have hle := (List.pairwise_cons.mp hrest).1 v hv
      omega

theorem pairwise_of_quiet (hs : ticks.Pairwise (· ≤ ·))
    (hq : ∀ s ∈ indexTimes ticks, ∀ u ∈ ticks, u ≤ s → u + debounceMs ≤ s) :
    ticks.Pairwise fun a b => a + debounceMs < b := by
  induction ticks with
  | nil => exact .nil
  | cons t ticks ih =>
    have ht := apart_of_quiet hs hq
    rw [indexTimes_late ht] at hq
    refine List.pairwise_cons.mpr ⟨ht, ih (List.pairwise_cons.mp hs).2 fun s hsm u hu hle => ?_⟩
    exact hq s (List.mem_cons_of_mem _ hsm) u (List.mem_cons_of_mem _ hu) hle

/-! ### The thread -/

/-- The thread in `recv`, with an empty channel. -/
def idle (log : List Event) : State := ⟨log, [], [], .recv, true, true⟩

theorem reaches_arrivals (n : ℕ) {s : State} (h : s.watching = true) : ∃ chan,
    Reaches step free s { s with log := s.log ++ List.replicate n .tick, chan } := by
  induction n with
  | zero =>
    refine ⟨s.chan, ?_⟩
    rw [List.replicate_zero, List.append_nil]
    exact .refl
  | succ n ih =>
    obtain ⟨chan, hr⟩ := ih
    refine ⟨chan ++ [(s.log ++ List.replicate n Event.tick).length], .next .tick hr trivial ?_⟩
    rw [List.replicate_succ', ← List.append_assoc]
    exact if_pos h

/-- The `try_recv` loop empties the channel. -/
theorem reaches_drained (chan : List ℕ) {s : State} (hs : s.stage = .drain) (hc : s.chan = chan) :
    ∃ held, Reaches step free s { s with chan := [], held, stage := .send } := by
  induction chan generalizing s with
  | nil =>
    have hstep : step s .tryRecv = some { s with chan := [], held := s.held, stage := .send } := by
      simp only [step, if_pos hs, hc]
    exact ⟨s.held, .next .tryRecv .refl trivial hstep⟩
  | cons i rest ih =>
    have hstep : step s .tryRecv = some (consume s i rest .drain) := by
      simp only [step, if_pos hs, hc]
    obtain ⟨held, hr⟩ := ih (s := consume s i rest .drain) rfl rfl
    exact ⟨held, .head trivial hstep hr⟩

/-- From the drain on, a message is sent and answered. -/
theorem reaches_idle {s : State} (hs : s.stage = .drain) (hw : s.watching = true)
    (hk : s.working = true) : Reaches step free s (idle (s.log ++ [.index])) := by
  obtain ⟨held, hr⟩ := reaches_drained s.chan hs rfl
  have hsend : step { s with chan := [], held, stage := .send } .send =
      some { s with log := s.log ++ [.index], chan := [], held := [], stage := .reply } := by
    simp only [step, if_pos hk]
    rfl
  have hreply : step { s with log := s.log ++ [.index], chan := [], held := [], stage := .reply } .reply =
      some (idle (s.log ++ [.index])) := by
    simp only [step, idle, hw, hk]
    rfl
  exact .next .reply (.next .send hr trivial hsend) trivial hreply

/-- The thread with a tick in hand. -/
def received (log : List Event) : State := ⟨log ++ [.tick], [], [log.length], .window, true, true⟩

/-- The thread when a second tick has ended the wait. -/
def interrupted (log : List Event) : State :=
  ⟨log ++ [.tick] ++ [.tick], [], [log.length, log.length + 1], .drain, true, true⟩

/-- A cycle that consumes `n + 1` ticks. -/
theorem reaches_cycle (log : List Event) (n : ℕ) :
    Reaches step free (idle log) (idle (log ++ List.replicate (n + 1) .tick ++ [.index])) := by
  have hrecv : run step [.tick, .recv] (idle log) = some (received log) := rfl
  cases n with
  | zero =>
    have hlate : run step [.recvTimeout] (received log) = some { received log with stage := .drain } := rfl
    have hwait := (reaches_of_run hrecv).trans (reaches_of_run hlate)
    exact hwait.trans (reaches_idle rfl rfl rfl)
  | succ n =>
    have hnext : run step [.tick, .recvTimeout] (received log) = some (interrupted log) := by
      have hlen : (log ++ [Event.tick]).length = log.length + 1 := List.length_append
      rw [interrupted, ← hlen]
      rfl
    obtain ⟨chan, hr⟩ := reaches_arrivals n (s := interrupted log) rfl
    have hlog : log ++ List.replicate (n + 1 + 1) Event.tick =
        log ++ [.tick] ++ [.tick] ++ List.replicate n .tick := by
      rw [List.replicate_succ, List.replicate_succ, List.append_assoc, List.append_assoc]
      rfl
    have hwait := (reaches_of_run hrecv).trans (reaches_of_run hnext)
    rw [hlog]
    exact (hwait.trans hr).trans (reaches_idle rfl rfl rfl)

/-- **The times are those of a run of the thread**, which receives all the ticks. -/
theorem reaches_indexTimes (ticks : List ℕ) (log : List Event) : ∃ sent,
    Reaches step free (idle log) (idle (log ++ sent)) ∧
      sent.count .tick = ticks.length ∧ sent.count .index = (indexTimes ticks).length := by
  induction ticks using indexTimes.induct generalizing log with
  | case1 =>
    refine ⟨[], ?_, rfl, ?_⟩
    · rw [List.append_nil]
      exact .refl
    · rw [indexTimes]
      rfl
  | case2 t ticks ih =>
    have hleft := length_left_le t ticks
    let n := ticks.length - (left t ticks).length
    obtain ⟨sent, hr, htick, hindex⟩ := ih (log ++ List.replicate (n + 1) .tick ++ [.index])
    refine ⟨List.replicate (n + 1) .tick ++ [.index] ++ sent, ?_, ?_, ?_⟩
    · rw [← List.append_assoc, ← List.append_assoc]
      exact (reaches_cycle log n).trans hr
    · have hone : ([Event.index] : List Event).count .tick = 0 := rfl
      rw [List.count_append, List.count_append, List.count_replicate_self, hone, htick, List.length_cons]
      omega
    · have hone : ([Event.index] : List Event).count .index = 1 := rfl
      have hnone : (List.replicate (n + 1) Event.tick).count .index = 0 :=
        List.count_eq_zero.mpr fun h => by simp [List.mem_replicate] at h
      rw [List.count_append, List.count_append, hnone, hone, hindex, indexTimes, List.length_cons]
      omega

/-- **When bursts are coalesced**: only where every tick is a burst of its own. -/
theorem coalesced_iff (hs : ticks.Pairwise (· ≤ ·)) :
    Coalesced ticks ↔ ticks.Pairwise fun a b => a + debounceMs < b :=
  ⟨fun h => pairwise_of_quiet hs h.quiet, coalesced_apart⟩

theorem coalesced_three : [0, 501, 1002].Pairwise (· ≤ ·) ∧
    (Coalesced [0, 501, 1002] ↔ [0, 501, 1002].Pairwise fun a b => a + debounceMs < b) :=
  ⟨by decide, coalesced_iff (by decide)⟩

/-- **A burst of three ticks sends two messages**, the first at the second tick. -/
theorem not_coalesced_burst : indexTimes [0, 100, 200] = [100, 700] ∧
    bursts [0, 100, 200] = [[0, 100, 200]] ∧ ¬Coalesced [0, 100, 200] := by
  have htimes : indexTimes [0, 100, 200] = [100, 700] := by
    simp [indexTimes, left, recvTimeout, tryRecv, debounceMs]
  have hbursts : bursts [0, 100, 200] = [[0, 100, 200]] := by decide
  refine ⟨htimes, hbursts, fun h => ?_⟩
  have hc := h.counted
  rw [htimes, hbursts] at hc
  exact absurd hc (by decide)

end BrainEngine.Daemon.Bursts
