import BrainEngine.Daemon.Protocol
import BrainEngine.Lib.Machine
import Mathlib.Logic.Function.Basic

/-! # Connections and the worker

`handle_connection` and `dispatch` for any number of connections, beside the worker that takes messages
off a queue one by one and may stop at any step. A message carries the connection and the number of the
line it was made from, in place of its reply channel; the messages of the watcher and of the shutdown
carry none. -/

namespace BrainEngine.Daemon.Replies

open BrainEngine.Rust.Str BrainEngine.Lib.Machine BrainEngine.Daemon.Protocol

/-- A connection and a number of a line. -/
abbrev Channel := ℕ × ℕ

structure Worker (V : Type) where
  /-- The worker has its receiver. -/
  working : Bool
  queue : List (Option Channel × WorkerMsg)
  /-- The message whose handler runs. -/
  inHand : Option (Option Channel × WorkerMsg)
  /-- What the worker has sent on reply channels. -/
  replies : List (Channel × WorkerMsg × Reply V)

/-- Where `handle_connection` is. -/
inductive Place (V : Type)
  /-- In `next_line`. -/
  | reading
  /-- Before `worker_tx.send`. -/
  | sending (id : ℕ) (msg : WorkerMsg)
  /-- In `rx.await`. -/
  | awaiting (id : ℕ) (msg : WorkerMsg)
  /-- Before `write_all`. -/
  | writing (resp : ResponseEnvelope V)
  | closed
  deriving DecidableEq

structure Conn (V : Type) where
  /-- The request lines sent so far. -/
  lines : List Text
  /-- The response lines sent back. -/
  out : List (ResponseEnvelope V)
  place : Place V

structure State (V : Type) where
  worker : Worker V
  conns : ℕ → Conn V

def start (V : Type) : State V := ⟨⟨true, [], none, []⟩, fun _ => ⟨[], [], .reading⟩⟩

inductive Action (V : Type)
  /-- A client sends a line. -/
  | line (c : ℕ) (l : Text)
  /-- A connection ends. -/
  | close (c : ℕ)
  /-- The task of a connection goes on. -/
  | conn (c : ℕ)
  /-- The watcher or `run` sends a message. -/
  | other (msg : WorkerMsg)
  | take
  /-- The handler is done. -/
  | reply (r : Reply V)
  /-- A panic of the worker. -/
  | stop

variable {V : Type}

/-- The queue of `sync_channel`. -/
def capacity : ℕ := 64

/-- The worker with one more message. -/
def Worker.push (w : Worker V) (m : Option Channel × WorkerMsg) : Worker V :=
  { w with queue := w.queue ++ [m] }

/-- The receiver is gone, and with it the messages and their reply channels. -/
def Worker.stopped (w : Worker V) : Worker V :=
  { w with working := false, queue := [], inHand := none }

/-- What arrived on a reply channel. -/
def Worker.replyTo (w : Worker V) (ch : Channel) : Option (Reply V) :=
  (w.replies.find? fun x => x.1 = ch).map fun x => x.2.2

/-- The task of connection `c`. -/
def connStep (serde : Serde V) (c : ℕ) (w : Worker V) (k : Conn V) : Option (Worker V × Conn V) :=
  match k.place with
  | .reading =>
    match k.lines[k.out.length]? with
    | none => none
    | some l =>
      match dispatch serde l with
      | .respond resp => some (w, { k with place := .writing resp })
      | .send id msg => some (w, { k with place := .sending id msg })
  | .sending id msg =>
    if w.working then
      -- `send` blocks while the queue is full
      if w.queue.length < capacity then
        some (w.push (some (c, k.out.length), msg), { k with place := .awaiting id msg })
      else none
    else some (w, { k with place := .writing (errResponse id "worker unavailable".toList) })
  | .awaiting id msg =>
    match w.replyTo (c, k.out.length) with
    | some r => some (w, { k with place := .writing (respond serde id msg (some r)) })
    | none =>
      if w.working then none
      else some (w, { k with place := .writing (respond serde id msg none) })
  | .writing resp => some (w, { k with out := k.out ++ [resp], place := .reading })
  | .closed => none

/-- `run_loop` takes the next message. -/
def takeStep (w : Worker V) : Option (Worker V) :=
  if w.working && w.inHand.isNone then
    match w.queue with
    | [] => none
    | (ch, msg) :: rest =>
      if msg = .shutdown then some w.stopped
      else some { w with queue := rest, inHand := some (ch, msg) }
  else none

/-- The reply to the message in hand. -/
def replyStep (w : Worker V) (r : Reply V) : Option (Worker V) :=
  match w.inHand with
  | none => none
  | some (ch, msg) =>
    if r.fits msg then
      some { w with
        inHand := none
        replies := w.replies ++ (ch.map fun ch => (ch, msg, r)).toList }
    else none

/-- A step of the worker, or a message from elsewhere. -/
def workerStep (w : Worker V) : Action V → Option (Worker V)
  | .other msg => if w.working && w.queue.length < capacity then some (w.push (none, msg)) else none
  | .take => takeStep w
  | .reply r => replyStep w r
  | .stop => some w.stopped
  | _ => none

def State.set (s : State V) (c : ℕ) (k : Conn V) : State V :=
  { s with conns := Function.update s.conns c k }

def step (serde : Serde V) (s : State V) (a : Action V) : Option (State V) :=
  match a with
  | .line c l => some (s.set c { s.conns c with lines := (s.conns c).lines ++ [l] })
  | .close c => some (s.set c { s.conns c with place := .closed })
  | .conn c => (connStep serde c s.worker (s.conns c)).map fun d => { s with worker := d.1 }.set c d.2
  | a => (workerStep s.worker a).map fun w => { s with worker := w }

/-! ### What replies must be -/

/-- A response under the id of its request; with `ok`, the worker received the request and sent the
reply the response is made of. -/
structure Answers (serde : Serde V) (w : Worker V) (ch : Channel) (l : Text)
    (resp : ResponseEnvelope V) : Prop where
  id : ∀ env, serde.fromStr l = .ok env → resp.id = env.id
  ok : resp.ok = true → ∃ id msg r, dispatch serde l = .send id msg ∧ (ch, msg, r) ∈ w.replies ∧
    r.successful = true ∧ resp = respond serde id msg (some r)

/-- The lines that were answered are the first ones, each by the response in its place. -/
def Faithful (serde : Serde V) (s : State V) : Prop :=
  ∀ c, (s.conns c).out.length ≤ (s.conns c).lines.length ∧
    ∀ i resp, (s.conns c).out[i]? = some resp →
      ∃ l, (s.conns c).lines[i]? = some l ∧ Answers serde s.worker (c, i) l resp

/-- Neither a connection nor the worker has anything left to do. -/
structure Resting (serde : Serde V) (s : State V) : Prop where
  conn : ∀ c, step serde s (.conn c) = none
  take : step serde s .take = none
  reply : ∀ r, step serde s (.reply r) = none

/-- The action ends the worker. -/
def ends (w : Worker V) : Action V → Bool
  | .stop => true
  | .take => w.working && w.inHand.isNone && w.queue.head?.any fun x => x.2 = .shutdown
  | _ => false

/-- A ping waits in the queue or is being handled. -/
def Worker.pinged (w : Worker V) (p : ℕ → Bool) : Bool :=
  (w.queue ++ w.inHand.toList).any fun x => x.2 = .ping && x.1.any fun ch => p ch.1

/-- The connection has not ended. -/
def Conn.isOpen (k : Conn V) : Bool :=
  match k.place with
  | .closed => false
  | _ => true

/-- The worker does not end while it holds the ping of an open connection. -/
def spares (s : State V) (a : Action V) : Bool :=
  !ends s.worker a || !s.worker.pinged fun c => (s.conns c).isOpen

/-! ### The invariant -/

variable {serde : Serde V} {w w' : Worker V} {k k' : Conn V} {c : ℕ} {s t : State V}

/-- A message is in the queue or in hand. -/
def Worker.Holds (w : Worker V) (ch : Channel) (msg : WorkerMsg) : Prop :=
  (some ch, msg) ∈ w.queue ++ w.inHand.toList

def Worker.Replied (w : Worker V) (ch : Channel) (msg : WorkerMsg) : Prop :=
  ∃ r, (ch, msg, r) ∈ w.replies

/-- What the worker keeps true of itself. -/
structure Worker.Sound (w : Worker V) : Prop where
  ended : w.working = false → w.queue = [] ∧ w.inHand = none
  inHand : ∀ ch, w.inHand ≠ some (ch, .shutdown)
  fits : ∀ x ∈ w.replies, x.2.2.fits x.2.1 = true

/-- A message was made from the `i`-th line. -/
def Made (serde : Serde V) (k : Conn V) (i id : ℕ) (msg : WorkerMsg) : Prop :=
  ∃ l, k.lines[i]? = some l ∧ dispatch serde l = .send id msg

def Answered (serde : Serde V) (w : Worker V) (k : Conn V) (c i : ℕ) (resp : ResponseEnvelope V) :
    Prop :=
  ∃ l, k.lines[i]? = some l ∧ Answers serde w (c, i) l resp

/-- The reply will come, or has, or never will; a ping is not left without one. -/
def Awaited (w : Worker V) (ch : Channel) (msg : WorkerMsg) : Prop :=
  w.Holds ch msg ∨ w.Replied ch msg ∨ w.working = false ∧ msg ≠ .ping

/-- What the task of a connection may rely on at its place. -/
def At (serde : Serde V) (c : ℕ) (w : Worker V) (k : Conn V) : Prop :=
  match k.place with
  | .reading => True
  | .sending id msg => Made serde k k.out.length id msg
  | .awaiting id msg => Made serde k k.out.length id msg ∧ Awaited w (c, k.out.length) msg
  | .writing resp => Answered serde w k c k.out.length resp
  | .closed => True

/-- What holds of a connection throughout. -/
structure Account (serde : Serde V) (c : ℕ) (w : Worker V) (k : Conn V) : Prop where
  known : ∀ i msg, w.Holds (c, i) msg ∨ w.Replied (c, i) msg → ∃ id, Made serde k i id msg
  answered : ∀ i resp, k.out[i]? = some resp → Answered serde w k c i resp
  place : At serde c w k

theorem made_unique {i id id' : ℕ} {msg msg' : WorkerMsg} (h : Made serde k i id msg)
    (h' : Made serde k i id' msg') : id = id' ∧ msg = msg' := by
  obtain ⟨l, hl, hd⟩ := h
  obtain ⟨l', hl', hd'⟩ := h'
  rw [hl, Option.some.injEq] at hl'
  subst hl'
  rw [hd] at hd'
  cases hd'
  exact ⟨rfl, rfl⟩

theorem Answered.mono {i : ℕ} {resp : ResponseEnvelope V} (h : Answered serde w k c i resp)
    (hr : ∀ x ∈ w.replies, x ∈ w'.replies) : Answered serde w' k c i resp := by
  obtain ⟨l, hl, ha⟩ := h
  refine ⟨l, hl, ha.id, fun hok => ?_⟩
  obtain ⟨id, msg, r, h1, h2, h3⟩ := ha.ok hok
  exact ⟨id, msg, r, h1, hr _ h2, h3⟩

/-- **A step of the worker** that forgets nothing about the connection. -/
theorem Account.worker (h : Account serde c w k)
    (hk : ∀ i msg, w'.Holds (c, i) msg ∨ w'.Replied (c, i) msg →
      w.Holds (c, i) msg ∨ w.Replied (c, i) msg)
    (hr : ∀ x ∈ w.replies, x ∈ w'.replies)
    (ha : ∀ id msg, k.place = .awaiting id msg → Awaited w (c, k.out.length) msg →
      Awaited w' (c, k.out.length) msg) : Account serde c w' k := by
  refine ⟨fun i msg hi => h.known i msg (hk i msg hi), fun i resp hi => (h.answered i resp hi).mono hr,
    ?_⟩
  have hp := h.place
  unfold At at hp ⊢
  cases hpl : k.place with
  | reading => trivial
  | sending id msg =>
    rw [hpl] at hp
    exact hp
  | awaiting id msg =>
    rw [hpl] at hp
    exact ⟨hp.1, ha id msg hpl hp.2⟩
  | writing resp =>
    rw [hpl] at hp
    exact hp.mono hr
  | closed => trivial

theorem holds_push {m : Option Channel × WorkerMsg} {ch : Channel} {msg : WorkerMsg} :
    (w.push m).Holds ch msg ↔ w.Holds ch msg ∨ m = (some ch, msg) := by
  simp only [Worker.Holds, Worker.push, List.mem_append, List.mem_singleton,
    @eq_comm _ (some ch, msg) m]
  tauto

theorem Worker.Sound.push (h : w.Sound) (hw : w.working = true) (m : Option Channel × WorkerMsg) :
    (w.push m).Sound :=
  ⟨fun he => by simp [Worker.push, hw] at he, h.inHand, h.fits⟩

theorem Account.push (h : Account serde c w k) {m : Option Channel × WorkerMsg}
    (hm : ∀ i, m.1 ≠ some (c, i)) : Account serde c (w.push m) k := by
  have hold : ∀ {i msg}, (w.push m).Holds (c, i) msg ↔ w.Holds (c, i) msg := fun {i msg} => by
    rw [holds_push, or_iff_left]
    intro he
    exact hm i (by rw [he])
  refine h.worker (fun i msg hi => ?_) (fun x hx => hx) fun id msg _ hi => ?_
  · rw [hold] at hi
    exact hi
  · unfold Awaited
    rw [hold]
    exact hi

theorem sound_stopped (h : w.Sound) : w.stopped.Sound :=
  ⟨fun _ => ⟨rfl, rfl⟩, fun _ he => by simp [Worker.stopped] at he, h.fits⟩

/-- **The worker stops**: no ping of the connection is lost. -/
theorem account_stopped (h : Account serde c w k)
    (hp : ∀ i, w.Holds (c, i) .ping → k.place = .closed) : Account serde c w.stopped k := by
  refine h.worker (fun i msg hi => ?_) (fun x hx => hx) fun id msg hpl hi => ?_
  · rcases hi with hi | hi
    · simp [Worker.Holds, Worker.stopped] at hi
    · exact Or.inr hi
  · rcases hi with hi | hi | hi
    · refine Or.inr (Or.inr ⟨rfl, fun he => ?_⟩)
      have := hp _ (he ▸ hi)
      rw [hpl] at this
      cases this
    · exact Or.inr (Or.inl hi)
    · exact Or.inr (Or.inr ⟨rfl, hi.2⟩)

/-- **A message is taken**, and is still held. -/
theorem account_take {m : Option Channel × WorkerMsg} {rest : List (Option Channel × WorkerMsg)}
    (h : Account serde c w k) (hq : w.queue = m :: rest) (hh : w.inHand = none) :
    Account serde c { w with queue := rest, inHand := some m } k := by
  have hold : ∀ {i msg}, ({ w with queue := rest, inHand := some m } : Worker V).Holds (c, i) msg ↔
      w.Holds (c, i) msg := fun {i msg} => by
    simp only [Worker.Holds, hq, hh, List.mem_append, List.mem_cons, Option.toList_some,
      Option.toList_none, List.not_mem_nil, or_false]
    exact or_comm
  refine h.worker (fun i msg hi => ?_) (fun x hx => hx) fun id msg _ hi => ?_
  · rw [hold] at hi
    exact hi
  · unfold Awaited
    rw [hold]
    exact hi

theorem sound_take {ch : Option Channel} {msg : WorkerMsg}
    {rest : List (Option Channel × WorkerMsg)} (h : w.Sound) (hw : w.working = true)
    (hm : msg ≠ .shutdown) : ({ w with queue := rest, inHand := some (ch, msg) } : Worker V).Sound := by
  refine ⟨fun he => ?_, fun ch' he => ?_, h.fits⟩
  · rw [hw] at he
    cases he
  · simp only [Option.some.injEq, Prod.mk.injEq] at he
    exact hm he.2

theorem sound_reply {ch : Option Channel} {msg : WorkerMsg} {r : Reply V} (h : w.Sound)
    (hf : r.fits msg = true) : ({ w with
      inHand := none
      replies := w.replies ++ (ch.map fun ch => (ch, msg, r)).toList } : Worker V).Sound := by
  refine ⟨fun he => ⟨(h.ended he).1, rfl⟩, fun ch he => ?_, fun x hx => ?_⟩
  · cases he
  · rcases List.mem_append.mp hx with hx | hx
    · exact h.fits x hx
    · rw [Option.mem_toList, Option.map_eq_some_iff] at hx
      obtain ⟨ch', -, rfl⟩ := hx
      exact hf

/-- **A reply is sent** for the message in hand. -/
theorem account_reply {ch : Option Channel} {msg : WorkerMsg} {r : Reply V}
    (h : Account serde c w k) (hh : w.inHand = some (ch, msg)) :
    Account serde c { w with
      inHand := none
      replies := w.replies ++ (ch.map fun ch => (ch, msg, r)).toList } k := by
  refine h.worker (fun i m hi => ?_) (fun x hx => List.mem_append_left _ hx) fun id m _ hi => ?_
  · rcases hi with hi | ⟨r', hi⟩
    · exact Or.inl (by simpa [Worker.Holds] using Or.inl (by simpa [Worker.Holds] using hi))
    · rcases List.mem_append.mp hi with hi | hi
      · exact Or.inr ⟨r', hi⟩
      · refine Or.inl ?_
        cases ch with
        | none => simp at hi
        | some ch =>
          simp only [Option.map_some, Option.toList_some, List.mem_singleton, Prod.mk.injEq] at hi
          simp [Worker.Holds, hh, hi]
  · rcases hi with hi | ⟨r', hi⟩ | hi
    · simp only [Worker.Holds, hh, List.mem_append, Option.toList_some, List.mem_singleton,
        Prod.mk.injEq] at hi
      rcases hi with hi | ⟨rfl, rfl⟩
      · exact Or.inl (List.mem_append_left _ hi)
      · exact Or.inr (Or.inl ⟨r, List.mem_append_right _ (by simp)⟩)
    · exact Or.inr (Or.inl ⟨r', List.mem_append_left _ hi⟩)
    · exact Or.inr (Or.inr hi)

theorem Account.goto (h : Account serde c w k) {place : Place V}
    (hp : At serde c w { k with place := place }) : Account serde c w { k with place := place } :=
  ⟨h.known, h.answered, hp⟩

theorem mem_of_replyTo {ch : Channel} {r : Reply V} (h : w.replyTo ch = some r) :
    ∃ msg, (ch, msg, r) ∈ w.replies := by
  obtain ⟨⟨ch', msg, r'⟩, hf, rfl⟩ := Option.map_eq_some_iff.mp h
  have he : ch' = ch := by simpa using List.find?_some hf
  exact ⟨msg, he ▸ List.mem_of_find?_eq_some hf⟩

theorem not_replied_of_replyTo {ch : Channel} {msg : WorkerMsg} (h : w.replyTo ch = none) :
    ¬w.Replied ch msg := by
  rintro ⟨r, hr⟩
  unfold Worker.replyTo at h
  rw [Option.map_eq_none_iff, List.find?_eq_none] at h
  exact h _ hr (by simp)

/-- **The answer to a reply** that arrived. -/
theorem answered_of_reply {i id : ℕ} {msg : WorkerMsg} {r : Reply V} (hm : Made serde k i id msg)
    (hr : (((c, i), msg, r) : Channel × WorkerMsg × Reply V) ∈ w.replies)
    (hf : r.fits msg = true) :
    Answered serde w k c i (respond serde id msg (some r)) := by
  obtain ⟨l, hl, hd⟩ := hm
  refine ⟨l, hl, fun env he => (id_respond id msg _).trans ((dispatch_send hd).2 env he), fun hok => ?_⟩
  refine ⟨id, msg, r, hd, hr, ?_, rfl⟩
  by_cases hp : msg = .ping
  · cases r with
    | pong => rfl
    | result v => simp [Reply.fits, hp] at hf
  · obtain ⟨r', h1, h2⟩ := successful_of_ok hp hok
    cases h1
    exact h2

/-- **The answer without a reply**, to anything but a ping. -/
theorem answered_of_none {i id : ℕ} {msg : WorkerMsg} (hm : Made serde k i id msg)
    (hp : msg ≠ .ping) : Answered serde w k c i (respond serde id msg none) := by
  obtain ⟨l, hl, hd⟩ := hm
  refine ⟨l, hl, fun env he => (id_respond id msg _).trans ((dispatch_send hd).2 env he), fun hok => ?_⟩
  obtain ⟨r, hr, -⟩ := successful_of_ok hp hok
  cases hr

theorem answered_of_error {i : ℕ} {resp : ResponseEnvelope V} {l : Text} (hl : k.lines[i]? = some l)
    (hok : resp.ok = false) (hid : ∀ env, serde.fromStr l = .ok env → resp.id = env.id) :
    Answered serde w k c i resp :=
  ⟨l, hl, hid, fun h => by simp [hok] at h⟩

theorem Account.sent (h : Account serde c w k) {id : ℕ} {msg : WorkerMsg}
    (hm : Made serde k k.out.length id msg) :
    Account serde c (w.push (some (c, k.out.length), msg)) { k with place := .awaiting id msg } := by
  refine ⟨fun i m hi => ?_, fun i r hi => (h.answered i r hi).mono fun x hx => hx, hm, ?_⟩
  · rw [holds_push, or_right_comm] at hi
    rcases hi with hi | hi
    · exact h.known i m hi
    · cases hi
      exact ⟨id, hm⟩
  · exact Or.inl (holds_push.mpr (Or.inr rfl))

theorem Account.received (h : Account serde c w k) (hw : w.Sound) {id : ℕ} {msg : WorkerMsg}
    (hm : Made serde k k.out.length id msg) {r : Reply V} (hr : w.replyTo (c, k.out.length) = some r) :
    Account serde c w { k with place := .writing (respond serde id msg (some r)) } := by
  obtain ⟨msg', hmem⟩ := mem_of_replyTo hr
  obtain ⟨id', hm'⟩ := h.known _ msg' (Or.inr ⟨r, hmem⟩)
  obtain ⟨-, rfl⟩ := made_unique hm hm'
  exact h.goto (answered_of_reply hm hmem (hw.fits _ hmem))

theorem Account.written (h : Account serde c w k) {resp : ResponseEnvelope V}
    (hr : Answered serde w k c k.out.length resp) :
    Account serde c w { k with out := k.out ++ [resp], place := .reading } := by
  refine ⟨h.known, fun i r hi => ?_, trivial⟩
  rw [List.getElem?_append] at hi
  split_ifs at hi with hlt
  · exact h.answered i r hi
  · obtain ⟨hlen, he⟩ := List.getElem?_eq_some_iff.mp hi
    have hi0 : i = k.out.length := by
      rw [List.length_singleton] at hlen
      omega
    subst hi0
    simp only [Nat.sub_self, List.getElem_cons_zero] at he
    exact he ▸ hr

/-- **A step of a connection**: the worker may get one more message, made from the line in turn. -/
theorem account_conn (h : Account serde c w k) (hw : w.Sound)
    (hs : connStep serde c w k = some (w', k')) :
    (w' = w ∨ w.working = true ∧ ∃ msg, w' = w.push (some (c, k.out.length), msg)) ∧
      Account serde c w' k' := by
  have hat := h.place
  unfold At at hat
  unfold connStep at hs
  cases hp : k.place with
  | reading =>
    rw [hp] at hs
    dsimp only at hs
    split at hs
    · cases hs
    · next l hl =>
      split at hs
      · next resp hd =>
        cases hs
        obtain ⟨h1, h2⟩ := dispatch_respond hd
        exact ⟨Or.inl rfl, h.goto (answered_of_error hl h1 h2)⟩
      · next id msg hd =>
        cases hs
        exact ⟨Or.inl rfl, h.goto ⟨l, hl, hd⟩⟩
  | sending id msg =>
    rw [hp] at hs hat
    dsimp only at hs hat
    split_ifs at hs with hwork hcap
    · cases hs
      exact ⟨Or.inr ⟨hwork, msg, rfl⟩, h.sent hat⟩
    · cases hs
      obtain ⟨l, hl, hd⟩ := hat
      exact ⟨Or.inl rfl, h.goto (answered_of_error hl rfl (dispatch_send hd).2)⟩
  | awaiting id msg =>
    rw [hp] at hs hat
    dsimp only at hs hat
    obtain ⟨hm, ha⟩ := hat
    split at hs
    · next r hr =>
      cases hs
      exact ⟨Or.inl rfl, h.received hw hm hr⟩
    · next hr =>
      split_ifs at hs with hwork
      cases hs
      rw [Bool.not_eq_true] at hwork
      refine ⟨Or.inl rfl, h.goto (answered_of_none hm ?_)⟩
      rcases ha with ha | ha | ha
      · simp [Worker.Holds, hw.ended hwork] at ha
      · exact absurd ha (not_replied_of_replyTo hr)
      · exact ha.2
  | writing resp =>
    rw [hp] at hs hat
    cases hs
    exact ⟨Or.inl rfl, h.written hat⟩
  | closed =>
    rw [hp] at hs
    cases hs

/-- What is true of the lines so far stays true with one more. -/
theorem account_line (h : Account serde c w k) (l : Text) :
    Account serde c w { k with lines := k.lines ++ [l] } := by
  have hl : ∀ {i m}, k.lines[i]? = some m → (k.lines ++ [l])[i]? = some m := fun {i m} hi => by
    rw [List.getElem?_append_left (List.getElem?_eq_some_iff.mp hi).1, hi]
  have hm : ∀ {i id msg}, Made serde k i id msg →
      Made serde { k with lines := k.lines ++ [l] } i id msg :=
    fun ⟨m, h1, h2⟩ => ⟨m, hl h1, h2⟩
  have ha : ∀ {i resp}, Answered serde w k c i resp →
      Answered serde w { k with lines := k.lines ++ [l] } c i resp :=
    fun ⟨m, h1, h2⟩ => ⟨m, hl h1, h2⟩
  refine ⟨fun i msg hi => (h.known i msg hi).imp fun _ => hm, fun i resp hi => ha (h.answered i resp hi),
    ?_⟩
  have hp := h.place
  unfold At at hp ⊢
  cases hpl : k.place with
  | reading => trivial
  | sending id msg =>
    rw [hpl] at hp
    exact hm hp
  | awaiting id msg =>
    rw [hpl] at hp
    exact ⟨hm hp.1, hp.2⟩
  | writing resp =>
    rw [hpl] at hp
    exact ha hp
  | closed => trivial

/-- What holds of the worker and of every connection. -/
structure Inv (serde : Serde V) (s : State V) : Prop where
  sound : s.worker.Sound
  account : ∀ c, Account serde c s.worker (s.conns c)

theorem inv_start : Inv serde (start V) := by
  refine ⟨⟨fun h => by simp [start] at h, fun ch h => by simp [start] at h, fun x hx => ?_⟩, fun c =>
    ⟨fun i msg h => ?_, fun i resp h => by simp [start] at h, trivial⟩⟩
  · simp [start] at hx
  · simp [start, Worker.Holds, Worker.Replied] at h

theorem inv_set (hw : w.Sound) (hk : Account serde c w k)
    (ho : ∀ q, q ≠ c → Account serde q w (s.conns q)) :
    Inv serde ({ s with worker := w }.set c k) := by
  refine ⟨hw, fun q => ?_⟩
  by_cases hq : q = c
  · subst hq
    simpa [State.set] using hk
  · simpa [State.set, Function.update_of_ne hq] using ho q hq

/-- The pings that an open connection waits for are no longer held when the worker may end. -/
theorem closed_of_spares {a : Action V} (hsp : spares s a = true) (he : ends s.worker a = true)
    {c i : ℕ} (hh : s.worker.Holds (c, i) .ping) : (s.conns c).place = .closed := by
  simp only [spares, he, Bool.not_true, Bool.false_or, Bool.not_eq_true', Worker.pinged,
    List.any_eq_false] at hsp
  have := hsp _ hh
  simp only [decide_true, Option.any_some, Bool.true_and, Conn.isOpen] at this
  split at this
  · next hp => exact hp
  · simp at this

/-- **The worker's steps.** -/
theorem inv_worker {a : Action V} (h : Inv serde s) (hsp : spares s a = true)
    (hs : workerStep s.worker a = some w) : Inv serde { s with worker := w } := by
  unfold workerStep at hs
  split at hs
  · obtain ⟨hw, hs⟩ := Option.ite_none_right_eq_some.mp hs
    cases hs
    rw [Bool.and_eq_true] at hw
    exact ⟨h.sound.push hw.1 _, fun c => (h.account c).push fun i hi => by cases hi⟩
  · unfold takeStep at hs
    obtain ⟨hw, hs⟩ := Option.ite_none_right_eq_some.mp hs
    split at hs
    · cases hs
    · next ch msg rest hq =>
      rw [Bool.and_eq_true, Option.isNone_iff_eq_none] at hw
      obtain ⟨hwork, hin⟩ := hw
      split_ifs at hs with hm
      · cases hs
        have he : ends s.worker .take = true := by simp [ends, hwork, hin, hq, hm]
        exact ⟨sound_stopped h.sound, fun c =>
          account_stopped (h.account c) fun i hh => closed_of_spares hsp he hh⟩
      · cases hs
        exact ⟨sound_take h.sound hwork hm, fun c => account_take (h.account c) hq hin⟩
  · next r =>
    unfold replyStep at hs
    split at hs
    · cases hs
    · next ch msg hin =>
      obtain ⟨hf, hs⟩ := Option.ite_none_right_eq_some.mp hs
      cases hs
      exact ⟨sound_reply h.sound hf, fun c => account_reply (h.account c) hin⟩
  · cases hs
    exact ⟨sound_stopped h.sound, fun c =>
      account_stopped (h.account c) fun i hh => closed_of_spares hsp rfl hh⟩
  · cases hs

/-- **One step**, of a client, a connection or the worker. -/
theorem inv_step {a : Action V} (h : Inv serde s) (hsp : spares s a = true)
    (hs : step serde s a = some t) : Inv serde t := by
  unfold step at hs
  split at hs
  · next c l =>
    cases hs
    exact inv_set h.sound (account_line (h.account c) l) fun q _ => h.account q
  · next c =>
    cases hs
    exact inv_set h.sound ((h.account c).goto trivial) fun q _ => h.account q
  · next c =>
    obtain ⟨⟨w, k⟩, hd, rfl⟩ := Option.map_eq_some_iff.mp hs
    obtain ⟨hw, hk⟩ := account_conn (h.account c) h.sound hd
    rcases hw with rfl | ⟨hwork, msg, rfl⟩
    · exact inv_set h.sound hk fun q _ => h.account q
    · refine inv_set (h.sound.push hwork _) hk fun q hq => (h.account q).push fun i hi => ?_
      cases hi
      exact hq rfl
  · obtain ⟨w, hw, rfl⟩ := Option.map_eq_some_iff.mp hs
    exact inv_worker h hsp hw

/-! ### Every run -/

theorem faithful_of_inv (h : Inv serde s) : Faithful serde s := by
  refine fun c => ⟨?_, (h.account c).answered⟩
  by_contra hlt
  rw [Nat.not_le] at hlt
  obtain ⟨l, hl, -⟩ := (h.account c).answered _ _ (List.getElem?_eq_getElem hlt)
  exact absurd (List.getElem?_eq_some_iff.mp hl).1 (lt_irrefl _)

theorem idle_of_resting (h : Inv serde s) (hr : Resting serde s) :
    s.worker.queue = [] ∧ s.worker.inHand = none := by
  cases hw : s.worker.working with
  | false => exact h.sound.ended hw
  | true =>
    cases hin : s.worker.inHand with
    | some m =>
      -- every message in hand can be replied to
      obtain ⟨ch, msg⟩ := m
      have hne : msg ≠ .shutdown := fun he => h.sound.inHand ch (he ▸ hin)
      by_cases hp : msg = .ping
      · have := hr.reply .pong
        simp [step, workerStep, replyStep, hin, Reply.fits, hp] at this
      · have := hr.reply (.result (.error []))
        simp [step, workerStep, replyStep, hin, Reply.fits, hp, hne] at this
    | none =>
      cases hq : s.worker.queue with
      | nil => exact ⟨rfl, rfl⟩
      | cons m rest =>
        have := hr.take
        simp only [step, workerStep, takeStep, hw, hin, hq, Option.isNone_none, Bool.and_self,
          if_true, Option.map_eq_none_iff] at this
        split_ifs at this

/-- **At rest, every line is answered.** -/
theorem answered_of_resting (h : Inv serde s) (hr : Resting serde s)
    (ho : (s.conns c).isOpen = true) : (s.conns c).out.length = (s.conns c).lines.length := by
  obtain ⟨hq, hin⟩ := idle_of_resting h hr
  have hat := (h.account c).place
  have hstep := hr.conn c
  simp only [step, Option.map_eq_none_iff] at hstep
  unfold connStep at hstep
  unfold At at hat
  cases hp : (s.conns c).place with
  | reading =>
    rw [hp] at hstep
    dsimp only at hstep
    split at hstep
    · next hl =>
      exact le_antisymm ((faithful_of_inv h) c).1 (List.getElem?_eq_none_iff.mp hl)
    · split at hstep <;> cases hstep
  | sending id msg =>
    rw [hp] at hstep
    simp only [hq, List.length_nil, capacity] at hstep
    split_ifs at hstep
    simp at *
  | awaiting id msg =>
    rw [hp] at hstep hat
    dsimp only at hstep
    split at hstep
    · cases hstep
    · next hrep =>
      split_ifs at hstep with hw
      rcases hat.2 with ha | ha | ha
      · simp [Worker.Holds, hq, hin] at ha
      · exact absurd ha (not_replied_of_replyTo hrep)
      · rw [hw] at ha
        cases ha.1
  | writing resp =>
    rw [hp] at hstep
    cases hstep
  | closed => simp [Conn.isOpen, hp] at ho

/-- **Replies are faithful** while no ping is lost. In every interleaving in which the worker does not
end while it holds the ping of an open connection, each response is to the line in its place, under its
id, and reports success only for a reply of the worker that did; at rest, every line of an open
connection is answered. -/
theorem faithful_of_reaches (h : Reaches (step serde) (fun s a => spares s a = true) (start V) s) :
    Faithful serde s ∧ (Resting serde s → ∀ c, (s.conns c).isOpen = true →
      (s.conns c).out.length = (s.conns c).lines.length) := by
  have hinv : Inv serde s := h.invariant inv_start fun h hok hs => inv_step h hok hs
  exact ⟨faithful_of_inv hinv, fun hr c ho => answered_of_resting hinv hr ho⟩

/-! ### A ping and a status request -/

def pingLine : Text := "\x7b\"id\":7,\"method\":\"ping\"\x7d".toList

def statusLine : Text := "\x7b\"id\":8,\"method\":\"status\"\x7d".toList

/-- `serde_json` on the two lines, its values as texts. -/
def sampleSerde : Serde Text where
  fromStr line :=
    if line = pingLine then .ok ⟨7, "ping".toList, "null".toList⟩
    else if line = statusLine then .ok ⟨8, "status".toList, "null".toList⟩
    else .error "expected value at line 1 column 1".toList
  queryParams _ := .error "invalid type: null, expected struct QueryParams".toList
  indexParams _ := .error "invalid type: null, expected struct IndexParams".toList
  storeParams _ := .error "invalid type: null, expected struct StoreParams".toList
  symbolsParams _ := .error "invalid type: null, expected struct SymbolsParams".toList
  pong := "\x7b\"pong\":true\x7d".toList

/-- The ping is answered before the worker panics, the status request is not. -/
def statusLost : List (Action Text) :=
  [.line 0 pingLine, .line 1 statusLine, .conn 0, .conn 0, .conn 1, .conn 1, .take, .reply .pong,
    .conn 0, .conn 0, .take, .stop, .conn 1, .conn 1]

theorem faithful_statusLost : ∃ s, Reaches (step sampleSerde) (fun s a => spares s a = true)
    (start Text) s ∧ ((s.conns 0).out, (s.conns 1).out) =
      ([okResponse 7 sampleSerde.pong], [errResponse 8 "worker dropped reply".toList]) ∧
    Faithful sampleSerde s := by
  have hr : (run (stepIf (step sampleSerde) spares) statusLost (start Text)).map
      (fun s => ((s.conns 0).out, (s.conns 1).out)) =
      some ([okResponse 7 sampleSerde.pong], [errResponse 8 "worker dropped reply".toList]) := by
    decide
  obtain ⟨s, hs, ho⟩ := Option.map_eq_some_iff.mp hr
  exact ⟨s, reaches_of_runIf hs, ho, (faithful_of_reaches (reaches_of_runIf hs)).1⟩

/-- The worker panics while it holds a ping. -/
def pingLost : List (Action Text) :=
  [.line 0 pingLine, .conn 0, .conn 0, .take, .stop, .conn 0, .conn 0]

/-- **A dead worker answers** a ping with success. -/
theorem not_faithful :
    ¬∀ s, Reaches (step sampleSerde) free (start Text) s → Faithful sampleSerde s := by
  intro h
  have hr : (run (step sampleSerde) pingLost (start Text)).map
      (fun s => ((s.conns 0).out.map fun r => r.ok, s.worker.replies.length)) =
      some ([true], 0) := by decide
  obtain ⟨s, hs, ho⟩ := Option.map_eq_some_iff.mp hr
  simp only [Prod.mk.injEq, List.map_eq_singleton_iff, List.length_eq_zero_iff] at ho
  obtain ⟨⟨resp, hout, hok⟩, hnone⟩ := ho
  obtain ⟨l, -, ha⟩ := (h s (reaches_of_run hs) 0).2 0 resp (by rw [hout]; rfl)
  obtain ⟨id, msg, r, -, hmem, -⟩ := ha.ok hok
  rw [hnone] at hmem
  cases hmem

end BrainEngine.Daemon.Replies
