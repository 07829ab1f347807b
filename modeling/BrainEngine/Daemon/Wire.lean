import BrainEngine.Client.Framing
import BrainEngine.Daemon.Replies
import BrainEngine.Rust.BufRead
import BrainEngine.Rust.Trim

/-! # Requests and responses as bytes

Below `Replies` the connections are streams of bytes that arrive in pieces: `handle_connection` reads
them line by line, the command line reads the response in `socket_request`. A client that sends its
requests as lines gets the answer to each as a line in the same place, wherever the two streams are cut
(`rpc_of_reaches`). -/

namespace BrainEngine.Daemon.Wire

open BrainEngine.Rust.Str BrainEngine.Rust.BufRead BrainEngine.Rust.Trim BrainEngine.Lib.Machine
open BrainEngine.Daemon.Protocol BrainEngine.Daemon.Replies
open BrainEngine.Lib.Buffered (readUntil readUntil_eq)
open BrainEngine.Lib.Utf8 (encode encode_append Aligned decodeAll decodeAll_of_aligned)
open BrainEngine.Client

structure State (V : Type) where
  core : Replies.State V
  /-- The pieces that have arrived and have not been read. -/
  input : ℕ → List (List UInt8)
  /-- All bytes that have arrived. -/
  sent : ℕ → List UInt8
  /-- The client will send no more. -/
  ended : ℕ → Bool

def start (V : Type) : State V := ⟨Replies.start V, fun _ => [], fun _ => [], fun _ => false⟩

inductive Action (V : Type)
  /-- Bytes arrive. -/
  | bytes (c : ℕ) (piece : List UInt8)
  | finish (c : ℕ)
  /-- A step of a connection's task or of the worker. -/
  | core (a : Replies.Action V)

variable {V : Type}

/-- `next_line`, which waits for a newline or the end of the stream, and `dispatch` up to the send. An
error or the end of the stream ends the connection. -/
def readStep (serde : Serde V) (c : ℕ) (s : State V) : Option (State V) :=
  if 0x0A ∈ (s.input c).flatten ∨ s.ended c = true then
    match nextLine (s.input c) with
    | some (some (l, rest)) =>
      (Replies.step serde s.core (.line c l)).bind fun t =>
        (Replies.step serde t (.conn c)).map fun u =>
          { s with core := u, input := Function.update s.input c rest }
    | _ => (Replies.step serde s.core (.close c)).map fun t => { s with core := t }
  else none

def step (serde : Serde V) (s : State V) : Action V → Option (State V)
  | .bytes c piece =>
    if s.ended c then none
    else some { s with
      input := Function.update s.input c (s.input c ++ [piece])
      sent := Function.update s.sent c (s.sent c ++ piece) }
  | .finish c => some { s with ended := Function.update s.ended c true }
  | .core (.line _ _) => none
  | .core (.conn c) =>
    match (s.core.conns c).place with
    | .reading => readStep serde c s
    | _ => (Replies.step serde s.core (.conn c)).map fun t => { s with core := t }
  | .core a => (Replies.step serde s.core a).map fun t => { s with core := t }

/-- The worker does not end while it holds a ping. -/
def spares (s : State V) : Action V → Bool
  | .core a => Replies.spares s.core a
  | _ => true

/-- What the connection writes: a line for each response. -/
def written (print : ResponseEnvelope V → Text) (out : List (ResponseEnvelope V)) : List UInt8 :=
  out.flatMap fun resp => encode (print resp ++ ['\n'])

/-- `socket_request`, from the response of the daemon on. -/
def socketRequest (fromStr : Text → Except Text V) (pieces : List (List UInt8)) : Except Text V :=
  match readLine pieces with
  | none => .error "stream did not contain valid UTF-8".toList
  | some (line, _) => (fromStr (trim line)).mapError ("parse response: ".toList ++ ·)

/-! ### Streams of requests -/

/-- The bytes of some requests, each as a line. -/
def stream (reqs : List Text) : List UInt8 := reqs.flatMap fun req => encode (req ++ ['\n'])

/-- A request that is one line; JSON ends in a bracket. -/
structure OneLine (req : Text) : Prop where
  newline : '\n' ∉ req
  cr : req.getLast? ≠ some '\r'

/-- The client sends these requests, and hangs up only after them. -/
structure Sends (s : State V) (c : ℕ) (reqs : List Text) : Prop where
  sent : s.sent c <+: stream reqs
  ended : s.ended c = true → s.sent c = stream reqs

/-- What has been read are the first requests. -/
structure Reads (s : State V) (c : ℕ) (reqs : List Text) : Prop where
  lines : (s.core.conns c).lines <+: reqs
  sent : s.sent c = stream (s.core.conns c).lines ++ (s.input c).flatten

/-- Whose turn it is: a line that has been read has its response, or is being answered. -/
def Turn (k : Conn V) : Prop :=
  match k.place with
  | .reading => k.lines.length = k.out.length
  | .closed => True
  | _ => k.lines.length = k.out.length + 1

theorem stream_append (reqs reqs' : List Text) :
    stream (reqs ++ reqs') = stream reqs ++ stream reqs' :=
  List.flatMap_append

theorem stream_singleton (req : Text) : stream [req] = encode (req ++ ['\n']) :=
  List.flatMap_singleton ..

theorem stream_cons (req : Text) (reqs : List Text) :
    stream (req :: reqs) = encode (req ++ ['\n']) ++ stream reqs :=
  List.flatMap_cons

theorem encode_newline (t : Text) : encode (t ++ ['\n']) = encode t ++ [0x0A] := encode_append t ['\n']

/-- Bytes of a stream of requests that contain a newline begin with a request. -/
theorem exists_request {reqs : List Text} (hreqs : ∀ req ∈ reqs, OneLine req) {bytes : List UInt8}
    (h : bytes <+: stream reqs) (hnl : 0x0A ∈ bytes) :
    ∃ req rest reqs', reqs = req :: reqs' ∧ bytes = encode (req ++ ['\n']) ++ rest := by
  cases reqs with
  | nil =>
    obtain rfl : bytes = [] := List.prefix_nil.mp h
    cases hnl
  | cons req reqs =>
    rw [stream_cons] at h
    rcases List.prefix_or_prefix_of_prefix h (List.prefix_append _ _) with hpre | ⟨rest, hrest⟩
    · rw [encode_newline, List.prefix_concat_iff] at hpre
      rcases hpre with rfl | hpre
      · exact ⟨req, [], reqs, rfl, by rw [encode_newline, List.append_nil]⟩
      · exact absurd (hpre.subset hnl) (newline_notMem_encode (hreqs req List.mem_cons_self).newline)
    · exact ⟨req, rest, reqs, rfl, hrest.symm⟩

theorem eq_nil_of_stream {reqs : List Text} (h : 0x0A ∉ stream reqs) : reqs = [] := by
  cases reqs with
  | nil => rfl
  | cons req reqs =>
    refine absurd ?_ h
    rw [stream_cons, encode_newline]
    simp

/-! ### What a connection has read -/

variable {serde : Serde V} {s t : State V} {c : ℕ} {reqs : List Text}

theorem Sends.congr (h : Sends t c reqs) (hs : t.sent c = s.sent c)
    (he : s.ended c = true → t.ended c = true) : Sends s c reqs :=
  ⟨hs ▸ h.sent, fun h' => hs ▸ h.ended (he h')⟩

theorem Reads.congr (h : Reads s c reqs) (hl : (t.core.conns c).lines = (s.core.conns c).lines)
    (hs : t.sent c = s.sent c) (hi : t.input c = s.input c) : Reads t c reqs :=
  ⟨hl ▸ h.lines, by rw [hs, hl, hi, h.sent]⟩

/-- What has arrived and was not read belongs to the requests that are left. -/
theorem Reads.exists_left (h : Reads s c reqs) (hs : Sends s c reqs) :
    ∃ left, reqs = (s.core.conns c).lines ++ left ∧ (s.input c).flatten <+: stream left ∧
      (s.sent c = stream reqs → (s.input c).flatten = stream left) := by
  obtain ⟨left, hleft⟩ := h.lines
  have hsent := hs.sent
  rw [← hleft, stream_append, h.sent, List.prefix_append_right_inj] at hsent
  refine ⟨left, hleft.symm, hsent, fun hall => ?_⟩
  rw [← hleft, stream_append, h.sent] at hall
  exact List.append_cancel_left hall

/-- **The next line** is the next request; without one, everything has been read. -/
theorem Reads.next (h : Reads s c reqs) (hs : Sends s c reqs) (hreqs : ∀ req ∈ reqs, OneLine req)
    (hready : 0x0A ∈ (s.input c).flatten ∨ s.ended c = true) :
    (∃ req rest, nextLine (s.input c) = some (some (req, rest)) ∧
      (s.core.conns c).lines ++ [req] <+: reqs ∧
      (s.input c).flatten = encode (req ++ ['\n']) ++ rest.flatten) ∨
    nextLine (s.input c) = some none := by
  obtain ⟨left, hleft, hpre, hall⟩ := h.exists_left hs
  by_cases hnl : 0x0A ∈ (s.input c).flatten
  · have hone : ∀ req ∈ left, OneLine req := fun req hr =>
      hreqs req (hleft ▸ List.mem_append_right _ hr)
    obtain ⟨req, bytes, left', rfl, hbytes⟩ := exists_request hone hpre hnl
    have hreq := hone req List.mem_cons_self
    obtain ⟨rest, hnext, hrest⟩ := nextLine_eq hreq.newline hreq.cr hbytes
    refine Or.inl ⟨req, rest, hnext, ⟨left', ?_⟩, by rw [hrest, hbytes]⟩
    rw [hleft, List.append_assoc, List.singleton_append]
  · have hin : (s.input c).flatten = stream left := hall (hs.ended (hready.resolve_left hnl))
    rw [hin] at hnl
    obtain rfl := eq_nil_of_stream hnl
    have hread : (readUntil 0x0A (s.input c)).1 = [] := by
      rw [readUntil_eq, hin]
      rfl
    refine Or.inr ?_
    unfold nextLine readLine
    rw [hread]
    rfl

/-! ### Steps -/

theorem turn_connStep {w w' : Worker V} {k k' : Conn V} (h : connStep serde c w k = some (w', k'))
    (hk : k.lines.length = k.out.length + 1) : k'.lines = k.lines ∧ Turn k' := by
  unfold connStep at h
  unfold Turn
  cases hp : k.place with
  | reading =>
    rw [hp] at h
    dsimp only at h
    split at h
    · cases h
    · split at h
      · cases h
        exact ⟨rfl, hk⟩
      · cases h
        exact ⟨rfl, hk⟩
  | sending id msg =>
    rw [hp] at h
    dsimp only at h
    split_ifs at h with hwork hcap
    · cases h
      exact ⟨rfl, hk⟩
    · cases h
      exact ⟨rfl, hk⟩
  | awaiting id msg =>
    rw [hp] at h
    dsimp only at h
    split at h
    · cases h
      exact ⟨rfl, hk⟩
    · split_ifs at h
      cases h
      exact ⟨rfl, hk⟩
  | writing resp =>
    rw [hp] at h
    cases h
    refine ⟨rfl, ?_⟩
    show k.lines.length = (k.out ++ [resp]).length
    rw [List.length_append, List.length_singleton, hk]
  | closed =>
    rw [hp] at h
    cases h

theorem connStep_reading {w : Worker V} {k : Conn V} (hp : k.place = .reading) (hk : Turn k) :
    connStep serde c w k = none := by
  unfold Turn at hk
  rw [hp] at hk
  unfold connStep
  rw [hp, List.getElem?_eq_none hk.le]

/-- Where a connection takes a step, a line is being answered. -/
theorem Turn.length {w : Worker V} {k : Conn V} {d : Worker V × Conn V} (hk : Turn k)
    (h : connStep serde c w k = some d) : k.lines.length = k.out.length + 1 := by
  by_cases hp : k.place = .reading
  · rw [connStep_reading hp hk] at h
    cases h
  · have hc : k.place ≠ .closed := fun hc => by simp [connStep, hc] at h
    unfold Turn at hk
    split at hk
    · next h' => exact absurd h' hp
    · next h' => exact absurd h' hc
    · exact hk

/-- **A step of a connection or of the worker** that reads no line. -/
theorem core_kept {r u : Replies.State V} {b : Replies.Action V} (hb : ∀ c l, b ≠ .line c l)
    (h : Replies.step serde r b = some u) (hT : ∀ c, Turn (r.conns c)) :
    ∀ c, (u.conns c).lines = (r.conns c).lines ∧ Turn (u.conns c) := by
  have hset : ∀ (w : Worker V) (k : Conn V) (q : ℕ), k.lines = (r.conns q).lines → Turn k → ∀ c,
      (({ r with worker := w }.set q k).conns c).lines = (r.conns c).lines ∧
        Turn (({ r with worker := w }.set q k).conns c) := by
    intro w k q hl hk c
    by_cases hc : c = q
    · subst hc
      simpa [Replies.State.set] using ⟨hl, hk⟩
    · simpa [Replies.State.set, Function.update_of_ne hc] using hT c
  unfold Replies.step at h
  split at h
  · next q l => exact absurd rfl (hb q l)
  · next q =>
    cases h
    exact hset r.worker _ q rfl trivial
  · next q =>
    obtain ⟨⟨w, k⟩, hd, rfl⟩ := Option.map_eq_some_iff.mp h
    obtain ⟨hl, hk⟩ := turn_connStep hd ((hT q).length hd)
    exact hset w k q hl hk
  · obtain ⟨w, -, rfl⟩ := Option.map_eq_some_iff.mp h
    exact fun c => ⟨rfl, hT c⟩

/-- A line is read and dispatched. -/
structure ReadsLine (serde : Serde V) (c : ℕ) (s t : State V) : Prop where
  place : (s.core.conns c).place = .reading
  ready : 0x0A ∈ (s.input c).flatten ∨ s.ended c = true
  next : ∃ l rest r u, nextLine (s.input c) = some (some (l, rest)) ∧
    Replies.step serde s.core (.line c l) = some r ∧ Replies.step serde r (.conn c) = some u ∧
    t = { s with core := u, input := Function.update s.input c rest }

/-- **What a step does.** -/
theorem step_cases {a : Action V} (h : step serde s a = some t) :
    (∃ c piece, s.ended c = false ∧ t = { s with
      input := Function.update s.input c (s.input c ++ [piece])
      sent := Function.update s.sent c (s.sent c ++ piece) }) ∨
    (∃ c, t = { s with ended := Function.update s.ended c true }) ∨
    (∃ c, ReadsLine serde c s t) ∨
    ∃ b u, (∀ c l, b ≠ .line c l) ∧ Replies.step serde s.core b = some u ∧
      (spares s a = true → Replies.spares s.core b = true) ∧ t = { s with core := u } := by
  have hclose : ∀ c, Replies.spares s.core (.close c) = true := fun c => by simp [Replies.spares, ends]
  unfold step at h
  split at h
  · next c piece =>
    split_ifs at h with he
    exact Or.inl ⟨c, piece, by simpa using he, (Option.some.inj h).symm⟩
  · next c => exact Or.inr (Or.inl ⟨c, (Option.some.inj h).symm⟩)
  · cases h
  · next c =>
    split at h
    · next hp =>
      unfold readStep at h
      split_ifs at h with hready
      split at h
      · next l rest hnext =>
        obtain ⟨r, hr, h⟩ := Option.bind_eq_some_iff.mp h
        obtain ⟨u, hu, rfl⟩ := Option.map_eq_some_iff.mp h
        exact Or.inr (Or.inr (Or.inl ⟨c, hp, hready, l, rest, r, u, hnext, hr, hu, rfl⟩))
      · obtain ⟨u, hu, rfl⟩ := Option.map_eq_some_iff.mp h
        exact Or.inr (Or.inr (Or.inr ⟨.close c, u, fun _ _ => by simp, hu, fun _ => hclose c, rfl⟩))
    · obtain ⟨u, hu, rfl⟩ := Option.map_eq_some_iff.mp h
      exact Or.inr (Or.inr (Or.inr ⟨.conn c, u, fun _ _ => by simp, hu, fun hs => hs, rfl⟩))
  · next b hline hconn =>
    obtain ⟨u, hu, rfl⟩ := Option.map_eq_some_iff.mp h
    exact Or.inr (Or.inr (Or.inr ⟨b, u, hline, hu, fun hs => hs, rfl⟩))

/-! ### The invariant -/

structure Inv (serde : Serde V) (s : State V) : Prop where
  core : Replies.Inv serde s.core
  turn : ∀ c, Turn (s.core.conns c)
  reads : ∀ c reqs, (∀ req ∈ reqs, OneLine req) → Sends s c reqs → Reads s c reqs

theorem inv_start : Inv serde (start V) := by
  refine ⟨Replies.inv_start, fun c => ?_, fun c reqs _ _ => ⟨List.nil_prefix, rfl⟩⟩
  show ([] : List Text).length = ([] : List (ResponseEnvelope V)).length
  rfl

theorem ReadsLine.conns (h : ReadsLine serde c s t) (hT : ∀ c, Turn (s.core.conns c)) :
    ∃ l rest, nextLine (s.input c) = some (some (l, rest)) ∧
      t.input = Function.update s.input c rest ∧ t.sent = s.sent ∧ t.ended = s.ended ∧
      (t.core.conns c).lines = (s.core.conns c).lines ++ [l] ∧ (∀ q, Turn (t.core.conns q)) ∧
      ∀ q, q ≠ c → t.core.conns q = s.core.conns q := by
  obtain ⟨l, rest, r, u, hnext, hr, hu, rfl⟩ := h.next
  have hk := hT c
  unfold Turn at hk
  rw [h.place] at hk
  obtain rfl := Option.some.inj hr
  obtain ⟨⟨w, k⟩, hd, rfl⟩ := Option.map_eq_some_iff.mp hu
  have hc : (s.core.set c { s.core.conns c with lines := (s.core.conns c).lines ++ [l] }).conns c =
      { s.core.conns c with lines := (s.core.conns c).lines ++ [l] } := by
    simp [Replies.State.set]
  rw [hc] at hd
  have hlen : ((s.core.conns c).lines ++ [l]).length = (s.core.conns c).out.length + 1 := by
    rw [List.length_append, List.length_singleton, hk]
  obtain ⟨hl, hturn⟩ := turn_connStep hd hlen
  have ho : ∀ q, q ≠ c → (({ s.core.set c { s.core.conns c with
      lines := (s.core.conns c).lines ++ [l] } with worker := w }).set c k).conns q =
      s.core.conns q := fun q hq => by simp [Replies.State.set, Function.update_of_ne hq]
  refine ⟨l, rest, hnext, rfl, rfl, rfl, ?_, fun q => ?_, ho⟩
  · simpa [Replies.State.set] using hl
  · by_cases hq : q = c
    · subst hq
      simpa [Replies.State.set] using hturn
    · rw [show _ = s.core.conns q from ho q hq]
      exact hT q

theorem core_of_readsLine (h : ReadsLine serde c s t) (hI : Replies.Inv serde s.core) :
    Replies.Inv serde t.core := by
  obtain ⟨l, rest, r, u, -, hr, hu, rfl⟩ := h.next
  have h1 : Replies.Inv serde r := Replies.inv_step hI (by simp [Replies.spares, ends]) hr
  exact Replies.inv_step h1 (by simp [Replies.spares, ends]) hu

/-- **A line is read**: the next request. -/
theorem reads_readsLine {q : ℕ} (h : ReadsLine serde q s t) (hI : Inv serde s)
    (hreqs : ∀ req ∈ reqs, OneLine req) (hs : Sends t c reqs) : Reads t c reqs := by
  obtain ⟨l, rest, hnext, hin, hsent, hended, hl, -, ho⟩ := h.conns hI.turn
  have hs' : Sends s c reqs := hs.congr (congrFun hsent c) fun he => hended ▸ he
  have hr := hI.reads c reqs hreqs hs'
  by_cases hc : c = q
  · subst hc
    rcases hr.next hs' hreqs h.ready with ⟨req, rest', he, hpre, hbytes⟩ | he
    · rw [hnext, Option.some.injEq, Option.some.injEq, Prod.mk.injEq] at he
      obtain ⟨rfl, rfl⟩ := he
      refine ⟨hl ▸ hpre, ?_⟩
      rw [hsent, hin, hl, Function.update_self, stream_append, stream_singleton, List.append_assoc,
        ← hbytes, hr.sent]
    · rw [hnext] at he
      cases he
  · refine hr.congr (congrArg _ (ho c hc)) (congrFun hsent c) ?_
    rw [hin, Function.update_of_ne hc]

theorem reads_bytes {q : ℕ} {piece : List UInt8} (hI : Inv serde s) (he : s.ended q = false)
    (hreqs : ∀ req ∈ reqs, OneLine req)
    (hs : Sends { s with
      input := Function.update s.input q (s.input q ++ [piece])
      sent := Function.update s.sent q (s.sent q ++ piece) } c reqs) :
    Reads { s with
      input := Function.update s.input q (s.input q ++ [piece])
      sent := Function.update s.sent q (s.sent q ++ piece) } c reqs := by
  by_cases hc : c = q
  · subst hc
    have hsent : s.sent c ++ piece <+: stream reqs := by simpa using hs.sent
    have hr := hI.reads c reqs hreqs ⟨(List.prefix_append _ _).trans hsent, fun h => by simp [he] at h⟩
    refine ⟨hr.lines, ?_⟩
    simp only [Function.update_self, hr.sent, List.flatten_append, List.flatten_singleton,
      List.append_assoc]
  · have hs' : Sends s c reqs := hs.congr (Function.update_of_ne hc _ _) fun h => h
    exact (hI.reads c reqs hreqs hs').congr rfl (Function.update_of_ne hc _ _)
      (Function.update_of_ne hc _ _)

/-- **One step**, of a client, a connection or the worker. -/
theorem inv_step {a : Action V} (hI : Inv serde s) (hsp : spares s a = true)
    (h : step serde s a = some t) : Inv serde t := by
  rcases step_cases h with ⟨q, piece, he, rfl⟩ | ⟨q, rfl⟩ | ⟨q, hq⟩ | ⟨b, u, hb, hu, hspb, rfl⟩
  · exact ⟨hI.core, hI.turn, fun c reqs hreqs hs => reads_bytes hI he hreqs hs⟩
  · refine ⟨hI.core, hI.turn, fun c reqs hreqs hs => ?_⟩
    have hs' : Sends s c reqs := hs.congr rfl fun he => by
      show Function.update s.ended q true c = true
      rw [Function.update_apply, he, ite_self]
    exact (hI.reads c reqs hreqs hs').congr rfl rfl rfl
  · obtain ⟨-, -, -, -, -, -, -, hturn, -⟩ := hq.conns hI.turn
    exact ⟨core_of_readsLine hq hI.core, hturn, fun c reqs hreqs hs => reads_readsLine hq hI hreqs hs⟩
  · have hkept := core_kept hb hu hI.turn
    refine ⟨Replies.inv_step hI.core (hspb hsp) hu, fun c => (hkept c).2, fun c reqs hreqs hs => ?_⟩
    exact (hI.reads c reqs hreqs (hs.congr rfl fun he => he)).congr (hkept c).1 rfl rfl

/-! ### Rest -/

/-- Neither a connection nor the worker has anything left to do. -/
structure Resting (serde : Serde V) (s : State V) : Prop where
  conn : ∀ c, step serde s (.core (.conn c)) = none
  take : step serde s (.core .take) = none
  reply : ∀ r, step serde s (.core (.reply r)) = none

theorem Resting.core (h : Resting serde s) (hT : ∀ c, Turn (s.core.conns c)) :
    Replies.Resting serde s.core := by
  refine ⟨fun c => ?_, Option.map_eq_none_iff.mp h.take, fun r => Option.map_eq_none_iff.mp (h.reply r)⟩
  by_cases hp : (s.core.conns c).place = .reading
  · exact Option.map_eq_none_iff.mpr (connStep_reading hp (hT c))
  · have hc := h.conn c
    unfold step at hc
    dsimp only at hc
    split at hc
    · next hr => exact absurd hr hp
    · exact Option.map_eq_none_iff.mp hc

/-- A connection between two lines that could read one is not at rest. -/
theorem readStep_ne_none (hp : (s.core.conns c).place = .reading) (hT : Turn (s.core.conns c))
    (hready : 0x0A ∈ (s.input c).flatten ∨ s.ended c = true) : readStep serde c s ≠ none := by
  unfold readStep
  rw [if_pos hready]
  split
  · next l rest hnext =>
    unfold Turn at hT
    rw [hp] at hT
    have hl : ((s.core.conns c).lines ++ [l])[(s.core.conns c).out.length]? = some l := by
      rw [← hT]
      simp
    intro hn
    simp only [Replies.step, Option.bind_some, Option.map_eq_none_iff, Replies.State.set,
      Function.update_self, connStep, hp, hl] at hn
    split at hn <;> cases hn
  · intro hn
    cases hn

/-- **At rest, every request is answered** that has arrived. -/
theorem answered_of_resting (hI : Inv serde s) (hr : Resting serde s)
    (hreqs : ∀ req ∈ reqs, OneLine req) (hs : Sends s c reqs) (hall : s.sent c = stream reqs)
    (ho : (s.core.conns c).isOpen = true) : (s.core.conns c).out.length = reqs.length := by
  have hlen := Replies.answered_of_resting hI.core (hr.core hI.turn) ho
  have hp : (s.core.conns c).place = .reading := by
    have hturn := hI.turn c
    unfold Turn at hturn
    unfold Conn.isOpen at ho
    split at hturn
    · next hp => exact hp
    · next hp => simp [hp] at ho
    · omega
  have hc : readStep serde c s = none := by
    have hc := hr.conn c
    unfold step at hc
    dsimp only at hc
    rw [hp] at hc
    exact hc
  have hnl : 0x0A ∉ (s.input c).flatten := fun hnl => readStep_ne_none hp (hI.turn c) (Or.inl hnl) hc
  obtain ⟨left, hleft, -, hin⟩ := (hI.reads c reqs hreqs hs).exists_left hs
  rw [hin hall] at hnl
  obtain rfl := eq_nil_of_stream hnl
  rw [hlen, hleft, List.append_nil]

/-! ### The client's side -/

/-- `serde_json::to_string` prints an object on one line. -/
structure PrintsObjects (print : ResponseEnvelope V → Text) : Prop where
  newline : ∀ resp, '\n' ∉ print resp
  head : ∀ resp, (print resp).head? = some '{'
  last : ∀ resp, (print resp).getLast? = some '}'

/-- The responses as one text. -/
def printed (print : ResponseEnvelope V → Text) (out : List (ResponseEnvelope V)) : Text :=
  out.flatMap fun resp => print resp ++ ['\n']

variable {print : ResponseEnvelope V → Text} {resp : ResponseEnvelope V}
  {out : List (ResponseEnvelope V)} {pieces : List (List UInt8)}

theorem trim_line (hp : PrintsObjects print) (resp : ResponseEnvelope V) :
    trim (print resp ++ ['\n']) = print resp := by
  have hstart : trimStartMatches isWhitespace (print resp ++ ['\n']) = print resp ++ ['\n'] := by
    refine trimStartMatches_eq_self fun c hc => ?_
    rw [List.head?_append, hp.head, Option.some_or, Option.some.injEq] at hc
    exact hc ▸ by decide
  have hend : trimEndMatches isWhitespace (print resp) = print resp := by
    refine trimEndMatches_eq_self fun c hc => ?_
    rw [hp.last, Option.some.injEq] at hc
    exact hc ▸ by decide
  unfold trim trimMatches
  rw [hstart]
  exact (List.rdropWhile_concat_pos isWhitespace (print resp) '\n' (by decide)).trans hend

/-- **The command line** gets the first response. -/
theorem socketRequest_written (hp : PrintsObjects print) (fromStr : Text → Except Text V)
    (h : pieces.flatten = written print (resp :: out)) :
    socketRequest fromStr pieces =
      (fromStr (print resp)).mapError ("parse response: ".toList ++ ·) := by
  have hbytes : pieces.flatten = encode (print resp ++ ['\n']) ++ written print out := by
    rw [h]
    exact List.flatMap_cons
  obtain ⟨rest, hread, -⟩ := readLine_eq (hp.newline resp) hbytes
  unfold socketRequest
  rw [hread]
  dsimp only
  rw [trim_line hp]

/-- **The Node client** gets it too, where no piece ends inside a character. -/
theorem request_written (hp : PrintsObjects print) (parse : Text → Option V)
    (h : Aligned (printed print (resp :: out)) pieces) :
    Framing.request parse pieces = some (Framing.answer parse (print resp)) := by
  have hall : decodeAll pieces = print resp ++ ['\n'] ++ printed print out := by
    rw [decodeAll_of_aligned h]
    exact List.flatMap_cons
  have hnl : '\n' ∈ print resp ++ ['\n'] := by simp
  rw [Framing.request_eq (by rw [hall]; exact List.mem_append_left _ hnl), hall,
    Framing.firstLine_append hnl, Framing.firstLine_newline (hp.newline resp)]

/-! ### Every run -/

/-- **The protocol delivers**, byte for byte. In every interleaving in which the worker does not end
while it holds the ping of an open connection, a client whose requests are lines gets at most a response
to each, in their order, and at rest all of them; and the first response is what the clients read,
wherever the bytes are cut (the Node client: between characters). -/
theorem rpc_of_reaches (h : Reaches (step serde) (fun s a => spares s a = true) (start V) s)
    (hreqs : ∀ req ∈ reqs, OneLine req) (hs : Sends s c reqs) :
    (∀ i resp, (s.core.conns c).out[i]? = some resp →
      ∃ req, reqs[i]? = some req ∧ Answers serde s.core.worker (c, i) req resp) ∧
    (Resting serde s → s.sent c = stream reqs → (s.core.conns c).isOpen = true →
      (s.core.conns c).out.length = reqs.length) ∧
    ∀ print, PrintsObjects print → ∀ resp, (s.core.conns c).out.head? = some resp →
      ∀ pieces, pieces.flatten = written print (s.core.conns c).out →
        (∀ fromStr : Text → Except Text V, socketRequest fromStr pieces =
          (fromStr (print resp)).mapError ("parse response: ".toList ++ ·)) ∧
        (Aligned (printed print (s.core.conns c).out) pieces → ∀ parse : Text → Option V,
          Framing.request parse pieces = some (Framing.answer parse (print resp))) := by
  have hinv : Inv serde s := h.invariant inv_start fun hI hok hst => inv_step hI hok hst
  refine ⟨fun i resp hi => ?_, fun hr hall ho => answered_of_resting hinv hr hreqs hs hall ho,
    fun print hp resp hresp pieces hpieces => ?_⟩
  · obtain ⟨req, hreq, ha⟩ := (Replies.faithful_of_inv hinv.core c).2 i resp hi
    obtain ⟨left, rfl⟩ := (hinv.reads c reqs hreqs hs).lines
    refine ⟨req, ?_, ha⟩
    rw [List.getElem?_append_left (List.getElem?_eq_some_iff.mp hreq).1, hreq]
  · obtain ⟨out, hout⟩ := List.head?_eq_some_iff.mp hresp
    rw [hout] at hpieces ⊢
    exact ⟨fun fromStr => socketRequest_written hp fromStr hpieces,
      fun hal parse => request_written hp parse hal⟩

/-! ### A ping in two pieces -/

def pingInTwo : List (Action Text) :=
  [.bytes 0 ((stream [pingLine]).take 9), .bytes 0 ((stream [pingLine]).drop 9), .core (.conn 0),
    .core (.conn 0), .core .take, .core (.reply .pong), .core (.conn 0), .core (.conn 0)]

/-- The response to the ping, and a line for any other. -/
def samplePrint (resp : ResponseEnvelope Text) : Text :=
  if resp = okResponse 7 sampleSerde.pong then
    "\x7b\"id\":7,\"ok\":true,\"result\":\x7b\"pong\":true\x7d\x7d".toList
  else "\x7b\"id\":0,\"ok\":false\x7d".toList

theorem printsObjects_samplePrint : PrintsObjects samplePrint := by
  refine ⟨fun resp => ?_, fun resp => ?_, fun resp => ?_⟩
  all_goals
    unfold samplePrint
    split_ifs
    · decide
    · decide

/-- The response arrives in two pieces as well. -/
theorem rpc_pingInTwo : ∃ s, Reaches (step sampleSerde) (fun s a => spares s a = true) (start Text) s ∧
    (∃ req, [pingLine][0]? = some req ∧
      Answers sampleSerde s.core.worker (0, 0) req (okResponse 7 sampleSerde.pong)) ∧
    socketRequest (fun t => .ok t) (Framing.cutAt 20 (written samplePrint (s.core.conns 0).out)) =
      .ok (samplePrint (okResponse 7 sampleSerde.pong)) := by
  have hr : (run (stepIf (step sampleSerde) spares) pingInTwo (start Text)).map
      (fun s => ((s.core.conns 0).out, s.sent 0)) =
      some ([okResponse 7 sampleSerde.pong], stream [pingLine]) := by decide +kernel
  obtain ⟨s, hs, ho⟩ := Option.map_eq_some_iff.mp hr
  obtain ⟨hout, hsent⟩ := Prod.mk.inj ho
  have hone : ∀ req ∈ [pingLine], OneLine req := fun req hreq => by
    obtain rfl := List.mem_singleton.mp hreq
    exact ⟨by decide, by decide⟩
  obtain ⟨h1, -, h3⟩ := rpc_of_reaches (c := 0) (reaches_of_runIf hs) hone
    ⟨hsent ▸ List.prefix_rfl, fun _ => hsent⟩
  have hfirst : (s.core.conns 0).out[0]? = some (okResponse 7 sampleSerde.pong) := by
    rw [hout]
    rfl
  have hhead : (s.core.conns 0).out.head? = some (okResponse 7 sampleSerde.pong) := by
    rw [hout]
    rfl
  have hcut : (Framing.cutAt 20 (written samplePrint (s.core.conns 0).out)).flatten =
      written samplePrint (s.core.conns 0).out := by
    simp [Framing.cutAt]
  exact ⟨s, reaches_of_runIf hs, h1 0 _ hfirst,
    (h3 samplePrint printsObjects_samplePrint _ hhead _ hcut).1 fun t => .ok t⟩

end BrainEngine.Daemon.Wire
