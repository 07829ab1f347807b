import BrainEngine.Lib.Utf8
import BrainEngine.Rust.Str
import Mathlib.Data.List.Induction

/-! # The client's reader

`request` of the Node client, from the chunks of a response to what its promise becomes. Each chunk is
decoded by itself, so the reader is right exactly when no chunk ends inside a character. -/

namespace BrainEngine.Client.Framing

open BrainEngine.Rust.Str BrainEngine.Lib.Utf8

/-- What becomes of the promise. -/
inductive Outcome (V : Type)
  | resolved (value : V)
  | rejected (message : Text)
  deriving DecidableEq

structure Reader (V : Type) where
  buf : Text
  /-- What the promise became, once `settle` has been called. -/
  settled : Option (Outcome V)

variable {V : Type}

/-- `settle`: only the first call counts. -/
def Reader.settle (r : Reader V) (o : Outcome V) : Reader V :=
  { r with settled := r.settled.or (some o) }

/-- What a line becomes. -/
def answer (parse : Text → Option V) (line : Text) : Outcome V :=
  match parse line with
  | some value => .resolved value
  | none => .rejected ("Invalid JSON response: ".toList ++ line)

/-- What stands before the first newline. -/
def firstLine (buf : Text) : Text := buf.takeWhile fun c => c ≠ '\n'

/-- The handler of `data`; `chunk.toString('utf8')` decodes the chunk. -/
def onData (parse : Text → Option V) (r : Reader V) (chunk : List UInt8) : Reader V :=
  let r := { r with buf := r.buf ++ decode chunk }
  if '\n' ∈ r.buf then r.settle (answer parse (firstLine r.buf)) else r

/-- The handler of `end`. -/
def onEnd (r : Reader V) : Reader V := r.settle (.rejected "Connection closed before response".toList)

/-- The promise after the chunks of a response and the end of the stream. -/
def request (parse : Text → Option V) (chunks : List (List UInt8)) : Option (Outcome V) :=
  (onEnd (chunks.foldl (onData parse) ⟨[], none⟩)).settled

/-- `serde_json::to_string` of a response, and the newline. -/
def responseBytes (json : Text) : List UInt8 := encode (json ++ ['\n'])

variable {parse : Text → Option V} {json : Text} {chunks : List (List UInt8)}

theorem firstLine_append {t u : Text} (h : '\n' ∈ t) : firstLine (t ++ u) = firstLine t := by
  induction t with
  | nil => cases h
  | cons c t ih =>
    unfold firstLine at ih ⊢
    rw [List.cons_append, List.takeWhile_cons, List.takeWhile_cons]
    split_ifs with hc
    · rw [ih ((List.mem_cons.mp h).resolve_left fun he => by simp [he.symm] at hc)]
    · rfl

theorem firstLine_newline {t : Text} (h : '\n' ∉ t) : firstLine (t ++ ['\n']) = t := by
  unfold firstLine
  rw [List.takeWhile_append_of_pos fun c hc => by
    simpa using fun he : c = '\n' => h (he ▸ hc)]
  simp

/-- **The chunks so far**: the promise is settled by the first line, as soon as there is one. -/
theorem foldl_onData (parse : Text → Option V) (chunks : List (List UInt8)) :
    chunks.foldl (onData parse) ⟨[], none⟩ = ⟨decodeAll chunks,
      if '\n' ∈ decodeAll chunks then some (answer parse (firstLine (decodeAll chunks))) else none⟩ := by
  induction chunks using List.reverseRecOn with
  | nil => rfl
  | append_singleton chunks x ih =>
    have hbuf : decodeAll (chunks ++ [x]) = decodeAll chunks ++ decode x := by
      simp [decodeAll]
    rw [List.foldl_append, List.foldl_cons, List.foldl_nil, ih, hbuf]
    unfold onData Reader.settle
    dsimp only
    by_cases h : '\n' ∈ decodeAll chunks
    · have h' : '\n' ∈ decodeAll chunks ++ decode x := List.mem_append_left _ h
      rw [if_pos h, if_pos h', if_pos h', firstLine_append h]
      rfl
    · rw [if_neg h]
      split_ifs <;> rfl

/-- A whole response settles the promise by the first line of what was decoded. -/
theorem request_eq (h : '\n' ∈ decodeAll chunks) :
    request parse chunks = some (answer parse (firstLine (decodeAll chunks))) := by
  unfold request onEnd Reader.settle
  rw [foldl_onData, if_pos h]
  rfl

/-- **Framing is right exactly at the borders of characters.** Whatever the parser makes of texts, the
promise becomes what the whole response line parses to, if and only if each chunk is the encoding of a
piece of the line. -/
theorem request_iff_aligned (hjson : '\n' ∉ json) (h : chunks.flatten = responseBytes json) :
    (∀ (V : Type) (parse : Text → Option V), request parse chunks = some (answer parse json)) ↔
      Aligned (json ++ ['\n']) chunks := by
  obtain ⟨hf, hal⟩ := frayed_decodeAll h
  obtain ⟨u, hu, hfu⟩ := hf.concat (by decide)
  have hnl : '\n' ∉ u := hfu.notMem (by decide) hjson
  have hreq : ∀ (V : Type) (parse : Text → Option V),
      request parse chunks = some (answer parse u) := by
    intro V parse
    rw [request_eq (by rw [hu]; simp), hu, firstLine_newline hnl]
  rw [← hal, hu]
  constructor
  · intro hall
    -- the parser that returns its text sees the difference
    have he := hall Text some
    rw [hreq] at he
    simp only [answer, Option.some.injEq, Outcome.resolved.injEq] at he
    rw [he]
  · intro he V parse
    rw [hreq, List.append_cancel_right he]

/-! ### A response with an accent -/

/-- The line of a response that quotes a text. -/
def quoting (text : String) : Text :=
  ("\x7b\"id\":1,\"ok\":true,\"result\":\x7b\"response\":\"" ++ text ++ "\"\x7d\x7d").toList

/-- `JSON.parse` of the lines that occur, by the text they quote. -/
def parseQuoted (line : Text) : Option Text :=
  if line = quoting "é" then some "é".toList
  else if line = quoting "\uFFFD\uFFFD" then some "\uFFFD\uFFFD".toList
  else none

/-- Two chunks, the first with so many bytes. -/
def cutAt (n : ℕ) (bytes : List UInt8) : List (List UInt8) := [bytes.take n, bytes.drop n]

/-- The first chunk ends after the accent. -/
theorem request_afterAccent :
    request parseQuoted (cutAt 42 (responseBytes (quoting "é"))) = some (.resolved "é".toList) := by
  have hal : Aligned (quoting "é" ++ ['\n']) (cutAt 42 (responseBytes (quoting "é"))) :=
    ⟨[(quoting "é" ++ ['\n']).take 41, (quoting "é" ++ ['\n']).drop 41], by decide, by decide⟩
  have := (request_iff_aligned (by decide) (by decide)).mpr hal Text parseQuoted
  rw [this]
  decide

/-- **An accent cut in two** arrives as two replacements. -/
theorem not_request : ¬∀ json chunks, '\n' ∉ json → chunks.flatten = responseBytes json →
    (∀ c ∈ chunks, c ≠ []) → request parseQuoted chunks = some (answer parseQuoted json) := by
  intro h
  have hr := h (quoting "é") (cutAt 41 (responseBytes (quoting "é"))) (by decide) (by decide)
    (by decide)
  have hbad : request parseQuoted (cutAt 41 (responseBytes (quoting "é"))) =
      some (.resolved "\uFFFD\uFFFD".toList) := by decide
  rw [hbad] at hr
  exact absurd hr (by decide)

end BrainEngine.Client.Framing
