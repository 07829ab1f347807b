import BrainEngine.Js.Values
import Mathlib.Data.List.Induction
import Mathlib.Data.List.ReduceOption

/-! # The Stop hook

`hookStop` reads a transcript line by line, keeps the last text of the user and the last text of the
assistant, each for itself, and stores the pair. `genuine_iff` tells when the pair is a question and its
answer. -/

namespace BrainEngine.Client.Stop

open BrainEngine.Js.Values

/-- `extractText`. There is no result where `join` throws. -/
def extractText (content : Option Json) : Option JsString :=
  match content with
  | some (.str s) => some s
  | some (.arr blocks) =>
    ((blocks.filter fun b : Json => b.truthy && isStr (b.get "type") "text").mapM fun b : Json =>
      match b.get "text" with
      | some text => text.piece
      | none => some []).map List.flatten
  | _ => some []

def rateLimitTypes : List String := ["rate_limit_error", "overloaded_error", "usage_limit_exceeded"]

/-- `isRateLimitError`. -/
def isRateLimitError (evt : Json) (lastAsst : JsString) : Bool :=
  let nested := (evt.get "error").bind fun e => e.get "type"
  let errorType := orElse? (evt.get "error_type") nested
  (rateLimitTypes.any fun t => isStr errorType t) ||
    somewhere (fun s => litAt "rate" s && optDotThen "limit" (s.drop 4)) lastAsst ||
    somewhere (fun s => litAt "usage" s && optDotThen "limit" (s.drop 5)) lastAsst ||
    somewhere (fun s => litAt "token" s && optDotThen "quota" (s.drop 5)) lastAsst ||
    somewhere (litAt "too many requests") lastAsst ||
    somewhere (litAt "overloaded") lastAsst ||
    somewhere (fun s => litAt "claude" s && dotsThen "unavailable" (s.drop 6)) lastAsst ||
    wordFrom "529" none lastAsst ||
    wordFrom "429" none lastAsst

/-- What the hook meets outside: its environment, the daemon and the files. -/
structure Host where
  /-- `process.env.BRAIN_ROOT || process.cwd()`. -/
  fallbackRoot : JsString
  ping : Json → Bool
  /-- `readFileSync`, if it does not throw. -/
  readFile : Json → Option JsString

/-- What the hook does outside. -/
structure Effects where
  /-- `brain llm block claude` is run. -/
  blocked : Bool := false
  /-- `store(root, lastUser, lastAsst)` is sent. -/
  stored : Option (Json × JsString × JsString) := none

/-- `split('\n').filter(Boolean)`. -/
def linesOf (file : JsString) : List JsString :=
  (file.splitOn 0x0A).filter fun line => !line.isEmpty

variable (parse : JsString → Option Json)

/-- One round of the loop over the lines. Without a result, it throws: a line is `null`. -/
def scanLine (acc : JsString × JsString) (line : JsString) : Option (JsString × JsString) :=
  match parse line with
  | none => some acc
  | some .null => none
  | some m =>
    let msg := orElse (m.get "message") m
    let role := orElse? (msg.get "role") (m.get "type")
    (extractText (msg.get "content")).map fun text =>
      if text = [] then acc
      else if isStr role "user" then (text, acc.2)
      else if isStr role "assistant" then (acc.1, text)
      else acc

/-- `hookStop`, up to the panel. What throws ends it. -/
def hookStop (host : Host) (raw : JsString) : Effects :=
  match parse raw with
  | none => {}
  | some evt =>
    let root := orElse (evt.get "cwd") (.str host.fallbackRoot)
    match evt.get "transcript_path" with
    | none => {}
    | some path =>
      if !path.truthy || !host.ping root then {}
      else match (host.readFile path).bind fun file => (linesOf file).foldlM (scanLine parse) ([], []) with
        | none => {}
        | some (lastUser, lastAsst) =>
          { blocked := isRateLimitError evt lastAsst
            stored := if lastUser ≠ [] ∧ lastAsst ≠ [] then some (root, lastUser, lastAsst) else none }

/-! ### Transcripts -/

inductive Role
  | user
  | assistant
  deriving DecidableEq

/-- A text of the user or of the assistant. -/
structure Turn where
  role : Role
  text : JsString
  deriving DecidableEq

/-- The turn of an entry. Tools and entries without text have none. -/
def turnOf (m : Json) : Option (Option Turn) :=
  match m with
  | .null => none
  | m =>
    let msg := orElse (m.get "message") m
    let role := orElse? (msg.get "role") (m.get "type")
    (extractText (msg.get "content")).map fun text =>
      if text = [] then none
      else if isStr role "user" then some ⟨.user, text⟩
      else if isStr role "assistant" then some ⟨.assistant, text⟩
      else none

/-- The turn of a line. A malformed line has none. -/
def lineTurn (line : JsString) : Option (Option Turn) :=
  match parse line with
  | none => some none
  | some m => turnOf m

/-- The turns of a transcript. -/
def turns (lines : List JsString) : Option (List Turn) :=
  (lines.mapM (lineTurn parse)).map List.reduceOption

/-- The last text with a role. -/
def lastText (role : Role) (ts : List Turn) : JsString :=
  match (ts.filter fun t => t.role = role).getLast? with
  | some t => t.text
  | none => []

/-- `a` is a text of the assistant that comes after a text `u` of the user, with no other text of the
user between them. -/
def Genuine (ts : List Turn) (u a : JsString) : Prop :=
  ∃ pre mid post, ts = pre ++ ⟨.user, u⟩ :: mid ++ ⟨.assistant, a⟩ :: post ∧
    ∀ t ∈ mid, t.role = .assistant

/-- The hook read this event and a transcript of these turns. -/
def Reads (host : Host) (raw : JsString) (evt : Json) (ts : List Turn) : Prop :=
  parse raw = some evt ∧ ∃ path file, evt.get "transcript_path" = some path ∧
    host.readFile path = some file ∧ turns parse (linesOf file) = some ts

/-- There is no rate-limit error, and the transcript ends with the assistant, or an earlier turn had
the same question and the same answer. -/
def Fair (evt : Json) (ts : List Turn) : Prop :=
  isRateLimitError evt (lastText .assistant ts) = false ∧
    (ts.getLast?.any (fun t => t.role = .assistant) = true ∨
      Genuine ts.dropLast (lastText .user ts) (lastText .assistant ts))

/-! ### The loop -/

variable {parse} {host : Host} {raw : JsString} {evt : Json} {ts : List Turn} {u a : JsString}

theorem lastText_append (role : Role) (ts : List Turn) (t : Turn) :
    lastText role (ts ++ [t]) = if t.role = role then t.text else lastText role ts := by
  unfold lastText
  rw [List.filter_append]
  by_cases h : t.role = role
  · simp [h]
  · simp [h]

/-- What a turn makes of the two texts. -/
def note (acc : JsString × JsString) : Option Turn → JsString × JsString
  | none => acc
  | some ⟨.user, text⟩ => (text, acc.2)
  | some ⟨.assistant, text⟩ => (acc.1, text)

theorem scanLine_eq (acc : JsString × JsString) (line : JsString) :
    scanLine parse acc line = (lineTurn parse line).map (note acc) := by
  unfold scanLine lineTurn
  cases parse line with
  | none => rfl
  | some m =>
    unfold turnOf
    cases m with
    | null => rfl
    | _ =>
      dsimp only
      rw [Option.map_map]
      congr 1
      funext text
      dsimp only [Function.comp]
      split_ifs <;> rfl

theorem turns_append (lines : List JsString) (line : JsString) :
    turns parse (lines ++ [line]) = (turns parse lines).bind fun ts =>
      (lineTurn parse line).map fun t => ts ++ t.toList := by
  unfold turns
  rw [List.mapM_append]
  cases lines.mapM (lineTurn parse) with
  | none => rfl
  | some ts =>
    cases hl : lineTurn parse line with
    | none => simp [hl]
    | some t => cases t <;> simp [hl, List.reduceOption_append]

theorem note_lastText (ts : List Turn) (t : Option Turn) :
    note (lastText .user ts, lastText .assistant ts) t =
      (lastText .user (ts ++ t.toList), lastText .assistant (ts ++ t.toList)) := by
  rcases t with _ | ⟨⟨⟩ | ⟨⟩, text⟩
  · simp [note]
  · simp [note, lastText_append]
  · simp [note, lastText_append]

/-- **The loop** ends with the last texts of the turns. -/
theorem foldlM_scanLine (lines : List JsString) : lines.foldlM (scanLine parse) ([], []) =
    (turns parse lines).map fun ts => (lastText .user ts, lastText .assistant ts) := by
  induction lines using List.reverseRecOn with
  | nil => rfl
  | append_singleton lines line ih =>
    rw [List.foldlM_append, ih, turns_append]
    cases turns parse lines with
    | none => rfl
    | some ts =>
      simp only [Option.map_some, Option.bind_some, List.foldlM_cons, List.foldlM_nil,
        scanLine_eq]
      cases lineTurn parse line with
      | none => rfl
      | some t =>
        exact congrArg some (note_lastText ts t)

/-- **What is sent** is the last text of the user with the last text of the assistant. -/
theorem stored_eq (hr : Reads parse host raw evt ts) {root : Json}
    (h : (hookStop parse host raw).stored = some (root, u, a)) :
    u = lastText .user ts ∧ a = lastText .assistant ts ∧ u ≠ [] ∧ a ≠ [] := by
  obtain ⟨hraw, path, file, hpath, hfile, hts⟩ := hr
  unfold hookStop at h
  rw [hraw] at h
  dsimp only at h
  rw [hpath] at h
  dsimp only at h
  split_ifs at h
  rw [hfile, Option.bind_some, foldlM_scanLine, hts, Option.map_some] at h
  dsimp only at h
  obtain ⟨hne, h⟩ := Option.ite_none_right_eq_some.mp h
  cases h
  exact ⟨rfl, rfl, hne.1, hne.2⟩

/-! ### Question and answer -/

/-- The last turn with a role, and what follows it. -/
theorem exists_of_lastText {role : Role} (h : lastText role ts ≠ []) : ∃ pre post,
    ts = pre ++ ⟨role, lastText role ts⟩ :: post ∧ ∀ t ∈ post, t.role ≠ role := by
  induction ts using List.reverseRecOn with
  | nil => exact absurd rfl h
  | append_singleton ts t ih =>
    rw [lastText_append] at h ⊢
    by_cases ht : t.role = role
    · subst ht
      rw [if_pos rfl]
      exact ⟨ts, [], rfl, by simp⟩
    · rw [if_neg ht] at h ⊢
      obtain ⟨pre, post, hts, hpost⟩ := ih h
      refine ⟨pre, post ++ [t], ?_, fun t' ht' => ?_⟩
      · calc ts ++ [t] = (pre ++ ⟨role, lastText role ts⟩ :: post) ++ [t] := congrArg (· ++ [t]) hts
          _ = pre ++ ⟨role, lastText role ts⟩ :: (post ++ [t]) := by simp
      · rcases List.mem_append.mp ht' with ht' | ht'
        · exact hpost t' ht'
        · rw [List.mem_singleton.mp ht']
          exact ht

theorem role_of_ne_user {t : Turn} (h : t.role ≠ .user) : t.role = .assistant := by
  cases hr : t.role with
  | user => exact absurd hr h
  | assistant => rfl

theorem Genuine.append (h : Genuine ts u a) (t : Turn) : Genuine (ts ++ [t]) u a := by
  obtain ⟨pre, mid, post, rfl, hmid⟩ := h
  exact ⟨pre, mid, post ++ [t], by simp, hmid⟩

/-- A question that ends the transcript is no part of an answered turn. -/
theorem genuine_append_user {t : Turn} (ht : t.role = .user) :
    Genuine (ts ++ [t]) u a ↔ Genuine ts u a := by
  refine ⟨?_, fun h => h.append t⟩
  rintro ⟨pre, mid, post, hts, hmid⟩
  rcases List.eq_nil_or_concat post with rfl | ⟨post, t', rfl⟩
  · have h := List.singleton_inj.mp (List.append_inj_right' hts rfl)
    rw [h] at ht
    cases ht
  · refine ⟨pre, mid, post, ?_, hmid⟩
    have h : ts ++ [t] = (pre ++ ⟨.user, u⟩ :: mid ++ ⟨.assistant, a⟩ :: post) ++ [t'] := by
      rw [hts]
      simp
    exact List.append_inj_left' h rfl

/-- **The last texts** are question and answer if the transcript ends with the assistant. -/
theorem genuine_append_assistant {t : Turn} (ht : t.role = .assistant)
    (hu : lastText .user (ts ++ [t]) ≠ []) :
    Genuine (ts ++ [t]) (lastText .user (ts ++ [t])) (lastText .assistant (ts ++ [t])) := by
  obtain ⟨pre, post, hts, hpost⟩ := exists_of_lastText hu
  have ha : lastText .assistant (ts ++ [t]) = t.text := by rw [lastText_append, if_pos ht]
  rw [ha]
  rcases List.eq_nil_or_concat post with rfl | ⟨mid, t', rfl⟩
  · have h := List.append_inj_right' hts rfl
    rw [List.singleton_inj.mp h] at ht
    cases ht
  · have h : ts ++ [t] = (pre ++ ⟨.user, lastText .user (ts ++ [t])⟩ :: mid) ++ [t'] := by
      calc ts ++ [t] = pre ++ ⟨.user, lastText .user (ts ++ [t])⟩ :: mid.concat t' := hts
        _ = _ := by simp
    have h' := List.singleton_inj.mp (List.append_inj_right' h rfl)
    subst h'
    have ht' : (⟨.assistant, t.text⟩ : Turn) = t := by rw [← ht]
    refine ⟨pre, mid, [], ?_, fun t' ht' => role_of_ne_user (hpost t' (by simp [ht']))⟩
    rw [ht']
    exact h

/-- **Only genuine answers are cached, exactly when** there is no rate-limit error and the transcript
ends with the assistant, or an earlier turn had the same two texts. -/
theorem genuine_iff (hr : Reads parse host raw evt ts) {root : Json}
    (h : (hookStop parse host raw).stored = some (root, u, a)) :
    (Genuine ts u a ∧ isRateLimitError evt a = false) ↔ Fair evt ts := by
  obtain ⟨rfl, rfl, hu, -⟩ := stored_eq hr h
  rw [Fair, and_comm, and_congr_right_iff]
  intro _
  rcases List.eq_nil_or_concat ts with rfl | ⟨ts, t, rfl⟩
  · exact absurd rfl hu
  · rw [List.concat_eq_append] at hu ⊢
    rw [List.getLast?_append, List.getLast?_singleton, Option.some_or, Option.any_some,
      decide_eq_true_eq, List.dropLast_concat]
    cases ht : t.role with
    | user => simp [genuine_append_user ht]
    | assistant => exact iff_of_true (genuine_append_assistant ht hu) (Or.inl rfl)

theorem Genuine.mem (h : Genuine ts u a) : ⟨.user, u⟩ ∈ ts := by
  obtain ⟨pre, mid, post, rfl, -⟩ := h
  simp

/-! ### Runs -/

/-- An event with a transcript. -/
def eventText : JsString := js "\x7b\"transcript_path\":\"t\"\x7d"

def entryText (role content : String) : JsString :=
  js "\x7b\"role\":\"" ++ js role ++ js "\",\"content\":\"" ++ js content ++ js "\"\x7d"

def entry (role content : String) : Json :=
  .obj [(js "role", .str (js role)), (js "content", .str (js content))]

def event : Json := .obj [(js "transcript_path", .str (js "t"))]

/-- `JSON.parse` on the texts of these runs. -/
def parseSome (s : JsString) : Option Json :=
  if s = eventText then some event
  else if s = entryText "user" "hi" then some (entry "user" "hi")
  else if s = entryText "assistant" "hello" then some (entry "assistant" "hello")
  else if s = entryText "assistant" "Error 429" then some (entry "assistant" "Error 429")
  else if s = entryText "user" "bye" then some (entry "user" "bye")
  else none

/-- A host with one file. -/
def hostOf (lines : List JsString) : Host where
  fallbackRoot := js "/p"
  ping _ := true
  readFile _ := some (lines.flatMap fun line => line ++ [0x0A])

theorem reads_answered : Reads parseSome (hostOf [entryText "user" "hi", entryText "assistant" "hello"])
    eventText event [⟨.user, js "hi"⟩, ⟨.assistant, js "hello"⟩] :=
  ⟨rfl, _, _, rfl, rfl, by decide +kernel⟩

theorem genuine_answered : Genuine [⟨.user, js "hi"⟩, ⟨.assistant, js "hello"⟩] (js "hi") (js "hello") ∧
    isRateLimitError event (js "hello") = false :=
  (genuine_iff reads_answered rfl).mpr ⟨by decide +kernel, Or.inl rfl⟩

theorem reads_unanswered :
    Reads parseSome (hostOf [entryText "user" "hi", entryText "assistant" "hello", entryText "user" "bye"])
      eventText event [⟨.user, js "hi"⟩, ⟨.assistant, js "hello"⟩, ⟨.user, js "bye"⟩] :=
  ⟨rfl, _, _, rfl, rfl, by decide +kernel⟩

theorem reads_limited : Reads parseSome (hostOf [entryText "user" "hi", entryText "assistant" "Error 429"])
    eventText event [⟨.user, js "hi"⟩, ⟨.assistant, js "Error 429"⟩] :=
  ⟨rfl, _, _, rfl, rfl, by decide +kernel⟩

/-- Neither half holds: the text before an unanswered prompt is stored for that prompt, and an error
that was found is stored for the prompt that met it. -/
theorem not_genuine :
    (¬ ∀ parse host raw evt ts root u a, Reads parse host raw evt ts →
      (hookStop parse host raw).stored = some (root, u, a) → Genuine ts u a) ∧
    ¬ ∀ parse host raw evt ts root u a, Reads parse host raw evt ts →
      (hookStop parse host raw).stored = some (root, u, a) → isRateLimitError evt a = false := by
  refine ⟨fun h => ?_, fun h => ?_⟩
  · have hg : Genuine ([⟨.user, js "hi"⟩, ⟨.assistant, js "hello"⟩] ++ [⟨.user, js "bye"⟩]) (js "bye")
        (js "hello") := h _ _ _ _ _ (.str (js "/p")) _ _ reads_unanswered rfl
    have hm := ((genuine_append_user rfl).mp hg).mem
    exact absurd hm (by decide +kernel)
  · have he := h _ _ _ _ _ (.str (js "/p")) (js "hi") (js "Error 429") reads_limited rfl
    exact absurd he (by decide +kernel)

end BrainEngine.Client.Stop
