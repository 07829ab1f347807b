import Mathlib.Data.List.Basic
import Mathlib.Tactic.Common

/-! # Quoted texts

Reading a text with several kinds of quotes from the left: a quote opens a quoted text, which the next quote of
its kind closes, and a quote that is never closed takes all the rest. Every text has a reading
(`exists_reads`), which says what stands between quotes. -/

namespace BrainEngine.Lib.Quotes

variable {α : Type} (isQuote : α → Bool)

/-- No quote at all. -/
def QuoteFree (t : List α) : Prop := ∀ c ∈ t, isQuote c = false

/-- `ws` are the texts that stand between quotes in `t`. -/
inductive Reads : List α → List (List α) → Prop
  | plain {p : List α} (hp : QuoteFree isQuote p) : Reads p []
  | unclosed {p s : List α} {q : α} (hp : QuoteFree isQuote p) (hq : isQuote q = true) (hs : q ∉ s) :
      Reads (p ++ q :: s) []
  | closed {p w s : List α} {q : α} {ws : List (List α)} (hp : QuoteFree isQuote p)
      (hq : isQuote q = true) (hw : q ∉ w) (hs : Reads s ws) : Reads (p ++ q :: (w ++ q :: s)) (w :: ws)

/-- Every quote that opens is closed. -/
inductive Closed : List α → Prop
  | plain {p : List α} (hp : QuoteFree isQuote p) : Closed p
  | quoted {p w s : List α} {q : α} (hp : QuoteFree isQuote p) (hq : isQuote q = true) (hw : q ∉ w)
      (hs : Closed s) : Closed (p ++ q :: (w ++ q :: s))

/-- `w` stands between two quotes, the quotes before which are closed. -/
def Holds (t w : List α) : Prop := ∃ (a : List α) (q : α) (b : List α),
  t = a ++ q :: (w ++ q :: b) ∧ Closed isQuote a ∧ isQuote q = true ∧ q ∉ w

variable {isQuote} {p t w : List α} {ws : List (List α)}

theorem QuoteFree.append {p p' : List α} (hp : QuoteFree isQuote p) (hp' : QuoteFree isQuote p') :
    QuoteFree isQuote (p ++ p') := by
  intro c hc
  rcases List.mem_append.mp hc with hc | hc
  · exact hp c hc
  · exact hp' c hc

variable (isQuote) in
/-- A text without quotes, or its first quote. -/
theorem quoteFree_or (t : List α) : QuoteFree isQuote t ∨
    ∃ p q s, t = p ++ q :: s ∧ QuoteFree isQuote p ∧ isQuote q = true := by
  induction t with
  | nil => exact Or.inl (by simp [QuoteFree])
  | cons c t ih =>
    cases hc : isQuote c with
    | true => exact Or.inr ⟨[], c, t, rfl, by simp [QuoteFree], hc⟩
    | false =>
      have hone : QuoteFree isQuote [c] := by
        intro d hd
        rw [List.mem_singleton.mp hd]
        exact hc
      rcases ih with h | ⟨p, q, s, rfl, hp, hq⟩
      · exact Or.inl (hone.append h)
      · exact Or.inr ⟨c :: p, q, s, rfl, hone.append hp, hq⟩

variable (isQuote) in
/-- **Every text** has a reading. -/
theorem exists_reads (t : List α) : ∃ ws, Reads isQuote t ws := by
  rcases quoteFree_or isQuote t with h | ⟨p, q, s, ht, hp, hq⟩
  · exact ⟨[], .plain h⟩
  · by_cases hs : q ∈ s
    · obtain ⟨w, s', hs', hw⟩ := List.eq_append_cons_of_mem hs
      have hlt : s'.length < t.length := by
        rw [ht, hs', List.length_append, List.length_cons, List.length_append, List.length_cons]
        omega
      obtain ⟨ws, hws⟩ := exists_reads s'
      rw [ht, hs']
      exact ⟨w :: ws, .closed hp hq hw hws⟩
    · rw [ht]
      exact ⟨[], .unclosed hp hq hs⟩
termination_by t.length

/-! ### What a text holds -/

theorem Reads.prepend (hp : QuoteFree isQuote p) (h : Reads isQuote t ws) : Reads isQuote (p ++ t) ws := by
  cases h with
  | plain h => exact .plain (hp.append h)
  | unclosed h hq hs =>
    rw [← List.append_assoc]
    exact .unclosed (hp.append h) hq hs
  | closed h hq hw hs =>
    rw [← List.append_assoc]
    exact .closed (hp.append h) hq hw hs

/-- After closed quotes, a text is read as it is alone. -/
theorem Closed.reads_append {a : List α} (ha : Closed isQuote a) (h : Reads isQuote t ws) :
    ∃ ws', Reads isQuote (a ++ t) (ws' ++ ws) := by
  induction ha with
  | plain hp => exact ⟨[], h.prepend hp⟩
  | @quoted p w s q hp hq hw _ ih =>
    obtain ⟨ws', hws⟩ := ih
    refine ⟨w :: ws', ?_⟩
    rw [List.append_assoc, List.cons_append, List.append_assoc, List.cons_append]
    exact .closed hp hq hw hws

/-- **What a reading finds** is held by the text. -/
theorem holds_of_mem (h : Reads isQuote t ws) (hw : w ∈ ws) : Holds isQuote t w := by
  induction h with
  | plain => exact absurd hw List.not_mem_nil
  | unclosed => exact absurd hw List.not_mem_nil
  | @closed p w' s q ws hp hq hw' hs ih =>
    rcases List.mem_cons.mp hw with rfl | hw
    · exact ⟨p, q, s, rfl, .plain hp, hq, hw'⟩
    · obtain ⟨a, q', b, rfl, ha, hq', hmem⟩ := ih hw
      refine ⟨p ++ q :: (w' ++ q :: a), q', b, ?_, .quoted hp hq hw' ha, hq', hmem⟩
      simp only [List.append_assoc, List.cons_append]

/-- **What a text holds** is found by some reading. -/
theorem exists_reads_of_holds (h : Holds isQuote t w) : ∃ ws, Reads isQuote t ws ∧ w ∈ ws := by
  obtain ⟨a, q, b, rfl, ha, hq, hw⟩ := h
  obtain ⟨ws, hws⟩ := exists_reads isQuote b
  have hfirst : QuoteFree isQuote ([] : List α) := fun c hc => absurd hc List.not_mem_nil
  obtain ⟨ws', hws'⟩ := ha.reads_append (.closed hfirst hq hw hws)
  exact ⟨_, hws', List.mem_append_right _ List.mem_cons_self⟩

end BrainEngine.Lib.Quotes
