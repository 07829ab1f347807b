import BrainEngine.Core.Locator
import BrainEngine.Lib.Quotes
import BrainEngine.Rust.Lines

/-! # Quoted spans

`quoted_spans` gives the quoted texts of a prompt, in the reading of `Lib.Quotes` (`quotedLoop_of_reads`): a
quote that is not closed takes the rest of the iterator, and with it all the quoted texts that follow. -/

namespace BrainEngine.Query.Quotes

open BrainEngine.Rust.Str BrainEngine.Rust.Spans BrainEngine.Rust.Lines BrainEngine.Core.Locator
open BrainEngine.Lib.Quotes

/-! ### The two loops -/

theorem seekQuote_append {q : Char} : ∀ (n : ℕ) {w : Text} (s : Text), q ∉ w →
    seekQuote q (charIndicesFrom n (w ++ q :: s)) =
      (some (n + byteLen w), charIndicesFrom (n + byteLen w + q.utf8Size) s)
  | n, [], s, _ => if_pos rfl
  | n, c :: w, s, h => by
    obtain ⟨hc, hw⟩ := not_or.mp fun hmem => h (List.mem_cons.mpr hmem)
    have ih := seekQuote_append (n + c.utf8Size) s hw
    rw [List.cons_append, charIndicesFrom, seekQuote, if_neg fun heq => hc heq.symm, ih, byteLen_cons,
      Nat.add_assoc n]

theorem seekQuote_of_notMem {q : Char} : ∀ (n : ℕ) {s : Text}, q ∉ s →
    seekQuote q (charIndicesFrom n s) = (none, [])
  | n, [], _ => rfl
  | n, c :: s, h => by
    obtain ⟨hc, hs⟩ := not_or.mp fun hmem => h (List.mem_cons.mpr hmem)
    rw [charIndicesFrom, seekQuote, if_neg fun heq => hc heq.symm]
    exact seekQuote_of_notMem _ hs

theorem quotedLoop_append (prompt : Text) (spans : List Text) : ∀ {p : Text} (s : Text) (n fuel : ℕ),
    QuoteFree isQuote p → quotedLoop prompt (p.length + fuel) (charIndicesFrom n (p ++ s)) spans =
      quotedLoop prompt fuel (charIndicesFrom (n + byteLen p) s) spans
  | [], s, n, fuel, _ => by
    rw [List.length_nil, Nat.zero_add]
    rfl
  | c :: p, s, n, fuel, h => by
    have hc : isQuote c = false := h c List.mem_cons_self
    have hp : QuoteFree isQuote p := fun d hd => h d (List.mem_cons_of_mem _ hd)
    have ih := quotedLoop_append prompt spans s (n + c.utf8Size) fuel hp
    have hfuel : (c :: p).length + fuel = p.length + fuel + 1 := by
      rw [List.length_cons]
      omega
    rw [hfuel, List.cons_append, charIndicesFrom, quotedLoop, hc, Bool.not_false, if_pos rfl, ih,
      byteLen_cons, Nat.add_assoc]

/-- The texts without the space around them, but for empty ones. -/
def trimmed (ws : List Text) : List Text := (ws.map trim).filter fun w => !w.isEmpty

theorem trimmed_cons (w : Text) (ws : List Text) (spans : List Text) : spans ++ trimmed (w :: ws) =
    (if (trim w).isEmpty then spans else spans ++ [trim w]) ++ trimmed ws := by
  unfold trimmed
  cases hw : (trim w).isEmpty with
  | true => simp [hw]
  | false => simp [hw, List.append_assoc]

section
variable {w s : Text} {q : Char}

/-- A quote that is not closed ends the loops. -/
theorem quotedLoop_unclosed (prompt : Text) (spans : List Text) (n fuel : ℕ) (hq : isQuote q = true) (hs : q ∉ s) :
    quotedLoop prompt (fuel + 2) (charIndicesFrom n (q :: s)) spans = some spans := by
  rw [charIndicesFrom, quotedLoop, hq, seekQuote_of_notMem _ hs]
  rfl

/-- **A quoted text** is sliced out of the prompt. -/
theorem quotedLoop_closed (front s : Text) (spans : List Text) (fuel : ℕ) (hq : isQuote q = true) (hw : q ∉ w) :
    quotedLoop (front ++ q :: (w ++ q :: s)) (fuel + 1)
        (charIndicesFrom (byteLen front) (q :: (w ++ q :: s))) spans =
      quotedLoop (front ++ q :: (w ++ q :: s)) fuel
        (charIndicesFrom (byteLen (front ++ q :: (w ++ [q]))) s)
        (if (trim w).isEmpty then spans else spans ++ [trim w]) := by
  have hslice := slice_append (front ++ [q]) w (q :: s)
  have hprompt : front ++ [q] ++ (w ++ q :: s) = front ++ q :: (w ++ q :: s) := by
    rw [List.append_assoc, List.singleton_append]
  have hstart : byteLen (front ++ [q]) = byteLen front + q.utf8Size := by
    rw [byteLen_append, byteLen_cons, byteLen_nil, Nat.add_zero]
  have hend : byteLen (front ++ q :: (w ++ [q])) = byteLen front + q.utf8Size + byteLen w + q.utf8Size := by
    simp only [byteLen_append, byteLen_cons, byteLen_nil]
    omega
  rw [hprompt, hstart] at hslice
  rw [charIndicesFrom, quotedLoop, hq, seekQuote_append _ s hw, hend]
  simp only [Bool.not_true, Bool.false_eq_true, if_false, hslice, Option.bind_eq_bind, Option.bind_some]

end

/-- **The loops** give the trimmed texts of the reading, in one round for each character at most. -/
theorem quotedLoop_of_reads {rest : Text} {ws : List Text} (h : Reads isQuote rest ws) :
    ∀ (front : Text) (spans : List Text) (fuel : ℕ), rest.length < fuel →
      quotedLoop (front ++ rest) fuel (charIndicesFrom (byteLen front) rest) spans =
        some (spans ++ trimmed ws) := by
  induction h with
  | @plain p hp =>
    intro front spans fuel hfuel
    obtain ⟨k, rfl⟩ : ∃ k, fuel = p.length + (k + 1) := ⟨fuel - p.length - 1, by omega⟩
    have hloop := quotedLoop_append (front ++ p) spans [] (byteLen front) (k + 1) hp
    rw [List.append_nil] at hloop
    rw [hloop]
    exact congrArg some (List.append_nil spans).symm
  | @unclosed p s q hp hq hs =>
    intro front spans fuel hfuel
    rw [List.length_append, List.length_cons] at hfuel
    obtain ⟨k, rfl⟩ : ∃ k, fuel = p.length + (k + 2) := ⟨fuel - p.length - 2, by omega⟩
    rw [quotedLoop_append _ _ _ _ _ hp, quotedLoop_unclosed _ _ _ _ hq hs]
    exact congrArg some (List.append_nil spans).symm
  | @closed p w s q ws hp hq hw _ ih =>
    intro front spans fuel hfuel
    simp only [List.length_append, List.length_cons] at hfuel
    obtain ⟨k, rfl⟩ : ∃ k, fuel = p.length + (k + 1) := ⟨fuel - p.length - 1, by omega⟩
    have hstep := quotedLoop_closed (front ++ p) s spans k hq hw
    have hrest := ih (front ++ p ++ q :: (w ++ [q])) (if (trim w).isEmpty then spans else spans ++ [trim w]) k
      (by omega)
    simp only [List.append_assoc, List.cons_append, List.nil_append] at hstep hrest
    rw [quotedLoop_append _ _ _ _ _ hp, ← byteLen_append, hstep, hrest, trimmed_cons]

/-- **The quoted spans** are the trimmed texts of any reading of the prompt. -/
theorem quotedSpans_of_reads {prompt : Text} {ws : List Text} (h : Reads isQuote prompt ws) :
    quotedSpans prompt = some (trimmed ws) :=
  quotedLoop_of_reads h [] [] (prompt.length + 1) (Nat.lt_succ_self _)

/-- **The loops return**, and take no slice inside a character. -/
theorem quotedLoop_returns (prompt : Text) : ∃ spans, quotedSpans prompt = some spans ∧
    ∀ fuel > prompt.length, quotedLoop prompt fuel (charIndices prompt) [] = some spans := by
  obtain ⟨ws, hws⟩ := exists_reads isQuote prompt
  exact ⟨trimmed ws, quotedSpans_of_reads hws, fun fuel hfuel => quotedLoop_of_reads hws [] [] fuel hfuel⟩

/-! ### A quote that is not closed -/

/-- There is a quoted text in it that is not blank. -/
def HoldsQuoted (t : Text) : Prop := ∃ w, Holds isQuote t w ∧ ¬Blank w

theorem mem_trimmed {ws : List Text} {v : Text} : v ∈ trimmed ws ↔ ∃ w ∈ ws, trim w = v ∧ ¬Blank w := by
  unfold trimmed
  rw [List.mem_filter, List.mem_map]
  constructor
  · rintro ⟨⟨w, hw, rfl⟩, hne⟩
    exact ⟨w, hw, rfl, fun hblank => by simp [trim_eq_nil.mpr hblank] at hne⟩
  · rintro ⟨w, hw, rfl, hblank⟩
    exact ⟨⟨w, hw, rfl⟩, by simpa [trim_eq_nil] using hblank⟩

theorem quotedSpans_eq_nil {t : Text} : quotedSpans t = some [] ↔ ¬HoldsQuoted t := by
  obtain ⟨ws, hws⟩ := exists_reads isQuote t
  rw [quotedSpans_of_reads hws, Option.some.injEq, List.eq_nil_iff_forall_not_mem]
  constructor
  · rintro hnil ⟨w, hw, hblank⟩
    obtain ⟨ws', hws', hmem⟩ := exists_reads_of_holds hw
    -- two readings of one text give the same spans
    have hsame : trimmed ws' = trimmed ws :=
      Option.some.inj ((quotedSpans_of_reads hws').symm.trans (quotedSpans_of_reads hws))
    refine hnil (trim w) ?_
    rw [← hsame]
    exact mem_trimmed.mpr ⟨w, hmem, rfl, hblank⟩
  · intro hnone v hv
    obtain ⟨w, hw, -, hblank⟩ := mem_trimmed.mp hv
    exact hnone ⟨w, holds_of_mem hws hw, hblank⟩

/-- **A quote that is not closed** hides the quoted texts that follow, unless all of them are blank. For every
prompt the loops return. -/
theorem unclosed_quote_hides {p s : Text} {q : Char} (hp : QuoteFree isQuote p) (hq : isQuote q = true)
    (hs : q ∉ s) : (quotedSpans (p ++ q :: s) = quotedSpans s ↔ ¬HoldsQuoted s) ∧
      ∀ prompt : Text, ∃ spans, quotedSpans prompt = some spans ∧
        ∀ fuel > prompt.length, quotedLoop prompt fuel (charIndices prompt) [] = some spans := by
  have hnil : quotedSpans (p ++ q :: s) = some [] := quotedSpans_of_reads (.unclosed hp hq hs)
  refine ⟨?_, quotedLoop_returns⟩
  rw [hnil, ← quotedSpans_eq_nil]
  exact eq_comm

theorem unclosed_quote_hides_nothing :
    quotedSpans "don't edit auth.rs".toList = quotedSpans "t edit auth.rs".toList := by
  have hfree : QuoteFree isQuote "don".toList := by simp [QuoteFree, isQuote]
  have hnone : ¬HoldsQuoted "t edit auth.rs".toList := quotedSpans_eq_nil.mp (by decide)
  exact (unclosed_quote_hides hfree (q := '\'') (by decide) (by decide)).1.mpr hnone

/-- The apostrophe of a contraction hides a target. -/
theorem contraction_hides : ¬∀ (p s : Text) (q : Char), QuoteFree isQuote p → isQuote q = true → q ∉ s →
    quotedSpans (p ++ q :: s) = quotedSpans s := by
  intro h
  have hfree : QuoteFree isQuote "don".toList := by simp [QuoteFree, isQuote]
  have heq := h "don".toList "t edit `auth guard`".toList '\'' hfree (by decide) (by decide)
  have hleft : quotedSpans ("don".toList ++ '\'' :: "t edit `auth guard`".toList) = some [] := by decide
  have hright : quotedSpans "t edit `auth guard`".toList = some ["auth guard".toList] := by decide
  rw [hleft, hright] at heq
  cases heq

end BrainEngine.Query.Quotes
