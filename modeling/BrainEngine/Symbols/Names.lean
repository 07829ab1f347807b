import BrainEngine.Symbols.Docs

/-! # Names and keywords

The name of a symbol is what stands behind the first keyword that matches, whatever it is. It is a
reserved word exactly where such a word stands there (`Misnamed`): in `const fn f`, where `const` is
taken for the declaration of a constant, in `const enum` and `class extends`, and behind `r#`. -/

namespace BrainEngine.Symbols.Names

open BrainEngine.Rust.Str BrainEngine.Rust.Trim BrainEngine.Lib.Outcome BrainEngine.Lib.Scan
open BrainEngine.Core BrainEngine.Core.External BrainEngine.Core.Symbols
open BrainEngine.Symbols.Lines BrainEngine.Symbols.Pointing BrainEngine.Symbols.Docs

/-! ### Reserved words -/

/-- The words that no identifier of the language may be. -/
def reserved : Language → List Text
  | .rust => ["as", "async", "await", "break", "const", "continue", "crate", "dyn", "else", "enum",
      "extern", "false", "fn", "for", "if", "impl", "in", "let", "loop", "match", "mod", "move", "mut",
      "pub", "ref", "return", "self", "Self", "static", "struct", "super", "trait", "true", "type",
      "unsafe", "use", "where", "while", "abstract", "become", "box", "do", "final", "macro",
      "override", "priv", "try", "typeof", "unsized", "virtual", "yield"].map String.toList
  | .tsJs => ["await", "break", "case", "catch", "class", "const", "continue", "debugger", "default",
      "delete", "do", "else", "enum", "export", "extends", "false", "finally", "for", "function", "if",
      "import", "in", "instanceof", "new", "null", "return", "super", "switch", "this", "throw",
      "true", "try", "typeof", "var", "void", "while", "with", "yield"].map String.toList
  | .python => ["False", "None", "True", "and", "as", "assert", "async", "await", "break", "class",
      "continue", "def", "del", "elif", "else", "except", "finally", "for", "from", "global", "if",
      "import", "in", "is", "lambda", "nonlocal", "not", "or", "pass", "raise", "return", "try",
      "while", "with", "yield"].map String.toList

/-- The characters of names. -/
def isNameChar (x : Extern) (c : Char) : Bool := isAlphanumeric x c || c == '_'

/-- A word ends in front of this text. -/
def EndsWord (x : Extern) (tail : Text) : Prop := ∀ c, tail.head? = some c → isNameChar x c = false

/-- A reserved word stands where the name is looked for: behind the keyword, white space and any
number of `r#`. -/
def ReservedBehind (x : Extern) (L : Language) (rest : Text) : Prop :=
  ∃ n w tail, trim rest = (List.replicate n "r#".toList).flatten ++ (w ++ tail) ∧ w ∈ reserved L ∧
    EndsWord x tail

/-- The first word behind `impl` is, but for braces, nothing or a reserved word. -/
def ReservedFirst (L : Language) (rest : Text) : Prop :=
  ∃ i w j, firstWord rest = some (List.replicate i '{' ++ (w ++ List.replicate j '{')) ∧
    (w = [] ∨ w ∈ reserved L)

/-- Where the name of a declaration is looked for, there is none to find. -/
def Misnamed (x : Extern) (L : Language) (line : Text) : Prop :=
  ∃ pre kind rest, (pre, kind) ∈ specs L ∧ unpublished L line = pre ++ rest ∧
    if kind = "impl".toList then ReservedFirst L rest else ReservedBehind x L rest

/-- A name that is an identifier and no keyword. -/
def GoodName (L : Language) (name : Text) : Prop := name ≠ [] ∧ name ∉ reserved L

/-- A modifier in front of `fn`. -/
inductive Modifier
  | pub
  | const
  | async
  deriving DecidableEq

def Modifier.word : Modifier → Text
  | .pub => "pub".toList
  | .const => "const".toList
  | .async => "async".toList

/-- White space between two words of a line. -/
def IsGap (gap : Text) : Prop := gap ≠ [] ∧ ∀ c ∈ gap, c = ' ' ∨ c = '\t'

/-- Modifiers, each with the white space behind it. -/
def modifiersText (ms : List (Modifier × Text)) : Text := ms.flatMap fun m => m.1.word ++ m.2

/-- The text is a declaration `fn name` with modifiers in front. -/
structure IsFn (x : Extern) (ms : List (Modifier × Text)) (name text : Text) : Prop where
  gaps : ∀ m ∈ ms, IsGap m.2
  name_ne : name ≠ []
  name_chars : ∀ c ∈ name, isNameChar x c = true ∧ isWhitespace c = false
  text_eq : ∃ gap tail, IsGap gap ∧ text = modifiersText ms ++ ("fn".toList ++ (gap ++ (name ++ tail))) ∧
    ∀ c, tail.head? = some c → isNameChar x c = false ∧ c ≠ '#'

/-! ### Where the name is found -/

section
variable {pre s t : Text}

theorem exists_trimStartText (hpre : pre ≠ []) : ∀ (n : ℕ) (t : Text), t.length ≤ n →
    ∃ k, t = (List.replicate k pre).flatten ++ trimStartText pre n t ∧ ¬pre <+: trimStartText pre n t
  | 0, t, h => by
    obtain rfl : t = [] := List.length_eq_zero_iff.mp (Nat.le_zero.mp h)
    refine ⟨0, rfl, fun hp => hpre (List.prefix_nil.mp hp)⟩
  | n + 1, t, h => by
    unfold trimStartText
    split_ifs with hp
    · obtain ⟨rest, rfl⟩ := List.isPrefixOf_iff_prefix.mp hp
      have hpos := List.length_pos_iff.mpr hpre
      rw [List.length_append] at h
      rw [List.drop_left]
      obtain ⟨k, hk, hno⟩ := exists_trimStartText hpre n rest (by omega)
      refine ⟨k + 1, ?_, hno⟩
      rw [List.replicate_succ, List.flatten_cons, List.append_assoc, ← hk]
    · exact ⟨0, rfl, fun h => hp (List.isPrefixOf_iff_prefix.mpr h)⟩

theorem trimStartText_replicate (h : ¬pre <+: s) : ∀ {k n : ℕ}, k ≤ n →
    trimStartText pre n ((List.replicate k pre).flatten ++ s) = s
  | 0, 0, _ => rfl
  | 0, n + 1, _ => if_neg fun hp => h (List.isPrefixOf_iff_prefix.mp hp)
  | k + 1, n + 1, hk => by
    rw [List.replicate_succ, List.flatten_cons, List.append_assoc, trimStartText,
      if_pos (List.isPrefixOf_iff_prefix.mpr (List.prefix_append _ _)), List.drop_left]
    exact trimStartText_replicate h (Nat.le_of_succ_le_succ hk)

end

section
variable {x : Extern} {L : Language}

theorem splitFirst_append {w tail : Text} (hw : ∀ c ∈ w, isNameChar x c = true) (ht : EndsWord x tail) :
    splitFirst (fun c => !(isAlphanumeric x c || c == '_')) (w ++ tail) = w := by
  unfold splitFirst
  have hall : ∀ c ∈ w, (!!(isAlphanumeric x c || c == '_')) = true := fun c hc => by
    rw [Bool.not_not]
    exact hw c hc
  rw [List.takeWhile_append_of_pos hall]
  cases tail with
  | nil => exact List.append_nil w
  | cons c cs =>
    have hc : (isAlphanumeric x c || c == '_') = false := ht c rfl
    rw [List.takeWhile_cons, hc]
    exact List.append_nil w

theorem symbolName_of_trim {rest w tail : Text} {n : ℕ}
    (h : trim rest = (List.replicate n "r#".toList).flatten ++ (w ++ tail)) (hne : w ≠ [])
    (hw : ∀ c ∈ w, isNameChar x c = true) (ht : EndsWord x tail) (hraw : ¬"r#".toList <+: w ++ tail) :
    symbolName x rest = some w := by
  have hlen : n ≤ (trim rest).length := by
    have hraw : "r#".toList = ['r', '#'] := rfl
    rw [h, hraw, List.length_append, List.length_flatten, List.map_replicate,
      List.sum_replicate_nat]
    show n ≤ n * 2 + _
    omega
  have hstart : trimStartText "r#".toList (trim rest).length (trim rest) = w ++ tail := by
    nth_rewrite 2 [h]
    exact trimStartText_replicate hraw hlen
  unfold symbolName
  simp only [hstart, splitFirst_append hw ht]
  cases w with
  | nil => exact absurd rfl hne
  | cons c cs => rfl

/-- A name stands behind white space and any number of `r#`, and it ends where it ends. -/
theorem trim_of_symbolName {rest w : Text} (h : symbolName x rest = some w) :
    w ≠ [] ∧ ∃ n tail, trim rest = (List.replicate n "r#".toList).flatten ++ (w ++ tail) ∧
      EndsWord x tail := by
  unfold symbolName at h
  dsimp only at h
  split_ifs at h with hempty
  have hraw : "r#".toList ≠ [] := by decide
  obtain ⟨k, hk, -⟩ := exists_trimStartText hraw _ (trim rest) le_rfl
  have hw := Option.some.inj h
  rw [hw] at hempty
  refine ⟨fun hnil => hempty (List.isEmpty_iff.mpr hnil), k,
    (trimStartText "r#".toList (trim rest).length (trim rest)).dropWhile
      fun c => !!(isAlphanumeric x c || c == '_'), ?_, fun c hc => ?_⟩
  · rw [← hw]
    unfold splitFirst
    rw [List.takeWhile_append_dropWhile]
    exact hk
  · have hhead := List.head?_dropWhile_not (fun c => !!(isAlphanumeric x c || c == '_'))
      (trimStartText "r#".toList (trim rest).length (trim rest))
    rw [hc] at hhead
    simpa [isNameChar] using hhead

theorem forall_of_reserved {p : Char → Bool} {w : Text} (hw : w ∈ reserved L)
    (h : (reserved .rust ++ reserved .tsJs ++ reserved .python).all (fun w => w.all p) = true) :
    ∀ c ∈ w, p c = true := by
  have hmem : w ∈ reserved .rust ++ reserved .tsJs ++ reserved .python := by
    rw [List.mem_append, List.mem_append]
    cases L with
    | rust => exact .inl (.inl hw)
    | tsJs => exact .inl (.inr hw)
    | python => exact .inr hw
  exact List.all_eq_true.mp (List.all_eq_true.mp h w hmem)

theorem isNameChar_of_reserved {w : Text} (hw : w ∈ reserved L) : ∀ c ∈ w, isNameChar x c = true := by
  intro c hc
  have hascii : (c.toNat < 128 && c.isAlphanum) = true :=
    forall_of_reserved (p := fun c => c.toNat < 128 && c.isAlphanum) hw (by decide) c hc
  rw [Bool.and_eq_true, decide_eq_true_eq] at hascii
  obtain ⟨hlt, halnum⟩ := hascii
  unfold isNameChar isAlphanumeric
  rw [if_pos hlt, halnum, Bool.true_or]

theorem length_of_reserved {w : Text} (hw : w ∈ reserved L) : 2 ≤ w.length := by
  have hlen : ∀ w ∈ reserved L, 2 ≤ w.length := by
    cases L with
    | rust => decide
    | tsJs => decide
    | python => decide
  exact hlen w hw

theorem not_raw {w tail : Text} (hlen : 2 ≤ w.length) (hw : ∀ c ∈ w, isNameChar x c = true) :
    ¬"r#".toList <+: w ++ tail := by
  match w, hlen with
  | a :: b :: w, _ =>
    have hraw : "r#".toList = ['r', '#'] := rfl
    rw [hraw]
    rintro ⟨rest, hrest⟩
    have hb : isNameChar x b = true := hw b (by simp)
    obtain ⟨-, hrest⟩ := List.cons.inj hrest
    obtain ⟨rfl, -⟩ := List.cons.inj hrest
    simp [isNameChar, isAlphanumeric] at hb

/-- **A reserved word is found** exactly where one stands. -/
theorem symbolName_reserved_iff {rest : Text} :
    (∃ w ∈ reserved L, symbolName x rest = some w) ↔ ReservedBehind x L rest := by
  constructor
  · rintro ⟨w, hw, h⟩
    obtain ⟨-, n, tail, htrim, hend⟩ := trim_of_symbolName h
    exact ⟨n, w, tail, htrim, hw, hend⟩
  · rintro ⟨n, w, tail, htrim, hw, hend⟩
    have hlen := length_of_reserved hw
    have hne : w ≠ [] := by
      rintro rfl
      simp at hlen
    have hchars := isNameChar_of_reserved (x := x) hw
    exact ⟨w, hw, symbolName_of_trim htrim hne hchars hend (not_raw hlen hchars)⟩

end

/-! ### What an `impl` is for -/

theorem takeWhile_eq_replicate (b : Char) (t : Text) :
    ∃ i, t.takeWhile (· == b) = List.replicate i b := by
  refine ⟨_, List.eq_replicate_of_mem fun c hc => ?_⟩
  simpa using List.mem_takeWhile_imp hc

theorem exists_trimMatches (b : Char) (t : Text) :
    ∃ i j, t = List.replicate i b ++ (trimMatches (· == b) t ++ List.replicate j b) := by
  obtain ⟨i, hi⟩ := takeWhile_eq_replicate b t
  obtain ⟨j, hj⟩ := takeWhile_eq_replicate b (trimStartMatches (· == b) t).reverse
  have hend : trimStartMatches (· == b) t = trimMatches (· == b) t ++ List.replicate j b := by
    have hsplit := List.takeWhile_append_dropWhile (p := (· == b))
      (l := (trimStartMatches (· == b) t).reverse)
    have hrev := congrArg List.reverse hsplit
    rw [List.reverse_append, List.reverse_reverse, hj, List.reverse_replicate] at hrev
    exact hrev.symm
  refine ⟨i, j, ?_⟩
  rw [← hend, ← hi]
  exact List.takeWhile_append_dropWhile.symm

theorem dropWhile_replicate_append {b : Char} {w : Text} (hw : ∀ c ∈ w, c ≠ b) (i : ℕ) :
    (List.replicate i b ++ w).dropWhile (· == b) = w := by
  have hall : ∀ c ∈ List.replicate i b, (c == b) = true := fun c hc => by
    rw [(List.mem_replicate.mp hc).2, beq_self_eq_true]
  rw [List.dropWhile_append_of_pos hall]
  cases w with
  | nil => rfl
  | cons c w =>
    have hc : (c == b) = false := beq_eq_false_iff_ne.mpr (hw c List.mem_cons_self)
    rw [List.dropWhile_cons, hc]
    rfl

theorem trimMatches_replicate {b : Char} {w : Text} (hw : ∀ c ∈ w, c ≠ b) (i j : ℕ) :
    trimMatches (· == b) (List.replicate i b ++ (w ++ List.replicate j b)) = w := by
  have hrev : ∀ c ∈ w.reverse, c ≠ b := fun c hc => hw c (List.mem_reverse.mp hc)
  have hend : trimEndMatches (· == b) (w ++ List.replicate j b) = w := by
    unfold trimEndMatches
    rw [List.reverse_append, List.reverse_replicate, dropWhile_replicate_append hrev,
      List.reverse_reverse]
  unfold trimMatches trimStartMatches
  cases w with
  | nil =>
    rw [List.nil_append, ← List.replicate_add]
    have hnil := dropWhile_replicate_append (w := []) (b := b) (by simp) (i + j)
    rw [List.append_nil] at hnil
    rw [hnil]
    rfl
  | cons c w =>
    have hall : ∀ a ∈ List.replicate i b, (a == b) = true := fun a ha => by
      rw [(List.mem_replicate.mp ha).2, beq_self_eq_true]
    have hc : (c == b) = false := beq_eq_false_iff_ne.mpr (hw c List.mem_cons_self)
    rw [List.dropWhile_append_of_pos hall, List.cons_append, List.dropWhile_cons, hc]
    exact hend

theorem exists_firstWord {line pre rest : Text} (hline : unpublished .rust (trim line) = pre ++ rest)
    (hpre : ∃ c, pre.getLast? = some c ∧ isWhitespace c = true) : ∃ w, firstWord rest = some w := by
  obtain ⟨c, hlast, hc⟩ := hpre
  have hsuffix : pre ++ rest <:+ trim line := hline ▸ unpublished_isSuffix .rust (trim line)
  have hend : ∀ d, (pre ++ rest).getLast? = some d → isWhitespace d = false := by
    intro d hd
    obtain ⟨front, hfront⟩ := hsuffix
    refine getLast?_trim (t := line) ?_
    rw [← hfront, List.getLast?_append, hd]
    rfl
  have hne : rest.dropWhile isWhitespace ≠ [] := by
    intro hnil
    rw [List.dropWhile_eq_nil_iff] at hnil
    cases hrest : rest.getLast? with
    | none =>
      have hblank := hend c (by rw [List.getLast?_append, hrest, hlast]; rfl)
      rw [hc] at hblank
      cases hblank
    | some d =>
      have hblank := hend d (by rw [List.getLast?_append, hrest]; rfl)
      rw [hnil d (List.mem_of_getLast? hrest)] at hblank
      cases hblank
  obtain ⟨d, w, hd⟩ := List.exists_cons_of_ne_nil hne
  have hhead := List.head?_dropWhile_not isWhitespace rest
  rw [hd, List.head?_cons] at hhead
  have hd' : (!isWhitespace d) = true := by simpa using hhead
  unfold firstWord trimStartMatches splitFirst
  rw [hd, List.takeWhile_cons, hd']
  exact ⟨_, rfl⟩

/-! ### Lines that are misnamed -/

section
variable {x : Extern} {L : Language}

theorem reservedFirst_iff {rest w : Text} (h : firstWord rest = some w) :
    ReservedFirst L rest ↔ ¬GoodName L (trimMatches (· == '{') w) := by
  have hbrace : ∀ w ∈ reserved L, ∀ c ∈ w, c ≠ '{' := fun w hw c hc => by
    have hne := forall_of_reserved (p := fun c => c != '{') hw (by decide) c hc
    exact bne_iff_ne.mp hne
  unfold ReservedFirst GoodName
  rw [h]
  constructor
  · rintro ⟨i, w', j, hw, hres⟩
    have hchars : ∀ c ∈ w', c ≠ '{' := by
      rcases hres with rfl | hres
      · simp
      · exact hbrace w' hres
    rw [Option.some.inj hw, trimMatches_replicate hchars]
    tauto
  · intro hbad
    obtain ⟨i, j, hw⟩ := exists_trimMatches '{' w
    refine ⟨i, _, j, congrArg some hw, ?_⟩
    tauto

/-- **A declaration gets a bad name** exactly on a misnamed line. -/
theorem misnamed_iff {line : Text} :
    (∃ name kind, declared x L (trim line) = some (name, kind) ∧ ¬GoodName L name) ↔
      Misnamed x L (trim line) := by
  have hword : ∀ {pre kind rest}, (pre, kind) ∈ specs L → kind = "impl".toList →
      unpublished L (trim line) = pre ++ rest → ∃ w, firstWord rest = some w := by
    intro pre kind rest hmem hk hline
    obtain ⟨rfl, rfl⟩ := spec_impl hmem hk
    exact exists_firstWord hline ⟨' ', by decide, by decide⟩
  constructor
  · rintro ⟨name, kind, hd, hbad⟩
    unfold declared at hd
    cases hf : findSpec (unpublished L (trim line)) (specs L) with
    | none =>
      rw [hf] at hd
      cases hd
    | some p =>
      obtain ⟨rest, kind'⟩ := p
      rw [hf] at hd
      obtain ⟨name', hname, heq⟩ := Option.map_eq_some_iff.mp hd
      obtain ⟨rfl, rfl⟩ := Prod.mk.inj heq
      obtain ⟨pre, hmem, hline⟩ := findSpec_eq_some hf
      refine ⟨pre, kind', rest, hmem, hline, ?_⟩
      unfold nameOf at hname
      split_ifs at hname ⊢ with hk
      · obtain ⟨w, hw⟩ := hword hmem hk hline
        rw [hw, Option.getD_some] at hname
        rw [reservedFirst_iff hw, Option.some.inj hname]
        exact hbad
      · have hne := (trim_of_symbolName hname).1
        refine symbolName_reserved_iff.mp ⟨name', ?_, hname⟩
        by_contra hgood
        exact hbad ⟨hne, hgood⟩
  · rintro ⟨pre, kind, rest, hmem, hline, hbehind⟩
    have hf : findSpec (unpublished L (trim line)) (specs L) = some (rest, kind) :=
      hline ▸ findSpec_of_mem hmem
    have hname : ∃ name, nameOf x kind rest = some name ∧ ¬GoodName L name := by
      unfold nameOf
      split_ifs at hbehind ⊢ with hk
      · obtain ⟨w, hw⟩ := hword hmem hk hline
        refine ⟨_, rfl, ?_⟩
        rw [hw, Option.getD_some]
        exact (reservedFirst_iff hw).mp hbehind
      · obtain ⟨w, hres, hw⟩ := symbolName_reserved_iff.mpr hbehind
        exact ⟨w, hw, fun hgood => hgood.2 hres⟩
    obtain ⟨name, hname, hbad⟩ := hname
    exact ⟨name, kind, by simp only [declared, hf, hname, Option.map_some], hbad⟩

end

/-! ### Functions with modifiers -/

section
variable {x : Extern}

theorem spec_of_head {c : Char} {text rest kind : Text}
    (hf : findSpec (c :: text) rustSpecs = some (rest, kind)) :
    ∃ p ∈ rustSpecs, p.1.head? = some c ∧ p.2 = kind ∧ c :: text = p.1 ++ rest := by
  obtain ⟨pre, hmem, heq⟩ := findSpec_eq_some hf
  refine ⟨(pre, kind), hmem, ?_, rfl, heq⟩
  have hne : pre ≠ [] := by
    have hall : ∀ p ∈ rustSpecs, p.1 ≠ [] := by decide
    exact hall _ hmem
  obtain ⟨d, ds, rfl⟩ := List.exists_cons_of_ne_nil hne
  obtain ⟨rfl, -⟩ := List.cons.inj heq
  rfl

theorem isWhitespace_of_gap {gap : Text} (hgap : ∀ c ∈ gap, c = ' ' ∨ c = '\t') :
    ∀ c ∈ gap, isWhitespace c = true := by
  intro c hc
  rcases hgap c hc with rfl | rfl
  · rfl
  · rfl

theorem modifiersText_cons (m : Modifier) (sep : Text) (ms : List (Modifier × Text)) (u : Text) :
    modifiersText ((m, sep) :: ms) ++ u = m.word ++ (sep ++ (modifiersText ms ++ u)) := by
  simp [modifiersText, List.append_assoc]

theorem symbolName_of_fn {gap name tail : Text} (hgap : ∀ c ∈ gap, c = ' ' ∨ c = '\t') (hne : name ≠ [])
    (hname : ∀ c ∈ name, isNameChar x c = true ∧ isWhitespace c = false)
    (htail : ∀ c, tail.head? = some c → isNameChar x c = false ∧ c ≠ '#')
    (hend : ∀ c, (name ++ tail).getLast? = some c → isWhitespace c = false) :
    symbolName x (gap ++ (name ++ tail)) = some name := by
  have hhead : ∀ c, (name ++ tail).head? = some c → isWhitespace c = false := by
    obtain ⟨d, ds, rfl⟩ := List.exists_cons_of_ne_nil hne
    intro c hc
    exact Option.some.inj hc ▸ (hname d List.mem_cons_self).2
  have htrim : trim (gap ++ (name ++ tail)) = name ++ tail :=
    trim_append (isWhitespace_of_gap hgap) hhead hend
  refine symbolName_of_trim (n := 0) htrim hne (fun c hc => (hname c hc).1) (fun c hc => (htail c hc).1) ?_
  -- `r#` would be a name of one letter with `#` behind it
  have hraw : "r#".toList = ['r', '#'] := rfl
  rw [hraw]
  rintro ⟨rest, hrest⟩
  match name, hne with
  | [c], _ =>
    obtain ⟨-, hrest⟩ := List.cons.inj hrest
    have hhash : tail = '#' :: rest := hrest.symm
    exact (htail '#' (by rw [hhash]; rfl)).2 rfl
  | c :: d :: name, _ =>
    obtain ⟨-, hrest⟩ := List.cons.inj hrest
    obtain ⟨rfl, -⟩ := List.cons.inj hrest
    have hd := (hname '#' (by simp)).1
    simp [isNameChar, isAlphanumeric] at hd

theorem gap_of_append {gap u rest : Text} (hgap : IsGap gap) (h : gap ++ u = ' ' :: rest) :
    ∃ gap', (∀ c ∈ gap', c = ' ' ∨ c = '\t') ∧ rest = gap' ++ u := by
  obtain ⟨hne, hall⟩ := hgap
  obtain ⟨c, gap', rfl⟩ := List.exists_cons_of_ne_nil hne
  obtain ⟨-, hrest⟩ := List.cons.inj h
  exact ⟨gap', fun d hd => hall d (List.mem_cons_of_mem _ hd), hrest.symm⟩

theorem endsWord_gap {gap u : Text} (hgap : IsGap gap) : EndsWord x (gap ++ u) := by
  obtain ⟨hne, hall⟩ := hgap
  obtain ⟨c, gap', rfl⟩ := List.exists_cons_of_ne_nil hne
  intro d hd
  obtain rfl := Option.some.inj hd
  rcases hall _ List.mem_cons_self with rfl | rfl
  · rfl
  · rfl

theorem exists_firstReserved {ms : List (Modifier × Text)} {gap u : Text} (hms : ∀ m ∈ ms, IsGap m.2)
    (hgap : IsGap gap) : ∃ c w tail, c :: w ∈ reserved .rust ∧ isWhitespace c = false ∧
      modifiersText ms ++ ("fn".toList ++ (gap ++ u)) = c :: w ++ tail ∧ EndsWord x tail := by
  cases ms with
  | nil => exact ⟨'f', ['n'], gap ++ u, by decide, rfl, rfl, endsWord_gap hgap⟩
  | cons m ms =>
    obtain ⟨m, sep⟩ := m
    have hsep : IsGap sep := hms (m, sep) List.mem_cons_self
    rw [modifiersText_cons]
    cases m with
    | pub => exact ⟨'p', ['u', 'b'], _, by decide, rfl, rfl, endsWord_gap hsep⟩
    | const => exact ⟨'c', ['o', 'n', 's', 't'], _, by decide, rfl, rfl, endsWord_gap hsep⟩
    | async => exact ⟨'a', ['s', 'y', 'n', 'c'], _, by decide, rfl, rfl, endsWord_gap hsep⟩

/-- A word whose first letter begins one keyword of the table only. -/
theorem rest_of_keyword (c : Char) (w after kind' : Text) {u rest kind : Text}
    (hone : ∀ p ∈ rustSpecs, p.1.head? = some c → p = (c :: w ++ after, kind'))
    (hf : findSpec (c :: w ++ u) rustSpecs = some (rest, kind)) : kind = kind' ∧ u = after ++ rest := by
  obtain ⟨p, hmem, hhead, rfl, htext⟩ := spec_of_head hf
  obtain rfl := hone p hmem hhead
  have hword : c :: w ++ u = c :: w ++ (after ++ rest) := by
    rw [← List.append_assoc]
    exact htext
  exact ⟨rfl, List.append_cancel_left hword⟩

theorem findSpec_pub {u rest kind : Text} : findSpec ("pub".toList ++ u) rustSpecs ≠ some (rest, kind) := by
  intro hf
  obtain ⟨p, hmem, hhead, -⟩ := spec_of_head (c := 'p') hf
  have hall : ∀ p ∈ rustSpecs, p.1.head? ≠ some 'p' := by decide
  exact hall p hmem hhead

/-- Behind a gap and one space stands no `fn` but the next word. -/
theorem eq_nil_of_gap {sep u rest : Text} (hsep : ∀ c ∈ sep, c = ' ' ∨ c = '\t')
    (h : "fn ".toList ++ rest = sep ++ u) : sep = [] := by
  cases sep with
  | nil => rfl
  | cons d sep =>
    obtain ⟨rfl, -⟩ := List.cons.inj h
    have hf := hsep 'f' List.mem_cons_self
    simp at hf

/-- **What the table makes of a function** whose leading `pub` is gone: a function of that name, or,
with `const` in front, a constant with the name of the next word. -/
theorem fn_of_findSpec {ms : List (Modifier × Text)} {name text rest kind : Text}
    (hfn : IsFn x ms name text) (hend : ∀ c, text.getLast? = some c → isWhitespace c = false)
    (hf : findSpec text rustSpecs = some (rest, kind)) :
    kind = "fn".toList ∧ symbolName x rest = some name ∨
      kind = "const".toList ∧ ReservedBehind x .rust rest := by
  obtain ⟨hms, hne, hname, gap, tail, hgap, rfl, htail⟩ := hfn
  have hlast : ∀ {front u : Text} {c : Char}, u.getLast? = some c → (front ++ u).getLast? = some c := by
    intro front u c hc
    rw [List.getLast?_append, hc]
    rfl
  have hend' : ∀ c, (name ++ tail).getLast? = some c → isWhitespace c = false := fun c hc =>
    hend c (hlast (hlast (hlast hc)))
  have hfn : ∀ {rest}, gap ++ (name ++ tail) = ' ' :: rest → symbolName x rest = some name := by
    intro rest hrest
    obtain ⟨gap', hall, rfl⟩ := gap_of_append hgap hrest
    exact symbolName_of_fn hall hne hname htail hend'
  cases ms with
  | nil =>
    obtain ⟨rfl, hrest⟩ := rest_of_keyword 'f' ['n'] [' '] "fn".toList (by decide) hf
    exact .inl ⟨rfl, hfn hrest⟩
  | cons m ms =>
    obtain ⟨m, sep⟩ := m
    have hsep : IsGap sep := hms (m, sep) List.mem_cons_self
    have hms' : ∀ m ∈ ms, IsGap m.2 := fun m hm => hms m (List.mem_cons_of_mem _ hm)
    rw [modifiersText_cons] at hf hend
    cases m with
    | pub => exact absurd hf findSpec_pub
    | const =>
      obtain ⟨rfl, hrest⟩ :=
        rest_of_keyword 'c' ['o', 'n', 's', 't'] [' '] "const".toList (by decide) hf
      obtain ⟨sep', hall, rfl⟩ := gap_of_append hsep hrest
      -- the next word is a modifier or `fn`
      obtain ⟨c, w, after, hres, hc, hnext, hafter⟩ := exists_firstReserved (x := x)
        (u := name ++ tail) hms' hgap
      rw [hnext] at hend ⊢
      have htrim : trim (sep' ++ (c :: w ++ after)) = c :: w ++ after :=
        trim_append (isWhitespace_of_gap hall) (fun d hd => Option.some.inj hd ▸ hc)
          fun d hd => hend d (hlast (hlast hd))
      exact .inr ⟨rfl, 0, c :: w, after, htrim, hres, hafter⟩
    | async =>
      obtain ⟨rfl, hrest⟩ :=
        rest_of_keyword 'a' ['s', 'y', 'n', 'c'] (' ' :: "fn ".toList) "fn".toList (by decide) hf
      obtain ⟨sep', hall, hrest⟩ := gap_of_append hsep hrest
      obtain rfl := eq_nil_of_gap hall hrest
      -- no other modifier begins with `f`
      cases ms with
      | nil =>
        have htwo : "fn".toList ++ (' ' :: rest) = "fn".toList ++ (gap ++ (name ++ tail)) := hrest
        exact .inl ⟨rfl, hfn (List.append_cancel_left htwo).symm⟩
      | cons m ms =>
        obtain ⟨m, sep⟩ := m
        cases m with
        | pub => cases hrest
        | const => cases hrest
        | async => cases hrest

/-- What follows a leading `pub` is again a function with modifiers, unless more white space follows. -/
theorem isFn_of_pub {ms : List (Modifier × Text)} {name u : Text} (hfn : IsFn x ms name ("pub ".toList ++ u)) :
    letterFirst u = false ∨ ∃ ms', IsFn x ms' name u := by
  obtain ⟨hms, hne, hname, gap, tail, hgap, htext, htail⟩ := hfn
  cases ms with
  | nil => cases htext
  | cons m ms =>
    obtain ⟨m, sep⟩ := m
    have hsep : IsGap sep := hms (m, sep) List.mem_cons_self
    have hms' : ∀ m ∈ ms, IsGap m.2 := fun m hm => hms m (List.mem_cons_of_mem _ hm)
    rw [modifiersText_cons] at htext
    cases m with
    | const => cases htext
    | async => cases htext
    | pub =>
      have hthree : "pub".toList ++ (' ' :: u) =
          "pub".toList ++ (sep ++ (modifiersText ms ++ ("fn".toList ++ (gap ++ (name ++ tail))))) := htext
      obtain ⟨sep', hall, rfl⟩ := gap_of_append hsep (List.append_cancel_left hthree).symm
      cases sep' with
      | nil => exact Or.inr ⟨ms, hms', hne, hname, gap, tail, hgap, rfl, htail⟩
      | cons c sep' =>
        left
        rcases hall c List.mem_cons_self with rfl | rfl
        · rfl
        · rfl

/-- **A function that is not misnamed** is found under its name. -/
theorem declared_of_isFn {ms : List (Modifier × Text)} {name found kind line : Text}
    (hfn : IsFn x ms name (trim line)) (hgood : ¬Misnamed x .rust (trim line))
    (hd : declared x .rust (trim line) = some (found, kind)) : kind = "fn".toList ∧ found = name := by
  have hend : ∀ c, (trim line).getLast? = some c → isWhitespace c = false := fun _ => getLast?_trim
  unfold declared at hd
  cases hf : findSpec (unpublished .rust (trim line)) (specs .rust) with
  | none =>
    rw [hf] at hd
    cases hd
  | some p =>
    obtain ⟨rest, kind'⟩ := p
    rw [hf] at hd
    obtain ⟨found', hfound, heq⟩ := Option.map_eq_some_iff.mp hd
    obtain ⟨rfl, rfl⟩ := Prod.mk.inj heq
    have hcases : kind' = "fn".toList ∧ symbolName x rest = some name ∨
        kind' = "const".toList ∧ ReservedBehind x .rust rest := by
      cases hs : stripPrefix (trim line) "pub ".toList with
      | none =>
        have hu : unpublished .rust (trim line) = trim line := by
          simp only [unpublished, hs, Option.getD_none]
        rw [hu] at hf
        exact fn_of_findSpec hfn hend hf
      | some u =>
        have hu : unpublished .rust (trim line) = u := by simp only [unpublished, hs, Option.getD_some]
        have hline : trim line = "pub ".toList ++ u := stripPrefix_eq_some.mp hs
        rw [hu] at hf
        rw [hline] at hfn
        rcases isFn_of_pub hfn with hblank | ⟨ms', hfn'⟩
        · rw [findSpec_of_not_letterFirst hblank (letterFirst_specs .rust)] at hf
          cases hf
        · refine fn_of_findSpec hfn' (fun c hc => hend c ?_) hf
          rw [hline, List.getLast?_append, hc]
          rfl
    rcases hcases with ⟨rfl, hname⟩ | ⟨rfl, hreserved⟩
    · refine ⟨rfl, ?_⟩
      have hnameOf : nameOf x "fn".toList rest = symbolName x rest := if_neg (by decide)
      rw [hnameOf, hname] at hfound
      exact (Option.some.inj hfound).symm
    · obtain ⟨pre, hmem, hline⟩ := findSpec_eq_some hf
      exact absurd ⟨pre, _, rest, hmem, hline, by rw [if_neg (by decide)]; exact hreserved⟩ hgood

end

/-! ### The names of a text -/

/-- What is promised of the names: they are identifiers and no keywords, and a function with modifiers
has the kind and the name of a function. -/
def NamesRight (x : Extern) (content : Text) (lang : Option Text) (symbols : List ExtractedSymbol) : Prop :=
  (∀ L, languageOf lang = some L → ∀ s ∈ symbols, GoodName L s.name) ∧
    ∀ k line ms name, languageOf lang = some .rust → (lines content)[k]? = some line →
      IsFn x ms name (trim line) → ∀ s ∈ symbols, s.startLine = k + 1 →
        s.kind = "fn".toList ∧ s.name = name

theorem declared_of_lineOut {x : Extern} {L : Language} {docs : List Text} {lineNo : ℕ} {line : Text}
    {s : ExtractedSymbol} (h : lineOut x L docs lineNo line = .ok (some s)) :
    s.startLine = lineNo ∧ declared x L (trim line) = some (s.name, s.kind) := by
  unfold lineOut at h
  cases hd : declared x L (trim line) with
  | none =>
    rw [hd] at h
    cases h
  | some p =>
    obtain ⟨name, kind⟩ := p
    rw [hd] at h
    obtain ⟨s', hs, heq⟩ := map_eq_ok.mp h
    obtain rfl := Option.some.inj heq
    obtain ⟨-, -, rfl⟩ := symbolOfLine_eq_ok hs
    exact ⟨rfl, rfl⟩

theorem exists_symbol {x : Extern} {L : Language} {ls : List Text} {symbols : List ExtractedSymbol}
    (h : scan (docsAfter x L) (lineOut x L) ls 1 [] = .ok symbols) {line name kind : Text}
    (hline : line ∈ ls) (hd : declared x L (trim line) = some (name, kind)) :
    ∃ s ∈ symbols, s.name = name := by
  obtain ⟨k, hk⟩ := List.mem_iff_getElem?.mp hline
  obtain ⟨o, ho⟩ := out_of_scan h hk
  cases o with
  | none =>
    simp only [lineOut, hd] at ho
    obtain ⟨s, -, heq⟩ := map_eq_ok.mp ho
    cases heq
  | some s =>
    have hname := (declared_of_lineOut ho).2
    rw [hd] at hname
    exact ⟨s, (mem_scan h s).mpr ⟨k, line, hk, ho⟩, (Prod.mk.inj (Option.some.inj hname)).1.symm⟩

/-- **When extracted names are identifiers.** For every text and language label on which extraction
returns: all names are identifiers and no keywords, and every function with modifiers that has a
symbol has the right one, exactly if no line is misnamed, that is, has a reserved word right where the
name is looked for. -/
theorem names_right_iff (x : Extern) (content : Text) (lang : Option Text)
    (symbols : List ExtractedSymbol) (h : extract x content lang = .ok symbols) :
    NamesRight x content lang symbols ↔
      ∀ L, languageOf lang = some L → ∀ line ∈ lines content, ¬Misnamed x L (trim line) := by
  rw [extract_eq_scan] at h
  unfold NamesRight
  cases hl : languageOf lang with
  | none => exact iff_of_true ⟨nofun, nofun⟩ nofun
  | some L =>
    rw [hl] at h
    constructor
    · rintro ⟨hgood, -⟩ L' hL' line hline hbad
      obtain rfl := Option.some.inj hL'
      obtain ⟨name, kind, hd, hbad⟩ := misnamed_iff.mpr hbad
      obtain ⟨s, hs, rfl⟩ := exists_symbol h hline hd
      exact hbad (hgood L rfl s hs)
    · intro hall
      refine ⟨?_, ?_⟩
      · rintro L' hL' s hs
        obtain rfl := Option.some.inj hL'
        obtain ⟨k, line, hk, ho⟩ := (mem_scan h s).mp hs
        by_contra hbad
        exact hall L rfl line (List.mem_of_getElem? hk)
          (misnamed_iff.mp ⟨s.name, s.kind, (declared_of_lineOut ho).2, hbad⟩)
      · rintro k line ms name hrust hk hfn s hs hstart
        obtain rfl := Option.some.inj hrust
        obtain ⟨k', line', hk', ho⟩ := (mem_scan h s).mp hs
        obtain ⟨hno, hd⟩ := declared_of_lineOut ho
        have heq : k' = k := by omega
        subst heq
        obtain rfl := Option.some.inj (hk.symm.trans hk')
        exact declared_of_isFn hfn (hall .rust rfl line (List.mem_of_getElem? hk)) hd

/-- The symbol that a `const fn` gets. -/
def constFn : ExtractedSymbol where
  name := "fn".toList
  kind := "const".toList
  signature := some "const fn f()".toList
  startLine := 1
  endLine := 1
  visibility := none
  doc := none

/-- **A `const fn` is taken for a constant** with the name `fn`. -/
theorem not_names_right :
    extract Sample.sample "const fn f()".toList (some "rust".toList) = .ok [constFn] ∧
      ¬NamesRight Sample.sample "const fn f()".toList (some "rust".toList) [constFn] := by
  refine ⟨by decide, fun h => ?_⟩
  have hgood : GoodName .rust constFn.name := h.1 .rust rfl constFn List.mem_cons_self
  exact absurd hgood.2 (by decide)

/-- An `async fn` is found under its name. -/
theorem names_right_asyncFn :
    NamesRight Sample.sample "pub async fn f()".toList (some "rust".toList) [{
      name := "f".toList, kind := "fn".toList, signature := some "pub async fn f()".toList
      startLine := 1, endLine := 1, visibility := some "pub".toList, doc := none }] := by
  refine (names_right_iff Sample.sample _ _ _ (by decide)).mpr fun L hL line hline hbad => ?_
  obtain rfl : L = .rust := (Option.some.inj hL).symm
  have hlines : lines "pub async fn f()".toList = ["pub async fn f()".toList] := by decide
  rw [hlines, List.mem_singleton] at hline
  subst hline
  obtain ⟨name, kind, hd, hname⟩ := misnamed_iff.mpr hbad
  have hf : declared Sample.sample .rust (trim "pub async fn f()".toList) =
      some ("f".toList, "fn".toList) := by decide
  obtain ⟨rfl, -⟩ := Prod.mk.inj (Option.some.inj (hf.symm.trans hd))
  exact hname ⟨by decide, by decide⟩

end BrainEngine.Symbols.Names
