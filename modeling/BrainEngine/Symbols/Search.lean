import BrainEngine.Core.SymbolSearch
import Mathlib.Data.List.Infix

/-! # Symbol search and wildcards

The name that is searched for becomes a part of a `LIKE` pattern as it is. Every name that contains it
matches the pattern (`like_of_contains`), and where it has no `%` and no `_`, no other does
(`like_iff_contains`); a `_` of the name matches any character. -/

namespace BrainEngine.Symbols.Search

open BrainEngine.Rust.Str BrainEngine.Lib.Ranked BrainEngine.Core.Database
open BrainEngine.Core.SymbolSearch

/-! ### An exact search -/

/-- The name contains the text, but for the case of ASCII letters. -/
def Contains (name text : Text) : Prop := toAsciiLowercase text <:+: toAsciiLowercase name

/-- `Contains` as a test. -/
def hasText (name text : Text) : Bool :=
  (toAsciiLowercase name).tails.any (toAsciiLowercase text).isPrefixOf

theorem hasText_iff {name text : Text} : hasText name text = true ↔ Contains name text := by
  unfold hasText Contains
  rw [List.any_eq_true, List.infix_iff_prefix_suffix]
  constructor
  · rintro ⟨t, ht, hpre⟩
    exact ⟨t, List.isPrefixOf_iff_prefix.mp hpre, (List.mem_tails _ _).mp ht⟩
  · rintro ⟨t, hpre, ht⟩
    exact ⟨t, (List.mem_tails _ _).mpr ht, List.isPrefixOf_iff_prefix.mpr hpre⟩

/-- The name has the text, if one is given. -/
def contains (text : Option Text) (r : SymbolRecord) : Bool :=
  match text with
  | some n => hasText r.name n
  | none => true

def ofKind (kind : Option Text) (r : SymbolRecord) : Bool :=
  match kind with
  | some k => decide (r.kind = k)
  | none => true

/-- The rows with the given text in their names and with the given kind. -/
def wanted (db : Db) (name kind : Option Text) : List SymbolRecord :=
  (joined db).filter fun r => contains name r && ofKind kind r

/-- First the rows with exactly the given name, then by file and line. -/
def exactKey (name : Option Text) (r : SymbolRecord) : ℕ ×ₗ (Text ×ₗ ℕ) :=
  toLex (if name = some r.name then 0 else 1, location r)

/-- The first rows of the wanted ones. -/
def ExactSearch (db : Db) (name kind : Option Text) (limit : ℕ) (result : List SymbolRecord) : Prop :=
  Selects (exactKey name) (wanted db name kind) (clampLimit limit) result

/-! ### Patterns -/

/-- A wildcard of `LIKE`. -/
def isWildcard (c : Char) : Bool := c = '%' || c = '_'

theorem like_percent {pattern s : Text} :
    like ('%' :: pattern) s = true ↔ ∃ front back, s = front ++ back ∧ like pattern back = true := by
  have htails : like ('%' :: pattern) s = s.tails.any (like pattern) := by
    simp only [like, if_true]
  rw [htails, List.any_eq_true]
  constructor
  · rintro ⟨back, hback, h⟩
    obtain ⟨front, rfl⟩ := (List.mem_tails _ _).mp hback
    exact ⟨front, back, rfl, h⟩
  · rintro ⟨front, back, rfl, h⟩
    exact ⟨back, (List.mem_tails _ _).mpr (List.suffix_append _ _), h⟩

theorem like_end (s : Text) : like ['%'] s = true :=
  like_percent.mpr ⟨s, [], (List.append_nil s).symm, rfl⟩

theorem like_of_same_letters : ∀ {n m : Text} (back : Text), toAsciiLowercase n = toAsciiLowercase m →
    like (n ++ ['%']) (m ++ back) = true
  | [], [], back, _ => like_end back
  | c :: n, d :: m, back, h => by
    obtain ⟨hc, h⟩ := List.cons.inj h
    have ih := like_of_same_letters back h
    by_cases hp : c = '%'
    · subst hp
      exact like_percent.mpr ⟨[d], m ++ back, rfl, ih⟩
    · have heq : (c.toLower == d.toLower) = true := beq_iff_eq.mpr hc
      simp only [List.cons_append, like, if_neg hp, heq, ih, Bool.or_true, Bool.and_self]

/-- A pattern without wildcards matches nothing else. -/
theorem same_letters_of_like : ∀ {n s : Text}, (∀ c ∈ n, isWildcard c = false) →
    like (n ++ ['%']) s = true → ∃ m back, s = m ++ back ∧ toAsciiLowercase n = toAsciiLowercase m
  | [], s, _, _ => ⟨[], s, rfl, rfl⟩
  | c :: n, s, hn, h => by
    have hc := hn c List.mem_cons_self
    simp only [isWildcard, Bool.or_eq_false_iff, decide_eq_false_iff_not] at hc
    cases s with
    | nil => simp only [List.cons_append, like, if_neg hc.1, Bool.false_eq_true] at h
    | cons d s =>
      simp only [List.cons_append, like, if_neg hc.1, decide_eq_false hc.2, Bool.false_or,
        Bool.and_eq_true, beq_iff_eq] at h
      obtain ⟨m, back, rfl, hm⟩ := same_letters_of_like (fun c hc => hn c (List.mem_cons_of_mem _ hc)) h.2
      exact ⟨d :: m, back, rfl, List.cons_eq_cons.mpr ⟨h.1, hm⟩⟩

theorem contains_iff {name n : Text} :
    Contains name n ↔ ∃ front m back, name = front ++ (m ++ back) ∧ toAsciiLowercase n = toAsciiLowercase m := by
  unfold Contains toAsciiLowercase
  constructor
  · rintro ⟨a, c, h⟩
    rw [List.append_assoc] at h
    obtain ⟨front, rest, rfl, -, hrest⟩ := List.map_eq_append_iff.mp h.symm
    obtain ⟨m, back, rfl, hm, -⟩ := List.map_eq_append_iff.mp hrest
    exact ⟨front, m, back, rfl, hm.symm⟩
  · rintro ⟨front, m, back, rfl, h⟩
    rw [h, List.map_append, List.map_append]
    exact List.infix_append' _ _ _

/-- **Every name that contains the text matches**, also where the text has wildcards. -/
theorem like_of_contains {name n : Text} (h : Contains name n) : like ('%' :: n ++ ['%']) name = true := by
  obtain ⟨front, m, back, rfl, hm⟩ := contains_iff.mp h
  exact like_percent.mpr ⟨front, m ++ back, rfl, like_of_same_letters back hm⟩

/-- **Without wildcards** the names that match are those that contain the text. -/
theorem like_iff_contains {name n : Text} (hn : ∀ c ∈ n, isWildcard c = false) :
    like ('%' :: n ++ ['%']) name = true ↔ Contains name n := by
  refine ⟨fun h => ?_, like_of_contains⟩
  obtain ⟨front, back, rfl, hback⟩ := like_percent.mp h
  obtain ⟨m, rest, rfl, hm⟩ := same_letters_of_like hn hback
  exact contains_iff.mpr ⟨front, m, rest, rfl, hm⟩

/-! ### The query and the exact search -/

theorem wanted_eq (db : Db) (name kind : Option Text) :
    wanted db name kind = (candidates db name kind).filter (contains name) := by
  unfold wanted candidates
  rw [List.filter_filter]
  refine List.filter_congr fun r _ => ?_
  have hclauses : clauses name kind r = ((match name with
      | some n => decide (r.name = n) || like ('%' :: n ++ ['%']) r.name
      | none => true) && ofKind kind r) := by
    unfold clauses ofKind
    cases kind with
    | none => rfl
    | some k => rfl
  rw [hclauses, ← Bool.and_assoc]
  congr 1
  cases name with
  | none => rfl
  | some n =>
    cases hn : hasText r.name n with
    | true =>
      simp only [contains, hn, like_of_contains (hasText_iff.mp hn), Bool.or_true, Bool.and_self]
    | false => simp only [contains, hn, Bool.false_and]

/-- Where the answer to a query can only be right: with a name, each row that matches without containing
it has as many rows in front as can be returned; without one, a row with an empty name that can be
returned is not behind a row that has a name. -/
def Unspoilt (db : Db) (name kind : Option Text) (limit : ℕ) : Prop :=
  ∀ r ∈ candidates db name kind,
    before (orderKey name) (candidates db name kind) r < clampLimit limit →
      match name with
      | some n => Contains r.name n
      | none => r.name = [] → ∀ r' ∈ candidates db name kind, r'.name ≠ [] → location r ≤ location r'

/-- The order of the query is the exact one, but for rows without a name when none is given. -/
theorem exactKey_le_iff {name : Option Text} {r r' : SymbolRecord}
    (h : orderKey name r ≤ orderKey name r') : exactKey name r ≤ exactKey name r' ↔
      name = none → r.name = [] → r'.name ≠ [] → location r ≤ location r' := by
  unfold orderKey exactKey at *
  cases name with
  | some n =>
    simp only [Option.getD_some, Option.some.injEq, reduceCtorEq, false_implies, iff_true] at h ⊢
    simpa only [eq_comm] using h
  | none =>
    simp only [Option.getD_none, reduceCtorEq, if_false, true_implies, Prod.Lex.toLex_le_toLex,
      lt_self_iff_false, false_or, true_and] at h ⊢
    constructor
    · exact fun hle _ _ => hle
    · intro himp
      rcases h with h | ⟨-, h⟩
      · by_cases hr : r.name = []
        · by_cases hr' : r'.name = []
          · simp [hr, hr'] at h
          · exact himp hr hr'
        · simp only [hr, if_false] at h
          split_ifs at h
          · omega
          · omega
      · exact h

/-- **When symbol search is an exact substring query.** For every table, name, kind and limit: the query
returns the first rows of those that contain the name, whatever order SQLite gives rows that agree in
the keys, exactly if the request is unspoilt. -/
theorem exact_search_iff (db : Db) (name kind : Option Text) (limit : ℕ) :
    (∀ result, Searches db name kind limit result → ExactSearch db name kind limit result) ↔
      Unspoilt db name kind limit := by
  unfold Searches ExactSearch Unspoilt
  rw [wanted_eq, selects_imp_iff]
  refine forall₃_congr fun r hr hbefore => ?_
  cases name with
  | some n =>
    have hkey : ∀ r' ∈ candidates db (some n) kind, contains (some n) r' = true →
        orderKey (some n) r ≤ orderKey (some n) r' → exactKey (some n) r ≤ exactKey (some n) r' :=
      fun r' _ _ hle => (exactKey_le_iff hle).mpr nofun
    rw [and_iff_left hkey]
    exact hasText_iff
  | none =>
    have hcontains : ∀ r, contains none r = true := fun _ => rfl
    rw [and_iff_right (hcontains r)]
    constructor
    · intro h hempty r' hr' hne
      have hle : orderKey none r ≤ orderKey none r' := by
        refine Prod.Lex.toLex_le_toLex.mpr (Or.inl ?_)
        simp [hempty, hne]
      exact (exactKey_le_iff hle).mp (h r' hr' (hcontains r') hle) rfl hempty hne
    · intro h r' hr' _ hle
      exact (exactKey_le_iff hle).mpr fun _ hempty hne => h hempty r' hr' hne

/-- A database with one file and one symbol in it. -/
def oneSymbol (name : String) : Db where
  metaTable := []
  files := .insert .empty {
    path := "a.rs".toList, hash := [], sizeBytes := 0, mtime := 0, lang := some "rust".toList
    chunkCount := 0, indexedAt := 0 }
  chunks := .empty
  symbols := .insert .empty {
    fileId := 1, name := name.toList, kind := "fn".toList, signature := none, startLine := 1
    endLine := 1, visibility := none, doc := none }

/-- **A search for `a_b` finds `axb`**, which does not contain it. -/
theorem not_exact_search :
    ¬∀ (db : Db) (name kind : Option Text) (limit : ℕ) (result : List SymbolRecord),
      Searches db name kind limit result → ExactSearch db name kind limit result := by
  intro h
  have hrows : candidates (oneSymbol "axb") (some "a_b".toList) none =
      joined (oneSymbol "axb") := by decide
  have hwanted : wanted (oneSymbol "axb") (some "a_b".toList) none = [] := by decide
  have hcode : Searches (oneSymbol "axb") (some "a_b".toList) none 20 (joined (oneSymbol "axb")) := by
    unfold Searches
    rw [hrows]
    exact ⟨_, List.Perm.refl _, List.pairwise_singleton _ _, rfl⟩
  obtain ⟨rest, hperm, -⟩ := selects_iff.mp (h _ _ _ _ _ hcode)
  rw [hwanted] at hperm
  have hnil := hperm.eq_nil
  cases hnil

end BrainEngine.Symbols.Search
