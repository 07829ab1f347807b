import BrainEngine.Metrics.Dates
import Mathlib.Data.List.Lex

/-! # The order of the timestamps

The numbers in a timestamp have a fixed width, so that the order of the texts is the order of the numbers,
one after the other (`padded_lt`). -/

namespace BrainEngine.Metrics.Stamps

open BrainEngine.Rust.Str BrainEngine.Rust.I64 BrainEngine.Core.Metrics BrainEngine.Lib.Calendar
open BrainEngine.Metrics.Dates

/-! ### Numbers of a fixed width -/

variable {k m n : ℕ}

theorem padded_one (h : n < 10) : padded 1 n = [n.digitChar] := by
  unfold padded ofNat
  rw [Nat.toDigits_of_lt_base h]
  rfl

/-- **The last digit** of a number in a fixed width. -/
theorem padded_succ (k n : ℕ) : padded (k + 2) n = padded (k + 1) (n / 10) ++ [(n % 10).digitChar] := by
  unfold padded ofNat
  rcases Nat.lt_or_ge n 10 with h | h
  · have hdiv : n / 10 = 0 := by omega
    have hmod : n % 10 = n := by omega
    rw [hdiv, hmod, Nat.toDigits_zero, Nat.toDigits_of_lt_base h]
    simp [List.leftpad, List.replicate_succ', List.append_assoc]
  · rw [Nat.toDigits_of_base_le (by omega) h]
    simp [List.leftpad, List.append_assoc]

theorem length_padded : ∀ {k n : ℕ}, n < 10 ^ (k + 1) → (padded (k + 1) n).length = k + 1
  | 0, n, h => by
    rw [padded_one (by omega)]
    rfl
  | k + 1, n, h => by
    have hdiv : n / 10 < 10 ^ (k + 1) := by
      rw [Nat.div_lt_iff_lt_mul (by omega)]
      exact h
    rw [padded_succ, List.length_append, length_padded hdiv]
    rfl

/-- **Less in front**, for texts of the same length. -/
theorem append_lt_append : ∀ {a b : Text} {x y : Text}, a.length = b.length → a < b → a ++ x < b ++ y
  | [], [], _, _, _, h => absurd h (lt_irrefl _)
  | c :: a, d :: b, x, y, hlen, h => by
    rw [List.cons_append, List.cons_append, List.cons_lt_cons_iff]
    rcases List.cons_lt_cons_iff.mp h with hlt | ⟨rfl, hlt⟩
    · exact Or.inl hlt
    · exact Or.inr ⟨rfl, append_lt_append (Nat.succ.inj hlen) hlt⟩

theorem digitChar_lt {a b : ℕ} (h : a < b) (hb : b < 10) : a.digitChar < b.digitChar := by
  interval_cases b
  all_goals
    interval_cases a
    all_goals decide

/-- **Numbers of a fixed width** are in the order of their texts. -/
theorem padded_lt : ∀ {k m n : ℕ}, m < n → n < 10 ^ (k + 1) → padded (k + 1) m < padded (k + 1) n
  | 0, m, n, h, hn => by
    have hdigit := digitChar_lt h (by omega)
    rw [padded_one (by omega), padded_one (by omega)]
    exact List.cons_lt_cons_iff.mpr (Or.inl hdigit)
  | k + 1, m, n, h, hn => by
    have hdiv : n / 10 < 10 ^ (k + 1) := by
      rw [Nat.div_lt_iff_lt_mul (by omega)]
      exact hn
    rw [padded_succ, padded_succ]
    rcases Nat.lt_or_ge (m / 10) (n / 10) with hlt | hge
    · refine append_lt_append ?_ (padded_lt hlt hdiv)
      rw [length_padded (hlt.trans hdiv), length_padded hdiv]
    · have heq : m / 10 = n / 10 := by omega
      have hdigit : (m % 10).digitChar < (n % 10).digitChar := digitChar_lt (by omega) (by omega)
      rw [heq]
      exact List.append_left_lt (List.cons_lt_cons_iff.mpr (Or.inl hdigit))

theorem field_lt {x y : Text} (hn : n < 10 ^ (k + 1)) (c : Char) (h : m < n ∨ m = n ∧ x < y) :
    padded (k + 1) m ++ c :: x < padded (k + 1) n ++ c :: y := by
  rcases h with hlt | ⟨rfl, hlt⟩
  · refine append_lt_append ?_ (padded_lt hlt hn)
    rw [length_padded (hlt.trans hn), length_padded hn]
  · exact List.append_left_lt (List.cons_lt_cons_iff.mpr (Or.inr ⟨rfl, hlt⟩))

/-! ### Timestamps -/

/-- The time of a second of the day. -/
def clock (s : ℕ) : Text :=
  padded 2 (s / 3600) ++ ':' :: (padded 2 (s % 3600 / 60) ++ ':' :: (padded 2 (s % 60) ++ 'Z' :: []))

theorem clock_lt {s s' : ℕ} (h : s < s') (hs : s' < 86400) : clock s < clock s' := by
  have hhours : s' / 3600 < 10 ^ 2 := by omega
  have hminutes : s' % 3600 / 60 < 10 ^ 2 := by omega
  have hseconds : s' % 60 < 10 ^ 2 := by omega
  have hlt : s / 3600 < s' / 3600 ∨ s / 3600 = s' / 3600 ∧ (s % 3600 / 60 < s' % 3600 / 60 ∨
      s % 3600 / 60 = s' % 3600 / 60 ∧ s % 60 < s' % 60) := by omega
  unfold clock
  rcases hlt with h | ⟨heq, h | ⟨heq', h⟩⟩
  · exact field_lt hhours _ (Or.inl h)
  · exact field_lt hhours _ (Or.inr ⟨heq, field_lt hminutes _ (Or.inl h)⟩)
  · have hsec := field_lt (x := []) (y := []) hseconds 'Z' (Or.inl h)
    exact field_lt hhours _ (Or.inr ⟨heq, field_lt hminutes _ (Or.inr ⟨heq', hsec⟩)⟩)

/-- The timestamp of a date and a second of the day. -/
def stamp (d : Date) (s : ℕ) : Text :=
  padded 4 d.year ++ '-' :: (padded 2 d.month ++ '-' :: (padded 2 d.day ++ 'T' :: clock s))

/-- **Later timestamps** are greater. -/
theorem stamp_lt {d d' : Date} {s s' : ℕ} (h : d < d' ∨ d = d' ∧ s < s') (hyear : d'.year ≤ 9999)
    (hs : s' < 86400) : stamp d s < stamp d' s' := by
  have hmonths := d'.month_le
  have hdays : d'.day ≤ 31 := d'.day_le.trans (monthLength_le _ _)
  have hy : d'.year < 10 ^ 4 := by omega
  have hm : d'.month < 10 ^ 2 := by omega
  have hd : d'.day < 10 ^ 2 := by omega
  unfold stamp
  rcases h with h | ⟨rfl, h⟩
  · rcases Date.lt_iff.mp h with h | ⟨heq, h | ⟨heq', h⟩⟩
    · exact field_lt hy _ (Or.inl h)
    · exact field_lt hy _ (Or.inr ⟨heq, field_lt hm _ (Or.inl h)⟩)
    · exact field_lt hy _ (Or.inr ⟨heq, field_lt hm _ (Or.inr ⟨heq', field_lt hd _ (Or.inl h)⟩)⟩)
  · have htime := clock_lt h hs
    exact field_lt hy _ (Or.inr ⟨rfl, field_lt hm _ (Or.inr ⟨rfl, field_lt hd _ (Or.inr ⟨rfl, htime⟩)⟩)⟩)

section
variable {secs secs' : ℤ}

/-- **The timestamp** of a number of seconds whose year fits. -/
theorem iso8601_eq (h : 0 ≤ secs) (hyear : (dateOf secs).year < 2 ^ 32) (hsecs : InI64 secs) :
    iso8601 secs = some (stamp (dateOf secs) (secs % 86400).toNat) := by
  have hs : asU64 secs = secs.toNat := asU64_of_mem h hsecs.2
  have hdays : secs.toNat / 86400 = (secs / 86400).toNat := by omega
  have hmod : secs.toNat % 86400 = (secs % 86400).toNat := by omega
  have hymd : daysToYmd (secs / 86400).toNat = some (ymd (dateOf secs)) := daysToYmd_after hyear
  unfold iso8601 stamp clock
  dsimp only
  rw [hs, hdays, hmod, hymd]
  simp only [ymd, dateText, Option.bind_eq_bind, Option.bind_some, Option.pure_def, List.append_assoc,
    List.cons_append]

/-- The name of a log is the date in the timestamps of its day. -/
theorem todayLabel_isPrefix {text : Text} (h : iso8601 secs = some text) :
    ∃ label, todayLabel secs = some label ∧ label <+: text := by
  unfold iso8601 at h
  unfold todayLabel
  dsimp only at h ⊢
  cases hymd : daysToYmd (asU64 secs / 86400) with
  | none =>
    rw [hymd] at h
    cases h
  | some d =>
    rw [hymd] at h
    cases h
    exact ⟨_, rfl, by simp only [List.append_assoc]; exact List.prefix_append _ _⟩

theorem dateOf_lt (h : 0 ≤ secs) (hlt : secs < secs') :
    dateOf secs < dateOf secs' ∨ dateOf secs = dateOf secs' ∧ secs % 86400 < secs' % 86400 := by
  unfold dateOf
  rcases lt_or_ge (secs / 86400) (secs' / 86400) with hdays | hdays
  · exact Or.inl (Date.strictMono_after epoch (by omega))
  · have heq : secs / 86400 = secs' / 86400 := by omega
    rw [heq]
    exact Or.inr ⟨rfl, by omega⟩

/-- **Later seconds** have greater timestamps. -/
theorem iso8601_lt (h : 0 ≤ secs) (hlt : secs < secs') (hsecs : InI64 secs')
    (hyear : (dateOf secs').year ≤ 9999) :
    ∃ text text', iso8601 secs = some text ∧ iso8601 secs' = some text' ∧ text < text' := by
  have hdate := dateOf_lt h hlt
  have hle : (dateOf secs).year ≤ (dateOf secs').year :=
    Date.year_le (hdate.elim (fun h => h.le) fun h => h.1.le)
  have hin : InI64 secs := ⟨by omega, hlt.trans hsecs.2⟩
  refine ⟨_, _, iso8601_eq h (by omega) hin, iso8601_eq (by omega) (by omega) hsecs, ?_⟩
  refine stamp_lt (hdate.imp_right fun h => ⟨h.1, ?_⟩) hyear (by omega)
  have hmod := h.2
  omega

end

/-- **The dates of the log are right.** For every day whose year fits, the conversion neither overflows nor
gives any date but the one that many days after 1970-01-01; the dates of consecutive days follow each other;
there is a timestamp for every second; and later seconds have greater timestamps up to the year 9999. -/
theorem timestamps_gregorian :
    (∀ (days : ℕ) (d : Date), (epoch.after days).year < 2 ^ 32 →
      (daysToYmd days = some (ymd d) ↔ epoch.after days = d)) ∧
    (∀ days : ℕ, (epoch.after (days + 1)).year < 2 ^ 32 → ∃ d d' : Date,
      daysToYmd days = some (ymd d) ∧ daysToYmd (days + 1) = some (ymd d') ∧ d' = d.next ∧ d ⋖ d') ∧
    (∀ secs : ℤ, 0 ≤ secs → InI64 secs → (dateOf secs).year < 2 ^ 32 → ∃ text, iso8601 secs = some text) ∧
    ∀ secs secs' : ℤ, 0 ≤ secs → secs < secs' → InI64 secs' → (dateOf secs').year ≤ 9999 →
      ∃ text text', iso8601 secs = some text ∧ iso8601 secs' = some text' ∧ text < text' := by
  refine ⟨fun days d hyear => ?_, fun days hyear => ?_, fun secs h hsecs hyear => ?_, fun _ _ h => ?_⟩
  · rw [daysToYmd_after hyear, Option.some.injEq]
    exact ymd_injective.eq_iff
  · have hnext := epoch.after_succ days
    have hlt : (epoch.after days).year < 2 ^ 32 :=
      (Date.year_le (epoch.strictMono_after days.lt_add_one).le).trans_lt hyear
    refine ⟨_, _, daysToYmd_after hlt, daysToYmd_after hyear, hnext, ?_⟩
    rw [hnext]
    exact Date.covBy_next _
  · exact ⟨_, iso8601_eq h hyear hsecs⟩
  · exact iso8601_lt h

/-- The day behind a leap day, with the years 2000, which is one, and 2100, which is none, before it. -/
theorem timestamps_gregorian_march2104 : ymd (epoch.after 49002) = (2104, 3, 1) ∧ ∃ text text',
    iso8601 (49002 * 86400 - 1) = some text ∧ iso8601 (49002 * 86400) = some text' ∧ text < text' := by
  obtain ⟨hymd, -, -, hlt⟩ := timestamps_gregorian
  have hyear : (epoch.after 49002).year < 2 ^ 32 := (epoch.year_after_le 49002).trans_lt (by decide)
  have hdays : daysToYmd 49002 = some (2104, 3, 1) := by decide
  have hdate : ymd (epoch.after 49002) = (2104, 3, 1) :=
    Option.some.inj (((hymd _ _ hyear).mpr rfl).symm.trans hdays)
  have hof : dateOf (49002 * 86400) = epoch.after 49002 := by
    rw [dateOf, Int.mul_ediv_cancel 49002 (by decide)]
    rfl
  refine ⟨hdate, hlt _ _ (by decide) (by decide) (by decide) ?_⟩
  rw [hof, (Prod.mk.inj hdate).1]
  decide

end BrainEngine.Metrics.Stamps
