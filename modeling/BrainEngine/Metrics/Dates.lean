import BrainEngine.Core.Metrics
import BrainEngine.Lib.Calendar
import Mathlib.Tactic.IntervalCases

/-! # The dates of the log

`days_to_ymd` counts the days from the 1st of March of the year -4900, in years that begin with March, so that
a leap day is the last day of its year. `marchDays` is that count for a date; the next date has the next count
(`marchDays_next`), and of the count of a date the divisions of `days_to_ymd` give back its parts. -/

namespace BrainEngine.Metrics.Dates

open BrainEngine.Rust.I64 BrainEngine.Core.Metrics BrainEngine.Lib.Calendar

/-! ### Years that begin with March -/

/-- The year, from -4900 on. -/
def marchYear (d : Date) : ℕ := if d.month ≤ 2 then d.year + 4899 else d.year + 4900

/-- The month: March is the first. -/
def marchMonth (d : Date) : ℕ := if d.month ≤ 2 then d.month + 10 else d.month - 2

/-- The days before a century, a year of the century, and a month of the year; a year begins with 31. -/
def beforeCentury (n : ℕ) : ℕ := (146097 * n + 3) / 4
def beforeYear (i : ℕ) : ℕ := 1461 * i / 4
def beforeMonth (j : ℕ) : ℕ := 2447 * j / 80

/-- The days from the 1st of March of the year -4900. -/
def marchDays (d : Date) : ℕ :=
  beforeCentury (marchYear d / 100) + beforeYear (marchYear d % 100) + beforeMonth (marchMonth d) +
    d.day - 31

variable {d : Date}

theorem marchMonth_mem (d : Date) : 1 ≤ marchMonth d ∧ marchMonth d ≤ 12 := by
  have hpos := d.month_pos
  have hle := d.month_le
  unfold marchMonth
  split_ifs
  · omega
  · omega

theorem le_beforeMonth (d : Date) : 30 ≤ beforeMonth (marchMonth d) := by
  have hmem := marchMonth_mem d
  unfold beforeMonth
  omega

/-- February is the last month of a year. -/
theorem february (h : d.month = 2) : marchMonth d = 12 ∧ marchYear d = d.year + 4899 := by
  unfold marchMonth marchYear
  rw [h]
  exact ⟨rfl, rfl⟩

/-- **The lengths of the months** but of February. -/
theorem beforeMonth_succ (h : d.month ≠ 2) :
    beforeMonth (marchMonth d + 1) = beforeMonth (marchMonth d) + monthLength d.year d.month := by
  have hpos := d.month_pos
  have hle := d.month_le
  unfold marchMonth
  generalize d.month = m at h hpos hle ⊢
  interval_cases m
  · rfl
  · exact absurd rfl h
  all_goals rfl

theorem monthLength_two (y : ℕ) : monthLength y 2 = if IsLeap y then 29 else 28 := rfl

/-- Every fourth century is a day longer. -/
theorem beforeCentury_succ (n : ℕ) :
    beforeCentury (n + 1) = beforeCentury n + if n % 4 = 0 then 36525 else 36524 := by
  obtain ⟨k, r, hr, rfl⟩ : ∃ k r, r < 4 ∧ n = 4 * k + r := ⟨n / 4, n % 4, by omega, by omega⟩
  have hmod : (4 * k + r) % 4 = r := by omega
  unfold beforeCentury
  rw [hmod]
  interval_cases r
  · rw [if_pos rfl]
    omega
  · rw [if_neg (by decide)]
    omega
  · rw [if_neg (by decide)]
    omega
  · rw [if_neg (by decide)]
    omega

/-- Every fourth year of a century is a day longer. -/
theorem beforeYear_succ (i : ℕ) : beforeYear (i + 1) = beforeYear i + if i % 4 = 3 then 366 else 365 := by
  obtain ⟨k, r, hr, rfl⟩ : ∃ k r, r < 4 ∧ i = 4 * k + r := ⟨i / 4, i % 4, by omega, by omega⟩
  have hmod : (4 * k + r) % 4 = r := by omega
  unfold beforeYear
  rw [hmod]
  interval_cases r
  · rw [if_neg (by decide)]
    omega
  · rw [if_neg (by decide)]
    omega
  · rw [if_neg (by decide)]
    omega
  · rw [if_pos rfl]
    omega

/-- **The length of a year** that ends with the February of `y`. -/
theorem before_succ (y : ℕ) :
    beforeCentury ((y + 4900) / 100) + beforeYear ((y + 4900) % 100) =
      beforeCentury ((y + 4899) / 100) + beforeYear ((y + 4899) % 100) + if IsLeap y then 366 else 365 := by
  obtain ⟨n, i, hi, hy⟩ : ∃ n i, i < 100 ∧ y + 4899 = 100 * n + i :=
    ⟨(y + 4899) / 100, (y + 4899) % 100, by omega, by omega⟩
  have hn : (y + 4899) / 100 = n := by omega
  have hi' : (y + 4899) % 100 = i := by omega
  rw [hn, hi']
  by_cases hlast : i = 99
  · -- the year is the last of its century
    subst hlast
    have hsucc : (y + 4900) / 100 = n + 1 := by omega
    have hzero : (y + 4900) % 100 = 0 := by omega
    have hleap : IsLeap y ↔ n % 4 = 0 := by
      unfold IsLeap
      omega
    have hfirst : beforeYear 0 = 0 := rfl
    have hyears : beforeYear 99 = 36159 := rfl
    rw [hsucc, hzero, beforeCentury_succ, hfirst, hyears]
    simp only [hleap]
    split_ifs
    · omega
    · omega
  · have hsame : (y + 4900) / 100 = n := by omega
    have hsucc : (y + 4900) % 100 = i + 1 := by omega
    have hleap : IsLeap y ↔ i % 4 = 3 := by
      unfold IsLeap
      omega
    rw [hsame, hsucc, beforeYear_succ]
    simp only [hleap]
    omega

/-- After the last day of a month but of February, the next month of the same year begins. -/
theorem next_of_last (hlast : d.day = monthLength d.year d.month) (h : d.month ≠ 2) :
    marchYear d.next = marchYear d ∧ marchMonth d.next = marchMonth d + 1 ∧ d.next.day = 1 := by
  have hpos := d.month_pos
  unfold marchYear marchMonth
  rcases d.next_cases with ⟨hlt, -⟩ | ⟨-, -, hy, hm, hd⟩ | ⟨-, h12, hy, hm, hd⟩
  · omega
  · rw [hy, hm]
    refine ⟨?_, ?_, hd⟩
    · split_ifs <;> omega
    · split_ifs <;> omega
  · rw [hy, hm, h12]
    exact ⟨by simp, rfl, hd⟩

/-- **The next date** has the next count. -/
theorem marchDays_next (d : Date) : marchDays d.next = marchDays d + 1 := by
  have hday := d.day_pos
  have hbefore := le_beforeMonth d
  unfold marchDays
  by_cases hlast : d.day = monthLength d.year d.month
  · by_cases h2 : d.month = 2
    · -- the last day of February is the last day of the year
      have hy := before_succ d.year
      have hlen := monthLength_two d.year
      have h12 : beforeMonth 12 = 367 := rfl
      have h1 : beforeMonth 1 = 30 := rfl
      rcases d.next_cases with ⟨hlt, -⟩ | ⟨-, -, hyear, hm, hd⟩ | ⟨-, hdec, -⟩
      · omega
      · unfold marchYear marchMonth
        rw [hyear, hm, hd, hlast, h2, hlen]
        simp only [le_refl, if_true, Nat.reduceAdd, Nat.reduceLeDiff, if_false, Nat.reduceSub, h12, h1]
        split_ifs at hy ⊢
        · omega
        · omega
      · omega
    · obtain ⟨hyear, hm, hd⟩ := next_of_last hlast h2
      have hlen := beforeMonth_succ h2
      rw [hyear, hm, hd, hlen]
      omega
  · rcases d.next_cases with ⟨-, hyear, hm, hd⟩ | ⟨h, -⟩ | ⟨h, -⟩
    · have hy : marchYear d.next = marchYear d := by
        unfold marchYear
        rw [hyear, hm]
      have hj : marchMonth d.next = marchMonth d := by
        unfold marchMonth
        rw [hm]
      rw [hy, hj, hd]
      omega
    · exact absurd h hlast
    · exact absurd h hlast

/-! ### The divisions -/

/-- The day of the year, which begins with 31. -/
def yearDay (d : Date) : ℕ := beforeMonth (marchMonth d) + d.day

theorem yearDay_le (d : Date) : yearDay d ≤ beforeMonth (marchMonth d + 1) := by
  have hday := d.day_le
  unfold yearDay
  by_cases h : d.month = 2
  · have hlen := monthLength_two d.year
    have hmonth := (february h).1
    have h12 : beforeMonth 12 = 367 := rfl
    have h13 : beforeMonth 13 = 397 := rfl
    rw [h] at hday
    rw [hmonth, h12, h13]
    split_ifs at hlen
    · omega
    · omega
  · have hlen := beforeMonth_succ h
    omega

/-- Only the year of a leap day has 366 days. -/
theorem yearDay_lt (d : Date) : yearDay d < 396 ∨ yearDay d = 396 ∧ d.month = 2 ∧ IsLeap d.year := by
  have hle := yearDay_le d
  have hday := d.day_le
  unfold yearDay at hle ⊢
  by_cases h : d.month = 2
  · have hlen := monthLength_two d.year
    have hmonth := (february h).1
    have h12 : beforeMonth 12 = 367 := rfl
    rw [h] at hday
    rw [hmonth, h12]
    by_cases hleap : IsLeap d.year
    · rw [if_pos hleap] at hlen
      rcases Nat.lt_or_ge d.day 29 with hlt | hge
      · exact Or.inl (by omega)
      · exact Or.inr ⟨by omega, h, hleap⟩
    · rw [if_neg hleap] at hlen
      exact Or.inl (by omega)
  · have hmonth : marchMonth d < 12 := by
      have hle := d.month_le
      unfold marchMonth
      split_ifs
      · omega
      · omega
    have hlast : beforeMonth (marchMonth d + 1) ≤ 367 := by
      unfold beforeMonth
      omega
    exact Or.inl (by omega)

theorem marchDays_eq (d : Date) : marchDays d =
    beforeCentury (marchYear d / 100) + (beforeYear (marchYear d % 100) + (yearDay d - 31)) := by
  have hpos := d.day_pos
  have hbefore := le_beforeMonth d
  unfold marchDays yearDay
  omega

/-- **The day of the century** is less than the length of the century. -/
theorem day_lt_century (d : Date) : beforeCentury (marchYear d / 100) +
    (beforeYear (marchYear d % 100) + (yearDay d - 31)) < beforeCentury (marchYear d / 100 + 1) := by
  have hcentury := beforeCentury_succ (marchYear d / 100)
  have hmod : marchYear d % 100 < 100 := Nat.mod_lt _ (by omega)
  have hyears : beforeYear (marchYear d % 100) ≤ 365 * (marchYear d % 100) + 24 := by
    unfold beforeYear
    omega
  rcases yearDay_lt d with h | ⟨h, hmonth, hleap⟩
  · split_ifs at hcentury
    · omega
    · omega
  · have hy := (february hmonth).2
    unfold IsLeap at hleap
    rw [h]
    by_cases hlast : marchYear d % 100 = 99
    · rw [if_pos (by omega)] at hcentury
      omega
    · split_ifs at hcentury
      · omega
      · omega

theorem century_eq (d : Date) : 4 * marchDays d / 146097 = marchYear d / 100 := by
  have hlt := day_lt_century d
  rw [marchDays_eq]
  unfold beforeCentury at hlt ⊢
  omega

theorem year_eq (d : Date) :
    4000 * (beforeYear (marchYear d % 100) + (yearDay d - 31) + 1) / 1461001 = marchYear d % 100 := by
  have hmod : marchYear d % 100 < 100 := Nat.mod_lt _ (by omega)
  have hlt : yearDay d - 31 < 365 ∨ yearDay d - 31 = 365 ∧ marchYear d % 4 = 3 := by
    rcases yearDay_lt d with h | ⟨h, hmonth, hleap⟩
    · omega
    · have hy := (february hmonth).2
      unfold IsLeap at hleap
      omega
  unfold beforeYear
  omega

theorem month_eq (d : Date) : 80 * yearDay d / 2447 = marchMonth d := by
  have hle := yearDay_le d
  have hmem := marchMonth_mem d
  have hpos := d.day_pos
  unfold yearDay beforeMonth at *
  obtain ⟨h1, h12⟩ := hmem
  generalize marchMonth d = j at *
  interval_cases j
  all_goals omega

/-! ### The conversion

The three divisions with remainder, on a number of days `l` that leaves `r`, and what comes after them. -/

section
variable {β : Type} {l n i j r y m : ℤ}

theorem start_step {days : ℕ} (k : ℤ → Option β) (hl : l < 2 ^ 50) (h : days + 2509157 = l) : (do
      let jd ← add (ofU64 days) 2440588
      let l ← add jd 68569
      k l) = k l := by
  have e0 : ofU64 days = days := ofU64_of_lt (by omega)
  have e1 : add days 2440588 = some ((days : ℤ) + 2440588) := add_eq (by unfold InI64; omega) rfl
  have e2 : add ((days : ℤ) + 2440588) 68569 = some l := add_eq (by unfold InI64; omega) (by omega)
  rw [e0, e1, Option.bind_eq_bind, Option.bind_some, e2, Option.bind_some]

theorem century_step (k : ℤ → ℤ → Option β) (hpos : 0 ≤ l) (hl : l < 2 ^ 50) (hn : 4 * l / 146097 = n)
    (hr : l = (146097 * n + 3) / 4 + r) : (do
      let n ← div (← mul 4 l) 146097
      let l ← sub l (← div (← add (← mul 146097 n) 3) 4)
      k n l) = k n r := by
  have e1 : mul 4 l = some (4 * l) := mul_eq (by unfold InI64; omega) rfl
  have e2 : div (4 * l) 146097 = some n := div_eq (by omega) (by omega) (by unfold InI64; omega) hn
  have e3 : mul 146097 n = some (146097 * n) := mul_eq (by unfold InI64; omega) rfl
  have e4 : add (146097 * n) 3 = some (146097 * n + 3) := add_eq (by unfold InI64; omega) rfl
  have e5 : div (146097 * n + 3) 4 = some ((146097 * n + 3) / 4) :=
    div_eq (by omega) (by omega) (by unfold InI64; omega) rfl
  have e6 : sub l ((146097 * n + 3) / 4) = some r := sub_eq (by unfold InI64; omega) (by omega)
  simp only [e1, e2, e3, e4, e5, e6, Option.bind_eq_bind, Option.bind_some]

theorem year_step (k : ℤ → ℤ → Option β) (hpos : 0 ≤ l) (hl : l < 2 ^ 50)
    (hi : 4000 * (l + 1) / 1461001 = i) (hr : l + 31 = 1461 * i / 4 + r) : (do
      let i ← div (← mul 4000 (← add l 1)) 1461001
      let l ← add (← sub l (← div (← mul 1461 i) 4)) 31
      k i l) = k i r := by
  have e1 : add l 1 = some (l + 1) := add_eq (by unfold InI64; omega) rfl
  have e2 : mul 4000 (l + 1) = some (4000 * (l + 1)) := mul_eq (by unfold InI64; omega) rfl
  have e3 : div (4000 * (l + 1)) 1461001 = some i :=
    div_eq (by omega) (by omega) (by unfold InI64; omega) hi
  have e4 : mul 1461 i = some (1461 * i) := mul_eq (by unfold InI64; omega) rfl
  have e5 : div (1461 * i) 4 = some (1461 * i / 4) :=
    div_eq (by omega) (by omega) (by unfold InI64; omega) rfl
  have e6 : sub l (1461 * i / 4) = some (l - 1461 * i / 4) := sub_eq (by unfold InI64; omega) rfl
  have e7 : add (l - 1461 * i / 4) 31 = some r := add_eq (by unfold InI64; omega) (by omega)
  simp only [e1, e2, e3, e4, e5, e6, e7, Option.bind_eq_bind, Option.bind_some]

theorem month_step (k : ℤ → ℤ → Option β) (hpos : 0 ≤ l) (hl : l < 2 ^ 50) (hj : 80 * l / 2447 = j)
    (hr : l = 2447 * j / 80 + r) : (do
      let j ← div (← mul 80 l) 2447
      let day ← sub l (← div (← mul 2447 j) 80)
      k j day) = k j r := by
  have e1 : mul 80 l = some (80 * l) := mul_eq (by unfold InI64; omega) rfl
  have e2 : div (80 * l) 2447 = some j := div_eq (by omega) (by omega) (by unfold InI64; omega) hj
  have e3 : mul 2447 j = some (2447 * j) := mul_eq (by unfold InI64; omega) rfl
  have e4 : div (2447 * j) 80 = some (2447 * j / 80) :=
    div_eq (by omega) (by omega) (by unfold InI64; omega) rfl
  have e5 : sub l (2447 * j / 80) = some r := sub_eq (by unfold InI64; omega) (by omega)
  simp only [e1, e2, e3, e4, e5, Option.bind_eq_bind, Option.bind_some]

/-- The month and the year, from those that begin with March. -/
theorem parts_step (k : ℤ → ℤ → Option β) (hn : 0 ≤ n ∧ n < 2 ^ 50) (hi : 0 ≤ i ∧ i < 2 ^ 50)
    (hj : 0 ≤ j ∧ j < 2 ^ 50) (hy : y + 4900 = 100 * n + i + j / 11) (hm : j + 2 = m + 12 * (j / 11)) : (do
      let l ← div j 11
      let month ← sub (← add j 2) (← mul 12 l)
      let year ← add (← add (← mul 100 (← sub n 49)) i) l
      k month year) = k m y := by
  have e1 : div j 11 = some (j / 11) := div_eq (by omega) (by omega) (by unfold InI64; omega) rfl
  have e2 : add j 2 = some (j + 2) := add_eq (by unfold InI64; omega) rfl
  have e3 : mul 12 (j / 11) = some (12 * (j / 11)) := mul_eq (by unfold InI64; omega) rfl
  have e4 : sub (j + 2) (12 * (j / 11)) = some m := sub_eq (by unfold InI64; omega) (by omega)
  have e5 : sub n 49 = some (n - 49) := sub_eq (by unfold InI64; omega) rfl
  have e6 : mul 100 (n - 49) = some (100 * (n - 49)) := mul_eq (by unfold InI64; omega) rfl
  have e7 : add (100 * (n - 49)) i = some (100 * (n - 49) + i) := add_eq (by unfold InI64; omega) rfl
  have e8 : add (100 * (n - 49) + i) (j / 11) = some y := add_eq (by unfold InI64; omega) (by omega)
  simp only [e1, e2, e3, e4, e5, e6, e7, e8, Option.bind_eq_bind, Option.bind_some]

end

/-- The year and the month of a date, of those that begin with March. -/
theorem marchYear_add (d : Date) : d.year + 4900 = marchYear d + marchMonth d / 11 ∧
    marchMonth d + 2 = d.month + 12 * (marchMonth d / 11) := by
  have hpos := d.month_pos
  have hle := d.month_le
  unfold marchYear marchMonth
  split_ifs
  · omega
  · omega

/-- **The conversion** gives the parts of a date for the days of its count, where the year fits. -/
theorem daysToYmd_eq {days : ℕ} (h : days + 2509157 = marchDays d) (hyear : d.year < 2 ^ 32) :
    daysToYmd days = some (d.year, d.month, d.day) := by
  have hn := century_eq d
  have hi := year_eq d
  have hj := month_eq d
  have hl := marchDays_eq d
  have hmem := marchMonth_mem d
  have hday := yearDay_lt d
  have hdaypos := d.day_pos
  have hdayle := d.day_le
  obtain ⟨hy, hm⟩ := marchYear_add d
  have hs : yearDay d = beforeMonth (marchMonth d) + d.day := rfl
  unfold beforeMonth at hs
  unfold beforeYear at hi hl
  unfold beforeCentury at hl
  have hdays : (days : ℤ) + 2509157 = marchDays d := by omega
  have hdiv : marchYear d = 100 * (marchYear d / 100) + marchYear d % 100 := by omega
  generalize marchDays d = l at *
  generalize marchYear d / 100 = n at *
  generalize marchYear d % 100 = i at *
  generalize marchMonth d = j at *
  generalize yearDay d = s at *
  have hC : (((146097 * n + 3) / 4 : ℕ) : ℤ) = (146097 * n + 3) / 4 := by omega
  have hY : ((1461 * i / 4 : ℕ) : ℤ) = 1461 * i / 4 := by omega
  have hM : ((2447 * j / 80 : ℕ) : ℤ) = 2447 * j / 80 := by omega
  have hi' : 4000 * ((1461 * (i : ℤ) / 4 + (s - 31)) + 1) / 1461001 = i := by omega
  have hj' : 80 * (s : ℤ) / 2447 = j := by omega
  have hlt : (l : ℤ) < 2 ^ 50 := by omega
  calc daysToYmd days = _ := start_step _ hlt hdays
    _ = _ := century_step _ (by omega) hlt (n := n) (r := 1461 * i / 4 + (s - 31)) (by omega) (by omega)
    _ = _ := year_step _ (by omega) (by omega) (r := s) hi' (by omega)
    _ = _ := month_step _ (by omega) (by omega) (r := d.day) hj' (by omega)
    _ = _ := parts_step _ (by omega) (by omega) (by omega) (y := d.year) (m := d.month) (by omega) (by omega)
    _ = some (d.year, d.month, d.day) := by
      rw [asU32_of_mem (by omega) (by omega), asU32_of_mem (by omega) (by omega),
        asU32_of_mem (by omega) (by omega)]
      rfl

/-! ### Days after 1970-01-01 -/

def epoch : Date where
  year := 1970
  month := 1
  day := 1
  month_pos := by decide
  month_le := by decide
  day_pos := by decide
  day_le := by decide

def ymd (d : Date) : ℕ × ℕ × ℕ := (d.year, d.month, d.day)

theorem ymd_injective : Function.Injective ymd := fun d e h => by
  obtain ⟨hy, hmd⟩ := Prod.mk.inj h
  obtain ⟨hm, hd⟩ := Prod.mk.inj hmd
  exact Date.ext hy hm hd

theorem marchDays_after : ∀ n, marchDays (epoch.after n) = n + 2509157
  | 0 => rfl
  | n + 1 => by
    have ih := marchDays_after n
    have hnext := marchDays_next (epoch.after n)
    rw [Date.after_succ]
    omega

/-- **The date of a day**, and no other one. -/
theorem daysToYmd_after {days : ℕ} (hyear : (epoch.after days).year < 2 ^ 32) :
    daysToYmd days = some (ymd (epoch.after days)) := daysToYmd_eq (marchDays_after days).symm hyear

/-- The date of a number of seconds. -/
def dateOf (secs : ℤ) : Date := epoch.after (secs / 86400).toNat

end BrainEngine.Metrics.Dates
