import Mathlib.Algebra.Ring.Nat
import Mathlib.Data.Prod.Lex
import Mathlib.Order.Cover
import Mathlib.Order.Monotone.Basic
import Mathlib.Tactic.Common

/-! # The Gregorian calendar

The dates of the proleptic Gregorian calendar in their order. `next` is the date after a date: it is later,
and no date is between the two (`covBy_next`). The date some days after another one is later the more days
they are (`strictMono_after`). -/

namespace BrainEngine.Lib.Calendar

/-- Every fourth year, except for the centuries that 400 does not divide. -/
def IsLeap (y : ℕ) : Prop := y % 4 = 0 ∧ (y % 100 ≠ 0 ∨ y % 400 = 0)

instance (y : ℕ) : Decidable (IsLeap y) := by
  unfold IsLeap; infer_instance

/-- The number of days of a month. -/
def monthLength (y : ℕ) : ℕ → ℕ
  | 2 => if IsLeap y then 29 else 28
  | 4 | 6 | 9 | 11 => 30
  | _ => 31

theorem one_lt_monthLength (y m : ℕ) : 1 < monthLength y m := by
  unfold monthLength
  split
  · split_ifs <;> omega
  all_goals omega

theorem monthLength_le (y m : ℕ) : monthLength y m ≤ 31 := by
  unfold monthLength
  split
  · split_ifs <;> omega
  all_goals omega

/-- A date of the calendar. -/
@[ext] structure Date where
  year : ℕ
  month : ℕ
  day : ℕ
  month_pos : 1 ≤ month
  month_le : month ≤ 12
  day_pos : 1 ≤ day
  day_le : day ≤ monthLength year month
  deriving DecidableEq

namespace Date

variable {d e : Date}

instance : LinearOrder Date :=
  LinearOrder.lift' (fun d => toLex (d.year, toLex (d.month, d.day))) fun d e h => by
    have h := toLex.injective h
    have hmd := toLex.injective (Prod.mk.inj h).2
    exact Date.ext (Prod.mk.inj h).1 (Prod.mk.inj hmd).1 (Prod.mk.inj hmd).2

/-- **The earlier date** has the smaller year, or month, or day. -/
theorem lt_iff : d < e ↔ d.year < e.year ∨ d.year = e.year ∧
    (d.month < e.month ∨ d.month = e.month ∧ d.day < e.day) := by
  have h : d < e ↔ toLex (d.year, toLex (d.month, d.day)) < toLex (e.year, toLex (e.month, e.day)) := Iff.rfl
  rw [h, Prod.Lex.toLex_lt_toLex]
  simp only [Prod.Lex.toLex_lt_toLex]

theorem year_le (h : d ≤ e) : d.year ≤ e.year := by
  rw [← not_lt, lt_iff] at h
  omega

/-- The date after `d`. -/
def next (d : Date) : Date :=
  if h : d.day < monthLength d.year d.month then
    { d with day := d.day + 1, day_pos := by omega, day_le := h }
  else if h' : d.month < 12 then
    { year := d.year, month := d.month + 1, day := 1
      month_pos := by omega, month_le := h', day_pos := le_rfl
      day_le := (one_lt_monthLength _ _).le }
  else
    { year := d.year + 1, month := 1, day := 1
      month_pos := le_rfl, month_le := by omega, day_pos := le_rfl
      day_le := (one_lt_monthLength _ _).le }

/-- What `next` does to the parts of a date. -/
theorem next_cases (d : Date) :
    (d.day < monthLength d.year d.month ∧ d.next.year = d.year ∧ d.next.month = d.month ∧
      d.next.day = d.day + 1) ∨
    (d.day = monthLength d.year d.month ∧ d.month < 12 ∧ d.next.year = d.year ∧
      d.next.month = d.month + 1 ∧ d.next.day = 1) ∨
    d.day = monthLength d.year d.month ∧ d.month = 12 ∧ d.next.year = d.year + 1 ∧
      d.next.month = 1 ∧ d.next.day = 1 := by
  have hday := d.day_le
  have hmonth := d.month_le
  unfold next
  split_ifs with h h'
  · exact Or.inl ⟨h, rfl, rfl, rfl⟩
  · exact Or.inr (Or.inl ⟨by omega, h', rfl, rfl, rfl⟩)
  · exact Or.inr (Or.inr ⟨by omega, by omega, rfl, rfl, rfl⟩)

/-- **The next date** is the earliest of the later ones. -/
theorem next_le_iff : d.next ≤ e ↔ d < e := by
  have hday : e.year = d.year → e.month = d.month → e.day ≤ monthLength d.year d.month := by
    intro hy hm
    rw [← hy, ← hm]
    exact e.day_le
  have hpos := e.month_pos
  have hle := e.month_le
  have hday_pos := e.day_pos
  rw [← not_lt, lt_iff, lt_iff]
  rcases next_cases d with ⟨h, hy, hm, hd⟩ | ⟨h, hlt, hy, hm, hd⟩ | ⟨h, h12, hy, hm, hd⟩
  · rw [hy, hm, hd]
    omega
  · rw [hy, hm, hd]
    omega
  · rw [hy, hm, hd]
    omega

theorem lt_next (d : Date) : d < d.next := next_le_iff.mp le_rfl

theorem covBy_next (d : Date) : d ⋖ d.next := ⟨lt_next d, fun _ h h' => (next_le_iff.mpr h).not_gt h'⟩

/-- The date `n` days after `d`. -/
def after (d : Date) (n : ℕ) : Date := next^[n] d

theorem after_succ (d : Date) (n : ℕ) : d.after (n + 1) = (d.after n).next :=
  Function.iterate_succ_apply' next n d

theorem year_after_le (d : Date) : ∀ n, (d.after n).year ≤ d.year + n
  | 0 => le_rfl
  | n + 1 => by
    have ih := d.year_after_le n
    rw [after_succ]
    rcases next_cases (d.after n) with ⟨-, hy, -⟩ | ⟨-, -, hy, -⟩ | ⟨-, -, hy, -⟩
    · omega
    · omega
    · omega

theorem strictMono_after (d : Date) : StrictMono d.after := strictMono_nat_of_lt_succ fun n => by
  rw [after_succ]
  exact lt_next _

end Date

end BrainEngine.Lib.Calendar
