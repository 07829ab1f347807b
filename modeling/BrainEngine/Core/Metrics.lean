import BrainEngine.Rust.I64
import BrainEngine.Rust.Str

/-! # The timestamps of the log

The helpers of the metrics that turn seconds since 1970 into text. There is no result where the arithmetic of
`i64` overflows. -/

namespace BrainEngine.Core.Metrics

open BrainEngine.Rust.Str BrainEngine.Rust.I64

/-- A number in a format such as `{n:04}`. -/
def padded (width n : ℕ) : Text := (ofNat n).leftpad width '0'

/-- Days since 1970-01-01 as year, month and day. -/
def daysToYmd (days : ℕ) : Option (ℕ × ℕ × ℕ) := do
  let jd ← add (ofU64 days) 2440588
  let l ← add jd 68569
  let n ← div (← mul 4 l) 146097
  let l ← sub l (← div (← add (← mul 146097 n) 3) 4)
  let i ← div (← mul 4000 (← add l 1)) 1461001
  let l ← add (← sub l (← div (← mul 1461 i) 4)) 31
  let j ← div (← mul 80 l) 2447
  let day ← sub l (← div (← mul 2447 j) 80)
  let l ← div j 11
  let month ← sub (← add j 2) (← mul 12 l)
  let year ← add (← add (← mul 100 (← sub n 49)) i) l
  return (asU32 year, asU32 month, asU32 day)

/-- `YYYY-MM-DD` -/
def dateText (year month day : ℕ) : Text :=
  padded 4 year ++ '-' :: padded 2 month ++ '-' :: padded 2 day

/-- The ISO-8601 timestamp of a number of seconds. -/
def iso8601 (secs : ℤ) : Option Text := do
  let s := asU64 secs
  let secsOfDay := s % 86400
  let days := s / 86400
  let (year, month, day) ← daysToYmd days
  let hh := secsOfDay / 3600
  let mm := secsOfDay % 3600 / 60
  let ss := secsOfDay % 60
  return dateText year month day ++ 'T' :: padded 2 hh ++ ':' :: padded 2 mm ++ ':' :: padded 2 ss ++ ['Z']

/-- The name of the log of the day, where the clock gives `secs`. -/
def todayLabel (secs : ℤ) : Option Text := do
  let days := asU64 secs / 86400
  let (y, m, d) ← daysToYmd days
  return dateText y m d

example : iso8601 1781308800 = some "2026-06-13T00:00:00Z".toList := by decide

end BrainEngine.Core.Metrics
