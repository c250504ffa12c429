import Mathlib.Algebra.BigOperators.Group.List.Basic
import Mathlib.Tactic.IntervalCases

/-! The Gregorian calendar: leap years, the lengths of months and years, and the
number of days from one date to another. -/
namespace MandelbrotOS.Calendar

/-- Every fourth year, but of the centuries only every fourth. -/
def isLeap (year : Nat) : Bool := year % 4 = 0 && (year % 100 ≠ 0 || year % 400 = 0)

def monthLength (year : Nat) : Nat → Nat
  | 2 => if isLeap year then 29 else 28
  | 4 | 6 | 9 | 11 => 30
  | _ => 31

/-- The days of a year before a month. -/
def daysBefore (year month : Nat) : Nat := ((List.range' 1 (month - 1)).map (monthLength year)).sum

def yearLength (year : Nat) : Nat := daysBefore year 13

/-- The days of the years from the epoch on, up to a year. -/
def yearDays (epoch year : Nat) : Nat := ((List.range' epoch (year - epoch)).map yearLength).sum

/-- The days from the first of January of the epoch to a date. -/
def daysSince (epoch year month day : Nat) : Nat := yearDays epoch year + daysBefore year month + (day - 1)

theorem yearLength_eq (year : Nat) : yearLength year = if isLeap year then 366 else 365 := by
  simp only [yearLength, daysBefore, Nat.add_one_sub_one, List.range', List.map_cons, List.map_nil, monthLength,
    List.sum_cons, List.sum_nil]
  split <;> rfl

@[simp] theorem yearDays_self (epoch : Nat) : yearDays epoch epoch = 0 := by
  rw [yearDays, Nat.sub_self]
  rfl

theorem yearDays_succ (later : epoch ≤ year) :
    yearDays epoch (year + 1) = yearDays epoch year + yearLength year := by
  simp_all [yearDays, Nat.succ_sub, List.range'_concat]

theorem yearDays_unique {count : Nat → Int} (step : ∀ year, epoch ≤ year → count (year + 1) = count year + yearLength year)
    (later : epoch ≤ year) : count year - count epoch = yearDays epoch year := by
  induction year, later using Nat.le_induction with
  | base => simp
  | succ year later ih =>
    grind [yearDays_succ]

theorem isLeap_iff (year : Nat) : isLeap year = true ↔ year % 4 = 0 ∧ (year % 100 ≠ 0 ∨ year % 400 = 0) := by
  simp [isLeap]

/-- A date of the calendar. -/
structure IsDate (year month day : Nat) : Prop where
  inYear : 1 ≤ month ∧ month ≤ 12
  inMonth : 1 ≤ day ∧ day ≤ monthLength year month

end MandelbrotOS.Calendar
