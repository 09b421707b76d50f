import Mathlib.Algebra.BigOperators.Group.Finset.Basic
import Mathlib.Algebra.Order.BigOperators.Group.Finset
import Mathlib.Data.List.GetD
import Mathlib.Tactic.IntervalCases

/-!
# The Gregorian calendar

A time line is cut into stages of given lengths: years into months, months into days.  Each moment
lies in one stage, at one place in it.  A date is counted by the days of the years, the months and
the days before it, and the count has a closed form.

* `exists_total_add`: the stage of a moment.
* `Date`: a date that there is; `dayNumber` counts the days before it.
* `exists_dayNumber_eq`: each day has a date.
* `daysTo_succ`, `daysBeforeMonth_eq`: the closed forms.
-/

namespace EmevBsp
namespace Calendar

/-! ## Stages -/

section Stages

variable {len : ℕ → ℕ}

/-- The length of the first `n` stages. -/
def total (len : ℕ → ℕ) (n : ℕ) : ℕ := ∑ k ∈ Finset.range n, len k

@[simp] theorem total_zero : total len 0 = 0 := Finset.sum_range_zero len

theorem total_succ (n : ℕ) : total len (n + 1) = total len n + len n :=
  Finset.sum_range_succ len n

theorem exists_total_add (hpos : ∀ n, 0 < len n) (x : ℕ) :
    ∃ n r, x = total len n + r ∧ r < len n := by
  induction x with
  | zero => exact ⟨0, 0, rfl, hpos 0⟩
  | succ x ih =>
    obtain ⟨n, r, hx, hr⟩ := ih
    by_cases hlast : r + 1 < len n
    · exact ⟨n, r + 1, by omega, hlast⟩
    · exact ⟨n + 1, 0, by rw [total_succ]; omega, hpos (n + 1)⟩

theorem exists_take_sum {l : List ℕ} {x : ℕ} (h : x < l.sum) :
    ∃ i r, x = (l.take i).sum + r ∧ r < l.getD i 0 := by
  induction l generalizing x with
  | nil => exact absurd h (Nat.not_lt_zero x)
  | cons a l ih =>
    rw [List.sum_cons] at h
    by_cases hfirst : x < a
    · exact ⟨0, x, (Nat.zero_add x).symm, hfirst⟩
    · obtain ⟨i, r, hx, hr⟩ := ih (x := x - a) (by omega)
      refine ⟨i + 1, r, ?_, hr⟩
      rw [List.take_succ_cons, List.sum_cons]
      omega

theorem total_mono : Monotone (total len) := fun _ _ h =>
  Finset.sum_le_sum_of_subset (Finset.range_mono h)

end Stages

/-! ## Years and months -/

/-- The Gregorian leap rule. -/
def IsLeap (y : ℕ) : Prop := y % 4 = 0 ∧ (y % 100 ≠ 0 ∨ y % 400 = 0)

instance (y : ℕ) : Decidable (IsLeap y) := inferInstanceAs (Decidable (_ ∧ _))

def daysInYear (y : ℕ) : ℕ := if IsLeap y then 366 else 365

/-- The lengths of the months. -/
def monthLengths (leap : Prop) [Decidable leap] : List ℕ :=
  [31, if leap then 29 else 28, 31, 30, 31, 30, 31, 31, 30, 31, 30, 31]

/-- The length of a month, from 1 on. -/
def daysInMonth (y m : ℕ) : ℕ := (monthLengths (IsLeap y)).getD (m - 1) 0

/-- The days before a year, from year 0 on. -/
def daysTo (y : ℕ) : ℕ := total daysInYear y

/-- The days of the year before a month. -/
def daysBeforeMonth (y m : ℕ) : ℕ := ((monthLengths (IsLeap y)).take (m - 1)).sum

/-- A date of the Gregorian calendar. -/
structure Date where
  year : ℕ
  month : ℕ
  day : ℕ
  month_pos : 1 ≤ month
  month_le : month ≤ 12
  day_pos : 1 ≤ day
  day_le : day ≤ daysInMonth year month

/-- The days before a date. -/
def dayNumber (d : Date) : ℕ := daysTo d.year + daysBeforeMonth d.year d.month + (d.day - 1)

/-- The day of the week, from Sunday on. -/
def weekday (n : ℕ) : ℕ := (n + 6) % 7

/-! ## Closed forms -/

variable {y m : ℕ}

theorem daysTo_succ (y : ℕ) : daysTo (y + 1) + y / 100 = 365 * (y + 1) + y / 4 + y / 400 + 1 := by
  induction y with
  | zero => decide
  | succ y ih =>
    rw [daysTo, total_succ, ← daysTo, daysInYear]
    split <;> rename_i hleap <;> unfold IsLeap at hleap <;> omega

theorem daysBeforeMonth_eq (hpos : 1 ≤ m) (hle : m ≤ 12) :
    daysBeforeMonth y m = if m ≤ 2 then 31 * (m - 1) else
      (367 * (m - 2)) / 12 + if IsLeap y then 30 else 29 := by
  unfold daysBeforeMonth
  by_cases hleap : IsLeap y
  all_goals
    interval_cases m <;> simp [monthLengths, hleap]

theorem daysBeforeMonth_add_le (d : Date) :
    daysBeforeMonth d.year d.month + d.day ≤ daysInYear d.year := by
  obtain ⟨y, m, d, hpos, hle, -, hday⟩ := d
  unfold daysInMonth at hday
  unfold daysBeforeMonth daysInYear
  by_cases hleap : IsLeap y
  all_goals
    interval_cases m <;> simp [monthLengths, hleap] at hday ⊢ <;> omega

/-! ## Each day has a date -/

theorem exists_month {r : ℕ} (hr : r < daysInYear y) :
    ∃ d : Date, d.year = y ∧ r = daysBeforeMonth y d.month + (d.day - 1) := by
  have hsum : (monthLengths (IsLeap y)).sum = daysInYear y := by
    unfold daysInYear
    by_cases hleap : IsLeap y <;> simp [monthLengths, hleap]
  obtain ⟨i, s, hi, hs⟩ := exists_take_sum (hsum ▸ hr)
  have hlen : i < 12 := by
    by_contra hle
    rw [List.getD_eq_default _ _ (not_lt.mp hle)] at hs
    exact Nat.not_lt_zero s hs
  exact ⟨⟨y, i + 1, s + 1, by omega, by omega, by omega, hs⟩, rfl, hi⟩

theorem exists_dayNumber_eq (n : ℕ) : ∃ d : Date, dayNumber d = n := by
  have hpos : ∀ y, 0 < daysInYear y := fun y => by
    unfold daysInYear
    split <;> omega
  obtain ⟨y, r, hn, hr⟩ := exists_total_add hpos n
  obtain ⟨d, hyear, hday⟩ := exists_month hr
  refine ⟨d, ?_⟩
  rw [dayNumber, hyear, hn, hday, daysTo, Nat.add_assoc]

end Calendar
end EmevBsp
