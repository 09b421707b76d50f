import EmevBsp.Library.Calendar

/-!
# `drivers/rtc/date.c`: seconds and dates

`to_tm` takes the years and the months off one by one; its leap years are those that 4 divides,
which is right between 1900 and 2100.  `mktime` has a formula with the months counted from March,
and `GregorianDay` a third one for the day of the week.
-/

namespace EmevBsp
namespace Rtc

open Calendar

/-! ## The functions -/

/-- `struct rtc_time` -/
structure RtcTime where
  tmSec : ℤ
  tmMin : ℤ
  tmHour : ℤ
  tmMday : ℤ
  tmMon : ℤ
  tmYear : ℤ
  tmWday : ℤ
  deriving DecidableEq

abbrev secday : ℤ := 86400

def leapyear (year : ℤ) : Prop := year.tmod 4 = 0

instance (year : ℤ) : Decidable (leapyear year) := inferInstanceAs (Decidable (_ = _))

def daysInYear' (year : ℤ) : ℤ := if leapyear year then 366 else 365

/-- `month_days`, with the entry of February as it is set. -/
def monthDays (february : ℤ) : List ℤ := [31, february, 31, 30, 31, 30, 31, 31, 30, 31, 30, 31]

def monthOffset : List ℤ := [0, 31, 59, 90, 120, 151, 181, 212, 243, 273, 304, 334]

/-- The day of the week that `GregorianDay` sets. -/
def gregorianDay (tm : RtcTime) : RtcTime :=
  let lastYear := tm.tmYear - 1
  let leapsToDate := lastYear.tdiv 4 - lastYear.tdiv 100 + lastYear.tdiv 400
  let day : ℤ :=
    if tm.tmYear.tmod 4 = 0 ∧ (tm.tmYear.tmod 100 ≠ 0 ∨ tm.tmYear.tmod 400 = 0) ∧ 2 < tm.tmMon then
      1
    else 0
  let day := day + (lastYear * 365 + leapsToDate + monthOffset.getD (tm.tmMon - 1).toNat 0 +
    tm.tmMday)
  { tm with tmWday := day.tmod 7 }

/-- The loop over the years, for so many at most. -/
def yearLoop : ℕ → ℤ → ℤ → ℤ × ℤ
  | 0, i, day => (i, day)
  | n + 1, i, day =>
    if daysInYear' i ≤ day then yearLoop n (i + 1) (day - daysInYear' i) else (i, day)

/-- The loop over the months; `none` is a look behind `month_days`. -/
def monthLoop : List ℤ → ℤ → ℤ → Option (ℤ × ℤ)
  | [], _, _ => none
  | d :: ds, i, day => if d ≤ day then monthLoop ds (i + 1) (day - d) else some (i, day)

/-- `to_tm`.  A year takes a day at least, so that there are no more years than days. -/
def toTm (tim : ℤ) : Option RtcTime :=
  let day := tim.tdiv secday
  let hms := tim.tmod secday
  let (year, day) := yearLoop day.toNat 1970 day
  let february := if leapyear year then 29 else 28
  (monthLoop (monthDays february) 1 day).map fun (mon, day) =>
    gregorianDay
      { tmSec := (hms.tmod 3600).tmod 60
        tmMin := (hms.tmod 3600).tdiv 60
        tmHour := hms.tdiv 3600
        tmMday := day + 1
        tmMon := mon
        tmYear := year
        tmWday := 0 }

def mktime (year mon day hour min sec : BitVec 32) : BitVec 32 :=
  let front := (mon - 2).toInt ≤ 0
  let mon' := if front then mon - 2 + 12 else mon - 2
  let year' := if front then year - 1 else year
  (((year' / 4 - year' / 100 + year' / 400 + 367 * mon' / 12 + day + year' * 365 - 719499) * 24 +
    hour) * 60 + min) * 60 + sec

/-- `mktime` of the fields of a time, as the clock drivers call it. -/
def RtcTime.mktime (tm : RtcTime) : BitVec 32 :=
  Rtc.mktime (.ofInt 32 tm.tmYear) (.ofInt 32 tm.tmMon) (.ofInt 32 tm.tmMday)
    (.ofInt 32 tm.tmHour) (.ofInt 32 tm.tmMin) (.ofInt 32 tm.tmSec)

/-! ## Moments -/

/-- A date and a time of the day, from 1970 on. -/
structure Moment where
  date : Date
  hour : ℕ
  min : ℕ
  sec : ℕ
  year_ge : 1970 ≤ date.year
  hour_lt : hour < 24
  min_lt : min < 60
  sec_lt : sec < 60

namespace Moment

/-- The days since 1970. -/
def days (m : Moment) : ℕ := dayNumber m.date - 719528

/-- The seconds since 1970. -/
def seconds (m : Moment) : ℕ := ((m.days * 24 + m.hour) * 60 + m.min) * 60 + m.sec

/-- The fields, with the day of the week. -/
def fields (m : Moment) : RtcTime where
  tmSec := m.sec
  tmMin := m.min
  tmHour := m.hour
  tmMday := m.date.day
  tmMon := m.date.month
  tmYear := m.date.year
  tmWday := weekday (dayNumber m.date)

/-- 1970 began on a Thursday. -/
example : weekday 719528 = 4 := by decide

end Moment

/-! ## The formula of `mktime` -/

/-- The year, counted from March on. -/
def marchYear (d : Date) : ℕ := if d.month ≤ 2 then d.year - 1 else d.year

/-- The month, counted from March on. -/
def marchMonth (d : Date) : ℕ := if d.month ≤ 2 then d.month + 10 else d.month - 2

/-- **The formula of `mktime`.** -/
theorem dayNumber_add_march (d : Date) (hyear : 1 ≤ d.year) :
    dayNumber d + marchYear d / 100 =
      365 * marchYear d + marchYear d / 4 + marchYear d / 400 + 367 * marchMonth d / 12 +
        d.day + 29 := by
  have hday := d.day_pos
  have hpos := d.month_pos
  have hmonth := daysBeforeMonth_eq (y := d.year) d.month_pos d.month_le
  unfold dayNumber marchYear marchMonth
  by_cases hfront : d.month ≤ 2
  · simp only [if_pos hfront] at hmonth ⊢
    obtain ⟨y, hy⟩ := Nat.exists_eq_add_of_le' hyear
    have hto := daysTo_succ y
    have hmarch : 367 * (d.month + 10) / 12 = 31 * (d.month - 1) + 336 := by omega
    rw [hmonth, hmarch, hy, Nat.add_sub_cancel]
    omega
  · simp only [if_neg hfront] at hmonth ⊢
    have hto := daysTo_succ d.year
    have hsucc : daysTo (d.year + 1) = daysTo d.year + daysInYear d.year := total_succ _
    unfold daysInYear at hsucc
    rw [hmonth]
    split at hsucc <;> rename_i hleap
    · rw [if_pos hleap]; omega
    · rw [if_neg hleap]; omega

theorem ofNat_div {a c : ℕ} (ha : a < 2 ^ 32) (hc : c < 2 ^ 32) :
    BitVec.ofNat 32 a / BitVec.ofNat 32 c = BitVec.ofNat 32 (a / c) := by
  rw [BitVec.udiv_def, BitVec.toNat_ofNat, BitVec.toNat_ofNat, Nat.mod_eq_of_lt ha,
    Nat.mod_eq_of_lt hc]

theorem mktime_words {y k day hour min sec : ℕ} (hy : y < 2 ^ 32) (hk : k ≤ 12)
    (hge : 719499 ≤ y / 4 - y / 100 + y / 400 + 367 * k / 12 + day + y * 365) :
    (((BitVec.ofNat 32 y / 4 - BitVec.ofNat 32 y / 100 + BitVec.ofNat 32 y / 400 +
      367 * BitVec.ofNat 32 k / 12 + BitVec.ofNat 32 day + BitVec.ofNat 32 y * 365 - 719499) * 24 +
      BitVec.ofNat 32 hour) * 60 + BitVec.ofNat 32 min) * 60 + BitVec.ofNat 32 sec =
    BitVec.ofNat 32 ((((y / 4 - y / 100 + y / 400 + 367 * k / 12 + day + y * 365 - 719499) * 24 +
      hour) * 60 + min) * 60 + sec) := by
  have h4 := ofNat_div (a := y) (c := 4) (by omega) (by omega)
  have h100 := ofNat_div (a := y) (c := 100) (by omega) (by omega)
  have h400 := ofNat_div (a := y) (c := 400) (by omega) (by omega)
  have h12 := ofNat_div (a := 367 * k) (c := 12) (by omega) (by omega)
  have hleaps := BitVec.ofNat_sub_ofNat_of_le (w := 32) (y / 4) (y / 100) (by omega) (by omega)
  have hdays := BitVec.ofNat_sub_ofNat_of_le (w := 32) _ 719499 (by omega) hge
  simp only [BitVec.ofNat_add, BitVec.ofNat_mul] at *
  rw [← hdays, ← hleaps, ← h4, ← h100, ← h400, ← h12]
  rfl

theorem ofNat_marchMonth (d : Date) :
    (if (BitVec.ofNat 32 d.month - 2).toInt ≤ 0 then BitVec.ofNat 32 d.month - 2 + 12
      else BitVec.ofNat 32 d.month - 2) = BitVec.ofNat 32 (marchMonth d) := by
  have hge := d.month_pos
  have hle := d.month_le
  unfold marchMonth
  generalize d.month = k at hge hle ⊢
  interval_cases k <;> decide

theorem ofNat_marchYear (d : Date) (hpos : 1 ≤ d.year) :
    (if (BitVec.ofNat 32 d.month - 2).toInt ≤ 0 then BitVec.ofNat 32 d.year - 1
      else BitVec.ofNat 32 d.year) = BitVec.ofNat 32 (marchYear d) := by
  have hfront : (BitVec.ofNat 32 d.month - 2).toInt ≤ 0 ↔ d.month ≤ 2 := by
    have hge := d.month_pos
    have hle := d.month_le
    generalize d.month = k at hge hle ⊢
    interval_cases k <;> decide
  unfold marchYear
  simp only [hfront]
  split
  · exact BitVec.ofNat_sub_ofNat_of_le d.year 1 (by omega) hpos
  · rfl

/-- **`mktime`, on a moment.** -/
theorem mktime_fields (m : Moment) (hyear : m.date.year < 2 ^ 32) :
    m.fields.mktime = BitVec.ofNat 32 m.seconds := by
  have hpos := m.date.month_pos
  have hle := m.date.month_le
  have hge := m.year_ge
  have hday := m.date.day_pos
  have hformula := dayNumber_add_march m.date (by omega)
  have hmarch : 1969 ≤ marchYear m.date ∧ marchYear m.date < 2 ^ 32 := by
    unfold marchYear
    split <;> omega
  have hmonth : marchMonth m.date ≤ 12 ∧ (marchYear m.date = 1969 → 11 ≤ marchMonth m.date) := by
    unfold marchMonth marchYear
    split <;> omega
  have hdays : m.days = marchYear m.date / 4 - marchYear m.date / 100 + marchYear m.date / 400 +
      367 * marchMonth m.date / 12 + m.date.day + marchYear m.date * 365 - 719499 := by
    unfold Moment.days
    omega
  unfold Moment.seconds RtcTime.mktime Moment.fields
  simp only [BitVec.ofInt_natCast]
  rw [hdays, ← mktime_words hmarch.2 hmonth.1 (by omega), ← ofNat_marchMonth,
    ← ofNat_marchYear _ (by omega)]
  rfl

/-! ## The loops of `to_tm` -/

theorem leapyear_natCast {y : ℕ} (hge : 1970 ≤ y) (hlt : y < 2100) : leapyear y ↔ IsLeap y := by
  unfold leapyear IsLeap
  rw [Int.tmod_eq_emod_of_nonneg (Int.natCast_nonneg y)]
  omega

theorem daysInYear'_natCast {y : ℕ} (hge : 1970 ≤ y) (hlt : y < 2100) :
    daysInYear' y = Calendar.daysInYear y := by
  unfold daysInYear' Calendar.daysInYear
  simp only [leapyear_natCast hge hlt]
  split <;> rfl

theorem yearLoop_eq {n i y r : ℕ} (hge : 1970 ≤ i) (hle : i ≤ y) (hlt : y < 2100)
    (hr : r < Calendar.daysInYear y) (hn : y ≤ i + n) :
    yearLoop n i (daysTo y + r - daysTo i : ℤ) = ((y : ℤ), (r : ℤ)) := by
  induction n generalizing i with
  | zero =>
    obtain rfl : i = y := by omega
    rw [yearLoop, add_sub_cancel_left]
  | succ n ih =>
    rw [yearLoop, daysInYear'_natCast hge (by omega)]
    obtain rfl | hlater := Nat.eq_or_lt_of_le hle
    · rw [add_sub_cancel_left, if_neg (by omega)]
    · have hsucc : daysTo (i + 1) = daysTo i + Calendar.daysInYear i := total_succ i
      have hmono : daysTo (i + 1) ≤ daysTo y := total_mono hlater
      rw [if_pos (by omega), ← ih (i := i + 1) (by omega) hlater (by omega)]
      congr 1
      omega

theorem monthLoop_eq {l : List ℕ} {k r : ℕ} (hr : r < l.getD k 0) (i : ℤ) :
    monthLoop (l.map Nat.cast) i ((l.take k).sum + r : ℕ) = some (i + k, (r : ℤ)) := by
  induction k generalizing l i with
  | zero =>
    obtain _ | ⟨d, l⟩ := l
    · exact absurd hr (Nat.not_lt_zero r)
    · rw [List.getD_cons_zero] at hr
      simp [monthLoop, hr]
  | succ k ih =>
    obtain _ | ⟨d, l⟩ := l
    · exact absurd hr (Nat.not_lt_zero r)
    · rw [List.getD_cons_succ] at hr
      rw [List.map_cons, monthLoop, List.take_succ_cons, List.sum_cons, if_pos (by omega)]
      have hrest : ((d + (l.take k).sum + r : ℕ) : ℤ) - d = ((l.take k).sum + r : ℕ) := by omega
      rw [hrest, ih hr, Nat.cast_succ, add_assoc, add_comm (1 : ℤ)]

theorem daysBeforeMonth_eq_offset {y m : ℕ} (hpos : 1 ≤ m) (hle : m ≤ 12) :
    (daysBeforeMonth y m : ℤ) =
      monthOffset.getD ((m : ℤ) - 1).toNat 0 + if IsLeap y ∧ 2 < m then 1 else 0 := by
  unfold daysBeforeMonth
  by_cases hleap : IsLeap y
  all_goals
    interval_cases m <;> simp [monthLengths, monthOffset, hleap]

theorem gregorianDay_eq (m : Moment) (tm : RtcTime) (hyear : tm.tmYear = m.date.year)
    (hmon : tm.tmMon = m.date.month) (hday : tm.tmMday = m.date.day) :
    gregorianDay tm = { tm with tmWday := weekday (dayNumber m.date) } := by
  have hge := m.year_ge
  have hpos := m.date.day_pos
  obtain ⟨y, hy⟩ := Nat.exists_eq_add_of_le' (m := 1) (n := m.date.year) (by omega)
  have hto := daysTo_succ y
  have hoffset := daysBeforeMonth_eq_offset (y := m.date.year) m.date.month_pos m.date.month_le
  have hlast : tm.tmYear - 1 = (y : ℤ) := by omega
  have hleap : tm.tmYear.tmod 4 = 0 ∧ (tm.tmYear.tmod 100 ≠ 0 ∨ tm.tmYear.tmod 400 = 0) ∧
      2 < tm.tmMon ↔ IsLeap m.date.year ∧ 2 < m.date.month := by
    simp only [Int.tmod_eq_emod_of_nonneg (show 0 ≤ tm.tmYear by omega)]
    unfold IsLeap
    omega
  have hnonneg : 0 ≤ monthOffset.getD ((m.date.month : ℤ) - 1).toNat 0 := by
    have := m.date.month_pos
    have := m.date.month_le
    generalize m.date.month = k at *
    interval_cases k <;> decide
  unfold gregorianDay weekday dayNumber
  simp only [hleap]
  simp only [hlast, hmon, hday, Int.tdiv_eq_ediv_of_nonneg (Int.natCast_nonneg y)]
  congr 1
  rw [hy] at hoffset ⊢
  split at hoffset <;> rename_i hlate
  · rw [if_pos hlate, Int.tmod_eq_emod_of_nonneg (by omega)]
    omega
  · rw [if_neg hlate, Int.tmod_eq_emod_of_nonneg (by omega)]
    omega

theorem yearLoop_days (m : Moment) (hlt : m.date.year < 2100) :
    yearLoop (m.days : ℤ).toNat 1970 m.days = ((m.date.year : ℤ),
      ((daysBeforeMonth m.date.year m.date.month + (m.date.day - 1) : ℕ) : ℤ)) := by
  have hge := m.year_ge
  have hday := m.date.day_pos
  have hinYear := daysBeforeMonth_add_le m.date
  have hmono : daysTo 1970 ≤ daysTo m.date.year := total_mono hge
  have hlast := daysTo_succ (m.date.year - 1)
  rw [Nat.sub_add_cancel (by omega)] at hlast
  have hfirst : daysTo 1970 + 1969 / 100 = 365 * 1970 + 1969 / 4 + 1969 / 400 + 1 :=
    daysTo_succ 1969
  have hloop := fun n => yearLoop_eq (n := n) (i := 1970) le_rfl hge hlt
    (show daysBeforeMonth m.date.year m.date.month + (m.date.day - 1) < _ by omega)
  have hsince : dayNumber m.date = m.days + 719528 := by
    unfold Moment.days dayNumber
    omega
  -- numbers that the kernel would count up to
  generalize daysTo 1970 = first at hmono hloop hfirst
  generalize m.days = n at hsince ⊢
  unfold dayNumber at hsince
  rw [Int.toNat_natCast, ← hloop n (by omega), Nat.cast_ofNat]
  congr 1
  omega

theorem monthLoop_day (d : Date) :
    monthLoop ((monthLengths (IsLeap d.year)).map Nat.cast) 1
      (daysBeforeMonth d.year d.month + (d.day - 1) : ℕ) =
      some ((d.month : ℤ), ((d.day - 1 : ℕ) : ℤ)) := by
  have hpos := d.month_pos
  have hday := d.day_pos
  have hle := d.day_le
  unfold daysInMonth at hle
  have hloop := monthLoop_eq (l := monthLengths (IsLeap d.year)) (k := d.month - 1)
    (r := d.day - 1) (by omega) 1
  rwa [show 1 + ((d.month - 1 : ℕ) : ℤ) = d.month by omega] at hloop

theorem tdiv_secday {d r : ℕ} (hr : r < 86400) :
    ((d * 86400 + r : ℕ) : ℤ).tdiv secday = d ∧ ((d * 86400 + r : ℕ) : ℤ).tmod secday = r := by
  rw [Int.tdiv_eq_ediv_of_nonneg (Int.natCast_nonneg _),
    Int.tmod_eq_emod_of_nonneg (Int.natCast_nonneg _)]
  unfold secday
  omega

theorem hms_eq {h m s : ℕ} (hm : m < 60) (hs : s < 60) :
    (((h * 60 + m) * 60 + s : ℕ) : ℤ).tdiv 3600 = h ∧
      ((((h * 60 + m) * 60 + s : ℕ) : ℤ).tmod 3600).tdiv 60 = m ∧
      ((((h * 60 + m) * 60 + s : ℕ) : ℤ).tmod 3600).tmod 60 = s := by
  rw [Int.tdiv_eq_ediv_of_nonneg (Int.natCast_nonneg _),
    Int.tmod_eq_emod_of_nonneg (Int.natCast_nonneg _),
    Int.tdiv_eq_ediv_of_nonneg (by omega), Int.tmod_eq_emod_of_nonneg (by omega)]
  omega

theorem seconds_eq (m : Moment) :
    m.seconds = m.days * 86400 + ((m.hour * 60 + m.min) * 60 + m.sec) := by
  unfold Moment.seconds
  generalize m.days = n
  omega

theorem toTm_of {tim day hms year rest mon mday : ℤ} (hday : tim.tdiv secday = day)
    (hhms : tim.tmod secday = hms) (hyear : yearLoop day.toNat 1970 day = (year, rest))
    (hmon : monthLoop (monthDays (if leapyear year then 29 else 28)) 1 rest = some (mon, mday)) :
    toTm tim = some (gregorianDay
      { tmSec := (hms.tmod 3600).tmod 60
        tmMin := (hms.tmod 3600).tdiv 60
        tmHour := hms.tdiv 3600
        tmMday := mday + 1
        tmMon := mon
        tmYear := year
        tmWday := 0 }) := by
  subst hday hhms
  unfold toTm
  simp only [hyear, hmon, Option.map_some]

/-- **`to_tm`, on a moment.** -/
theorem toTm_seconds (m : Moment) (hlt : m.date.year < 2100) :
    toTm m.seconds = some m.fields := by
  have hpos := m.date.day_pos
  have hhour := m.hour_lt
  have hmin := m.min_lt
  have hsec := m.sec_lt
  have hmonths : monthDays (if leapyear m.date.year then 29 else 28) =
      (monthLengths (IsLeap m.date.year)).map Nat.cast := by
    simp only [leapyear_natCast m.year_ge hlt]
    by_cases hleap : IsLeap m.date.year <;> simp [monthDays, monthLengths, hleap]
  have hdays := tdiv_secday (d := m.days)
    (show (m.hour * 60 + m.min) * 60 + m.sec < 86400 by omega)
  have hmon := monthLoop_day m.date
  rw [← hmonths] at hmon
  obtain ⟨hh, hm, hs⟩ := hms_eq (h := m.hour) hmin hsec
  rw [seconds_eq, toTm_of hdays.1 hdays.2 (yearLoop_days m hlt) hmon, hh, hm, hs,
    gregorianDay_eq m _ rfl rfl (by dsimp only; omega), Nat.cast_sub hpos, Nat.cast_one,
    sub_add_cancel]
  rfl


/-! ## The inverse -/

theorem Moment.year_lt (m : Moment) (hlt : m.seconds < 2 ^ 31) : m.date.year < 2039 := by
  by_contra hlate
  have hmono : daysTo 2039 ≤ daysTo m.date.year := total_mono (not_lt.mp hlate)
  have hfirst : daysTo 2039 + 2038 / 100 = 365 * 2039 + 2038 / 4 + 2038 / 400 + 1 :=
    daysTo_succ 2038
  have hsince : dayNumber m.date ≤ m.days + 719528 := by
    unfold Moment.days
    omega
  rw [seconds_eq] at hlt
  generalize daysTo 2039 = first at hmono hfirst
  generalize m.days = n at hsince hlt
  unfold dayNumber at hsince
  omega

theorem year_ge_of_dayNumber {d : Date} (hge : 719528 ≤ dayNumber d) : 1970 ≤ d.year := by
  by_contra hearly
  have hpos := d.day_pos
  have hinYear := daysBeforeMonth_add_le d
  have hsucc : daysTo (d.year + 1) = daysTo d.year + Calendar.daysInYear d.year := total_succ _
  have hmono : daysTo (d.year + 1) ≤ daysTo 1970 := total_mono (not_le.mp hearly)
  have hfirst : daysTo 1970 + 1969 / 100 = 365 * 1970 + 1969 / 4 + 1969 / 400 + 1 :=
    daysTo_succ 1969
  generalize daysTo 1970 = first at hmono hfirst
  unfold dayNumber at hge
  omega

theorem exists_seconds_eq (t : ℕ) : ∃ m : Moment, m.seconds = t := by
  obtain ⟨d, hd⟩ := exists_dayNumber_eq (t / 86400 + 719528)
  have hge : 719528 ≤ dayNumber d := hd ▸ Nat.le_add_left 719528 (t / 86400)
  let m : Moment := ⟨d, t % 86400 / 3600, t % 3600 / 60, t % 60, year_ge_of_dayNumber hge,
    by omega, by omega, by omega⟩
  have hdays : m.days = t / 86400 := Nat.sub_eq_of_eq_add hd
  refine ⟨m, ?_⟩
  rw [seconds_eq, hdays]
  dsimp only [m]
  omega

/-- **`to_tm` and `mktime` are inverse to each other.** -/
theorem toTm_mktime_inverse :
    (∀ t : ℤ, 0 ≤ t → t < 2 ^ 31 →
      ∃ m : Moment, toTm t = some m.fields ∧ m.fields.mktime.toNat = t) ∧
    ∀ m : Moment, m.seconds < 2 ^ 31 → toTm m.fields.mktime.toInt = some m.fields := by
  have hmktime : ∀ m : Moment, m.seconds < 2 ^ 31 → m.fields.mktime.toNat = m.seconds := by
    intro m hlt
    have hyear := m.year_lt hlt
    rw [mktime_fields m (by omega), BitVec.toNat_ofNat, Nat.mod_eq_of_lt (by omega)]
  refine ⟨fun t ht hlt => ?_, fun m hlt => ?_⟩
  · obtain ⟨m, hm⟩ := exists_seconds_eq t.toNat
    have hbelow : m.seconds < 2 ^ 31 := by omega
    have hyear := m.year_lt hbelow
    refine ⟨m, ?_, ?_⟩
    · rw [← toTm_seconds m (by omega), hm, Int.toNat_of_nonneg ht]
    · rw [hmktime m hbelow, hm, Int.toNat_of_nonneg ht]
  · have hyear := m.year_lt hlt
    rw [BitVec.toInt_eq_toNat_of_lt (by rw [hmktime m hlt]; omega), hmktime m hlt,
      toTm_seconds m (by omega)]

end Rtc
end EmevBsp
