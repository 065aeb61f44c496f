import Mathlib.Data.Int.Basic
import Mathlib.Tactic.IntervalCases

/-!
# The proleptic Gregorian calendar

Days are numbered from 1970-01-01, before it with negative numbers. The date of
a day and the day of a date are inverse to each other, and dates and weekdays
recur within fixed spans of days.

## Implementation notes

The months before a given one are counted as if February had thirty days, at
the slope 367/12, with a correction from March on. Both directions are then
linear up to rounding.
-/

namespace Calendar

structure Date where
  year : Int
  month : Int
  day : Int
  deriving DecidableEq, Repr

def IsLeap (y : Int) : Prop := 4 ∣ y ∧ (¬ 100 ∣ y ∨ 400 ∣ y)

instance : DecidablePred IsLeap := fun _ => inferInstanceAs (Decidable (_ ∧ _))

def monthLength (y m : Int) : Int :=
  if m = 2 then if IsLeap y then 29 else 28
  else if m = 4 ∨ m = 6 ∨ m = 9 ∨ m = 11 then 30
  else 31

/-- A date of the calendar. -/
structure Date.Valid (d : Date) : Prop where
  month_pos : 1 ≤ d.month
  month_le : d.month ≤ 12
  day_pos : 1 ≤ d.day
  day_le : d.day ≤ monthLength d.year d.month

/-- The number of the first of January. -/
def yearStart (y : Int) : Int :=
  365 * (y - 1) + (y - 1) / 4 - (y - 1) / 100 + (y - 1) / 400 - 719162

/-- How much shorter than thirty days February is, from March on. -/
def shortage (y : Int) : Int := if IsLeap y then 1 else 2

/-- The days of the year before the month. -/
def monthStart (y m : Int) : Int :=
  (367 * m - 362) / 12 - if m ≤ 2 then 0 else shortage y

/-- The number of a date. -/
def Date.dayNumber (d : Date) : Int := yearStart d.year + monthStart d.year d.month + d.day - 1

/-- The year of a day: the cycles of 400 years, the centuries, the cycles of
four years and the years before it. -/
def yearOf (day : Int) : Int :=
  let n := day + 719162
  let century := min 3 (n % 146097 / 36524)
  let inCentury := n % 146097 - 36524 * century
  let year := min 3 (inCentury % 1461 / 365)
  400 * (n / 146097) + 100 * century + 4 * (inCentury / 1461) + year + 1

/-- The month of the `n`-th day of a year, counted from zero. -/
def monthOf (y n : Int) : Int :=
  (12 * (n + if n < monthStart y 3 then 0 else shortage y) + 373) / 367

/-- The date of a day. -/
def civil (day : Int) : Date :=
  let y := yearOf day
  let m := monthOf y (day - yearStart y)
  ⟨y, m, day - yearStart y - monthStart y m + 1⟩

/-- The weekday of a day, from Sunday; the first of January 1970 is a Thursday. -/
def weekday (day : Int) : Int := (day + 4) % 7

section Years

variable {y z day : Int}

theorem yearStart_succ (y : Int) :
    yearStart (y + 1) = yearStart y + if IsLeap y then 366 else 365 := by
  unfold yearStart IsLeap
  split_ifs with hleap
  · omega
  · omega

theorem yearStart_bounds (y : Int) :
    yearStart y + 365 ≤ yearStart (y + 1) ∧ yearStart (y + 1) ≤ yearStart y + 366 := by
  rw [yearStart_succ]
  split_ifs
  · omega
  · omega

theorem yearStart_mono (h : y ≤ z) : yearStart y ≤ yearStart z := by
  unfold yearStart
  omega

/-- The first of January by the cycles before it. -/
theorem yearStart_cycles {q century cycle year : Int} (hcentury : 0 ≤ century ∧ century ≤ 3)
    (hcycle : 0 ≤ cycle ∧ cycle ≤ 24) (hyear : 0 ≤ year ∧ year ≤ 3) :
    yearStart (400 * q + 100 * century + 4 * cycle + year + 1) =
      146097 * q + 36524 * century + 1461 * cycle + 365 * year - 719162 := by
  unfold yearStart
  omega

/-- A day by the cycles before its year and the days before it in its year. -/
theorem yearOf_cycles (day : Int) : ∃ q century cycle year rest : Int,
    yearOf day = 400 * q + 100 * century + 4 * cycle + year + 1 ∧
    (0 ≤ century ∧ century ≤ 3) ∧ (0 ≤ cycle ∧ cycle ≤ 24) ∧ (0 ≤ year ∧ year ≤ 3) ∧
    day = 146097 * q + 36524 * century + 1461 * cycle + 365 * year - 719162 + rest ∧
    0 ≤ rest ∧ rest ≤ 365 ∧ (rest = 365 → year = 3 ∧ (cycle = 24 → century = 3)) := by
  let century := min 3 ((day + 719162) % 146097 / 36524)
  let inCentury := (day + 719162) % 146097 - 36524 * century
  have hcentury : (0 ≤ century ∧ century ≤ 3) ∧ 0 ≤ inCentury ∧ inCentury ≤ 36524 ∧
      (inCentury = 36524 → century = 3) := by omega
  obtain ⟨hbounds, hlow, hhigh, hlast⟩ := hcentury
  refine ⟨(day + 719162) / 146097, century, inCentury / 1461, min 3 (inCentury % 1461 / 365),
    inCentury % 1461 - 365 * min 3 (inCentury % 1461 / 365), rfl, hbounds, by omega, by omega,
    by omega, by omega, by omega, ?_⟩
  intro hrest
  exact ⟨by omega, by omega⟩

/-- A day lies in its year. -/
theorem yearOf_spec (day : Int) :
    yearStart (yearOf day) ≤ day ∧ day < yearStart (yearOf day + 1) := by
  obtain ⟨q, century, cycle, year, rest, hyearOf, hcentury, hcycle, hyear, hday, hlow, hhigh,
    hlast⟩ := yearOf_cycles day
  rw [yearStart_succ, hyearOf, yearStart_cycles hcentury hcycle hyear]
  refine ⟨by omega, ?_⟩
  split_ifs with hleap
  · omega
  · unfold IsLeap at hleap
    omega

theorem yearOf_eq (hle : yearStart y ≤ day) (hlt : day < yearStart (y + 1)) : yearOf day = y := by
  obtain ⟨hle', hlt'⟩ := yearOf_spec day
  by_contra hne
  obtain hbefore | hafter := lt_or_gt_of_ne hne
  · have hmono := yearStart_mono (show yearOf day + 1 ≤ y by omega)
    omega
  · have hmono := yearStart_mono (show y + 1 ≤ yearOf day by omega)
    omega

end Years

section Months

variable {y m n : Int}

theorem shortage_bounds (y : Int) : 1 ≤ shortage y ∧ shortage y ≤ 2 := by
  unfold shortage
  split_ifs
  · omega
  · omega

/-- A month starts where the one before it ends. -/
theorem monthStart_succ (hpos : 1 ≤ m) (hle : m ≤ 12) :
    monthStart y (m + 1) = monthStart y m + monthLength y m := by
  unfold monthStart monthLength shortage
  interval_cases m <;> split_ifs <;> omega

theorem monthStart_one (y : Int) : monthStart y 1 = 0 := rfl

/-- The year ends with its twelfth month. -/
theorem monthStart_thirteen (y : Int) :
    monthStart y 13 = yearStart (y + 1) - yearStart y := by
  have hthirteen : ¬ (13 : Int) ≤ 2 := by omega
  rw [yearStart_succ, monthStart, if_neg hthirteen, shortage]
  split_ifs
  · omega
  · omega

theorem monthStart_mono {m' : Int} (h : m ≤ m') : monthStart y m ≤ monthStart y m' := by
  have hshortage := shortage_bounds y
  unfold monthStart
  split_ifs
  · omega
  · omega
  · omega
  · omega

/-- A day lies in its month. -/
theorem monthOf_spec (hn : 0 ≤ n) (hlt : n < monthStart y 13) :
    (1 ≤ monthOf y n ∧ monthOf y n ≤ 12) ∧
      monthStart y (monthOf y n) ≤ n ∧ n < monthStart y (monthOf y n + 1) := by
  have hshortage := shortage_bounds y
  unfold monthStart at hlt
  have hthirteen : ¬ (13 : Int) ≤ 2 := by omega
  have hthree : ¬ (3 : Int) ≤ 2 := by omega
  rw [if_neg hthirteen] at hlt
  unfold monthOf monthStart
  rw [if_neg hthree]
  split_ifs
  all_goals omega

theorem monthOf_eq (hpos : 1 ≤ m) (hm : m ≤ 12) (hle : monthStart y m ≤ n)
    (hlt : n < monthStart y (m + 1)) : monthOf y n = m := by
  have hn : 0 ≤ n := (monthStart_one y ▸ monthStart_mono hpos).trans hle
  have hend : n < monthStart y 13 := hlt.trans_le (monthStart_mono (by omega))
  obtain ⟨_, hle', hlt'⟩ := monthOf_spec hn hend
  by_contra hne
  obtain hbefore | hafter := lt_or_gt_of_ne hne
  · have hmono := monthStart_mono (y := y) (show monthOf y n + 1 ≤ m by omega)
    omega
  · have hmono := monthStart_mono (y := y) (show m + 1 ≤ monthOf y n by omega)
    omega

end Months

section Dates

variable {d : Date} {day : Int}

/-- A date lies in its year. -/
theorem Date.Valid.year_spec (h : d.Valid) :
    yearStart d.year ≤ d.dayNumber ∧ d.dayNumber < yearStart (d.year + 1) := by
  obtain ⟨hpos, hle, hday, hlength⟩ := h
  have hfirst : 0 ≤ monthStart d.year d.month := monthStart_one d.year ▸ monthStart_mono hpos
  have hlast : monthStart d.year (d.month + 1) ≤ monthStart d.year 13 :=
    monthStart_mono (by omega)
  rw [monthStart_succ hpos hle, monthStart_thirteen] at hlast
  unfold Date.dayNumber
  omega

/-- The date of the number of a date. -/
theorem civil_dayNumber (h : d.Valid) : civil d.dayNumber = d := by
  obtain ⟨hfirst, hlast⟩ := h.year_spec
  obtain ⟨hpos, hle, hday, hlength⟩ := h
  have hyear : yearOf d.dayNumber = d.year := yearOf_eq hfirst hlast
  have hn : d.dayNumber - yearStart d.year = monthStart d.year d.month + (d.day - 1) := by
    unfold Date.dayNumber
    omega
  have hmonth : monthOf d.year (d.dayNumber - yearStart d.year) = d.month := by
    apply monthOf_eq hpos hle
    · omega
    · rw [monthStart_succ hpos hle]
      omega
  unfold civil
  simp only [hyear, hmonth]
  congr
  omega

/-- The date of a day is a date of the calendar. -/
theorem civil_valid (day : Int) : (civil day).Valid := by
  obtain ⟨hfirst, hlast⟩ := yearOf_spec day
  have hend := monthStart_thirteen (yearOf day)
  obtain ⟨⟨hpos, hle⟩, hmonth, hnext⟩ :=
    monthOf_spec (y := yearOf day) (n := day - yearStart (yearOf day)) (by omega) (by omega)
  rw [monthStart_succ hpos hle] at hnext
  exact ⟨hpos, hle, by simp only [civil]; omega, by simp only [civil]; omega⟩

end Dates

section Recurrence

variable {first : Int}

theorem monthLength_ge (y m : Int) : 28 ≤ monthLength y m := by
  unfold monthLength
  split_ifs <;> omega

/-- Only the twenty-ninth of February is not a date of every year. -/
theorem le_monthLength {d : Date} (h : d.Valid) (hleap : ¬ (d.month = 2 ∧ d.day = 29)) (y : Int) :
    d.day ≤ monthLength y d.month := by
  have hle := h.day_le
  unfold monthLength at hle ⊢
  split_ifs at hle ⊢ <;> omega

/-- A date other than the leap day recurs in every year. -/
theorem exists_common_date {m k : Int} (hpos : 1 ≤ m) (hle : m ≤ 12) (hk : 1 ≤ k)
    (hlength : ∀ y, k ≤ monthLength y m) (first : Int) :
    ∃ y, first ≤ (Date.mk y m k).dayNumber ∧ (Date.mk y m k).dayNumber < first + 366 := by
  have hspec : ∀ y, yearStart y ≤ (Date.mk y m k).dayNumber ∧
      (Date.mk y m k).dayNumber < yearStart (y + 1) := fun y =>
    Date.Valid.year_spec (d := ⟨y, m, k⟩) ⟨hpos, hle, hk, hlength y⟩
  obtain ⟨hlow, hhigh⟩ := yearOf_spec first
  have hthis := hspec (yearOf first)
  have hbounds := yearStart_bounds (yearOf first)
  by_cases hreached : first ≤ (Date.mk (yearOf first) m k).dayNumber
  · exact ⟨yearOf first, hreached, by omega⟩
  · have hnext := hspec (yearOf first + 1)
    have hspan : (Date.mk (yearOf first + 1) m k).dayNumber ≤
        (Date.mk (yearOf first) m k).dayNumber + 366 := by
      simp only [Date.dayNumber, yearStart_succ, monthStart, shortage]
      split_ifs <;> omega
    exact ⟨yearOf first + 1, by omega, by omega⟩

/-- Between the years 1900 and 2100 the leap day recurs every four years. -/
theorem exists_leap_day (hfirst : (Date.mk 1900 3 1).dayNumber ≤ first)
    (hlast : first ≤ (Date.mk 2096 2 29).dayNumber) :
    ∃ y, IsLeap y ∧ first ≤ (Date.mk y 2 29).dayNumber ∧
      (Date.mk y 2 29).dayNumber < first + 1461 := by
  have hfirst' : -25508 ≤ first := hfirst
  have hlast' : first ≤ 46080 := hlast
  obtain ⟨k, hk⟩ : ∃ k, k = (first + 25508) / 1461 := ⟨_, rfl⟩
  have hday : (Date.mk (4 * k + 1904) 2 29).dayNumber = 1461 * k - 24048 := by
    unfold Date.dayNumber monthStart yearStart
    simp only [le_refl, if_true]
    omega
  refine ⟨4 * k + 1904, ?_, by omega, by omega⟩
  unfold IsLeap
  omega

/-- A weekday recurs in every week. -/
theorem exists_weekday (first day : Int) :
    ∃ day', first ≤ day' ∧ day' < first + 7 ∧ weekday day' = weekday day := by
  refine ⟨first + (day - first) % 7, ?_, ?_, ?_⟩
  · omega
  · omega
  · unfold weekday
    omega

/-- Every date recurs within four years. -/
theorem exists_same_date (day : Int) (hfirst : (Date.mk 1900 3 1).dayNumber ≤ first)
    (hlast : first ≤ (Date.mk 2096 2 29).dayNumber) :
    ∃ day', first ≤ day' ∧ day' < first + 1461 ∧ (civil day').month = (civil day).month ∧
      (civil day').day = (civil day).day := by
  have hvalid := civil_valid day
  by_cases hleap : (civil day).month = 2 ∧ (civil day).day = 29
  · obtain ⟨y, hy, hge, hlt⟩ := exists_leap_day hfirst hlast
    have hcivil : civil (Date.mk y 2 29).dayNumber = ⟨y, 2, 29⟩ := by
      apply civil_dayNumber
      exact ⟨by simp, by simp, by simp, by simp [monthLength, hy]⟩
    exact ⟨_, hge, hlt, by rw [hcivil, hleap.1], by rw [hcivil, hleap.2]⟩
  · have hlength := le_monthLength hvalid hleap
    obtain ⟨y, hge, hlt⟩ := exists_common_date hvalid.month_pos hvalid.month_le hvalid.day_pos
      hlength first
    have hcivil : civil (Date.mk y (civil day).month (civil day).day).dayNumber =
        ⟨y, (civil day).month, (civil day).day⟩ :=
      civil_dayNumber ⟨hvalid.month_pos, hvalid.month_le, hvalid.day_pos, hlength y⟩
    exact ⟨_, hge, by omega, by rw [hcivil], by rw [hcivil]⟩

/-- Every weekday of a month recurs within four years. -/
theorem exists_same_weekday (day first : Int) :
    ∃ day', first ≤ day' ∧ day' < first + 1461 ∧ (civil day').month = (civil day).month ∧
      weekday day' = weekday day := by
  have hvalid := civil_valid day
  have hlength : ∀ y, 1 ≤ monthLength y (civil day).month := fun y =>
    le_trans (by decide) (monthLength_ge y _)
  obtain ⟨y, hge, hlt⟩ := exists_common_date hvalid.month_pos hvalid.month_le le_rfl hlength first
  obtain ⟨day', hge', hlt', hweekday⟩ :=
    exists_weekday (Date.mk y (civil day).month 1).dayNumber day
  have hnumber : (Date.mk y (civil day).month
      (1 + (day' - (Date.mk y (civil day).month 1).dayNumber))).dayNumber = day' := by
    unfold Date.dayNumber
    simp only
    omega
  have hcivil : (civil day').month = (civil day).month := by
    rw [← hnumber, civil_dayNumber]
    have hmonth := monthLength_ge y (civil day).month
    exact ⟨hvalid.month_pos, hvalid.month_le, by simp only; omega, by simp only; omega⟩
  exact ⟨day', by omega, by omega, hcivil, hweekday⟩

end Recurrence

end Calendar
