/-
# The Gregorian calendar

Dates from year 0 on, counted by the lengths of years and months: `Date.ordinal` is the number of
days since the first of January of year 0, `Date.dayNumber` since that of 1970.  The order of dates
is the order of their ordinals (`compare_ordinal`), so a date is known by its day.

Two conversions of programs go by years that begin in March, whose months have a closed form:
`dayNumber_eq` takes a date to its day, and `exists_date` finds the date of a day with the year of
the era that its day of the era falls in.
-/
import MavenMcp.Lib.Radix
import Mathlib.Tactic.IntervalCases

namespace Calendar

/-! ## 1. Years and months -/

/-- Years with a 29th of February. -/
def IsLeap (year : Nat) : Prop := year % 4 = 0 ∧ (year % 100 ≠ 0 ∨ year % 400 = 0)

instance : DecidablePred IsLeap := fun year => by unfold IsLeap; infer_instance

def daysInYear (year : Nat) : Nat := if IsLeap year then 366 else 365

def daysInMonth (year month : Nat) : Nat :=
  if month = 2 then if IsLeap year then 29 else 28
  else if month ∈ [4, 6, 9, 11] then 30
  else 31

/-- The days of all years before. -/
def daysBeforeYear : Nat → Nat
  | 0 => 0
  | year + 1 => daysBeforeYear year + daysInYear year

/-- The days of all months of a year before; January is 1. -/
def daysBeforeMonth (year : Nat) : Nat → Nat
  | 0 => 0
  | 1 => 0
  | month + 2 => daysBeforeMonth year (month + 1) + daysInMonth year (month + 1)

theorem daysBeforeYear_eq (year : Nat) :
    daysBeforeYear year
      = 365 * year + (year + 3) / 4 - (year + 99) / 100 + (year + 399) / 400 := by
  induction year with
  | zero => rfl
  | succ year ih =>
    rw [daysBeforeYear, ih, daysInYear]
    split
    next h => obtain ⟨h4, h100⟩ := h; omega
    next h =>
      have hcases : year % 4 ≠ 0 ∨ year % 100 = 0 ∧ year % 400 ≠ 0 := by
        unfold IsLeap at h
        omega
      omega

theorem monotone_daysBeforeYear : Monotone daysBeforeYear :=
  monotone_nat_of_le_succ fun _ => Nat.le_add_right _ _

theorem monotone_daysBeforeMonth (year : Nat) : Monotone (daysBeforeMonth year) := by
  refine monotone_nat_of_le_succ fun month => ?_
  cases month with
  | zero => exact Nat.le_refl _
  | succ month => exact Nat.le_add_right _ _

/-- All months of a year. -/
theorem daysBeforeMonth_thirteen (year : Nat) : daysBeforeMonth year 13 = daysInYear year := by
  by_cases h : IsLeap year
  · simp [daysBeforeMonth, daysInMonth, daysInYear, h]
  · simp [daysBeforeMonth, daysInMonth, daysInYear, h]

/-! ## 2. Dates -/

/-- A day of a month. -/
structure Date where
  year : Nat
  month : Nat
  day : Nat
  month_pos : 0 < month
  month_le : month ≤ 12
  day_pos : 0 < day
  day_le : day ≤ daysInMonth year month

namespace Date

/-- The days of the year before the date. -/
def dayOfYear (date : Date) : Nat := daysBeforeMonth date.year date.month + (date.day - 1)

/-- The days before the date. -/
def ordinal (date : Date) : Nat := daysBeforeYear date.year + date.dayOfYear

/-- The days since the first of January 1970. -/
def dayNumber (date : Date) : Int := date.ordinal - daysBeforeYear 1970

theorem daysBeforeMonth_succ (date : Date) : daysBeforeMonth date.year (date.month + 1)
    = daysBeforeMonth date.year date.month + daysInMonth date.year date.month := by
  obtain ⟨month, hmonth⟩ := Nat.exists_eq_add_of_lt date.month_pos
  rw [show date.month = month + 1 by omega]
  rfl

theorem dayOfYear_lt_next (date : Date) :
    date.dayOfYear < daysBeforeMonth date.year (date.month + 1) := by
  have hday := date.day_le
  have hpos := date.day_pos
  rw [daysBeforeMonth_succ, dayOfYear]
  omega

theorem dayOfYear_lt (date : Date) : date.dayOfYear < daysInYear date.year := by
  rw [← daysBeforeMonth_thirteen]
  exact date.dayOfYear_lt_next.trans_le
    (monotone_daysBeforeMonth _ (Nat.succ_le_succ date.month_le))

/-- **Dates are ordered** as their days are. -/
theorem compare_ordinal (a b : Date) :
    compare a.ordinal b.ordinal
      = (compare a.year b.year).then ((compare a.month b.month).then (compare a.day b.day)) := by
  have hyear : compare a.ordinal b.ordinal
      = (compare a.year b.year).then (compare a.dayOfYear b.dayOfYear) := by
    have h := compare_of_floors monotone_daysBeforeYear (a := a.year) (b := b.year)
      (m := a.ordinal) (n := b.ordinal) (Nat.le_add_right _ _)
      (Nat.add_lt_add_left a.dayOfYear_lt _) (Nat.le_add_right _ _)
      (Nat.add_lt_add_left b.dayOfYear_lt _)
    simpa [ordinal] using h
  rw [hyear]
  by_cases hsame : a.year = b.year
  · rw [Nat.compare_eq_eq.mpr hsame, Ordering.eq_then, Ordering.eq_then]
    have hb : b.dayOfYear = daysBeforeMonth a.year b.month + (b.day - 1) := by
      rw [dayOfYear, hsame]
    have hnext : b.dayOfYear < daysBeforeMonth a.year (b.month + 1) := by
      rw [hsame]
      exact b.dayOfYear_lt_next
    have h := compare_of_floors (monotone_daysBeforeMonth a.year) (a := a.month) (b := b.month)
      (m := a.dayOfYear) (n := b.dayOfYear) (Nat.le_add_right _ _) a.dayOfYear_lt_next
      (hb ▸ Nat.le_add_right _ _) hnext
    rw [h, hb, dayOfYear, Nat.add_sub_cancel_left, Nat.add_sub_cancel_left]
    rw [compare_sub_same a.day_pos b.day_pos]
  · rcases Nat.lt_or_gt_of_ne hsame with h | h
    · rw [Nat.compare_eq_lt.mpr h]
      rfl
    · rw [Nat.compare_eq_gt.mpr h]
      rfl

/-- A date is known by its day. -/
theorem eq_of_ordinal {a b : Date} (h : a.ordinal = b.ordinal) : a = b := by
  have hcompare := compare_ordinal a b
  rw [Nat.compare_eq_eq.mpr h] at hcompare
  obtain ⟨hyear, hrest⟩ := Ordering.then_eq_eq.mp hcompare.symm
  obtain ⟨hmonth, hday⟩ := Ordering.then_eq_eq.mp hrest
  cases a
  cases b
  simp only [Nat.compare_eq_eq] at hyear hmonth hday
  subst hyear hmonth hday
  rfl

end Date

/-! ## 3. Years that begin in March -/

/-- The day of a date, by the years since March. -/
def daysFromCivil (year month day : Int) : Int :=
  let adjustedYear := year - if month ≤ 2 then 1 else 0
  let era := adjustedYear / 400
  let yoe := adjustedYear - era * 400
  let shiftedMonth := month + if 2 < month then -3 else 9
  era * 146097 + yoe * 365 + yoe / 4 - yoe / 100 + (153 * shiftedMonth + 2) / 5 + day - 1 - 719468

/-- The days of the years of an era before this one. -/
def daysBeforeYearOfEra (yoe : Nat) : Nat := 365 * yoe + yoe / 4 - yoe / 100 + yoe / 400

/-- The closed form, where the year of the era and the month are known. -/
theorem daysFromCivil_eq {year month day era mp : Int} {yoe : Nat} (hyoe : yoe < 400)
    (hyear : year - (if month ≤ 2 then 1 else 0) = yoe + era * 400)
    (hmonth : month + (if 2 < month then -3 else 9) = mp) :
    daysFromCivil year month day
      = era * 146097 + daysBeforeYearOfEra yoe + (153 * mp + 2) / 5 + day - 1 - 719468 := by
  have hera : ((yoe : Int) + era * 400) / 400 = era := by omega
  have hrest : (yoe : Int) + era * 400 - era * 400 = yoe := by omega
  have hfirst : (daysBeforeYearOfEra yoe : Int) = 365 * yoe + yoe / 4 - yoe / 100 := by
    unfold daysBeforeYearOfEra
    omega
  simp only [daysFromCivil, hyear, hmonth, hera, hrest, hfirst]
  omega

theorem daysBeforeMonth_eq (year : Nat) {month : Nat} (hpos : 0 < month) (hle : month ≤ 12) :
    daysBeforeMonth year month = if month ≤ 2 then 31 * (month - 1)
      else (if IsLeap year then 60 else 59) + (153 * (month - 3) + 2) / 5 := by
  by_cases h : IsLeap year
  · interval_cases month <;> simp [daysBeforeMonth, daysInMonth, h]
  · interval_cases month <;> simp [daysBeforeMonth, daysInMonth, h]

/-- **The closed form** counts the days of a date. -/
theorem dayNumber_eq (date : Date) :
    date.dayNumber = daysFromCivil date.year date.month date.day := by
  have hpos := date.day_pos
  have hmonth := daysBeforeMonth_eq date.year date.month_pos date.month_le
  have hpos' := date.month_pos
  have hle := date.month_le
  unfold Date.dayNumber Date.ordinal Date.dayOfYear daysFromCivil
  rw [hmonth, daysBeforeYear_eq, daysBeforeYear_eq]
  by_cases hfebruary : date.month ≤ 2
  · have hcast : (date.month : Int) ≤ 2 := by omega
    simp only [hfebruary, hcast, if_true, if_neg (show ¬ (2 : Int) < date.month by omega)]
    omega
  · have hcast : ¬ (date.month : Int) ≤ 2 := by omega
    simp only [hfebruary, hcast, if_false, if_pos (show (2 : Int) < date.month by omega)]
    by_cases hleap : IsLeap date.year
    · simp only [hleap, if_true]
      unfold IsLeap at hleap
      omega
    · simp only [hleap, if_false]
      unfold IsLeap at hleap
      omega

/-- The year of an era that a day of it is in. -/
def yearOfEra (doe : Nat) : Nat := (doe - doe / 1460 + doe / 36524 - doe / 146096) / 365

theorem monotone_yearOfEra : Monotone yearOfEra := by
  refine monotone_nat_of_le_succ fun doe => Nat.div_le_div_right ?_
  omega

theorem yearOfEra_ends : ∀ yoe < 400, yearOfEra (daysBeforeYearOfEra yoe) = yoe ∧
    yearOfEra (daysBeforeYearOfEra (yoe + 1) - 1) = yoe := by
  decide +kernel

/-- Years that begin in March, by those that begin in January. -/
theorem daysBeforeYear_succ_eq (yoe : Nat) :
    daysBeforeYear (yoe + 1) = daysBeforeYearOfEra yoe + 366 := by
  have h4 : (yoe + 1 + 3) / 4 = yoe / 4 + 1 := by omega
  have h100 : (yoe + 1 + 99) / 100 = yoe / 100 + 1 := by omega
  have h400 : (yoe + 1 + 399) / 400 = yoe / 400 + 1 := by omega
  rw [daysBeforeYear_eq, h4, h100, h400, daysBeforeYearOfEra]
  omega

/-- A year that begins in March has the leap day of the next year. -/
theorem daysBeforeYearOfEra_succ (yoe : Nat) :
    daysBeforeYearOfEra (yoe + 1) = daysBeforeYearOfEra yoe + daysInYear (yoe + 1) := by
  have hyear := daysBeforeYear_succ_eq (yoe + 1)
  rw [daysBeforeYear, daysBeforeYear_succ_eq] at hyear
  omega

/-- **The year of a day**: the formula is right at both ends of each year of an era, and monotone
between them. -/
theorem yearOfEra_spec {doe : Nat} (h : doe < 146097) :
    yearOfEra doe < 400 ∧ daysBeforeYearOfEra (yearOfEra doe) ≤ doe ∧
      doe < daysBeforeYearOfEra (yearOfEra doe + 1) := by
  -- the year that the day is in, by counting
  obtain ⟨yoe, hyoe, hlow, hhigh⟩ : ∃ yoe < 400, daysBeforeYearOfEra yoe ≤ doe ∧
      doe < daysBeforeYearOfEra (yoe + 1) := by
    have hfind : ∃ n, doe < daysBeforeYearOfEra (n + 1) := ⟨399, h⟩
    refine ⟨Nat.find hfind, ?_, ?_, Nat.find_spec hfind⟩
    · exact Nat.lt_succ_of_le (Nat.find_min' hfind h)
    · rcases hzero : Nat.find hfind with _ | n
      · exact Nat.zero_le _
      · exact Nat.le_of_not_lt (Nat.find_min hfind (by omega))
  obtain ⟨hfirst, hlast⟩ := yearOfEra_ends yoe hyoe
  have hyear : yearOfEra doe = yoe := by
    refine Nat.le_antisymm ?_ ?_
    · exact (monotone_yearOfEra (Nat.le_sub_one_of_lt hhigh)).trans_eq hlast
    · exact hfirst.symm.trans_le (monotone_yearOfEra hlow)
  rw [hyear]
  exact ⟨hyoe, hlow, hhigh⟩

/-- The date of a day, by the years since March. -/
def civilFromDays (days : Int) : Int × Int × Int :=
  let days := days + 719468
  let era := days / 146097
  let doe := days - era * 146097
  let yoe := (doe - doe / 1460 + doe / 36524 - doe / 146096) / 365
  let year := yoe + era * 400
  let doy := doe - (365 * yoe + yoe / 4 - yoe / 100)
  let mp := (5 * doy + 2) / 153
  let day := doy - (153 * mp + 2) / 5 + 1
  let month := mp + if mp < 10 then 3 else -9
  (year + if month ≤ 2 then 1 else 0, month, day)

/-- Month and day of a day of a year that begins in March; the last month has its 29th day at the
end of a long year only. -/
theorem monthOfYear_spec {doy mp : Int} (hmp : mp = (5 * doy + 2) / 153) (h : 0 ≤ doy)
    (hlt : doy < 366) :
    0 ≤ mp ∧ mp ≤ 11 ∧ 1 ≤ doy - (153 * mp + 2) / 5 + 1 ∧ doy - (153 * mp + 2) / 5 + 1 ≤ 31 ∧
      (mp ∈ [1, 3, 6, 8] → doy - (153 * mp + 2) / 5 + 1 ≤ 30) ∧
      (mp = 11 → doy - (153 * mp + 2) / 5 + 1 ≤ 29 ∧
        (doy - (153 * mp + 2) / 5 + 1 = 29 → doy = 365)) := by
  have hlow : 0 ≤ mp := by omega
  have hhigh : mp ≤ 11 := by omega
  refine ⟨hlow, hhigh, ?_⟩
  interval_cases mp <;> simp <;> omega

/-- **The date of a day** is a date, if its year is one, and its day is the day. -/
theorem exists_date {days year month day : Int} (h : civilFromDays days = (year, month, day))
    (hyear : 0 ≤ year) :
    ∃ date : Date, (date.year : Int) = year ∧ (date.month : Int) = month ∧ (date.day : Int) = day ∧
      date.dayNumber = days := by
  unfold civilFromDays at h
  simp only [Prod.mk.injEq] at h
  obtain ⟨hy, hm, hd⟩ := h
  generalize hera : (days + 719468) / 146097 = era at hy hm hd
  obtain ⟨doe, hdoe⟩ : ∃ doe : Nat, days + 719468 - era * 146097 = doe :=
    Int.eq_ofNat_of_zero_le (by omega)
  rw [hdoe] at hy hm hd
  have hdays : days = doe + era * 146097 - 719468 := by omega
  obtain ⟨hyoe, hlow, hhigh⟩ := yearOfEra_spec (show doe < 146097 by omega)
  have hcast : (((doe : Int) - doe / 1460 + doe / 36524 - doe / 146096) / 365)
      = (yearOfEra doe : Nat) := by
    unfold yearOfEra
    omega
  rw [hcast] at hy hm hd
  generalize yearOfEra doe = yoe at hy hm hd hyoe hlow hhigh
  rw [daysBeforeYearOfEra_succ] at hhigh
  clear hcast
  have hfirst : (daysBeforeYearOfEra yoe : Int) = 365 * yoe + yoe / 4 - yoe / 100 := by
    unfold daysBeforeYearOfEra
    omega
  have hlength : daysInYear (yoe + 1) = 365 ∨ daysInYear (yoe + 1) = 366 ∧ IsLeap (yoe + 1) := by
    unfold daysInYear
    split
    next h => exact Or.inr ⟨rfl, h⟩
    next => exact Or.inl rfl
  rw [← hfirst] at hy hm hd
  generalize hdoy : (doe : Int) - daysBeforeYearOfEra yoe = doy at hy hm hd
  generalize hmp : (5 * doy + 2) / 153 = mp at hy hm hd
  have hdoyLow : 0 ≤ doy := by omega
  have hdoyHigh : doy < 365 ∨ doy = 365 ∧ IsLeap (yoe + 1) := by
    rcases hlength with hlength | ⟨hlength, hleap⟩
    · exact Or.inl (by omega)
    · exact (Int.lt_or_eq_of_le (by omega : doy ≤ 365)).imp_right fun h => ⟨h, hleap⟩
  obtain ⟨hmpLow, hmpHigh, hdayLow, hdayHigh, hshort, hfebruary⟩ :=
    monthOfYear_spec hmp.symm hdoyLow (by omega)
  rw [hd] at hdayLow hdayHigh hshort hfebruary
  -- the months from March on are in the year that begins with them, the others in the next one
  have hmonth : mp < 10 ∧ month = mp + 3 ∧ year = yoe + era * 400 ∨
      10 ≤ mp ∧ month = mp - 9 ∧ year = yoe + era * 400 + 1 := by
    by_cases hlate : mp < 10
    · rw [if_pos hlate] at hm hy
      rw [if_neg (by omega)] at hy
      exact Or.inl ⟨hlate, hm.symm, by omega⟩
    · rw [if_neg hlate] at hm hy
      rw [if_pos (by omega)] at hy
      exact Or.inr ⟨by omega, by omega, by omega⟩
  clear hm hy
  obtain ⟨y, rfl⟩ := Int.eq_ofNat_of_zero_le hyear
  obtain ⟨m, rfl⟩ : ∃ m : Nat, month = m := Int.eq_ofNat_of_zero_le (by omega)
  obtain ⟨d, rfl⟩ : ∃ d : Nat, day = d := Int.eq_ofNat_of_zero_le (by omega)
  have hlength : d ≤ daysInMonth y m := by
    unfold daysInMonth
    split
    next htwo =>
      split
      next => omega
      next hleap =>
        -- a 29th is the last day of a long year, which has a leap day
        have hlast : ¬ IsLeap (yoe + 1) := by
          unfold IsLeap at hleap ⊢
          omega
        rcases hdoyHigh with hdoy | ⟨-, hlong⟩
        · omega
        · exact absurd hlong hlast
    next htwo =>
      split
      next hthirty =>
        have hmp : mp ∈ [1, 3, 6, 8] := by
          simp only [List.mem_cons, List.not_mem_nil, or_false] at hthirty ⊢
          omega
        exact Int.ofNat_le.mp (hshort hmp)
      next => exact Int.ofNat_le.mp hdayHigh
  have hday : daysFromCivil y m d
      = era * 146097 + daysBeforeYearOfEra yoe + (153 * mp + 2) / 5 + (d : Int) - 1 - 719468 := by
    rcases hmonth with ⟨hlate, hm, hy⟩ | ⟨hearly, hm, hy⟩
    · refine daysFromCivil_eq hyoe ?_ ?_
      · rw [if_neg (by omega)]
        omega
      · rw [if_pos (by omega)]
        omega
    · refine daysFromCivil_eq hyoe ?_ ?_
      · rw [if_pos (by omega)]
        omega
      · rw [if_neg (by omega)]
        omega
  refine ⟨⟨y, m, d, by omega, by omega, by omega, hlength⟩, rfl, rfl, rfl, ?_⟩
  rw [dayNumber_eq, hday]
  omega

end Calendar
