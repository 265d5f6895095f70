import EryMysql.Lib.Partial
import EryMysql.Lib.Blocks
import Mathlib.Tactic.IntervalCases

/-!
# Day numbers

`calc_daynr` numbers the days of the calendar and `get_date_from_daynr` finds the date of a day
number. The first is a closed formula, the second guesses a year from years of 365.25 days and
corrects it. Years and months are blocks of days, and both functions follow that numbering.
-/

namespace Sql

open Blocks Option List Int Nat

def calcDaysInYear (year : Nat) : Nat :=
  if year % 4 = 0 ∧ (year % 100 ≠ 0 ∨ year % 400 = 0 ∧ year ≠ 0) then 366 else 365

lemma calcDaysInYear_eq {year : Nat} : calcDaysInYear year = 366 ↔
    year % 4 = 0 ∧ (year % 100 ≠ 0 ∨ year % 400 = 0 ∧ year ≠ 0) := by
  rw [calcDaysInYear]
  split
  · simpa
  · exact iff_of_false (by decide) ‹_›

def daysInMonth : List Nat := [31, 28, 31, 30, 31, 30, 31, 31, 30, 31, 30, 31, 0]

def maxDayNumber : Int := 3652424

/-- The length of a month, with the leap day as in `check_date`. -/
def monthLength (year month : Nat) : Nat :=
  daysInMonth.getD (month - 1) 0 + if month = 2 ∧ calcDaysInYear year = 366 then 1 else 0

/-- A valid date from 0001-01-01 to 9999-12-31. -/
@[ext] structure Date where
  year : Nat
  month : Nat
  day : Nat
  year_pos : 0 < year
  year_le : year ≤ 9999
  month_pos : 0 < month
  month_le : month ≤ 12
  day_pos : 0 < day
  day_le : day ≤ monthLength year month

def Date.Before (d d' : Date) : Prop :=
  d.year < d'.year ∨ d.year = d'.year ∧
    (d.month < d'.month ∨ d.month = d'.month ∧ d.day < d'.day)

def Date.Next (d d' : Date) : Prop :=
  d'.year = d.year ∧ d'.month = d.month ∧ d'.day = d.day + 1 ∨
  d'.year = d.year ∧ d'.month = d.month + 1 ∧ d.day = monthLength d.year d.month ∧ d'.day = 1 ∨
  d'.year = d.year + 1 ∧ d.month = 12 ∧ d'.month = 1 ∧ d.day = monthLength d.year 12 ∧ d'.day = 1

/-- `calc_daynr`. The quotients are those of C, as the year may be -1 for a while. -/
def calcDaynr (year month day : Nat) : Int :=
  if year = 0 ∧ month = 0 then 0
  else
    let delsum : Int := 365 * year + 31 * ((month : Int) - 1) + day
    let y : Int := if month ≤ 2 then (year : Int) - 1 else year
    let delsum := if month ≤ 2 then delsum else delsum - ((month : Int) * 4 + 23).tdiv 10
    let temp := ((y.tdiv 100 + 1) * 3).tdiv 4
    delsum + y.tdiv 4 - temp

def daysBefore (year month : Nat) : Nat := start (fun m => monthLength year (m + 1)) (month - 1)

lemma start_year (year : Nat) : start calcDaysInYear (year + 1) =
    365 * (year + 1) + year / 4 - year / 100 + year / 400 := by
  induction year with
  | zero => rfl
  | succ year ih =>
    rw [start_succ, calcDaysInYear]
    split <;> omega

variable {month : Nat} {d d' : Date}

lemma daysBefore_eq (year : Nat) (hpos : 0 < month) (hle : month ≤ 12) :
    (daysBefore year month : Int) = if month ≤ 2 then 31 * ((month : Int) - 1)
      else 31 * ((month : Int) - 1) - (month * 4 + 23) / 10 +
        if calcDaysInYear year = 366 then 1 else 0 := by
  simp only [daysBefore, start, monthLength]
  interval_cases month <;> simp [Finset.sum_range_succ, daysInMonth] <;> split <;> rfl

lemma daysBefore_succ (year : Nat) (hpos : 0 < month) :
    daysBefore year (month + 1) = daysBefore year month + monthLength year month := by
  obtain ⟨m, rfl⟩ := exists_eq_add_one_of_ne_zero hpos.ne'
  exact start_succ m

lemma daysBefore_thirteen (year : Nat) : daysBefore year 13 = calcDaysInYear year := by
  simp only [daysBefore, monthLength, calcDaysInYear]
  split <;> rfl

lemma daysBefore_le (year : Nat) (hle : month ≤ 13) :
    daysBefore year month ≤ calcDaysInYear year := by
  rw [← daysBefore_thirteen]
  exact start_le _ (Nat.sub_le_sub_right hle 1)

/-- The number of a valid date is its place in the blocks of years and months. -/
lemma calcDaynr_eq (d : Date) : calcDaynr d.year d.month d.day =
    (start calcDaysInYear d.year + (daysBefore d.year d.month + d.day) : Nat) := by
  have hbefore := daysBefore_eq d.year d.month_pos d.month_le
  have hstart := start_year (d.year - 1)
  rw [Nat.sub_add_cancel d.year_pos] at hstart
  have hpos := d.year_pos
  rw [calcDaynr, if_neg fun h => hpos.ne' h.1]
  by_cases hm : d.month ≤ 2
  · simp (disch := omega) only [tdiv_eq_ediv_of_nonneg]
    omega
  · simp only [hm, if_false, calcDaysInYear_eq] at hbefore ⊢
    simp (disch := omega) only [tdiv_eq_ediv_of_nonneg]
    have htemp : ((d.year : Int) / 100 + 1) * 3 / 4 = d.year / 100 - d.year / 400 := by omega
    split at hbefore
    · omega
    · omega

lemma Date.dayOfYear_le (d : Date) :
    daysBefore d.year d.month + d.day ≤ calcDaysInYear d.year := by
  have hle := daysBefore_le d.year (succ_le_succ d.month_le)
  rw [daysBefore_succ _ d.month_pos] at hle
  exact (Nat.add_le_add_left d.day_le _).trans hle

lemma Date.Before.calcDaynr_lt (h : d.Before d') :
    calcDaynr d.year d.month d.day < calcDaynr d'.year d'.month d'.day := by
  rw [calcDaynr_eq, calcDaynr_eq, Nat.cast_lt]
  rcases h with hyear | ⟨hyear, hmonth | ⟨hmonth, hday⟩⟩
  · exact add_lt_of_block_lt hyear d.dayOfYear_le (Nat.add_pos_right _ d'.day_pos)
  · have hpos := d.month_pos
    have hle : d.day ≤ monthLength d.year (d.month - 1 + 1) := by
      rw [Nat.sub_add_cancel hpos]
      exact d.day_le
    rw [← hyear]
    have hblock : d.month - 1 < d'.month - 1 := by omega
    exact Nat.add_lt_add_left (add_lt_of_block_lt hblock hle d'.day_pos) _
  · rw [hyear, hmonth]
    omega

lemma Date.before_trichotomy (d d' : Date) : d.Before d' ∨ d = d' ∨ d'.Before d := by
  simp only [Date.Before, Date.ext_iff]
  omega

lemma Date.eq_of_calcDaynr_eq
    (h : calcDaynr d.year d.month d.day = calcDaynr d'.year d'.month d'.day) : d = d' := by
  rcases d.before_trichotomy d' with hlt | heq | hgt
  · exact absurd h hlt.calcDaynr_lt.ne
  · exact heq
  · exact absurd h hgt.calcDaynr_lt.ne'

lemma Date.calcDaynr_bounds (d : Date) : 366 ≤ calcDaynr d.year d.month d.day ∧
    calcDaynr d.year d.month d.day ≤ maxDayNumber := by
  have hfirst : start calcDaysInYear (0 + 1) ≤ start calcDaysInYear d.year := start_le _ d.year_pos
  have hlast : start calcDaysInYear (d.year + 1) ≤ start calcDaysInYear (9999 + 1) :=
    start_le _ (succ_le_succ d.year_le)
  have hday := d.dayOfYear_le
  have hpos := d.day_pos
  rw [start_year] at hfirst
  rw [start_succ, start_year 9999] at hlast
  rw [calcDaynr_eq, maxDayNumber]
  omega

lemma Date.Next.calcDaynr_eq_add_one (h : d.Next d') :
    calcDaynr d'.year d'.month d'.day = calcDaynr d.year d.month d.day + 1 := by
  rw [calcDaynr_eq, calcDaynr_eq]
  rcases h with ⟨hyear, hmonth, hday⟩ | ⟨hyear, hmonth, hlast, hday⟩ |
    ⟨hyear, hmonth, hmonth', hlast, hday⟩
  · rw [hyear, hmonth]
    omega
  · rw [hyear, hmonth, daysBefore_succ _ d.month_pos]
    omega
  · have hyear_length : daysBefore d.year 12 + monthLength d.year 12 = calcDaysInYear d.year := by
      rw [← daysBefore_succ _ (by decide), daysBefore_thirteen]
    rw [hyear, hmonth, hmonth', hday, hlast, start_succ, hyear_length]
    rfl

/-- What a C implementation makes of the exact value of an unsigned expression. -/
def wrapUint (n : Int) : Option Nat := some (n % 2 ^ 32).toNat

/-- The same, but a value that does not fit in is a failure. -/
def exactUint (n : Int) : Option Nat := if 0 ≤ n ∧ n < 2 ^ 32 then some n.toNat else none

section GetDate
variable (toUint : Int -> Option Nat)

/-- The loop that corrects the year, for at most the given number of turns. -/
def correctYear : Nat -> Nat -> Nat -> Option (Nat × Nat)
  | 0, _, _ => none
  | turns + 1, year, dayOfYear =>
    if calcDaysInYear year < dayOfYear then do
      let dayOfYear ← toUint (dayOfYear - calcDaysInYear year)
      let year ← toUint (year + 1)
      correctYear turns year dayOfYear
    else some (year, dayOfYear)

def findMonth : List Nat -> Nat -> Nat -> Option (Nat × Nat)
  | [], _, _ => none
  | length :: rest, month, dayOfYear =>
    if length < dayOfYear then do
      let dayOfYear ← toUint (dayOfYear - length)
      let month ← toUint (month + 1)
      findMonth rest month dayOfYear
    else some (month, dayOfYear)

def dateOfYear (year dayOfYear : Nat) : Option (Nat × Nat × Nat) := do
  let (dayOfYear, leapDay) ←
    if calcDaysInYear year = 366 ∧ 31 + 28 < dayOfYear then do
      let dayOfYear ← toUint (dayOfYear - (1 : Nat))
      pure (dayOfYear, if dayOfYear = 31 + 28 then 1 else 0)
    else pure (dayOfYear, 0)
  let (month, dayOfYear) ← findMonth toUint daysInMonth 1 dayOfYear
  return (year, month, dayOfYear + leapDay)

/-- `get_date_from_daynr`: a failure, or the year, the month and the day. -/
def getDateFromDaynr (turns : Nat) (daynr : Int) : Option (Option (Nat × Nat × Nat)) := do
  if daynr < 366 ∨ maxDayNumber < daynr then return none
  let year ← toUint (daynr * 100 / 36525)
  let last ← toUint (year - (1 : Nat))
  let temp := (last / 100 + 1) * 3 / 4
  let days ← toUint (daynr - (year * 365 : Nat))
  let days ← toUint (days - (last / 4 : Nat))
  let dayOfYear ← toUint (days + temp : Nat)
  let (year, dayOfYear) ← correctYear toUint turns year dayOfYear
  return some (← dateOfYear toUint year dayOfYear)

variable {toUint}

/-- Values that fit in are exact. -/
def Exact (toUint : Int -> Option Nat) : Prop := ∀ n : Nat, n < 2 ^ 32 -> toUint n = some n

lemma exact_wrapUint : Exact wrapUint := by
  intro n hn
  rw [wrapUint, some_inj]
  omega

lemma exact_exactUint : Exact exactUint := by
  intro n hn
  rw [exactUint, if_pos (by omega), toNat_natCast]

lemma Exact.sub (h : Exact toUint) {m n : Nat} (hle : n ≤ m) (hm : m < 2 ^ 32) :
    toUint (m - n) = some (m - n) := by
  rw [← Int.natCast_sub hle]
  exact h _ (by omega)

lemma Exact.succ (h : Exact toUint) {n : Nat} (hn : n + 1 < 2 ^ 32) :
    toUint (n + 1) = some (n + 1) :=
  h (n + 1) hn

/-- As many turns are enough as there are years of 365 days. -/
lemma correctYear_spec (h : Exact toUint) {turns year dayOfYear : Nat} (hpos : 0 < dayOfYear)
    (hle : dayOfYear ≤ 365 * turns) (hyear : year + dayOfYear < 2 ^ 32) :
    ∃ year' dayOfYear', correctYear toUint turns year dayOfYear = some (year', dayOfYear') ∧
      start calcDaysInYear year' + dayOfYear' = start calcDaysInYear year + dayOfYear ∧
      year ≤ year' ∧ 0 < dayOfYear' ∧ dayOfYear' ≤ calcDaysInYear year' := by
  induction turns generalizing year dayOfYear with
  | zero => omega
  | succ turns ih =>
    rw [correctYear]
    split
    · rename_i hlt
      have hdays : 365 ≤ calcDaysInYear year := by
        rw [calcDaysInYear]
        split <;> decide
      rw [h.sub hlt.le (by omega), h.succ (by omega)]
      obtain ⟨year', dayOfYear', hloop, hsum, hge, hbounds⟩ :=
        @ih (year + 1) (dayOfYear - calcDaysInYear year) (by omega) (by omega) (by omega)
      refine ⟨year', dayOfYear', hloop, ?_, by omega, hbounds⟩
      rw [hsum, start_succ]
      omega
    · rename_i hge
      exact ⟨year, dayOfYear, rfl, rfl, le_rfl, hpos, not_lt.mp hge⟩

lemma findMonth_spec (h : Exact toUint) {lengths : List Nat} {month dayOfYear : Nat}
    (hpos : 0 < dayOfYear) (hle : dayOfYear ≤ lengths.sum) (hsum : lengths.sum < 2 ^ 32)
    (hmonth : month + lengths.length < 2 ^ 32) :
    ∃ i day, findMonth toUint lengths month dayOfYear = some (month + i, day) ∧
      i < lengths.length ∧ 0 < day ∧ day ≤ lengths.getD i 0 ∧
      (lengths.take i).sum + day = dayOfYear := by
  induction lengths generalizing month dayOfYear with
  | nil => exact absurd hle hpos.not_ge
  | cons length rest ih =>
    rw [sum_cons] at hle hsum
    rw [length_cons] at hmonth
    rw [findMonth]
    split
    · rename_i hlt
      rw [h.sub hlt.le (by omega), h.succ (by omega)]
      obtain ⟨i, day, hloop, hi, hday, hday', htake⟩ :=
        @ih (month + 1) (dayOfYear - length) (by omega) (by omega) (by omega) (by omega)
      refine ⟨i + 1, day, ?_, succ_lt_succ hi, hday, hday', ?_⟩
      · rw [← add_assoc, add_right_comm]
        exact hloop
      · rw [take_succ_cons, sum_cons]
        omega
    · rename_i hge
      exact ⟨0, dayOfYear, rfl, succ_pos _, hpos, not_lt.mp hge, by simp⟩

lemma daysBefore_take (year : Nat) {i : Nat} (hi : i < 13) : daysBefore year (1 + i) =
    (daysInMonth.take i).sum + if 2 ≤ i ∧ calcDaysInYear year = 366 then 1 else 0 := by
  simp only [daysBefore, start, monthLength]
  interval_cases i <;> simp [Finset.sum_range_succ, daysInMonth] <;> split <;> rfl

/-- The days before a month and its length, as far as the leap day needs them. -/
lemma take_sum_bounds {i : Nat} (hi : i < 13) (hlength : 0 < daysInMonth.getD i 0) :
    i < 12 ∧ (i = 0 -> (daysInMonth.take i).sum = 0 ∧ daysInMonth.getD i 0 = 31) ∧
      (i = 1 -> (daysInMonth.take i).sum = 31 ∧ daysInMonth.getD i 0 = 28) ∧
      (2 ≤ i -> 31 + 28 ≤ (daysInMonth.take i).sum) := by
  revert hlength
  interval_cases i <;> decide

lemma dateOfYear_spec (h : Exact toUint) {year dayOfYear : Nat} (hyear : 0 < year)
    (hyear' : year ≤ 9999) (hpos : 0 < dayOfYear) (hle : dayOfYear ≤ calcDaysInYear year) :
    ∃ d : Date, dateOfYear toUint year dayOfYear = some (d.year, d.month, d.day) ∧
      d.year = year ∧ daysBefore d.year d.month + d.day = dayOfYear := by
  have hlengths : daysInMonth.sum = 365 := by decide
  have hbound : calcDaysInYear year = 365 ∨ calcDaysInYear year = 366 := by
    rw [calcDaysInYear]
    split <;> simp
  rw [dateOfYear]
  by_cases hleap : calcDaysInYear year = 366 ∧ 31 + 28 < dayOfYear
  · rw [if_pos hleap, h.sub hpos (by omega)]
    obtain ⟨i, day, hfind, hi, hday, hday', htake⟩ := @findMonth_spec toUint h daysInMonth 1
      (dayOfYear - 1) (by omega) (by omega) (by omega) (by decide)
    obtain ⟨hi', hfirst, hsecond, hlater⟩ := take_sum_bounds hi (hday.trans_le hday')
    have hbefore := daysBefore_take year hi
    refine ⟨⟨year, 1 + i, day + if dayOfYear - 1 = 31 + 28 then 1 else 0, hyear, hyear', by omega,
      by omega, by omega, ?_⟩, ?_, rfl, ?_⟩
    · rw [monthLength, Nat.add_sub_cancel_left]
      split <;> split <;> omega
    · simp [hfind]
    · dsimp only
      rw [hbefore]
      split <;> split <;> omega
  · rw [if_neg hleap]
    obtain ⟨i, day, hfind, hi, hday, hday', htake⟩ := @findMonth_spec toUint h daysInMonth 1
      dayOfYear hpos (by omega) (by omega) (by decide)
    obtain ⟨hi', hfirst, hsecond, hlater⟩ := take_sum_bounds hi (hday.trans_le hday')
    have hbefore := daysBefore_take year hi
    refine ⟨⟨year, 1 + i, day, hyear, hyear', by omega, by omega, hday, ?_⟩, ?_, rfl, ?_⟩
    · rw [monthLength, Nat.add_sub_cancel_left]
      exact le_add_right_of_le hday'
    · simp [hfind]
    · rw [hbefore]
      split <;> omega

lemma getDateFromDaynr_spec (h : Exact toUint) {turns : Nat} (hturns : 2 ≤ turns) {daynr : Int}
    (hmin : 366 ≤ daynr) (hmax : daynr ≤ maxDayNumber) :
    ∃ d : Date, getDateFromDaynr toUint turns daynr = some (some (d.year, d.month, d.day)) ∧
      calcDaynr d.year d.month d.day = daynr := by
  obtain ⟨n, rfl⟩ := eq_ofNat_of_zero_le (by omega : 0 ≤ daynr)
  rw [maxDayNumber] at hmax
  obtain ⟨last, hlast⟩ : ∃ last, n * 100 / 36525 = last + 1 :=
    exists_eq_add_one_of_ne_zero (by omega)
  have htemp : (last / 100 + 1) * 3 / 4 = last / 100 - last / 400 := by omega
  have hstart := start_year last
  obtain ⟨year, dayOfYear, hloop, hsum, hge, hpos, hle⟩ := @correctYear_spec toUint h turns (last + 1)
    (n - (last + 1) * 365 - last / 4 + (last / 100 - last / 400)) (by omega) (by omega) (by omega)
  have hyear : year ≤ 9999 := by
    by_contra hlate
    have hstart' : start calcDaysInYear (9999 + 1) ≤ start calcDaysInYear year :=
      start_le _ (not_le.mp hlate)
    rw [start_year] at hstart'
    omega
  obtain ⟨d, hdate, hd, hday⟩ := dateOfYear_spec h (by omega) hyear hpos hle
  refine ⟨d, ?_, ?_⟩
  · have hyear0 : toUint ((n : Int) * 100 / 36525) = some (last + 1) := by
      rw [← h (last + 1) (by omega), ← hlast]
      rfl
    simp only [getDateFromDaynr, hyear0, bind_eq_bind, bind_some]
    rw [if_neg (by rw [maxDayNumber]; omega)]
    rw [h.sub (by omega) (by omega), bind_some, h.sub (by omega) (by omega), bind_some,
      h.sub (by omega) (by omega), bind_some, h _ (by omega), bind_some]
    rw [Nat.add_sub_cancel, htemp, hloop, bind_some, hdate]
    rfl
  · rw [calcDaynr_eq, hday, hd]
    omega

end GetDate

/-- The calendar and the day numbers from 366 to 3652424 belong together. `calc_daynr` grows by one
from a date to the next, `get_date_from_daynr` is its inverse and accepts nothing else, needs at
most one correction of the year and computes no unsigned value that does not fit in. -/
theorem daynr_bijection :
    (∀ d d' : Date, d.Before d' ->
      calcDaynr d.year d.month d.day < calcDaynr d'.year d'.month d'.day) ∧
    (∀ d d' : Date, d.Next d' ->
      calcDaynr d'.year d'.month d'.day = calcDaynr d.year d.month d.day + 1) ∧
    ∀ toUint ∈ [wrapUint, exactUint], ∀ turns, 2 ≤ turns ->
      (∀ daynr, 366 ≤ daynr ∧ daynr ≤ 3652424 ↔ getDateFromDaynr toUint turns daynr ≠ some none) ∧
      (∀ daynr, 366 ≤ daynr -> daynr ≤ 3652424 -> ∃ d : Date,
        getDateFromDaynr toUint turns daynr = some (some (d.year, d.month, d.day)) ∧
        calcDaynr d.year d.month d.day = daynr) ∧
      ∀ d : Date, 366 ≤ calcDaynr d.year d.month d.day ∧ calcDaynr d.year d.month d.day ≤ 3652424 ∧
        getDateFromDaynr toUint turns (calcDaynr d.year d.month d.day) =
          some (some (d.year, d.month, d.day)) := by
  refine ⟨fun d d' h => h.calcDaynr_lt, fun d d' h => h.calcDaynr_eq_add_one, ?_⟩
  intro toUint hto turns hturns
  have hexact : Exact toUint := by
    rcases mem_pair.mp hto with rfl | rfl
    · exact exact_wrapUint
    · exact exact_exactUint
  refine ⟨fun daynr => ⟨?_, ?_⟩, fun daynr hmin hmax => ?_, fun d => ?_⟩
  · rintro ⟨hmin, hmax⟩ hnone
    obtain ⟨d, hdate, -⟩ := getDateFromDaynr_spec hexact hturns hmin hmax
    cases hdate.symm.trans hnone
  · intro hsome
    by_contra hout
    refine hsome ?_
    rw [getDateFromDaynr, if_pos]
    · rfl
    · rw [maxDayNumber]
      omega
  · exact getDateFromDaynr_spec hexact hturns hmin hmax
  · obtain ⟨hmin, hmax⟩ := d.calcDaynr_bounds
    obtain ⟨d', hdate, hnr⟩ := getDateFromDaynr_spec hexact hturns hmin hmax
    obtain rfl := Date.eq_of_calcDaynr_eq hnr
    exact ⟨hmin, hmax, hdate⟩

end Sql
