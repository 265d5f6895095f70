import EryMysql.Sql.Calendar
import EryMysql.Sql.PackedTime

/-!
# Adding an interval to a date

`date_add_interval` adds an interval of a unit from microseconds to days by counting both in
microseconds since year 0. A sum below zero is taken for its absolute value, and the microseconds of
the interval are not bounded. An interval of a unit from months to years is added in months, modulo
the width of the sum. The theorems tell for which arguments the result is exact.
-/

namespace Sql

open Option Int Nat MysqlTime

inductive IntervalType
  | year
  | quarter
  | month
  | week
  | day
  | hour
  | minute
  | second
  | microsecond
  | yearMonth
  | dayHour
  | dayMinute
  | daySecond
  | hourMinute
  | hourSecond
  | minuteSecond
  | dayMicrosecond
  | hourMicrosecond
  | minuteMicrosecond
  | secondMicrosecond
  deriving DecidableEq

structure Interval where
  year : Nat
  month : Nat
  day : Nat
  hour : Nat
  minute : Nat
  second : Nat
  secondPart : Nat
  neg : Bool
  deriving DecidableEq

/-- The case of `date_add_interval` for a unit: those that count in microseconds, and the others. -/
def IntervalType.isTime : IntervalType -> Bool
  | .year | .quarter | .month | .week | .yearMonth => false
  | _ => true

def Interval.zero (neg : Bool) : Interval := ⟨0, 0, 0, 0, 0, 0, 0, neg⟩

/-- The end of `get_interval_value`: the fields are set from the absolute value of a number, for a
unit of one field, or else from the numbers in a text. -/
def getIntervalValue (neg : Bool) (value : Nat) (array : Nat -> Nat) : IntervalType -> Interval
  | .year => { Interval.zero neg with year := value }
  | .quarter => { Interval.zero neg with month := value * 3 % 2 ^ 64 }
  | .month => { Interval.zero neg with month := value }
  | .week => { Interval.zero neg with day := value * 7 % 2 ^ 64 }
  | .day => { Interval.zero neg with day := value }
  | .hour => { Interval.zero neg with hour := value }
  | .microsecond => { Interval.zero neg with secondPart := value }
  | .minute => { Interval.zero neg with minute := value }
  | .second => { Interval.zero neg with second := value }
  | .yearMonth => { Interval.zero neg with year := array 0, month := array 1 }
  | .dayHour => { Interval.zero neg with day := array 0, hour := array 1 }
  | .dayMicrosecond => { Interval.zero neg with
      day := array 0, hour := array 1, minute := array 2, second := array 3, secondPart := array 4 }
  | .dayMinute => { Interval.zero neg with day := array 0, hour := array 1, minute := array 2 }
  | .daySecond => { Interval.zero neg with
      day := array 0, hour := array 1, minute := array 2, second := array 3 }
  | .hourMicrosecond => { Interval.zero neg with
      hour := array 0, minute := array 1, second := array 2, secondPart := array 3 }
  | .hourMinute => { Interval.zero neg with hour := array 0, minute := array 1 }
  | .hourSecond => { Interval.zero neg with hour := array 0, minute := array 1, second := array 2 }
  | .minuteMicrosecond => { Interval.zero neg with
      minute := array 0, second := array 1, secondPart := array 2 }
  | .minuteSecond => { Interval.zero neg with minute := array 0, second := array 1 }
  | .secondMicrosecond => { Interval.zero neg with second := array 0, secondPart := array 1 }

/-- How the values of 64-bit expressions are made: unsigned and signed ones. -/
structure Arith where
  unsigned : Int -> Option Int
  signed : Int -> Option Int

def wrapArith : Arith where
  unsigned x := some (x % 2 ^ 64)
  signed x := some (x.bmod (2 ^ 64))

/-- Exact arithmetic, in which a value that does not fit in is a failure. -/
def exactArith : Arith where
  unsigned x := if 0 ≤ x ∧ x < 2 ^ 64 then some x else none
  signed x := if -2 ^ 63 ≤ x ∧ x < 2 ^ 63 then some x else none

def timeMaxHour : Int := 838

def combine (day hour minute second secondPart : Nat) : Int :=
  (((day * 24 + hour) * 60 + minute) * 60 + second) * 1000000 + secondPart

def Interval.microseconds (i : Interval) : Int := combine i.day i.hour i.minute i.second i.secondPart

/-- The days of an interval, without those in its microseconds. -/
def Interval.days (i : Interval) : Int :=
  i.day + i.hour / 24 + i.minute / 24 / 60 + i.second / 24 / 60 / 60

/-- The days of a value, which are those since year 0 unless it is a time. -/
def MysqlTime.dayCount (ltime : MysqlTime) : Nat :=
  if ltime.timeType ≠ .time then
    ((ltime.day + (calcDaynr ltime.year ltime.month 1 - 1)) % 2 ^ 32).toNat
  else ltime.day

/-- The value of a number of microseconds, as the units from microseconds to days end. -/
def splitMicroseconds (ltime : MysqlTime) (intType : IntervalType) (neg : Bool) (usec : Int) :
    Option (Option MysqlTime) := do
  let ltime := { ltime with
    secondPart := (usec.tmod 1000000 % 2 ^ 64).toNat
    second := ((usec.tdiv 1000000).tmod 60 % 2 ^ 32).toNat
    minute := (((usec.tdiv 1000000).tdiv 60).tmod 60 % 2 ^ 32).toNat
    neg := ltime.neg ^^ neg }
  let usec := ((usec.tdiv 1000000).tdiv 60).tdiv 60
  if ltime.timeType = .time then
    if timeMaxHour < usec then return none
    return some { ltime with hour := (usec % 2 ^ 32).toNat, day := 0 }
  let timeType := if intType ≠ .day then .datetime else ltime.timeType
  let hour := (usec.tmod 24 % 2 ^ 32).toNat
  match ← getDateFromDaynr wrapUint 2 (usec.tdiv 24) with
  | none => return none
  | some (year, month, day) => return some { ltime with year, month, day, hour, timeType }

/-- `date_add_interval` for the units from microseconds to days: a failure, or the new value. -/
def dateAddTime (arith : Arith) (ltime : MysqlTime) (intType : IntervalType) (interval : Interval) :
    Option (Option MysqlTime) := do
  let sign : Int := if interval.neg = ltime.neg then 1 else -1
  let days ← arith.unsigned interval.days
  if maxDayNumber < days then return none
  let amount ← arith.unsigned interval.microseconds
  let usec ← arith.signed (combine ltime.dayCount ltime.hour ltime.minute ltime.second
    ltime.secondPart + sign * amount)
  if usec < 0 then splitMicroseconds ltime intType true (← arith.signed (-usec))
  else splitMicroseconds ltime intType false usec

def dateAddInterval (arith : Arith) (ltime : MysqlTime) (intType : IntervalType)
    (interval : Interval) : Option (Option MysqlTime) := do
  let sign : Int := if interval.neg = ltime.neg then 1 else -1
  let result ← match intType with
    | .week => do
      let period := calcDaynr ltime.year ltime.month ltime.day +
        sign * (interval.day : Int).bmod (2 ^ 64)
      match ← getDateFromDaynr wrapUint 2 (period.bmod (2 ^ 64)) with
      | none => pure none
      | some (year, month, day) => pure (some { ltime with year, month, day })
    | .year =>
      let year := ((ltime.year + sign * interval.year) % 2 ^ 32).toNat
      if 10000 ≤ year then pure none
      else if ltime.month = 2 ∧ ltime.day = 29 ∧ calcDaysInYear year ≠ 366 then
        pure (some { ltime with year, day := 28 })
      else pure (some { ltime with year })
    | .yearMonth | .quarter | .month =>
      let period := ((ltime.year * 12 + sign * interval.year * 12 + ltime.month - 1 +
        sign * interval.month) % 2 ^ 64).toNat
      if 120000 ≤ period then pure none
      else
        let year := period / 12
        let month := period % 12 + 1
        let days := daysInMonth.getD (month - 1) 0
        if days < ltime.day then
          let day := days + if month = 2 ∧ calcDaysInYear year = 366 then 1 else 0
          pure (some { ltime with year, month, day })
        else pure (some { ltime with year, month })
    | _ => dateAddTime arith ltime intType interval
  -- the other units are not for a time
  if ltime.timeType = .time ∧ ¬ intType.isTime then return none
  return result

structure Datetime extends Date where
  hour : Nat
  minute : Nat
  second : Nat
  secondPart : Nat
  hour_le : hour ≤ 23
  minute_le : minute ≤ 59
  second_le : second ≤ 59
  secondPart_le : secondPart ≤ 999999

def Datetime.toMysqlTime (d : Datetime) (timeType : TimestampType) : MysqlTime :=
  ⟨d.year, d.month, d.day, d.hour, d.minute, d.second, d.secondPart, false, timeType⟩

def dayMicroseconds : Int := 86400000000

def Datetime.microseconds (d : Datetime) : Int :=
  calcDaynr d.year d.month d.day * dayMicroseconds +
    (((d.hour * 60 + d.minute) * 60 + d.second) * 1000000 + d.secondPart : Nat)

def Datetime.total (d : Datetime) (i : Interval) : Int :=
  d.microseconds + (if i.neg then -1 else 1) * i.microseconds

/-- Values that fit in are exact. -/
structure Arith.Exact (arith : Arith) : Prop where
  unsigned : ∀ x, 0 ≤ x -> x < 2 ^ 64 -> arith.unsigned x = some x
  signed : ∀ x, -2 ^ 63 ≤ x -> x < 2 ^ 63 -> arith.signed x = some x

lemma wrapArith_exact : wrapArith.Exact where
  unsigned _ h0 h1 := congrArg some (emod_eq_of_lt h0 h1)
  signed _ h0 h1 := congrArg some (bmod_eq_of_le (by omega) (by omega))

lemma exactArith_exact : exactArith.Exact where
  unsigned _ h0 h1 := if_pos ⟨h0, h1⟩
  signed _ h0 h1 := if_pos ⟨h0, h1⟩

lemma calcDaynr_day {year : Nat} (hyear : 0 < year) (month day : Nat) :
    day + (calcDaynr year month 1 - 1) = calcDaynr year month day := by
  have hne : ¬ (year = 0 ∧ month = 0) := fun h => hyear.ne' h.1
  simp only [calcDaynr, if_neg hne]
  split <;> push_cast <;> ring

variable {timeType : TimestampType} {i : Interval} {arith : Arith} {intType : IntervalType}

lemma combine_datetime (d : Datetime) (htype : timeType ≠ .time) :
    combine (d.toMysqlTime timeType).dayCount d.hour d.minute d.second d.secondPart =
      d.microseconds := by
  obtain ⟨hmin, hmax⟩ := d.calcDaynr_bounds
  rw [maxDayNumber] at hmax
  have hday : ((d.toMysqlTime timeType).dayCount : Int) = calcDaynr d.year d.month d.day := by
    simp only [dayCount, Datetime.toMysqlTime, htype, ne_eq, not_false_eq_true, if_true]
    rw [calcDaynr_day d.year_pos, emod_eq_of_lt (by omega) (by omega),
      toNat_of_nonneg (by omega)]
  rw [Datetime.microseconds, combine, dayMicroseconds, hday]
  push_cast
  ring

lemma combine_total (d : Datetime) (htype : timeType ≠ .time)
    (i : Interval) :
    combine (d.toMysqlTime timeType).dayCount (d.toMysqlTime timeType).hour
      (d.toMysqlTime timeType).minute (d.toMysqlTime timeType).second
      (d.toMysqlTime timeType).secondPart +
      (if i.neg = (d.toMysqlTime timeType).neg then 1 else -1) * i.microseconds = d.total i := by
  have hsign : (if i.neg = (d.toMysqlTime timeType).neg then (1 : Int) else -1) =
      if i.neg then -1 else 1 := by
    cases i.neg <;> rfl
  rw [hsign, Datetime.total, ← combine_datetime d htype]
  rfl

lemma exists_datetime {usec : Int} (husec : 0 ≤ usec) {d : Date}
    (hd : calcDaynr d.year d.month d.day = (((usec.tdiv 1000000).tdiv 60).tdiv 60).tdiv 24) :
    ∃ d' : Datetime, d'.toDate = d ∧ d'.microseconds = usec ∧
      d'.secondPart = (usec.tmod 1000000 % 2 ^ 64).toNat ∧
      d'.second = ((usec.tdiv 1000000).tmod 60 % 2 ^ 32).toNat ∧
      d'.minute = (((usec.tdiv 1000000).tdiv 60).tmod 60 % 2 ^ 32).toNat ∧
      d'.hour = ((((usec.tdiv 1000000).tdiv 60).tdiv 60).tmod 24 % 2 ^ 32).toNat := by
  simp (disch := omega) only [tdiv_eq_ediv_of_nonneg, tmod_eq_emod_of_nonneg] at hd ⊢
  refine ⟨⟨d, (usec / 1000000 / 60 / 60 % 24 % 2 ^ 32).toNat,
    (usec / 1000000 / 60 % 60 % 2 ^ 32).toNat, (usec / 1000000 % 60 % 2 ^ 32).toNat,
    (usec % 1000000 % 2 ^ 64).toNat, ?_, ?_, ?_, ?_⟩, rfl, ?_, rfl, rfl, rfl, rfl⟩
  iterate 4 omega
  · rw [Datetime.microseconds, dayMicroseconds]
    dsimp only
    omega

/-- What a number of microseconds is taken for: the value with as many of them, if there is one. -/
def FoldsTo (usec : Int) (neg : Bool) (timeType : TimestampType) (result : Option MysqlTime) : Prop :=
  if 366 ≤ usec / dayMicroseconds ∧ usec / dayMicroseconds ≤ maxDayNumber then
    ∃ d : Datetime, d.microseconds = usec ∧ result = some { d.toMysqlTime timeType with neg }
  else result = none

lemma Datetime.microseconds_bounds (d : Datetime) : 366 * dayMicroseconds ≤ d.microseconds ∧
    d.microseconds < (maxDayNumber + 1) * dayMicroseconds := by
  obtain ⟨hmin, hmax⟩ := d.calcDaynr_bounds
  have hhour := d.hour_le
  have hminute := d.minute_le
  have hsecond := d.second_le
  have hpart := d.secondPart_le
  rw [maxDayNumber] at hmax
  rw [Datetime.microseconds, dayMicroseconds, maxDayNumber]
  omega

lemma Interval.days_nonneg (i : Interval) : 0 ≤ i.days := by
  rw [Interval.days]
  positivity

lemma Interval.microseconds_nonneg (i : Interval) : 0 ≤ i.microseconds := by
  rw [Interval.microseconds, combine]
  positivity

lemma splitMicroseconds_eq {ltime : MysqlTime} (hneg : ltime.neg = false)
    (htype : ltime.timeType ≠ .time) (intType : IntervalType) (neg : Bool) {usec : Int}
    (husec : 0 ≤ usec) :
    ∃ result, splitMicroseconds ltime intType neg usec = some result ∧
      FoldsTo usec neg (if intType ≠ .day then .datetime else ltime.timeType) result := by
  have hday : (((usec.tdiv 1000000).tdiv 60).tdiv 60).tdiv 24 = usec / dayMicroseconds := by
    simp (disch := omega) only [tdiv_eq_ediv_of_nonneg]
    rw [dayMicroseconds]
    omega
  simp only [splitMicroseconds, htype, if_false, hneg, Bool.false_xor, FoldsTo, hday]
  by_cases hrange : 366 ≤ usec / dayMicroseconds ∧ usec / dayMicroseconds ≤ maxDayNumber
  · simp only [hrange]
    obtain ⟨d, hdate, hnr⟩ := getDateFromDaynr_spec exact_wrapUint le_rfl hrange.1 hrange.2
    obtain ⟨d', hd', husec', hpart, hsecond, hminute, hhour⟩ := exists_datetime husec
      (hnr.trans hday.symm)
    rw [hdate]
    refine ⟨_, rfl, d', husec', ?_⟩
    rw [Datetime.toMysqlTime, hpart, hsecond, hminute, hhour, hd']
  · simp only [hrange]
    rw [getDateFromDaynr, if_pos (by omega)]
    exact ⟨none, rfl, rfl⟩

lemma dateAddTime_eq (harith : arith.Exact) (d : Datetime)
    (htype : timeType ≠ .time) (intType : IntervalType)
    (hdays : i.days ≤ maxDayNumber) (hlow : -2 ^ 63 < d.total i) (hhigh : d.total i < 2 ^ 63) :
    ∃ result, dateAddTime arith (d.toMysqlTime timeType) intType i = some result ∧
      FoldsTo |d.total i| (decide (d.total i < 0))
        (if intType ≠ .day then .datetime else timeType) result := by
  obtain ⟨hmin, hmax⟩ := d.microseconds_bounds
  rw [dayMicroseconds] at hmin hmax
  rw [maxDayNumber] at hmax
  have hunsigned := harith.unsigned _ i.days_nonneg (hdays.trans_lt (by decide))
  have hamount : arith.unsigned i.microseconds = some i.microseconds := by
    refine harith.unsigned _ i.microseconds_nonneg ?_
    rw [Datetime.total] at hlow hhigh
    cases hneg : i.neg <;> rw [hneg] at hlow hhigh <;> simp at hlow hhigh <;> omega
  have hsigned := harith.signed _ hlow.le hhigh
  simp only [dateAddTime, hunsigned, bind_eq_bind, bind_some,
    if_neg (not_lt.mpr hdays), hamount, combine_total d htype, hsigned]
  by_cases hneg : d.total i < 0
  · rw [if_pos hneg, harith.signed _ (by omega) (by omega), abs_of_neg hneg,
      decide_eq_true hneg]
    exact splitMicroseconds_eq rfl htype intType true (by omega)
  · rw [if_neg hneg, abs_of_nonneg (not_lt.mp hneg), decide_eq_false hneg]
    exact splitMicroseconds_eq rfl htype intType false (not_lt.mp hneg)

lemma dateAddInterval_of_isTime (arith : Arith) (ltime : MysqlTime)
    (h : intType.isTime) (i : Interval) :
    dateAddInterval arith ltime intType i = dateAddTime arith ltime intType i := by
  have hbind : ∀ x : Option (Option MysqlTime), (x.bind fun result =>
      if ltime.timeType = .time ∧ ¬ intType.isTime then some none else some result) = x := by
    simp [h]
  cases intType <;> first | exact absurd h (by decide) | exact hbind _

/-- An interval is added exactly: a result is a valid value with the exact number of microseconds,
there is no result if the exact one is before 0001-01-01 or after 9999-12-31, and all values of
64-bit expressions fit in. -/
def AddsExactly (d : Datetime) (timeType : TimestampType) (intType : IntervalType) (i : Interval) :
    Prop :=
  (∀ r, dateAddInterval wrapArith (d.toMysqlTime timeType) intType i = some (some r) ->
    ∃ d' : Datetime, r = d'.toMysqlTime r.timeType ∧ d'.microseconds = d.total i) ∧
  (d.total i < 366 * dayMicroseconds ∨ (maxDayNumber + 1) * dayMicroseconds ≤ d.total i ->
    dateAddInterval wrapArith (d.toMysqlTime timeType) intType i = some none) ∧
  dateAddInterval exactArith (d.toMysqlTime timeType) intType i ≠ none

/-- The days of an interval fit in, and unless they are refused the exact sum fits in and is not
the negative of a valid value. -/
def Addable (d : Datetime) (i : Interval) : Prop :=
  i.days < 2 ^ 64 ∧ (i.days ≤ maxDayNumber -> -2 ^ 63 < d.total i ∧ d.total i < 2 ^ 63 ∧
    ¬ (366 ≤ -d.total i / dayMicroseconds ∧ -d.total i / dayMicroseconds ≤ maxDayNumber))

section Exactness
variable {d : Datetime} {i : Interval}

lemma dateAddTime_of_days_gt (harith : arith.Exact) (ltime : MysqlTime)
    (hfits : i.days < 2 ^ 64) (hdays : maxDayNumber < i.days) :
    dateAddTime arith ltime intType i = some none := by
  have hunsigned := harith.unsigned _ i.days_nonneg hfits
  simp [dateAddTime, hunsigned, if_pos hdays]

lemma exactArith_unsigned {x y : Int} (h : exactArith.unsigned x = some y) : y = x ∧ x < 2 ^ 64 := by
  obtain ⟨hx, hy⟩ := ite_none_right_eq_some.mp h
  exact ⟨(some_inj.mp hy).symm, hx.2⟩

lemma exactArith_signed {x y : Int} (h : exactArith.signed x = some y) :
    y = x ∧ -2 ^ 63 ≤ x ∧ x < 2 ^ 63 := by
  obtain ⟨hx, hy⟩ := ite_none_right_eq_some.mp h
  exact ⟨(some_inj.mp hy).symm, hx⟩

lemma fits_of_exact (htype : timeType ≠ .time)
    (h : dateAddTime exactArith (d.toMysqlTime timeType) intType i ≠ none) :
    i.days < 2 ^ 64 ∧ (i.days ≤ maxDayNumber -> -2 ^ 63 < d.total i ∧ d.total i < 2 ^ 63) := by
  obtain ⟨result, hresult⟩ := ne_none_iff_exists'.mp h
  unfold dateAddTime at hresult
  obtain ⟨days, hdays, hresult⟩ := bind_eq_some_iff.mp hresult
  obtain ⟨rfl, hfits⟩ := exactArith_unsigned hdays
  refine ⟨hfits, fun hle => ?_⟩
  rw [if_neg (not_lt.mpr hle)] at hresult
  obtain ⟨amount, hamount, hresult⟩ := bind_eq_some_iff.mp hresult
  obtain ⟨rfl, -⟩ := exactArith_unsigned hamount
  obtain ⟨usec, husec, hresult⟩ := bind_eq_some_iff.mp hresult
  obtain ⟨rfl, hlow, hhigh⟩ := exactArith_signed husec
  rw [combine_total d htype] at hlow hhigh hresult
  split at hresult
  · obtain ⟨usec, husec', -⟩ := bind_eq_some_iff.mp hresult
    obtain ⟨-, -, hhigh'⟩ := exactArith_signed husec'
    omega
  · omega

lemma addsExactly_of_addable (htype : timeType ≠ .time) (hunit : intType.isTime)
    (h : Addable d i) : AddsExactly d timeType intType i := by
  simp only [AddsExactly, dateAddInterval_of_isTime _ _ hunit]
  obtain ⟨hfits, hsum⟩ := h
  rcases lt_or_ge maxDayNumber i.days with hdays | hdays
  · simp [dateAddTime_of_days_gt wrapArith_exact _ hfits hdays,
      dateAddTime_of_days_gt exactArith_exact _ hfits hdays]
  · obtain ⟨hlow, hhigh, hneg⟩ := hsum hdays
    obtain ⟨result, hresult, hfold⟩ := dateAddTime_eq wrapArith_exact d htype intType hdays hlow hhigh
    obtain ⟨result', hresult', -⟩ := dateAddTime_eq exactArith_exact d htype intType hdays hlow hhigh
    rw [hresult, hresult']
    rw [FoldsTo] at hfold
    refine ⟨?_, ?_, by simp⟩
    · intro r hr
      cases hr
      split at hfold
      · rename_i hrange
        obtain ⟨d', hmicro, hr⟩ := hfold
        rcases lt_or_ge (d.total i) 0 with hlt | hge
        · rw [abs_of_neg hlt] at hrange
          exact absurd hrange hneg
        · rw [abs_of_nonneg hge] at hmicro
          rw [decide_eq_false (not_lt.mpr hge), some_inj] at hr
          subst hr
          exact ⟨d', rfl, hmicro⟩
      · cases hfold
    · intro hout
      rw [if_neg] at hfold
      · rw [hfold]
      · intro hrange
        rcases lt_or_ge (d.total i) 0 with hlt | hge
        · rw [abs_of_neg hlt] at hrange
          exact hneg hrange
        · rw [abs_of_nonneg hge, dayMicroseconds] at hrange
          rw [dayMicroseconds] at hout
          omega

/-- An interval of a unit from microseconds to days is added exactly if the sums fit in and the
result is not the negative of a valid value. -/
theorem dateAddInterval_exact_iff (d : Datetime) {timeType : TimestampType}
    (htype : timeType ≠ .time) {intType : IntervalType} (hunit : intType.isTime) (i : Interval) :
    AddsExactly d timeType intType i ↔ Addable d i := by
  refine ⟨fun h => ?_, addsExactly_of_addable htype hunit⟩
  simp only [AddsExactly, dateAddInterval_of_isTime _ _ hunit] at h
  obtain ⟨-, herror, hexact⟩ := h
  obtain ⟨hfits, hsum⟩ := fits_of_exact htype hexact
  refine ⟨hfits, fun hdays => ?_⟩
  obtain ⟨hlow, hhigh⟩ := hsum hdays
  refine ⟨hlow, hhigh, fun hrange => ?_⟩
  obtain ⟨result, hresult, hfold⟩ := dateAddTime_eq wrapArith_exact d htype intType hdays hlow hhigh
  have hlt : d.total i < 0 := by
    rw [dayMicroseconds] at hrange
    omega
  rw [FoldsTo, abs_of_neg hlt, if_pos hrange] at hfold
  obtain ⟨d', -, rfl⟩ := hfold
  rw [dayMicroseconds] at herror
  cases (herror (Or.inl (by omega))).symm.trans hresult

end Exactness

/-- `DATE_SUB('0001-01-01', INTERVAL 1000 DAY)` has a result: a date with a sign. -/
theorem dateAddInterval_negative :
    dateAddInterval wrapArith ⟨1, 1, 1, 0, 0, 0, 0, false, .date⟩ .day
      (getIntervalValue true 1000 (fun _ => 0) .day) =
        some (some ⟨1, 9, 26, 0, 0, 0, 0, true, .date⟩) := by
  decide +kernel

theorem dateAddInterval_exact_iff_day :
    AddsExactly ⟨⟨2000, 2, 28, by decide, by decide, by decide, by decide, by decide, by decide⟩,
        23, 0, 0, 0, by decide, by decide, by decide, by decide⟩ .datetime .dayHour
      (getIntervalValue false 0 (fun _ => 1) .dayHour) := by
  refine (dateAddInterval_exact_iff _ (by decide) rfl _).mpr ⟨?_, fun _ => ⟨?_, ?_, ?_⟩⟩ <;>
    decide +kernel

/-- A valid date, or date and time, from 0000-01-01 to 9999-12-31. -/
structure MysqlTime.IsCalendar (t : MysqlTime) : Prop where
  year_le : t.year ≤ 9999
  month_pos : 1 ≤ t.month
  month_le : t.month ≤ 12
  day_pos : 1 ≤ t.day
  day_le : t.day ≤ monthLength t.year t.month
  neg : t.neg = false
  timeType : t.timeType ≠ .time

def IntervalType.months (value : Nat) (array : Nat -> Nat) : IntervalType -> Option Nat
  | .year => some (12 * value)
  | .quarter => some (3 * value)
  | .month => some value
  | .yearMonth => some (12 * array 0 + array 1)
  | _ => none

/-- The exact `12 * year + month` after `n` months. -/
def MysqlTime.monthAfter (t : MysqlTime) (neg : Bool) (n : Nat) : Int :=
  12 * t.year + t.month + signed neg n

/-- Months are added exactly: a result is in the exact month, on the same day or on the last day of
the month, at the same time, and there is no result if the exact month is not one of the years from
0 to 9999. -/
def AddsMonths (t : MysqlTime) (intType : IntervalType) (neg : Bool) (value : Nat)
    (array : Nat -> Nat) (n : Nat) : Prop :=
  ∃ result, dateAddInterval wrapArith t intType (getIntervalValue neg value array intType) =
      some result ∧
    (∀ r, result = some r -> ((12 * r.year + r.month : Nat) : Int) = t.monthAfter neg n ∧
      (1 ≤ r.month ∧ r.month ≤ 12) ∧ r.day = min t.day (monthLength r.year r.month) ∧
      r = { t with year := r.year, month := r.month, day := r.day }) ∧
    (¬ (1 ≤ t.monthAfter neg n ∧ t.monthAfter neg n ≤ 120000) -> result = none)

/-- The months after which the sum of the code starts again: the years are in 32 bits for a unit of
years, and the months in 64 bits for the others. -/
def IntervalType.monthCycle : IntervalType -> Int
  | .year => 12 * 2 ^ 32
  | _ => 2 ^ 64

/-- The value in a month since year 0, with the day of a value if the month has one. -/
def MysqlTime.inMonth (t : MysqlTime) (m : Nat) : MysqlTime :=
  { t with
    year := m / 12
    month := m % 12 + 1
    day := min t.day (monthLength (m / 12) (m % 12 + 1)) }

section Months
variable {t : MysqlTime} {value n : Nat} {array : Nat -> Nat}

section
variable (h : t.IsCalendar) {m : Nat}
include h

/-- Only the 29th of February is not a day of every year. -/
lemma MysqlTime.IsCalendar.min_monthLength (year : Nat) : min t.day (monthLength year t.month) =
      if t.month = 2 ∧ t.day = 29 ∧ calcDaysInYear year ≠ 366 then 28 else t.day := by
  have hle := h.day_le
  unfold monthLength at hle ⊢
  by_cases hmonth : t.month = 2
  · have hdays : daysInMonth.getD (2 - 1) 0 = 28 := rfl
    simp only [hmonth, true_and] at hle ⊢
    split at hle <;> split <;> split <;> omega
  · simp only [hmonth] at hle ⊢
    exact min_eq_left hle

lemma dateAddInterval_years
    (hm : (12 * t.year + t.month + signed i.neg (12 * i.year) - 1) % (12 * 2 ^ 32) = m) :
    dateAddInterval wrapArith t .year i =
      some (if m < 120000 then some (t.inMonth m) else none) := by
  have hpos := h.month_pos
  have hle := h.month_le
  have hyear : ((t.year + (if i.neg = t.neg then (1 : Int) else -1) * i.year) % 2 ^ 32).toNat = m / 12 ∧
      m % 12 + 1 = t.month := by
    rw [signed] at hm
    rw [h.neg]
    cases hneg : i.neg <;>
      simp only [hneg, reduceCtorEq, if_false, if_true] at hm ⊢ <;> omega
  simp only [dateAddInterval, h.timeType, hyear.1]
  by_cases hlt : m < 120000
  · rw [if_neg (by omega), if_pos hlt, inMonth, hyear.2, h.min_monthLength]
    split <;> rfl
  · rw [if_pos (by omega), if_neg hlt]
    rfl

lemma dateAddInterval_yearMonths
    (hunit : intType = .yearMonth ∨ intType = .quarter ∨ intType = .month)
    (hm : (12 * t.year + t.month + signed i.neg (12 * i.year + i.month) - 1) % 2 ^ 64 = m) :
    dateAddInterval wrapArith t intType i =
      some (if m < 120000 then some (t.inMonth m) else none) := by
  have hunit : dateAddInterval wrapArith t intType i = dateAddInterval wrapArith t .month i := by
    rcases hunit with rfl | rfl | rfl <;> rfl
  have hperiod : ((t.year * 12 + (if i.neg = t.neg then (1 : Int) else -1) * i.year * 12 + t.month -
      1 + (if i.neg = t.neg then 1 else -1) * i.month) % 2 ^ 64).toNat = m := by
    rw [signed] at hm
    rw [h.neg]
    cases hneg : i.neg <;>
      simp only [hneg, Bool.false_eq_true, reduceCtorEq, if_false, if_true] at hm ⊢ <;> omega
  rw [hunit]
  simp only [dateAddInterval, h.timeType, hperiod]
  by_cases hlt : m < 120000
  · rw [if_neg (by omega), inMonth, monthLength]
    split
    · rw [Nat.min_eq_right (by split <;> omega)]
      rfl
    · rw [Nat.min_eq_left (by omega)]
      rfl
  · rw [if_pos (by omega), if_neg hlt]
    rfl

/-- The code adds the months modulo the cycle of the unit. -/
lemma dateAddInterval_months (hn : intType.months value array = some n) (neg : Bool)
    (hm : (t.monthAfter neg n - 1) % intType.monthCycle = m) :
    dateAddInterval wrapArith t intType (getIntervalValue neg value array intType) =
      some (if m < 120000 then some (t.inMonth m) else none) := by
  simp only [monthAfter] at hm hn
  cases intType with
  | year =>
    cases hn
    exact dateAddInterval_years h hm
  | quarter =>
    cases hn
    refine dateAddInterval_yearMonths h (by simp) ?_
    rw [← hm]
    cases neg <;> simp [getIntervalValue, Interval.zero, signed, IntervalType.monthCycle] <;> omega
  | month =>
    cases hn
    refine dateAddInterval_yearMonths h (by simp) ?_
    rw [← hm]
    simp [getIntervalValue, Interval.zero, IntervalType.monthCycle]
  | yearMonth =>
    cases hn
    exact dateAddInterval_yearMonths h (by simp) hm
  | _ => cases hn

end

/-- Months are added exactly unless the sum comes round to a month of the years from 0 to 9999. -/
theorem dateAddInterval_months_iff (h : t.IsCalendar) (hn : intType.months value array = some n)
    (neg : Bool) :
    AddsMonths t intType neg value array n ↔
      ((t.monthAfter neg n - 1) % intType.monthCycle < 120000 ->
        1 ≤ t.monthAfter neg n ∧ t.monthAfter neg n ≤ 120000) := by
  have hcycle : 120000 < intType.monthCycle := by cases intType <;> decide
  obtain ⟨m, hm⟩ := eq_ofNat_of_zero_le
    (emod_nonneg (t.monthAfter neg n - 1) (by omega : intType.monthCycle ≠ 0))
  have hsum := dateAddInterval_months h hn neg hm
  constructor
  · rintro ⟨result, hresult, -, herror⟩ hlt
    by_contra hout
    rw [hsum, herror hout, if_pos (by omega)] at hresult
    cases hresult
  · intro hexact
    refine ⟨_, hsum, fun r hr => ?_, fun hout => if_neg fun hlt => hout (hexact (by omega))⟩
    obtain ⟨hlt, ⟨⟩⟩ := ite_none_right_eq_some.mp hr
    rw [emod_eq_of_lt (by omega) (by omega)] at hm
    have hmonth : 12 * (m / 12) + (m % 12 + 1) = m + 1 := by omega
    refine ⟨?_, ⟨succ_pos _, succ_le_of_lt (mod_lt m (by decide))⟩, rfl, rfl⟩
    rw [inMonth, hmonth]
    omega

end Months

/-- `DATE_ADD('2000-01-01', INTERVAL 4294967296 YEAR)` is the same date. -/
theorem dateAddInterval_years_wrap :
    ¬ AddsMonths ⟨2000, 1, 1, 0, 0, 0, 0, false, .date⟩ .year false 4294967296 (fun _ => 0)
      (12 * 4294967296) := by
  rintro ⟨result, hresult, hexact, -⟩
  have hsame : dateAddInterval wrapArith ⟨2000, 1, 1, 0, 0, 0, 0, false, .date⟩ .year
      (getIntervalValue false 4294967296 (fun _ => 0) .year) =
        some (some ⟨2000, 1, 1, 0, 0, 0, 0, false, .date⟩) := by
    decide +kernel
  obtain rfl := some.inj (hresult.symm.trans hsame)
  exact absurd (hexact _ rfl).1 (by decide)

theorem dateAddInterval_months_iff_january :
    AddsMonths ⟨2000, 1, 31, 12, 0, 0, 0, false, .datetime⟩ .month false 1 (fun _ => 0) 1 :=
  (dateAddInterval_months_iff ⟨by decide, by decide, by decide, by decide, by decide, rfl, by decide⟩
    rfl false).mpr (by decide)

end Sql
