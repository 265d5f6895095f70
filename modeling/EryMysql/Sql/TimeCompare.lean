import EryMysql.Sql.PackedTime

/-!
# Comparing temporal values

`pack_time` makes one number of a value, in which the sign of a `TIME` is applied to the whole.
The number of a `TIME` is its length in microseconds. `unpack_time` takes every number for a
`DATETIME`, and the readers of a `TIME` put the days back into the hours.
-/

namespace Sql

open WordArray Int MysqlTime

def MysqlTime.total (t : MysqlTime) : Nat :=
  (((((t.year * 13 + t.month) * 32 + t.day) * 24 + t.hour) * 60 + t.minute) * 60 + t.second) *
    1000000 + t.secondPart

def packTime (t : MysqlTime) : Int := (signed t.neg t.total).bmod (2 ^ 64)

def unpackTime (packed : Int) : MysqlTime :=
  let total := packed.natAbs
  { year := total / 1000000 / 60 / 60 / 24 / 32 / 13
    month := total / 1000000 / 60 / 60 / 24 / 32 % 13
    day := total / 1000000 / 60 / 60 / 24 % 32
    hour := total / 1000000 / 60 / 60 % 24
    minute := total / 1000000 / 60 % 60
    second := total / 1000000 % 60
    secondPart := total % 1000000
    neg := decide (packed < 0)
    timeType := .datetime }

/-- `Item_cache_temporal::get_date`, which reads a packed value of a type. -/
def cachedDate (packed : Int) (timeType : TimestampType) : MysqlTime :=
  let ltime := { unpackTime packed with timeType }
  if timeType = .time then
    { ltime with hour := ltime.hour + (ltime.month * 32 + ltime.day) * 24, month := 0, day := 0 }
  else ltime

/-- `my_time_compare`, in which the packed numbers are taken for unsigned ones. -/
def myTimeCompare (a b : MysqlTime) : Int :=
  if packTime a % 2 ^ 64 < packTime b % 2 ^ 64 then -1
  else if packTime b % 2 ^ 64 < packTime a % 2 ^ 64 then 1
  else 0

def orderSign : Ordering -> Int
  | .lt => -1
  | .eq => 0
  | .gt => 1

variable {t t' : MysqlTime}

lemma packTime_of_isTime (h : t.IsTime) : packTime t = t.microseconds := by
  obtain ⟨hyear, hmonth, hhour, hminute, hsecond, hpart⟩ := h
  simp only [packTime, total, hyear, hmonth, microseconds, signed]
  rw [bmod_eq_of_le (by split <;> omega) (by split <;> omega)]
  push_cast
  split <;> ring

lemma MysqlTime.IsTime.microseconds_bounds (h : t.IsTime) :
    -2 ^ 63 < t.microseconds ∧ t.microseconds < 2 ^ 63 := by
  obtain ⟨hyear, hmonth, hhour, hminute, hsecond, hpart⟩ := h
  rw [microseconds, signed]
  split <;> omega

lemma packTime_of_isDatetime (h : t.IsDatetime) :
    packTime t = t.total ∧ (t.total : Int) < 2 ^ 63 := by
  obtain ⟨hyear, hmonth, hday, hhour, hminute, hsecond, hpart, hneg, -⟩ := h
  have hlt : (t.total : Int) < 2 ^ 63 := by
    rw [total]
    omega
  rw [packTime, hneg, signed]
  exact ⟨bmod_eq_of_le (by omega) (by omega), hlt⟩

lemma compare_packTime_time (h : t.IsTime) (h' : t'.IsTime) :
    compare (packTime t) (packTime t') = compare t.microseconds t'.microseconds := by
  rw [packTime_of_isTime h, packTime_of_isTime h']

lemma compare_packTime_datetime (h : t.IsDatetime) (h' : t'.IsDatetime) :
    compare (packTime t) (packTime t') = t.chronological t' := by
  rw [(packTime_of_isDatetime h).1, (packTime_of_isDatetime h').1, compare_natCast, total,
    total]
  obtain ⟨-, hmonth, hday, hhour, hminute, hsecond, hpart, -, -⟩ := h
  obtain ⟨-, hmonth', hday', hhour', hminute', hsecond', hpart', -, -⟩ := h'
  iterate 6 rw [compare_nat_mul_add (by omega) (by omega)]
  simp [chronological, Ordering.then_assoc]

lemma unpackTime_packTime (h : t.IsDatetime) : unpackTime (packTime t) = t := by
  rw [(packTime_of_isDatetime h).1]
  obtain ⟨hyear, hmonth, hday, hhour, hminute, hsecond, hpart, hneg, htype⟩ := h
  simp only [unpackTime, total]
  ext <;> dsimp only
  iterate 7 omega
  · rw [hneg]
    exact decide_eq_false (not_lt.mpr (natCast_nonneg _))
  · exact htype.symm

lemma cachedDate_packTime (h : t.IsTime) : cachedDate (packTime t) .time = t.normal := by
  rw [packTime_of_isTime h]
  obtain ⟨hyear, hmonth, hhour, hminute, hsecond, hpart⟩ := h
  have htotal : t.microseconds.natAbs =
      (((t.day * 24 + t.hour) * 60 + t.minute) * 60 + t.second) * 1000000 + t.secondPart := by
    rw [microseconds, signed]
    split <;> omega
  have hneg : decide (t.microseconds < 0) = (t.neg && decide (t.microseconds ≠ 0)) := by
    rw [Bool.eq_iff_iff, Bool.and_eq_true, decide_eq_true_iff, decide_eq_true_iff,
      microseconds, signed]
    by_cases hneg : t.neg = true
    · rw [if_pos hneg, and_iff_right hneg]
      omega
    · rw [if_neg hneg, iff_false_right fun h => hneg h.1]
      omega
  simp only [cachedDate, if_true, unpackTime, normal, hneg]
  ext <;> dsimp only
  · omega
  · exact hmonth.symm
  iterate 4 omega

lemma myTimeCompare_eq (hlow : -2 ^ 63 < packTime t) (hhigh : packTime t < 2 ^ 63)
    (hlow' : -2 ^ 63 < packTime t') (hhigh' : packTime t' < 2 ^ 63)
    (hsign : packTime t < 0 ↔ packTime t' < 0) :
    myTimeCompare t t' = orderSign (compare (packTime t) (packTime t')) := by
  rw [myTimeCompare]
  rcases lt_trichotomy (packTime t) (packTime t') with hlt | heq | hgt
  · rw [compare_lt_iff_lt.mpr hlt, if_pos (by omega), orderSign]
  · rw [compare_eq_iff_eq.mpr heq, if_neg (by omega), if_neg (by omega), orderSign]
  · rw [compare_gt_iff_gt.mpr hgt, if_neg (by omega), if_pos (by omega), orderSign]

/-- A `DATETIME` is unpacked as it was, a `TIME` is read as it was up to its days and the sign of
zero, packed numbers are in chronological order, and so are the answers of `my_time_compare` for
values of which both or none are negative. -/
theorem packTime_order :
    ((∀ t : MysqlTime, t.IsDatetime -> unpackTime (packTime t) = t) ∧
      ∀ t : MysqlTime, t.IsTime -> cachedDate (packTime t) .time = t.normal) ∧
    ((∀ t t' : MysqlTime, t.IsDatetime -> t'.IsDatetime ->
        compare (packTime t) (packTime t') = t.chronological t') ∧
      ∀ t t' : MysqlTime, t.IsTime -> t'.IsTime ->
        compare (packTime t) (packTime t') = compare t.microseconds t'.microseconds) ∧
    (∀ t t' : MysqlTime, t.IsDatetime -> t'.IsDatetime ->
        myTimeCompare t t' = orderSign (t.chronological t')) ∧
      ∀ t t' : MysqlTime, t.IsTime -> t'.IsTime -> (t.microseconds < 0 ↔ t'.microseconds < 0) ->
        myTimeCompare t t' = orderSign (compare t.microseconds t'.microseconds) := by
  refine ⟨⟨fun _ => unpackTime_packTime, fun _ => cachedDate_packTime⟩,
    ⟨fun _ _ => compare_packTime_datetime, fun _ _ => compare_packTime_time⟩,
    fun t t' h h' => ?_, fun t t' h h' hsign => ?_⟩
  · obtain ⟨heq, hlt⟩ := packTime_of_isDatetime h
    obtain ⟨heq', hlt'⟩ := packTime_of_isDatetime h'
    rw [← compare_packTime_datetime h h']
    exact myTimeCompare_eq (by omega) (by omega) (by omega) (by omega) (by omega)
  · obtain ⟨hlow, hhigh⟩ := h.microseconds_bounds
    obtain ⟨hlow', hhigh'⟩ := h'.microseconds_bounds
    rw [← packTime_of_isTime h] at hlow hhigh hsign
    rw [← packTime_of_isTime h'] at hlow' hhigh' hsign
    rw [← compare_packTime_time h h']
    exact myTimeCompare_eq hlow hhigh hlow' hhigh' hsign

/-- The time 24:00:00 is unpacked as one day, and a negative second is after a second. -/
theorem unpackTime_day :
    (∃ t : MysqlTime, t.IsTime ∧ unpackTime (packTime t) = ⟨0, 0, 1, 0, 0, 0, 0, false, .datetime⟩ ∧
      t = ⟨0, 0, 0, 24, 0, 0, 0, false, .time⟩) ∧
    myTimeCompare ⟨0, 0, 0, 0, 0, 1, 0, true, .time⟩ ⟨0, 0, 0, 0, 0, 1, 0, false, .time⟩ = 1 :=
  ⟨⟨_, ⟨rfl, rfl, by decide, by decide, by decide, by decide⟩, by decide, rfl⟩, by decide⟩

end Sql
