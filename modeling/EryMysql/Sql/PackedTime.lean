import EryMysql.Lib.Bytes
import Mathlib.Tactic.IntervalCases

/-!
# Temporal values on disk

A `TIME`, `DATETIME` or `TIMESTAMP` of a precision from 0 to 6 is stored in a few bytes: an integer
part and a fraction of one byte for every two digits. Each of the formats is the image of one
number, in which the sign turns the order round, so the bytes compare as the values do.
-/

namespace Sql

open Bytes WordArray List Int

inductive TimestampType
  | none
  | error
  | date
  | datetime
  | time
  deriving DecidableEq

@[ext] structure MysqlTime where
  year : Nat
  month : Nat
  day : Nat
  hour : Nat
  minute : Nat
  second : Nat
  secondPart : Nat
  neg : Bool
  timeType : TimestampType
  deriving DecidableEq

structure Timeval where
  sec : Int
  usec : Int
  deriving DecidableEq

def timeSecondPartDigits : Nat := 6

/-- `MY_PACKED_TIME_GET_INT_PART` -/
def packedIntPart (x : Int) : Int := x >>> (24 : Nat)

/-- `MY_PACKED_TIME_GET_FRAC_PART`, with the sign of the number. -/
def packedFracPart (x : Int) : Int := x.tmod (2 ^ 24)

/-- `MY_PACKED_TIME_MAKE` -/
def packedMake (i f : Int) : Int := i * 2 ^ 24 + f

def signed (neg : Bool) (x : Int) : Int := if neg then -x else x

def timeToLonglongTimePacked (ltime : MysqlTime) : Int :=
  let hms := (((if ltime.month ≠ 0 then 0 else ltime.day * 24) + ltime.hour) <<< 12) |||
    (ltime.minute <<< 6) ||| ltime.second
  signed ltime.neg (packedMake hms ltime.secondPart)

def timeFromLonglongTimePacked (tmp : Int) : MysqlTime :=
  let neg := decide (tmp < 0)
  let tmp := if tmp < 0 then -tmp else tmp
  let hms := (packedIntPart tmp).toNat
  { year := 0
    month := 0
    day := 0
    hour := (hms >>> 12) % (1 <<< 10)
    minute := (hms >>> 6) % (1 <<< 6)
    second := hms % (1 <<< 6)
    secondPart := (packedFracPart tmp).toNat
    neg := neg
    timeType := .time }

def timeToLonglongDatetimePacked (ltime : MysqlTime) : Int :=
  let ymd := ((ltime.year * 13 + ltime.month) <<< 5) ||| ltime.day
  let hms := (ltime.hour <<< 12) ||| (ltime.minute <<< 6) ||| ltime.second
  signed ltime.neg (packedMake ((ymd <<< 17) ||| hms : Nat) ltime.secondPart)

def timeFromLonglongDatetimePacked (tmp : Int) : MysqlTime :=
  let neg := decide (tmp < 0)
  let tmp := if tmp < 0 then -tmp else tmp
  let ymdhms := (packedIntPart tmp).toNat
  let ymd := ymdhms >>> 17
  let ym := ymd >>> 5
  let hms := ymdhms % (1 <<< 17)
  { year := ym / 13
    month := ym % 13
    day := ymd % (1 <<< 5)
    hour := hms >>> 12
    minute := (hms >>> 6) % (1 <<< 6)
    second := hms % (1 <<< 6)
    secondPart := (packedFracPart tmp).toNat
    neg := neg
    timeType := .datetime }

def fracBytes (dec : Nat) : Nat := (dec + 1) / 2

def myTimeBinaryLength (dec : Nat) : Nat := 3 + fracBytes dec

def myDatetimeBinaryLength (dec : Nat) : Nat := 5 + fracBytes dec

def myTimestampBinaryLength (dec : Nat) : Nat := 4 + fracBytes dec

/-- The assertion of the three functions that store a value: it was rounded before. -/
def Rounded (frac : Int) (dec : Nat) : Prop :=
  dec ≤ timeSecondPartDigits ∧ frac.tmod (10 ^ (timeSecondPartDigits - dec)) = 0

instance (frac : Int) (dec : Nat) : Decidable (Rounded frac dec) :=
  inferInstanceAs (Decidable (_ ∧ _))

def timefIntOfs : Int := 0x800000

def timefOfs : Int := 0x800000000000

def datetimefIntOfs : Int := 0x8000000000

def myTimePackedToBinary (nr : Int) (dec : Nat) : Option (List Nat) :=
  if ¬ Rounded (packedFracPart nr) dec then none
  else match dec with
    | 1 | 2 => some (store 3 (timefIntOfs + packedIntPart nr) ++
        store 1 ((packedFracPart nr).tdiv 10000))
    | 3 | 4 => some (store 3 (timefIntOfs + packedIntPart nr) ++
        store 2 ((packedFracPart nr).tdiv 100))
    | 5 | 6 => some (store 6 (nr + timefOfs))
    | _ => some (store 3 (timefIntOfs + packedIntPart nr))

/-- The fraction of a negative value is stored as its distance to the next integer. -/
def timeFracFromBinary (intpart frac range scale : Int) : Int :=
  if intpart < 0 ∧ frac ≠ 0 then packedMake (intpart + 1) ((frac - range) * scale)
  else packedMake intpart (frac * scale)

def myTimePackedFromBinary (ptr : List Nat) (dec : Nat) : Int :=
  match dec with
  | 1 | 2 => timeFracFromBinary (toUnsigned (ptr.take 3) - timefIntOfs)
      (toUnsigned ((ptr.drop 3).take 1)) 0x100 10000
  | 3 | 4 => timeFracFromBinary (toUnsigned (ptr.take 3) - timefIntOfs)
      (toUnsigned ((ptr.drop 3).take 2)) 0x10000 100
  | 5 | 6 => toUnsigned (ptr.take 6) - timefOfs
  | _ => packedMake (toUnsigned (ptr.take 3) - timefIntOfs) 0

def fracToBinary (frac : Int) (dec : Nat) : List Nat :=
  match dec with
  | 1 | 2 => store 1 (frac.tdiv 10000)
  | 3 | 4 => store 2 (frac.tdiv 100)
  | 5 | 6 => store 3 frac
  | _ => []

def myDatetimePackedToBinary (nr : Int) (dec : Nat) : Option (List Nat) :=
  if ¬ Rounded (packedFracPart nr) dec then none
  else some (store 5 (packedIntPart nr + datetimefIntOfs) ++ fracToBinary (packedFracPart nr) dec)

def myDatetimePackedFromBinary (ptr : List Nat) (dec : Nat) : Int :=
  let intpart := toUnsigned (ptr.take 5) - datetimefIntOfs
  match dec with
  | 1 | 2 => packedMake intpart (toSigned ((ptr.drop 5).take 1) * 10000)
  | 3 | 4 => packedMake intpart (toSigned ((ptr.drop 5).take 2) * 100)
  | 5 | 6 => packedMake intpart (toSigned ((ptr.drop 5).take 3))
  | _ => packedMake intpart 0

def myTimestampToBinary (tm : Timeval) (dec : Nat) : Option (List Nat) :=
  if ¬ Rounded tm.usec dec then none
  else some (store 4 tm.sec ++ fracToBinary tm.usec dec)

def myTimestampFromBinary (ptr : List Nat) (dec : Nat) : Timeval :=
  let sec := toUnsigned (ptr.take 4)
  match dec with
  | 1 | 2 => ⟨sec, toUnsigned ((ptr.drop 4).take 1) * 10000⟩
  | 3 | 4 => ⟨sec, toSigned ((ptr.drop 4).take 2) * 100⟩
  | 5 | 6 => ⟨sec, toSigned ((ptr.drop 4).take 3)⟩
  | _ => ⟨sec, 0⟩

lemma compare_signed {s t : Bool} {x y p q : Int} (h : compare x y = compare p q) (hx : 0 ≤ x)
    (hy : 0 ≤ y) (hp : 0 ≤ p) (hq : 0 ≤ q) (ht : y = 0 ↔ q = 0) :
    compare (signed s x) (signed t y) = compare (signed s p) (signed t q) := by
  obtain ⟨hlt, hgt⟩ := compare_eq_compare_iff.mp h
  rw [compare_eq_compare_iff]
  cases s <;> cases t <;> simp only [signed, Bool.false_eq_true, if_true, if_false] <;> omega

variable {neg : Bool} {b w u : Int}

/-- The integer part of a negative number with a fraction is one less. -/
lemma signed_ediv (hu0 : 0 ≤ u) (hu : u < b) :
    signed neg (w * b + u) / b = signed neg w - if neg ∧ u ≠ 0 then 1 else 0 := by
  rw [ediv_eq_iff_of_pos (hu0.trans_lt hu)]
  cases neg with
  | false => simp only [signed, Bool.false_eq_true, false_and, if_false]; constructor <;> linarith
  | true =>
    simp only [signed, if_true, true_and]
    split
    · rename_i hne
      have hpos : 0 < u := lt_of_le_of_ne hu0 (Ne.symm hne)
      constructor <;> linarith
    · rename_i hzero
      obtain rfl := not_not.mp hzero
      constructor <;> linarith

lemma signed_tmod (hu0 : 0 ≤ u) (hu : u < b) (hw : 0 ≤ w) :
    (signed neg (w * b + u)).tmod b = signed neg u := by
  have hmod : (w * b + u).tmod b = u := by
    rw [tmod_eq_emod_of_nonneg (by nlinarith), mul_comm, mul_add_emod_self_left,
      emod_eq_of_lt hu0 hu]
  cases neg with
  | false => exact hmod
  | true => rw [signed, signed, if_pos rfl, if_pos rfl, neg_tmod, hmod]

lemma signed_mul_tdiv {s u : Int} (hs : s ≠ 0) :
    (signed neg (s * u)).tdiv s = signed neg u := by
  cases neg with
  | false => exact mul_tdiv_cancel_left _ hs
  | true => rw [signed, signed, if_pos rfl, if_pos rfl, Int.neg_tdiv, Int.mul_tdiv_cancel_left _ hs]

lemma store_signed (neg : Bool) (k m : Nat) (ofs : Int) {w u : Int} (hu0 : 0 ≤ u)
    (hu : u < 256 ^ m) :
    store (k + m) (ofs * 256 ^ m + signed neg (w * 256 ^ m + u)) =
      store k (ofs + (signed neg w - if neg ∧ u ≠ 0 then 1 else 0)) ++ store m (signed neg u) := by
  rw [store_add]
  congr 1
  · rw [add_comm (ofs * _), add_mul_ediv_right _ _ (by positivity), signed_ediv hu0 hu,
      add_comm]
  · apply store_congr
    rw [modEq_iff_dvd]
    cases neg with
    | false => exact ⟨-ofs - w, by simp only [signed, Bool.false_eq_true, if_false]; ring⟩
    | true => exact ⟨-ofs + w, by simp only [signed, if_true]; ring⟩

/-- How many microseconds one unit of a stored fraction has. -/
def fracScale (dec : Nat) : Int := 10 ^ (timeSecondPartDigits - 2 * fracBytes dec)

/-- A fraction in units of its precision. -/
structure Frac (dec : Nat) (frac u : Int) : Prop where
  dec_le : dec ≤ timeSecondPartDigits
  eq : frac = fracScale dec * u
  nonneg : 0 ≤ u
  two_mul_lt : 2 * u < 256 ^ fracBytes dec
  frac_lt : frac < 10 ^ 6
  rounded : (10 : Int) ^ (timeSecondPartDigits - dec) ∣ frac

lemma fracScale_pos (dec : Nat) : 0 < fracScale dec := by
  unfold fracScale
  positivity

variable {dec : Nat}

lemma exists_frac (hdec : dec ≤ 6) {frac : Nat} (hfrac : frac ≤ 999999)
    (hdvd : 10 ^ (6 - dec) ∣ frac) : ∃ u : Int, Frac dec frac u := by
  have hdvd' : (10 : Int) ^ (timeSecondPartDigits - dec) ∣ frac := by exact_mod_cast hdvd
  have hle : timeSecondPartDigits - 2 * fracBytes dec ≤ timeSecondPartDigits - dec := by
    rw [fracBytes]
    omega
  obtain ⟨u, hu⟩ := (pow_dvd_pow (10 : Int) hle).trans hdvd'
  have hbounds : 0 ≤ u ∧ 2 * u < 256 ^ fracBytes dec := by
    interval_cases dec <;> norm_num [timeSecondPartDigits, fracBytes] at hu ⊢ <;> omega
  exact ⟨u, hdec, hu, hbounds.1, hbounds.2, by omega, hdvd'⟩

variable {dec : Nat} {frac u : Int} {k m : Nat}

lemma fracScale_one (hm : fracBytes dec = 1) : fracScale dec = 10000 := by
  rw [fracScale, hm, timeSecondPartDigits]
  norm_num

lemma fracScale_two (hm : fracBytes dec = 2) : fracScale dec = 100 := by
  rw [fracScale, hm, timeSecondPartDigits]
  norm_num

section
variable (h : Frac dec frac u)
include h

lemma Frac.frac_nonneg : 0 ≤ frac := by
  rw [h.eq]
  exact mul_nonneg (fracScale_pos dec).le h.nonneg

lemma Frac.lt : u < 256 ^ fracBytes dec := by
  linarith [h.nonneg, h.two_mul_lt]

lemma Frac.eq_zero_iff : u = 0 ↔ frac = 0 := by
  rw [h.eq, mul_eq_zero]
  exact ⟨Or.inr, fun h' => h'.resolve_left (fracScale_pos dec).ne'⟩

lemma Frac.rounded_signed (neg : Bool) : Rounded (signed neg frac) dec := by
  refine ⟨h.dec_le, tmod_eq_zero_of_dvd ?_⟩
  cases neg with
  | false => exact h.rounded
  | true => exact (Int.dvd_neg).mpr h.rounded

lemma Frac.compare_eq {frac' u' : Int} (h' : Frac dec frac' u') :
    compare u u' = compare frac frac' := by
  rw [compare_eq_compare_iff, h.eq, h'.eq]
  exact ⟨(mul_lt_mul_iff_right₀ (fracScale_pos dec)).symm,
    (mul_lt_mul_iff_right₀ (fracScale_pos dec)).symm⟩

lemma fracToBinary_eq : fracToBinary frac dec = store (fracBytes dec) u := by
  have hdec := h.dec_le
  have hdiv : frac.tdiv (fracScale dec) = u := by
    rw [h.eq]
    exact mul_tdiv_cancel_left _ (fracScale_pos dec).ne'
  have heq := h.eq
  rw [timeSecondPartDigits] at hdec
  interval_cases dec
  · rfl
  iterate 2 exact congrArg (store 1) hdiv
  iterate 2 exact congrArg (store 2) hdiv
  iterate 2 exact congrArg (store 3) (heq.trans (one_mul u))

end

section Time
variable {neg : Bool} {w : Int}

lemma packedFracPart_eq (h : Frac dec frac u) (hw : 0 ≤ w) :
    packedFracPart (signed neg (packedMake w frac)) = signed neg frac :=
  signed_tmod h.frac_nonneg (h.frac_lt.trans (by decide)) hw

lemma packedIntPart_eq (h : Frac dec frac u) : packedIntPart (signed neg (packedMake w frac)) =
    signed neg w - if neg ∧ u ≠ 0 then 1 else 0 := by
  have hiff := h.eq_zero_iff
  have hdiv : signed neg (w * 2 ^ 24 + frac) / 2 ^ 24 =
      signed neg w - if neg ∧ frac ≠ 0 then 1 else 0 :=
    signed_ediv h.frac_nonneg (h.frac_lt.trans (by decide))
  rw [← not_iff_not] at hiff
  simp only [packedIntPart, shiftRight_eq_div_pow, hiff]
  exact hdiv

/-- The number whose bytes `my_time_packed_to_binary` stores. -/
def timeImage (neg : Bool) (w u : Int) (dec : Nat) : Int :=
  timefIntOfs * 256 ^ fracBytes dec + signed neg (w * 256 ^ fracBytes dec + u)

/-- With three bytes of fraction the image is the packed number, moved. -/
lemma timeImage_eq (h : Frac dec frac u) (hm : fracBytes dec = 3) :
    timeImage neg w u dec = signed neg (packedMake w frac) + timefOfs := by
  have hfrac : frac = u := by
    rw [h.eq, fracScale, hm]
    exact one_mul u
  rw [timeImage, hm, hfrac, add_comm]
  rfl

lemma myTimePackedToBinary_eq (h : Frac dec frac u) (hw : 0 ≤ w) :
    myTimePackedToBinary (signed neg (packedMake w frac)) dec =
      some (store (3 + fracBytes dec) (timeImage neg w u dec)) := by
  have hdec := h.dec_le
  have hdiv : (signed neg frac).tdiv (fracScale dec) = signed neg u := by
    rw [h.eq]
    exact signed_mul_tdiv (fracScale_pos dec).ne'
  have himage := store_signed neg 3 (fracBytes dec) timefIntOfs (w := w) h.nonneg h.lt
  unfold myTimePackedToBinary
  rw [packedFracPart_eq h hw, packedIntPart_eq h, if_neg (not_not.mpr (h.rounded_signed neg)),
    timeImage]
  rw [timeSecondPartDigits] at hdec
  interval_cases dec
  · rw [himage]
    exact congrArg some (append_nil _).symm
  iterate 4
    rw [himage, ← hdiv]
    rfl
  iterate 2 exact congrArg (fun v => some (store 6 v)) (timeImage_eq h rfl).symm

lemma timeFracFromBinary_eq (h : Frac dec frac u) (hw : 0 ≤ w) :
    timeFracFromBinary (signed neg w - if neg ∧ u ≠ 0 then 1 else 0)
      (signed neg u % 256 ^ fracBytes dec) (256 ^ fracBytes dec) (fracScale dec) =
      signed neg (packedMake w frac) := by
  have hmod := emod_eq_of_lt h.nonneg h.lt
  rw [timeFracFromBinary, h.eq]
  cases neg with
  | false =>
    simp only [signed, Bool.false_eq_true, false_and, if_false, sub_zero, hmod]
    rw [if_neg fun hneg => absurd hneg.1 (not_lt.mpr hw), mul_comm]
  | true =>
    simp only [signed, if_true, true_and]
    by_cases hu : u = 0
    · subst hu
      simp [packedMake]
    · have hpos : 0 < u := lt_of_le_of_ne h.nonneg (Ne.symm hu)
      have hneg : -u % 256 ^ fracBytes dec = 256 ^ fracBytes dec - u := by
        rw [← add_emod_right, emod_eq_of_lt (by linarith [h.lt]) (by linarith)]
        ring
      rw [hneg, if_pos hu, if_pos ⟨by linarith, by linarith [h.lt]⟩, packedMake, packedMake]
      ring

lemma toUnsigned_take_store {x y : Int} (hx0 : 0 ≤ x) (hx : x < 256 ^ k) :
    toUnsigned ((store k x ++ store m y).take k) = x := by
  rw [take_left' (length_store k x), toUnsigned_store, emod_eq_of_lt hx0 hx]

lemma take_drop_store {x y : Int} :
    ((store k x ++ store m y).drop k).take m = store m y := by
  rw [drop_left' (length_store k x), take_of_length_le (length_store m y).le]

lemma signed_packedMake_bounds (neg : Bool) (h : Frac dec frac u) (hw : 0 ≤ w) (hw' : w < 2 ^ 22) :
    -timefOfs ≤ signed neg (packedMake w frac) ∧ signed neg (packedMake w frac) < timefOfs := by
  have hfrac := h.frac_nonneg
  have hfrac' := h.frac_lt
  rw [packedMake, timefOfs]
  cases neg <;> simp only [signed] <;> omega

lemma signed_packedMake_zero : signed neg (packedMake w 0) = packedMake (signed neg w) 0 := by
  cases neg <;> simp [signed, packedMake]

lemma read_six {k : Nat} {x nr : Int} (hk : k = 6) (hx : x = nr + timefOfs) (hlow : -timefOfs ≤ nr)
    (hhigh : nr < timefOfs) :
    toUnsigned ((store k x).take 6) - timefOfs = nr := by
  subst hk
  rw [timefOfs] at *
  rw [take_of_length_le (length_store 6 x).le, toUnsigned_store, emod_eq_of_lt]
  iterate 3 omega

lemma timeImage_store (h : Frac dec frac u) : store (3 + fracBytes dec) (timeImage neg w u dec) =
    store 3 (timefIntOfs + (signed neg w - if neg ∧ u ≠ 0 then 1 else 0)) ++
      store (fracBytes dec) (signed neg u) :=
  store_signed neg 3 (fracBytes dec) timefIntOfs h.nonneg h.lt

section
variable (h : Frac dec frac u) (hw : 0 ≤ w) (hw' : w < 2 ^ 22)
include h hw hw'

lemma read_intpart :
    toUnsigned ((store (3 + fracBytes dec) (timeImage neg w u dec)).take 3) - timefIntOfs =
      signed neg w - if neg ∧ u ≠ 0 then 1 else 0 := by
  rw [timeImage_store h, toUnsigned_take_store]
  all_goals
    rw [timefIntOfs]
    cases neg <;> simp only [signed] <;> split <;> omega

lemma read_frac {m : Nat} {range scale : Int} (hm : fracBytes dec = m)
    (hrange : 256 ^ fracBytes dec = range) (hscale : fracScale dec = scale) : timeFracFromBinary
      (toUnsigned ((store (3 + fracBytes dec) (timeImage neg w u dec)).take 3) - timefIntOfs)
      (toUnsigned (((store (3 + fracBytes dec) (timeImage neg w u dec)).drop 3).take m)) range scale =
      signed neg (packedMake w frac) := by
  rw [← timeFracFromBinary_eq h hw, hscale, read_intpart h hw hw', timeImage_store h, ← hm,
    take_drop_store, toUnsigned_store, hrange]

lemma myTimePackedFromBinary_eq :
    myTimePackedFromBinary (store (3 + fracBytes dec) (timeImage neg w u dec)) dec =
      signed neg (packedMake w frac) := by
  have hdec := h.dec_le
  have hbounds := signed_packedMake_bounds neg h hw hw'
  rw [timeSecondPartDigits] at hdec
  interval_cases dec
  · have hu : u = 0 := by
      have hu0 := h.nonneg
      have hu1 : u < 256 ^ 0 := h.lt
      omega
    rw [h.eq_zero_iff.mp hu, signed_packedMake_zero]
    exact congrArg (packedMake · 0) ((read_intpart h hw hw').trans (by simp [hu]))
  iterate 2
    rw [myTimePackedFromBinary]
    exact read_frac h hw hw' rfl (by norm_num [fracBytes]) (fracScale_one rfl)
  iterate 2
    rw [myTimePackedFromBinary]
    exact read_frac h hw hw' rfl (by norm_num [fracBytes]) (fracScale_two rfl)
  iterate 2
    rw [myTimePackedFromBinary]
    exact read_six rfl (timeImage_eq h rfl) hbounds.1 hbounds.2

end

end Time

/-- A valid `TIME`, up to 838:59:59.999999. -/
structure MysqlTime.IsTime (t : MysqlTime) : Prop where
  year : t.year = 0
  month : t.month = 0
  hour : t.day * 24 + t.hour ≤ 838
  minute : t.minute ≤ 59
  second : t.second ≤ 59
  secondPart : t.secondPart ≤ 999999

/-- A `DATETIME` from 0000-00-00 to 9999-12-31 23:59:59.999999. -/
structure MysqlTime.IsDatetime (t : MysqlTime) : Prop where
  year : t.year ≤ 9999
  month : t.month ≤ 12
  day : t.day ≤ 31
  hour : t.hour ≤ 23
  minute : t.minute ≤ 59
  second : t.second ≤ 59
  secondPart : t.secondPart ≤ 999999
  neg : t.neg = false
  timeType : t.timeType = .datetime

def MysqlTime.microseconds (t : MysqlTime) : Int :=
  signed t.neg ((((t.day * 24 + t.hour) * 60 + t.minute) * 60 + t.second) * 1000000 + t.secondPart)

/-- A `TIME` without days, in which zero has no sign. -/
def MysqlTime.normal (t : MysqlTime) : MysqlTime :=
  { t with
    day := 0
    hour := t.day * 24 + t.hour
    neg := t.neg && decide (t.microseconds ≠ 0)
    timeType := .time }

/-- Two `DATETIME` values from the greatest unit to the smallest. -/
def MysqlTime.chronological (t t' : MysqlTime) : Ordering :=
  (compare t.year t'.year).then <| (compare t.month t'.month).then <|
    (compare t.day t'.day).then <| (compare t.hour t'.hour).then <|
      (compare t.minute t'.minute).then <| (compare t.second t'.second).then <|
        compare t.secondPart t'.secondPart

lemma shiftLeft_or (a : Nat) {b k : Nat} (hb : b < 2 ^ k) : (a <<< k) ||| b = a * 2 ^ k + b := by
  rw [← Nat.shiftLeft_add_eq_or_of_lt hb, Nat.shiftLeft_eq]

lemma shiftLeft_or_or (a : Nat) {b c : Nat} (hb : b < 2 ^ 6) (hc : c < 2 ^ 6) :
    (a <<< 12) ||| (b <<< 6) ||| c = (a * 64 + b) * 64 + c := by
  have hab : (a <<< 12) ||| (b <<< 6) = (a * 64 + b) <<< 6 := by
    rw [shiftLeft_or a (by omega), Nat.shiftLeft_eq, Nat.shiftLeft_eq]
    ring
  rw [hab, shiftLeft_or _ hc]
  rfl

def MysqlTime.hms (t : MysqlTime) : Nat :=
  ((t.day * 24 + t.hour) * 64 + t.minute) * 64 + t.second

variable {t : MysqlTime} {w : Int} {t t' : MysqlTime}

lemma timeToLonglongTimePacked_eq (h : t.IsTime) :
    timeToLonglongTimePacked t = signed t.neg (packedMake t.hms t.secondPart) := by
  have hminute := h.minute
  have hsecond := h.second
  rw [timeToLonglongTimePacked, if_neg (not_not.mpr h.month), shiftLeft_or_or _ (by omega) (by omega)]
  rfl

lemma MysqlTime.IsTime.hms_lt (h : t.IsTime) : t.hms < 2 ^ 22 := by
  obtain ⟨-, -, hhour, hminute, hsecond, -⟩ := h
  rw [MysqlTime.hms]
  omega

lemma packed_parts (w : Nat) {frac : Nat} (hfrac : frac ≤ 999999) :
    (packedIntPart (packedMake w frac)).toNat = w ∧
      (packedFracPart (packedMake w frac)).toNat = frac := by
  rw [packedIntPart, packedFracPart, shiftRight_eq_div_pow, packedMake,
    tmod_eq_emod_of_nonneg (by omega)]
  omega

lemma timeFromLonglongTimePacked_eq (h : t.IsTime) :
    timeFromLonglongTimePacked (timeToLonglongTimePacked t) = t.normal := by
  obtain ⟨hint, hfrac⟩ := packed_parts t.hms h.secondPart
  have hhour := h.hour
  have hminute := h.minute
  have hsecond := h.second
  have hneg : signed t.neg (packedMake t.hms t.secondPart) < 0 ↔
      t.neg = true ∧ t.microseconds ≠ 0 := by
    rw [MysqlTime.microseconds, packedMake, MysqlTime.hms]
    cases t.neg <;> simp [signed] <;> omega
  have habs : (if signed t.neg (packedMake t.hms t.secondPart) < 0 then
      -signed t.neg (packedMake t.hms t.secondPart) else
        signed t.neg (packedMake t.hms t.secondPart)) = packedMake t.hms t.secondPart := by
    rw [packedMake]
    cases t.neg <;> simp only [signed] <;> split <;> omega
  rw [timeFromLonglongTimePacked, timeToLonglongTimePacked_eq h, habs]
  simp only [hneg, hint, hfrac]
  simp only [MysqlTime.normal, MysqlTime.mk.injEq, h.year, h.month,
    Nat.one_shiftLeft, MysqlTime.hms, true_and, and_true, Bool.decide_and, Bool.decide_eq_true]
  omega

section
variable (h : Frac dec frac u)
include h

lemma read_fields (hw0 : 0 ≤ w) (hw : w < 256 ^ k) (hm : fracBytes dec = m) :
    toUnsigned ((store k w ++ store (fracBytes dec) u).take k) = w ∧
      toUnsigned (((store k w ++ store (fracBytes dec) u).drop k).take m) = u ∧
      toSigned (((store k w ++ store (fracBytes dec) u).drop k).take m) = u := by
  subst hm
  rw [take_drop_store]
  refine ⟨toUnsigned_take_store hw0 hw, ?_, ?_⟩
  · rw [toUnsigned_store, emod_eq_of_lt h.nonneg h.lt]
  · refine toSigned_store ?_ h.two_mul_lt
    linarith [h.nonneg, h.lt]

lemma Frac.eq_mul {scale : Int} (hscale : fracScale dec = scale) : u * scale = frac := by
  rw [h.eq, hscale, mul_comm]

lemma Frac.eq_self (hm : fracBytes dec = 3) : u = frac := by
  rw [h.eq, fracScale, hm]
  exact (one_mul u).symm

lemma Frac.eq_zero (hm : fracBytes dec = 0) : frac = 0 := by
  have hu0 := h.nonneg
  have hu := h.lt
  rw [hm] at hu
  exact h.eq_zero_iff.mp (by omega)

lemma myDatetimePackedToBinary_eq (hw : 0 ≤ w) : myDatetimePackedToBinary (packedMake w frac) dec =
      some (store 5 (w + datetimefIntOfs) ++ store (fracBytes dec) u) := by
  have hfrac : packedFracPart (signed false (packedMake w frac)) = frac := packedFracPart_eq h hw
  have hint : packedIntPart (signed false (packedMake w frac)) = w := by
    rw [packedIntPart_eq h, if_neg (fun h => Bool.false_ne_true h.1), sub_zero]
    rfl
  have hrounded : Rounded frac dec := h.rounded_signed false
  rw [signed, if_neg Bool.false_ne_true] at hfrac hint
  rw [myDatetimePackedToBinary, hfrac, hint, if_neg (not_not.mpr hrounded), fracToBinary_eq h]

end

lemma add_datetimefIntOfs_bounds (hw : 0 ≤ w) (hw' : w < 2 ^ 39) :
    0 ≤ w + datetimefIntOfs ∧ w + datetimefIntOfs < 256 ^ 5 := by
  rw [datetimefIntOfs]
  omega

lemma myDatetimePackedFromBinary_eq (h : Frac dec frac u) (hw : 0 ≤ w) (hw' : w < 2 ^ 39) :
    myDatetimePackedFromBinary (store 5 (w + datetimefIntOfs) ++ store (fracBytes dec) u) dec =
      packedMake w frac := by
  have hdec := h.dec_le
  have hofs := add_datetimefIntOfs_bounds hw hw'
  have hint := (read_fields h hofs.1 hofs.2 rfl).1
  have hfrac := fun m (hm : fracBytes dec = m) => (read_fields h hofs.1 hofs.2 hm).2.2
  rw [timeSecondPartDigits] at hdec
  interval_cases dec
  · simp only [myDatetimePackedFromBinary, hint, add_sub_cancel_right, h.eq_zero rfl]
  iterate 2
    rw [myDatetimePackedFromBinary, hint, hfrac 1 rfl, add_sub_cancel_right, h.eq_mul (fracScale_one rfl)]
  iterate 2
    rw [myDatetimePackedFromBinary, hint, hfrac 2 rfl, add_sub_cancel_right, h.eq_mul (fracScale_two rfl)]
  iterate 2 rw [myDatetimePackedFromBinary, hint, hfrac 3 rfl, add_sub_cancel_right, h.eq_self rfl]

lemma myTimestampToBinary_eq (h : Frac dec frac u) (sec : Int) :
    myTimestampToBinary ⟨sec, frac⟩ dec = some (store 4 sec ++ store (fracBytes dec) u) := by
  have hrounded : Rounded frac dec := h.rounded_signed false
  rw [myTimestampToBinary, if_neg (not_not.mpr hrounded), fracToBinary_eq h]

lemma myTimestampFromBinary_eq (h : Frac dec frac u) {sec : Int} (hsec : 0 ≤ sec)
    (hsec' : sec < 2 ^ 31) :
    myTimestampFromBinary (store 4 sec ++ store (fracBytes dec) u) dec = ⟨sec, frac⟩ := by
  have hdec := h.dec_le
  have hbound : sec < 256 ^ 4 := by omega
  have hsec0 := (read_fields h hsec hbound rfl).1
  have hfields := fun m (hm : fracBytes dec = m) => (read_fields h hsec hbound hm).2
  rw [timeSecondPartDigits] at hdec
  interval_cases dec
  · simp only [myTimestampFromBinary, hsec0, h.eq_zero rfl]
  iterate 2 rw [myTimestampFromBinary, hsec0, (hfields 1 rfl).1, h.eq_mul (fracScale_one rfl)]
  iterate 2 rw [myTimestampFromBinary, hsec0, (hfields 2 rfl).2, h.eq_mul (fracScale_two rfl)]
  iterate 2 rw [myTimestampFromBinary, hsec0, (hfields 3 rfl).2, h.eq_self rfl]

def MysqlTime.ymdhms (t : MysqlTime) : Nat :=
  ((((t.year * 13 + t.month) * 32 + t.day) * 32 + t.hour) * 64 + t.minute) * 64 + t.second

lemma timeToLonglongDatetimePacked_eq (h : t.IsDatetime) :
    timeToLonglongDatetimePacked t = packedMake t.ymdhms t.secondPart := by
  obtain ⟨-, -, hday, hhour, hminute, hsecond, -, hneg, -⟩ := h
  simp only [timeToLonglongDatetimePacked, hneg, signed, Bool.false_eq_true, if_false]
  rw [shiftLeft_or_or _ (by omega) (by omega), shiftLeft_or _ (by omega : t.day < 2 ^ 5),
    shiftLeft_or _ (by omega), MysqlTime.ymdhms]
  ring_nf

lemma MysqlTime.IsDatetime.ymdhms_lt (h : t.IsDatetime) : t.ymdhms < 2 ^ 39 := by
  obtain ⟨hyear, hmonth, hday, hhour, hminute, hsecond, -, -, -⟩ := h
  rw [MysqlTime.ymdhms]
  omega

lemma timeFromLonglongDatetimePacked_eq (h : t.IsDatetime) :
    timeFromLonglongDatetimePacked (timeToLonglongDatetimePacked t) = t := by
  obtain ⟨hint, hfrac⟩ := packed_parts t.ymdhms h.secondPart
  have hpos : ¬ packedMake t.ymdhms t.secondPart < 0 := by
    rw [packedMake]
    omega
  rw [timeToLonglongDatetimePacked_eq h]
  obtain ⟨-, hmonth, hday, hhour, hminute, hsecond, -, hneg, htype⟩ := h
  rw [timeFromLonglongDatetimePacked, if_neg hpos]
  simp only [hint, hfrac, hpos]
  simp only [Nat.one_shiftLeft, MysqlTime.ymdhms]
  apply MysqlTime.ext
  case secondPart => rfl
  case neg => exact hneg.symm
  case timeType => exact htype.symm
  all_goals
    dsimp only
    omega

lemma compare_natCast (a b : Nat) : compare (a : Int) (b : Int) = compare a b := by
  rw [compare_eq_compare_iff, Nat.cast_lt, Nat.cast_lt]
  exact ⟨Iff.rfl, Iff.rfl⟩

lemma compare_add_left (c x y : Int) : compare (c + x) (c + y) = compare x y := by
  rw [compare_eq_compare_iff, add_lt_add_iff_left, add_lt_add_iff_left]
  exact ⟨Iff.rfl, Iff.rfl⟩

lemma compare_nat_mul_add {c r s a b : Nat} (hr : r < c) (hs : s < c) :
    compare (a * c + r) (b * c + s) = (compare a b).then (compare r s) := by
  rw [← compare_natCast, ← compare_natCast a, ← compare_natCast r]
  push_cast
  exact compare_mul_add (natCast_nonneg r) (ofNat_lt.mpr hr) (natCast_nonneg s)
    (ofNat_lt.mpr hs)

lemma compare_packedMake {w w' frac frac' : Nat} (hfrac : frac ≤ 999999) (hfrac' : frac' ≤ 999999) :
    compare (packedMake w frac) (packedMake w' frac') =
      (compare w w').then (compare frac frac') := by
  rw [packedMake, packedMake, compare_mul_add (by omega) (by omega) (by omega) (by omega),
    compare_natCast, compare_natCast]

lemma memcmp_fields {w u w' u' : Int} (hw0 : 0 ≤ w) (hw : w < 256 ^ k) (hu0 : 0 ≤ u)
    (hu : u < 256 ^ m) (hw0' : 0 ≤ w') (hw' : w' < 256 ^ k) (hu0' : 0 ≤ u') (hu' : u' < 256 ^ m) :
    memcmp (store k w ++ store m u) (store k w' ++ store m u') =
      (compare w w').then (compare u u') := by
  have hjoin : ∀ x {y : Int}, 0 ≤ y -> y < 256 ^ m ->
      store k x ++ store m y = store (k + m) (x * 256 ^ m + y) :=
    fun x _ h0 h1 => store_append false k m x h0 h1
  have hbound : ∀ {x y : Int}, x < 256 ^ k -> y < 256 ^ m -> x * 256 ^ m + y < 256 ^ (k + m) := by
    intro x y hx hy
    rw [pow_add]
    nlinarith
  rw [hjoin w hu0 hu, hjoin w' hu0' hu', memcmp_store (by positivity) (hbound hw hu) (by positivity)
    (hbound hw' hu'), compare_mul_add hu0 hu hu0' hu']

lemma compare_clock {b mi s mi' s' : Nat} (h h' : Nat) (hmi : mi < b)
    (hs : s < b) (hmi' : mi' < b) (hs' : s' < b) :
    compare ((h * b + mi) * b + s) ((h' * b + mi') * b + s') =
      ((compare h h').then (compare mi mi')).then (compare s s') := by
  rw [compare_nat_mul_add hs hs', compare_nat_mul_add hmi hmi']

lemma compare_ymdhms (h : t.IsDatetime) (h' : t'.IsDatetime) :
    (compare t.ymdhms t'.ymdhms).then (compare t.secondPart t'.secondPart) =
      t.chronological t' := by
  obtain ⟨-, hmonth, hday, hhour, hminute, hsecond, -, -, -⟩ := h
  obtain ⟨-, hmonth', hday', hhour', hminute', hsecond', -, -, -⟩ := h'
  rw [MysqlTime.ymdhms, MysqlTime.ymdhms, compare_clock _ _ (by omega) (by omega) (by omega) (by omega),
    compare_nat_mul_add (by omega) (by omega), compare_nat_mul_add (by omega) (by omega),
    compare_nat_mul_add (by omega) (by omega)]
  simp only [MysqlTime.chronological, Ordering.then_assoc]

lemma compare_time (h : t.IsTime) (h' : t'.IsTime) :
    compare (timeToLonglongTimePacked t) (timeToLonglongTimePacked t') =
      compare t.microseconds t'.microseconds := by
  obtain ⟨-, -, hhour, hminute, hsecond, hpart⟩ := id h
  obtain ⟨-, -, hhour', hminute', hsecond', hpart'⟩ := id h'
  rw [timeToLonglongTimePacked_eq h, timeToLonglongTimePacked_eq h']
  apply compare_signed
  · rw [compare_packedMake hpart hpart', MysqlTime.hms, MysqlTime.hms,
      compare_clock _ _ (by omega) (by omega) (by omega) (by omega),
      ← compare_clock (b := 60) _ _ (by omega) (by omega) (by omega) (by omega),
      ← compare_nat_mul_add (c := 1000000) (by omega) (by omega), ← compare_natCast]
    rfl
  iterate 2
    rw [packedMake]
    omega
  · positivity
  · positivity
  · rw [packedMake, MysqlTime.hms]
    omega

lemma timeImage_bounds {w frac : Nat} {u : Int} (h : Frac dec frac u) (hw : w < 2 ^ 22)
    (neg : Bool) : 0 ≤ timeImage neg w u dec ∧ timeImage neg w u dec < 256 ^ (3 + fracBytes dec) := by
  have hu0 := h.nonneg
  have hu := h.lt
  have hw' : (w : Int) + 1 ≤ 2 ^ 22 := by omega
  have hpow : (0 : Int) < 256 ^ fracBytes dec := by positivity
  have hmul := mul_le_mul_of_nonneg_right hw' hpow.le
  have hmul' : 0 ≤ (w : Int) * 256 ^ fracBytes dec := by positivity
  rw [timeImage, pow_add, timefIntOfs]
  cases neg <;> simp only [signed, if_true, Bool.false_eq_true, if_false] <;> constructor <;> linarith

lemma image_eq_zero_iff {w frac : Nat} {u : Int} (h : Frac dec frac u) :
    (w : Int) * 256 ^ fracBytes dec + u = 0 ↔ packedMake w frac = 0 := by
  have hu := h.nonneg
  have hzero := h.eq_zero_iff
  have hpow : (0 : Int) < 256 ^ fracBytes dec := by positivity
  rw [packedMake]
  constructor
  · intro hsum
    have hw : (w : Int) * 256 ^ fracBytes dec = 0 := by
      have : 0 ≤ (w : Int) * 256 ^ fracBytes dec := by positivity
      omega
    have hw' := (mul_eq_zero.mp hw).resolve_right hpow.ne'
    omega
  · intro hsum
    have hw : (w : Int) = 0 := by omega
    rw [hw]
    omega

lemma memcmp_timeImage {w w' frac frac' : Nat} {u u' : Int} (h : Frac dec frac u)
    (h' : Frac dec frac' u') (hw : w < 2 ^ 22) (hw' : w' < 2 ^ 22) (neg neg' : Bool) :
    memcmp (store (3 + fracBytes dec) (timeImage neg w u dec))
      (store (3 + fracBytes dec) (timeImage neg' w' u' dec)) =
      compare (signed neg (packedMake w frac)) (signed neg' (packedMake w' frac')) := by
  have hle := h.frac_lt
  have hle' := h'.frac_lt
  have hb := timeImage_bounds h hw neg
  have hb' := timeImage_bounds h' hw' neg'
  rw [memcmp_store hb.1 hb.2 hb'.1 hb'.2, timeImage, timeImage, compare_add_left]
  apply compare_signed
  · rw [compare_mul_add h.nonneg h.lt h'.nonneg h'.lt, h.compare_eq h', compare_natCast,
      compare_natCast, compare_packedMake (by omega) (by omega)]
  · have := h.nonneg
    positivity
  · have := h'.nonneg
    positivity
  iterate 2
    rw [packedMake]
    omega
  · exact image_eq_zero_iff h'

/-- A way to store values keeps them: what is read is the value, and the bytes, the packed numbers
and the values are in one order. -/
def Keeps {α : Type} (valid : α -> Prop) (packed : α -> Int) (length : Nat)
    (toBinary : α -> Option (List Nat)) (fromBinary : List Nat -> α) (normal : α -> α)
    (order : α -> α -> Ordering) : Prop :=
  ∀ a b, valid a -> valid b -> ∃ x y, toBinary a = some x ∧ toBinary b = some y ∧
    x.length = length ∧ fromBinary x = normal a ∧ memcmp x y = compare (packed a) (packed b) ∧
    compare (packed a) (packed b) = order a b

lemma time_keeps (hdec : dec ≤ 6) :
    Keeps (fun t => t.IsTime ∧ 10 ^ (6 - dec) ∣ t.secondPart) timeToLonglongTimePacked
      (myTimeBinaryLength dec) (fun t => myTimePackedToBinary (timeToLonglongTimePacked t) dec)
      (fun x => timeFromLonglongTimePacked (myTimePackedFromBinary x dec)) MysqlTime.normal
      (fun t t' => compare t.microseconds t'.microseconds) := by
  rintro a b ⟨ha, hdvd⟩ ⟨hb, hdvd'⟩
  obtain ⟨u, hu⟩ := exists_frac hdec ha.secondPart hdvd
  obtain ⟨v, hv⟩ := exists_frac hdec hb.secondPart hdvd'
  have hwa : (a.hms : Int) < 2 ^ 22 := by exact_mod_cast ha.hms_lt
  dsimp only
  rw [timeToLonglongTimePacked_eq ha, timeToLonglongTimePacked_eq hb]
  refine ⟨_, _, myTimePackedToBinary_eq hu (natCast_nonneg _),
    myTimePackedToBinary_eq hv (natCast_nonneg _), length_store _ _, ?_,
    memcmp_timeImage hu hv ha.hms_lt hb.hms_lt _ _, ?_⟩
  · rw [myTimePackedFromBinary_eq hu (natCast_nonneg _) hwa,
      ← timeToLonglongTimePacked_eq ha, timeFromLonglongTimePacked_eq ha]
  · rw [← timeToLonglongTimePacked_eq ha, ← timeToLonglongTimePacked_eq hb]
    exact compare_time ha hb

lemma datetime_keeps (hdec : dec ≤ 6) :
    Keeps (fun t => t.IsDatetime ∧ 10 ^ (6 - dec) ∣ t.secondPart) timeToLonglongDatetimePacked
      (myDatetimeBinaryLength dec)
      (fun t => myDatetimePackedToBinary (timeToLonglongDatetimePacked t) dec)
      (fun x => timeFromLonglongDatetimePacked (myDatetimePackedFromBinary x dec)) id
      MysqlTime.chronological := by
  rintro a b ⟨ha, hdvd⟩ ⟨hb, hdvd'⟩
  obtain ⟨u, hu⟩ := exists_frac hdec ha.secondPart hdvd
  obtain ⟨v, hv⟩ := exists_frac hdec hb.secondPart hdvd'
  have hwa : (a.ymdhms : Int) < 2 ^ 39 := by exact_mod_cast ha.ymdhms_lt
  have hwb : (b.ymdhms : Int) < 2 ^ 39 := by exact_mod_cast hb.ymdhms_lt
  dsimp only
  rw [timeToLonglongDatetimePacked_eq ha, timeToLonglongDatetimePacked_eq hb]
  refine ⟨_, _, myDatetimePackedToBinary_eq hu (natCast_nonneg _),
    myDatetimePackedToBinary_eq hv (natCast_nonneg _), ?_, ?_, ?_, ?_⟩
  · rw [length_append, length_store, length_store, myDatetimeBinaryLength]
  · rw [myDatetimePackedFromBinary_eq hu (natCast_nonneg _) hwa,
      ← timeToLonglongDatetimePacked_eq ha, timeFromLonglongDatetimePacked_eq ha, id]
  · obtain ⟨hofs, hofs'⟩ := add_datetimefIntOfs_bounds (natCast_nonneg _) hwa
    obtain ⟨hofs1, hofs1'⟩ := add_datetimefIntOfs_bounds (natCast_nonneg _) hwb
    rw [memcmp_fields hofs hofs' hu.nonneg hu.lt hofs1 hofs1' hv.nonneg hv.lt, hu.compare_eq hv,
      compare_packedMake ha.secondPart hb.secondPart, Int.add_comm, Int.add_comm b.ymdhms,
      compare_add_left, compare_natCast, compare_natCast]
  · rw [compare_packedMake ha.secondPart hb.secondPart, compare_ymdhms ha hb]

/-- The formats of `TIME`, `DATETIME` and `TIMESTAMP` keep the values of each precision. -/
theorem temporal_formats_keep {dec : Nat} (hdec : dec ≤ 6) :
    Keeps (fun t => t.IsTime ∧ 10 ^ (6 - dec) ∣ t.secondPart) timeToLonglongTimePacked
      (myTimeBinaryLength dec) (fun t => myTimePackedToBinary (timeToLonglongTimePacked t) dec)
      (fun x => timeFromLonglongTimePacked (myTimePackedFromBinary x dec)) MysqlTime.normal
      (fun t t' => compare t.microseconds t'.microseconds) ∧
    Keeps (fun t => t.IsDatetime ∧ 10 ^ (6 - dec) ∣ t.secondPart) timeToLonglongDatetimePacked
      (myDatetimeBinaryLength dec)
      (fun t => myDatetimePackedToBinary (timeToLonglongDatetimePacked t) dec)
      (fun x => timeFromLonglongDatetimePacked (myDatetimePackedFromBinary x dec)) id
      MysqlTime.chronological ∧
    Keeps (fun tm => (0 ≤ tm.sec ∧ tm.sec ≤ 2 ^ 31 - 1) ∧ (0 ≤ tm.usec ∧ tm.usec ≤ 999999) ∧
        10 ^ (6 - dec) ∣ tm.usec)
      (fun tm => tm.sec * 1000000 + tm.usec) (myTimestampBinaryLength dec)
      (fun tm => myTimestampToBinary tm dec) (fun x => myTimestampFromBinary x dec) id
      (fun tm tm' => (compare tm.sec tm'.sec).then (compare tm.usec tm'.usec)) := by
  refine ⟨time_keeps hdec, datetime_keeps hdec, ?_⟩
  rintro ⟨sec, usec⟩ ⟨sec', usec'⟩ ⟨⟨hsec, hsec1⟩, ⟨husec, husec1⟩, hdvd⟩
    ⟨⟨hsec', hsec1'⟩, ⟨husec', husec1'⟩, hdvd'⟩
  dsimp only at *
  obtain ⟨f, rfl⟩ := eq_ofNat_of_zero_le husec
  obtain ⟨f', rfl⟩ := eq_ofNat_of_zero_le husec'
  obtain ⟨u, hu⟩ := exists_frac hdec (by omega) (by exact_mod_cast hdvd : 10 ^ (6 - dec) ∣ f)
  obtain ⟨v, hv⟩ := exists_frac hdec (by omega) (by exact_mod_cast hdvd' : 10 ^ (6 - dec) ∣ f')
  refine ⟨_, _, myTimestampToBinary_eq hu sec, myTimestampToBinary_eq hv sec', ?_, ?_, ?_, ?_⟩
  · rw [length_append, length_store, length_store, myTimestampBinaryLength]
  · rw [myTimestampFromBinary_eq hu hsec (by omega), id]
  · rw [memcmp_fields hsec (by omega) hu.nonneg hu.lt hsec' (by omega) hv.nonneg hv.lt,
      hu.compare_eq hv, compare_mul_add husec (by omega) husec' (by omega)]
  · exact compare_mul_add husec (by omega) husec' (by omega)

/-- Two negative times of one second, with and without a fraction of two digits. -/
theorem temporal_formats_keep_two : ∃ x y,
    myTimePackedToBinary (timeToLonglongTimePacked ⟨0, 0, 0, 0, 0, 1, 10000, true, .time⟩) 2 = some x ∧
    myTimePackedToBinary (timeToLonglongTimePacked ⟨0, 0, 0, 0, 0, 1, 0, true, .time⟩) 2 = some y ∧
    memcmp x y = .lt := by
  obtain ⟨x, y, hx, hy, -, -, hmem, hcmp⟩ := (@temporal_formats_keep 2 (by decide)).1
    ⟨0, 0, 0, 0, 0, 1, 10000, true, .time⟩ ⟨0, 0, 0, 0, 0, 1, 0, true, .time⟩
    ⟨⟨rfl, rfl, by decide, by decide, by decide, by decide⟩, by decide⟩
    ⟨⟨rfl, rfl, by decide, by decide, by decide, by decide⟩, by decide⟩
  refine ⟨x, y, hx, hy, ?_⟩
  rw [hmem]
  decide

end Sql
