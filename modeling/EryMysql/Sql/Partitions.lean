import EryMysql.Sql.PartitionIterator
import Mathlib.Data.Nat.SuccPred
import Mathlib.Order.Interval.Set.Monotone
import Mathlib.Algebra.Ring.Int.Defs

/-!
# Pruning of RANGE and LIST partitions by a function of one column

sql/sql_partition.cc. The values of the column are ordered with NULL as the least one. Of the
partitioning function only the class, the value of a row and the value for an end of an interval
are known; a value is a `longlong`, which is read as an unsigned number if the function has the
flag. The arrays hold values that are biased then, so that their order is the signed one.
-/

namespace Sql

open BinarySearch Nat

/-- The value of an expression in a `longlong`. -/
def toLonglong (x : Int) : Int := (x + 2 ^ 63) % 2 ^ 64 - 2 ^ 63

def InLonglong (x : Int) : Prop := -2 ^ 63 ≤ x ∧ x < 2 ^ 63

def longlongMax : Int := 2 ^ 63 - 1

/-- `part_expr`: the value of a row, with `none` for NULL, the value for an end of an interval with
whether the end is included then, whether the function is of a class with `NOT_NULL` in its name
(it may be NULL for values that are not), and `unsigned_flag`. -/
structure PartExpr (V : Type) where
  valInt : WithBot V -> Option Int
  valIntEndpoint : Bool -> Bool -> WithBot V -> Int × Bool
  notNull : Bool
  unsignedFlag : Bool

/-- The partitioning column: its key image starts with a byte that tells NULL if it may be NULL.
`getDate` is the year and the month of a value of a DATE or DATETIME column. -/
structure PartField (V : Type) where
  maybeNull : Bool
  packLengthInRec : Nat
  keyImage : WithBot V -> List UInt8
  getDate : WithBot V -> Option (Nat × Nat)

structure ListPartEntry where
  listValue : Int
  partitionId : Nat

structure IntPartitions where
  partType : PartitionType
  numParts : Nat
  rangeIntArray : Nat -> Int
  definedMaxValue : Bool
  numListValues : Nat
  listArray : Nat -> ListPartEntry
  hasNullValue : Bool
  hasNullPartId : Nat

/-- An interval with the flags `NO_MIN_RANGE`, `NEAR_MIN`, `NO_MAX_RANGE` and `NEAR_MAX`. -/
structure FieldInterval (V : Type) where
  noMinRange : Bool
  nearMin : Bool
  minValue : WithBot V
  noMaxRange : Bool
  nearMax : Bool
  maxValue : WithBot V

variable {V : Type}

def PartExpr.biased (e : PartExpr V) (value : Int) : Int :=
  if e.unsignedFlag then toLonglong (value - 2 ^ 63) else value

namespace IntPartitions

variable (info : IntPartitions) (e : PartExpr V)

/-- `none` is `HA_ERR_NO_PARTITION_FOUND`. -/
def getPartitionIdRange (x : WithBot V) : Option Nat :=
  match e.valInt x with
  | none => some 0
  | some value =>
    let partFuncValue := e.biased value
    let maxPartition := info.numParts - 1
    let loc := cut (fun i => decide (info.rangeIntArray i ≤ partFuncValue)) info.numParts 0 maxPartition
    if loc = maxPartition ∧ info.rangeIntArray loc ≤ partFuncValue ∧ info.definedMaxValue = false then
      none
    else some loc

def getPartitionIdList (x : WithBot V) : Option Nat :=
  match e.valInt x with
  | none => if info.hasNullValue then some info.hasNullPartId else none
  | some value =>
    match find (fun i => compare (info.listArray i).listValue (e.biased value)) info.numListValues 0 0
      info.numListValues with
    | (listIndex, true) => some (info.listArray listIndex).partitionId
    | (_, false) => none

def getPartitionId (x : WithBot V) : Option Nat :=
  match info.partType with
  | .range => info.getPartitionIdRange e x
  | .list => info.getPartitionIdList e x

variable (leftEndpoint includeEndpoint : Bool)

/-- `partFuncValue` of `getPartitionIdRangeForEndpoint`. -/
def rangeEndpointValue (value : Int) : Int :=
  if leftEndpoint = true ∧ includeEndpoint = false then toLonglong (e.biased value + 1)
  else e.biased value

def getPartitionIdRangeForEndpoint (x : WithBot V) : Nat :=
  let endpoint := e.valIntEndpoint leftEndpoint includeEndpoint x
  if e.valInt x = none ∧ e.notNull = false then
    if leftEndpoint = false ∧ endpoint.2 = true then 1 else 0
  else
    let partFuncValue := rangeEndpointValue e leftEndpoint endpoint.2 endpoint.1
    let maxPartition := info.numParts - 1
    let loc := cut (fun i => decide (info.rangeIntArray i < partFuncValue)) info.numParts 0 maxPartition
    if leftEndpoint then
      -- with MAXVALUE the greatest value is in the last partition
      if info.rangeIntArray loc ≤ partFuncValue ∧
          (loc < maxPartition ∨ info.definedMaxValue = false) then loc + 1
      else loc
    else if endpoint.2 = true ∧ loc < maxPartition ∧ partFuncValue = info.rangeIntArray loc then
      loc + 1 + 1
    else loc + 1

def getListArrayIdxForEndpoint (x : WithBot V) : Nat :=
  let endpoint := e.valIntEndpoint leftEndpoint includeEndpoint x
  if e.valInt x = none ∧ e.notNull = false then 0
  else
    let cmp i := compare (info.listArray i).listValue (e.biased endpoint.1)
    match find cmp info.numListValues 0 0 info.numListValues with
    | (listIndex, true) => if leftEndpoint ^^ endpoint.2 then listIndex + 1 else listIndex
    | (listIndex, false) => place cmp listIndex

def getEndpoint (x : WithBot V) : Nat :=
  match info.partType with
  | .range => info.getPartitionIdRangeForEndpoint e leftEndpoint includeEndpoint x
  | .list => info.getListArrayIdxForEndpoint e leftEndpoint includeEndpoint x

def maxEndpointVal : Nat :=
  match info.partType with
  | .range => info.numParts
  | .list => info.numListValues

end IntPartitions

def PartField.isNullImage (field : PartField V) (x : WithBot V) : Bool :=
  (field.keyImage x).headD 0 != 0

/-- `can_match_multiple_values`: the interval does not look like `=`. -/
def FieldInterval.canMatchMultipleValues (interval : FieldInterval V) (field : PartField V) : Bool :=
  interval.noMinRange || interval.nearMin || interval.noMaxRange || interval.nearMax ||
    (field.keyImage interval.minValue).take field.packLengthInRec !=
      (field.keyImage interval.maxValue).take field.packLengthInRec

/-- The return values 0, 1 and -1. -/
inductive PartIterResult
  | noPartitions
  | initialized (it : PartitionIterator)
  | allPartitions
  deriving DecidableEq, Repr

namespace IntPartitions

variable (info : IntPartitions) (e : PartExpr V) (field : PartField V) (interval : FieldInterval V)

/-- A function that may be NULL for a value that is not: the partition of the NULL values is
read, too. -/
def checkZeroDates : Bool :=
  interval.canMatchMultipleValues field && (info.partType = .range || info.hasNullValue) && e.notNull

/-- The right bound, after the left one. `startDate` is there if the left bound is a date without
zeros. -/
def findMaximum (start : Nat) (retNullPart : Bool) (startDate : Option (Nat × Nat)) :
    PartIterResult :=
  if interval.noMaxRange then
    .initialized ⟨start, start, info.maxEndpointVal, retNullPart, retNullPart⟩
  else
    let stop := info.getEndpoint e false (!interval.nearMax) interval.maxValue
    -- no date with zeros is between two dates of one month
    let sameMonth := info.checkZeroDates e field interval && startDate.isSome &&
      (e.valInt interval.maxValue).isSome && field.getDate interval.maxValue = startDate
    let retNullPart := if sameMonth then false else retNullPart
    if stop ≤ start ∧ retNullPart = false then .noPartitions
    else .initialized ⟨start, start, stop, retNullPart, retNullPart⟩

def getPartIterForIntervalViaMapping : PartIterResult :=
  if info.partType = .list ∧ info.numListValues = 0 then .allPartitions
  else if field.maybeNull ∧ info.hasNullValue ∧ interval.noMinRange = false ∧
      interval.nearMin = false ∧ field.isNullImage interval.minValue then
    -- NULL <= X
    if interval.noMaxRange = false ∧ field.isNullImage interval.maxValue then
      .initialized ⟨0, 0, 0, true, true⟩
    else info.findMaximum e field interval 0 true none
  else if interval.noMinRange then
    info.findMaximum e field interval 0 (info.checkZeroDates e field interval) none
  else if interval.canMatchMultipleValues field = false ∧ e.valInt interval.minValue = none then
    .initialized ⟨0, 0, 0, true, true⟩
  else
    let start := info.getEndpoint e true (!interval.nearMin) interval.minValue
    let startDate :=
      if info.checkZeroDates e field interval ∧ (e.valInt interval.minValue).isSome ∧
          interval.noMaxRange = false then field.getDate interval.minValue
      else none
    if start = info.maxEndpointVal then .noPartitions
    else info.findMaximum e field interval start (info.checkZeroDates e field interval) startDate

def getNext : PartitionIterator -> Option Nat × PartitionIterator :=
  match info.partType with
  | .range => getNextPartitionIdRange
  | .list => getNextPartitionIdList (fun i => (info.listArray i).partitionId) info.hasNullPartId

def Reads (p : Nat) : PartIterResult -> Prop
  | .noPartitions => False
  | .initialized it => p ∈ it.drain info.getNext it.calls
  | .allPartitions => True

end IntPartitions

/-- The number that a `longlong` of the function stands for. -/
def PartExpr.number (e : PartExpr V) (value : Int) : Int :=
  if e.unsignedFlag then value % 2 ^ 64 else value

section
variable [LinearOrder V]

/-- A half-interval of the column is mapped to one that holds the values of its rows, and an
included end stays included. Where the function is NULL, this is asked of a left end only, and
only if its value is looked at. -/
structure PartExpr.Monotone (e : PartExpr V) : Prop where
  inLonglong : ∀ x value, e.valInt x = some value -> InLonglong value
  endpoint_inLonglong : ∀ left incl x, InLonglong (e.valIntEndpoint left incl x).1
  null : e.valInt ⊥ = none
  total : e.notNull = false -> ∀ x : V, e.valInt x ≠ none
  included : ∀ left x, (e.valIntEndpoint left true x).2 = true
  left : ∀ incl x y value, ¬ (e.valInt x = none ∧ e.notNull = false) ->
    (if incl then x ≤ y else x < y) -> e.valInt y = some value ->
    if (e.valIntEndpoint true incl x).2 then e.number (e.valIntEndpoint true incl x).1 ≤ e.number value
    else e.number (e.valIntEndpoint true incl x).1 < e.number value
  right : ∀ incl x y value, e.valInt x ≠ none -> (if incl then y ≤ x else y < x) ->
    e.valInt y = some value ->
    if (e.valIntEndpoint false incl x).2 then e.number value ≤ e.number (e.valIntEndpoint false incl x).1
    else e.number value < e.number (e.valIntEndpoint false incl x).1

/-- The first byte of the key image tells NULL, and within a month the function is NULL for no date
between two dates for which it is not. -/
structure PartField.Tells (field : PartField V) (e : PartExpr V) : Prop where
  null : field.maybeNull = true -> ∀ x, (field.keyImage x).head? = some (if x = ⊥ then 1 else 0)
  month : ∀ x y z, x ≤ y -> y ≤ z -> e.valInt x ≠ none -> e.valInt z ≠ none ->
    (field.getDate x).isSome = true -> field.getDate z = field.getDate x -> e.valInt y ≠ none

/-- A value of the column is in the interval. Without a left bound that is every value but NULL, as
NULL is a bound of its own. -/
def FieldInterval.Contains (interval : FieldInterval V) (field : PartField V) (x : WithBot V) : Prop :=
  (field.maybeNull = false -> x ≠ ⊥) ∧
  (if interval.noMinRange then x ≠ ⊥
    else if !interval.nearMin then interval.minValue ≤ x else interval.minValue < x) ∧
  (interval.noMaxRange = false ->
    if !interval.nearMax then x ≤ interval.maxValue else x < interval.maxValue)

end

/-- The bounds of the RANGE partitions and the list constants are strictly increasing; only MAXVALUE,
which is stored as the greatest number, may come after the same number. -/
structure IntPartitions.Admitted (info : IntPartitions) : Prop where
  inLonglong : ∀ i, InLonglong (info.rangeIntArray i) ∧ InLonglong (info.listArray i).listValue
  numParts : info.partType = .range -> 0 < info.numParts
  range : ∀ i, i + 1 < info.numParts -> info.rangeIntArray i < info.rangeIntArray (i + 1) ∨
    (i + 2 = info.numParts ∧ info.definedMaxValue = true)
  maxValue : info.definedMaxValue = true -> info.rangeIntArray (info.numParts - 1) = longlongMax
  list : ∀ i, i + 1 < info.numListValues ->
    (info.listArray i).listValue < (info.listArray (i + 1)).listValue

section Bias
variable {e : PartExpr V} {a b : Int}

lemma toLonglong_inLonglong (x : Int) : InLonglong (toLonglong x) := by
  simp only [InLonglong, toLonglong]
  omega

lemma toLonglong_of_inLonglong (h : InLonglong a) : toLonglong a = a := by
  simp only [InLonglong] at h
  simp only [toLonglong]
  omega

lemma biased_inLonglong (h : InLonglong a) : InLonglong (e.biased a) := by
  rw [PartExpr.biased]
  split
  · exact toLonglong_inLonglong _
  · exact h

lemma biased_eq (e : PartExpr V) (a : Int) :
    e.biased a = e.number a - if e.unsignedFlag then 2 ^ 63 else 0 := by
  simp only [PartExpr.biased, PartExpr.number, toLonglong]
  split <;> omega

lemma biased_le : e.biased a ≤ e.biased b ↔ e.number a ≤ e.number b := by
  rw [biased_eq, biased_eq]
  omega

lemma biased_lt : e.biased a < e.biased b ↔ e.number a < e.number b := by
  rw [biased_eq, biased_eq]
  omega

end Bias

namespace IntPartitions

variable {info : IntPartitions} {e : PartExpr V} {x y : WithBot V} {value : Int} {p : Nat}
  {i j : Nat}

lemma Admitted.range_lt (h : info.Admitted) (hij : i < j) (hj : j + 1 < info.numParts) :
    info.rangeIntArray i < info.rangeIntArray j := by
  refine strictMonoOn_Iic_of_lt_succ (fun m hm => ?_) hij.le Set.self_mem_Iic hij
  exact (h.range m (by omega)).resolve_right fun hlast => by omega

lemma Admitted.range_le (h : info.Admitted) (hij : i ≤ j) (hj : j < info.numParts) :
    info.rangeIntArray i ≤ info.rangeIntArray j := by
  rcases eq_or_lt_of_le hij with rfl | hij
  · exact le_rfl
  · by_cases hlast : j + 1 < info.numParts
    · exact (h.range_lt hij hlast).le
    · obtain ⟨k, rfl⟩ : ∃ k, j = k + 1 := ⟨j - 1, by omega⟩
      have hlt : info.rangeIntArray k ≤ info.rangeIntArray (k + 1) := by
        rcases h.range k hj with hlt | ⟨-, hmax⟩
        · exact hlt.le
        · have hval := h.maxValue hmax
          obtain ⟨-, hle⟩ := (h.inLonglong k).1
          rw [show info.numParts - 1 = k + 1 by omega] at hval
          rw [hval, longlongMax]
          omega
      rcases eq_or_lt_of_le (le_of_lt_succ hij) with rfl | hik
      · exact hlt
      · exact (h.range_lt hik (by omega)).le.trans hlt

lemma Admitted.list_lt_iff (h : info.Admitted) (hi : i < info.numListValues)
    (hj : j < info.numListValues) :
    (info.listArray i).listValue < (info.listArray j).listValue ↔ i < j := by
  have hmono : StrictMonoOn (fun i => (info.listArray i).listValue) (Set.Iic (max i j)) :=
    strictMonoOn_Iic_of_lt_succ fun m hm => h.list m (lt_of_le_of_lt hm (max_lt hi hj))
  exact hmono.lt_iff_lt (le_max_left i j) (le_max_right i j)

/-- The value is between the bound of the partition before and the bound of the partition, or in the
last one with MAXVALUE. -/
lemma getPartitionIdRange_spec (hpos : 0 < info.numParts) (hx : e.valInt x = some value)
    (h : info.getPartitionIdRange e x = some p) :
    p < info.numParts ∧ (p = 0 ∨ info.rangeIntArray (p - 1) ≤ e.biased value) ∧
      (e.biased value < info.rangeIntArray p ∨
        (p = info.numParts - 1 ∧ info.definedMaxValue = true)) := by
  simp only [getPartitionIdRange, hx] at h
  have hcut := @cut_isCut (fun i => decide (info.rangeIntArray i ≤ e.biased value)) info.numParts 0
    (info.numParts - 1) (zero_le _) (by omega)
  generalize cut _ info.numParts 0 (info.numParts - 1) = loc at h hcut
  have hle := hcut.le_hi
  split at h
  · cases h
  · rename_i hfound
    obtain rfl := Option.some.inj h
    refine ⟨by omega, hcut.before.imp_right of_decide_eq_true, ?_⟩
    by_cases hlt : e.biased value < info.rangeIntArray loc
    · exact .inl hlt
    · have hend : loc = info.numParts - 1 :=
        hcut.at_end.resolve_right fun hend => of_decide_eq_false hend (not_lt.mp hlt)
      refine .inr ⟨hend, ?_⟩
      by_contra hmax
      exact hfound ⟨hend, not_lt.mp hlt, Bool.eq_false_iff.mpr hmax⟩

lemma find_listArray (hpos : 0 < info.numListValues) (v : Int) :
    (∃ i, find (fun i => compare (info.listArray i).listValue v) info.numListValues 0 0
        info.numListValues = (i, true) ∧ i < info.numListValues ∧ (info.listArray i).listValue = v) ∨
    ∃ i r, find (fun i => compare (info.listArray i).listValue v) info.numListValues 0 0
        info.numListValues = (i, false) ∧
      place (fun i => compare (info.listArray i).listValue v) i = r ∧ r ≤ info.numListValues ∧
      (r = 0 ∨ (info.listArray (r - 1)).listValue < v) ∧
      (r = info.numListValues ∨ v < (info.listArray r).listValue) := by
  rcases find_start (fun i => compare (info.listArray i).listValue v) hpos with
    ⟨i, hfind, hi, heq⟩ | ⟨i, hfind, hplace⟩
  · exact .inl ⟨i, hfind, hi, compare_eq_iff_eq.mp heq⟩
  · exact .inr ⟨i, _, hfind, rfl, hplace.hi_le, hplace.before.imp_right compare_lt_iff_lt.mp,
      hplace.after.imp_right compare_gt_iff_gt.mp⟩

lemma getPartitionIdList_spec (hx : e.valInt x = some value)
    (h : info.getPartitionIdList e x = some p) :
    ∃ i < info.numListValues, p = (info.listArray i).partitionId ∧
      (info.listArray i).listValue = e.biased value := by
  simp only [getPartitionIdList, hx] at h
  rcases Nat.eq_zero_or_pos info.numListValues with hzero | hpos
  · rw [hzero] at h
    cases h
  rcases find_listArray hpos (e.biased value) with ⟨i, hfind, hi, heq⟩ | ⟨i, r, hfind, -⟩
  · rw [hfind] at h
    exact ⟨i, hi, (Option.some.inj h).symm, heq⟩
  · rw [hfind] at h
    cases h

/-- The values before the index are those before the end of the interval. -/
lemma list_lt_iff_of_not_null (hinfo : info.Admitted) {left incl : Bool} {i : Nat}
    (hpos : 0 < info.numListValues) (hnull : ¬ (e.valInt x = none ∧ e.notNull = false))
    (hlt : i < info.numListValues) : i < info.getListArrayIdxForEndpoint e left incl x ↔
      if left ^^ (e.valIntEndpoint left incl x).2 then
        (info.listArray i).listValue ≤ e.biased (e.valIntEndpoint left incl x).1
      else (info.listArray i).listValue < e.biased (e.valIntEndpoint left incl x).1 := by
  simp only [getListArrayIdxForEndpoint, if_neg hnull]
  generalize e.valIntEndpoint left incl x = endpoint
  rcases find_listArray hpos (e.biased endpoint.1) with ⟨j, hfind, hj, heq⟩ |
    ⟨j, r, hfind, hplace, hr, hbefore, hafter⟩
  · simp only [hfind]
    have hij := hinfo.list_lt_iff hlt hj
    have hji := hinfo.list_lt_iff hj hlt
    split <;> omega
  · simp only [hfind]
    have hri := hinfo.list_lt_iff (show r - 1 < info.numListValues by omega) hlt
    have hir : r < info.numListValues -> _ := hinfo.list_lt_iff hlt
    split <;> omega

section Endpoints
variable [LinearOrder V] (he : e.Monotone) (hinfo : info.Admitted) {incl : Bool}
  (hy : e.valInt y = some value)
include he hinfo hy

lemma range_left_le (hpos : 0 < info.numParts) (hin : if incl then x ≤ y else x < y)
    (hp : info.getPartitionIdRange e y = some p) :
    info.getPartitionIdRangeForEndpoint e true incl x ≤ p := by
  obtain ⟨hlt, -, hbound⟩ := getPartitionIdRange_spec hpos hy hp
  have hvalue := he.inLonglong y value hy
  have hend := he.endpoint_inLonglong true incl x
  simp only [getPartitionIdRangeForEndpoint]
  split
  · exact zero_le p
  rename_i hused
  have hleft := he.left incl x y value hused hin hy
  generalize e.valIntEndpoint true incl x = endpoint at hend hleft ⊢
  have hle : rangeEndpointValue e true endpoint.2 endpoint.1 ≤ e.biased value := by
    have hb := biased_inLonglong (e := e) hvalue
    have hb' := biased_inLonglong (e := e) hend
    cases hincl : endpoint.2 with
    | true =>
      rw [hincl] at hleft
      simpa [rangeEndpointValue] using biased_le.mpr hleft
    | false =>
      rw [hincl] at hleft
      have hlt := (biased_lt (e := e)).mpr hleft
      obtain ⟨h1, h2⟩ := hb
      obtain ⟨h3, h4⟩ := hb'
      rw [rangeEndpointValue, toLonglong_of_inLonglong ⟨by omega, by omega⟩]
      omega
  generalize rangeEndpointValue e true endpoint.2 endpoint.1 = v at hle
  have hcut := @cut_isCut (fun i => decide (info.rangeIntArray i < v)) info.numParts 0
    (info.numParts - 1) (zero_le _) (by omega)
  generalize cut _ info.numParts 0 (info.numParts - 1) = loc at hcut ⊢
  have hloc := hcut.le_hi
  by_contra hgt
  simp only [if_true] at hgt
  split at hgt
  · rename_i hnext
    rcases hbound with hbound | ⟨hlast, hmax⟩
    · have hmono := hinfo.range_le (show p ≤ loc by omega) (by omega)
      omega
    · rcases hnext.2 with hnext | hnext
      · omega
      · rw [hmax] at hnext
        cases hnext
  · have hbefore := of_decide_eq_true (hcut.before.resolve_left (by omega))
    have hmono := hinfo.range_le (show p ≤ loc - 1 by omega) (by omega)
    rcases hbound with hbound | ⟨hlast, -⟩
    · omega
    · omega

lemma range_right_lt (hpos : 0 < info.numParts) (hx : e.valInt x ≠ none)
    (hin : if incl then y ≤ x else y < x) (hp : info.getPartitionIdRange e y = some p) :
    p < info.getPartitionIdRangeForEndpoint e false incl x := by
  obtain ⟨hlt, hprev, -⟩ := getPartitionIdRange_spec hpos hy hp
  have hright := he.right incl x y value hx hin hy
  simp only [getPartitionIdRangeForEndpoint, Bool.false_eq_true, if_false]
  rw [if_neg fun h => hx h.1]
  generalize e.valIntEndpoint false incl x = endpoint at hright ⊢
  have hv : rangeEndpointValue e false endpoint.2 endpoint.1 = e.biased endpoint.1 :=
    if_neg fun h => Bool.false_ne_true h.1
  rw [hv]
  have hcut := @cut_isCut (fun i => decide (info.rangeIntArray i < e.biased endpoint.1)) info.numParts
    0 (info.numParts - 1) (zero_le _) (by omega)
  generalize cut _ info.numParts 0 (info.numParts - 1) = loc at hcut ⊢
  have hle : e.biased value ≤ e.biased endpoint.1 := by
    apply biased_le.mpr
    split at hright
    · exact hright
    · exact hright.le
  by_contra hge
  have hafter := not_lt.mp (of_decide_eq_false (hcut.at_end.resolve_left (by split at hge <;> omega)))
  have hprev := hprev.resolve_left (by split at hge <;> omega)
  have hmono := hinfo.range_le (show loc ≤ p - 1 by split at hge <;> omega) (by omega)
  have hincl : endpoint.2 = true := by
    by_contra hexcl
    rw [if_neg hexcl] at hright
    have hlt := (biased_lt (e := e)).mpr hright
    omega
  have hnext : loc < info.numParts - 1 := by split at hge <;> omega
  rw [if_pos ⟨hincl, hnext, by omega⟩] at hge
  have hstrict := hinfo.range_lt (show loc < p - 1 by omega) (by omega)
  omega

lemma list_left_le {i : Nat} (hpos : 0 < info.numListValues) (hin : if incl then x ≤ y else x < y)
    (hi : (info.listArray i).listValue = e.biased value) (hlt : i < info.numListValues) :
    info.getListArrayIdxForEndpoint e true incl x ≤ i := by
  by_cases hnull : e.valInt x = none ∧ e.notNull = false
  · exact (if_pos hnull).trans_le (zero_le i)
  · have hleft := he.left incl x y value hnull hin hy
    rw [← not_lt, list_lt_iff_of_not_null hinfo hpos hnull hlt, hi, biased_le, biased_lt]
    cases hincl : (e.valIntEndpoint true incl x).2 <;> simpa [hincl] using hleft

lemma list_right_lt {i : Nat} (hpos : 0 < info.numListValues) (hx : e.valInt x ≠ none)
    (hin : if incl then y ≤ x else y < x)
    (hi : (info.listArray i).listValue = e.biased value) (hlt : i < info.numListValues) :
    i < info.getListArrayIdxForEndpoint e false incl x := by
  have hright := he.right incl x y value hx hin hy
  rw [list_lt_iff_of_not_null hinfo hpos (fun h => hx h.1) hlt, hi, biased_le, biased_lt]
  cases hincl : (e.valIntEndpoint false incl x).2 <;> simpa [hincl] using hright

end Endpoints

end IntPartitions

end Sql
