import EryMysql.Lib.Comparison
import Mathlib.Order.Interval.Finset.Nat
import EryMysql.Sql.PartitionIterator

/-!
# Pruning of RANGE COLUMNS and LIST COLUMNS partitions

sql/sql_partition.cc. The partitioning columns have a comparison each. A bound is a full tuple that
may hold NULL and MAXVALUE; an end of an interval is a tuple for the first few columns and stands
for all the rows that begin with it. The arrays of the bounds are functions with a length.
-/

namespace Sql

open BinarySearch List Int Nat
open Comparison (Preorders)

inductive ColumnVal (κ : Type)
  | null
  | value (v : κ)
  | maxValue
  deriving DecidableEq, Repr

variable {κ : Type} {field : κ -> κ -> Int} {tuples : Nat -> List (ColumnVal κ)}

def ColumnVal.isMax : ColumnVal κ -> Bool
  | .maxValue => true
  | _ => false

/-- A column of a record, which is not MAXVALUE. -/
def ColumnVal.ofField : Option κ -> ColumnVal κ
  | none => .null
  | some v => .value v

/-- Two bounds. MAXVALUE in both ends the comparison. -/
def compareColumnValues :
    List (κ -> κ -> Int) -> List (ColumnVal κ) -> List (ColumnVal κ) -> Int
  | field :: fields, first :: firsts, second :: seconds =>
    match first, second with
    | .maxValue, .maxValue => 0
    | _, .maxValue => -1
    | .maxValue, _ => 1
    | .null, .null => compareColumnValues fields firsts seconds
    | _, .null => 1
    | .null, _ => -1
    | .value v, .value w =>
      if field v w ≠ 0 then field v w else compareColumnValues fields firsts seconds
  | _, _, _ => 0

/-- The first columns of a record and a bound. -/
def cmpRecAndTuple : List (κ -> κ -> Int) -> List (Option κ) -> List (ColumnVal κ) -> Int
  | field :: fields, column :: columns, val :: vals =>
    match val, column with
    | .maxValue, _ => -1
    | .null, none => cmpRecAndTuple fields columns vals
    | .value _, none => -1
    | .null, some _ => 1
    | .value w, some v => if field v w ≠ 0 then field v w else cmpRecAndTuple fields columns vals
  | _, _, _ => 0

def cmpRecAndTuplePrune (fields : List (κ -> κ -> Int)) (columns : List (Option κ))
    (val : List (ColumnVal κ)) (isLeftEndpoint includeEndpoint : Bool) : Int :=
  if cmpRecAndTuple fields columns val ≠ 0 then cmpRecAndTuple fields columns val
  else if columns.length = fields.length then
    -- a full match is equal only if the end belongs to the interval
    if includeEndpoint then 0 else if isLeftEndpoint then 4 else -4
  else if isLeftEndpoint = includeEndpoint then -2
  else if isLeftEndpoint = false ∧ (val[columns.length]?).any ColumnVal.isMax then -3
  else 2

/-- The partitions are an array of bounds, and the list constants an array of tuples with a
partition each. -/
structure ColumnPartitions (κ : Type) where
  partType : PartitionType
  partFieldArray : List (κ -> κ -> Int)
  numParts : Nat
  rangeColArray : Nat -> List (ColumnVal κ)
  numListValues : Nat
  listColArray : Nat -> List (ColumnVal κ)
  listPartitionId : Nat -> Nat
  hasNullPartId : Nat

namespace ColumnPartitions

variable (info : ColumnPartitions κ)

/-- The loops over the RANGE partitions go on behind a bound that is not greater. -/
def notLess (cmp : Nat -> Int) (i : Nat) : Bool := decide (0 ≤ cmp i)

/-- The partition of a record. `none` is `HA_ERR_NO_PARTITION_FOUND`. -/
def getPartitionIdRangeCol (row : List (Option κ)) : Option Nat :=
  let ge := notLess fun i => cmpRecAndTuple info.partFieldArray row (info.rangeColArray i)
  let maxPartition := info.numParts - 1
  let loc := settle ge maxPartition (narrow ge info.numParts 0 maxPartition)
  if loc = maxPartition ∧ ge loc then none else some loc

def getPartitionIdListCol (row : List (Option κ)) : Option Nat :=
  let cmp i := compare 0 (cmpRecAndTuple info.partFieldArray row (info.listColArray i))
  match find cmp info.numListValues 0 0 info.numListValues with
  | (listIndex, true) => some (info.listPartitionId listIndex)
  | (_, false) => none

def getPartitionId (row : List (Option κ)) : Option Nat :=
  match info.partType with
  | .range => info.getPartitionIdRangeCol row
  | .list => info.getPartitionIdListCol row

def getPartitionIdColsRangeForEndpoint (isLeftEndpoint includeEndpoint : Bool)
    (columns : List (Option κ)) : Nat :=
  let ge := notLess fun i => cmpRecAndTuplePrune info.partFieldArray columns (info.rangeColArray i)
    isLeftEndpoint includeEndpoint
  let loc := cut ge info.numParts 0 info.numParts
  if isLeftEndpoint then loc else if loc < info.numParts then loc + 1 else loc

def getPartitionIdColsListForEndpoint (leftEndpoint includeEndpoint : Bool)
    (columns : List (Option κ)) : Nat :=
  let found := seek (fun i => cmpRecAndTuplePrune info.partFieldArray columns (info.listColArray i)
    leftEndpoint includeEndpoint) info.numListValues 0 info.numListValues
  if leftEndpoint = false ∧ includeEndpoint ∧ found.2 = 0 ∧ found.1 < info.numListValues then
    found.1 + 1
  else found.1

def getColEndpoint (leftEndpoint includeEndpoint : Bool) (columns : List (Option κ)) : Nat :=
  match info.partType with
  | .range => info.getPartitionIdColsRangeForEndpoint leftEndpoint includeEndpoint columns
  | .list => info.getPartitionIdColsListForEndpoint leftEndpoint includeEndpoint columns

end ColumnPartitions

/-- An interval of tuples with the flags `NO_MIN_RANGE`, `NEAR_MIN`, `NO_MAX_RANGE` and `NEAR_MAX`.
The ends are the first columns of a record. -/
structure ColumnInterval (κ : Type) where
  noMinRange : Bool
  nearMin : Bool
  minTuple : List (Option κ)
  noMaxRange : Bool
  nearMax : Bool
  maxTuple : List (Option κ)

namespace ColumnPartitions

variable (info : ColumnPartitions κ)

/-- The iterator for an interval; `none` if no partition matches. The fields about the NULL values
keep what `partIter` has there. -/
def getPartIterForIntervalColsViaMap (interval : ColumnInterval κ) (partIter : PartitionIterator) :
    Option PartitionIterator :=
  let start :=
    if interval.noMinRange then 0
    else info.getColEndpoint true (!interval.nearMin) interval.minTuple
  let stop :=
    if interval.noMaxRange then
      match info.partType with
      | .range => info.numParts
      | .list => info.numListValues
    else info.getColEndpoint false (!interval.nearMax) interval.maxTuple
  if start = stop then none
  else some { partIter with start := start, cur := start, stop := stop }

def getNext : PartitionIterator -> Option Nat × PartitionIterator :=
  match info.partType with
  | .range => getNextPartitionIdRange
  | .list => getNextPartitionIdList info.listPartitionId info.hasNullPartId

def partitionsFor (interval : ColumnInterval κ) (partIter : PartitionIterator) : List Nat :=
  match info.getPartIterForIntervalColsViaMap interval partIter with
  | none => []
  | some it => it.drain info.getNext it.calls

end ColumnPartitions

/-- NULL is the first value of a column. -/
def compareField (field : κ -> κ -> Int) : Option κ -> Option κ -> Int
  | none, none => 0
  | none, some _ => -1
  | some _, none => 1
  | some v, some w => field v w

/-- The first columns of two records, one after the other. -/
def compareRecords : List (κ -> κ -> Int) -> List (Option κ) -> List (Option κ) -> Int
  | field :: fields, x :: xs, y :: ys =>
    if compareField field x y ≠ 0 then compareField field x y else compareRecords fields xs ys
  | _, _, _ => 0

/-- The record is in the interval: the end tells about the columns it has. -/
def ColumnInterval.Contains (interval : ColumnInterval κ) (fields : List (κ -> κ -> Int))
    (row : List (Option κ)) : Prop :=
  (interval.noMinRange = false ->
    if !interval.nearMin then compareRecords fields interval.minTuple row ≤ 0
    else compareRecords fields interval.minTuple row < 0) ∧
  (interval.noMaxRange = false ->
    if !interval.nearMax then compareRecords fields row interval.maxTuple ≤ 0
    else compareRecords fields row interval.maxTuple < 0)

def ColumnVal.compare (field : κ -> κ -> Int) : ColumnVal κ -> ColumnVal κ -> Int
  | .maxValue, .maxValue => 0
  | _, .maxValue => -1
  | .maxValue, _ => 1
  | .null, .null => 0
  | _, .null => 1
  | .null, _ => -1
  | .value v, .value w => field v w

lemma compareColumnValues_cons (field : κ -> κ -> Int) (fields : List (κ -> κ -> Int))
    (x y : ColumnVal κ) (xs ys : List (ColumnVal κ)) :
    compareColumnValues (field :: fields) (x :: xs) (y :: ys) =
      if x.compare field y ≠ 0 then x.compare field y
      else if x.isMax then 0 else compareColumnValues fields xs ys := by
  cases x <;> cases y <;> rfl

section
variable (fields : List (κ -> κ -> Int))
include fields

lemma compareColumnValues_nil_left (ys : List (ColumnVal κ)) :
    compareColumnValues fields [] ys = 0 := by
  cases fields <;> rfl

lemma compareColumnValues_nil_right (xs : List (ColumnVal κ)) :
    compareColumnValues fields xs [] = 0 := by
  cases fields <;> cases xs <;> rfl

lemma cmpRecAndTuple_eq (columns : List (Option κ)) (vals : List (ColumnVal κ)) :
    cmpRecAndTuple fields columns vals =
      compareColumnValues fields (columns.map ColumnVal.ofField) vals := by
  induction fields generalizing columns vals with
  | nil => rfl
  | cons field fields ih =>
    rcases columns with - | ⟨column, columns⟩
    · rfl
    rcases vals with - | ⟨val, vals⟩
    · rfl
    rcases column with - | v
    · cases val with
      | null => exact ih columns vals
      | value w => rfl
      | maxValue => rfl
    · cases val with
      | null => rfl
      | value w =>
        show (if field v w ≠ 0 then _ else _) = (if field v w ≠ 0 then _ else _)
        rw [ih columns vals]
      | maxValue => rfl

lemma compareRecords_eq (xs ys : List (Option κ)) : compareRecords fields xs ys =
      compareColumnValues fields (xs.map ColumnVal.ofField) (ys.map ColumnVal.ofField) := by
  induction fields generalizing xs ys with
  | nil => rfl
  | cons field fields ih =>
    rcases xs with - | ⟨x, xs⟩
    · rfl
    rcases ys with - | ⟨y, ys⟩
    · rfl
    rw [compareRecords, ih]
    rcases x with - | v <;> rcases y with - | w <;> rfl

end

lemma ColumnVal.preorders_compare (h : Preorders field) : Preorders (ColumnVal.compare field) where
  swap x y := by
    cases x <;> cases y <;> simp [ColumnVal.compare, h.swap]
  trans x y z := by
    cases x <;> cases y <;> cases z <;> simp only [ColumnVal.compare] <;>
      first | exact h.trans _ _ _ | simp

lemma ColumnVal.isMax_of_compare {x y : ColumnVal κ}
    (h : x.compare field y = 0) : x.isMax = y.isMax := by
  cases x <;> cases y <;> first | rfl | cases h

section Order
variable {fields : List (κ -> κ -> Int)} {x y z : List (ColumnVal κ)}
  (hfields : ∀ field ∈ fields, Preorders field)
include hfields

lemma compareColumnValues_swap :
    compareColumnValues fields x y < 0 ↔ 0 < compareColumnValues fields y x := by
  induction fields generalizing x y with
  | nil => exact ⟨fun h => absurd h (lt_irrefl 0), fun h => absurd h (lt_irrefl 0)⟩
  | cons field fields ih =>
    rcases x with - | ⟨a, x⟩
    · rw [compareColumnValues_nil_left, compareColumnValues_nil_right]
    rcases y with - | ⟨b, y⟩
    · rw [compareColumnValues_nil_left, compareColumnValues_nil_right]
    have hpre := ColumnVal.preorders_compare (hfields field (mem_cons_self ..))
    have hswap := hpre.swap a b
    rw [compareColumnValues_cons, compareColumnValues_cons]
    by_cases hab : a.compare field b = 0
    · have hba := hpre.eq_zero_comm hab
      rw [if_neg (not_not.mpr hab), if_neg (not_not.mpr hba), ColumnVal.isMax_of_compare hab]
      by_cases hmax : b.isMax = true
      · rw [if_pos hmax, if_pos hmax]
      · rw [if_neg hmax, if_neg hmax]
        exact ih fun f hf => hfields f (mem_cons_of_mem _ hf)
    · have hba : b.compare field a ≠ 0 := fun h => hab (hpre.eq_zero_comm h)
      rw [if_pos hab, if_pos hba]
      exact hswap

/-- The first tuple is at least as long as the one in the middle. -/
lemma compareColumnValues_lt_of_le_of_lt (hlen : y.length ≤ x.length)
    (hxy : compareColumnValues fields x y ≤ 0) (hyz : compareColumnValues fields y z < 0) :
    compareColumnValues fields x z < 0 := by
  induction fields generalizing x y z with
  | nil => exact absurd hyz (lt_irrefl 0)
  | cons field fields ih =>
    rcases y with - | ⟨b, y⟩
    · rw [compareColumnValues_nil_left] at hyz
      exact absurd hyz (lt_irrefl 0)
    rcases z with - | ⟨c, z⟩
    · exact absurd hyz (lt_irrefl 0)
    rcases x with - | ⟨a, x⟩
    · exact absurd hlen (not_succ_le_zero _)
    have hpre := ColumnVal.preorders_compare (hfields field (mem_cons_self ..))
    rw [compareColumnValues_cons] at hxy hyz ⊢
    by_cases hab : a.compare field b = 0
    · rw [if_neg (not_not.mpr hab), ColumnVal.isMax_of_compare hab] at hxy
      by_cases hbc : b.compare field c = 0
      · rw [if_neg (not_not.mpr hbc)] at hyz
        rw [if_neg (not_not.mpr (hpre.eq_zero_trans hab hbc)), ColumnVal.isMax_of_compare hab]
        by_cases hmax : b.isMax = true
        · rw [if_pos hmax] at hyz
          exact absurd hyz (lt_irrefl 0)
        · rw [if_neg hmax] at hxy hyz ⊢
          exact ih (fun f hf => hfields f (mem_cons_of_mem _ hf)) (le_of_succ_le_succ hlen)
            hxy hyz
      · rw [if_pos hbc] at hyz
        have hac := hpre.lt_of_le_of_lt hab.le hyz
        rw [if_pos hac.ne]
        exact hac
    · rw [if_pos hab] at hxy
      have hbc : b.compare field c ≤ 0 := by
        by_contra hpos
        omega
      have hac := hpre.lt_of_lt_of_le (lt_of_le_of_ne hxy hab) hbc
      rw [if_pos hac.ne]
      exact hac

lemma compareColumnValues_lt_of_lt_of_le (hlen : x.length ≤ z.length)
    (hxy : compareColumnValues fields x y < 0) (hyz : compareColumnValues fields y z ≤ 0) :
    compareColumnValues fields x z < 0 := by
  by_contra hxz
  have hzx : compareColumnValues fields z x ≤ 0 := by
    by_contra hpos
    exact hxz ((compareColumnValues_swap hfields).mpr (not_le.mp hpos))
  have hzy := compareColumnValues_lt_of_le_of_lt hfields hlen hzx hxy
  have hpos := (compareColumnValues_swap hfields).mp hzy
  omega

lemma compareColumnValues_le_trans (hlen : z.length ≤ y.length)
    (hxy : compareColumnValues fields x y ≤ 0) (hyz : compareColumnValues fields y z ≤ 0) :
    compareColumnValues fields x z ≤ 0 := by
  by_contra hxz
  have hzx := (compareColumnValues_swap hfields).mpr (not_le.mp hxz)
  have hyx := compareColumnValues_lt_of_le_of_lt hfields hlen hyz hzx
  have hpos := (compareColumnValues_swap hfields).mp hyx
  omega

lemma compareColumnValues_eq_zero_comm (h : compareColumnValues fields x y = 0) :
    compareColumnValues fields y x = 0 := by
  have h1 := compareColumnValues_swap hfields (x := x) (y := y)
  have h2 := compareColumnValues_swap hfields (x := y) (y := x)
  omega

end Order

/-- After the columns of an end, MAXVALUE is greater than what any row has there. -/
lemma compareColumnValues_lt_of_max {fields : List (κ -> κ -> Int)} {row columns : List (Option κ)}
    {vals : List (ColumnVal κ)} (hfields : ∀ field ∈ fields, Preorders field)
    (hfull : columns.length < fields.length) (hlen : columns.length < row.length)
    (hrow : compareColumnValues fields (row.map .ofField) (columns.map .ofField) = 0)
    (hval : compareColumnValues fields (columns.map .ofField) vals = 0)
    (hmax : (vals[columns.length]?).any ColumnVal.isMax = true) :
    compareColumnValues fields (row.map .ofField) vals < 0 := by
  have hplain : ∀ x : Option κ, ¬ (ColumnVal.ofField x).isMax = true := by
    rintro (- | v) h <;> cases h
  induction fields generalizing row columns vals with
  | nil => exact absurd hfull (not_lt_zero _)
  | cons field fields ih =>
    rcases row with - | ⟨r, row⟩
    · exact absurd hlen (not_lt_zero _)
    rcases vals with - | ⟨val, vals⟩
    · cases hmax
    rcases columns with - | ⟨column, columns⟩
    · obtain rfl : val = .maxValue := by
        cases val with
        | maxValue => rfl
        | null => cases hmax
        | value v => cases hmax
      rcases r with - | v
      iterate 2 exact negSucc_lt_zero 0
    · have hpre := ColumnVal.preorders_compare (hfields field (mem_cons_self ..))
      rw [map_cons, map_cons, compareColumnValues_cons, if_neg (hplain _)] at hrow
      rw [map_cons, compareColumnValues_cons, if_neg (hplain _)] at hval
      have h1 : (ColumnVal.ofField r).compare field (.ofField column) = 0 := by
        by_contra h
        rw [if_pos h] at hrow
        exact h hrow
      have h2 : (ColumnVal.ofField column).compare field val = 0 := by
        by_contra h
        rw [if_pos h] at hval
        exact h hval
      rw [if_neg (not_not.mpr h1)] at hrow
      rw [if_neg (not_not.mpr h2)] at hval
      rw [map_cons, compareColumnValues_cons, if_neg (not_not.mpr (hpre.eq_zero_trans h1 h2)),
        if_neg (hplain _)]
      refine ih (fun f hf => hfields f (mem_cons_of_mem _ hf)) (lt_of_succ_lt_succ hfull)
        (lt_of_succ_lt_succ hlen) hrow hval ?_
      simpa using hmax

section Prune
variable {fields : List (κ -> κ -> Int)} {columns row : List (Option κ)} {val : List (ColumnVal κ)}
  {left incl : Bool}

lemma prune_eq_zero (h : cmpRecAndTuplePrune fields columns val left incl = 0) :
    cmpRecAndTuple fields columns val = 0 ∧ columns.length = fields.length ∧ incl = true := by
  unfold cmpRecAndTuplePrune at h
  by_cases hzero : cmpRecAndTuple fields columns val = 0
  · rw [if_neg (not_not.mpr hzero)] at h
    refine ⟨hzero, ?_⟩
    split at h
    · rename_i hfull
      refine ⟨hfull, ?_⟩
      cases incl with
      | true => rfl
      | false => cases left <;> cases h
    · split at h
      · cases h
      · split at h <;> cases h
  · rw [if_pos hzero] at h
    exact absurd h hzero

lemma prune_left_pos (h : 0 < cmpRecAndTuplePrune fields columns val true incl) :
    0 < cmpRecAndTuple fields columns val ∨
      (cmpRecAndTuple fields columns val = 0 ∧ incl = false) := by
  unfold cmpRecAndTuplePrune at h
  by_cases hzero : cmpRecAndTuple fields columns val = 0
  · rw [if_neg (not_not.mpr hzero)] at h
    refine .inr ⟨hzero, ?_⟩
    cases incl with
    | false => rfl
    | true =>
      rw [if_pos rfl, if_pos rfl] at h
      split at h
      · exact absurd h (lt_irrefl 0)
      · exact absurd h (by decide)
  · rw [if_pos hzero] at h
    exact .inl h

lemma prune_right_neg (h : cmpRecAndTuplePrune fields columns val false incl < 0) :
    cmpRecAndTuple fields columns val < 0 ∨ (cmpRecAndTuple fields columns val = 0 ∧
        (incl = false ∨ (columns.length ≠ fields.length ∧
          (val[columns.length]?).any ColumnVal.isMax = true))) := by
  unfold cmpRecAndTuplePrune at h
  by_cases hzero : cmpRecAndTuple fields columns val = 0
  · rw [if_neg (not_not.mpr hzero)] at h
    refine .inr ⟨hzero, ?_⟩
    cases incl with
    | false => exact .inl rfl
    | true =>
      right
      rw [if_pos rfl, if_neg Bool.false_ne_true] at h
      split at h
      · exact absurd h (lt_irrefl 0)
      · rename_i hfull
        split at h
        · rename_i hmax
          exact ⟨hfull, hmax.2⟩
        · exact absurd h (by decide)
  · rw [if_pos hzero] at h
    exact .inl h

/-- An end of an interval admits a row, by the comparison of the two in the order of the interval. -/
def Within (incl : Bool) (order : Int) : Prop := if incl then order ≤ 0 else order < 0

lemma Within.le {order : Int} (h : Within incl order) : order ≤ 0 := by
  cases incl with
  | true => exact h
  | false => exact le_of_lt h

variable (hfields : ∀ field ∈ fields, Preorders field) (hrow : row.length = fields.length)
  (hval : val.length = fields.length)
include hfields hrow hval

/-- A bound that the left end is after is before every row of the interval. -/
lemma lt_row_of_prune_left (hcolumns : columns.length ≤ fields.length)
    (hin : Within incl (compareRecords fields columns row))
    (h : 0 < cmpRecAndTuplePrune fields columns val true incl) :
    compareColumnValues fields val (row.map .ofField) < 0 := by
  simp only [compareRecords_eq] at hin
  have hle := hin.le
  have hpos := prune_left_pos h
  rw [cmpRecAndTuple_eq] at hpos
  rcases hpos with hpos | ⟨hzero, rfl⟩
  · have hlt := (compareColumnValues_swap hfields).mpr hpos
    exact compareColumnValues_lt_of_lt_of_le hfields (by rw [length_map, hval, hrow]) hlt hle
  · have hzero := compareColumnValues_eq_zero_comm hfields hzero
    exact compareColumnValues_lt_of_le_of_lt hfields (by rwa [length_map, hval]) hzero.le hin

omit hval in
lemma le_row_of_prune_left (hin : Within incl (compareRecords fields columns row))
    (h : cmpRecAndTuplePrune fields columns val true incl = 0) :
    compareColumnValues fields val (row.map .ofField) ≤ 0 := by
  obtain ⟨hzero, hfull, rfl⟩ := prune_eq_zero h
  rw [compareRecords_eq] at hin
  rw [cmpRecAndTuple_eq] at hzero
  have hzero := compareColumnValues_eq_zero_comm hfields hzero
  exact compareColumnValues_le_trans hfields
    (by rw [length_map, length_map, hrow, hfull]) hzero.le hin

lemma row_lt_of_prune_right (hcolumns : columns.length ≤ fields.length)
    (hin : Within incl (compareRecords fields row columns))
    (h : cmpRecAndTuplePrune fields columns val false incl < 0) :
    compareColumnValues fields (row.map .ofField) val < 0 := by
  simp only [compareRecords_eq] at hin
  have hle := hin.le
  have hlen : (columns.map ColumnVal.ofField).length ≤ (row.map ColumnVal.ofField).length := by
    rwa [length_map, length_map, hrow]
  have hneg := prune_right_neg h
  rw [cmpRecAndTuple_eq] at hneg
  rcases hneg with hneg | ⟨hzero, hcase⟩
  · exact compareColumnValues_lt_of_le_of_lt hfields hlen hle hneg
  · rcases hle.lt_or_eq with hlt | heq
    · exact compareColumnValues_lt_of_lt_of_le hfields (by rw [length_map, hval, hrow]) hlt
        hzero.le
    · rcases hcase with rfl | ⟨hfull, hmax⟩
      · exact absurd heq (ne_of_lt hin)
      · exact compareColumnValues_lt_of_max hfields (by omega) (by omega) heq hzero hmax

omit hrow in
lemma row_le_of_prune_right (hin : Within incl (compareRecords fields row columns))
    (h : cmpRecAndTuplePrune fields columns val false incl = 0) :
    compareColumnValues fields (row.map .ofField) val ≤ 0 := by
  obtain ⟨hzero, hfull, rfl⟩ := prune_eq_zero h
  rw [compareRecords_eq] at hin
  rw [cmpRecAndTuple_eq] at hzero
  exact compareColumnValues_le_trans hfields (by rw [length_map, hval, hfull]) hin hzero.le

end Prune

/-- Full tuples, each less than the next one. -/
structure Increasing (fields : List (κ -> κ -> Int)) (n : Nat) (tuples : Nat -> List (ColumnVal κ)) :
    Prop where
  length : ∀ i < n, (tuples i).length = fields.length
  step : ∀ i, i + 1 < n -> compareColumnValues fields (tuples i) (tuples (i + 1)) < 0

lemma Increasing.lt {fields : List (κ -> κ -> Int)}
    (h : Increasing fields n tuples) (hfields : ∀ field ∈ fields, Preorders field) (hij : i < j)
    (hj : j < n) : compareColumnValues fields (tuples i) (tuples j) < 0 := by
  induction j with
  | zero => exact absurd hij (not_lt_zero i)
  | succ j ih =>
    have hstep := h.step j hj
    rcases eq_or_lt_of_le (le_of_lt_succ hij) with rfl | hij
    · exact hstep
    · refine compareColumnValues_lt_of_le_of_lt hfields (le_of_eq ?_) (ih hij (by omega)).le hstep
      rw [h.length i (by omega), h.length j (by omega)]

section Monotone
variable {fields : List (κ -> κ -> Int)} {x : List (ColumnVal κ)}
  (h : Increasing fields n tuples) (hfields : ∀ field ∈ fields, Preorders field)
  (hx : x.length = fields.length)
include h hfields hx

lemma Increasing.lt_of_lt (hlt : compareColumnValues fields x (tuples i) < 0) (hij : i ≤ j)
    (hj : j < n) : compareColumnValues fields x (tuples j) < 0 := by
  rcases eq_or_lt_of_le hij with rfl | hij
  · exact hlt
  · exact compareColumnValues_lt_of_lt_of_le hfields (by rw [hx, h.length j hj]) hlt
      (h.lt hfields hij hj).le

lemma Increasing.lt_of_le (hle : compareColumnValues fields x (tuples i) ≤ 0) (hij : i < j)
    (hj : j < n) : compareColumnValues fields x (tuples j) < 0 :=
  compareColumnValues_lt_of_le_of_lt hfields (by rw [hx, h.length i (by omega)]) hle
    (h.lt hfields hij hj)

lemma Increasing.lt_of_le_right (hle : compareColumnValues fields (tuples j) x ≤ 0) (hij : i < j)
    (hj : j < n) : compareColumnValues fields (tuples i) x < 0 :=
  compareColumnValues_lt_of_lt_of_le hfields (by rw [hx, h.length i (by omega)])
    (h.lt hfields hij hj) hle

end Monotone

namespace ColumnPartitions

/-- What the server checks when it takes the partitions in. -/
structure Admitted (info : ColumnPartitions κ) : Prop where
  fields : ∀ field ∈ info.partFieldArray, Preorders field
  range : info.partType = .range -> 0 < info.numParts ∧
    Increasing info.partFieldArray info.numParts info.rangeColArray
  list : info.partType = .list -> 0 < info.numListValues ∧
    Increasing info.partFieldArray info.numListValues info.listColArray

variable {info : ColumnPartitions κ} {row : List (Option κ)} {p : Nat}

/-- The row is before the bound of its partition, and not before the one of the partition
before. -/
lemma getPartitionIdRangeCol_spec (hpos : 0 < info.numParts)
    (h : info.getPartitionIdRangeCol row = some p) :
    p < info.numParts ∧ cmpRecAndTuple info.partFieldArray row (info.rangeColArray p) < 0 ∧
      (p = 0 ∨ 0 ≤ cmpRecAndTuple info.partFieldArray row (info.rangeColArray (p - 1))) := by
  simp only [getPartitionIdRangeCol] at h
  generalize hge : notLess (fun i =>
    cmpRecAndTuple info.partFieldArray row (info.rangeColArray i)) = ge at h
  have hnarrow : Narrowed ge (info.numParts - 1)
      (narrow ge info.numParts 0 (info.numParts - 1)) :=
    narrow_narrowed (by omega) (by omega) (le_refl _) (.inl rfl) (.inl rfl)
  obtain ⟨hle, hlast, hbefore⟩ := hnarrow.settle_spec
  split at h
  · cases h
  · rename_i hfound
    obtain rfl := Option.some.inj h
    have hp := Bool.eq_false_iff.mpr fun hp => hfound ⟨hlast hp, hp⟩
    have hbefore := hbefore hp
    subst hge
    exact ⟨by omega, not_le.mp (of_decide_eq_false hp), hbefore.imp_right of_decide_eq_true⟩

lemma getPartitionIdListCol_spec (hpos : 0 < info.numListValues)
    (h : info.getPartitionIdListCol row = some p) :
    ∃ i < info.numListValues, p = info.listPartitionId i ∧
      cmpRecAndTuple info.partFieldArray row (info.listColArray i) = 0 := by
  simp only [getPartitionIdListCol] at h
  generalize hcmp : (fun i =>
    compare 0 (cmpRecAndTuple info.partFieldArray row (info.listColArray i))) = cmp at h
  rcases find_start cmp hpos with ⟨i, hfind, hi, heq⟩ | ⟨i, hfind, -⟩
  · rw [hfind] at h
    subst hcmp
    exact ⟨i, hi, (Option.some.inj h).symm, (compare_eq_iff_eq.mp heq).symm⟩
  · rw [hfind] at h
    cases h

section Endpoints
variable {columns : List (Option κ)} {incl : Bool}
  (hfields : ∀ field ∈ info.partFieldArray, Preorders field)
  (hrow : row.length = info.partFieldArray.length)
  (hcolumns : columns.length ≤ info.partFieldArray.length)
include hfields hrow hcolumns

section
variable (hpos : 0 < info.numParts)
  (hbounds : Increasing info.partFieldArray info.numParts info.rangeColArray)
include hpos hbounds

lemma range_left_le (hin : Within incl (compareRecords info.partFieldArray columns row))
    (hp : info.getPartitionIdRangeCol row = some p) :
    info.getPartitionIdColsRangeForEndpoint true incl columns ≤ p := by
  obtain ⟨hlt, hless, -⟩ := getPartitionIdRangeCol_spec hpos hp
  rw [cmpRecAndTuple_eq] at hless
  simp only [getPartitionIdColsRangeForEndpoint, if_true]
  have hcut := @cut_isCut (notLess fun i => cmpRecAndTuplePrune info.partFieldArray columns
    (info.rangeColArray i) true incl) info.numParts 0 info.numParts (zero_le _) (le_refl _)
  generalize cut _ info.numParts 0 info.numParts = loc at hcut ⊢
  by_contra hlt'
  have hle := hcut.le_hi
  have hge := of_decide_eq_true (hcut.before.resolve_left (by omega))
  have hbound : compareColumnValues info.partFieldArray (info.rangeColArray (loc - 1))
      (row.map .ofField) ≤ 0 := by
    have hlen := hbounds.length (loc - 1) (by omega)
    rcases hge.lt_or_eq with hgt | heq
    · exact (lt_row_of_prune_left hfields hrow hlen hcolumns hin hgt).le
    · exact le_row_of_prune_left hfields hrow hin heq.symm
  have hrow_lt : compareColumnValues info.partFieldArray (row.map .ofField)
      (info.rangeColArray (loc - 1)) < 0 :=
    hbounds.lt_of_lt hfields (by rwa [length_map]) hless (by omega) (by omega)
  have hpos := (compareColumnValues_swap hfields).mp hrow_lt
  omega

lemma range_right_lt (hin : Within incl (compareRecords info.partFieldArray row columns))
    (hp : info.getPartitionIdRangeCol row = some p) :
    p < info.getPartitionIdColsRangeForEndpoint false incl columns := by
  obtain ⟨hlt, -, hprev⟩ := getPartitionIdRangeCol_spec hpos hp
  rw [cmpRecAndTuple_eq] at hprev
  simp only [getPartitionIdColsRangeForEndpoint, Bool.false_eq_true, if_false]
  have hcut := @cut_isCut (notLess fun i => cmpRecAndTuplePrune info.partFieldArray columns
    (info.rangeColArray i) false incl) info.numParts 0 info.numParts (zero_le _) (le_refl _)
  generalize cut _ info.numParts 0 info.numParts = loc at hcut ⊢
  by_cases hloc : loc < info.numParts
  · rw [if_pos hloc]
    by_contra hge
    have hneg := not_le.mp (of_decide_eq_false (hcut.at_end.resolve_left (by omega)))
    have hlen := hbounds.length loc hloc
    have hrow_lt := row_lt_of_prune_right hfields hrow hlen hcolumns hin hneg
    have hlt' : compareColumnValues info.partFieldArray (row.map .ofField)
        (info.rangeColArray (p - 1)) < 0 :=
      hbounds.lt_of_lt hfields (by rwa [length_map]) hrow_lt (by omega) (by omega)
    omega
  · rw [if_neg hloc]
    omega

end

section
variable (hpos : 0 < info.numListValues)
  (hbounds : Increasing info.partFieldArray info.numListValues info.listColArray)
include hpos hbounds

lemma list_left_le (hin : Within incl (compareRecords info.partFieldArray columns row))
    (heq : cmpRecAndTuple info.partFieldArray row (info.listColArray i) = 0) :
    info.getPartitionIdColsListForEndpoint true incl columns ≤ i := by
  rw [cmpRecAndTuple_eq] at heq
  have heq := compareColumnValues_eq_zero_comm hfields heq
  simp only [getPartitionIdColsListForEndpoint, Bool.true_eq_false, false_and, if_false]
  have hseek := seek_sought_start hpos
    (fun i => cmpRecAndTuplePrune info.partFieldArray columns (info.listColArray i) true incl)
  generalize seek _ info.numListValues 0 info.numListValues = found at hseek ⊢
  have hle := hseek.le
  by_contra hlt
  by_cases hzero : found.2 = 0
  · obtain ⟨hfound, hcmp⟩ := hseek.zero hzero
    have hbound := le_row_of_prune_left hfields hrow hin hcmp
    have hlt := hbounds.lt_of_le_right hfields ((length_map _).trans hrow) hbound (not_le.mp hlt)
      hfound
    omega
  · have hcmp := (hseek.before hzero).resolve_left (by omega)
    have hlen := hbounds.length (found.1 - 1) (by omega)
    have hbound := lt_row_of_prune_left hfields hrow hlen hcolumns hin hcmp
    rcases eq_or_lt_of_le (show i ≤ found.1 - 1 by omega) with heq' | hlt
    · rw [← heq'] at hbound
      omega
    · have hlt := hbounds.lt_of_le_right hfields ((length_map _).trans hrow) hbound.le hlt
        (by omega)
      omega

lemma list_right_lt (hin : Within incl (compareRecords info.partFieldArray row columns))
    (hi : i < info.numListValues)
    (heq : cmpRecAndTuple info.partFieldArray row (info.listColArray i) = 0) :
    i < info.getPartitionIdColsListForEndpoint false incl columns := by
  rw [cmpRecAndTuple_eq] at heq
  simp only [getPartitionIdColsListForEndpoint, true_and]
  have hseek := seek_sought_start hpos
    (fun i => cmpRecAndTuplePrune info.partFieldArray columns (info.listColArray i) false incl)
  generalize seek _ info.numListValues 0 info.numListValues = found at hseek ⊢
  by_cases hzero : found.2 = 0
  · obtain ⟨hfound, hcmp⟩ := hseek.zero hzero
    obtain ⟨-, -, hincl⟩ := prune_eq_zero hcmp
    rw [if_pos ⟨hincl, hzero, hfound⟩]
    by_contra hlt
    have hbound := row_le_of_prune_right hfields (hbounds.length _ hfound) hin hcmp
    have hlt := hbounds.lt_of_le hfields ((length_map _).trans hrow) hbound
      (show found.1 < i by omega) hi
    omega
  · rw [if_neg fun h => hzero h.2.1]
    by_contra hlt
    have hcmp := (hseek.after hzero).resolve_left (by omega)
    have hlen := hbounds.length found.1 (by omega)
    have hbound := row_lt_of_prune_right hfields hrow hlen hcolumns hin hcmp
    have hlt := hbounds.lt_of_lt hfields ((length_map _).trans hrow) hbound (not_lt.mp hlt) hi
    omega

end

end Endpoints

/-- The part of the array between the ends is not empty if a place is in it, and the iterator goes
through it. -/
lemma mem_partitionsFor {interval : ColumnInterval κ} {partIter : PartitionIterator} {i : Nat}
    (hmin : interval.noMinRange = false ->
      info.getColEndpoint true (!interval.nearMin) interval.minTuple ≤ i)
    (hi : i < match info.partType with
      | .range => info.numParts
      | .list => info.numListValues)
    (hmax : interval.noMaxRange = false ->
      i < info.getColEndpoint false (!interval.nearMax) interval.maxTuple)
    (hp : p = match info.partType with
      | .range => i
      | .list => info.listPartitionId i) :
    p ∈ info.partitionsFor interval partIter := by
  have hstart : (if interval.noMinRange then 0
      else info.getColEndpoint true (!interval.nearMin) interval.minTuple) ≤ i := by
    split
    case isTrue => exact zero_le i
    case isFalse hno => exact hmin (Bool.eq_false_iff.mpr hno)
  have hstop : ∀ {n}, i < n -> i < if interval.noMaxRange then n
      else info.getColEndpoint false (!interval.nearMax) interval.maxTuple := by
    intro n hn
    split
    case isTrue => exact hn
    case isFalse hno => exact hmax (Bool.eq_false_iff.mpr hno)
  have hstop := hstop hi
  simp only [partitionsFor, getPartIterForIntervalColsViaMap]
  rw [if_neg (by omega)]
  cases htype : info.partType with
  | range | list =>
    simp only [htype] at hp hstop
    simp only [getNext, htype, getNextPartitionIdRange, getNextPartitionIdList]
    rw [mem_drain (le_refl _)]
    exact .inl ⟨i, hstart, hstop, hp⟩

/-- The partition of a row of an interval is among those that are read for the interval. -/
theorem mem_partitionsFor_of_contains (info : ColumnPartitions κ) (hinfo : info.Admitted)
    (interval : ColumnInterval κ) (hmin : interval.minTuple.length ≤ info.partFieldArray.length)
    (hmax : interval.maxTuple.length ≤ info.partFieldArray.length) (row : List (Option κ))
    (hrow : row.length = info.partFieldArray.length)
    (hin : interval.Contains info.partFieldArray row) (p : Nat)
    (hp : info.getPartitionId row = some p) (partIter : PartitionIterator) :
    p ∈ info.partitionsFor interval partIter := by
  have hfields := hinfo.fields
  cases htype : info.partType with
  | range =>
    obtain ⟨hpos, hbounds⟩ := hinfo.range htype
    simp only [getPartitionId, htype] at hp
    have hlt := (getPartitionIdRangeCol_spec hpos hp).1
    refine mem_partitionsFor (fun hno => ?_) (by rw [htype]; exact hlt) (fun hno => ?_) (by rw [htype]) <;>
      simp [getColEndpoint, htype]
    · exact range_left_le hfields hrow hmin hpos hbounds (hin.1 hno) hp
    · exact range_right_lt hfields hrow hmax hpos hbounds (hin.2 hno) hp
  | list =>
    obtain ⟨hpos, hbounds⟩ := hinfo.list htype
    simp only [getPartitionId, htype] at hp
    obtain ⟨i, hi, rfl, heq⟩ := getPartitionIdListCol_spec hpos hp
    refine mem_partitionsFor (fun hno => ?_) (by rw [htype]; exact hi) (fun hno => ?_) (by rw [htype]) <;>
      simp [getColEndpoint, htype]
    · exact list_left_le hfields hrow hmin hpos hbounds (hin.1 hno) heq
    · exact list_right_lt hfields hrow hmax hpos hbounds (hin.2 hno) hi heq

/-- `VALUES LESS THAN (1, 5)`, `(1, MAXVALUE)` and `(3, 0)`. -/
def threeRanges : ColumnPartitions Int where
  partType := .range
  partFieldArray := [fun a b => a - b, fun a b => a - b]
  numParts := 3
  rangeColArray i := match i with
    | 0 => [.value 1, .value 5]
    | 1 => [.value 1, .maxValue]
    | _ => [.value 3, .value 0]
  numListValues := 0
  listColArray _ := []
  listPartitionId _ := 0
  hasNullPartId := 0

lemma threeRanges_admitted : threeRanges.Admitted where
  fields := by
    have hpre : Preorders fun a b : Int => a - b :=
      ⟨fun x y => by omega, fun x y z h1 h2 => by omega⟩
    intro field hfield
    simp only [threeRanges, mem_cons, not_mem_nil, or_false, or_self] at hfield
    rw [hfield]
    exact hpre
  range _ := by
    refine ⟨by decide, ?_, ?_⟩
    · rintro (- | - | i) - <;> rfl
    · rintro (- | - | i) hi
      · decide
      · decide
      · exact absurd (show i + 3 < 3 from hi) (by omega)
  list h := by cases h

/-- The rows that begin with 1: those of the first two partitions. -/
theorem mem_partitionsFor_of_contains_one :
    1 ∈ threeRanges.partitionsFor ⟨false, false, [some 1], false, false, [some 1]⟩
      ⟨0, 0, 0, false, false⟩ :=
  mem_partitionsFor_of_contains threeRanges threeRanges_admitted _ (by decide) (by decide)
    [some 1, some 9] rfl ⟨fun _ => by decide, fun _ => by decide⟩ 1 (by decide +kernel) _

end ColumnPartitions

end Sql
