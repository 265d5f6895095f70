import EryMysql.Sql.Partitions
import EryMysql.Sql.Calendar

/-!
# When no row of an interval is missed

A row whose function value is not NULL is between the places that the searches find for the ends of
the interval. The partition of the NULL values is read only if the function does not leave before
it looks at the flag, which it does if all partitions are before the left end.
-/

namespace Sql

open BinarySearch Option List Bool Nat

variable {V : Type} {value : Int} {interval : FieldInterval V} {info : IntPartitions}
  {field : PartField V}

namespace IntPartitions

variable {e : PartExpr V}
  {x y : WithBot V} {p i : Nat}

def idAt (info : IntPartitions) (i : Nat) : Nat :=
  match info.partType with
  | .range => i
  | .list => (info.listArray i).partitionId

def nullPart (info : IntPartitions) : Nat :=
  match info.partType with
  | .range => 0
  | .list => info.hasNullPartId

lemma getNext_eq (info : IntPartitions) :
    info.getNext = getNextPartitionId info.idAt info.nullPart := by
  have hid : info.idAt = match info.partType with
      | .range => fun i => i
      | .list => fun i => (info.listArray i).partitionId := by
    funext i
    rw [idAt]
    cases info.partType <;> rfl
  rw [hid, getNext, nullPart]
  cases info.partType <;> rfl

lemma reads_initialized {it : PartitionIterator} : info.Reads p (.initialized it) ↔
      (∃ i, it.cur ≤ i ∧ i < it.stop ∧ p = info.idAt i) ∨ (it.retNullPart = true ∧ p = info.nullPart) := by
  rw [Reads, getNext_eq]
  exact mem_drain (le_refl _)

lemma findMaximum_reads_at {start : Nat} {retNullPart : Bool} {startDate : Option (Nat × Nat)}
    (hstart : start ≤ i)
    (hstop : if interval.noMaxRange then i < info.maxEndpointVal
      else i < info.getEndpoint e false (!interval.nearMax) interval.maxValue) :
    info.Reads (info.idAt i) (info.findMaximum e field interval start retNullPart startDate) := by
  simp only [findMaximum]
  by_cases hno : interval.noMaxRange = true
  · rw [if_pos hno] at hstop ⊢
    exact reads_initialized.mpr (.inl ⟨i, hstart, hstop, rfl⟩)
  · rw [if_neg hno] at hstop ⊢
    rw [if_neg fun h => absurd h.1 (by omega)]
    exact reads_initialized.mpr (.inl ⟨i, hstart, hstop, rfl⟩)

lemma findMaximum_reads_null {start : Nat} {startDate : Option (Nat × Nat)}
    (hmonth : interval.noMaxRange = false -> startDate.isSome = true ->
      (e.valInt interval.maxValue).isSome = true -> field.getDate interval.maxValue ≠ startDate) :
    info.Reads info.nullPart (info.findMaximum e field interval start true startDate) := by
  simp only [findMaximum]
  split
  · exact reads_initialized.mpr (.inr ⟨rfl, rfl⟩)
  · rename_i hno
    have hsame := hmonth (eq_false_iff.mpr hno)
    rw [if_neg (by simpa using fun _ _ => hsame)]
    exact reads_initialized.mpr (.inr ⟨if_neg (by simpa using fun _ => hsame), rfl⟩)

lemma placed_null (hx : e.valInt x = none) (hp : info.getPartitionId e x = some p) :
    p = info.nullPart ∧ (info.partType = .range ∨ info.hasNullValue = true) := by
  rw [getPartitionId] at hp
  cases htype : info.partType with
  | range =>
    simp only [htype, getPartitionIdRange, hx] at hp
    simp only [nullPart, htype]
    exact ⟨(some.inj hp).symm, .inl trivial⟩
  | list =>
    simp only [htype, getPartitionIdList, hx] at hp
    simp only [nullPart, htype]
    split at hp
    · rename_i hnull
      exact ⟨(some.inj hp).symm, .inr hnull⟩
    · cases hp

section
variable [LinearOrder V] (he : e.Monotone) (hinfo : info.Admitted)
include he hinfo

/-- A row with a value has a place in the array that is between the ends of every interval with the
row. -/
lemma placed_at (hx : e.valInt x = some value)
    (hp : info.getPartitionId e x = some p) :
    ∃ i < info.maxEndpointVal, p = info.idAt i ∧
      (∀ incl z, (if incl then z ≤ x else z < x) -> info.getEndpoint e true incl z ≤ i) ∧
      (∀ incl z, e.valInt z ≠ none -> (if incl then x ≤ z else x < z) ->
        i < info.getEndpoint e false incl z) := by
  rw [getPartitionId] at hp
  cases htype : info.partType with
  | range =>
    simp only [htype] at hp
    have hpos := hinfo.numParts htype
    simp only [maxEndpointVal, idAt, getEndpoint, htype]
    exact ⟨p, (getPartitionIdRange_spec hpos hx hp).1, rfl,
      fun incl z hin => range_left_le he hinfo hx hpos hin hp,
      fun incl z hz hin => range_right_lt he hinfo hx hpos hz hin hp⟩
  | list =>
    simp only [htype] at hp
    obtain ⟨i, hi, rfl, heq⟩ := getPartitionIdList_spec hx hp
    have hpos : 0 < info.numListValues := by omega
    simp only [maxEndpointVal, idAt, getEndpoint, htype]
    exact ⟨i, hi, rfl, fun incl z hin => list_left_le he hinfo hx hpos hin heq hi,
      fun incl z hz hin => list_right_lt he hinfo hx hpos hz hin heq hi⟩

end

end IntPartitions

namespace IntPartitions

variable (info) (e : PartExpr V)

/-- All bounds, or all list constants, are before the left end of an interval. -/
def AllBefore (includeEndpoint : Bool) (x : WithBot V) : Prop :=
  let endpoint := e.valIntEndpoint true includeEndpoint x
  match info.partType with
  | .range => info.definedMaxValue = false ∧
      info.rangeIntArray (info.numParts - 1) ≤ rangeEndpointValue e true endpoint.2 endpoint.1
  | .list =>
    let last := (info.listArray (info.numListValues - 1)).listValue
    if endpoint.2 then last < e.biased endpoint.1 else last ≤ e.biased endpoint.1

/-- The partition of the NULL values should be read for a function that may be NULL, but all other
partitions are before the left end. That is not so for `NULL <= X`, nor for an interval that looks
like `=` with NULL as the value of the function. -/
def LeavesEarly (field : PartField V) (interval : FieldInterval V) : Prop :=
  e.notNull = true ∧ interval.noMinRange = false ∧
  ¬ (info.partType = .list ∧ info.numListValues = 0) ∧
  ¬ (field.maybeNull = true ∧ info.hasNullValue = true ∧ interval.nearMin = false ∧
    interval.minValue = ⊥) ∧
  ¬ (interval.canMatchMultipleValues field = false ∧ e.valInt interval.minValue = none) ∧
  info.AllBefore e (!interval.nearMin) interval.minValue

variable {info} {e}

lemma range_start_eq_iff (hinfo : info.Admitted) (hpos : 0 < info.numParts) (v : Int)
    (hcut : IsCut (fun i => decide (info.rangeIntArray i < v)) 0 (info.numParts - 1) loc) :
    (if info.rangeIntArray loc ≤ v ∧ (loc < info.numParts - 1 ∨ info.definedMaxValue = false)
      then loc + 1 else loc) = info.numParts ↔
    info.definedMaxValue = false ∧ info.rangeIntArray (info.numParts - 1) ≤ v := by
  have hle := hcut.le_hi
  constructor
  · intro h
    split at h
    · rename_i hlast
      obtain rfl : loc = info.numParts - 1 := by omega
      exact ⟨hlast.2.resolve_left (lt_irrefl _), hlast.1⟩
    · omega
  · rintro ⟨hmax, hlast⟩
    have hloc : loc = info.numParts - 1 := by
      by_contra hne
      have hge := of_decide_eq_false (hcut.at_end.resolve_left hne)
      rcases hinfo.range loc (by omega) with hlt | ⟨-, h⟩
      · have hmono := hinfo.range_le (show loc + 1 ≤ info.numParts - 1 by omega) (by omega)
        omega
      · rw [hmax] at h
        cases h
    rw [if_pos ⟨by rwa [hloc], .inr hmax⟩]
    omega

lemma list_start_le (hpos : 0 < info.numListValues) (left incl : Bool) (x : WithBot V) :
    info.getListArrayIdxForEndpoint e left incl x ≤ info.numListValues := by
  simp only [getListArrayIdxForEndpoint]
  split
  · exact zero_le _
  rcases find_listArray hpos (e.biased (e.valIntEndpoint left incl x).1) with
    ⟨j, hfind, hj, -⟩ | ⟨j, r, hfind, hplace, hr, -⟩
  · simp only [hfind]
    split <;> omega
  · simp only [hfind, hplace]
    exact hr

/-- Where the function leaves, in terms of the partitions. -/
lemma start_eq_iff (hinfo : info.Admitted) (hclass : e.notNull = true)
    (hlist : ¬ (info.partType = .list ∧ info.numListValues = 0)) (incl : Bool) (x : WithBot V) :
    info.getEndpoint e true incl x = info.maxEndpointVal ↔ info.AllBefore e incl x := by
  have hused : ¬ (e.valInt x = none ∧ e.notNull = false) := by
    rw [hclass]
    exact fun h => false_ne_true h.2.symm
  cases htype : info.partType with
  | range =>
    have hpos := hinfo.numParts htype
    simp only [getEndpoint, maxEndpointVal, AllBefore, htype, getPartitionIdRangeForEndpoint,
      if_neg hused, if_true]
    exact range_start_eq_iff hinfo hpos _ (cut_isCut (zero_le _) (by omega))
  | list =>
    have hpos : 0 < info.numListValues := zero_lt_of_ne_zero fun h => hlist ⟨htype, h⟩
    have hle := list_start_le (e := e) hpos true incl x
    have hlast : info.getListArrayIdxForEndpoint e true incl x = info.numListValues ↔
        info.numListValues - 1 < info.getListArrayIdxForEndpoint e true incl x := by omega
    simp only [getEndpoint, maxEndpointVal, AllBefore, htype]
    rw [hlast, list_lt_iff_of_not_null hinfo hpos hused (by omega)]
    cases (e.valIntEndpoint true incl x).2 <;> rfl

end IntPartitions

section
variable [LinearOrder V] {e : PartExpr V}
  {x : WithBot V}

lemma PartField.Tells.isNullImage (hfield : field.Tells e) (hnull : field.maybeNull = true) :
    field.isNullImage x = true ↔ x = ⊥ := by
  have hhead := hfield.null hnull x
  rw [PartField.isNullImage, headD_eq_head?_getD, hhead]
  by_cases hx : x = ⊥
  · simp
  · simp

lemma PartExpr.Monotone.eq_bot (he : e.Monotone) (hnull : e.notNull = false)
    (hx : e.valInt x = none) : x = ⊥ := by
  cases x with
  | bot => rfl
  | coe x => exact absurd hx (he.total hnull x)

namespace FieldInterval.Contains

lemma min_le (h : interval.Contains field x) (hno : interval.noMinRange = false) :
    if !interval.nearMin then interval.minValue ≤ x else interval.minValue < x := by
  have hmin := h.2.1
  rwa [if_neg (by rw [hno]; exact false_ne_true)] at hmin

lemma le_max (h : interval.Contains field x) (hno : interval.noMaxRange = false) :
    x ≤ interval.maxValue := by
  have hmax := h.2.2 hno
  split at hmax
  · exact hmax
  · exact hmax.le

lemma ge_min (h : interval.Contains field x) (hno : interval.noMinRange = false) :
    interval.minValue ≤ x := by
  have hmin := h.min_le hno
  split at hmin
  · exact hmin
  · exact hmin.le

/-- An interval that looks like `=` has no other value if its ends are equal. -/
lemma eq_min (h : interval.Contains field x) (hlooks : interval.canMatchMultipleValues field = false)
    (hends : interval.minValue = interval.maxValue) : x = interval.minValue := by
  simp only [canMatchMultipleValues, or_eq_false_iff] at hlooks
  exact le_antisymm (hends ▸ h.le_max hlooks.1.1.2) (h.ge_min hlooks.1.1.1.1)

end FieldInterval.Contains

namespace IntPartitions

variable {p : Nat}

section
variable (he : e.Monotone) (hfield : field.Tells e)
  (hends : interval.canMatchMultipleValues field = false -> interval.minValue = interval.maxValue)
  (hinfo : info.Admitted) (hx : interval.Contains field x)
include he hfield hends hinfo hx

/-- A row for which the function is not NULL is never missed. -/
lemma reads_value (hright : interval.noMaxRange = false -> e.notNull = true ->
      interval.maxValue ≠ ⊥ -> e.valInt interval.maxValue ≠ none)
    (hvalue : e.valInt x = some value) (hp : info.getPartitionId e x = some p) :
    info.Reads p (info.getPartIterForIntervalViaMapping e field interval) := by
  obtain ⟨i, hi, rfl, hleft, hstop⟩ := placed_at he hinfo hvalue hp
  have hmax : interval.noMaxRange = false -> interval.maxValue ≠ ⊥ := by
    intro hno hbot
    have hle := hx.le_max hno
    rw [hbot, le_bot_iff] at hle
    rw [hle, he.null] at hvalue
    cases hvalue
  have hstop : if interval.noMaxRange then i < info.maxEndpointVal
      else i < info.getEndpoint e false (!interval.nearMax) interval.maxValue := by
    split
    · exact hi
    rename_i hno
    have hno := eq_false_iff.mpr hno
    refine hstop _ _ ?_ (hx.2.2 hno)
    cases hclass : e.notNull with
    | true => exact hright hno hclass (hmax hno)
    | false => exact fun hnone => hmax hno (he.eq_bot hclass hnone)
  rw [getPartIterForIntervalViaMapping]
  split
  · trivial
  split
  · rename_i hspecial
    rw [if_neg fun h => hmax h.1 ((hfield.isNullImage hspecial.1).mp h.2)]
    exact findMaximum_reads_at (zero_le i) hstop
  split
  · exact findMaximum_reads_at (zero_le i) hstop
  rename_i hno
  have hno := eq_false_iff.mpr hno
  split
  · rename_i hnull
    rw [hx.eq_min hnull.1 (hends hnull.1), hnull.2] at hvalue
    cases hvalue
  · have hstart := hleft _ _ (hx.min_le hno)
    rw [if_neg (by omega)]
    exact findMaximum_reads_at hstart hstop

omit hends in
/-- NULL itself is not missed if the function has a value for all other values. -/
lemma reads_bot (hclass : e.notNull = false) (hbot : x = ⊥)
    (htype : info.partType = .range ∨ info.hasNullValue = true)
    (hspecial : ¬ (field.maybeNull = true ∧ info.hasNullValue = true ∧
      interval.noMinRange = false ∧ interval.nearMin = false ∧
      field.isNullImage interval.minValue = true))
    (hno : interval.noMinRange = false) :
    info.getEndpoint e true (!interval.nearMin) interval.minValue ≠ info.maxEndpointVal ∧
    info.Reads info.nullPart (info.findMaximum e field interval
      (info.getEndpoint e true (!interval.nearMin) interval.minValue) false none) := by
  subst hbot
  have hmaybe : field.maybeNull = true := by
    by_contra h
    exact hx.1 (eq_false_iff.mpr h) rfl
  have hle := hx.min_le hno
  have hnear : interval.nearMin = false := by
    by_contra h
    rw [eq_true_of_not_eq_false h] at hle
    exact not_lt_bot hle
  rw [hnear, Bool.not_false, if_pos rfl, le_bot_iff] at hle
  have hhas : ¬ info.hasNullValue = true := fun hhas =>
    hspecial ⟨hmaybe, hhas, hno, hnear, (hfield.isNullImage hmaybe).mpr hle⟩
  have hrange := htype.resolve_right hhas
  have hpos := hinfo.numParts hrange
  have hstart : info.getEndpoint e true (!interval.nearMin) interval.minValue = 0 := by
    simp only [getEndpoint, hrange, getPartitionIdRangeForEndpoint, hle]
    rw [if_pos ⟨he.null, hclass⟩, if_neg (by simp)]
  have hmax : info.maxEndpointVal = info.numParts := by simp [maxEndpointVal, hrange]
  have hzero : info.nullPart = info.idAt 0 := by simp [nullPart, idAt, hrange]
  rw [hstart, hmax, hzero]
  refine ⟨hpos.ne, findMaximum_reads_at (le_refl 0) ?_⟩
  split
  · rw [hmax]
    exact hpos
  · rename_i hnomax
    simp only [getEndpoint, hrange, getPartitionIdRangeForEndpoint]
    split
    · rename_i hend
      have hright := hx.2.2 (eq_false_iff.mpr hnomax)
      rw [he.eq_bot hclass hend.1] at hright ⊢
      have hincl : (!interval.nearMax) = true := by
        by_contra h
        rw [if_neg h] at hright
        exact not_lt_bot hright
      rw [hincl, if_pos ⟨trivial, he.included false ⊥⟩]
      exact one_pos
    · rw [if_neg Bool.false_ne_true]
      split <;> exact succ_pos _

lemma reads_null (hstay : ¬ info.LeavesEarly e field interval) (hnone : e.valInt x = none)
    (hp : info.getPartitionId e x = some p) :
    info.Reads p (info.getPartIterForIntervalViaMapping e field interval) := by
  obtain ⟨rfl, htype⟩ := placed_null hnone hp
  have hcheck : e.notNull = true -> interval.canMatchMultipleValues field = true ->
      info.checkZeroDates e field interval = true := by
    intro hclass hmulti
    simpa [checkZeroDates, hclass, hmulti] using htype
  rw [getPartIterForIntervalViaMapping]
  split
  · trivial
  rename_i hlist
  split
  · split
    · exact reads_initialized.mpr (.inr ⟨rfl, rfl⟩)
    · exact findMaximum_reads_null fun _ h => absurd h (by simp)
  rename_i hspecial
  split
  · rename_i hno
    have hclass : e.notNull = true := by
      by_contra hclass
      have hne := hx.2.1
      rw [if_pos hno] at hne
      exact hne (he.eq_bot (eq_false_iff.mpr hclass) hnone)
    rw [hcheck hclass (by simp [FieldInterval.canMatchMultipleValues, hno])]
    exact findMaximum_reads_null fun _ h => absurd h (by simp)
  rename_i hno
  have hno := eq_false_iff.mpr hno
  split
  · exact reads_initialized.mpr (.inr ⟨rfl, rfl⟩)
  rename_i hnull
  cases hclass : e.notNull with
  | true =>
    have hmulti : interval.canMatchMultipleValues field = true := by
      by_contra hmulti
      have hmulti := eq_false_iff.mpr hmulti
      rw [hx.eq_min hmulti (hends hmulti)] at hnone
      exact hnull ⟨hmulti, hnone⟩
    rw [if_neg, hcheck hclass hmulti]
    · refine findMaximum_reads_null fun hnomax hsome hvalue hmonth => ?_
      split at hsome
      · rename_i hstart
        rw [if_pos hstart] at hmonth
        refine hfield.month _ x _ (hx.ge_min hno) (hx.le_max hnomax) ?_ ?_ hsome hmonth hnone
        · exact isSome_iff_ne_none.mp hstart.2.1
        · exact isSome_iff_ne_none.mp hvalue
      · cases hsome
    · rw [start_eq_iff hinfo hclass hlist]
      refine fun hall => hstay ⟨hclass, hno, hlist, fun h => hspecial ?_, hnull, hall⟩
      exact ⟨h.1, h.2.1, hno, h.2.2.1, (hfield.isNullImage h.1).mpr h.2.2.2⟩
  | false =>
    obtain ⟨hstart, hreads⟩ := reads_bot he hfield hinfo hx hclass (he.eq_bot hclass hnone) htype
      hspecial hno
    have hzero : info.checkZeroDates e field interval = false := by simp [checkZeroDates, hclass]
    rw [if_neg hstart, hzero, if_neg (by simp)]
    exact hreads

omit he hends hx in
lemma leaves_of_leavesEarly (h : info.LeavesEarly e field interval) :
    info.getPartIterForIntervalViaMapping e field interval = .noPartitions := by
  obtain ⟨hclass, hno, hlist, hspecial, hnull, hall⟩ := h
  rw [getPartIterForIntervalViaMapping, if_neg hlist, if_neg,
    if_neg (by rw [hno]; exact false_ne_true), if_neg hnull]
  · exact if_pos ((start_eq_iff hinfo hclass hlist _ _).mpr hall)
  · exact fun h => hspecial ⟨h.1, h.2.1, h.2.2.2.1, (hfield.isNullImage h.1).mp h.2.2.2.2⟩

end

end IntPartitions

end

/-- A value of a DATE column: a date, or one with a zero as the month or the day. -/
@[ext] structure FieldDate where
  year : Nat
  month : Nat
  day : Nat
  year_pos : 0 < year
  year_le : year ≤ 9999
  month_le : month ≤ 12
  day_le : day ≤ if month = 0 then 31 else monthLength year month

namespace FieldDate

variable {d d' : FieldDate}

/-- The number that is stored, and that the values are compared by. -/
def stored (d : FieldDate) : Nat := d.year * 16 * 32 + d.month * 32 + d.day

lemma day_lt (d : FieldDate) : d.day < 32 := by
  have hle := d.day_le
  have hmonth : ∀ m < 13, daysInMonth.getD (m - 1) 0 + (if m = 2 then 1 else 0) ≤ 31 := by decide
  have hlt := hmonth d.month (lt_succ_of_le d.month_le)
  rw [monthLength] at hle
  split at hle
  · omega
  · split at hle <;> split at hlt <;> omega

lemma stored_injective : Function.Injective stored := by
  intro d d' h
  have hd := d.day_lt
  have hd' := d'.day_lt
  have hm := d.month_le
  have hm' := d'.month_le
  simp only [stored] at h
  ext <;> omega

instance : LinearOrder FieldDate := LinearOrder.lift' stored stored_injective

/-- The days from a value to the first date not before it without a zero. -/
def gap (d : FieldDate) : Nat := if d.month = 0 then 32 - d.day else if d.day = 0 then 1 else 0

lemma gap_eq_zero : d.gap = 0 ↔ d.month ≠ 0 ∧ d.day ≠ 0 := by
  have hday := d.day_lt
  rw [gap]
  split
  · omega
  · split <;> omega

def firstFull (d : FieldDate) : Date where
  year := d.year
  month := max 1 d.month
  day := if d.gap = 0 then d.day else 1
  year_pos := d.year_pos
  year_le := d.year_le
  month_pos := by omega
  month_le := by have := d.month_le; omega
  day_pos := by
    split
    · rename_i h
      exact Nat.pos_of_ne_zero (gap_eq_zero.mp h).2
    · exact one_pos
  day_le := by
    split
    · rename_i h
      have hmonth := (gap_eq_zero.mp h).1
      rw [max_eq_right (Nat.pos_of_ne_zero hmonth)]
      exact d.day_le.trans_eq (if_neg hmonth)
    · have hlength : ∀ m < 13, 0 < m -> 1 ≤ daysInMonth.getD (m - 1) 0 := by decide
      have hle := d.month_le
      exact (hlength (max 1 d.month) (by omega) (by omega)).trans (Nat.le_add_right _ _)

def daynr (d : FieldDate) : Int := calcDaynr d.year d.month d.day

lemma calcDaynr_eq_first {year : Nat} (hpos : 0 < year) (month day : Nat) :
    calcDaynr year month day =
      calcDaynr year (max 1 month) 1 + day - if month = 0 then 32 else 1 := by
  have hne : ∀ m, ¬ (year = 0 ∧ m = 0) := by omega
  rw [calcDaynr, calcDaynr, if_neg (hne _), if_neg (hne _)]
  by_cases hm : month = 0
  · subst hm
    simp
    omega
  · rw [max_eq_right (Nat.pos_of_ne_zero hm), if_neg hm]
    split <;> push_cast <;> omega

lemma daynr_eq (d : FieldDate) : d.daynr =
    calcDaynr d.firstFull.year d.firstFull.month d.firstFull.day - d.gap := by
  have hday := d.day_lt
  have hmax : max 1 (max 1 d.month) = max 1 d.month := by omega
  rw [daynr, calcDaynr_eq_first d.year_pos, calcDaynr_eq_first d.firstFull.year_pos,
    if_neg d.firstFull.month_pos.ne']
  simp only [firstFull, hmax]
  by_cases hgap : d.gap = 0
  · rw [if_pos hgap, if_neg (gap_eq_zero.mp hgap).1, hgap]
    omega
  · rw [if_neg hgap, gap]
    rw [gap_eq_zero] at hgap
    split
    · omega
    · rw [if_pos (by omega)]
      omega

lemma daynr_lt (h : d < d') (hfull : d'.gap = 0) : d.daynr < d'.daynr := by
  obtain ⟨hmonth, hday⟩ := gap_eq_zero.mp hfull
  have hd := d.day_lt
  have hd' := d'.day_lt
  have hm := d.month_le
  have hm' := d'.month_le
  have hlt : d.stored < d'.stored := h
  simp only [stored] at hlt
  have hfirst : d.firstFull.Before d'.firstFull ∨ d.firstFull = d'.firstFull ∧ d.gap ≠ 0 := by
    simp only [Date.Before, Date.ext_iff, firstFull, hfull, if_true]
    by_cases hgap : d.gap = 0
    · rw [if_pos hgap]
      have hzero := gap_eq_zero.mp hgap
      omega
    · rw [if_neg hgap]
      have hzero := mt gap_eq_zero.mpr hgap
      omega
  rw [daynr_eq, daynr_eq, hfull]
  rcases hfirst with hbefore | ⟨heq, hgap⟩
  · have hlt := hbefore.calcDaynr_lt
    omega
  · rw [heq]
    omega

lemma daynr_mono {incl : Bool} (h : if incl then d ≤ d' else d < d') (hfull : d'.gap = 0) :
    if incl then d.daynr ≤ d'.daynr else d.daynr < d'.daynr := by
  cases incl with
  | true =>
    rcases eq_or_lt_of_le h with rfl | hlt
    · exact Int.le_refl _
    · exact (daynr_lt hlt hfull).le
  | false => exact daynr_lt h hfull

lemma daynr_bounds (d : FieldDate) : 0 ≤ d.daynr ∧ d.daynr < 2 ^ 63 := by
  obtain ⟨hmin, hmax⟩ := d.firstFull.calcDaynr_bounds
  have hgap : d.gap ≤ 32 := by
    rw [gap]
    split
    · omega
    · split <;> omega
  rw [maxDayNumber] at hmax
  rw [daynr_eq]
  omega

lemma daynr_inLonglong (d : FieldDate) : InLonglong d.daynr :=
  ⟨by have := d.daynr_bounds; omega, d.daynr_bounds.2⟩

end FieldDate

/-- `TO_DAYS` of a DATE column. It is NULL for a date with a zero, but the number of such a date is the
value for an end. -/
def toDays : PartExpr FieldDate where
  valInt := WithBot.recBotCoe none fun d => if d.gap = 0 then some d.daynr else none
  valIntEndpoint _ incl x := (WithBot.recBotCoe (-2 ^ 63) FieldDate.daynr x, incl)
  notNull := true
  unsignedFlag := false

def dateField : PartField FieldDate where
  maybeNull := false
  packLengthInRec := 3
  keyImage := WithBot.recBotCoe [] fun d =>
    [(d.stored % 256).toUInt8, (d.stored / 256 % 256).toUInt8, (d.stored / 65536).toUInt8]
  getDate := WithBot.recBotCoe none fun d => some (d.year, d.month)

lemma toDays_valInt {x : WithBot FieldDate} (h : toDays.valInt x = some value) :
    ∃ d : FieldDate, x = d ∧ d.gap = 0 ∧ value = d.daynr := by
  cases x with
  | bot => cases h
  | coe d =>
    have h : (if d.gap = 0 then some d.daynr else none) = some value := h
    split at h
    · rename_i hgap
      exact ⟨d, rfl, hgap, (some.inj h).symm⟩
    · cases h

lemma toDays_monotone : toDays.Monotone where
  inLonglong x value h := by
    obtain ⟨d, -, -, rfl⟩ := toDays_valInt h
    exact d.daynr_inLonglong
  endpoint_inLonglong left incl x := by
    cases x with
    | bot => exact ⟨Int.le_refl _, show (-2 ^ 63 : Int) < 2 ^ 63 by decide⟩
    | coe d => exact d.daynr_inLonglong
  null := rfl
  total h := by cases h
  included _ _ := rfl
  left incl x y value _ hin h := by
    obtain ⟨d, rfl, hfull, rfl⟩ := toDays_valInt h
    cases x with
    | bot =>
      have hpos := d.daynr_bounds
      show if incl then (-2 ^ 63 : Int) ≤ d.daynr else (-2 ^ 63 : Int) < d.daynr
      split <;> omega
    | coe c =>
      have hin : if incl then c ≤ d else c < d := by simpa using hin
      exact FieldDate.daynr_mono hin hfull
  right incl x y value hx hin h := by
    obtain ⟨d, rfl, -, rfl⟩ := toDays_valInt h
    obtain ⟨value, hvalue⟩ := ne_none_iff_exists'.mp hx
    obtain ⟨c, rfl, hfull, -⟩ := toDays_valInt hvalue
    have hin : if incl then d ≤ c else d < c := by simpa using hin
    exact FieldDate.daynr_mono hin hfull

lemma dateField_tells : dateField.Tells toDays where
  null h := by cases h
  month x y z hxy hyz hx _ _ hmonth := by
    obtain ⟨value, hvalue⟩ := ne_none_iff_exists'.mp hx
    obtain ⟨d, rfl, hfull, -⟩ := toDays_valInt hvalue
    obtain ⟨c, rfl, hdc⟩ := WithBot.coe_le_iff.mp hxy
    obtain ⟨b, rfl, hcb⟩ := WithBot.coe_le_iff.mp hyz
    have hdc : d.stored ≤ c.stored := hdc
    have hcb : c.stored ≤ b.stored := hcb
    obtain ⟨hyear, hmonth⟩ := Prod.ext_iff.mp (some.inj hmonth)
    have hyear : b.year = d.year := hyear
    have hmonth : b.month = d.month := hmonth
    have hd := FieldDate.gap_eq_zero.mp hfull
    have hb := b.day_lt
    have hc := c.day_lt
    have hm := d.month_le
    have hm' := c.month_le
    simp only [FieldDate.stored] at hdc hcb
    have hgap : c.gap = 0 := FieldDate.gap_eq_zero.mpr (by omega)
    exact ne_none_iff_exists'.mpr ⟨c.daynr, if_pos hgap⟩

/-- RANGE partitions with the days of the given dates as their bounds, and MAXVALUE or not. -/
def dayRanges (bounds : List FieldDate) (definedMaxValue : Bool) : IntPartitions where
  partType := .range
  numParts := bounds.length + definedMaxValue.toNat
  rangeIntArray i := (bounds[i]?.map FieldDate.daynr).getD longlongMax
  definedMaxValue := definedMaxValue
  numListValues := 0
  listArray _ := ⟨0, 0⟩
  hasNullValue := false
  hasNullPartId := 0

lemma dayRanges_admitted {bounds : List FieldDate} {definedMaxValue : Bool}
    (hpos : 0 < bounds.length)
    (hlt : bounds.Pairwise fun d d' => d.daynr < d'.daynr) :
    (dayRanges bounds definedMaxValue).Admitted where
  inLonglong i := by
    refine ⟨?_, by simp [dayRanges, InLonglong]⟩
    simp only [dayRanges]
    cases bounds[i]? with
    | none => exact ⟨by decide, by decide⟩
    | some d => exact d.daynr_inLonglong
  numParts _ := Nat.add_pos_left hpos _
  range i hi := by
    simp only [dayRanges] at hi ⊢
    by_cases hlast : i + 1 < bounds.length
    · rw [getElem?_eq_getElem hlast, getElem?_eq_getElem (by omega)]
      exact .inl (pairwise_iff_getElem.mp hlt i (i + 1) _ _ (lt_succ_self i))
    · cases definedMaxValue with
      | true => exact .inr ⟨by rw [Bool.toNat_true] at hi ⊢; omega, rfl⟩
      | false => exact absurd hi hlast
  maxValue h := by
    obtain rfl : definedMaxValue = true := h
    simp [dayRanges]
  list i hi := absurd hi (not_lt_zero _)

def noMonth : FieldDate := ⟨2002, 0, 0, by decide, by decide, by decide, by decide⟩

def newYear : FieldDate := ⟨2002, 1, 1, by decide, by decide, by decide, by decide⟩

def december (day : Fin 32) : FieldDate :=
  ⟨2001, 12, day, by decide, by decide, by decide, le_of_lt_succ day.isLt⟩

/-- The last days of the year, and the days before and after them. -/
def yearEnd : IntPartitions := dayRanges [december 1, december 11, december 21] true

/-- `d <= '2002-00-00'`: the number of the right end is that of a day in November, and the 15th of
December is not found. -/
example : yearEnd.getPartitionId toDays (december 15) = some 2 ∧
    yearEnd.getPartIterForIntervalViaMapping toDays dateField
      (FieldInterval.mk true false ⊥ false false noMonth) = .initialized ⟨0, 0, 1, true, true⟩ := by
  decide

end Sql
