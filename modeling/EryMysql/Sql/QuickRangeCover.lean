import EryMysql.Sql.QuickRange

/-!
# What the key ranges of a graph cover

A graph of intervals is a condition on the key parts of a row. The ranges that are made of it hold
every row that satisfies it, come in the order of the keys and have no row in common, and so the
binary search for a row is right.

A row is compared with a prefix of the key parts. All that is needed of a range is what its two ends
say about the first key part behind a common prefix: that is kept through the graph, and what an end
says further behind only matters for the rows that must be covered.
-/

namespace Sql

open BinarySearch List SelArg EndFlag ColumnVal Int
open Comparison (Preorders)

variable {κ : Type} {part : Nat} {fields : List (κ -> κ -> Int)} {row before : List (Option κ)}
  {cmp : Option κ -> Option κ -> Int} {range other : QuickRange κ}

lemma preorders_compareField {field : κ -> κ -> Int} (h : Preorders field) :
    Preorders (compareField field) where
  swap x y := by
    cases x <;> cases y <;> simp only [compareField, h.swap] <;> omega
  trans x y z := by
    cases x <;> cases y <;> cases z <;> simp only [compareField] <;> intro hxy hyz <;>
      first | omega | exact h.trans _ _ _ hxy hyz

def cmpAt (fields : List (κ -> κ -> Int)) (part : Nat) (x y : Option κ) : Int :=
  match fields[part]? with
  | some field => compareField field x y
  | none => 0

/-- The row from a key part on, and a key from there on. -/
def compareFrom (fields : List (κ -> κ -> Int)) (part : Nat) (row key : List (Option κ)) : Int :=
  compareRecords (fields.drop part) (row.drop part) key

def partOf (row : List (Option κ)) (part : Nat) : Option κ := row.getD part none

section Compare
variable {key : List (Option κ)}

lemma preorders_cmpAt (hfields : ∀ field ∈ fields, Preorders field) :
    Preorders (cmpAt fields part) := by
  cases hfield : fields[part]? with
  | none =>
    have hzero : ∀ x y, cmpAt fields part x y = 0 := fun x y => by rw [cmpAt, hfield]
    exact ⟨fun x y => by simp [hzero], fun x y z _ _ => by simp [hzero]⟩
  | some field =>
    have heq : cmpAt fields part = compareField field := by
      funext x y
      rw [cmpAt, hfield]
    rw [heq]
    exact preorders_compareField (hfields field (mem_of_getElem? hfield))

@[simp]
lemma compareRecords_nil_right : compareRecords fields row [] = 0 := by
  cases fields <;> cases row <;> rfl

@[simp]
lemma compareFrom_nil : compareFrom fields part row [] = 0 := compareRecords_nil_right

lemma compareFrom_cons (hpart : part < fields.length) (hrow : part < row.length) (v : Option κ) :
    compareFrom fields part row (v :: key) =
      if cmpAt fields part (partOf row part) v ≠ 0 then cmpAt fields part (partOf row part) v
      else compareFrom fields (part + 1) row key := by
  rw [compareFrom, drop_eq_getElem_cons hpart, drop_eq_getElem_cons hrow]
  simp [compareRecords, cmpAt, partOf, compareFrom, getElem?_eq_getElem hpart,
    getElem?_eq_getElem hrow]

lemma compareRecords_append (before : List (Option κ)) (hfields : before.length ≤ fields.length)
    (hrow : before.length ≤ row.length) :
    compareRecords fields row (before ++ key) =
      if compareRecords fields row before ≠ 0 then compareRecords fields row before
      else compareFrom fields before.length row key := by
  induction before generalizing fields row with
  | nil => simp [compareFrom]
  | cons v before ih =>
    cases fields with
    | nil => simp at hfields
    | cons field fields =>
      cases row with
      | nil => simp at hrow
      | cons x row =>
        simp only [length_cons, Nat.add_le_add_iff_right] at hfields hrow
        simp only [cons_append, compareRecords]
        by_cases heq : compareField field x v = 0
        · simp only [heq]
          exact ih hfields hrow
        · simp [heq]

end Compare

/-- The comparison of a row with an end, and the flag of the end, put the row outside. -/
def outsideOf (side : Side) (cmp : Int) (near : Bool) : Prop :=
  side.sign * cmp < 0 ∨ (cmp = 0 ∧ near = true)

namespace QuickRange

def keyAt (range : QuickRange κ) : Side -> List (Option κ)
  | .min => range.minKey
  | .max => range.maxKey

def flagAt (range : QuickRange κ) : Side -> EndFlag
  | .min => range.minFlag
  | .max => range.maxFlag

/-- The row is before the first key of a range, or behind its last one. -/
def Outside (fields : List (κ -> κ -> Int)) (range : QuickRange κ) (side : Side)
    (row : List (Option κ)) : Prop :=
  (range.flagAt side).no = false ∧
    outsideOf side (compareRecords fields row (range.keyAt side)) (range.flagAt side).near

def Covers (fields : List (κ -> κ -> Int)) (range : QuickRange κ) (row : List (Option κ)) : Prop :=
  ∀ side, ¬ range.Outside fields side row

end QuickRange

section Condition
variable (cmp : Option κ -> Option κ -> Int)

def KeyEnd.Admits (e : KeyEnd κ) (side : Side) (x : Option κ) : Prop :=
  e.flag.no = true ∨ 0 < side.sign * cmp x e.value ∨ (cmp x e.value = 0 ∧ e.flag.near = false)

namespace KeyInterval

def Contains (interval : KeyInterval κ) (x : Option κ) : Prop :=
  ∀ side, (interval.endAt side).Admits cmp side x

/-- The ends are not crossed, and an end that is not there is not open. -/
structure Proper (interval : KeyInterval κ) : Prop where
  flags : ∀ side, (interval.endAt side).flag.no = true -> (interval.endAt side).flag.near = false
  ends : interval.min.flag.no = true ∨ interval.max.flag.no = true ∨
    cmp interval.min.value interval.max.value < 0 ∨
    (cmp interval.min.value interval.max.value = 0 ∧ interval.min.flag.near = false ∧
      interval.max.flag.near = false)

/-- All of the one interval is before all of the other. -/
structure Before (interval other : KeyInterval κ) : Prop where
  max : interval.max.flag.no = false
  min : other.min.flag.no = false
  ends : cmp interval.max.value other.min.value < 0 ∨
    (cmp interval.max.value other.min.value = 0 ∧
      (interval.max.flag.near = true ∨ other.min.flag.near = true))

end KeyInterval

end Condition

namespace SelArg

def intervals : SelArg κ -> List (KeyInterval κ)
  | keyRange left _ interval _ right => left.intervals ++ interval :: right.intervals
  | _ => []

/-- The graph of a key part: a search tree of proper intervals of that part, each with a graph of a
later one or none. -/
def WellFormed (fields : List (κ -> κ -> Int)) : SelArg κ -> Nat -> Prop
  | nullElement, _ => True
  | maybeKey, _ => False
  | keyRange left part interval nextKeyPart right, p =>
    part = p ∧ p < fields.length ∧ interval.Proper (cmpAt fields p) ∧
    WellFormed fields left p ∧ WellFormed fields right p ∧
    (∀ other ∈ left.intervals, other.Before (cmpAt fields p) interval) ∧
    (∀ other ∈ right.intervals, interval.Before (cmpAt fields p) other) ∧
    (nextKeyPart.isKeyRange -> p < nextKeyPart.partNo ∧
      WellFormed fields nextKeyPart nextKeyPart.partNo)

def Satisfies (fields : List (κ -> κ -> Int)) (row : List (Option κ)) : SelArg κ -> Prop
  | nullElement => False
  | maybeKey => True
  | keyRange left part interval nextKeyPart right =>
    Satisfies fields row left ∨
    (interval.Contains (cmpAt fields part) (partOf row part) ∧
      (nextKeyPart.isNull ∨ Satisfies fields row nextKeyPart)) ∨
    Satisfies fields row right

end SelArg

def Side.opposite : Side -> Side
  | .min => .max
  | .max => .min

def SelArg.child (side : Side) (left right : SelArg κ) : SelArg κ :=
  match side with
  | .min => left
  | .max => right

section Intervals
variable {interval other : KeyInterval κ} {x : Option κ}
  (hcmp : Preorders cmp)
include hcmp

/-- A value is not in front of the end of an interval and behind the start of a later one. -/
lemma KeyInterval.Before.not_admits (h : interval.Before cmp other)
    (hother : other.min.Admits cmp .min x) : ¬ interval.max.Admits cmp .max x := by
  intro hinterval
  have hxo := hcmp.swap other.min.value x
  have hxo' := hcmp.swap x other.min.value
  have hxi := hcmp.swap interval.max.value x
  have hxi' := hcmp.swap x interval.max.value
  simp only [KeyEnd.Admits, h.min, h.max, Bool.false_eq_true, false_or, Side.sign] at hother hinterval
  have hle : cmp other.min.value x ≤ 0 := by omega
  rcases h.ends with hlt | ⟨heq, hnear⟩
  · have hlt := hcmp.lt_of_lt_of_le hlt hle
    omega
  · have hle' := hcmp.trans _ _ _ (le_of_eq heq) hle
    rcases hnear with hnear | hnear
    · simp only [hnear, Bool.true_eq_false, and_false, or_false] at hinterval
      omega
    · simp only [hnear, Bool.true_eq_false, and_false, or_false] at hother
      have hlt := hcmp.lt_of_le_of_lt (le_of_eq heq) (show cmp other.min.value x < 0 by omega)
      omega

/-- No value is let in by the end of the one interval and by the start of the other. -/
def KeyInterval.Apart (cmp : Option κ -> Option κ -> Int) (interval other : KeyInterval κ) : Prop :=
  ∀ x, other.min.Admits cmp .min x -> ¬ interval.max.Admits cmp .max x

/-- What one end excludes is strictly on the inner side of the other one. -/
lemma KeyInterval.Proper.beyond (h : interval.Proper cmp) {side : Side}
    (hout : ¬ (interval.endAt side.opposite).Admits cmp side.opposite x)
    (hno : (interval.endAt side).flag.no = false) :
    0 < side.sign * cmp x (interval.endAt side).value := by
  simp only [KeyEnd.Admits, not_or, not_and, Bool.not_eq_true, Bool.not_eq_false] at hout
  obtain ⟨hno', hle, hnear⟩ := hout
  have hmin' := hcmp.swap interval.min.value x
  have hmax := hcmp.swap x interval.max.value
  have hmax' := hcmp.swap interval.max.value x
  have hends := h.ends
  cases side with
  | min =>
    simp only [Side.opposite, endAt, Side.sign] at hno hno' hle hnear ⊢
    rw [hno, hno'] at hends
    rcases hends with hfalse | hfalse | hlt | ⟨heq, -, hclosed⟩
    iterate 2 cases hfalse
    · have hlt := hcmp.lt_of_lt_of_le hlt (show cmp interval.max.value x ≤ 0 by omega)
      omega
    · have hne : cmp x interval.max.value ≠ 0 := by
        intro hzero
        rw [hnear hzero] at hclosed
        cases hclosed
      have hlt := hcmp.lt_of_le_of_lt (le_of_eq heq)
        (show cmp interval.max.value x < 0 by omega)
      omega
  | max =>
    simp only [Side.opposite, endAt, Side.sign] at hno hno' hle hnear ⊢
    rw [hno, hno'] at hends
    rcases hends with hfalse | hfalse | hlt | ⟨heq, hclosed, -⟩
    iterate 2 cases hfalse
    · have hlt := hcmp.lt_of_le_of_lt (show cmp x interval.min.value ≤ 0 by omega) hlt
      omega
    · have hne : cmp x interval.min.value ≠ 0 := by
        intro hzero
        rw [hnear hzero] at hclosed
        cases hclosed
      have hlt := hcmp.lt_of_lt_of_le (show cmp x interval.min.value < 0 by omega)
        (le_of_eq heq)
      omega

end Intervals

section End
variable {rest : List (Option κ)} {e : KeyEnd κ} {side : Side} {near : Bool}

/-- What stands behind a value in a key, and the flag: an open or missing end is the last one. -/
structure EndRest (e : KeyEnd κ) (rest : List (Option κ)) (near : Bool) : Prop where
  missing : e.flag.no = true -> e.flag.near = false
  last : e.flag ≠ .zero -> rest = [] ∧ near = e.flag.near

variable (hpart : part < fields.length) (hrow : part < row.length) (h : EndRest e rest near)
include hpart hrow h

lemma EndRest.outside_iff :
    outsideOf side (compareFrom fields part row (storeEnd e .zero ++ rest)) near ↔
      e.flag.no = false ∧ (side.sign * cmpAt fields part (partOf row part) e.value < 0 ∨
        (cmpAt fields part (partOf row part) e.value = 0 ∧ (e.flag.near = true ∨
          (e.flag = .zero ∧ outsideOf side (compareFrom fields (part + 1) row rest) near)))) := by
  obtain ⟨⟨no, open'⟩, value⟩ := e
  cases no with
  | true =>
    obtain ⟨rfl, rfl⟩ := h.last (by simp [zero])
    simpa [storeEnd, outsideOf] using h.missing rfl
  | false =>
    have hstore : storeEnd ⟨⟨false, open'⟩, value⟩ .zero ++ rest = value :: rest := by
      simp [storeEnd, zero]
    rw [hstore, compareFrom_cons hpart hrow]
    by_cases hzero : cmpAt fields part (partOf row part) value = 0
    · cases open' with
      | true =>
        obtain ⟨rfl, rfl⟩ := h.last (by simp [zero])
        simp [hzero, outsideOf]
      | false => simp [hzero, zero]
    · simp [hzero, outsideOf]

/-- The end puts a row that it admits inside, unless the key parts that follow put it outside. -/
lemma EndRest.not_outside (hadmits : e.Admits (cmpAt fields part) side (partOf row part))
    (hrest : e.flag = .zero -> cmpAt fields part (partOf row part) e.value = 0 ->
      ¬ outsideOf side (compareFrom fields (part + 1) row rest) near) :
    ¬ outsideOf side (compareFrom fields part row (storeEnd e .zero ++ rest)) near := by
  rw [h.outside_iff hpart hrow]
  rintro ⟨hno, hlt | ⟨hzero, hnear | ⟨hflag, hout⟩⟩⟩
  · rcases hadmits with hno' | hpos | ⟨hzero, -⟩
    · simp [hno] at hno'
    · omega
    · simp [hzero] at hlt
  · simp [KeyEnd.Admits, hno, hzero, hnear] at hadmits
  · exact hrest hflag hzero hout

lemma EndRest.admits
    (hout : ¬ outsideOf side (compareFrom fields part row (storeEnd e .zero ++ rest)) near) :
    e.Admits (cmpAt fields part) side (partOf row part) := by
  by_contra hnot
  simp only [KeyEnd.Admits, not_or, not_and, Bool.not_eq_true, Bool.not_eq_false] at hnot
  obtain ⟨hno, hle, hnear⟩ := hnot
  refine hout ((h.outside_iff hpart hrow).mpr ⟨hno, ?_⟩)
  by_cases hzero : cmpAt fields part (partOf row part) e.value = 0
  · exact .inr ⟨hzero, .inl (hnear hzero)⟩
  · cases side <;> simp only [Side.sign] at hle ⊢ <;> omega

lemma EndRest.le
    (hout : outsideOf side (compareFrom fields part row (storeEnd e .zero ++ rest)) near) :
    e.flag.no = false ∧ side.sign * cmpAt fields part (partOf row part) e.value ≤ 0 := by
  obtain ⟨hno, hlt | ⟨hzero, -⟩⟩ := (h.outside_iff hpart hrow).mp hout
  · exact ⟨hno, hlt.le⟩
  · exact ⟨hno, by simp [hzero]⟩

end End

section StoreKey
variable {side : Side}

namespace SelArg

lemma storeKey_keyRange (left : SelArg κ) (part : Nat) (interval : KeyInterval κ)
    (nextKeyPart right : SelArg κ) :
    (keyRange left part interval nextKeyPart right).storeKey side .zero =
      if (child side left right).isKeyRange then (child side left right).storeKey side .zero
      else if nextKeyPart.isKeyRange ∧ nextKeyPart.partNo = part + 1 ∧
          (interval.endAt side).flag = .zero then
        (storeEnd (interval.endAt side) .zero ++ (nextKeyPart.storeKey side .zero).1,
          (nextKeyPart.storeKey side .zero).2)
      else (storeEnd (interval.endAt side) .zero, (interval.endAt side).flag) := by
  have hor : EndFlag.or .zero (interval.endAt side).flag = (interval.endAt side).flag := by
    simp [EndFlag.or, EndFlag.zero]
  rw [storeKey]
  cases side with
  | min =>
    by_cases hleft : left.isKeyRange
    · simp [child, hleft]
    · simp only [child]
      grind
  | max =>
    by_cases hright : right.isKeyRange
    · simp [child, hright]
    · simp only [child]
      grind

lemma exists_interval_of_satisfies {graph : SelArg κ}
    (hgraph : graph.WellFormed fields part) (hsat : graph.Satisfies fields row) :
    ∃ interval ∈ graph.intervals, interval.Contains (cmpAt fields part) (partOf row part) := by
  induction graph with
  | nullElement => exact absurd hsat id
  | maybeKey => exact absurd hgraph id
  | keyRange left p interval nextKeyPart right ihleft _ ihright =>
    obtain ⟨rfl, -, -, hleft, hright, -⟩ := hgraph
    rcases hsat with hsat | ⟨hin, -⟩ | hsat
    · obtain ⟨other, hmem, hother⟩ := ihleft hleft hsat
      exact ⟨other, mem_append_left _ hmem, hother⟩
    · exact ⟨interval, mem_append_right _ (mem_cons_self ..), hin⟩
    · obtain ⟨other, hmem, hother⟩ := ihright hright hsat
      exact ⟨other, mem_append_right _ (mem_cons_of_mem _ hmem), hother⟩

/-- The value is on the inner side of all intervals of the tree. -/
def Beyond (cmp : Option κ -> Option κ -> Int) (side : Side) (x : Option κ) (graph : SelArg κ) :
    Prop :=
  ∀ interval ∈ graph.intervals,
    ¬ (interval.endAt side.opposite).Admits cmp side.opposite x

variable {x : Option κ}

lemma wellFormed_child {left right nextKeyPart : SelArg κ} {part p : Nat}
    {interval : KeyInterval κ}
    (h : (keyRange left part interval nextKeyPart right).WellFormed fields p) :
    (child side left right).WellFormed fields p := by
  obtain ⟨-, -, -, hleft, hright, -⟩ := h
  cases side with
  | min => exact hleft
  | max => exact hright

section Order
variable (hfields : ∀ field ∈ fields, Preorders field)
include hfields

/-- The intervals of a child end before a value that the middle one lets in. -/
lemma beyond_child {left right nextKeyPart : SelArg κ} {part p : Nat} {interval : KeyInterval κ}
    (h : (keyRange left part interval nextKeyPart right).WellFormed fields p)
    (hx : (interval.endAt side).Admits (cmpAt fields p) side x) :
    Beyond (cmpAt fields p) side x (child side left right) := by
  obtain ⟨-, -, -, -, -, hbefore, hafter, -⟩ := h
  intro other hmem
  cases side with
  | min => exact (hbefore other hmem).not_admits (preorders_cmpAt hfields) hx
  | max =>
    intro hother
    exact (hafter other hmem).not_admits (preorders_cmpAt hfields) hother hx

/-- A value in an interval of a child is on the far side of the middle interval. -/
lemma not_admits_of_child {left right nextKeyPart : SelArg κ} {part p : Nat}
    {interval other : KeyInterval κ}
    (h : (keyRange left part interval nextKeyPart right).WellFormed fields p)
    (hmem : other ∈ (child side.opposite left right).intervals)
    (hx : (other.endAt side).Admits (cmpAt fields p) side x) :
    ¬ (interval.endAt side.opposite).Admits (cmpAt fields p) side.opposite x := by
  obtain ⟨-, -, -, -, -, hbefore, hafter, -⟩ := h
  cases side with
  | min => exact (hafter other hmem).not_admits (preorders_cmpAt hfields) hx
  | max =>
    intro hinterval
    exact (hbefore other hmem).not_admits (preorders_cmpAt hfields) hinterval hx

/-- The middle interval is reached from one side only if the end of that side is there. -/
lemma admits_of_not_admits {interval : KeyInterval κ} {p : Nat}
    (hproper : interval.Proper (cmpAt fields p))
    (hx : ¬ (interval.endAt side.opposite).Admits (cmpAt fields p) side.opposite x) :
    (interval.endAt side).Admits (cmpAt fields p) side x := by
  cases hno : (interval.endAt side).flag.no with
  | true => exact .inl hno
  | false => exact .inr (.inl (hproper.beyond (preorders_cmpAt hfields) hx hno))

/-- No row that satisfies a graph, and no row that is further inside, is outside of the key of the
first or last interval. -/
lemma not_outside_storeKey {graph : SelArg κ} (hgraph : graph.WellFormed fields part)
    (hrange : graph.isKeyRange) (hrow : row.length = fields.length)
    (hsat : graph.Satisfies fields row ∨ Beyond (cmpAt fields part) side (partOf row part) graph) :
    ¬ outsideOf side (compareFrom fields part row (graph.storeKey side .zero).1)
      (graph.storeKey side .zero).2.near := by
  induction graph generalizing part with
  | nullElement => cases hrange
  | maybeKey => cases hrange
  | keyRange left p interval nextKeyPart right ihleft ihnext ihright =>
    have hchild := @wellFormed_child _ fields side _ _ _ _ _ _ hgraph
    have hbeyond := fun hx => @beyond_child _ fields side (partOf row part) hfields _ _ _ _ _ _
      hgraph hx
    have hfar := fun other hmem hx => @not_admits_of_child _ fields side (partOf row part) hfields
      _ _ _ _ _ interval other hgraph hmem hx
    obtain ⟨rfl, hpart, hproper, hleft, hright, -, -, hnext⟩ := hgraph
    have hcases : (child side left right).Satisfies fields row ∨
        (interval.Contains (cmpAt fields p) (partOf row p) ∧
          (nextKeyPart.isNull ∨ nextKeyPart.Satisfies fields row)) ∨
        ¬ (interval.endAt side.opposite).Admits (cmpAt fields p) side.opposite (partOf row p) := by
      rcases hsat with hsat | hsat
      · have hinner : ∀ {inner : SelArg κ}, inner = child side.opposite left right ->
            inner.WellFormed fields p -> inner.Satisfies fields row ->
            ¬ (interval.endAt side.opposite).Admits (cmpAt fields p) side.opposite
              (partOf row p) := by
          rintro inner rfl hinner hsat
          obtain ⟨other, hmem, hother⟩ := exists_interval_of_satisfies hinner hsat
          exact hfar other hmem (hother side)
        cases side with
        | min =>
          rcases hsat with hsat | hsat | hsat
          · exact .inl hsat
          · exact .inr (.inl hsat)
          · exact .inr (.inr (hinner rfl hright hsat))
        | max =>
          rcases hsat with hsat | hsat | hsat
          · exact .inr (.inr (hinner rfl hleft hsat))
          · exact .inr (.inl hsat)
          · exact .inl hsat
      · exact .inr (.inr (hsat interval (mem_append_right _ (mem_cons_self ..))))
    rw [storeKey_keyRange]
    by_cases hkey : (child side left right).isKeyRange
    · rw [if_pos hkey]
      have hsat' : (child side left right).Satisfies fields row ∨
          Beyond (cmpAt fields p) side (partOf row p) (child side left right) := by
        rcases hcases with hsat | ⟨hin, -⟩ | hout
        · exact .inl hsat
        · exact .inr (hbeyond (hin side))
        · exact .inr (hbeyond (admits_of_not_admits hfields hproper hout))
      cases side with
      | min => exact ihleft hchild hkey hsat'
      | max => exact ihright hchild hkey hsat'
    · rw [if_neg hkey]
      have hnone : ¬ (child side left right).Satisfies fields row := by
        cases hc : child side left right with
        | nullElement => exact id
        | maybeKey =>
          rw [hc] at hchild
          exact absurd hchild id
        | keyRange => simp [hc, isKeyRange] at hkey
      have hadmits : (interval.endAt side).Admits (cmpAt fields p) side (partOf row p) := by
        rcases hcases with hsat | ⟨hin, -⟩ | hout
        · exact absurd hsat hnone
        · exact hin side
        · exact admits_of_not_admits hfields hproper hout
      have hlt : p < row.length := by omega
      by_cases hfollow : nextKeyPart.isKeyRange ∧ nextKeyPart.partNo = p + 1 ∧
          (interval.endAt side).flag = .zero
      · obtain ⟨hnextRange, hpartNo, hflag⟩ := hfollow
        rw [if_pos ⟨hnextRange, hpartNo, hflag⟩]
        have hrest : EndRest (interval.endAt side) (nextKeyPart.storeKey side .zero).1
            (nextKeyPart.storeKey side .zero).2.near :=
          ⟨hproper.flags side, fun hne => absurd hflag hne⟩
        refine hrest.not_outside hpart hlt hadmits fun _ hzero => ?_
        rcases hcases with hsat | ⟨-, hnull | hsat⟩ | hout
        · exact absurd hsat hnone
        · cases nextKeyPart <;> simp [isNull, isKeyRange] at hnull hnextRange
        · rw [← hpartNo]
          exact ihnext (hnext hnextRange).2 hnextRange (.inl hsat)
        · have hpos := hproper.beyond (preorders_cmpAt hfields) hout (by rw [hflag]; rfl)
          rw [hzero] at hpos
          simp at hpos
      · rw [if_neg hfollow]
        have hrest : EndRest (interval.endAt side) [] (interval.endAt side).flag.near :=
          ⟨hproper.flags side, fun _ => ⟨rfl, rfl⟩⟩
        have h := hrest.not_outside hpart hlt hadmits fun hflag _ => by
          rw [hflag]
          simp [outsideOf, zero]
        rw [append_nil] at h
        exact h

end Order

end SelArg

end StoreKey

namespace QuickRange

variable {interval : KeyInterval κ}

/-- What the range says about the key part behind the given ones is what the interval says. -/
structure Within (fields : List (κ -> κ -> Int)) (before : List (Option κ))
    (interval : KeyInterval κ) (range : QuickRange κ) : Prop where
  inside : ∀ side row, row.length = fields.length -> ¬ range.Outside fields side row ->
    0 < side.sign * compareRecords fields row before ∨
    (compareRecords fields row before = 0 ∧
      (interval.endAt side).Admits (cmpAt fields before.length) side (partOf row before.length))
  past : ∀ row, row.length = fields.length -> range.Outside fields .max row ->
    0 < compareRecords fields row before ∨
    (compareRecords fields row before = 0 ∧ interval.max.flag.no = false ∧
      0 ≤ cmpAt fields before.length (partOf row before.length) interval.max.value)

/-- The first range is left behind before the second one is reached. -/
structure Ordered (fields : List (κ -> κ -> Int)) (range other : QuickRange κ) : Prop where
  reached : ∀ row, row.length = fields.length -> ¬ other.Outside fields .min row ->
    range.Outside fields .max row
  left : ∀ row, row.length = fields.length -> other.Outside fields .max row ->
    range.Outside fields .max row

lemma Within.ordered (hfields : ∀ field ∈ fields, Preorders field) {interval' : KeyInterval κ}
    (h : range.Within fields before interval) (h' : other.Within fields before interval')
    (hapart : interval.Apart (cmpAt fields before.length) interval')
    (hproper : interval'.Proper (cmpAt fields before.length)) : Ordered fields range other where
  reached row hrow hmin := by
    by_contra hmax
    have hlow := h'.inside .min row hrow hmin
    have hhigh := h.inside .max row hrow hmax
    simp only [Side.sign] at hlow hhigh
    rcases hhigh with hhigh | ⟨hzero, hhigh⟩
    · omega
    · rcases hlow with hlow | ⟨-, hlow⟩
      · omega
      · exact hapart _ hlow hhigh
  left row hrow hout := by
    by_contra hmax
    have hpast := h'.past row hrow hout
    have hhigh := h.inside .max row hrow hmax
    simp only [Side.sign] at hhigh
    rcases hhigh with hhigh | ⟨hzero, hhigh⟩
    · omega
    · rcases hpast with hpast | ⟨-, hno, hle⟩
      · omega
      · have hlow : ¬ interval'.min.Admits (cmpAt fields before.length) .min
            (partOf row before.length) := fun hlow => hapart _ hlow hhigh
        have hlt := @KeyInterval.Proper.beyond _ _ _ _ (preorders_cmpAt hfields) hproper .max
          hlow hno
        simp only [Side.sign, KeyInterval.endAt] at hlt
        omega

variable [DecidableEq κ]

lemma outside_makeQuickRange {table : KeyInfo} (key : Side -> List (Option κ))
    (near : Side -> Bool) {side : Side} (hnear : key side = [] -> near side = false) :
    (makeQuickRange table part (key .min) (key .max) (near .min) (near .max)).Outside fields side
      row ↔ outsideOf side (compareRecords fields row (key side)) (near side) := by
  have hflag : (makeQuickRange table part (key .min) (key .max) (near .min)
      (near .max)).flagAt side = ⟨(key side).isEmpty, near side⟩ := by
    cases side <;> rfl
  have hkey : (makeQuickRange table part (key .min) (key .max) (near .min)
      (near .max)).keyAt side = key side := by
    cases side <;> rfl
  rw [Outside, hflag, hkey]
  cases hcase : key side with
  | nil => simp [outsideOf, hnear hcase]
  | cons => simp

/-- The range of an interval: the value of an end behind the given key parts, and what follows. -/
def ofEnds (table : KeyInfo) (part : Nat) (before : List (Option κ)) (interval : KeyInterval κ)
    (rest : Side -> List (Option κ)) (near : Side -> Bool) : QuickRange κ :=
  let key side := before ++ (storeEnd (interval.endAt side) .zero ++ rest side)
  makeQuickRange table part (key .min) (key .max) (near .min) (near .max)

section Ends
variable {table : KeyInfo} {rest : Side -> List (Option κ)} {near : Side -> Bool}
  (hrest : ∀ side, EndRest (interval.endAt side) (rest side) (near side))
include hrest

section
variable (hpart : before.length < fields.length)
include hpart

lemma outside_ofEnds {side : Side} (hrow : row.length = fields.length) :
    (ofEnds table part before interval rest near).Outside fields side row ↔
      if compareRecords fields row before ≠ 0 then
        side.sign * compareRecords fields row before < 0
      else outsideOf side (compareFrom fields before.length row
        (storeEnd (interval.endAt side) .zero ++ rest side)) (near side) := by
  have hnear : before ++ (storeEnd (interval.endAt side) .zero ++ rest side) = [] ->
      near side = false := by
    intro hnil
    cases hno : (interval.endAt side).flag.no with
    | true =>
      have hne : (interval.endAt side).flag ≠ .zero := fun hflag => by simp [hflag, zero] at hno
      exact ((hrest side).last hne).2.trans ((hrest side).missing hno)
    | false => simp [storeEnd, hno, zero] at hnil
  refine (outside_makeQuickRange (fun side => before ++ (storeEnd (interval.endAt side)
    .zero ++ rest side)) near hnear).trans ?_
  rw [compareRecords_append before (by omega) (by omega)]
  by_cases hzero : compareRecords fields row before = 0
  · simp [hzero]
  · simp [hzero, outsideOf]

lemma within_ofEnds :
    (ofEnds table part before interval rest near).Within fields before interval where
  inside side row hrow hout := by
    rw [outside_ofEnds hrest hpart hrow] at hout
    by_cases hzero : compareRecords fields row before = 0
    · rw [if_neg (not_not.mpr hzero)] at hout
      exact .inr ⟨hzero, (hrest side).admits hpart (by omega) hout⟩
    · rw [if_pos hzero] at hout
      have hsign : side.sign * compareRecords fields row before ≠ 0 := by
        cases side <;> simp only [Side.sign] <;> omega
      exact .inl (by omega)
  past row hrow hout := by
    rw [outside_ofEnds hrest hpart hrow] at hout
    by_cases hzero : compareRecords fields row before = 0
    · rw [if_neg (not_not.mpr hzero)] at hout
      obtain ⟨hno, hle⟩ := (hrest .max).le hpart (by omega) hout
      simp only [Side.sign, KeyInterval.endAt] at hle
      exact .inr ⟨hzero, hno, by omega⟩
    · rw [if_pos hzero, Side.sign] at hout
      exact .inl (by omega)

end

end Ends

end QuickRange

open QuickRange

/-- What the ranges of some intervals have to do with them, behind the given key parts. -/
structure KeysOf (fields : List (κ -> κ -> Int)) (before : List (Option κ))
    (intervals : List (KeyInterval κ)) (sat : List (Option κ) -> Prop)
    (ranges : List (QuickRange κ)) : Prop where
  within : ∀ range ∈ ranges, ∃ interval ∈ intervals, range.Within fields before interval
  ordered : ranges.Pairwise (Ordered fields)
  covers : ∀ row, row.length = fields.length -> compareRecords fields row before = 0 -> sat row ->
    ∃ range ∈ ranges, range.Covers fields row

section Keys
variable {intervals intervals' : List (KeyInterval κ)} {sat sat' : List (Option κ) -> Prop}
  {ranges ranges' : List (QuickRange κ)} {interval : KeyInterval κ}

lemma KeysOf.append (hfields : ∀ field ∈ fields, Preorders field)
    (h : KeysOf fields before intervals sat ranges)
    (h' : KeysOf fields before intervals' sat' ranges')
    (hapart : ∀ interval ∈ intervals, ∀ interval' ∈ intervals',
      interval.Apart (cmpAt fields before.length) interval' ∧
        interval'.Proper (cmpAt fields before.length)) :
    KeysOf fields before (intervals ++ intervals') (fun row => sat row ∨ sat' row)
      (ranges ++ ranges') where
  within range hmem := by
    rcases mem_append.mp hmem with hmem | hmem
    · obtain ⟨interval, hin, hrange⟩ := h.within range hmem
      exact ⟨interval, mem_append_left _ hin, hrange⟩
    · obtain ⟨interval, hin, hrange⟩ := h'.within range hmem
      exact ⟨interval, mem_append_right _ hin, hrange⟩
  ordered := by
    refine pairwise_append.mpr ⟨h.ordered, h'.ordered, fun range hmem range' hmem' => ?_⟩
    obtain ⟨interval, hin, hrange⟩ := h.within range hmem
    obtain ⟨interval', hin', hrange'⟩ := h'.within range' hmem'
    obtain ⟨happ, hproper⟩ := hapart interval hin interval' hin'
    exact hrange.ordered hfields hrange' happ hproper
  covers row hrow hbefore hsat := by
    rcases hsat with hsat | hsat
    · obtain ⟨range, hmem, hrange⟩ := h.covers row hrow hbefore hsat
      exact ⟨range, mem_append_left _ hmem, hrange⟩
    · obtain ⟨range, hmem, hrange⟩ := h'.covers row hrow hbefore hsat
      exact ⟨range, mem_append_right _ hmem, hrange⟩

lemma KeysOf.point {v : Option κ} (hpart : before.length < fields.length)
    (hmin : interval.min = ⟨.zero, v⟩) (hmax : interval.max = ⟨.zero, v⟩)
    (h : KeysOf fields (before ++ [v]) intervals sat ranges) :
    KeysOf fields before [interval]
      (fun row => interval.Contains (cmpAt fields before.length) (partOf row before.length) ∧
        sat row) ranges := by
  have hend : ∀ side, interval.endAt side = ⟨.zero, v⟩ := by
    intro side
    cases side with
    | min => exact hmin
    | max => exact hmax
  have hlast : ∀ row : List (Option κ), row.length = fields.length ->
      compareRecords fields row (before ++ [v]) =
        if compareRecords fields row before ≠ 0 then compareRecords fields row before
        else cmpAt fields before.length (partOf row before.length) v := by
    intro row hrow
    rw [compareRecords_append before (by omega) (by omega), compareFrom_cons hpart (by omega),
      compareFrom_nil]
    grind
  refine ⟨fun range hmem => ?_, h.ordered, fun row hrow hbefore ⟨hin, hsat⟩ => ?_⟩
  · obtain ⟨inner, -, hinner⟩ := h.within range hmem
    refine ⟨interval, mem_singleton.mpr rfl, ?_, ?_⟩
    · intro side row hrow hout
      have hle : 0 ≤ side.sign * compareRecords fields row (before ++ [v]) := by
        rcases hinner.inside side row hrow hout with hlt | ⟨hzero, -⟩
        · omega
        · rw [hzero]
          simp
      rw [hlast row hrow] at hle
      rw [hend side]
      by_cases hzero : compareRecords fields row before = 0
      · refine .inr ⟨hzero, .inr ?_⟩
        cases side <;> simp only [Side.sign, zero, and_true] at hle ⊢ <;> omega
      · cases side <;> simp only [Side.sign] at hle ⊢ <;> omega
    · intro row hrow hout
      have hle : 0 ≤ compareRecords fields row (before ++ [v]) := by
        rcases hinner.past row hrow hout with hlt | ⟨hzero, -⟩ <;> omega
      rw [hlast row hrow] at hle
      rw [hmax]
      by_cases hzero : compareRecords fields row before = 0
      · rw [if_neg (not_not.mpr hzero)] at hle
        exact .inr ⟨hzero, rfl, hle⟩
      · exact .inl (by omega)
  · refine h.covers row hrow ?_ hsat
    rw [hlast row hrow]
    have hlow := hin .min
    have hhigh := hin .max
    simp only [hend, KeyEnd.Admits, zero, Side.sign, Bool.false_eq_true,
      false_or] at hlow hhigh
    omega

variable [DecidableEq κ] {table : KeyInfo}

def ownKeys (table : KeyInfo) (part : Nat) (interval : KeyInterval κ) (nextKeyPart : SelArg κ)
    (before : List (Option κ)) : List (QuickRange κ) :=
  if nextKeyPart.isKeyRange ∧ nextKeyPart.partNo = part + 1 then
    if storeEnd interval.min .zero = storeEnd interval.max .zero ∧
        interval.min.flag = .zero ∧ interval.max.flag = .zero then
      getQuickKeys table nextKeyPart (before ++ [interval.min.value]) .zero
        (before ++ [interval.min.value]) .zero
    else
      [ofEnds table part before interval
        (fun side => if (interval.endAt side).flag = .zero
          then (nextKeyPart.storeKey side .zero).1 else [])
        (fun side => if (interval.endAt side).flag = .zero
          then (nextKeyPart.storeKey side .zero).2.near else (interval.endAt side).flag.near)]
  else
    [ofEnds table part before interval (fun _ => [])
      (fun side => (interval.endAt side).flag.near)]

lemma getQuickKeys_keyRange (left : SelArg κ) (part : Nat) (interval : KeyInterval κ)
    (nextKeyPart right : SelArg κ) :
    getQuickKeys table (.keyRange left part interval nextKeyPart right) before .zero before .zero =
      getQuickKeys table left before .zero before .zero ++
        ownKeys table part interval nextKeyPart before ++
        getQuickKeys table right before .zero before .zero := by
  rw [getQuickKeys]
  simp only [ownKeys]
  by_cases hnext : nextKeyPart.isKeyRange ∧ nextKeyPart.partNo = part + 1
  · simp only [if_pos hnext]
    by_cases hpoint : SelArg.storeEnd interval.min .zero = SelArg.storeEnd interval.max .zero ∧
        interval.min.flag = .zero ∧ interval.max.flag = .zero
    · obtain ⟨heq, hmin, hmax⟩ := hpoint
      rw [← heq, hmax]
      simp [SelArg.storeEnd, hmin, EndFlag.or, EndFlag.zero]
    · simp only [if_neg hpoint, ofEnds, KeyInterval.endAt]
      by_cases hmin : interval.min.flag = .zero <;> by_cases hmax : interval.max.flag = .zero <;>
        simp [hmin, hmax]
  · simp [if_neg hnext, ofEnds, KeyInterval.endAt]

lemma keysOf_ownKeys (hfields : ∀ field ∈ fields, Preorders field) {nextKeyPart : SelArg κ}
    (hpart : before.length < fields.length)
    (hproper : interval.Proper (cmpAt fields before.length))
    (hnext : nextKeyPart.isKeyRange -> nextKeyPart.WellFormed fields nextKeyPart.partNo)
    (ih : ∀ v, nextKeyPart.isKeyRange -> nextKeyPart.partNo = before.length + 1 ->
      KeysOf fields (before ++ [v]) nextKeyPart.intervals (nextKeyPart.Satisfies fields)
        (getQuickKeys table nextKeyPart (before ++ [v]) .zero (before ++ [v]) .zero)) :
    KeysOf fields before [interval]
      (fun row => interval.Contains (cmpAt fields before.length) (partOf row before.length) ∧
        (nextKeyPart.isNull ∨ nextKeyPart.Satisfies fields row))
      (ownKeys table before.length interval nextKeyPart before) := by
  have hsingle : ∀ {rest : Side -> List (Option κ)} {near : Side -> Bool},
      (∀ side, EndRest (interval.endAt side) (rest side) (near side)) ->
      (∀ row, row.length = fields.length ->
        (nextKeyPart.isNull ∨ nextKeyPart.Satisfies fields row) -> ∀ side,
          (interval.endAt side).flag = .zero -> ¬ outsideOf side
            (compareFrom fields (before.length + 1) row (rest side)) (near side)) ->
      KeysOf fields before [interval]
        (fun row => interval.Contains (cmpAt fields before.length) (partOf row before.length) ∧
          (nextKeyPart.isNull ∨ nextKeyPart.Satisfies fields row))
        [ofEnds table before.length before interval rest near] := by
    intro rest near hrest hfollow
    refine ⟨fun range hmem => ?_, pairwise_singleton .., fun row hrow hbefore hsat => ?_⟩
    · obtain rfl := mem_singleton.mp hmem
      exact ⟨interval, mem_singleton.mpr rfl, within_ofEnds hrest hpart⟩
    · refine ⟨_, mem_singleton.mpr rfl, fun side hout => ?_⟩
      rw [outside_ofEnds hrest hpart hrow, if_neg (not_not.mpr hbefore)] at hout
      exact (hrest side).not_outside hpart (by omega) (hsat.1 side)
        (fun hflag _ => hfollow row hrow hsat.2 side hflag) hout
  unfold ownKeys
  by_cases hfollow : nextKeyPart.isKeyRange ∧ nextKeyPart.partNo = before.length + 1
  · rw [if_pos hfollow]
    obtain ⟨hrange, hpartNo⟩ := hfollow
    have hnull : nextKeyPart.isNull = false := by
      cases nextKeyPart <;> simp [isNull, isKeyRange] at hrange ⊢
    split
    case isTrue hpoint =>
      obtain ⟨heq, hmin, hmax⟩ := hpoint
      have hvalue : interval.max.value = interval.min.value := by
        simp [storeEnd, hmin, hmax, zero] at heq
        exact heq.symm
      have h := (ih interval.min.value hrange hpartNo).point hpart
        (KeyEnd.ext hmin rfl) (KeyEnd.ext hmax hvalue)
      simpa [hnull] using h
    case isFalse hpoint =>
      refine hsingle (fun side => ⟨hproper.flags side, fun hne => ?_⟩) ?_
      · simp [if_neg hne]
      · intro row hrow hsat side hflag
        simp only [if_pos hflag]
        rw [hnull] at hsat
        rw [← hpartNo]
        exact not_outside_storeKey hfields (hnext hrange) hrange hrow
          (.inl (hsat.resolve_left Bool.false_ne_true))
  · rw [if_neg hfollow]
    refine hsingle (fun side => ⟨hproper.flags side, fun _ => ⟨rfl, rfl⟩⟩) ?_
    intro row hrow hsat side hflag
    simp [hflag, outsideOf, zero]

end Keys

namespace SelArg

variable {graph : SelArg κ}

lemma WellFormed.proper (h : graph.WellFormed fields part) :
    ∀ interval ∈ graph.intervals, interval.Proper (cmpAt fields part) := by
  induction graph with
  | nullElement | maybeKey => exact nofun
  | keyRange left p interval nextKeyPart right ihleft _ ihright =>
    obtain ⟨rfl, -, hproper, hleft, hright, -⟩ := h
    intro other hmem
    rcases mem_append.mp hmem with hmem | hmem
    · exact ihleft hleft other hmem
    · rcases mem_cons.mp hmem with rfl | hmem
      · exact hproper
      · exact ihright hright other hmem

end SelArg

/-- The ranges of a graph, behind constants for the key parts before its own. -/
lemma keysOf_getQuickKeys [DecidableEq κ] (hfields : ∀ field ∈ fields, Preorders field)
    (table : KeyInfo) {graph : SelArg κ} (hgraph : graph.WellFormed fields before.length) :
    KeysOf fields before graph.intervals (graph.Satisfies fields)
      (getQuickKeys table graph before .zero before .zero) := by
  induction graph generalizing before with
  | nullElement =>
    exact ⟨nofun, Pairwise.nil,
      fun row _ _ hsat => absurd hsat id⟩
  | maybeKey => exact absurd hgraph id
  | keyRange left part interval nextKeyPart right ihleft ihnext ihright =>
    have hcmp := @preorders_cmpAt _ before.length fields hfields
    obtain ⟨rfl, hpart, hproper, hleft, hright, hbefore, hafter, hnext⟩ := hgraph
    have hown := @keysOf_ownKeys _ fields before interval _ table hfields nextKeyPart hpart hproper
      (fun hrange => (hnext hrange).2) (fun v hrange hpartNo => ihnext (by
        have hwell := (hnext hrange).2
        rw [hpartNo] at hwell
        simpa using hwell))
    have happend := ((ihleft hleft).append hfields hown fun other hmem own hown => by
      obtain rfl := mem_singleton.mp hown
      exact ⟨fun x => (hbefore other hmem).not_admits hcmp, hproper⟩).append hfields
        (ihright hright) fun other hmem last hlast => by
      refine ⟨fun x hx => ?_, hright.proper last hlast⟩
      have hout := (hafter last hlast).not_admits hcmp hx
      rcases mem_append.mp hmem with hmem | hmem
      · exact (hbefore other hmem).not_admits hcmp
          (@SelArg.admits_of_not_admits _ fields .min x hfields interval _ hproper hout)
      · obtain rfl := mem_singleton.mp hmem
        exact hout
    rw [getQuickKeys_keyRange]
    refine ⟨?_, happend.ordered, fun row hrow hzero hsat => happend.covers row hrow hzero ?_⟩
    · simpa [intervals] using happend.within
    · rcases hsat with hsat | hsat | hsat
      · exact .inl (.inl hsat)
      · exact .inl (.inr hsat)
      · exact .inr hsat

section Search
variable {key : List (Option κ)}
  {ranges : List (QuickRange κ)} {near : Bool}

lemma keyCmp_sign : (0 < keyCmp fields row key ↔ 0 < compareRecords fields row key) ∧
      (keyCmp fields row key = 0 ↔ compareRecords fields row key = 0) := by
  induction fields generalizing row key with
  | nil => simp [keyCmp, compareRecords]
  | cons field fields ih =>
    rcases row with - | ⟨x, row⟩
    · simp [keyCmp, compareRecords]
    rcases key with - | ⟨k, key⟩
    · simp [keyCmp]
    rcases k with - | k <;> rcases x with - | x
    · simpa [keyCmp, compareRecords, compareField] using ih
    iterate 2 simp [keyCmp, compareRecords, compareField]
    · simp only [keyCmp, compareRecords, compareField]
      rcases lt_trichotomy (field x k) 0 with hlt | hzero | hgt
      · omega
      · simpa [hzero] using ih
      · omega

lemma cmpNextKey_eq : cmpNextKey near fields row key =
    if keyCmp fields row key < 0 then 0 else if 0 < keyCmp fields row key then 1
    else if near then 1 else 0 := by
  fun_induction keyCmp fields row key <;> grind [cmpNextKey]

lemma cmpNextKey_eq_zero : cmpNextKey near fields row key = 0 ↔
      ¬ outsideOf .max (compareRecords fields row key) near := by
  obtain ⟨hpos, hzero⟩ := @keyCmp_sign _ fields row key
  rw [cmpNextKey_eq, outsideOf, Side.sign]
  cases near <;> grind

lemma cmpNext_eq_zero : cmpNext fields row range = 0 ↔ ¬ range.Outside fields .max row := by
  rw [cmpNext]
  change _ ↔ ¬ (range.maxFlag.no = false ∧ outsideOf .max (compareRecords fields row range.maxKey)
    range.maxFlag.near)
  cases hno : range.maxFlag.no with
  | true => simp
  | false => simp [cmpNextKey_eq_zero]

lemma cmpPrev_eq_zero : cmpPrev fields row range = 0 ↔ ¬ range.Outside fields .min row := by
  obtain ⟨hpos, hzero⟩ := @keyCmp_sign _ fields row range.minKey
  rw [cmpPrev]
  change _ ↔ ¬ (range.minFlag.no = false ∧ outsideOf .min (compareRecords fields row range.minKey)
    range.minFlag.near)
  simp only [hpos, outsideOf, Side.sign]
  cases hno : range.minFlag.no with
  | true => simp
  | false => cases hnear : range.minFlag.near <;> simp <;> omega

/-- The binary search ends at the only range that the row can be in. -/
lemma rowInRanges_iff (hrow : row.length = fields.length)
    (hordered : ranges.Pairwise (Ordered fields)) :
    rowInRanges fields ranges row = true ↔ ∃ range ∈ ranges, range.Covers fields row := by
  have hover : ∀ (i : Nat) (range : QuickRange κ), ranges[i]? = some range ->
      (((ranges[i]?).any fun range => cmpNext fields row range != 0) = true ↔
        range.Outside fields .max row) := by
    intro i range hi
    rw [hi, Option.any_some, bne_iff_ne, ne_eq, cmpNext_eq_zero, not_not]
  have hpair := pairwise_iff_getElem.mp hordered
  have hcut := @cut_isCut (fun mid : Nat => (ranges[mid]?).any fun range =>
    cmpNext fields row range != 0) ranges.length 0 (ranges.length - 1) (by omega) (by omega)
  simp only [rowInRanges]
  generalize cut _ ranges.length 0 (ranges.length - 1) = i at hcut ⊢
  constructor
  · intro h
    split at h
    · cases h
    · rename_i range hi
      rw [Bool.and_eq_true, beq_iff_eq, beq_iff_eq, cmpNext_eq_zero, cmpPrev_eq_zero] at h
      refine ⟨range, mem_of_getElem? hi, fun side => ?_⟩
      cases side with
      | min => exact h.2
      | max => exact h.1
  · rintro ⟨range, hmem, hcovers⟩
    obtain ⟨j, hj, rfl⟩ := getElem_of_mem hmem
    have hi : i < ranges.length := by
      have := hcut.le_hi
      omega
    have heq : i = j := by
      rcases Nat.lt_trichotomy i j with hlt | heq | hgt
      · have hat := hcut.at_end.resolve_left (by omega)
        have hout := (hpair i j hi hj hlt).reached row hrow (hcovers .min)
        rw [(hover i _ (getElem?_eq_getElem hi)).mpr hout] at hat
        cases hat
      · exact heq
      · have hprev : i - 1 < ranges.length := by omega
        have hbefore := hcut.before.resolve_left (by omega)
        have hout := (hover (i - 1) _ (getElem?_eq_getElem hprev)).mp hbefore
        rcases Nat.lt_or_ge j (i - 1) with hlt | hge
        · exact absurd ((hpair j (i - 1) hj hprev hlt).left row hrow hout) (hcovers .max)
        · obtain rfl : j = i - 1 := by omega
          exact absurd hout (hcovers .max)
    subst heq
    rw [getElem?_eq_getElem hj]
    simp only [Bool.and_eq_true, beq_iff_eq, cmpNext_eq_zero, cmpPrev_eq_zero]
    exact ⟨hcovers .max, hcovers .min⟩

lemma compareRecords_take :
    compareRecords fields row (key.take fields.length) = compareRecords fields row key := by
  induction fields generalizing row key with
  | nil => rfl
  | cons field fields ih =>
    rcases row with - | ⟨x, row⟩
    · rfl
    rcases key with - | ⟨k, key⟩
    · rfl
    simp [compareRecords, ih]

lemma QuickRange.Ordered.lt (hfields : ∀ field ∈ fields, Preorders field)
    (h : Ordered fields range other) {row row' : List (Option κ)}
    (hrow : row.length = fields.length) (hrow' : row'.length = fields.length)
    (hin : range.Covers fields row) (hin' : other.Covers fields row') :
    compareRecords fields row row' < 0 := by
  have hout := hin .max
  have hout' := h.reached row' hrow' (hin' .min)
  obtain ⟨hno, hout'⟩ := hout'
  have hout : ¬ outsideOf .max (compareRecords fields row (range.keyAt .max))
      (range.flagAt .max).near := fun h => hout ⟨hno, h⟩
  rw [← compareRecords_take] at hout hout'
  have hlen : ((range.keyAt .max).take fields.length).length ≤ row.length := by
    rw [length_take]
    omega
  generalize (range.keyAt .max).take fields.length = last at hlen hout hout'
  simp only [outsideOf, Side.sign, compareRecords_eq, not_or, not_and] at hout hout' ⊢
  have hswap := @compareColumnValues_swap _ fields (last.map ofField)
    (row'.map ofField) hfields
  rcases hout' with hlt | ⟨heq, hnear⟩
  · exact compareColumnValues_lt_of_le_of_lt hfields (by simpa using hlen) (by omega)
      (hswap.mpr (by omega))
  · have hne : compareColumnValues fields (row.map ofField)
        (last.map ofField) ≠ 0 := fun hzero => hout.2 hzero hnear
    have hzero := compareColumnValues_eq_zero_comm hfields heq
    exact compareColumnValues_lt_of_lt_of_le hfields (by simp [hrow, hrow']) (by omega)
      (le_of_eq hzero)

end Search

/-- The ranges of a graph that starts at the first key part hold every row that satisfies it, stand
in the order of the keys and have no row in common, and the search finds a row if and only if it is
in one of them. -/
theorem getQuickKeys_cover [DecidableEq κ] (fields : List (κ -> κ -> Int))
    (hfields : ∀ field ∈ fields, Preorders field) (table : KeyInfo) (graph : SelArg κ)
    (hgraph : graph.WellFormed fields 0) :
    let ranges := getQuickKeys table graph [] .zero [] .zero
    (∀ row, row.length = fields.length -> graph.Satisfies fields row ->
      ∃ range ∈ ranges, range.Covers fields row) ∧
    (ranges.Pairwise fun range other => ∀ row row', row.length = fields.length ->
      row'.length = fields.length -> range.Covers fields row -> other.Covers fields row' ->
      compareRecords fields row row' < 0) ∧
    (ranges.Pairwise fun range other => ∀ row, row.length = fields.length ->
      ¬ (range.Covers fields row ∧ other.Covers fields row)) ∧
    ∀ row, row.length = fields.length ->
      (rowInRanges fields ranges row = true ↔ ∃ range ∈ ranges, range.Covers fields row) := by
  have h := @keysOf_getQuickKeys _ fields [] _ hfields table graph hgraph
  refine ⟨fun row hrow hsat => ?_, ?_, ?_, fun row hrow => rowInRanges_iff hrow h.ordered⟩
  · exact h.covers row hrow compareRecords_nil_right hsat
  · apply h.ordered.imp
    intro range other hordered row row' hrow hrow' hin hin'
    exact hordered.lt hfields hrow hrow' hin hin'
  · apply h.ordered.imp
    intro range other hordered row hrow hin
    exact hin.1 .max (hordered.reached row hrow (hin.2 .min))

/-- `a = 1 AND b > 5 OR a > 2 AND (b <= 3 OR b >= 8)`, for a key of two parts. -/
def twoParts : SelArg Int :=
  .keyRange .nullElement 0 ⟨⟨.zero, some 1⟩, ⟨.zero, some 1⟩⟩
    (.keyRange .nullElement 1 ⟨⟨⟨false, true⟩, some 5⟩, ⟨⟨true, false⟩, none⟩⟩ .nullElement
      .nullElement)
    (.keyRange .nullElement 0 ⟨⟨⟨false, true⟩, some 2⟩, ⟨⟨true, false⟩, none⟩⟩
      (.keyRange .nullElement 1 ⟨⟨⟨false, true⟩, none⟩, ⟨.zero, some 3⟩⟩ .nullElement
        (.keyRange .nullElement 1 ⟨⟨.zero, some 8⟩, ⟨⟨true, false⟩, none⟩⟩ .nullElement
          .nullElement))
      .nullElement)

lemma twoParts_wellFormed : twoParts.WellFormed [fun x y => x - y, fun x y => x - y] 0 := by
  have hproper : ∀ (cmp : Option Int -> Option Int -> Int) (e e' : KeyEnd Int),
      (e.flag.no = true -> e.flag.near = false) ∧ (e'.flag.no = true -> e'.flag.near = false) ∧
      (e.flag.no = true ∨ e'.flag.no = true ∨ cmp e.value e'.value < 0 ∨
        (cmp e.value e'.value = 0 ∧ e.flag.near = false ∧ e'.flag.near = false)) ->
      KeyInterval.Proper cmp ⟨e, e'⟩ :=
    fun cmp e e' ⟨h, h', hends⟩ => ⟨fun side => by cases side <;> assumption, hends⟩
  have hleaf : ∀ interval : KeyInterval Int,
      interval.Proper (cmpAt [fun x y => x - y, fun x y => x - y] 1) ->
      (keyRange nullElement 1 interval nullElement nullElement).WellFormed
        [fun x y => x - y, fun x y => x - y] 1 := fun interval h =>
    ⟨rfl, by decide, h, trivial, trivial, by simp [intervals], by simp [intervals], nofun⟩
  refine ⟨rfl, by decide, hproper _ _ _ (by decide), trivial, ?_, by simp [intervals], ?_,
    fun _ => ⟨by decide, hleaf _ (hproper _ _ _ (by decide))⟩⟩
  · refine ⟨rfl, by decide, hproper _ _ _ (by decide), trivial, trivial, by simp [intervals],
      by simp [intervals], fun _ => ⟨by decide, rfl, by decide, hproper _ _ _ (by decide), trivial,
        hleaf _ (hproper _ _ _ (by decide)), by simp [intervals], ?_, nofun⟩⟩
    intro other hmem
    obtain rfl := mem_singleton.mp hmem
    exact ⟨rfl, rfl, by decide⟩
  · intro other hmem
    obtain rfl := mem_singleton.mp hmem
    exact ⟨rfl, rfl, by decide⟩

/-- Two ranges: from `(1, 5)` to `(1)`, and from `(2)` on. -/
example : (getQuickKeys ⟨false, true, 2⟩ twoParts [] .zero [] .zero).map
    (fun range => (range.minKey, range.maxKey)) =
    [([some 1, some 5], [some 1]), ([some 2], [])] := by decide +kernel

theorem getQuickKeys_cover_twoParts :
    twoParts.WellFormed [fun x y => x - y, fun x y => x - y] 0 ∧
      ∃ range ∈ getQuickKeys ⟨false, true, 2⟩ twoParts [] .zero [] .zero,
        range.Covers [fun x y => x - y, fun x y => x - y] [some 3, some 9] := by
  refine ⟨twoParts_wellFormed, ?_⟩
  have hfields : ∀ field ∈ [fun x y : Int => x - y, fun x y => x - y], Preorders field := by
    intro field hmem
    have heq : field = fun x y => x - y := by simpa using hmem
    rw [heq]
    exact ⟨fun x y => by omega, fun x y z _ _ => by omega⟩
  refine (getQuickKeys_cover _ hfields _ _ twoParts_wellFormed).1 _ rfl ?_
  refine .inr (.inr (.inr (.inl ⟨fun side => ?_, .inr (.inr (.inr (.inr (.inl
    ⟨fun side => ?_, .inl rfl⟩))))⟩)))
  iterate 2
    cases side with
    | min => exact .inr (.inl (by decide))
    | max => exact .inl rfl

end Sql
