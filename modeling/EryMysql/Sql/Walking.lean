import EryMysql.Sql.Partitions

/-!
# Pruning by walking

For an interval of an integer column of a HASH or KEY partitioned table, the partitions of all its
values are looked up, if these are few. The ends are moved in 64-bit arithmetic, and so the walk
is right only if they are in order.
-/

namespace Sql

open List Bool Nat

/-- `field_vals` of a `PARTITION_ITERATOR`; `stop` is the field `end`. -/
structure FieldVals where
  start : Int
  cur : Int
  stop : Int
  deriving DecidableEq

/-- Returned are 0, -1, or 1 with one of the two iterators. -/
inductive WalkingResult
  | noPartitions
  | allPartitions
  | single (partId : Nat)
  | walking (vals : FieldVals)
  deriving DecidableEq

/-- `partId` evaluates the partitioning function for a value of the column. -/
def getPartIterForIntervalViaWalking (maybeNull : Bool) (partId : WithBot Int -> Option Nat)
    (totalParts : Nat) (interval : FieldInterval Int) : WalkingResult :=
  if maybeNull ∧ ¬(interval.noMinRange ∨ interval.noMaxRange) ∧ interval.minValue = ⊥ ∧
      interval.maxValue = ⊥ then
    match partId ⊥ with
    | some id => .single id
    | none => .noPartitions
  else if (maybeNull ∧ ((¬interval.noMinRange ∧ interval.minValue = ⊥) ∨
      (¬interval.noMaxRange ∧ interval.maxValue = ⊥))) ∨
      interval.noMinRange ∨ interval.noMaxRange then .allPartitions
  else
    let a := toLonglong (interval.minValue.unbotD 0)
    let b := toLonglong (interval.maxValue.unbotD 0)
    if (b - a) % 2 ^ 64 = 2 ^ 64 - 1 then .allPartitions
    else
      let a := toLonglong (a + interval.nearMin.toNat)
      let b := toLonglong (b + (!interval.nearMax).toNat)
      let nValues := (b - a) % 2 ^ 64
      if nValues > 2 * (totalParts : Int) % 2 ^ 32 ∧ nValues > 32 then .allPartitions
      else .walking ⟨a, a, b⟩

/-- The value of the column after a `longlong` was stored. -/
def fieldStore (unsignedFlag : Bool) (x : Int) : Int := if unsignedFlag then x % 2 ^ 64 else x

/-- A value of a `BIGINT`, and so of every integer column. -/
def InColumn (unsignedFlag : Bool) (x : Int) : Prop :=
  if unsignedFlag then 0 ≤ x ∧ x < 2 ^ 64 else InLonglong x

section Walk
variable {β : Type} (partId : Int -> Option β) {vals : FieldVals} {n fuel : Nat}

/-- The partition of the next value that has one, where `partId` stores the value first. -/
def getNextPartitionViaWalking : Nat -> FieldVals -> Option β × FieldVals
  | 0, vals => (none, vals)
  | fuel + 1, vals =>
    if vals.cur = vals.stop then (none, { vals with cur := vals.start })
    else
      let next := { vals with cur := toLonglong (vals.cur + 1) }
      match partId vals.cur with
      | some id => (some id, next)
      | none => getNextPartitionViaWalking fuel next

/-- What the iterator returns before it says that there are no more partitions. -/
def FieldVals.drain : Nat -> FieldVals -> List β
  | 0, _ => []
  | fuel + 1, vals =>
    match getNextPartitionViaWalking partId fuel vals with
    | (none, _) => []
    | (some id, vals) => id :: drain fuel vals

def partsFrom (cur : Int) (n : Nat) : List β :=
  (List.range n).filterMap fun i : Nat => partId (toLonglong (cur + i))

lemma partsFrom_succ {cur : Int} (hcur : InLonglong cur) : partsFrom partId cur (n + 1) =
    (partId cur).toList ++ partsFrom partId (toLonglong (cur + 1)) n := by
  have hshift : ∀ i : Nat, toLonglong (cur + (i + 1 : Nat)) = toLonglong (toLonglong (cur + 1) + i) := by
    simp only [toLonglong]
    omega
  rw [partsFrom, range_succ_eq_map, filterMap_cons, filterMap_map, cast_zero,
    add_zero, toLonglong_of_inLonglong hcur]
  simp only [Function.comp_def, hshift]
  cases partId cur <;> rfl

def FieldVals.Left (vals : FieldVals) (n : Nat) : Prop :=
  InLonglong vals.cur ∧ InLonglong vals.stop ∧ (vals.stop - vals.cur) % 2 ^ 64 = n

lemma getNextPartitionViaWalking_spec (hleft : vals.Left n) (hfuel : n ≤ fuel) :
    ∃ vals', getNextPartitionViaWalking partId fuel vals = ((partsFrom partId vals.cur n).head?, vals') ∧
      (partsFrom partId vals.cur n ≠ [] -> ∃ m < n, vals'.Left m ∧
        (partsFrom partId vals.cur n).tail = partsFrom partId vals'.cur m) := by
  induction fuel generalizing vals n with
  | zero =>
    obtain rfl := le_zero.mp hfuel
    exact ⟨vals, rfl, absurd rfl⟩
  | succ fuel ih =>
    obtain ⟨hcur, hstop, hn⟩ := hleft
    have hcur' := hcur
    simp only [InLonglong] at hcur' hstop
    rw [getNextPartitionViaWalking]
    by_cases hend : vals.cur = vals.stop
    · obtain rfl : n = 0 := by omega
      rw [if_pos hend]
      exact ⟨_, rfl, absurd rfl⟩
    · obtain ⟨m, rfl⟩ : ∃ m, n = m + 1 := ⟨n - 1, by omega⟩
      have hnext : { vals with cur := toLonglong (vals.cur + 1) : FieldVals }.Left m := by
        refine ⟨toLonglong_inLonglong _, hstop, ?_⟩
        simp only [toLonglong]
        omega
      rw [if_neg hend, partsFrom_succ partId hcur]
      cases partId vals.cur with
      | some id => exact ⟨_, rfl, fun _ => ⟨m, m.lt_succ_self, hnext, rfl⟩⟩
      | none =>
        obtain ⟨vals', heq, hrest⟩ := ih hnext (le_of_succ_le_succ hfuel)
        refine ⟨vals', heq, fun h => ?_⟩
        obtain ⟨k, hk, hleft, htail⟩ := hrest h
        exact ⟨k, hk.trans m.lt_succ_self, hleft, htail⟩

lemma drain_eq (hleft : vals.Left n) (hfuel : n < fuel) :
    vals.drain partId fuel = partsFrom partId vals.cur n := by
  induction fuel generalizing vals n with
  | zero => cases hfuel
  | succ fuel ih =>
    obtain ⟨vals', heq, hrest⟩ := getNextPartitionViaWalking_spec partId hleft (le_of_lt_succ hfuel)
    rw [FieldVals.drain, heq]
    cases hparts : partsFrom partId vals.cur n with
    | nil => rfl
    | cons id l =>
      obtain ⟨m, hm, hleft', htail⟩ := hrest (by rw [hparts]; exact cons_ne_nil id l)
      rw [hparts] at htail
      exact congrArg (id :: ·) ((ih hleft' (by omega)).trans htail.symm)

end Walk

variable {unsignedFlag : Bool} {x y v : Int} {field : PartField Int} {interval : FieldInterval Int}

lemma fieldStore_toLonglong (h : InColumn unsignedFlag x) :
    fieldStore unsignedFlag (toLonglong x) = x := by
  cases unsignedFlag <;> simp only [InColumn, InLonglong, fieldStore, toLonglong, if_true,
    false_eq_true, if_false] at h ⊢ <;> omega

lemma contains_iff (hmin : interval.minValue = x) (hmax : interval.maxValue = y)
    (hends : ¬(interval.noMinRange = true ∨ interval.noMaxRange = true)) :
    interval.Contains field v ↔
      x + interval.nearMin.toNat ≤ v ∧ v + 1 ≤ y + (!interval.nearMax).toNat := by
  obtain ⟨hno, hno'⟩ := not_or.mp hends
  rw [FieldInterval.Contains, hmin, hmax]
  cases interval.nearMin <;> cases interval.nearMax <;>
    simp [hno, hno', Int.add_one_le_iff]

/-- No partition is looked for only if the interval is IS NULL and NULL has none. If an iterator over
the values between two ends that are in order is made, then it looks at no more values than are
said, and what it returns are the partitions of the values of the interval. The partition of a value
may be the value itself. -/
theorem walking_covers {β : Type} (unsignedFlag : Bool) (field : PartField Int)
    (nullPart : WithBot Int -> Option Nat) (totalParts : Nat) (interval : FieldInterval Int) :
    (getPartIterForIntervalViaWalking field.maybeNull nullPart totalParts interval = .noPartitions ->
      interval.minValue = ⊥ ∧ interval.maxValue = ⊥ ∧ nullPart ⊥ = none) ∧
    ∀ vals (x y : Int),
      getPartIterForIntervalViaWalking field.maybeNull nullPart totalParts interval = .walking vals ->
      interval.minValue = x -> interval.maxValue = y -> InColumn unsignedFlag x ->
      InColumn unsignedFlag y -> x ≤ y -> ∀ fuel, max (2 * totalParts) 32 < fuel ->
      ∀ partId : Int -> Option β,
        (vals.drain (fun x => partId (fieldStore unsignedFlag x)) fuel).length ≤
          max (2 * totalParts) 32 ∧
        ∀ p, p ∈ vals.drain (fun x => partId (fieldStore unsignedFlag x)) fuel ↔
          ∃ v, InColumn unsignedFlag v ∧ interval.Contains field v ∧ partId v = some p := by
  unfold getPartIterForIntervalViaWalking
  dsimp only
  split_ifs with hnull hall hfull hmany
  · cases hpart : nullPart ⊥ with
    | none => exact ⟨fun _ => ⟨hnull.2.2.1, hnull.2.2.2, rfl⟩, nofun⟩
    | some id => exact ⟨nofun, nofun⟩
  iterate 3 exact ⟨nofun, nofun⟩
  refine ⟨nofun, fun vals x y h hmin hmax hx hy hle fuel hfuel partId => ?_⟩
  cases h
  simp only [hmin, hmax, WithBot.unbotD_coe] at hfull hmany ⊢
  have hcontains := fun v => @contains_iff x y v field _ hmin hmax fun h => hall (.inr h)
  have he : interval.nearMin.toNat ≤ 1 := toNat_le _
  have hf : (!interval.nearMax).toNat ≤ 1 := toNat_le _
  generalize interval.nearMin.toNat = e at *
  generalize (!interval.nearMax).toNat = f at *
  have hcount : 0 ≤ y + f - (x + e) ∧ (toLonglong (toLonglong y + f) -
      toLonglong (toLonglong x + e)) % 2 ^ 64 = y + f - (x + e) := by
    cases unsignedFlag <;> simp only [InColumn, InLonglong, toLonglong, if_true, false_eq_true,
      if_false] at * <;> omega
  obtain ⟨n, hn⟩ := Int.eq_ofNat_of_zero_le hcount.1
  rw [hn] at hcount
  have hle : n ≤ max (2 * totalParts) 32 := by
    omega
  rw [drain_eq _ ⟨toLonglong_inLonglong _, toLonglong_inLonglong _, hcount.2⟩ (hle.trans_lt hfuel),
    partsFrom]
  refine ⟨(length_filterMap_le ..).trans (length_range.trans_le hle), fun p => ?_⟩
  have hvalue : ∀ i : Nat, i < n -> InColumn unsignedFlag (x + e + i) ∧ fieldStore unsignedFlag
      (toLonglong (toLonglong (toLonglong x + e) + i)) = x + e + i := by
    intro i hi
    have hin : InColumn unsignedFlag (x + e + i) := by
      cases unsignedFlag <;> simp only [InColumn, InLonglong, if_true, false_eq_true,
        if_false] at * <;> omega
    refine ⟨hin, (congrArg _ ?_).trans (fieldStore_toLonglong hin)⟩
    simp only [toLonglong]
    omega
  simp only [mem_filterMap, mem_range, hcontains]
  constructor
  · rintro ⟨i, hi, hp⟩
    obtain ⟨hin, heq⟩ := hvalue i hi
    exact ⟨x + e + i, hin, by omega, heq ▸ hp⟩
  · rintro ⟨v, -, hv, hp⟩
    refine ⟨(v - (x + e)).toNat, by omega, ?_⟩
    rw [(hvalue _ (by omega)).2, show x + e + ((v - (x + e)).toNat : Int) = v by omega]
    exact hp

theorem walking_covers_five :
    7 ∈ (⟨5, 5, 8⟩ : FieldVals).drain (fun x => some (fieldStore false x)) 33 := by
  refine (((walking_covers false ⟨false, 8, fun _ => [], fun _ => none⟩ (fun _ => none) 4
    ⟨false, false, (5 : Int), false, true, (8 : Int)⟩).2 _ 5 8 (by decide) rfl rfl ⟨by decide, by decide⟩
    ⟨by decide, by decide⟩ (by decide) 33 (by decide) some).2 7).mpr
    ⟨7, ⟨by decide, by decide⟩, (contains_iff rfl rfl (by decide)).mpr (by decide), rfl⟩

/-- From the greatest value of a `BIGINT` to the least one. -/
def crossedEnds : FieldInterval Int := ⟨false, false, (2 ^ 63 - 1 : Int), false, false, (-2 ^ 63 : Int)⟩

/-- The ends are next to each other in 64 bits, and both of them are looked at. -/
theorem crossedEnds_walked : ∃ vals,
    getPartIterForIntervalViaWalking false (fun _ => none) 1 crossedEnds = .walking vals ∧
    vals.drain (fun x => some (fieldStore false x)) 33 = [2 ^ 63 - 1, -2 ^ 63] ∧
    ∀ v : Int, ¬ crossedEnds.Contains ⟨false, 8, fun _ => [], fun _ => none⟩ v := by
  refine ⟨⟨2 ^ 63 - 1, 2 ^ 63 - 1, -2 ^ 63 + 1⟩, by decide, by decide, fun v h => ?_⟩
  rw [contains_iff rfl rfl (by decide)] at h
  simp only [crossedEnds, Bool.not_false, Bool.toNat_true] at h
  omega

end Sql
