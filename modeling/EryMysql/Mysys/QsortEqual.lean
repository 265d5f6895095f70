import Mathlib.Data.List.Range
import EryMysql.Mysys.Qsort

/-!
# What my_qsort does to equal elements

The sort looks at its elements only through the comparison, so the way it moves them
depends on the comparison alone. Below the threshold it is an insert sort, which
leaves equal elements in their order. Above forty elements the partition starts at
both ends and exchanges equal elements there.
-/

namespace Mysys

open ListRange Function Option Nat
open List hiding pure_def swap

section Naturality
variable {α β : Type} (cmp : β -> β -> Int) (f : α -> β) {a : List α}

lemma swapIf_map (c : Prop) [Decidable c] (i j : Nat) :
    (if c then swap (a.map f) i j else some (a.map f)) =
      (if c then swap a i j else some a).map (map f) := by
  split
  · exact swap_map f
  · rfl

lemma median_map (low mid high : Nat) : median cmp (a.map f) low mid high =
    (median (fun x y => cmp (f x) (f y)) a low mid high).map (map f) := by
  simp only [median, getElem?_map, Option.bind_eq_bind, Option.bind_map, comp_def, swapIf_map]
  simp [swap_map, apply_ite (Option.map (map f))]

lemma insertDown_map (low ptr : Nat) : insertDown cmp low ptr (a.map f) =
    (insertDown (fun x y => cmp (f x) (f y)) low ptr a).map (map f) := by
  induction ptr generalizing a with
  | zero => rfl
  | succ ptr ih =>
    simp only [insertDown, getElem?_map, Option.bind_eq_bind, swap_map, ih, Option.bind_map,
      Option.map_bind, comp_def, apply_ite (Option.map (map f)), Option.pure_def, map_some]

lemma insertSort_map (low n lowPtr : Nat) : insertSort cmp low n lowPtr (a.map f) =
    (insertSort (fun x y => cmp (f x) (f y)) low n lowPtr a).map (map f) := by
  induction n generalizing a lowPtr with
  | zero => rfl
  | succ n ih =>
    simp only [insertSort, insertDown_map, ih, bind_eq_bind, bind_map, map_bind, comp_def]

lemma scanUp_map (pivot : α) (n p : Nat) : scanUp cmp (a.map f) (f pivot) n p =
    scanUp (fun x y => cmp (f x) (f y)) a pivot n p := by
  induction n generalizing p with
  | zero => rfl
  | succ n ih =>
    simp [scanUp, ih, bind_map]

lemma scanDown_map (pivot : α) (p : Nat) : scanDown cmp (a.map f) (f pivot) p =
    scanDown (fun x y => cmp (f x) (f y)) a pivot p := by
  induction p with
  | zero =>
    simp only [scanDown, getElem?_map, bind_eq_bind, bind_map, comp_def]
  | succ p ih =>
    simp only [scanDown, getElem?_map, ih, bind_eq_bind, bind_map, comp_def]

lemma partitionLoop_map (pivot : α) (fuel : Nat) (s : Split α) :
    partitionLoop cmp (f pivot) fuel (s.map f) =
      (partitionLoop (fun x y => cmp (f x) (f y)) pivot fuel s).map (Split.map f) := by
  induction fuel generalizing s with
  | zero => rfl
  | succ fuel ih =>
    have hloop : ∀ (a : List α) (l h : Nat), partitionLoop cmp (f pivot) fuel ⟨a.map f, l, h⟩ =
        (partitionLoop (fun x y => cmp (f x) (f y)) pivot fuel ⟨a, l, h⟩).map (Split.map f) :=
      fun a l h => ih ⟨a, l, h⟩
    simp only [partitionLoop, Split.map, length_map, scanUp_map, scanDown_map, swap_map,
      bind_eq_bind, bind_map, map_bind, comp_def, apply_ite (Option.map (Split.map f)),
      Option.pure_def, Option.map_some, hloop, map_none]

lemma chooseMiddle_map (low high count : Nat) : chooseMiddle cmp (a.map f) low high count =
    (chooseMiddle (fun x y => cmp (f x) (f y)) a low high count).map (Split.map f) := by
  simp [chooseMiddle, median_map, Option.bind_map, comp_def, apply_ite (Option.map (Split.map f)), Split.map]

lemma splitRange_map (low high count : Nat) : splitRange cmp (a.map f) low high count =
    (splitRange (fun x y => cmp (f x) (f y)) a low high count).map (Split.map f) := by
  have harray : ∀ s : Split α, (s.map f).array = s.array.map f := fun _ => rfl
  simp only [splitRange, chooseMiddle_map, harray, getElem?_map, partitionLoop_map,
    length_map, bind_eq_bind, bind_map, map_bind, comp_def]

lemma sortLoop_map (size fuel : Nat) (rs : List Range) : sortLoop cmp size fuel (a.map f) rs =
    (sortLoop (fun x y => cmp (f x) (f y)) size fuel a rs).map (map f) := by
  induction fuel generalizing a rs with
  | zero => cases rs <;> simp [sortLoop]
  | succ fuel ih =>
    cases rs with
    | nil => simp [sortLoop]
    | cons r stack =>
      simp only [sortLoop, insertSort_map, splitRange_map, Split.map, ih, Option.bind_eq_bind,
        Option.bind_map, Option.map_bind, comp_def, apply_ite (Option.map (map f))]

/-- The sort of renamed elements is the sort of the elements, renamed. -/
lemma myQsort_map (size : Nat) : myQsort cmp size (a.map f) =
    (myQsort (fun x y => cmp (f x) (f y)) size a).map (map f) := by
  simp [myQsort, sortLoop_map, apply_ite (Option.map (map f))]

end Naturality

section Small
variable {α : Type} {cmp : α -> α -> Int} {a b : List α} (p : α -> Bool)

section
variable (hp : ∀ x y, 0 < cmp x y -> ¬ (p x = true ∧ p y = true))
include hp

lemma insertDown_filter {low ptr : Nat} (hrun : insertDown cmp low ptr a = some b) :
    b.filter p = a.filter p := by
  induction ptr generalizing a with
  | zero => exact some.inj hrun ▸ rfl
  | succ ptr ih =>
    rw [insertDown] at hrun
    split at hrun
    · simp only [bind_eq_some] at hrun
      obtain ⟨x, hx, y, hy, hrun⟩ := hrun
      split at hrun
      · rename_i hgt
        obtain ⟨c, hswap, hrun⟩ := bind_eq_some_iff.mp hrun
        rw [ih hrun, filter_swap_succ p hx hy (hp x y hgt) hswap]
      · exact some.inj hrun ▸ rfl
    · exact some.inj hrun ▸ rfl

lemma insertSort_filter {low n lowPtr : Nat} (hrun : insertSort cmp low n lowPtr a = some b) :
    b.filter p = a.filter p := by
  induction n generalizing a lowPtr with
  | zero => exact some.inj hrun ▸ rfl
  | succ n ih =>
    obtain ⟨c, hdown, hrun⟩ := bind_eq_some_iff.mp hrun
    rw [ih hrun, insertDown_filter p hp hdown]

/-- Fewer than ten elements keep their order where they do not compare greater. -/
lemma myQsort_filter_of_lt {size : Nat} (hlen : a.length < thresholdForInsertSort)
    (hrun : myQsort cmp size a = some b) : b.filter p = a.filter p := by
  unfold myQsort at hrun
  split at hrun
  · exact some.inj hrun ▸ rfl
  · obtain ⟨fuel, hfuel⟩ : ∃ fuel, 2 * a.length = fuel + 1 := ⟨2 * a.length - 1, by omega⟩
    have hcount : Range.count ⟨0, a.length - 1⟩ < thresholdForInsertSort := by
      unfold Range.count
      dsimp only
      omega
    rw [hfuel, sortLoop, if_pos hcount] at hrun
    obtain ⟨c, hsort, hrun⟩ := bind_eq_some_iff.mp hrun
    cases fuel <;> rw [sortLoop, some.injEq] at hrun <;>
      exact hrun ▸ insertSort_filter p hp hsort

end

end Small

section Large
variable {α : Type} {a : List α} {cmp : α -> α -> Int}

lemma median_const {low mid high : Nat} (hlow : low < a.length)
    (hmid : mid < a.length) (hhigh : high < a.length) :
    median (fun _ _ => 0) a low mid high = some a := by
  simp [median, getElem?_eq_getElem hlow, getElem?_eq_getElem hmid, getElem?_eq_getElem hhigh]

lemma chooseMiddle_const (hlen : 40 < a.length) :
    chooseMiddle (fun _ _ => 0) a 0 (a.length - 1) a.length = some ⟨a, 0, a.length - 1⟩ := by
  simp only [chooseMiddle, if_pos hlen, bind_eq_bind]
  rw [median_const (by omega) (by omega) (by omega), bind_some,
    median_const (by omega) (by omega) (by omega), bind_some,
    median_const (by omega) (by omega) (by omega), bind_some,
    median_const (by omega) (by omega) (by omega), bind_some, pure_def]

lemma scanUp_const {pivot : α} {n p : Nat} (hn : n ≠ 0) (hp : p < a.length) :
    scanUp (fun _ _ => 0) a pivot n p = some p := by
  obtain ⟨n, rfl⟩ := exists_eq_succ_of_ne_zero hn
  simp [scanUp, getElem?_eq_getElem hp]

lemma scanDown_const {pivot : α} {p : Nat} (hp : p < a.length) :
    scanDown (fun _ _ => 0) a pivot p = some p := by
  cases p <;> simp [scanDown, getElem?_eq_getElem hp]

/-- Among equal elements the first exchange brings the last one to the front, where the
rest of the partition leaves it. -/
lemma splitRange_const (hlen : 40 < a.length) :
    ∃ s, splitRange (fun _ _ => 0) a 0 (a.length - 1) a.length = some s ∧
      s.array[0]? = a[a.length - 1]? ∧ s.array.Perm a ∧ 1 ≤ s.highPtr ∧
      s.highPtr < s.lowPtr ∧ s.lowPtr ≤ a.length - 2 := by
  obtain ⟨b, hb, hs⟩ := swap_spec (show 0 < a.length by omega)
    (show a.length - 1 < a.length by omega)
  have hlen' := hs.perm.length_eq
  obtain ⟨pivot, hpivot⟩ : ∃ pivot, a[0 + a.length / 2]? = some pivot :=
    ⟨_, getElem?_eq_getElem (by omega)⟩
  have hup : ∀ i < b.length, StopsUp (fun _ _ => 0) pivot b i := fun i hi =>
    ⟨_, getElem?_eq_getElem hi, lt_irrefl 0⟩
  have hdown := hup
  obtain ⟨s, hrun, hsplit, -, -, -⟩ := partitionLoop_spec (by omega : 1 ≤ a.length - 2)
    (by omega : a.length - 2 < 1 + a.length) (by omega : a.length - 2 < b.length) le_rfl le_rfl
    (hup 1 (by omega)) le_rfl (by omega) (by omega)
    (hdown (a.length - 2) (by omega)) le_rfl (by omega) (by omega)
  refine ⟨s, ?_, ?_, hsplit.rearranged.perm.trans hs.perm, hsplit.le_highPtr, hsplit.apart,
    hsplit.lowPtr_le⟩
  · simp only [splitRange, chooseMiddle_const hlen, hpivot, bind_eq_bind, bind_some, partitionLoop]
    rw [scanUp_const (by omega) (by omega), bind_some, scanDown_const (by omega),
      bind_some, if_pos (by omega), hb, bind_some, if_pos (by omega)]
    exact hrun
  · rw [hsplit.rearranged.outside 0 (by omega), hs.fst]

lemma sortLoop_of_split {size fuel : Nat} {r : Range} {s : Split α}
    {rs : List Range} (hten : 10 ≤ r.count) (hsplit : splitRange cmp a r.low r.high r.count = some s)
    (hnext : nextRanges size r s.lowPtr s.highPtr [] = some rs) :
    sortLoop cmp size (fuel + 1) a [r] = sortLoop cmp size fuel s.array rs := by
  have hlarge : ¬ r.count < thresholdForInsertSort := by
    rw [thresholdForInsertSort]
    omega
  rw [sortLoop, if_neg hlarge]
  simp [hsplit, hnext]

lemma myQsort_eq_sortLoop {size : Nat} (hten : 10 ≤ a.length) :
    myQsort cmp size a = sortLoop cmp size (2 * a.length - 1 + 1) a [⟨0, a.length - 1⟩] := by
  have hfuel : 2 * a.length - 1 + 1 = 2 * a.length := by omega
  rw [hfuel, myQsort, if_neg (by omega)]

/-- More than forty equal elements do not keep their last one last. -/
lemma myQsort_const_last (size : Nat) (hnodup : a.Nodup) (hlen : 40 < a.length)
    (hsize : a.length ≤ 2 ^ 64) :
    ∃ b, myQsort (fun _ _ => 0) size a = some b ∧ b.getLast? ≠ a.getLast? := by
  obtain ⟨s, hsplit, hfront, hperm, hh, hapart, hl⟩ := splitRange_const hlen
  have hcount : Range.count ⟨0, a.length - 1⟩ = a.length := by
    unfold Range.count
    dsimp only
    omega
  have hshallow : Shallow a.length [⟨0, a.length - 1⟩] := ⟨by rw [hcount]; simp, trivial⟩
  obtain ⟨rs, hnext, hs, hwork, hmem⟩ := nextRanges_spec size hsize (by rw [hcount]; omega)
    hshallow (by dsimp only; omega : (Range.mk 0 (a.length - 1)).low < s.lowPtr)
    (by dsimp only; omega) (zero_le s.highPtr) (by dsimp only; omega) hapart
  have hpart : ∀ r ∈ rs, r = ⟨0, s.highPtr⟩ ∨ r = ⟨s.lowPtr, a.length - 1⟩ := fun r hr =>
    (hmem r hr).resolve_left (nofun)
  have hlen' := hperm.length_eq
  have hfuel : work rs ≤ 2 * a.length - 1 := by
    simp only [work, map_cons, map_nil, sum_cons, sum_nil] at hwork ⊢
    omega
  have hvalid : ∀ r ∈ rs, r.low ≤ r.high ∧ r.high < s.array.length := by
    intro r hr
    rcases hpart r hr with rfl | rfl
    · exact ⟨zero_le _, by dsimp only; omega⟩
    · exact ⟨by dsimp only; omega, by dsimp only; omega⟩
  obtain ⟨b, hb, hbperm, hcut⟩ := sortLoop_spec (fun _ _ => 0) (fun _ => lt_irrefl 0) size
    hsize hfuel hs hvalid
  obtain ⟨x, hx⟩ : ∃ x, a[a.length - 1]? = some x := ⟨_, getElem?_eq_getElem (by omega)⟩
  have hbelow : x ∈ b.take (s.highPtr + 1) := by
    refine (hcut (s.highPtr + 1) fun r hr => ?_).mem_iff.mpr ?_
    · rcases hpart r hr with rfl | rfl
      · exact Or.inl (lt_succ_self _)
      · exact Or.inr hapart
    · apply mem_of_getElem?
      rw [getElem?_take, if_pos (succ_pos _), hfront, hx]
  refine ⟨b, ?_, fun hlast => ?_⟩
  · rw [myQsort_eq_sortLoop (by omega), sortLoop_of_split (by omega)
      (by rw [hcount]; exact hsplit) hnext, hb]
  · have hnodup' := (hbperm.trans hperm).nodup_iff.mpr hnodup
    have hlen'' := (hbperm.trans hperm).length_eq
    have hidx : s.highPtr + 1 + (a.length - 1 - (s.highPtr + 1)) = a.length - 1 := by omega
    rw [getLast?_eq_getElem?, getLast?_eq_getElem?, hlen'', hx, ← hidx, ← getElem?_drop] at hlast
    exact disjoint_take_drop hnodup' le_rfl hbelow (mem_of_getElem? hlast)

lemma myQsort_const_of_le : ∀ n ≤ 40, (myQsort (fun _ _ => 0) 16 (range n)).map getLast? =
      some (range n).getLast? := by
  decide +kernel

end Large

end Mysys
