import Mathlib.Tactic.Ring
import EryMysql.Lib.ListRange

/-!
# my_qsort

The sort of mysys/mf_qsort.c on an array of elements of `size` bytes. Pointers are
positions in the array. A run gives `none` when it leaves the array, forms a pointer
before it, or overruns the stack of ranges.
-/

namespace Mysys

open ListRange Option Nat

variable {α β : Type} (cmp : α -> α -> Int) {a : List α}

/-- `STACK_SIZE`; the node the last pop reads takes one of its places. -/
def stackSize : Nat := 8 * 8

def thresholdForInsertSort : Nat := 10

/-- `(int)` of the distance between two pointers. -/
def intDiff (size high low : Nat) : Int := (size * ((high : Int) - low)).bmod (2 ^ 32)

/-- `MEDIAN` puts the median in the middle argument. -/
def median (a : List α) (low mid high : Nat) : Option (List α) := do
  let x ← a[low]?
  let z ← a[high]?
  let a ← (if cmp z x < 0 then swap a high low else some a)
  if cmp (← a[mid]?) (← a[low]?) < 0 then swap a mid low
  else if cmp (← a[high]?) (← a[mid]?) < 0 then swap a mid high
  else return a

/-- The inner loop of the insert sort, from `ptr` down. -/
def insertDown (low : Nat) : Nat -> List α -> Option (List α)
  | 0, a => some a
  | ptr + 1, a =>
    if low < ptr + 1 then do
      if 0 < cmp (← a[ptr]?) (← a[ptr + 1]?) then insertDown low ptr (← swap a (ptr + 1) ptr)
      else return a
    else some a

/-- The insert sort of the `n` elements from `lowPtr` on into those from `low`. -/
def insertSort (low : Nat) : Nat -> Nat -> List α -> Option (List α)
  | 0, _, a => some a
  | n + 1, lowPtr, a => do insertSort low n (lowPtr + 1) (← insertDown cmp low lowPtr a)

/-- `while (CMP(low_ptr, pivot) < 0) low_ptr+= size` over at most `n` elements. -/
def scanUp (a : List α) (pivot : α) : Nat -> Nat -> Option Nat
  | 0, _ => none
  | n + 1, lowPtr => do
    if cmp (← a[lowPtr]?) pivot < 0 then scanUp a pivot n (lowPtr + 1) else return lowPtr

/-- `while (CMP(pivot, high_ptr) < 0) high_ptr-= size` -/
def scanDown (a : List α) (pivot : α) : Nat -> Option Nat
  | 0 => do if cmp pivot (← a[0]?) < 0 then none else return 0
  | highPtr + 1 => do
    if cmp pivot (← a[highPtr + 1]?) < 0 then scanDown a pivot highPtr else return highPtr + 1

structure Split (α : Type) where
  array : List α
  lowPtr : Nat
  highPtr : Nat

def Split.map (f : α -> β) (s : Split α) : Split β := ⟨s.array.map f, s.lowPtr, s.highPtr⟩

def partitionLoop (pivot : α) : Nat -> Split α -> Option (Split α)
  | 0, _ => none
  | fuel + 1, ⟨a, lowPtr, highPtr⟩ => do
    let lowPtr ← scanUp cmp a pivot a.length lowPtr
    let highPtr ← scanDown cmp a pivot highPtr
    if lowPtr < highPtr then
      let a ← swap a lowPtr highPtr
      if lowPtr + 1 ≤ highPtr - 1 then partitionLoop pivot fuel ⟨a, lowPtr + 1, highPtr - 1⟩
      else return ⟨a, lowPtr + 1, highPtr - 1⟩
    else if lowPtr = highPtr then
      -- the pointer must not go before the array
      if highPtr = 0 then none else return ⟨a, lowPtr + 1, highPtr - 1⟩
    else return ⟨a, lowPtr, highPtr⟩

/-- Moves a good middle element to the middle, and says where to start from. -/
def chooseMiddle (a : List α) (low high count : Nat) : Option (Split α) := do
  let mid := low + count / 2
  if 40 < count then
    let step := count / 8
    let a ← median cmp a low (low + step) (low + step * 2)
    let a ← median cmp a (mid - step) mid (mid + step)
    let a ← median cmp a (high - 2 * step) (high - step) high
    let a ← median cmp a (low + step) mid (high - step)
    return ⟨a, low, high⟩
  else
    let a ← median cmp a low mid high
    return ⟨a, low + 1, high - 1⟩

def splitRange (a : List α) (low high count : Nat) : Option (Split α) := do
  let s ← chooseMiddle cmp a low high count
  partitionLoop cmp (← s.array[low + count / 2]?) (a.length + 1) s

structure Range where
  low : Nat
  high : Nat
  deriving DecidableEq, Repr

def Range.count (r : Range) : Nat := r.high - r.low + 1

/-- The ranges left after a split. The first is the one to go on with, the others are
on the stack. -/
def nextRanges (size : Nat) (r : Range) (lowPtr highPtr : Nat) (stack : List Range) :
    Option (List Range) :=
  if intDiff size highPtr r.low ≤ 0 then
    if intDiff size r.high lowPtr ≤ 0 then some stack
    else some (⟨lowPtr, r.high⟩ :: stack)
  else if intDiff size r.high lowPtr ≤ 0 then some (⟨r.low, highPtr⟩ :: stack)
  else if stack.length + 1 < stackSize then
    if (highPtr : Int) - r.low > (r.high : Int) - lowPtr then
      some (⟨lowPtr, r.high⟩ :: ⟨r.low, highPtr⟩ :: stack)
    else some (⟨r.low, highPtr⟩ :: ⟨lowPtr, r.high⟩ :: stack)
  else none

/-- The loop over the ranges: the one at hand and those on the stack. -/
def sortLoop (size : Nat) : Nat -> List α -> List Range -> Option (List α)
  | _, a, [] => some a
  | 0, _, _ :: _ => none
  | fuel + 1, a, r :: stack => do
    if r.count < thresholdForInsertSort then
      sortLoop size fuel (← insertSort cmp r.low (r.high - r.low) (r.low + 1) a) stack
    else
      let s ← splitRange cmp a r.low r.high r.count
      sortLoop size fuel s.array (← nextRanges size r s.lowPtr s.highPtr stack)

def myQsort (size : Nat) (a : List α) : Option (List α) :=
  if a.length ≤ 1 then some a
  else sortLoop cmp size (2 * a.length) a [⟨0, a.length - 1⟩]

section Bounds
variable {cmp} {a b : List α} {lo hi : Nat}

lemma swap_within {i j : Nat} (hi0 : lo ≤ i) (hi1 : i ≤ hi) (hj0 : lo ≤ j) (hj1 : j ≤ hi)
    (hlen : hi < a.length) : ∃ b, swap a i j = some b ∧ Rearranged lo hi a b := by
  obtain ⟨b, hb, hs⟩ := swap_spec (lt_of_le_of_lt hi1 hlen) (lt_of_le_of_lt hj1 hlen)
  exact ⟨b, hb, hs.rearranged hi0 hi1 hj0 hj1⟩

lemma median_spec (cmp : α -> α -> Int) (lo low mid high : Nat) (hlow : lo ≤ low ∧ low ≤ hi)
    (hmid : lo ≤ mid ∧ mid ≤ hi)
    (hhigh : lo ≤ high ∧ high ≤ hi) (hlen : hi < a.length) :
    ∃ b, median cmp a low mid high = some b ∧ Rearranged lo hi a b := by
  have hread : ∀ {a : List α} {i : Nat}, lo ≤ i ∧ i ≤ hi -> hi < a.length -> ∃ x, a[i]? = some x :=
    fun hi hlen => ⟨_, List.getElem?_eq_getElem (by omega)⟩
  obtain ⟨x, hx⟩ := hread hlow hlen
  obtain ⟨z, hz⟩ := hread hhigh hlen
  obtain ⟨b, hb, hab⟩ : ∃ b, (if cmp z x < 0 then swap a high low else some a) = some b ∧
      Rearranged lo hi a b := by
    split
    · exact swap_within hhigh.1 hhigh.2 hlow.1 hlow.2 hlen
    · exact ⟨a, rfl, .refl lo hi a⟩
  have hlen' : hi < b.length := by rwa [hab.length_eq]
  obtain ⟨x', hx'⟩ := hread hlow hlen'
  obtain ⟨y', hy'⟩ := hread hmid hlen'
  obtain ⟨z', hz'⟩ := hread hhigh hlen'
  simp only [median, hx, hz, some_bind, hb, hx', hy', hz']
  split
  · obtain ⟨c, hc, hbc⟩ := swap_within hmid.1 hmid.2 hlow.1 hlow.2 hlen'
    exact ⟨c, hc, hab.trans hbc⟩
  · split
    · obtain ⟨c, hc, hbc⟩ := swap_within hmid.1 hmid.2 hhigh.1 hhigh.2 hlen'
      exact ⟨c, hc, hab.trans hbc⟩
    · exact ⟨b, rfl, hab⟩

lemma insertDown_spec (cmp : α -> α -> Int) {ptr : Nat} (hptr : lo ≤ ptr ∧ ptr ≤ hi) (hlen : hi < a.length) :
    ∃ b, insertDown cmp lo ptr a = some b ∧ Rearranged lo hi a b := by
  induction ptr generalizing a with
  | zero => exact ⟨a, rfl, .refl lo hi a⟩
  | succ ptr ih =>
    rw [insertDown]
    split
    · have hx := List.getElem?_eq_getElem (show ptr < a.length by omega)
      have hy := List.getElem?_eq_getElem (show ptr + 1 < a.length by omega)
      simp only [hx, hy, bind_eq_bind, bind_some]
      split
      · obtain ⟨b, hb, hab⟩ := swap_within hptr.1 hptr.2 (show lo ≤ ptr by omega) (by omega) hlen
        obtain ⟨c, hc, hbc⟩ := ih (by omega) (by rwa [hab.length_eq])
        exact ⟨c, by rw [hb, bind_some, hc], hab.trans hbc⟩
      · exact ⟨a, rfl, .refl lo hi a⟩
    · exact ⟨a, rfl, .refl lo hi a⟩

lemma insertSort_spec (cmp : α -> α -> Int) {n lowPtr : Nat} (hlow : lo ≤ lowPtr) (hhigh : lowPtr + n ≤ hi + 1)
    (hlen : hi < a.length) :
    ∃ b, insertSort cmp lo n lowPtr a = some b ∧ Rearranged lo hi a b := by
  induction n generalizing a lowPtr with
  | zero => exact ⟨a, rfl, .refl lo hi a⟩
  | succ n ih =>
    obtain ⟨b, hb, hab⟩ := insertDown_spec cmp ⟨hlow, (by omega : lowPtr ≤ hi)⟩ hlen
    obtain ⟨c, hc, hbc⟩ := ih (le_succ_of_le hlow) (by omega) (by rwa [hab.length_eq])
    exact ⟨c, by rw [insertSort, hb]; exact hc, hab.trans hbc⟩

variable {pivot : α} {low high count : Nat}

def StopsUp (cmp : α -> α -> Int) (pivot : α) (a : List α) (k : Nat) : Prop :=
  ∃ x, a[k]? = some x ∧ ¬ cmp x pivot < 0

def StopsDown (cmp : α -> α -> Int) (pivot : α) (a : List α) (k : Nat) : Prop :=
  ∃ x, a[k]? = some x ∧ ¬ cmp pivot x < 0

lemma scanUp_spec {n p k : Nat} (hp : p ≤ k) (hn : k < p + n) (hk : StopsUp cmp pivot a k) :
    ∃ q, scanUp cmp a pivot n p = some q ∧ p ≤ q ∧ q ≤ k ∧ StopsUp cmp pivot a q := by
  induction n generalizing p with
  | zero => omega
  | succ n ih =>
    obtain ⟨x, hx, hstop⟩ := hk
    have hlen : k < a.length := (List.getElem?_eq_some_iff.mp hx).1
    have hp' := List.getElem?_eq_getElem (show p < a.length by omega)
    simp only [scanUp, hp', some_bind]
    split
    · rename_i hlt
      have hne : p ≠ k := by
        rintro rfl
        rw [hp', some.injEq] at hx
        exact hstop (hx ▸ hlt)
      obtain ⟨q, hq, hpq, hqk, hsq⟩ := ih (p := p + 1) (by omega) (by omega)
      exact ⟨q, hq, by omega, hqk, hsq⟩
    · rename_i hge
      exact ⟨p, rfl, le_rfl, hp, _, hp', hge⟩

lemma scanDown_spec {p k : Nat} (hp : k ≤ p) (hlen : p < a.length)
    (hk : StopsDown cmp pivot a k) :
    ∃ q, scanDown cmp a pivot p = some q ∧ k ≤ q ∧ q ≤ p ∧ StopsDown cmp pivot a q := by
  obtain ⟨x, hx, hstop⟩ := hk
  induction p with
  | zero =>
    obtain rfl : k = 0 := by omega
    simp only [scanDown, hx, some_bind, if_neg hstop]
    exact ⟨0, rfl, le_rfl, le_rfl, x, hx, hstop⟩
  | succ p ih =>
    have hp' := List.getElem?_eq_getElem hlen
    simp only [scanDown, hp', some_bind]
    split
    · rename_i hlt
      have hne : k ≠ p + 1 := by
        rintro rfl
        rw [hp', some.injEq] at hx
        exact hstop (hx ▸ hlt)
      obtain ⟨q, hq, hkq, hqp, hsq⟩ := ih (by omega) (by omega)
      exact ⟨q, hq, hkq, by omega, hsq⟩
    · rename_i hge
      exact ⟨p + 1, rfl, hp, le_rfl, _, hp', hge⟩

/-- The two parts a range is split into: apart, and both smaller than the range. -/
structure SplitInto (lo hi : Nat) (a : List α) (s : Split α) : Prop where
  rearranged : Rearranged lo hi a s.array
  lowPtr_le : s.lowPtr ≤ hi
  le_highPtr : lo ≤ s.highPtr
  apart : s.highPtr < s.lowPtr

/-- The scans stop inside the range: at the pivot at first, and then at the elements
exchanged last. -/
lemma partitionLoop_spec {fuel l h u d : Nat} (hlh : l ≤ h) (hfuel : h < l + fuel)
    (hlen : hi < a.length) (hlo : lo ≤ l) (hhi : h ≤ hi)
    (hu : StopsUp cmp pivot a u) (hlu : l ≤ u) (hu1 : u ≤ hi) (hu2 : u < hi ∨ h < hi)
    (hd : StopsDown cmp pivot a d) (hdh : d ≤ h) (hd1 : lo ≤ d) (hd2 : lo < d ∨ lo < l) :
    ∃ s, partitionLoop cmp pivot fuel ⟨a, l, h⟩ = some s ∧ SplitInto lo hi a s ∧
      l ≤ s.lowPtr ∧ s.highPtr ≤ h ∧ (u ≤ d -> l < s.lowPtr ∧ s.highPtr < h) := by
  induction fuel generalizing a l h u d with
  | zero => omega
  | succ fuel ih =>
    obtain ⟨l', hl', hll', hl'u, x, hx, hxs⟩ := scanUp_spec hlu (by omega : u < l + a.length) hu
    obtain ⟨h', hh', hdh', hh'h, y, hy, hys⟩ := scanDown_spec hdh (by omega) hd
    simp only [partitionLoop, hl', hh', some_bind]
    split
    · obtain ⟨b, hb, hs⟩ := swap_spec (by omega : l' < a.length) (by omega : h' < a.length)
      have hab : Rearranged lo hi a b := hs.rearranged (by omega) (by omega) (by omega) (by omega)
      simp only [hb]
      split
      · rename_i hagain
        obtain ⟨s, hrun, hsplit, h1, h2, -⟩ := ih hagain (by omega) (by rwa [hab.length_eq])
          (by omega) (by omega)
          ⟨x, hs.snd.trans hx, hxs⟩ (by omega) (by omega) (by omega)
          ⟨y, hs.fst.trans hy, hys⟩ (by omega) (by omega) (by omega)
        refine ⟨s, hrun, ⟨hab.trans hsplit.rearranged, hsplit.lowPtr_le, hsplit.le_highPtr,
          hsplit.apart⟩, ?_, ?_, fun _ => ?_⟩ <;> omega
      · refine ⟨⟨b, l' + 1, h' - 1⟩, rfl, ⟨hab, ?_, ?_, ?_⟩, ?_, ?_, fun _ => ?_⟩ <;>
          dsimp only <;> omega
    · split
      · rw [if_neg (by omega)]
        refine ⟨⟨a, l' + 1, h' - 1⟩, rfl, ⟨.refl lo hi a, ?_, ?_, ?_⟩, ?_, ?_, fun _ => ?_⟩ <;>
          dsimp only <;> omega
      · refine ⟨⟨a, l', h'⟩, rfl, ⟨.refl lo hi a, ?_, ?_, ?_⟩, ?_, ?_, fun _ => ?_⟩ <;>
          dsimp only <;> omega

lemma chooseMiddle_spec (cmp : α -> α -> Int) (hcount : count = high - low + 1)
    (hten : 10 ≤ count) (hlen : high < a.length) :
    ∃ s, chooseMiddle cmp a low high count = some s ∧ Rearranged low high a s.array ∧
      (s.lowPtr = low ∧ s.highPtr = high ∨ s.lowPtr = low + 1 ∧ s.highPtr = high - 1) := by
  unfold chooseMiddle
  split
  · obtain ⟨b, hb, hab⟩ := median_spec cmp low low (low + count / 8) (low + count / 8 * 2)
      (by omega) (by omega) (by omega) hlen
    rw [← hab.length_eq] at hlen
    obtain ⟨c, hc, hbc⟩ := median_spec cmp low (low + count / 2 - count / 8) (low + count / 2)
      (low + count / 2 + count / 8) (by omega) (by omega) (by omega) hlen
    rw [← hbc.length_eq] at hlen
    obtain ⟨d, hd, hcd⟩ := median_spec cmp low (high - 2 * (count / 8)) (high - count / 8) high
      (by omega) (by omega) (by omega) hlen
    rw [← hcd.length_eq] at hlen
    obtain ⟨e, he, hde⟩ := median_spec cmp low (low + count / 8) (low + count / 2)
      (high - count / 8) (by omega) (by omega) (by omega) hlen
    refine ⟨⟨e, low, high⟩, ?_, ((hab.trans hbc).trans hcd).trans hde, Or.inl ⟨rfl, rfl⟩⟩
    simp only [hb, hc, hd, he, some_bind, pure_def]
  · obtain ⟨b, hb, hab⟩ := median_spec cmp low low (low + count / 2) high (by omega) (by omega)
      (by omega) hlen
    refine ⟨⟨b, low + 1, high - 1⟩, ?_, hab, Or.inr ⟨rfl, rfl⟩⟩
    simp only [hb, some_bind, pure_def]

lemma splitRange_spec (hrefl : ∀ x, ¬ cmp x x < 0)
    (hcount : count = high - low + 1) (hten : 10 ≤ count) (hlen : high < a.length) :
    ∃ s, splitRange cmp a low high count = some s ∧ SplitInto low high a s ∧
      low < s.lowPtr ∧ s.highPtr < high := by
  obtain ⟨⟨b, l, h⟩, hmid, hab, hptrs⟩ := chooseMiddle_spec cmp hcount hten hlen
  dsimp only at hab hptrs
  have hlen' : high < b.length := by rwa [hab.length_eq]
  have hpivot := List.getElem?_eq_getElem (show low + count / 2 < b.length by omega)
  obtain ⟨s, hrun, hsplit, -, -, hstrict⟩ := partitionLoop_spec (by omega : l ≤ h)
    (by omega : h < l + (a.length + 1)) hlen' (by omega : low ≤ l) (by omega)
    ⟨_, hpivot, hrefl _⟩ (by omega) (by omega) (by omega)
    ⟨_, hpivot, hrefl _⟩ (by omega) (by omega) (by omega)
  refine ⟨s, ?_, ⟨hab.trans hsplit.rearranged, hsplit.lowPtr_le, hsplit.le_highPtr,
    hsplit.apart⟩, ?_, ?_⟩
  · simp only [splitRange, hmid, hpivot, some_bind, hrun]
  iterate 2
    omega

end Bounds

section Ranges
variable {n lowPtr highPtr : Nat} {r : Range} {stack : List Range}

/-- A bound on the iterations that a list of ranges can still take. -/
def work (rs : List Range) : Nat := (rs.map fun r => 2 * r.count - 1).sum

/-- Each range is at most half of the one it was split from, so `2 ^ 64` elements keep
the stack below its size. -/
def Shallow (n : Nat) : List Range -> Prop
  | [] => True
  | r :: rs => r.count * 2 ^ rs.length ≤ n ∧ Shallow n rs

lemma Shallow.room (hs : Shallow n (r :: stack)) (hten : 10 ≤ r.count) (hn : n ≤ 2 ^ 64) :
    stack.length + 1 < stackSize := by
  by_contra hfull
  have hpow : 2 ^ 63 ≤ 2 ^ stack.length :=
    Nat.pow_le_pow_right (by decide) (by unfold stackSize at hfull; omega)
  have hle := mul_le_mul hten hpow
  have htop := hs.1
  omega

lemma Shallow.part (hs : Shallow n (r :: stack)) {r' : Range} (hle : r'.count ≤ r.count) :
    Shallow n (r' :: stack) :=
  ⟨(mul_le_mul_right _ hle).trans hs.1, hs.2⟩

lemma Shallow.push (hs : Shallow n (r :: stack)) {small large : Range}
    (hsmall : 2 * small.count ≤ r.count) (hlarge : large.count ≤ r.count) :
    Shallow n (small :: large :: stack) := by
  refine ⟨?_, hs.part hlarge⟩
  calc small.count * 2 ^ (stack.length + 1) = 2 * small.count * 2 ^ stack.length := by ring
    _ ≤ r.count * 2 ^ stack.length := mul_le_mul_right _ hsmall
    _ ≤ n := hs.1

def Range.Part (r : Range) (lowPtr highPtr : Nat) (r' : Range) : Prop :=
  r' = ⟨r.low, highPtr⟩ ∨ r' = ⟨lowPtr, r.high⟩

lemma nextRanges_spec (size : Nat) (hn : n ≤ 2 ^ 64) (hten : 10 ≤ r.count) (hs : Shallow n (r :: stack))
    (hl : r.low < lowPtr) (hl' : lowPtr ≤ r.high) (hh : r.low ≤ highPtr) (hh' : highPtr < r.high)
    (hapart : highPtr < lowPtr) :
    ∃ rs, nextRanges size r lowPtr highPtr stack = some rs ∧ Shallow n rs ∧
      work rs < work (r :: stack) ∧ ∀ r' ∈ rs, r' ∈ stack ∨ r.Part lowPtr highPtr r' := by
  have hroom := hs.room hten hn
  have hcount : r.count = r.high - r.low + 1 := rfl
  have hleft : Range.count ⟨r.low, highPtr⟩ = highPtr - r.low + 1 := rfl
  have hright : Range.count ⟨lowPtr, r.high⟩ = r.high - lowPtr + 1 := rfl
  have hinl : r.Part lowPtr highPtr ⟨r.low, highPtr⟩ := Or.inl rfl
  have hinr : r.Part lowPtr highPtr ⟨lowPtr, r.high⟩ := Or.inr rfl
  simp only [nextRanges]
  split
  · split
    · refine ⟨stack, rfl, hs.2, ?_, fun r' hr' => Or.inl hr'⟩
      simp only [work, List.map_cons, List.sum_cons]
      omega
    · refine ⟨_, rfl, hs.part (by omega), ?_, ?_⟩
      · simp only [work, List.map_cons, List.sum_cons]
        omega
      · rintro r' (_ | ⟨_, hr'⟩)
        · exact Or.inr hinr
        · exact Or.inl hr'
  · split
    · refine ⟨_, rfl, hs.part (by omega), ?_, ?_⟩
      · simp only [work, List.map_cons, List.sum_cons]
        omega
      · rintro r' (_ | ⟨_, hr'⟩)
        · exact Or.inr hinl
        · exact Or.inl hr'
    · split
      · refine ⟨_, rfl, hs.push (by omega) (by omega), ?_, ?_⟩
        · simp only [work, List.map_cons, List.sum_cons]
          omega
        · rintro r' (_ | ⟨_, _ | ⟨_, hr'⟩⟩)
          · exact Or.inr hinr
          · exact Or.inr hinl
          · exact Or.inl hr'
      · refine ⟨_, rfl, hs.push (by omega) (by omega), ?_, ?_⟩
        · simp only [work, List.map_cons, List.sum_cons]
          omega
        · rintro r' (_ | ⟨_, _ | ⟨_, hr'⟩⟩)
          · exact Or.inr hinl
          · exact Or.inr hinr
          · exact Or.inl hr'

/-- The loop ends, and moves nothing across a cut between the ranges. -/
lemma sortLoop_spec (cmp : α -> α -> Int) (hrefl : ∀ x, ¬ cmp x x < 0) (size : Nat) (hn : n ≤ 2 ^ 64)
    {fuel : Nat} {rs : List Range} (hfuel : work rs ≤ fuel) (hs : Shallow n rs)
    (hin : ∀ r ∈ rs, r.low ≤ r.high ∧ r.high < a.length) :
    ∃ b, sortLoop cmp size fuel a rs = some b ∧ b.Perm a ∧
      ∀ m, (∀ r ∈ rs, r.high < m ∨ m ≤ r.low) -> (b.take m).Perm (a.take m) := by
  induction fuel generalizing a rs with
  | zero =>
    cases rs with
    | nil => exact ⟨a, by rw [sortLoop], .refl a, fun _ _ => .refl _⟩
    | cons r stack =>
      have : r.count = r.high - r.low + 1 := rfl
      simp only [work, List.map_cons, List.sum_cons] at hfuel
      omega
  | succ fuel ih =>
    cases rs with
    | nil => exact ⟨a, by rw [sortLoop], .refl a, fun _ _ => .refl _⟩
    | cons r stack =>
      obtain ⟨hle, hlen⟩ := hin r (List.mem_cons_self ..)
      have hcount : r.count = r.high - r.low + 1 := rfl
      rw [sortLoop]
      split
      · obtain ⟨b, hb, hab⟩ := insertSort_spec cmp (le_succ r.low)
          (by omega : r.low + 1 + (r.high - r.low) ≤ r.high + 1) hlen
        have hrest : work stack ≤ fuel := by
          simp only [work, List.map_cons, List.sum_cons] at hfuel ⊢
          omega
        obtain ⟨c, hc, hcb, hcut⟩ := ih hrest hs.2 fun r' hr' => by
          rw [hab.length_eq]
          exact hin r' (List.mem_cons_of_mem _ hr')
        refine ⟨c, ?_, hcb.trans hab.perm, fun m hm => ?_⟩
        · simp only [hb, some_bind, hc]
        · exact (hcut m fun r' hr' => hm r' (List.mem_cons_of_mem _ hr')).trans
            (hab.take_perm (hm r (List.mem_cons_self ..)))
      · rename_i hten
        have hten' : 10 ≤ r.count := by unfold thresholdForInsertSort at hten; omega
        obtain ⟨s, hrun, hsplit, hl, hh⟩ := splitRange_spec hrefl hcount hten' hlen
        obtain ⟨rs', hnext, hs', hwork, hmem⟩ := nextRanges_spec size hn hten' hs hl
          hsplit.lowPtr_le hsplit.le_highPtr hh hsplit.apart
        have hlen' := hsplit.rearranged.length_eq
        obtain ⟨c, hc, hcs, hcut⟩ := ih (by omega : work rs' ≤ fuel) hs' fun r' hr' => by
          rw [hlen']
          rcases hmem r' hr' with hstack | rfl | rfl
          · exact hin r' (List.mem_cons_of_mem _ hstack)
          · exact ⟨hsplit.le_highPtr, hh.trans hlen⟩
          · exact ⟨hsplit.lowPtr_le, hlen⟩
        refine ⟨c, ?_, hcs.trans hsplit.rearranged.perm, fun m hm => ?_⟩
        · simp only [hrun, hnext, some_bind, hc]
        · have hr := hm r (List.mem_cons_self ..)
          refine (hcut m fun r' hr' => ?_).trans (hsplit.rearranged.take_perm hr)
          rcases hmem r' hr' with hstack | rfl | rfl
          · exact hm r' (List.mem_cons_of_mem _ hstack)
          · dsimp only
            omega
          · dsimp only
            omega

end Ranges

/-- The sort ends, stays inside the array and its stack, and rearranges the array. -/
lemma myQsort_perm (cmp : α -> α -> Int) (hrefl : ∀ x, ¬ cmp x x < 0) (size : Nat)
    (hlen : a.length ≤ 2 ^ 64) : ∃ b, myQsort cmp size a = some b ∧ b.Perm a := by
  unfold myQsort
  split
  · exact ⟨a, rfl, .refl a⟩
  · have hcount : Range.count ⟨0, a.length - 1⟩ = a.length - 1 - 0 + 1 := rfl
    have hwork : work [⟨0, a.length - 1⟩] ≤ 2 * a.length := by
      simp only [work, List.map_cons, List.map_nil, List.sum_cons, List.sum_nil]
      omega
    have hshallow : Shallow a.length [⟨0, a.length - 1⟩] :=
      ⟨by rw [List.length_nil]; omega, trivial⟩
    have hin : ∀ r ∈ [Range.mk 0 (a.length - 1)], r.low ≤ r.high ∧ r.high < a.length := by
      intro r hr
      rw [List.mem_singleton.mp hr]
      exact ⟨zero_le _, by dsimp only; omega⟩
    obtain ⟨b, hb, hperm, -⟩ := sortLoop_spec cmp hrefl size hlen hwork hshallow hin
    exact ⟨b, hb, hperm⟩

end Mysys
