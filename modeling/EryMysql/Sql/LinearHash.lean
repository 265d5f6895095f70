import Mathlib.Data.Nat.Log
import Mathlib.Tactic.IntervalCases

/-!
# LINEAR HASH partitions

The placement of rows by `get_part_id_from_linear_hash` of sql/sql_partition.cc, and the partitions
that `prep_alter_part_table` marks `PART_CHANGED` when partitions are added or coalesced online. The
number of partitions is at most `MAX_PARTITIONS`; what follows needs `2 ^ 31`, where no mask wraps.
-/

namespace Sql

def linearHashLoop (numParts : Nat) : Nat -> Nat -> Nat
  | 0, mask => mask
  | fuel + 1, mask => if mask < numParts then linearHashLoop numParts fuel (mask <<< 1) else mask

/-- `set_linear_hash_mask`; the mask is a `uint`. -/
def setLinearHashMask (numParts : Nat) : Nat := linearHashLoop numParts 32 1 - 1

def uintSub (a b : Nat) : Nat := (a + 2 ^ 32 - b) % 2 ^ 32

def getPartIdFromLinearHash (hashValue : UInt64) (mask numParts : Nat) : Nat :=
  let partId := hashValue.toNat &&& mask
  if numParts ≤ partId then hashValue.toNat &&& uintSub ((mask + 1) >>> 1) 1 else partId

def linearPartId (numParts : Nat) (hashValue : UInt64) : Nat :=
  getPartIdFromLinearHash hashValue (setLinearHashMask numParts) numParts

/-- Whether a partition is marked `PART_CHANGED`. `none` is `all_parts`, otherwise there are one or
two intervals. -/
def marks : Option (List (Nat × Nat)) -> Nat -> Bool
  | none, _ => true
  | some parts, partNo => parts.any fun part => part.1 ≤ partNo ∧ partNo ≤ part.2

def addPartition (numOrig numNew : Nat) : Option (List (Nat × Nat)) :=
  let total := numOrig + numNew
  let upper2n := setLinearHashMask numOrig + 1
  let lower2n := upper2n >>> 1
  if numNew < upper2n then
    if lower2n ≤ numNew then some [(0, max (uintSub lower2n 1) (uintSub total (upper2n + 1)))]
    else
      let startPart := uintSub numOrig lower2n
      if total ≤ upper2n then some [(startPart, startPart + uintSub numNew 1)]
      else some [(startPart, uintSub upper2n 1), (0, uintSub total (upper2n + 1))]
  else none

def coalescePartition (numParts numCoalesced : Nat) : Option (List (Nat × Nat)) :=
  let numRemain := uintSub numParts numCoalesced
  let lower2n := (setLinearHashMask numParts + 1) >>> 1
  let endPart := uintSub numParts (lower2n + 1)
  if lower2n ≤ numCoalesced then none
  else if lower2n ≤ numRemain then some [(uintSub numRemain lower2n, endPart)]
  else
    let endSecPart := uintSub (lower2n >>> 1) 1
    some [(0, endPart), (uintSub endSecPart (uintSub lower2n (numRemain + 1)), endSecPart)]

lemma marks_one {a b p : Nat} : marks (some [(a, b)]) p ↔ a ≤ p ∧ p ≤ b := by simp [marks]

lemma marks_two {a b c d p : Nat} :
    marks (some [(a, b), (c, d)]) p ↔ (a ≤ p ∧ p ≤ b) ∨ (c ≤ p ∧ p ≤ d) := by
  simp [marks]

section Placement
variable {n k m r : Nat} {h : UInt64}

lemma uintSub_eq {a b : Nat} (hle : b ≤ a) (hlt : a < 2 ^ 32) :
    uintSub a b = a - b := by
  rw [uintSub, Nat.sub_add_comm hle, Nat.add_mod_right, Nat.mod_eq_of_lt (by omega)]

/-- The start of the second interval wraps, if too few partitions remain. -/
lemma startSecPart_eq (hr : r < 2 ^ (m + 1)) (hm : 2 ^ (m + 1) ≤ 2 ^ 31) :
    uintSub (uintSub (2 ^ m) 1) (uintSub (2 ^ (m + 1)) (r + 1)) =
      if 2 ^ m ≤ r then r - 2 ^ m else 2 ^ 32 + r - 2 ^ m := by
  rw [uintSub_eq hr (by omega), uintSub_eq Nat.one_le_two_pow (by omega), uintSub]
  split_ifs <;> omega

lemma linearHashLoop_eq (hle : n ≤ 2 ^ m) (hlt : 2 ^ m < 2 * n) {fuel i : Nat} (hi : i ≤ m)
    (hfuel : m ≤ i + fuel) : linearHashLoop n fuel (2 ^ i) = 2 ^ m := by
  induction fuel generalizing i with
  | zero => rw [linearHashLoop, show i = m by omega]
  | succ fuel ih =>
    rw [linearHashLoop]
    rcases hi.eq_or_lt with rfl | hi
    · rw [if_neg hle.not_gt]
    · have hpow := Nat.pow_le_pow_right two_pos hi
      rw [if_pos (by omega), Nat.shiftLeft_eq]
      exact ih hi (by omega)

lemma setLinearHashMask_eq (hle : n ≤ 2 ^ m) (hlt : 2 ^ m < 2 * n) (hmax : n ≤ 2 ^ 31) :
    setLinearHashMask n = 2 ^ m - 1 := by
  have hm : m < 32 := (Nat.pow_lt_pow_iff_right one_lt_two).mp (by omega : 2 ^ m < 2 ^ 32)
  exact congrArg (· - 1) (linearHashLoop_eq hle hlt (Nat.zero_le m) (by omega : m ≤ 0 + 32))

lemma exists_width (hn : 1 ≤ n) : ∃ m, n ≤ 2 ^ m ∧ 2 ^ m < 2 * n := by
  refine ⟨Nat.clog 2 n, Nat.le_pow_clog one_lt_two n, ?_⟩
  rcases hn.eq_or_lt with rfl | hn
  · simp
  · have hpred := Nat.pow_pred_clog_lt_self one_lt_two hn
    rw [← Nat.succ_pred_eq_of_pos (Nat.clog_pos one_lt_two hn)]
    omega

lemma half_two_pow : 2 ^ (m + 1) >>> 1 = 2 ^ m := by
  rw [Nat.shiftRight_eq_div_pow, pow_succ, pow_one, Nat.mul_div_cancel _ two_pos]

/-- The lower bits decide, if all bits lead too far. -/
lemma linearPartId_eq (hle : n ≤ 2 ^ m) (hlt : 2 ^ m < 2 * n)
    (hmax : n ≤ 2 ^ 31) :
    linearPartId n h =
      if n ≤ h.toNat % 2 ^ m then h.toNat % 2 ^ (m - 1) else h.toNat % 2 ^ m := by
  rw [linearPartId, setLinearHashMask_eq hle hlt hmax, getPartIdFromLinearHash,
    Nat.sub_add_cancel Nat.one_le_two_pow, Nat.and_two_pow_sub_one_eq_mod]
  cases m with
  | zero => rw [if_neg (by omega), if_neg (by omega)]
  | succ m =>
    rw [half_two_pow, uintSub_eq Nat.one_le_two_pow (by omega),
      Nat.and_two_pow_sub_one_eq_mod, Nat.add_sub_cancel]

lemma mod_double (x m : Nat) :
    x % 2 ^ (m + 1) = x % 2 ^ m ∨ x % 2 ^ (m + 1) = x % 2 ^ m + 2 ^ m := by
  rw [pow_succ, Nat.mod_mul]
  rcases Nat.mod_two_eq_zero_or_one (x / 2 ^ m) with h | h <;> simp [h]

lemma linearPartId_lt (hn : 1 ≤ n) (hmax : n ≤ 2 ^ 31) : linearPartId n h < n := by
  obtain ⟨m, hle, hlt⟩ := exists_width hn
  rw [linearPartId_eq hle hlt hmax]
  cases m with
  | zero => rw [if_neg (by omega)]; omega
  | succ m =>
    have hmod := Nat.mod_lt h.toNat (Nat.two_pow_pos m)
    split <;> simp <;> omega

lemma exists_lower (hn : 1 < n) (hmax : n ≤ 2 ^ 31) :
    ∃ m, 2 ^ m < n ∧ n ≤ 2 ^ (m + 1) ∧ setLinearHashMask n + 1 = 2 ^ (m + 1) := by
  obtain ⟨m, hle, hlt⟩ := exists_width hn.le
  cases m with
  | zero => omega
  | succ m =>
    rw [setLinearHashMask_eq hle hlt hmax, Nat.sub_add_cancel Nat.one_le_two_pow]
    exact ⟨m, by omega, hle, rfl⟩

/-- The old partition of a row that moves when there are no longer `r` partitions, but `n`. -/
lemma moved (hlt : 2 ^ m < n) (hle : n ≤ 2 ^ (m + 1)) (hmax : n ≤ 2 ^ 31) (hrn : r < n)
    (hfew : n < r + 2 ^ m) (hmany : 2 ^ m ≤ 2 * r) (hne : linearPartId n h ≠ linearPartId r h) :
    (linearPartId r h + 2 ^ m < n ∧ (2 ^ m ≤ r -> r ≤ linearPartId r h + 2 ^ m)) ∨
      (r < 2 ^ m ∧ r ≤ linearPartId r h + 2 ^ (m - 1) ∧ linearPartId r h < 2 ^ (m - 1)) := by
  have hdouble := mod_double h.toNat m
  rw [linearPartId_eq hle (by omega) hmax] at hne
  by_cases hkeep : 2 ^ m < r
  · rw [linearPartId_eq (show r ≤ 2 ^ (m + 1) by omega) (by omega) (by omega)] at hne ⊢
    rw [Nat.add_sub_cancel] at hne ⊢
    split_ifs at hne ⊢ <;> omega
  cases m with
  | zero =>
    split_ifs at hne ⊢ <;> omega
  | succ m =>
    have hdouble' := mod_double h.toNat m
    rw [Nat.add_sub_cancel]
    by_cases hhalf : 2 ^ (m + 1) < 2 * r
    · rw [linearPartId_eq (not_lt.mp hkeep) hhalf (by omega), Nat.add_sub_cancel] at hne ⊢
      split_ifs at hne ⊢ <;> omega
    · rw [linearPartId_eq (show r ≤ 2 ^ m by omega) (by omega) (by omega)] at hne ⊢
      split_ifs at hne ⊢ <;> omega

end Placement

/-- If partitions are added, only rows of partitions that are marked move. -/
theorem marks_moved {n k : Nat} (hn : 1 ≤ n) (hk : 1 ≤ k) (hmax : n + k ≤ 2 ^ 31) (h : UInt64) :
    linearPartId n h < n ∧ linearPartId (n + k) h < n + k ∧
      (linearPartId (n + k) h ≠ linearPartId n h ->
        marks (addPartition n k) (linearPartId n h) = true) := by
  refine ⟨linearPartId_lt hn (by omega), linearPartId_lt (by omega) hmax, fun hne => ?_⟩
  rcases hn.eq_or_lt with rfl | hn
  · rw [addPartition, if_neg (by change ¬ k < 1; omega)]
    rfl
  obtain ⟨m, hlt, hle, hupper⟩ := exists_lower hn (by omega)
  simp only [addPartition, hupper, half_two_pow]
  by_cases hall : k < 2 ^ (m + 1)
  · rw [if_pos hall]
    by_cases htotal : n + k ≤ 2 ^ (m + 1)
    · have hmoved := moved (by omega) htotal hmax (by omega) (by omega) (by omega) hne
      rw [if_neg (by omega), if_pos htotal, marks_one, uintSub_eq hlt.le (by omega),
        uintSub_eq hk (by omega)]
      omega
    · have hmoved := moved (not_le.mp htotal) (by omega) hmax (by omega) (by omega) (by omega) hne
      have hend := @uintSub_eq (n + k) (2 ^ (m + 1) + 1) (by omega) (by omega)
      rw [Nat.add_sub_cancel] at hmoved
      split_ifs
      · rw [marks_one, uintSub_eq (by omega) (by omega)]
        omega
      · rw [marks_two, uintSub_eq hlt.le (by omega), uintSub_eq (by omega) (by omega)]
        omega
  · rw [if_neg hall]
    rfl

theorem marks_moved_six : linearPartId 9 8 ≠ linearPartId 6 8 ∧
    marks (addPartition 6 3) (linearPartId 6 8) = true :=
  ⟨by decide, (marks_moved (by decide) (by decide) (by decide) 8).2.2 (by decide)⟩

/-- The partitions that take rows of a dropped one are marked, unless fewer than half of `lower_2n`
partitions remain and fewer than `lower_2n` are dropped. -/
theorem marks_receiving_iff {n k : Nat} (hk : 1 ≤ k) (hkn : k < n) (hmax : n ≤ 2 ^ 31) :
    (∀ h, n - k ≤ linearPartId n h ->
      marks (coalescePartition n k) (linearPartId (n - k) h) = true) ↔
    (setLinearHashMask n + 1) >>> 1 ≤ k ∨ (setLinearHashMask n + 1) >>> 1 ≤ 2 * (n - k) := by
  obtain ⟨m, hlt, hle, hupper⟩ := exists_lower (by omega) hmax
  have hpos := Nat.two_pow_pos m
  simp only [coalescePartition, hupper, half_two_pow, uintSub_eq hkn.le (by omega : n < 2 ^ 32)]
  constructor
  · intro hmarks
    by_contra hfew
    obtain ⟨w, hw, hw'⟩ := exists_width (show 1 ≤ n - k by omega)
    have hwm : w + 1 ≤ m := (Nat.pow_lt_pow_iff_right one_lt_two).mp (by omega : 2 ^ w < 2 ^ m)
    have hwpow := Nat.pow_le_pow_right two_pos hwm
    have htoNat : (UInt64.ofNat (2 ^ w + (n - k - 1))).toNat = 2 ^ w + (n - k - 1) :=
      UInt64.toNat_ofNat_of_lt' (by change _ < 2 ^ 64; omega)
    have hmarks := hmarks (.ofNat (2 ^ w + (n - k - 1)))
    rw [linearPartId_eq hle (by omega) hmax, linearPartId_eq hw hw' (by omega), htoNat,
      Nat.mod_eq_of_lt (by omega : 2 ^ w + (n - k - 1) < 2 ^ (m + 1)), Nat.add_mod_left,
      Nat.mod_eq_of_lt (by omega : n - k - 1 < 2 ^ w), if_neg (by omega), if_neg (by omega),
      if_neg (by omega), marks_two, uintSub_eq hlt (by omega)] at hmarks
    cases m with
    | zero => omega
    | succ m =>
      rw [half_two_pow, startSecPart_eq (by omega) (by omega)] at hmarks
      split_ifs at hmarks <;> omega
  · intro hmany h hdropped
    by_cases hall : 2 ^ m ≤ k
    · rw [if_pos hall]
      rfl
    have hne : linearPartId n h ≠ linearPartId (n - k) h :=
      (Nat.lt_of_lt_of_le (linearPartId_lt (by omega) (by omega)) hdropped).ne'
    have hmoved := moved hlt hle hmax (by omega) (by omega) (by omega) hne
    split_ifs with hkeep
    · rw [marks_one, uintSub_eq hkeep (by omega), uintSub_eq (by omega) (by omega)]
      omega
    cases m with
    | zero => omega
    | succ m =>
      rw [Nat.add_sub_cancel] at hmoved
      rw [marks_two, half_two_pow, startSecPart_eq (by omega) (by omega), uintSub_eq hlt (by omega),
        uintSub_eq Nat.one_le_two_pow (by omega)]
      split_ifs <;> omega

theorem marks_receiving_iff_six :
    5 ≤ linearPartId 6 5 ∧ marks (coalescePartition 6 1) (linearPartId 5 5) = true :=
  ⟨by decide, (marks_receiving_iff (by decide) (by decide) (by decide)).mpr (by decide) 5 (by decide)⟩

theorem not_marks_receiving :
    2 ≤ linearPartId 9 3 ∧ marks (coalescePartition 9 7) (linearPartId 2 3) = false := by
  decide

end Sql
