import Mathlib.Data.Int.ModEq
import Mathlib.Data.Nat.Bitwise
import EryMysql.Lib.WordArray

/-!
# Big-endian byte strings

An integer is stored as its low `n` bytes in two's complement, most significant
byte first. Storing is a function of the residue modulo `256 ^ n`, so stores of
neighbouring fields join into the store of one number, and comparing the bytes
from the left compares the numbers.
-/

namespace Bytes

open WordArray List Int

/-- The low `n` bytes of `x`, most significant first. -/
def store : Nat -> Int -> List Nat
  | 0, _ => []
  | n + 1, x => (x / 256 ^ n % 256).toNat :: store n x

def toUnsigned : List Nat -> Int
  | [] => 0
  | b :: l => b * 256 ^ l.length + toUnsigned l

def toSigned (l : List Nat) : Int :=
  if 256 ^ l.length ≤ 2 * toUnsigned l then toUnsigned l - 256 ^ l.length else toUnsigned l

def memcmp : List Nat -> List Nat -> Ordering
  | a :: l, b :: m => (compare a b).then (memcmp l m)
  | _, _ => .eq

/-- `p[0] ^= 0x80` -/
def flipTop : List Nat -> List Nat
  | [] => []
  | b :: l => (b ^^^ 0x80) :: l

variable (mask : Bool)

/-- `x ^ mask` for a mask of all ones or of zeros. -/
def xorMask (x : Int) : Int := if mask then -1 - x else x

/-- The low byte of such a mask. -/
def maskByte : Nat := if mask then 255 else 0

@[simp] lemma length_store (n : Nat) (x : Int) : (store n x).length = n := by
  induction n with
  | zero => rfl
  | succ n ih => simp [store, ih]

lemma store_add (m n : Nat) (x : Int) : store (m + n) x = store m (x / 256 ^ n) ++ store n x := by
  induction m with
  | zero => simp [store]
  | succ m ih =>
    have hdiv : x / 256 ^ (m + n) = x / 256 ^ n / 256 ^ m := by
      rw [ediv_ediv_of_nonneg (by positivity), ← pow_add, Nat.add_comm]
    rw [Nat.succ_add, store, store, ih, hdiv, cons_append]

variable {n : Nat} {x : Int}

lemma store_congr {x y : Int} (h : x ≡ y [ZMOD 256 ^ n]) : store n x = store n y := by
  induction n with
  | zero => rfl
  | succ n ih =>
    obtain ⟨c, hc⟩ := modEq_iff_dvd.mp h
    obtain rfl : y = x + 256 ^ n * (256 * c) := by
      rw [pow_succ] at hc
      linarith
    rw [store, store, add_mul_ediv_left _ _ (by positivity), add_mul_emod_self_left,
      ih (h.of_dvd (pow_dvd_pow 256 n.le_succ))]

lemma emod_pow_succ (n : Nat) (x : Int) :
    x % 256 ^ (n + 1) = x / 256 ^ n % 256 * 256 ^ n + x % 256 ^ n := by
  have hpow : (0 : Int) < 256 ^ n := by positivity
  have hlow0 := emod_nonneg x hpow.ne'
  have hlow := emod_lt_of_pos x hpow
  have hbyte0 : 0 ≤ x / 256 ^ n % 256 := emod_nonneg _ (by decide)
  have hbyte : x / 256 ^ n % 256 + 1 ≤ 256 := emod_lt_of_pos _ (by decide)
  have hsplit : x = x / 256 ^ n % 256 * 256 ^ n + x % 256 ^ n +
      256 ^ (n + 1) * (x / 256 ^ n / 256) := by
    have h1 := emod_add_mul_ediv x (256 ^ n)
    have h2 := emod_add_mul_ediv (x / 256 ^ n) 256
    rw [pow_succ]
    nlinarith
  have hmul := mul_le_mul_of_nonneg_right hbyte hpow.le
  rw [show x % 256 ^ (n + 1) = (x / 256 ^ n % 256 * 256 ^ n + x % 256 ^ n +
    256 ^ (n + 1) * (x / 256 ^ n / 256)) % 256 ^ (n + 1) by rw [← hsplit],
    add_mul_emod_self_left]
  apply emod_eq_of_lt
  · positivity
  · rw [pow_succ]
    linarith

lemma toUnsigned_store (n : Nat) (x : Int) : toUnsigned (store n x) = x % 256 ^ n := by
  induction n with
  | zero => simp [store, toUnsigned]
  | succ n ih =>
    have hbyte : 0 ≤ x / 256 ^ n % 256 := emod_nonneg _ (by decide)
    rw [store, toUnsigned, length_store, ih, toNat_of_nonneg hbyte, emod_pow_succ]

lemma toSigned_store (h0 : -256 ^ n ≤ 2 * x) (h1 : 2 * x < 256 ^ n) :
    toSigned (store n x) = x := by
  unfold toSigned
  rw [toUnsigned_store, length_store]
  rcases le_or_gt 0 x with hx | hx
  · rw [emod_eq_of_lt hx (by linarith), if_neg (by linarith)]
  · have hmod : x % 256 ^ n = x + 256 ^ n := by
      rw [← add_emod_right]
      exact emod_eq_of_lt (by linarith) (by linarith)
    rw [hmod, if_pos (by linarith), add_sub_cancel_right]

lemma memcmp_store_emod (n : Nat) (x y : Int) :
    memcmp (store n x) (store n y) = compare (x % 256 ^ n) (y % 256 ^ n) := by
  induction n with
  | zero => simp [store, memcmp]
  | succ n ih =>
    have hpow : (0 : Int) < 256 ^ n := by positivity
    have hx : 0 ≤ x / 256 ^ n % 256 := emod_nonneg _ (by decide)
    have hy : 0 ≤ y / 256 ^ n % 256 := emod_nonneg _ (by decide)
    have hbyte : compare (x / 256 ^ n % 256).toNat (y / 256 ^ n % 256).toNat =
        compare (x / 256 ^ n % 256) (y / 256 ^ n % 256) := by
      obtain ⟨a, ha⟩ := eq_ofNat_of_zero_le hx
      obtain ⟨b, hb⟩ := eq_ofNat_of_zero_le hy
      rw [ha, hb]
      simp [compare, compareOfLessAndEq]
    rw [store, store, memcmp, ih, hbyte, emod_pow_succ n x, emod_pow_succ n y,
      compare_mul_add (emod_nonneg _ hpow.ne') (emod_lt_of_pos _ hpow)
        (emod_nonneg _ hpow.ne') (emod_lt_of_pos _ hpow)]

lemma memcmp_store {x y : Int} (hx0 : 0 ≤ x) (hx : x < 256 ^ n) (hy0 : 0 ≤ y)
    (hy : y < 256 ^ n) : memcmp (store n x) (store n y) = compare x y := by
  rw [memcmp_store_emod, emod_eq_of_lt hx0 hx, emod_eq_of_lt hy0 hy]

lemma memcmp_self (l : List Nat) : memcmp l l = .eq := by
  induction l with
  | nil => rfl
  | cons b l ih => simp [memcmp, ih]

lemma xor_top_bit : ∀ b < 256, b ^^^ 0x80 = (b + 128) % 256 := by
  decide +kernel

lemma flipTop_store (n : Nat) (x : Int) :
    flipTop (store (n + 1) x) = store (n + 1) (x + 128 * 256 ^ n) := by
  have hlow : store n x = store n (x + 128 * 256 ^ n) := by
    apply store_congr
    rw [mul_comm]
    exact (modEq_add_fac_self).symm
  have htop : (x + 128 * 256 ^ n) / 256 ^ n = x / 256 ^ n + 128 :=
    add_mul_ediv_right _ _ (by positivity)
  rw [store, flipTop, xor_top_bit _ (by omega)]
  congr 1
  omega

lemma store_zero (n : Nat) : store n 0 = replicate n 0 := by
  induction n with
  | zero => rfl
  | succ n ih => simp [store, ih, replicate_succ]

lemma store_neg_one (n : Nat) : store n (-1) = replicate n 255 := by
  induction n with
  | zero => rfl
  | succ n ih =>
    have hpow : (0 : Int) < 256 ^ n := by positivity
    have hdiv : (-1 : Int) / 256 ^ n = -1 :=
      (ediv_eq_iff_of_pos hpow).mpr ⟨by linarith, by linarith⟩
    simp [store, ih, hdiv, replicate_succ]

lemma replicate_maskByte (n : Nat) : replicate n (maskByte mask) = store n (xorMask mask 0) := by
  cases mask
  · exact (store_zero n).symm
  · exact (store_neg_one n).symm

@[simp] lemma xorMask_xorMask (mask : Bool) (x : Int) : xorMask mask (xorMask mask x) = x := by
  cases mask <;> simp [xorMask]

lemma xorMask_neg_iff {mask : Bool} (h : 0 ≤ x) : xorMask mask x < 0 ↔ mask = true := by
  cases mask <;> simp [xorMask] <;> omega

lemma xorMask_bounds {c x : Int} (h0 : 0 ≤ x) (h1 : 2 * (x + 1) ≤ c) :
    -c ≤ 2 * xorMask mask x ∧ 2 * xorMask mask x < c := by
  cases mask <;> simp only [xorMask] <;> constructor <;> simp <;> linarith

lemma store_append (m n : Nat) (x : Int) {y : Int} (h0 : 0 ≤ y) (h1 : y < 256 ^ n) :
    store m (xorMask mask x) ++ store n (xorMask mask y) =
      store (m + n) (xorMask mask (x * 256 ^ n + y)) := by
  have hpow : (0 : Int) < 256 ^ n := by positivity
  have hhigh : xorMask mask (x * 256 ^ n + y) / 256 ^ n = xorMask mask x := by
    rw [ediv_eq_iff_of_pos hpow]
    cases mask <;> simp only [xorMask] <;> constructor <;> simp <;> linarith
  have hlow : xorMask mask y ≡ xorMask mask (x * 256 ^ n + y) [ZMOD 256 ^ n] := by
    rw [modEq_iff_dvd]
    cases mask
    · exact ⟨x, by simp [xorMask, mul_comm]⟩
    · exact ⟨-x, by simp [xorMask]; ring⟩
  rw [store_add, hhigh, store_congr hlow]

lemma and_top_bit : ∀ b < 256, b &&& 0x80 = 0 ↔ b < 128 := by
  decide +kernel

/-- With its top bit flipped a signed number tells its sign in the first byte. -/
lemma store_sign (h0 : -256 ^ (n + 1) ≤ 2 * x) (h1 : 2 * x < 256 ^ (n + 1)) :
    ∃ b, (store (n + 1) (x + 128 * 256 ^ n)).head? = some b ∧ (b &&& 0x80 = 0 ↔ x < 0) := by
  have hpow : (0 : Int) < 256 ^ n := by positivity
  have htop : (x + 128 * 256 ^ n) / 256 ^ n = x / 256 ^ n + 128 :=
    add_mul_ediv_right _ _ hpow.ne'
  have hlow : -128 ≤ x / 256 ^ n := by
    rw [Int.le_ediv_iff_mul_le hpow]
    rw [pow_succ] at h0
    linarith
  have hhigh : x / 256 ^ n < 128 := by
    rw [Int.ediv_lt_iff_lt_mul hpow]
    rw [pow_succ] at h1
    linarith
  have hneg : x / 256 ^ n < 0 ↔ x < 0 := by rw [Int.ediv_lt_iff_lt_mul hpow, zero_mul]
  refine ⟨_, rfl, ?_⟩
  rw [and_top_bit _ (by omega)]
  omega

lemma flipTop_flipped (n : Nat) (x : Int) :
    flipTop (store (n + 1) (x + 128 * 256 ^ n)) = store (n + 1) x := by
  rw [flipTop_store]
  apply store_congr
  rw [modEq_iff_dvd]
  exact ⟨-1, by ring⟩

end Bytes
