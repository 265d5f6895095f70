import EryMysql.Lib.Comparison
import EryMysql.Strings.LikeRange
import Mathlib.Algebra.Order.Ring.Int
import Mathlib.Data.List.DropRight
import Mathlib.Order.PiLex

/-!
# Comparing and hashing padded strings

strings/ctype-simple.c. A string stands for itself with spaces behind it, also where it is hashed.
Other bytes may have the weight of a space, and these are left out at the end of a string too.
-/

namespace Strings

open Comparison List

def myHashAdd (nr : UInt64 × UInt64) (value : UInt8) : UInt64 × UInt64 :=
  (nr.1 ^^^ (((nr.1 &&& (63 : UInt64)) + nr.2) * value.toUInt64 + (nr.1 <<< 8)), nr.2 + 3)

/-- The source compares four bytes at a time where it can. -/
def skipTrailingSpace (key : List UInt8) : List UInt8 := key.rdropWhile (· = space)

def myHashSortSimple (map : UInt8 -> UInt8) (key : List UInt8) (nr : UInt64 × UInt64) :
    UInt64 × UInt64 :=
  let key := if 16 < key.length then skipTrailingSpace key else key
  ((key.rdropWhile (map · = map space)).map map).foldl myHashAdd nr

/-- The weights of a string and of the spaces behind it, in lexicographic order. -/
def padded (map : UInt8 -> UInt8) (a : List UInt8) : Lex (Nat -> Nat) :=
  toLex fun i => (map (a[i]?.getD space)).toNat

lemma toLex_lt_iff {f g : Nat -> Nat} : toLex f < toLex g ↔
    f 0 < g 0 ∨ f 0 = g 0 ∧ toLex (fun i => f (i + 1)) < toLex fun i => g (i + 1) := by
  constructor
  · rintro ⟨i, hbefore, hlt⟩
    cases i with
    | zero => exact .inl hlt
    | succ i =>
      exact .inr ⟨hbefore 0 i.succ_pos, i, fun j hj => hbefore _ (Nat.succ_lt_succ hj), hlt⟩
  · rintro (hlt | ⟨heq, i, hbefore, hlt⟩)
    · exact ⟨0, fun j hj => absurd hj j.not_lt_zero, hlt⟩
    · refine ⟨i + 1, fun j hj => ?_, hlt⟩
      cases j with
      | zero => exact heq
      | succ j => exact hbefore j (Nat.lt_of_succ_lt_succ hj)

variable {map : UInt8 -> UInt8} {a b : List UInt8} {x y : UInt8}

lemma padded_nil : padded map [] = padded map [space] := by
  unfold padded
  funext i
  cases i <;> rfl

lemma padded_lt : padded map (x :: a) < padded map (y :: b) ↔
    map x < map y ∨ map x = map y ∧ padded map a < padded map b := by
  rw [padded, padded, toLex_lt_iff, ← UInt8.toNat_inj]
  rfl

lemma endSpace_neg (a : List UInt8) (swap : Int) :
    endSpace map (-swap) a = -endSpace map swap a := by
  induction a with
  | nil => rfl
  | cons x a ih =>
    simp only [endSpace, ih]
    split_ifs <;> simp

lemma endSpace_sign (a : List UInt8) :
    (endSpace map 1 a < 0 ↔ padded map a < padded map []) ∧
      (0 < endSpace map 1 a ↔ padded map [] < padded map a) := by
  induction a with
  | nil => exact ⟨iff_of_false (lt_irrefl _) (lt_irrefl _), iff_of_false (lt_irrefl _) (lt_irrefl _)⟩
  | cons x a ih =>
    rw [padded_nil, endSpace, padded_lt, padded_lt, ← ih.1, ← ih.2]
    split_ifs with hne hlt
    · simp [hlt, hne.symm, UInt8.lt_asymm hlt]
    · have hgt := UInt8.lt_of_le_of_ne (UInt8.not_lt.mp hlt) hne.symm
      simp [hlt, hgt, hne]
    · simp [not_not.mp hne]

lemma collate_swap (a b : List UInt8) :
    myStrnncollspSimple map b a = -myStrnncollspSimple map a b := by
  fun_induction myStrnncollspSimple map a b with
  | case1 x a y b hne =>
    rw [myStrnncollspSimple, if_pos hne.symm]
    omega
  | case2 x a y b heq ih => rw [myStrnncollspSimple_cons_of_eq (not_not.mp heq).symm, ih]
  | case3 a => rw [myStrnncollspSimple_nil_left, endSpace_neg]
  | case4 b => rw [myStrnncollspSimple_nil_right, endSpace_neg, neg_neg]

lemma collate_lt (a b : List UInt8) :
    myStrnncollspSimple map a b < 0 ↔ padded map a < padded map b := by
  fun_induction myStrnncollspSimple map a b with
  | case1 x a y b hne =>
    rw [padded_lt, UInt8.lt_iff_toNat_lt, or_iff_left fun heq => hne heq.1]
    omega
  | case2 x a y b heq ih => simp [ih, padded_lt, not_not.mp heq]
  | case3 a => exact (endSpace_sign a).1
  | case4 b =>
    rw [endSpace_neg, neg_lt_zero]
    exact (endSpace_sign b).2

lemma collate_preorders : Preorders (myStrnncollspSimple map) := by
  have hle (a b) : myStrnncollspSimple map a b ≤ 0 ↔ padded map a ≤ padded map b := by
    have h := @collate_lt map b a
    rw [collate_swap, neg_lt_zero] at h
    exact not_lt.symm.trans (h.not.trans not_lt)
  refine ⟨fun a b => ?_, fun a b c hab hbc => ?_⟩
  · rw [collate_swap b a, neg_lt_zero]
  · exact (hle a c).mpr (((hle a b).mp hab).trans ((hle b c).mp hbc))

def hashed (map : UInt8 -> UInt8) (key : List UInt8) : List UInt8 :=
  (key.rdropWhile (map · = map space)).map map

/-- The spaces that are skipped first are among the bytes with their weight. -/
lemma hashed_skipTrailingSpace (key : List UInt8) :
    hashed map (skipTrailingSpace key) = hashed map key := by
  induction key using reverseRecOn with
  | nil => rfl
  | append_singleton key x ih =>
    by_cases hx : x = space
    · rw [skipTrailingSpace, rdropWhile_concat_pos _ _ _ (by simpa using hx), hashed, hashed,
        rdropWhile_concat_pos _ _ _ (by simp [hx])]
      exact ih
    · rw [skipTrailingSpace, rdropWhile_concat_neg _ _ _ (by simpa using hx)]

lemma myHashSortSimple_eq (key : List UInt8) (nr : UInt64 × UInt64) :
    myHashSortSimple map key nr = (hashed map key).foldl myHashAdd nr := by
  rw [myHashSortSimple]
  split
  · rw [← hashed_skipTrailingSpace]
    rfl
  · rfl

lemma hashed_cons (x : UInt8) (a : List UInt8) : hashed map (x :: a) =
    if hashed map a = [] ∧ map x = map space then [] else map x :: hashed map a := by
  simp only [hashed, rdropWhile, reverse_cons, dropWhile_append]
  by_cases ha : a.reverse.dropWhile (map · = map space) = []
  · by_cases hx : map x = map space <;> simp [ha, hx]
  · simp [ha]

lemma hashed_of_endSpace (h : endSpace map 1 a = 0) : hashed map a = [] := by
  induction a with
  | nil => rfl
  | cons x a ih =>
    rw [endSpace] at h
    split at h
    · split at h <;> cases h
    case isFalse hx => rw [hashed_cons, if_pos ⟨ih h, not_not.mp hx⟩]

lemma hashed_of_collate (a b : List UInt8) (h : myStrnncollspSimple map a b = 0) :
    hashed map a = hashed map b := by
  fun_induction myStrnncollspSimple map a b with
  | case1 x a y b hne => exact absurd (UInt8.toNat_inj.mp (by omega)) hne
  | case2 x a y b heq ih => rw [hashed_cons, hashed_cons, ih h, not_not.mp heq]
  | case3 a => exact hashed_of_endSpace h
  | case4 b =>
    rw [endSpace_neg, neg_eq_zero] at h
    exact (hashed_of_endSpace h).symm

/-- The comparison is that of the padded strings, and equal strings have one hash. -/
theorem collation_hash_coherent (map : UInt8 -> UInt8) : Preorders (myStrnncollspSimple map) ∧
    (∀ a b, myStrnncollspSimple map a b < 0 ↔ padded map a < padded map b) ∧
    ∀ a b nr, myStrnncollspSimple map a b = 0 ->
      myHashSortSimple map a nr = myHashSortSimple map b nr := by
  refine ⟨collate_preorders, collate_lt, fun a b nr h => ?_⟩
  rw [myHashSortSimple_eq, myHashSortSimple_eq, hashed_of_collate a b h]

end Strings
