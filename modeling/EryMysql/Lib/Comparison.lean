import Mathlib.Order.Basic
import Mathlib.Tactic.Common

/-!
# Comparison functions

A C comparison of two keys is told by the sign of its value.
-/

namespace Comparison

variable {κ : Type}

/-- The comparison is a total preorder. -/
structure Preorders (cmp : κ -> κ -> Int) : Prop where
  swap : ∀ x y, cmp x y < 0 ↔ 0 < cmp y x
  trans : ∀ x y z, cmp x y ≤ 0 -> cmp y z ≤ 0 -> cmp x z ≤ 0

variable {cmp : κ -> κ -> Int} {x y z : κ} (hcmp : Preorders cmp)
include hcmp

lemma Preorders.le_of_not_lt (h : ¬ cmp x y < 0) : cmp y x ≤ 0 := by
  by_contra hpos
  exact h ((hcmp.swap x y).mpr (Int.not_le.mp hpos))

lemma Preorders.lt_of_lt_of_le (hxy : cmp x y < 0) (hyz : cmp y z ≤ 0) : cmp x z < 0 := by
  by_contra hxz
  have hyx := hcmp.trans y z x hyz (hcmp.le_of_not_lt hxz)
  have hpos := (hcmp.swap x y).mp hxy
  omega

lemma Preorders.lt_of_le_of_lt (hxy : cmp x y ≤ 0) (hyz : cmp y z < 0) : cmp x z < 0 := by
  by_contra hxz
  have hzy := hcmp.trans z x y (hcmp.le_of_not_lt hxz) hxy
  have hpos := (hcmp.swap y z).mp hyz
  omega

lemma Preorders.eq_zero_comm (hxy : cmp x y = 0) : cmp y x = 0 := by
  have h1 := hcmp.swap x y
  have h2 := hcmp.swap y x
  omega

lemma Preorders.eq_zero_trans (hxy : cmp x y = 0) (hyz : cmp y z = 0) : cmp x z = 0 := by
  have hxz := hcmp.trans x y z (Int.le_of_eq hxy) (Int.le_of_eq hyz)
  have hyx := Int.le_of_eq (hcmp.eq_zero_comm hxy)
  have hzx := hcmp.trans z y x (Int.le_of_eq (hcmp.eq_zero_comm hyz)) hyx
  have hswap := hcmp.swap x z
  omega

end Comparison
