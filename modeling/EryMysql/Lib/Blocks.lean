import Mathlib.Algebra.Order.BigOperators.Group.Finset

/-!
# Consecutive blocks

Blocks of given lengths stand one after the other. A place is given by a block and a position in
it that starts at one, and it is numbered through. The numbering follows the lexicographic order
of the places, so it is injective.
-/

namespace Blocks

open Finset

/-- How many places there are before a block. -/
def start (length : Nat -> Nat) (block : Nat) : Nat := ∑ b ∈ Finset.range block, length b

variable {length : Nat -> Nat} {block block' offset offset' : Nat}

@[simp] lemma start_zero : start length 0 = 0 := rfl

lemma start_succ (block : Nat) : start length (block + 1) = start length block + length block :=
  sum_range_succ _ _

lemma start_le (length : Nat -> Nat) (h : block ≤ block') : start length block ≤ start length block' :=
  sum_le_sum_of_subset (range_subset_range.mpr h)

lemma add_lt_of_block_lt (hblock : block < block') (hoffset : offset ≤ length block)
    (hpos : 0 < offset') : start length block + offset < start length block' + offset' := by
  have hle := start_le length (Nat.succ_le_of_lt hblock)
  rw [start_succ] at hle
  omega

end Blocks
