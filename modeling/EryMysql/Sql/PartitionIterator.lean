import EryMysql.Lib.BinarySearch
import Mathlib.Data.List.Basic

/-!
# Partition iterators

`PARTITION_ITERATOR` of sql/partition_info.h as the pruning of RANGE and LIST partitions sets it
up: a part of the array of the partitions (or of the list constants) and whether the partition of
the NULL values comes after it.
-/

namespace Sql

inductive PartitionType
  | range
  | list
  deriving DecidableEq, Repr

/-- `stop` is the field `end` of `part_nums`. -/
structure PartitionIterator where
  start : Nat
  cur : Nat
  stop : Nat
  retNullPart : Bool
  retNullPartOrig : Bool
  deriving DecidableEq, Repr

/-- The next partition, and the iterator after it. `none` is `NOT_A_PARTITION_ID`, which leaves the
iterator as it was set up. -/
def getNextPartitionId (idAt : Nat -> Nat) (nullPart : Nat) (it : PartitionIterator) :
    Option Nat × PartitionIterator :=
  if it.stop ≤ it.cur then
    if it.retNullPart then (some nullPart, { it with retNullPart := false })
    else (none, { it with cur := it.start, retNullPart := it.retNullPartOrig })
  else (some (idAt it.cur), { it with cur := it.cur + 1 })

/-- NULL is always in the first RANGE partition. -/
def getNextPartitionIdRange : PartitionIterator -> Option Nat × PartitionIterator :=
  getNextPartitionId (fun i => i) 0

def getNextPartitionIdList (partitionId : Nat -> Nat) (hasNullPartId : Nat) :
    PartitionIterator -> Option Nat × PartitionIterator :=
  getNextPartitionId partitionId hasNullPartId

/-- What the iterator returns before it says that there are no more partitions. -/
def PartitionIterator.drain (next : PartitionIterator -> Option Nat × PartitionIterator) :
    Nat -> PartitionIterator -> List Nat
  | 0, _ => []
  | fuel + 1, it =>
    match next it with
    | (none, _) => []
    | (some p, it') => p :: drain next fuel it'

/-- Enough calls for every partition, the one of the NULL values and the end. -/
def PartitionIterator.calls (it : PartitionIterator) : Nat :=
  it.stop - it.cur + it.retNullPart.toNat + 1

lemma mem_drain {idAt : Nat -> Nat} {nullPart p : Nat} {it : PartitionIterator}
    (hfuel : it.calls ≤ fuel) :
    p ∈ it.drain (getNextPartitionId idAt nullPart) fuel ↔
      (∃ i, it.cur ≤ i ∧ i < it.stop ∧ p = idAt i) ∨ (it.retNullPart = true ∧ p = nullPart) := by
  induction fuel generalizing it with
  | zero => exact absurd hfuel (by simp only [PartitionIterator.calls]; omega)
  | succ fuel ih =>
    simp only [PartitionIterator.calls] at hfuel ih
    rw [PartitionIterator.drain]
    by_cases hend : it.stop ≤ it.cur
    · have hnone : ¬ ∃ i, it.cur ≤ i ∧ i < it.stop ∧ p = idAt i := by
        omega
      cases hnull : it.retNullPart with
      | false =>
        simp only [getNextPartitionId, if_pos hend, hnull, Bool.false_eq_true, if_false,
          List.not_mem_nil, false_iff, false_and, or_false]
        exact hnone
      | true =>
        have hlast : p ∉ PartitionIterator.drain (getNextPartitionId idAt nullPart) fuel
            { it with retNullPart := false } := by
          rw [ih (by rw [hnull, Bool.toNat_true] at hfuel; rw [Bool.toNat_false]; dsimp only; omega)]
          rintro (h | ⟨h, -⟩)
          · exact hnone h
          · cases h
        simp [getNextPartitionId, if_pos hend, hnull, hlast, hnone]
    · simp only [getNextPartitionId, if_neg hend, List.mem_cons]
      rw [ih (by dsimp only; omega), ← or_assoc]
      refine or_congr ?_ Iff.rfl
      constructor
      · rintro (rfl | ⟨i, h1, h2, hp⟩)
        · exact ⟨it.cur, Nat.le_refl _, by omega, rfl⟩
        · exact ⟨i, by dsimp only at h1; omega, h2, hp⟩
      · rintro ⟨i, h1, h2, hp⟩
        rcases Nat.eq_or_lt_of_le h1 with rfl | h1
        · exact Or.inl hp
        · exact Or.inr ⟨i, h1, h2, hp⟩

end Sql
