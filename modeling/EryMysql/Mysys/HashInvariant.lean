import EryMysql.Lib.Partial
import EryMysql.Mysys.Hash
import Mathlib.Data.Finset.Card

/-!
# The invariant of HASH, and searching

The length of the array and the power of two behind it; where a record has its home when the
array grows or shrinks; and what the loops over a chain find.
-/

namespace Mysys

open Chains Finset Option Nat Hash
open List hiding range mem_range

/-- The `blength` for a number of records. -/
structure Sized (blength records : Nat) : Prop where
  pow : ∃ k, blength = 2 ^ k
  half_le : blength / 2 ≤ records
  lt : records < blength

section Mask
variable {b n : Nat}

lemma myHashMask_pow (hashnr k n : Nat) : myHashMask hashnr (2 ^ k) n =
    if hashnr % 2 ^ k < n then hashnr % 2 ^ k else hashnr % 2 ^ (k - 1) := by
  have hhalf : (2 ^ k >>> 1) - 1 = 2 ^ (k - 1) - 1 := by
    cases k with
    | zero => rfl
    | succ k => rw [Nat.shiftRight_eq_div_pow, Nat.pow_succ, Nat.mul_div_cancel _ Nat.two_pos,
        Nat.add_sub_cancel]
  rw [myHashMask, hhalf, and_two_pow_sub_one_eq_mod, and_two_pow_sub_one_eq_mod]

/-- The lower half of the array, of a hash number and the next bit of it. -/
lemma Sized.halves (h : Sized b n) (hn : 0 < n) : ∃ c, b = 2 * c ∧ c ≤ n ∧ n < 2 * c ∧
    b >>> 1 = c ∧ ∀ hashnr, ∃ x bit, x < c ∧ (bit = 0 ∨ bit = c) ∧ (hashnr &&& c ≠ 0 ↔ bit = c) ∧
      ∀ m, myHashMask hashnr b m = if x + bit < m then x + bit else x := by
  obtain ⟨⟨k, rfl⟩, hhalf, hlt⟩ := h
  obtain ⟨j, rfl⟩ : ∃ j, k = j + 1 := by
    cases k with
    | zero => exact absurd hlt (by omega)
    | succ j => exact ⟨j, rfl⟩
  have hb : 2 ^ (j + 1) = 2 * 2 ^ j := by rw [pow_succ, mul_comm]
  have hshift : 2 ^ (j + 1) >>> 1 = 2 ^ j := by
    rw [Nat.shiftRight_eq_div_pow, hb, Nat.mul_div_cancel_left _ Nat.two_pos]
  have hpos := Nat.two_pow_pos j
  refine ⟨2 ^ j, hb, by omega, by omega, hshift, fun hashnr => ?_⟩
  have hbit : hashnr / 2 ^ j % 2 = 0 ∨ hashnr / 2 ^ j % 2 = 1 := by omega
  refine ⟨hashnr % 2 ^ j, 2 ^ j * (hashnr / 2 ^ j % 2), mod_lt _ hpos, ?_, ?_, fun m => ?_⟩
  · rcases hbit with hbit | hbit
    · simp [hbit]
    · simp [hbit]
  · rw [and_two_pow, testBit_eq_decide_div_mod_eq]
    rcases hbit with hbit | hbit
    · simp
    · simp
  · rw [myHashMask_pow, hb, Nat.mul_comm 2, Nat.mod_mul, Nat.add_sub_cancel]

lemma Sized.mask_lt (h : Sized b n) (hn : 0 < n) (hashnr : Nat) : myHashMask hashnr b n < n := by
  obtain ⟨c, rfl, hc, -, -, hmask⟩ := h.halves hn
  obtain ⟨x, bit, hx, -, -, heq⟩ := hmask hashnr
  rw [heq]
  split
  · assumption
  · omega

/-- When the array grows, the records of one home with the next bit set go to the new home. -/
lemma Sized.mask_succ (h : Sized b n) (hn : 0 < n) (hashnr : Nat) : myHashMask hashnr b (n + 1) =
      if myHashMask hashnr b n = n - (b >>> 1) ∧ hashnr &&& (b >>> 1) ≠ 0 then n
      else myHashMask hashnr b n := by
  obtain ⟨c, rfl, hc, hlt, hshift, hmask⟩ := h.halves hn
  obtain ⟨x, bit, hx, hbit, hand, heq⟩ := hmask hashnr
  grind

lemma myHashMask_double (hashnr k : Nat) :
    myHashMask hashnr (2 ^ k + 2 ^ k) (2 ^ k) = myHashMask hashnr (2 ^ k) (2 ^ k) := by
  have hpos := Nat.two_pow_pos k
  have hmod : hashnr % 2 ^ (k + 1) = hashnr % 2 ^ k + 2 ^ k * (hashnr / 2 ^ k % 2) := mod_mul
  have hlt := mod_lt hashnr hpos
  rw [← two_mul, ← pow_succ', myHashMask_pow, myHashMask_pow, if_pos hlt, hmod,
    succ_sub_one]
  rcases mod_two_eq_zero_or_one (hashnr / 2 ^ k) with hbit | hbit
  · rw [hbit, mul_zero, add_zero, if_pos hlt]
  · rw [hbit, if_neg (by omega)]

lemma Sized.succ (h : Sized b n) : Sized (if n + 1 = b then b + b else b) (n + 1) ∧
    ∀ hashnr, myHashMask hashnr (if n + 1 = b then b + b else b) (n + 1) =
      myHashMask hashnr b (n + 1) := by
  obtain ⟨⟨k, rfl⟩, hhalf, hlt⟩ := h
  split
  · rename_i heq
    refine ⟨⟨⟨k + 1, by omega⟩, by omega, by omega⟩, fun hashnr => ?_⟩
    rw [heq]
    exact myHashMask_double hashnr k
  · exact ⟨⟨⟨k, rfl⟩, by omega, by omega⟩, fun _ => rfl⟩

lemma Sized.pred (h : Sized b (n + 1)) : Sized (if n < b >>> 1 then b >>> 1 else b) n ∧
    ∀ hashnr, myHashMask hashnr b (n + 1) =
      myHashMask hashnr (if n < b >>> 1 then b >>> 1 else b) (n + 1) := by
  obtain ⟨c, rfl, hc, hlt, hshift, -⟩ := h.halves (succ_pos n)
  obtain ⟨k, hk⟩ := h.pow
  obtain ⟨j, rfl⟩ : ∃ j, c = 2 ^ j := by
    cases k with
    | zero => exact absurd hk (by omega)
    | succ k => exact ⟨k, by omega⟩
  rw [hshift]
  split
  · rename_i hn
    have heq : n + 1 = 2 ^ j := by omega
    refine ⟨⟨⟨j, rfl⟩, by omega, hn⟩, fun hashnr => ?_⟩
    rw [heq, two_mul]
    exact myHashMask_double hashnr j
  · exact ⟨⟨⟨k, hk⟩, by omega, by omega⟩, fun _ => rfl⟩

/-- When the array shrinks, the records of the last home go to one other home. -/
lemma Sized.mask_pred (h : Sized b n) (hn : 0 < n) (hashnr : Nat) : myHashMask hashnr b n =
    if myHashMask hashnr b (n + 1) = n then n - (b >>> 1) else myHashMask hashnr b (n + 1) := by
  have hlt := h.mask_lt hn hashnr
  rw [h.mask_succ hn]
  grind

end Mask

variable {α κ : Type}

def Hash.home (hash : Hash α κ) (record : α) : Nat :=
  myHashMask (hash.recHashnr record) hash.blength hash.records

/-- The chains are laid out in the array, which has the right length. -/
structure Hash.Inv (hash : Hash α κ) (C : Nat -> List Nat) : Prop where
  sized : Sized hash.blength hash.records
  laid : Laid hash.array hash.home (range hash.records) C

def Hash.stored (hash : Hash α κ) : Multiset α := contents hash.array (range hash.records)

section Chain
variable {d : Nat -> Link α} {home : α -> Nat} {n : Nat} {S : Finset Nat} {C : Nat -> List Nat}

lemma length_chain_le (h : Laid d home S C) (hS : S ⊆ range n) (k : Nat) : (C k).length ≤ n := by
  have hsub : (C k).toFinset ⊆ range n := by
    intro p hp
    exact hS (h.mem_S (mem_toFinset.mp hp))
  have hcard := card_le_card hsub
  rwa [toFinset_card_of_nodup (h.nodup k), card_range] at hcard

lemma chain_eq_cons (h : Laid d home S C) {k : Nat} (hk : k ∈ S) (hhome : home (d k).data = k) :
    ∃ l, C k = k :: l ∧ Seg d (d k).next l none := by
  have hmem := (h.mem k k).mpr ⟨hk, hhome⟩
  have hlinked := h.linked k (ne_nil_of_mem hmem)
  cases hC : C k with
  | nil =>
    rw [hC] at hmem
    cases hmem
  | cons q l =>
    rw [hC] at hlinked
    cases hlinked.1
    exact ⟨l, rfl, hlinked.2⟩

lemma chain_eq_append (h : Laid d home S C) {p : Nat} (hp : p ∈ S)
    (hhome : home (d p).data ≠ p) : ∃ l1 g l2, C (home (d p).data) = l1 ++ g :: p :: l2 ∧
      Seg d (some (home (d p).data)) (l1 ++ [g]) (some p) := by
  have hmem := (h.mem _ p).mpr ⟨hp, rfl⟩
  have hlinked := h.linked _ (ne_nil_of_mem hmem)
  obtain ⟨l1, l2, heq, hl1, -⟩ := hlinked.split hmem
  rcases eq_nil_or_concat l1 with rfl | ⟨l0, g, rfl⟩
  · exact absurd (some_injective _ hl1) hhome
  · refine ⟨l0, g, l2, ?_, ?_⟩
    · rw [heq, concat_eq_append, append_assoc, singleton_append]
    · rwa [concat_eq_append] at hl1

end Chain

section Search
variable [DecidableEq κ] {hash : Hash α κ} {C : Nat -> List Nat} {key : κ} {l : List Nat}
  {p fuel : Nat} {s : Option Nat}

lemma nextLoop_eq {fuel : Nat} (h : Seg hash.array s l none)
    (hfuel : l.length ≤ fuel) : hash.nextLoop key fuel s =
      some (l.find? fun p => hash.getKey (hash.array p).data = key) := by
  induction l generalizing s fuel with
  | nil =>
    rw [h]
    cases fuel with
    | zero => rfl
    | succ fuel => rfl
  | cons p l ih =>
    obtain ⟨rfl, hl⟩ := h
    obtain ⟨fuel, rfl⟩ : ∃ f, fuel = f + 1 := ⟨fuel - 1, by simp at hfuel; omega⟩
    rw [nextLoop, find?_cons]
    by_cases hkey : hash.getKey (hash.array p).data = key
    · rw [if_pos hkey, decide_eq_true hkey]
    · rw [if_neg hkey, decide_eq_false hkey]
      exact ih hl (by simpa using hfuel)

lemma firstLoop_false_eq (h : Seg hash.array (some p) l none)
    (hfuel : l.length ≤ fuel) : hash.firstLoop key fuel false p =
      some (l.find? fun p => hash.getKey (hash.array p).data = key) := by
  refine Seg.walk (fun fuel q hnext => ?_) (fun fuel q next l hnext ih => ?_) h hfuel
  · by_cases hkey : hash.getKey (hash.array q).data = key <;> simp [firstLoop, hkey, hnext]
  · by_cases hkey : hash.getKey (hash.array q).data = key <;>
      simp [firstLoop, hkey, hnext, ih]

lemma firstLoop_true_eq (h : Seg hash.array (some p) l none)
    (hfuel : l.length ≤ fuel) (hp : hash.getKey (hash.array p).data = key ∨
      hash.myHashRecMask (hash.array p) hash.blength hash.records = p) :
    hash.firstLoop key fuel true p =
      some (l.find? fun p => hash.getKey (hash.array p).data = key) := by
  rw [← firstLoop_false_eq h hfuel]
  cases fuel with
  | zero => rfl
  | succ fuel =>
    rw [firstLoop, firstLoop]
    by_cases hkey : hash.getKey (hash.array p).data = key
    · simp [hkey]
    · simp [hp.resolve_left hkey]

lemma firstLoop_true_none (hfuel : 0 < fuel)
    (hkey : hash.getKey (hash.array p).data ≠ key)
    (hp : hash.myHashRecMask (hash.array p) hash.blength hash.records ≠ p) :
    hash.firstLoop key fuel true p = some none := by
  obtain ⟨fuel, rfl⟩ : ∃ f, fuel = f + 1 := ⟨fuel - 1, by omega⟩
  simp [firstLoop, hkey, hp]

/-- `my_hash_first` finds the first record with the key in the chain of the key's home. -/
lemma Hash.Inv.myHashFirst_eq (h : hash.Inv C) (key : κ) : hash.myHashFirst key =
    some ((C (myHashMask (hash.hashFunction key) hash.blength hash.records)).find?
      fun p => hash.getKey (hash.array p).data = key) := by
  unfold myHashFirst myHashFirstFromHashValue
  generalize hk : myHashMask (hash.hashFunction key) hash.blength hash.records = k
  split
  · rename_i hzero
    have hC : C k = [] := h.laid.nil_of_not_home fun hin => by simp [hzero] at hin
    rw [hC]
    rfl
  · have hkS : k ∈ range hash.records := mem_range.mpr (hk ▸ h.sized.mask_lt (by omega) _)
    by_cases hhome : hash.home (hash.array k).data = k
    · have hmem := (h.laid.mem k k).mpr ⟨hkS, hhome⟩
      exact firstLoop_true_eq (h.laid.linked k (ne_nil_of_mem hmem))
        (length_chain_le h.laid le_rfl k) (Or.inr hhome)
    · rw [h.laid.nil_of_not_home fun _ => hhome]
      refine firstLoop_true_none (by omega) (fun hkey => hhome ?_) hhome
      rw [home, recHashnr, hkey, hk]

lemma followNext_eq {fuel : Nat} (h : Seg hash.array s l none)
    (hlen : l.length ≤ hash.records)
    (hfuel : (l.filter fun p => hash.getKey (hash.array p).data = key).length ≤ fuel) :
    hash.followNext key fuel (l.find? fun p => hash.getKey (hash.array p).data = key) =
      some ((l.filter fun p => hash.getKey (hash.array p).data = key).map
        fun p => (hash.array p).data) := by
  induction fuel generalizing s l with
  | zero =>
    have hnil := eq_nil_of_length_eq_zero (le_zero.mp hfuel)
    rw [find?_eq_none.mpr (filter_eq_nil_iff.mp hnil), hnil]
    rfl
  | succ fuel ih =>
    cases hfind : l.find? fun p => hash.getKey (hash.array p).data = key with
    | none =>
      rw [filter_eq_nil_iff.mpr (find?_eq_none.mp hfind)]
      rfl
    | some p =>
      obtain ⟨hp, l1, l2, rfl, hl1⟩ := find?_eq_some_iff_append.mp hfind
      have hfilter1 : l1.filter (fun p => hash.getKey (hash.array p).data = key) = [] :=
        filter_eq_nil_iff.mpr fun q hq => by simpa using hl1 q hq
      have hfilter : (p :: l2).filter (fun p => hash.getKey (hash.array p).data = key) =
          p :: l2.filter fun p => hash.getKey (hash.array p).data = key :=
        filter_cons_of_pos hp
      rw [filter_append, hfilter1, hfilter] at hfuel ⊢
      obtain ⟨m, -, -, hl2⟩ := (seg_append l1 (p :: l2)).mp h
      have hlen2 : l2.length ≤ hash.records := by
        simp only [length_append, length_cons] at hlen
        omega
      rw [followNext, myHashNext, nextLoop_eq hl2 hlen2]
      simp only [some_bind]
      rw [ih hl2 hlen2 (by simpa using hfuel)]
      rfl

lemma Hash.Inv.filter_chain (h : hash.Inv C) (key : κ) :
    (((C (myHashMask (hash.hashFunction key) hash.blength hash.records)).filter
      fun p => hash.getKey (hash.array p).data = key).map fun p => (hash.array p).data :
        Multiset α) = hash.stored.filter fun r => hash.getKey r = key := by
  rw [stored, contents, Multiset.filter_map, ← Multiset.map_coe]
  congr 1
  refine Multiset.Nodup.ext ?_ ?_ |>.mpr fun p => ?_
  · exact Multiset.coe_nodup.mpr ((h.laid.nodup _).filter _)
  · exact (nodup _).filter _
  · rw [Multiset.mem_coe, mem_filter, h.laid.mem, Multiset.mem_filter]
    simp only [decide_eq_true_eq]
    constructor
    · rintro ⟨⟨hp, -⟩, hkey⟩
      exact ⟨hp, hkey⟩
    · rintro ⟨hp, hkey⟩
      refine ⟨⟨hp, ?_⟩, hkey⟩
      rw [home, recHashnr, hkey]

/-- `my_hash_first` and `my_hash_next` visit all records with the key once. -/
lemma Hash.Inv.enumerate_eq (h : hash.Inv C) (key : κ) : ∃ l, hash.enumerate key = some l ∧
    (l : Multiset α) = hash.stored.filter fun r => hash.getKey r = key := by
  refine ⟨_, ?_, h.filter_chain key⟩
  unfold enumerate
  rw [h.myHashFirst_eq]
  generalize hk : myHashMask (hash.hashFunction key) hash.blength hash.records = k
  have hlen := length_chain_le h.laid le_rfl k
  obtain ⟨s, hs⟩ := h.laid.seg k
  exact followNext_eq hs hlen ((length_filter_le _ _).trans hlen)

lemma Hash.Inv.myHashSearch_eq (h : hash.Inv C) (key : κ) :
    ∃ found, hash.myHashSearch key = some found ∧
      (∀ r, found = some r -> r ∈ hash.stored ∧ hash.getKey r = key) ∧
      (found = none -> ∀ r ∈ hash.stored, hash.getKey r ≠ key) := by
  have hfilter := h.filter_chain key
  unfold myHashSearch
  rw [h.myHashFirst_eq]
  refine ⟨_, rfl, ?_, ?_⟩
  · intro r hr
    obtain ⟨p, hp, rfl⟩ := map_eq_some_iff.mp hr
    have hkey := find?_some hp
    have hpS := h.laid.mem_S (mem_of_find?_eq_some hp)
    exact ⟨Multiset.mem_map_of_mem _ (mem_val.mpr hpS), by simpa using hkey⟩
  · intro hnone r hr hkey
    have hfind := find?_eq_none.mp (map_eq_none_iff.mp hnone)
    rw [filter_eq_nil_iff.mpr hfind] at hfilter
    have hmem : r ∈ hash.stored.filter fun r => hash.getKey r = key :=
      Multiset.mem_filter.mpr ⟨hr, hkey⟩
    rw [← hfilter] at hmem
    exact Multiset.notMem_zero r hmem

end Search

end Mysys
