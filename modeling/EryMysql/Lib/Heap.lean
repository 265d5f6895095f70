import Mathlib.Order.Interval.Finset.Nat

/-!
# Heaps in an array that starts at one

The children of place `k` are the places `2 * k` and `2 * k + 1`. Sifting moves a hole
through the array; an element is put into it in the end. The order of the pairs that do not
touch the hole, together with the order across it, is kept by every move up or down, and the
element fits when it fits its two neighbours.

Which pairs are ordered at all is a parameter: a pair goes by the place of its child. So a
heap can be built from its end, or have one pair that is out of order.
-/

namespace Heap

open Function Finset

variable {α : Type*} {le : α -> α -> Prop} {E : Nat -> Prop} {n k : Nat} {a : Nat -> α} {x : α}

/-- The parents in the pairs `E` are not after their children. -/
def OrderedOn (le : α -> α -> Prop) (E : Nat -> Prop) (n : Nat) (a : Nat -> α) : Prop :=
  ∀ i, 2 ≤ i -> i ≤ n -> E i -> le (a (i / 2)) (a i)

def Ordered (le : α -> α -> Prop) (n : Nat) (a : Nat -> α) : Prop :=
  ∀ i, 2 ≤ i -> i ≤ n -> le (a (i / 2)) (a i)

/-- The pairs away from the hole are ordered, and so are the neighbours across it. -/
structure Hole (le : α -> α -> Prop) (E : Nat -> Prop) (n : Nat) (a : Nat -> α) (k : Nat) : Prop where
  away : ∀ i, 2 ≤ i -> i ≤ n -> E i -> i ≠ k -> i / 2 ≠ k -> le (a (i / 2)) (a i)
  across : ∀ i, i ≤ n -> i / 2 = k -> 2 ≤ k -> E k -> E i -> le (a (k / 2)) (a i)

lemma ordered_iff : Ordered le n a ↔ OrderedOn le (fun _ => True) n a :=
  ⟨fun h i h2 hn _ => h i h2 hn, fun h i h2 hn => h i h2 hn trivial⟩

section Order
variable (htrans : ∀ x y z, le x y -> le y z -> le x z)
include htrans

lemma OrderedOn.hole (h : OrderedOn le E n a) (k : Nat) : Hole le E n a k := by
  refine ⟨fun i h2 hn hE _ _ => h i h2 hn hE, ?_⟩
  rintro i hn rfl h2 hEk hEi
  exact htrans _ _ _ (h (i / 2) h2 (by omega) hEk) (h i (by omega) hn hEi)

lemma Hole.up (h : Hole le E n a k) (h2 : 2 ≤ k) (hk : k ≤ n) (hE : E k) :
    Hole le E n (update a k (a (k / 2))) (k / 2) := by
  have hne : k / 2 ≠ k := by omega
  have hpp : k / 2 / 2 ≠ k := by omega
  have hup : 2 ≤ k / 2 -> E (k / 2) -> le (a (k / 2 / 2)) (a (k / 2)) :=
    fun h2p hEp => h.away (k / 2) h2p (by omega) hEp hne hpp
  constructor
  · intro i hi2 hn hEi hi hpi
    by_cases hik : i = k
    · exact absurd (congrArg (· / 2) hik) hpi
    · rw [update_of_ne hik]
      by_cases hpk : i / 2 = k
      · rw [hpk, update_self]
        exact h.across i hn hpk h2 hE hEi
      · rw [update_of_ne hpk]
        exact h.away i hi2 hn hEi hik hpk
  · intro i hn hpi h2p hEp hEi
    rw [update_of_ne hpp]
    by_cases hik : i = k
    · rw [hik, update_self]
      exact hup h2p hEp
    · rw [update_of_ne hik]
      refine htrans _ _ _ (hup h2p hEp) ?_
      rw [← hpi]
      exact h.away i (by omega) hn hEi hik (by omega)

omit htrans in
lemma Hole.down (h : Hole le E n a k) (hk : 1 ≤ k) {c : Nat} (hn : c ≤ n) (hc : c / 2 = k)
    (hE : E c) (hmin : ∀ i, i ≤ n -> i / 2 = k -> E i -> le (a c) (a i)) :
    Hole le E n (update a k (a c)) c := by
  constructor
  · intro i hi2 hin hEi hic hpc
    by_cases hik : i = k
    · rw [hik, update_self, update_of_ne (by omega)]
      rw [hik] at hi2 hEi
      exact h.across c hn hc hi2 hEi hE
    · rw [update_of_ne hik]
      by_cases hpk : i / 2 = k
      · rw [hpk, update_self]
        exact hmin i hin hpk hEi
      · rw [update_of_ne hpk]
        exact h.away i hi2 hin hEi hik hpk
  · intro i hin hpc _ _ hEi
    rw [hc, update_self, update_of_ne (by omega), ← hpc]
    exact h.away i (by omega) hin hEi (by omega) (by omega)

end Order

lemma Hole.fill (h : Hole le E n a k) (hk : 1 ≤ k) (hup : 2 ≤ k -> E k -> le (a (k / 2)) x)
    (hdown : ∀ i, i ≤ n -> i / 2 = k -> E i -> le x (a i)) : OrderedOn le E n (update a k x) := by
  intro i h2 hn hEi
  by_cases hik : i = k
  · subst hik
    rw [update_self, update_of_ne (by omega)]
    exact hup h2 hEi
  · rw [update_of_ne hik]
    by_cases hpk : i / 2 = k
    · rw [hpk, update_self]
      exact hdown i hn hpk hEi
    · rw [update_of_ne hpk]
      exact h.away i h2 hn hEi hik hpk

lemma OrderedOn.hole_succ (h : OrderedOn le (fun i => k + 1 ≤ i / 2) n a) :
    Hole le (fun i => k ≤ i / 2) n a k :=
  ⟨fun i h2 hn hE _ hpk => h i h2 hn (by omega), fun i _ _ _ hE => absurd hE (by omega)⟩

lemma Ordered.top_le (h : Ordered le n a) (hrefl : ∀ x, le x x)
    (htrans : ∀ x y z, le x y -> le y z -> le x z) (i : Nat) (h1 : 1 ≤ i) (hn : i ≤ n) :
    le (a 1) (a i) := by
  induction i using Nat.strongRecOn with
  | ind i ih =>
    by_cases hi : i = 1
    · rw [hi]
      exact hrefl _
    · exact htrans _ _ _ (ih (i / 2) (by omega) (by omega) (by omega)) (h i (by omega) hn)

def contents (n : Nat) (a : Nat -> α) : Multiset α := (Icc 1 n).val.map a

def others (n k : Nat) (a : Nat -> α) : Multiset α := ((Icc 1 n).erase k).val.map a

lemma mem_contents : x ∈ contents n a ↔ ∃ i, 1 ≤ i ∧ i ≤ n ∧ a i = x := by
  simp [contents, and_assoc]

lemma contents_congr {a' : Nat -> α} (h : ∀ i, 1 ≤ i -> i ≤ n -> a i = a' i) :
    contents n a = contents n a' := by
  refine Multiset.map_congr rfl ?_
  intro i hi
  obtain ⟨h1, hn⟩ := mem_Icc.mp (mem_val.mp hi)
  exact h i h1 hn

lemma contents_eq (hk : 1 ≤ k ∧ k ≤ n) (a : Nat -> α) : contents n a = a k ::ₘ others n k a := by
  have hmem := mem_Icc.mpr hk
  have hval : (Icc 1 n).val = k ::ₘ ((Icc 1 n).erase k).val := by
    rw [← insert_val_of_notMem (notMem_erase k _), insert_erase hmem]
  rw [contents, others, hval, Multiset.map_cons]

lemma contents_succ (n : Nat) (a : Nat -> α) :
    contents (n + 1) a = a (n + 1) ::ₘ contents n a := by
  have hrest : (Icc 1 (n + 1)).erase (n + 1) = Icc 1 n := by
    ext i
    simp only [mem_erase, mem_Icc]
    omega
  rw [contents_eq ⟨by omega, le_rfl⟩, others, hrest, contents]

lemma contents_update (hk : 1 ≤ k ∧ k ≤ n) (a : Nat -> α) (x : α) :
    contents n (update a k x) = x ::ₘ others n k a := by
  rw [contents_eq hk, update_self]
  congr 1
  refine Multiset.map_congr rfl ?_
  intro i hi
  exact update_of_ne (ne_of_mem_erase (mem_val.mp hi)) x a

lemma contents_move {j : Nat} (hk : 1 ≤ k ∧ k ≤ n) (hj : 1 ≤ j ∧ j ≤ n) (hne : j ≠ k) :
    contents n (update (update a k (a j)) j x) =
      contents n (update a k x) := by
  have hothers : others n j (update a k (a j)) = others n k a := by
    have h := contents_eq hj (update a k (a j))
    rw [contents_update hk, update_of_ne hne] at h
    exact (Multiset.cons_inj_right _).mp h.symm
  rw [contents_update hj, contents_update hk, hothers]

lemma cons_contents_update (hk : 1 ≤ k ∧ k ≤ n) (a : Nat -> α) (x : α) :
    a k ::ₘ contents n (update a k x) = x ::ₘ contents n a := by
  rw [contents_update hk, contents_eq hk a, Multiset.cons_swap]

def Indexed (n : Nat) (a : Nat -> α) (pos : α -> Nat) : Prop := ∀ i, 1 ≤ i -> i ≤ n -> pos (a i) = i

/-- All but the hole are indexed, and the element for the hole is not among them. -/
structure IndexedBut (n : Nat) (a : Nat -> α) (k : Nat) (x : α) (pos : α -> Nat) : Prop where
  index : ∀ i, 1 ≤ i -> i ≤ n -> i ≠ k -> pos (a i) = i
  fresh : ∀ i, 1 ≤ i -> i ≤ n -> i ≠ k -> a i ≠ x

variable [DecidableEq α] {pos : α -> Nat}

lemma IndexedBut.fill (h : IndexedBut n a k x pos) :
    Indexed n (update a k x) (update pos x k) := by
  intro i h1 hn
  by_cases hik : i = k
  · rw [hik, update_self, update_self]
  · rw [update_of_ne hik, update_of_ne (h.fresh i h1 hn hik)]
    exact h.index i h1 hn hik

lemma IndexedBut.move (h : IndexedBut n a k x pos) {j : Nat} (hj : 1 ≤ j ∧ j ≤ n) (hne : j ≠ k) :
    IndexedBut n (update a k (a j)) j x (update pos (a j) k) := by
  constructor
  · intro i h1 hn hij
    by_cases hik : i = k
    · rw [hik, update_self, update_self]
    · have hne' : a i ≠ a j := by
        intro heq
        have hi := h.index i h1 hn hik
        rw [heq, h.index j hj.1 hj.2 hne] at hi
        exact hij hi.symm
      rw [update_of_ne hik, update_of_ne hne']
      exact h.index i h1 hn hik
  · intro i h1 hn hij
    by_cases hik : i = k
    · rw [hik, update_self]
      exact h.fresh j hj.1 hj.2 hne
    · rw [update_of_ne hik]
      exact h.fresh i h1 hn hik

omit [DecidableEq α] in
lemma Indexed.injOn (h : Indexed n a pos) {i j : Nat} (hi : 1 ≤ i ∧ i ≤ n) (hj : 1 ≤ j ∧ j ≤ n)
    (heq : a i = a j) : i = j := by
  rw [← h i hi.1 hi.2, heq, h j hj.1 hj.2]

end Heap
