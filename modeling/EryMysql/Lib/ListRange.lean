import Mathlib.Data.List.Perm.Basic
import EryMysql.Lib.Partial

/-!
# Rearranging a range of a list

An array sorted in place is a list whose entries are exchanged two at a time. What a
sequence of exchanges inside a range does is said by `Rearranged`: the same entries,
and nothing moved outside the range.
-/

namespace ListRange

open List

variable {α β : Type*}

def swap (a : List α) (i j : Nat) : Option (List α) := do
  let x ← a[i]?
  let y ← a[j]?
  return (a.set i y).set j x

/-- `b` is `a` with the entries from `lo` to `hi` in another order. -/
structure Rearranged (lo hi : Nat) (a b : List α) : Prop where
  perm : b.Perm a
  outside : ∀ i, i < lo ∨ hi < i -> b[i]? = a[i]?

namespace Rearranged
variable {lo hi lo' hi' : Nat} {a b c : List α}

lemma refl (lo hi : Nat) (a : List α) : Rearranged lo hi a a := ⟨.refl a, fun _ _ => rfl⟩

lemma trans (hab : Rearranged lo hi a b) (hbc : Rearranged lo hi b c) : Rearranged lo hi a c :=
  ⟨hbc.perm.trans hab.perm, fun i hi => (hbc.outside i hi).trans (hab.outside i hi)⟩

lemma length_eq (hab : Rearranged lo hi a b) : b.length = a.length := hab.perm.length_eq

lemma take_perm (hab : Rearranged lo hi a b) {m : Nat} (hm : hi < m ∨ m ≤ lo) :
    (b.take m).Perm (a.take m) := by
  rcases hm with hm | hm
  · have hdrop : b.drop m = a.drop m := by
      apply ext_getElem?
      intro i
      rw [getElem?_drop, getElem?_drop]
      exact hab.outside _ (Or.inr (by omega))
    have hperm := hab.perm
    rw [← take_append_drop m b, ← take_append_drop m a, hdrop] at hperm
    exact (perm_append_right_iff _).mp hperm
  · have htake : b.take m = a.take m := by
      apply ext_getElem?
      intro i
      rw [getElem?_take, getElem?_take]
      split
      · exact hab.outside _ (Or.inl (by omega))
      · rfl
    rw [htake]

end Rearranged

section Swap
variable {a : List α} {i j : Nat} {b : List α}

structure Swapped (i j : Nat) (a b : List α) : Prop where
  perm : b.Perm a
  fst : b[i]? = a[j]?
  snd : b[j]? = a[i]?
  other : ∀ k, k ≠ i -> k ≠ j -> b[k]? = a[k]?

lemma swap_spec (hi : i < a.length) (hj : j < a.length) :
    ∃ b, swap a i j = some b ∧ Swapped i j a b := by
  refine ⟨(a.set i a[j]).set j a[i], ?_, set_set_perm hi hj, ?_, ?_, fun k hki hkj => ?_⟩
  · simp [swap, hi, hj]
  · by_cases hij : j = i
    · simp [hij]
    · rw [getElem?_set_ne hij, getElem?_set_self hi, getElem?_eq_getElem hj]
  · rw [getElem?_set_self (by rwa [length_set]), getElem?_eq_getElem hi]
  · rw [getElem?_set_ne hkj.symm, getElem?_set_ne hki.symm]

lemma Swapped.rearranged {lo hi : Nat} (hs : Swapped i j a b) (hi0 : lo ≤ i)
    (hi1 : i ≤ hi) (hj0 : lo ≤ j) (hj1 : j ≤ hi) : Rearranged lo hi a b :=
  ⟨hs.perm, fun k hk => hs.other k (by omega) (by omega)⟩

lemma swap_map (f : α -> β) : swap (a.map f) i j = (swap a i j).map (map f) := by
  cases hi : a[i]? with
  | none => simp [swap, hi]
  | some x =>
    cases hj : a[j]? with
    | none => simp [swap, hj]
    | some y => simp [swap, hi, hj]

/-- Exchanging neighbours of which at most one is selected does not show in the selection. -/
lemma filter_swap_succ {x y : α} (p : α -> Bool) (hx : a[i]? = some x)
    (hy : a[i + 1]? = some y) (hp : ¬ (p x = true ∧ p y = true))
    (hs : swap a (i + 1) i = some b) : b.filter p = a.filter p := by
  induction i generalizing a b with
  | zero =>
    match a, hx, hy with
    | u :: v :: l, hx, hy =>
      simp only [getElem?_cons_zero, getElem?_cons_succ, Option.some.injEq] at hx hy
      subst hx hy
      simp only [swap, getElem?_cons_succ, getElem?_cons_zero, some_bind, Option.pure_def, Option.some.injEq] at hs
      subst hs
      by_cases hu : p u = true
      · have hv : ¬ p v = true := fun hv => hp ⟨hu, hv⟩
        simp [hu, hv]
      · simp [filter_cons, hu]
  | succ i ih =>
    match a, hx with
    | u :: l, hx =>
      simp only [getElem?_cons_succ] at hx hy
      have hsl : swap l (i + 1) i = some ((l.set (i + 1) x).set i y) := by
        simp [swap, hx, hy]
      have hb : b = u :: (l.set (i + 1) x).set i y := by
        simpa [swap, hx, hy, eq_comm] using hs
      rw [hb, filter_cons, filter_cons, ih hx hy hsl]

end Swap

end ListRange
