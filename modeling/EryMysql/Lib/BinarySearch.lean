import Mathlib.Tactic.Common
import Mathlib.Order.Basic

/-!
# Binary search

Loops that halve an interval of indexes. What such a loop finds is told by its ends: the entry
before the result and the entry at it were looked at, or the result is an end of the interval.
Nothing is assumed about the entries, so a loop over an array that is not sorted still ends at such
a place.
-/

namespace BinarySearch

open Bool Nat

/-- Look for the end of the entries with a property, with at most the given number of turns. -/
def cut (p : Nat -> Bool) : Nat -> Nat -> Nat -> Nat
  | 0, _, hi => hi
  | fuel + 1, lo, hi =>
    if lo < hi then
      let mid := (hi + lo) / 2
      if p mid then cut p fuel (mid + 1) hi else cut p fuel lo mid
    else hi

structure IsCut (p : Nat -> Bool) (lo hi r : Nat) : Prop where
  lo_le : lo ≤ r
  le_hi : r ≤ hi
  before : r = lo ∨ p (r - 1) = true
  at_end : r = hi ∨ p r = false

variable {p : Nat -> Bool} {fuel lo hi : Nat}

lemma cut_isCut (hle : lo ≤ hi) (hfuel : hi - lo ≤ fuel) :
    IsCut p lo hi (cut p fuel lo hi) := by
  induction fuel generalizing lo hi with
  | zero =>
    obtain rfl : lo = hi := by omega
    exact ⟨le.refl, le.refl, .inl rfl, .inl rfl⟩
  | succ fuel ih =>
    rw [cut]
    by_cases hlt : lo < hi
    · rw [if_pos hlt]
      by_cases hp : p ((hi + lo) / 2) = true
      · obtain ⟨hlo, hhi, hbefore, hend⟩ := @ih ((hi + lo) / 2 + 1) hi (by omega) (by omega)
        rw [if_pos hp]
        refine ⟨by omega, hhi, ?_, hend⟩
        rcases hbefore with heq | hbefore
        · rw [heq]
          exact .inr hp
        · exact .inr hbefore
      · obtain ⟨hlo, hhi, hbefore, hend⟩ := @ih lo ((hi + lo) / 2) (by omega) (by omega)
        rw [if_neg hp]
        refine ⟨hlo, by omega, hbefore, ?_⟩
        rcases hend with heq | hend
        · rw [heq]
          exact .inr (eq_false_iff.mpr hp)
        · exact .inr hend
    · rw [if_neg hlt]
      obtain rfl : lo = hi := by omega
      exact ⟨le.refl, le.refl, .inl rfl, .inl rfl⟩

/-- Look for an entry that compares equal. The result is the last entry that was looked at, and
whether it is the one. -/
def find (cmp : Nat -> Ordering) : Nat -> Nat -> Nat -> Nat -> Nat × Bool
  | 0, last, _, _ => (last, false)
  | fuel + 1, last, lo, hi =>
    if lo < hi then
      let mid := (hi - 1 + lo) / 2
      match cmp mid with
      | .lt => find cmp fuel mid (mid + 1) hi
      | .gt => find cmp fuel mid lo mid
      | .eq => (mid, true)
    else (last, false)

/-- What is known of the entries that were looked at. -/
structure Bracket (cmp : Nat -> Ordering) (n lo hi : Nat) : Prop where
  le : lo ≤ hi
  hi_le : hi ≤ n
  before : lo = 0 ∨ cmp (lo - 1) = .lt
  after : hi = n ∨ cmp hi = .gt

/-- The place of a key that is not there, from the last entry that was looked at. -/
def place (cmp : Nat -> Ordering) (last : Nat) : Nat := if cmp last = .lt then last + 1 else last

variable {cmp : Nat -> Ordering} {n last : Nat} {p : Nat -> Bool}

lemma find_spec (hfuel : hi - lo ≤ fuel) (h : Bracket cmp n lo hi)
    (hlast : lo < hi ∨ place cmp last = lo) :
    (∃ i, find cmp fuel last lo hi = (i, true) ∧ i < n ∧ cmp i = .eq) ∨
      ∃ i, find cmp fuel last lo hi = (i, false) ∧
        Bracket cmp n (place cmp i) (place cmp i) := by
  induction fuel generalizing last lo hi with
  | zero =>
    have hle := h.le
    obtain rfl : lo = hi := by omega
    have hplace := hlast.resolve_left (Nat.lt_irrefl lo)
    exact .inr ⟨last, rfl, hplace ▸ h⟩
  | succ fuel ih =>
    rw [find]
    by_cases hlt : lo < hi
    · have hhi := h.hi_le
      rw [if_pos hlt]
      cases hmid : cmp ((hi - 1 + lo) / 2) with
      | lt =>
        simp only [hmid]
        refine @ih ((hi - 1 + lo) / 2 + 1) hi ((hi - 1 + lo) / 2) (by omega)
          ⟨by omega, hhi, .inr ?_, h.after⟩ (.inr ?_)
        · exact hmid
        · rw [place, if_pos hmid]
      | gt =>
        simp only [hmid]
        refine @ih lo ((hi - 1 + lo) / 2) ((hi - 1 + lo) / 2) (by omega)
          ⟨by omega, by omega, h.before, .inr hmid⟩ ?_
        rcases Nat.lt_or_ge lo ((hi - 1 + lo) / 2) with hlo | hlo
        · exact .inl hlo
        · rw [place, hmid, if_neg (by decide)]
          exact .inr (by omega)
      | eq =>
        simp only [hmid]
        exact .inl ⟨_, rfl, by omega, hmid⟩
    · rw [if_neg hlt]
      have hle := h.le
      obtain rfl : lo = hi := by omega
      have hplace := hlast.resolve_left (Nat.lt_irrefl lo)
      exact .inr ⟨last, rfl, hplace ▸ h⟩

lemma find_start (cmp : Nat -> Ordering) (hpos : 0 < n) :
    (∃ i, find cmp n 0 0 n = (i, true) ∧ i < n ∧ cmp i = .eq) ∨
      ∃ i, find cmp n 0 0 n = (i, false) ∧ Bracket cmp n (place cmp i) (place cmp i) :=
  find_spec le.refl ⟨zero_le n, le.refl, .inl rfl, .inl rfl⟩ (.inl hpos)

/-- Look for the end of the entries that compare positive, and stop at one that compares zero. The
result is a place and the last comparison. -/
def seek (cmp : Nat -> Int) : Nat -> Nat -> Nat -> Nat × Int
  | 0, _, hi => (hi, 0)
  | fuel + 1, lo, hi =>
    let mid := (hi + lo) / 2
    if 0 < cmp mid then
      if mid + 1 < hi then seek cmp fuel (mid + 1) hi else (hi, cmp mid)
    else if cmp mid = 0 then (mid, 0)
    else if lo < mid then seek cmp fuel lo mid else (mid, cmp mid)

/-- A place that was sought: an entry that compares zero, or the end of those that compare
positive. -/
structure Sought (cmp : Nat -> Int) (n : Nat) (result : Nat × Int) : Prop where
  le : result.1 ≤ n
  zero : result.2 = 0 -> result.1 < n ∧ cmp result.1 = 0
  before : result.2 ≠ 0 -> result.1 = 0 ∨ 0 < cmp (result.1 - 1)
  after : result.2 ≠ 0 -> result.1 = n ∨ cmp result.1 < 0

lemma seek_sought {cmp : Nat -> Int} (hlt : lo < hi) (hfuel : hi - lo ≤ fuel) (hn : hi ≤ n)
    (hbefore : lo = 0 ∨ 0 < cmp (lo - 1)) (hafter : hi = n ∨ cmp hi < 0) :
    Sought cmp n (seek cmp fuel lo hi) := by
  induction fuel generalizing lo hi with
  | zero => omega
  | succ fuel ih =>
    simp only [seek]
    by_cases hpos : 0 < cmp ((hi + lo) / 2)
    · rw [if_pos hpos]
      have hbefore' : 0 < cmp ((hi + lo) / 2 + 1 - 1) := by
        exact hpos
      by_cases hmid : (hi + lo) / 2 + 1 < hi
      · rw [if_pos hmid]
        exact ih hmid (by omega) hn (.inr hbefore') hafter
      · rw [if_neg hmid]
        obtain heq : (hi + lo) / 2 + 1 = hi := by omega
        exact ⟨hn, fun h => absurd h (Int.ne_of_gt hpos),
          fun _ => .inr (heq ▸ hbefore'), fun _ => hafter⟩
    · rw [if_neg hpos]
      by_cases hzero : cmp ((hi + lo) / 2) = 0
      · rw [if_pos hzero]
        exact ⟨by omega, fun _ => ⟨by omega, hzero⟩, fun h => absurd rfl h,
          fun h => absurd rfl h⟩
      · rw [if_neg hzero]
        have hneg : cmp ((hi + lo) / 2) < 0 := by omega
        by_cases hmid : lo < (hi + lo) / 2
        · rw [if_pos hmid]
          exact ih hmid (by omega) (by omega) hbefore (.inr hneg)
        · rw [if_neg hmid]
          obtain heq : (hi + lo) / 2 = lo := by omega
          refine ⟨by omega, fun h => absurd h hzero, fun _ => ?_, fun _ => .inr hneg⟩
          rw [heq]
          exact hbefore

lemma seek_sought_start (hpos : 0 < n) (cmp : Nat -> Int) : Sought cmp n (seek cmp n 0 n) :=
  seek_sought hpos le.refl le.refl (.inl rfl) (.inl rfl)

/-- Look for the end of the entries with a property up to an index that is looked at too. -/
def narrow (p : Nat -> Bool) : Nat -> Nat -> Nat -> Nat
  | 0, _, hi => hi
  | fuel + 1, lo, hi =>
    if lo < hi then
      let mid := (hi + lo + 1) / 2
      if p mid then narrow p fuel (mid + 1) hi else narrow p fuel lo (mid - 1)
    else hi

/-- Where the search ends: no entry after it has the property, and it has the property itself or
the one before it has. -/
structure Narrowed (p : Nat -> Bool) (N r : Nat) : Prop where
  le : r ≤ N
  after : r = N ∨ p (r + 1) = false
  before : p r = true ∨ r = 0 ∨ p (r - 1) = true

lemma narrow_narrowed (hle : lo ≤ hi + 1) (hfuel : hi - lo ≤ fuel) (hN : hi ≤ N)
    (hbefore : lo = 0 ∨ p (lo - 1) = true) (hafter : hi = N ∨ p (hi + 1) = false) :
    Narrowed p N (narrow p fuel lo hi) := by
  have hend : hi ≤ lo -> Narrowed p N hi := by
    intro hge
    refine ⟨hN, hafter, ?_⟩
    rcases Nat.eq_or_lt_of_le hge with heq | hlt
    · rw [heq]
      exact .inr hbefore
    · obtain rfl : lo = hi + 1 := by omega
      exact .inl (hbefore.resolve_left (succ_ne_zero _))
  induction fuel generalizing lo hi with
  | zero => exact hend (by omega)
  | succ fuel ih =>
    rw [narrow]
    by_cases hlt : lo < hi
    · rw [if_pos hlt]
      dsimp only
      obtain ⟨mid, hmid⟩ : ∃ mid, (hi + lo + 1) / 2 = mid + 1 := ⟨(hi + lo + 1) / 2 - 1, by omega⟩
      rw [hmid]
      cases hp : p (mid + 1) with
      | true =>
        apply ih (by omega) (by omega) hN (.inr hp) hafter
        intro hge
        exact ⟨hN, hafter, by
          obtain rfl | rfl : hi = mid + 1 ∨ hi = mid + 2 := by omega
          · exact .inl hp
          · exact .inr (.inr hp)⟩
      | false =>
        apply ih (by omega) (by omega) (by omega) hbefore (.inr hp)
        intro hge
        obtain rfl : lo = mid := by omega
        exact ⟨by omega, .inr hp, .inr hbefore⟩
    · rw [if_neg hlt]
      exact hend (Nat.le_of_not_lt hlt)

/-- One step on from an entry with the property, if there is one. -/
def settle (p : Nat -> Bool) (N r : Nat) : Nat :=
  if r ≠ N then (if p r then r + 1 else r) else r

lemma Narrowed.settle_spec (h : Narrowed p N r) :
    settle p N r ≤ N ∧ (p (settle p N r) = true -> settle p N r = N) ∧
      (p (settle p N r) = false -> settle p N r = 0 ∨ p (settle p N r - 1) = true) := by
  obtain ⟨hle, hafter, hbefore⟩ := h
  rw [settle]
  by_cases hend : r = N
  · rw [if_neg (not_not.mpr hend)]
    exact ⟨hle, fun _ => hend, fun hp => hbefore.resolve_left (by rw [hp]; exact false_ne_true)⟩
  · have hnext := hafter.resolve_left hend
    rw [if_pos hend]
    cases hp : p r with
    | true =>
      rw [if_pos rfl]
      refine ⟨by omega, fun h => absurd (hnext.symm.trans h) false_ne_true, fun _ => .inr ?_⟩
      exact hp
    | false =>
      exact ⟨hle, fun h => absurd (hp.symm.trans h) false_ne_true,
        fun _ => hbefore.resolve_left (by rw [hp]; exact false_ne_true)⟩

end BinarySearch
