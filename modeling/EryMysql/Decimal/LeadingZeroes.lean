import EryMysql.Decimal.Basic

/-!
# Leading zeroes

`remove_leading_zeroes` skips zero words and then counts down the digits of the
first word that is left. `do_div_mod` does the same to the whole of both its
operands, with their precisions for the digits of the integer part.
-/

namespace Decimal

open WordArray DecimalT Nat

/-- `while (prec > 0 && *p == 0) { prec-= i; i= DIG_PER_DEC1; p++; }` over `n` words. -/
def skipZeroWords (b : Words) : Nat -> Nat -> Nat -> Int -> Option (Nat × Int)
  | 0, prec, _, p => some (prec, p)
  | n + 1, prec, i, p =>
    if 0 < prec then do
      let x ← b.load p
      if x = 0 then skipZeroWords b n (prec - i) digPerDec1 (p + 1) else some (prec, p)
    else some (prec, p)

/-- `for (; x < powers10[i--]; prec--) ;` -/
def trimDigits (x : Int) : Nat -> Nat -> Option Nat
  | 0, prec => if x < powers10 0 then none else some prec
  | i + 1, prec => if x < powers10 (i + 1) then trimDigits x i (prec - 1) else some prec

/-- Removing all the leading zeroes of a number of `prec` digits: the digits that
are left and the word they start in. No digits are left of zero. -/
def removeLeadingZeroes (b : Words) (prec : Nat) : Option (Nat × Int) := do
  let (prec, p) ← skipZeroWords b (roundUp prec) prec ((prec - 1) % digPerDec1 + 1) 0
  if 0 < prec then do
    let x ← b.load p
    let prec ← trimDigits x ((prec - 1) % digPerDec1) prec
    some (prec, p)
  else some (0, p)

lemma skipZeroWords_spec (b : Words) (n i : Nat) (p : Int) (hi : 0 < i) (hi9 : i ≤ digPerDec1)
    (h0 : 0 ≤ p) (h1 : p + n ≤ b.size) (hlead : 0 < n -> b.word p < 10 ^ i)
    (hd : Digits digBase b.word p n) :
    (skipZeroWords b n (digPerDec1 * n - (digPerDec1 - i)) i p = some (0, p + n) ∧
      ∀ j, p ≤ j -> j < p + n -> b.word j = 0) ∨
    ∃ k g : Nat, k < n ∧ 0 < g ∧ g ≤ digPerDec1 ∧
      skipZeroWords b n (digPerDec1 * n - (digPerDec1 - i)) i p =
        some (digPerDec1 * (n - k - 1) + g, p + k) ∧
      (∀ j, p ≤ j -> j < p + k -> b.word j = 0) ∧ b.word (p + k) ≠ 0 ∧ b.word (p + k) < 10 ^ g := by
  induction n generalizing p i with
  | zero => exact .inl ⟨by simp [skipZeroWords], by intro j hj0 hj1; omega⟩
  | succ n ih =>
    have hprec : digPerDec1 * (n + 1) - (digPerDec1 - i) = digPerDec1 * n + i := by
      unfold digPerDec1 at *
      omega
    simp only [skipZeroWords, hprec, if_pos (show 0 < digPerDec1 * n + i by omega),
      b.load_eq h0 (by omega), some_bind, Nat.add_sub_cancel]
    by_cases hz : b.word p = 0
    · have hnext := ih digPerDec1 (p + 1) (by decide) le_rfl (by omega) (by omega)
        (fun hn => (hd (p + 1) (by omega) (by omega)).2)
        (hd.mono (by omega) (by omega))
      rw [Nat.sub_self, Nat.sub_zero] at hnext
      rw [if_pos hz]
      rcases hnext with ⟨hrun, hzero⟩ | ⟨k, g, hk, hg, hg9, hrun, hzero, hne, hlt⟩
      · refine .inl ⟨?_, fun j hj0 hj1 => ?_⟩
        · rw [hrun]
          push_cast
          ring_nf
        · by_cases hj : j = p
          · rw [hj, hz]
          · exact hzero j (by omega) (by omega)
      · have e : p + ((k + 1 : Nat) : Int) = p + 1 + k := by push_cast; ring
        refine .inr ⟨k + 1, g, by omega, hg, hg9, ?_, fun j hj0 hj1 => ?_, ?_, ?_⟩
        · rw [hrun, e, show n + 1 - (k + 1) - 1 = n - k - 1 by omega]
        · by_cases hj : j = p
          · rw [hj, hz]
          · exact hzero j (by omega) (by omega)
        · rwa [e]
        · rwa [e]
    · refine .inr ⟨0, i, by omega, hi, hi9, ?_, by omega, ?_, ?_⟩
      · simp [hz]
      · simpa using hz
      · simpa using hlead (succ_pos n)

lemma trimDigits_spec {x : Int} (hx : x ≠ 0) (hx0 : 0 ≤ x) (i m : Nat) (hlt : x < 10 ^ (i + 1)) :
    ∃ e, e ≤ i ∧ trimDigits x i (m + i + 1) = some (m + e + 1) ∧ 10 ^ e ≤ x ∧ x < 10 ^ (e + 1) := by
  induction i with
  | zero =>
    refine ⟨0, le_rfl, ?_, by omega, hlt⟩
    have hone : ¬ x < powers10 0 := by simp [powers10]; omega
    simp [trimDigits, hone]
  | succ i ih =>
    by_cases h : x < 10 ^ (i + 1)
    · obtain ⟨e, he, hrun, hle, hgt⟩ := ih h
      refine ⟨e, by omega, ?_, hle, hgt⟩
      rw [trimDigits, if_pos (by simpa [powers10] using h)]
      exact hrun
    · refine ⟨i + 1, le_rfl, ?_, by omega, hlt⟩
      rw [trimDigits, if_neg (by simpa [powers10] using h)]

lemma removeLeadingZeroes_spec (b : Words) (prec : Nat) (hsize : roundUp prec ≤ b.size)
    (hd : Digits digBase b.word 0 (roundUp prec))
    (hlead : 0 < prec -> b.word 0 < 10 ^ ((prec - 1) % digPerDec1 + 1)) :
    (removeLeadingZeroes b prec = some (0, (roundUp prec : Int)) ∧
      ∀ i : Int, 0 ≤ i -> i < roundUp prec -> b.word i = 0) ∨
    ∃ k e : Nat, k < roundUp prec ∧ e < digPerDec1 ∧
      removeLeadingZeroes b prec = some (digPerDec1 * (roundUp prec - k - 1) + e + 1, (k : Int)) ∧
      (∀ i : Int, 0 ≤ i -> i < k -> b.word i = 0) ∧
      10 ^ e ≤ b.word k ∧ b.word k < 10 ^ (e + 1) := by
  have hw := roundUp_eq prec
  have hprec : digPerDec1 * roundUp prec - (digPerDec1 - ((prec - 1) % digPerDec1 + 1)) = prec := by
    unfold digPerDec1
    omega
  have hspec := skipZeroWords_spec b (roundUp prec) ((prec - 1) % digPerDec1 + 1) 0
    (succ_pos _) (mod_lt _ (by decide)) le_rfl (by omega) (fun h => hlead (by omega)) hd
  rw [hprec] at hspec
  rcases hspec with ⟨hrun, hzero⟩ | ⟨k, g, hk, hg, hg9, hrun, hzero, hne, hlt⟩
  · refine .inl ⟨?_, fun i h0 h1 => hzero i h0 (by omega)⟩
    simp only [removeLeadingZeroes, hrun, some_bind, lt_irrefl, if_false, zero_add]
  · rw [zero_add] at hrun hne hlt
    have hx := hd k (by omega) (by omega)
    obtain ⟨e, he, htrim, hle, hgt⟩ := trimDigits_spec hne hx.1 (g - 1)
      (digPerDec1 * (roundUp prec - k - 1)) (by rwa [Nat.sub_add_cancel hg])
    have hmod : (digPerDec1 * (roundUp prec - k - 1) + g - 1) % digPerDec1 = g - 1 := by
      unfold digPerDec1 at *
      omega
    refine .inr ⟨k, e, hk, by omega, ?_, fun i h0 h1 => hzero i h0 (by omega), hle, hgt⟩
    rw [show digPerDec1 * (roundUp prec - k - 1) + (g - 1) + 1 =
      digPerDec1 * (roundUp prec - k - 1) + g by omega] at htrim
    simp only [removeLeadingZeroes, hrun, some_bind, hmod, htrim,
      b.load_eq (i := k) (by omega) (by omega),
      if_pos (show 0 < digPerDec1 * (roundUp prec - k - 1) + g by omega)]

end Decimal
