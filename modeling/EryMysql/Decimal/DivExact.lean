import Mathlib.Data.Rat.Floor
import EryMysql.Decimal.Div

/-!
# Division truncates

The quotient words stand where the leading words of both operands put them: the
digit count `dintg`, which compares the leading words without aligning their
digits, comes to the right number of words all the same. What the main loop then
leaves is the exact quotient, cut to the words of the result.
-/

namespace Decimal

open WordArray DecimalT QuotientGuess Option

lemma makeDivisor_spec {b : Words} {k n : Nat} (hn : 0 < n) (hsize : k + n ≤ b.size)
    (hd : Digits digBase b.word k n) (hlead : b.word k ≠ 0) :
    ∃ dv, makeDivisor b k n = some dv ∧ dv.Normal ∧ dv.buf.word dv.start2 = b.word k ∧
      dv.len2 + 1 ≤ n ∧ val digBase b.word k n = dv.units * digBase ^ (n - dv.len2 - 1) := by
  obtain ⟨z, hz, hrun, hzero, hstop⟩ := skipDown_spec b n (k + n - 1) (by omega) (by omega)
  have hb0 := hd k le_rfl (by omega)
  have hlen : ((k : Int) + n - 1 - z - k).toNat = n - z - 1 := by omega
  have hf : 1 ≤ factor digBase (b.word k) := factor_pos (by omega) hb0.2
  have hfm : factor digBase (b.word k) * (b.word k + 1) ≤ digBase := factor_mul_le (by omega)
  have hfle : factor digBase (b.word k) ≤ digBase := by
    have := mul_le_mul_of_nonneg_left (show 1 ≤ b.word k + 1 by omega)
      (show 0 ≤ factor digBase (b.word k) by omega)
    linarith
  have hfb : ∀ y, 0 ≤ y -> y < digBase ->
      dec2 (factor digBase (b.word k) * y) = some (factor digBase (b.word k) * y) := by
    intro y hy0 hy
    have h0 : 0 ≤ factor digBase (b.word k) * y := mul_nonneg (by omega) hy0
    have h1 : factor digBase (b.word k) * y ≤ digBase * digBase :=
      mul_le_mul hfle hy.le hy0 digBase_pos.le
    unfold digBase at *
    exact dec2_eq (by omega) (by omega)
  refine ⟨⟨b, k, n - z - 1, factor digBase (b.word k), QuotientGuess.norm digBase (b.word k)
    (if 0 < n - z - 1 then b.word (k + 1) else 0)⟩, ?_, ⟨by simp, by simp; omega,
      hd.mono le_rfl (by push_cast; omega), hlead, rfl, rfl⟩, rfl, by simp; omega, ?_⟩
  · simp only [makeDivisor, hrun, bind_eq_bind, bind_some, hlen,
      b.load_eq (i := k) (by omega) (by omega)]
    rw [show digBase / (b.word k + 1) = factor digBase (b.word k) from rfl,
      hfb (b.word k) hb0.1 hb0.2, bind_some]
    by_cases h1 : 0 < n - z - 1
    · have hb1 := hd (k + 1) (by omega) (by omega)
      rw [if_pos h1, if_pos h1, b.load_eq (i := k + 1) (by omega) (by omega)]
      simp only [bind_some, hfb _ hb1.1 hb1.2]
      rfl
    · rw [if_neg h1, if_neg h1]
      simp [QuotientGuess.norm]
  · have hsplit : n = (n - z - 1 + 1) + (n - (n - z - 1) - 1) := by omega
    simp only [Divisor.units]
    conv_lhs => rw [hsplit]
    rw [val_add, val_eq_zero (s := (k : Int) + (n - z - 1 + 1 : Nat))
      (fun i h0 h1 => hzero i (by omega) (by omega)), add_zero]

/-- The words before the point of a quotient: those of the dividend less those of
the divisor, and one more when the leading word goes into it. A number of digits
below zero counts the zero words after the point. -/
lemma quotient_words {e1 e2 : Nat} (D dintg : Int) (lead : Prop) [Decidable lead]
    (h1 : e1 < digPerDec1) (h2 : e2 < digPerDec1) (hlead : lead -> e2 ≤ e1) (hless : ¬ lead -> e1 ≤ e2)
    (hdintg : dintg = digPerDec1 * D + e1 - e2 + if lead then 1 else 0) :
    ((if dintg < 0 then 0 else roundUp dintg.toNat : Nat) : Int) -
      ((if dintg < 0 then (-dintg.tdiv digPerDec1).toNat else 0 : Nat) : Int) =
        D + if lead then 1 else 0 := by
  have htdiv : dintg < 0 -> -dintg.tdiv digPerDec1 = -dintg / 9 := by
    intro hneg
    rw [← Int.neg_tdiv, Int.tdiv_eq_ediv_of_nonneg (by omega)]
    rfl
  have hround := roundUp_eq dintg.toNat
  unfold digPerDec1 at h1 h2 hdintg
  by_cases hneg : dintg < 0
  · rw [if_pos hneg, if_pos hneg]
    by_cases hl : lead
    · have := hlead hl
      rw [if_pos hl] at hdintg ⊢
      omega
    · have := hless hl
      rw [if_neg hl] at hdintg ⊢
      omega
  · rw [if_neg hneg, if_neg hneg]
    by_cases hl : lead
    · have := hlead hl
      rw [if_pos hl] at hdintg ⊢
      omega
    · have := hless hl
      rw [if_neg hl] at hdintg ⊢
      omega

lemma val_tmpWords {b : Words} {k n : Nat} {tmp : Int -> Int}
    (htmp : ∀ i : Int, tmp i = if 0 ≤ i ∧ i < n then b.word (k + i) else 0)
    (hd : Digits digBase b.word k n) (m : Nat) :
    val digBase tmp 0 m = val digBase b.word k n * digBase ^ m / digBase ^ n := by
  have hcopy : ∀ j : Nat, j ≤ n -> val digBase tmp 0 j = val digBase b.word k j := by
    intro j hj
    refine val_shift (fun i hi => ?_)
    rw [htmp, zero_add, if_pos (by omega)]
  have hpow : ∀ j : Nat, (0 : Int) < digBase ^ j := fun j => pow_pos digBase_pos j
  by_cases hm : m ≤ n
  · obtain ⟨j, rfl⟩ := Nat.exists_eq_add_of_le hm
    have htail := hd.mono (t := k + m) (m := j) (by omega) (by omega)
    rw [hcopy m hm, pow_add, mul_comm (digBase ^ m), Int.mul_ediv_mul_of_pos_left _ _ (hpow m),
      val_add, Int.mul_comm, Int.mul_add_ediv_left _ _ (hpow j).ne',
      Int.ediv_eq_zero_of_lt (val_nonneg digBase_pos.le htail) (val_lt digBase_pos.le htail),
      add_zero]
  · obtain ⟨j, rfl⟩ := Nat.exists_eq_add_of_le (Nat.le_of_not_le hm)
    rw [val_add, hcopy n le_rfl, zero_add, val_eq_zero (s := (n : Int)) (fun i h0 h1 => by
      rw [htmp, if_neg (by omega)]), add_zero, pow_add, mul_comm (digBase ^ n), ← mul_assoc,
      Int.mul_ediv_cancel _ (hpow n).ne']

/-- The main loop on a copied dividend. `s` is the number of its words that go
into the first carry. -/
lemma divLoop_tmp {dv : Divisor} (hn : dv.Normal) {b tmp : Words} {k n1 s : Nat}
    (htmp : ∀ i : Int, tmp.word i = if 0 ≤ i ∧ i < n1 then b.word (k + i) else 0)
    (hd : Digits digBase b.word k n1) (hn1 : 0 < n1) (n pad : Nat) (out : Words)
    (hs : s = if b.word k < dv.buf.word dv.start2 then 1 else 0)
    (hsize : 0 < n -> s + n + max dv.len2 1 ≤ tmp.size) (hb : pad + n ≤ out.size) :
    val digBase b.word k n1 * digBase ^ (s + dv.len2) < dv.units * digBase ^ n1 ∧
    ∃ out', divLoop dv n pad (if b.word k < dv.buf.word dv.start2 then 1 else 0)
        (if b.word k < dv.buf.word dv.start2 then b.word k else 0) tmp out = some out' ∧
      out'.size = out.size ∧ (∀ j : Int, j < pad ∨ pad + n ≤ j -> out'.word j = out.word j) ∧
      Digits digBase out'.word pad n ∧
      val digBase out'.word pad n =
        val digBase b.word k n1 * digBase ^ (s + dv.len2 + n) / (digBase ^ n1 * dv.units) := by
  have hdt : ∀ m : Nat, Digits digBase tmp.word 0 m := by
    intro m i h0 h1
    rw [htmp]
    split
    · exact hd _ (by omega) (by omega)
    · exact ⟨le_rfl, digBase_pos⟩
  have ht0 : tmp.word 0 = b.word k := by rw [htmp, if_pos (by omega), add_zero]
  have hb0 := hd k le_rfl (by omega)
  have hstart : (if b.word k < dv.buf.word dv.start2 then 1 else 0 : Int) = s := by
    rw [hs]
    split <;> rfl
  obtain ⟨dcarry, hdc⟩ : ∃ c, c = if b.word k < dv.buf.word dv.start2 then b.word k else 0 :=
    ⟨_, rfl⟩
  have hc : 0 ≤ dcarry := by
    rw [hdc]
    split <;> omega
  rw [hstart, ← hdc]
  have hfirst : val digBase tmp.word 0 (s + dv.len2) =
      dcarry * digBase ^ dv.len2 + val digBase tmp.word s dv.len2 ∧
      val digBase tmp.word 0 (s + dv.len2) < dv.units := by
    by_cases h : b.word k < dv.buf.word dv.start2
    · rw [if_pos h] at hs hdc
      rw [hs, hdc, Nat.add_comm, ← ht0]
      refine ⟨val_cons _ _ _ _, ?_⟩
      exact val_lt_of_lt digBase_pos (hdt _) hn.digits 0 (by omega) (by omega)
        (by simpa [ht0] using h)
    · rw [if_neg h] at hs hdc
      rw [hs, hdc, zero_add, zero_mul, zero_add]
      refine ⟨rfl, (val_lt digBase_pos.le (hdt _)).trans_le ?_⟩
      exact pow_le_val digBase_pos hn.digits hn.leading
  obtain ⟨hR, hlt⟩ := hfirst
  have hcut := val_tmpWords htmp hd
  obtain ⟨out', hrun, hsz, hframe, hdigits, hval⟩ := divLoop_spec hn n pad dcarry out
    (fun i h0 h1 => hdt tmp.size i (by omega) (by omega)) (by omega)
    (fun h => by omega) hc (by omega) (by omega) _ hR
    (val_nonneg digBase_pos.le (hdt _)) hlt
  refine ⟨?_, out', hrun, hsz, hframe, hdigits, ?_⟩
  · rw [hcut] at hlt
    exact Int.lt_mul_of_ediv_lt (pow_pos digBase_pos n1) hlt
  · rw [hval, show (s : Int) + dv.len2 = 0 + (s + dv.len2 : Nat) by push_cast; ring, ← val_add,
      hcut, Int.ediv_ediv_of_nonneg (pow_nonneg digBase_pos.le n1)]

/-- The first nonzero word of a decimal is word `k`, and it has `e + 1` digits. -/
structure LeadingWord (d : DecimalT) (k e : Nat) : Prop where
  lt : k < d.words
  digits_lt : e < digPerDec1
  zero : ∀ i : Int, 0 ≤ i -> i < k -> d.buf.word i = 0
  le_word : 10 ^ e ≤ d.buf.word k
  word_lt : d.buf.word k < 10 ^ (e + 1)

abbrev digitsFrom (d : DecimalT) (k e : Nat) : Nat := digPerDec1 * (d.words - k - 1) + e + 1

variable {d a b : DecimalT} {n1 t z f1 m : Nat}

lemma LeadingWord.roundUp_eq {k e : Nat} (h : LeadingWord d k e) :
    roundUp (digitsFrom d k e) = d.words - k := by
  have := h.lt
  have := h.digits_lt
  rw [Decimal.roundUp_eq, digitsFrom]
  unfold digPerDec1 at *
  omega

lemma removeLeadingZeroes_legal (h : d.Legal) :
    (d.units = 0 ∧ ∃ p, removeLeadingZeroes d.buf (d.intg + d.fracWords * digPerDec1) =
      some (0, p)) ∨
    ∃ k e, removeLeadingZeroes d.buf (d.intg + d.fracWords * digPerDec1) =
      some (digitsFrom d k e, (k : Int)) ∧ LeadingWord d k e := by
  have hi : d.intgWords = (d.intg + 8) / 9 := roundUp_eq _
  have hw : roundUp (d.intg + d.fracWords * digPerDec1) = d.words := by
    rw [roundUp_eq, words, digPerDec1]
    omega
  have hsize := h.room.trans h.alloc
  have hspec := removeLeadingZeroes_spec d.buf (d.intg + d.fracWords * digPerDec1)
    (by rw [hw]; exact hsize) (by rw [hw]; exact h.digits) (by
      intro hp
      by_cases h0 : 0 < d.intg
      · rw [show (d.intg + d.fracWords * digPerDec1 - 1) % digPerDec1 = (d.intg - 1) % digPerDec1 by
          unfold digPerDec1; omega]
        exact h.leading h0
      · unfold digPerDec1 at hp
        rw [show (d.intg + d.fracWords * digPerDec1 - 1) % digPerDec1 + 1 = 9 by
          unfold digPerDec1; omega]
        exact (h.digits 0 le_rfl (by unfold words; omega)).2)
  rw [hw] at hspec
  rcases hspec with ⟨hrun, hzero⟩ | ⟨k, e, hk, he, hrun, hzero, hle, hlt⟩
  · exact .inl ⟨val_eq_zero (fun i h0 h1 => hzero i h0 (by omega)), _, hrun⟩
  · exact .inr ⟨k, e, hrun, hk, he, hzero, hle, hlt⟩

lemma LeadingWord.units_eq {k e : Nat} (h : LeadingWord d k e) :
    d.units = val digBase d.buf.word k (d.words - k) := by
  have hk := h.lt
  rw [units, show d.words = k + (d.words - k) by omega, val_add,
    val_eq_zero (fun i h0 h1 => h.zero i h0 (by omega)), zero_mul, zero_add, zero_add,
    Nat.add_sub_cancel_left]

lemma LeadingWord.word_pos {k e : Nat} (h : LeadingWord d k e) : 0 < d.buf.word k :=
  lt_of_lt_of_le (by positivity) h.le_word

lemma digits_le_of_le {x y : Int} {e1 e2 : Nat} (hx : x < 10 ^ (e1 + 1)) (hy : 10 ^ e2 ≤ y)
    (h : y ≤ x) : e2 ≤ e1 := by
  by_contra hlt
  have := pow_le_pow_right₀ (show (1 : Int) ≤ 10 by decide) (show e1 + 1 ≤ e2 by omega)
  omega

/-- What a division by a nonzero number leaves when it reports success. -/
structure Quotient (a b r : DecimalT) : Prop where
  legal : r.Legal
  mag_eq : r.mag = ⌊a.mag / b.mag * 10 ^ r.frac⌋ / 10 ^ r.frac
  sign_eq : r.sign = (a.sign != b.sign) ∨ r.mag = 0

lemma floor_mag_div (hb : 0 < b.units) (n : Nat) : ⌊a.mag / b.mag * (digBase : ℚ) ^ n⌋ =
      a.units * digBase ^ (b.fracWords + n) / (b.units * digBase ^ a.fracWords) := by
  have hM : 0 < b.units * digBase ^ a.fracWords := mul_pos hb (pow_pos digBase_pos _)
  have hM' : (0 : ℚ) < b.units * (digBase : ℚ) ^ a.fracWords := by exact_mod_cast hM
  have hratio : a.mag / b.mag * (digBase : ℚ) ^ n =
      (a.units * (digBase : ℚ) ^ (b.fracWords + n)) / (b.units * (digBase : ℚ) ^ a.fracWords) := by
    rw [mag, mag, pow_add]
    field_simp
  have hle := Int.ediv_mul_le (a.units * digBase ^ (b.fracWords + n)) hM.ne'
  have hlt := Int.lt_ediv_add_one_mul_self (a.units * digBase ^ (b.fracWords + n)) hM
  rw [hratio, Int.floor_eq_iff, le_div_iff₀ hM', div_lt_iff₀ hM']
  exact ⟨by exact_mod_cast hle, by exact_mod_cast hlt⟩

/-- The quotient word by word is the quotient of the whole numbers: the words
dropped from the divisor and those of the fractions only move the point. -/
lemma quotient_shift {A V : Int} (h : t + z + f1 = m + n1) :
    A * digBase ^ t / (digBase ^ n1 * V) = A * digBase ^ m / (V * digBase ^ z * digBase ^ f1) := by
  have hpow : ∀ j : Nat, (0 : Int) < digBase ^ j := fun j => pow_pos digBase_pos j
  rw [← Int.mul_ediv_mul_of_pos_left _ _ (hpow (z + f1)),
    ← Int.mul_ediv_mul_of_pos_left (A * digBase ^ m) _ (hpow n1)]
  congr 1
  · rw [mul_assoc, mul_assoc, ← pow_add, ← pow_add, show t + (z + f1) = m + n1 by omega]
  · ring

lemma quotient_zero {A V : Int} (hA : 0 ≤ A)
    (hlt : A * digBase ^ t < V * digBase ^ n1) (h : m + n1 ≤ t + z + f1) :
    A * digBase ^ m / (V * digBase ^ z * digBase ^ f1) = 0 := by
  have hpow : ∀ j : Nat, (0 : Int) < digBase ^ j := fun j => pow_pos digBase_pos j
  refine Int.ediv_eq_zero_of_lt (mul_nonneg hA (hpow m).le) ?_
  have h1 : A * digBase ^ (m + n1) ≤ A * digBase ^ (t + z + f1) :=
    mul_le_mul_of_nonneg_left (pow_le_pow_right₀ (by decide) h) hA
  have h2 := mul_lt_mul_of_pos_right hlt (hpow (z + f1))
  refine lt_of_mul_lt_mul_right ?_ (hpow n1).le
  calc A * digBase ^ m * digBase ^ n1 = A * digBase ^ (m + n1) := by ring
    _ ≤ A * digBase ^ (t + z + f1) := h1
    _ = A * digBase ^ t * digBase ^ (z + f1) := by ring
    _ < V * digBase ^ n1 * digBase ^ (z + f1) := h2
    _ = V * digBase ^ z * digBase ^ f1 * digBase ^ n1 := by ring

lemma fixIntgFracError_le (len intg1 frac1 : Nat) :
    (fixIntgFracError len intg1 frac1).intg + (fixIntgFracError len intg1 frac1).frac ≤
      min len (intg1 + frac1) := by
  unfold fixIntgFracError
  split
  · split <;> simp <;> omega
  · simp
    omega

lemma divLayout_spec {k1 e1 k2 e2 s : Nat} (la : LeadingWord a k1 e1) (lb : LeadingWord b k2 e2)
    (scaleIncr : Nat) (hs : s = if a.buf.word k1 < b.buf.word k2 then 1 else 0) (l : DivLayout)
    (hl : l = divLayout a b (digitsFrom a k1 e1)
      (digitsFrom b k2 e2) (a.buf.word k1) (b.buf.word k2) scaleIncr) :
    (l.intg0 : Int) - l.zeroes = (a.words - k1 : Nat) - (a.fracWords : Int) -
        ((b.words - k2 : Nat) - (b.fracWords : Int)) + 1 - s ∧ a.words - k1 < l.len1 ∧
      a.words - k1 + b.fracWords + l.frac0 + 1 ≤ l.len1 + a.fracWords := by
  obtain ⟨n1, hn1⟩ : ∃ n1, a.words - k1 = n1 + 1 := ⟨a.words - k1 - 1, by have := la.lt; omega⟩
  obtain ⟨n2, hn2⟩ : ∃ n2, b.words - k2 = n2 + 1 := ⟨b.words - k2 - 1, by have := lb.lt; omega⟩
  have hlead : (if a.buf.word k1 ≥ b.buf.word k2 then 1 else 0 : Int) = 1 - s := by
    rw [hs]
    by_cases h : a.buf.word k1 < b.buf.word k2
    · simp [h]
    · simp [h]
  rw [digitsFrom, digitsFrom, hn1, Nat.add_sub_cancel] at hl
  rw [hl, hn1, hn2, add_sub_assoc _ (1 : Int), ← hlead]
  have hround := roundUp_eq
  refine ⟨quotient_words (((n1 + 1 : Nat) : Int) - a.fracWords -
    ((n2 + 1 : Nat) - b.fracWords)) _ (a.buf.word k1 ≥ b.buf.word k2) la.digits_lt lb.digits_lt
    (fun h => digits_le_of_le la.word_lt lb.le_word h)
    (fun h => digits_le_of_le lb.word_lt la.le_word (by omega)) (by push_cast; ring), ?_⟩
  simp only [divLayout, hround]
  unfold digPerDec1 at *
  omega

lemma quotient_units {s intg0 zeroes frac0 len n1 n2 : Nat} {dv : Divisor} {out0 out : Words}
    (hA : 0 ≤ a.units) (hL : dv.len2 + 1 ≤ n2)
    (hB : b.units = dv.units * digBase ^ (n2 - dv.len2 - 1))
    (hbal : (intg0 : Int) - zeroes = n1 - (a.fracWords : Int) - (n2 - (b.fracWords : Int)) + 1 - s)
    (hroom : intg0 + frac0 ≤ len) (hfill : ∀ j : Int, 0 ≤ j -> j < min zeroes len -> out0.word j = 0)
    (hfirst : a.units * digBase ^ (s + dv.len2) < dv.units * digBase ^ n1)
    (hframe : ∀ j : Int, j < (min zeroes len : Nat) ∨
      (min zeroes len : Nat) + (intg0 + frac0 - min zeroes len : Nat) ≤ j -> out.word j = out0.word j)
    (hdigits : Digits digBase out.word (min zeroes len : Nat) (intg0 + frac0 - min zeroes len))
    (hval : val digBase out.word (min zeroes len : Nat) (intg0 + frac0 - min zeroes len) =
      a.units * digBase ^ (s + dv.len2 + (intg0 + frac0 - min zeroes len)) /
        (digBase ^ n1 * dv.units)) :
    Digits digBase out.word 0 (intg0 + frac0) ∧ val digBase out.word 0 (intg0 + frac0) =
        a.units * digBase ^ (b.fracWords + frac0) / (b.units * digBase ^ a.fracWords) := by
  have hzero : ∀ j : Int, 0 ≤ j -> j < min zeroes len -> out.word j = 0 := by
    intro j h0 h1
    rw [hframe j (.inl (by omega)), hfill j h0 h1]
  refine ⟨fun i h0 h1 => ?_, ?_⟩
  · by_cases hi : i < min zeroes len
    · rw [hzero i h0 hi]
      exact ⟨le_rfl, digBase_pos⟩
    · exact hdigits i (by omega) (by omega)
  · rw [hB]
    by_cases hz : zeroes ≤ intg0 + frac0
    · have hmin : min zeroes len = zeroes := by omega
      rw [hmin] at hval
      rw [show intg0 + frac0 = zeroes + (intg0 + frac0 - zeroes) by omega, val_add,
        val_eq_zero (fun j h0 h1 => hzero j h0 (by omega)), zero_mul, zero_add, zero_add, hval]
      exact quotient_shift (by omega)
    · rw [val_eq_zero (fun j h0 h1 => hzero j h0 (by omega))]
      exact (quotient_zero hA hfirst (by omega)).symm

lemma divDigits_spec {a b dst : DecimalT} (ha : a.Legal) (hb : b.Legal) (hpos : 0 < dst.len)
    (halloc : dst.len ≤ dst.buf.size) {k1 e1 k2 e2 : Nat} (la : LeadingWord a k1 e1)
    (lb : LeadingWord b k2 e2) (scaleIncr : Nat) :
    ∃ e r, divDigits a b dst (digitsFrom a k1 e1) k1
        (digitsFrom b k2 e2) k2 scaleIncr = some (e, r) ∧
      (e = .ok -> Quotient a b r) := by
  have sizeA := ha.room.trans ha.alloc
  have sizeB := hb.room.trans hb.alloc
  have hk1 := la.lt
  have hk2 := lb.lt
  obtain ⟨s, hs⟩ : ∃ s, s = if a.buf.word k1 < b.buf.word k2 then 1 else 0 := ⟨_, rfl⟩
  obtain ⟨l, hl⟩ : ∃ l, l = divLayout a b (digitsFrom a k1 e1)
    (digitsFrom b k2 e2) (a.buf.word k1) (b.buf.word k2) scaleIncr := ⟨_, rfl⟩
  obtain ⟨hbal, hcopy, hlen1⟩ := divLayout_spec la lb scaleIncr hs l hl
  obtain ⟨fit, hfit⟩ : ∃ fit, fit = fixIntgFracError dst.len l.intg0 l.frac0 := ⟨_, rfl⟩
  have hfitle := fixIntgFracError_le dst.len l.intg0 l.frac0
  rw [← hfit] at hfitle
  obtain ⟨pad, hpad⟩ : ∃ pad, pad = min l.zeroes dst.len := ⟨_, rfl⟩
  obtain ⟨out0, hfill, hsize0, hset, hframe0⟩ := fillUp_spec 0 pad 0 dst.buf le_rfl (by omega)
  obtain ⟨tmp, htmp, htmpsize, htmpword⟩ : ∃ tmp, tmpWords a.buf k1 (a.words - k1) l.len1 = some tmp ∧
      tmp.size = l.len1 ∧ ∀ i : Int, tmp.word i =
        if 0 ≤ i ∧ i < (a.words - k1 : Nat) then a.buf.word (k1 + i) else 0 :=
    ⟨_, if_pos (by omega), rfl, fun _ => rfl⟩
  have hda : Digits digBase a.buf.word k1 (a.words - k1) := ha.digits.mono (by omega) (by omega)
  have hdb : Digits digBase b.buf.word k2 (b.words - k2) := hb.digits.mono (by omega) (by omega)
  obtain ⟨dv, hdv, hn, hlead, hL, hunits⟩ := makeDivisor_spec (by omega) (by omega) hdb
    lb.word_pos.ne'
  rw [← lb.units_eq] at hunits
  have ht0 : tmp.load 0 = some (a.buf.word k1) := by
    rw [tmp.load_eq le_rfl (by omega), htmpword, if_pos (by omega), add_zero]
  obtain ⟨hfirst, out, hloop, hsize, hframe, hdigits, hval⟩ := divLoop_tmp (s := s) hn htmpword hda
    (by omega) (fit.intg + fit.frac - pad) pad out0 (by rw [hlead]; exact hs) (by omega) (by omega)
  rw [← la.units_eq] at hfirst hval
  rw [hlead] at hloop
  refine ⟨fit.error, ⟨fit.intg * digPerDec1, fit.frac * digPerDec1, dst.len, a.sign != b.sign, out⟩,
    ?_, fun hok => ?_⟩
  · simp only [divDigits, a.buf.load_eq (i := k1) (by omega) (by omega),
      b.buf.load_eq (i := k2) (by omega) (by omega), some_bind, ← hl,
      ← hfit, ← hpad, hfill, la.roundUp_eq, lb.roundUp_eq, htmp, hdv, ht0, hloop]
  · have hroom := fixIntgFracError_error_eq_ok.mp (hfit ▸ hok)
    rw [fixIntgFracError_ok hroom] at hfit
    subst hfit hpad
    have hB : 0 < b.units := lt_of_le_of_ne hb.units_nonneg (by
      rw [hunits]
      exact (mul_pos (units_pos hn) (pow_pos digBase_pos _)).ne)
    obtain ⟨hdig, hquot⟩ := quotient_units ha.units_nonneg hL hunits hbal hroom
      (fun j h0 h1 => hset j h0 (by omega)) hfirst hframe hdigits hval
    have hr : words ⟨l.intg0 * digPerDec1, l.frac0 * digPerDec1, dst.len, a.sign != b.sign,
        out⟩ = l.intg0 + l.frac0 := by
      simp [words, intgWords, fracWords, roundUp_mul]
    refine ⟨Legal.of_digits rfl hpos (by rw [hr]; exact hroom) (by simp; omega)
      (by rw [hr]; exact hdig), ?_, .inl rfl⟩
    have hten : (10 : ℚ) ^ (l.frac0 * digPerDec1) = (digBase : ℚ) ^ l.frac0 := by
      rw [Nat.mul_comm, pow_mul]
      norm_num [digBase, digPerDec1]
    rw [mag, units, hr]
    simp only [fracWords, roundUp_mul, hten]
    rw [floor_mag_div hB, ← hquot]

/-- Division truncates the exact quotient to the fraction digits it produces. The
routine always comes to an end: it stays within `tmp1` and the result buffer, no
64-bit intermediate overflows and no assertion fails. -/
theorem decimalDiv_exact {a b dst : DecimalT} (ha : a.Legal) (hb : b.Legal) (hb0 : b.units ≠ 0)
    (hpos : 0 < dst.len) (halloc : dst.len ≤ dst.buf.size) (scaleIncr : Nat) :
    ∃ e r, decimalDiv a b dst scaleIncr = some (e, r) ∧ (e = .ok -> Quotient a b r) := by
  rcases removeLeadingZeroes_legal hb with ⟨hzero, -⟩ | ⟨k2, e2, run2, lb⟩
  · exact absurd hzero hb0
  rcases removeLeadingZeroes_legal ha with ⟨hzero, p, run1⟩ | ⟨k1, e1, run1, la⟩
  · have hcanon : CanonicalZero ⟨1, 0, dst.len, false, dst.buf.put 0 0⟩ :=
      ⟨rfl, rfl, rfl, Words.word_put_self _ _ _⟩
    have hmag : mag ⟨1, 0, dst.len, false, dst.buf.put 0 0⟩ = 0 := by
      rw [mag, hcanon.units_eq, Int.cast_zero, zero_div]
    refine ⟨.ok, _, ?_, fun _ => ⟨(makeZero_wellFormed hpos halloc).toLegal, ?_, .inr hmag⟩⟩
    · simp [decimalDiv, run1, run2, makeZero_eq (hpos.trans_le halloc)]
    · have ha0 : a.mag = 0 := by rw [mag, hzero, Int.cast_zero, zero_div]
      rw [hmag, ha0]
      simp
  · obtain ⟨e, r, hrun, hres⟩ := divDigits_spec ha hb hpos halloc la lb scaleIncr
    refine ⟨e, r, ?_, hres⟩
    rw [← hrun]
    simp [decimalDiv, run1, run2]

theorem decimalDiv_exact_ten_by_three :
    ∃ r, decimalDiv (ofWords 2 0 false [10]) (ofWords 1 0 true [3]) (ofWords 0 0 false [0, 0, 0]) 4 =
      some (.ok, r) ∧ Quotient (ofWords 2 0 false [10]) (ofWords 1 0 true [3]) r := by
  obtain ⟨e, r, hrun, hres⟩ := @decimalDiv_exact (ofWords 2 0 false [10]) (ofWords 1 0 true [3])
    (ofWords 0 0 false [0, 0, 0]) (by decide) (by decide) (by decide) (by decide) (by decide) 4
  have hok : (decimalDiv (ofWords 2 0 false [10]) (ofWords 1 0 true [3])
      (ofWords 0 0 false [0, 0, 0]) 4).map Prod.fst = some .ok := by decide +kernel
  obtain rfl : e = .ok := by simpa [hrun] using hok
  exact ⟨r, hrun, hres rfl⟩

end Decimal
