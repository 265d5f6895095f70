import EryMysql.Decimal.Mul

/-!
# Multiplication with a bounded fraction

When the integer words of a product fit and its fraction words do not, `decimal_mul` drops words at
the end of both factors and multiplies the rest exactly. Each factor loses half of the words, however
few fraction words it has and however large the other factor is, so whole units of the product may
be lost.
-/

namespace Decimal

open WordArray DecimalT Option Int

/-- How many words at the end of each factor are left out if the product has `len` words: half of
those that are too many, and the greater half from the factor with more fraction words. -/
def mulDropped (a b : DecimalT) (len : Nat) : Nat × Nat :=
  let j := roundUp (a.intg + b.intg) + (a.fracWords + b.fracWords) - len
  if a.fracWords ≤ b.fracWords then (j / 2, j - j / 2) else (j - j / 2, j / 2)

def DecimalT.cut (d : DecimalT) (k : Nat) : ℚ :=
  (d.units / digBase ^ k * digBase ^ k : Int) / (digBase : ℚ) ^ d.fracWords

/-- What the last `k` words of a decimal are less than, if there are any. -/
def DecimalT.tailBound (d : DecimalT) (k : Nat) : ℚ :=
  if k = 0 then 0 else (digBase : ℚ) ^ k / digBase ^ d.fracWords

/-- Each factor times what the other one may lose is less than one unit in all. -/
def MulKeepsUnits (a b : DecimalT) (len : Nat) : Prop :=
  a.mag * b.tailBound (mulDropped a b len).2 + b.mag * a.tailBound (mulDropped a b len).1 < 1

instance (a b : DecimalT) (len : Nat) : Decidable (MulKeepsUnits a b len) :=
  inferInstanceAs (Decidable (_ < _))

section Cut
variable {d : DecimalT} {k : Nat}

lemma DecimalT.Legal.cut_nonneg (h : d.Legal) : 0 ≤ d.cut k := by
  have hkept : 0 ≤ d.units / digBase ^ k * digBase ^ k :=
    mul_nonneg (ediv_nonneg h.units_nonneg (pow_nonneg digBase_pos.le k))
      (pow_nonneg digBase_pos.le k)
  exact div_nonneg (by exact_mod_cast hkept) (pow_nonneg (by exact_mod_cast digBase_pos.le) _)

lemma DecimalT.cut_le_mag : d.cut k ≤ d.mag := by
  refine div_le_div_of_nonneg_right ?_ (pow_nonneg (by exact_mod_cast digBase_pos.le) _)
  exact_mod_cast Int.ediv_mul_le d.units (pow_ne_zero k digBase_pos.ne')

lemma DecimalT.mag_sub_cut_le : d.mag - d.cut k ≤ d.tailBound k := by
  have hbase : (0 : ℚ) < digBase ^ d.fracWords := pow_pos (by exact_mod_cast digBase_pos) _
  unfold tailBound mag cut
  rw [← sub_div]
  split
  case isTrue hk => simp [hk]
  case isFalse =>
    rw [div_le_div_iff_of_pos_right hbase]
    have hlt := Int.lt_ediv_add_one_mul_self d.units (pow_pos digBase_pos k)
    have hle : (d.units - d.units / digBase ^ k * digBase ^ k : Int) ≤ digBase ^ k := by
      rw [add_mul, one_mul] at hlt
      omega
    exact_mod_cast hle

end Cut

variable {a b dst r : DecimalT}

/-- The error comes from the number of words, except for an overflow. -/
lemma fits_of_truncated (h : decimalMul a b dst = some (.truncated, r)) :
    roundUp (a.intg + b.intg) ≤ dst.len ∧
      dst.len < roundUp (a.intg + b.intg) + (a.fracWords + b.fracWords) := by
  simp only [decimalMul, bind_eq_bind, bind_eq_some_iff] at h
  obtain ⟨buf, -, ⟨overflow, out⟩, -, h⟩ := h
  have herror : (fixIntgFracError dst.len (roundUp (a.intg + b.intg))
      (a.fracWords + b.fracWords)).error = .truncated := by
    cases overflow with
    | true => simp at h
    | false =>
      simp only [Bool.false_eq_true, if_false, bind_eq_some_iff, some.injEq, Prod.mk.injEq] at h
      obtain ⟨_, -, _, -, h, -⟩ := h
      exact h
  unfold fixIntgFracError at herror
  split at herror
  · split at herror
    · cases herror
    · omega
  · cases herror

lemma mulFactors_truncated {len k1 k2 : Nat} (ha : a.words ≤ len) (hb : b.words ≤ len)
    (hintg : roundUp (a.intg + b.intg) ≤ len)
    (hfrac : len < roundUp (a.intg + b.intg) + (a.fracWords + b.fracWords))
    (hk : mulDropped a b len = (k1, k2)) :
    mulFactors a b ⟨roundUp (a.intg + b.intg), len - roundUp (a.intg + b.intg), .truncated⟩ =
        ⟨a.intgWords, b.intgWords, a.fracWords - k1, b.fracWords - k2⟩ ∧
      k1 ≤ a.words ∧ k2 ≤ b.words ∧
      k1 + k2 + len = roundUp (a.intg + b.intg) + (a.fracWords + b.fracWords) := by
  have hwa : a.intgWords = (a.intg + 8) / 9 := roundUp_eq _
  have hwb : b.intgWords = (b.intg + 8) / 9 := roundUp_eq _
  have hw0 : roundUp (a.intg + b.intg) = (a.intg + b.intg + 8) / 9 := roundUp_eq _
  unfold words at *
  simp only [mulDropped, mulFactors, reduceCtorEq, if_false, lt_irrefl] at hk ⊢
  by_cases hle : a.fracWords ≤ b.fracWords
  · simp only [if_pos hle, Prod.mk.injEq] at hk ⊢
    refine ⟨?_, by omega, by omega, by omega⟩
    congr 1 <;> omega
  · simp only [if_neg hle, Prod.mk.injEq] at hk ⊢
    refine ⟨?_, by omega, by omega, by omega⟩
    congr 1 <;> omega

lemma cut_mul_cut {k1 k2 f : Nat} (hf : k1 + k2 + f = a.fracWords + b.fracWords) :
    a.cut k1 * b.cut k2 =
      (a.units / digBase ^ k1 * (b.units / digBase ^ k2) : Int) / (digBase : ℚ) ^ f := by
  have hbase : (digBase : ℚ) ≠ 0 := by exact_mod_cast digBase_pos.ne'
  rw [cut, cut, div_mul_div_comm, ← pow_add, ← hf, pow_add, pow_add]
  push_cast
  field_simp

lemma decimalMul_truncated (ha : a.Legal) (hb : b.Legal) (haw : a.words ≤ dst.len)
    (hbw : b.words ≤ dst.len) (alloc : dst.len ≤ dst.buf.size)
    (hintg : roundUp (a.intg + b.intg) ≤ dst.len)
    (hfrac : dst.len < roundUp (a.intg + b.intg) + (a.fracWords + b.fracWords)) :
    ∃ r, decimalMul a b dst = some (.truncated, r) ∧ r.value = applySign (a.sign != b.sign)
      (a.cut (mulDropped a b dst.len).1 * b.cut (mulDropped a b dst.len).2) := by
  obtain ⟨⟨k1, k2⟩, hdropped⟩ : ∃ k, mulDropped a b dst.len = k := ⟨_, rfl⟩
  obtain ⟨hfactors, hk1, hk2, hk⟩ := mulFactors_truncated haw hbw hintg hfrac hdropped
  obtain ⟨out0, out1, hfill, hrows, hres⟩ := mulRows_kept ha hb dst.buf alloc hk1 hk2 hk
  rw [hdropped]
  obtain ⟨I, hI⟩ : ∃ I, I = roundUp (a.intg + b.intg) := ⟨_, rfl⟩
  rw [← hI] at hintg hfrac hk hfactors
  obtain ⟨f, hf⟩ : ∃ f, f = dst.len - I := ⟨_, rfl⟩
  obtain ⟨d, hd⟩ : ∃ d : DecimalT, d = ⟨I * digPerDec1, min (a.frac + b.frac) (f * digPerDec1),
    dst.len, a.sign != b.sign, out1⟩ := ⟨_, rfl⟩
  have hfrac' : d.fracWords = f := by
    have hwa : a.fracWords = (a.frac + 8) / 9 := roundUp_eq _
    have hwb : b.fracWords = (b.frac + 8) / 9 := roundUp_eq _
    rw [hd, fracWords, roundUp_eq, digPerDec1]
    dsimp only
    omega
  have hwords : d.words = dst.len := by
    rw [words, hfrac', hd, intgWords, roundUp_mul]
    omega
  have hdbuf : d.buf = out1 := by rw [hd]
  rw [← hdbuf] at hres
  have hrun : decimalMul a b dst = (mulNegativeZero dst.len d).bind fun r =>
      (mulShift I r).bind fun r => some (.truncated, r) := by
    have h1 : (a.intgWords : Int) + (a.fracWords - k1) = (a.words - k1 : Nat) := by
      unfold words at *
      omega
    have h2 : (b.intgWords : Int) + (b.fracWords - k2) = (b.words - k2 : Nat) := by
      unfold words at *
      omega
    have hlen : I + (dst.len - I) = dst.len := by omega
    simp only [decimalMul, ← hI, fixIntgFracError, if_pos hfrac, if_neg (Nat.not_lt.mpr hintg),
      hfactors, h1, h2, toNat_natCast, hlen, hfill, bind_eq_bind, bind_some, ← Nat.cast_add, hrows,
      if_false, reduceCtorEq, hd, hf]
  have hpos : 0 < dst.len := by
    omega
  rw [hrun, mulNegativeZero_eq (by rw [hres.size]; exact alloc) hres.digits (fun _ => hpos),
    hres.total_eq, cut_mul_cut (f := f) (by omega)]
  have hsize : 0 < d.buf.size := by
    rw [hres.size]
    omega
  by_cases hneg : d.sign = true ∧ a.units / digBase ^ k1 * (b.units / digBase ^ k2) = 0
  · refine ⟨⟨1, 0, d.len, false, d.buf.put 0 0⟩, ?_, ?_⟩
    · rw [if_pos hneg, makeZero_eq hsize]
      simp [mulShift, skipLeading, (d.buf.put 0 0).load_eq le_rfl (by simpa using hsize)]
    · have hcanon : CanonicalZero ⟨1, 0, d.len, false, d.buf.put 0 0⟩ :=
        ⟨rfl, rfl, rfl, Words.word_put_self _ _ _⟩
      rw [(value_eq_zero_iff _).mpr hcanon.units_eq, hneg.2, cast_zero, zero_div,
        applySign_zero]
  · obtain ⟨j, buf, hj, hshift, -, -, -, hval⟩ := @mulShift_spec d I (by rw [hd])
      hsize (by rw [hwords, hres.size]; exact alloc) (by rw [hwords]; exact hres.digits)
    refine ⟨_, by rw [if_neg hneg, bind_some, hshift, bind_some], ?_⟩
    rw [hfrac'] at hval
    have hsign : d.sign = (a.sign != b.sign) := by rw [hd]
    rw [value, mag, units, words, intgWords, roundUp_mul]
    change applySign d.sign (val digBase buf.word 0 (I - j + d.fracWords) / _ ^ d.fracWords) = _
    rw [hfrac', hval, units, hwords, hres.total_eq, hsign]

lemma mul_sub_cut_mul_cut_le {k1 k2 : Nat} (ha : a.Legal) (hb : b.Legal) :
    a.mag * b.mag - a.cut k1 * b.cut k2 ≤ a.mag * b.tailBound k2 + b.mag * a.tailBound k1 := by
  have hfirst : a.mag * (b.mag - b.cut k2) ≤ a.mag * b.tailBound k2 :=
    mul_le_mul_of_nonneg_left mag_sub_cut_le ha.mag_nonneg
  have hsecond : b.cut k2 * (a.mag - a.cut k1) ≤ b.mag * a.tailBound k1 :=
    mul_le_mul cut_le_mag mag_sub_cut_le (sub_nonneg.mpr cut_le_mag) hb.mag_nonneg
  linarith

/-- A truncated product is off by what the words that were left out make up, which is less than one
unit if neither factor is too large for what the other one may lose. -/
theorem decimalMul_truncated_loss (wa : a.WellFormed) (wb : b.WellFormed) (ha : a.words ≤ dst.len)
    (hb : b.words ≤ dst.len) (alloc : dst.len ≤ dst.buf.size)
    (hrun : decimalMul a b dst = some (.truncated, r)) :
    |r.value - a.value * b.value| = a.mag * b.mag -
        a.cut (mulDropped a b dst.len).1 * b.cut (mulDropped a b dst.len).2 ∧
      (MulKeepsUnits a b dst.len -> |r.value - a.value * b.value| < 1) := by
  obtain ⟨hintg, hfrac⟩ := fits_of_truncated hrun
  obtain ⟨r', hrun', hvalue⟩ := decimalMul_truncated wa.toLegal wb.toLegal ha hb alloc hintg hfrac
  obtain ⟨-, rfl⟩ := Prod.mk.inj (some.inj (hrun.symm.trans hrun'))
  have hle : a.cut (mulDropped a b dst.len).1 * b.cut (mulDropped a b dst.len).2 ≤ a.mag * b.mag :=
    mul_le_mul cut_le_mag cut_le_mag wb.toLegal.cut_nonneg wa.toLegal.mag_nonneg
  have hloss : |r.value - a.value * b.value| = a.mag * b.mag -
      a.cut (mulDropped a b dst.len).1 * b.cut (mulDropped a b dst.len).2 := by
    rw [hvalue, value, value, ← applySign_mul, ← applySign_sub]
    cases a.sign != b.sign with
    | false => rw [applySign, if_neg (by decide), abs_sub_comm, abs_of_nonneg (sub_nonneg.mpr hle)]
    | true => rw [applySign, if_pos rfl, neg_sub, abs_of_nonneg (sub_nonneg.mpr hle)]
  refine ⟨hloss, fun hkeeps => ?_⟩
  rw [hloss]
  exact (mul_sub_cut_mul_cut_le wa.toLegal wb.toLegal).trans_lt hkeeps

theorem decimalMul_truncated_loss_thirds :
    ∃ r, decimalMul (ofWords 1 18 false [1, 333333333, 333333333])
      (ofWords 1 18 true [3, 333333333, 333333333]) (ofWords 0 0 false [7, 7, 7]) =
        some (.truncated, r) ∧
      |r.value - (ofWords 1 18 false [1, 333333333, 333333333]).value *
        (ofWords 1 18 true [3, 333333333, 333333333]).value| < 1 :=
  ⟨_, rfl, (@decimalMul_truncated_loss (ofWords 1 18 false [1, 333333333, 333333333])
    (ofWords 1 18 true [3, 333333333, 333333333]) (ofWords 0 0 false [7, 7, 7]) _ (by decide)
    (by decide) (by decide) (by decide) (by decide) rfl).2 (by decide +kernel)⟩

/-- The product of 1999999999 and 0.999999999999999999 in two words. The last word of the first
factor is left out, and the result is 999999999. -/
theorem decimalMul_truncated_loses_half :
    ∃ a b dst r : DecimalT, a.WellFormed ∧ b.WellFormed ∧ a.words ≤ dst.len ∧ b.words ≤ dst.len ∧
      dst.len ≤ dst.buf.size ∧ decimalMul a b dst = some (.truncated, r) ∧
      r.value = 999999999 ∧ a.value * b.value > 1999999998 := by
  refine ⟨ofWords 10 0 false [1, 999999999], ofWords 0 18 false [999999999, 999999999],
    ofWords 0 0 false [7, 7], _, by decide, by decide, by decide, by decide, by decide, rfl, ?_, ?_⟩
  iterate 2 decide +kernel

end Decimal
