import EryMysql.Decimal.ToBin

/-!
# Images compare as their numbers do

Two images of one precision and scale are compared by `memcmp`. That is the order
of the groups, read as one number; the groups have the order of the digits, and
the inverted bytes of a negative number turn it round.
-/

namespace Decimal

open WordArray Bytes DecimalT Nat

variable {d : DecimalT} {precision scale : Nat}

section
variable (h : d.Legal) (hd : Storable d precision scale)
include h hd

lemma Storable.zero_before {j : Int} (hj : j < -((precision - scale) / digPerDec1 + 1 : Nat)) :
    d.wordAt j = 0 := by
  obtain ⟨digits, p, -, hl⟩ := removeLeadingZeroes_intg h
  have hdigits := hl.digits_le h hd.intg
  apply hl.wordAt_eq_zero
  rw [roundUp_eq]
  unfold digPerDec1 at *
  omega

lemma Storable.front_lt : d.wordAt (-((precision - scale) / digPerDec1 + 1 : Nat)) <
      10 ^ ((precision - scale) % digPerDec1) := by
  obtain ⟨digits, p, -, hl⟩ := removeLeadingZeroes_intg h
  exact hl.front_lt (hl.digits_le h hd.intg)

lemma Storable.groups_bounds : 0 ≤ d.groups precision scale ∧
      2 * (d.groups precision scale + 1) ≤ 256 ^ decimalBinSize precision scale :=
  packed_bounds h (hd.front_lt h) (decimalBinSize_pos hd.pos scale hd.le)

end

lemma unitsAt_eq_val (d : DecimalT) {n f : Nat} (hf : d.fracWords ≤ f)
    (hn : ∀ j : Int, j < -n -> d.wordAt j = 0) :
    d.unitsAt f = val digBase d.wordAt (-n) (n + f) := by
  obtain ⟨k, rfl⟩ := Nat.exists_eq_add_of_le hf
  have hwords := d.val_word_eq digBase le_rfl (zero_add (d.intgWords : Int)) (le_refl d.fracWords)
  have hall : d.unitsAt (d.fracWords + k) =
      val digBase d.wordAt (-d.intgWords) (d.intgWords + (d.fracWords + k)) := by
    rw [← Nat.add_assoc, val_trailing_zeros, ← hwords, unitsAt, Nat.add_sub_cancel_left]
    · rfl
    · intro i h0 _
      exact d.wordAt_eq_zero (Or.inr (by omega))
  rw [hall]
  rcases le_total n d.intgWords with hle | hle
  · exact val_wordAt_of_zero d _ _ hle hn
  · exact (val_wordAt_of_zero d _ _ hle fun j hj => d.wordAt_eq_zero (Or.inl (by omega))).symm

lemma DecimalT.WellFormed.group_dvd (h : d.WellFormed) {frac : Nat} (hf : d.frac ≤ frac) :
    (10 : Int) ^ (digPerDec1 - frac % digPerDec1) ∣ d.wordAt (frac / digPerDec1 : Nat) := by
  have hw : d.fracWords = (d.frac + 8) / 9 := roundUp_eq _
  rcases le_or_gt d.fracWords (frac / digPerDec1) with hle | hlt
  · rw [d.wordAt_eq_zero (Or.inr (by omega))]
    exact dvd_zero _
  · have hmod : d.frac % digPerDec1 ≠ 0 ∧ d.frac % digPerDec1 ≤ frac % digPerDec1 ∧
        d.fracWords = frac / digPerDec1 + 1 := by
      unfold digPerDec1 at *
      omega
    have hlast := h.trailing hmod.1
    rw [d.wordAt_eq (by positivity) (by unfold words; omega),
      show (d.intgWords : Int) + (frac / digPerDec1 : Nat) = d.words - 1 by
        unfold words; omega]
    exact (pow_dvd_pow 10 (by omega)).trans hlast

lemma compare_ediv {c x y : Int} (hc : 0 < c) (hx : c ∣ x) (hy : c ∣ y) :
    compare (x / c) (y / c) = compare x y := by
  have hmul := compare_mul_add (a := x / c) (b := y / c) le_rfl hc le_rfl hc
  simpa [Int.ediv_mul_cancel hx, Int.ediv_mul_cancel hy] using hmul.symm

lemma compare_groups {a b : DecimalT} (ha : a.WellFormed) (hb : b.WellFormed)
    (sa : Storable a precision scale) (sb : Storable b precision scale) :
    compare (a.groups precision scale) (b.groups precision scale) = compare a.mag b.mag := by
  have hx : scale % digPerDec1 ≤ digPerDec1 := (mod_lt _ (by decide)).le
  have hfrac : ∀ {d : DecimalT}, Storable d precision scale ->
      d.fracWords ≤ scale / digPerDec1 + 1 := by
    intro d hd
    have hle := hd.frac
    rw [fracWords, roundUp_eq]
    unfold digPerDec1
    omega
  have ga := ha.group_lt (scale / digPerDec1 : Nat) hx
  have gb := hb.group_lt (scale / digPerDec1 : Nat) hx
  have wa := ha.digits_wordAt (scale / digPerDec1 : Nat) 1 _ le_rfl (by omega)
  have wb := hb.digits_wordAt (scale / digPerDec1 : Nat) 1 _ le_rfl (by omega)
  have hbytes := dig2bytes_pow_le hx
  have hlast : -((precision - scale) / digPerDec1 + 1 : Nat) +
      ((precision - scale) / digPerDec1 + 1 + scale / digPerDec1 : Nat) =
        ((scale / digPerDec1 : Nat) : Int) := by
    push_cast
    ring
  have hwords := compare_val_base
    (ha.digits_wordAt (-((precision - scale) / digPerDec1 + 1 : Nat))
      ((precision - scale) / digPerDec1 + 1 + scale / digPerDec1))
    (hb.digits_wordAt (-((precision - scale) / digPerDec1 + 1 : Nat)) _) digBase_le_word
  rw [compare_mag a b (hfrac sa) (hfrac sb),
    unitsAt_eq_val a (hfrac sa) (fun j hj => sa.zero_before ha.toLegal hj),
    unitsAt_eq_val b (hfrac sb) (fun j hj => sb.zero_before hb.toLegal hj), ← add_assoc,
    val_succ, val_succ, hlast, compare_mul_add wa.1 wa.2 wb.1 wb.2, hwords, groups, groups,
    packed, packed, compare_mul_add ga.1 (ga.2.trans_le hbytes) gb.1 (gb.2.trans_le hbytes),
    compare_ediv (by positivity) (ha.group_dvd sa.frac) (hb.group_dvd sb.frac)]

/-- Inverting the negative numbers carries the order of magnitudes to signed numbers. -/
lemma compare_xorMask {s t : Bool} {x y : Int} {p q : ℚ} (h : compare x y = compare p q)
    (hx : 0 ≤ x) (hy : 0 ≤ y) (hp : 0 ≤ p) (hq : 0 ≤ q) (hs : s = true -> 0 < p)
    (ht : t = true -> 0 < q) :
    compare (xorMask s x) (xorMask t y) = compare (applySign s p) (applySign t q) := by
  obtain ⟨hlt, hgt⟩ := compare_eq_compare_iff.mp h
  rw [compare_eq_compare_iff]
  cases s <;> cases t <;> simp only [xorMask, applySign, Bool.false_eq_true, if_true, if_false]
  · exact ⟨hlt, hgt⟩
  · have hneg := ht rfl
    exact ⟨⟨fun h => by omega, fun h => by linarith⟩, ⟨fun _ => by linarith, fun _ => by omega⟩⟩
  · have hneg := hs rfl
    exact ⟨⟨fun _ => by linarith, fun _ => by omega⟩, ⟨fun h => by omega, fun h => by linarith⟩⟩
  · rw [neg_lt_neg_iff, neg_lt_neg_iff, ← hlt, ← hgt]
    constructor <;> omega

/-- The byte order of the two images, the result of `decimal_cmp` and the order of
the two numbers are one. -/
def ImagesAgree (a b : DecimalT) (precision scale : Nat) : Prop :=
  ∃ x y, decimal2bin a precision scale = some (.ok, x) ∧
    decimal2bin b precision scale = some (.ok, y) ∧
    x.length = decimalBinSize precision scale ∧ y.length = decimalBinSize precision scale ∧
    memcmp x y = compare a.value b.value ∧
    decimalCmp a b = some (cmpSign (compare a.value b.value))

theorem decimal2bin_order {a b : DecimalT} {precision scale : Nat} (ha : a.WellFormed)
    (hb : b.WellFormed) (na : ¬ a.NegativeZero) (nb : ¬ b.NegativeZero)
    (sa : Storable a precision scale) (sb : Storable b precision scale) :
    ImagesAgree a b precision scale := by
  obtain ⟨a0, a1⟩ := sa.groups_bounds ha.toLegal
  obtain ⟨b0, b1⟩ := sb.groups_bounds hb.toLegal
  refine ⟨_, _, decimal2bin_spec ha.toLegal na sa, decimal2bin_spec hb.toLegal nb sb,
    length_store _ _, length_store _ _, ?_, decimalCmp_spec ha.toLegal hb.toLegal na nb⟩
  have horder := compare_xorMask (compare_groups ha hb sa sb) a0 b0 ha.mag_nonneg hb.mag_nonneg
    (fun hs => ha.mag_pos fun hz => na ⟨hs, hz⟩) (fun hs => hb.mag_pos fun hz => nb ⟨hs, hz⟩)
  have xa := xorMask_bounds a.sign a0 a1
  have xb := xorMask_bounds b.sign b0 b1
  obtain ⟨k, hk⟩ := exists_eq_succ_of_ne_zero
    (decimalBinSize_pos sa.pos scale sa.le).ne'
  rw [hk] at xa xb
  rw [hk, succ_sub_one, value, value, ← horder, memcmp_store, compare_eq_compare_iff]
  · omega
  · omega
  · omega
  · omega
  · omega

theorem decimal2bin_order_three_halves_minus_two :
    ImagesAgree (ofWords 1 1 false [1, 500000000]) (ofWords 10 0 true [0, 2]) 3 1 :=
  decimal2bin_order (by decide) (by decide) (by decide) (by decide)
    ⟨by decide, by decide, (mag_lt_iff _).mpr (by decide), by decide⟩
    ⟨by decide, by decide, (mag_lt_iff _).mpr (by decide), by decide⟩

/-- Digits beyond `frac` are not stored, while `decimal_cmp` looks at them. -/
theorem decimal2bin_drops_digits_beyond_frac :
    let a := ofWords 1 1 false [1, 123456789]
    let b := ofWords 1 1 false [1, 100000000]
    a.Legal ∧ b.Legal ∧ ¬ a.NegativeZero ∧ ¬ b.NegativeZero ∧ Storable a 2 1 ∧ Storable b 2 1 ∧
      ¬ ImagesAgree a b 2 1 := by
  intro a b
  refine ⟨by decide, by decide, by decide, by decide,
    ⟨by decide, by decide, (mag_lt_iff _).mpr (by decide), by decide⟩,
    ⟨by decide, by decide, (mag_lt_iff _).mpr (by decide), by decide⟩, ?_⟩
  rintro ⟨x, y, hx, hy, -, -, hmem, hcmp⟩
  have image : decimal2bin a 2 1 = decimal2bin b 2 1 := by decide
  obtain rfl : x = y := by
    rw [image, hy] at hx
    simpa using hx.symm
  rw [← hmem, memcmp_self] at hcmp
  exact absurd hcmp (by decide)

end Decimal
