import Mathlib.Data.Rat.Floor
import EryMysql.Decimal.FromBin

/-!
# Images of a cut fraction

When the fraction of a decimal takes more bytes than the scale has, `decimal2bin`
leaves out the digits beyond the scale. Which bytes there are is all it looks at, so
digits beyond the scale that take no byte of their own are not left out.
-/

namespace Decimal

open WordArray Bytes DecimalT Int

namespace DecimalT
variable {d : DecimalT} {scale : Nat}

/-- One digit of the last place, in units of the last word. -/
def lastUnit (d : DecimalT) : Int := 10 ^ (digPerDec1 * d.fracWords - d.frac)

def clearTail (d : DecimalT) : DecimalT :=
  { d with buf := d.buf.put (d.words - 1) (d.buf.word (d.words - 1) / d.lastUnit * d.lastUnit) }

lemma lastUnit_pos (d : DecimalT) : 0 < d.lastUnit := by
  unfold lastUnit
  positivity

lemma lastUnit_eq (h : d.frac % digPerDec1 ≠ 0) :
    d.lastUnit = 10 ^ (digPerDec1 - d.frac % digPerDec1) := by
  rw [lastUnit, fracWords, roundUp_eq]
  congr 1
  unfold digPerDec1 at *
  omega

lemma lastUnit_mul (d : DecimalT) : 10 ^ d.frac * d.lastUnit = digBase ^ d.fracWords := by
  have hexp : d.frac + (digPerDec1 * d.fracWords - d.frac) = digPerDec1 * d.fracWords := by
    rw [fracWords, roundUp_eq]
    unfold digPerDec1
    omega
  rw [lastUnit, ← pow_add, hexp, pow_mul]
  rfl

lemma clearTail_word_ne (d : DecimalT) {i : Int} (hi : i ≠ d.words - 1) :
    d.clearTail.buf.word i = d.buf.word i :=
  Words.word_put_ne hi

lemma clearTail_word_last (d : DecimalT) : d.clearTail.buf.word (d.words - 1) =
    d.buf.word (d.words - 1) / d.lastUnit * d.lastUnit :=
  Words.word_put_self _ _ _

lemma Legal.clearTail (h : d.Legal) : d.clearTail.WellFormed := by
  have hle : ∀ i : Int, 0 ≤ i -> i < d.words ->
      0 ≤ d.clearTail.buf.word i ∧ d.clearTail.buf.word i ≤ d.buf.word i := by
    intro i h0 h1
    have hword := (h.digits i h0 (by omega)).1
    by_cases hi : i = d.words - 1
    · rw [hi] at hword ⊢
      rw [clearTail_word_last]
      exact ⟨mul_nonneg (ediv_nonneg hword d.lastUnit_pos.le) d.lastUnit_pos.le,
        Int.ediv_mul_le _ d.lastUnit_pos.ne'⟩
    · rw [d.clearTail_word_ne hi]
      exact ⟨hword, le_rfl⟩
  refine ⟨⟨h.pos, h.room, h.alloc, fun i h0 h1 => ?_, fun hpos => ?_⟩, fun hx => ?_⟩
  · have hin : i < d.words := by
      change i < 0 + (d.words : Int) at h1
      omega
    exact ⟨(hle i h0 hin).1, (hle i h0 hin).2.trans_lt (h.digits i h0 (by omega)).2⟩
  · refine (hle 0 le_rfl ?_).2.trans_lt (h.leading hpos)
    change 0 < d.intg at hpos
    simp only [words, intgWords, roundUp_eq]
    omega
  · exact lastUnit_eq hx ▸ d.clearTail_word_last ▸ Dvd.intro_left _ rfl

lemma clearTail_units (d : DecimalT) : d.clearTail.units = d.units / d.lastUnit * d.lastUnit := by
  change val digBase d.clearTail.buf.word 0 d.words = val digBase d.buf.word 0 d.words / _ * _
  have hlast := d.clearTail_word_last
  cases hw : d.words with
  | zero => simp
  | succ n =>
    have hsame : val digBase d.clearTail.buf.word 0 n = val digBase d.buf.word 0 n :=
      val_congr fun i _ h1 => d.clearTail_word_ne (by omega)
    obtain ⟨b, hb⟩ : d.lastUnit ∣ digBase := by
      rw [lastUnit, show digBase = 10 ^ digPerDec1 from rfl, fracWords, roundUp_eq]
      apply pow_dvd_pow
      unfold digPerDec1
      omega
    rw [hw, Nat.cast_succ, add_sub_cancel_right] at hlast
    rw [val_succ, val_succ, hsame, zero_add, hlast]
    conv_rhs => rw [show val digBase d.buf.word 0 n * digBase + d.buf.word n =
      d.buf.word n + val digBase d.buf.word 0 n * b * d.lastUnit by rw [hb]; ring,
      add_mul_ediv_right _ _ d.lastUnit_pos.ne']
    rw [hb]
    ring

lemma clearTail_groups (d : DecimalT) (precision : Nat) :
    d.clearTail.groups precision d.frac = d.groups precision d.frac := by
  by_cases hx : d.frac % digPerDec1 = 0
  · have hunit : d.lastUnit = 1 := by
      rw [lastUnit, fracWords, roundUp_eq, show digPerDec1 * ((d.frac + 8) / 9) - d.frac = 0 by
        unfold digPerDec1 at *; omega, pow_zero]
    simp [clearTail, hunit]
  · have hlast : (d.intgWords : Int) + (d.frac / digPerDec1 : Nat) = d.words - 1 := by
      rw [words, fracWords, roundUp_eq_words, if_pos hx]
      push_cast
      ring
    have hword : ∀ j : Int, j ≠ (d.frac / digPerDec1 : Nat) -> d.clearTail.wordAt j = d.wordAt j := by
      intro j hj
      have hne := d.clearTail_word_ne (i := d.intgWords + j) (by omega)
      exact congrArg (fun x => if 0 ≤ (d.intgWords : Int) + j ∧ d.intgWords + j < d.words then x
        else 0) hne
    have hgroup : d.clearTail.wordAt (d.frac / digPerDec1 : Nat) / d.lastUnit =
        d.wordAt (d.frac / digPerDec1 : Nat) / d.lastUnit := by
      have hin : (d.intgWords : Int) + (d.frac / digPerDec1 : Nat) < d.words := by omega
      rw [d.wordAt_eq (by positivity) hin, d.clearTail.wordAt_eq (by positivity) hin]
      change d.clearTail.buf.word (d.intgWords + _) / _ = _
      rw [hlast, clearTail_word_last, mul_ediv_cancel _ d.lastUnit_pos.ne']
    rw [lastUnit_eq hx] at hgroup
    rw [groups, packed]
    congr 2
    exact val_congr fun i _ h1 => hword i (by omega)

lemma Legal.cut_mag (h : d.Legal) (hs : scale ≤ d.frac) :
    (DecimalT.clearTail { d with frac := scale }).mag = ⌊d.mag * 10 ^ scale⌋ / 10 ^ scale := by
  obtain ⟨e, he⟩ : ∃ e : DecimalT, e = { d with frac := scale } := ⟨_, rfl⟩
  obtain ⟨k, hk⟩ : ∃ k, d.fracWords = e.fracWords + k := by
    apply Nat.exists_eq_add_of_le
    rw [fracWords, fracWords, roundUp_eq, roundUp_eq, show e.frac = scale by rw [he]]
    omega
  have hwords : d.words = e.words + k := by
    rw [words, hk, ← Nat.add_assoc, he]
    rfl
  obtain ⟨t, ht⟩ : ∃ t, t = val digBase d.buf.word (0 + e.words) k := ⟨_, rfl⟩
  have hunits : d.units = e.units * digBase ^ k + t := by
    rw [units, hwords, val_add, ← ht, units, he]
  have htail := h.digits.mono (t := 0 + e.words) (m := k) (by omega) (by omega)
  have ht0 : 0 ≤ t := ht ▸ val_nonneg digBase_pos.le htail
  have ht1 : t < digBase ^ k := ht ▸ val_lt digBase_pos.le htail
  have hbase := pow_pos digBase_pos k
  have hunit := e.lastUnit_pos
  have hpow : (digBase : ℚ) ^ e.fracWords = 10 ^ scale * e.lastUnit := by
    have := e.lastUnit_mul
    rw [he] at this ⊢
    exact_mod_cast this.symm
  have hfloor : ⌊d.mag * 10 ^ scale⌋ = e.units / e.lastUnit := by
    have hmag : d.mag * 10 ^ scale =
        (e.units * digBase ^ k + t : Int) / (digBase ^ k : Int) / e.lastUnit := by
      rw [mag, hunits, hk, pow_add, hpow]
      push_cast
      field_simp
    rw [hmag, floor_div_cast_of_nonneg hunit.le, floor_div_cast_of_nonneg hbase.le,
      floor_intCast, add_comm, add_mul_ediv_right _ _ hbase.ne',
      ediv_eq_zero_of_lt ht0 ht1, zero_add]
  have hcut : e.clearTail.mag =
      (e.units / e.lastUnit * e.lastUnit : Int) / (digBase : ℚ) ^ e.fracWords := by
    rw [mag, clearTail_units]
    rfl
  rw [← he, hcut, hfloor, hpow]
  push_cast
  field_simp

end DecimalT

lemma fracPlan_truncated {fromFrac frac : Nat} :
    (fracPlan fromFrac frac).truncated = true ↔ partSize frac < partSize fromFrac := by
  unfold fracPlan
  dsimp only
  split_ifs <;> simp_all

lemma partSize_lt_of_truncated {d : DecimalT} {precision scale : Nat} {image : List Nat}
    (h : decimal2bin d precision scale = some (.truncated, image)) :
    partSize scale < partSize d.frac := by
  simp only [decimal2bin, Option.bind_eq_bind, Option.bind_eq_some_iff] at h
  obtain ⟨⟨fromIntg, p⟩, -, out, -, h⟩ := h
  split at h
  · have herr := congrArg Prod.fst (Option.some.inj h)
    by_contra hsize
    rw [← fracPlan_truncated, Bool.not_eq_true] at hsize
    simp only [hsize, Bool.false_eq_true, if_false] at herr
    split_ifs at herr
  · cases h

/-- The digits beyond the scale are cut off, and the image is read back, exactly if they take bytes
of their own. -/
theorem decimal2bin_truncates_iff {d : DecimalT} {precision scale : Nat} (hd : d.WellFormed)
    (hp : 1 ≤ precision) (hs : scale ≤ precision) (hintg : d.mag < 10 ^ (precision - scale))
    {dst : DecimalT} (hlen : decimalSize precision scale ≤ dst.len)
    (halloc : dst.len ≤ dst.buf.size) :
    (∃ image r, decimal2bin d precision scale = some (.truncated, image) ∧
      bin2decimal image dst precision scale = some (.ok, r) ∧ r.WellFormed ∧
      r.value = applySign d.sign (⌊d.mag * 10 ^ scale⌋ / 10 ^ scale)) ↔
    partSize scale < partSize d.frac := by
  constructor
  · rintro ⟨image, r, hrun, -⟩
    exact partSize_lt_of_truncated hrun
  · intro hsize
    have hle : scale ≤ d.frac := by
      by_contra hlt
      exact hsize.not_ge (partSize_mono (by omega))
    have hmag := hd.toLegal.cut_mag hle
    have hfloor : (⌊d.mag * 10 ^ scale⌋ : ℚ) / 10 ^ scale ≤ d.mag := by
      rw [div_le_iff₀ (by positivity)]
      exact floor_le _
    obtain ⟨r, hrun, hback⟩ := bin2decimal_image (hd.toLegal.setFrac hle).clearTail
      ⟨hp, hs, hmag ▸ hfloor.trans_lt hintg, le_rfl⟩ hlen halloc
    rw [clearTail_groups { d with frac := scale } precision] at hrun
    refine ⟨_, r, decimal2bin_cut hd.toLegal hp hs hintg hsize, hrun, hback.wellFormed, ?_⟩
    rw [hback.value_eq, value, hmag]
    rfl

theorem decimal2bin_truncates_iff_thousandths :
    ∃ image r, decimal2bin (ofWords 1 3 true [1, 256000000]) 3 2 = some (.truncated, image) ∧
      bin2decimal image (ofWords 0 0 false [7, 7]) 3 2 = some (.ok, r) ∧ r.WellFormed ∧
      r.value = applySign true
        (⌊(ofWords 1 3 true [1, 256000000]).mag * 10 ^ 2⌋ / 10 ^ 2) :=
  (decimal2bin_truncates_iff (by decide) (by decide) (by decide) ((mag_lt_iff _).mpr (by decide))
    (by decide) (by decide)).mpr (by decide)

/-- A scale of one digit and a fraction of two have the same byte size: the second
digit is stored as well, and the image is not one of scale one. -/
theorem decimal2bin_keeps_twelve_hundredths :
    let d := ofWords 0 2 false [120000000]
    d.WellFormed ∧ d.mag < 10 ^ (2 - 1) ∧ 1 < d.frac ∧
      decimal2bin d 2 1 = some (.ok, [128, 12]) ∧
      (bin2decimal [128, 12] (ofWords 0 0 false [7, 7]) 2 1).map Prod.fst = some .badNum := by
  exact ⟨by decide, (mag_lt_iff _).mpr (by decide), by decide, by decide, by decide⟩

end Decimal
