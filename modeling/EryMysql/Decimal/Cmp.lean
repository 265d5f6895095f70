import EryMysql.Decimal.Basic

/-!
# Comparison of decimals

The first half of `do_sub` compares the two magnitudes. Leading zero words are
dropped first; if as many integer words are left on both sides, trailing zero
words are dropped too, which may eat into the integer part, and the rest is
compared word by word. `decimal_cmp` is `do_sub` without a result.
-/

namespace Decimal

open WordArray DecimalT Option

/-- What `do_sub` knows after the comparison. `frac1` and `frac2` count the
fraction words left and are negative when integer words were dropped as well. -/
structure SubHead where
  start1 : Int
  start2 : Int
  intg1 : Int
  intg2 : Int
  frac1 : Int
  frac2 : Int
  order : Ordering

def stripIntg (b : Words) (intg : Nat) : Option Int := do
  let x ← b.load 0
  if x = 0 then skipUp b intg 0 else some 0

def orderWords (b1 b2 : Words) (buf1 end1 buf2 end2 : Int) : Option Ordering := do
  let n := min (end1 + 1 - buf1).toNat (end2 + 1 - buf2).toNat
  let r ← matchUp b1 b2 n buf1 buf2
  if r.1 ≤ end1 then
    if r.2 ≤ end2 then do
      let x ← b1.load r.1
      let y ← b2.load r.2
      some (if y > x then .lt else .gt)
    else some .gt
  else if r.2 ≤ end2 then some .lt else some .eq

def doSubHead (from1 from2 : DecimalT) : Option SubHead := do
  let stop1 : Int := from1.intgWords
  let stop2 : Int := from2.intgWords
  let frac1 : Int := from1.fracWords
  let frac2 : Int := from2.fracWords
  let start1 ← stripIntg from1.buf from1.intgWords
  let start2 ← stripIntg from2.buf from2.intgWords
  let intg1 := stop1 - start1
  let intg2 := stop2 - start2
  if intg2 > intg1 then some ⟨start1, start2, intg1, intg2, frac1, frac2, .lt⟩
  else if intg2 = intg1 then do
    let end1 ← skipDown from1.buf (intg1 + frac1).toNat (stop1 + (frac1 - 1))
    let end2 ← skipDown from2.buf (intg2 + frac2).toNat (stop2 + (frac2 - 1))
    let order ← orderWords from1.buf from2.buf start1 end1 start2 end2
    some ⟨start1, start2, intg1, intg2, end1 - stop1 + 1, end2 - stop2 + 1, order⟩
  else some ⟨start1, start2, intg1, intg2, frac1, frac2, .gt⟩

/-- `do_sub` with no result buffer. -/
def doSubCmp (from1 from2 : DecimalT) : Option Int := do
  let h ← doSubHead from1 from2
  match h.order with
  | .eq => some 0
  | .lt => some (if from1.sign then 1 else -1)
  | .gt => some (if from1.sign then -1 else 1)

def decimalCmp (from1 from2 : DecimalT) : Option Int :=
  if from1.sign = from2.sign then doSubCmp from1 from2
  else some (if from1.sign then -1 else 1)

/-- What is left of an operand after stripping: `intg + frac` words from `start`
on, the last of weight `-frac`, still hold the whole number. -/
structure Stripped (d : DecimalT) (start intg frac : Int) : Prop where
  start_nonneg : 0 ≤ start
  intg_nonneg : 0 ≤ intg
  intg_eq : start + intg = d.intgWords
  frac_le : frac ≤ d.fracWords
  span : 0 ≤ intg + frac
  units : ∀ f : Nat, d.fracWords ≤ f ->
    d.unitsAt f = val digBase d.buf.word start (intg + frac).toNat * digBase ^ (f - frac).toNat

variable {d a b : DecimalT} {start intg frac : Int}

lemma stripIntg_spec (h : d.Legal) :
    ∃ k : Nat, k ≤ d.intgWords ∧ stripIntg d.buf d.intgWords = some (k : Int) ∧
      (∀ i : Int, 0 ≤ i -> i < k -> d.buf.word i = 0) ∧
      (k < d.intgWords -> d.buf.word k ≠ 0) := by
  have hpos := h.pos
  have halloc := h.alloc
  have hroom := h.room
  unfold words at hroom
  simp only [stripIntg, d.buf.load_eq (i := 0) le_rfl (by omega), some_bind]
  by_cases hx : d.buf.word 0 = 0
  · obtain ⟨k, hk, hrun, hzero, hstop⟩ := skipUp_spec d.buf d.intgWords 0 le_rfl (by omega)
    simp only [zero_add] at hrun hzero hstop
    exact ⟨k, hk, by rw [if_pos hx, hrun], hzero, hstop⟩
  · exact ⟨0, Nat.zero_le _, by simp [hx], by omega, fun _ => by simpa using hx⟩

lemma stripped_of_leading {k : Nat} (hk : k ≤ d.intgWords)
    (hzero : ∀ i : Int, 0 ≤ i -> i < k -> d.buf.word i = 0) :
    Stripped d k (d.intgWords - k) d.fracWords where
  start_nonneg := by omega
  intg_nonneg := by omega
  intg_eq := by omega
  frac_le := le_rfl
  span := by omega
  units := by
    intro f hf
    have hwords : d.words = k + ((d.intgWords : Int) - k + d.fracWords).toNat := by
      unfold words
      omega
    rw [unitsAt, units, hwords, val_add, val_eq_zero (fun i h0 h1 => hzero i h0 (by omega)),
      zero_mul, zero_add, zero_add, show f - d.fracWords = ((f : Int) - d.fracWords).toNat by omega]

/-- Dropping trailing zero words leaves the number as it is, at a greater weight. -/
lemma Stripped.drop (h : Stripped d start intg frac) (k : Nat)
    (hk : 0 ≤ intg + frac - k)
    (hzero : ∀ i, start + intg + frac - k ≤ i -> i < start + intg + frac -> d.buf.word i = 0) :
    Stripped d start intg (frac - k) where
  start_nonneg := h.start_nonneg
  intg_nonneg := h.intg_nonneg
  intg_eq := h.intg_eq
  frac_le := by have := h.frac_le; omega
  span := by omega
  units := by
    intro f hf
    have hle := h.frac_le
    have hn : (intg + frac).toNat = (intg + (frac - k)).toNat + k := by omega
    have he : ((f : Int) - (frac - k)).toNat = k + (f - frac).toNat := by omega
    rw [h.units f hf, hn, val_add, he,
      val_eq_zero (w := d.buf.word) (n := k) (fun i h0 h1 => hzero i (by omega) (by omega))]
    ring

lemma Stripped.digits (h : Stripped d start intg frac) (hd : d.Legal) :
    Digits digBase d.buf.word start (intg + frac).toNat := by
  have := h.start_nonneg
  have := h.span
  have := h.intg_eq
  have := h.frac_le
  exact hd.digits.mono (by omega) (by unfold words; omega)

/-- Comparing the first different words compares the numbers, because neither
window ends in a zero word. -/
lemma orderWords_spec (b1 b2 : Words) (s1 s2 : Int) (n1 n2 N : Nat) (hs1 : 0 ≤ s1) (hs2 : 0 ≤ s2)
    (he1 : s1 + n1 ≤ b1.size) (he2 : s2 + n2 ≤ b2.size) (d1 : Digits digBase b1.word s1 n1)
    (d2 : Digits digBase b2.word s2 n2) (last1 : 0 < n1 -> b1.word (s1 + n1 - 1) ≠ 0)
    (last2 : 0 < n2 -> b2.word (s2 + n2 - 1) ≠ 0) (hN1 : n1 ≤ N) (hN2 : n2 ≤ N) :
    orderWords b1 b2 s1 (s1 + n1 - 1) s2 (s2 + n2 - 1) =
      some (compare (val digBase b1.word s1 n1 * digBase ^ (N - n1))
        (val digBase b2.word s2 n2 * digBase ^ (N - n2))) := by
  obtain ⟨k, hk, hrun, same, stop⟩ :=
    matchUp_spec b1 b2 (min n1 n2) s1 s2 hs1 (by omega) hs2 (by omega)
  have hprefix : val digBase b1.word s1 k = val digBase b2.word s2 k := val_shift same
  have hm : min (s1 + n1 - 1 + 1 - s1).toNat (s2 + n2 - 1 + 1 - s2).toNat = min n1 n2 := by omega
  simp only [orderWords, hm, hrun, bind_eq_bind, bind_some]
  by_cases h1 : k < n1
  · by_cases h2 : k < n2
    · have p1 := val_mem_prefix digBase_pos d1 (k := k + 1) h1 hN1
      have p2 := val_mem_prefix digBase_pos d2 (k := k + 1) h2 hN2
      rw [val_succ, hprefix] at p1
      rw [val_succ] at p2
      have hpow : 0 ≤ digBase ^ (N - (k + 1)) := pow_nonneg digBase_pos.le _
      rw [if_pos (by omega), if_pos (by omega), b1.load_eq (by omega) (by omega),
        b2.load_eq (by omega) (by omega)]
      simp only [bind_some]
      by_cases hlt : b1.word (s1 + k) < b2.word (s2 + k)
      · have hmul := mul_le_mul_of_nonneg_right (show val digBase b2.word s2 k * digBase +
          b1.word (s1 + k) + 1 ≤ val digBase b2.word s2 k * digBase + b2.word (s2 + k) by omega) hpow
        rw [if_pos hlt, compare_lt_iff_lt.mpr (by linarith only [p1.2, p2.1, hmul])]
      · have hmul := mul_le_mul_of_nonneg_right (show val digBase b2.word s2 k * digBase +
          b2.word (s2 + k) + 1 ≤ val digBase b2.word s2 k * digBase + b1.word (s1 + k) by omega) hpow
        rw [if_neg hlt, compare_gt_iff_gt.mpr (by linarith only [p1.1, p2.2, hmul])]
    · have hk2 : k = n2 := by omega
      have hrest := val_pos digBase_pos (d1.mono (t := s1 + k) (m := n1 - k) (by omega) (by omega))
        (i := s1 + n1 - 1) (by omega) (by omega) (last1 (by omega))
      rw [if_pos (by omega), if_neg (by omega), compare_gt_iff_gt.mpr]
      rw [← hk2, ← hprefix, show n1 = k + (n1 - k) by omega, val_add,
        show N - k = (n1 - k) + (N - (k + (n1 - k))) by omega, pow_add, ← mul_assoc]
      exact mul_lt_mul_of_pos_right (by linarith only [hrest]) (pow_pos digBase_pos _)
  · have hk1 : k = n1 := by omega
    by_cases h2 : k < n2
    · have hrest := val_pos digBase_pos (d2.mono (t := s2 + k) (m := n2 - k) (by omega) (by omega))
        (i := s2 + n2 - 1) (by omega) (by omega) (last2 (by omega))
      rw [if_neg (by omega), if_pos (by omega), compare_lt_iff_lt.mpr]
      rw [← hk1, hprefix, show n2 = k + (n2 - k) by omega, val_add,
        show N - k = (n2 - k) + (N - (k + (n2 - k))) by omega, pow_add, ← mul_assoc]
      exact mul_lt_mul_of_pos_right (by linarith only [hrest]) (pow_pos digBase_pos _)
    · have hk2 : k = n2 := by omega
      rw [if_neg (by omega), if_neg (by omega), ← hk1, ← hk2, hprefix, compare_eq_iff_eq.mpr rfl]

/-- `do_sub` goes on with two stripped operands and knows which is greater. The
last field says that the words both have do not end before the smaller integer part starts. -/
structure HeadSpec (a b : DecimalT) (h : SubHead) : Prop where
  left : Stripped a h.start1 h.intg1 h.frac1
  right : Stripped b h.start2 h.intg2 h.frac2
  order : ∀ f : Nat, max a.fracWords b.fracWords ≤ f ->
    h.order = compare (a.unitsAt f) (b.unitsAt f)
  lt_intg : h.order = .lt -> h.intg1 ≤ h.intg2
  gt_intg : h.order = .gt -> h.intg2 ≤ h.intg1
  common : 0 ≤ min h.intg1 h.intg2 + min h.frac1 h.frac2

lemma unitsAt_lt_of_intg_lt (ha : a.Legal) (hb : b.Legal) {f i j : Nat} (hfa : a.fracWords ≤ f)
    (hfb : b.fracWords ≤ f) (hi : i ≤ a.intgWords) (hj : j ≤ b.intgWords)
    (zero : ∀ x : Int, 0 ≤ x -> x < i -> a.buf.word x = 0) (lead : j < b.intgWords -> b.buf.word j ≠ 0)
    (hb0 : ∀ x : Int, 0 ≤ x -> x < j -> b.buf.word x = 0) (hlt : a.intgWords - i < b.intgWords - j) :
    a.unitsAt f < b.unitsAt f := by
  have sa := stripped_of_leading hi zero
  have sb := stripped_of_leading hj hb0
  have da := sa.digits ha
  have db := sb.digits hb
  obtain ⟨n, hn⟩ : ∃ n, ((b.intgWords : Int) - j + b.fracWords).toNat = n + 1 :=
    ⟨((b.intgWords : Int) - j + b.fracWords).toNat - 1, by omega⟩
  have hlow := pow_le_val digBase_pos (hn ▸ db) (lead (by omega))
  have hhigh := val_lt digBase_pos.le da
  rw [sa.units f hfa, sb.units f hfb, hn]
  calc val digBase a.buf.word i ((a.intgWords : Int) - i + a.fracWords).toNat *
        digBase ^ ((f : Int) - a.fracWords).toNat
      < digBase ^ ((a.intgWords : Int) - i + a.fracWords).toNat *
        digBase ^ ((f : Int) - a.fracWords).toNat :=
        mul_lt_mul_of_pos_right hhigh (pow_pos digBase_pos _)
    _ = digBase ^ (a.intgWords - i + f) := by
        rw [← pow_add]
        congr 1
        omega
    _ ≤ digBase ^ (n + ((f : Int) - b.fracWords).toNat) := pow_le_pow_right₀ (by decide) (by omega)
    _ = digBase ^ n * digBase ^ ((f : Int) - b.fracWords).toNat := pow_add _ _ _
    _ ≤ val digBase b.buf.word j (n + 1) * digBase ^ ((f : Int) - b.fracWords).toNat :=
        mul_le_mul_of_nonneg_right hlow (pow_nonneg digBase_pos.le _)

lemma skipDown_stripped (hd : d.Legal) {i : Nat} (hi : i ≤ d.intgWords)
    (zero : ∀ x : Int, 0 ≤ x -> x < i -> d.buf.word x = 0) :
    ∃ n : Nat, skipDown d.buf ((d.intgWords : Int) - i + d.fracWords).toNat
        (d.intgWords + ((d.fracWords : Int) - 1)) = some ((i : Int) + n - 1) ∧
      Stripped d i (d.intgWords - i) (i + n - 1 - d.intgWords + 1) ∧
      (0 < n -> d.buf.word (i + n - 1) ≠ 0) := by
  have hsize := hd.room.trans hd.alloc
  unfold words at hsize
  obtain ⟨m, hm⟩ : ∃ m : Nat, (d.intgWords : Int) - i + d.fracWords = m :=
    ⟨d.intgWords - i + d.fracWords, by omega⟩
  rw [hm, Int.toNat_natCast]
  obtain ⟨k, hk, hrun, hzero, hstop⟩ := skipDown_spec d.buf m
    (d.intgWords + ((d.fracWords : Int) - 1)) (by omega) (by omega)
  have hend : (d.intgWords : Int) + (d.fracWords - 1) - k = i + (m - k : Nat) - 1 := by omega
  have hs := (stripped_of_leading hi zero).drop k (by omega)
    (fun x h0 h1 => hzero x (by omega) (by omega))
  refine ⟨m - k, by rw [hrun, hend], ?_, ?_⟩
  · rw [← hend, show (d.intgWords : Int) + (d.fracWords - 1) - k - d.intgWords + 1 =
      d.fracWords - k by ring]
    exact hs
  · intro hn
    rw [← hend]
    exact hstop (by omega)

lemma orderWords_units (ha : a.Legal) (hb : b.Legal) {s1 s2 intg f1 f2 : Int}
    (h1 : Stripped a s1 intg f1) (h2 : Stripped b s2 intg f2) {n1 n2 : Nat} (e1 : intg + f1 = n1)
    (e2 : intg + f2 = n2) (last1 : 0 < n1 -> a.buf.word (s1 + n1 - 1) ≠ 0)
    (last2 : 0 < n2 -> b.buf.word (s2 + n2 - 1) ≠ 0) {f : Nat} (hfa : a.fracWords ≤ f)
    (hfb : b.fracWords ≤ f) :
    orderWords a.buf b.buf s1 (s1 + n1 - 1) s2 (s2 + n2 - 1) =
      some (compare (a.unitsAt f) (b.unitsAt f)) := by
  have d1 := h1.digits ha
  have d2 := h2.digits hb
  have sizeA := ha.room.trans ha.alloc
  have sizeB := hb.room.trans hb.alloc
  unfold words at sizeA sizeB
  have frac1 := h1.frac_le
  have frac2 := h2.frac_le
  have ends1 := h1.intg_eq
  have ends2 := h2.intg_eq
  obtain ⟨N, hN⟩ : ∃ N : Nat, intg + f = N := ⟨(intg + f).toNat, by omega⟩
  have p1 : ((f : Int) - f1).toNat = N - n1 := by omega
  have p2 : ((f : Int) - f2).toNat = N - n2 := by omega
  rw [h1.units f hfa, h2.units f hfb, p1, p2, e1, e2]
  rw [e1] at d1
  rw [e2] at d2
  exact orderWords_spec a.buf b.buf s1 s2 n1 n2 N h1.start_nonneg h2.start_nonneg (by omega)
    (by omega) d1 d2 last1 last2 (by omega) (by omega)

lemma doSubHead_spec (ha : a.Legal) (hb : b.Legal) :
    ∃ h, doSubHead a b = some h ∧ HeadSpec a b h := by
  obtain ⟨i, hi, runA, zeroA, leadA⟩ := stripIntg_spec ha
  obtain ⟨j, hj, runB, zeroB, leadB⟩ := stripIntg_spec hb
  have sa := stripped_of_leading hi zeroA
  have sb := stripped_of_leading hj zeroB
  simp only [doSubHead, runA, runB, bind_eq_bind, bind_some]
  rcases lt_trichotomy (a.intgWords - i) (b.intgWords - j) with h | h | h
  · refine ⟨_, if_pos (by omega), sa, sb, fun f hf => ?_, fun _ => by simp only; omega,
      fun h => by simp at h, by simp only; omega⟩
    exact (compare_lt_iff_lt.mpr (unitsAt_lt_of_intg_lt ha hb (by omega) (by omega) hi hj zeroA
      leadB zeroB h)).symm
  · obtain ⟨n1, run1, s1, last1⟩ := skipDown_stripped ha hi zeroA
    obtain ⟨n2, run2, s2, last2⟩ := skipDown_stripped hb hj zeroB
    have heq : (b.intgWords : Int) - j = a.intgWords - i := by omega
    have order : ∀ f : Nat, max a.fracWords b.fracWords ≤ f ->
        orderWords a.buf b.buf i (i + n1 - 1) j (j + n2 - 1) =
          some (compare (a.unitsAt f) (b.unitsAt f)) := fun f hf =>
      orderWords_units ha hb s1 (heq ▸ s2) (by omega) (by omega) last1 last2 (by omega) (by omega)
    rw [if_neg (by omega), if_pos heq, run1, run2, bind_some, bind_some, order _ le_rfl]
    refine ⟨_, rfl, s1, s2, fun f hf => ?_, fun _ => heq.ge, fun _ => heq.le, by simp only; omega⟩
    exact some.inj ((order _ le_rfl).symm.trans (order f hf))
  · refine ⟨_, (if_neg (by omega)).trans (if_neg (by omega)), sa, sb, fun f hf => ?_,
      fun h => by simp at h, fun _ => by simp only; omega, by simp only; omega⟩
    exact (compare_gt_iff_gt.mpr (unitsAt_lt_of_intg_lt hb ha (by omega) (by omega) hj hi zeroB
      leadA zeroA h)).symm

def cmpSign : Ordering -> Int
  | .lt => -1
  | .eq => 0
  | .gt => 1

lemma doSubCmp_spec (ha : a.Legal) (hb : b.Legal) :
    doSubCmp a b = some (cmpSign (compare (applySign a.sign a.mag) (applySign a.sign b.mag))) := by
  obtain ⟨h, hrun, spec⟩ := doSubHead_spec ha hb
  have horder := (spec.order _ le_rfl).trans
    (compare_mag a b (le_max_left _ b.fracWords) (le_max_right a.fracWords _)).symm
  simp only [doSubCmp, hrun, horder, some_bind]
  rcases lt_trichotomy a.mag b.mag with h | h | h
  · cases a.sign
    · simp [applySign, compare_lt_iff_lt.mpr h, cmpSign]
    · simp [applySign, compare_lt_iff_lt.mpr h, compare_gt_iff_gt.mpr (neg_lt_neg h), cmpSign]
  · simp [h, cmpSign]
  · cases a.sign
    · simp [applySign, compare_gt_iff_gt.mpr h, cmpSign]
    · simp [applySign, compare_gt_iff_gt.mpr h, compare_lt_iff_lt.mpr (neg_lt_neg h), cmpSign]

lemma decimalCmp_spec (ha : a.Legal) (hb : b.Legal) (na : ¬ a.NegativeZero)
    (nb : ¬ b.NegativeZero) : decimalCmp a b = some (cmpSign (compare a.value b.value)) := by
  have ma := ha.mag_nonneg
  have mb := hb.mag_nonneg
  unfold decimalCmp value
  by_cases h : a.sign = b.sign
  · rw [if_pos h, doSubCmp_spec ha hb, ← h]
  · cases hs : a.sign
    · have hb' : b.sign = true := by simpa [hs] using h
      have := hb.mag_pos (fun hz => nb ⟨hb', hz⟩)
      rw [hb', compare_gt_iff_gt.mpr (by simp [applySign]; linarith)]
      rfl
    · have hb' : b.sign = false := by simpa [hs] using h
      have := ha.mag_pos (fun hz => na ⟨hs, hz⟩)
      rw [hb', compare_lt_iff_lt.mpr (by simp [applySign]; linarith)]
      rfl

end Decimal
