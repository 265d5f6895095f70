import EryMysql.Decimal.Add
import EryMysql.Decimal.Cmp

/-!
# Subtraction of magnitudes

The second half of `do_sub` subtracts the smaller stripped operand from the
greater one. The words below the common ones are copied or subtracted from
zero, the common words are subtracted with a borrow, and the borrow runs through
the integer words only the greater operand has.
-/

namespace Decimal

open WordArray DecimalT Option Int Words

/-- `while (n--) SUB(*--r, 0, *--q, carry);` -/
def negDown (b : Words) (n : Nat) (q r : Int) (out : Words) : Option (Words × Int) :=
  ripple subCell (fun _ _ => some 0) b.load n 0 q r 0 out

/-- `while (n--) SUB(*--r, *--p, *--q, carry);` -/
def subDown (a b : Words) (n : Nat) (p q r carry : Int) (out : Words) : Option (Words × Int) :=
  ripple subCell (fun _ i => a.load i) b.load n p q r carry out

/-- `while (carry && n--) SUB(*--r, *--p, 0, carry);` and then copy what is left. -/
def subTail (a : Words) : Nat -> Int -> Int -> Int -> Words -> Option Words
  | 0, _, _, _, out => some out
  | n + 1, p, r, carry, out =>
    if carry ≠ 0 then do
      let x ← a.load (p - 1)
      let out ← out.store (r - 1) (subCell x 0 carry).1
      subTail a n (p - 1) (r - 1) (subCell x 0 carry).2 out
    else copyDown a (n + 1) p r out

def subParts (a b : Words) (start1 start2 intg1 intg2 frac1 frac2 frac0 buf0 : Int)
    (out : Words) : Option Words := do
  -- part 1 - MY_MAX(frac) ... min (frac)
  let pad := (frac0 - max frac1 frac2).toNat
  let n := (max frac1 frac2 - min frac1 frac2).toNat
  let out ← zeroDown pad buf0 out
  let buf0 := buf0 - pad
  let r ← (if frac1 > frac2 then (copyDown a n (start1 + intg1 + frac1) buf0 out).map (·, 0)
    else negDown b n (start2 + intg2 + frac2) buf0 out)
  let buf0 := buf0 - n
  -- part 2 - MY_MIN(frac) ... intg2
  let buf1 := start1 + intg1 + min frac1 frac2
  let buf2 := start2 + intg2 + min frac1 frac2
  let n := (buf2 - start2).toNat
  let r ← subDown a b n buf1 buf2 buf0 r.2 r.1
  let buf0 := buf0 - n
  let buf1 := buf1 - n
  -- part 3 - intg2 ... intg1
  let n := (buf1 - start1).toNat
  let out ← subTail a n buf1 buf0 r.2 r.1
  let buf0 := buf0 - n
  zeroDown buf0.toNat buf0 out

/-- `do_sub` after the operands have been ordered: `from1` is the greater one. -/
def doSubStore (from1 from2 dst : DecimalT) (start1 start2 intg1 intg2 frac1 frac2 : Int)
    (sign : Bool) : Option (DecErr × DecimalT) := do
  let fit := fixIntgFracError dst.len intg1.toNat (max from1.fracWords from2.fracWords)
  let ok := fit.error = .ok
  let frac := max from1.frac from2.frac
  -- set_if_smaller
  let frac := if ok then frac else min frac (fit.frac * digPerDec1)
  let frac1 := if ok then frac1 else min frac1 fit.frac
  let frac2 := if ok then frac2 else min frac2 fit.frac
  let intg2 := if ok then intg2 else min intg2 fit.intg
  let buf ← subParts from1.buf from2.buf start1 start2 fit.intg intg2 frac1 frac2 fit.frac
    (fit.intg + fit.frac) dst.buf
  some (fit.error, { dst with sign, frac, intg := fit.intg * digPerDec1, buf })

def doSub (from1 from2 dst : DecimalT) : Option (DecErr × DecimalT) := do
  let h ← doSubHead from1 from2
  match h.order with
  | .eq => do
    let r ← dst.makeZero
    some (.ok, r)
  | .lt => doSubStore from2 from1 dst h.start2 h.start1 h.intg2 h.intg1 h.frac2 h.frac1 !from1.sign
  | .gt => doSubStore from1 from2 dst h.start1 h.start2 h.intg1 h.intg2 h.frac1 h.frac2 from1.sign

def decimalAdd (from1 from2 dst : DecimalT) : Option (DecErr × DecimalT) :=
  if from1.sign = from2.sign then doAdd from1 from2 dst else doSub from1 from2 dst

def decimalSub (from1 from2 dst : DecimalT) : Option (DecErr × DecimalT) :=
  if from1.sign = from2.sign then doSub from1 from2 dst else doAdd from1 from2 dst

lemma negDown_spec (b : Words) (n : Nat) (q r : Int) (out : Words) (hq0 : 0 ≤ q - n)
    (hq : q ≤ b.size) (hb : Digits digBase b.word (q - n) n) (hr0 : 0 ≤ r - n) (hr : r ≤ out.size) :
    ∃ out' carry', negDown b n q r out = some (out', carry') ∧
      Rippled digBase (-1) 2 n r out out' carry' (-val digBase b.word (q - n) n) := by
  obtain ⟨out', carry', hrun, hres⟩ := ripple_spec subCell_spec (fun _ _ => some 0) b.load
    (fun _ => 0) b.word n 0 q r 0 out (fun _ _ _ _ _ _ => rfl)
    (fun _ _ _ => b.load_eq (by omega) (by omega)) (digits_zero _ n) hb hr0 hr le_rfl (by decide)
  refine ⟨out', carry', hrun, ?_⟩
  simpa [val_eq_zero] using hres

/-- Whether the borrow runs out early or not, the words come out as from one loop. -/
lemma subTail_spec (a : Words) (n : Nat) (p r carry : Int) (out : Words)
    (hp0 : 0 ≤ p - n) (hp : p ≤ a.size) (ha : Digits digBase a.word (p - n) n)
    (hr0 : 0 ≤ r - n) (hr : r ≤ out.size) (hc0 : 0 ≤ carry) (hc : carry < 2) :
    ∃ out' carry', subTail a n p r carry out = some out' ∧
      Rippled digBase (-1) 2 n r out out' carry' (val digBase a.word (p - n) n + -1 * carry) := by
  induction n generalizing p r carry out with
  | zero =>
    refine ⟨out, carry, rfl, rfl, fun _ _ => rfl, fun i h0 h1 => ?_, hc0, hc, by simp⟩
    omega
  | succ n ih =>
    by_cases hzero : carry = 0
    · obtain ⟨out', hrun, hres⟩ := copyDown_spec a (n + 1) p r out hp0 hp ha hr0 hr
      refine ⟨out', 0, by simpa [subTail, hzero] using hrun, ?_⟩
      rw [hzero, mul_zero, add_zero]
      exact hres.rippled (-1) 2 (by decide)
    · have hx := ha (p - 1) (by omega) (by omega)
      obtain ⟨hword, hcarry, hsum⟩ := subCell_spec _ 0 carry hx.1 hx.2 le_rfl digBase_pos hc0 hc
      have first : Rippled digBase (-1) 2 1 r out (out.put (r - 1) (subCell (a.word (p - 1)) 0
          carry).1) (subCell (a.word (p - 1)) 0 carry).2 (a.word (p - 1) + -1 * carry) := by
        refine ⟨rfl, fun j hj => word_put_ne (by omega), ?_, hcarry.1,
          hcarry.2, ?_⟩
        · intro i h0 h1
          rw [show i = r - 1 by omega, word_put_self]
          exact hword
        · rw [Nat.cast_one, val_one, word_put_self]
          linarith only [hsum]
      obtain ⟨out', carry', hrun, hres⟩ := ih (p - 1) (r - 1) (subCell (a.word (p - 1)) 0 carry).2
        (out.put (r - 1) (subCell (a.word (p - 1)) 0 carry).1) (by omega) (by omega)
        (ha.mono (by omega) (by omega)) (by omega) (by simp; omega) hcarry.1 hcarry.2
      refine ⟨out', carry', ?_, ?_⟩
      · simp only [subTail, if_pos hzero, a.load_eq (i := p - 1) (by omega) (by omega),
          out.store_eq (i := r - 1) _ (by omega) (by omega)]
        exact hrun
      · have all := first.append _ hres
        rw [Nat.add_comm 1 n] at all
        convert all using 1
        rw [show p - ((n + 1 : Nat) : Int) = p - 1 - n by push_cast; ring, val_succ]
        ring_nf

lemma subLow_spec (a b : Words) (p q f1 f2 r : Int) (pad n : Nat) (out : Words)
    (hn : max f1 f2 - min f1 f2 = n)
    (ha0 : f2 < f1 -> 0 ≤ p - n ∧ p ≤ a.size ∧ Digits digBase a.word (p - n) n)
    (hb0 : f1 ≤ f2 -> 0 ≤ q - n ∧ q ≤ b.size ∧ Digits digBase b.word (q - n) n)
    (hr0 : 0 ≤ r - (pad + n : Nat)) (hr : r ≤ out.size) :
    ∃ out0 out' c, zeroDown pad r out = some out0 ∧
      (if f1 > f2 then (copyDown a n p (r - pad) out0).map (·, 0)
        else negDown b n q (r - pad) out0) = some (out', c) ∧
      Rippled digBase (-1) 2 (pad + n) r out out' c
        (val digBase a.word (p - (f1 - min f1 f2)) (f1 - min f1 f2).toNat * digBase ^ pad -
          val digBase b.word (q - (f2 - min f1 f2)) (f2 - min f1 f2).toNat * digBase ^ pad) := by
  obtain ⟨out0, run0, res0⟩ := zeroDown_spec pad r out (by omega) hr
  have hpad := res0.rippled (-1) 2 (by decide)
  by_cases h : f1 > f2
  · obtain ⟨hp0, hp, ha⟩ := ha0 h
    obtain ⟨out', run1, res1⟩ := copyDown_spec a n p (r - pad) out0 hp0 hp ha (by omega)
      (by rw [res0.size]; omega)
    have all := hpad.append (val digBase a.word (p - n) n)
      (by simpa using res1.rippled (-1) 2 (by decide))
    refine ⟨out0, out', 0, run0, by simp [h, run1], ?_⟩
    convert all using 1
    rw [show f1 - min f1 f2 = n by omega, show f2 - min f1 f2 = 0 by omega]
    simp
  · obtain ⟨hq0, hq, hb⟩ := hb0 (by omega)
    obtain ⟨out', c, run1, res1⟩ := negDown_spec b n q (r - pad) out0 hq0 hq hb (by omega)
      (by rw [res0.size]; omega)
    have all := hpad.append (-val digBase b.word (q - n) n) (by simpa using res1)
    refine ⟨out0, out', c, run0, by simp [h, run1], ?_⟩
    convert all using 1
    rw [show f1 - min f1 f2 = 0 by omega, show f2 - min f1 f2 = n by omega]
    simp

lemma subParts_spec (a b : Words) (s1 s2 i1 i2 f1 f2 : Int) (f0 : Nat) (out : Words)
    (hs1 : 0 ≤ s1) (hs2 : 0 ≤ s2) (hi : i2 ≤ i1) (hi2 : 0 ≤ i2) (hc : 0 ≤ i2 + min f1 f2)
    (hf1 : f1 ≤ f0) (hf2 : f2 ≤ f0)
    (hsa : s1 + i1 + f1 ≤ a.size) (hsb : s2 + i2 + f2 ≤ b.size)
    (ha : Digits digBase a.word s1 (i1 + f1).toNat) (hb : Digits digBase b.word s2 (i2 + f2).toNat)
    (hn : i1 + f0 ≤ out.size) (total : Int)
    (htotal : val digBase a.word s1 (i1 + f1).toNat * digBase ^ (f0 - f1).toNat -
      val digBase b.word s2 (i2 + f2).toNat * digBase ^ (f0 - f2).toNat = total)
    (hnonneg : 0 ≤ total) :
    ∃ out', subParts a b s1 s2 i1 i2 f1 f2 f0 (i1 + f0) out = some out' ∧
      Filled (i1 + f0).toNat out out' total := by
  obtain ⟨pad, hpad⟩ : ∃ pad : Nat, (f0 : Int) - max f1 f2 = pad := ⟨(f0 - max f1 f2).toNat, by omega⟩
  obtain ⟨k, hk⟩ : ∃ k : Nat, max f1 f2 - min f1 f2 = k := ⟨(max f1 f2 - min f1 f2).toNat, by omega⟩
  obtain ⟨c, hc⟩ : ∃ c : Nat, i2 + min f1 f2 = c := ⟨(i2 + min f1 f2).toNat, by omega⟩
  obtain ⟨d, hd⟩ : ∃ d : Nat, i1 - i2 = d := ⟨(i1 - i2).toNat, by omega⟩
  obtain ⟨k1, hk1⟩ : ∃ k : Nat, f1 - min f1 f2 = k := ⟨(f1 - min f1 f2).toNat, by omega⟩
  obtain ⟨k2, hk2⟩ : ∃ k : Nat, f2 - min f1 f2 = k := ⟨(f2 - min f1 f2).toNat, by omega⟩
  have hA : val digBase a.word s1 (i1 + f1).toNat = val digBase a.word s1 d * digBase ^ (c + k1) +
      val digBase a.word (s1 + d) c * digBase ^ k1 + val digBase a.word (s1 + d + c) k1 := by
    rw [show (i1 + f1).toNat = d + (c + k1) by omega, val_add, val_add]
    ring
  have hB : val digBase b.word s2 (i2 + f2).toNat = val digBase b.word s2 c * digBase ^ k2 +
      val digBase b.word (s2 + c) k2 := by
    rw [show (i2 + f2).toNat = c + k2 by omega, val_add]
  obtain ⟨out0, out1, c1, run0, run1, res1⟩ := subLow_spec a b (s1 + i1 + f1) (s2 + i2 + f2) f1 f2
    (i1 + f0) pad k out hk
    (fun h => ⟨by omega, by omega, ha.mono (by omega) (by omega)⟩)
    (fun h => ⟨by omega, by omega, hb.mono (by omega) (by omega)⟩) (by omega) hn
  rw [hk1, hk2, toNat_natCast, toNat_natCast, show s1 + i1 + f1 - k1 = s1 + d + c by omega,
    show s2 + i2 + f2 - k2 = s2 + c by omega] at res1
  obtain ⟨out2, c2, run2, res2⟩ := ripple_arrays subCell_spec a b c (s1 + i1 + min f1 f2)
    (s2 + i2 + min f1 f2) (i1 + f0 - (pad + k : Nat)) c1 out1 (by omega) (by omega)
    (ha.mono (by omega) (by omega))
    (by omega) (by omega) (hb.mono (by omega) (by omega)) (by omega) (by rw [res1.size]; omega)
    res1.carry_nonneg res1.carry_lt
  obtain ⟨out3, c3, run3, res3⟩ := subTail_spec a d (s1 + d) (i1 + f0 - (pad + k + c : Nat)) c2 out2
    (by omega) (by omega) (ha.mono (by omega) (by omega)) (by omega)
    (by rw [res2.size, res1.size]; omega) res2.carry_nonneg res2.carry_lt
  have hrun : subParts a b s1 s2 i1 i2 f1 f2 f0 (i1 + f0) out = some out3 := by
    rw [Nat.cast_add, ← sub_sub] at run2
    rw [Nat.cast_add, Nat.cast_add, ← sub_sub, ← sub_sub] at run3
    simp only [subParts, subDown, hpad, hk, toNat_natCast, run0, run1, some_bind,
      show s2 + i2 + min f1 f2 - s2 = c by omega, run2,
      show s1 + i1 + min f1 f2 - c = s1 + d by omega, add_sub_cancel_left, run3,
      show i1 + f0 - pad - k - c - d = 0 by omega]
    rfl
  rw [show s1 + i1 + min f1 f2 - c = s1 + d by omega, show s2 + i2 + min f1 f2 - c = s2 by omega,
    one_mul, mul_add, ← add_assoc, neg_one_mul (val ..), ← sub_eq_add_neg] at res2
  rw [add_sub_cancel_right] at res3
  have all := (res1.append _ res2).append _ res3
  rw [show pad + k + c + d = (i1 + f0).toNat by omega] at all
  have hsum : val digBase a.word s1 d * digBase ^ (pad + k + c) + ((val digBase a.word (s1 + d) c -
      val digBase b.word s2 c) * digBase ^ (pad + k) + (val digBase a.word (s1 + d + c) k1 *
        digBase ^ pad - val digBase b.word (s2 + c) k2 * digBase ^ pad)) = total := by
    rw [← htotal, hA, hB]
    rcases le_or_gt f1 f2 with h | h
    · rw [show k1 = 0 by omega, show k2 = k by omega, show ((f0 : Int) - f1).toNat = pad + k by omega,
        show ((f0 : Int) - f2).toNat = pad by omega, val_zero]
      ring
    · rw [show k1 = k by omega, show k2 = 0 by omega, show ((f0 : Int) - f1).toNat = pad by omega,
        show ((f0 : Int) - f2).toNat = pad + k by omega, val_zero]
      ring
  rw [hsum, ← toNat_of_nonneg (show 0 ≤ i1 + (f0 : Int) by omega), toNat_natCast] at all
  have hnone : c3 = 0 := carry_eq_zero (pow_pos digBase_pos (i1 + f0).toNat)
    all.carry_nonneg (by linarith [val_lt digBase_pos.le all.digits, all.total_eq])
  rw [hnone] at all
  exact ⟨out3, hrun, Filled.of_rippled all⟩

variable {a b dst : DecimalT}

lemma doSubStore_spec (ha : a.Legal) (hb : b.Legal) (hpos : 0 < dst.len)
    (halloc : dst.len ≤ dst.buf.size) {s1 s2 i1 i2 f1 f2 : Int} (h1 : Stripped a s1 i1 f1)
    (h2 : Stripped b s2 i2 f2) (hi : i2 ≤ i1) (hc : 0 ≤ i2 + min f1 f2) (sign : Bool)
    (hle : b.unitsAt (max a.fracWords b.fracWords) ≤ a.unitsAt (max a.fracWords b.fracWords)) :
    (∀ r, doSubStore a b dst s1 s2 i1 i2 f1 f2 sign = some (.ok, r) ->
      i1.toNat + max a.fracWords b.fracWords ≤ dst.len) ∧
    (i1.toNat + max a.fracWords b.fracWords ≤ dst.len ->
      ∃ r, doSubStore a b dst s1 s2 i1 i2 f1 f2 sign = some (.ok, r) ∧
        Exact dst r sign (max a.frac b.frac) (a.unitsAt (max a.fracWords b.fracWords) -
          b.unitsAt (max a.fracWords b.fracWords))) := by
  constructor
  · intro r hr
    obtain ⟨buf, -, hres⟩ := bind_eq_some_iff.mp hr
    simp only [some.injEq, Prod.mk.injEq] at hres
    exact fixIntgFracError_error_eq_ok.mp hres.1
  · intro room
    have hwords : roundUp (max a.frac b.frac) = max a.fracWords b.fracWords := roundUp_max _ _
    have sizeA := ha.room.trans ha.alloc
    have sizeB := hb.room.trans hb.alloc
    unfold words at sizeA sizeB
    have := h1.intg_eq
    have := h2.intg_eq
    have := h1.frac_le
    have := h2.frac_le
    have hi1 := toNat_of_nonneg h1.intg_nonneg
    obtain ⟨total, htotal⟩ : ∃ t, t = a.unitsAt (max a.fracWords b.fracWords) -
      b.unitsAt (max a.fracWords b.fracWords) := ⟨_, rfl⟩
    obtain ⟨out, hrun, hfill⟩ := subParts_spec a.buf b.buf s1 s2 i1 i2 f1 f2
      (max a.fracWords b.fracWords) dst.buf h1.start_nonneg h2.start_nonneg hi h2.intg_nonneg hc
      (by omega) (by omega) (by omega) (by omega) (h1.digits ha) (h2.digits hb) (by omega) total
      (by rw [htotal, ← h1.units _ (le_max_left _ _), ← h2.units _ (le_max_right _ _)])
      (htotal ▸ sub_nonneg.mpr hle)
    rw [← htotal]
    rw [← hi1] at hfill
    rw [← hwords] at hfill room
    refine ⟨_, ?_, hfill.exact sign rfl hpos halloc room⟩
    rw [hwords] at room
    simp only [doSubStore, fixIntgFracError_ok room, if_true, hi1, hrun, some_bind]

/-- A result of `decimal_add` or `decimal_sub` that stands for exactly `value`.
It is as well formed as the operands, and negative zero does not arise. -/
structure Sum (a b r : DecimalT) (value : ℚ) : Prop where
  legal : r.Legal
  wellFormed : a.WellFormed -> b.WellFormed -> r.WellFormed
  nonzero : ¬ a.NegativeZero -> ¬ b.NegativeZero -> ¬ r.NegativeZero
  value_eq : r.value = value
  frac_eq : r.frac = max a.frac b.frac ∨ r.CanonicalZero

/-- When a routine reports success its result is right, and it reports success
whenever there is room for one word more than the longer operands need. -/
structure SumSpec (a b dst : DecimalT) (run : Option (DecErr × DecimalT)) (value : ℚ) : Prop where
  sound : ∀ r, run = some (.ok, r) -> Sum a b r value
  succeeds : max a.intgWords b.intgWords + 1 + max a.fracWords b.fracWords ≤ dst.len ->
    ∃ r, run = some (.ok, r)

/-- A routine that stores the exact sum if there is room for the integer words it needs. -/
lemma SumSpec.ofExact {a b dst : DecimalT} {run : Option (DecErr × DecimalT)} {need : Nat}
    {sign : Bool} {units : Int} (hneed : need ≤ max a.intgWords b.intgWords + 1)
    (hok : ∀ r, run = some (.ok, r) -> need + max a.fracWords b.fracWords ≤ dst.len)
    (hstore : need + max a.fracWords b.fracWords ≤ dst.len ->
      ∃ r, run = some (.ok, r) ∧ Exact dst r sign (max a.frac b.frac) units)
    (hdvd : ∀ k : Int, k ∣ a.unitsAt (max a.fracWords b.fracWords) ->
      k ∣ b.unitsAt (max a.fracWords b.fracWords) -> k ∣ units)
    (hzero : sign = true -> units = 0 -> a.NegativeZero) :
    SumSpec a b dst run (applySign sign (units / (digBase : ℚ) ^ max a.fracWords b.fracWords)) := by
  refine ⟨fun r hr => ?_, fun room => (hstore (by omega)).imp fun _ => And.left⟩
  obtain ⟨r', hr', h⟩ := hstore (hok r hr)
  obtain rfl : r' = r := by simpa [hr'] using hr
  have hwords : r'.fracWords = max a.fracWords b.fracWords := by
    rw [fracWords, h.frac_eq]
    exact roundUp_max _ _
  refine ⟨h.legal, fun wa wb => ⟨h.legal, r'.trailing_iff.mpr ?_⟩, ?_, ?_, Or.inl h.frac_eq⟩
  · rw [h.units_eq, hwords, h.frac_eq]
    exact hdvd _ (wa.dvd_unitsAt (le_max_left _ _) (le_max_left _ _))
      (wb.dvd_unitsAt (le_max_right _ _) (le_max_right _ _))
  · rintro na - ⟨hs, hu⟩
    exact na (hzero (h.sign_eq ▸ hs) (h.units_eq ▸ hu))
  · rw [value, mag, h.sign_eq, h.units_eq, hwords]

lemma doAdd_sum (ha : a.Legal) (hb : b.Legal) (hpos : 0 < dst.len)
    (halloc : dst.len ≤ dst.buf.size) :
    SumSpec a b dst (doAdd a b dst) (applySign a.sign (a.mag + b.mag)) := by
  obtain ⟨need, hneed, hok, hstore⟩ := doAdd_spec ha hb hpos halloc
  rw [a.mag_eq_unitsAt (le_max_left _ b.fracWords), b.mag_eq_unitsAt (le_max_right a.fracWords _),
    ← add_div, ← cast_add]
  refine .ofExact hneed hok hstore (fun _ => Int.dvd_add) (fun hs hu => ⟨hs, ?_⟩)
  have h1 := ha.unitsAt_nonneg (max a.fracWords b.fracWords)
  have h2 := hb.unitsAt_nonneg (max a.fracWords b.fracWords)
  exact (a.unitsAt_eq_zero_iff (max a.fracWords b.fracWords)).mp (by omega)

lemma doSub_sum (ha : a.Legal) (hb : b.Legal) (hpos : 0 < dst.len)
    (halloc : dst.len ≤ dst.buf.size) :
    SumSpec a b dst (doSub a b dst) (applySign a.sign (a.mag - b.mag)) := by
  obtain ⟨h, hrun, spec⟩ := doSubHead_spec ha hb
  have horder := spec.order _ le_rfl
  have hleft := spec.left.intg_eq
  have hright := spec.right.intg_eq
  have hs1 := spec.left.start_nonneg
  have hs2 := spec.right.start_nonneg
  have hcommon := spec.common
  rw [a.mag_eq_unitsAt (le_max_left _ b.fracWords), b.mag_eq_unitsAt (le_max_right a.fracWords _),
    ← sub_div, ← cast_sub]
  match ho : h.order with
  | .eq =>
    have heq := compare_eq_iff_eq.mp (horder.symm.trans ho)
    have hdo : doSub a b dst = some (.ok, ⟨1, 0, dst.len, false, dst.buf.put 0 0⟩) := by
      simp [doSub, hrun, ho, makeZero_eq (hpos.trans_le halloc)]
    refine ⟨fun r hr => ?_, fun _ => ⟨_, hdo⟩⟩
    obtain rfl : _ = r := by simpa [hdo] using hr
    have hwell := makeZero_wellFormed hpos halloc
    have hcanon : CanonicalZero ⟨1, 0, dst.len, false, dst.buf.put 0 0⟩ :=
      ⟨rfl, rfl, rfl, word_put_self _ _ _⟩
    refine ⟨hwell.toLegal, fun _ _ => hwell, fun _ _ hn => by simp [NegativeZero] at hn, ?_,
      Or.inr hcanon⟩
    rw [heq, sub_self, cast_zero, zero_div, applySign_zero]
    exact (value_eq_zero_iff _).mpr hcanon.units_eq
  | .lt =>
    have hlt := compare_lt_iff_lt.mp (horder.symm.trans ho)
    have hintg := spec.lt_intg ho
    have hdo : doSub a b dst = doSubStore b a dst h.start2 h.start1 h.intg2 h.intg1 h.frac2 h.frac1
        !a.sign := by simp [doSub, hrun, ho]
    obtain ⟨hok, hstore⟩ := doSubStore_spec hb ha hpos halloc spec.right spec.left hintg
      (by omega) (!a.sign) (by rw [max_comm]; exact hlt.le)
    rw [max_comm b.fracWords, max_comm b.frac] at *
    rw [hdo]
    convert SumSpec.ofExact (by omega) hok hstore (fun _ h1 h2 => Int.dvd_sub h2 h1)
      (fun hs hu => absurd hu (by omega)) using 1
    rw [applySign_not, ← applySign_neg, ← neg_div, ← cast_neg, neg_sub]
  | .gt =>
    have hlt := compare_gt_iff_gt.mp (horder.symm.trans ho)
    have hintg := spec.gt_intg ho
    have hdo : doSub a b dst = doSubStore a b dst h.start1 h.start2 h.intg1 h.intg2 h.frac1 h.frac2
        a.sign := by simp [doSub, hrun, ho]
    obtain ⟨hok, hstore⟩ := doSubStore_spec ha hb hpos halloc spec.left spec.right hintg
      (by omega) a.sign hlt.le
    rw [hdo]
    exact .ofExact (by omega) hok hstore (fun _ => Int.dvd_sub) (fun hs hu => absurd hu (by omega))

/-- Addition and subtraction are exact. -/
theorem decimalAdd_decimalSub_exact {a b dst : DecimalT} (ha : a.Legal) (hb : b.Legal)
    (hpos : 0 < dst.len) (halloc : dst.len ≤ dst.buf.size) :
    SumSpec a b dst (decimalAdd a b dst) (a.value + b.value) ∧
      SumSpec a b dst (decimalSub a b dst) (a.value - b.value) := by
  have hadd := doAdd_sum ha hb hpos halloc
  have hsub := doSub_sum ha hb hpos halloc
  unfold decimalAdd decimalSub value
  by_cases h : a.sign = b.sign
  · rw [if_pos h, if_pos h, ← h, ← applySign_add, ← applySign_sub]
    exact ⟨hadd, hsub⟩
  · have hb' : b.sign = !a.sign := by
      revert h
      cases a.sign <;> cases b.sign <;> simp
    rw [if_neg h, if_neg h, hb', applySign_not, ← sub_eq_add_neg, sub_neg_eq_add, ← applySign_add,
      ← applySign_sub]
    exact ⟨hsub, hadd⟩

theorem decimalAdd_decimalSub_exact_three_halves_minus_two :
    ∃ r, decimalAdd (ofWords 1 1 false [1, 500000000]) (ofWords 1 0 true [2])
      (ofWords 0 0 false [0, 0, 0]) = some (.ok, r) ∧ r.value = -1 / 2 := by
  obtain ⟨hadd, -⟩ := @decimalAdd_decimalSub_exact (ofWords 1 1 false [1, 500000000])
    (ofWords 1 0 true [2]) (ofWords 0 0 false [0, 0, 0]) (by decide) (by decide) (by decide)
    (by decide)
  obtain ⟨r, hr⟩ := hadd.succeeds (by decide)
  exact ⟨r, hr, (hadd.sound r hr).value_eq.trans (by decide +kernel)⟩

end Decimal
