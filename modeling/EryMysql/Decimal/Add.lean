import EryMysql.Decimal.Basic

/-!
# Addition of magnitudes

`do_add`: the fraction words only one operand has are copied, the common words
are added with a carry, and the carry runs through the integer words only the
other operand has. Whether an extra integer word is needed is guessed from the
leading words alone, before any word is added.
-/

namespace Decimal

open WordArray DecimalT Option Nat Words

/-- `while (n--) ADD(*--r, *--p, *--q, carry);` -/
def addDown (a b : Words) (n : Nat) (p q r carry : Int) (out : Words) : Option (Words × Int) :=
  ripple addCell (fun _ i => a.load i) b.load n p q r carry out

/-- `while (n--) ADD(*--r, *--p, 0, carry);` -/
def addCarryDown (a : Words) (n : Nat) (p r carry : Int) (out : Words) : Option (Words × Int) :=
  ripple addCell (fun _ i => a.load i) (fun _ => some 0) n p 0 r carry out

/-- The word that decides whether the sum needs an extra integer word. -/
def doAddTop (from1 from2 : DecimalT) : Option Int :=
  if from1.intgWords > from2.intgWords then from1.buf.load 0
  else if from2.intgWords > from1.intgWords then from2.buf.load 0
  else do
    let a ← from1.buf.load 0
    let b ← from2.buf.load 0
    some (a + b)

/-- Parts 1 to 3 of `do_add`. `a` is the operand with at least as many fraction
words, `ia` and `fa` are its integer and fraction words, `ib` and `fb` those of
the other one. Both branches of the source are this code with the names exchanged. -/
def addParts (a b : Words) (ia fa ib fb : Nat) (buf0 : Int) (out : Words) : Option Words := do
  -- part 1 - MY_MAX(frac) ... min (frac)
  let out ← copyDown a (fa - fb) (ia + fa) buf0 out
  let buf0 := buf0 - (fa - fb : Nat)
  -- part 2 - MY_MIN(frac) ... MY_MIN(intg)
  let n := ia + fb - (ia - ib)
  let r ← addDown a b n (ia + fb) (ib + fb) buf0 0 out
  let buf0 := buf0 - n
  -- part 3 - MY_MIN(intg) ... MY_MAX(intg)
  let src := if ia > ib then a else b
  let d := if ia > ib then ia - ib else ib - ia
  let r ← addCarryDown src d d buf0 r.2 r.1
  let buf0 := buf0 - d
  if r.2 ≠ 0 then r.1.store (buf0 - 1) 1 else some r.1

def doAddStore (from1 from2 dst : DecimalT) (buf : Words) (fit : Fit) : Option DecimalT := do
  let ok := fit.error = .ok
  let frac := max from1.frac from2.frac
  -- set_if_smaller
  let frac := if ok then frac else min frac (fit.frac * digPerDec1)
  let frac1 := if ok then from1.fracWords else min from1.fracWords fit.frac
  let frac2 := if ok then from2.fracWords else min from2.fracWords fit.frac
  let intg1 := if ok then from1.intgWords else min from1.intgWords fit.intg
  let intg2 := if ok then from2.intgWords else min from2.intgWords fit.intg
  let buf0 := fit.intg + fit.frac
  let buf ← (if frac1 > frac2 then addParts from1.buf from2.buf intg1 frac1 intg2 frac2 buf0 buf
    else addParts from2.buf from1.buf intg2 frac2 intg1 frac1 buf0 buf)
  some { dst with sign := from1.sign, frac, intg := fit.intg * digPerDec1, buf }

def doAdd (from1 from2 dst : DecimalT) : Option (DecErr × DecimalT) := do
  let x ← doAddTop from1 from2
  -- is there a need for extra word because of carry ?
  let extra := x > digMax - 1
  let buf ← (if extra then dst.buf.store 0 0 else some dst.buf)
  let intg0 := max from1.intgWords from2.intgWords
  let intg0 := if extra then intg0 + 1 else intg0
  let fit := fixIntgFracError dst.len intg0 (max from1.fracWords from2.fracWords)
  let res ← (if fit.error = .overflow then maxDecimal (dst.len * digPerDec1) 0 { dst with buf }
    else doAddStore from1 from2 dst buf fit)
  some (fit.error, res)

lemma addCarryDown_spec (a : Words) (n : Nat) (p r carry : Int) (out : Words)
    (hp0 : 0 ≤ p - n) (hp : p ≤ a.size) (ha : Digits digBase a.word (p - n) n)
    (hr0 : 0 ≤ r - n) (hr : r ≤ out.size) (hc0 : 0 ≤ carry) (hc : carry < 2) :
    ∃ out' carry', addCarryDown a n p r carry out = some (out', carry') ∧
      Rippled digBase 1 2 n r out out' carry' (val digBase a.word (p - n) n + carry) := by
  obtain ⟨out', carry', hrun, hres⟩ := ripple_spec addCell_spec (fun _ i => a.load i)
    (fun _ => some 0) a.word (fun _ => 0) n p 0 r carry out
    (fun _ _ _ _ _ _ => a.load_eq (by omega) (by omega)) (fun _ _ _ => rfl) ha
    (digits_zero _ n) hr0 hr hc0 hc
  refine ⟨out', carry', hrun, ?_⟩
  simpa [val_eq_zero] using hres

lemma carry_eq_zero {pow c : Int} (hpow : 0 < pow) (hc : 0 ≤ c) (hlt : pow * c < pow) : c = 0 := by
  by_contra hne
  have hone : pow * 1 ≤ pow * c := mul_le_mul_of_nonneg_left (by omega) hpow.le
  omega

section
variable (a b : Words) (ia fa ib fb n : Nat) (out : Words) (hf : fb ≤ fa)
  (ha : Digits digBase a.word 0 (ia + fa)) (hb : Digits digBase b.word 0 (ib + fb))
  (hsa : ia + fa ≤ a.size) (hsb : ib + fb ≤ b.size) (hn : n ≤ out.size)
include a b ia fa ib fb n out hf ha hb hsa hsb hn

/-- The words of `do_add` before the last carry is stored: `m` words below `n`
that hold the sum up to a carry. -/
lemma addParts_run (m : Nat) (hm : m = max ia ib + fa) (hmn : m ≤ n) :
    ∃ out' c, Rippled digBase 1 2 m n out out' c (val digBase a.word 0 (ia + fa) +
        val digBase b.word 0 (ib + fb) * digBase ^ (fa - fb)) ∧
      addParts a b ia fa ib fb n out =
        if c ≠ 0 then out'.store (n - m - 1) 1 else some out' := by
  obtain ⟨c, hc⟩ : ∃ c, c = ia + fb - (ia - ib) := ⟨_, rfl⟩
  obtain ⟨d, hd⟩ : ∃ d, d = if ia > ib then ia - ib else ib - ia := ⟨_, rfl⟩
  obtain ⟨k, hk⟩ : ∃ k, k = fa - fb := ⟨_, rfl⟩
  obtain ⟨src, hsrc⟩ : ∃ src, src = if ia > ib then a else b := ⟨_, rfl⟩
  have hsrcDigits : d ≤ src.size ∧ Digits digBase src.word 0 d ∧
      val digBase a.word 0 (ia - ib) + val digBase b.word 0 (ib - ia) =
        val digBase src.word 0 d := by
    by_cases h : ia > ib
    · simp only [h, if_true] at hd hsrc
      rw [hsrc, hd, show ib - ia = 0 by omega, val_zero, add_zero]
      exact ⟨by omega, ha.mono le_rfl (by omega), rfl⟩
    · simp only [h, if_false] at hd hsrc
      rw [hsrc, hd, show ia - ib = 0 by omega, val_zero, zero_add]
      exact ⟨by omega, hb.mono le_rfl (by omega), rfl⟩
  obtain ⟨hsrcSize, hsrcDigits, hTop⟩ := hsrcDigits
  have hA : val digBase a.word 0 (ia + fa) = val digBase a.word 0 (ia - ib) * digBase ^ (c + k) +
      val digBase a.word (ia - ib : Nat) c * digBase ^ k + val digBase a.word (ia + fb) k := by
    rw [show ia + fa = (ia - ib) + (c + k) by omega, val_add, val_add, zero_add,
      show (((ia - ib : Nat) : Int) + c) = ia + fb by omega]
    ring
  have hB : val digBase b.word 0 (ib + fb) = val digBase b.word 0 (ib - ia) * digBase ^ c +
      val digBase b.word (ib - ia : Nat) c := by
    rw [show ib + fb = (ib - ia) + c by omega, val_add, zero_add]
  have ea : ((ia : Int) + fb - c) = (ia - ib : Nat) := by omega
  have eb : ((ib : Int) + fb - c) = (ib - ia : Nat) := by omega
  have hdck : m = d + c + k := by split at hd <;> omega
  obtain ⟨out1, run1, res1⟩ := copyDown_spec a k (ia + fa) n out (by omega) (by omega)
    (ha.mono (by omega) (by omega)) (by omega) (by omega)
  obtain ⟨out2, c2, run2, res2⟩ := ripple_arrays addCell_spec a b c (ia + fb) (ib + fb) (n - k) 0
    out1 (by omega) (by omega) (ha.mono (by omega) (by omega)) (by omega) (by omega)
    (hb.mono (by omega) (by omega)) (by omega) (by rw [res1.size]; omega) le_rfl (by decide)
  obtain ⟨out3, c3, run3, res3⟩ := addCarryDown_spec src d d (n - k - c) c2 out2
    (by omega) (by omega) (hsrcDigits.mono (by omega) (by omega)) (by omega)
    (by rw [res2.size, res1.size]; omega) res2.carry_nonneg res2.carry_lt
  have hrun : addParts a b ia fa ib fb n out =
      if c3 ≠ 0 then out3.store (n - k - c - d - 1) 1 else some out3 := by
    simp only [addParts, addDown, ← hk, ← hc, ← hd, ← hsrc, run1, run2, run3, some_bind]
  rw [show (n : Int) - k - c - d = n - m by omega] at hrun
  rw [ea, eb] at res2
  rw [show (ia : Int) + fa - k = ia + fb by omega] at res1
  rw [show (n : Int) - k - c = n - (k + c : Nat) by omega] at res3
  have low := (res1.rippled 1 2 (by decide)).append (val digBase a.word
    (ia - ib : Nat) c + val digBase b.word (ib - ia : Nat) c) (by simpa using res2)
  have all := low.append (val digBase src.word 0 d) (by simpa using res3)
  rw [show k + c + d = m by omega] at all
  refine ⟨out3, c3, ?_, hrun⟩
  convert all using 1
  rw [← hk, hA, hB, ← hTop]
  ring

lemma addParts_spec (total : Int)
    (htotal : val digBase a.word 0 (ia + fa) +
      val digBase b.word 0 (ib + fb) * digBase ^ (fa - fb) = total)
    (fit : (n = max ia ib + fa ∧ total < digBase ^ n) ∨ (n = max ia ib + fa + 1 ∧ out.word 0 = 0)) :
    ∃ out', addParts a b ia fa ib fb n out = some out' ∧ Filled n out out' total := by
  obtain ⟨m, hm⟩ : ∃ m, m = max ia ib + fa := ⟨_, rfl⟩
  rw [← hm] at fit
  obtain ⟨out1, c, res, hrun⟩ := addParts_run a b ia fa ib fb n out hf ha hb hsa hsb hn m hm
    (by omega)
  rw [htotal] at res
  have hwindow := res.total_eq
  have hdigits := res.digits
  rcases fit with ⟨rfl, hsmall⟩ | ⟨rfl, hzero⟩
  · have hnone : c = 0 := carry_eq_zero (pow_pos digBase_pos _) res.carry_nonneg
      (by linarith [val_nonneg digBase_pos.le hdigits])
    rw [sub_self] at hwindow hdigits
    refine ⟨out1, by simp [hrun, hnone], res.size, fun j hj => res.frame j (.inr hj), hdigits, ?_⟩
    simpa [hnone] using hwindow
  · have hstart : (((m + 1 : Nat) : Int) - m) = 1 := by omega
    rw [hstart] at hwindow hdigits hrun
    have hframe : ∀ j : Int, j < 1 ∨ ((m + 1 : Nat) : Int) ≤ j -> out1.word j = out.word j :=
      fun j hj => res.frame j (by omega)
    rw [add_comm m 1] at *
    by_cases hnone : c = 0
    · refine ⟨out1, by rw [hrun]; simp [hnone], res.size, fun j hj => hframe j (.inr hj), ?_, ?_⟩
      · intro i h0 h1
        by_cases hi : i = 0
        · rw [hi, hframe 0 (by omega), hzero]
          exact ⟨le_rfl, digBase_pos⟩
        · exact hdigits i (by omega) (by omega)
      · rw [val_add, val_one, hframe 0 (by omega), hzero]
        simpa [hnone] using hwindow
    · have hone : c = 1 := by
        have := res.carry_nonneg
        have := res.carry_lt
        omega
      refine ⟨out1.put 0 1, ?_, by simpa using res.size, ?_, ?_, ?_⟩
      · rw [hrun, if_pos hnone]
        exact out1.store_eq 1 le_rfl (by rw [res.size]; omega)
      · intro j hj
        rw [word_put_ne (by omega), hframe j (.inr hj)]
      · intro i h0 h1
        by_cases hi : i = 0
        · rw [hi, word_put_self]
          decide
        · rw [word_put_ne hi]
          exact hdigits i (by omega) (by push_cast at h1; omega)
      · rw [val_add, val_one, word_put_self, zero_add, cast_one,
          val_congr (u := out1.word) (fun i h0 h1 => word_put_ne (by omega))]
        rw [hone] at hwindow
        linarith only [hwindow]

end

lemma doAddTop_spec {a b : DecimalT} (ha : a.Legal) (hb : b.Legal) :
    ∃ x, doAddTop a b = some x ∧ (x ≤ digMax - 1 ->
      a.unitsAt (max a.fracWords b.fracWords) + b.unitsAt (max a.fracWords b.fracWords) <
        digBase ^ (max a.intgWords b.intgWords + max a.fracWords b.fracWords)) := by
  obtain ⟨f, hf⟩ : ∃ f, f = max a.fracWords b.fracWords := ⟨_, rfl⟩
  rw [← hf]
  have hfa : a.fracWords ≤ f := by omega
  have hfb : b.fracWords ≤ f := by omega
  have la : a.buf.load 0 = some (a.buf.word 0) :=
    a.buf.load_eq le_rfl (by have := ha.pos; have := ha.alloc; omega)
  have lb : b.buf.load 0 = some (b.buf.word 0) :=
    b.buf.load_eq le_rfl (by have := hb.pos; have := hb.alloc; omega)
  have hza := ha.unitsAt_lt hfa
  have hzb := hb.unitsAt_lt hfb
  have step : ∀ n : Nat, digBase ^ (n + 1) = digBase ^ n * digBase := fun n => pow_succ _ _
  have mono : ∀ x y : Nat, x ≤ y -> digBase ^ x ≤ digBase ^ y := fun x y h =>
    pow_le_pow_right₀ (by decide) h
  rcases lt_trichotomy a.intgWords b.intgWords with h | h | h
  · refine ⟨b.buf.word 0, by simp [doAddTop, h, not_lt.mpr h.le, lb], fun hx => ?_⟩
    have htop := hb.unitsAt_lt_leading hfb (by unfold words; omega)
    have hle := mono (a.intgWords + f) (b.intgWords + f - 1) (by omega)
    have hmul := mul_le_mul_of_nonneg_right (show b.buf.word 0 + 2 ≤ digBase by
      unfold digMax at hx; omega) (pow_nonneg digBase_pos.le (b.intgWords + f - 1))
    rw [show max a.intgWords b.intgWords + f = b.intgWords + f - 1 + 1 by omega, step]
    linarith
  · refine ⟨a.buf.word 0 + b.buf.word 0, by simp [doAddTop, h, la, lb], fun hx => ?_⟩
    rw [← h, max_self]
    by_cases wa : a.words = 0
    · rw [unitsAt_eq_zero wa, h]
      linarith
    by_cases wb : b.words = 0
    · rw [unitsAt_eq_zero wb]
      linarith
    have ta := ha.unitsAt_lt_leading hfa (pos_of_ne_zero wa)
    have tb := hb.unitsAt_lt_leading hfb (pos_of_ne_zero wb)
    have hmul := mul_le_mul_of_nonneg_right (show a.buf.word 0 + b.buf.word 0 + 2 ≤ digBase by
      unfold digMax at hx; omega) (pow_nonneg digBase_pos.le (a.intgWords + f - 1))
    rw [← h] at tb
    rw [show a.intgWords + f = a.intgWords + f - 1 + 1 by unfold words at wa; omega, step]
    linarith
  · refine ⟨a.buf.word 0, by simp [doAddTop, h, la], fun hx => ?_⟩
    have htop := ha.unitsAt_lt_leading hfa (by unfold words; omega)
    have hle := mono (b.intgWords + f) (a.intgWords + f - 1) (by omega)
    have hmul := mul_le_mul_of_nonneg_right (show a.buf.word 0 + 2 ≤ digBase by
      unfold digMax at hx; omega) (pow_nonneg digBase_pos.le (a.intgWords + f - 1))
    rw [show max a.intgWords b.intgWords + f = a.intgWords + f - 1 + 1 by omega, step]
    linarith

variable {a b dst : DecimalT}

lemma doAddStore_spec (ha : a.Legal) (hb : b.Legal) (hpos : 0 < dst.len)
    (halloc : dst.len ≤ dst.buf.size) (buf : Words) (hbuf : buf.size = dst.buf.size) (need : Nat)
    (room : need + max a.fracWords b.fracWords ≤ dst.len) (total : Int)
    (htotal : total = a.unitsAt (max a.fracWords b.fracWords) +
      b.unitsAt (max a.fracWords b.fracWords))
    (fit : (need = max a.intgWords b.intgWords ∧
        total < digBase ^ (need + max a.fracWords b.fracWords)) ∨
      (need = max a.intgWords b.intgWords + 1 ∧ buf.word 0 = 0)) :
    ∃ r, doAddStore a b dst buf ⟨need, max a.fracWords b.fracWords, .ok⟩ = some r ∧
      Exact dst r a.sign (max a.frac b.frac) total := by
  have hwords : roundUp (max a.frac b.frac) = max a.fracWords b.fracWords := roundUp_max _ _
  have sa := ha.room.trans ha.alloc
  have sb := hb.room.trans hb.alloc
  have key : ∃ out, (if a.fracWords > b.fracWords then
      addParts a.buf b.buf a.intgWords a.fracWords b.intgWords b.fracWords
        (need + max a.fracWords b.fracWords) buf
      else addParts b.buf a.buf b.intgWords b.fracWords a.intgWords a.fracWords
        (need + max a.fracWords b.fracWords) buf) = some out ∧
      Filled (need + max a.fracWords b.fracWords) buf out total := by
    by_cases h : a.fracWords > b.fracWords
    · have hmax : max a.fracWords b.fracWords = a.fracWords := by omega
      rw [if_pos h]
      rw [hmax] at room htotal fit ⊢
      exact_mod_cast addParts_spec a.buf b.buf _ _ _ _ (need + a.fracWords) buf h.le ha.digits
        hb.digits sa sb (by omega) total (by simp [htotal, unitsAt, units, words])
        (by omega)
    · have hmax : max a.fracWords b.fracWords = b.fracWords := by omega
      rw [if_neg h]
      rw [hmax] at room htotal fit ⊢
      exact_mod_cast addParts_spec b.buf a.buf _ _ _ _ (need + b.fracWords) buf (by omega)
        hb.digits ha.digits sb sa (by omega) total
        (by simp [htotal, unitsAt, units, words]; ring) (by omega)
  obtain ⟨out, hrun, hfill⟩ := key
  rw [← hwords] at hfill room
  refine ⟨_, ?_, hfill.exact a.sign hbuf hpos halloc room⟩
  simp only [doAddStore, if_true, cast_add, hrun, some_bind]

lemma doAdd_spec (ha : a.Legal) (hb : b.Legal) (hpos : 0 < dst.len)
    (halloc : dst.len ≤ dst.buf.size) :
    ∃ need, need ≤ max a.intgWords b.intgWords + 1 ∧
      (∀ r, doAdd a b dst = some (.ok, r) -> need + max a.fracWords b.fracWords ≤ dst.len) ∧
      (need + max a.fracWords b.fracWords ≤ dst.len -> ∃ r, doAdd a b dst = some (.ok, r) ∧
        Exact dst r a.sign (max a.frac b.frac) (a.unitsAt (max a.fracWords b.fracWords) +
          b.unitsAt (max a.fracWords b.fracWords))) := by
  obtain ⟨x, hx, htop⟩ := doAddTop_spec ha hb
  obtain ⟨buf, hstore, hsize, hword⟩ : ∃ buf : Words,
      (if x > digMax - 1 then dst.buf.store 0 0 else some dst.buf) = some buf ∧
      buf.size = dst.buf.size ∧ (x > digMax - 1 -> buf.word 0 = 0) := by
    by_cases h : x > digMax - 1
    · exact ⟨dst.buf.put 0 0, by simp [h, dst.buf.store_eq 0 le_rfl (by omega)], rfl, by simp⟩
    · exact ⟨dst.buf, by simp [h], rfl, fun h' => absurd h' h⟩
  obtain ⟨need, hneed⟩ : ∃ need, need = if x > digMax - 1 then
      max a.intgWords b.intgWords + 1 else max a.intgWords b.intgWords := ⟨_, rfl⟩
  have hrun : doAdd a b dst = ((if (fixIntgFracError dst.len need
      (max a.fracWords b.fracWords)).error = .overflow then
        maxDecimal (dst.len * digPerDec1) 0 { dst with buf }
      else doAddStore a b dst buf (fixIntgFracError dst.len need
        (max a.fracWords b.fracWords))).bind fun res =>
        some ((fixIntgFracError dst.len need (max a.fracWords b.fracWords)).error, res)) := by
    simp only [doAdd, hx, hstore, ← hneed, bind_eq_bind, bind_some]
  refine ⟨need, by split at hneed <;> omega, ?_, ?_⟩
  · intro r hr
    rw [hrun] at hr
    obtain ⟨res, -, hres⟩ := bind_eq_some_iff.mp hr
    simp only [some.injEq, Prod.mk.injEq] at hres
    exact fixIntgFracError_error_eq_ok.mp hres.1
  · intro room
    obtain ⟨r, hstored, hexact⟩ := doAddStore_spec ha hb hpos halloc buf hsize need room _ rfl (by
      by_cases h : x > digMax - 1
      · rw [if_pos h] at hneed
        exact .inr ⟨hneed, hword h⟩
      · rw [if_neg h] at hneed
        exact .inl ⟨hneed, by rw [hneed]; exact htop (by omega)⟩)
    refine ⟨r, ?_, hexact⟩
    rw [hrun, fixIntgFracError_ok room]
    simp [hstored]

end Decimal
