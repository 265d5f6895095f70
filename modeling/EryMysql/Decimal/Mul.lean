import EryMysql.Decimal.Basic

/-!
# Multiplication

`decimal_mul` is the schoolbook method in base 10^9. Every word of the first
operand adds one row to the words of the result, and the carry that leaves a row
runs on upwards. The integer part gets no more words than the digits of the
operands call for, which may be one less than their words call for.
-/

namespace Decimal

open WordArray DecimalT Option Words

/-- One step of a row: the product of `x` and `y` is split into two words. -/
def mulCell (x z y carry : Int) : Int × Int :=
  let p := x * y
  let hi := p / digBase
  let lo := p - hi * digBase
  let r := add2Cell z lo carry
  (r.1, r.2 + hi)

/-- Pass a carry on through the first `n` words. The flag says that it left the
buffer, on which `decimal_mul` returns `E_DEC_OVERFLOW`. -/
def mulCarry : Nat -> Int -> Words -> Option (Bool × Words)
  | 0, carry, out => some (carry ≠ 0, out)
  | n + 1, carry, out =>
    if carry = 0 then some (false, out)
    else do
      let x ← out.load n
      let out ← out.store n (addCell x 0 carry).1
      mulCarry n (addCell x 0 carry).2 out

/-- Add `x` times the `n` words below `q` to the words below `r`. -/
def mulRow (x : Int) (b : Words) (n : Nat) (q r : Int) (out : Words) : Option (Bool × Words) := do
  let (out, carry) ← ripple (mulCell x) (fun out i => out.load i) b.load n r q r 0 out
  let buf0 := r - n - 1
  if carry ≠ 0 then
    if buf0 < 0 then some (true, out)
    else do
      let z ← out.load buf0
      let out ← out.store buf0 (add2Cell z 0 carry).1
      mulCarry buf0.toNat (add2Cell z 0 carry).2 out
  else some (false, out)

/-- One row for each of the `n` words below `p`, each one word further up. -/
def mulRows (a b : Words) (n2 : Nat) (q : Int) : Nat -> Int -> Int -> Words -> Option (Bool × Words)
  | 0, _, _, out => some (false, out)
  | n + 1, p, r, out => do
    let x ← a.load (p - 1)
    let (overflow, out) ← mulRow x b n2 q r out
    if overflow then some (true, out) else mulRows a b n2 q n (p - 1) (r - 1) out

structure Factors where
  intg1 : Int
  intg2 : Int
  frac1 : Int
  frac2 : Int

/-- Drop words of the factors when the product does not fit. -/
def mulFactors (from1 from2 : DecimalT) (fit : Fit) : Factors :=
  let i := roundUp (from1.intg + from2.intg)
  let j := from1.fracWords + from2.fracWords
  if fit.error = .ok then
    ⟨from1.intgWords, from2.intgWords, from1.fracWords, from2.fracWords⟩
  else if i > fit.intg then
    -- bounded integer-part
    let i := i - fit.intg
    ⟨from1.intgWords - (i / 2 : Nat), from2.intgWords - (i - i / 2 : Nat), 0, 0⟩
  else
    -- bounded fract part
    let j := j - fit.frac
    let i := j / 2
    if from1.fracWords ≤ from2.fracWords then
      ⟨from1.intgWords, from2.intgWords, from1.fracWords - (i : Nat), from2.fracWords - (j - i : Nat)⟩
    else
      ⟨from1.intgWords, from2.intgWords, from1.fracWords - (j - i : Nat), from2.fracWords - (i : Nat)⟩

def mulNegativeZero (words : Nat) (dst : DecimalT) : Option DecimalT :=
  if dst.sign then
    if words = 0 then none
    else do
      let p ← skipUp dst.buf words 0
      if p = words then dst.makeZero else some dst
  else some dst

/-- `while (!*p && n left) p++;` -/
def skipLeading (b : Words) : Nat -> Int -> Option Int
  | 0, p => do
    let _ ← b.load p
    some p
  | n + 1, p => do
    let x ← b.load p
    if x = 0 then skipLeading b n (p + 1) else some p

/-- `while (n--) *q++ = *p++;` within one buffer. -/
def moveUp : Nat -> Int -> Int -> Words -> Option Words
  | 0, _, _, b => some b
  | n + 1, p, q, b => do
    let x ← b.load p
    let b ← b.store q x
    moveUp n (p + 1) (q + 1) b

/-- Drop the leading zero words of a product of `intg0` integer words. -/
def mulShift (intg0 : Nat) (dst : DecimalT) : Option DecimalT := do
  let p ← skipLeading dst.buf ((dst.intg - 1) / digPerDec1) 0
  let dToMove := intg0 + roundUp dst.frac - p.toNat
  let buf ← (if 0 < p then moveUp dToMove p 0 dst.buf else some dst.buf)
  some { dst with intg := dst.intg - p.toNat * digPerDec1, buf }

def decimalMul (from1 from2 dst : DecimalT) : Option (DecErr × DecimalT) := do
  let intg0 := roundUp (from1.intg + from2.intg)
  let frac0 := from1.fracWords + from2.fracWords
  let fit := fixIntgFracError dst.len intg0 frac0
  let frac := from1.frac + from2.frac
  -- set_if_smaller
  let frac := if fit.error = .ok then frac else min frac (fit.frac * digPerDec1)
  let f := mulFactors from1 from2 fit
  let buf ← fillUp 0 (fit.intg + fit.frac) 0 dst.buf
  let (overflow, buf) ← mulRows from1.buf from2.buf (f.intg2 + f.frac2).toNat
    (from2.intgWords + f.frac2) (f.intg1 + f.frac1).toNat (from1.intgWords + f.frac1)
    (fit.intg + fit.frac) buf
  let dst : DecimalT :=
    { dst with sign := from1.sign != from2.sign, frac, intg := fit.intg * digPerDec1, buf }
  if overflow then some (.overflow, dst)
  else do
    let dst ← mulNegativeZero (fit.intg + fit.frac) dst
    let dst ← mulShift fit.intg dst
    some (fit.error, dst)

lemma add2Cell_spec : Cell digBase 1 1 digBase add2Cell := by
  intro x y c hx0 hx hy0 hy hc0 hc
  by_cases h : digBase ≤ x + y + c
  · by_cases h' : digBase ≤ x + y + c - digBase
    · simp only [add2Cell, if_pos h, if_pos h']
      omega
    · simp only [add2Cell, if_pos h, if_neg h']
      omega
  · simp only [add2Cell, if_neg h]
    omega

lemma mulCell_spec {x : Int} (h0 : 0 ≤ x) (h1 : x < digBase) :
    Cell digBase 1 x digBase (mulCell x) :=
  add2Cell_spec.product (.inl rfl) digBase_pos h0 h1

lemma Filled.snoc {n : Nat} {out out' : Words} {v total : Int}
    (h : Filled n (out.put n v) out' total) (h0 : 0 ≤ v) (h1 : v < digBase) :
    Filled (n + 1) out out' (total * digBase + v) := by
  have hlast : out'.word n = v := by rw [h.frame n le_rfl, word_put_self]
  refine ⟨h.size, fun j hj => ?_, fun i hi0 hi1 => ?_, ?_⟩
  · rw [h.frame j (by omega), word_put_ne (by omega)]
  · by_cases hi : i = n
    · rw [hi, hlast]
      exact ⟨h0, h1⟩
    · exact h.digits i hi0 (by omega)
  · rw [val_succ, h.total_eq, zero_add, hlast]

lemma Filled.refl {n : Nat} {out : Words} (h : Digits digBase out.word 0 n) :
    Filled n out out (val digBase out.word 0 n) :=
  ⟨rfl, fun _ _ => rfl, h, rfl⟩

/-- What is left above the low `k` words of a number of `n + k` words has `n` words. -/
lemma lt_pow_of_split {hi lo total : Int} {n k : Nat} (heq : hi * digBase ^ k + lo = total)
    (hlo : 0 ≤ lo) (hlt : total < digBase ^ (n + k)) : hi < digBase ^ n := by
  by_contra hge
  have hmul := mul_le_mul_of_nonneg_right (not_lt.mp hge) (pow_nonneg digBase_pos.le k)
  rw [pow_add] at hlt
  linarith

lemma mulCarry_spec (n : Nat) (c : Int) (out : Words) (hn : n ≤ out.size) (hc0 : 0 ≤ c)
    (hc : c < 2) (hd : Digits digBase out.word 0 n)
    (hlt : val digBase out.word 0 n + c < digBase ^ n) :
    ∃ out', mulCarry n c out = some (false, out') ∧
      Filled n out out' (val digBase out.word 0 n + c) := by
  induction n generalizing c out with
  | zero =>
    have hzero : c = 0 := by simp at hlt; omega
    exact ⟨out, by simp [mulCarry, hzero], by simpa [hzero] using Filled.refl hd⟩
  | succ n ih =>
    by_cases hzero : c = 0
    · exact ⟨out, by simp [mulCarry, hzero], by simpa [hzero] using Filled.refl hd⟩
    · have hx := hd n (by omega) (by omega)
      have hcell := addCell_spec (out.word n) 0 c hx.1 hx.2 le_rfl digBase_pos hc0 hc
      obtain ⟨hword, hcarry, hsum⟩ := hcell
      have hsame : val digBase (out.put n (addCell (out.word n) 0 c).1).word 0 n =
          val digBase out.word 0 n := val_congr (fun i _ h => word_put_ne (by omega))
      have htotal : (val digBase out.word 0 n + (addCell (out.word n) 0 c).2) * digBase ^ 1 +
          (addCell (out.word n) 0 c).1 = val digBase out.word 0 (n + 1) + c := by
        rw [val_succ, zero_add]
        linarith
      obtain ⟨out', hrun, hfill⟩ := ih (addCell (out.word n) 0 c).2
        (out.put n (addCell (out.word n) 0 c).1) (by simp; omega) hcarry.1 hcarry.2
        ((hd.mono le_rfl (by omega)).congr
          (fun i _ h => word_put_ne (by omega)))
        (by rw [hsame]; exact lt_pow_of_split htotal hword.1 hlt)
      refine ⟨out', ?_, ?_⟩
      · simp only [mulCarry, if_neg hzero, out.load_eq (i := n) (by omega) (by omega),
          out.store_eq (i := n) _ (by omega) (by omega)]
        exact hrun
      · rw [← htotal, ← hsame]
        exact hfill.snoc hword.1 hword.2

lemma Filled.above {σ bound c t total : Int} {m n r : Nat} {out out1 out2 : Words} (hr : r = m + n)
    (h1 : Rippled digBase σ bound n r out out1 c t) (h2 : Filled m out1 out2 total) :
    Filled r out out2 (total * digBase ^ n + val digBase out1.word m n) := by
  have hdigits := h1.digits
  refine ⟨h2.size.trans h1.size, fun j hj => ?_, fun i hi0 hi1 => ?_, ?_⟩
  · rw [h2.frame j (by omega), h1.frame j (Or.inr hj)]
  · by_cases hi : i < m
    · exact h2.digits i hi0 (by omega)
    · rw [h2.frame i (by omega)]
      exact hdigits i (by omega) (by omega)
  · rw [hr, val_add, h2.total_eq, zero_add, val_congr (fun i h0 _ => h2.frame i h0)]

lemma mulRow_spec {x : Int} (hx0 : 0 ≤ x) (hx : x < digBase) (b : Words) (n : Nat) (q : Int)
    (r : Nat) (out : Words) (hn : n ≤ r) (hr : r ≤ out.size) (hq0 : 0 ≤ q - n) (hq : q ≤ b.size)
    (hb : Digits digBase b.word (q - n) n) (hd : Digits digBase out.word 0 r)
    (hlt : val digBase out.word 0 r + x * val digBase b.word (q - n) n < digBase ^ r) :
    ∃ out', mulRow x b n q r out = some (false, out') ∧
      Filled r out out' (val digBase out.word 0 r + x * val digBase b.word (q - n) n) := by
  obtain ⟨m, hm⟩ : ∃ m, r = m + n := ⟨r - n, by omega⟩
  have hstart : (r : Int) - n = m := by omega
  obtain ⟨out1, c, hrun, hres⟩ := ripple_spec (mulCell_spec hx0 hx) (fun out i => out.load i) b.load
    out.word b.word n r q r 0 out
    (fun b' i h0 h1 hsize hsame => by
      rw [b'.load_eq (by omega) (by omega), hsame i (by omega)])
    (fun i h0 h1 => b.load_eq (by omega) (by omega))
    (hd.mono (by omega) (by omega)) hb (by omega) (by omega) le_rfl digBase_pos
  have hdigits := hres.digits
  rw [hstart] at hdigits
  have hkeep : val digBase out1.word 0 m = val digBase out.word 0 m :=
    val_congr (fun i _ h => hres.frame i (by omega))
  have htotal : (val digBase out1.word 0 m + c) * digBase ^ n + val digBase out1.word m n =
      val digBase out.word 0 r + x * val digBase b.word (q - n) n := by
    have h := hres.total_eq
    rw [hstart] at h
    rw [hkeep, hm, val_add, zero_add]
    linarith only [h]
  have hc := lt_pow_of_split (n := m) htotal (val_nonneg digBase_pos.le hdigits) (hm ▸ hlt)
  have hd1 : Digits digBase out1.word 0 m :=
    (hd.mono le_rfl (by omega)).congr (fun i _ h => hres.frame i (by omega))
  have hsize := hres.size
  have hc0 := hres.carry_nonneg
  simp only [mulRow, hrun, bind_eq_bind, bind_some, hstart]
  rw [← htotal]
  by_cases hzero : c = 0
  · refine ⟨out1, by simp [hzero], ?_⟩
    rw [hzero, add_zero]
    exact Filled.above hm hres (Filled.refl hd1)
  · obtain ⟨k, rfl⟩ : ∃ k, m = k + 1 := by
      cases m with
      | zero => simp at hc; omega
      | succ k => exact ⟨k, rfl⟩
    have hz := hd1 k (by omega) (by omega)
    have hc1 := hres.carry_lt
    obtain ⟨hword, ⟨hcarry, -⟩, hsum⟩ := add2Cell_spec _ _ _ hz.1 hz.2 le_rfl digBase_pos hc0 hc1
    have hcarry1 : (add2Cell (out1.word k) 0 c).2 < 2 := by
      unfold digBase at *
      omega
    have hsame : val digBase (out1.put k (add2Cell (out1.word k) 0 c).1).word 0 k =
        val digBase out1.word 0 k := val_congr (fun i _ h => word_put_ne (by omega))
    have hsplit : (val digBase out1.word 0 k + (add2Cell (out1.word k) 0 c).2) * digBase ^ 1 +
        (add2Cell (out1.word k) 0 c).1 = val digBase out1.word 0 (k + 1) + c := by
      rw [val_succ, zero_add]
      linarith
    obtain ⟨out2, hrun2, hfill⟩ := mulCarry_spec k (add2Cell (out1.word k) 0 c).2
      (out1.put k (add2Cell (out1.word k) 0 c).1) (by simp; omega) hcarry hcarry1
      ((hd1.mono le_rfl (by omega)).congr
        (fun i _ h => word_put_ne (by omega)))
      (by rw [hsame]; exact lt_pow_of_split hsplit hword.1 hc)
    refine ⟨out2, ?_, Filled.above hm hres ?_⟩
    · rw [if_pos hzero, show ((k + 1 : Nat) : Int) - 1 = k by omega,
        out1.load_eq (by omega) (by omega), bind_some, out1.store_eq _ (by omega) (by omega)]
      exact hrun2
    · rw [← hsplit, ← hsame]
      exact hfill.snoc hword.1 hword.2

lemma mulRows_spec (a b : Words) (n2 : Nat) (q : Int) (n : Nat) (p : Int) (r : Nat) (out : Words)
    (hn : n + n2 ≤ r + 1) (hr : r ≤ out.size) (hp0 : 0 ≤ p - n) (hp : p ≤ a.size)
    (ha : Digits digBase a.word (p - n) n) (hq0 : 0 ≤ q - n2) (hq : q ≤ b.size)
    (hb : Digits digBase b.word (q - n2) n2) (hd : Digits digBase out.word 0 r)
    (hlt : val digBase out.word 0 r + val digBase a.word (p - n) n *
      val digBase b.word (q - n2) n2 < digBase ^ r) :
    ∃ out', mulRows a b n2 q n p r out = some (false, out') ∧
      Filled r out out' (val digBase out.word 0 r + val digBase a.word (p - n) n *
        val digBase b.word (q - n2) n2) := by
  obtain ⟨y, hy⟩ : ∃ y, y = val digBase b.word (q - n2) n2 := ⟨_, rfl⟩
  have hy0 : 0 ≤ y := hy ▸ val_nonneg digBase_pos.le hb
  rw [← hy] at hlt ⊢
  induction n generalizing p r out with
  | zero => exact ⟨out, rfl, by simpa using Filled.refl hd⟩
  | succ n ih =>
    have hx := ha (p - 1) (by omega) (by omega)
    have ha' := ha.mono (t := p - 1 - n) (m := n) (by omega) (by omega)
    have hrest : 0 ≤ val digBase a.word (p - 1 - n) n * digBase * y :=
      mul_nonneg (mul_nonneg (val_nonneg digBase_pos.le ha') digBase_pos.le) hy0
    rw [show p - ((n + 1 : Nat) : Int) = p - 1 - n by push_cast; ring, val_succ,
      sub_add_cancel] at hlt ⊢
    obtain ⟨out1, hrun1, hfill1⟩ := mulRow_spec hx.1 hx.2 b n2 q r out (by omega) hr hq0 hq hb hd
      (by rw [← hy]; linarith)
    rw [← hy] at hfill1
    have hstep : mulRows a b n2 q (n + 1) p r out = mulRows a b n2 q n (p - 1) (r - 1) out1 := by
      simp [mulRows, a.load_eq (i := p - 1) (by omega) (by omega), hrun1]
    cases r with
    | zero =>
      obtain rfl : n = 0 := by omega
      exact ⟨out1, hstep, by simpa using hfill1⟩
    | succ r =>
      have hlast := hfill1.digits r (by omega) (by omega)
      have hsum := hfill1.total_eq
      rw [val_succ, zero_add] at hsum
      have hsplit : (val digBase out1.word 0 r + val digBase a.word (p - 1 - n) n * y) *
          digBase ^ 1 + out1.word r = val digBase out.word 0 (r + 1) +
            (val digBase a.word (p - 1 - n) n * digBase + a.word (p - 1)) * y := by
        linarith
      obtain ⟨out2, hrun2, hfill2⟩ := ih (p - 1) r out1 (by omega)
        (by rw [hfill1.size]; omega) (by omega) (by omega) ha'
        (hfill1.digits.mono le_rfl (by omega)) (lt_pow_of_split hsplit hlast.1 hlt)
      refine ⟨out2, ?_, ?_⟩
      · rw [hstep, show ((r + 1 : Nat) : Int) - 1 = r by omega]
        exact hrun2
      · have hput : Filled (r + 1) out1 out2 _ := Filled.snoc
          (v := out1.word r) (by rwa [out1.put_self]) hlast.1 hlast.2
        rw [← hsplit]
        exact ⟨hput.size.trans hfill1.size, fun j hj => (hput.frame j hj).trans (hfill1.frame j hj),
          hput.digits, hput.total_eq⟩

lemma skipLeading_eq (b : Words) (n : Nat) (p : Int) (h0 : 0 ≤ p) (h1 : p + n < b.size) :
    skipLeading b n p = skipUp b n p := by
  induction n generalizing p with
  | zero => simp [skipLeading, skipUp, skipZeros, b.load_eq h0 (by simpa using h1)]
  | succ n ih =>
    simp [skipLeading, skipUp, skipZeros, ih (p + 1) (by omega) (by omega)]

lemma moveUp_spec (n : Nat) (p q : Int) (b : Words) (hq : 0 ≤ q) (hlt : q < p)
    (hp : p + n ≤ b.size) :
    ∃ b', moveUp n p q b = some b' ∧ b'.size = b.size ∧
      (∀ i : Nat, i < n -> b'.word (q + i) = b.word (p + i)) ∧
      ∀ j, j < q ∨ q + n ≤ j -> b'.word j = b.word j := by
  induction n generalizing p q b with
  | zero => exact ⟨b, rfl, rfl, by omega, fun _ _ => rfl⟩
  | succ n ih =>
    obtain ⟨b', hrun, hsize, hmove, hframe⟩ := ih (p + 1) (q + 1) (b.put q (b.word p)) (by omega)
      (by omega) (by simp; omega)
    refine ⟨b', ?_, hsize, fun i hi => ?_, fun j hj => ?_⟩
    · simp only [moveUp, b.load_eq (i := p) (by omega) (by omega),
        b.store_eq (i := q) _ hq (by omega)]
      exact hrun
    · cases i with
      | zero => rw [Nat.cast_zero, add_zero, add_zero, hframe q (by omega), word_put_self]
      | succ i =>
        rw [show q + ((i + 1 : Nat) : Int) = q + 1 + i by push_cast; ring, hmove i (by omega),
          show p + ((i + 1 : Nat) : Int) = p + 1 + i by push_cast; ring,
          word_put_ne (by omega)]
    · rw [hframe j (by omega), word_put_ne (by omega)]

lemma mulShift_spec {dst : DecimalT} {intg0 : Nat} (hintg : dst.intg = intg0 * digPerDec1)
    (hpos : 0 < dst.buf.size) (hsize : dst.words ≤ dst.buf.size)
    (hd : Digits digBase dst.buf.word 0 dst.words) :
    ∃ k buf, k ≤ intg0 - 1 ∧
      mulShift intg0 dst = some { dst with intg := (intg0 - k) * digPerDec1, buf } ∧
      buf.size = dst.buf.size ∧ (∀ j : Int, dst.words ≤ j -> buf.word j = dst.buf.word j) ∧
      Digits digBase buf.word 0 (intg0 - k + dst.fracWords) ∧
      val digBase buf.word 0 (intg0 - k + dst.fracWords) = dst.units := by
  have hw : dst.words = intg0 + dst.fracWords := by
    rw [words, intgWords, hintg, roundUp_mul]
  have hn : (dst.intg - 1) / digPerDec1 = intg0 - 1 := by
    rw [hintg, digPerDec1]
    omega
  obtain ⟨k, hk, hrun, hzero, -⟩ := skipUp_spec dst.buf (intg0 - 1) 0 le_rfl (by omega)
  rw [← skipLeading_eq _ _ _ le_rfl (by omega)] at hrun
  rw [zero_add] at hrun hzero
  have hfields : dst.intg - k * digPerDec1 = (intg0 - k) * digPerDec1 := by
    rw [hintg, Nat.sub_mul]
  have hunits : dst.units = val digBase dst.buf.word k (intg0 - k + dst.fracWords) := by
    rw [units, hw, show intg0 + dst.fracWords = k + (intg0 - k + dst.fracWords) by omega,
      val_add, val_eq_zero (fun i h0 h1 => hzero i h0 (by omega)), zero_mul, zero_add, zero_add]
  by_cases hk0 : k = 0
  · refine ⟨0, dst.buf, by omega, ?_, rfl, fun _ _ => rfl, ?_, ?_⟩
    · rw [hk0] at hrun
      simp only [mulShift, hn, hrun, some_bind]
      simp [hintg]
    · rwa [hw] at hd
    · rw [hunits, hk0]
      rfl
  · obtain ⟨buf, hmove, hsz, hmoved, hframe⟩ := moveUp_spec (intg0 + dst.fracWords - k) k 0 dst.buf
      le_rfl (by omega) (by omega)
    have hshift : ∀ i : Nat, i < intg0 - k + dst.fracWords -> buf.word (0 + i) =
        dst.buf.word (k + i) := fun i hi => hmoved i (by omega)
    refine ⟨k, buf, hk, ?_, hsz, fun j hj => hframe j (by omega), fun i h0 h1 => ?_, ?_⟩
    · have hpos : (0 : Int) < k := by omega
      simp only [mulShift, hn, hrun, some_bind, if_pos hpos, Int.toNat_natCast, hfields]
      rw [show roundUp dst.frac = dst.fracWords from rfl, hmove]
      rfl
    · have hi := hshift i.toNat (by omega)
      rw [Int.toNat_of_nonneg h0, zero_add] at hi
      rw [hi]
      exact hd _ (by omega) (by omega)
    · rw [hunits]
      exact val_shift hshift

/-- What `decimal_mul` makes of two factors. -/
structure Product (a b dst r : DecimalT) : Prop where
  value_eq : r.value = a.value * b.value
  nonneg_zero : r.value = 0 -> r.sign = false
  frame : ∀ j : Int, (roundUp (a.intg + b.intg) + (a.fracWords + b.fracWords) : Nat) ≤ j ->
    r.buf.word j = dst.buf.word j
  wellFormed : 0 < dst.len -> dst.len ≤ dst.buf.size -> r.WellFormed

lemma DecimalT.Legal.units_mul_lt {a b : DecimalT} (ha : a.Legal) (hb : b.Legal) :
    a.units * b.units < digBase ^ (roundUp (a.intg + b.intg) + (a.fracWords + b.fracWords)) := by
  have hw0 : roundUp (a.intg + b.intg) = (a.intg + b.intg + 8) / 9 := roundUp_eq _
  calc a.units * b.units < 10 ^ (a.intg + digPerDec1 * a.fracWords) *
        10 ^ (b.intg + digPerDec1 * b.fracWords) :=
        mul_lt_mul'' ha.units_lt hb.units_lt ha.units_nonneg hb.units_nonneg
    _ ≤ 10 ^ (digPerDec1 * (roundUp (a.intg + b.intg) + (a.fracWords + b.fracWords))) := by
        rw [← pow_add]
        refine pow_le_pow_right₀ (by decide) ?_
        unfold digPerDec1
        omega
    _ = digBase ^ (roundUp (a.intg + b.intg) + (a.fracWords + b.fracWords)) := by
        rw [pow_mul]
        rfl

lemma DecimalT.Legal.val_kept {d : DecimalT} {k : Nat} (h : d.Legal) (hk : k ≤ d.words) :
    val digBase d.buf.word 0 (d.words - k) = d.units / digBase ^ k := by
  have hdigits := h.digits
  have hlow := hdigits.mono (t := (d.words - k : Nat)) (m := k) (by omega) (by omega)
  rw [units, ← Nat.sub_add_cancel hk, Nat.add_sub_cancel, val_add, zero_add, add_comm,
    Int.add_mul_ediv_right _ _ (pow_ne_zero k digBase_pos.ne'),
    Int.ediv_eq_zero_of_lt (val_nonneg digBase_pos.le hlow) (val_lt digBase_pos.le hlow), zero_add]

/-- The product of the magnitudes without their last words, before the leading zero words are
dropped: no carry leaves the buffer. -/
lemma mulRows_kept {a b : DecimalT} {len k1 k2 : Nat} (ha : a.Legal) (hb : b.Legal) (out : Words)
    (hsize : len ≤ out.size) (hk1 : k1 ≤ a.words) (hk2 : k2 ≤ b.words)
    (hk : k1 + k2 + len = roundUp (a.intg + b.intg) + (a.fracWords + b.fracWords)) :
    ∃ out0 out1, fillUp 0 len 0 out = some out0 ∧
      mulRows a.buf b.buf (b.words - k2) (b.words - k2 : Nat) (a.words - k1) (a.words - k1 : Nat)
        len out0 = some (false, out1) ∧
      Filled len out out1 (a.units / digBase ^ k1 * (b.units / digBase ^ k2)) := by
  have hwa : a.intgWords = (a.intg + 8) / 9 := roundUp_eq _
  have hwb : b.intgWords = (b.intg + 8) / 9 := roundUp_eq _
  have hw0 : roundUp (a.intg + b.intg) = (a.intg + b.intg + 8) / 9 := roundUp_eq _
  obtain ⟨out0, hfill, hsz, hzero, hframe⟩ := fillUp_spec 0 len 0 out le_rfl (by omega)
  have hval : val digBase out0.word 0 len = 0 := val_eq_zero hzero
  have hva := ha.val_kept hk1
  have hvb := hb.val_kept hk2
  have hpow1 := pow_pos digBase_pos k1
  have hpow2 := pow_pos digBase_pos k2
  have hlt : a.units / digBase ^ k1 * (b.units / digBase ^ k2) < digBase ^ len := by
    refine lt_of_mul_lt_mul_right ?_ (mul_pos hpow1 hpow2).le
    calc a.units / digBase ^ k1 * (b.units / digBase ^ k2) * (digBase ^ k1 * digBase ^ k2)
        = a.units / digBase ^ k1 * digBase ^ k1 * (b.units / digBase ^ k2 * digBase ^ k2) := by ring
      _ ≤ a.units * b.units :=
          mul_le_mul (Int.ediv_mul_le _ hpow1.ne') (Int.ediv_mul_le _ hpow2.ne')
            (mul_nonneg (Int.ediv_nonneg hb.units_nonneg hpow2.le) hpow2.le) ha.units_nonneg
      _ < digBase ^ (k1 + k2 + len) := hk ▸ ha.units_mul_lt hb
      _ = digBase ^ len * (digBase ^ k1 * digBase ^ k2) := by ring
  obtain ⟨out1, hrun, hres⟩ := mulRows_spec a.buf b.buf (b.words - k2) (b.words - k2 : Nat)
    (a.words - k1) (a.words - k1 : Nat) len out0 (by unfold words at *; omega) (by omega)
    (by omega) (by have := ha.room.trans ha.alloc; omega)
    (ha.digits.mono (by omega) (by omega)) (by omega)
    (by have := hb.room.trans hb.alloc; omega) (hb.digits.mono (by omega) (by omega))
    (fun i h0 h1 => by rw [hzero i h0 h1]; exact ⟨le_rfl, digBase_pos⟩)
    (by rw [hval, zero_add, sub_self, sub_self, hva, hvb]; exact hlt)
  rw [hval, zero_add, sub_self, sub_self, hva, hvb] at hres
  exact ⟨out0, out1, hfill, hrun, hres.size.trans hsz, fun j hj =>
    (hres.frame j hj).trans (hframe j (Or.inr (by omega))), hres.digits, hres.total_eq⟩

variable {a b dst d : DecimalT}

lemma mulShift_product (wa : a.WellFormed) (wb : b.WellFormed) {N : Nat}
    (hN : N = roundUp (a.intg + b.intg) + (a.fracWords + b.fracWords)) (hpos : 0 < dst.buf.size)
    (room : N ≤ dst.len) (alloc : N ≤ dst.buf.size)
    (hres : Filled N dst.buf d.buf (a.units * b.units)) (hlen : d.len = dst.len)
    (hintg : d.intg = roundUp (a.intg + b.intg) * digPerDec1) (hfrac : d.frac = a.frac + b.frac)
    (hsign : d.sign = (a.sign != b.sign)) (hzero : d.sign = true -> a.units * b.units ≠ 0) :
    ∃ r, mulShift (roundUp (a.intg + b.intg)) d = some r ∧ Product a b dst r := by
  have hfw : d.fracWords = (a.frac + b.frac + 8) / 9 := by rw [fracWords, hfrac, roundUp_eq]
  have hwa : a.fracWords = (a.frac + 8) / 9 := roundUp_eq _
  have hwb : b.fracWords = (b.frac + 8) / 9 := roundUp_eq _
  have hwords : d.words = roundUp (a.intg + b.intg) + d.fracWords := by
    rw [words, intgWords, hintg, roundUp_mul]
  obtain ⟨k, hk⟩ : ∃ k, N = d.words + k := ⟨N - d.words, by omega⟩
  have hdvd : (10 : Int) ^ (digPerDec1 * d.fracWords - d.frac) * digBase ^ k ∣
      a.units * b.units := by
    have h := mul_dvd_mul (a.trailing_iff.mp wa.trailing) (b.trailing_iff.mp wb.trailing)
    have hpow : digBase ^ k = 10 ^ (digPerDec1 * k) := by rw [pow_mul]; rfl
    rw [← pow_add] at h
    rw [hpow, ← pow_add]
    refine (pow_dvd_pow 10 ?_).trans h
    unfold digPerDec1
    omega
  have hunits : a.units * b.units = d.units * digBase ^ k := by
    rw [← hres.total_eq, units, hk]
    refine val_of_dvd digBase_pos (hk ▸ hres.digits) ?_
    rw [← hk, hres.total_eq]
    exact (Dvd.intro_left _ rfl).trans hdvd
  obtain ⟨j, buf, hj, hrun, hsize, hframe, hdigits, hval⟩ := mulShift_spec hintg
    (by rw [hres.size]; exact hpos) (by rw [hres.size]; omega)
    (hres.digits.mono le_rfl (by omega))
  obtain ⟨r, hr⟩ : ∃ r : DecimalT,
    r = ⟨(roundUp (a.intg + b.intg) - j) * digPerDec1, d.frac, d.len, d.sign, buf⟩ := ⟨_, rfl⟩
  have hrw : r.words = roundUp (a.intg + b.intg) - j + d.fracWords := by
    rw [hr, words, intgWords, roundUp_mul]
    rfl
  have hru : r.units = d.units := by rw [units, hrw, ← hval, hr]
  have hrf : r.fracWords = d.fracWords := by rw [hr]; rfl
  have hmag : r.mag = a.mag * b.mag := by
    have hbase : (digBase : ℚ) ≠ 0 := by exact_mod_cast digBase_pos.ne'
    rw [mag, mag, mag, hru, hrf, div_mul_div_comm, ← pow_add, ← Int.cast_mul, hunits,
      show a.fracWords + b.fracWords = d.fracWords + k by omega, pow_add, Int.cast_mul,
      Int.cast_pow, mul_div_mul_right _ _ (pow_ne_zero k hbase)]
  refine ⟨r, by rw [hr]; exact hrun, ⟨?_, ?_, ?_, ?_⟩⟩
  · rw [value, value, value, ← applySign_mul, hmag, hr, hsign]
  · intro hv
    by_contra hs
    rw [hr] at hs
    refine hzero (by simpa using hs) ?_
    rw [hunits, ← hru, r.value_eq_zero_iff.mp hv, zero_mul]
  · intro i hi
    rw [hr, hframe i (by omega), hres.frame i (by omega)]
  · intro hlen0 halloc
    have hrlen : r.len = dst.len := by rw [hr]; exact hlen
    have hrbuf : r.buf = buf := by rw [hr]
    refine ⟨Legal.of_digits (by rw [hr]) (by omega) (by omega) ?_ ?_, r.trailing_iff.mpr ?_⟩
    · rw [hrbuf, hsize, hres.size, hrlen]
      exact halloc
    · rw [hrbuf, hrw]
      exact hdigits
    · rw [hunits] at hdvd
      rw [hru, hr]
      exact (mul_dvd_mul_iff_right (pow_ne_zero k digBase_pos.ne')).mp hdvd

lemma mulNegativeZero_eq {d : DecimalT} {n : Nat} (hsize : n ≤ d.buf.size)
    (hd : Digits digBase d.buf.word 0 n) (hpos : d.sign = true -> 0 < n) :
    mulNegativeZero n d =
      if d.sign = true ∧ val digBase d.buf.word 0 n = 0 then d.makeZero else some d := by
  by_cases hs : d.sign = true
  · obtain ⟨k, hk, hrun, hzero, hstop⟩ := skipUp_spec d.buf n 0 le_rfl (by omega)
    rw [zero_add] at hrun hzero hstop
    rw [mulNegativeZero, if_neg (hpos hs).ne', hrun]
    by_cases hkn : k = n
    · have hval : val digBase d.buf.word 0 n = 0 :=
        val_eq_zero (fun i h0 h1 => hzero i h0 (by omega))
      simp [hs, hval, hkn]
    · have hval := val_pos digBase_pos hd (i := k) (by omega) (by omega) (hstop (by omega))
      simp [hval.ne', hkn]
  · simp [mulNegativeZero, hs]

lemma product_zero {N : Nat}
    (hN : N = roundUp (a.intg + b.intg) + (a.fracWords + b.fracWords)) (hNpos : 0 < N)
    (hres : Filled N dst.buf d.buf (a.units * b.units)) (hlen : d.len = dst.len)
    (hzero : a.units * b.units = 0) : Product a b dst ⟨1, 0, d.len, false, d.buf.put 0 0⟩ := by
  have hcanon : CanonicalZero ⟨1, 0, d.len, false, d.buf.put 0 0⟩ :=
    ⟨rfl, rfl, rfl, word_put_self _ _ _⟩
  refine ⟨?_, fun _ => rfl, fun j hj => ?_, fun hlen0 halloc => ?_⟩
  · rw [(value_eq_zero_iff _).mpr hcanon.units_eq]
    rcases mul_eq_zero.mp hzero with h | h
    · rw [a.value_eq_zero_iff.mpr h, zero_mul]
    · rw [b.value_eq_zero_iff.mpr h, mul_zero]
  · rw [word_put_ne (by omega), hres.frame j (by omega)]
  · exact makeZero_wellFormed (hlen ▸ hlen0) (by rw [hlen, hres.size]; exact halloc)

/-- Multiplication is exact. The buffer of the result need hold no more than the
words of the product, and the words after those are left alone. -/
theorem decimalMul_exact {a b dst : DecimalT} (wa : a.WellFormed) (wb : b.WellFormed)
    (na : ¬ a.NegativeZero) (nb : ¬ b.NegativeZero) (hpos : 0 < dst.buf.size)
    (room : roundUp (a.intg + b.intg) + (a.fracWords + b.fracWords) ≤ dst.len)
    (alloc : roundUp (a.intg + b.intg) + (a.fracWords + b.fracWords) ≤ dst.buf.size) :
    ∃ r, decimalMul a b dst = some (.ok, r) ∧ Product a b dst r := by
  obtain ⟨out0, out1, hfill, hrows, hres⟩ := @mulRows_kept a b _ 0 0 wa.toLegal wb.toLegal dst.buf
    alloc (Nat.zero_le _) (Nat.zero_le _) (by omega)
  simp only [Nat.sub_zero, pow_zero, Int.ediv_one] at hrows hres
  obtain ⟨d, hd⟩ : ∃ d : DecimalT, d = ⟨roundUp (a.intg + b.intg) * digPerDec1, a.frac + b.frac,
    dst.len, a.sign != b.sign, out1⟩ := ⟨_, rfl⟩
  have hrun : decimalMul a b dst =
      (mulNegativeZero (roundUp (a.intg + b.intg) + (a.fracWords + b.fracWords)) d).bind fun r =>
        (mulShift (roundUp (a.intg + b.intg)) r).bind fun r => some (.ok, r) := by
    have h1 : ((a.intgWords : Int) + a.fracWords) = a.words := by unfold words; omega
    have h2 : ((b.intgWords : Int) + b.fracWords) = b.words := by unfold words; omega
    simp only [decimalMul, fixIntgFracError_ok room, mulFactors, if_true, hfill, h1, h2,
      Int.toNat_natCast, bind_eq_bind, bind_some, ← Nat.cast_add, hrows,
      Bool.false_eq_true, if_false, hd]
  have hdbuf : d.buf = out1 := by rw [hd]
  have hdsign : d.sign = (a.sign != b.sign) := by rw [hd]
  have hpos' : 0 < d.buf.size := by rw [hdbuf, hres.size]; exact hpos
  rw [← hdbuf] at hres
  have hwords : d.sign = true ->
      0 < roundUp (a.intg + b.intg) + (a.fracWords + b.fracWords) := by
    intro hs
    by_contra hnone
    have hw0 : roundUp (a.intg + b.intg) = (a.intg + b.intg + 8) / 9 := roundUp_eq _
    have ha0 : a.units = 0 := by
      simp [units, words, intgWords, roundUp_eq, show a.intg = 0 by omega,
        show a.fracWords = 0 by omega]
    have hb0 : b.units = 0 := by
      simp [units, words, intgWords, roundUp_eq, show b.intg = 0 by omega,
        show b.fracWords = 0 by omega]
    rw [hdsign] at hs
    cases hsa : a.sign with
    | true => exact na ⟨hsa, ha0⟩
    | false => exact nb ⟨by simpa [hsa] using hs, hb0⟩
  rw [hrun, mulNegativeZero_eq (by rw [hres.size]; exact alloc) hres.digits hwords, hres.total_eq]
  by_cases hneg : d.sign = true ∧ a.units * b.units = 0
  · refine ⟨_, ?_, product_zero rfl (hwords hneg.1) hres (by rw [hd]) hneg.2⟩
    rw [if_pos hneg, makeZero_eq hpos', bind_some]
    simp [mulShift, skipLeading, (d.buf.put 0 0).load_eq le_rfl (by simpa using hpos')]
  · obtain ⟨r, hshift, hprod⟩ := mulShift_product wa wb rfl hpos room alloc hres (by rw [hd])
      (by rw [hd]) (by rw [hd]) hdsign (fun hs hz => hneg ⟨hs, hz⟩)
    exact ⟨r, by rw [if_neg hneg, bind_some, hshift, bind_some], hprod⟩

theorem decimalMul_exact_five_halves_tenth :
    ∃ r, decimalMul (ofWords 1 1 false [2, 500000000]) (ofWords 0 1 true [100000000])
      (ofWords 0 0 false [7, 7, 7]) = some (.ok, r) ∧ r.value = -1 / 4 := by
  obtain ⟨r, hr, hprod⟩ := @decimalMul_exact (ofWords 1 1 false [2, 500000000])
    (ofWords 0 1 true [100000000]) (ofWords 0 0 false [7, 7, 7]) (by decide) (by decide) (by decide)
    (by decide) (by decide) (by decide) (by decide)
  exact ⟨r, hr, hprod.value_eq.trans (by decide +kernel)⟩

end Decimal
