import EryMysql.Lib.QuotientGuess
import EryMysql.Decimal.LeadingZeroes

/-!
# Division

`do_div_mod` without a modulus is Knuth's algorithm D on base 10^9 words, except
that the operands are not normalised. The dividend is copied to `tmp1` and
reduced in place, one quotient word after the other.
-/

namespace Decimal

open WordArray DecimalT QuotientGuess Option

/-- A value of the 64-bit type `dec2`. -/
def dec2 (x : Int) : Option Int := if -2 ^ 63 ≤ x ∧ x < 2 ^ 63 then some x else none

/-- The divisor without leading and trailing zero words, and its normalisation. -/
structure Divisor where
  buf : Words
  start2 : Int
  len2 : Nat
  normFactor : Int
  norm2 : Int

def makeDivisor (buf : Words) (start2 : Int) (words : Nat) : Option Divisor := do
  -- removing end zeroes
  let stop2 ← skipDown buf words (start2 + words - 1)
  let len2 := (stop2 - start2).toNat
  let b0 ← buf.load start2
  let normFactor := digBase / (b0 + 1)
  let norm2 ← dec2 (normFactor * b0)
  let norm2 ← (if 0 < len2 then do
      let b1 ← buf.load (start2 + 1)
      let p ← dec2 (normFactor * b1)
      some (norm2 + p / digBase)
    else some norm2)
  some ⟨buf, start2, len2, normFactor, norm2⟩

/-- `start2[1]*guess > (x-guess*start2[0])*DIG_BASE+y` -/
def guessTooBig (b0 b1 x y guess : Int) : Option Bool := do
  let l ← dec2 (b1 * guess)
  let p ← dec2 (guess * b0)
  let d ← dec2 (x - p)
  let d ← dec2 (d * digBase)
  let r ← dec2 (d + y)
  some (l > r)

/-- The first guess: both leading words scaled, never more than a word. -/
def firstGuess (dv : Divisor) (x y : Int) : Option Int := do
  let nx ← dec2 (dv.normFactor * x)
  let ny ← dec2 (dv.normFactor * y)
  let n ← dec2 (nx + ny / digBase)
  let guess := n / dv.norm2
  some (if digBase ≤ guess then digBase - 1 else guess)

/-- The two corrections and the assertion that follows them. -/
def correctGuess (b0 b1 x y guess : Int) : Option Int := do
  let big ← guessTooBig b0 b1 x y guess
  let guess := if big then guess - 1 else guess
  let big ← guessTooBig b0 b1 x y guess
  let guess := if big then guess - 1 else guess
  let big ← guessTooBig b0 b1 x y guess
  if big then none else some guess

def makeGuess (dv : Divisor) (x y : Int) : Option Int := do
  let guess ← firstGuess dv x y
  if 0 < dv.len2 then do
    let b0 ← dv.buf.load dv.start2
    let b1 ← dv.buf.load (dv.start2 + 1)
    correctGuess b0 b1 x y guess
  else some guess

/-- One step of D4: the product of `guess` and `y` is split into two words. -/
def divCell (guess z y carry : Int) : Int × Int :=
  let p := guess * y
  let hi := p / digBase
  let lo := p - hi * digBase
  let r := sub2Cell z lo carry
  (r.1, r.2 + hi)

/-- D4: multiply and subtract. -/
def mulSub (dv : Divisor) (guess start1 : Int) (tmp : Words) : Option (Words × Int) :=
  ripple (divCell guess) (fun tmp i => tmp.load i)
    (fun i => do
      let y ← dv.buf.load i
      let _ ← dec2 (guess * y)
      some y)
    (dv.len2 + 1) (start1 + dv.len2 + 1) (dv.start2 + dv.len2 + 1) (start1 + dv.len2 + 1) 0 tmp

/-- D6: correct the guess. -/
def addBack (dv : Divisor) (start1 : Int) (tmp : Words) : Option (Words × Int) :=
  ripple addCell (fun tmp i => tmp.load i) dv.buf.load
    (dv.len2 + 1) (start1 + dv.len2 + 1) (dv.start2 + dv.len2 + 1) (start1 + dv.len2 + 1) 0 tmp

/-- One quotient word, and the dividend with its multiple of the divisor taken off. -/
def divStep (dv : Divisor) (start1 dcarry : Int) (tmp : Words) : Option (Int × Words) := do
  let t0 ← tmp.load start1
  let b0 ← dv.buf.load dv.start2
  if dcarry = 0 ∧ t0 < b0 then some (0, tmp)
  else do
    let d ← dec2 (dcarry * digBase)
    let x ← dec2 (t0 + d)
    let y ← tmp.load (start1 + 1)
    let guess ← makeGuess dv x y
    let (tmp, carry) ← mulSub dv guess start1 tmp
    -- D5: check the remainder
    if dcarry < carry then do
      let (tmp, _) ← addBack dv start1 tmp
      some (guess - 1, tmp)
    else some (guess, tmp)

def divLoop (dv : Divisor) : Nat -> Int -> Int -> Int -> Words -> Words -> Option Words
  | 0, _, _, _, _, out => some out
  | n + 1, buf0, start1, dcarry, tmp, out => do
    let (guess, tmp) ← divStep dv start1 dcarry tmp
    let out ← out.store buf0 guess
    let dcarry ← tmp.load start1
    divLoop dv n (buf0 + 1) (start1 + 1) dcarry tmp out

/-- `tmp1`: `n` words of the dividend and zeroes after them. -/
def tmpWords (b : Words) (start : Int) (n len : Nat) : Option Words :=
  if 0 ≤ start ∧ start + n ≤ b.size ∧ n ≤ len then
    some ⟨len, fun i => if 0 ≤ i ∧ i < n then b.word (start + i) else 0⟩
  else none

/-- The words of a quotient: before the point, zero words after it, words of the
fraction, and the words of `tmp1`. -/
structure DivLayout where
  intg0 : Nat
  zeroes : Nat
  frac0 : Nat
  len1 : Nat

def divLayout (from1 from2 : DecimalT) (prec1 prec2 : Nat) (a0 b0 : Int) (scaleIncr : Nat) :
    DivLayout :=
  let frac1 := from1.fracWords * digPerDec1
  let frac2 := from2.fracWords * digPerDec1
  -- let's fix scale_incr, taking into account frac1,frac2 increase
  let scaleIncr := scaleIncr - (frac1 - from1.frac + (frac2 - from2.frac))
  let dintg : Int := (prec1 - frac1) - (prec2 - frac2) + if a0 ≥ b0 then 1 else 0
  { intg0 := if dintg < 0 then 0 else roundUp dintg.toNat
    zeroes := if dintg < 0 then (-dintg.tdiv digPerDec1).toNat else 0
    frac0 := roundUp (frac1 + frac2 + scaleIncr)
    len1 := max (roundUp prec1 + roundUp (2 * frac2 + scaleIncr + 1) + 1) 3 }

/-- `decimal_div` for operands of which `prec1` and `prec2` digits are left, from
the words `buf1` and `buf2` on. -/
def divDigits (from1 from2 dst : DecimalT) (prec1 : Nat) (buf1 : Int) (prec2 : Nat) (buf2 : Int)
    (scaleIncr : Nat) : Option (DecErr × DecimalT) := do
  let a0 ← from1.buf.load buf1
  let b0 ← from2.buf.load buf2
  let l := divLayout from1 from2 prec1 prec2 a0 b0 scaleIncr
  let fit := fixIntgFracError dst.len l.intg0 l.frac0
  let buf0 := min l.zeroes dst.len
  let out ← fillUp 0 buf0 0 dst.buf
  let tmp1 ← tmpWords from1.buf buf1 (roundUp prec1) l.len1
  let dv ← makeDivisor from2.buf buf2 (roundUp prec2)
  let t0 ← tmp1.load 0
  let start1 : Int := if t0 < b0 then 1 else 0
  let dcarry := if t0 < b0 then t0 else 0
  let out ← divLoop dv (fit.intg + fit.frac - buf0) buf0 start1 dcarry tmp1 out
  some (fit.error, ⟨fit.intg * digPerDec1, fit.frac * digPerDec1, dst.len,
    from1.sign != from2.sign, out⟩)

def decimalDiv (from1 from2 dst : DecimalT) (scaleIncr : Nat) : Option (DecErr × DecimalT) := do
  let (prec2, buf2) ← removeLeadingZeroes from2.buf (from2.intg + from2.fracWords * digPerDec1)
  -- short-circuit everything: from2 == 0
  if prec2 = 0 then some (.divZero, dst)
  else do
    let (prec1, buf1) ← removeLeadingZeroes from1.buf (from1.intg + from1.fracWords * digPerDec1)
    -- short-circuit everything: from1 == 0
    if prec1 = 0 then do
      let z ← dst.makeZero
      some (.ok, z)
    else divDigits from1 from2 dst prec1 buf1 prec2 buf2 scaleIncr

lemma dec2_eq {x : Int} (h0 : -9223372036854775808 ≤ x)
    (h1 : x < 9223372036854775808) :
    dec2 x = some x :=
  if_pos ⟨h0, h1⟩

structure Divisor.Normal (dv : Divisor) : Prop where
  start_nonneg : 0 ≤ dv.start2
  alloc : dv.start2 + dv.len2 + 1 ≤ dv.buf.size
  digits : Digits digBase dv.buf.word dv.start2 (dv.len2 + 1)
  leading : dv.buf.word dv.start2 ≠ 0
  factor_eq : dv.normFactor = factor digBase (dv.buf.word dv.start2)
  norm_eq : dv.norm2 = QuotientGuess.norm digBase (dv.buf.word dv.start2)
    (if 0 < dv.len2 then dv.buf.word (dv.start2 + 1) else 0)

def Divisor.units (dv : Divisor) : Int := val digBase dv.buf.word dv.start2 (dv.len2 + 1)

lemma guessTooBig_spec {b0 b1 x y guess : Int} (hb0 : 0 ≤ b0) (hb0' : b0 < digBase) (hb1 : 0 ≤ b1)
    (hb1' : b1 < digBase) (hg0 : 0 ≤ guess) (hg : guess < digBase) (hy0 : 0 ≤ y) (hy : y < digBase)
    (hlow : -(3 * digBase) ≤ x - guess * b0) (hhigh : x - guess * b0 ≤ 3 * digBase) :
    guessTooBig b0 b1 x y guess =
      some (decide (x * digBase + y < guess * (b0 * digBase + b1))) := by
  have h1 := mul_le_mul hb1'.le hg.le hg0 digBase_pos.le
  have h1' := mul_nonneg hb1 hg0
  have h2 := mul_le_mul hg.le hb0'.le hb0 digBase_pos.le
  have h2' := mul_nonneg hg0 hb0
  have e : guess * (b0 * digBase + b1) = guess * b0 * digBase + b1 * guess := by ring
  rw [guessTooBig]
  generalize b1 * guess = l at *
  generalize guess * b0 = p at *
  simp only [digBase] at *
  rw [dec2_eq (x := l) (by omega) (by omega), dec2_eq (x := p) (by omega) (by omega)]
  simp only [dec2_eq (x := x - p) (by omega) (by omega),
    dec2_eq (x := (x - p) * 1000000000) (by omega) (by omega),
    dec2_eq (x := (x - p) * 1000000000 + y) (by omega) (by omega), some_bind, some.injEq]
  exact decide_eq_decide.mpr (by constructor <;> intro h <;> omega)

/-- The two corrections leave a guess that is right for the leading words. -/
lemma lower_twice {V2 X2 g q : Int} (hV : 0 < V2) (hq : q * V2 ≤ X2) (hqg : q ≤ g)
    (h : g * V2 < X2 + 2 * V2) :
    q ≤ lower V2 X2 (lower V2 X2 g) ∧ lower V2 X2 (lower V2 X2 g) * V2 ≤ X2 := by
  refine ⟨le_lower hV hq (le_lower hV hq hqg), ?_⟩
  have h1 : lower V2 X2 g * V2 < X2 + (0 + 1) * V2 := by
    rcases @lower_mul_lt V2 X2 g 1 (by linarith) with h | h <;> linarith
  rcases lower_mul_lt h1 with h | h <;> linarith

lemma correctGuess_spec {b0 b1 x y g q : Int} (hb0 : 1 ≤ b0) (hb0' : b0 < digBase) (hb1 : 0 ≤ b1)
    (hb1' : b1 < digBase) (hy0 : 0 ≤ y) (hy : y < digBase) (hq0 : 0 ≤ q) (hqg : q ≤ g)
    (hg : g < digBase) (hq : q * (b0 * digBase + b1) ≤ x * digBase + y)
    (hupper : x < (q + 1) * (b0 + 1))
    (h : g * (b0 * digBase + b1) < x * digBase + y + 2 * (b0 * digBase + b1)) :
    ∃ g', correctGuess b0 b1 x y g = some g' ∧ q ≤ g' ∧ g' ≤ g ∧
      g' * (b0 * digBase + b1) ≤ x * digBase + y := by
  obtain ⟨V2, hV2⟩ : ∃ V2, V2 = b0 * digBase + b1 := ⟨_, rfl⟩
  obtain ⟨X2, hX2⟩ : ∃ X2, X2 = x * digBase + y := ⟨_, rfl⟩
  rw [← hV2, ← hX2] at hq h ⊢
  have hVpos : 0 < V2 := by
    have := mul_le_mul_of_nonneg_right hb0 digBase_pos.le
    omega
  obtain ⟨hlow, hright⟩ := lower_twice hVpos hq hqg h
  have hbig : ∀ k, q ≤ k -> k ≤ g ->
      guessTooBig b0 b1 x y k = some (decide (X2 < k * V2)) := by
    intro k hqk hkg
    have hmono : q * b0 ≤ k * b0 := mul_le_mul_of_nonneg_right hqk (by omega)
    have hmono' : k * b0 ≤ g * b0 := mul_le_mul_of_nonneg_right hkg (by omega)
    have hprod : 0 ≤ g * b1 := mul_nonneg (by omega) hb1
    rw [hV2, hX2]
    refine guessTooBig_spec (by omega) hb0' hb1 hb1' (by omega) (by omega) hy0 hy ?_ ?_
    · have hsum : (g * b0 - x) * digBase < (2 * b0 + 3) * digBase := by
        rw [hV2] at h
        linarith
      unfold digBase at *
      omega
    · have : (q + 1) * (b0 + 1) = q * b0 + q + b0 + 1 := by ring
      omega
  have hdec : ∀ k, (if decide (X2 < k * V2) = true then k - 1 else k) = lower V2 X2 k := by
    simp [lower]
  refine ⟨lower V2 X2 (lower V2 X2 g), ?_, hlow, lower_le.trans lower_le, hright⟩
  simp only [correctGuess, hbig g hqg le_rfl, hdec, some_bind,
    hbig _ (le_lower hVpos hq hqg) lower_le, hbig _ hlow (lower_le.trans lower_le)]
  simp [hright]

variable {dv : Divisor}

lemma firstGuess_spec (hn : dv.Normal) {x y : Int} (hx : 0 ≤ x)
    (hxb : x < (dv.buf.word dv.start2 + 1) * digBase) (hy0 : 0 ≤ y) (hy : y < digBase) :
    firstGuess dv x y = some (min (scaled digBase (dv.buf.word dv.start2) x y / dv.norm2)
      (digBase - 1)) := by
  have hb := hn.digits dv.start2 le_rfl (by omega)
  have hlead := hn.leading
  obtain ⟨b0, hb0⟩ : ∃ b0, b0 = dv.buf.word dv.start2 := ⟨_, rfl⟩
  rw [← hb0] at hb hlead hxb ⊢
  have hf : 1 ≤ factor digBase b0 := factor_pos (by omega) hb.2
  have hfm : factor digBase b0 * (b0 + 1) ≤ digBase := factor_mul_le (by omega)
  have hnx : factor digBase b0 * x ≤ digBase * digBase := by
    have h1 := mul_le_mul_of_nonneg_left hxb.le (show 0 ≤ factor digBase b0 by omega)
    have h2 := mul_le_mul_of_nonneg_right hfm digBase_pos.le
    linarith
  have hfle : factor digBase b0 ≤ digBase := by
    have := mul_le_mul_of_nonneg_left (show 1 ≤ b0 + 1 by omega) (show 0 ≤ factor digBase b0 by omega)
    linarith
  have hny := mul_le_mul hfle hy.le hy0 digBase_pos.le
  have hnx0 : 0 ≤ factor digBase b0 * x := mul_nonneg (by omega) hx
  have hny0 : 0 ≤ factor digBase b0 * y := mul_nonneg (by omega) hy0
  simp only [firstGuess, hn.factor_eq, ← hb0, scaled]
  generalize factor digBase b0 * x = nx at *
  generalize factor digBase b0 * y = ny at *
  unfold digBase at *
  rw [dec2_eq (x := nx) (by omega) (by omega)]
  simp only [dec2_eq (x := ny) (by omega) (by omega), some_bind,
    dec2_eq (x := nx + ny / 1000000000) (by omega) (by omega)]
  congr 1
  split <;> omega

lemma makeGuess_one (hn : dv.Normal) (hlen : dv.len2 = 0) {x y q : Int}
    (hx : 0 ≤ x) (hy0 : 0 ≤ y) (hy : y < digBase) (hq : q < digBase)
    (hle : q * dv.units ≤ x) (hlt : x < (q + 1) * dv.units) : makeGuess dv x y = some q := by
  have hb := hn.digits dv.start2 le_rfl (by omega)
  have hlead := hn.leading
  have hunits : dv.units = dv.buf.word dv.start2 := by rw [Divisor.units, hlen, val_one]
  have hnorm := hn.norm_eq
  obtain ⟨b0, hb0⟩ : ∃ b0, b0 = dv.buf.word dv.start2 := ⟨_, rfl⟩
  simp only [hlen, lt_irrefl, if_false, QuotientGuess.norm, mul_zero, Int.zero_ediv, add_zero] at hnorm
  rw [hunits] at hle hlt
  rw [← hb0] at hb hlead hle hlt hnorm
  have hf : 1 ≤ factor digBase b0 := factor_pos (by omega) hb.2
  have hxb : x < (b0 + 1) * digBase := by
    have h1 := mul_le_mul_of_nonneg_right (show q + 1 ≤ digBase by omega) hb.1
    linarith
  have hrest0 : 0 ≤ factor digBase b0 * y / digBase :=
    Int.ediv_nonneg (mul_nonneg (by omega) hy0) digBase_pos.le
  have hrest : factor digBase b0 * y / digBase < factor digBase b0 :=
    Int.ediv_lt_of_lt_mul digBase_pos (mul_lt_mul_of_pos_left hy (by omega))
  have hdiv : scaled digBase b0 x y / dv.norm2 = q := by
    have h1 := mul_le_mul_of_nonneg_left hle (show 0 ≤ factor digBase b0 by omega)
    have h2 := mul_le_mul_of_nonneg_left (show x + 1 ≤ (q + 1) * b0 by omega)
      (show 0 ≤ factor digBase b0 by omega)
    rw [hnorm, scaled]
    refine ediv_eq_of_bounds (mul_pos (by omega) (by omega)) ?_ ?_ <;> linarith
  rw [makeGuess, firstGuess_spec hn hx (by rw [← hb0]; exact hxb) hy0 hy, ← hb0]
  simp only [hlen, lt_irrefl, if_false, some_bind]
  congr 1
  omega

lemma makeGuess_many (hn : dv.Normal) {n : Nat} (hlen : dv.len2 = n + 1)
    {x y low q : Int} (hx : 0 ≤ x) (hy0 : 0 ≤ y) (hy : y < digBase) (hlow0 : 0 ≤ low)
    (hlow : low < digBase ^ n) (hq0 : 0 ≤ q) (hq : q < digBase)
    (hle : q * dv.units ≤ (x * digBase + y) * digBase ^ n + low)
    (hlt : (x * digBase + y) * digBase ^ n + low < (q + 1) * dv.units) :
    ∃ g, makeGuess dv x y = some g ∧ (g = q ∨ g = q + 1) ∧ g < digBase := by
  have hb := hn.digits dv.start2 le_rfl (by omega)
  have hb' := hn.digits (dv.start2 + 1) (by omega) (by omega)
  have hlead := hn.leading
  have hnorm := hn.norm_eq
  have htail := hn.digits.mono (t := dv.start2 + 1 + 1) (m := n) (by omega) (by omega)
  have hstart := hn.start_nonneg
  have halloc := hn.alloc
  have hpow := pow_pos digBase_pos n
  obtain ⟨b0, hb0⟩ : ∃ b0, b0 = dv.buf.word dv.start2 := ⟨_, rfl⟩
  obtain ⟨b1, hb1⟩ : ∃ b1, b1 = dv.buf.word (dv.start2 + 1) := ⟨_, rfl⟩
  obtain ⟨lowV, hlowV⟩ : ∃ v, v = val digBase dv.buf.word (dv.start2 + 1 + 1) n := ⟨_, rfl⟩
  have hV0 : 0 ≤ lowV := hlowV ▸ val_nonneg digBase_pos.le htail
  have hV1 : lowV < digBase ^ n := hlowV ▸ val_lt digBase_pos.le htail
  have hunits : dv.units = (b0 * digBase + b1) * digBase ^ n + lowV := by
    rw [Divisor.units, hlen, val_cons, val_cons, ← hb0, ← hb1, ← hlowV]
    ring
  rw [if_pos (by omega), ← hb0, ← hb1] at hnorm
  rw [← hb0] at hb hlead
  rw [← hb1] at hb'
  rw [hunits] at hle hlt
  have hq2 := leading_le hpow hV0 hlow hq0 hle
  have hupper : x < (q + 1) * (b0 + 1) := by
    have h1 : (x * digBase + y) * digBase ^ n < (q + 1) * (b0 * digBase + b1 + 1) * digBase ^ n := by
      have := mul_lt_mul_of_pos_left hV1 (show 0 < q + 1 by omega)
      linarith
    have h2 := lt_of_mul_lt_mul_right h1 hpow.le
    have h3 := mul_le_mul_of_nonneg_left (show b1 + 1 ≤ digBase by omega) (show 0 ≤ q + 1 by omega)
    exact lt_of_mul_lt_mul_right (show x * digBase < (q + 1) * (b0 + 1) * digBase by linarith)
      digBase_pos.le
  have hxb : x < (b0 + 1) * digBase := by
    have := mul_le_mul_of_nonneg_right (show q + 1 ≤ digBase by omega) (show 0 ≤ b0 + 1 by omega)
    linarith
  obtain ⟨g, hg⟩ : ∃ g, g = min (scaled digBase b0 x y / dv.norm2) (digBase - 1) := ⟨_, rfl⟩
  have hfirst : firstGuess dv x y = some g := by
    rw [hg, hb0]
    exact firstGuess_spec hn hx (by rw [← hb0]; exact hxb) hy0 hy
  have hqg : q ≤ g := by
    have := le_guess (by omega) hb.2 hb'.1 hq0 hq2
    rw [← hnorm] at this
    omega
  have hgnorm : g * QuotientGuess.norm digBase b0 b1 ≤ scaled digBase b0 x y := by
    have hpos := norm_pos (by omega) hb.2 hb'.1
    refine (Int.le_ediv_iff_mul_le hpos).mp ?_
    rw [← hnorm]
    omega
  obtain ⟨g', hcorrect, hlower, hle', hright⟩ := correctGuess_spec (by omega) hb.2 hb'.1 hb'.2 hy0 hy
    hq0 hqg (by omega) hq2 hupper
    (guess_lt (by omega) hb.2 hb'.1 (by omega) (by omega) hgnorm)
  have hone := leading_lt hpow hV0 hV1 hlow0 (by omega) (show g' < digBase by omega)
    (by have := mul_le_mul_of_nonneg_right (show 1 ≤ b0 by omega) digBase_pos.le; omega) hright
  have hlast : g' - 1 < q + 1 := by
    refine lt_of_mul_lt_mul_right (hone.trans hlt) (add_nonneg (mul_nonneg ?_ hpow.le) hV0)
    exact add_nonneg (mul_nonneg hb.1 digBase_pos.le) hb'.1
  refine ⟨g', ?_, by omega, by omega⟩
  rw [makeGuess, hfirst, some_bind, if_pos (by omega),
    dv.buf.load_eq hstart (by omega), dv.buf.load_eq (by omega) (by omega)]
  rw [hb0, hb1] at hcorrect
  exact hcorrect

lemma sub2Cell_spec : Cell digBase (-1) 1 digBase sub2Cell := by
  intro x y c hx0 hx hy0 hy hc0 hc
  by_cases h : x - y - c < 0
  · by_cases h' : x - y - c + digBase < 0
    · simp only [sub2Cell, if_pos h, if_pos h']
      omega
    · simp only [sub2Cell, if_pos h, if_neg h']
      omega
  · simp only [sub2Cell, if_neg h]
    omega

lemma divCell_spec {g : Int} (h0 : 0 ≤ g) (h1 : g < digBase) :
    Cell digBase (-1) g digBase (divCell g) :=
  sub2Cell_spec.product (.inr rfl) digBase_pos h0 h1

section Step
variable {dv : Divisor} {start1 : Int} {tmp : Words}

section
variable (hn : dv.Normal) (hs : 0 ≤ start1) (hsize : start1 + dv.len2 + 1 ≤ tmp.size)
  (hd : Digits digBase tmp.word start1 (dv.len2 + 1))
include hn hs hsize hd

lemma ripple_window {σ m bound : Int} {f : Int -> Int -> Int -> Int × Int}
    (cell : Cell digBase σ m bound f) (ry : Int -> Option Int)
    (hry : ∀ i, dv.start2 ≤ i -> i < dv.start2 + dv.len2 + 1 -> ry i = some (dv.buf.word i))
    (hbound : 0 < bound) :
    ∃ tmp' c, ripple f (fun tmp i => tmp.load i) ry (dv.len2 + 1) (start1 + dv.len2 + 1)
        (dv.start2 + dv.len2 + 1) (start1 + dv.len2 + 1) 0 tmp = some (tmp', c) ∧
      Rippled digBase σ bound (dv.len2 + 1) (start1 + dv.len2 + 1) tmp tmp' c
        (val digBase tmp.word start1 (dv.len2 + 1) + σ * (m * dv.units)) := by
  have e1 : start1 + dv.len2 + 1 - ((dv.len2 + 1 : Nat) : Int) = start1 := by push_cast; ring
  have e2 : dv.start2 + dv.len2 + 1 - ((dv.len2 + 1 : Nat) : Int) = dv.start2 := by push_cast; ring
  have hres := ripple_spec cell (fun tmp i => tmp.load i) ry tmp.word dv.buf.word (dv.len2 + 1)
    (start1 + dv.len2 + 1) (dv.start2 + dv.len2 + 1) (start1 + dv.len2 + 1) 0 tmp
    (fun t i h0 h1 hsz hsame => by
      rw [t.load_eq (by omega) (by omega), hsame i (by omega)])
    (fun i h0 h1 => hry i (by omega) h1)
    (by rw [e1]; exact hd) (by rw [e2]; exact hn.digits) (by omega) (by omega) le_rfl hbound
  rw [e1, e2, add_zero] at hres
  exact hres

lemma mulSub_spec {g : Int} (hg0 : 0 ≤ g) (hg : g < digBase) :
    ∃ tmp' c, mulSub dv g start1 tmp = some (tmp', c) ∧
      Rippled digBase (-1) digBase (dv.len2 + 1) (start1 + dv.len2 + 1) tmp tmp' c
        (val digBase tmp.word start1 (dv.len2 + 1) + -1 * (g * dv.units)) := by
  have hstart := hn.start_nonneg
  have halloc := hn.alloc
  refine ripple_window hn hs hsize hd (divCell_spec hg0 hg) _ (fun i h0 h1 => ?_) digBase_pos
  have hy := hn.digits i h0 (by omega)
  have hp0 := mul_nonneg hg0 hy.1
  have hp := mul_le_mul hg.le hy.2.le hy.1 digBase_pos.le
  have hfit : dec2 (g * dv.buf.word i) = some (g * dv.buf.word i) := by
    unfold digBase at hp
    exact dec2_eq (by omega) (by omega)
  simp [dv.buf.load_eq (i := i) (by omega) (by omega), hfit]

lemma addBack_spec :
    ∃ tmp' c, addBack dv start1 tmp = some (tmp', c) ∧
      Rippled digBase 1 2 (dv.len2 + 1) (start1 + dv.len2 + 1) tmp tmp' c
        (val digBase tmp.word start1 (dv.len2 + 1) + 1 * (1 * dv.units)) := by
  have hstart := hn.start_nonneg
  have halloc := hn.alloc
  exact ripple_window hn hs hsize hd addCell_spec dv.buf.load
    (fun i h0 h1 => dv.buf.load_eq (by omega) (by omega)) (by decide)

end

/-- The state after one quotient word: the window holds the new remainder. -/
structure Reduced (dv : Divisor) (start1 : Int) (tmp tmp' : Words) (rest : Int) : Prop where
  size : tmp'.size = tmp.size
  frame : ∀ j, j < start1 ∨ start1 + dv.len2 < j -> tmp'.word j = tmp.word j
  digits : Digits digBase tmp'.word start1 (dv.len2 + 1)
  rest_eq : val digBase tmp'.word start1 (dv.len2 + 1) = rest

lemma multiple_eq_zero {w p k r : Int} (hw0 : 0 ≤ w) (hw : w < p) (hr0 : 0 ≤ r) (hr : r < p)
    (h : w + p * k = r) : k = 0 := by
  rcases lt_trichotomy k 0 with hk | hk | hk
  · have := mul_le_mul_of_nonneg_left (show k ≤ -1 by omega) (show 0 ≤ p by omega)
    omega
  · exact hk
  · have := mul_le_mul_of_nonneg_left (show 1 ≤ k by omega) (show 0 ≤ p by omega)
    omega

section
variable (hn : dv.Normal) {X dcarry : Int}
include hn

/-- D4 to D6 for a guess that is right or one too large. -/
lemma reduce_spec {g X dcarry : Int} (hd : Digits digBase tmp.word start1 (dv.len2 + 1))
    (hs : 0 ≤ start1) (hsize : start1 + dv.len2 + 1 ≤ tmp.size)
    (hX : X = dcarry * digBase ^ (dv.len2 + 1) + val digBase tmp.word start1 (dv.len2 + 1))
    (hpos : 0 < dv.units) (hg0 : 0 ≤ g) (hg : g < digBase)
    (hguess : g = X / dv.units ∨ g = X / dv.units + 1) :
    ∃ tmp1 c, mulSub dv g start1 tmp = some (tmp1, c) ∧
      ((¬ dcarry < c ∧ g = X / dv.units ∧ Reduced dv start1 tmp tmp1 (X % dv.units)) ∨
        (dcarry < c ∧ g = X / dv.units + 1 ∧ ∃ tmp2 c2, addBack dv start1 tmp1 = some (tmp2, c2) ∧
          Reduced dv start1 tmp tmp2 (X % dv.units))) := by
  obtain ⟨tmp1, c, hrun, hres⟩ := mulSub_spec hn hs hsize hd hg0 hg
  have e1 : start1 + dv.len2 + 1 - ((dv.len2 + 1 : Nat) : Int) = start1 := by push_cast; ring
  have hframe1 : ∀ j, j < start1 ∨ start1 + dv.len2 < j -> tmp1.word j = tmp.word j :=
    fun j hj => hres.frame j (by omega)
  have hd1 := hres.digits
  have htotal := hres.total_eq
  rw [e1] at hd1 htotal
  have hw0 := val_nonneg digBase_pos.le hd1
  have hw1 := val_lt digBase_pos.le hd1
  have hV : dv.units < digBase ^ (dv.len2 + 1) := val_lt digBase_pos.le hn.digits
  have hmod := Int.emod_add_mul_ediv X dv.units
  have hm0 := Int.emod_nonneg X hpos.ne'
  have hm1 := Int.emod_lt_of_pos X hpos
  refine ⟨tmp1, c, hrun, ?_⟩
  rcases hguess with h | h
  · have hk : dcarry - c = 0 := multiple_eq_zero hw0 hw1 hm0 (hm1.trans hV) (by
      rw [h] at htotal
      linarith)
    refine Or.inl ⟨by omega, h, hres.size, hframe1, hd1, ?_⟩
    rw [h, show c = dcarry by omega] at htotal
    linarith
  · have hk : dcarry - c + 1 = 0 := multiple_eq_zero hw0 hw1
      (r := X % dv.units - dv.units + digBase ^ (dv.len2 + 1)) (by omega) (by omega) (by
        rw [h] at htotal
        linarith)
    obtain ⟨tmp2, c2, hrun2, hres2⟩ := addBack_spec hn hs (by rw [hres.size]; exact hsize) hd1
    have hd2 := hres2.digits
    have htotal2 := hres2.total_eq
    rw [e1] at hd2 htotal2
    have hk2 : c2 - 1 = 0 := multiple_eq_zero (val_nonneg digBase_pos.le hd2)
      (val_lt digBase_pos.le hd2) hm0 (hm1.trans hV) (by
        rw [h, show c = dcarry + 1 by omega] at htotal
        linarith)
    refine Or.inr ⟨by omega, h, tmp2, c2, hrun2, hres2.size.trans hres.size, fun j hj => ?_, hd2, ?_⟩
    · rw [hres2.frame j (by omega), hframe1 j hj]
    · rw [h, show c = dcarry + 1 by omega] at htotal
      rw [show c2 = 1 by omega] at htotal2
      linarith

lemma units_pos : 0 < dv.units :=
  val_pos digBase_pos hn.digits le_rfl (by omega) hn.leading

lemma units_lt : dv.units < (dv.buf.word dv.start2 + 1) * digBase ^ dv.len2 := by
  have htail := val_lt digBase_pos.le
    (hn.digits.mono (t := dv.start2 + 1) (m := dv.len2) (by omega) (by omega))
  rw [Divisor.units, val_cons]
  linarith

section
variable (hd : Digits digBase tmp.word start1 (max dv.len2 1 + 1)) (hc : 0 ≤ dcarry)
  (hX : X = dcarry * digBase ^ (dv.len2 + 1) + val digBase tmp.word start1 (dv.len2 + 1))
  (hlt : X < digBase * dv.units)
include hd hc hX hlt

lemma makeGuess_window :
    ∃ g, makeGuess dv (tmp.word start1 + dcarry * digBase) (tmp.word (start1 + 1)) = some g ∧
      (g = X / dv.units ∨ g = X / dv.units + 1) ∧ 0 ≤ g ∧ g < digBase := by
  have hpos := units_pos hn
  have hx := hd start1 le_rfl (by omega)
  have hy := hd (start1 + 1) (by omega) (by omega)
  have hx0 : 0 ≤ tmp.word start1 + dcarry * digBase :=
    add_nonneg hx.1 (mul_nonneg hc digBase_pos.le)
  have hX0 : 0 ≤ X := by
    rw [hX]
    exact add_nonneg (mul_nonneg hc (pow_nonneg digBase_pos.le _))
      (val_nonneg digBase_pos.le (hd.mono le_rfl (by omega)))
  have hq0 := Int.ediv_nonneg hX0 hpos.le
  have hq := Int.ediv_lt_of_lt_mul hpos hlt
  have hle := Int.ediv_mul_le X hpos.ne'
  have hgt := Int.lt_ediv_add_one_mul_self X hpos
  cases hlen : dv.len2 with
  | zero =>
    have hXx : X = tmp.word start1 + dcarry * digBase := by
      rw [hX, hlen, val_one]
      ring
    rw [← hXx]
    exact ⟨_, makeGuess_one hn hlen hX0 hy.1 hy.2 hq hle hgt, Or.inl rfl, hq0, hq⟩
  | succ n =>
    have htail := hd.mono (t := start1 + 1 + 1) (m := n) (by omega) (by omega)
    have hXx : X = ((tmp.word start1 + dcarry * digBase) * digBase + tmp.word (start1 + 1)) *
        digBase ^ n + val digBase tmp.word (start1 + 1 + 1) n := by
      rw [hX, hlen, val_cons, val_cons]
      ring
    obtain ⟨g, hrun, hg, hgβ⟩ := makeGuess_many hn hlen hx0 hy.1 hy.2
      (val_nonneg digBase_pos.le htail) (val_lt digBase_pos.le htail) hq0 hq
      (by rw [← hXx]; exact hle) (by rw [← hXx]; exact hgt)
    exact ⟨g, hrun, hg, by omega, hgβ⟩

/-- One turn of the main loop divides the window, carry included, by the divisor. -/
lemma divStep_spec (hs : 0 ≤ start1) (hsize : start1 + max dv.len2 1 + 1 ≤ tmp.size) :
    ∃ tmp', divStep dv start1 dcarry tmp = some (X / dv.units, tmp') ∧
      Reduced dv start1 tmp tmp' (X % dv.units) := by
  have hpos := units_pos hn
  have hstart := hn.start_nonneg
  have halloc := hn.alloc
  have hx := hd start1 le_rfl (by omega)
  have hd' : Digits digBase tmp.word start1 (dv.len2 + 1) := hd.mono le_rfl (by omega)
  simp only [divStep, tmp.load_eq hs (by omega), dv.buf.load_eq hstart (by omega),
    bind_eq_bind, bind_some]
  by_cases hshort : dcarry = 0 ∧ tmp.word start1 < dv.buf.word dv.start2
  · have hsmall : val digBase tmp.word start1 (dv.len2 + 1) < dv.units :=
      val_lt_of_lt digBase_pos hd' hn.digits 0 (by omega) (by omega)
        (by simpa using hshort.2)
    have hX' : X = val digBase tmp.word start1 (dv.len2 + 1) := by rw [hX, hshort.1]; ring
    have hX0 : 0 ≤ X := hX' ▸ val_nonneg digBase_pos.le hd'
    rw [if_pos hshort, Int.ediv_eq_zero_of_lt hX0 (hX' ▸ hsmall),
      Int.emod_eq_of_lt hX0 (hX' ▸ hsmall)]
    exact ⟨tmp, rfl, rfl, fun _ _ => rfl, hd', hX'.symm⟩
  · have hb := hn.digits dv.start2 le_rfl (by omega)
    have hcb : dcarry < digBase := by
      have hpow : 0 < digBase ^ (dv.len2 + 1) := pow_pos digBase_pos _
      have hwin := val_nonneg digBase_pos.le hd'
      have hV := mul_lt_mul_of_pos_left (units_lt hn) digBase_pos
      have hmul : dcarry * digBase ^ (dv.len2 + 1) <
          (dv.buf.word dv.start2 + 1) * digBase ^ (dv.len2 + 1) := by
        rw [pow_succ] at *
        linarith
      have := lt_of_mul_lt_mul_right hmul hpow.le
      omega
    obtain ⟨g, hguess, hg, hg0, hgβ⟩ := makeGuess_window hn hd hc hX hlt
    obtain ⟨tmp1, c, hsub, hcase⟩ := reduce_spec hn hd' hs (by omega) hX hpos hg0 hgβ hg
    have hdec1 : dec2 (dcarry * digBase) = some (dcarry * digBase) := by
      unfold digBase at *
      exact dec2_eq (by omega) (by omega)
    have hdec2 : dec2 (tmp.word start1 + dcarry * digBase) =
        some (tmp.word start1 + dcarry * digBase) := by
      unfold digBase at *
      exact dec2_eq (by omega) (by omega)
    simp only [if_neg hshort, hdec1, hdec2, tmp.load_eq (i := start1 + 1) (by omega) (by omega),
      hguess, hsub, bind_some]
    rcases hcase with ⟨hno, hq, hred⟩ | ⟨hyes, hq, tmp2, c2, hadd, hred⟩
    · exact ⟨tmp1, by rw [if_neg hno, hq], hred⟩
    · refine ⟨tmp2, ?_, hred⟩
      rw [if_pos hyes, hadd, hq, bind_some, add_sub_cancel_right]

end

lemma divLoop_spec (n : Nat) (buf0 dcarry : Int) (out : Words)
    (hd : ∀ i, start1 ≤ i -> i < tmp.size -> 0 ≤ tmp.word i ∧ tmp.word i < digBase) (hs : 0 ≤ start1)
    (hsize : 0 < n -> start1 + n + max dv.len2 1 ≤ tmp.size) (hc : 0 ≤ dcarry) (hb0 : 0 ≤ buf0)
    (hb : buf0 + n ≤ out.size) (R : Int)
    (hR : R = dcarry * digBase ^ dv.len2 + val digBase tmp.word start1 dv.len2) (hR0 : 0 ≤ R)
    (hlt : R < dv.units) :
    ∃ out', divLoop dv n buf0 start1 dcarry tmp out = some out' ∧ out'.size = out.size ∧
      (∀ j, j < buf0 ∨ buf0 + n ≤ j -> out'.word j = out.word j) ∧
      Digits digBase out'.word buf0 n ∧
      val digBase out'.word buf0 n =
        (R * digBase ^ n + val digBase tmp.word (start1 + dv.len2) n) / dv.units := by
  have hpos := units_pos hn
  induction n generalizing buf0 start1 dcarry tmp out R with
  | zero =>
    refine ⟨out, rfl, rfl, fun _ _ => rfl, fun i h0 h1 => by omega, ?_⟩
    simp [Int.ediv_eq_zero_of_lt hR0 hlt]
  | succ n ih =>
    have hroom := hsize (Nat.succ_pos n)
    obtain ⟨X, hX⟩ : ∃ X, X = dcarry * digBase ^ (dv.len2 + 1) +
      val digBase tmp.word start1 (dv.len2 + 1) := ⟨_, rfl⟩
    have hnext := hd (start1 + dv.len2) (by omega) (by omega)
    have hXR : X = R * digBase + tmp.word (start1 + dv.len2) := by
      rw [hX, hR, val_succ]
      ring
    have hXlt : X < digBase * dv.units := by
      have := mul_le_mul_of_nonneg_right (show R + 1 ≤ dv.units by omega) digBase_pos.le
      linarith
    have hX0 : 0 ≤ X := hXR ▸ add_nonneg (mul_nonneg hR0 digBase_pos.le) hnext.1
    obtain ⟨tmp', hstep, hred⟩ := divStep_spec hn (fun i h0 h1 => hd i h0 (by omega))
      hc hX hXlt hs (by omega)
    have hq0 := Int.ediv_nonneg hX0 hpos.le
    have hq := Int.ediv_lt_of_lt_mul hpos hXlt
    have hd' : ∀ i, start1 ≤ i -> i < tmp'.size -> 0 ≤ tmp'.word i ∧ tmp'.word i < digBase := by
      intro i h0 h1
      by_cases hi : i ≤ start1 + dv.len2
      · exact hred.digits i h0 (by omega)
      · rw [hred.frame i (by omega)]
        exact hd i h0 (by rw [← hred.size]; exact h1)
    have hrest := hred.rest_eq
    rw [val_cons] at hrest
    obtain ⟨out', hrun, hsz, hframe, hdigits, hval⟩ := @ih (start1 + 1) tmp'
      (buf0 + 1) (tmp'.word start1) (out.put buf0 (X / dv.units))
      (fun i h0 h1 => hd' i (by omega) h1) (by omega) (fun _ => by rw [hred.size]; omega)
      (hd' start1 le_rfl (by rw [hred.size]; omega)).1 (by omega) (by simp; omega) (X % dv.units)
      hrest.symm (Int.emod_nonneg X hpos.ne') (Int.emod_lt_of_pos X hpos)
    have hfirst : out'.word buf0 = X / dv.units := by
      rw [hframe buf0 (by omega), Words.word_put_self]
    refine ⟨out', ?_, hsz, fun j hj => ?_, fun i h0 h1 => ?_, ?_⟩
    · simp only [divLoop, hstep, some_bind,
        out.store_eq (i := buf0) _ hb0 (by omega), tmp'.load_eq hs (by rw [hred.size]; omega)]
      exact hrun
    · rw [hframe j (by omega), Words.word_put_ne (by omega)]
    · by_cases hi : i = buf0
      · rw [hi, hfirst]
        exact ⟨hq0, hq⟩
      · exact hdigits i (by omega) (by omega)
    · have hmod := Int.emod_add_mul_ediv X dv.units
      have hsame : val digBase tmp'.word (start1 + 1 + dv.len2) n =
          val digBase tmp.word (start1 + 1 + dv.len2) n :=
        val_congr (fun i h0 _ => hred.frame i (by omega))
      rw [val_cons, hfirst, hval, hsame, val_cons, show start1 + dv.len2 + 1 = start1 + 1 + dv.len2
        by ring, add_comm (X / dv.units * _), ← Int.add_mul_ediv_left _ _ hpos.ne']
      congr 1
      linear_combination digBase ^ n * hmod + digBase ^ n * hXR

end

end Step

end Decimal
