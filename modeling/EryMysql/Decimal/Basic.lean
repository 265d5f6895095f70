import Mathlib.Tactic.FieldSimp
import EryMysql.Lib.WordArray

/-!
# Exact decimals in base 10^9

`decimal_t` of strings/decimal.c: `intg` decimal digits before the point and
`frac` after it, packed nine to a word, the integer words first. The integer
part is padded on the left of its first word, the fraction on the right of its
last one. Every routine returns `none` when it would leave an array, overflow a
64-bit intermediate or fail one of its own assertions.
-/

namespace Decimal

open WordArray Int Words

def digPerDec1 : Nat := 9

def digBase : Int := 1000000000

def digMax : Int := digBase - 1

def powers10 (i : Nat) : Int := 10 ^ i

/-- The table `dig2bytes`: bytes that hold a group of up to nine digits. -/
def dig2bytes : Nat -> Nat
  | 0 => 0
  | 1 | 2 => 1
  | 3 | 4 => 2
  | 5 | 6 => 3
  | _ => 4

def roundUp (x : Nat) : Nat := (x + if 0 < x then digPerDec1 - 1 else 0) / digPerDec1

/-- The codes `E_DEC_OK` to `E_DEC_OOM`. -/
inductive DecErr where
  | ok | truncated | overflow | divZero | badNum | oom
  deriving DecidableEq, Repr

def applySign (sign : Bool) (q : ℚ) : ℚ := if sign then -q else q

lemma applySign_not (sign : Bool) (q : ℚ) : applySign (!sign) q = -applySign sign q := by
  cases sign <;> simp [applySign]

lemma applySign_neg (sign : Bool) (q : ℚ) : applySign sign (-q) = -applySign sign q := by
  cases sign <;> rfl

lemma applySign_add (sign : Bool) (p q : ℚ) :
    applySign sign (p + q) = applySign sign p + applySign sign q := by
  cases sign
  · rfl
  · exact neg_add p q

lemma applySign_sub (sign : Bool) (p q : ℚ) :
    applySign sign (p - q) = applySign sign p - applySign sign q := by
  rw [sub_eq_add_neg, applySign_add, applySign_neg, ← sub_eq_add_neg]

lemma applySign_mul (s t : Bool) (p q : ℚ) :
    applySign (s != t) (p * q) = applySign s p * applySign t q := by
  cases s <;> cases t <;> simp [applySign]

@[simp] lemma applySign_zero (sign : Bool) : applySign sign 0 = 0 := by
  cases sign <;> simp [applySign]

structure DecimalT where
  intg : Nat
  frac : Nat
  len : Nat
  sign : Bool
  buf : Words

namespace DecimalT

def intgWords (d : DecimalT) : Nat := roundUp d.intg

def fracWords (d : DecimalT) : Nat := roundUp d.frac

def words (d : DecimalT) : Nat := d.intgWords + d.fracWords

/-- The words read as one integer, in units of the last fraction word. -/
def units (d : DecimalT) : Int := val digBase d.buf.word 0 d.words

def mag (d : DecimalT) : ℚ := d.units / (digBase : ℚ) ^ d.fracWords

def value (d : DecimalT) : ℚ := applySign d.sign d.mag

/-- The words a decimal uses lie in its buffer, each holds nine digits, and the
leading word holds no more digits than `intg` leaves for it. -/
structure Legal (d : DecimalT) : Prop where
  pos : 0 < d.len
  room : d.words ≤ d.len
  alloc : d.len ≤ d.buf.size
  digits : Digits digBase d.buf.word 0 d.words
  leading : 0 < d.intg -> d.buf.word 0 < 10 ^ ((d.intg - 1) % digPerDec1 + 1)

/-- The last fraction word has no digits beyond `frac`. -/
structure WellFormed (d : DecimalT) : Prop extends Legal d where
  trailing : d.frac % digPerDec1 ≠ 0 ->
    (10 : Int) ^ (digPerDec1 - d.frac % digPerDec1) ∣ d.buf.word (d.words - 1)

def NegativeZero (d : DecimalT) : Prop := d.sign = true ∧ d.units = 0

instance (d : DecimalT) : Decidable d.Legal :=
  decidable_of_iff (0 < d.len ∧ d.words ≤ d.len ∧ d.len ≤ d.buf.size ∧
      Digits digBase d.buf.word 0 d.words ∧
      (0 < d.intg -> d.buf.word 0 < 10 ^ ((d.intg - 1) % digPerDec1 + 1)))
    ⟨fun ⟨h1, h2, h3, h4, h5⟩ => ⟨h1, h2, h3, h4, h5⟩,
      fun ⟨h1, h2, h3, h4, h5⟩ => ⟨h1, h2, h3, h4, h5⟩⟩

instance (d : DecimalT) : Decidable d.WellFormed :=
  decidable_of_iff (d.Legal ∧ (d.frac % digPerDec1 ≠ 0 ->
      (10 : Int) ^ (digPerDec1 - d.frac % digPerDec1) ∣ d.buf.word (d.words - 1)))
    ⟨fun ⟨h1, h2⟩ => ⟨h1, h2⟩, fun ⟨h1, h2⟩ => ⟨h1, h2⟩⟩

instance (d : DecimalT) : Decidable d.NegativeZero :=
  inferInstanceAs (Decidable (_ ∧ _))

def ofWords (intg frac : Nat) (sign : Bool) (l : List Int) : DecimalT :=
  ⟨intg, frac, l.length, sign, Words.ofList l⟩

def CanonicalZero (d : DecimalT) : Prop :=
  d.intg = 1 ∧ d.frac = 0 ∧ d.sign = false ∧ d.buf.word 0 = 0

def makeZero (dst : DecimalT) : Option DecimalT := do
  let buf ← dst.buf.store 0 0
  some { dst with intg := 1, frac := 0, sign := false, buf }

end DecimalT

open DecimalT

/-- The integer and fraction words a result gets, and the error to report. -/
structure Fit where
  intg : Nat
  frac : Nat
  error : DecErr

/-- The macro `FIX_INTG_FRAC_ERROR`. -/
def fixIntgFracError (len intg1 frac1 : Nat) : Fit :=
  if intg1 + frac1 > len then
    if intg1 > len then ⟨len, 0, .overflow⟩ else ⟨intg1, len - intg1, .truncated⟩
  else ⟨intg1, frac1, .ok⟩

variable {len intg1 frac1 : Nat} {out out' : Words} {total : Int}

lemma fixIntgFracError_ok (h : intg1 + frac1 ≤ len) :
    fixIntgFracError len intg1 frac1 = ⟨intg1, frac1, .ok⟩ := by
  simp [fixIntgFracError, Nat.not_lt.mpr h]

lemma fixIntgFracError_error_eq_ok :
    (fixIntgFracError len intg1 frac1).error = .ok ↔ intg1 + frac1 ≤ len := by
  unfold fixIntgFracError
  split
  · split <;> simp <;> omega
  · simp
    omega

def fillUp (v : Int) : Nat -> Int -> Words -> Option Words
  | 0, _, b => some b
  | n + 1, p, b => do
    let b ← b.store p v
    fillUp v n (p + 1) b

/-- The table `frac_max`, for a last group of `lastdigits` digits. -/
def fracMax (lastdigits : Nat) : Int := digBase - powers10 (digPerDec1 - lastdigits)

def maxDecimal (precision frac : Nat) (dst : DecimalT) : Option DecimalT := do
  let intpart := precision - frac
  let first := intpart % digPerDec1
  let buf ← (if first ≠ 0 then dst.buf.store 0 (powers10 first - 1) else some dst.buf)
  let p : Nat := if first ≠ 0 then 1 else 0
  let buf ← fillUp digMax (intpart / digPerDec1) p buf
  let p := p + intpart / digPerDec1
  let buf ← fillUp digMax (frac / digPerDec1) p buf
  let p := p + frac / digPerDec1
  let last := frac % digPerDec1
  let buf ← (if last ≠ 0 then buf.store p (fracMax last) else some buf)
  some { dst with sign := false, intg := intpart, frac, buf }

/-- The macro `ADD`, for a carry of at most one. -/
def addCell (x y carry : Int) : Int × Int :=
  let a := x + y + carry
  if digBase ≤ a then (a - digBase, 1) else (a, 0)

/-- The macro `SUB`. -/
def subCell (x y carry : Int) : Int × Int :=
  let a := x - y - carry
  if a < 0 then (a + digBase, 1) else (a, 0)

/-- The macro `ADD2`, whose carry in may be a whole word. -/
def add2Cell (x y carry : Int) : Int × Int :=
  let a := x + y + carry
  let c := if digBase ≤ a then 1 else 0
  let a := if digBase ≤ a then a - digBase else a
  if digBase ≤ a then (a - digBase, c + 1) else (a, c)

/-- The macro `SUB2`, whose borrow in may be a whole word. -/
def sub2Cell (x y carry : Int) : Int × Int :=
  let a := x - y - carry
  let c := if a < 0 then 1 else 0
  let a := if a < 0 then a + digBase else a
  if a < 0 then (a + digBase, c + 1) else (a, c)

/-- `*--to = *--from`, with the carry left alone. -/
def copyCell (x _y carry : Int) : Int × Int := (x, carry)

/-- `while (n--) *--r = *--p;` -/
def copyDown (a : Words) (n : Nat) (p r : Int) (out : Words) : Option Words :=
  (ripple copyCell (fun _ i => a.load i) (fun _ => some 0) n p 0 r 0 out).map Prod.fst

/-- `while (n--) *--r = 0;` -/
def zeroDown (n : Nat) (r : Int) (out : Words) : Option Words :=
  (ripple copyCell (fun _ _ => some 0) (fun _ => some 0) n 0 0 r 0 out).map Prod.fst

lemma digBase_pos : 0 < digBase := by decide

lemma addCell_spec : Cell digBase 1 1 2 addCell := by
  intro x y c hx0 hx hy0 hy hc0 hc
  by_cases h : digBase ≤ x + y + c
  · simp only [addCell, if_pos h]
    omega
  · simp only [addCell, if_neg h]
    omega

lemma subCell_spec : Cell digBase (-1) 1 2 subCell := by
  intro x y c hx0 hx hy0 hy hc0 hc
  by_cases h : x - y - c < 0
  · simp only [subCell, if_pos h]
    omega
  · simp only [subCell, if_neg h]
    omega

lemma copyCell_spec : Cell digBase 0 0 1 copyCell := by
  intro x y c hx0 hx hy0 hy hc0 hc
  refine ⟨⟨hx0, hx⟩, ⟨hc0, hc⟩, ?_⟩
  simp [copyCell]

/-- The state that storing a window of known words below `r` leaves. -/
structure Written (n : Nat) (r : Int) (out out' : Words) (total : Int) : Prop where
  size : out'.size = out.size
  frame : ∀ j, j < r - n ∨ r ≤ j -> out'.word j = out.word j
  digits : Digits digBase out'.word (r - n) n
  total_eq : val digBase out'.word (r - n) n = total

lemma Written.rippled {n : Nat} {r : Int}
    (h : Written n r out out' total) (σ : Int) (bound : Int) (hb : 0 < bound) :
    Rippled digBase σ bound n r out out' 0 total :=
  ⟨h.size, h.frame, h.digits, le_rfl, hb, by simpa using h.total_eq⟩

lemma digits_zero (s : Int) (n : Nat) : Digits digBase (fun _ => 0) s n :=
  fun _ _ _ => ⟨le_rfl, digBase_pos⟩

lemma copyDown_spec (a : Words) (n : Nat) (p r : Int) (out : Words) (hp0 : 0 ≤ p - n)
    (hp : p ≤ a.size) (ha : Digits digBase a.word (p - n) n) (hr0 : 0 ≤ r - n) (hr : r ≤ out.size) :
    ∃ out', copyDown a n p r out = some out' ∧
      Written n r out out' (val digBase a.word (p - n) n) := by
  obtain ⟨out', c, hrun, hres⟩ := ripple_spec copyCell_spec (fun _ i => a.load i)
    (fun _ => some 0) a.word (fun _ => 0) n p 0 r 0 out
    (fun b i h0 h1 _ _ => a.load_eq (by omega) (by omega)) (fun _ _ _ => rfl) ha
    (digits_zero _ n) hr0 hr le_rfl (by decide)
  refine ⟨out', by simp [copyDown, hrun], hres.size, hres.frame, hres.digits, ?_⟩
  simpa using hres.total_eq

lemma zeroDown_spec (n : Nat) (r : Int) (out : Words) (hr0 : 0 ≤ r - n) (hr : r ≤ out.size) :
    ∃ out', zeroDown n r out = some out' ∧ Written n r out out' 0 := by
  obtain ⟨out', c, hrun, hres⟩ := ripple_spec copyCell_spec (fun _ _ => some 0)
    (fun _ => some 0) (fun _ => 0) (fun _ => 0) n 0 0 r 0 out
    (fun _ _ _ _ _ _ => rfl) (fun _ _ _ => rfl) (digits_zero _ n) (digits_zero _ n)
    hr0 hr le_rfl (by decide)
  refine ⟨out', by simp [zeroDown, hrun], hres.size, hres.frame, hres.digits, ?_⟩
  simpa [val_eq_zero] using hres.total_eq

lemma fillUp_spec (v : Int) (n : Nat) (p : Int) (b : Words) (h0 : 0 ≤ p) (h1 : p + n ≤ b.size) :
    ∃ b', fillUp v n p b = some b' ∧ b'.size = b.size ∧ (∀ j, p ≤ j -> j < p + n -> b'.word j = v) ∧
      ∀ j, j < p ∨ p + n ≤ j -> b'.word j = b.word j := by
  induction n generalizing p b with
  | zero => exact ⟨b, rfl, rfl, by intro j h0 h1; omega, fun _ _ => rfl⟩
  | succ n ih =>
    obtain ⟨b', hrun, hsize, hset, hframe⟩ := ih (p + 1) (b.put p v) (by omega) (by simp; omega)
    refine ⟨b', ?_, hsize, fun j hj0 hj1 => ?_, fun j hj => ?_⟩
    · simp only [fillUp, b.store_eq (i := p) v h0 (by omega)]
      exact hrun
    · by_cases hj : j = p
      · rw [hj, hframe p (by omega), word_put_self]
      · exact hset j (by omega) (by omega)
    · rw [hframe j (by omega), word_put_ne (by omega)]

/-- A buffer whose first `n` words have been set to the digits of `total`. -/
structure Filled (n : Nat) (out out' : Words) (total : Int) : Prop where
  size : out'.size = out.size
  frame : ∀ j : Int, n ≤ j -> out'.word j = out.word j
  digits : Digits digBase out'.word 0 n
  total_eq : val digBase out'.word 0 n = total

lemma Filled.of_rippled {σ bound : Int} {n : Nat}
    (h : Rippled digBase σ bound n n out out' 0 total) : Filled n out out' total := by
  have hdigits := h.digits
  have htotal := h.total_eq
  rw [sub_self] at hdigits htotal
  exact ⟨h.size, fun j hj => h.frame j (Or.inr hj), hdigits, by simpa using htotal⟩

lemma roundUp_eq (x : Nat) : roundUp x = (x + 8) / 9 := by
  unfold roundUp digPerDec1
  split <;> omega

lemma roundUp_max (x y : Nat) : roundUp (max x y) = max (roundUp x) (roundUp y) := by
  simp only [roundUp_eq]
  omega

lemma roundUp_mul (x : Nat) : roundUp (x * digPerDec1) = x := by
  rw [roundUp_eq, digPerDec1]
  omega

variable {dst : DecimalT} {d : DecimalT}

lemma makeZero_eq (hpos : 0 < dst.buf.size) :
    dst.makeZero = some ⟨1, 0, dst.len, false, dst.buf.put 0 0⟩ := by
  simp [DecimalT.makeZero, dst.buf.store_eq 0 le_rfl (by omega)]

lemma makeZero_wellFormed (hpos : 0 < dst.len) (halloc : dst.len ≤ dst.buf.size) :
    WellFormed ⟨1, 0, dst.len, false, dst.buf.put 0 0⟩ := by
  refine ⟨⟨hpos, ?_, halloc, ?_, by simp⟩, by simp⟩
  · simpa [DecimalT.words, intgWords, fracWords, roundUp_eq] using Nat.succ_le_of_lt hpos
  · intro i h0 h1
    simp only [DecimalT.words, intgWords, fracWords, roundUp_eq] at h1
    rw [show i = 0 by omega, word_put_self]
    decide

lemma DecimalT.CanonicalZero.units_eq (h : d.CanonicalZero) : d.units = 0 := by
  obtain ⟨hi, hf, -, hw⟩ := h
  simp [units, words, intgWords, fracWords, hi, hf, roundUp_eq, hw]

namespace DecimalT

/-- The magnitude counted in units of the `f`-th fraction word. -/
def unitsAt (d : DecimalT) (f : Nat) : Int := d.units * digBase ^ (f - d.fracWords)

variable {f : Nat}

lemma mag_eq_unitsAt (d : DecimalT) (h : d.fracWords ≤ f) :
    d.mag = d.unitsAt f / (digBase : ℚ) ^ f := by
  have hbase : (digBase : ℚ) ≠ 0 := by exact_mod_cast digBase_pos.ne'
  obtain ⟨k, rfl⟩ := Nat.exists_eq_add_of_le h
  simp only [mag, unitsAt, Nat.add_sub_cancel_left, cast_mul, cast_pow, pow_add]
  field_simp

variable {d : DecimalT}

lemma Legal.units_nonneg (h : d.Legal) : 0 ≤ d.units := val_nonneg digBase_pos.le h.digits

lemma Legal.unitsAt_nonneg (h : d.Legal) (f : Nat) : 0 ≤ d.unitsAt f :=
  mul_nonneg h.units_nonneg (pow_nonneg digBase_pos.le _)

lemma Legal.unitsAt_lt (h : d.Legal) (hf : d.fracWords ≤ f) :
    d.unitsAt f < digBase ^ (d.intgWords + f) := by
  have hlt := val_lt digBase_pos.le h.digits
  have hpow : 0 < digBase ^ (f - d.fracWords) := pow_pos digBase_pos _
  calc d.unitsAt f < digBase ^ d.words * digBase ^ (f - d.fracWords) :=
        mul_lt_mul_of_pos_right hlt hpow
    _ = digBase ^ (d.intgWords + f) := by
        rw [← pow_add, words]
        congr 1
        omega

lemma Legal.unitsAt_lt_leading (h : d.Legal) (hf : d.fracWords ≤ f) (hw : 0 < d.words) :
    d.unitsAt f < (d.buf.word 0 + 1) * digBase ^ (d.intgWords + f - 1) := by
  obtain ⟨n, hn⟩ : ∃ n, d.words = n + 1 := ⟨d.words - 1, by omega⟩
  have htail := val_lt digBase_pos.le (h.digits.mono (t := 1) (m := n) (by omega) (by omega))
  have hunits : d.units < (d.buf.word 0 + 1) * digBase ^ n := by
    rw [units, hn, val_cons, zero_add]
    linarith
  calc d.unitsAt f < (d.buf.word 0 + 1) * digBase ^ n * digBase ^ (f - d.fracWords) :=
        mul_lt_mul_of_pos_right hunits (pow_pos digBase_pos _)
    _ = (d.buf.word 0 + 1) * digBase ^ (d.intgWords + f - 1) := by
        rw [mul_assoc, ← pow_add]
        congr 2
        unfold words at hn
        omega

lemma Legal.units_lt (h : d.Legal) : d.units < 10 ^ (d.intg + digPerDec1 * d.fracWords) := by
  have hw : d.intgWords = (d.intg + 8) / 9 := roundUp_eq _
  have hbase : ∀ n : Nat, digBase ^ n = 10 ^ (digPerDec1 * n) := fun n => by
    rw [pow_mul]
    rfl
  by_cases hi : d.intg = 0
  · have hlt := val_lt digBase_pos.le h.digits
    rw [hbase, show d.words = 0 + d.fracWords by unfold words; omega] at hlt
    rw [units, hi, show d.words = 0 + d.fracWords by unfold words; omega]
    simpa using hlt
  · have hlead := h.leading (Nat.pos_of_ne_zero hi)
    have hlt := h.unitsAt_lt_leading le_rfl (by unfold words; omega)
    rw [unitsAt, Nat.sub_self, pow_zero, mul_one] at hlt
    have hexp : d.intg + digPerDec1 * d.fracWords =
        (d.intg - 1) % digPerDec1 + 1 + digPerDec1 * (d.intgWords + d.fracWords - 1) := by
      unfold digPerDec1
      omega
    calc d.units < (d.buf.word 0 + 1) * digBase ^ (d.intgWords + d.fracWords - 1) := hlt
      _ ≤ 10 ^ ((d.intg - 1) % digPerDec1 + 1) * digBase ^ (d.intgWords + d.fracWords - 1) :=
          mul_le_mul_of_nonneg_right hlead (pow_nonneg digBase_pos.le _)
      _ = 10 ^ (d.intg + digPerDec1 * d.fracWords) := by rw [hbase, ← pow_add, hexp]

lemma unitsAt_eq_zero_iff (d : DecimalT) (f : Nat) : d.unitsAt f = 0 ↔ d.units = 0 := by
  simp [unitsAt, digBase]

lemma trailing_iff (d : DecimalT) : (d.frac % digPerDec1 ≠ 0 ->
      (10 : Int) ^ (digPerDec1 - d.frac % digPerDec1) ∣ d.buf.word (d.words - 1)) ↔
      (10 : Int) ^ (digPerDec1 * d.fracWords - d.frac) ∣ d.units := by
  have hw : d.fracWords = (d.frac + 8) / 9 := roundUp_eq _
  unfold digPerDec1
  by_cases h : d.frac % 9 = 0
  · simp [h, show 9 * d.fracWords - d.frac = 0 by omega]
  · obtain ⟨n, hn⟩ : ∃ n, d.words = n + 1 := ⟨d.words - 1, by unfold words; omega⟩
    have hbase : (10 : Int) ^ (9 - d.frac % 9) ∣ val digBase d.buf.word 0 n * digBase :=
      Dvd.dvd.mul_left (pow_dvd_pow 10 (show 9 - d.frac % 9 ≤ 9 by omega)) _
    rw [show 9 * d.fracWords - d.frac = 9 - d.frac % 9 by omega, units, hn, val_succ,
      Int.dvd_add_right hbase]
    simp [h]

lemma WellFormed.dvd_unitsAt (h : d.WellFormed) {f frac : Nat} (hf : d.fracWords ≤ f)
    (hfrac : d.frac ≤ frac) : (10 : Int) ^ (digPerDec1 * f - frac) ∣ d.unitsAt f := by
  have hunits := d.trailing_iff.mp h.trailing
  have hbase : digBase ^ (f - d.fracWords) = 10 ^ (digPerDec1 * (f - d.fracWords)) := by
    rw [pow_mul]
    rfl
  rw [unitsAt, hbase]
  refine (pow_dvd_pow 10 ?_).trans ((pow_add (10 : Int) _ _).dvd.trans (mul_dvd_mul_right hunits _))
  unfold digPerDec1
  omega

lemma unitsAt_eq_zero (hw : d.words = 0) (f : Nat) : d.unitsAt f = 0 := by
  simp [unitsAt, units, hw]

lemma value_eq_zero_iff (d : DecimalT) : d.value = 0 ↔ d.units = 0 := by
  have hbase : (digBase : ℚ) ≠ 0 := by exact_mod_cast digBase_pos.ne'
  cases hs : d.sign <;> simp [value, mag, applySign, hs, hbase]

lemma mag_lt_mag_iff (a b : DecimalT) (hfa : a.fracWords ≤ f) (hfb : b.fracWords ≤ f) :
    a.mag < b.mag ↔ a.unitsAt f < b.unitsAt f := by
  have hpow : (0 : ℚ) < (digBase : ℚ) ^ f := pow_pos (by exact_mod_cast digBase_pos) _
  rw [a.mag_eq_unitsAt hfa, b.mag_eq_unitsAt hfb, div_lt_div_iff_of_pos_right hpow, cast_lt]

lemma compare_mag (a b : DecimalT) (hfa : a.fracWords ≤ f) (hfb : b.fracWords ≤ f) :
    compare a.mag b.mag = compare (a.unitsAt f) (b.unitsAt f) := by
  rcases lt_trichotomy (a.unitsAt f) (b.unitsAt f) with h | h | h
  · rw [compare_lt_iff_lt.mpr h, compare_lt_iff_lt, mag_lt_mag_iff a b hfa hfb]
    exact h
  · rw [compare_eq_iff_eq.mpr h, compare_eq_iff_eq, a.mag_eq_unitsAt hfa, b.mag_eq_unitsAt hfb, h]
  · rw [compare_gt_iff_gt.mpr h, compare_gt_iff_gt, mag_lt_mag_iff b a hfb hfa]
    exact h

lemma Legal.mag_nonneg (h : d.Legal) : 0 ≤ d.mag := div_nonneg (by exact_mod_cast h.units_nonneg)
    (pow_nonneg (by exact_mod_cast digBase_pos.le) _)

lemma Legal.mag_pos (h : d.Legal) (hn : d.units ≠ 0) : 0 < d.mag :=
  div_pos (by exact_mod_cast lt_of_le_of_ne h.units_nonneg hn.symm)
    (pow_pos (by exact_mod_cast digBase_pos) _)

end DecimalT

/-- A whole number of integer words leaves nothing to check of the leading one. -/
lemma Legal.of_digits {m : Nat} (hintg : d.intg = m * digPerDec1)
    (hpos : 0 < d.len) (hroom : d.words ≤ d.len) (halloc : d.len ≤ d.buf.size)
    (hdigits : Digits digBase d.buf.word 0 d.words) : d.Legal := by
  refine ⟨hpos, hroom, halloc, hdigits, fun hi => ?_⟩
  have hw : d.intgWords = m := by rw [intgWords, hintg, roundUp_mul]
  rw [hintg, digPerDec1] at hi ⊢
  rw [show (m * 9 - 1) % 9 + 1 = 9 by omega]
  exact (hdigits 0 le_rfl (by unfold DecimalT.words; omega)).2

/-- A result buffer that has been given the number `units` in units of its last
fraction word. -/
structure Exact (dst r : DecimalT) (sign : Bool) (frac : Nat) (units : Int) : Prop where
  legal : r.Legal
  len : r.len = dst.len
  sign_eq : r.sign = sign
  frac_eq : r.frac = frac
  units_eq : r.units = units

lemma Filled.exact {intg frac : Nat} {buf out : Words} {units : Int} (sign : Bool)
    (hsize : buf.size = dst.buf.size) (hpos : 0 < dst.len) (halloc : dst.len ≤ dst.buf.size)
    (hroom : intg + roundUp frac ≤ dst.len) (h : Filled (intg + roundUp frac) buf out units) :
    Exact dst { dst with sign, frac, intg := intg * digPerDec1, buf := out } sign frac units := by
  have hw : DecimalT.words { dst with sign, frac, intg := intg * digPerDec1, buf := out } =
      intg + roundUp frac := by
    simp [DecimalT.words, intgWords, fracWords, roundUp_mul]
  refine ⟨Legal.of_digits rfl hpos (hw ▸ hroom) ?_ (hw ▸ h.digits), rfl, rfl, rfl, ?_⟩
  · simpa [h.size, hsize] using halloc
  · rw [DecimalT.units, hw]
    exact h.total_eq

end Decimal
