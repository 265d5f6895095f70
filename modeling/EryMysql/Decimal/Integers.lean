import Mathlib.Data.Rat.Floor
import EryMysql.Decimal.Basic

/-!
# Decimals and 64-bit integers

The integer words of a decimal are summed up with a wrapping multiply-add, and an
overflow is noticed from the sum before and the sum after. `decimal2longlong` sums up
the negated number, since the range reaches one further below zero than above.
-/

namespace Decimal

open WordArray DecimalT Option Int Words

/-- `x=x*DIG_BASE + *buf++` over `n` words, up to the first word where the check finds
an overflow. -/
def sumWords (buf : Words) (next : Int -> Int -> Int) (overflow : Int -> Int -> Bool) :
    Nat -> Int -> Int -> Option (Option Int)
  | 0, _, x => some (some x)
  | n + 1, p, x => do
    let b ← buf.load p
    if overflow x (next x b) then some none else sumWords buf next overflow n (p + 1) (next x b)

/-- The error that the fraction words leave. -/
def fracError (buf : Words) : Nat -> Int -> Option DecErr
  | 0, _ => some .ok
  | n + 1, p => do
    let b ← buf.load p
    if b ≠ 0 then some .truncated else fracError buf n (p + 1)

def ulonglongMax : Int := 2 ^ 64 - 1

def longlongMin : Int := -2 ^ 63

def longlongMax : Int := 2 ^ 63 - 1

def decimal2ulonglong (src : DecimalT) : Option (DecErr × Int) := do
  if src.sign then some (.overflow, 0)
  else
    let sum ← sumWords src.buf (fun x b => (x * digBase + b) % 2 ^ 64)
      (fun y x => decide (ulonglongMax / digBase < y ∨ x < y)) src.intgWords 0 0
    match sum with
    | none => some (.overflow, ulonglongMax)
    | some x => do
      let error ← fracError src.buf src.fracWords src.intgWords
      some (error, x)

def decimal2longlong (src : DecimalT) : Option (DecErr × Int) := do
  let sum ← sumWords src.buf (fun x b => Int.bmod (x * digBase - b) (2 ^ 64))
    (fun y x => decide (y < Int.tdiv longlongMin digBase ∨ y < x)) src.intgWords 0 0
  match sum with
  | none => some (.overflow, if src.sign then longlongMin else longlongMax)
  | some x =>
    if src.sign = false ∧ x = longlongMin then some (.overflow, longlongMax)
    else do
      let error ← fracError src.buf src.fracWords src.intgWords
      some (error, if src.sign then x else -x)

/-- `for (intg1=1; from >= DIG_BASE; intg1++, from/=DIG_BASE)` -/
def wordCount (x : Nat) : Nat :=
  if 1000000000 ≤ x then wordCount (x / 1000000000) + 1 else 1

/-- `*--buf=(dec1)(x-y*DIG_BASE)` with `y=x/DIG_BASE`, over `n` words. -/
def putWords : Nat -> Int -> Words -> Option Words
  | 0, _, buf => some buf
  | n + 1, x, buf => do
    let buf ← buf.store n (x - x / digBase * digBase)
    putWords n (x / digBase) buf

def ull2dec (x : Nat) (dst : DecimalT) : Option (DecErr × DecimalT) := do
  let intg1 := wordCount x
  let (intg1, error) := if intg1 > dst.len then (dst.len, DecErr.overflow) else (intg1, .ok)
  let buf ← putWords intg1 x dst.buf
  some (error, { dst with frac := 0, intg := intg1 * digPerDec1, buf })

def ulonglong2decimal (x : Nat) (dst : DecimalT) : Option (DecErr × DecimalT) :=
  ull2dec x { dst with sign := false }

def longlong2decimal (x : Int) (dst : DecimalT) : Option (DecErr × DecimalT) :=
  if x < 0 then
    if x = longlongMin then ull2dec (2 ^ 63) { dst with sign := true }
    else ull2dec (-x).toNat { dst with sign := true }
  else ull2dec x.toNat { dst with sign := false }

/-- The sum of the words is exact up to `limit`, and the check finds the first sum
beyond it; `f` is the identity or the negation. -/
lemma sumWords_spec (buf : Words) (next : Int -> Int -> Int) (overflow : Int -> Int -> Bool)
    (f : Int -> Int) (limit : Int)
    (hover : ∀ v b, 0 ≤ v -> v ≤ limit -> 0 ≤ b -> b < digBase ->
      overflow (f v) (next (f v) b) = decide (limit < v * digBase + b))
    (hnext : ∀ v b, 0 ≤ v -> 0 ≤ b -> v * digBase + b ≤ limit -> next (f v) b = f (v * digBase + b))
    (n : Nat) {p v : Int} (hp : 0 ≤ p) (hn : p + n ≤ buf.size)
    (hd : Digits digBase buf.word p n) (hv : 0 ≤ v) (hlimit : v ≤ limit) :
    sumWords buf next overflow n p (f v) =
      some (if v * digBase ^ n + val digBase buf.word p n ≤ limit then
        some (f (v * digBase ^ n + val digBase buf.word p n)) else none) := by
  induction n generalizing p v with
  | zero => simp [sumWords, hlimit]
  | succ n ih =>
    have hb := hd p le_rfl (by omega)
    have htail := hd.mono (t := p + 1) (m := n) (by omega) (by omega)
    have hrest := val_nonneg digBase_pos.le htail
    have hsum : v * digBase ^ (n + 1) + val digBase buf.word p (n + 1) =
        (v * digBase + buf.word p) * digBase ^ n + val digBase buf.word (p + 1) n := by
      rw [val_cons]
      ring
    have hfirst := add_nonneg (mul_nonneg hv digBase_pos.le) hb.1
    rw [sumWords, buf.load_eq hp (by omega), bind_eq_bind, bind_some,
      hover v _ hv hlimit hb.1 hb.2, hsum]
    by_cases hle : v * digBase + buf.word p ≤ limit
    · rw [decide_eq_false (not_lt.mpr hle), hnext v _ hv hb.1 hle,
        ← ih (by omega) (by omega) htail hfirst hle]
      rfl
    · have hpow := add_one_le_of_lt (pow_pos digBase_pos n)
      have hmul := le_mul_of_one_le_right hfirst hpow
      rw [decide_eq_true (not_le.mp hle), if_pos rfl, if_neg (by linarith)]

lemma fracError_spec (buf : Words) (n : Nat) {p : Int} (hp : 0 ≤ p) (hn : p + n ≤ buf.size) :
    fracError buf n p = some (if ∃ i < n, buf.word (p + (i : Nat)) ≠ 0 then .truncated else .ok) := by
  induction n generalizing p with
  | zero => simp [fracError]
  | succ n ih =>
    rw [fracError, buf.load_eq hp (by omega), bind_eq_bind, bind_some]
    by_cases hb : buf.word p = 0
    · rw [if_neg (not_not.mpr hb), ih (by omega) (by omega)]
      congr 2
      rw [Nat.exists_lt_succ_left]
      simp [hb, add_assoc, add_comm (1 : Int)]
    · rw [if_pos hb, if_pos ⟨0, by omega, by simpa using hb⟩]

namespace DecimalT

def trunc (d : DecimalT) : Int := if d.sign then -⌊d.mag⌋ else ⌊d.mag⌋

def HasFraction (d : DecimalT) : Prop := ∃ i < d.fracWords, d.buf.word (d.intgWords + (i : Nat)) ≠ 0

instance (d : DecimalT) : Decidable d.HasFraction :=
  inferInstanceAs (Decidable (∃ i < d.fracWords, d.buf.word (d.intgWords + (i : Nat)) ≠ 0))

/-- The integer from `lo` to `hi` that is nearest to the number without its fraction,
and what is lost. -/
def saturate (d : DecimalT) (lo hi : Int) : DecErr × Int :=
  if d.trunc < lo then (.overflow, lo)
  else if hi < d.trunc then (.overflow, hi)
  else (if d.HasFraction then .truncated else .ok, d.trunc)

variable {d : DecimalT}

lemma Legal.floor_mag (h : d.Legal) : ⌊d.mag⌋ = val digBase d.buf.word 0 d.intgWords := by
  have htail := h.digits.mono (t := 0 + d.intgWords) (m := d.fracWords) (by omega)
    (by unfold words; omega)
  rw [mag, ← cast_pow, floor_div_cast_of_nonneg (pow_pos digBase_pos _).le,
    floor_intCast, units, words, val_add, add_comm,
    add_mul_ediv_right _ _ (pow_pos digBase_pos _).ne',
    ediv_eq_zero_of_lt (val_nonneg digBase_pos.le htail) (val_lt digBase_pos.le htail), zero_add]

lemma Legal.intg_digits (h : d.Legal) :
    Digits digBase d.buf.word 0 d.intgWords ∧ (0 : Int) + d.intgWords ≤ d.buf.size ∧
      (d.intgWords : Int) + d.fracWords ≤ d.buf.size := by
  have hsize := h.room.trans h.alloc
  have hw : d.words = d.intgWords + d.fracWords := rfl
  exact ⟨h.digits.mono le_rfl (by omega), by omega, by omega⟩

lemma Legal.fracError_eq (h : d.Legal) :
    fracError d.buf d.fracWords d.intgWords = some (if d.HasFraction then .truncated else .ok) :=
  fracError_spec d.buf d.fracWords (natCast_nonneg _) h.intg_digits.2.2

end DecimalT

lemma decimal2ulonglong_spec {d : DecimalT} (h : d.Legal) (hsign : d.sign = false) :
    decimal2ulonglong d = some (d.saturate 0 ulonglongMax) := by
  obtain ⟨hdigits, hsize, -⟩ := h.intg_digits
  have hsum := sumWords_spec d.buf (fun x b => (x * digBase + b) % 2 ^ 64)
    (fun y x => decide (ulonglongMax / digBase < y ∨ x < y)) id ulonglongMax
    (fun v b h0 h1 hb0 hb1 => by
      rw [decide_eq_decide]
      unfold ulonglongMax digBase at *
      simp only [id]
      omega)
    (fun v b h0 hb0 hle => by
      unfold ulonglongMax digBase at *
      simp only [id]
      omega)
    d.intgWords le_rfl hsize hdigits (v := 0) le_rfl (by decide)
  have h0 := val_nonneg digBase_pos.le hdigits
  have htrunc : d.trunc = val digBase d.buf.word 0 d.intgWords := by
    simp [trunc, hsign, h.floor_mag]
  simp only [id, zero_mul, zero_add] at hsum
  rw [decimal2ulonglong, hsign, hsum, saturate, htrunc,
    if_neg (not_lt.mpr h0)]
  by_cases hle : val digBase d.buf.word 0 d.intgWords ≤ ulonglongMax
  · rw [if_pos hle, if_neg (not_lt.mpr hle)]
    simp [h.fracError_eq]
  · rw [if_neg hle, if_pos (not_le.mp hle)]
    rfl

lemma decimal2longlong_spec {d : DecimalT} (h : d.Legal) :
    decimal2longlong d = some (d.saturate longlongMin longlongMax) := by
  obtain ⟨hdigits, hsize, -⟩ := h.intg_digits
  have hsum := sumWords_spec d.buf (fun x b => bmod (x * digBase - b) (2 ^ 64))
    (fun y x => decide (y < tdiv longlongMin digBase ∨ y < x)) (fun v => -v) (2 ^ 63)
    (fun v b h0 h1 hb0 hb1 => by
      rw [decide_eq_decide, show tdiv longlongMin digBase = -9223372036 by decide, bmod_def]
      unfold digBase at *
      split <;> omega)
    (fun v b h0 hb0 hle => by
      rw [bmod_def]
      unfold digBase at *
      split <;> omega)
    d.intgWords le_rfl hsize hdigits (v := 0) le_rfl (by decide)
  have h0 := val_nonneg digBase_pos.le hdigits
  obtain ⟨v, hv⟩ : ∃ v, v = val digBase d.buf.word 0 d.intgWords := ⟨_, rfl⟩
  have htrunc : d.trunc = if d.sign then -v else v := by rw [trunc, h.floor_mag, hv]
  simp only [zero_mul, zero_add, neg_zero, ← hv] at hsum h0
  rw [decimal2longlong, hsum, saturate, htrunc, h.fracError_eq]
  unfold longlongMin longlongMax
  cases d.sign <;> by_cases hle : v ≤ 2 ^ 63
  all_goals simp only [hle, if_true, if_false, true_and, false_and,
    reduceCtorEq, bind_eq_bind, bind_some]
  all_goals split_ifs <;> first | rfl | omega | simp

lemma putWords_spec (n : Nat) (x : Int) (buf : Words) (hn : n ≤ buf.size) :
    ∃ out, putWords n x buf = some out ∧
      Filled n buf out (x - x / digBase ^ n * digBase ^ n) := by
  induction n generalizing x buf with
  | zero => exact ⟨buf, rfl, rfl, fun _ _ => rfl, fun i h0 h1 => by omega, by simp⟩
  | succ n ih =>
    obtain ⟨out, hrun, hout⟩ := ih (x / digBase) (buf.put n (x - x / digBase * digBase))
      (by rw [size_put]; omega)
    have hlast : out.word n = x - x / digBase * digBase := by
      rw [hout.frame n le_rfl, word_put_self]
    refine ⟨out, ?_, hout.size, fun i hi => ?_, fun i h0 h1 => ?_, ?_⟩
    · rw [putWords, buf.store_eq _ (natCast_nonneg n) (by omega)]
      exact hrun
    · rw [hout.frame i (by omega), word_put_ne (by omega)]
    · by_cases hi : i = n
      · rw [hi, hlast]
        unfold digBase
        omega
      · exact hout.digits i h0 (by omega)
    · rw [val_succ, hout.total_eq, zero_add, hlast, ediv_ediv_of_nonneg digBase_pos.le]
      ring_nf

lemma lt_pow_wordCount (x : Nat) : (x : Int) < digBase ^ wordCount x := by
  fun_induction wordCount x with
  | case1 x hx ih =>
    unfold digBase at *
    omega
  | case2 x hx =>
    unfold digBase
    omega

lemma wordCount_le {x k : Nat} (hx : (x : Int) < digBase ^ (k + 1)) : wordCount x ≤ k + 1 := by
  induction k generalizing x with
  | zero =>
    rw [wordCount, if_neg (by unfold digBase at hx; omega)]
  | succ k ih =>
    rw [wordCount]
    split
    · refine Nat.succ_le_succ (ih ?_)
      unfold digBase at *
      omega
    · omega

lemma ull2dec_spec {x : Nat} (hx : x < 2 ^ 64) (dst : DecimalT) (hlen : 3 ≤ dst.len)
    (halloc : dst.len ≤ dst.buf.size) :
    ∃ d, ull2dec x dst = some (.ok, d) ∧ Exact dst d dst.sign 0 x := by
  have hcount : wordCount x ≤ 3 := wordCount_le (by unfold digBase; omega)
  obtain ⟨out, hrun, hout⟩ := putWords_spec (wordCount x) x dst.buf (by omega)
  rw [ediv_eq_zero_of_lt (natCast_nonneg x) (lt_pow_wordCount x), zero_mul] at hout
  refine ⟨_, ?_, Filled.exact dst.sign rfl (by omega) halloc (by simp [roundUp_eq]; omega) hout⟩
  rw [ull2dec, if_neg (by omega)]
  simp [hrun]

lemma Exact.trunc_eq {dst d : DecimalT} {sign : Bool} {x : Int} (h : Exact dst d sign 0 x) :
    d.trunc = (if sign then -x else x) ∧ ¬ d.HasFraction := by
  have hfrac : d.fracWords = 0 := by simp [fracWords, h.frac_eq, roundUp_eq]
  simp [trunc, mag, HasFraction, h.sign_eq, h.units_eq, hfrac]

/-- The conversions to 64-bit integers give the nearest integer of the range and tell
what is lost, and every 64-bit integer survives the way to a decimal and back. -/
theorem integer_conversions :
    (∀ d : DecimalT, d.WellFormed -> decimal2longlong d = some (d.saturate longlongMin longlongMax)) ∧
    (∀ d : DecimalT, d.WellFormed -> d.sign = false ->
      decimal2ulonglong d = some (d.saturate 0 ulonglongMax)) ∧
    ∀ dst : DecimalT, 3 ≤ dst.len -> dst.len ≤ dst.buf.size ->
      (∀ x : Int, longlongMin ≤ x -> x ≤ longlongMax ->
        ∃ d, longlong2decimal x dst = some (.ok, d) ∧ decimal2longlong d = some (.ok, x)) ∧
      ∀ x : Nat, x ≤ ulonglongMax ->
        ∃ d, ulonglong2decimal x dst = some (.ok, d) ∧ decimal2ulonglong d = some (.ok, (x : Int)) := by
  refine ⟨fun d hd => decimal2longlong_spec hd.toLegal,
    fun d hd hsign => decimal2ulonglong_spec hd.toLegal hsign, fun dst hlen halloc => ⟨?_, ?_⟩⟩
  · intro x hlow hhigh
    have hrun : longlong2decimal x dst =
        ull2dec x.natAbs { dst with sign := decide (x < 0) } := by
      unfold longlong2decimal
      by_cases hx : x < 0
      · by_cases hmin : x = longlongMin
        · simp [hmin, show longlongMin.natAbs = 2 ^ 63 from rfl, show longlongMin < 0 by decide]
        · simp [hx, hmin, show (-x).toNat = x.natAbs by omega]
      · simp [hx, show x.toNat = x.natAbs by omega]
    obtain ⟨d, hd, hexact⟩ := ull2dec_spec (x := x.natAbs)
      (by unfold longlongMin longlongMax at *; omega) { dst with sign := decide (x < 0) } hlen halloc
    obtain ⟨htrunc, hfrac⟩ := hexact.trunc_eq
    have hx : (if decide (x < 0) then -(x.natAbs : Int) else x.natAbs) = x := by
      simp only [decide_eq_true_eq]
      omega
    refine ⟨d, hrun.trans hd, ?_⟩
    rw [decimal2longlong_spec hexact.legal, saturate, htrunc, hx, if_neg (not_lt.mpr hlow),
      if_neg (not_lt.mpr hhigh), if_neg hfrac]
  · intro x hx
    obtain ⟨d, hd, hexact⟩ := ull2dec_spec (x := x) (by unfold ulonglongMax at hx; omega)
      { dst with sign := false } hlen halloc
    obtain ⟨htrunc, hfrac⟩ := hexact.trunc_eq
    refine ⟨d, hd, ?_⟩
    rw [decimal2ulonglong_spec hexact.legal hexact.sign_eq, saturate, htrunc,
      if_neg Bool.false_ne_true, if_neg (not_lt.mpr (natCast_nonneg x)), if_neg (not_lt.mpr hx),
      if_neg hfrac]

end Decimal
