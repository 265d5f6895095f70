import Mathlib.Data.List.TakeWhile
import Mathlib.Tactic.Ring

/-!
# Numbers as text

`longlong10_to_str` and `int10_to_str` write a number in decimal, and `my_strtoll10`
of strings/my_strtoll10.c reads one. Text is a list of bytes; a pointer into it is the
text from there on. `my_strtoll10` collects up to nine digits at a time in each of
`i`, `j` and `k`.
-/

namespace Strings

open List Bool Nat

/-- `(c= *s - '0')`, in the unsigned arithmetic of `uchar`. -/
def digitOf (c : UInt8) : Nat := (c - '0'.toUInt8).toNat

def isDigit (c : UInt8) : Bool := digitOf c ≤ 9

/-- The first ten entries of `_dig_vec_upper`. -/
def digVecUpper (n : Nat) : UInt8 := '0'.toUInt8 + UInt8.ofNat n

/-- The digits of `val` go in front of those already in the buffer, which has 65 bytes. -/
def writeDigits : Nat -> Nat -> List UInt8 -> List UInt8
  | 0, _, p => p
  | room + 1, val, p =>
    if val = 0 then p else writeDigits room (val / 10) (digVecUpper (val % 10) :: p)

/-- With a positive radix. The two loops divide by ten in two widths. -/
def longlong10ToStr (val : UInt64) : List UInt8 :=
  if val = 0 then ['0'.toUInt8] else writeDigits 64 val.toNat []

def int10ToStr (val : UInt32) : List UInt8 :=
  writeDigits 63 (val.toNat / 10) [digVecUpper (val.toNat % 10)]

/-- What `my_strtoll10` leaves in `*error`. -/
inductive StrtollError where
  | ok
  | negative
  | erange
  | edom
  deriving DecidableEq, Repr

/-- The value as 64 bits, the error, and the text from `*endptr` on. -/
structure Strtoll where
  value : UInt64
  error : StrtollError
  rest : List UInt8
  deriving DecidableEq, Repr

def maxNegativeNumber : Nat := 0x8000000000000000
def ulonglongMax : Nat := 0xFFFFFFFFFFFFFFFF
def lfactor : Nat := 1000000000
def lfactor1 : Nat := 10000000000
def lfactor2 : Nat := 100000000000

/-- The greatest magnitude there is with the sign. -/
def maxMagnitude (negative : Bool) : Nat := if negative then maxNegativeNumber else ulonglongMax

/-- At most `n` digits, after those in `acc`: how many there were, the new value, the rest. -/
def readDigits : Nat -> Nat -> List UInt8 -> Nat × Nat × List UInt8
  | 0, acc, s => (0, acc, s)
  | _ + 1, acc, [] => (0, acc, [])
  | n + 1, acc, c :: s =>
    if isDigit c then
      let (m, v, rest) := readDigits n (acc * 10 + digitOf c) s
      (m + 1, v, rest)
    else (0, acc, c :: s)

namespace Strtoll

def done (negative : Bool) (li : Nat) (s : List UInt8) : Strtoll :=
  if negative then ⟨-UInt64.ofNat li, .negative, s⟩ else ⟨UInt64.ofNat li, .ok, s⟩

def overflow (negative : Bool) (s : List UInt8) : Strtoll :=
  ⟨if negative then 0x8000000000000000 else 0xFFFFFFFFFFFFFFFF, .erange, s⟩

def end4 (negative : Bool) (i j k : Nat) (s : List UInt8) : Strtoll :=
  let li := i * lfactor1 + j * 10 + k
  if negative ∧ maxNegativeNumber < li then overflow negative s else done negative li s

/-- A second digit for `k`, and the check of all twenty. -/
def endK (negative : Bool) (i j k : Nat) : List UInt8 -> Strtoll
  | [] => end4 negative i j k []
  | c :: s =>
    if isDigit c then
      let k := k * 10 + digitOf c
      let cutoff := maxMagnitude negative / lfactor2
      let cutoff2 := maxMagnitude negative % lfactor2 / 100
      let cutoff3 := maxMagnitude negative % 100
      if s.head?.any isDigit then overflow negative s
      else if cutoff < i ∨ i = cutoff ∧ (cutoff2 < j ∨ j = cutoff2 ∧ cutoff3 < k) then
        overflow negative s
      else ⟨UInt64.ofNat (i * lfactor2 + j * 100 + k), if negative then .negative else .ok, s⟩
    else end4 negative i j k (c :: s)

def readJ (negative : Bool) (i : Nat) (s : List UInt8) : Strtoll :=
  let (m, j, s) := readDigits 9 0 s
  if m < 9 then done negative (i * 10 ^ m + j) s
  else
    match s with
    | [] => done negative (i * lfactor + j) []
    | c :: rest =>
      if isDigit c then endK negative i j (digitOf c) rest
      else done negative (i * lfactor + j) (c :: rest)

/-- The first nine digits, of which `n` are still to come, go to `i`. -/
def readI (negative : Bool) (n i : Nat) (s : List UInt8) : Strtoll :=
  let (m, i, s) := readDigits n i s
  if m < n ∨ s = [] then done negative i s else readJ negative i s

/-- After the sign. `nptr` is the text from its start on. -/
def magnitude (nptr : List UInt8) (negative : Bool) : List UInt8 -> Strtoll
  | [] => ⟨0, .edom, nptr⟩
  | c :: s =>
    if c = '0'.toUInt8 then
      match s.dropWhile (· = '0'.toUInt8) with
      | [] => done negative 0 []
      | s => readI negative 9 0 s
    else if isDigit c then readI negative 8 (digitOf c) s
    else ⟨0, .edom, nptr⟩

end Strtoll

def myStrtoll10 (nptr : List UInt8) : Strtoll :=
  match nptr.dropWhile (fun c => c = ' '.toUInt8 ∨ c = '\t'.toUInt8) with
  | [] => ⟨0, .edom, nptr⟩
  | c :: s =>
    if c = '-'.toUInt8 then Strtoll.magnitude nptr true s
    else if c = '+'.toUInt8 then Strtoll.magnitude nptr false s
    else Strtoll.magnitude nptr false (c :: s)

/-- The number that the digits `ds` make after those of `acc`. -/
def numeral (acc : Nat) (ds : List UInt8) : Nat := ds.foldl (fun n c => n * 10 + digitOf c) acc

def AllDigits (ds : List UInt8) : Prop := ∀ c ∈ ds, isDigit c = true

/-- The text goes on with something else than a digit, or ends. -/
def Ends (rest : List UInt8) : Prop := rest.head?.any isDigit = false

section Numerals
variable {acc n : Nat} {c : UInt8} {ds rest : List UInt8}

lemma digitOf_le (hc : isDigit c = true) : digitOf c ≤ 9 := of_decide_eq_true hc

@[simp] lemma numeral_nil : numeral acc [] = acc := rfl

@[simp] lemma numeral_cons : numeral acc (c :: ds) = numeral (acc * 10 + digitOf c) ds := rfl

lemma numeral_append (ds' : List UInt8) : numeral acc (ds ++ ds') = numeral (numeral acc ds) ds' :=
  foldl_append

lemma AllDigits.tail (hds : AllDigits (c :: ds)) : AllDigits ds :=
  fun c' hc' => hds c' (mem_cons_of_mem c hc')

lemma numeral_eq (acc : Nat) (ds : List UInt8) : numeral acc ds = acc * 10 ^ ds.length + numeral 0 ds := by
  induction ds generalizing acc with
  | nil => simp
  | cons c ds ih =>
    rw [numeral_cons, numeral_cons, ih, ih (0 * 10 + _), length_cons]
    ring

lemma numeral_lt (hds : AllDigits ds) : numeral 0 ds < 10 ^ ds.length := by
  induction ds with
  | nil => simp
  | cons c ds ih =>
    have hc := digitOf_le (hds c (mem_cons_self ..))
    have hlt := ih hds.tail
    have hle := mul_le_mul_right (10 ^ ds.length) hc
    rw [numeral_cons, numeral_eq, length_cons, zero_mul, zero_add]
    omega

lemma le_numeral (acc : Nat) (ds : List UInt8) : acc * 10 ^ ds.length ≤ numeral acc ds := by
  rw [numeral_eq]
  exact le_add_right _ _

/-- Reading stops after `n` digits, or where they end. -/
lemma readDigits_append (hds : AllDigits ds) (hrest : Ends rest) : readDigits n acc (ds ++ rest) =
      (min n ds.length, numeral acc (ds.take n), ds.drop n ++ rest) := by
  induction n generalizing acc ds with
  | zero => simp [readDigits]
  | succ n ih =>
    cases ds with
    | nil =>
      cases rest with
      | nil => simp [readDigits]
      | cons c rest =>
        have hc : isDigit c = false := by simpa [Ends] using hrest
        simp [readDigits, hc]
    | cons c ds =>
      have hc := hds c (mem_cons_self ..)
      simp [readDigits, hc, ih hds.tail]

end Numerals

namespace Strtoll
variable {negative : Bool} {i j k : Nat} {ds rest : List UInt8}

/-- What reading a number of magnitude `v` gives: the number, unless it is too great. -/
def Reads (negative : Bool) (v : Nat) (rest : List UInt8) (r : Strtoll) : Prop :=
  (v ≤ maxMagnitude negative -> r = done negative v rest) ∧
    (maxMagnitude negative < v -> ∃ s, r = overflow negative s)

lemma le_maxMagnitude (negative : Bool) : maxNegativeNumber ≤ maxMagnitude negative := by
  cases negative <;> decide

lemma reads_done {v : Nat} (hv : v < 10 ^ 18) : Reads negative v rest (done negative v rest) := by
  have hle := le_maxMagnitude negative
  refine ⟨fun _ => rfl, fun hlt => ?_⟩
  unfold maxNegativeNumber at hle
  omega

lemma reads_end4 (hi : i < 10 ^ 9) (hj : j < 10 ^ 9) (hk : k < 10) :
    Reads negative (i * lfactor1 + j * 10 + k) rest (end4 negative i j k rest) := by
  unfold end4 Reads maxMagnitude
  cases negative with
  | false =>
    refine ⟨fun _ => if_neg fun hneg => Bool.false_ne_true hneg.1, fun hlt => ?_⟩
    simp only [false_eq_true, if_false, ulonglongMax, lfactor1] at hlt
    omega
  | true =>
    refine ⟨fun hle => if_neg fun hlt => ?_, fun hlt => ⟨rest, if_pos ⟨rfl, hlt⟩⟩⟩
    exact not_lt.mpr hle hlt.2

/-- Twenty digits are a number of 64 bits exactly when the three cutoffs say so. -/
lemma cutoff_iff (negative : Bool) (i : Nat) (hj : j < 10 ^ 9) (hk : k < 100) :
    (maxMagnitude negative / lfactor2 < i ∨ i = maxMagnitude negative / lfactor2 ∧
        (maxMagnitude negative % lfactor2 / 100 < j ∨ j = maxMagnitude negative % lfactor2 / 100 ∧
          maxMagnitude negative % 100 < k)) ↔
      maxMagnitude negative < i * lfactor2 + j * 100 + k := by
  cases negative
  · simp only [maxMagnitude, ulonglongMax, lfactor2, false_eq_true]
    omega
  · simp only [maxMagnitude, lfactor2]
    omega

lemma reads_endK (hi0 : 10 ^ 8 ≤ i) (hi : i < 10 ^ 9) (hj : j < 10 ^ 9) (hk : k < 10)
    (hds : AllDigits ds) (hrest : Ends rest) :
    Reads negative (numeral (i * lfactor1 + j * 10 + k) ds) rest
      (endK negative i j k (ds ++ rest)) := by
  cases ds with
  | nil =>
    cases rest with
    | nil => exact reads_end4 hi hj hk
    | cons c rest =>
      have hc : isDigit c = false := by simpa [Ends] using hrest
      rw [nil_append, endK, hc, if_neg Bool.false_ne_true]
      exact reads_end4 hi hj hk
  | cons c ds =>
    have hc := hds c (mem_cons_self ..)
    have hle := digitOf_le hc
    have hvalue : (i * lfactor1 + j * 10 + k) * 10 + digitOf c =
        i * lfactor2 + j * 100 + (k * 10 + digitOf c) := by
      unfold lfactor1 lfactor2
      ring
    have hcutoff := cutoff_iff negative i hj (show k * 10 + digitOf c < 100 by omega)
    rw [cons_append, endK, if_pos hc, numeral_cons, hvalue]
    cases ds with
    | nil =>
      have hends := hrest
      rw [nil_append, hends, if_neg Bool.false_ne_true, numeral_nil]
      constructor
      · intro hmax
        rw [if_neg (fun h => not_lt.mpr hmax (hcutoff.mp h))]
        cases negative with
        | false => rfl
        | true =>
          simp only [maxMagnitude, maxNegativeNumber, lfactor2, if_true] at hmax
          omega
      · intro hmax
        exact ⟨rest, if_pos (hcutoff.mpr hmax)⟩
    | cons c' ds =>
      have hc' := hds c' (by simp)
      have hmany : ((c' :: ds) ++ rest).head?.any isDigit = true := by simpa using hc'
      rw [hmany]
      refine ⟨fun hmax => ?_, fun _ => ⟨_, rfl⟩⟩
      have hlarge := le_numeral (i * lfactor2 + j * 100 + (k * 10 + digitOf c)) (c' :: ds)
      have hpow : 10 ^ 1 ≤ 10 ^ (c' :: ds).length := Nat.pow_le_pow_right (by decide) (by simp)
      have hmul := mul_le_mul (show 10 ^ 19 ≤ i * lfactor2 + j * 100 + (k * 10 + digitOf c) by
        unfold lfactor2; omega) hpow
      have hcap : maxMagnitude negative ≤ ulonglongMax := by cases negative <;> decide
      unfold ulonglongMax at hcap
      omega

lemma reads_readJ (hi0 : 10 ^ 8 ≤ i) (hi : i < 10 ^ 9) (hds : AllDigits ds) (hrest : Ends rest) :
    Reads negative (numeral i ds) rest (readJ negative i (ds ++ rest)) := by
  have htake : AllDigits (ds.take 9) := fun c hc => hds c (mem_of_mem_take hc)
  have hj := numeral_lt htake
  have hjlen : (ds.take 9).length = min 9 ds.length := length_take
  have hsplit : numeral i ds = numeral (numeral i (ds.take 9)) (ds.drop 9) := by
    rw [← numeral_append, take_append_drop]
  simp only [readJ, readDigits_append hds hrest]
  rw [hsplit, numeral_eq i, hjlen]
  rw [hjlen] at hj
  split
  · have hdrop : ds.drop 9 = [] := drop_eq_nil_of_le (by omega)
    rw [hdrop, numeral_nil]
    apply reads_done
    have hpow : 10 ^ min 9 ds.length ≤ 10 ^ 8 := Nat.pow_le_pow_right (by decide) (by omega)
    have hmul := mul_le_mul hi.le hpow
    omega
  · have hnine : min 9 ds.length = 9 := by omega
    rw [hnine] at hj ⊢
    have hend : ∀ s, Reads negative (i * 10 ^ 9 + numeral 0 (ds.take 9)) s
        (done negative (i * lfactor + numeral 0 (ds.take 9)) s) := by
      intro s
      apply reads_done
      omega
    cases hdrop : ds.drop 9 with
    | nil =>
      cases rest with
      | nil => exact hend []
      | cons c rest =>
        have hc : isDigit c = false := by simpa [Ends] using hrest
        simp only [nil_append, hc, false_eq_true, if_false]
        exact hend (c :: rest)
    | cons c ds' =>
      have hin : ∀ c' ∈ c :: ds', isDigit c' = true :=
        fun c' hc' => hds c' (mem_of_mem_drop (hdrop ▸ hc'))
      have hc := hin c (mem_cons_self ..)
      simp only [cons_append, hc, numeral_cons]
      have hk := digitOf_le hc
      have hendK : Reads negative _ _ _ := reads_endK hi0 hi hj (show digitOf c < 10 by omega)
        (AllDigits.tail hin) hrest
      have hvalue : (i * 10 ^ 9 + numeral 0 (ds.take 9)) * 10 + digitOf c =
          i * lfactor1 + numeral 0 (ds.take 9) * 10 + digitOf c := by
        unfold lfactor1
        ring
      rwa [hvalue]

lemma readI_cons {n : Nat} {c : UInt8} (hc : isDigit c = true) (s : List UInt8) :
    readI negative (n + 1) i (c :: s) = readI negative n (i * 10 + digitOf c) s := by
  simp [readI, readDigits, hc]

lemma reads_readI (hi0 : 1 ≤ i) (hi : i ≤ 9) (hds : AllDigits ds) (hrest : Ends rest) :
    Reads negative (numeral i ds) rest (readI negative 8 i (ds ++ rest)) := by
  have htake : AllDigits (ds.take 8) := fun c hc => hds c (mem_of_mem_take hc)
  have hlt := numeral_lt htake
  have hlen : (ds.take 8).length = min 8 ds.length := length_take
  have hnum := numeral_eq i (ds.take 8)
  rw [hlen] at hlt hnum
  have hbound : numeral i (ds.take 8) < 10 ^ 9 := by
    have hpow : 10 ^ min 8 ds.length ≤ 10 ^ 8 := Nat.pow_le_pow_right (by decide) (by omega)
    have hmul := mul_le_mul hi hpow
    omega
  simp only [readI, readDigits_append hds hrest]
  split
  · rename_i hstop
    have hdrop : ds.drop 8 = [] := by
      rcases hstop with hshort | hnil
      · exact drop_eq_nil_of_le (by omega)
      · exact (append_eq_nil_iff.mp hnil).1
    have hall : ds.take 8 = ds := by
      have hboth := take_append_drop 8 ds
      rwa [hdrop, append_nil] at hboth
    rw [hdrop, hall]
    rw [hall] at hbound
    exact reads_done (by omega)
  · have height : min 8 ds.length = 8 := by omega
    rw [height] at hnum
    have hsplit : numeral i ds = numeral (numeral i (ds.take 8)) (ds.drop 8) := by
      rw [← numeral_append, take_append_drop]
    rw [hsplit]
    exact reads_readJ (by omega) hbound (fun c hc => hds c (mem_of_mem_drop hc)) hrest

lemma digitOf_eq_zero {c : UInt8} : digitOf c = 0 ↔ c = '0'.toUInt8 := by
  have hlt := c.toNat_lt
  rw [← UInt8.toNat_inj]
  show (2 ^ 8 - 48 + c.toNat) % 2 ^ 8 = 0 ↔ c.toNat = 48
  omega

lemma numeral_dropWhile_zero (ds : List UInt8) :
    numeral 0 (ds.dropWhile (· = '0'.toUInt8)) = numeral 0 ds := by
  induction ds with
  | nil => rfl
  | cons c ds ih =>
    by_cases hc : c = '0'.toUInt8
    · rw [dropWhile_cons_of_pos (by simpa using hc), ih, numeral_cons, digitOf_eq_zero.mpr hc]
    · rw [dropWhile_cons_of_neg (by simpa using hc)]

lemma reads_magnitude (nptr : List UInt8) (hne : ds ≠ []) (hds : AllDigits ds)
    (hrest : Ends rest) :
    Reads negative (numeral 0 ds) rest (magnitude nptr negative (ds ++ rest)) := by
  obtain ⟨c, ds, rfl⟩ := exists_cons_of_ne_nil hne
  have hc := hds c (mem_cons_self ..)
  rw [cons_append, magnitude, numeral_cons, zero_mul, zero_add]
  by_cases hzero : c = '0'.toUInt8
  · rw [if_pos hzero, digitOf_eq_zero.mpr hzero, ← numeral_dropWhile_zero, dropWhile_append]
    cases hdrop : ds.dropWhile (· = '0'.toUInt8) with
    | nil =>
      cases rest with
      | nil => exact reads_done (by decide)
      | cons c' rest =>
        have hc' : isDigit c' = false := by simpa [Ends] using hrest
        have hne : ¬ c' = '0'.toUInt8 := by
          rintro rfl
          exact absurd hc' (by decide)
        simp only [isEmpty_nil, if_true, dropWhile_cons, hne, decide_false,
          false_eq_true, if_false, readI, readDigits, hc']
        exact reads_done (by decide)
    | cons c' ds' =>
      have hin : AllDigits (c' :: ds') := fun d hd =>
        hds d (mem_cons_of_mem c ((dropWhile_sublist _).subset (hdrop ▸ hd)))
      have hne : ¬ c' = '0'.toUInt8 := by
        have hhead := head?_dropWhile_not (· = '0'.toUInt8) ds
        rw [hdrop] at hhead
        simpa using hhead
      have hpos : digitOf c' ≠ 0 := fun h => hne (digitOf_eq_zero.mp h)
      have hle := digitOf_le (hin c' (mem_cons_self ..))
      simp only [isEmpty_cons, false_eq_true, if_false, cons_append, numeral_cons,
        readI_cons (hin c' (mem_cons_self ..)), zero_mul, zero_add]
      exact reads_readI (pos_of_ne_zero hpos) hle hin.tail hrest
  · have hpos : digitOf c ≠ 0 := fun h => hzero (digitOf_eq_zero.mp h)
    rw [if_neg hzero, if_pos hc]
    exact reads_readI (pos_of_ne_zero hpos) (digitOf_le hc) hds.tail hrest

end Strtoll

structure IsDecimal (ds : List UInt8) (n : Nat) : Prop where
  ne_nil : ds ≠ []
  digits : AllDigits ds
  value : numeral 0 ds = n

lemma not_blank_of_isDigit {c : UInt8} (hc : isDigit c = true) :
    c ≠ ' '.toUInt8 ∧ c ≠ '\t'.toUInt8 ∧ c ≠ '-'.toUInt8 ∧ c ≠ '+'.toUInt8 := by
  refine ⟨?_, ?_, ?_, ?_⟩ <;> rintro rfl <;> exact absurd hc (by decide)

lemma myStrtoll10_decimal {ds rest : List UInt8} {n : UInt64} (hd : IsDecimal ds n.toNat)
    (hrest : Ends rest) : myStrtoll10 (ds ++ rest) = ⟨n, .ok, rest⟩ := by
  obtain ⟨hne, hds, hvalue⟩ := hd
  have hreads : Strtoll.Reads false _ _ _ := Strtoll.reads_magnitude (ds ++ rest) hne hds hrest
  obtain ⟨c, ds, rfl⟩ := exists_cons_of_ne_nil hne
  obtain ⟨h1, h2, h3, h4⟩ := not_blank_of_isDigit (hds c (mem_cons_self ..))
  have hmax : numeral 0 (c :: ds) ≤ maxMagnitude false := by
    have hlt := n.toNat_lt
    rw [hvalue]
    show n.toNat ≤ ulonglongMax
    unfold ulonglongMax
    omega
  have hrun := hreads.1 hmax
  rw [myStrtoll10, cons_append, dropWhile_cons_of_neg (by simp [h1, h2])]
  simp only [h3, h4, if_false]
  rw [cons_append] at hrun
  rw [hrun, hvalue, Strtoll.done, if_neg Bool.false_ne_true, UInt64.ofNat_toNat]

lemma ends_dropWhile (s : List UInt8) : Ends (s.dropWhile isDigit) := by
  have hhead := head?_dropWhile_not isDigit s
  unfold Ends
  cases h : (s.dropWhile isDigit).head? with
  | none => rfl
  | some c =>
    rw [h] at hhead
    simpa using hhead

lemma Strtoll.magnitude_of_no_digit (nptr : List UInt8) (negative : Bool) {s : List UInt8}
    (hs : s.takeWhile isDigit = []) : magnitude nptr negative s = ⟨0, .edom, nptr⟩ := by
  cases s with
  | nil => rfl
  | cons c s =>
    have hc : isDigit c = false := by
      by_contra hc
      rw [takeWhile_cons_of_pos (by simpa using hc)] at hs
      cases hs
    have hzero : c ≠ '0'.toUInt8 := by
      rintro rfl
      exact absurd hc (by decide)
    rw [magnitude, if_neg hzero, hc, if_neg Bool.false_ne_true]

/-- The sign in front of a text, if there is one, and what follows it. -/
def splitSign : List UInt8 -> Bool × List UInt8
  | [] => (false, [])
  | c :: s =>
    if c = '-'.toUInt8 then (true, s) else if c = '+'.toUInt8 then (false, s) else (false, c :: s)

/-- The sign and what follows it, after the blanks. -/
def signedText (nptr : List UInt8) : Bool × List UInt8 :=
  splitSign (nptr.dropWhile fun c => c = ' '.toUInt8 ∨ c = '\t'.toUInt8)

def leadingDigits (nptr : List UInt8) : List UInt8 := (signedText nptr).2.takeWhile isDigit

lemma myStrtoll10_eq (nptr : List UInt8) :
    myStrtoll10 nptr = Strtoll.magnitude nptr (signedText nptr).1 (signedText nptr).2 := by
  unfold myStrtoll10 signedText
  cases nptr.dropWhile fun c => c = ' '.toUInt8 ∨ c = '\t'.toUInt8 with
  | nil => rfl
  | cons c s =>
    simp only [splitSign]
    split
    · rfl
    · split <;> rfl

/-- Blanks, a sign and the longest run of digits are read, whatever the text is. -/
theorem myStrtoll10_value (nptr : List UInt8) :
    (leadingDigits nptr = [] -> myStrtoll10 nptr = ⟨0, .edom, nptr⟩) ∧
      (leadingDigits nptr ≠ [] ->
        numeral 0 (leadingDigits nptr) ≤ maxMagnitude (signedText nptr).1 ->
        myStrtoll10 nptr =
          ⟨UInt64.ofInt (if (signedText nptr).1 then -numeral 0 (leadingDigits nptr)
            else numeral 0 (leadingDigits nptr)),
            if (signedText nptr).1 then .negative else .ok,
            (signedText nptr).2.dropWhile isDigit⟩) ∧
      (leadingDigits nptr ≠ [] ->
        maxMagnitude (signedText nptr).1 < numeral 0 (leadingDigits nptr) ->
        (myStrtoll10 nptr).error = .erange ∧
          (myStrtoll10 nptr).value = UInt64.ofNat (maxMagnitude (signedText nptr).1)) := by
  rw [leadingDigits, myStrtoll10_eq]
  generalize signedText nptr = t
  have hnone := Strtoll.magnitude_of_no_digit nptr t.1 (s := t.2)
  have hreads : t.2.takeWhile isDigit ≠ [] -> Strtoll.Reads t.1
      (numeral 0 (t.2.takeWhile isDigit)) (t.2.dropWhile isDigit)
      (Strtoll.magnitude nptr t.1 t.2) := by
    intro hne
    have hread : Strtoll.Reads t.1 _ _ _ := Strtoll.reads_magnitude nptr hne
      (fun c hc => mem_takeWhile_imp hc) (ends_dropWhile t.2)
    rwa [takeWhile_append_dropWhile] at hread
  generalize t.2.takeWhile isDigit = ds at hnone hreads
  refine ⟨hnone, fun hne hle => ?_, fun hne hlt => ?_⟩
  · rw [(hreads hne).1 hle, Strtoll.done]
    have hcast : UInt64.ofInt (numeral 0 ds) = UInt64.ofNat (numeral 0 ds) := by
      rw [← UInt64.toNat_inj, UInt64.ofInt, UInt64.toNat_ofNat', UInt64.toNat_ofNat']
      omega
    cases t.1 with
    | true => simp [hcast]
    | false => simp [hcast]
  · obtain ⟨s, hs⟩ := (hreads hne).2 hlt
    rw [hs]
    cases t.1 with
    | true => exact ⟨rfl, rfl⟩
    | false => exact ⟨rfl, rfl⟩

lemma digitOf_digVecUpper {n : Nat} (hn : n < 10) : digitOf (digVecUpper n) = n := by
  have hall : ∀ m < 10, digitOf (digVecUpper m) = m := by decide
  exact hall n hn

lemma digits_concat {ds : List UInt8} {n : Nat} (hds : AllDigits ds) (hnum : numeral 0 ds = n / 10) :
    AllDigits (ds ++ [digVecUpper (n % 10)]) ∧ numeral 0 (ds ++ [digVecUpper (n % 10)]) = n := by
  have hdigit := digitOf_digVecUpper (mod_lt n (show 0 < 10 by decide))
  constructor
  · intro c hc
    rcases mem_append.mp hc with hc | hc
    · exact hds c hc
    · rw [mem_singleton.mp hc]
      exact decide_eq_true (by omega)
  · rw [numeral_append, numeral_cons, numeral_nil]
    omega

lemma writeDigits_spec {room val k : Nat} (p : List UInt8) (hval : val < 10 ^ k)
    (hroom : k ≤ room) :
    ∃ ds, writeDigits room val p = ds ++ p ∧ AllDigits ds ∧ numeral 0 ds = val ∧
      ds.length ≤ k := by
  induction room generalizing val k p with
  | zero =>
    obtain rfl : k = 0 := by omega
    refine ⟨[], rfl, fun c hc => (nomatch hc), ?_, le_rfl⟩
    rw [numeral_nil]
    omega
  | succ room ih =>
    rw [writeDigits]
    split
    · rename_i hzero
      exact ⟨[], rfl, fun c hc => (nomatch hc), hzero.symm, zero_le k⟩
    · cases k with
      | zero =>
        omega
      | succ k =>
        obtain ⟨ds, hrun, hds, hnum, hlen⟩ := ih (digVecUpper (val % 10) :: p)
          (show val / 10 < 10 ^ k by omega) (by omega)
        obtain ⟨hall, hvalue⟩ := digits_concat hds hnum
        refine ⟨ds ++ [digVecUpper (val % 10)], ?_, hall, hvalue, by simpa using hlen⟩
        rw [hrun, append_assoc, singleton_append]

lemma longlong10ToStr_spec (val : UInt64) :
    IsDecimal (longlong10ToStr val) val.toNat ∧ (longlong10ToStr val).length ≤ 20 := by
  unfold longlong10ToStr
  split
  · rename_i hzero
    subst hzero
    refine ⟨⟨by decide, fun c hc => ?_, by decide⟩, by decide⟩
    rw [mem_singleton.mp hc]
    decide
  · rename_i hzero
    have hlt := val.toNat_lt
    obtain ⟨ds, hrun, hds, hnum, hlen⟩ := writeDigits_spec [] (show val.toNat < 10 ^ 20 by omega)
      (show 20 ≤ 64 by decide)
    rw [hrun, append_nil]
    refine ⟨⟨?_, hds, hnum⟩, hlen⟩
    rintro rfl
    apply hzero
    rw [← UInt64.toNat_inj]
    exact hnum.symm

lemma int10ToStr_spec (val : UInt32) :
    IsDecimal (int10ToStr val) val.toNat ∧ (int10ToStr val).length ≤ 10 := by
  have hlt := val.toNat_lt
  obtain ⟨ds, hrun, hds, hnum, hlen⟩ := writeDigits_spec [digVecUpper (val.toNat % 10)]
    (show val.toNat / 10 < 10 ^ 9 by omega) (show 9 ≤ 63 by decide)
  rw [int10ToStr, hrun]
  obtain ⟨hall, hvalue⟩ := digits_concat hds hnum
  refine ⟨⟨by simp, hall, hvalue⟩, ?_⟩
  rw [length_append]
  exact succ_le_succ hlen

/-- A number that either function writes is read back. -/
theorem myStrtoll10_reads_back (val : UInt64) (n : UInt32) :
    myStrtoll10 (longlong10ToStr val) = ⟨val, .ok, []⟩ ∧
      myStrtoll10 (int10ToStr n) = ⟨n.toUInt64, .ok, []⟩ := by
  rw [← append_nil (longlong10ToStr val), ← append_nil (int10ToStr n)]
  exact ⟨myStrtoll10_decimal (longlong10ToStr_spec val).1 rfl,
    myStrtoll10_decimal (int10ToStr_spec n).1 rfl⟩

end Strings
