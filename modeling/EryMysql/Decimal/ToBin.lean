import EryMysql.Lib.Bytes
import EryMysql.Decimal.Cmp
import EryMysql.Decimal.LeadingZeroes

/-!
# The binary image of a decimal

`decimal2bin` writes a decimal as a string of `decimal_bin_size` bytes. The digits
on each side of the point go in groups of nine, four bytes to a group; the groups
at both ends hold fewer digits and take fewer bytes. Every byte of a negative
number is inverted, and the top bit of every image is.
-/

namespace Decimal

open WordArray Bytes DecimalT List Int Nat

/-- Bytes of the `digits` digits on one side of the point. -/
def partSize (digits : Nat) : Nat := digits / digPerDec1 * 4 + dig2bytes (digits % digPerDec1)

def decimalBinSize (precision scale : Nat) : Nat := partSize (precision - scale) + partSize scale

/-- How the fraction is copied: whole words, digits of the last group, and the
size up to which the image is padded. -/
structure FracPlan where
  frac1 : Nat
  frac1x : Nat
  fsize0 : Nat
  truncated : Bool

def fracPlan (fromFrac frac : Nat) : FracPlan :=
  let frac0 := frac / digPerDec1
  let frac0x := frac % digPerDec1
  let frac1 := fromFrac / digPerDec1
  let frac1x := fromFrac % digPerDec1
  let fsize0 := partSize frac
  let fsize1 := partSize fromFrac
  if fsize0 < fsize1 then ⟨frac0, frac0x, fsize0, true⟩
  else if fsize1 < fsize0 ∧ frac1x ≠ 0 then
    if frac0 = frac1 then ⟨frac1, frac0x, fsize1, false⟩ else ⟨frac1 + 1, 0, fsize0, false⟩
  else ⟨frac1, frac1x, fsize0, false⟩

def packFirst (buf : Words) (mask : Bool) (p : Int) (intg1x : Nat) : Option (List Nat) :=
  if intg1x ≠ 0 then do
    let x ← buf.load p
    some (store (dig2bytes intg1x) (xorMask mask (x % powers10 intg1x)))
  else some []

/-- `for (; buf1 < stop1; to+= sizeof(dec1)) mi_int4store(to, *buf1++ ^ mask)` -/
def packWords (buf : Words) (mask : Bool) : Nat -> Int -> Option (List Nat)
  | 0, _ => some []
  | n + 1, p => do
    let x ← buf.load p
    let rest ← packWords buf mask n (p + 1)
    some (store 4 (xorMask mask x) ++ rest)

/-- `while (frac1x < lim && dig2bytes[frac1x] == i) frac1x++`, with `n = lim - frac1x`. -/
def widenGroup (i : Nat) : Nat -> Nat -> Nat
  | 0, frac1x => frac1x
  | n + 1, frac1x => if dig2bytes frac1x = i then widenGroup i n (frac1x + 1) else frac1x

def packLast (buf : Words) (mask : Bool) (p : Int) (frac1 frac1x frac : Nat) : Option (List Nat) :=
  if frac1x ≠ 0 then do
    let i := dig2bytes frac1x
    let lim := if frac1 < frac / digPerDec1 then digPerDec1 else frac % digPerDec1
    let x ← buf.load p
    some (store i
      (xorMask mask (x / powers10 (digPerDec1 - widenGroup i (lim - frac1x) frac1x))))
  else some []

/-- The bytes of `digits` integer digits from word `p` on and of the fraction,
after `pad` bytes of padding. -/
def packGroups (buf : Words) (mask : Bool) (p : Int) (pad digits fromFrac frac total : Nat) :
    Option (List Nat) := do
  let plan := fracPlan fromFrac frac
  let intg1 := digits / digPerDec1
  let intg1x := digits % digPerDec1
  let first ← packFirst buf mask p intg1x
  let p := p + (if intg1x ≠ 0 then 1 else 0)
  let body ← packWords buf mask (intg1 + plan.frac1) p
  let last ← packLast buf mask (p + (intg1 + plan.frac1 : Nat)) plan.frac1 plan.frac1x frac
  let out := List.replicate pad (maskByte mask) ++ first ++ body ++ last
  let rest := min (plan.fsize0 - partSize fromFrac) (total - out.length)
  some (out ++ List.replicate rest (maskByte mask))

def decimal2bin (src : DecimalT) (precision frac : Nat) : Option (DecErr × List Nat) := do
  let intg := precision - frac
  let total := decimalBinSize precision frac
  let (fromIntg, p) ← removeLeadingZeroes src.buf src.intg
  let zero := fromIntg + partSize src.frac = 0
  let mask := if zero then false else src.sign
  -- The number zero is read from the mask itself.
  let buf := if zero then Words.ofList [0] else src.buf
  let p := if zero then 0 else p
  let overflow := (if zero then 1 else intg) < fromIntg
  let shift : Int := fromIntg / digPerDec1 - intg / digPerDec1 +
    (if 0 < fromIntg % digPerDec1 then 1 else 0) - (if 0 < intg % digPerDec1 then 1 else 0)
  let out ← (if overflow then
      packGroups buf mask (p + shift) 0 intg src.frac frac total
    else
      packGroups buf mask p (partSize intg - partSize fromIntg) fromIntg src.frac frac total)
  let error : DecErr := if (fracPlan src.frac frac).truncated then .truncated
    else if overflow then .overflow else .ok
  if out ≠ [] ∧ out.length = total then some (error, flipTop out) else none

lemma dig2bytes_eq (x : Nat) : dig2bytes x = min ((x + 1) / 2) 4 := by
  rcases x with _ | _ | _ | _ | _ | _ | _ | x
  all_goals simp [dig2bytes]
  omega

lemma two_mul_pow_le : ∀ x ≤ digPerDec1, 0 < x -> 2 * (10 : Int) ^ x ≤ 256 ^ dig2bytes x := by
  decide

lemma partSize_mono {m n : Nat} (h : m ≤ n) : partSize m ≤ partSize n := by
  simp only [partSize, dig2bytes_eq, digPerDec1]
  omega

namespace DecimalT

/-- The word at a distance from the point; beyond the words there are zeros. -/
def wordAt (d : DecimalT) (j : Int) : Int :=
  if 0 ≤ d.intgWords + j ∧ d.intgWords + j < d.words then d.buf.word (d.intgWords + j) else 0

lemma wordAt_eq (d : DecimalT) {j : Int} (h0 : 0 ≤ d.intgWords + j)
    (h1 : d.intgWords + j < d.words) : d.wordAt j = d.buf.word (d.intgWords + j) :=
  if_pos ⟨h0, h1⟩

lemma wordAt_eq_zero (d : DecimalT) {j : Int} (h : d.intgWords + j < 0 ∨ d.fracWords ≤ j) :
    d.wordAt j = 0 := by
  apply if_neg
  unfold words
  omega

lemma Legal.digits_wordAt {d : DecimalT} (h : d.Legal) (s : Int) (n : Nat) :
    Digits digBase d.wordAt s n := by
  intro j _ _
  unfold wordAt
  split
  · rename_i hj
    exact h.digits _ hj.1 (by omega)
  · exact ⟨le_rfl, digBase_pos⟩

lemma Legal.setFrac {d : DecimalT} (h : d.Legal) {frac : Nat} (hf : frac ≤ d.frac) :
    Legal { d with frac } := by
  have hwords : words { d with frac } ≤ d.words := by
    simp only [words, fracWords, intgWords, roundUp_eq]
    omega
  exact ⟨h.pos, hwords.trans h.room, h.alloc, h.digits.mono le_rfl (by omega), h.leading⟩

lemma val_word_eq (d : DecimalT) (β : Int) {p : Int} {m f : Nat} (hp : 0 ≤ p)
    (hpm : p + m = d.intgWords) (hf : f ≤ d.fracWords) :
    val β d.buf.word p (m + f) = val β d.wordAt (-m) (m + f) := by
  apply val_shift
  intro i hi
  rw [d.wordAt_eq (by omega) (by unfold words; omega)]
  congr 1
  omega

/-- The groups of a decimal as one number, `m` words of it before the point. -/
def packed (d : DecimalT) (m frac : Nat) : Int :=
  val (256 ^ 4) d.wordAt (-m) (m + frac / digPerDec1) * 256 ^ dig2bytes (frac % digPerDec1) +
    d.wordAt (frac / digPerDec1 : Nat) / 10 ^ (digPerDec1 - frac % digPerDec1)

end DecimalT

structure IntgLeft (d : DecimalT) (digits : Nat) (p : Int) : Prop where
  nonneg : 0 ≤ p
  start : p + roundUp digits = d.intgWords
  zero : ∀ i, 0 ≤ i -> i < p -> d.buf.word i = 0
  first_lt : digits % digPerDec1 ≠ 0 -> d.buf.word p < 10 ^ (digits % digPerDec1)
  le_first : 0 < digits -> 10 ^ ((digits - 1) % digPerDec1) ≤ d.buf.word p

variable {d : DecimalT} {x digits frac : Nat} {p : Int} {precision scale : Nat} {n : Nat}

lemma removeLeadingZeroes_intg (h : d.Legal) :
    ∃ digits p, removeLeadingZeroes d.buf d.intg = some (digits, p) ∧ IntgLeft d digits p := by
  have hsize := h.room.trans h.alloc
  have hw : d.words = d.intgWords + d.fracWords := rfl
  rcases removeLeadingZeroes_spec d.buf d.intg (show d.intgWords ≤ _ by omega)
    (h.digits.mono (m := d.intgWords) le_rfl (by omega)) h.leading with
    ⟨hrun, hzero⟩ | ⟨k, e, hk, he, hrun, hzero, hle, hlt⟩
  · exact ⟨0, _, hrun, by omega, by simp [roundUp_eq, intgWords], hzero, by simp, by simp⟩
  · change k < d.intgWords at hk
    set n := digPerDec1 * (d.intgWords - k - 1) + e + 1 with hn
    have hround : roundUp n = d.intgWords - k := by
      rw [roundUp_eq]
      unfold digPerDec1 at *
      omega
    have hmod : n % digPerDec1 = (e + 1) % digPerDec1 := by
      rw [hn, add_assoc, mul_add_mod]
    refine ⟨_, k, hrun, by omega, ?_, hzero, fun hne => ?_, fun _ => ?_⟩
    · change (k : Int) + roundUp n = _
      omega
    · change n % digPerDec1 ≠ 0 at hne
      change _ < (10 : Int) ^ (n % digPerDec1)
      rw [hmod] at hne ⊢
      rw [mod_eq_of_lt (by unfold digPerDec1 at *; omega)]
      exact hlt
    · rw [Nat.add_sub_cancel, Nat.mul_add_mod, Nat.mod_eq_of_lt he]
      exact hle

lemma digBase_le_word : digBase ≤ 256 ^ 4 := by decide

lemma packWords_spec (buf : Words) (mask : Bool) (n : Nat) (p : Int) (h0 : 0 ≤ p)
    (h1 : p + n ≤ buf.size) (hd : Digits (256 ^ 4) buf.word p n) :
    packWords buf mask n p =
      some (store (4 * n) (xorMask mask (val (256 ^ 4) buf.word p n))) := by
  induction n generalizing p with
  | zero => rfl
  | succ n ih =>
    have htail := hd.mono (t := p + 1) (m := n) (by omega) (by omega)
    have hlt := val_lt (by decide) htail
    rw [← pow_mul] at hlt
    simp only [packWords, buf.load_eq h0 (show p < buf.size by omega),
      ih (p + 1) (by omega) (by omega) htail, some_bind]
    rw [store_append mask 4 (4 * n) _ (val_nonneg (by decide) htail) hlt, val_cons, ← pow_mul,
      mul_succ, add_comm (4 * n)]

lemma dig2bytes_pow_le (h9 : x ≤ digPerDec1) : (10 : Int) ^ x ≤ 256 ^ dig2bytes x := by
  rcases Nat.eq_zero_or_pos x with rfl | h0
  · decide
  · have := two_mul_pow_le x h9 h0
    have : (0 : Int) < 10 ^ x := by positivity
    linarith

lemma pack_intg (h : d.Legal) (hl : IntgLeft d digits p) (mask : Bool) {f : Nat}
    (hf : f ≤ d.fracWords) :
    ∃ first body, packFirst d.buf mask p (digits % digPerDec1) = some first ∧
      packWords d.buf mask (digits / digPerDec1 + f)
        (p + if digits % digPerDec1 ≠ 0 then 1 else 0) = some body ∧
      first ++ body = store (partSize digits + 4 * f)
        (xorMask mask (val (256 ^ 4) d.wordAt (-roundUp digits) (roundUp digits + f))) ∧
      val (256 ^ 4) d.wordAt (-roundUp digits) (roundUp digits + f) <
        256 ^ (partSize digits + 4 * f) := by
  have hsize := h.room.trans h.alloc
  have hw : d.words = d.intgWords + d.fracWords := rfl
  have hp := hl.nonneg
  have hstart := hl.start
  have hround := roundUp_eq digits
  have hwords := h.digits.le digBase_le_word
  rw [← d.val_word_eq (256 ^ 4) hp hstart hf]
  by_cases hx : digits % digPerDec1 = 0
  · have hm : roundUp digits = digits / digPerDec1 := by
      unfold digPerDec1 at *
      omega
    have hd := hwords.mono (t := p) (m := digits / digPerDec1 + f) hp (by omega)
    have hlt := val_lt (by decide) hd
    have hpart : partSize digits + 4 * f = 4 * (digits / digPerDec1 + f) := by
      rw [partSize, hx, dig2bytes]
      omega
    have hbody := packWords_spec d.buf mask _ p hp (by omega) hd
    rw [← pow_mul] at hlt
    rw [if_neg (by simpa using hx), add_zero, hm, hpart]
    exact ⟨[], _, by simp [packFirst, hx], hbody, nil_append _, hlt⟩
  · have hm : roundUp digits = digits / digPerDec1 + 1 := by
      unfold digPerDec1 at *
      omega
    have hpos : 0 < roundUp digits := hm ▸ succ_pos _
    have hfirst := hl.first_lt hx
    have hfirst0 := (h.digits p hp (by omega)).1
    have hbytes := dig2bytes_pow_le (mod_lt digits (show 0 < digPerDec1 by decide)).le
    have hd := hwords.mono (t := p + 1) (m := digits / digPerDec1 + f) (by omega) (by omega)
    have hlt := val_lt (by decide) hd
    have hpart : partSize digits + 4 * f =
        dig2bytes (digits % digPerDec1) + 4 * (digits / digPerDec1 + f) := by
      rw [partSize]
      omega
    have hval := val_cons (256 ^ 4) d.buf.word p (digits / digPerDec1 + f)
    have hbody := packWords_spec d.buf mask _ (p + 1) (by omega) (by omega) hd
    have hmul : (d.buf.word p + 1) * (256 ^ 4) ^ (digits / digPerDec1 + f) ≤
        256 ^ dig2bytes (digits % digPerDec1) * (256 ^ 4) ^ (digits / digPerDec1 + f) :=
      mul_le_mul_of_nonneg_right (by linarith) (by positivity)
    rw [← pow_mul] at hlt hmul hval
    rw [if_pos hx, hm, add_right_comm, hpart, hval]
    refine ⟨_, _, ?_, hbody, store_append mask _ _ (d.buf.word p) (val_nonneg (by decide) hd) hlt, ?_⟩
    · rw [packFirst, if_pos hx, d.buf.load_eq hp (by omega)]
      simp [powers10, emod_eq_of_lt hfirst0 hfirst]
    · rw [pow_add]
      linarith

lemma widenGroup_eq {i : Nat} (n : Nat) (h : ∀ j, x ≤ j -> j < x + n -> dig2bytes j = i) :
    widenGroup i n x = x + n := by
  induction n generalizing x with
  | zero => rfl
  | succ n ih =>
    rw [widenGroup, if_pos (h x le_rfl (by omega)), ih fun j h0 h1 => h j (by omega) (by omega)]
    omega

lemma packed_of_words (d : DecimalT) (m : Nat) {f frac : Nat} (hf : d.fracWords ≤ f)
    (hfrac : f ≤ frac / digPerDec1) :
    val (256 ^ 4) d.wordAt (-m) (m + f) *
      256 ^ (4 * (frac / digPerDec1 - f) + dig2bytes (frac % digPerDec1)) = d.packed m frac := by
  have hzero : ∀ j : Int, f ≤ j -> d.wordAt j = 0 := fun j hj => d.wordAt_eq_zero (Or.inr (by omega))
  obtain ⟨k, hk⟩ := Nat.exists_eq_add_of_le hfrac
  have hval : val (256 ^ 4) d.wordAt (-m) (m + f + k) =
      val (256 ^ 4) d.wordAt (-m) (m + f) * (256 ^ 4) ^ k :=
    val_trailing_zeros fun i h0 _ => hzero i (by omega)
  rw [packed, hzero _ (by omega), zero_ediv, add_zero, hk, ← add_assoc, hval,
    Nat.add_sub_cancel_left, pow_add _ (4 * k), pow_mul, mul_assoc]

structure FracTail (d : DecimalT) (mask : Bool) (frac m : Nat) (plan : FracPlan) (b c : Nat)
    (g : Int) : Prop where
  truncated : plan.truncated = false
  words : plan.frac1 ≤ d.fracWords
  run : packLast d.buf mask (d.intgWords + plan.frac1) plan.frac1 plan.frac1x frac =
    some (store b (xorMask mask g))
  nonneg : 0 ≤ g
  lt : g < 256 ^ b
  size : 4 * plan.frac1 + b + c = partSize frac
  rest : c ≤ plan.fsize0 - partSize d.frac
  packed_eq : (val (256 ^ 4) d.wordAt (-m) (m + plan.frac1) * 256 ^ b + g) * 256 ^ c =
    d.packed m frac

lemma fracTail_words (mask : Bool) (m : Nat) {fsize0 : Nat}
    (hle : d.fracWords ≤ frac / digPerDec1)
    (hrest : partSize frac - 4 * d.fracWords ≤ fsize0 - partSize d.frac) :
    FracTail d mask frac m ⟨d.fracWords, 0, fsize0, false⟩ 0 (partSize frac - 4 * d.fracWords) 0 where
  truncated := rfl
  words := le_rfl
  run := by simp [packLast, store]
  nonneg := le_rfl
  lt := by simp
  size := by
    simp only [partSize]
    omega
  rest := hrest
  packed_eq := by
    rw [pow_zero, mul_one, add_zero, ← packed_of_words d m le_rfl hle, partSize]
    congr 2
    omega

lemma packLast_eq (h : d.Legal) (mask : Bool) {f x frac w : Nat} (hf : f < d.fracWords)
    (hx : x ≠ 0)
    (hw : x + ((if f < frac / digPerDec1 then digPerDec1 else frac % digPerDec1) - x) = w)
    (hbytes : ∀ j, x ≤ j -> j < w -> dig2bytes j = dig2bytes x) :
    packLast d.buf mask (d.intgWords + f) f x frac =
      some (store (dig2bytes x) (xorMask mask (d.wordAt f / 10 ^ (digPerDec1 - w)))) := by
  have hsize := h.room.trans h.alloc
  have hwords : d.words = d.intgWords + d.fracWords := rfl
  have hwiden := widenGroup_eq _ (fun j h0 h1 => hbytes j h0 (hw ▸ h1))
  rw [packLast, if_pos hx, d.buf.load_eq (by omega) (by omega), d.wordAt_eq (by omega) (by omega)]
  simp [hwiden, hw, powers10]

lemma DecimalT.Legal.group_lt (h : d.Legal) (j : Int) (hx : x ≤ digPerDec1) :
    0 ≤ d.wordAt j / 10 ^ (digPerDec1 - x) ∧ d.wordAt j / 10 ^ (digPerDec1 - x) < 10 ^ x := by
  have hword := h.digits_wordAt j 1 j le_rfl (by omega)
  have hbase : digBase = 10 ^ x * 10 ^ (digPerDec1 - x) := by
    rw [← pow_add, Nat.add_sub_cancel' hx]
    rfl
  exact ⟨ediv_nonneg hword.1 (by positivity),
    Int.ediv_lt_of_lt_mul (by positivity) (hbase ▸ hword.2)⟩

lemma fracTail_group (h : d.Legal) (mask : Bool) (m : Nat) (fsize0 : Nat)
    (hlt : frac / digPerDec1 < d.fracWords) (hx : x ≠ 0) (hle : x ≤ frac % digPerDec1)
    (hbytes : dig2bytes x = dig2bytes (frac % digPerDec1)) :
    FracTail d mask frac m ⟨frac / digPerDec1, x, fsize0, false⟩
      (dig2bytes (frac % digPerDec1)) 0
      (d.wordAt (frac / digPerDec1 : Nat) / 10 ^ (digPerDec1 - frac % digPerDec1)) where
  truncated := rfl
  words := hlt.le
  run := by
    rw [← hbytes]
    apply packLast_eq h mask hlt hx
    · simp [hle]
    · intro j h0 h1
      rw [dig2bytes_eq] at hbytes ⊢
      rw [dig2bytes_eq] at hbytes ⊢
      omega
  nonneg := (h.group_lt _ (mod_lt _ (by decide)).le).1
  lt := (h.group_lt _ (mod_lt _ (by decide)).le).2.trans_le
    (dig2bytes_pow_le (mod_lt _ (by decide)).le)
  size := by
    simp only [partSize]
    omega
  rest := zero_le _
  packed_eq := by rw [pow_zero, mul_one, packed]

lemma fracTail_word (h : d.Legal) (mask : Bool) (m : Nat) {f x : Nat} (fsize0 : Nat)
    (hf : f + 1 = d.fracWords) (hx : x ≠ 0) (hx9 : x ≤ digPerDec1) (hbytes : dig2bytes x = 4)
    (hfrac : d.fracWords = frac / digPerDec1) (hlast : frac % digPerDec1 = 0) :
    FracTail d mask frac m ⟨f, x, fsize0, false⟩ 4 0 (d.wordAt f) where
  truncated := rfl
  words := by simp; omega
  run := by
    have hw : x + ((if f < frac / digPerDec1 then digPerDec1 else frac % digPerDec1) - x) =
        digPerDec1 := by
      rw [if_pos (by omega)]
      omega
    have hsame : ∀ j, x ≤ j -> j < digPerDec1 -> dig2bytes j = dig2bytes x := by
      intro j h0 h1
      rw [dig2bytes_eq] at hbytes ⊢
      rw [dig2bytes_eq]
      omega
    have hrun := packLast_eq h mask (by omega) hx hw hsame
    simpa [hbytes] using hrun
  nonneg := (h.digits_wordAt _ 1 _ le_rfl (by omega)).1
  lt := (h.digits_wordAt _ 1 _ le_rfl (by omega)).2.trans_le digBase_le_word
  size := by
    simp only [partSize, hlast, dig2bytes]
    omega
  rest := zero_le _
  packed_eq := by
    have hpacked := packed_of_words d m le_rfl hfrac.le
    rw [← hfrac, hlast, ← hf, ← Nat.add_assoc, val_succ] at hpacked
    simpa [dig2bytes] using hpacked

lemma fracPlan_tail (h : d.Legal) (mask : Bool) (hf : d.frac ≤ frac) (m : Nat) :
    ∃ b c g, FracTail d mask frac m (fracPlan d.frac frac) b c g := by
  have hmono := partSize_mono hf
  have hwords : d.fracWords = (d.frac + 8) / 9 := roundUp_eq _
  by_cases hx : d.frac % digPerDec1 = 0
  · have hplan : fracPlan d.frac frac = ⟨d.fracWords, 0, partSize frac, false⟩ := by
      have hfrac1 : d.frac / digPerDec1 = d.fracWords := by
        unfold digPerDec1 at *
        omega
      simp [fracPlan, hx, not_lt.mpr hmono, hfrac1]
    rw [hplan]
    refine ⟨_, _, _, fracTail_words mask m ?_ ?_⟩
    · unfold digPerDec1 at *
      omega
    · simp only [partSize, dig2bytes_eq, digPerDec1] at *
      omega
  have hfrac1 : d.frac / digPerDec1 + 1 = d.fracWords := by
    unfold digPerDec1 at *
    omega
  rcases hmono.lt_or_eq with hlt | heq
  · by_cases h0 : frac / digPerDec1 = d.frac / digPerDec1
    · have hplan : fracPlan d.frac frac =
          ⟨frac / digPerDec1, frac % digPerDec1, partSize d.frac, false⟩ := by
        simp [fracPlan, hlt, hlt.not_gt, hx, h0]
      rw [hplan]
      refine ⟨_, _, _, fracTail_group h mask m _ ?_ ?_ le_rfl rfl⟩
      iterate 2
        unfold digPerDec1 at *
        omega
    · have hplan : fracPlan d.frac frac = ⟨d.fracWords, 0, partSize frac, false⟩ := by
        simp [fracPlan, hlt, hlt.not_gt, hx, h0, hfrac1]
      rw [hplan]
      refine ⟨_, _, _, fracTail_words mask m ?_ ?_⟩
      · unfold digPerDec1 at *
        omega
      · simp only [partSize, dig2bytes_eq] at *
        omega
  · have hplan : fracPlan d.frac frac =
        ⟨d.frac / digPerDec1, d.frac % digPerDec1, partSize frac, false⟩ := by
      simp [fracPlan, heq]
    rw [hplan]
    by_cases h0 : frac / digPerDec1 = d.frac / digPerDec1
    · rw [← h0]
      refine ⟨_, _, _, fracTail_group h mask m _ ?_ hx ?_ ?_⟩
      · omega
      · unfold digPerDec1 at *
        omega
      · simp only [partSize] at heq
        omega
    · refine ⟨_, _, _, fracTail_word h mask m _ hfrac1 hx (mod_lt _ (by decide)).le ?_ ?_ ?_⟩
      iterate 3
        simp only [partSize, dig2bytes_eq] at *
        omega

lemma packGroups_spec (h : d.Legal) (hl : IntgLeft d digits p) (mask : Bool) (hf : d.frac ≤ frac)
    (pad : Nat) :
    packGroups d.buf mask p pad digits d.frac frac (pad + partSize digits + partSize frac) =
      some (store (pad + partSize digits + partSize frac)
        (xorMask mask (d.packed (roundUp digits) frac))) := by
  obtain ⟨b, c, g, ht⟩ := fracPlan_tail h mask hf (roundUp digits)
  obtain ⟨plan, hplan⟩ : ∃ plan, plan = fracPlan d.frac frac := ⟨_, rfl⟩
  rw [← hplan] at ht
  obtain ⟨first, body, hfirst, hbody, hjoin, hlt⟩ := pack_intg h hl mask ht.words
  have hnonneg := val_nonneg (by decide) ((h.digits_wordAt (-roundUp digits)
    (roundUp digits + plan.frac1)).le digBase_le_word)
  have hlast : p + (if digits % digPerDec1 ≠ 0 then 1 else 0) +
      (digits / digPerDec1 + plan.frac1 : Nat) = d.intgWords + plan.frac1 := by
    have hstart := hl.start
    rw [roundUp_eq] at hstart
    unfold digPerDec1
    split <;> push_cast <;> omega
  have hout : replicate pad (maskByte mask) ++ first ++ body ++ store b (xorMask mask g) =
      store (pad + (partSize digits + 4 * plan.frac1) + b) (xorMask mask
        (val (256 ^ 4) d.wordAt (-roundUp digits) (roundUp digits + plan.frac1) * 256 ^ b + g)) := by
    rw [append_assoc _ first, hjoin, replicate_maskByte, store_append mask _ _ _ hnonneg hlt,
      store_append mask _ _ _ ht.nonneg ht.lt, zero_mul, zero_add]
  have hrest : min (plan.fsize0 - partSize d.frac) (pad + partSize digits + partSize frac -
      (pad + (partSize digits + 4 * plan.frac1) + b)) = c := by
    have hsize := ht.size
    have hle := ht.rest
    omega
  simp only [packGroups, ← hplan, hfirst, hbody, hlast, ht.run, hout, some_bind, length_store, hrest]
  rw [replicate_maskByte, store_append mask _ _ _ le_rfl (by positivity), add_zero, ht.packed_eq]
  have hsize := ht.size
  congr 2
  omega

lemma DecimalT.mag_lt_iff (d : DecimalT) :
    d.mag < 10 ^ n ↔ d.units < 10 ^ n * digBase ^ d.fracWords := by
  have hbase : (0 : ℚ) < (digBase : ℚ) ^ d.fracWords := pow_pos (by exact_mod_cast digBase_pos) _
  rw [mag, div_lt_iff₀ hbase]
  exact_mod_cast Iff.rfl

lemma IntgLeft.digits_le (h : d.Legal) (hl : IntgLeft d digits p)
    (hmag : d.mag < 10 ^ n) : digits ≤ n := by
  by_contra hlt
  have hp := hl.nonneg
  have hstart := hl.start
  have hfirst := hl.le_first (by omega)
  have hround := roundUp_eq digits
  have hw : d.words = d.intgWords + d.fracWords := rfl
  obtain ⟨k, hk⟩ : ∃ k, d.words = p.toNat + (k + 1) := ⟨d.words - p.toNat - 1, by omega⟩
  have hunits : 10 ^ ((digits - 1) % digPerDec1) * digBase ^ k ≤ d.units := by
    have htail := val_nonneg digBase_pos.le
      (h.digits.mono (t := p + 1) (m := k) (by omega) (by omega))
    have hmul := mul_le_mul_of_nonneg_right hfirst (pow_nonneg digBase_pos.le k)
    rw [units, hk, val_leading_zeros (t := p) (by omega) (fun i h0 h1 => hl.zero i h0 h1), val_cons]
    linarith
  have hexp : (10 : Int) ^ ((digits - 1) % digPerDec1) * digBase ^ k =
      10 ^ (digits - 1) * digBase ^ d.fracWords := by
    have hbase : ∀ n : Nat, digBase ^ n = 10 ^ (digPerDec1 * n) := fun n => by
      rw [pow_mul]
      rfl
    rw [hbase, hbase, ← pow_add, ← pow_add]
    congr 1
    unfold digPerDec1
    omega
  have hpow : (10 : Int) ^ n ≤ 10 ^ (digits - 1) := pow_le_pow_right₀ (by decide) (by omega)
  have hbound := d.mag_lt_iff.mp hmag
  have := mul_le_mul_of_nonneg_right hpow (pow_nonneg digBase_pos.le d.fracWords)
  linarith

lemma IntgLeft.wordAt_eq_zero (hl : IntgLeft d digits p) {j : Int} (hj : j < -roundUp digits) :
    d.wordAt j = 0 := by
  have hstart := hl.start
  unfold wordAt
  split
  · rename_i hin
    exact hl.zero _ hin.1 (by omega)
  · rfl

lemma IntgLeft.front_lt (hl : IntgLeft d digits p) (hn : digits ≤ n) :
    d.wordAt (-(n / digPerDec1 + 1 : Nat)) < 10 ^ (n % digPerDec1) := by
  have hround := roundUp_eq digits
  by_cases hm : roundUp digits = n / digPerDec1 + 1
  · have hdigits : digits % digPerDec1 ≠ 0 ∧ digits % digPerDec1 ≤ n % digPerDec1 := by
      unfold digPerDec1 at *
      omega
    have hstart := hl.start
    have hp := hl.nonneg
    have hpos : 0 < roundUp digits := hm ▸ succ_pos _
    have hfirst := hl.first_lt hdigits.1
    have hpow : (10 : Int) ^ (digits % digPerDec1) ≤ 10 ^ (n % digPerDec1) :=
      pow_le_pow_right₀ (by decide) hdigits.2
    rw [d.wordAt_eq (by omega) (by unfold words; omega),
      show (d.intgWords : Int) + -(n / digPerDec1 + 1 : Nat) = p by omega]
    exact hfirst.trans_le hpow
  · rw [hl.wordAt_eq_zero (by unfold digPerDec1 at *; omega)]
    positivity

lemma val_wordAt_of_zero (d : DecimalT) (β : Int) {m n : Nat} (f : Nat) (hmn : m ≤ n)
    (hzero : ∀ j : Int, j < -m -> d.wordAt j = 0) :
    val β d.wordAt (-n) (n + f) = val β d.wordAt (-m) (m + f) := by
  obtain ⟨k, rfl⟩ := Nat.exists_eq_add_of_le' hmn
  rw [add_assoc, val_leading_zeros (t := -m) (by omega) (fun i _ h1 => hzero i h1)]

lemma half_append {T P g c : Int} (hT : 2 * T < P) (hg0 : 0 ≤ g) (hg : 2 * g < c) :
    2 * (T * c + g) < P * c := by
  have hmul : (2 * T + 1) * c ≤ P * c := mul_le_mul_of_nonneg_right hT (by linarith)
  linarith

lemma half_words (h : d.Legal) {s : Int} {P : Int} (h0 : 2 * d.wordAt s < P) (k : Nat) :
    2 * val (256 ^ 4) d.wordAt s (k + 1) < P * 256 ^ (4 * k) := by
  induction k with
  | zero => simpa using h0
  | succ k ih =>
    have hword := h.digits_wordAt (s + (k + 1 : Nat)) 1 _ le_rfl (by omega)
    have hstep := half_append ih hword.1 (c := 256 ^ 4) (by unfold digBase at hword; omega)
    rwa [mul_succ, pow_add, ← mul_assoc]

lemma half_group (hx : x ≤ digPerDec1) {g : Int} (hg : g < 10 ^ x) :
    2 * g < 256 ^ dig2bytes x := by
  rcases Nat.eq_zero_or_pos x with rfl | h0
  · simp [dig2bytes] at *
    omega
  · have := two_mul_pow_le x hx h0
    linarith

/-- The number the image of a decimal with `n` integer digits holds: the top bit
is free for the sign. -/
lemma packed_bounds (h : d.Legal) {n frac : Nat}
    (hfront : d.wordAt (-(n / digPerDec1 + 1 : Nat)) < 10 ^ (n % digPerDec1))
    (hpos : 0 < partSize n + partSize frac) :
    0 ≤ d.packed (n / digPerDec1 + 1) frac ∧
      2 * (d.packed (n / digPerDec1 + 1) frac + 1) ≤ 256 ^ (partSize n + partSize frac) := by
  have hgroup := h.group_lt (frac / digPerDec1 : Nat) (mod_lt frac (show 0 < digPerDec1 by decide)).le
  have hval := val_nonneg (by decide) ((h.digits_wordAt (-(n / digPerDec1 + 1 : Nat))
    (n / digPerDec1 + 1 + frac / digPerDec1)).le digBase_le_word)
  have hwords := half_words h (half_group (mod_lt n (show 0 < digPerDec1 by decide)).le hfront)
    (n / digPerDec1 + frac / digPerDec1)
  have hall := half_append hwords hgroup.1
    (half_group (mod_lt frac (show 0 < digPerDec1 by decide)).le hgroup.2)
  have hsize : partSize n + partSize frac = dig2bytes (n % digPerDec1) +
      4 * (n / digPerDec1 + frac / digPerDec1) + dig2bytes (frac % digPerDec1) := by
    unfold partSize
    omega
  constructor
  · exact add_nonneg (mul_nonneg hval (by positivity)) hgroup.1
  · have hlt : 2 * d.packed (n / digPerDec1 + 1) frac < 256 ^ (partSize n + partSize frac) := by
      rw [hsize, pow_add, pow_add, packed, add_right_comm]
      exact hall
    obtain ⟨k, hk⟩ := exists_eq_succ_of_ne_zero hpos.ne'
    rw [hk] at hlt ⊢
    omega

structure Storable (d : DecimalT) (precision scale : Nat) : Prop where
  pos : 1 ≤ precision
  le : scale ≤ precision
  intg : d.mag < 10 ^ (precision - scale)
  frac : d.frac ≤ scale

def DecimalT.groups (d : DecimalT) (precision scale : Nat) : Int :=
  d.packed ((precision - scale) / digPerDec1 + 1) scale

lemma packGroups_zero (b b' : Words) (mask : Bool) (p p' : Int) (pad frac total : Nat) :
    packGroups b mask p pad 0 0 frac total = packGroups b' mask p' pad 0 0 frac total := by
  have hplan : fracPlan 0 frac = ⟨0, 0, partSize frac, false⟩ := by
    simp [fracPlan, partSize, dig2bytes]
  simp [packGroups, hplan, packFirst, packWords, packLast]

lemma IntgLeft.units_eq_zero (hl : IntgLeft d 0 p) (hf : d.frac = 0) : d.units = 0 := by
  have hstart := hl.start
  apply val_eq_zero
  intro i h0 h1
  apply hl.zero i h0
  simp [words, fracWords, hf, roundUp_eq] at h1 hstart
  omega

lemma decimalBinSize_pos {precision : Nat} (h : 1 ≤ precision) (scale : Nat) (hs : scale ≤ precision) :
    0 < decimalBinSize precision scale := by
  simp only [decimalBinSize, partSize, dig2bytes_eq, digPerDec1]
  omega

lemma packGroups_groups (h : d.Legal) (hl : IntgLeft d digits p)
    (hdigits : digits ≤ precision - scale) (hf : d.frac ≤ scale) (mask : Bool) :
    packGroups d.buf mask p (partSize (precision - scale) - partSize digits) digits d.frac scale
      (decimalBinSize precision scale) = some (store (decimalBinSize precision scale)
        (xorMask mask (d.groups precision scale))) := by
  have hround : roundUp digits ≤ (precision - scale) / digPerDec1 + 1 := by
    rw [roundUp_eq]
    unfold digPerDec1
    omega
  have hpacked : d.groups precision scale = d.packed (roundUp digits) scale := by
    rw [groups, packed, packed, val_wordAt_of_zero d _ _ hround (fun j hj => hl.wordAt_eq_zero hj)]
  have hsize : partSize (precision - scale) - partSize digits + partSize digits + partSize scale =
      decimalBinSize precision scale := by
    have := partSize_mono hdigits
    unfold decimalBinSize
    omega
  have hpack := packGroups_spec h hl mask hf (partSize (precision - scale) - partSize digits)
  rwa [hsize, ← hpacked] at hpack

lemma flip_image {size : Nat} (hpos : 0 < size) (error : DecErr) (x : Int) :
    (if store size x ≠ [] ∧ (store size x).length = size then
      some (error, flipTop (store size x)) else none) =
    some (error, store size (x + 128 * 256 ^ (size - 1))) := by
  have hne : store size x ≠ [] := ne_nil_of_length_pos (by rwa [length_store])
  obtain ⟨k, rfl⟩ := exists_eq_succ_of_ne_zero hpos.ne'
  rw [if_pos ⟨hne, length_store _ _⟩]
  exact congrArg (fun out => some (error, out)) (flipTop_store k x)

/-- The image is the groups, inverted for a negative number, with the top bit flipped. -/
lemma decimal2bin_spec (h : d.Legal) (nz : ¬ d.NegativeZero)
    (hd : Storable d precision scale) :
    decimal2bin d precision scale = some (.ok, store (decimalBinSize precision scale)
      (xorMask d.sign (d.groups precision scale) +
        128 * 256 ^ (decimalBinSize precision scale - 1))) := by
  obtain ⟨digits, p, hrun, hl⟩ := removeLeadingZeroes_intg h
  have hdigits := hl.digits_le h hd.intg
  have hpack := packGroups_groups h hl hdigits hd.frac d.sign
  obtain ⟨_, _, _, htail⟩ := fracPlan_tail h d.sign hd.frac 0
  have hover : ¬ (if digits + partSize d.frac = 0 then 1 else precision - scale) < digits := by
    split <;> omega
  have hgroups : packGroups (if digits + partSize d.frac = 0 then Words.ofList [0] else d.buf)
      (if digits + partSize d.frac = 0 then false else d.sign)
      (if digits + partSize d.frac = 0 then 0 else p)
      (partSize (precision - scale) - partSize digits) digits d.frac scale
      (decimalBinSize precision scale) = some (store (decimalBinSize precision scale)
        (xorMask d.sign (d.groups precision scale))) := by
    by_cases hz : digits + partSize d.frac = 0
    · obtain ⟨rfl, hfrac⟩ : digits = 0 ∧ d.frac = 0 := by
        simp only [partSize, dig2bytes_eq, digPerDec1] at hz
        omega
      have hsign : d.sign = false := by
        by_contra hs
        exact nz ⟨by simpa using hs, hl.units_eq_zero hfrac⟩
      rw [hfrac] at hpack
      rw [if_pos hz, if_pos hz, if_pos hz, ← hsign, hfrac, packGroups_zero _ d.buf d.sign 0 p]
      exact hpack
    · rw [if_neg hz, if_neg hz, if_neg hz]
      exact hpack
  simp only [decimal2bin, hrun, some_bind, if_neg hover, hgroups,
    htail.truncated]
  exact flip_image (decimalBinSize_pos hd.pos scale hd.le) _ _

/-- A fraction of more bytes than the scale has is cut: the image is that of the
digits up to the scale. -/
lemma decimal2bin_cut (h : d.Legal) (hp : 1 ≤ precision)
    (hs : scale ≤ precision) (hintg : d.mag < 10 ^ (precision - scale))
    (hsize : partSize scale < partSize d.frac) :
    decimal2bin d precision scale = some (.truncated, store (decimalBinSize precision scale)
      (xorMask d.sign (groups { d with frac := scale } precision scale) +
        128 * 256 ^ (decimalBinSize precision scale - 1))) := by
  obtain ⟨digits, p, hrun, hl⟩ := removeLeadingZeroes_intg h
  have hdigits := hl.digits_le h hintg
  have hle : scale ≤ d.frac := by
    by_contra hlt
    exact hsize.not_ge (partSize_mono (by omega))
  have hpack := packGroups_groups (h.setFrac hle)
    { hl with } hdigits le_rfl d.sign
  have hcopy : packGroups d.buf d.sign p (partSize (precision - scale) - partSize digits) digits
      d.frac scale (decimalBinSize precision scale) = packGroups d.buf d.sign p
        (partSize (precision - scale) - partSize digits) digits scale scale
        (decimalBinSize precision scale) := by
    simp [packGroups, fracPlan, hsize, Nat.sub_eq_zero_of_le hsize.le]
  have hzero : ¬ digits + partSize d.frac = 0 := by omega
  have htruncated : (fracPlan d.frac scale).truncated = true := by
    rw [fracPlan, if_pos hsize]
  simp only [decimal2bin, hrun, some_bind, if_neg hzero,
    if_neg hdigits.not_gt, hcopy, hpack, htruncated]
  exact flip_image (decimalBinSize_pos hp scale hs) _ _

end Decimal
