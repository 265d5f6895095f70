import EryMysql.Decimal.BinOrder

/-!
# Reading a binary image back

`bin2decimal` takes the groups of an image one by one. Leading integer groups that
are zero are left out of the result, and a group that is no number of its digits
makes the whole image bad.
-/

namespace Decimal

open WordArray Bytes DecimalT List Int Nat

def decimalSize (precision scale : Nat) : Nat := roundUp (precision - scale) + roundUp scale

/-- The bytes still to read, the place of the next word, and the result so far. -/
structure BinCursor where
  src : List Nat
  p : Int
  buf : Words
  intg : Int

/-- Reading may run into a bad group, with the result buffer as it is then. -/
abbrev BinReader := ExceptT Words Option

/-- `mi_sint1korr` to `mi_sint4korr`, by the number of bytes. -/
def loadGroup (mask : Bool) (i : Nat) (src : List Nat) : Option Int :=
  if src.length < i then none else some (xorMask mask (toSigned (src.take i)))

def readIntg (mask : Bool) (i digits : Nat) (limit : Int) (c : BinCursor) : BinReader BinCursor := do
  let x ← loadGroup mask i c.src
  let buf ← c.buf.store c.p x
  if x < 0 ∨ limit ≤ x then throw buf
  else if 0 < c.p ∨ x ≠ 0 then pure ⟨c.src.drop i, c.p + 1, buf, c.intg⟩
  else pure ⟨c.src.drop i, c.p, buf, c.intg - digits⟩

/-- One group of the fraction; the product wraps as a 32-bit one does. -/
def readFrac (mask : Bool) (i : Nat) (scale : Int) (c : BinCursor) : BinReader BinCursor := do
  let x ← loadGroup mask i c.src
  let y := Int.bmod (x * scale) (2 ^ 32)
  let buf ← c.buf.store c.p y
  if y < 0 ∨ digBase ≤ y then throw buf
  else pure ⟨c.src.drop i, c.p + 1, buf, c.intg⟩

def readWords (read : BinCursor -> BinReader BinCursor) : Nat -> BinCursor -> BinReader BinCursor
  | 0, c => pure c
  | n + 1, c => do
    let c ← read c
    readWords read n c

/-- The groups that are read, after `skip` bytes that are not. -/
structure BinLayout where
  skip : Nat
  intg0 : Nat
  intg0x : Nat
  frac0 : Nat
  frac0x : Nat

def binLayout (len precision scale : Nat) : BinLayout × DecErr :=
  let intg0 := (precision - scale) / digPerDec1
  let intg0x := (precision - scale) % digPerDec1
  let frac0 := scale / digPerDec1
  let frac0x := scale % digPerDec1
  let intgWords := intg0 + if 0 < intg0x then 1 else 0
  let fit := fixIntgFracError len intgWords (frac0 + if 0 < frac0x then 1 else 0)
  if fit.error = .ok then (⟨0, intg0, intg0x, frac0, frac0x⟩, .ok)
  else if fit.intg < intgWords then
    (⟨dig2bytes intg0x + 4 * (intg0 - fit.intg), fit.intg, 0, 0, 0⟩, fit.error)
  else (⟨0, intg0, intg0x, fit.frac, 0⟩, fit.error)

def readGroups (mask : Bool) (l : BinLayout) (c : BinCursor) : BinReader BinCursor := do
  let c ← (if l.intg0x ≠ 0 then
      readIntg mask (dig2bytes l.intg0x) l.intg0x (powers10 (l.intg0x + 1)) c
    else pure c)
  let c ← readWords (readIntg mask 4 digPerDec1 digBase) l.intg0 c
  let c ← (if 0 ≤ c.intg then some c else none : Option BinCursor)
  let c ← readWords (readFrac mask 4 1) l.frac0 c
  if l.frac0x ≠ 0 then
    readFrac mask (dig2bytes l.frac0x) (powers10 (digPerDec1 - l.frac0x)) c
  else pure c

def bin2decimal (src : List Nat) (dst : DecimalT) (precision scale : Nat) :
    Option (DecErr × DecimalT) := do
  if precision = 0 ∨ precision < scale ∨ dst.len = 0 ∨ src.length < decimalBinSize precision scale
  then none
  else
    let top ← src.head?
    let mask := decide (top &&& 0x80 = 0)
    let copy := flipTop (src.take (decimalBinSize precision scale))
    let (l, error) := binLayout dst.len precision scale
    let c : BinCursor := ⟨copy.drop l.skip, 0, dst.buf, l.intg0 * digPerDec1 + l.intg0x⟩
    match ← (readGroups mask l c).run with
    | .error buf => do
      let zero ← makeZero { dst with buf }
      some (.badNum, zero)
    | .ok c =>
      let frac := l.frac0 * digPerDec1 + l.frac0x
      let r : DecimalT := { dst with intg := c.intg.toNat, frac, sign := mask, buf := c.buf }
      if c.intg = 0 ∧ frac = 0 then do
        let zero ← makeZero r
        some (error, zero)
      else some (error, r)

@[simp] lemma BinReader.lift_some {α : Type} (a : α) :
    (liftM (some a : Option α) : BinReader α) = pure a := rfl

lemma loadGroup_store (mask : Bool) {i : Nat} {x : Int} (rest : List Nat) (h0 : 0 ≤ x)
    (h1 : 2 * (x + 1) ≤ 256 ^ i) :
    loadGroup mask i (store i (xorMask mask x) ++ rest) = some x := by
  have hx := xorMask_bounds mask h0 h1
  rw [loadGroup, if_neg (by simp), take_left' (length_store _ _), toSigned_store hx.1 hx.2,
    xorMask_xorMask]

variable {rest : List Nat} {c : BinCursor} {buf : Words} {precision scale : Nat} {dst : DecimalT}
  {scale : Nat} {d : DecimalT} {i : Nat}

lemma readIntg_store (mask : Bool) {i digits : Nat} {limit x p intg : Int}
    (h0 : 0 ≤ x) (h1 : 2 * (x + 1) ≤ 256 ^ i) (hlimit : x < limit) (hp0 : 0 ≤ p)
    (hp : p < buf.size) :
    readIntg mask i digits limit ⟨store i (xorMask mask x) ++ rest, p, buf, intg⟩ =
      pure (if 0 < p ∨ x ≠ 0 then ⟨rest, p + 1, buf.put p x, intg⟩
        else ⟨rest, p, buf.put p x, intg - digits⟩) := by
  have hgood : ¬ (x < 0 ∨ limit ≤ x) := by omega
  simp only [readIntg, loadGroup_store mask rest h0 h1, BinReader.lift_some, pure_bind,
    buf.store_eq x hp0 hp, if_neg hgood, drop_left' (length_store _ _)]
  split <;> rfl

lemma readFrac_store (mask : Bool) {scale x p intg : Int}
    (h0 : 0 ≤ x) (h1 : 2 * (x + 1) ≤ 256 ^ i) (hs : 0 ≤ x * scale)
    (hlimit : x * scale < digBase) (hp0 : 0 ≤ p) (hp : p < buf.size) :
    readFrac mask i scale ⟨store i (xorMask mask x) ++ rest, p, buf, intg⟩ =
      pure ⟨rest, p + 1, buf.put p (x * scale), intg⟩ := by
  have hmod : bmod (x * scale) (2 ^ 32) = x * scale := by
    apply bmod_eq_of_le
    all_goals unfold digBase at hlimit; omega
  have hgood : ¬ (x * scale < 0 ∨ digBase ≤ x * scale) := by omega
  simp only [readFrac, loadGroup_store mask rest h0 h1, BinReader.lift_some, pure_bind, hmod,
    buf.store_eq _ hp0 hp, if_neg hgood, drop_left' (length_store _ _)]

/-- The words before position `j` of the point have been read, without the zero
words in front; `n` is the number of integer digits of the image. -/
structure Loaded (d : DecimalT) (n size : Nat) (j : Int) (c : BinCursor) : Prop where
  nonneg : 0 ≤ c.p
  le : j ≤ c.p
  size_eq : c.buf.size = size
  words : ∀ i, 0 ≤ i -> i < c.p -> c.buf.word i = d.wordAt (j - c.p + i)
  zero : ∀ i, i < j - c.p -> d.wordAt i = 0
  intg : (c.p - j ≤ n / digPerDec1 ∧ c.intg = digPerDec1 * (c.p - j)) ∨
    (c.p - j = n / digPerDec1 + 1 ∧ c.intg = n ∧ n % digPerDec1 ≠ 0)

section Reading
variable {n size : Nat} {j : Int}

lemma Loaded.keep (h : Loaded d n size j c) (src : List Nat) :
    Loaded d n size (j + 1) ⟨src, c.p + 1, c.buf.put c.p (d.wordAt j), c.intg⟩ where
  nonneg := add_nonneg h.nonneg (by decide)
  le := Int.add_le_add_right h.le 1
  size_eq := h.size_eq
  words := by
    intro i h0 h1
    by_cases hi : i = c.p
    · rw [hi]
      simp
    · rw [Words.word_put_ne hi, h.words i h0 (by simp at h1; omega)]
      simp
  zero := by simpa using h.zero
  intg := by simpa using h.intg

lemma Loaded.drop (h : Loaded d n size j c) (src : List Nat) (hp : c.p = 0) (hz : d.wordAt j = 0)
    (hj : j < 0) {digits : Nat} (hn : -(j + 1) ≤ n / digPerDec1)
    (hintg : c.intg - digits = digPerDec1 * -(j + 1)) :
    Loaded d n size (j + 1) ⟨src, c.p, c.buf.put c.p (d.wordAt j), c.intg - digits⟩ where
  nonneg := h.nonneg
  le := le_trans hj h.nonneg
  size_eq := h.size_eq
  words := by
    intro i h0 h1
    simp only at h1
    omega
  zero := by
    intro i hi
    simp only at hi
    by_cases hij : i = j
    · rw [hij, hz]
    · exact h.zero i (by omega)
  intg := by
    left
    simp only [hp, zero_sub]
    exact ⟨hn, hintg⟩

/-- Reading a group takes the position one word on. -/
def Reads (d : DecimalT) (n size : Nat) (j : Int) (bytes : List Nat)
    (read : BinCursor -> BinReader BinCursor) : Prop :=
  ∀ c rest, Loaded d n size j c -> c.p < size -> c.src = bytes ++ rest ->
    ∃ c', read c = pure c' ∧ c'.src = rest ∧ Loaded d n size (j + 1) c' ∧ c'.p ≤ c.p + 1

section
variable (hd : d.Legal) (mask : Bool)
include hd mask

lemma reads_intg {i digits : Nat} {limit : Int} (hj : j < 0) (hi : 2 * (d.wordAt j + 1) ≤ 256 ^ i)
    (hlimit : d.wordAt j < limit)
    (hdrop : ∀ c, Loaded d n size j c -> c.p = 0 ->
      -(j + 1) ≤ n / digPerDec1 ∧ c.intg - digits = digPerDec1 * -(j + 1)) :
    Reads d n size j (store i (xorMask mask (d.wordAt j))) (readIntg mask i digits limit) := by
  rintro ⟨src, p, buf, intg⟩ rest hc hp rfl
  have h0 := (hd.digits_wordAt j 1 j le_rfl (by omega)).1
  refine ⟨_, readIntg_store mask h0 hi hlimit hc.nonneg (hc.size_eq ▸ hp), ?_⟩
  by_cases hkeep : 0 < p ∨ d.wordAt j ≠ 0
  · rw [if_pos hkeep]
    exact ⟨rfl, hc.keep rest, le_rfl⟩
  · rw [if_neg hkeep]
    rw [not_or, not_lt, not_not] at hkeep
    have hp0 := le_antisymm hkeep.1 hc.nonneg
    obtain ⟨hn, hintg⟩ := hdrop _ hc hp0
    exact ⟨rfl, hc.drop rest hp0 hkeep.2 hj hn hintg, by simp⟩

lemma reads_frac {x scale : Int} (h0 : 0 ≤ x) (hi : 2 * (x + 1) ≤ 256 ^ i)
    (hx : x * scale = d.wordAt j) :
    Reads d n size j (store i (xorMask mask x)) (readFrac mask i scale) := by
  rintro ⟨src, p, buf, intg⟩ rest hc hp rfl
  have hword := hd.digits_wordAt j 1 j le_rfl (by omega)
  refine ⟨_, ?_, rfl, hc.keep rest, le_rfl⟩
  rw [← hx] at hword ⊢
  exact readFrac_store mask h0 hi hword.1 hword.2 hc.nonneg (hc.size_eq ▸ hp)

lemma readWords_loaded (read : BinCursor -> BinReader BinCursor) (k : Nat) {j : Int}
    (hread : ∀ i, j ≤ i -> i < j + k -> Reads d n size i (store 4 (xorMask mask (d.wordAt i))) read)
    (hc : Loaded d n size j c) (hp : c.p + k ≤ size)
    (hsrc : c.src = store (4 * k) (xorMask mask (val (256 ^ 4) d.wordAt j k)) ++ rest) :
    ∃ c', readWords read k c = pure c' ∧ c'.src = rest ∧ Loaded d n size (j + k) c' ∧
      c'.p ≤ c.p + k := by
  induction k generalizing j c with
  | zero => exact ⟨c, rfl, by simpa [store] using hsrc, by simpa using hc, by simp⟩
  | succ k ih =>
    have htail := (hd.digits_wordAt (j + 1) k).le digBase_le_word
    have hlt := val_lt (by decide) htail
    rw [← pow_mul] at hlt
    rw [val_cons, ← pow_mul, mul_succ, add_comm (4 * k),
      ← store_append mask 4 (4 * k) _ (val_nonneg (by decide) htail) hlt] at hsrc
    obtain ⟨c1, hrun1, hsrc1, hc1, hp1⟩ := hread j le_rfl (by omega) c _ hc (by omega) hsrc
    obtain ⟨c2, hrun2, hsrc2, hc2, hp2⟩ := ih (j := j + 1)
      (fun i h0 h1 => hread i (by omega) (by omega)) hc1 (by omega) hsrc1
    refine ⟨c2, ?_, hsrc2, ?_, by omega⟩
    · rw [readWords, hrun1, pure_bind, hrun2]
    · push_cast
      rwa [← add_assoc, add_right_comm]

lemma groups_bytes (n scale : Nat) :
    store (partSize n + partSize scale) (xorMask mask (d.packed (n / digPerDec1 + 1) scale)) =
      store (dig2bytes (n % digPerDec1)) (xorMask mask (d.wordAt (-(n / digPerDec1 + 1 : Nat)))) ++
      (store (4 * (n / digPerDec1))
          (xorMask mask (val (256 ^ 4) d.wordAt (-(n / digPerDec1 : Nat)) (n / digPerDec1))) ++
      (store (4 * (scale / digPerDec1))
          (xorMask mask (val (256 ^ 4) d.wordAt 0 (scale / digPerDec1))) ++
      store (dig2bytes (scale % digPerDec1)) (xorMask mask
        (d.wordAt (scale / digPerDec1 : Nat) / 10 ^ (digPerDec1 - scale % digPerDec1))))) := by
  obtain ⟨a, ha⟩ : ∃ a, a = n / digPerDec1 := ⟨_, rfl⟩
  obtain ⟨f, hf⟩ : ∃ f, f = scale / digPerDec1 := ⟨_, rfl⟩
  have hint := (hd.digits_wordAt (-a) a).le digBase_le_word
  have hfrac := (hd.digits_wordAt 0 f).le digBase_le_word
  have hintlt := val_lt (by decide) hint
  have hfraclt := val_lt (by decide) hfrac
  have hgroup := hd.group_lt f (mod_lt scale (show 0 < digPerDec1 by decide)).le
  have hbytes := dig2bytes_pow_le (mod_lt scale (show 0 < digPerDec1 by decide)).le
  rw [← pow_mul] at hintlt hfraclt
  have hval : val (256 ^ 4) d.wordAt (-(a + 1 : Nat)) (a + 1 + f) =
      (d.wordAt (-(a + 1 : Nat)) * 256 ^ (4 * a) + val (256 ^ 4) d.wordAt (-a) a) * 256 ^ (4 * f) +
        val (256 ^ 4) d.wordAt 0 f := by
    rw [val_add, val_cons, pow_mul, pow_mul, neg_add_cancel,
      show -((a + 1 : Nat) : Int) + 1 = -a by push_cast; ring]
  rw [packed, partSize, partSize, ← ha, ← hf, hval, ← append_assoc, ← append_assoc,
    store_append mask _ _ _ (val_nonneg (by decide) hint) hintlt,
    store_append mask _ _ _ (val_nonneg (by decide) hfrac) hfraclt,
    store_append mask _ _ _ hgroup.1 (hgroup.2.trans_le hbytes)]
  congr 1
  omega

end

end Reading

section Groups
variable {n size : Nat}

lemma roundUp_eq_words (x : Nat) :
    roundUp x = x / digPerDec1 + if x % digPerDec1 ≠ 0 then 1 else 0 := by
  rw [roundUp_eq]
  unfold digPerDec1
  split <;> omega

lemma read_front (hd : d.Legal) (mask : Bool) (rest : List Nat) (hsize : buf.size = size)
    (hpos : n % digPerDec1 ≠ 0 -> 0 < size)
    (hfront : d.wordAt (-(n / digPerDec1 + 1 : Nat)) < 10 ^ (n % digPerDec1))
    (hzero : ∀ j : Int, j < -(n / digPerDec1 + 1 : Nat) -> d.wordAt j = 0)
    (c : BinCursor) (hc : c = ⟨store (dig2bytes (n % digPerDec1))
      (xorMask mask (d.wordAt (-(n / digPerDec1 + 1 : Nat)))) ++ rest, 0, buf, n⟩) :
    ∃ c', (if n % digPerDec1 ≠ 0 then readIntg mask (dig2bytes (n % digPerDec1)) (n % digPerDec1)
        (powers10 (n % digPerDec1 + 1)) c else pure c) = (pure c' : BinReader BinCursor) ∧
      c'.src = rest ∧ Loaded d n size (-(n / digPerDec1 : Nat)) c' ∧
      c'.p + (n / digPerDec1 : Nat) ≤ roundUp n := by
  have h9 := mod_lt n (show 0 < digPerDec1 by decide)
  subst hc
  by_cases hx : n % digPerDec1 = 0
  · have hlead := hd.digits_wordAt (-(n / digPerDec1 + 1 : Nat)) 1 _ le_rfl (by omega)
    rw [hx] at hfront
    rw [if_neg (not_not.mpr hx), roundUp_eq_words, if_neg (not_not.mpr hx)]
    refine ⟨_, rfl, by simp [hx, dig2bytes, store],
      ⟨le_rfl, neg_nonpos.mpr (natCast_nonneg _), hsize, ?_, ?_, ?_⟩, by simp⟩
    · intro i h0 h1
      simp at h1
      omega
    · intro i hi
      by_cases hlast : i = -(n / digPerDec1 + 1 : Nat)
      · rw [hlast]
        omega
      · exact hzero i (by push_cast at *; omega)
    · unfold digPerDec1 at *
      push_cast
      omega
  · rw [if_pos hx, roundUp_eq_words, if_pos hx]
    have hc : Loaded d n size (-(n / digPerDec1 + 1 : Nat))
        ⟨store (dig2bytes (n % digPerDec1))
          (xorMask mask (d.wordAt (-(n / digPerDec1 + 1 : Nat)))) ++ rest, 0, buf, n⟩ := by
      refine ⟨le_rfl, neg_nonpos.mpr (natCast_nonneg _), hsize, ?_, by simpa using hzero,
        Or.inr ⟨?_, rfl, hx⟩⟩
      · intro i h0 h1
        simp at h1
        omega
      · push_cast
        ring
    have hbytes := two_mul_pow_le _ h9.le (pos_of_ne_zero hx)
    have hread : Reads d n size (-(n / digPerDec1 + 1 : Nat)) (store (dig2bytes (n % digPerDec1))
          (xorMask mask (d.wordAt (-(n / digPerDec1 + 1 : Nat)))))
        (readIntg mask (dig2bytes (n % digPerDec1)) (n % digPerDec1)
          (powers10 (n % digPerDec1 + 1))) := by
      refine reads_intg hd mask (neg_lt_zero.mpr (cast_pos.mpr (succ_pos _)))
        (by linarith) ?_ ?_
      · rw [powers10, pow_succ]
        have : (0 : Int) < 10 ^ (n % digPerDec1) := by positivity
        linarith
      · intro c hc hp
        have hintg := hc.intg
        unfold digPerDec1 at *
        omega
    obtain ⟨c', hrun, hsrc, hc', hp⟩ := hread _ rest hc (by simp; omega) rfl
    refine ⟨c', hrun, hsrc, ?_, by simp at hp; omega⟩
    rwa [show -((n / digPerDec1 + 1 : Nat) : Int) + 1 = -(n / digPerDec1 : Nat) by
      push_cast; ring] at hc'

lemma read_intg_words (hd : d.Legal) (mask : Bool)
    (hc : Loaded d n size (-(n / digPerDec1 : Nat)) c) (hp : c.p + (n / digPerDec1 : Nat) ≤ size)
    (hsrc : c.src = store (4 * (n / digPerDec1))
      (xorMask mask (val (256 ^ 4) d.wordAt (-(n / digPerDec1 : Nat)) (n / digPerDec1))) ++ rest) :
    ∃ c', readWords (readIntg mask 4 digPerDec1 digBase) (n / digPerDec1) c = pure c' ∧
      c'.src = rest ∧ Loaded d n size 0 c' ∧ c'.p ≤ c.p + (n / digPerDec1 : Nat) := by
  have hloop := readWords_loaded hd mask (readIntg mask 4 digPerDec1 digBase) (n / digPerDec1)
    (fun i h0 h1 => ?_) hc hp hsrc
  · rwa [neg_add_cancel] at hloop
  · have hword := hd.digits_wordAt i 1 i le_rfl (by omega)
    refine reads_intg hd mask (by omega) (by unfold digBase at hword; omega) hword.2 fun c hc hp0 => ?_
    have hintg := hc.intg
    unfold digPerDec1 at *
    omega

lemma read_frac_words (hd : d.Legal) (mask : Bool) (f : Nat)
    (hc : Loaded d n size 0 c) (hp : c.p + f ≤ size)
    (hsrc : c.src = store (4 * f) (xorMask mask (val (256 ^ 4) d.wordAt 0 f)) ++ rest) :
    ∃ c', readWords (readFrac mask 4 1) f c = pure c' ∧ c'.src = rest ∧ Loaded d n size f c' ∧
      c'.p ≤ c.p + f := by
  have hloop := readWords_loaded hd mask (readFrac mask 4 1) f (fun i h0 h1 => ?_) hc hp hsrc
  · rwa [zero_add] at hloop
  · have hword := hd.digits_wordAt i 1 i le_rfl (by omega)
    exact reads_frac hd mask hword.1 (by unfold digBase at hword; omega) (mul_one _)

lemma readGroups_spec (hd : d.WellFormed) (mask : Bool)
    (hfrac : d.frac ≤ scale) (hsize : roundUp n + roundUp scale ≤ buf.size)
    (hfront : d.wordAt (-(n / digPerDec1 + 1 : Nat)) < 10 ^ (n % digPerDec1))
    (hzero : ∀ j : Int, j < -(n / digPerDec1 + 1 : Nat) -> d.wordAt j = 0) :
    ∃ c, readGroups mask ⟨0, n / digPerDec1, n % digPerDec1, scale / digPerDec1, scale % digPerDec1⟩
        ⟨store (partSize n + partSize scale)
          (xorMask mask (d.packed (n / digPerDec1 + 1) scale)), 0, buf, n⟩ = pure c ∧
      Loaded d n buf.size (roundUp scale) c := by
  have hlegal := hd.toLegal
  have hs := roundUp_eq_words scale
  rw [groups_bytes hlegal mask n scale]
  generalize hlast : store (dig2bytes (scale % digPerDec1)) _ = last
  generalize hfracBytes : store (4 * (scale / digPerDec1)) _ ++ last = rest2
  generalize hintgBytes : store (4 * (n / digPerDec1)) _ ++ rest2 = rest1
  obtain ⟨c1, hrun1, hsrc1, hc1, hp1⟩ := read_front hlegal mask rest1 rfl
    (fun hx => lt_of_lt_of_le (by rw [roundUp_eq_words, if_pos hx]; exact succ_pos _)
      (le_trans (le_add_right (roundUp n) _) hsize)) hfront hzero _ rfl
  obtain ⟨c2, hrun2, hsrc2, hc2, hp2⟩ := read_intg_words hlegal mask hc1 (by omega)
    (hsrc1.trans hintgBytes.symm)
  obtain ⟨c3, hrun3, hsrc3, hc3, hp3⟩ := read_frac_words hlegal mask (scale / digPerDec1) hc2
    (by omega) (hsrc2.trans hfracBytes.symm)
  have hintg : 0 ≤ c2.intg := by
    have hnonneg := hc2.nonneg
    rcases hc2.intg with ⟨-, h⟩ | ⟨-, h, -⟩
    · rw [h]
      positivity
    · omega
  simp only [readGroups, hrun1, hrun2, hrun3, pure_bind, if_pos hintg, BinReader.lift_some]
  by_cases hx : scale % digPerDec1 = 0
  · rw [if_neg (not_not.mpr hx)] at hs ⊢
    exact ⟨c3, rfl, by rwa [hs]⟩
  · rw [if_pos hx] at hs ⊢
    have h9 := mod_lt scale (show 0 < digPerDec1 by decide)
    have hgroup := hlegal.group_lt (scale / digPerDec1 : Nat) h9.le
    have hbytes := two_mul_pow_le _ h9.le (pos_of_ne_zero hx)
    have hread : Reads d n buf.size _ _ _ := reads_frac hlegal mask hgroup.1 (by linarith)
      (Int.ediv_mul_cancel (hd.group_dvd hfrac))
    obtain ⟨c4, hrun4, -, hc4, -⟩ := hread c3 [] hc3 (by omega) (by rw [append_nil, hlast]; exact hsrc3)
    refine ⟨c4, hrun4, ?_⟩
    rwa [hs]

end Groups

lemma binLayout_ok {len precision scale : Nat} (h : decimalSize precision scale ≤ len) :
    binLayout len precision scale =
      (⟨0, (precision - scale) / digPerDec1, (precision - scale) % digPerDec1,
        scale / digPerDec1, scale % digPerDec1⟩, .ok) := by
  have hwords : ∀ x : Nat, (x / digPerDec1 + if 0 < x % digPerDec1 then 1 else 0) = roundUp x :=
    fun x => by simp [roundUp_eq_words, pos_iff_ne_zero]
  simp [binLayout, hwords, fixIntgFracError_ok h]

structure ReadBack (d r : DecimalT) (scale : Nat) : Prop where
  wellFormed : r.WellFormed
  value_eq : r.value = d.value
  frac : r.frac = scale ∨ r.CanonicalZero

section ReadBack
variable {n size f : Nat}

section
variable (h : Loaded d n size f c) {m : Nat}
include h

lemma Loaded.units_eq (hf : d.fracWords ≤ f) (hm : c.p = m + f) :
    val digBase c.buf.word 0 (m + f) = d.unitsAt f := by
  rw [unitsAt_eq_val d hf (n := m) (fun j hj => h.zero j (by omega))]
  apply val_shift
  intro i hi
  rw [h.words _ (by omega) (by omega)]
  congr 1
  omega

lemma Loaded.intg_words (hm : c.p = m + f) : roundUp c.intg.toNat = m ∧ 0 ≤ c.intg := by
  rw [roundUp_eq]
  have hintg := h.intg
  unfold digPerDec1 at hintg
  omega

lemma Loaded.digits (hd : d.Legal) (hm : c.p = m + f) :
    Digits digBase c.buf.word 0 (m + f) := by
  intro i h0 h1
  rw [h.words i h0 (by omega)]
  exact hd.digits_wordAt _ 1 _ le_rfl (by omega)

lemma Loaded.leading (hd : d.Legal) (hm : c.p = m + f)
    (hfront : d.wordAt (-(n / digPerDec1 + 1 : Nat)) < 10 ^ (n % digPerDec1))
    (hpos : 0 < c.intg.toNat) : c.buf.word 0 < 10 ^ ((c.intg.toNat - 1) % digPerDec1 + 1) := by
  rcases h.intg with ⟨-, hintg⟩ | ⟨hp, hintg, hx⟩
  · have hdigits : (c.intg.toNat - 1) % digPerDec1 + 1 = digPerDec1 := by
      unfold digPerDec1 at *
      omega
    have hm0 : m ≠ 0 := by
      rintro rfl
      rw [hm] at hintg
      omega
    rw [hdigits]
    exact (h.digits hd hm 0 le_rfl (by omega)).2
  · have hdigits : (c.intg.toNat - 1) % digPerDec1 + 1 = n % digPerDec1 := by
      unfold digPerDec1 at *
      omega
    rw [h.words 0 le_rfl (by unfold digPerDec1 at hp; omega)]
    convert hfront using 2
    omega

lemma Loaded.p_le : c.p ≤ roundUp n + f := by
  rw [roundUp_eq]
  have hintg := h.intg
  unfold digPerDec1 at hintg
  omega

end

lemma Loaded.readBack (h : Loaded d n size (roundUp scale) c) (hd : d.WellFormed)
    (hfrac : d.frac ≤ scale) (hfront : d.wordAt (-(n / digPerDec1 + 1 : Nat)) < 10 ^ (n % digPerDec1))
    {len : Nat} (hpos : 0 < len) (halloc : len ≤ size) (hroom : roundUp n + roundUp scale ≤ len) :
    ReadBack d ⟨c.intg.toNat, scale, len, d.sign, c.buf⟩ scale := by
  have hlegal := hd.toLegal
  obtain ⟨m, hm⟩ : ∃ m : Nat, c.p = m + roundUp scale :=
    ⟨(c.p - roundUp scale).toNat, by have := h.le; omega⟩
  have hw : DecimalT.words ⟨c.intg.toNat, scale, len, d.sign, c.buf⟩ = m + roundUp scale := by
    simp [DecimalT.words, intgWords, fracWords, (h.intg_words hm).1]
  have hfw : d.fracWords ≤ roundUp scale := by
    rw [fracWords, roundUp_eq, roundUp_eq]
    omega
  have hunits : units ⟨c.intg.toNat, scale, len, d.sign, c.buf⟩ =
      d.unitsAt (roundUp scale) := by
    rw [units, hw]
    exact h.units_eq hfw hm
  have hp := h.p_le
  have hlen : DecimalT.words ⟨c.intg.toNat, scale, len, d.sign, c.buf⟩ ≤ len := by
    omega
  refine ⟨⟨⟨hpos, hlen, by rw [h.size_eq]; exact halloc, by rw [hw]; exact h.digits hlegal hm,
    h.leading hlegal hm hfront⟩, fun hx => ?_⟩, ?_, Or.inl rfl⟩
  · have hlast : roundUp scale = scale / digPerDec1 + 1 := by
      rw [roundUp_eq_words, if_pos hx]
    have hlast0 : 0 < roundUp scale := hlast ▸ succ_pos _
    rw [h.words _ (by omega) (by omega)]
    convert hd.group_dvd hfrac using 2
    omega
  · rw [value, value, mag, hunits, d.mag_eq_unitsAt hfw]
    rfl

end ReadBack

lemma decimalSize_pos (hp : 1 ≤ precision) :
    0 < decimalSize precision scale := by
  simp only [decimalSize, roundUp_eq]
  omega

lemma bin2decimal_image (hd : d.WellFormed)
    (hs : Storable d precision scale)
    (hlen : decimalSize precision scale ≤ dst.len) (halloc : dst.len ≤ dst.buf.size) :
    ∃ r, bin2decimal (store (decimalBinSize precision scale)
        (xorMask d.sign (d.groups precision scale) +
          128 * 256 ^ (decimalBinSize precision scale - 1))) dst precision scale = some (.ok, r) ∧
      ReadBack d r scale := by
  have hlegal := hd.toLegal
  have hfront := hs.front_lt hlegal
  have hpos := (decimalSize_pos hs.pos).trans_le hlen
  obtain ⟨h0, h1⟩ := hs.groups_bounds hlegal
  obtain ⟨k, hk⟩ := exists_eq_succ_of_ne_zero (decimalBinSize_pos hs.pos scale hs.le).ne'
  have hbounds := xorMask_bounds d.sign h0 h1
  rw [hk] at hbounds ⊢
  obtain ⟨top, htop, hsign⟩ := store_sign hbounds.1 hbounds.2
  have hmask : decide (top &&& 0x80 = 0) = d.sign := by
    rw [Bool.eq_iff_iff, decide_eq_true_iff, hsign, xorMask_neg_iff h0]
  obtain ⟨c, hread, hc⟩ := readGroups_spec hd d.sign hs.frac
    (le_trans hlen halloc) hfront (fun j hj => hs.zero_before hlegal hj)
  change readGroups _ _ ⟨store (decimalBinSize precision scale)
    (xorMask d.sign (d.groups precision scale)), _, _, _⟩ = _ at hread
  rw [hk, ← flipTop_flipped] at hread
  rw [Nat.succ_eq_add_one, Nat.add_sub_cancel]
  have hsrc := (length_store (k + 1) (xorMask d.sign (d.groups precision scale) + 128 * 256 ^ k)).trans
    hk.symm
  have hcond : ¬ (precision = 0 ∨ precision < scale ∨ dst.len = 0 ∨
      k + 1 < decimalBinSize precision scale) := by
    have := hs.pos
    have := hs.le
    omega
  have hintg : ((precision - scale) / digPerDec1 : Nat) * (digPerDec1 : Int) +
      ((precision - scale) % digPerDec1 : Nat) = (precision - scale : Nat) := by
    exact_mod_cast div_add_mod' (precision - scale) digPerDec1
  simp only [bin2decimal, length_store, if_neg hcond, htop, hmask, binLayout_ok hlen, drop_zero, hintg,
    take_of_length_le hsrc.le, hread, div_add_mod' scale digPerDec1, some_bind, ExceptT.run_pure,
    pure_bind]
  have hback := hc.readBack hd hs.frac hfront hpos halloc hlen
  by_cases hzero : c.intg = 0 ∧ scale = 0
  · rw [if_pos hzero, makeZero_eq (by rw [hc.size_eq]; omega)]
    have hcanon : CanonicalZero ⟨1, 0, dst.len, false, c.buf.put 0 0⟩ :=
      ⟨rfl, rfl, rfl, Words.word_put_self _ _ _⟩
    have hunits : units ⟨c.intg.toNat, scale, dst.len, d.sign, c.buf⟩ = 0 := by
      simp [units, words, intgWords, fracWords, hzero.1, hzero.2, roundUp_eq]
    refine ⟨_, rfl, makeZero_wellFormed hpos (by rw [hc.size_eq]; exact halloc), ?_, Or.inr hcanon⟩
    rw [(value_eq_zero_iff _).mpr hcanon.units_eq, ← hback.value_eq, (value_eq_zero_iff _).mpr hunits]
  · rw [if_neg hzero]
    exact ⟨_, rfl, hback⟩

/-- Reading an image back gives the number it was made from. -/
theorem bin2decimal_decimal2bin {d : DecimalT} {precision scale : Nat} (hd : d.WellFormed)
    (nz : ¬ d.NegativeZero) (hs : Storable d precision scale) {dst : DecimalT}
    (hlen : decimalSize precision scale ≤ dst.len) (halloc : dst.len ≤ dst.buf.size) :
    ∃ image r, decimal2bin d precision scale = some (.ok, image) ∧
      bin2decimal image dst precision scale = some (.ok, r) ∧ ReadBack d r scale := by
  obtain ⟨r, hrun, hback⟩ := bin2decimal_image hd hs hlen halloc
  exact ⟨_, r, decimal2bin_spec hd.toLegal nz hs, hrun, hback⟩

theorem bin2decimal_decimal2bin_minus_three_halves :
    ∃ image r, decimal2bin (ofWords 1 1 true [1, 500000000]) 3 1 = some (.ok, image) ∧
      bin2decimal image (ofWords 0 0 false [7, 7]) 3 1 = some (.ok, r) ∧
      ReadBack (ofWords 1 1 true [1, 500000000]) r 1 :=
  bin2decimal_decimal2bin (by decide) (by decide)
    ⟨by decide, by decide, (mag_lt_iff _).mpr (by decide), by decide⟩ (by decide) (by decide)

end Decimal
