import Mathlib.Data.Int.Range
import Mathlib.Tactic.Ring
import Mathlib.Tactic.Linarith
import Mathlib.Tactic.LinearCombination
import EryMysql.Lib.Partial

/-!
# Word arrays, positional windows and ripple loops

A C array of words is a size together with its contents. An access outside the
array has no result, so a routine that returns a value never left its arrays.
A window of `n` words starting at `s` is read as a big-endian numeral in base
`β`. The ripple loop is the common shape of word-by-word addition, subtraction
and multiply-accumulate: it walks down from the least significant word and
hands a carry upwards.
-/

namespace WordArray

/-- `size` words, addressed by their offset from the first one. -/
structure Words where
  size : Nat
  word : Int -> Int

namespace Words

variable (b : Words)

def load (i : Int) : Option Int :=
  if 0 ≤ i ∧ i < b.size then some (b.word i) else none

def put (i v : Int) : Words :=
  { b with word := fun j => if j = i then v else b.word j }

def store (i v : Int) : Option Words :=
  if 0 ≤ i ∧ i < b.size then some (b.put i v) else none

def ofList (l : List Int) : Words where
  size := l.length
  word := fun i => if 0 ≤ i then l.getD i.toNat 0 else 0

@[simp] lemma size_put (b : Words) (i v : Int) : (b.put i v).size = b.size := rfl

@[simp] lemma word_put_self (b : Words) (i v : Int) : (b.put i v).word i = v := by
  simp [put]

lemma word_put_ne {b : Words} {i j v : Int} (h : j ≠ i) :
    (b.put i v).word j = b.word j := by
  simp [put, h]

@[simp] lemma put_self (b : Words) (i : Int) : b.put i (b.word i) = b := by
  have h : (fun j => if j = i then b.word i else b.word j) = b.word := by
    funext j
    split
    · rename_i hj
      rw [hj]
    · rfl
  simp [put, h]

lemma load_eq {i : Int} (h0 : 0 ≤ i) (h1 : i < b.size) : b.load i = some (b.word i) := by
  simp [load, h0, h1]

lemma store_eq {i : Int} (v : Int) (h0 : 0 ≤ i) (h1 : i < b.size) :
    b.store i v = some (b.put i v) := by
  simp [store, h0, h1]

end Words

/-- The `n` words from `s` on, most significant first, as a number in base `β`. -/
def val (β : Int) (w : Int -> Int) (s : Int) : Nat -> Int
  | 0 => 0
  | n + 1 => val β w s n * β + w (s + n)

def Digits (β : Int) (w : Int -> Int) (s : Int) (n : Nat) : Prop :=
  ∀ i, s ≤ i -> i < s + n -> 0 ≤ w i ∧ w i < β

instance (β : Int) (w : Int -> Int) (s : Int) (n : Nat) : Decidable (Digits β w s n) :=
  inferInstanceAs (Decidable (∀ i, s ≤ i -> i < s + n -> 0 ≤ w i ∧ w i < β))

section Numerals
variable {β : Int} {w u : Int -> Int} {s : Int} {m n : Nat} {t : Int} {v : Int -> Int}

@[simp] lemma val_zero : val β w s 0 = 0 := rfl

lemma val_succ : val β w s (n + 1) = val β w s n * β + w (s + n) := rfl

@[simp] lemma val_one : val β w s 1 = w s := by
  simp [val]

lemma val_add (β : Int) (w : Int -> Int) (s : Int) (m n : Nat) :
    val β w s (m + n) = val β w s m * β ^ n + val β w (s + m) n := by
  induction n with
  | zero => simp
  | succ n ih =>
    rw [← Nat.add_assoc, val_succ, ih, val_succ, Nat.cast_add, Int.add_assoc s m n]
    ring

lemma val_cons (β : Int) (w : Int -> Int) (s : Int) (n : Nat) :
    val β w s (n + 1) = w s * β ^ n + val β w (s + 1) n := by
  have h := val_add β w s 1 n
  rw [Nat.add_comm 1 n] at h
  simpa using h

lemma val_congr (h : ∀ i, s ≤ i -> i < s + n -> w i = u i) : val β w s n = val β u s n := by
  induction n with
  | zero => rfl
  | succ n ih =>
    rw [val_succ, val_succ, ih (fun i h0 h1 => h i h0 (by omega)), h (s + n) (by omega) (by omega)]

lemma val_shift (h : ∀ i : Nat, i < n -> w (s + i) = u (t + i)) :
    val β w s n = val β u t n := by
  induction n with
  | zero => rfl
  | succ n ih => rw [val_succ, val_succ, ih (fun i hi => h i (by omega)), h n (by omega)]

lemma Digits.mono (h : Digits β w s n) (hs : s ≤ t) (hn : t + m ≤ s + n) :
    Digits β w t m :=
  fun i h0 h1 => h i (by omega) (by omega)

lemma Digits.congr (h : Digits β w s n) (hw : ∀ i, s ≤ i -> i < s + n -> u i = w i) :
    Digits β u s n := by
  intro i h0 h1
  rw [hw i h0 h1]
  exact h i h0 h1

lemma Digits.le (h : Digits β w s n) {γ : Int} (hγ : β ≤ γ) : Digits γ w s n :=
  fun i h0 h1 => ⟨(h i h0 h1).1, (h i h0 h1).2.trans_le hγ⟩

lemma val_nonneg (hβ : 0 ≤ β) (h : Digits β w s n) : 0 ≤ val β w s n := by
  induction n with
  | zero => exact le_rfl
  | succ n ih =>
    have hn := (h (s + n) (by omega) (by omega)).1
    have hr := ih (h.mono (by omega) (by omega))
    rw [val_succ]
    positivity

lemma val_lt (hβ : 0 ≤ β) (h : Digits β w s n) : val β w s n < β ^ n := by
  induction n with
  | zero => simp
  | succ n ih =>
    have hn := (h (s + n) (by omega) (by omega)).2
    have hr := ih (h.mono (by omega) (by omega))
    have hmul := mul_le_mul_of_nonneg_right hr hβ
    rw [val_succ, pow_succ]
    linarith

lemma val_eq_zero (h : ∀ i, s ≤ i -> i < s + n -> w i = 0) : val β w s n = 0 := by
  induction n with
  | zero => rfl
  | succ n ih =>
    rw [val_succ, ih (fun i h0 h1 => h i h0 (by omega)), h (s + n) (by omega) (by omega)]
    simp

lemma val_leading_zeros (hst : s + m = t) (h : ∀ i, s ≤ i -> i < t -> w i = 0) :
    val β w s (m + n) = val β w t n := by
  rw [val_add, val_eq_zero (fun i h0 h1 => h i h0 (by omega)), zero_mul, zero_add, hst]

lemma val_trailing_zeros (h : ∀ i, s + m ≤ i -> i < s + m + n -> w i = 0) :
    val β w s (m + n) = val β w s m * β ^ n := by
  rw [val_add, val_eq_zero h, add_zero]

lemma pow_le_val (hβ : 0 < β) (h : Digits β w s (n + 1)) (hw : w s ≠ 0) :
    β ^ n ≤ val β w s (n + 1) := by
  have h0 := (h s le_rfl (by omega)).1
  have htail := val_nonneg hβ.le (h.mono (t := s + 1) (m := n) (by omega) (by omega))
  have hpow := pow_pos hβ n
  have hlead : 1 * β ^ n ≤ w s * β ^ n := mul_le_mul_of_nonneg_right (by omega) hpow.le
  rw [val_cons]
  linarith

lemma val_lt_of_lt (hβ : 0 < β) (hw : Digits β w s n)
    (hv : Digits β v t n) (k : Nat) (hk : k < n) (same : ∀ i : Nat, i < k -> w (s + i) = v (t + i))
    (less : w (s + k) < v (t + k)) : val β w s n < val β v t n := by
  obtain ⟨r, rfl⟩ : ∃ r, n = k + (r + 1) := ⟨n - k - 1, by omega⟩
  have hprefix : val β w s k = val β v t k := val_shift same
  have hlow := val_lt hβ.le (hw.mono (t := s + k + 1) (m := r) (by omega) (by omega))
  have hhigh := val_nonneg hβ.le (hv.mono (t := t + k + 1) (m := r) (by omega) (by omega))
  have hpow : 0 < β ^ r := pow_pos hβ r
  have hlead : (w (s + k) + 1) * β ^ r ≤ v (t + k) * β ^ r :=
    mul_le_mul_of_nonneg_right less hpow.le
  rw [val_add β w, val_add β v, hprefix, val_cons β w, val_cons β v]
  linarith

lemma compare_eq_compare_iff {α γ : Type*} [LinearOrder α] [LinearOrder γ] {a b : α} {x y : γ} :
    compare a b = compare x y ↔ (a < b ↔ x < y) ∧ (b < a ↔ y < x) := by
  constructor
  · intro h
    exact ⟨by rw [← compare_lt_iff_lt, h, compare_lt_iff_lt],
      by rw [← compare_gt_iff_gt, h, compare_gt_iff_gt]⟩
  · rintro ⟨hlt, hgt⟩
    rcases lt_trichotomy x y with h | h | h
    · rw [compare_lt_iff_lt.mpr h, compare_lt_iff_lt.mpr (hlt.mpr h)]
    · rw [compare_eq_iff_eq.mpr h, compare_eq_iff_eq]
      exact le_antisymm (not_lt.mp fun hba => (hgt.mp hba).ne' h)
        (not_lt.mp fun hab => (hlt.mp hab).ne h)
    · rw [compare_gt_iff_gt.mpr h, compare_gt_iff_gt.mpr (hgt.mpr h)]

lemma compare_mul_add {c r s a b : Int} (hr0 : 0 ≤ r) (hr : r < c) (hs0 : 0 ≤ s)
    (hs : s < c) : compare (a * c + r) (b * c + s) = (compare a b).then (compare r s) := by
  have less : ∀ {a b r s : Int}, a < b -> r < c -> 0 ≤ s -> a * c + r < b * c + s := by
    intro a b r s hab hr hs0
    have hmul : (a + 1) * c ≤ b * c := mul_le_mul_of_nonneg_right hab (by linarith)
    linarith
  rcases lt_trichotomy a b with hab | rfl | hab
  · rw [compare_lt_iff_lt.mpr hab, compare_lt_iff_lt.mpr (less hab hr hs0)]
    rfl
  · rw [compare_eq_iff_eq.mpr rfl]
    rcases lt_trichotomy r s with hrs | rfl | hrs
    · rw [compare_lt_iff_lt.mpr hrs, compare_lt_iff_lt.mpr (by linarith)]
      rfl
    · simp
    · rw [compare_gt_iff_gt.mpr hrs, compare_gt_iff_gt.mpr (by linarith)]
      rfl
  · rw [compare_gt_iff_gt.mpr hab, compare_gt_iff_gt.mpr (less hab hs hr0)]
    rfl

lemma compare_val_base {t γ : Int} (hw : Digits β w s n) (hv : Digits β v t n)
    (hγ : β ≤ γ) : compare (val β w s n) (val β v t n) = compare (val γ w s n) (val γ v t n) := by
  induction n with
  | zero => rfl
  | succ n ih =>
    obtain ⟨hx0, hx⟩ := hw (s + n) (by omega) (by omega)
    obtain ⟨hy0, hy⟩ := hv (t + n) (by omega) (by omega)
    rw [val_succ, val_succ, val_succ, val_succ, compare_mul_add hx0 hx hy0 hy,
      compare_mul_add hx0 (hx.trans_le hγ) hy0 (hy.trans_le hγ),
      ih (hw.mono le_rfl (by omega)) (hv.mono le_rfl (by omega))]

/-- The first digits of a window bound the whole of it, at any greater precision. -/
lemma val_mem_prefix (hβ : 0 < β) (h : Digits β w s n) {k N : Nat} (hk : k ≤ n) (hn : n ≤ N) :
    val β w s k * β ^ (N - k) ≤ val β w s n * β ^ (N - n) ∧
      val β w s n * β ^ (N - n) < (val β w s k + 1) * β ^ (N - k) := by
  obtain ⟨r, rfl⟩ := Nat.exists_eq_add_of_le hk
  have htail := h.mono (t := s + k) (m := r) (by omega) (by omega)
  have hlow := val_nonneg hβ.le htail
  have hhigh := val_lt hβ.le htail
  have hpow : 0 < β ^ (N - (k + r)) := pow_pos hβ _
  rw [val_add, show N - k = r + (N - (k + r)) by omega, pow_add, ← mul_assoc, ← mul_assoc]
  refine ⟨mul_le_mul_of_nonneg_right ?_ hpow.le, mul_lt_mul_of_pos_right ?_ hpow⟩ <;> linarith

lemma val_pos (hβ : 0 < β) (h : Digits β w s n) {i : Int} (h0 : s ≤ i) (h1 : i < s + n)
    (hi : w i ≠ 0) : 0 < val β w s n := by
  induction n with
  | zero => omega
  | succ n ih =>
    have hn := (h (s + n) (by omega) (by omega)).1
    have hrest := val_nonneg hβ.le (h.mono (t := s) (m := n) (by omega) (by omega))
    rw [val_succ]
    by_cases hlast : i = s + n
    · rw [hlast] at hi
      have hprod := mul_nonneg hrest hβ.le
      omega
    · have hprod : 0 < val β w s n * β :=
        mul_pos (ih (h.mono le_rfl (by omega)) (by omega)) hβ
      omega

lemma val_of_dvd {k : Nat} (hβ : 0 < β) (h : Digits β w s (n + k))
    (hdvd : β ^ k ∣ val β w s (n + k)) : val β w s (n + k) = val β w s n * β ^ k := by
  have hlow := h.mono (t := s + n) (m := k) (by omega) (by omega)
  rw [val_add] at hdvd ⊢
  have hlow0 := Int.eq_zero_of_dvd_of_nonneg_of_lt (val_nonneg hβ.le hlow) (val_lt hβ.le hlow)
    ((Int.dvd_add_right (Dvd.intro_left _ rfl)).mp hdvd)
  rw [hlow0, add_zero]

end Numerals

/-- `while (n left && *p == 0) p += step` -/
def skipZeros (b : Words) (step : Int) : Nat -> Int -> Option Int
  | 0, p => some p
  | n + 1, p => do
    let x ← b.load p
    if x = 0 then skipZeros b step n (p + step) else some p

variable (b : Words)

def skipUp : Nat -> Int -> Option Int := skipZeros b 1

def skipDown : Nat -> Int -> Option Int := skipZeros b (-1)

/-- `while (n left && *p == *q) p++, q++` -/
def matchUp (a b : Words) : Nat -> Int -> Int -> Option (Int × Int)
  | 0, p, q => some (p, q)
  | n + 1, p, q => do
    let x ← a.load p
    let y ← b.load q
    if x = y then matchUp a b n (p + 1) (q + 1) else some (p, q)

lemma matchUp_spec (a b : Words) (n : Nat) (p q : Int) (hp0 : 0 ≤ p) (hp : p + n ≤ a.size)
    (hq0 : 0 ≤ q) (hq : q + n ≤ b.size) :
    ∃ k : Nat, k ≤ n ∧ matchUp a b n p q = some (p + k, q + k) ∧
      (∀ i : Nat, i < k -> a.word (p + i) = b.word (q + i)) ∧
      (k < n -> a.word (p + k) ≠ b.word (q + k)) := by
  induction n generalizing p q with
  | zero => exact ⟨0, le_rfl, by simp [matchUp], by omega, by omega⟩
  | succ n ih =>
    simp only [matchUp, a.load_eq hp0 (by omega), b.load_eq hq0 (by omega), some_bind]
    by_cases hx : a.word p = b.word q
    · obtain ⟨k, hk, hrun, hsame, hstop⟩ := ih (p + 1) (q + 1) (by omega) (by omega) (by omega)
        (by omega)
      have e : ∀ s : Int, s + ((k + 1 : Nat) : Int) = s + 1 + k := fun s => by push_cast; ring
      refine ⟨k + 1, by omega, ?_, ?_, ?_⟩
      · rw [if_pos hx, hrun, e, e]
      · intro i hi
        cases i with
        | zero => simpa using hx
        | succ i =>
          have := hsame i (by omega)
          rwa [show p + 1 + (i : Int) = p + ((i + 1 : Nat) : Int) by push_cast; ring,
            show q + 1 + (i : Int) = q + ((i + 1 : Nat) : Int) by push_cast; ring] at this
      · intro hlt
        rw [e, e]
        exact hstop (by omega)
    · exact ⟨0, by omega, by simp [hx], by omega, fun _ => by simpa using hx⟩

lemma skipZeros_spec (step : Int) (n : Nat) (p : Int)
    (hin : ∀ i : Nat, i < n -> 0 ≤ p + step * i ∧ p + step * i < b.size) :
    ∃ k : Nat, k ≤ n ∧ skipZeros b step n p = some (p + step * k) ∧
      (∀ i : Nat, i < k -> b.word (p + step * i) = 0) ∧ (k < n -> b.word (p + step * k) ≠ 0) := by
  induction n generalizing p with
  | zero => exact ⟨0, le_rfl, by simp [skipZeros], by omega, by omega⟩
  | succ n ih =>
    have hmove : ∀ i : Nat, p + step + step * i = p + step * (i + 1 : Nat) := fun i => by
      rw [Nat.cast_succ, Int.mul_add]
      omega
    obtain ⟨h0, h1⟩ := hin 0 (by omega)
    rw [Nat.cast_zero, mul_zero, add_zero] at h0 h1
    simp only [skipZeros, b.load_eq h0 h1, some_bind]
    by_cases hx : b.word p = 0
    · obtain ⟨k, hk, hrun, hzero, hstop⟩ := ih (p + step) fun i hi => by
        rw [hmove]
        exact hin (i + 1) (by omega)
      simp only [hmove] at hrun hzero hstop
      refine ⟨k + 1, by omega, by rw [if_pos hx, hrun], ?_, fun hlt => hstop (by omega)⟩
      intro i hi
      cases i with
      | zero => simpa using hx
      | succ i => exact hzero i (by omega)
    · exact ⟨0, by omega, by simp [hx], by omega, fun _ => by simpa using hx⟩

lemma skipUp_spec (n : Nat) (p : Int) (h0 : 0 ≤ p) (h1 : p + n ≤ b.size) :
    ∃ k : Nat, k ≤ n ∧ skipUp b n p = some (p + k) ∧
      (∀ i, p ≤ i -> i < p + k -> b.word i = 0) ∧ (k < n -> b.word (p + k) ≠ 0) := by
  obtain ⟨k, hk, hrun, hzero, hstop⟩ := skipZeros_spec b 1 n p (by omega)
  rw [one_mul] at hrun hstop
  refine ⟨k, hk, hrun, fun i hi0 hi1 => ?_, hstop⟩
  rw [← hzero (i - p).toNat (by omega), show p + 1 * ((i - p).toNat : Int) = i by omega]

lemma skipDown_spec (n : Nat) (p : Int) (h0 : 0 ≤ p + 1 - n) (h1 : p < b.size) :
    ∃ k : Nat, k ≤ n ∧ skipDown b n p = some (p - k) ∧
      (∀ i, p - k < i -> i ≤ p -> b.word i = 0) ∧ (k < n -> b.word (p - k) ≠ 0) := by
  obtain ⟨k, hk, hrun, hzero, hstop⟩ := skipZeros_spec b (-1) n p (by omega)
  rw [neg_one_mul, ← sub_eq_add_neg] at hrun hstop
  refine ⟨k, hk, hrun, fun i hi0 hi1 => ?_, hstop⟩
  rw [← hzero (p - i).toNat (by omega), show p + -1 * ((p - i).toNat : Int) = i by omega]

/-- Walk down `n` words: read an addend below `p` and another below `q`, write
the combined word below `r`, and hand the carry on. The first reader sees the
output array, so that a routine may update a window in place. -/
def ripple (f : Int -> Int -> Int -> Int × Int) (rx : Words -> Int -> Option Int)
    (ry : Int -> Option Int) : Nat -> Int -> Int -> Int -> Int -> Words -> Option (Words × Int)
  | 0, _, _, _, carry, out => some (out, carry)
  | n + 1, p, q, r, carry, out => do
    let x ← rx out (p - 1)
    let y ← ry (q - 1)
    let out' ← out.store (r - 1) (f x y carry).1
    ripple f rx ry n (p - 1) (q - 1) (r - 1) (f x y carry).2 out'

/-- What one cell of a ripple loop computes: `x + σ (m y + carry)`, with the part
that does not fit into a word handed on. `σ = 1` adds, `σ = -1` borrows and
`σ = 0` copies. -/
def Cell (β σ m bound : Int) (f : Int -> Int -> Int -> Int × Int) : Prop :=
  ∀ x y c, 0 ≤ x -> x < β -> 0 ≤ y -> y < β -> 0 ≤ c -> c < bound ->
    (0 ≤ (f x y c).1 ∧ (f x y c).1 < β) ∧ (0 ≤ (f x y c).2 ∧ (f x y c).2 < bound) ∧
      (f x y c).1 + σ * (β * (f x y c).2) = x + σ * (m * y + c)

structure Rippled (β σ bound : Int) (n : Nat) (r : Int) (out out' : Words)
    (carry total : Int) : Prop where
  size : out'.size = out.size
  frame : ∀ j, j < r - n ∨ r ≤ j -> out'.word j = out.word j
  digits : Digits β out'.word (r - n) n
  carry_nonneg : 0 ≤ carry
  carry_lt : carry < bound
  total_eq : val β out'.word (r - n) n + σ * (β ^ n * carry) = total

variable {f : Int -> Int -> Int -> Int × Int} {β σ m bound : Int}

/-- For the products with a digit, the low word goes into the cell and the high one to the carry. -/
lemma Cell.product (hf : Cell β σ 1 β f) (hσ : σ = 1 ∨ σ = -1) (hβ : 0 < β) {x : Int} (h0 : 0 ≤ x)
    (h1 : x < β) : Cell β σ x β fun z y c =>
      ((f z (x * y - x * y / β * β) c).1, (f z (x * y - x * y / β * β) c).2 + x * y / β) := by
  intro z y c hz0 hz hy0 hy hc0 hc
  have hprod : x * y ≤ (β - 1) * (β - 1) := mul_le_mul (by omega) (by omega) hy0 (by omega)
  have hhi := Int.ediv_nonneg (mul_nonneg h0 hy0) hβ.le
  have hsplit := Int.emod_add_mul_ediv (x * y) β
  have hlo : x * y - x * y / β * β = x * y % β := by linarith
  obtain ⟨hword, ⟨hcarry, -⟩, hsum⟩ := hf z (x * y % β) c hz0 hz (Int.emod_nonneg _ hβ.ne')
    (Int.emod_lt_of_pos _ hβ) hc0 hc
  simp only [hlo]
  refine ⟨hword, ⟨by omega, lt_of_mul_lt_mul_left ?_ hβ.le⟩, ?_⟩
  iterate 2 rcases hσ with rfl | rfl <;> linarith

lemma ripple_spec
    (cell : Cell β σ m bound f) (rx : Words -> Int -> Option Int) (ry : Int -> Option Int)
    (X Y : Int -> Int) (n : Nat) (p q r carry : Int) (out : Words)
    (readX : ∀ b : Words, ∀ i, p - n ≤ i -> i < p -> b.size = out.size ->
      (∀ j, j < r - (p - 1 - i) -> b.word j = out.word j) -> rx b i = some (X i))
    (readY : ∀ i, q - n ≤ i -> i < q -> ry i = some (Y i))
    (hX : Digits β X (p - n) n) (hY : Digits β Y (q - n) n)
    (hlow : 0 ≤ r - n) (hhigh : r ≤ out.size) (hc0 : 0 ≤ carry) (hc : carry < bound) :
    ∃ out' carry', ripple f rx ry n p q r carry out = some (out', carry') ∧
      Rippled β σ bound n r out out' carry'
        (val β X (p - n) n + σ * (m * val β Y (q - n) n + carry)) := by
  induction n generalizing p q r carry out with
  | zero =>
    refine ⟨out, carry, rfl, ⟨rfl, fun _ _ => rfl, ?_, hc0, hc, by simp⟩⟩
    intro i h0 h1
    omega
  | succ n ih =>
    have hx := hX (p - 1) (by omega) (by omega)
    have hy := hY (q - 1) (by omega) (by omega)
    obtain ⟨hword, hcarry, hsum⟩ := cell _ _ carry hx.1 hx.2 hy.1 hy.2 hc0 hc
    set res := f (X (p - 1)) (Y (q - 1)) carry with hres
    have hstore := out.store_eq (i := r - 1) res.1 (by omega) (by omega)
    obtain ⟨out', carry', hrun, hfin⟩ := ih (p - 1) (q - 1) (r - 1) res.2 (out.put (r - 1) res.1)
      (fun b i h0 h1 hsize hframe => readX b i (by omega) (by omega) hsize (fun j hj => by
        rw [hframe j (by omega), Words.word_put_ne (by omega)]))
      (fun i h0 h1 => readY i (by omega) (by omega))
      (hX.mono (by omega) (by omega)) (hY.mono (by omega) (by omega))
      (by omega) (by simp; omega) hcarry.1 hcarry.2
    have hlast : out'.word (r - 1) = res.1 := by
      rw [hfin.frame (r - 1) (Or.inr le_rfl), Words.word_put_self]
    refine ⟨out', carry', ?_, ?_⟩
    · simp only [ripple, readX out (p - 1) (by omega) (by omega) rfl (fun _ _ => rfl),
        readY (q - 1) (by omega) (by omega), some_bind]
      rw [hstore]
      exact hrun
    · refine ⟨hfin.size, ?_, ?_, hfin.carry_nonneg, hfin.carry_lt, ?_⟩
      · intro j hj
        rw [hfin.frame j (by omega), Words.word_put_ne (by omega)]
      · intro i h0 h1
        by_cases hi : i = r - 1
        · rw [hi, hlast]
          exact hword
        · exact hfin.digits i (by omega) (by omega)
      · have htotal := hfin.total_eq
        have e1 : r - ((n + 1 : Nat) : Int) = r - 1 - n := by push_cast; ring
        have e2 : p - ((n + 1 : Nat) : Int) = p - 1 - n := by push_cast; ring
        have e3 : q - ((n + 1 : Nat) : Int) = q - 1 - n := by push_cast; ring
        rw [e1, e2, e3, val_succ, val_succ, val_succ, sub_add_cancel, sub_add_cancel,
          sub_add_cancel, hlast]
        linear_combination β * htotal + hsum

lemma Rippled.append {β σ bound c1 c2 t1 r : Int} {n m : Nat} {out out1 out2 : Words}
    (h1 : Rippled β σ bound n r out out1 c1 t1) (t2 : Int)
    (h2 : Rippled β σ bound m (r - n) out1 out2 c2 (t2 + σ * c1)) :
    Rippled β σ bound (n + m) r out out2 c2 (t2 * β ^ n + t1) where
  size := h2.size.trans h1.size
  frame j hj := by rw [h2.frame j (by omega), h1.frame j (by omega)]
  digits i hi0 hi1 := by
    by_cases hi : i < r - n
    · exact h2.digits i (by omega) (by omega)
    · rw [h2.frame i (by omega)]
      exact h1.digits i (by omega) (by omega)
  carry_nonneg := h2.carry_nonneg
  carry_lt := h2.carry_lt
  total_eq := by
    have low : val β out2.word (r - n) n = val β out1.word (r - n) n :=
      val_congr (fun i h0 _ => h2.frame i (Or.inr h0))
    rw [show r - ((n + m : Nat) : Int) = r - n - m by omega, Nat.add_comm n m, val_add,
      sub_add_cancel, low]
    linear_combination β ^ n * h2.total_eq + h1.total_eq

lemma ripple_arrays
    (cell : Cell β σ m bound f) (a b : Words) (n : Nat) (p q r carry : Int) (out : Words)
    (hp0 : 0 ≤ p - n) (hp : p ≤ a.size) (ha : Digits β a.word (p - n) n)
    (hq0 : 0 ≤ q - n) (hq : q ≤ b.size) (hb : Digits β b.word (q - n) n)
    (hr0 : 0 ≤ r - n) (hr : r ≤ out.size) (hc0 : 0 ≤ carry) (hc : carry < bound) :
    ∃ out' carry', ripple f (fun _ i => a.load i) b.load n p q r carry out = some (out', carry') ∧
      Rippled β σ bound n r out out' carry'
        (val β a.word (p - n) n + σ * (m * val β b.word (q - n) n + carry)) :=
  ripple_spec cell (fun _ i => a.load i) b.load a.word b.word n p q r carry out
    (fun _ _ _ _ _ _ => a.load_eq (by omega) (by omega))
    (fun _ _ _ => b.load_eq (by omega) (by omega)) ha hb hr0 hr hc0 hc

end WordArray
