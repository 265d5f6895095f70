import Mathlib.Tactic.Ring
import Mathlib.Tactic.Linarith

/-!
# Guessing a quotient digit from two words

Long division in base `β`. The divisor starts with the words `b0` and `b1`, the
part of the dividend in question with the double word `x` and the word `y`.
Only the guess is normalised: both are scaled by `β / (b0 + 1)` and cut to whole
words before they are divided. The guess is never too small, at most two too
large for the leading words, and once it is right for these at most one too
large for the whole divisor.
-/

namespace QuotientGuess

/-- A quotient is known by the two multiples of the divisor around the dividend. -/
lemma ediv_eq_of_bounds {a b q : Int} (hb : 0 < b) (hle : q * b ≤ a) (hlt : a < (q + 1) * b) :
    a / b = q := by
  have h1 := (Int.le_ediv_iff_mul_le hb).mpr hle
  have h2 := Int.ediv_lt_of_lt_mul hb hlt
  omega

/-- The factor that makes the leading word of the divisor large. -/
def factor (β b0 : Int) : Int := β / (b0 + 1)

/-- The leading words of the divisor, scaled and cut to one word. -/
def norm (β b0 b1 : Int) : Int := factor β b0 * b0 + factor β b0 * b1 / β

/-- The leading words of the dividend, scaled and cut by one word. -/
def scaled (β b0 x y : Int) : Int := factor β b0 * x + factor β b0 * y / β

section Bounds
variable {β b0 b1 x y : Int}

lemma factor_pos (hb0 : 1 ≤ b0) (hb : b0 < β) : 1 ≤ factor β b0 :=
  (Int.le_ediv_iff_mul_le (by omega)).mpr (by omega)

lemma factor_mul_le (hb0 : 1 ≤ b0) : factor β b0 * (b0 + 1) ≤ β := Int.ediv_mul_le β (by omega)

lemma lt_factor_mul (hb0 : 1 ≤ b0) : β - b0 ≤ factor β b0 * (b0 + 1) := by
  have h := Int.lt_ediv_add_one_mul_self β (show 0 < b0 + 1 by omega)
  have e : (β / (b0 + 1) + 1) * (b0 + 1) = factor β b0 * (b0 + 1) + (b0 + 1) := by
    rw [factor]
    ring
  omega

lemma half_le_norm (hb0 : 1 ≤ b0) (hb : b0 < β) : β - 1 ≤ 2 * (factor β b0 * b0) := by
  by_cases hlarge : β - 1 ≤ 2 * b0
  · have h := mul_le_mul_of_nonneg_right (factor_pos hb0 hb) (show 0 ≤ b0 by omega)
    omega
  · have hmul : (β - b0) * (2 * b0) ≤ factor β b0 * (b0 + 1) * (2 * b0) :=
      mul_le_mul_of_nonneg_right (lt_factor_mul hb0) (by omega)
    have hgap : 0 ≤ (b0 - 1) * (β - 2 * b0) := mul_nonneg (by omega) (by omega)
    have hlt : (β - 2) * (b0 + 1) < 2 * (factor β b0 * b0) * (b0 + 1) := by linarith
    have := lt_of_mul_lt_mul_right hlt (by omega)
    omega

lemma scaled_mul_le (b0 x y : Int) (hβ : 0 < β) : scaled β b0 x y * β ≤ factor β b0 * (x * β + y) := by
  have h := Int.ediv_mul_le (factor β b0 * y) hβ.ne'
  rw [scaled]
  linarith

lemma lt_scaled_mul (b0 x y : Int) (hβ : 0 < β) : factor β b0 * (x * β + y) < scaled β b0 x y * β + β := by
  have h := Int.lt_ediv_add_one_mul_self (factor β b0 * y) hβ
  rw [scaled]
  linarith

section
variable (hb0 : 1 ≤ b0) (hb : b0 < β) (hb1 : 0 ≤ b1)
include hb0 hb hb1

lemma norm_pos : 0 < norm β b0 b1 := by
  have hf := factor_pos hb0 hb
  have hlead : 1 * 1 ≤ factor β b0 * b0 := mul_le_mul hf hb0 (by omega) (by omega)
  have hrest : 0 ≤ factor β b0 * b1 / β := Int.ediv_nonneg (mul_nonneg (by omega) hb1) (by omega)
  rw [norm]
  omega

lemma le_guess {q : Int} (hq : 0 ≤ q) (h : q * (b0 * β + b1) ≤ x * β + y) :
    q ≤ scaled β b0 x y / norm β b0 b1 := by
  have hf := factor_pos hb0 hb
  have hβ : 0 < β := by omega
  rw [Int.le_ediv_iff_mul_le (norm_pos hb0 hb hb1)]
  have h1 : q * (norm β b0 b1 * β) ≤ q * (factor β b0 * (b0 * β + b1)) :=
    mul_le_mul_of_nonneg_left (scaled_mul_le b0 b0 b1 hβ) hq
  have h2 : factor β b0 * (q * (b0 * β + b1)) ≤ factor β b0 * (x * β + y) :=
    mul_le_mul_of_nonneg_left h (by omega)
  have h3 := lt_scaled_mul b0 x y hβ
  have h4 : q * norm β b0 b1 * β < (scaled β b0 x y + 1) * β := by linarith
  have h5 := lt_of_mul_lt_mul_right h4 hβ.le
  omega

/-- A guess below the base is at most two too large for the leading words. -/
lemma guess_lt {g : Int} (hg0 : 0 ≤ g) (hg : g < β) (h : g * norm β b0 b1 ≤ scaled β b0 x y) :
    g * (b0 * β + b1) < x * β + y + 2 * (b0 * β + b1) := by
  have hf := factor_pos hb0 hb
  have hβ : 0 < β := by omega
  have h1 : g * (factor β b0 * (b0 * β + b1)) ≤ g * (norm β b0 b1 * β + (β - 1)) :=
    mul_le_mul_of_nonneg_left (Int.le_sub_one_of_lt (lt_scaled_mul b0 b0 b1 hβ) |>.trans_eq
      (add_sub_assoc ..)) hg0
  have h2 := mul_le_mul_of_nonneg_right h hβ.le
  have h3 := scaled_mul_le b0 x y hβ
  have h4 : g * (β - 1) ≤ (β - 1) * (β - 1) := mul_le_mul_of_nonneg_right (by omega) (by omega)
  have h5 : (β - 1) * β ≤ 2 * (factor β b0 * b0) * β :=
    mul_le_mul_of_nonneg_right (half_le_norm hb0 hb) hβ.le
  have h6 : 0 ≤ factor β b0 * b1 := mul_nonneg (by omega) hb1
  have h7 : factor β b0 * (g * (b0 * β + b1)) <
      factor β b0 * (x * β + y + 2 * (b0 * β + b1)) := by linarith
  exact lt_of_mul_lt_mul_left h7 (by omega)

end

end Bounds

/-- One correction: a guess too large for the leading words is made one less. -/
def lower (V2 X2 g : Int) : Int := if X2 < g * V2 then g - 1 else g

section Lower
variable {V2 X2 g q : Int}

lemma le_lower (hV : 0 < V2) (h : q * V2 ≤ X2) (hq : q ≤ g) : q ≤ lower V2 X2 g := by
  unfold lower
  split
  · rename_i hlt
    have := lt_of_mul_lt_mul_right (h.trans_lt hlt) hV.le
    omega
  · exact hq

lemma lower_le : lower V2 X2 g ≤ g := by
  unfold lower
  split <;> omega

lemma lower_mul_lt {k : Int} (h : g * V2 < X2 + (k + 1) * V2) :
    lower V2 X2 g * V2 < X2 + k * V2 ∨ lower V2 X2 g * V2 ≤ X2 := by
  unfold lower
  split
  · exact Or.inl (by linarith)
  · exact Or.inr (by linarith)

end Lower

section Words
variable {V2 X2 P lowV lowX q : Int}

/-- A digit that is right for the whole numbers fits into the leading words. -/
lemma leading_le (hP : 0 < P) (hV : 0 ≤ lowV) (hX : lowX < P) (hq : 0 ≤ q)
    (h : q * (V2 * P + lowV) ≤ X2 * P + lowX) : q * V2 ≤ X2 := by
  have hlow := mul_nonneg hq hV
  have hlt : q * V2 * P < (X2 + 1) * P := by linarith
  have := lt_of_mul_lt_mul_right hlt hP.le
  omega

/-- A digit that fits into the leading words is at most one too large. -/
lemma leading_lt {β g : Int} (hP : 0 < P) (hV0 : 0 ≤ lowV) (hV : lowV < P) (hX : 0 ≤ lowX)
    (hg0 : 0 ≤ g) (hg : g < β) (hlarge : β ≤ V2) (h : g * V2 ≤ X2) :
    (g - 1) * (V2 * P + lowV) < X2 * P + lowX := by
  have h1 := mul_le_mul_of_nonneg_right h hP.le
  have h2 := mul_le_mul_of_nonneg_left hV.le hg0
  have h3 : g * P < V2 * P := mul_lt_mul_of_pos_right (by omega) hP
  linarith

end Words

end QuotientGuess
