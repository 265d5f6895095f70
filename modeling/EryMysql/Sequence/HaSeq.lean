import Mathlib.Algebra.Order.Ring.Int
import Mathlib.Tactic.Ring

/-!
# Sequence tables

storage/sequence/sequence.cc: a table has the rows `from`, `from + step` and so on below `to`. The
handler has no rows in memory, only the cursor `cur`, which is before the next row of a scan
forwards and on the last row of a scan backwards. A `ulonglong` is an integer modulo `2 ^ 64`.
-/

namespace Sequence

open List

def ull (x : Int) : Int := x % 2 ^ 64

/-- `start` and `stop` are the fields `from` and `to`. -/
structure SequenceShare where
  start : Int
  stop : Int
  step : Int
  reverse : Bool

inductive HaErr
  | endOfFile
deriving DecidableEq

/-- What a read returns and puts into the record, and `cur` after it. -/
abbrev Read := Except HaErr Int × Int

def getShare (start stop step : Int) : SequenceShare :=
  let reverse := decide (stop < start)
  let (start, stop) :=
    if reverse then if start - stop < step then (start, start) else (stop, start)
    else (start, stop)
  ⟨start, ull ((stop - start) / step * step + step + start), step, reverse⟩

namespace SequenceShare

def indexNext (s : SequenceShare) (cur : Int) : Read :=
  if cur = s.stop then (.error .endOfFile, cur) else (.ok cur, ull (cur + s.step))

def indexPrev (s : SequenceShare) (cur : Int) : Read :=
  if cur = s.start then (.error .endOfFile, cur)
  else (.ok (ull (cur - s.step)), ull (cur - s.step))

def rndInit (s : SequenceShare) : Int := if s.reverse then s.stop else s.start

def rndNext (s : SequenceShare) (cur : Int) : Read :=
  if s.reverse then s.indexPrev cur else s.indexNext cur

def visit (next : Int -> Read) : Nat -> Int -> List Int
  | 0, _ => []
  | fuel + 1, cur =>
    match next cur with
    | (.ok row, cur) => row :: visit next fuel cur
    | (.error _, _) => []

variable {s : SequenceShare} {n i k fuel : Nat}

def row (s : SequenceShare) (i : Nat) : Int := s.start + i * s.step

lemma row_zero : s.row 0 = s.start := by simp [row]

lemma row_succ (i : Nat) : s.row (i + 1) = s.row i + s.step := by
  rw [row, row]
  push_cast
  ring

/-- The share has `n` rows of 64 bits; the end after them may have wrapped around. -/
structure Spans (s : SequenceShare) (n : Nat) : Prop where
  nonneg : 0 ≤ s.start
  step_pos : 0 < s.step
  step_lt : s.step < 2 ^ 64
  pos : 0 < n
  last : s.row (n - 1) < 2 ^ 64
  stop : s.stop = ull (s.row n)

lemma Spans.row_lt (h : s.Spans n) (hik : i < k) : s.row i < s.row k :=
  Int.add_lt_add_left (Int.mul_lt_mul_of_pos_right (Int.ofNat_lt.mpr hik) h.step_pos) _

lemma Spans.row_le (h : s.Spans n) (hik : i ≤ k) : s.row i ≤ s.row k :=
  Int.add_le_add_left (Int.mul_le_mul_of_nonneg_right (Int.ofNat_le.mpr hik) h.step_pos.le) _

lemma Spans.row_lt_row (h : s.Spans n) (hik : i < k) : s.row i + s.step ≤ s.row k :=
  row_succ i ▸ h.row_le hik

lemma Spans.ull_row (h : s.Spans n) (hi : i < n) : ull (s.row i) = s.row i := by
  have hge := h.row_le i.zero_le
  have hle := h.row_le (Nat.le_sub_one_of_lt hi)
  rw [row_zero] at hge
  exact Int.emod_eq_of_lt (h.nonneg.trans hge) (hle.trans_lt h.last)

/-- A scan forwards from row `i`, when the end is not met before. -/
lemma Spans.visit_next (h : s.Spans n) (hne : ∀ i < n, s.row i ≠ s.stop) (hik : i + k = n)
    (hfuel : k ≤ fuel) :
    visit s.indexNext fuel (ull (s.row i)) = (range k).map fun j => s.row (i + j) := by
  induction k generalizing i fuel with
  | zero =>
    cases fuel with
    | zero => rfl
    | succ fuel =>
      rw [visit, indexNext, if_pos (by rw [h.stop, ← hik, add_zero])]
      rfl
  | succ k ih =>
    obtain ⟨fuel, rfl⟩ := Nat.exists_eq_add_of_le' (Nat.le_trans (Nat.le_add_left 1 k) hfuel)
    have htail := ih (show i + 1 + k = n by omega) (Nat.le_of_succ_le_succ hfuel)
    rw [visit, h.ull_row (by omega), indexNext, if_neg (hne i (by omega)), ← row_succ]
    simp only [htail, range_succ_eq_map, map_cons, map_map, add_zero, Function.comp_def,
      Nat.succ_eq_add_one, add_assoc, add_comm 1]

lemma Spans.visit_prev (h : s.Spans n) (hne : s.stop ≠ s.start) (hk : k ≤ n) (hfuel : k ≤ fuel) :
    visit s.indexPrev fuel (ull (s.row k)) = (range k).reverse.map s.row := by
  induction k generalizing fuel with
  | zero =>
    cases fuel with
    | zero => rfl
    | succ fuel =>
      rw [visit, indexPrev, if_pos (by rw [h.ull_row h.pos, row_zero])]
      rfl
  | succ k ih =>
    obtain ⟨fuel, rfl⟩ := Nat.exists_eq_add_of_le' (Nat.le_trans (Nat.le_add_left 1 k) hfuel)
    have hstart : ull (s.row (k + 1)) ≠ s.start := by
      rcases hk.lt_or_eq with hlt | heq
      · rw [h.ull_row hlt, ← row_zero]
        exact (h.row_lt (Nat.succ_pos k)).ne'
      · rwa [heq, ← h.stop]
    have hprev : ull (ull (s.row (k + 1)) - s.step) = ull (s.row k) := by
      rw [row_succ, ull, ull, ull, Int.emod_sub_emod, Int.add_sub_cancel]
    rw [visit, indexPrev, if_neg hstart, hprev]
    simp only [ih (by omega) (Nat.le_of_succ_le_succ hfuel), range_succ, reverse_append,
      reverse_singleton, singleton_append, map_cons]
    rw [h.ull_row (by omega)]

lemma ull_eq {x : Int} (h0 : 0 ≤ x) (h : x < 2 ^ 64) : ull x = x := Int.emod_eq_of_lt h0 h

end SequenceShare

open SequenceShare

def rowCount (start stop step : Int) : Nat := (|start - stop| / step).toNat + 1

lemma spans_of_le {lo hi step : Int} (reverse : Bool) (hlo : 0 ≤ lo) (hle : lo ≤ hi)
    (hhi : hi < 2 ^ 64) (hstep : 0 < step ∧ step < 2 ^ 64) :
    Spans ⟨lo, ull ((hi - lo) / step * step + step + lo), step, reverse⟩
      (((hi - lo) / step).toNat + 1) := by
  have hcount := Int.toNat_of_nonneg (Int.ediv_nonneg (Int.sub_nonneg.mpr hle) hstep.1.le)
  refine ⟨hlo, hstep.1, hstep.2, Nat.succ_pos _, ?_, congrArg ull ?_⟩
  · have := Int.ediv_mul_le (hi - lo) hstep.1.ne'
    rw [Nat.add_sub_cancel, row, hcount]
    dsimp only
    omega
  · rw [row_succ, row, hcount]
    ring

lemma getShare_spans {start stop step : Int} (hstart : 0 ≤ start ∧ start < 2 ^ 64)
    (hstop : 0 ≤ stop ∧ stop < 2 ^ 64) (hstep : 0 < step ∧ step < 2 ^ 64) :
    (getShare start stop step).Spans (rowCount start stop step) := by
  unfold getShare rowCount
  by_cases hlt : stop < start
  · rw [abs_of_pos (by omega)]
    by_cases hone : start - stop < step
    · simp only [hlt, decide_true, if_true, hone]
      have := spans_of_le true hstart.1 le_rfl hstart.2 hstep
      rwa [Int.ediv_eq_zero_of_lt (by omega) hone, ← Int.zero_ediv step, ← Int.sub_self start]
    · simp only [hlt, decide_true, if_true, hone, if_false]
      exact spans_of_le true hstop.1 hlt.le hstart.2 hstep
  · rw [abs_of_nonpos (by omega), Int.neg_sub]
    simp only [hlt, decide_false, Bool.false_eq_true, if_false]
    exact spans_of_le false hstart.1 (not_lt.mp hlt) hstop.2 hstep

/-- `isNull` is set for `COUNT` of a `NULL` constant. -/
inductive ItemSum
  | count (isNull : Bool)
  | sum

namespace SequenceShare

def elements (s : SequenceShare) : Int := ull (s.stop - s.start + s.step - 1) / s.step

/-- `ha_seq_group_by_handler::next_row`: the values that are stored into the fields. -/
def nextRow (s : SequenceShare) (firstRow : Bool) (fields : List ItemSum) :
    Except HaErr (List Int) :=
  if firstRow then
    .ok (fields.map fun
      | .count isNull => if isNull then 0 else s.elements
      | .sum => ull (s.start * s.elements +
          ull (s.step * (s.elements * s.elements - s.elements)) / 2))
  else .error .endOfFile

def Scans (s : SequenceShare) (rows : List Int) : Prop :=
  ∀ fuel, rows.length ≤ fuel -> visit s.rndNext fuel s.rndInit = rows

/-- For `n` rows, neither the number of the rows, nor their sum, nor twice the part of the sum that
the steps make leaves 64 bits, or the end wraps around to the start. -/
def Aggregable (s : SequenceShare) (n : Int) : Prop :=
  n * s.step = 2 ^ 64 ∨ (n + 1) * s.step ≤ 2 ^ 64 ∧ s.step * (n * n - n) < 2 ^ 64 ∧
    2 * (s.start * n) + s.step * (n * n - n) < 2 ^ 65

end SequenceShare

def aggregate (rows : List Int) : ItemSum -> Int
  | .count isNull => if isNull then 0 else rows.length
  | .sum => rows.sum

variable {s : SequenceShare} {n : Nat}

lemma sum_row (s : SequenceShare) (n : Nat) :
    2 * ((range n).map s.row).sum = 2 * (s.start * n) + s.step * (n * n - n) := by
  induction n with
  | zero => simp
  | succ n ih =>
    rw [range_succ, map_append, sum_append, mul_add, ih, map_singleton, sum_singleton, row]
    push_cast
    ring

/-- The table is taken for an empty one when the end wraps around to the start. -/
lemma SequenceShare.Spans.scans (h : s.Spans n) : ∃ rows, Scans s rows ∧
    (n * s.step = 2 ^ 64 ∧ rows = [] ∨ n * s.step ≠ 2 ^ 64 ∧ rows.length = n ∧
      2 * rows.sum = 2 * (s.start * n) + s.step * (n * n - n)) := by
  have hend := h.stop
  have hlast := h.last
  have hstep := h.step_lt
  have hfirst := h.ull_row h.pos
  have hsucc : s.row n = s.row (n - 1) + s.step := by
    rw [← row_succ, Nat.sub_add_cancel h.pos]
  have hrow : s.row n = s.start + n * s.step := rfl
  rw [row_zero] at hfirst
  by_cases hall : n * s.step = 2 ^ 64
  · have hstop : s.stop = s.start := by
      unfold ull at *
      omega
    refine ⟨[], fun fuel _ => ?_, .inl ⟨hall, rfl⟩⟩
    cases fuel with
    | zero => rfl
    | succ fuel => cases hrev : s.reverse <;> simp [visit, rndNext, rndInit, hrev, hstop, indexNext,
        indexPrev]
  have hne : ∀ i < n, s.row i ≠ s.stop := by
    intro i hi heq
    have hgap := h.row_lt_row hi
    have hri := h.ull_row hi
    have hpos := h.step_pos
    rcases i.eq_zero_or_pos with rfl | hi0
    · rw [row_zero] at *
      unfold ull at *
      omega
    · have := h.row_lt_row hi0
      rw [row_zero] at this
      unfold ull at *
      omega
  unfold Scans rndNext rndInit
  cases hrev : s.reverse
  · refine ⟨(range n).map s.row, fun fuel hfuel => ?_, .inr ⟨hall, by simp, sum_row s n⟩⟩
    have := h.visit_next hne (zero_add n) (by simpa using hfuel)
    simp only [zero_add, row_zero, hfirst] at this
    exact this
  · refine ⟨(range n).reverse.map s.row, fun fuel hfuel => ?_, .inr ⟨hall, by simp, ?_⟩⟩
    · have := h.visit_prev (row_zero ▸ hne 0 h.pos).symm le_rfl (by simpa using hfuel)
      rw [← hend] at this
      exact this
    · rw [map_reverse, sum_reverse, sum_row]

lemma SequenceShare.Spans.elements_lt (h : s.Spans n) (hge : 2 ^ 64 < (n + 1) * s.step) :
    s.elements < n := by
  have hsum : ull (s.stop - s.start + s.step - 1) < n * s.step := by
    have : s.step ≤ n * s.step := le_mul_of_one_le_left h.step_pos.le (by exact_mod_cast h.pos)
    have hend := h.stop
    have hrow : s.row n = s.start + n * s.step := rfl
    rw [add_mul, one_mul] at hge
    unfold ull at *
    omega
  exact Int.ediv_lt_of_lt_mul h.step_pos hsum

lemma nextRow_exact_iff {rows : List Int} :
    (∀ fields, s.nextRow true fields = .ok (fields.map (aggregate rows))) ↔
      s.elements = rows.length ∧ ull (s.start * s.elements +
        ull (s.step * (s.elements * s.elements - s.elements)) / 2) = rows.sum := by
  constructor
  · intro hall
    have := hall [.count false, .sum]
    simpa [nextRow, aggregate] using this
  · rintro ⟨hcount, hsum⟩ fields
    rw [nextRow, if_pos rfl, hsum, hcount]
    rfl

/-- `COUNT` and `SUM` are those of the scan exactly when the rows can be counted in 64 bits. -/
theorem aggregates_exact_iff (start stop step : Int) (hstart : 0 ≤ start ∧ start < 2 ^ 64)
    (hstop : 0 ≤ stop ∧ stop < 2 ^ 64) (hstep : 0 < step ∧ step < 2 ^ 64) :
    ∃ rows, (getShare start stop step).Scans rows ∧
      ((∀ fields, (getShare start stop step).nextRow true fields =
          .ok (fields.map (aggregate rows))) ↔
        (getShare start stop step).Aggregable (rowCount start stop step)) := by
  have h := getShare_spans hstart hstop hstep
  generalize getShare start stop step = s at *
  generalize rowCount start stop step = n at *
  obtain ⟨rows, hscan, hrows⟩ := h.scans
  refine ⟨rows, hscan, nextRow_exact_iff.trans ?_⟩
  have hdist : ull (s.stop - s.start + s.step - 1) = ull (n * s.step + s.step - 1) := by
    have hend := h.stop
    have hrow : s.row n = s.start + n * s.step := rfl
    unfold ull at *
    omega
  have hpos := h.step_pos
  rcases hrows with ⟨hall, rfl⟩ | ⟨hnot, hlength, hsum⟩
  · have hzero : s.elements = 0 := by
      rw [elements, hdist, hall]
      have := h.step_lt
      apply Int.ediv_eq_zero_of_lt <;> unfold ull <;> omega
    rw [hzero]
    refine iff_of_true ⟨rfl, ?_⟩ (.inl hall)
    simp [ull]
  by_cases hfits : (n + 1) * s.step ≤ 2 ^ 64
  · have hcount : s.elements = n := by
      have hnonneg : 0 ≤ n * s.step := Int.mul_nonneg (by omega) hpos.le
      rw [add_mul, one_mul] at hfits
      rw [elements, hdist, ull_eq (by omega) (by omega), Int.add_sub_assoc,
        Int.mul_add_ediv_right _ _ hpos.ne', Int.ediv_eq_zero_of_lt (by omega) (by omega), add_zero]
    rw [hcount, hlength, Aggregable]
    simp only [hnot, hfits, true_and, false_or]
    have hnonneg : 0 ≤ s.start * n := Int.mul_nonneg h.nonneg (by omega)
    have hsteps : 0 ≤ s.step * (n * n - n) :=
      Int.mul_nonneg hpos.le (Int.sub_nonneg.mpr (by exact_mod_cast Nat.le_mul_self n))
    unfold ull
    omega
  · have := h.elements_lt (not_le.mp hfits)
    refine iff_of_false (fun hall => ?_) fun hc => ?_
    · omega
    · rcases hc with hc | hc
      · exact hnot hc
      · exact hfits hc.1

theorem aggregates_exact_ten : ∃ rows, (getShare 1 10 1).Scans rows ∧
    ∀ fields, (getShare 1 10 1).nextRow true fields = .ok (fields.map (aggregate rows)) := by
  obtain ⟨rows, hscan, hiff⟩ := aggregates_exact_iff 1 10 1
    ⟨by decide, by decide⟩ ⟨by decide, by decide⟩ ⟨by decide, by decide⟩
  exact ⟨rows, hscan, hiff.mpr (.inr ⟨by decide, by decide, by decide⟩)⟩

/-- The square of the number of rows wraps around, the sum itself does not. -/
theorem sum_wraps : ∃ rows, (getShare 1 (2 ^ 32 + 1) 1).Scans rows ∧
    rows.sum = 9223372043297226753 ∧
    (getShare 1 (2 ^ 32 + 1) 1).nextRow true [.sum] = .ok [6442450945] := by
  have h : (getShare 1 (2 ^ 32 + 1) 1).Spans (2 ^ 32 + 1) :=
    getShare_spans ⟨by decide, by decide⟩ ⟨by decide, by decide⟩ ⟨by decide, by decide⟩
  obtain ⟨rows, hscan, ⟨hall, -⟩ | ⟨-, -, hsum⟩⟩ := h.scans
  · exact absurd hall (by decide)
  · refine ⟨rows, hscan, ?_, by rfl⟩
    have hstart : (getShare 1 (2 ^ 32 + 1) 1).start = 1 := rfl
    have hstep : (getShare 1 (2 ^ 32 + 1) 1).step = 1 := rfl
    rw [hstart, hstep] at hsum
    push_cast at hsum
    omega

end Sequence
