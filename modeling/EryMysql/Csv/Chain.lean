import EryMysql.Lib.Machine

/-!
# The deleted rows of a CSV table

storage/csv/ha_tina.cc: `chain_append` records the rows that a scan deletes or updates. The array is
a member of the handler at first, moves to the heap when it is full, and grows there. Memory is not
refused.
-/

namespace Csv

open List Machine

/-- `stop` is the field `end`. -/
structure TinaSet where
  begin : Nat
  stop : Nat

def sizeofTinaSet : Nat := 16

def defaultChainLength : Nat := 512

/-- `chain` has the elements that were written to the array, which has room for `room` elements. -/
structure Tina where
  chain : List TinaSet
  room : Nat
  chainPtr : Nat
  chainAlloced : Bool
  chainSize : Nat

/-- `delete_row` and `update_row` record the row between two positions. -/
inductive TinaOp
  | rndInit
  | remove (row : TinaSet)

/-- What is to be recorded. The last row comes first, and rows that follow one another are one. -/
def record (rows : List TinaSet) : TinaOp -> List TinaSet
  | .rndInit => []
  | .remove row =>
    match rows with
    | [] => [row]
    | last :: rows =>
      if last.stop = row.begin then { last with stop := row.stop } :: rows else row :: last :: rows

def recorded (ops : List TinaOp) : List TinaSet := ops.foldl record []

namespace Tina

/-- The size that `my_realloc` takes for bytes is a number of elements. -/
def grow (t : Tina) : Tina :=
  let chainSize := t.chainSize + defaultChainLength
  let room := if t.chainAlloced then chainSize / sizeofTinaSet else chainSize
  let kept := if t.chainAlloced then room else defaultChainLength
  { t with chain := t.chain.take kept, room, chainAlloced := true, chainSize }

def store (t : Tina) (i : Nat) (row : TinaSet) : Option Tina :=
  if i < t.room then
    some { t with chain := t.chain.take i ++ row :: t.chain.drop (i + 1), chainPtr := i + 1 }
  else none

/-- `chain_append` for a row that does not follow the last one. -/
def chainAdd (t : Tina) (row : TinaSet) : Option Tina :=
  (if t.chainPtr = t.chainSize - 1 then t.grow else t).store t.chainPtr row

def chainAppend (t : Tina) (row : TinaSet) : Option Tina :=
  match t.chainPtr with
  | 0 => t.chainAdd row
  | n + 1 => do
    let last ← t.chain[n]?
    if last.stop = row.begin then t.store n { last with stop := row.stop } else t.chainAdd row

def step (t : Tina) : TinaOp -> Option Tina
  | .rndInit => some { t with chainPtr := 0 }
  | .remove row => t.chainAppend row

def init : Tina := ⟨[], defaultChainLength, 0, false, defaultChainLength⟩

structure Holds (t : Tina) (rows : List TinaSet) : Prop where
  ptr : t.chainPtr = rows.length
  chain : t.chain.take rows.length = rows.reverse
  room : t.room = t.chainSize
  size : t.chainAlloced = false ∧ t.chainSize = defaultChainLength ∨
    t.chainAlloced = true ∧ t.chainSize = 2 * defaultChainLength
  lt : rows.length < t.chainSize

/-- An access is outside of the array exactly when there is one row too many. -/
def Records (rows : List TinaSet) (result : Option Tina) : Prop :=
  if rows.length < 2 * defaultChainLength then ∃ t, result = some t ∧ t.Holds rows
  else result = none

variable {t : Tina} {rows : List TinaSet} {row : TinaSet}

lemma Holds.store (h : t.Holds rows) (hlt : rows.length + 1 < t.chainSize) :
    Records (row :: rows) (t.store rows.length row) := by
  have hsize := h.size
  rw [Records, length_cons, if_pos (by omega), Tina.store, if_pos (h.room ▸ h.lt)]
  refine ⟨_, rfl, rfl, ?_, h.room, hsize, hlt⟩
  rw [h.chain]
  simp [take_append, take_of_length_le]

lemma Holds.grow (h : t.Holds rows) (hmember : t.chainAlloced = false)
    (hsize : t.chainSize = defaultChainLength) :
    t.grow.Holds rows ∧ t.grow.chainSize = 2 * defaultChainLength := by
  have hlt : rows.length < defaultChainLength := hsize ▸ h.lt
  rw [Tina.grow, hmember, hsize]
  refine ⟨⟨h.ptr, ?_, rfl, .inr ⟨rfl, rfl⟩, Nat.lt_add_left _ hlt⟩, rfl⟩
  exact (take_take ..).trans ((Nat.min_eq_left (Nat.le_of_lt hlt)).symm ▸ h.chain)

lemma Holds.chainAdd (h : t.Holds rows) : Records (row :: rows) (t.chainAdd row) := by
  have hlt := h.lt
  rw [Tina.chainAdd, h.ptr]
  split
  case isFalse => exact h.store (by omega)
  case isTrue hlast =>
    rcases h.size with ⟨hmember, hsize⟩ | ⟨halloced, hsize⟩
    · obtain ⟨hgrown, hdouble⟩ := h.grow hmember hsize
      exact hgrown.store (by omega)
    · rw [hlast, Records, length_cons, if_neg (by omega), Tina.grow, halloced, hsize]
      rfl

lemma Holds.step (h : t.Holds rows) (op : TinaOp) : Records (record rows op) (t.step op) := by
  cases op with
  | rndInit => exact ⟨_, rfl, rfl, rfl, h.room, h.size, Nat.zero_lt_of_lt h.lt⟩
  | remove row =>
    rw [Tina.step, chainAppend, h.ptr]
    cases rows with
    | nil => exact h.chainAdd
    | cons last rows =>
      have hlast : t.chain[rows.length]? = some last := by
        simpa using congrArg (·[rows.length]?) h.chain
      have hrest : { t with chainPtr := rows.length }.Holds rows :=
        ⟨rfl, by simpa [take_take] using congrArg (take rows.length) h.chain, h.room, h.size,
          Nat.lt_of_succ_lt h.lt⟩
      simp only [record, length_cons, hlast, Option.bind_eq_bind, Option.bind_some]
      split
      · exact hrest.store h.lt
      · exact h.chainAdd

lemma run_spec (ops : List TinaOp) :
    (∃ t, run step init ops = some t ∧ t.Holds (recorded ops) ∧
      ∀ before, before <+: ops -> (recorded before).length < 2 * defaultChainLength) ∨
    run step init ops = none ∧
      ∃ before, before <+: ops ∧ ¬ (recorded before).length < 2 * defaultChainLength := by
  induction ops using reverseRecOn with
  | nil =>
    refine .inl ⟨init, rfl, ⟨rfl, rfl, rfl, .inl ⟨rfl, rfl⟩, by decide⟩, fun before hpre => ?_⟩
    rw [prefix_nil.mp hpre]
    decide
  | append_singleton ops op ih =>
    have hrecorded : recorded (ops ++ [op]) = record (recorded ops) op := foldl_append
    rw [run_concat, hrecorded]
    rcases ih with ⟨t, ht, h, hall⟩ | ⟨hnone, before, hpre, hge⟩
    · have hspec := h.step op
      rw [ht]
      by_cases hlt : (record (recorded ops) op).length < 2 * defaultChainLength
      · obtain ⟨t', ht', h'⟩ := cast (if_pos hlt) hspec
        refine .inl ⟨t', ht', h', fun before hpre => ?_⟩
        rcases prefix_concat_iff.mp hpre with rfl | hpre
        · rwa [hrecorded]
        · exact hall _ hpre
      · exact .inr ⟨cast (if_neg hlt) hspec, _, prefix_rfl, hrecorded ▸ hlt⟩
    · rw [hnone]
      exact .inr ⟨rfl, before, hpre.trans (prefix_append ..), hge⟩

/-- Every access of a run is inside the array, and the rows of the last scan are all in it, exactly
when no scan has recorded more rows than there is room for after the first growth. -/
theorem chain_holds_iff (ops : List TinaOp) :
    (∃ t, run step init ops = some t ∧ t.Holds (recorded ops)) ↔
      ∀ before, before <+: ops -> (recorded before).length < 2 * defaultChainLength := by
  rcases run_spec ops with ⟨t, ht, h, hall⟩ | ⟨hnone, before, hpre, hge⟩
  · exact iff_of_true ⟨t, ht, h⟩ hall
  · exact iff_of_false (by simp [hnone]) fun hall => hge (hall _ hpre)

theorem chain_lost :
    run step init ((range 1024).map fun i => .remove ⟨2 * i, 2 * i + 1⟩) = none := by
  refine (run_spec _).elim ?_ And.left
  rintro ⟨_, _, _, hall⟩
  exact absurd (hall _ prefix_rfl) (by decide +kernel)

end Tina
end Csv
