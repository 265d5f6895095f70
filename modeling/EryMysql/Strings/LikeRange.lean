import EryMysql.Strings.Like

/-!
# The range of keys for LIKE

`my_like_range_simple` makes the smallest and the largest key that can match a pattern, for columns
of `res_length` bytes. Keys are compared as if the shorter one were padded with spaces. A binary
collation gets a minimum that ends at the first `'%'`, and what a row has there may be below a
space.
-/

namespace Strings

open List Nat

def space : UInt8 := ' '.toUInt8

/-- The end of the longer key against spaces. -/
def endSpace (map : UInt8 -> UInt8) (swap : Int) : List UInt8 -> Int
  | [] => 0
  | c :: a =>
    if map c ≠ map space then if map c < map space then -swap else swap else endSpace map swap a

/-- `my_strnncollsp_simple` without `VARCHAR_WITH_DIFF_ENDSPACE_ARE_DIFFERENT_FOR_UNIQUE`. -/
def myStrnncollspSimple (map : UInt8 -> UInt8) : List UInt8 -> List UInt8 -> Int
  | c :: a, d :: b =>
    if map c ≠ map d then (map c).toNat - (map d).toNat else myStrnncollspSimple map a b
  | a, [] => endSpace map 1 a
  | [], b => endSpace map (-1) b

def myStrnncollsp8bitBin : List UInt8 -> List UInt8 -> Int := myStrnncollspSimple id

/-- The two buffers of `res_length` bytes and how much of them is the key. -/
structure LikeRange where
  minStr : List UInt8
  maxStr : List UInt8
  minLength : Nat
  maxLength : Nat

namespace LikeRange

def push (c d : UInt8) (range : LikeRange) : LikeRange :=
  ⟨c :: range.minStr, d :: range.maxStr, range.minLength + 1, range.maxLength + 1⟩

def minKey (range : LikeRange) : List UInt8 := range.minStr.take range.minLength

def maxKey (range : LikeRange) : List UInt8 := range.maxStr.take range.maxLength

end LikeRange

/-- A collation of one byte per character: whether it is `MY_CS_BINSORT`, the weights, and
`max_sort_char`. -/
structure Collation where
  binsort : Bool
  sortOrder : UInt8 -> UInt8
  maxSortChar : UInt8
  zero_le : ∀ c, sortOrder 0 ≤ sortOrder c
  le_max : ∀ c, sortOrder c ≤ sortOrder maxSortChar
  weight_of_binsort : binsort = true -> sortOrder = id

def Collation.strnncollsp (cs : Collation) : List UInt8 -> List UInt8 -> Int :=
  if cs.binsort then myStrnncollsp8bitBin else myStrnncollspSimple cs.sortOrder

/-- The first argument is the room that is left in the buffers. -/
def myLikeRangeSimple (cs : Collation) (escape : Int) : Nat -> List UInt8 -> LikeRange
  | 0, _ => ⟨[], [], 0, 0⟩
  | room + 1, [] => ⟨replicate (room + 1) space, replicate (room + 1) space, 0, 0⟩
  | room + 1, w :: ptr =>
    if signedChar w = escape ∧ ptr ≠ [] then
      let (c, ptr) := takeChar true w ptr
      (myLikeRangeSimple cs escape room ptr).push c c
    else if w = wOne then (myLikeRangeSimple cs escape room ptr).push 0 cs.maxSortChar
    else if w = wMany then
      ⟨replicate (room + 1) 0, replicate (room + 1) cs.maxSortChar,
        if cs.binsort then 0 else room + 1, room + 1⟩
    else (myLikeRangeSimple cs escape room ptr).push w w

section Order
variable {map : UInt8 -> UInt8} {c d : UInt8} {a b : List UInt8}

lemma myStrnncollspSimple_cons_of_eq (h : map c = map d) :
    myStrnncollspSimple map (c :: a) (d :: b) = myStrnncollspSimple map a b := by
  rw [myStrnncollspSimple, if_neg (not_not.mpr h)]

lemma myStrnncollspSimple_cons_neg (h : map c < map d) :
    myStrnncollspSimple map (c :: a) (d :: b) < 0 := by
  have hlt := UInt8.lt_iff_toNat_lt.mp h
  rw [myStrnncollspSimple, if_pos (UInt8.ne_of_lt h)]
  omega

lemma myStrnncollspSimple_cons_le (h : map c ≤ map d) (hrest : myStrnncollspSimple map a b ≤ 0) :
    myStrnncollspSimple map (c :: a) (d :: b) ≤ 0 := by
  by_cases heq : map c = map d
  · rwa [myStrnncollspSimple_cons_of_eq heq]
  · exact Int.le_of_lt (myStrnncollspSimple_cons_neg (UInt8.lt_of_le_of_ne h heq))

@[simp]
lemma myStrnncollspSimple_nil_right : myStrnncollspSimple map a [] = endSpace map 1 a := by
  cases a <;> rfl

@[simp]
lemma myStrnncollspSimple_nil_left : myStrnncollspSimple map [] b = endSpace map (-1) b := by
  cases b <;> rfl

lemma endSpace_replicate_le {swap : Int} (h : map c ≠ map space ->
    (if map c < map space then -swap else swap) ≤ 0) (n : Nat) :
    endSpace map swap (replicate n c) ≤ 0 := by
  induction n with
  | zero => exact Int.le_refl 0
  | succ n ih =>
    rw [replicate_succ, endSpace]
    split
    case isTrue hne => exact h hne
    case isFalse => exact ih

lemma replicate_le (hmin : ∀ d, map c ≤ map d) (n : Nat) (b : List UInt8) (hb : b.length ≤ n) :
    myStrnncollspSimple map (replicate n c) b ≤ 0 := by
  induction n generalizing b with
  | zero => simp [length_eq_zero_iff.mp (le_zero.mp hb), endSpace]
  | succ n ih =>
    cases b with
    | nil =>
      rw [myStrnncollspSimple_nil_right]
      refine endSpace_replicate_le (fun hne => ?_) _
      rw [if_pos (UInt8.lt_of_le_of_ne (hmin space) hne)]
      decide
    | cons d b => exact myStrnncollspSimple_cons_le (hmin d) (ih b (le_of_succ_le_succ hb))

lemma le_replicate (hmax : ∀ d, map d ≤ map c) (n : Nat) (a : List UInt8) (ha : a.length ≤ n) :
    myStrnncollspSimple map a (replicate n c) ≤ 0 := by
  induction n generalizing a with
  | zero => simp [length_eq_zero_iff.mp (le_zero.mp ha), endSpace]
  | succ n ih =>
    cases a with
    | nil =>
      refine endSpace_replicate_le (fun hne => ?_) _
      rw [if_neg (fun hlt => ?_)]
      · decide
      · exact absurd (UInt8.lt_of_lt_of_le hlt (hmax space)) (UInt8.lt_irrefl _)
    | cons d a => exact myStrnncollspSimple_cons_le (hmax d) (ih a (le_of_succ_le_succ ha))

/-- The first byte that is not a space is below a space. -/
def BelowSpace (str : List UInt8) : Prop :=
  ∃ c, (str.dropWhile (· == space)).head? = some c ∧ c < space

lemma endSpace_bin_le_iff : endSpace id (-1) b ≤ 0 ↔ ¬ BelowSpace b := by
  induction b with
  | nil => simp [endSpace, BelowSpace]
  | cons c b ih =>
    rw [endSpace]
    by_cases hc : c = space
    · rw [if_neg (not_not.mpr (congrArg id hc)), ih, hc]
      simp [BelowSpace]
    · by_cases hlt : c < space <;> simp [BelowSpace, hc, hlt]

end Order

section Loop
variable {cs : Collation} {escape w : UInt8} {room : Nat} {str ptr : List UInt8}
  {lead : Option (List UInt8)}

/-- The loop and the reading of the pattern take the same character. -/
lemma myLikeRangeSimple_char (hmany : w ≠ wMany) (hone : w ≠ wOne) :
    myLikeRangeSimple cs (signedChar escape) (room + 1) (w :: ptr) =
      (myLikeRangeSimple cs (signedChar escape) room (takeChar (w == escape) w ptr).2).push
        (takeChar (w == escape) w ptr).1 (takeChar (w == escape) w ptr).1 := by
  simp only [myLikeRangeSimple, signedChar_inj, if_neg hmany, if_neg hone]
  by_cases hesc : w = escape
  · cases ptr with
    | nil => simp [takeChar]
    | cons c ptr => simp [hesc]
  · rw [if_neg (fun h => hesc h.1), beq_false_of_ne hesc]
    cases ptr <;> rfl

/-- The bytes of a pattern before the first `'%'`, with the byte 0 for each `'_'`; `none` if there is
no `'%'`. -/
def beforeMany : List LikeToken -> Option (List UInt8)
  | [] => none
  | .many :: _ => some []
  | .one :: tokens => (beforeMany tokens).map (0 :: ·)
  | .char c :: tokens => (beforeMany tokens).map (c :: ·)

/-- The string starts with the bytes, and the first byte behind them that is not a space is below a
space. -/
def Dips (lead : Option (List UInt8)) (str : List UInt8) : Prop :=
  ∃ bytes rest, lead = some bytes ∧ str = bytes ++ rest ∧ BelowSpace rest

/-- How the bounds are made while a matching string is read along with the pattern, whose bytes before
the first `'%'` come first. -/
inductive Bounded (cs : Collation) : Option (List UInt8) -> List UInt8 -> LikeRange -> Prop
  | done {lead range} (hmin : range.minKey = []) (hmax : range.maxKey = []) :
      Bounded cs lead [] range
  | char {lead w c str range} (hw : cs.sortOrder w = cs.sortOrder c)
      (hrest : Bounded cs lead str range) :
      Bounded cs (lead.map (w :: ·)) (c :: str) (range.push w w)
  | one {lead c str range} (hrest : Bounded cs lead str range) :
      Bounded cs (lead.map (0 :: ·)) (c :: str) (range.push 0 cs.maxSortChar)
  | many {str n} (hlen : str.length ≤ n) :
      Bounded cs (some []) str ⟨replicate n 0, replicate n cs.maxSortChar,
        if cs.binsort then 0 else n, n⟩

lemma bounded_of_like (hmany : escape ≠ wMany) (hone : escape ≠ wOne) (hlen : str.length ≤ room)
    (hlike : Like cs.sortOrder escape str ptr) :
    Bounded cs (beforeMany (readPattern (fun _ w => w == escape) false ptr)) str
      (myLikeRangeSimple cs (signedChar escape) room ptr) := by
  induction room generalizing str ptr with
  | zero =>
    obtain rfl := length_eq_zero_iff.mp (le_zero.mp hlen)
    exact .done rfl rfl
  | succ room ih =>
    cases ptr with
    | nil =>
      obtain rfl : str = [] := hlike
      exact .done rfl rfl
    | cons w ptr =>
      unfold Like at hlike
      by_cases hw : w = wMany
      · have hesc : ¬(wMany = escape ∧ ptr ≠ []) := fun h => hmany h.1.symm
        simp only [myLikeRangeSimple, signedChar_inj, hw, if_neg hesc, readPattern_many]
        exact .many hlen
      · by_cases hw' : w = wOne
        · have hesc : ¬(wOne = escape ∧ ptr ≠ []) := fun h => hone h.1.symm
          rw [hw', readPattern_one] at hlike ⊢
          obtain ⟨c, str, rfl, hlike⟩ := hlike
          simp only [myLikeRangeSimple, signedChar_inj, if_neg hesc]
          exact .one (ih (le_of_succ_le_succ hlen) hlike)
        · rw [readPattern_char hw hw'] at hlike ⊢
          obtain ⟨c, str, rfl, hc, hlike⟩ := hlike
          rw [myLikeRangeSimple_char hw hw']
          exact .char hc (ih (le_of_succ_le_succ hlen) hlike)

lemma Bounded.le_maxKey {range : LikeRange} (h : Bounded cs lead str range) :
    myStrnncollspSimple cs.sortOrder str range.maxKey ≤ 0 := by
  induction h with
  | done _ hmax => simp [hmax, endSpace]
  | char hw _ ih =>
    rw [LikeRange.maxKey, LikeRange.push, take_succ_cons, myStrnncollspSimple_cons_of_eq hw.symm]
    exact ih
  | one _ ih => exact myStrnncollspSimple_cons_le (cs.le_max _) ih
  | @many str n hlen =>
    rw [LikeRange.maxKey, take_of_length_le (by simp)]
    exact le_replicate cs.le_max n str hlen

lemma dips_cons {c : UInt8} : Dips (lead.map (w :: ·)) (c :: str) ↔ c = w ∧ Dips lead str := by
  constructor
  · rintro ⟨pre, rest, hlead, heq, hbelow⟩
    obtain ⟨bytes, rfl, rfl⟩ := Option.map_eq_some_iff.mp hlead
    obtain ⟨rfl, hstr⟩ := cons.inj heq
    exact ⟨rfl, bytes, rest, rfl, hstr, hbelow⟩
  · rintro ⟨rfl, bytes, rest, rfl, rfl, hbelow⟩
    exact ⟨c :: bytes, rest, rfl, rfl, hbelow⟩

/-- The minimum is not above the string, except that the minimum of a binary collation may be a
proper beginning of the string, with a byte below a space behind it. -/
lemma Bounded.minKey_le_iff {range : LikeRange} (h : Bounded cs lead str range) :
    myStrnncollspSimple cs.sortOrder range.minKey str ≤ 0 ↔
      (cs.binsort = true -> ¬ Dips lead str) := by
  induction h with
  | done hmin _ => simp +contextual [hmin, endSpace, Dips, BelowSpace]
  | @char lead w c str range hw _ ih =>
    rw [LikeRange.minKey, LikeRange.push, take_succ_cons, myStrnncollspSimple_cons_of_eq hw]
    refine ih.trans (forall_congr' fun hbin => ?_)
    rw [cs.weight_of_binsort hbin] at hw
    rw [dips_cons, and_iff_right (show c = w from hw.symm)]
  | @one lead c str range _ ih =>
    rw [LikeRange.minKey, LikeRange.push, take_succ_cons]
    by_cases hc : cs.sortOrder 0 = cs.sortOrder c
    · rw [myStrnncollspSimple_cons_of_eq hc]
      refine ih.trans (forall_congr' fun hbin => ?_)
      rw [cs.weight_of_binsort hbin] at hc
      rw [dips_cons, and_iff_right (show c = 0 from hc.symm)]
    · have hneg := @myStrnncollspSimple_cons_neg cs.sortOrder 0 c (range.minStr.take range.minLength)
        str (UInt8.lt_of_le_of_ne (cs.zero_le c) hc)
      refine iff_of_true (Int.le_of_lt hneg) fun _ hdips => hc ?_
      rw [(dips_cons.mp hdips).1]
  | @many str n hlen =>
    cases hbin : cs.binsort with
    | false =>
      rw [LikeRange.minKey, take_of_length_le (by simp)]
      exact iff_of_true (replicate_le cs.zero_le n str hlen) (by simp)
    | true =>
      rw [LikeRange.minKey, if_pos rfl, take_zero, myStrnncollspSimple_nil_left,
        cs.weight_of_binsort hbin, endSpace_bin_le_iff]
      simp [Dips]

end Loop

lemma Collation.strnncollsp_eq (cs : Collation) :
    cs.strnncollsp = myStrnncollspSimple cs.sortOrder := by
  unfold strnncollsp
  split
  case isTrue hbin => rw [cs.weight_of_binsort hbin, myStrnncollsp8bitBin]
  case isFalse => rfl

/-- A matching string lies within the bounds, unless the collation is binary, the string starts with
the bytes of the pattern before its first `'%'`, and the first byte behind them that is not a space
is below a space. -/
theorem likeRange_covers_iff (cs : Collation) (escape : UInt8) (hmany : escape ≠ wMany)
    (hone : escape ≠ wOne) (resLength : Nat) (ptr str : List UInt8) (hlen : str.length ≤ resLength)
    (hlike : Like cs.sortOrder escape str ptr) :
    (cs.strnncollsp (myLikeRangeSimple cs (signedChar escape) resLength ptr).minKey str ≤ 0 ∧
      cs.strnncollsp str (myLikeRangeSimple cs (signedChar escape) resLength ptr).maxKey ≤ 0) ↔
    (cs.binsort = true ->
      ¬ Dips (beforeMany (readPattern (fun _ w => w == escape) false ptr)) str) := by
  have h := bounded_of_like hmany hone hlen hlike
  rw [cs.strnncollsp_eq, and_iff_left h.le_maxKey, h.minKey_le_iff]

def latin1Bin : Collation where
  binsort := true
  sortOrder := id
  maxSortChar := 255
  zero_le _ := UInt8.le_iff_toNat_le.mpr (Nat.zero_le _)
  le_max c := UInt8.le_iff_toNat_le.mpr (Nat.le_of_lt_succ c.toNat_lt)
  weight_of_binsort _ := rfl

lemma like_a_many (c : UInt8) : Like id '\\'.toUInt8 ['a'.toUInt8, c] ['a'.toUInt8, wMany] :=
  ⟨'a'.toUInt8, [c], rfl, rfl, [], nil_suffix, rfl⟩

theorem likeRange_covers_iff_ab :
    latin1Bin.strnncollsp (myLikeRangeSimple latin1Bin (signedChar '\\'.toUInt8) 3
        ['a'.toUInt8, wMany]).minKey ['a'.toUInt8, 'b'.toUInt8] ≤ 0 :=
  ((likeRange_covers_iff latin1Bin '\\'.toUInt8 (by decide) (by decide) 3 ['a'.toUInt8, wMany]
    ['a'.toUInt8, 'b'.toUInt8] (by decide) (like_a_many _)).mpr (by
      rintro - ⟨bytes, rest, hlead, heq, c, hc, hlt⟩
      obtain rfl : ['a'.toUInt8] = bytes := Option.some.inj hlead
      obtain rfl : ['b'.toUInt8] = rest := (cons.inj heq).2
      obtain rfl : 'b'.toUInt8 = c := Option.some.inj hc
      exact absurd hlt (by decide))).1

/-- `LIKE 'a%'` on a binary collation: the row `'a'` with a tab is below the minimum `'a'`. -/
theorem likeRange_misses_tab :
    Like latin1Bin.sortOrder '\\'.toUInt8 ['a'.toUInt8, 9] ['a'.toUInt8, wMany] ∧
      0 < latin1Bin.strnncollsp (myLikeRangeSimple latin1Bin (signedChar '\\'.toUInt8) 3
        ['a'.toUInt8, wMany]).minKey ['a'.toUInt8, 9] :=
  ⟨like_a_many _, by decide⟩

end Strings
