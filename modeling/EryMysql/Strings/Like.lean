import Mathlib.Data.List.Infix

/-!
# LIKE on 8-bit character sets

`my_wildcmp_8bit` of strings/ctype-simple.c. Behind a `'%'` it looks for the next character of the
pattern in the subject and calls itself for the rest, again and again until the rest is found. A
call that returns -1 says more than that its subject does not match: no end of the subject matches
either, so it is of no use to look further.

A byte of the pattern is compared with the escape character as a signed `char`, but behind a `'%'`
as an unsigned one. So an escape character of 128 or more is not seen there. `my_string_stack_guard`
is left out: a call that runs out of stack is no match.
-/

namespace Strings

open List Nat

def wMany : UInt8 := '%'.toUInt8

def wOne : UInt8 := '_'.toUInt8

def signedChar (c : UInt8) : Int := if c < 128 then c.toNat else c.toNat - 256

/-- The character to compare and the rest of the pattern: an escape character stands for the one
behind it, if there is one. -/
def takeChar (escaped : Bool) (w : UInt8) : List UInt8 -> UInt8 × List UInt8
  | [] => (w, [])
  | c :: rest => if escaped then (c, rest) else (w, c :: rest)

/-- Remove any `'%'` and `'_'` from the pattern; `none` if the subject is too short. -/
def skipWild : List UInt8 -> List UInt8 -> Option (List UInt8 × List UInt8)
  | str, [] => some (str, [])
  | str, w :: wild =>
    if w = wMany then skipWild str wild
    else if w = wOne then if str = [] then none else skipWild str.tail wild
    else some (str, w :: wild)

section Code
variable (sortOrder : UInt8 -> UInt8) (escape : Int)

/-- Find the next `cmp` in the subject and try the rest of the pattern behind it. -/
def findLoop (cmp : UInt8) (rest : List UInt8 -> Int) : List UInt8 -> Int
  | [] => -1
  | c :: str =>
    if sortOrder c ≠ cmp then findLoop cmp rest str
    else if rest str ≤ 0 then rest str
    else findLoop cmp rest str

/-- The loops for characters and for `'_'` end at tests that the outer loop starts with, so a turn
of each of them is one turn here. The first argument bounds the length of the pattern. -/
def myWildcmp8bitImpl : Nat -> List UInt8 -> List UInt8 -> Int -> Int
  | 0, str, _, _ | _, str, [], _ => if str = [] then 0 else 1
  | fuel + 1, str, w :: wild, result =>
    if w = wMany then
      match skipWild str wild with
      | none => -1
      | some (_, []) => 0
      | some (str, w :: wild) =>
        if str = [] then -1
        else
          -- here w is an unsigned character
          let (cmp, wild) := takeChar ((w.toNat : Int) == escape) w wild
          findLoop sortOrder (sortOrder cmp) (fun str => myWildcmp8bitImpl fuel str wild (-1)) str
    else if w = wOne then
      match str with
      | [] => result
      | _ :: str => myWildcmp8bitImpl fuel str wild result
    else
      let (w, wild) := takeChar (signedChar w == escape) w wild
      match str with
      | [] => 1
      | c :: str => if sortOrder w ≠ sortOrder c then 1 else myWildcmp8bitImpl fuel str wild 1

def myWildcmp8bit (str wild : List UInt8) : Int :=
  myWildcmp8bitImpl sortOrder escape wild.length str wild (-1)

end Code

inductive LikeToken where
  | many
  | one
  | char (c : UInt8)
  deriving DecidableEq, Repr

/-- A pattern read from left to right. Whether a byte is the escape character may depend on whether
it stands behind a `'%'` with only `'%'` and `'_'` between. -/
def readPattern (isEscape : Bool -> UInt8 -> Bool) : Bool -> List UInt8 -> List LikeToken
  | _, [] => []
  | _, [w] => if w = wMany then [.many] else if w = wOne then [.one] else [.char w]
  | behind, w :: c :: wild =>
    if w = wMany then .many :: readPattern isEscape true (c :: wild)
    else if w = wOne then .one :: readPattern isEscape behind (c :: wild)
    else if isEscape behind w then .char c :: readPattern isEscape false wild
    else .char w :: readPattern isEscape false (c :: wild)

/-- The subject can be decomposed according to the pattern. -/
def Matches (sortOrder : UInt8 -> UInt8) : List LikeToken -> List UInt8 -> Prop
  | [], str => str = []
  | .many :: tokens, str => ∃ rest, rest <:+ str ∧ Matches sortOrder tokens rest
  | .one :: tokens, str => ∃ c rest, str = c :: rest ∧ Matches sortOrder tokens rest
  | .char w :: tokens, str =>
    ∃ c rest, str = c :: rest ∧ sortOrder w = sortOrder c ∧ Matches sortOrder tokens rest

def Like (sortOrder : UInt8 -> UInt8) (escape : UInt8) (str wild : List UInt8) : Prop :=
  Matches sortOrder (readPattern (fun _ w => w == escape) false wild) str

/-- The comparisons of the code with the escape character. -/
def seenAsEscape (escape : Int) (behind : Bool) (w : UInt8) : Bool :=
  (if behind then (w.toNat : Int) else signedChar w) == escape

section Reading
variable {isEscape : Bool -> UInt8 -> Bool} {behind : Bool} {w : UInt8} {wild : List UInt8}

@[simp]
lemma readPattern_many :
    readPattern isEscape behind (wMany :: wild) = .many :: readPattern isEscape true wild := by
  cases wild <;> simp [readPattern]

@[simp]
lemma readPattern_one :
    readPattern isEscape behind (wOne :: wild) = .one :: readPattern isEscape behind wild := by
  have hne : wOne ≠ wMany := by decide
  cases wild <;> simp [readPattern, hne]

lemma readPattern_char (hmany : w ≠ wMany) (hone : w ≠ wOne) :
    readPattern isEscape behind (w :: wild) = .char (takeChar (isEscape behind w) w wild).1 ::
      readPattern isEscape false (takeChar (isEscape behind w) w wild).2 := by
  cases wild with
  | nil => simp [readPattern, takeChar, hmany, hone]
  | cons c wild => cases hesc : isEscape behind w <;> simp [readPattern, takeChar, hmany, hone, hesc]

lemma length_takeChar_le {escaped : Bool} : (takeChar escaped w wild).2.length ≤ wild.length := by
  cases wild with
  | nil => exact le_rfl
  | cons c wild => cases escaped <;> simp [takeChar]

end Reading

section Matching
variable {sortOrder : UInt8 -> UInt8} {tokens : List LikeToken} {c w : UInt8} {str : List UInt8}
  {result : Int}

@[simp]
lemma matches_one_cons :
    Matches sortOrder (.one :: tokens) (c :: str) ↔ Matches sortOrder tokens str := by
  simp [Matches]

@[simp]
lemma matches_char_cons : Matches sortOrder (.char w :: tokens) (c :: str) ↔
    sortOrder w = sortOrder c ∧ Matches sortOrder tokens str := by
  simp [Matches]

lemma matches_many_cons : Matches sortOrder (.many :: tokens) (c :: str) ↔
    Matches sortOrder tokens (c :: str) ∨ Matches sortOrder (.many :: tokens) str := by
  simp [Matches, suffix_cons_iff]

lemma Matches.many_of_suffix {rest : List UInt8} (h : Matches sortOrder (.many :: tokens) rest)
    (hrest : rest <:+ str) : Matches sortOrder (.many :: tokens) str := by
  obtain ⟨rest', hrest', hmatch⟩ := h
  exact ⟨rest', hrest'.trans hrest, hmatch⟩

lemma matches_many_many : Matches sortOrder (.many :: .many :: tokens) str ↔
    Matches sortOrder (.many :: tokens) str := by
  constructor
  · rintro ⟨rest, hrest, hmatch⟩
    exact hmatch.many_of_suffix hrest
  · intro hmatch
    exact ⟨str, suffix_refl str, hmatch⟩

lemma matches_many_one_cons : Matches sortOrder (.many :: .one :: tokens) (c :: str) ↔
    Matches sortOrder (.many :: tokens) str := by
  induction str generalizing c with
  | nil => simp [Matches, suffix_cons_iff]
  | cons d str ih => rw [matches_many_cons, matches_one_cons, ih, matches_many_cons]

/-- A result says whether the subject matches, and a negative one that no end of it does. -/
structure Decides (sortOrder : UInt8 -> UInt8) (tokens : List LikeToken) (str : List UInt8)
    (result : Int) : Prop where
  zero : result = 0 ↔ Matches sortOrder tokens str
  neg : result < 0 -> ∀ rest, rest <:+ str -> ¬ Matches sortOrder tokens rest

lemma Decides.end_of_pattern :
    Decides sortOrder [] str (if str = [] then 0 else 1) := by
  constructor <;> by_cases hstr : str = [] <;> simp [Matches, hstr]

lemma Decides.too_short (hresult : result ≠ 0)
    (hnil : ¬ Matches sortOrder tokens []) : Decides sortOrder tokens [] result := by
  refine ⟨iff_of_false hresult hnil, fun _ rest hrest => ?_⟩
  rwa [suffix_nil.mp hrest]

/-- A token for one character: what is said of the subject behind it holds. -/
lemma Decides.cons {token : LikeToken} (h : Decides sortOrder tokens str result)
    (hself : Matches sortOrder (token :: tokens) (c :: str) ↔ Matches sortOrder tokens str)
    (hone : ∀ rest, Matches sortOrder (token :: tokens) rest ->
      ∃ d rest', rest = d :: rest' ∧ Matches sortOrder tokens rest') :
    Decides sortOrder (token :: tokens) (c :: str) result := by
  refine ⟨h.zero.trans hself.symm, fun hneg rest hrest hmatch => ?_⟩
  obtain ⟨d, rest', rfl, hmatch'⟩ := hone rest hmatch
  refine h.neg hneg rest' ?_ hmatch'
  rcases suffix_cons_iff.mp hrest with heq | hrest
  · exact (cons.inj heq).2 ▸ suffix_refl _
  · exact (suffix_cons d rest').trans hrest

/-- With a `'%'` in front, what does not match the subject matches no end of it. -/
lemma Decides.many (h : result = 0 ↔ Matches sortOrder (.many :: tokens) str) :
    Decides sortOrder (.many :: tokens) str result :=
  ⟨h, fun hneg _ hrest hmatch => (Int.ne_of_lt hneg) (h.mpr (hmatch.many_of_suffix hrest))⟩

lemma findLoop_eq_zero_iff {cmp : UInt8} {rest : List UInt8 -> Int}
    (hrest : ∀ str, Decides sortOrder tokens str (rest str)) (hcmp : cmp = sortOrder w) :
    findLoop sortOrder cmp rest str = 0 ↔
      Matches sortOrder (.many :: .char w :: tokens) str := by
  induction str with
  | nil => simp [findLoop, Matches]
  | cons c str ih =>
    rw [findLoop, matches_many_cons, matches_char_cons, ← ih, ← hcmp]
    by_cases hc : sortOrder c = cmp
    · rw [if_neg (not_not.mpr hc), ← (hrest str).zero]
      split
      case isTrue hle =>
        rcases Int.lt_or_eq_of_le hle with hneg | hzero
        · refine iff_of_false (Int.ne_of_lt hneg) ?_
          rintro (⟨-, hzero⟩ | hlater)
          · exact Int.ne_of_lt hneg hzero
          · obtain ⟨suffix, hsuffix, d, rest', rfl, -, hmatch⟩ := ih.mp hlater
            exact (hrest str).neg hneg rest' ((suffix_cons d rest').trans hsuffix) hmatch
        · exact iff_of_true hzero (.inl ⟨hc.symm, hzero⟩)
      case isFalse hpos =>
        exact (or_iff_right fun h => hpos (Int.le_of_eq h.2)).symm
    · rw [if_pos hc]
      exact (or_iff_right fun h => hc h.1.symm).symm

variable {escape : Int} {wild : List UInt8}

/-- What the loop takes off the pattern and the subject does not matter behind a `'%'`. -/
lemma skipWild_spec (isEscape : Bool -> UInt8 -> Bool) : (skipWild str wild = none ∧
      ¬ Matches sortOrder (.many :: readPattern isEscape true wild) str) ∨
    ∃ str' wild', skipWild str wild = some (str', wild') ∧ wild'.length ≤ wild.length ∧
      (∀ w wild'', wild' = w :: wild'' -> w ≠ wMany ∧ w ≠ wOne) ∧
      (Matches sortOrder (.many :: readPattern isEscape true wild) str ↔
        Matches sortOrder (.many :: readPattern isEscape true wild') str') := by
  induction wild generalizing str with
  | nil => exact .inr ⟨str, [], by rw [skipWild], le_rfl, by simp, Iff.rfl⟩
  | cons w wild ih =>
    rw [skipWild]
    by_cases hmany : w = wMany
    · rw [hmany, readPattern_many, matches_many_many]
      refine (@ih str).imp_right ?_
      rintro ⟨str', wild', hrun, hlen, hrest⟩
      exact ⟨str', wild', hrun, le_succ_of_le hlen, hrest⟩
    · rw [if_neg hmany]
      by_cases hone : w = wOne
      · rw [hone, readPattern_one]
        cases str with
        | nil => exact .inl ⟨rfl, by simp [Matches]⟩
        | cons c str =>
          rw [matches_many_one_cons]
          refine (@ih str).imp_right ?_
          rintro ⟨str', wild', hrun, hlen, hrest⟩
          exact ⟨str', wild', hrun, le_succ_of_le hlen, hrest⟩
      · rw [if_neg hone]
        refine .inr ⟨str, w :: wild, rfl, le_rfl, ?_, Iff.rfl⟩
        rintro w' wild' heq
        obtain ⟨rfl, -⟩ := cons.inj heq
        exact ⟨hmany, hone⟩

lemma myWildcmp8bitImpl_decides (fuel : Nat) (str wild : List UInt8) (result : Int)
    (hlen : wild.length ≤ fuel) (hresult : result ≠ 0) :
    Decides sortOrder (readPattern (seenAsEscape escape) false wild) str
      (myWildcmp8bitImpl sortOrder escape fuel str wild result) := by
  induction fuel generalizing str wild result with
  | zero =>
    obtain rfl := length_eq_zero_iff.mp (le_zero.mp hlen)
    exact Decides.end_of_pattern
  | succ fuel ih =>
    cases wild with
    | nil => exact Decides.end_of_pattern
    | cons w wild =>
      have hlen := le_of_succ_le_succ hlen
      unfold myWildcmp8bitImpl
      by_cases hmany : w = wMany
      · rw [if_pos hmany, hmany, readPattern_many]
        apply Decides.many
        rcases skipWild_spec (seenAsEscape escape) with
          ⟨hrun, hno⟩ | ⟨str', wild', hrun, hle, hchar, hiff⟩ <;> rw [hrun]
        · exact iff_of_false (by simp) hno
        · rw [hiff]
          cases wild' with
          | nil => exact iff_of_true rfl ⟨[], nil_suffix, rfl⟩
          | cons w' wild' =>
            obtain ⟨hmany', hone'⟩ := hchar w' wild' rfl
            rw [readPattern_char hmany' hone']
            dsimp only
            split
            case isTrue hnil => simp [hnil, Matches]
            case isFalse =>
              refine findLoop_eq_zero_iff (fun str => ih str _ (-1) ?_ (by decide)) rfl
              exact length_takeChar_le.trans ((le_of_succ_le hle).trans hlen)
      · rw [if_neg hmany]
        by_cases hone : w = wOne
        · rw [hone, readPattern_one]
          cases str with
          | nil => exact Decides.too_short hresult (by simp [Matches])
          | cons c str => exact (ih str wild result hlen hresult).cons matches_one_cons fun _ h => h
        · rw [if_neg hone, readPattern_char hmany hone]
          have hrest := (@length_takeChar_le w wild (seenAsEscape escape false w)).trans hlen
          generalize htake : takeChar (seenAsEscape escape false w) w wild = taken at hrest
          obtain ⟨w', wild'⟩ := taken
          rw [show (signedChar w == escape) = seenAsEscape escape false w from rfl, htake]
          cases str with
          | nil => exact Decides.too_short (by simp) (by simp [Matches])
          | cons c str =>
            dsimp only
            by_cases hc : sortOrder w' = sortOrder c
            · rw [if_neg (not_not.mpr hc)]
              refine (ih str wild' 1 hrest (by decide)).cons ?_ ?_
              · rw [matches_char_cons, and_iff_right hc]
              · rintro rest ⟨d, rest', heq, -, hmatch⟩
                exact ⟨d, rest', heq, hmatch⟩
            · rw [if_pos hc]
              refine ⟨iff_of_false (by decide) ?_, fun hneg => absurd hneg (by decide)⟩
              rw [matches_char_cons]
              exact fun h => hc h.1

end Matching

lemma signedChar_inj {c d : UInt8} : signedChar c = signedChar d ↔ c = d := by
  have hc := c.toNat_lt
  have hd := d.toNat_lt
  rw [← UInt8.toNat_inj]
  unfold signedChar
  simp only [UInt8.lt_iff_toNat_lt]
  split <;> split <;> omega

lemma seenAsEscape_of_lt {escape : UInt8} (h : escape < 128) :
    seenAsEscape (signedChar escape) = fun _ w => w == escape := by
  funext behind w
  rw [Bool.eq_iff_iff]
  cases behind with
  | false => simp [seenAsEscape, signedChar_inj]
  | true =>
    simp only [seenAsEscape, signedChar, h, if_true, beq_iff_eq]
    rw [← UInt8.toNat_inj]
    omega

lemma seenAsEscape_of_ge {escape : UInt8} (h : ¬ escape < 128) :
    seenAsEscape (signedChar escape) = fun behind w => !behind && w == escape := by
  funext behind w
  rw [Bool.eq_iff_iff]
  cases behind with
  | false => simp [seenAsEscape, signedChar_inj]
  | true =>
    have hlt := escape.toNat_lt
    simp only [seenAsEscape, signedChar, h, if_false, if_true, beq_iff_eq, Bool.not_true,
      Bool.false_and, Bool.false_eq_true, iff_false]
    omega

/-- The byte behind the first escape character that is hidden: it stands behind a `'%'` with only
`'%'` and `'_'` between. -/
def hiddenByte (escape : UInt8) : Bool -> List UInt8 -> Option UInt8
  | _, [] | _, [_] => none
  | behind, w :: c :: wild =>
    if w = wMany then hiddenByte escape true (c :: wild)
    else if w = wOne then hiddenByte escape behind (c :: wild)
    else if w = escape then if behind then some c else hiddenByte escape false wild
    else hiddenByte escape false (c :: wild)

def sample : List LikeToken -> List UInt8
  | [] => []
  | .many :: tokens => sample tokens
  | .one :: tokens => 0 :: sample tokens
  | .char c :: tokens => c :: sample tokens

section Hidden
variable {escape : UInt8} {tokens tokens' : List LikeToken} {str : List UInt8}

lemma matches_sample (tokens : List LikeToken) : Matches id tokens (sample tokens) := by
  induction tokens with
  | nil => rfl
  | cons token tokens ih =>
    cases token with
    | many => exact ⟨_, suffix_refl _, ih⟩
    | one => exact matches_one_cons.mpr ih
    | char c => exact matches_char_cons.mpr ⟨rfl, ih⟩

lemma Matches.sample_le (h : Matches id tokens str) : (sample tokens).length ≤ str.length := by
  induction tokens generalizing str with
  | nil => exact zero_le _
  | cons token tokens ih =>
    cases token with
    | many =>
      obtain ⟨rest, hrest, hmatch⟩ := h
      exact (ih hmatch).trans hrest.length_le
    | one =>
      obtain ⟨c, rest, rfl, hmatch⟩ := h
      exact succ_le_succ (ih hmatch)
    | char w =>
      obtain ⟨c, rest, rfl, -, hmatch⟩ := h
      exact succ_le_succ (ih hmatch)

/-- A shortest subject of the first pattern does not match the second one, if it is as long as the
shortest ones of that. -/
def Differ (tokens tokens' : List LikeToken) : Prop :=
  (sample tokens).length = (sample tokens').length -> ¬ Matches id tokens' (sample tokens)

lemma Differ.cons (h : Differ tokens tokens') (token : LikeToken) :
    Differ (token :: tokens) (token :: tokens') := by
  intro hlen hmatch
  cases token with
  | many =>
    obtain ⟨rest, hrest, hmatch⟩ := hmatch
    obtain rfl := hrest.eq_of_length_le (hlen.trans_le hmatch.sample_le)
    exact h hlen hmatch
  | one => exact h (succ.inj hlen) (matches_one_cons.mp hmatch)
  | char c => exact h (succ.inj hlen) (matches_char_cons.mp hmatch).2

lemma exists_not_iff_of_differ (h : Differ tokens tokens') :
    ∃ str, ¬ (Matches id tokens' str ↔ Matches id tokens str) := by
  by_contra hall
  push Not at hall
  have hle := ((hall _).mpr (matches_sample tokens)).sample_le
  have hge := ((hall _).mp (matches_sample tokens')).sample_le
  exact h (le_antisymm hge hle) ((hall _).mpr (matches_sample tokens))

/-- What the code reads is what is meant, up to the first hidden escape character. -/
lemma hiddenByte_spec (behind : Bool) (wild : List UInt8) :
    (hiddenByte escape behind wild = none -> readPattern (fun behind w => !behind && w == escape)
      behind wild = readPattern (fun _ w => w == escape) behind wild) ∧
    ∀ c, hiddenByte escape behind wild = some c -> c ≠ escape ->
      Differ (readPattern (fun _ w => w == escape) behind wild)
        (readPattern (fun behind w => !behind && w == escape) behind wild) := by
  fun_induction hiddenByte escape behind wild with
  | case1 behind => simp [readPattern]
  | case2 behind w => simp [readPattern]
  | case3 behind c wild ih =>
    rw [readPattern_many, readPattern_many]
    exact ⟨fun h => by rw [ih.1 h], fun d h hd => (ih.2 d h hd).cons _⟩
  | case4 behind c wild _ ih =>
    rw [readPattern_one, readPattern_one]
    exact ⟨fun h => by rw [ih.1 h], fun d h hd => (ih.2 d h hd).cons _⟩
  | case5 c wild hmany hone =>
    refine ⟨nofun, fun d hd hne _ hmatch => ?_⟩
    obtain rfl : c = d := Option.some.inj hd
    simp only [readPattern, if_neg hmany, if_neg hone, beq_self_eq_true, Bool.not_true,
      Bool.false_and, Bool.false_eq_true, if_false, if_true, sample] at hmatch
    exact hne (matches_char_cons.mp hmatch).1.symm
  | case6 behind c wild hbehind hmany hone ih =>
    simp only [readPattern, if_neg hmany, if_neg hone, beq_self_eq_true, eq_false_of_ne_true hbehind,
      Bool.not_false, Bool.true_and, if_true]
    exact ⟨fun h => by rw [ih.1 h], fun d h hd => (ih.2 d h hd).cons _⟩
  | case7 behind w c wild hmany hone hescape ih =>
    simp only [readPattern, if_neg hmany, if_neg hone, beq_false_of_ne hescape, Bool.and_false,
      Bool.false_eq_true, if_false]
    exact ⟨fun h => by rw [ih.1 h], fun d h hd => (ih.2 d h hd).cons _⟩

end Hidden

/-- The result is 0 exactly for the subjects that match, whatever the weights are, if the escape
character is below 128 or not hidden in the pattern. If it is 128 or more and the first one that is
hidden stands before another byte, then the result is wrong for some subject. In any case no end of
the subject matches when the result is negative. -/
theorem myWildcmp8bit_like (escape : UInt8) (wild : List UInt8) :
    (escape < 128 ∨ hiddenByte escape false wild = none -> ∀ sortOrder str,
      (myWildcmp8bit sortOrder (signedChar escape) str wild = 0 ↔ Like sortOrder escape str wild)) ∧
    (∀ c, 128 ≤ escape -> hiddenByte escape false wild = some c -> c ≠ escape -> ∃ str,
      ¬ (myWildcmp8bit id (signedChar escape) str wild = 0 ↔ Like id escape str wild)) ∧
    ∀ sortOrder str, myWildcmp8bit sortOrder (signedChar escape) str wild < 0 ->
      ∀ rest, rest <:+ str ->
        ¬ Matches sortOrder (readPattern (seenAsEscape (signedChar escape)) false wild) rest := by
  have hdecides := fun sortOrder str => @myWildcmp8bitImpl_decides sortOrder (signedChar escape)
    wild.length str wild (-1) le_rfl (by decide)
  have hspec := @hiddenByte_spec escape false wild
  simp only [myWildcmp8bit, (hdecides _ _).zero, Like]
  refine ⟨fun hhidden sortOrder str => ?_, fun c hge hhidden hc => ?_, fun sortOrder str =>
    (hdecides sortOrder str).neg⟩
  · by_cases hlt : escape < 128
    · rw [seenAsEscape_of_lt hlt]
    · rw [seenAsEscape_of_ge hlt, hspec.1 (hhidden.resolve_left hlt)]
  · rw [seenAsEscape_of_ge (UInt8.not_lt.mpr hge)]
    exact exists_not_iff_of_differ (hspec.2 c hhidden hc)

/-- With the escape character `'é'` of latin1, `'%é%'` stands for what ends in `'%'`. -/
theorem myWildcmp8bit_misses_escape :
    Like id 0xe9 ['a'.toUInt8, wMany] [wMany, 0xe9, wMany] ∧
      myWildcmp8bit id (signedChar 0xe9) ['a'.toUInt8, wMany] [wMany, 0xe9, wMany] = -1 ∧
      ¬ Like id 0xe9 [0xe9] [wMany, 0xe9, wMany] ∧
      myWildcmp8bit id (signedChar 0xe9) [0xe9] [wMany, 0xe9, wMany] = 0 := by
  have hread : readPattern (fun _ w => w == 0xe9) false [wMany, 0xe9, wMany] =
      [.many, .char wMany] := by decide
  refine ⟨⟨[wMany], suffix_cons _ _, wMany, [], rfl, rfl, rfl⟩, by decide, ?_, by decide⟩
  rintro ⟨rest, hrest, c, rest', rfl, hc, rfl⟩
  rcases suffix_cons_iff.mp hrest with heq | hnil
  · obtain ⟨rfl, -⟩ := cons.inj heq
    exact absurd hc (by decide)
  · exact absurd (suffix_nil.mp hnil) (cons_ne_nil _ _)

end Strings
