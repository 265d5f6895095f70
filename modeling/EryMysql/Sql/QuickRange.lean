import EryMysql.Sql.ColumnPartitions

/-!
# Key ranges from SEL_ARG graphs

sql/opt_range.cc and sql/opt_range.h: `get_quick_keys` turns a graph of intervals of the key parts
into ranges of key tuples, and `row_in_ranges` looks for a row in them.

A tuple in a key buffer is the list of its values, as each key part has its own length: NULL is
stored in one way only, and two values with the same bytes are equal. What is smaller and what is
greater is mirrored in the source; here it is one definition with a side.
-/

namespace Sql

open BinarySearch

inductive Side
  | min
  | max
  deriving DecidableEq, Repr

/-- What is outside of an interval on a side compares with this sign reversed. -/
def Side.sign : Side -> Int
  | .min => 1
  | .max => -1

/-- `NO_MIN_RANGE` and `NEAR_MIN`, or `NO_MAX_RANGE` and `NEAR_MAX`. -/
structure EndFlag where
  no : Bool
  near : Bool
  deriving DecidableEq, Repr

def EndFlag.zero : EndFlag := ⟨false, false⟩

def EndFlag.or (f g : EndFlag) : EndFlag := ⟨f.no || g.no, f.near || g.near⟩

@[ext]
structure KeyEnd (κ : Type) where
  flag : EndFlag
  value : Option κ
  deriving DecidableEq, Repr

structure KeyInterval (κ : Type) where
  min : KeyEnd κ
  max : KeyEnd κ
  deriving DecidableEq, Repr

variable {κ : Type}

def KeyInterval.endAt (interval : KeyInterval κ) : Side -> KeyEnd κ
  | .min => interval.min
  | .max => interval.max

/-- A red-black tree of intervals of one key part, each with the graph for what follows. A graph of
another type than `KEY_RANGE` is `maybeKey`; `nullElement` also stands for no graph. -/
inductive SelArg (κ : Type)
  | nullElement
  | maybeKey
  | keyRange (left : SelArg κ) (part : Nat) (interval : KeyInterval κ) (nextKeyPart : SelArg κ)
      (right : SelArg κ)

namespace SelArg

def isKeyRange : SelArg κ -> Bool
  | keyRange .. => true
  | _ => false

def isNull : SelArg κ -> Bool
  | nullElement => true
  | _ => false

def partNo : SelArg κ -> Nat
  | keyRange _ part _ _ _ => part
  | _ => 0

/-- `store_min` and `store_max`: what is appended to the key buffer. -/
def storeEnd (e : KeyEnd κ) (keyFlag : EndFlag) : List (Option κ) :=
  if e.flag.no = false ∧ keyFlag.no = false ∧ keyFlag.near = false then [e.value] else []

/-- `store_min_key` and `store_max_key`: what is appended to the key buffer, and the flag. The first
interval is the one furthest to the left, the last one that furthest to the right. -/
def storeKey (side : Side) : SelArg κ -> EndFlag -> List (Option κ) × EndFlag
  | keyRange left part interval nextKeyPart right, rangeKeyFlag =>
    if side = .min ∧ left.isKeyRange then storeKey side left rangeKeyFlag
    else if side = .max ∧ right.isKeyRange then storeKey side right rangeKeyFlag
    else
      let e := interval.endAt side
      let flag := rangeKeyFlag.or e.flag
      if nextKeyPart.isKeyRange ∧ nextKeyPart.partNo = part + 1 ∧ flag = .zero then
        let rest := storeKey side nextKeyPart flag
        (storeEnd e rangeKeyFlag ++ rest.1, rest.2)
      else (storeEnd e rangeKeyFlag, flag)
  | _, rangeKeyFlag => ([], rangeKeyFlag)

end SelArg

/-- A range of keys. The bitmaps of the used key parts are prefixes, given by their lengths. -/
structure QuickRange (κ : Type) where
  minKey : List (Option κ)
  maxKey : List (Option κ)
  minFlag : EndFlag
  maxFlag : EndFlag
  eqRange : Bool
  uniqueRange : Bool
  nullRange : Bool
  minKeypartMap : Nat
  maxKeypartMap : Nat
  deriving Repr

/-- What is read of the key: the flags `HA_NOSAME` and `HA_NULL_PART_KEY`, and the number of key
parts. -/
structure KeyInfo where
  noSame : Bool
  nullPartKey : Bool
  userDefinedKeyParts : Nat

variable [DecidableEq κ]

/-- The end of `get_quick_keys` for one interval: a bound of which nothing is stored is none. -/
def makeQuickRange (table : KeyInfo) (part : Nat) (minKey maxKey : List (Option κ))
    (minNear maxNear : Bool) : QuickRange κ :=
  let minFlag : EndFlag := ⟨minKey.isEmpty, minNear⟩
  let maxFlag : EndFlag := ⟨maxKey.isEmpty, maxNear⟩
  let eq := minFlag = .zero ∧ maxFlag = .zero ∧ minKey = maxKey
  let unique := eq ∧ table.noSame = true ∧ minKey.length = part + 1 ∧
    part + 1 = table.userDefinedKeyParts
  let null := table.nullPartKey = true ∧ none ∈ minKey
  { minKey, maxKey, minFlag, maxFlag
    eqRange := decide eq
    uniqueRange := decide (unique ∧ ¬ null)
    nullRange := decide (unique ∧ null)
    minKeypartMap := minKey.length
    maxKeypartMap := maxKey.length }

/-- The ranges of a graph in the order of the tree, behind the key parts that are in the buffers. -/
def getQuickKeys (table : KeyInfo) :
    SelArg κ -> List (Option κ) -> EndFlag -> List (Option κ) -> EndFlag -> List (QuickRange κ)
  | .keyRange left part interval nextKeyPart right, minKey, minKeyFlag, maxKey, maxKeyFlag =>
    let minNew := SelArg.storeEnd interval.min minKeyFlag
    let maxNew := SelArg.storeEnd interval.max maxKeyFlag
    let own :=
      if nextKeyPart.isKeyRange ∧ nextKeyPart.partNo = part + 1 then
        if minNew = maxNew ∧ interval.min.flag = .zero ∧ interval.max.flag = .zero then
          -- a constant key as a prefix
          getQuickKeys table nextKeyPart (minKey ++ minNew) (minKeyFlag.or interval.min.flag)
            (maxKey ++ maxNew) (maxKeyFlag.or interval.max.flag)
        else
          let min := if interval.min.flag = .zero then nextKeyPart.storeKey .min .zero
            else ([], interval.min.flag)
          let max := if interval.max.flag = .zero then nextKeyPart.storeKey .max .zero
            else ([], interval.max.flag)
          [makeQuickRange table part (minKey ++ minNew ++ min.1) (maxKey ++ maxNew ++ max.1)
            min.2.near max.2.near]
      else
        [makeQuickRange table part (minKey ++ minNew) (maxKey ++ maxNew) interval.min.flag.near
          interval.max.flag.near]
    getQuickKeys table left minKey minKeyFlag maxKey maxKeyFlag ++ own ++
      getQuickKeys table right minKey minKeyFlag maxKey maxKeyFlag
  | _, _, _, _, _ => []

section Search
omit [DecidableEq κ]

/-- The loop of `cmp_next`; the flag is read if the key has no more parts. -/
def cmpNextKey (nearMax : Bool) :
    List (κ -> κ -> Int) -> List (Option κ) -> List (Option κ) -> Int
  | field :: fields, column :: row, key :: keys =>
    match key, column with
    | none, some _ => 1
    | none, none => cmpNextKey nearMax fields row keys
    | some _, none => 0
    | some k, some x =>
      if field x k < 0 then 0 else if 0 < field x k then 1 else cmpNextKey nearMax fields row keys
  | _, _, _ => if nearMax then 1 else 0

def keyCmp : List (κ -> κ -> Int) -> List (Option κ) -> List (Option κ) -> Int
  | field :: fields, column :: row, key :: keys =>
    match key, column with
    | none, some _ => 1
    | none, none => keyCmp fields row keys
    | some _, none => -1
    | some k, some x =>
      if field x k < 0 then -1 else if 0 < field x k then 1 else keyCmp fields row keys
  | _, _, _ => 0

variable (fields : List (κ -> κ -> Int))

def cmpNext (row : List (Option κ)) (range : QuickRange κ) : Int :=
  if range.maxFlag.no then 0 else cmpNextKey range.maxFlag.near fields row range.maxKey

def cmpPrev (row : List (Option κ)) (range : QuickRange κ) : Int :=
  if range.minFlag.no then 0
  else if 0 < keyCmp fields row range.minKey ∨
    (keyCmp fields row range.minKey = 0 ∧ range.minFlag.near = false) then 0
  else 1

def rowInRanges (ranges : List (QuickRange κ)) (row : List (Option κ)) : Bool :=
  let past mid := (ranges[mid]?).any fun range => cmpNext fields row range != 0
  match ranges[cut past ranges.length 0 (ranges.length - 1)]? with
  | none => false
  | some range => cmpNext fields row range == 0 && cmpPrev fields row range == 0

end Search

end Sql
