import Mathlib.Data.List.Basic

/-!
# SEL_TREE objects: AND and OR of ranges and index merges

sql/opt_range.cc. A tree has a `SEL_ARG` graph for some of the indexes and a list of imerges; an
imerge is a list of trees. The graphs are opaque here: `key_and` and `key_or` are given, and so are
the key parts they begin and end with.

The objects are values. An operand is not used after the operation, and a tree that comes into
an imerge is not in another place that is changed later.
-/

namespace Sql

inductive SelTreeType
  | impossible
  | always
  | maybe
  | key
  | keySmaller
  deriving DecidableEq, Repr

structure SelTree (A : Type) where
  type : SelTreeType
  keys : Nat -> Option A
  keysMap : Nat -> Bool
  merges : List (List (SelTree A))

/-- The indexes that are looked at, with the fields of their key parts, and the operations on
`SEL_ARG` graphs. -/
structure RangeOptParam (A : Type) where
  keys : Nat
  field : Nat -> Nat -> Nat
  part : A -> Nat
  maxPartNo : A -> Nat
  isImpossible : A -> Bool
  keyAnd : Option A -> Option A -> Option A
  keyOr : A -> A -> Option A

variable {A : Type}

namespace SelTree

def empty : SelTree A := ⟨.key, fun _ => none, fun _ => false, []⟩

/-- The copy constructor with `without_merges`. -/
def rangePart (tree : SelTree A) : SelTree A := { tree with merges := [] }

end SelTree

/-- The copy constructor of `SEL_IMERGE`: the first `cnt` trees, or all of them for 0. -/
def copyImerge (imerge : List (SelTree A)) (cnt : Nat) : List (SelTree A) :=
  (if cnt = 0 then imerge else imerge.take cnt).map SelTree.rangePart

/-- The copy constructor without `without_merges`. -/
def SelTree.copy (tree : SelTree A) : SelTree A :=
  { tree with
    merges := if tree.merges.any List.isEmpty then []
      else tree.merges.map fun imerge => copyImerge imerge 0 }

namespace RangeOptParam

variable (param : RangeOptParam A)

def isClearAll (map : Nat -> Bool) : Bool := (List.range param.keys).all fun i => !map i

variable (tree1 tree2 : SelTree A)

def selTreesHaveCommonKeys : Bool :=
  !param.isClearAll fun i => tree1.keysMap i && tree2.keysMap i

/-- The common indexes whose graphs begin with one key part; `none` if there is none. -/
def selTreesCanBeOred : Option (Nat -> Bool) :=
  let commonKeys i := tree1.keysMap i && tree2.keysMap i &&
    match tree1.keys i, tree2.keys i with
    | some key1, some key2 => param.part key1 == param.part key2
    | _, _ => false
  if param.isClearAll commonKeys then none else some commonKeys

/-- The key parts of two graphs are of the same fields as far as both go. -/
def sameFields (idx1 idx2 : Nat) (key1 key2 : A) : Bool :=
  (List.range (min (param.maxPartNo key1 - param.part key1)
    (param.maxPartNo key2 - param.part key2))).all fun j =>
      param.field idx1 (param.part key1 + j) == param.field idx2 (param.part key2 + j)

def selTreesMustBeOred (oredableKeys : Nat -> Bool) : Bool :=
  (param.isClearAll fun i => (tree1.keysMap i || tree2.keysMap i) && !oredableKeys i) &&
    (List.range param.keys).all fun idx1 => (List.range param.keys).all fun idx2 =>
      !(oredableKeys idx1 && oredableKeys idx2 && decide (idx1 < idx2)) ||
        match tree1.keys idx1, tree2.keys idx2 with
        | some key1, some key2 => param.sameFields idx1 idx2 key1 key2
        | _, _ => true

/-- The graphs of two trees for an index, ored. -/
def oredKey (i : Nat) : Option A :=
  match tree1.keys i, tree2.keys i with
  | some key1, some key2 => param.keyOr key1 key2
  | _, _ => none

/-- The loop of `and_range_trees` over the indexes of both trees. -/
def andKeys (tree1 tree2 : SelTree A) :
    List Nat -> SelTree A -> (Nat -> Bool) -> Bool × SelTree A
  | [], result, resultKeys => (false, { result with keysMap := resultKeys })
  | i :: rest, result, resultKeys =>
    if tree1.keysMap i || tree2.keysMap i then
      let key := param.keyAnd (tree1.keys i) (tree2.keys i)
      let result := { result with keys := Function.update result.keys i key }
      match key with
      | none => andKeys tree1 tree2 rest result resultKeys
      | some a =>
        if param.isImpossible a then (true, { result with type := .impossible })
        else andKeys tree1 tree2 rest result (Function.update resultKeys i true)
    else andKeys tree1 tree2 rest result resultKeys

/-- Whether the result is impossible, and the result. -/
def andRangeTrees (tree1 tree2 result : SelTree A) : Bool × SelTree A :=
  param.andKeys tree1 tree2 (List.range param.keys) result fun _ => false

variable (imerge : List (SelTree A))

def haveCommonKeys (tree : SelTree A) : Bool :=
  imerge.any fun orTree => param.selTreesHaveCommonKeys orTree tree

def andSelTree (tree : SelTree A) : List (SelTree A) :=
  imerge.filterMap fun orTree =>
    match param.andRangeTrees orTree tree.rangePart .empty with
    | (true, _) => none
    | (false, resOrTree) => some resOrTree

/-- The range part of a tree is pushed into the imerges that it has indexes in common with. -/
def imergeListAndTree (merges : List (List (SelTree A))) (tree : SelTree A) :
    List (List (SelTree A)) :=
  merges.filterMap fun imerge =>
    if param.haveCommonKeys imerge tree then
      if (param.andSelTree imerge tree).isEmpty then none
      else some (param.andSelTree imerge tree)
    else some imerge

/-- A tree of an imerge after it was ored with `tree` for some indexes. -/
def orInto (orTree tree : SelTree A) (oredKeys : Nat -> Bool) : SelTree A :=
  let keys i := if oredKeys i then param.oredKey orTree tree i else none
  let keysMap i := (keys i).isSome
  { orTree with
    keys := keys
    keysMap := keysMap
    type := if param.isClearAll keysMap then .always else orTree.type }

/-- An imerge that is ored: its trees, whether one of them took the other operand up, whether no
other pass is needed and whether it is to be discarded, as one of its trees is always true. -/
structure OredTrees (A : Type) where
  trees : List (SelTree A)
  wasOred : Bool
  isLastCheckPass : Bool
  discard : Bool

/-- The loop of `or_sel_tree_with_checks` over the trees that are there from the start. -/
def orTrees (tree : SelTree A) (isFirstCheckPass : Bool) : List (SelTree A) -> OredTrees A
  | [] => ⟨[], false, isFirstCheckPass, false⟩
  | orTree :: rest =>
    let next := orTrees tree isFirstCheckPass rest
    match param.selTreesCanBeOred orTree tree with
    | none => { next with trees := orTree :: next.trees }
    | some oredKeys =>
      if param.selTreesMustBeOred orTree tree oredKeys || !isFirstCheckPass then
        let result := param.orInto orTree tree oredKeys
        if result.type = .maybe ∨ result.type = .always then
          ⟨result :: rest, true, isFirstCheckPass, true⟩
        else { next with trees := result :: next.trees, wasOred := true }
      else { next with trees := orTree :: next.trees, isLastCheckPass := false }

def orSelTreeWithChecks (nTrees : Nat) (tree : SelTree A) (isFirstCheckPass : Bool) : OredTrees A :=
  let ored := param.orTrees tree isFirstCheckPass (imerge.take nTrees)
  let trees := ored.trees ++ imerge.drop nTrees
  if ored.discard || ored.wasOred then { ored with trees := trees }
  else if isFirstCheckPass && !ored.isLastCheckPass then
    { ored with trees := trees ++ [tree.copy] }
  else { ored with trees := trees ++ [tree] }

/-- The loop over the trees of another imerge; it ends with the first one that makes this one always
true. -/
def orSelImergeWithChecks (nTrees : Nat) (isFirstCheckPass : Bool) :
    List (SelTree A) -> List (SelTree A) -> OredTrees A
  | imerge, [] => ⟨imerge, false, true, false⟩
  | imerge, tree :: trees =>
    let ored := param.orSelTreeWithChecks imerge nTrees tree isFirstCheckPass
    if ored.discard then ored
    else
      let next := orSelImergeWithChecks nTrees isFirstCheckPass ored.trees trees
      { next with isLastCheckPass := ored.isLastCheckPass && next.isLastCheckPass }

/-- The first imerges of two lists, ored. The first component tells that the operation is a
success, the second one is the first list after it. -/
def imergeListOrList (im1 im2 : List (List (SelTree A))) : Bool × List (List (SelTree A)) :=
  let imerge := im1.headD []
  let first := param.orSelImergeWithChecks imerge.length true imerge (im2.headD [])
  if first.discard then (true, [])
  else if first.isLastCheckPass then (true, [first.trees])
  else
    let second := param.orSelImergeWithChecks imerge.length false
      (copyImerge first.trees imerge.length) (im2.headD [])
    if second.discard then (false, [first.trees]) else (true, [first.trees, second.trees])

/-- One turn of `imerge_list_or_tree`: what is left of the imerge, and the additional one. The second
pass is made for an imerge that is discarded, too. -/
def imergeOrTree (tree : SelTree A) : Option (List (SelTree A)) × Option (List (SelTree A)) :=
  let first := param.orSelTreeWithChecks imerge imerge.length tree.copy true
  if first.isLastCheckPass then (if first.discard then none else some first.trees, none)
  else
    let second := param.orSelTreeWithChecks (copyImerge first.trees imerge.length) imerge.length
      tree.copy false
    (if first.discard || second.discard then none else some first.trees,
      if second.discard then none else some second.trees)

def imergeListOrTree (merges : List (List (SelTree A))) (tree : SelTree A) :
    List (List (SelTree A)) :=
  (merges.filterMap fun imerge => (param.imergeOrTree imerge tree).1) ++
    merges.filterMap fun imerge => (param.imergeOrTree imerge tree).2

/-- The loop of `eliminate_single_tree_imerges` over the imerges of a tree that has none left. -/
def eliminateSingleTreeImerges (treeAnd : SelTree A -> SelTree A -> Option (SelTree A)) :
    SelTree A -> List (List (SelTree A)) -> List (List (SelTree A)) -> Option (SelTree A)
  | tree, [], kept => some { tree with merges := kept }
  | tree, imerge :: rest, kept =>
    match imerge with
    | [single] =>
      -- the variable goes over to an impossible tree, and the tree of the caller stays as it is
      if single.type = .impossible ∧ tree.type ≠ .impossible then some tree
      else (treeAnd tree single).bind fun tree =>
        eliminateSingleTreeImerges treeAnd tree rest kept
    | _ => eliminateSingleTreeImerges treeAnd tree rest (kept ++ [imerge])

/-- `tree_and` for trees that are there. The fuel bounds the depth of the trees in imerges; `none`
is that it has run out. -/
def treeAndTrees : Nat -> SelTree A -> SelTree A -> Option (SelTree A)
  | 0, _, _ => none
  | fuel + 1, tree1, tree2 =>
    if tree1.type = .impossible ∨ tree2.type = .always then some tree1
    else if tree2.type = .impossible ∨ tree1.type = .always then some tree2
    else if tree1.type = .maybe then
      some (if tree2.type = .key then { tree2 with type := .keySmaller } else tree2)
    else if tree2.type = .maybe then some { tree1 with type := .keySmaller }
    else
      let merges1 := param.imergeListAndTree tree1.merges tree2
      let merges2 := param.imergeListAndTree tree2.merges tree1
      match param.andRangeTrees tree1 tree2 { tree1 with merges := merges1 } with
      | (true, result) => some result
      | (false, result) =>
        eliminateSingleTreeImerges (treeAndTrees fuel) { result with merges := [] }
          (merges1 ++ merges2) []

/-- A tree that is NULL is `none`. -/
def treeAnd (fuel : Nat) : Option (SelTree A) -> Option (SelTree A) -> Option (Option (SelTree A))
  | none, tree2 => some tree2
  | tree1, none => some tree1
  | some tree1, some tree2 => (param.treeAndTrees fuel tree1 tree2).map some

/-- The range part of the tree for (1), with whether the trees must be ored; `reuse` is the first tree
in the simple case. -/
def orRanges : SelTree A × Bool :=
  match param.selTreesCanBeOred tree1 tree2 with
  | none => (.empty, false)
  | some oredKeys =>
    let mustBeOred := param.selTreesMustBeOred tree1 tree2 oredKeys
    let result := if mustBeOred && tree1.merges.isEmpty && tree2.merges.isEmpty then tree1 else .empty
    ({ result with
        keys := fun i => if oredKeys i then param.oredKey tree1 tree2 i else result.keys i
        keysMap := fun i => oredKeys i && (param.oredKey tree1 tree2 i).isSome
        type := tree1.type }, mustBeOred)

def treeOrTrees : SelTree A :=
  if tree1.type = .impossible ∨ tree2.type = .always then tree2
  else if tree2.type = .impossible ∨ tree1.type = .always then tree1
  else if tree1.type = .maybe then tree1
  else if tree2.type = .maybe then tree2
  else
    let noRanges1 := param.isClearAll tree1.keysMap
    let noRanges2 := param.isClearAll tree2.keysMap
    let noMerges1 := tree1.merges.isEmpty
    let noMerges2 := tree2.merges.isEmpty
    let (result, noImergeFromRanges) := param.orRanges tree1 tree2
    if noImergeFromRanges && noMerges1 && noMerges2 then
      if param.isClearAll result.keysMap then { result with type := .always } else result
    else
      -- (2) changes the imerges of the first tree
      let both := !noMerges1 && !noMerges2
      let (success, im1) :=
        if both then param.imergeListOrList tree1.merges tree2.merges else (false, tree1.merges)
      -- the imerge part for (1)
      let rt1 := if noMerges1 then tree1.rangePart else { tree1 with merges := im1 }
      let rt2 := if noMerges2 then tree2.rangePart else tree2
      let fromRanges :=
        if !noRanges1 && !noRanges2 && !noImergeFromRanges then [[rt1, rt2]] else []
      let part2 := if both && success then im1 else []
      -- (3) and (4)
      let part4 := if !noRanges1 && !noMerges2 then
          param.imergeListOrTree [copyImerge (tree2.merges.headD []) 0] tree1.rangePart
        else []
      let part3 := if !noRanges2 && !noMerges1 then
          param.imergeListOrTree [copyImerge (tree1.merges.headD []) 0] tree2.rangePart
        else []
      { result with type := tree1.type, merges := fromRanges ++ part2 ++ part4 ++ part3 }

def treeOr : Option (SelTree A) -> Option (SelTree A) -> Option (SelTree A)
  | some tree1, some tree2 => some (param.treeOrTrees tree1 tree2)
  | _, _ => none

end RangeOptParam

end Sql
