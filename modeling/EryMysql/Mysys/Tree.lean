import EryMysql.Lib.RedBlack
import EryMysql.Lib.Machine

/-!
# TREE of mysys

The red-black tree of mysys/tree.c. There are no links from an element to its parent. On its way
down a function puts the addresses of the pointers it follows on the stack `parents`, which has
`MAX_TREE_HEIGHT` places, and the functions that balance the tree go back on it. The ends of the
tree all point to one element, `null_element`, which has null pointers itself.

The two halves of `rb_insert` and of `rb_delete_fixup`, and the two rotations, differ in left and
right only, so there is one definition with a side for each pair. A function that follows a null
pointer, or leaves the stack, is undefined.
-/

namespace Mysys

open Function

open RedBlack (Color Side)

/-- A `TREE_ELEMENT` with its key. A pointer is an address, or none if it is null. -/
structure TreeElement (κ : Type) where
  left : Option Nat
  right : Option Nat
  count : Nat
  colour : Color
  key : κ

variable {κ : Type}

def TreeElement.child (element : TreeElement κ) : Side -> Option Nat
  | .left => element.left
  | .right => element.right

def TreeElement.setChild (element : TreeElement κ) (child : Option Nat) : Side -> TreeElement κ
  | .left => { element with left := child }
  | .right => { element with right := child }

def nullElement : Nat := 0

/-- The address of a pointer to an element. -/
inductive Place
  | root
  | child (side : Side) (element : Nat)
  deriving DecidableEq

/-- A `TREE`, with the memory where its elements are. New elements are made at the address
`fresh`. -/
structure Tree (κ : Type) where
  root : Nat
  elements : Nat -> TreeElement κ
  parents : Nat -> Place
  elementsInTree : Nat
  sizeOfElement : Nat
  memoryLimit : Nat
  allocated : Nat
  withDelete : Bool
  noDups : Bool
  onlyDups : Bool
  fresh : Nat

def maxTreeHeight : Nat := 64

def sizeofTreeElement : Nat := 24

namespace Tree

/-- `init_tree`. There may be anything in the memory. -/
def initTree (memory : Nat -> TreeElement κ) (parents : Nat -> Place) (memoryLimit size : Nat)
    (withDelete noDups onlyDups : Bool) : Tree κ :=
  { root := nullElement
    elements := update memory nullElement
      { memory nullElement with left := none, right := none, count := 0, colour := .black }
    parents := parents
    elementsInTree := 0
    sizeOfElement := size
    memoryLimit := memoryLimit
    allocated := 0
    withDelete := withDelete
    noDups := noDups
    onlyDups := onlyDups
    fresh := 1 }

variable (tree : Tree κ)

def resetTree : Tree κ :=
  { tree with root := nullElement, elementsInTree := 0, allocated := 0 }

def setColour (element : Nat) (colour : Color) : Tree κ :=
  { tree with
    elements := update tree.elements element { tree.elements element with colour } }

def setChild (tree : Tree κ) (side : Side) (element : Nat) (child : Option Nat) : Tree κ :=
  { tree with
    elements := update tree.elements element
      ((tree.elements element).setChild child side) }

def read : Place -> Option Nat
  | .root => some tree.root
  | .child side element => (tree.elements element).child side

def write (place : Place) (element : Option Nat) : Option (Tree κ) :=
  match place with
  | .root => element.map fun a => { tree with root := a }
  | .child side parent => some (tree.setChild side parent element)

def setParent (parent : Nat) (place : Place) : Tree κ :=
  { tree with parents := update tree.parents parent place }

/-- `*++parent= place`. -/
def push (parent : Nat) (place : Place) : Option (Tree κ × Nat) :=
  if parent + 1 < maxTreeHeight then some (tree.setParent (parent + 1) place, parent + 1) else none

def rotate (side : Side) (tree : Tree κ) (parent : Place) (leaf : Nat) : Option (Tree κ) := do
  let y ← (tree.elements leaf).child side.flip
  let tree := tree.setChild side.flip leaf ((tree.elements y).child side)
  let tree ← tree.write parent (some y)
  return tree.setChild side y (some leaf)

def leftRotate (parent : Place) (leaf : Nat) : Option (Tree κ) :=
  tree.rotate .left parent leaf

def rightRotate (parent : Place) (leaf : Nat) : Option (Tree κ) :=
  tree.rotate .right parent leaf

/-- The end of `rb_insert` where the parent of the leaf is red and the sibling of the parent is
black; `parent` is the place of the grandparent. -/
def insertRotate (side : Side) (tree : Tree κ) (parent leaf par par2 : Nat) : Option (Tree κ) := do
  let (tree, par) ← if (tree.elements par).child side.flip = some leaf then do
      let tree ← tree.rotate side (tree.parents (parent + 1)) par
      -- leaf is now parent to old leaf
      pure (tree, leaf)
    else pure (tree, par)
  let tree := (tree.setColour par .black).setColour par2 .red
  tree.rotate side.flip (tree.parents parent) par2

/-- The loop of `rb_insert`. The first argument is where `parent` is on the stack. -/
def rbInsertLoop : Nat -> Tree κ -> Nat -> Option (Tree κ)
  | 0, tree, leaf => if leaf = tree.root then some tree else none
  | 1, tree, leaf =>
    if leaf = tree.root then some tree
    else do
      let par ← tree.read (tree.parents 0)
      if (tree.elements par).colour = .red then none else some tree
  | parent + 2, tree, leaf =>
    if leaf = tree.root then some tree
    else do
      let par ← tree.read (tree.parents (parent + 1))
      if (tree.elements par).colour ≠ .red then some tree
      else do
        let par2 ← tree.read (tree.parents parent)
        let side := if (tree.elements par2).left = some par then .left else .right
        let y ← (tree.elements par2).child side.flip
        if (tree.elements y).colour = .red then
          let tree := ((tree.setColour par .black).setColour y .black).setColour par2 .red
          rbInsertLoop parent tree par2
        else tree.insertRotate side parent leaf par par2

def rbInsert (parent leaf : Nat) : Option (Tree κ) := do
  let tree ← rbInsertLoop parent (tree.setColour leaf .red) leaf
  return tree.setColour tree.root .black

/-- The first part of a turn of `rb_delete_fixup`: if the sibling is red, it becomes the
grandparent. Returns where `parent` is, and the sibling. -/
def liftSibling (side : Side) (tree : Tree κ) (parent par w : Nat) :
    Option (Tree κ × Nat × Nat) :=
  if (tree.elements w).colour = .red then do
    let tree := (tree.setColour w .black).setColour par .red
    let tree ← tree.rotate side (tree.parents (parent - 1)) par
    let tree := tree.setParent parent (.child side w)
    let (tree, parent) ← tree.push parent (.child side par)
    let w ← (tree.elements par).child side.flip
    return (tree, parent, w)
  else some (tree, parent, w)

/-- The last part of a turn of `rb_delete_fixup`: the sibling has a red child. -/
def deleteRotate (side : Side) (tree : Tree κ) (parent par w : Nat) : Option (Tree κ) := do
  let near ← (tree.elements w).child side
  let far ← (tree.elements w).child side.flip
  let (tree, w) ← if (tree.elements far).colour = .black then do
      let tree := (tree.setColour near .black).setColour w .red
      let tree ← tree.rotate side.flip (.child side.flip par) w
      let w ← (tree.elements par).child side.flip
      pure (tree, w)
    else pure (tree, w)
  let tree := (tree.setColour w (tree.elements par).colour).setColour par .black
  let far ← (tree.elements w).child side.flip
  let tree := tree.setColour far .black
  tree.rotate side (tree.parents (parent - 1)) par

/-- The loop of `rb_delete_fixup`. Returns the element that is made black at the end. -/
def rbDeleteLoop : Nat -> Tree κ -> Nat -> Nat -> Option (Tree κ × Nat)
  | 0, _, _, _ => none
  | fuel + 1, tree, parent, x =>
    if x = tree.root ∨ (tree.elements x).colour = .red then some (tree, x)
    else if parent = 0 then none
    else do
      let par ← tree.read (tree.parents (parent - 1))
      let side := if (tree.elements par).left = some x then .left else .right
      let w ← (tree.elements par).child side.flip
      let (tree, parent, w) ← tree.liftSibling side parent par w
      let near ← (tree.elements w).child side
      let far ← (tree.elements w).child side.flip
      if (tree.elements near).colour = .black ∧ (tree.elements far).colour = .black then
        rbDeleteLoop fuel (tree.setColour w .red) (parent - 1) par
      else do
        let tree ← tree.deleteRotate side parent par w
        return (tree, tree.root)

def rbDeleteFixup (parent : Nat) : Option (Tree κ) := do
  let x ← tree.read (tree.parents parent)
  let (tree, x) ← rbDeleteLoop (maxTreeHeight + 1) tree parent x
  return tree.setColour x .black

variable (cmp : κ -> κ -> Int)

/-- The loop that looks for a key. Returns where `parent` is, and the element that has the key, or
`null_element`. -/
def findPlace (key : κ) : Nat -> Tree κ -> Nat -> Nat -> Option (Tree κ × Nat × Nat)
  | 0, _, _, _ => none
  | fuel + 1, tree, parent, element =>
    if element = nullElement ∨ cmp (tree.elements element).key key = 0 then
      some (tree, parent, element)
    else do
      let side := if cmp (tree.elements element).key key < 0 then .right else .left
      let (tree, parent) ← tree.push parent (.child side element)
      let element ← (tree.elements element).child side
      findPlace key fuel tree parent element

/-- The search from the root on. The stack ends before the loop does. -/
def find (key : κ) : Option (Tree κ × Nat × Nat) :=
  findPlace cmp key maxTreeHeight (tree.setParent 0 .root) 0 tree.root

/-- What `tree_insert` returns: `NULL`, `TREE_ELEMENT_UNIQUE` or an element. -/
inductive InsertResult
  | null
  | unique
  | element (address : Nat)
  deriving DecidableEq

def addElement (key : κ) (parent : Nat) : Option (Tree κ) := do
  let element := tree.fresh
  let tree := { tree with fresh := tree.fresh + 1 }
  let tree ← tree.write (tree.parents parent) (some element)
  let tree := { tree with
    elements := update tree.elements element
      { tree.elements element with
        left := some nullElement, right := some nullElement, count := 1, key := key }
    elementsInTree := (tree.elementsInTree + 1) % 2 ^ 32 }
  tree.rbInsert parent element

/-- One more of an element. The count has 31 bits and stays at its greatest value. -/
def countUp (element : Nat) : Tree κ :=
  let count := ((tree.elements element).count + 1) % 2 ^ 31
  let count := if count = 0 then 2 ^ 31 - 1 else count
  { tree with
    elements := update tree.elements element { tree.elements element with count } }

/-- `tree_insert`, which calls itself after it has emptied the tree. The first argument bounds the
number of calls; `memory` tells whether memory can be allocated. -/
def treeInsertCalls (key : κ) (keySize : Nat) (memory : Bool) :
    Nat -> Tree κ -> Option (Tree κ × InsertResult)
  | 0, _ => none
  | calls + 1, tree => do
    let (tree, parent, element) ← tree.find cmp key
    if element = nullElement then
      if tree.onlyDups then return (tree, .unique)
      else
        let allocSize := (sizeofTreeElement + keySize + tree.sizeOfElement) % 2 ^ 32
        let tree := { tree with allocated := (tree.allocated + allocSize) % 2 ^ 64 }
        if tree.memoryLimit ≠ 0 ∧ tree.elementsInTree ≠ 0 ∧ tree.memoryLimit < tree.allocated then
          treeInsertCalls key keySize memory calls tree.resetTree
        else if !memory then return (tree, .null)
        else
          let element := tree.fresh
          let tree ← tree.addElement key parent
          return (tree, .element element)
    else if tree.noDups then return (tree, .null)
    else return (tree.countUp element, .element element)

def treeInsert (key : κ) (keySize : Nat) (memory : Bool) : Option (Tree κ × InsertResult) :=
  treeInsertCalls cmp key keySize memory 2 tree

/-- The way to the least element on the right. -/
def leftmost : Nat -> Tree κ -> Nat -> Nat -> Option (Tree κ × Nat × Nat)
  | 0, _, _, _ => none
  | fuel + 1, tree, parent, nod => do
    let left ← (tree.elements nod).left
    if left = nullElement then return (tree, parent, nod)
    else
      let (tree, parent) ← tree.push parent (.child .left nod)
      leftmost fuel tree parent left

/-- An element gets the children and the colour of another one. -/
def copyLinks (nod element : Nat) : Tree κ :=
  let tree := tree.setChild .left nod (tree.elements element).left
  let tree := tree.setChild .right nod (tree.elements element).right
  tree.setColour nod (tree.elements element).colour

/-- Put the next element in the place of one that has two children; `parent` is the place of the
next one, and `orgParent` that of the other. Returns the colour that is missing. -/
def replaceElement (orgParent parent element nod : Nat) :
    Option (Tree κ × Color) := do
  -- unlink nod from tree
  let tree ← tree.write (tree.parents parent) (tree.elements nod).right
  let removeColour := (tree.elements nod).colour
  -- put nod in place of element
  let tree ← tree.write (tree.parents orgParent) (some nod)
  let tree := tree.setParent (orgParent + 1) (.child .right nod)
  return (tree.copyLinks nod element, removeColour)

/-- Take an element out. Returns where `parent` is, and the colour that is missing there. -/
def unlinkElement (parent element : Nat) : Option (Tree κ × Nat × Color) := do
  let left ← (tree.elements element).left
  let right ← (tree.elements element).right
  if left = nullElement then
    let tree' ← tree.write (tree.parents parent) (some right)
    return (tree', parent, (tree.elements element).colour)
  else if right = nullElement then
    let tree' ← tree.write (tree.parents parent) (some left)
    return (tree', parent, (tree.elements element).colour)
  else
    let orgParent := parent
    let (tree, parent) ← tree.push parent (.child .right element)
    let (tree, parent, nod) ← leftmost maxTreeHeight tree parent right
    let (tree, removeColour) ← tree.replaceElement orgParent parent element nod
    return (tree, parent, removeColour)

/-- Returns whether the key was not in the tree, or the tree does not allow to delete. -/
def treeDelete (key : κ) (keySize : Nat) : Option (Tree κ × Bool) := do
  if !tree.withDelete then return (tree, true)
  else
    let (tree, parent, element) ← tree.find cmp key
    if element = nullElement then return (tree, true)
    else
      let (tree, parent, removeColour) ← tree.unlinkElement parent element
      let tree ← if removeColour = .black then tree.rbDeleteFixup parent else some tree
      let size := sizeofTreeElement + tree.sizeOfElement + keySize
      return ({ tree with
        allocated := (tree.allocated + (2 ^ 64 - size % 2 ^ 64)) % 2 ^ 64
        elementsInTree := (tree.elementsInTree + (2 ^ 32 - 1)) % 2 ^ 32 }, false)

/-- `test_rb_tree`, which returns the number of black elements on a way down, or -1. The first
argument bounds the depth. -/
def testRbTree (tree : Tree κ) : Nat -> Nat -> Option Int
  | 0, _ => none
  | depth + 1, element =>
    match (tree.elements element).left with
    | none => some 0
    | some left => do
      let right ← (tree.elements element).right
      if (tree.elements element).colour = .red ∧
          ((tree.elements left).colour = .red ∨ (tree.elements right).colour = .red) then
        return -1
      else
        let countL ← testRbTree tree depth left
        let countR ← testRbTree tree depth right
        if 0 ≤ countL ∧ 0 ≤ countR ∧ countL = countR then
          return countL + if (tree.elements element).colour = .black then 1 else 0
        else return -1

end Tree

end Mysys
