import EryMysql.Lib.Comparison
import Mathlib.Data.Multiset.Filter
import EryMysql.Mysys.TreeRbInsert

/-!
# Looking for a key, and inserting one

The way down to a key: the elements before the place have lesser keys, and those behind it greater
ones. A new element at the place keeps the order.
-/

namespace Mysys

open Comparison RedBlack RedBlack.RBTree Function List Nat Mysys.Tree

variable {κ : Type} {tree tree' : Tree κ} {p : List (Frame Nat)} {t T : RBTree Nat} {n : Nat}
  {cmp : κ -> κ -> Int} {key : κ}

/-- The keys of the elements grow from the left to the right. -/
def Sorted (cmp : κ -> κ -> Int) (tree : Tree κ) (l : List Nat) : Prop :=
  l.Pairwise fun x y => cmp (tree.elements x).key (tree.elements y).key < 0

lemma Sorted.congr {l : List Nat} (h : Sorted cmp tree l)
    (heq : ∀ x ∈ l, (tree'.elements x).key = (tree.elements x).key) : Sorted cmp tree' l := by
  refine h.imp_of_mem fun hx hy hlt => ?_
  rwa [heq _ hx, heq _ hy]

lemma Sorted.insert {l r : List Nat} {x : Nat} (h : Sorted cmp tree (l ++ r))
    (hl : ∀ y ∈ l, cmp (tree.elements y).key (tree.elements x).key < 0)
    (hr : ∀ y ∈ r, cmp (tree.elements x).key (tree.elements y).key < 0) :
    Sorted cmp tree (l ++ [x] ++ r) := by
  obtain ⟨hleft, hright, hboth⟩ := pairwise_append.mp h
  rw [append_assoc]
  refine pairwise_append.mpr ⟨hleft, pairwise_cons.mpr ⟨hr, hright⟩, fun y hy z hz => ?_⟩
  rcases mem_cons.mp hz with rfl | hz
  · exact hl y hy
  · exact hboth y hy z hz

/-- The elements before a place have lesser keys than the given one, and those behind it greater
ones. -/
structure Between (cmp : κ -> κ -> Int) (tree : Tree κ) (key : κ) (p : List (Frame Nat)) : Prop where
  before : ∀ x ∈ before p, cmp (tree.elements x).key key < 0
  after : ∀ x ∈ after p, cmp key (tree.elements x).key < 0

section Find

lemma Between.step (hcmp : Preorders cmp) (h : Between cmp tree key p) (ht : t ≠ .nil)
    (hsorted : Sorted cmp tree (plug p t).toList) (hx : cmp (tree.elements (addr t)).key key ≠ 0) :
    ∃ c sub sib, t = join (if cmp (tree.elements (addr t)).key key < 0 then .right else .left) c sub
        (addr t) sib ∧
      Between cmp tree key (⟨if cmp (tree.elements (addr t)).key key < 0 then .right else .left, c,
        addr t, sib⟩ :: p) := by
  obtain ⟨c, l, x, r, rfl⟩ := exists_join .left ht
  rw [toList_plug] at hsorted
  have hnode := (pairwise_append.mp (pairwise_append.mp hsorted).1).2.1
  obtain ⟨-, hright, hleft⟩ := pairwise_append.mp hnode
  rw [addr_join] at hx ⊢
  split
  · rename_i hlt
    refine ⟨c, r, l, rfl, fun y hy => ?_, h.after⟩
    simp only [RedBlack.before, mem_append, mem_singleton] at hy
    rcases hy with (hy | hy) | rfl
    · exact h.before y hy
    · exact hcmp.lt_of_lt_of_le (hleft y hy x mem_cons_self) hlt.le
    · exact hlt
  · have hgt : cmp key (tree.elements x).key < 0 := (hcmp.swap _ _).mpr (by omega)
    refine ⟨c, l, r, rfl, h.before, fun y hy => ?_⟩
    simp only [RedBlack.after, mem_cons, mem_append] at hy
    rcases hy with rfl | hy | hy
    · exact hgt
    · exact hcmp.lt_of_lt_of_le hgt ((pairwise_cons.mp hright).1 y hy).le
    · exact h.after y hy

structure Found (cmp : κ -> κ -> Int) (key : κ) (tree tree' : Tree κ) (T : RBTree Nat)
    (p : List (Frame Nat)) (t : RBTree Nat) : Prop where
  plug : plug p t = T
  is : Is tree' T
  elements : tree'.elements = tree.elements
  kept : Kept tree tree'
  stack : Stack tree'.parents p
  between : Between cmp tree' key p
  at_end : t = .nil ∨ cmp (tree'.elements (addr t)).key key = 0
  length_le : p.length + t.height < maxTreeHeight

lemma findPlace_spec (hcmp : Preorders cmp) {fuel : Nat} (h : Is tree (plug p t))
    (hsorted : Sorted cmp tree (plug p t).toList) (hstack : Stack tree.parents p)
    (hbetween : Between cmp tree key p) (hlen : p.length + t.height < maxTreeHeight)
    (hfuel : t.height < fuel) :
    ∃ tree' p' t', findPlace cmp key fuel tree p.length (addr t) =
        some (tree', p'.length, addr t') ∧ Found cmp key tree tree' (plug p t) p' t' := by
  induction fuel generalizing tree p t with
  | zero => cases hfuel
  | succ fuel ih =>
    rw [findPlace]
    by_cases hend : addr t = nullElement ∨ cmp (tree.elements (addr t)).key key = 0
    · rw [if_pos hend]
      refine ⟨tree, p, t, rfl, rfl, h, rfl, Kept.refl _, hstack, hbetween, ?_, hlen⟩
      exact hend.imp_left h.addr_eq_null.mp
    · rw [if_neg hend]
      obtain ⟨hnull, hzero⟩ := not_or.mp hend
      have ht : t ≠ .nil := by
        rintro rfl
        exact hnull rfl
      obtain ⟨c, sub, sib, heq, hstep⟩ := hbetween.step hcmp ht hsorted hzero
      generalize (if cmp (tree.elements (addr t)).key key < 0 then Side.right else .left) = side at *
      generalize addr t = x at *
      subst heq
      rw [height_join] at hlen hfuel
      have hdown : Is tree (plug (⟨side, c, x, sib⟩ :: p) sub) := h
      obtain ⟨tree', p', t', hfind, hfound⟩ := ih (hdown.setParent (p.length + 1) _) hsorted
        (hstack.push ⟨side, c, x, sib⟩) ⟨hstep.before, hstep.after⟩
        (by simp only [length_cons]; omega) (by omega)
      refine ⟨tree', p', t', ?_, { hfound with kept := (kept_setParent).trans hfound.kept }⟩
      have hchild : ((tree.setParent (p.length + 1) (.child side x)).elements x).child side =
        some (addr sub) := hdown.read
      simp only [push_spec (show p.length + 1 < maxTreeHeight by omega), hchild, some_bind]
      exact hfind

lemma find_spec (hcmp : Preorders cmp) (h : Is tree T) (hsorted : Sorted cmp tree T.toList)
    (hheight : T.height < maxTreeHeight) (key : κ) :
    ∃ tree' p t, tree.find cmp key = some (tree', p.length, addr t) ∧
      Found cmp key tree tree' T p t := by
  have hroot : Is (tree.setParent 0 .root) (plug [] T) := h.setParent _ _
  have hstack : Stack (tree.setParent 0 .root).parents [] := by
    simp [Stack, place, setParent]
  have hbetween : Between cmp (tree.setParent 0 .root) key [] :=
    ⟨by simp [RedBlack.before], by simp [RedBlack.after]⟩
  obtain ⟨tree', p, t, hfind, hfound⟩ := findPlace_spec hcmp hroot hsorted hstack hbetween
    (by simpa using hheight) hheight
  rw [← h.root] at hfind
  exact ⟨tree', p, t, hfind, { hfound with kept := (kept_setParent).trans hfound.kept }⟩

end Find

section Add
variable {t : RBTree Nat}

/-- The tree in the memory is a red-black tree, and a search tree for the keys. -/
structure TreeInv (cmp : κ -> κ -> Int) (tree : Tree κ) (T : RBTree Nat) : Prop where
  is : Is tree T
  balanced : ∃ m, T.Balanced m
  black : T.color = .black
  sorted : Sorted cmp tree T.toList
  fresh : ∀ x ∈ T.toList, x < tree.fresh
  fresh_pos : 0 < tree.fresh

def Tree.keys (tree : Tree κ) (T : RBTree Nat) : Multiset κ :=
  (T.toList.map fun x => (tree.elements x).key : List κ)

structure SameTree (tree tree' : Tree κ) : Prop where
  sizeOfElement : tree'.sizeOfElement = tree.sizeOfElement
  memoryLimit : tree'.memoryLimit = tree.memoryLimit
  withDelete : tree'.withDelete = tree.withDelete
  noDups : tree'.noDups = tree.noDups
  onlyDups : tree'.onlyDups = tree.onlyDups

lemma Kept.same (h : Kept tree tree') : SameTree tree tree' := { h with }

lemma SameTree.trans {tree1 tree2 tree3 : Tree κ} (h : SameTree tree1 tree2)
    (h' : SameTree tree2 tree3) : SameTree tree1 tree3 :=
  ⟨h'.sizeOfElement.trans h.sizeOfElement, h'.memoryLimit.trans h.memoryLimit,
    h'.withDelete.trans h.withDelete, h'.noDups.trans h.noDups, h'.onlyDups.trans h.onlyDups⟩

lemma addElement_spec (hinv : TreeInv cmp tree (plug p .nil)) (hstack : Stack tree.parents p)
    (hbetween : Between cmp tree key p) :
    ∃ tree' T', tree.addElement key p.length = some tree' ∧ TreeInv cmp tree' T' ∧
      tree'.keys T' = key ::ₘ tree.keys (plug p .nil) ∧
      tree'.elementsInTree = (tree.elementsInTree + 1) % 2 ^ 32 ∧ SameTree tree tree' := by
  have h := hinv.is
  have hnodup := (nodup_plug.mp h.nodup).2.1
  have hnew : tree.fresh ∉ around p := by
    intro hmem
    exact absurd (hinv.fresh _ (mem_toList_plug.mpr (.inr hmem))) (lt_irrefl _)
  have hnull : nullElement ≠ tree.fresh := hinv.fresh_pos.ne
  have hnotin : nullElement ∉ around p := h.null_around
  have hpath0 : RepPath { tree with fresh := tree.fresh + 1 }.root
    { tree with fresh := tree.fresh + 1 }.elements p (addr .nil) := h.repPath.1
  obtain ⟨tree1, hwrite, hpath1, hsame1, hkept1, hparents1⟩ := hpath0.write hnodup tree.fresh
  set tree2 : Tree κ := { tree1 with
    elements := update tree1.elements tree.fresh
      { tree1.elements tree.fresh with
        left := some nullElement, right := some nullElement, count := 1, key := key }
    elementsInTree := (tree1.elementsInTree + 1) % 2 ^ 32 } with htree2
  have hself : tree2.elements tree.fresh = { tree1.elements tree.fresh with
      left := some nullElement, right := some nullElement, count := 1, key := key } :=
    update_self _ _ _
  have hother : ∀ y, y ≠ tree.fresh -> tree2.elements y = tree1.elements y :=
    fun y hy => update_of_ne hy _ _
  have hnull2 : tree2.elements nullElement = tree.elements nullElement :=
    (hother _ hnull).trans (hsame1 _ hnotin)
  have his2 : Is tree2
      (plug p (join .left (tree1.elements tree.fresh).colour .nil tree.fresh .nil)) := by
    have hrep : Rep tree2.elements
        (join .left (tree1.elements tree.fresh).colour .nil tree.fresh .nil) :=
      rep_join.mpr ⟨by rw [hself], by rw [hself]; rfl, by rw [hself]; rfl, trivial, trivial⟩
    have hpath2 : RepPath tree2.root tree2.elements p tree.fresh := by
      refine hpath1.congr fun y hy => hother y ?_
      rintro rfl
      exact hnew hy
    obtain ⟨hroot, hrep⟩ := rep_plug.mp ⟨hpath2, hrep⟩
    refine ⟨hroot, hrep, nodup_plug.mpr ⟨by simp [toList_join, toList], hnodup, ?_⟩, ?_, ?_, ?_⟩
    · simpa [toList_join, toList] using hnew
    · rw [mem_toList_plug]
      simpa [toList_join, toList, hnotin] using hnull
    · rw [hnull2, h.null_colour]
    · rw [hnull2, h.null_left]
  obtain ⟨n, hole, hn, -⟩ := balanced_plug.mp ⟨hinv.balanced, hinv.black⟩
  obtain rfl := balanced_nil.mp hn
  have hstack2 : Stack (tree2.setColour tree.fresh .red).parents p := by
    refine hstack.congr fun i _ => ?_
    exact congrFun hparents1 i
  obtain ⟨tree3, T, hloop, his3, hre, hkept3⟩ := rbInsertLoop_spec p _ 0 _ (his2.paintJoin .red)
    hstack2 hole (by simp) color_join
  have hfinal : Is (tree3.setColour (addr T) .black) (plug [] (T.paint .black)) :=
    Is.paint (p := []) his3 (.inr rfl)
  have hkept : Kept tree2 (tree3.setColour (addr T) .black) :=
    kept_setColour.trans (hkept3.trans kept_setColour)
  have hlist : (T.paint .black).toList = before p ++ [tree.fresh] ++ after p := by
    rw [toList_paint, hre.toList, toList_plug]
    simp [toList_join, toList]
  have hkeyNew : ((tree3.setColour (addr T) .black).elements tree.fresh).key = key := by
    rw [hkept.key, hself]
  have hkeyOld : ∀ y ∈ before p ++ after p,
      ((tree3.setColour (addr T) .black).elements y).key = (tree.elements y).key := by
    intro y hy
    have hne : y ≠ tree.fresh := by
      rintro rfl
      exact hnew hy
    rw [hkept.key, hother y hne, hkept1.key]
  have hsorted := hinv.sorted
  rw [toList_plug, toList, append_nil] at hsorted
  refine ⟨tree3.setColour (addr T) .black, T.paint .black, ?_, ⟨hfinal, hre.balanced,
    color_paint_black, ?_, ?_, ?_⟩, ?_, ?_, ?_⟩
  · rw [addr_join] at hloop
    simp only [addElement, hstack.top, hwrite, some_bind]
    rw [rbInsert, hloop, ← his3.root]
    rfl
  · rw [hlist]
    refine (hsorted.congr hkeyOld).insert (fun y hy => ?_) fun y hy => ?_
    · rw [hkeyNew, hkeyOld y (mem_append_left _ hy)]
      exact hbetween.before y hy
    · rw [hkeyNew, hkeyOld y (mem_append_right _ hy)]
      exact hbetween.after y hy
  · intro x hx
    rw [hkept.fresh, show tree2.fresh = tree.fresh + 1 from hkept1.fresh]
    rw [hlist] at hx
    by_cases hxn : x = tree.fresh
    · omega
    · refine lt_succ_of_lt (hinv.fresh x ?_)
      rw [mem_toList_plug, around]
      simp only [mem_append, mem_singleton, hxn, or_false] at hx ⊢
      exact .inr hx
  · rw [hkept.fresh, show tree2.fresh = tree.fresh + 1 from hkept1.fresh]
    exact succ_pos _
  · rw [Tree.keys, hlist, Tree.keys, toList_plug, toList, append_nil, append_assoc,
      singleton_append, Multiset.cons_coe, Multiset.coe_eq_coe, map_append, map_cons, hkeyNew]
    refine perm_middle.trans (Perm.cons _ (Perm.of_eq ?_))
    rw [← map_append]
    exact map_congr_left hkeyOld
  · rw [hkept.elementsInTree]
    exact congrArg (fun k => (k + 1) % 2 ^ 32) hkept1.elementsInTree
  · have hsame : SameTree tree tree2 := { hkept1.same with }
    exact hsame.trans hkept.same

lemma countUp_spec (h : TreeInv cmp tree T) (x : Nat) :
    TreeInv cmp (tree.countUp x) T ∧ (tree.countUp x).keys T = tree.keys T ∧
      Kept tree (tree.countUp x) := by
  have hsame : ∀ y, ((tree.countUp x).elements y).left = (tree.elements y).left ∧
      ((tree.countUp x).elements y).right = (tree.elements y).right ∧
      ((tree.countUp x).elements y).colour = (tree.elements y).colour ∧
      ((tree.countUp x).elements y).key = (tree.elements y).key := by
    intro y
    unfold countUp
    by_cases hy : y = x
    · subst hy
      simp
    · simp [update_of_ne hy]
  have hrep : ∀ {t : RBTree Nat}, Rep tree.elements t -> Rep (tree.countUp x).elements t := by
    intro t ht
    induction t with
    | nil => trivial
    | node c l y r ihl ihr =>
      obtain ⟨hl, hr, hc, -⟩ := hsame y
      exact ⟨hc.trans ht.1, hl.trans ht.2.1, hr.trans ht.2.2.1, ihl ht.2.2.2.1, ihr ht.2.2.2.2⟩
  have hkept : Kept tree (tree.countUp x) := Kept.of_elements (fun y => (hsame y).2.2.2) _ _
  refine ⟨⟨⟨h.is.root, hrep h.is.rep, h.is.nodup, h.is.ne_null, ?_, ?_⟩, h.balanced, h.black,
    h.sorted.congr fun y _ => hkept.key y, h.fresh, h.fresh_pos⟩, ?_, hkept⟩
  · exact (hsame nullElement).2.2.1.trans h.is.null_colour
  · exact (hsame nullElement).1.trans h.is.null_left
  · simp [Tree.keys, hkept.key]

structure TreeState (cmp : κ -> κ -> Int) (tree : Tree κ) (T : RBTree Nat) : Prop where
  inv : TreeInv cmp tree T
  elementsInTree : tree.elementsInTree = T.toList.length % 2 ^ 32

lemma TreeInv.height_lt (h : TreeInv cmp tree T) (hlen : T.toList.length < 2 ^ 32) :
    T.height + 1 < maxTreeHeight := by
  obtain ⟨m, hm⟩ := h.balanced
  have := hm.height_lt (k := 32) (by omega) h.black hlen
  rw [maxTreeHeight]
  omega

lemma TreeInv.of_found (h : TreeInv cmp tree T)
    (hfound : Found cmp key tree tree' T p t) :
    TreeInv cmp tree' (plug p t) ∧ tree'.keys (plug p t) = tree.keys T := by
  rw [hfound.plug]
  refine ⟨⟨hfound.is, h.balanced, h.black, h.sorted.congr fun y _ => hfound.kept.key y, ?_, ?_⟩, ?_⟩
  · rw [hfound.kept.fresh]
    exact h.fresh
  · rw [hfound.kept.fresh]
    exact h.fresh_pos
  · simp [Tree.keys, hfound.kept.key]

lemma Found.addr_eq_null (hcmp : Preorders cmp)
    (hfound : Found cmp key tree tree' T p t) :
    (addr t = nullElement ↔ t = .nil) ∧ (t = .nil ↔ ∀ k ∈ tree.keys T, cmp k key ≠ 0) := by
  have his := hfound.is
  rw [← hfound.plug] at his
  refine ⟨his.addr_eq_null, fun ht k hk => ?_, fun hall => ?_⟩
  · subst ht
    obtain ⟨y, hy, rfl⟩ := mem_map.mp (Multiset.mem_coe.mp hk)
    rw [← hfound.plug, toList_plug, toList, append_nil, mem_append] at hy
    rw [← hfound.elements]
    rcases hy with hy | hy
    · exact (hfound.between.before y hy).ne
    · have hlt := (hcmp.swap _ _).mp (hfound.between.after y hy)
      omega
  · by_contra ht
    refine hall _ ?_ (hfound.at_end.resolve_left ht)
    rw [hfound.elements]
    refine Multiset.mem_coe.mpr (mem_map_of_mem ?_)
    rw [← hfound.plug]
    exact mem_toList_plug.mpr (.inl (addr_mem ht))

end Add

section Insert
variable {keySize : Nat} {memory : Bool}

/-- A key would need more memory than the tree may have. -/
def Tree.exceeds (tree : Tree κ) (keySize : Nat) : Prop :=
  tree.memoryLimit ≠ 0 ∧ tree.elementsInTree ≠ 0 ∧ tree.memoryLimit <
    (tree.allocated + (sizeofTreeElement + keySize + tree.sizeOfElement) % 2 ^ 32) % 2 ^ 64

instance (tree : Tree κ) (keySize : Nat) : Decidable (tree.exceeds keySize) :=
  inferInstanceAs (Decidable (_ ∧ _ ∧ _))

lemma Kept.exceeds_iff (h : Kept tree tree') : tree'.exceeds keySize ↔ tree.exceeds keySize := by
  simp only [Tree.exceeds, h.memoryLimit, h.elementsInTree, h.allocated, h.sizeOfElement]

def Tree.empties (cmp : κ -> κ -> Int) (tree : Tree κ) (keys : Multiset κ) (key : κ) (keySize : Nat) :
    Prop :=
  tree.exceeds keySize ∧ 0 ∉ keys.map (cmp · key) ∧ tree.onlyDups = false

instance (tree : Tree κ) (keys : Multiset κ) (keySize : Nat) :
    Decidable (tree.empties cmp keys key keySize) :=
  inferInstanceAs (Decidable (_ ∧ _ ∧ _))

/-- The keys after a call of `tree_insert` that does not empty the tree. -/
def insertedKeys (cmp : κ -> κ -> Int) (onlyDups memory : Bool) (keys : Multiset κ) (key : κ) :
    Multiset κ :=
  if 0 ∈ keys.map (cmp · key) then keys
  else if onlyDups || !memory then keys
  else key ::ₘ keys

def Leads (cmp : κ -> κ -> Int) (tree tree' : Tree κ) (keys : Multiset κ) : Prop :=
  ∃ T', TreeState cmp tree' T' ∧ tree'.keys T' = keys ∧ SameTree tree tree'

lemma Tree.card_keys (tree : Tree κ) (T : RBTree Nat) : (tree.keys T).card = T.toList.length := by
  rw [Tree.keys, Multiset.coe_card, length_map]

lemma mem_map_zero {keys : Multiset κ} :
    0 ∈ keys.map (cmp · key) ↔ ¬ ∀ k ∈ keys, cmp k key ≠ 0 := by
  rw [Multiset.mem_map]
  push Not
  rfl

lemma TreeInv.recount (h : TreeInv cmp tree T) (allocated elementsInTree : Nat) :
    TreeInv cmp { tree with allocated, elementsInTree } T :=
  { h with is := { h.is with } }

lemma resetTree_spec (h : TreeInv cmp tree T) : TreeState cmp tree.resetTree .nil :=
  ⟨⟨⟨rfl, trivial, nodup_nil, not_mem_nil, h.is.null_colour, h.is.null_left⟩, ⟨0, rfl⟩, rfl,
    Pairwise.nil, nofun, h.fresh_pos⟩, rfl⟩

/-- `tree_insert` adds the key if there is no equal one. If it would take too much memory, the
tree is emptied first, and the function calls itself once more. -/
lemma treeInsertCalls_spec (hcmp : Preorders cmp) (h : TreeState cmp tree T) (key : κ)
    (keySize : Nat) (memory : Bool) (hlen : T.toList.length < 2 ^ 32) (calls : Nat)
    (hcalls : tree.empties cmp (tree.keys T) key keySize -> calls ≠ 0) :
    ∃ tree' result, treeInsertCalls cmp key keySize memory (calls + 1) tree =
        some (tree', result) ∧
      Leads cmp tree tree' (insertedKeys cmp tree.onlyDups memory
        (if tree.empties cmp (tree.keys T) key keySize then 0 else tree.keys T) key) := by
  induction calls using Nat.strong_induction_on generalizing tree T with | _ calls ih
  obtain ⟨tree1, p, t, hfind, hfound⟩ := find_spec hcmp h.inv.is h.inv.sorted
    (lt_of_succ_lt (h.inv.height_lt hlen)) key
  obtain ⟨hnull, hnil⟩ := hfound.addr_eq_null hcmp
  obtain ⟨hinv1, hkeys1⟩ := h.inv.of_found hfound
  have helements1 : tree1.elementsInTree = (plug p t).toList.length % 2 ^ 32 := by
    rw [hfound.kept.elementsInTree, h.elementsInTree, hfound.plug]
  have hkeep : Leads cmp tree tree1 (tree.keys T) :=
    ⟨_, ⟨hinv1, helements1⟩, hkeys1, hfound.kept.same⟩
  rw [treeInsertCalls, hfind]
  simp only [some_bind]
  by_cases ht : t = .nil
  · have hnew : 0 ∉ (tree.keys T).map (cmp · key) := fun hmem => mem_map_zero.mp hmem (hnil.mp ht)
    subst ht
    have hdups := hfound.kept.onlyDups
    cases honly : tree.onlyDups with
    | true =>
      rw [honly] at hdups
      have hstay : ¬ tree.empties cmp (tree.keys T) key keySize := by simp [Tree.empties, honly]
      rw [if_neg hstay, insertedKeys, if_neg hnew]
      exact ⟨tree1, .unique, if_pos hdups, hkeep⟩
    | false =>
      rw [honly] at hdups
      have hinv2 := hinv1.recount ((tree1.allocated +
        (sizeofTreeElement + keySize + tree1.sizeOfElement) % 2 ^ 32) % 2 ^ 64) tree1.elementsInTree
      have hnot : ¬ tree1.onlyDups = true := by simp [hdups]
      rw [if_neg hnot]
      by_cases hempties : tree.empties cmp (tree.keys T) key keySize
      · have hlimit := hfound.kept.exceeds_iff.mpr hempties.1
        obtain ⟨n, rfl⟩ := exists_eq_succ_of_ne_zero (hcalls hempties)
        obtain ⟨tree', result, hcall, T', hstate, hkeys, hsame⟩ := ih n (lt_succ_self n)
          (resetTree_spec hinv2) (by simp [toList]) fun hempties => absurd rfl hempties.1.2.1
        refine ⟨tree', result, (if_pos hlimit).trans hcall, T', hstate, hkeys.trans ?_,
          hfound.kept.same.trans { hsame with }⟩
        rw [if_pos hempties, ← hdups]
        exact congrArg (insertedKeys cmp tree1.onlyDups memory · key) (ite_self 0)
      rw [if_neg hempties, insertedKeys, if_neg hnew]
      have hlimit : ¬ tree1.exceeds keySize := fun hexceeds =>
        hempties ⟨hfound.kept.exceeds_iff.mp hexceeds, hnew, honly⟩
      unfold Tree.exceeds at hlimit
      rw [if_neg hlimit]
      cases memory with
      | false =>
        exact ⟨_, .null, rfl, _, ⟨hinv2, helements1⟩, hkeys1, { hfound.kept.same with }⟩
      | true =>
        obtain ⟨tree', T', hadd, hinv', hkeys', helements', hsame'⟩ :=
          addElement_spec hinv2 hfound.stack ⟨hfound.between.before, hfound.between.after⟩
        have hlength : T'.toList.length = (plug p .nil).toList.length + 1 := by
          rw [← card_keys tree' T', hkeys', Multiset.card_cons, card_keys]
        refine ⟨tree', .element tree1.fresh, ?_, T', ⟨hinv', ?_⟩, hkeys'.trans ?_, ?_⟩
        · rw [hadd]
          rfl
        · rw [helements', hlength]
          exact (congrArg (fun k => (k + 1) % 2 ^ 32) helements1).trans (mod_add_mod _ _ _)
        · exact congrArg (key ::ₘ ·) hkeys1
        · exact hfound.kept.same.trans { hsame' with }
  · have hmem : 0 ∈ (tree.keys T).map (cmp · key) := mem_map_zero.mpr fun hall => ht (hnil.mpr hall)
    have hstay : ¬ tree.empties cmp (tree.keys T) key keySize := fun hempties => hempties.2.1 hmem
    rw [if_neg (hnull.not.mpr ht), if_neg hstay, insertedKeys, if_pos hmem]
    cases hno : tree1.noDups with
    | true => exact ⟨tree1, .null, rfl, hkeep⟩
    | false =>
      obtain ⟨hinv2, hkeys2, hkept2⟩ := countUp_spec hinv1 (addr t)
      exact ⟨tree1.countUp (addr t), .element (addr t), rfl, _,
        ⟨hinv2, hkept2.elementsInTree.trans helements1⟩, hkeys2.trans hkeys1,
        hfound.kept.same.trans hkept2.same⟩

end Insert

end Mysys
