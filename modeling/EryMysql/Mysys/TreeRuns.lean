import EryMysql.Mysys.TreeDelete

/-!
# Runs of a tree

A tree is used by inserting and deleting keys. What it should hold is told by the operations, the
flags and the memory limit, at which it is emptied. In every run it is a red-black search tree of
these keys, so a way down is never longer than the stack of parents.
-/

namespace Mysys

open Comparison RedBlack RedBlack.RBTree Multiset List Nat Machine Mysys.Tree

variable {κ : Type} {cmp : κ -> κ -> Int} {tree : Tree κ}

/-- A call. The memory for a new element may not be there. -/
inductive TreeOp (κ : Type)
  | insert (key : κ) (keySize : Nat) (memory : Bool)
  | delete (key : κ) (keySize : Nat)

structure TreeUse (κ : Type) where
  tree : Tree κ
  held : Multiset κ

def TreeUse.next (cmp : κ -> κ -> Int) (s : TreeUse κ) : TreeOp κ -> Multiset κ
  | .insert key keySize memory => insertedKeys cmp s.tree.onlyDups memory
      (if s.tree.empties cmp s.held key keySize then 0 else s.held) key
  | .delete key _ => if s.tree.withDelete then s.held.filter (fun k => cmp k key ≠ 0) else s.held

def TreeUse.call (cmp : κ -> κ -> Int) (s : TreeUse κ) : TreeOp κ -> Option (Tree κ)
  | .insert key keySize memory => (s.tree.treeInsert cmp key keySize memory).map (·.1)
  | .delete key keySize => (s.tree.treeDelete cmp key keySize).map (·.1)

def TreeUse.step (cmp : κ -> κ -> Int) (s : TreeUse κ) (op : TreeOp κ) : Option (TreeUse κ) :=
  (s.call cmp op).map fun tree => ⟨tree, s.next cmp op⟩

def TreeUse.Holds (cmp : κ -> κ -> Int) (s : TreeUse κ) : Prop :=
  ∃ T, TreeState cmp s.tree T ∧ s.tree.keys T = s.held

lemma step_holds_tree (hcmp : Preorders cmp) {s : TreeUse κ} (h : s.Holds cmp)
    (hroom : s.held.card < 2 ^ 32) (op : TreeOp κ) :
    ∃ s', s.step cmp op = some s' ∧ s'.Holds cmp := by
  obtain ⟨T, hstate, hheld⟩ := h
  have hlen : T.toList.length < 2 ^ 32 := by rwa [← s.tree.card_keys, hheld]
  have hleads : ∃ tree', s.step cmp op = some ⟨tree', s.next cmp op⟩ ∧
      Leads cmp s.tree tree' (s.next cmp op) := by
    cases op with
    | insert key keySize memory =>
      obtain ⟨tree', result, hinsert, hleads⟩ := treeInsertCalls_spec hcmp hstate key
        keySize memory hlen 1 fun _ => Nat.one_ne_zero
      rw [hheld] at hleads
      refine ⟨tree', ?_, hleads⟩
      rw [TreeUse.step, TreeUse.call, Tree.treeInsert, hinsert]
      rfl
    | delete key keySize =>
      obtain ⟨tree', failed, hdelete, hleads⟩ := treeDelete_spec hcmp hstate key keySize hlen
      rw [hheld] at hleads
      refine ⟨tree', ?_, hleads⟩
      rw [TreeUse.step, TreeUse.call, hdelete]
      rfl
  obtain ⟨tree', hstep, T', hstate', hkeys, -⟩ := hleads
  exact ⟨_, hstep, T', hstate', hkeys⟩

lemma testRbTree_eq (hleft : (tree.elements nullElement).left = none)
    (hblack : (tree.elements nullElement).colour = .black) {t : RBTree Nat}
    (hrep : Rep tree.elements t) {n : Nat} (hbalanced : t.Balanced n) {depth : Nat}
    (hdepth : t.height < depth) : tree.testRbTree depth (addr t) = some (n : Int) := by
  induction t generalizing n depth with
  | nil =>
    obtain ⟨depth, rfl⟩ := Nat.exists_eq_succ_of_ne_zero (Nat.ne_zero_of_lt hdepth)
    cases hbalanced
    rw [testRbTree, addr, hleft]
    rfl
  | node c l x r ihl ihr =>
    obtain ⟨depth, rfl⟩ := Nat.exists_eq_succ_of_ne_zero (Nat.ne_zero_of_lt hdepth)
    obtain ⟨hc, hl, hr, hrepl, hrepr⟩ := hrep
    rw [height, Nat.succ_lt_succ_iff, Nat.max_lt] at hdepth
    rw [testRbTree, addr, hl]
    have hlcolour := hrepl.colour hblack
    have hrcolour := hrepr.colour hblack
    simp only [hr, hc]
    cases c with
    | red =>
      obtain ⟨hlc, hrc, hlb, hrb⟩ := hbalanced
      simp [hlcolour, hrcolour, hlc, hrc, ihl hrepl hlb hdepth.1, ihr hrepr hrb hdepth.2]
    | black =>
      cases n with
      | zero => cases hbalanced
      | succ n => simp [ihl hrepl hbalanced.1 hdepth.1, ihr hrepr hbalanced.2 hdepth.2]

lemma next_card_le (s : TreeUse κ) (op : TreeOp κ) : (s.next cmp op).card ≤ s.held.card + 1 := by
  cases op with
  | insert key keySize memory =>
    simp only [TreeUse.next, insertedKeys]
    split_ifs <;> simp
  | delete key keySize =>
    rw [TreeUse.next]
    split_ifs
    · exact (card_le_card (filter_le _ _)).trans (le_succ _)
    · exact le_succ _

lemma held_card_le {s : TreeUse κ} {ops : List (TreeOp κ)}
    (hrun : run (TreeUse.step cmp) ⟨tree, 0⟩ ops = some s) : s.held.card ≤ ops.length := by
  refine run_induction (P := fun ops s => s.held.card ≤ ops.length) (le_refl _) ?_ hrun
  intro ops s1 op s2 hle hstep
  obtain ⟨tree', -, rfl⟩ := Option.map_eq_some_iff.mp hstep
  rw [length_append]
  exact (next_card_le s1 op).trans (succ_le_succ hle)

/-- In every run with fewer than 2^32 keys at a time, the tree is a red-black search tree with a
black root and without equal keys. It holds the keys inserted since it was last emptied and not
deleted, counts them, and is no higher than twice the logarithm of their number. -/
theorem tree_run_holds (hcmp : Preorders cmp) (memory : Nat -> TreeElement κ)
    (parents : Nat -> Place) (memoryLimit size : Nat) (withDelete noDups onlyDups : Bool)
    (ops : List (TreeOp κ))
    (hroom : ∀ pre s, pre <+: ops -> Machine.run (TreeUse.step cmp)
      ⟨Tree.initTree memory parents memoryLimit size withDelete noDups onlyDups, 0⟩ pre = some s ->
        s.held.card < 2 ^ 32) :
    ∃ s T, Machine.run (TreeUse.step cmp)
        ⟨Tree.initTree memory parents memoryLimit size withDelete noDups onlyDups, 0⟩ ops = some s ∧
      Is s.tree T ∧ (∃ m : Nat, T.Balanced m ∧
        s.tree.testRbTree maxTreeHeight s.tree.root = some (m : Int)) ∧
      T.color = .black ∧ Sorted cmp s.tree T.toList ∧ s.tree.keys T = s.held ∧
      s.tree.elementsInTree = s.held.card ∧
      T.height ≤ 2 * Nat.log 2 (s.tree.elementsInTree + 1) := by
  obtain ⟨s, hrun, T, ⟨hinv, helements⟩, hkeys⟩ := run_total_of
    (fun s op h hroom => step_holds_tree hcmp (s := s) h hroom op)
    ⟨.nil, ⟨⟨⟨rfl, trivial, nodup_nil, not_mem_nil, by simp [Tree.initTree], by simp [Tree.initTree]⟩,
      ⟨0, rfl⟩, rfl, List.Pairwise.nil, nofun, Nat.one_pos⟩, rfl⟩, rfl⟩ hroom
  have hcard : s.held.card = T.toList.length := by rw [← hkeys, card_keys]
  have hlen : T.toList.length < 2 ^ 32 := hcard ▸ hroom ops s (prefix_refl _) hrun
  rw [mod_eq_of_lt hlen] at helements
  obtain ⟨m, hm⟩ := hinv.balanced
  refine ⟨s, T, hrun, hinv.is, ⟨m, hm, ?_⟩, hinv.black, hinv.sorted, hkeys, helements.trans hcard.symm,
    ?_⟩
  · rw [hinv.is.root]
    exact testRbTree_eq hinv.is.null_left hinv.is.null_colour hinv.is.rep hm
      (lt_of_succ_lt (hinv.height_lt hlen))
  · rw [helements]
    exact hm.height_le_log hinv.black

theorem tree_run_holds_three :
    ∃ s T, Machine.run (TreeUse.step fun a b : Int => a - b)
        ⟨Tree.initTree (fun _ => ⟨none, none, 0, .red, 0⟩) (fun _ => .root) 0 0 true false false, 0⟩
        [.insert 3 0 true, .insert 1 0 true, .delete 3 0] = some s ∧
      Is s.tree T ∧ (∃ m : Nat, T.Balanced m ∧
        s.tree.testRbTree maxTreeHeight s.tree.root = some (m : Int)) ∧
      T.color = .black ∧ Sorted (fun a b : Int => a - b) s.tree T.toList ∧ s.tree.keys T = s.held ∧
      s.tree.elementsInTree = s.held.card ∧
      T.height ≤ 2 * Nat.log 2 (s.tree.elementsInTree + 1) := by
  refine tree_run_holds ⟨fun x y => ?_, fun x y z => ?_⟩ _ _ _ _ _ _ _ _ ?_
  · omega
  · omega
  · intro pre s hpre hrun
    exact ((held_card_le hrun).trans hpre.length_le).trans_lt (by decide)

/-- A key is inserted, and then another one, at the memory limit. The first is not found any
more. -/
theorem memory_limit_forgets :
    (do let tree : Tree Int := Tree.initTree (fun _ => ⟨none, none, 0, .red, 0⟩) (fun _ => .root) 1 0
          true false false
        let (tree, first) ← tree.treeInsert (fun a b => a - b) 1 0 true
        let (tree, second) ← tree.treeInsert (fun a b => a - b) 2 0 true
        let (_, _, found) ← tree.find (fun a b => a - b) 1
        return (first, second, found)) = some (.element 1, .element 2, nullElement) := by
  decide +kernel

end Mysys
