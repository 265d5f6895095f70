import EryMysql.Lib.Partial
import EryMysql.Mysys.Tree

/-!
# The elements in memory

Which tree the elements in the memory make, by their addresses, and what setting a colour, writing
a pointer and rotating do to it. The stack of a function has the pointers on the path to a place.
-/

namespace Mysys

open RedBlack RedBlack.RBTree Function

variable {κ : Type} {tree tree' : Tree κ} {elements elements' : Nat -> TreeElement κ}
  {p : List (Frame Nat)} {t t' a b d : RBTree Nat} {s : Side} {c c' : Color} {x y : Nat}

section
variable (e : TreeElement κ) (v : Option Nat)
include e v

lemma child_setChild_self : (e.setChild v s).child s = v := by
  cases s <;> rfl

lemma child_flip_setChild : (e.setChild v s).child s.flip = e.child s.flip := by
  cases s <;> rfl

lemma child_setChild_flip : (e.setChild v s.flip).child s = e.child s := by
  cases s <;> rfl

lemma colour_setChild : (e.setChild v s).colour = e.colour := by
  cases s <;> rfl

lemma key_setChild : (e.setChild v s).key = e.key := by
  cases s <;> rfl

end

def addr : RBTree Nat -> Nat
  | .nil => nullElement
  | .node _ _ x _ => x

@[simp] lemma addr_nil : addr .nil = nullElement := rfl

@[simp] lemma addr_join : addr (join s c a x b) = x := by cases s <;> rfl

/-- The elements have the colours and the pointers of the tree. -/
def Rep (elements : Nat -> TreeElement κ) : RBTree Nat -> Prop
  | .nil => True
  | .node c l x r => (elements x).colour = c ∧ (elements x).left = some (addr l) ∧
      (elements x).right = some (addr r) ∧ Rep elements l ∧ Rep elements r

lemma rep_join : Rep elements (join s c a x b) ↔ (elements x).colour = c ∧
    (elements x).child s = some (addr a) ∧ (elements x).child s.flip = some (addr b) ∧
    Rep elements a ∧ Rep elements b := by
  cases s with
  | left => rfl
  | right =>
    simp only [join, Rep]
    tauto

lemma Rep.colour (h : Rep elements t) (hnull : (elements nullElement).colour = .black) :
    (elements (addr t)).colour = t.color := by
  cases t with
  | nil => exact hnull
  | node c l x r => exact h.1

lemma Rep.congr (h : Rep elements t) (heq : ∀ y ∈ t.toList, elements' y = elements y) :
    Rep elements' t := by
  induction t with
  | nil => trivial
  | node c l x r ihl ihr =>
    obtain ⟨hc, hl, hr, hrl, hrr⟩ := h
    have hx := heq x (by simp [toList])
    refine ⟨by rw [hx, hc], by rw [hx, hl], by rw [hx, hr], ihl hrl fun y hy => heq y ?_,
      ihr hrr fun y hy => heq y ?_⟩
    iterate 2 simp [toList, hy]

/-- The elements on a path have the colours and pointers, and its end points to an address. -/
def RepPath (root : Nat) (elements : Nat -> TreeElement κ) : List (Frame Nat) -> Nat -> Prop
  | [], a => root = a
  | f :: p, a => (elements f.value).colour = f.color ∧ (elements f.value).child f.side = some a ∧
      (elements f.value).child f.side.flip = some (addr f.sibling) ∧ Rep elements f.sibling ∧
      RepPath root elements p f.value

lemma rep_plug {root : Nat} : RepPath root elements p (addr t) ∧ Rep elements t ↔
    root = addr (plug p t) ∧ Rep elements (plug p t) := by
  induction p generalizing t with
  | nil => rfl
  | cons f p ih =>
    rw [plug_cons, ← ih, rep_join, addr_join, RepPath]
    tauto

lemma RepPath.congr {root z : Nat} (h : RepPath root elements p z)
    (heq : ∀ y ∈ around p, elements' y = elements y) : RepPath root elements' p z := by
  induction p generalizing z with
  | nil => exact h
  | cons f p ih =>
    obtain ⟨hc, hs, hf, hsib, hp⟩ := h
    have hx := heq f.value (mem_around_cons.mpr (.inl rfl))
    refine ⟨by rw [hx, hc], by rw [hx, hs], by rw [hx, hf], hsib.congr fun y hy => heq y ?_,
      ih hp fun y hy => heq y ?_⟩
    · exact mem_around_cons.mpr (.inr (.inl hy))
    · exact mem_around_cons.mpr (.inr (.inr hy))

structure Is (tree : Tree κ) (t : RBTree Nat) : Prop where
  root : tree.root = addr t
  rep : Rep tree.elements t
  nodup : t.toList.Nodup
  ne_null : nullElement ∉ t.toList
  null_colour : (tree.elements nullElement).colour = .black
  null_left : (tree.elements nullElement).left = none

/-- The address of the pointer at the end of a path. -/
def place : List (Frame Nat) -> Place
  | [] => .root
  | f :: _ => .child f.side f.value

/-- The stack has the places on a path. -/
def Stack (parents : Nat -> Place) : List (Frame Nat) -> Prop
  | [] => parents 0 = place []
  | f :: p => parents (p.length + 1) = place (f :: p) ∧ Stack parents p

lemma Stack.top {parents : Nat -> Place} (h : Stack parents p) : parents p.length = place p := by
  cases p with
  | nil => exact h
  | cons f p => exact h.1

lemma Stack.congr {parents parents' : Nat -> Place} (h : Stack parents p)
    (heq : ∀ i ≤ p.length, parents' i = parents i) : Stack parents' p := by
  induction p with
  | nil => exact (heq 0 le_rfl).trans h
  | cons f p ih =>
    refine ⟨(heq _ le_rfl).trans h.1, ih h.2 fun i hi => heq i ?_⟩
    rw [List.length_cons]
    omega

section Reading

lemma Is.repPath (h : Is tree (plug p t)) :
    RepPath tree.root tree.elements p (addr t) ∧ Rep tree.elements t :=
  rep_plug.mpr ⟨h.root, h.rep⟩

lemma Is.read (h : Is tree (plug p t)) : tree.read (place p) = some (addr t) := by
  have hpath := h.repPath.1
  cases p with
  | nil => exact congrArg some hpath
  | cons f p => exact hpath.2.1

lemma Is.colour (h : Is tree (plug p t)) : (tree.elements (addr t)).colour = t.color :=
  h.repPath.2.colour h.null_colour

section
variable (h : Is tree (plug p (join s c a x b)))
include h

lemma Is.child :
    (tree.elements x).child s = some (addr a) ∧ (tree.elements x).child s.flip = some (addr b) := by
  obtain ⟨-, ha, hb, -⟩ := rep_join.mp h.repPath.2
  exact ⟨ha, hb⟩

lemma Is.far : Is tree (plug (⟨s.flip, c, x, a⟩ :: p) b) := by
  rwa [plug_cons, join_flip]

lemma Is.near : Is tree (plug (⟨s, c, x, b⟩ :: p) a) := h

end

lemma addr_mem (ht : t ≠ .nil) : addr t ∈ t.toList := by
  cases t with
  | nil => exact absurd rfl ht
  | node c l x r => simp [addr, toList]

lemma Is.null_around (h : Is tree (plug p t)) : nullElement ∉ around p := fun hmem =>
  h.ne_null (mem_toList_plug.mpr (.inr hmem))

lemma Is.addr_eq_null (h : Is tree (plug p t)) : addr t = nullElement ↔ t = .nil := by
  refine ⟨fun heq => ?_, fun heq => by rw [heq, addr_nil]⟩
  by_contra ht
  exact h.ne_null (mem_toList_plug.mpr (.inl (heq ▸ addr_mem ht)))

lemma addr_plug_mem (hp : p ≠ []) : addr (plug p t) ∈ around p := by
  induction p generalizing t with
  | nil => exact absurd rfl hp
  | cons f p ih =>
    rw [mem_around_cons]
    cases p with
    | nil => exact .inl addr_join
    | cons g p => exact .inr (.inr (ih (List.cons_ne_nil _ _)))

lemma Is.addr_ne (h : Is tree (plug p t)) (hx : x ∈ around p) : addr t ≠ x := by
  rintro rfl
  by_cases ht : t = .nil
  · subst ht
    exact h.null_around hx
  · exact (nodup_plug.mp h.nodup).2.2 (addr_mem ht) hx

lemma Is.addr_eq_root (h : Is tree (plug p t)) : addr t = tree.root ↔ p = [] := by
  constructor
  · intro heq
    by_contra hp
    exact h.addr_ne (addr_plug_mem hp) (heq.trans h.root)
  · rintro rfl
    exact h.root.symm

lemma Is.side {f : Frame Nat} (h : Is tree (plug (f :: p) t)) (hne : t ≠ .nil ∨ f.sibling ≠ .nil) :
    (if (tree.elements f.value).left = some (addr t) then Side.left else Side.right) = f.side := by
  obtain ⟨-, hs, hf, -⟩ := h.repPath.1
  cases hside : f.side with
  | left =>
    rw [hside] at hs
    exact if_pos hs
  | right =>
    rw [hside] at hf
    refine if_neg fun heq => ?_
    have haddr := Option.some.inj (hf.symm.trans heq)
    rcases hne with hne | hne
    · rw [plug_sibling] at h
      exact h.addr_ne (mem_around_cons.mpr (.inr (.inl (addr_mem hne)))) haddr
    · exact h.addr_ne (mem_around_cons.mpr (.inr (.inl (addr_mem hne)))) haddr.symm

end Reading

/-- What the functions that balance a tree do not change. -/
structure Kept (tree tree' : Tree κ) : Prop where
  key : ∀ y, (tree'.elements y).key = (tree.elements y).key
  elementsInTree : tree'.elementsInTree = tree.elementsInTree
  sizeOfElement : tree'.sizeOfElement = tree.sizeOfElement
  memoryLimit : tree'.memoryLimit = tree.memoryLimit
  allocated : tree'.allocated = tree.allocated
  withDelete : tree'.withDelete = tree.withDelete
  noDups : tree'.noDups = tree.noDups
  onlyDups : tree'.onlyDups = tree.onlyDups
  fresh : tree'.fresh = tree.fresh

lemma Kept.refl (tree : Tree κ) : Kept tree tree :=
  ⟨fun _ => rfl, rfl, rfl, rfl, rfl, rfl, rfl, rfl, rfl⟩

lemma Kept.trans {tree1 tree2 tree3 : Tree κ} (h : Kept tree1 tree2) (h' : Kept tree2 tree3) :
    Kept tree1 tree3 :=
  ⟨fun y => (h'.key y).trans (h.key y), h'.elementsInTree.trans h.elementsInTree,
    h'.sizeOfElement.trans h.sizeOfElement, h'.memoryLimit.trans h.memoryLimit,
    h'.allocated.trans h.allocated, h'.withDelete.trans h.withDelete, h'.noDups.trans h.noDups,
    h'.onlyDups.trans h.onlyDups, h'.fresh.trans h.fresh⟩

lemma Kept.of_elements (hkey : ∀ y, (elements y).key = (tree.elements y).key) (root : Nat)
    (parents : Nat -> Place) : Kept tree { tree with root, elements, parents } :=
  ⟨hkey, rfl, rfl, rfl, rfl, rfl, rfl, rfl, rfl⟩

lemma setColour_self : (tree.setColour x c).elements x = { tree.elements x with colour := c } :=
  update_self _ _ _

lemma setColour_of_ne (h : y ≠ x) : (tree.setColour x c).elements y = tree.elements y :=
  update_of_ne h _ _

lemma setChild_self (v : Option Nat) :
    (tree.setChild s x v).elements x = (tree.elements x).setChild v s :=
  update_self _ _ _

lemma setChild_of_ne {v : Option Nat} (h : y ≠ x) :
    (tree.setChild s x v).elements y = tree.elements y :=
  update_of_ne h _ _

lemma kept_setColour : Kept tree (tree.setColour x c) := by
  refine Kept.of_elements (fun y => ?_) _ _
  by_cases hy : y = x
  · rw [hy, update_self]
  · rw [update_of_ne hy]

lemma kept_setChild {v : Option Nat} : Kept tree (tree.setChild s x v) := by
  refine Kept.of_elements (fun y => ?_) _ _
  by_cases hy : y = x
  · rw [hy, update_self, key_setChild]
  · rw [update_of_ne hy]

lemma kept_setParent {i : Nat} {pl : Place} : Kept tree (tree.setParent i pl) :=
  Kept.of_elements (fun _ => rfl) _ _

lemma push_spec {pl : Place} {i : Nat} (hi : i + 1 < maxTreeHeight) :
    tree.push i pl = some (tree.setParent (i + 1) pl, i + 1) := if_pos hi

lemma Stack.push (h : Stack tree.parents p) (f : Frame Nat) :
    Stack (tree.setParent (p.length + 1) (.child f.side f.value)).parents (f :: p) := by
  refine ⟨update_self _ _ _, h.congr fun i hi => update_of_ne ?_ _ _⟩
  omega

lemma Is.setParent (h : Is tree t) (i : Nat) (pl : Place) : Is (tree.setParent i pl) t := { h with }

lemma Is.change (h : Is tree (plug p t)) (hpath : RepPath tree'.root tree'.elements p (addr t'))
    (hrep : Rep tree'.elements t') (hlist : t'.toList.Sublist t.toList)
    (hcolour : (tree'.elements nullElement).colour = .black)
    (hleft : (tree'.elements nullElement).left = none) : Is tree' (plug p t') := by
  obtain ⟨hroot, hrep⟩ := rep_plug.mp ⟨hpath, hrep⟩
  have hsub : (plug p t').toList.Sublist (plug p t).toList := by
    rw [toList_plug, toList_plug]
    exact (hlist.append_left _).append_right _
  exact ⟨hroot, hrep, hsub.nodup h.nodup, fun hmem => h.ne_null (hsub.mem hmem), hcolour, hleft⟩

lemma Is.paint (h : Is tree (plug p t)) (hc : t ≠ .nil ∨ c = .black) :
    Is (tree.setColour (addr t) c) (plug p (t.paint c)) := by
  obtain ⟨hpath, hrep⟩ := h.repPath
  have haround : ∀ y ∈ around p, (tree.setColour (addr t) c).elements y = tree.elements y :=
    fun y hy => setColour_of_ne (h.addr_ne hy).symm
  by_cases ht : t = .nil
  · subst ht
    obtain rfl : c = .black := hc.resolve_left fun hne => hne rfl
    refine h.change (hpath.congr haround) trivial (List.Sublist.refl _) ?_ ?_
    · rw [addr_nil, setColour_self]
    · rw [addr_nil, setColour_self, ← h.null_left]
  · obtain ⟨c0, a, x, b, rfl⟩ := exists_join .left ht
    obtain ⟨-, hl, hr, hrl, hrr⟩ := rep_join.mp hrep
    obtain ⟨⟨hxa, hxb⟩, -⟩ := nodup_join.mp (nodup_plug.mp h.nodup).1
    rw [addr_join] at haround hpath ⊢
    rw [paint_join]
    have hnull : (tree.setColour x c).elements nullElement = tree.elements nullElement := by
      refine setColour_of_ne ?_
      rintro rfl
      exact h.ne_null (mem_toList_plug.mpr (.inl (mem_toList_join.mpr (.inl rfl))))
    refine h.change ?_ (rep_join.mpr ⟨?_, ?_, ?_, hrl.congr fun y hy => ?_, hrr.congr fun y hy => ?_⟩)
      ?_ (by rw [hnull, h.null_colour]) (by rw [hnull, h.null_left])
    · exact hpath.congr haround
    · rw [setColour_self]
    · rw [setColour_self, ← hl]
      rfl
    · rw [setColour_self, ← hr]
      rfl
    · exact setColour_of_ne fun heq => hxa (heq ▸ hy)
    · exact setColour_of_ne fun heq => hxb (heq ▸ hy)
    · rw [toList_join, toList_join]

lemma join_ne_nil : join s c a x b ≠ .nil := by cases s <;> nofun

lemma Is.paintJoin (h : Is tree (plug p (join s c a x b))) (c' : Color) :
    Is (tree.setColour x c') (plug p (join s c' a x b)) := by
  have hpaint := h.paint (c := c') (.inl join_ne_nil)
  rwa [addr_join, paint_join] at hpaint

lemma Is.paintFar (h : Is tree (plug p (join s c a x b))) (c' : Color)
    (hc : b ≠ .nil ∨ c' = .black) :
    Is (tree.setColour (addr b) c') (plug p (join s c a x (b.paint c'))) := by
  have hpaint := h.far.paint hc
  rwa [plug_cons, join_flip] at hpaint

lemma RepPath.write {z : Nat} (h : RepPath tree.root tree.elements p z) (hnodup : (around p).Nodup)
    (z' : Nat) : ∃ tree', tree.write (place p) (some z') = some tree' ∧
      RepPath tree'.root tree'.elements p z' ∧
      (∀ y ∉ around p, tree'.elements y = tree.elements y) ∧ Kept tree tree' ∧
      tree'.parents = tree.parents := by
  cases p with
  | nil => exact ⟨_, rfl, rfl, fun _ _ => rfl, Kept.of_elements (fun _ => rfl) _ _, rfl⟩
  | cons f p =>
    obtain ⟨hc, hs, hf, hsib, hp⟩ := h
    rw [(perm_around_cons f).nodup_iff, List.nodup_cons, List.mem_append, not_or] at hnodup
    obtain ⟨⟨hns, hnp⟩, -⟩ := hnodup
    refine ⟨_, rfl, ⟨?_, ?_, ?_, hsib.congr fun y hy => ?_, hp.congr fun y hy => ?_⟩,
      fun y hy => ?_, kept_setChild, rfl⟩
    · rw [setChild_self, colour_setChild, hc]
    · rw [setChild_self, child_setChild_self]
    · rw [setChild_self, child_flip_setChild, hf]
    · exact setChild_of_ne fun heq => hns (heq ▸ hy)
    · exact setChild_of_ne fun heq => hnp (heq ▸ hy)
    · exact setChild_of_ne fun heq => hy (mem_around_cons.mpr (.inl heq))

lemma Is.rotate (h : Is tree (plug p (join s c a x (join s c' b y d)))) :
    ∃ tree', tree.rotate s (place p) x = some tree' ∧
      Is tree' (plug p (join s c' (join s c a x b) y d)) ∧ Kept tree tree' ∧
      tree'.parents = tree.parents := by
  obtain ⟨hpath, hrep⟩ := h.repPath
  obtain ⟨hcx, hxs, hxf, ha, hrep'⟩ := rep_join.mp hrep
  obtain ⟨hcy, hys, hyf, hb, hd⟩ := rep_join.mp hrep'
  rw [addr_join] at hxf
  obtain ⟨hin, haround, hdisj⟩ := nodup_plug.mp h.nodup
  obtain ⟨⟨hxa, hxr⟩, hna, hnr, hdar⟩ := nodup_join.mp hin
  obtain ⟨⟨hyb, hyd⟩, hnb, hnd, hdbd⟩ := nodup_join.mp hnr
  have hxy : x ≠ y := fun heq => hxr (heq ▸ mem_toList_join.mpr (.inl rfl))
  have hin : ∀ z, z = x ∨ z ∈ a.toList ∨ z = y ∨ z ∈ b.toList ∨ z ∈ d.toList ->
      z ∈ (join s c a x (join s c' b y d)).toList :=
    fun z hz => by rwa [mem_toList_join, mem_toList_join]
  have hout : ∀ z, z = x ∨ z ∈ a.toList ∨ z = y ∨ z ∈ b.toList ∨ z ∈ d.toList -> z ∉ around p :=
    fun z hz hz' => hdisj (hin z hz) hz'
  have hnull : ∀ z, z = x ∨ z = y -> nullElement ≠ z := by
    rintro z hz rfl
    exact h.ne_null (mem_toList_plug.mpr (.inl (hin _ (by tauto))))
  have hpath1 : RepPath (tree.setChild s.flip x (some (addr b))).root
      (tree.setChild s.flip x (some (addr b))).elements p x := by
    rw [addr_join] at hpath
    refine RepPath.congr hpath fun z hz => setChild_of_ne ?_
    rintro rfl
    exact hout z (.inl rfl) hz
  obtain ⟨tree2, hwrite, hpath2, hsame, hkept, hparents⟩ := hpath1.write haround y
  have hstay : ∀ z, z ≠ x -> z ≠ y -> z ∉ around p ->
      (tree2.setChild s y (some x)).elements z = tree.elements z := by
    intro z hzx hzy hz
    rw [setChild_of_ne hzy, hsame z hz, setChild_of_ne hzx]
  have hnull2 : (tree2.setChild s y (some x)).elements nullElement = tree.elements nullElement :=
    hstay _ (hnull x (.inl rfl)) (hnull y (.inr rfl)) h.null_around
  have hx : (tree2.setChild s y (some x)).elements x =
      (tree.elements x).setChild (some (addr b)) s.flip := by
    rw [setChild_of_ne hxy, hsame x (hout x (.inl rfl)), setChild_self]
  have hy : (tree2.setChild s y (some x)).elements y =
      (tree.elements y).setChild (some x) s := by
    rw [setChild_self, hsame y (hout y (by tauto)), setChild_of_ne hxy.symm]
  refine ⟨tree2.setChild s y (some x), ?_, ?_, (kept_setChild).trans (hkept.trans (kept_setChild)),
    hparents⟩
  · simp only [Tree.rotate, hxf, hys, some_bind, hwrite]
    rfl
  · refine h.change ?_ (rep_join.mpr ⟨?_, ?_, ?_, rep_join.mpr ⟨?_, ?_, ?_, ?_, ?_⟩, ?_⟩) ?_ ?_ ?_
    · rw [addr_join]
      refine hpath2.congr fun z hz => setChild_of_ne ?_
      rintro rfl
      exact hout z (by tauto) hz
    · rw [hy, colour_setChild, hcy]
    · rw [hy, child_setChild_self, addr_join]
    · rw [hy, child_flip_setChild, hyf]
    · rw [hx, colour_setChild, hcx]
    · rw [hx, child_setChild_flip, hxs]
    · rw [hx, child_setChild_self]
    · refine ha.congr fun z hz => hstay z ?_ ?_ (hout z (by tauto))
      · exact fun heq => hxa (heq ▸ hz)
      · exact fun heq => hdar hz (heq ▸ mem_toList_join.mpr (.inl rfl))
    · refine hb.congr fun z hz => hstay z ?_ ?_ (hout z (by tauto))
      · exact fun heq => hxr (heq ▸ mem_toList_join.mpr (by tauto))
      · exact fun heq => hyb (heq ▸ hz)
    · refine hd.congr fun z hz => hstay z ?_ ?_ (hout z (by tauto))
      · exact fun heq => hxr (heq ▸ mem_toList_join.mpr (by tauto))
      · exact fun heq => hyd (heq ▸ hz)
    · cases s <;> simp [toList_join]
    · rw [hnull2, h.null_colour]
    · rw [hnull2, h.null_left]

lemma Is.rotateBack (h : Is tree (plug p (join s c (join s c' a y b) x d))) :
    ∃ tree', tree.rotate s.flip (place p) x = some tree' ∧
      Is tree' (plug p (join s c' a y (join s c b x d))) ∧ Kept tree tree' ∧
      tree'.parents = tree.parents := by
  have hflip : Is tree (plug p (join s.flip c d x (join s.flip c' b y a))) := by
    rwa [join_flip, join_flip]
  obtain ⟨tree', hrotate, his, hkept, hparents⟩ := hflip.rotate
  rw [join_flip, join_flip] at his
  exact ⟨tree', hrotate, his, hkept, hparents⟩

end Mysys
