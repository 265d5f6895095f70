import EryMysql.Mysys.TreeInsert
import EryMysql.Mysys.TreeRbDelete

/-!
# Deleting a key

An element with at most one child is replaced by that child. Any other one is replaced by the next
element, which is the leftmost one on its right.
-/

namespace Mysys

open Comparison RedBlack RedBlack.RBTree List Function Nat Mysys.Tree

variable {κ : Type} {tree tree' : Tree κ} {p : List (Frame Nat)} {t t' l r : RBTree Nat}
  {c : Color} {x y n : Nat} {q : List (Frame Nat)} {parents : Nat -> Place}

lemma Is.replace (h : Is tree (plug p t)) (hrep : Rep tree.elements t')
    (hlist : t'.toList.Sublist t.toList) :
    ∃ tree', tree.write (place p) (some (addr t')) = some tree' ∧ Is tree' (plug p t') ∧
      (∀ y ∉ around p, tree'.elements y = tree.elements y) ∧ Kept tree tree' ∧
      tree'.parents = tree.parents := by
  obtain ⟨-, haround, hdisj⟩ := nodup_plug.mp h.nodup
  obtain ⟨tree', hwrite, hpath, hsame, hkept, hparents⟩ := h.repPath.1.write haround (addr t')
  have hnull : tree'.elements nullElement = tree.elements nullElement :=
    hsame _ h.null_around
  refine ⟨tree', hwrite, h.change hpath (hrep.congr fun y hy => hsame y ?_) hlist ?_ ?_, hsame, hkept,
    hparents⟩
  · exact fun hmem => hdisj (hlist.mem hy) hmem
  · rw [hnull, h.null_colour]
  · rw [hnull, h.null_left]

lemma leftmost_spec {fuel : Nat} (h : Is tree (plug p t)) (ht : t ≠ .nil)
    (hstack : Stack tree.parents p) (hlen : p.length + t.height ≤ maxTreeHeight)
    (hfuel : t.height ≤ fuel) :
    ∃ tree' q c y r, leftmost fuel tree p.length (addr t) = some (tree', (q ++ p).length, y) ∧
      plug q (join .left c .nil y r) = t ∧ before q = [] ∧ Is tree' (plug p t) ∧
      Stack tree'.parents (q ++ p) ∧ (q ++ p).length < p.length + t.height ∧
      tree'.elements = tree.elements ∧ Kept tree tree' := by
  induction fuel generalizing tree p t with
  | zero =>
    obtain ⟨c, a, x, b, rfl⟩ := exists_join .left ht
    rw [height_join] at hfuel
    omega
  | succ fuel ih =>
    obtain ⟨c, a, x, b, rfl⟩ := exists_join .left ht
    rw [height_join] at hlen hfuel
    have hleft : (tree.elements x).left = some (addr a) := h.child.1
    rw [addr_join, leftmost, hleft]
    simp only [some_bind]
    by_cases ha : a = .nil
    · subst ha
      refine ⟨tree, [], c, x, b, rfl, rfl, rfl, h, hstack, ?_, rfl, Kept.refl _⟩
      rw [nil_append, height_join]
      omega
    · have hnull := h.near.addr_eq_null.not.mpr ha
      have hpos : 0 < a.height := by
        obtain ⟨c', l, y, r, rfl⟩ := exists_join .left ha
        exact succ_pos _
      rw [if_neg hnull, push_spec (by omega)]
      obtain ⟨tree', q, c', y, r, hrun, hplug, hbefore, his, hstack', hlen', helements, hkept⟩ :=
        ih (h.near.setParent (p.length + 1) (.child .left x)) ha (hstack.push ⟨.left, c, x, b⟩)
          (by simp only [length_cons]; omega) (by omega)
      refine ⟨tree', q ++ [⟨.left, c, x, b⟩], c', y, r, ?_, ?_, ?_, his, ?_, ?_, helements,
        (kept_setParent).trans hkept⟩
      · rw [append_assoc]
        exact hrun
      · rw [plug_append, hplug]
        rfl
      · rw [before_append, hbefore]
        rfl
      · rwa [append_assoc]
      · rw [append_assoc, height_join]
        rw [length_cons] at hlen'
        exact lt_of_lt_of_le hlen' (by omega)

section CopyLinks
variable (hne : y ≠ x)
include hne

lemma copyLinks_self : (tree.copyLinks y x).elements y = { tree.elements y with
    left := (tree.elements x).left, right := (tree.elements x).right,
    colour := (tree.elements x).colour } := by
  simp only [copyLinks, setColour_self, setChild_self, setChild_of_ne hne.symm]
  rfl

omit hne in
lemma copyLinks_of_ne {z : Nat} (hz : z ≠ y) :
    (tree.copyLinks y x).elements z = tree.elements z := by
  simp [copyLinks, setColour_of_ne hz, setChild_of_ne hz]

end CopyLinks

lemma kept_copyLinks : Kept tree (tree.copyLinks y x) :=
  (kept_setChild).trans ((kept_setChild).trans kept_setColour)

lemma Is.substitute (h : Is tree (plug p (join .right c r x l)))
    (hy : y ∉ (plug p (join .right c r x l)).toList) (hnull : nullElement ≠ y) (i : Nat) (pl : Place) :
    ∃ tree1, tree.write (place p) (some y) = some tree1 ∧
      Is ((tree1.setParent i pl).copyLinks y x) (plug p (join .right c r y l)) ∧
      Kept tree tree1 ∧ tree1.parents = tree.parents := by
  obtain ⟨hpath, hrep⟩ := h.repPath
  obtain ⟨hcx, hxr, hxl, hr, hl⟩ := rep_join.mp hrep
  obtain ⟨hin, haround, hdisj⟩ := nodup_plug.mp h.nodup
  obtain ⟨-, hnr, hnl, hrl⟩ := nodup_join.mp hin
  rw [mem_toList_plug, mem_toList_join, not_or, not_or, not_or] at hy
  obtain ⟨⟨hyx, hyr, hyl⟩, hya⟩ := hy
  have hout : ∀ z, z = x ∨ z ∈ r.toList ∨ z ∈ l.toList -> z ∉ around p :=
    fun z hz => hdisj (mem_toList_join.mpr hz)
  have hnotin := h.null_around
  obtain ⟨tree1, hwrite, hpath1, hsame, hkept, hparents⟩ := hpath.write haround y
  have hx : tree1.elements x = tree.elements x := hsame x (hout x (.inl rfl))
  have hself : ((tree1.setParent i pl).copyLinks y x).elements y = { tree1.elements y with
      left := (tree.elements x).left, right := (tree.elements x).right,
      colour := (tree.elements x).colour } := by
    rw [copyLinks_self hyx, ← hx]
    rfl
  have hother : ∀ z, z ≠ y -> ((tree1.setParent i pl).copyLinks y x).elements z = tree1.elements z :=
    fun z hz => copyLinks_of_ne hz
  have hstay : ∀ z, z ≠ y -> z ∉ around p ->
      ((tree1.setParent i pl).copyLinks y x).elements z = tree.elements z :=
    fun z hz hza => (hother z hz).trans (hsame z hza)
  have hpath2 : RepPath ((tree1.setParent i pl).copyLinks y x).root
      ((tree1.setParent i pl).copyLinks y x).elements p (addr (join .right c r y l)) := by
    exact RepPath.congr hpath1 fun z hz => hother z fun heq => hya (heq ▸ hz)
  have hrep2 : Rep ((tree1.setParent i pl).copyLinks y x).elements (join .right c r y l) := by
    refine rep_join.mpr ⟨by rw [hself, ← hcx], by rw [hself, ← hxr]; rfl, by rw [hself, ← hxl]; rfl,
      hr.congr fun z hz => hstay z (fun heq => hyr (heq ▸ hz)) (hout z (by tauto)),
      hl.congr fun z hz => hstay z (fun heq => hyl (heq ▸ hz)) (hout z (by tauto))⟩
  obtain ⟨hroot, hrep'⟩ := rep_plug.mp ⟨hpath2, hrep2⟩
  refine ⟨tree1, hwrite, ⟨hroot, hrep', nodup_plug.mpr ⟨?_, haround, ?_⟩, ?_, ?_, ?_⟩, hkept, hparents⟩
  · exact nodup_join.mpr ⟨⟨hyr, hyl⟩, hnr, hnl, hrl⟩
  · intro z hz
    rcases mem_toList_join.mp hz with rfl | hz
    · exact hya
    · exact hout z (.inr hz)
  · have hold := h.ne_null
    rw [mem_toList_plug, mem_toList_join] at hold ⊢
    tauto
  · rw [hstay _ hnull hnotin, h.null_colour]
  · rw [hstay _ hnull hnotin, h.null_left]

lemma Stack.of_append
    (h : Stack parents (q ++ p)) : Stack parents p := by
  induction q with
  | nil => exact h
  | cons f q ih => exact ih h.2

lemma Stack.patch {f : Frame Nat}
    (h : Stack parents (q ++ f :: p)) (f' : Frame Nat) :
    Stack (update parents (p.length + 1) (.child f'.side f'.value)) (q ++ f' :: p) := by
  induction q with
  | nil =>
    refine ⟨update_self _ _ _, h.2.congr fun i hi => update_of_ne ?_ _ _⟩
    omega
  | cons g q ih =>
    refine ⟨?_, ih h.2⟩
    have hlen : (q ++ f' :: p).length = (q ++ f :: p).length := by simp
    have hne : (q ++ f' :: p).length + 1 ≠ p.length + 1 := by
      simp only [length_append, length_cons]
      omega
    have htop : parents ((q ++ f :: p).length + 1) = place (g :: (q ++ f :: p)) := h.1
    rw [← hlen] at htop
    exact (update_of_ne hne _ _).trans htop

/-- An element was taken out of a tree, and the place below which a colour may be missing. -/
structure Unlinked (tree tree' : Tree κ) (T : RBTree Nat) (x : Nat) (p : List (Frame Nat))
    (t : RBTree Nat) (c : Color) : Prop where
  is : Is tree' (plug p t)
  stack : Stack tree'.parents p
  kept : Kept tree tree'
  sublist : (plug p t).toList.Sublist T.toList
  perm : T.toList.Perm (x :: (plug p t).toList)
  length_lt : p.length + 1 < maxTreeHeight
  red : c = .red -> (∃ m, (plug p t).Balanced m) ∧ (plug p t).color = .black
  black : c = .black -> ∃ m, Hole p (m + 1) ∧ Deficient t m

/-- The next element takes the place of one with two children. -/
lemma replaceElement_spec {c' : Color} {yr : RBTree Nat}
    (h : Is tree (plug (q ++ ⟨.right, c, x, l⟩ :: p) (join .left c' .nil y yr)))
    (hstack : Stack tree.parents (q ++ ⟨.right, c, x, l⟩ :: p)) :
    ∃ tree', tree.replaceElement p.length (q ++ ⟨.right, c, x, l⟩ :: p).length x y =
        some (tree', c') ∧
      Is tree' (plug (q ++ ⟨.right, c, y, l⟩ :: p) yr) ∧
      Stack tree'.parents (q ++ ⟨.right, c, y, l⟩ :: p) ∧ Kept tree tree' := by
  obtain ⟨hin, -, hdisj⟩ := nodup_plug.mp h.nodup
  have hyy : y ∈ (join .left c' .nil y yr).toList := mem_toList_join.mpr (.inl rfl)
  have hrep := (rep_join.mp h.repPath.2).2.2.2.2
  have hsub : yr.toList.Sublist (join .left c' .nil y yr).toList := by
    exact (sublist_cons_self y _).trans (sublist_append_right _ _)
  obtain ⟨tree1, hwrite1, his1, hsame1, hkept1, hparents1⟩ := h.replace hrep hsub
  have hy1 := hsame1 y (hdisj hyy)
  have hnot : y ∉ (plug (q ++ ⟨.right, c, x, l⟩ :: p) yr).toList := by
    rw [mem_toList_plug]
    rintro (hmem | hmem)
    · exact (nodup_join.mp hin).1.2 hmem
    · exact hdisj hyy hmem
  have hnull : nullElement ≠ y := by
    rintro rfl
    exact h.ne_null (mem_toList_plug.mpr (.inl hyy))
  rw [plug_append] at his1 hnot
  obtain ⟨tree2, hwrite2, his2, hkept2, hparents2⟩ :=
    his1.substitute hnot hnull (p.length + 1) (.child .right y)
  refine ⟨(tree2.setParent (p.length + 1) (.child .right y)).copyLinks y x, ?_, ?_, ?_, ?_⟩
  · have hright : (tree.elements y).right = some (addr yr) := h.child.2
    have hcolour := h.colour
    rw [addr_join] at hcolour
    have htop : tree1.parents p.length = place p := by
      rw [hparents1]
      exact hstack.of_append.2.top
    simp only [replaceElement, hright, hstack.top, hwrite1, htop, hwrite2, hy1, hcolour,
      some_bind]
    rfl
  · rw [plug_append]
    exact his2
  · have hpatch := hstack.patch ⟨.right, c, y, l⟩
    rwa [← hparents1, ← hparents2] at hpatch
  · exact hkept1.trans (hkept2.trans ((kept_setParent).trans kept_copyLinks))

lemma unlinkSingle_spec {s : Side} (h : Is tree (plug p (join s c .nil x t)))
    (hstack : Stack tree.parents p) (hlen : p.length + 1 < maxTreeHeight)
    (hbalanced : ∃ m, (plug p (join s c .nil x t)).Balanced m)
    (hblack : (plug p (join s c .nil x t)).color = .black) :
    ∃ tree', tree.write (tree.parents p.length) (some (addr t)) = some tree' ∧
      Unlinked tree tree' (plug p (join s c .nil x t)) x p t c := by
  have hlist : (join s c .nil x t).toList.Perm (x :: t.toList) := perm_join
  have hsub : t.toList.Sublist (join s c .nil x t).toList := by
    cases s <;> simp [toList_join]
  obtain ⟨tree', hwrite, his, -, hkept, hparents⟩ :=
    h.replace (rep_join.mp h.repPath.2).2.2.2.2 hsub
  obtain ⟨n, hole, hn, htop⟩ := balanced_plug.mp ⟨hbalanced, hblack⟩
  rw [color_join] at htop
  obtain ⟨hred, hblack'⟩ := removed hole hn htop
  refine ⟨tree', by rw [hstack.top, hwrite], his, hparents ▸ hstack, hkept, ?_, ?_, hlen, hred,
    hblack'⟩
  · rw [toList_plug, toList_plug]
    exact (hsub.append_left _).append_right _
  · exact perm_plug.trans ((hlist.append_right _).trans (perm_plug.symm.cons x))

lemma unlinkDouble_spec (h : Is tree (plug p (join .right c r x l))) (hr : r ≠ .nil)
    (hstack : Stack tree.parents p) (hlen : p.length + (join .right c r x l).height < maxTreeHeight)
    (hbalanced : ∃ m, (plug p (join .right c r x l)).Balanced m)
    (hblack : (plug p (join .right c r x l)).color = .black) :
    ∃ tree1 tree2 tree' i nod c' p' t', tree.push p.length (.child .right x) =
        some (tree1, p.length + 1) ∧
      leftmost maxTreeHeight tree1 (p.length + 1) (addr r) = some (tree2, i, nod) ∧
      tree2.replaceElement p.length i x nod = some (tree', c') ∧ i = p'.length ∧
      Unlinked tree tree' (plug p (join .right c r x l)) x p' t' c' := by
  rw [height_join] at hlen
  have hdown : Is tree (plug (⟨.right, c, x, l⟩ :: p) r) := h
  have hfuel : r.height ≤ maxTreeHeight := by omega
  obtain ⟨tree2, q, c', y, yr, hrun, hplug, hbefore, his2, hstack2, hlen2, -, hkept2⟩ :=
    leftmost_spec (hdown.setParent (p.length + 1) (.child .right x)) hr
      (hstack.push ⟨.right, c, x, l⟩) (by rw [length_cons]; omega) hfuel
  have hwhole : plug p (join .right c r x l) =
      plug (q ++ ⟨.right, c, x, l⟩ :: p) (join .left c' .nil y yr) := by
    rw [plug_append, hplug, plug_cons]
  rw [← hplug, ← plug_append] at his2
  obtain ⟨tree', hreplace, his, hstack', hkept⟩ := replaceElement_spec his2 hstack2
  have hlength : (q ++ ⟨.right, c, y, l⟩ :: p).length = (q ++ ⟨.right, c, x, l⟩ :: p).length := by
    simp
  have hlist : r.toList = y :: (plug q yr).toList := by
    rw [← hplug, toList_plug, toList_plug, hbefore]
    simp [toList_join, toList]
  have hnew : (plug (q ++ ⟨.right, c, y, l⟩ :: p) yr).toList =
      before p ++ (l.toList ++ r.toList) ++ after p := by
    rw [plug_append, plug_cons, toList_plug, toList_join, hlist]
  have hold : (plug p (join .right c r x l)).toList =
      before p ++ (l.toList ++ x :: r.toList) ++ after p := by
    rw [toList_plug, toList_join]
  rw [hwhole] at hbalanced hblack
  obtain ⟨n, hole, hn, htop⟩ := balanced_plug.mp ⟨hbalanced, hblack⟩
  obtain ⟨hred, hblack'⟩ := removed ((hole_congr q).mp hole) hn (htop.imp_right (top_congr q).mp)
  refine ⟨_, tree2, tree', _, y, c', q ++ ⟨.right, c, y, l⟩ :: p, yr, push_spec (by omega), hrun,
    hreplace, hlength.symm, his, hstack', (kept_setParent).trans (hkept2.trans hkept), ?_, ?_, ?_,
    hred, hblack'⟩
  · rw [hnew, hold]
    exact ((Sublist.append_left (sublist_cons_self x _) _).append_left _).append_right _
  · rw [hnew, hold, append_assoc, append_assoc, append_assoc, append_assoc,
      ← append_assoc, ← append_assoc (before p)]
    exact perm_middle
  · rw [length_cons] at hlen2
    omega

lemma unlinkElement_spec (h : Is tree (plug p t)) (ht : t ≠ .nil) (hstack : Stack tree.parents p)
    (hlen : p.length + t.height < maxTreeHeight) (hbalanced : ∃ m, (plug p t).Balanced m)
    (hblack : (plug p t).color = .black) :
    ∃ tree' p' t' c', tree.unlinkElement p.length (addr t) = some (tree', p'.length, c') ∧
      Unlinked tree tree' (plug p t) (addr t) p' t' c' := by
  obtain ⟨c, l, x, r, rfl⟩ := exists_join .left ht
  obtain ⟨hleft, hright⟩ := h.child
  have hcolour := h.colour
  rw [addr_join] at hcolour
  have hpos : 0 < (join .left c l x r).height := by
    exact succ_pos _
  have hnull_l := h.near.addr_eq_null
  have hnull_r := h.far.addr_eq_null
  have hchildren : (tree.elements x).left = some (addr l) ∧ (tree.elements x).right = some (addr r) :=
    ⟨hleft, hright⟩
  rw [addr_join]
  simp only [unlinkElement, hchildren.1, hchildren.2, Option.bind_eq_bind, Option.bind_some]
  by_cases hl : l = .nil
  · subst hl
    obtain ⟨tree', hwrite, hunlinked⟩ := unlinkSingle_spec h hstack (by omega) hbalanced hblack
    refine ⟨tree', p, r, c, ?_, hunlinked⟩
    rw [hwrite, hcolour]
    rfl
  · rw [if_neg (hnull_l.not.mpr hl)]
    have hflip : join .left c l x r = join .right c r x l := rfl
    rw [hflip] at h hbalanced hblack hlen hpos ⊢
    by_cases hr : r = .nil
    · subst hr
      obtain ⟨tree', hwrite, hunlinked⟩ := unlinkSingle_spec h hstack (by omega) hbalanced hblack
      refine ⟨tree', p, l, c, ?_, hunlinked⟩
      rw [hwrite, hcolour]
      rfl
    · obtain ⟨tree1, tree2, tree', i, nod, c', p', t', hpush, hrun, hreplace, rfl, hunlinked⟩ :=
        unlinkDouble_spec h hr hstack hlen hbalanced hblack
      refine ⟨tree', p', t', c', ?_, hunlinked⟩
      rw [if_neg (hnull_r.not.mpr hr), hpush]
      simp only [Option.bind_some, hrun, hreplace]
      rfl

section Delete
variable {cmp : κ -> κ -> Int} {T : RBTree Nat}

lemma Unlinked.fix {p' : List (Frame Nat)} (h : Unlinked tree tree' T x p' t c) :
    ∃ tree'' T', (if c = .black then tree'.rbDeleteFixup p'.length else some tree') = some tree'' ∧
      Is tree'' T' ∧ T'.toList = (plug p' t).toList ∧ (∃ m, T'.Balanced m) ∧ T'.color = .black ∧
      Kept tree tree'' := by
  cases c with
  | red => exact ⟨tree', _, rfl, h.is, rfl, (h.red rfl).1, (h.red rfl).2, h.kept⟩
  | black =>
    obtain ⟨m, hole, hdef⟩ := h.black rfl
    obtain ⟨tree'', T', hfix, his, hlist, hbalanced, hblack, hkept⟩ :=
      rbDeleteFixup_spec h.is h.stack hole hdef h.length_lt
    exact ⟨tree'', T', hfix, his, hlist, hbalanced, hblack, h.kept.trans hkept⟩

lemma Sorted.filter_eq (hcmp : Preorders cmp) (hsorted : Sorted cmp tree T.toList)
    {rest : List Nat} (hperm : T.toList.Perm (x :: rest)) {key : κ}
    (hx : cmp (tree.elements x).key key = 0) :
    (tree.keys T).filter (fun k => cmp k key ≠ 0) =
      (rest.map fun y => (tree.elements y).key : List κ) := by
  have hkeys : tree.keys T = (tree.elements x).key ::ₘ
      (rest.map fun y => (tree.elements y).key : List κ) := by
    rw [Tree.keys, Multiset.cons_coe, Multiset.coe_eq_coe]
    exact hperm.map fun y => (tree.elements y).key
  rw [hkeys, Multiset.filter_cons_of_neg _ (by simpa using hx), Multiset.filter_eq_self]
  intro k hk
  obtain ⟨y, hy, rfl⟩ := mem_map.mp (Multiset.mem_coe.mp hk)
  have hne : cmp (tree.elements x).key (tree.elements y).key < 0 ∨
      cmp (tree.elements y).key (tree.elements x).key < 0 := by
    have hpair := hsorted.imp (S := fun x y => cmp (tree.elements x).key (tree.elements y).key < 0 ∨
      cmp (tree.elements y).key (tree.elements x).key < 0) fun h => .inl h
    have hpair' := (hperm.pairwise_iff fun {a b} h => h.symm).mp hpair
    exact (pairwise_cons.mp hpair').1 y hy
  rcases hne with hlt | hlt
  · have hkey := hcmp.lt_of_le_of_lt (hcmp.eq_zero_comm hx).le hlt
    have hpos := (hcmp.swap _ _).mp hkey
    omega
  · exact (hcmp.lt_of_lt_of_le hlt hx.le).ne

lemma treeDelete_spec (hcmp : Preorders cmp) (h : TreeState cmp tree T) (key : κ) (keySize : Nat)
    (hlen : T.toList.length < 2 ^ 32) :
    ∃ tree' failed, tree.treeDelete cmp key keySize = some (tree', failed) ∧
      Leads cmp tree tree' (if tree.withDelete then
        (tree.keys T).filter (fun k => cmp k key ≠ 0) else tree.keys T) := by
  unfold treeDelete
  cases hwith : tree.withDelete with
  | false => exact ⟨tree, true, rfl, T, h, rfl, rfl, rfl, rfl, rfl, rfl⟩
  | true =>
    obtain ⟨tree1, p, t, hfind, hfound⟩ := find_spec hcmp h.inv.is h.inv.sorted
      (lt_of_succ_lt (h.inv.height_lt hlen)) key
    obtain ⟨hnull, hnil⟩ := hfound.addr_eq_null hcmp
    obtain ⟨hinv1, hkeys1⟩ := h.inv.of_found hfound
    simp only [hfind, Option.bind_eq_bind,
      Option.bind_some]
    by_cases ht : t = .nil
    · rw [if_pos (hnull.mpr ht)]
      refine ⟨tree1, true, rfl, plug p t, ⟨hinv1, ?_⟩, hkeys1.trans ?_, hfound.kept.same⟩
      · rw [hfound.kept.elementsInTree, h.elementsInTree, hfound.plug]
      · exact (Multiset.filter_eq_self.mpr (hnil.mp ht)).symm
    · rw [if_neg (hnull.not.mpr ht)]
      obtain ⟨tree2, p', t', c', hunlink, hunlinked⟩ := unlinkElement_spec hinv1.is ht hfound.stack
        hfound.length_le hinv1.balanced hinv1.black
      obtain ⟨tree3, T', hfix, his, hlist, hbalanced, hblack, hkept⟩ := hunlinked.fix
      have hperm : (plug p t).toList.Perm (addr t :: T'.toList) := hlist ▸ hunlinked.perm
      have hsub : T'.toList.Sublist (plug p t).toList := hlist ▸ hunlinked.sublist
      have hkept' := hfound.kept.trans hkept
      have hinv : TreeInv cmp tree3 T' := by
        refine ⟨his, hbalanced, hblack, ?_, fun x hx => ?_, ?_⟩
        · exact (hinv1.sorted.sublist hsub).imp fun hlt => by rwa [hkept.key, hkept.key]
        · rw [hkept.fresh]
          exact hinv1.fresh x (hsub.mem hx)
        · rw [hkept.fresh]
          exact hinv1.fresh_pos
      have hlength : T.toList.length = T'.toList.length + 1 := by
        rw [← hfound.plug, hperm.length_eq, length_cons]
      let allocated := (tree3.allocated +
        (2 ^ 64 - (sizeofTreeElement + tree3.sizeOfElement + keySize) % 2 ^ 64)) % 2 ^ 64
      let elementsInTree := (tree3.elementsInTree + (2 ^ 32 - 1)) % 2 ^ 32
      refine ⟨{ tree3 with allocated, elementsInTree }, false, ?_, T', ⟨hinv.recount _ _, ?_⟩, ?_,
        hkept'.same.trans ⟨rfl, rfl, rfl, rfl, rfl⟩⟩
      · simp only [hunlink, Option.bind_some]
        cases c' with
        | red =>
          obtain rfl : tree2 = tree3 := Option.some.inj hfix
          rfl
        | black =>
          rw [if_pos rfl] at hfix ⊢
          rw [hfix]
          rfl
      · show (tree3.elementsInTree + (2 ^ 32 - 1)) % 2 ^ 32 = _
        rw [hkept'.elementsInTree, h.elementsInTree]
        omega
      · have hzero := hfound.at_end.resolve_left ht
        rw [← hkeys1, hinv1.sorted.filter_eq hcmp hperm hzero, Tree.keys]
        simp [hkept.key]

end Delete

end Mysys
