import EryMysql.Mysys.TreeRep

/-!
# Balancing after a delete

`rb_delete_fixup` starts where one black element is missing on all ways down. It goes up the path
until a red element can be made black, or the sibling can lend an element.
-/

namespace Mysys

open RedBlack RedBlack.RBTree List Mysys.Tree

variable {κ : Type} {tree tree' : Tree κ} {p : List (Frame Nat)} {t a b d : RBTree Nat}
  {f : Frame Nat} {s : Side} {c c' : Color} {x y n : Nat}

variable {wn wf : RBTree Nat} {w : Nat}

/-- A red sibling becomes the grandparent, and its near child the new sibling. -/
lemma liftSibling_spec (h : Is tree (plug p (join s c t x (join s .red wn w wf))))
    (hstack : Stack tree.parents p) (hlen : p.length + 2 < maxTreeHeight) :
    ∃ tree', tree.liftSibling s (p.length + 1) x w = some (tree', p.length + 2, addr wn) ∧
      Is tree' (plug (⟨s, .red, x, wn⟩ :: ⟨s, .black, w, wf⟩ :: p) t) ∧
      Stack tree'.parents (⟨s, .red, x, wn⟩ :: ⟨s, .black, w, wf⟩ :: p) ∧ Kept tree tree' := by
  have hw := h.far.colour
  rw [addr_join, color_join] at hw
  have hblack := h.paintFar .black (.inr rfl)
  rw [addr_join, paint_join] at hblack
  obtain ⟨tree1, hrotate, his, hkept, hparents⟩ := (hblack.paintJoin .red).rotate
  have hstack1 : Stack tree1.parents p := hparents ▸ hstack
  have hstack2 : Stack (tree1.setParent (p.length + 1) (.child s w)).parents
    (⟨s, .black, w, wf⟩ :: p) := hstack1.push ⟨s, .black, w, wf⟩
  refine ⟨(tree1.setParent (p.length + 1) (.child s w)).setParent (p.length + 2) (.child s x), ?_,
    (his.setParent _ _).setParent _ _, hstack2.push ⟨s, .red, x, wn⟩, ?_⟩
  · have htop : ((tree.setColour w .black).setColour x .red).parents p.length = place p := hstack.top
    have hchild : (tree1.elements x).child s.flip = some (addr wn) := his.near.child.2
    simp only [liftSibling, if_pos hw, Nat.add_sub_cancel, htop, hrotate, push_spec hlen]
    exact congrArg (Option.bind · _) hchild
  · exact (kept_setColour.trans kept_setColour).trans
      (hkept.trans ((kept_setParent).trans (kept_setParent)))

/-- The last rotation of `rb_delete_fixup`: the sibling comes above the parent, with its colour. -/
lemma lendElement_spec (h : Is tree (plug p (join s c t x (join s c' wn w wf))))
    (htop : tree.parents p.length = place p) :
    ∃ tree', (do
        let tree := (tree.setColour w (tree.elements x).colour).setColour x .black
        let far ← (tree.elements w).child s.flip
        let tree := tree.setColour far .black
        tree.rotate s (tree.parents p.length) x) = some tree' ∧
      Is tree' (plug p (join s c (join s .black t x wn) w (wf.paint .black))) ∧ Kept tree tree' := by
  have hx := h.colour
  rw [addr_join, color_join] at hx
  have hw := h.paintFar c (.inl join_ne_nil)
  rw [addr_join, paint_join] at hw
  have hpar := hw.paintJoin .black
  have hfar := hpar.far.paintFar .black (.inr rfl)
  rw [plug_cons, join_flip] at hfar
  obtain ⟨tree', hrotate, his, hkept, -⟩ := hfar.rotate
  refine ⟨tree', ?_, his, (kept_setColour.trans (kept_setColour.trans kept_setColour)).trans hkept⟩
  simp only [hx, hpar.far.child.2]
  rw [← htop] at hrotate
  exact hrotate

/-- The near child of the sibling comes above it, so that the far one is red. -/
lemma turnSibling_spec {wf : RBTree Nat}
    (h : Is tree (plug p (join s c t x (join s .black (join s .red a y b) w wf)))) :
    ∃ tree', ((tree.setColour y .black).setColour w .red).rotate s.flip (.child s.flip x) w =
        some tree' ∧
      Is tree' (plug p (join s c t x (join s .black a y (join s .red b w wf)))) ∧
      Kept tree tree' ∧ tree'.parents = tree.parents := by
  have hnear : Is (tree.setColour y .black) (plug (⟨s, .black, w, wf⟩ :: ⟨s.flip, c, x, t⟩ :: p)
    (join s .black a y b)) := h.far.near.paintJoin .black
  have hred : Is ((tree.setColour y .black).setColour w .red)
      (plug (⟨s.flip, c, x, t⟩ :: p) (join s .red (join s .black a y b) w wf)) :=
    Is.paintJoin (p := ⟨s.flip, c, x, t⟩ :: p) hnear .red
  obtain ⟨tree', hrotate, his, hkept, hparents⟩ := hred.rotateBack
  rw [plug_cons, join_flip] at his
  exact ⟨tree', hrotate, his, (kept_setColour.trans kept_setColour).trans hkept, hparents⟩

/-- The sibling is black and has a red child, so it can lend an element. -/
lemma deleteRotate_spec (h : Is tree (plug p (join s c t x (join s .black wn w wf))))
    (htop : tree.parents p.length = place p) (ht : t.Balanced n) (hwn : wn.Balanced n)
    (hwf : wf.Balanced n) (hred : ¬ (wn.color = .black ∧ wf.color = .black)) :
    ∃ tree' l y r, tree.deleteRotate s (p.length + 1) x w = some tree' ∧
      Is tree' (plug p (join s c l y r)) ∧ Kept tree tree' ∧
      (join s c l y r).toList = (join s c t x (join s .black wn w wf)).toList ∧
      l.color = .black ∧ l.Balanced (n + 1) ∧ r.color = .black ∧ r.Balanced (n + 1) := by
  obtain ⟨hnear, hfar⟩ := h.far.child
  have hcolour := h.far.far.colour
  simp only [deleteRotate, hnear, hfar, hcolour, Option.bind_eq_bind, Option.bind_some]
  cases hwfc : wf.color with
  | black =>
    have hwnc : wn.color = .red := by
      cases hc : wn.color with
      | red => rfl
      | black => exact absurd ⟨hc, hwfc⟩ hred
    obtain ⟨cn, a, y, b, rfl⟩ := exists_join (t := wn) s (by rintro rfl; cases hwnc)
    rw [color_join] at hwnc
    subst hwnc
    obtain ⟨-, -, ha, hb⟩ := balanced_red.mp hwn
    obtain ⟨tree1, hturn, his1, hkept1, hparents1⟩ := turnSibling_spec h
    obtain ⟨tree', hlend, his, hkept⟩ := lendElement_spec his1 (hparents1 ▸ htop)
    refine ⟨tree', _, _, _, ?_, his, hkept1.trans hkept, ?_, color_join, ?_, by simp, ?_⟩
    · have hw := his1.child.2
      simp only [addr_join, hturn, hw, Option.bind_some]
      exact hlend
    · cases s <;> simp [toList_join]
    · exact balanced_black.mpr ⟨ht, ha⟩
    · rw [paint_join]
      exact balanced_black.mpr ⟨hb, hwf⟩
  | red =>
    obtain ⟨tree', hlend, his, hkept⟩ := lendElement_spec h htop
    refine ⟨tree', _, _, _, ?_, his, hkept, ?_, color_join, ?_, color_paint_black,
      hwf.paint_black hwfc⟩
    · exact hlend
    · cases s <;> simp [toList_join]
    · exact balanced_black.mpr ⟨ht, hwn⟩

/-- The element that the loop returns is made black, and then the tree is balanced. -/
structure Mended (tree tree' : Tree κ) (x : Nat) (T T' : RBTree Nat) : Prop where
  is : Is (tree'.setColour x .black) T'
  toList : T'.toList = T.toList
  balanced : ∃ m, T'.Balanced m
  black : T'.color = .black
  kept : Kept tree tree'

lemma rbDeleteLoop_end (h : Is tree (plug p t)) (hole : Hole p (n + 1)) (hdef : Deficient t n)
    (hend : p = [] ∨ t.color = .red) (fuel : Nat) :
    ∃ tree' x T', rbDeleteLoop (fuel + 1) tree p.length (addr t) = some (tree', x) ∧
      Mended tree tree' x (plug p t) T' := by
  have hpaint := h.paint (c := .black) (.inr rfl)
  have hbalanced : (∃ m, (plug p (t.paint .black)).Balanced m) ∧
      (plug p (t.paint .black)).color = .black := by
    rcases hdef with ⟨hc, hb⟩ | ⟨hc, hb⟩
    · obtain rfl : p = [] := hend.resolve_right (by rw [hc]; nofun)
      exact ⟨⟨n, by rwa [paint_eq_self hc]⟩, color_paint_black⟩
    · exact balanced_plug.mpr ⟨n + 1, hole, hb, .inl color_paint_black⟩
  refine ⟨tree, addr t, plug p (t.paint .black), ?_, hpaint, ?_, hbalanced.1, hbalanced.2,
    Kept.refl _⟩
  · rw [rbDeleteLoop, if_pos]
    rw [h.addr_eq_root, h.colour]
    exact hend
  · rw [toList_plug, toList_plug, toList_paint]

/-- A turn of the loop with a black sibling, if the loop is right with the path above. -/
lemma turn_spec {w fuel : Nat} (hole : Hole (f :: p) (n + 1)) (h : Is tree (plug (f :: p) t))
    (hstack : Stack tree.parents (f :: p)) (ht : t.Balanced n)
    (hw : f.sibling = join f.side .black wn w wf)
    (hloop : ∀ t1 k (tree1 : Tree κ), Is tree1 (plug p t1) -> Stack tree1.parents p ->
      Hole p (k + 1) -> Deficient t1 k -> t1.color = f.color ->
      ∃ tree' x T', rbDeleteLoop fuel tree1 p.length (addr t1) = some (tree', x) ∧
        Mended tree1 tree' x (plug p t1) T') :
    ∃ tree' x T', (do
        let near ← (tree.elements w).child f.side
        let far ← (tree.elements w).child f.side.flip
        if (tree.elements near).colour = .black ∧ (tree.elements far).colour = .black then
          rbDeleteLoop fuel (tree.setColour w .red) (p.length + 1 - 1) f.value
        else do
          let tree ← tree.deleteRotate f.side (p.length + 1) f.value w
          return (tree, tree.root)) = some (tree', x) ∧
      Mended tree tree' x (plug (f :: p) t) T' := by
  have hsib := hole.sibling.1
  rw [hw] at hsib
  obtain ⟨hwn, hwf⟩ := balanced_black.mp hsib
  have hpar : Is tree (plug p (join f.side f.color t f.value (join f.side .black wn w wf))) := by
    rw [plug_cons, hw] at h
    exact h
  obtain ⟨hnear, hfar⟩ := hpar.far.child
  simp only [hnear, hfar, hpar.far.near.colour, hpar.far.far.colour, some_bind]
  by_cases hblack : wn.color = .black ∧ wf.color = .black
  · rw [if_pos hblack]
    have hred := hpar.paintFar .red (.inl join_ne_nil)
    rw [addr_join, paint_join] at hred
    obtain ⟨k, hole', hdef⟩ := hole.deficient
    obtain ⟨tree', x, T', hrun, hmended⟩ := hloop _ k _ hred hstack.2 hole'
      (hdef t _ ht (balanced_red.mpr ⟨hblack.1, hblack.2, hwn, hwf⟩)) color_join
    rw [addr_join] at hrun
    refine ⟨tree', x, T', hrun, hmended.is, ?_, hmended.balanced, hmended.black,
      kept_setColour.trans hmended.kept⟩
    rw [hmended.toList, plug_cons, hw, toList_plug, toList_plug]
    cases f.side <;> simp [toList_join]
  · rw [if_neg hblack]
    obtain ⟨tree', l, y, r, hrotate, his, hkept, hlist, hlc, hl, hrc, hr⟩ :=
      deleteRotate_spec hpar hstack.2.top ht hwn hwf hblack
    obtain ⟨hbalanced, hcolor⟩ := hole.mended (y := y) (s := f.side) hlc hl hrc hr
    refine ⟨tree', tree'.root, plug p (join f.side f.color l y r), ?_, ?_, ?_, hbalanced, hcolor,
      hkept⟩
    · rw [hrotate]
      rfl
    · have hpaint := Is.paint (p := []) (c := .black) his (.inr rfl)
      rw [paint_eq_self hcolor, ← his.root] at hpaint
      exact hpaint
    · rw [toList_plug, hlist, plug_cons, hw, toList_plug]

section
variable (h : Is tree (plug p t)) (hstack : Stack tree.parents p) (hole : Hole p (n + 1))
  (hdef : Deficient t n) (hlen : p.length + 1 < maxTreeHeight)
include h hstack hole hdef hlen

/-- One black element is missing below a place, and the loop mends that. -/
lemma rbDeleteLoop_spec {fuel : Nat} (hfuel : p.length + 2 ≤ fuel) :
    ∃ tree' x T', rbDeleteLoop fuel tree p.length (addr t) = some (tree', x) ∧
      Mended tree tree' x (plug p t) T' := by
  induction p generalizing t n tree fuel with
  | nil =>
    obtain ⟨fuel, rfl⟩ : ∃ k, fuel = k + 1 := ⟨fuel - 1, by omega⟩
    exact rbDeleteLoop_end h hole hdef (.inl rfl) fuel
  | cons f p ih =>
    rw [length_cons] at hlen hfuel
    obtain ⟨fuel, rfl⟩ : ∃ k, fuel = k + 1 + 1 := ⟨fuel - 2, by omega⟩
    rcases hdef with ⟨htc, ht⟩ | hred
    · obtain ⟨hsib, hsibc⟩ := hole.sibling
      obtain ⟨cw, wn, w, wf, hw⟩ := exists_join_of_balanced_succ f.side hsib
      have hpar : Is tree (plug p (join f.side f.color t f.value f.sibling)) := h
      have hroot : addr t ≠ tree.root := fun heq => cons_ne_nil _ _ (h.addr_eq_root.mp heq)
      have hread := hpar.read
      rw [addr_join] at hread
      have hside := h.side (.inr (by rw [hw]; exact join_ne_nil))
      have hchild := hpar.child.2
      rw [hw, addr_join] at hchild
      have htop := hstack.2.top
      rw [length_cons, rbDeleteLoop, h.colour, htc,
        if_neg (by rw [not_or]; exact ⟨hroot, nofun⟩), if_neg (Nat.succ_ne_zero _)]
      simp only [Nat.add_sub_cancel, htop, hread, hside, hchild, some_bind]
      have hfar := hpar.far.colour
      rw [hw, addr_join, color_join] at hfar
      cases cw with
      | black =>
        rw [liftSibling, if_neg (by rw [hfar]; nofun)]
        exact turn_spec hole h hstack ht hw fun t1 k tree1 h1 hstack1 hole1 hdef1 _ =>
          ih h1 hstack1 hole1 hdef1 (by omega) (by omega)
      | red =>
        have hfc : f.color = .black := by
          cases hc : f.color with
          | black => rfl
          | red =>
            have hblack := hsibc hc
            rw [hw, color_join] at hblack
            cases hblack
        rw [hw] at hpar hsib
        obtain ⟨hwnc, hwfc, hwn, hwf⟩ := balanced_red.mp hsib
        obtain ⟨tree1, hlift, his1, hstack1, hkept1⟩ := liftSibling_spec hpar hstack.2 (by omega)
        have hole1 : Hole (⟨f.side, .red, f.value, wn⟩ :: ⟨f.side, .black, w, wf⟩ :: p) (n + 1) := by
          rw [Hole, hfc] at hole
          exact ⟨hwnc, hwn, rfl, hwf, hole.2⟩
        obtain ⟨cn, a, y, b, rfl⟩ := exists_join_of_balanced_succ f.side hwn
        rw [color_join] at hwnc
        subst hwnc
        rw [hlift]
        obtain ⟨tree', x, T', hrun, hmended⟩ := turn_spec hole1 his1 hstack1 ht rfl
          fun t1 k tree1 h1 _ hole1 hdef1 hred1 => rbDeleteLoop_end h1 hole1 hdef1 (.inr hred1) fuel
        refine ⟨tree', x, T', ?_, hmended.is, ?_, hmended.balanced, hmended.black,
          hkept1.trans hmended.kept⟩
        · rw [addr_join]
          exact hrun
        · rw [hmended.toList, plug_cons, plug_cons, plug_cons, hw, toList_plug, toList_plug]
          cases f.side <;> simp [toList_join]
    · exact rbDeleteLoop_end h hole (.inr hred) (.inr hred.1) (fuel + 1)

lemma rbDeleteFixup_spec : ∃ tree' T', tree.rbDeleteFixup p.length = some tree' ∧ Is tree' T' ∧
      T'.toList = (plug p t).toList ∧ (∃ m, T'.Balanced m) ∧ T'.color = .black ∧ Kept tree tree' := by
  have hfuel : p.length + 2 ≤ maxTreeHeight + 1 := by omega
  obtain ⟨tree', x, T', hrun, hmended⟩ := rbDeleteLoop_spec h hstack hole hdef hlen hfuel
  refine ⟨tree'.setColour x .black, T', ?_, hmended.is, hmended.toList, hmended.balanced,
    hmended.black, hmended.kept.trans kept_setColour⟩
  simp only [rbDeleteFixup, hstack.top, h.read, hrun, some_bind]
  rfl

end

end Mysys
