import EryMysql.Mysys.TreeRep

/-!
# Balancing after an insert

`rb_insert` goes up the path of the new leaf as long as a red element has a red parent.
-/

namespace Mysys

open RedBlack RedBlack.RBTree List Mysys.Tree

variable {κ : Type} {tree tree' : Tree κ} {p : List (Frame Nat)} {t a b d : RBTree Nat}
  {f g : Frame Nat} {s : Side} {c c' : Color} {x y n : Nat}

/-- The last rotation of `rb_insert`: the parent becomes black and comes above the grandparent,
which becomes red. -/
lemma liftParent_spec (h : Is tree (plug p (join s c (join s c' a y b) x d))) :
    ∃ tree', ((tree.setColour y .black).setColour x .red).rotate s.flip (place p) x = some tree' ∧
      Is tree' (plug p (join s .black a y (join s .red b x d))) ∧ Kept tree tree' := by
  have hpar : Is tree (plug (⟨s, c, x, d⟩ :: p) (join s c' a y b)) := h
  have hblack : Is (tree.setColour y .black) (plug p (join s c (join s .black a y b) x d)) :=
    hpar.paintJoin .black
  obtain ⟨tree', hrotate, his, hkept, -⟩ := (hblack.paintJoin .red).rotateBack
  exact ⟨tree', hrotate, his, kept_setColour.trans (kept_setColour.trans hkept)⟩

/-- `r` has the place of `t`, with the same elements, and is balanced and black. -/
structure Restored (r t : RBTree Nat) (n : Nat) : Prop where
  toList : r.toList = t.toList
  color : r.color = .black
  balanced : r.Balanced n

lemma insertRotate_spec (h : Is tree (plug (f :: g :: p) t))
    (hstack : Stack tree.parents (f :: g :: p)) (hred : t.color = .red) (ht : t.Balanced n)
    (hf : f.color = .red) (hfc : f.sibling.color = .black) (hfb : f.sibling.Balanced n)
    (hgc : g.sibling.color = .black) (hgb : g.sibling.Balanced n) :
    ∃ tree' r, tree.insertRotate g.side p.length (addr t) f.value g.value = some tree' ∧
      Is tree' (plug p r) ∧ Kept tree tree' ∧
      Restored r (join g.side g.color (join f.side f.color t f.value f.sibling) g.value g.sibling)
        (n + 1) := by
  have htop := hstack.2.2.top
  have htop1 := hstack.2.1
  have htn : t ≠ .nil := by
    rintro rfl
    cases hred
  unfold insertRotate
  by_cases hside : f.side = g.side
  · have houter : (tree.elements f.value).child g.side.flip ≠ some (addr t) := by
      obtain ⟨-, -, hflip, -⟩ := h.repPath.1
      rw [← hside, hflip]
      intro heq
      rw [plug_sibling] at h
      exact h.addr_ne (mem_around_cons.mpr (.inr (.inl (addr_mem htn)))) (Option.some.inj heq)
    rw [if_neg houter]
    have hsub : Is tree (plug p (join g.side g.color (join g.side f.color t f.value f.sibling)
        g.value g.sibling)) := by
      rw [plug_cons, hside] at h
      exact h
    obtain ⟨tree', hrotate, his, hkept⟩ := liftParent_spec hsub
    refine ⟨tree', _, ?_, his, hkept, ?_, color_join, ?_⟩
    · rw [← htop] at hrotate
      exact hrotate
    · rw [hside]
      cases g.side <;> simp [toList_join]
    · simp [ht, hfc, hfb, hgc, hgb]
  · have hflip := Side.eq_flip_of_ne hside
    obtain ⟨ct, tn, x, tf, rfl⟩ := exists_join g.side htn
    rw [color_join] at hred
    subst hred
    obtain ⟨htnc, htfc, htnb, htfb⟩ := balanced_red.mp ht
    have hinner : (tree.elements f.value).child g.side.flip =
        some (addr (join g.side .red tn x tf)) := by
      rw [← hflip]
      exact h.repPath.1.2.1
    rw [if_pos hinner]
    have hsub : Is tree (plug (g :: p) (join g.side f.color f.sibling f.value
        (join g.side .red tn x tf))) := by
      rw [plug_cons, hflip, join_flip] at h
      exact h
    obtain ⟨tree1, hrotate1, his1, hkept1, hparents1⟩ := hsub.rotate
    have hsub1 : Is tree1 (plug p (join g.side g.color
        (join g.side .red (join g.side f.color f.sibling f.value tn) x tf) g.value g.sibling)) := his1
    obtain ⟨tree', hrotate, his, hkept⟩ := liftParent_spec hsub1
    refine ⟨tree', _, ?_, his, hkept1.trans hkept, ?_, color_join, ?_⟩
    · rw [← htop1] at hrotate1
      rw [← htop, ← hparents1] at hrotate
      simp only [hrotate1, addr_join]
      exact hrotate
    · rw [hflip]
      cases g.side <;> simp [toList_join, Side.flip]
    · simp [hf, hfc, hfb, hgc, hgb, htnc, htfc, htnb, htfb]

/-- The whole tree is balanced, up to the colour of its root, and has the same elements. -/
structure Rebalanced (T' T : RBTree Nat) : Prop where
  toList : T'.toList = T.toList
  balanced : ∃ m, (T'.paint .black).Balanced m

lemma Restored.rebalanced {r : RBTree Nat} (h : Restored r t n) (hole : Hole p n) :
    Rebalanced (plug p r) (plug p t) := by
  obtain ⟨⟨m, hm⟩, hcolor⟩ := balanced_plug.mpr ⟨n, hole, h.balanced, .inl h.color⟩
  refine ⟨by rw [toList_plug, toList_plug, h.toList], m, ?_⟩
  rwa [paint_eq_self hcolor]

lemma rebalanced_of_top (hole : Hole p n) (ht : t.Balanced n) (htop : Top p) :
    Rebalanced (plug p t) (plug p t) := by
  obtain ⟨⟨m, hm⟩, hcolor⟩ := balanced_plug.mpr ⟨n, hole, ht, .inr htop⟩
  exact ⟨rfl, m, by rwa [paint_eq_self hcolor]⟩

lemma recolour_spec (h : Is tree (plug (f :: g :: p) t)) (hg : g.sibling ≠ .nil) :
    Is (((tree.setColour f.value .black).setColour (addr g.sibling) .black).setColour g.value .red)
      (plug p (join g.side .red (join f.side .black t f.value f.sibling) g.value
        (g.sibling.paint .black))) := by
  have hpar := h
  have hblack : Is (tree.setColour f.value .black) (plug p (join g.side g.color
    (join f.side .black t f.value f.sibling) g.value g.sibling)) := hpar.paintJoin .black
  exact (hblack.paintFar .black (.inl hg)).paintJoin .red

/-- A red tree is put where the node above may be red, too. -/
lemma rbInsertLoop_spec : ∀ (p : List (Frame Nat)) (t : RBTree Nat) (n : Nat) (tree : Tree κ),
    Is tree (plug p t) -> Stack tree.parents p -> Hole p n -> t.Balanced n -> t.color = .red ->
    ∃ tree' T, rbInsertLoop p.length tree (addr t) = some tree' ∧ Is tree' T ∧
      Rebalanced T (plug p t) ∧ Kept tree tree'
  | [], t, n, tree, h, _, _, ht, hred => by
    refine ⟨tree, t, ?_, h, ⟨rfl, n + 1, ht.paint_black hred⟩, Kept.refl _⟩
    exact if_pos (h.addr_eq_root.mpr rfl)
  | [f], t, n, tree, h, hstack, hole, ht, _ => by
    have hf : f.color = .black := by
      cases hc : f.color with
      | black => rfl
      | red =>
        rw [Hole, hc] at hole
        exact hole.2.2.1.elim
    have hpar : Is tree (plug [] (join f.side f.color t f.value f.sibling)) := h
    refine ⟨tree, plug [f] t, ?_, h, rebalanced_of_top hole ht hf, Kept.refl _⟩
    have hread := hpar.read
    have hcolour := hpar.colour
    rw [addr_join] at hread hcolour
    rw [hf] at hcolour
    have htop := hstack.2
    rw [length_singleton, rbInsertLoop, htop]
    simp [hread, hcolour]
  | f :: g :: p, t, n, tree, h, hstack, hole, ht, hred => by
    have hpar : Is tree (plug (g :: p) (join f.side f.color t f.value f.sibling)) := h
    have hpar2 : Is tree (plug p (join g.side g.color
      (join f.side f.color t f.value f.sibling) g.value g.sibling)) := h
    have hroot : addr t ≠ tree.root := fun heq => cons_ne_nil _ _ (h.addr_eq_root.mp heq)
    have hread1 := hpar.read
    have hcolour := hpar.colour
    have hread := hpar2.read
    rw [addr_join] at hread1 hcolour hread
    rw [color_join] at hcolour
    have htop1 := hstack.2.1
    have htop := hstack.2.2.top
    rw [length_cons, length_cons, rbInsertLoop, if_neg hroot, htop1, htop]
    simp only [hread1, hcolour, hread, Option.bind_eq_bind, Option.bind_some]
    cases hf : f.color with
    | black =>
      exact ⟨tree, plug (f :: g :: p) t, rfl, h, rebalanced_of_top hole ht hf, Kept.refl _⟩
    | red =>
      rw [Hole, hf] at hole
      obtain ⟨hfc, hfb, hg, hole⟩ := hole
      rw [Hole, show g.color = .black from hg] at hole
      obtain ⟨hgb, hole⟩ := hole
      have hside := hpar.side (.inl join_ne_nil)
      rw [addr_join] at hside
      simp only [hside, hpar2.child.2, hpar2.far.colour, Option.bind_some]
      cases hgc : g.sibling.color with
      | red =>
        have hgn : g.sibling ≠ .nil := by
          intro heq
          rw [heq] at hgc
          cases hgc
        have hbalanced : (join g.side .red (join f.side .black t f.value f.sibling) g.value
            (g.sibling.paint .black)).Balanced (n + 1) := by
          simp [ht, hfb, hgb.paint_black hgc]
        have hagain := recolour_spec h hgn
        obtain ⟨tree', T, hloop, his, hrebalanced, hkept⟩ :=
          rbInsertLoop_spec p _ (n + 1) _ hagain hstack.2.2 hole hbalanced color_join
        rw [addr_join] at hloop
        refine ⟨tree', T, hloop, his, ⟨?_, hrebalanced.balanced⟩, ?_⟩
        · rw [hrebalanced.toList, toList_plug, plug_cons, plug_cons, toList_plug]
          cases g.side <;> cases f.side <;> simp [toList_join]
        · exact (kept_setColour.trans (kept_setColour.trans kept_setColour)).trans hkept
      | black =>
        obtain ⟨tree', r, hrotate, his, hkept, hrestored⟩ :=
          insertRotate_spec h hstack hred ht hf hfc hfb hgc hgb
        exact ⟨tree', plug p r, hrotate, his, hrestored.rebalanced hole, hkept⟩

end Mysys
