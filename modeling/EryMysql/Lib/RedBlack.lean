import Mathlib.Data.Nat.Log
import Mathlib.Algebra.Ring.Nat
import Mathlib.Data.List.Nodup

/-!
# Red-black trees

Binary trees with coloured nodes, and the paths that lead to a place in such a tree. The two
sides of a tree are mirror images, so a node can be built from the child on one side and the
child on the other one. A path to a place where a tree was taken out tells which trees may be
put there such that the whole is balanced.
-/

namespace RedBlack

open List Nat

inductive Color
  | red
  | black
  deriving DecidableEq, Repr

inductive Side
  | left
  | right
  deriving DecidableEq, Repr

def Side.flip : Side -> Side
  | .left => .right
  | .right => .left

lemma Side.eq_flip_of_ne {s s' : Side} (h : s ≠ s') : s = s'.flip := by
  cases s <;> cases s' <;> first | rfl | exact absurd rfl h

inductive RBTree (β : Type*)
  | nil
  | node (color : Color) (left : RBTree β) (value : β) (right : RBTree β)

variable {β : Type*} {s : Side} {c : Color} {a b t : RBTree β} {x y : β} {n : Nat}

namespace RBTree

/-- A node with the child on one side, and the child on the other one. -/
def join (s : Side) (c : Color) (near : RBTree β) (x : β) (far : RBTree β) : RBTree β :=
  match s with
  | .left => node c near x far
  | .right => node c far x near

lemma join_flip : join s.flip c a x b = join s c b x a := by cases s <;> rfl

lemma exists_join (s : Side) (h : t ≠ nil) : ∃ c a x b, t = join s c a x b := by
  cases t with
  | nil => exact absurd rfl h
  | node c l x r =>
    cases s with
    | left => exact ⟨c, l, x, r, rfl⟩
    | right => exact ⟨c, r, x, l, rfl⟩

def color : RBTree β -> Color
  | nil => .black
  | node c _ _ _ => c

def toList : RBTree β -> List β
  | nil => []
  | node _ l x r => l.toList ++ x :: r.toList

def height : RBTree β -> Nat
  | nil => 0
  | node _ l _ r => max l.height r.height + 1

def paint (c : Color) : RBTree β -> RBTree β
  | nil => nil
  | node _ l x r => node c l x r

@[simp] lemma color_nil : (nil : RBTree β).color = .black := rfl

@[simp] lemma color_join : (join s c a x b).color = c := by cases s <;> rfl

@[simp] lemma paint_join {c' : Color} : (join s c a x b).paint c' = join s c' a x b := by cases s <;> rfl

@[simp] lemma color_paint_black : (t.paint .black).color = .black := by cases t <;> rfl

@[simp] lemma toList_paint : (t.paint c).toList = t.toList := by cases t <;> rfl

lemma paint_eq_self (h : t.color = c) : t.paint c = t := by
  subst h
  cases t <;> rfl

lemma toList_join : (join s c a x b).toList = match s with
    | .left => a.toList ++ x :: b.toList
    | .right => b.toList ++ x :: a.toList := by
  cases s <;> rfl

lemma perm_join : (join s c a x b).toList.Perm (x :: (a.toList ++ b.toList)) := by
  cases s with
  | left => exact perm_middle
  | right => exact perm_middle.trans (perm_append_comm.cons x)

lemma mem_toList_join : y ∈ (join s c a x b).toList ↔ y = x ∨ y ∈ a.toList ∨ y ∈ b.toList := by
  rw [perm_join.mem_iff, mem_cons, mem_append]

lemma nodup_join : (join s c a x b).toList.Nodup ↔ (x ∉ a.toList ∧ x ∉ b.toList) ∧ a.toList.Nodup ∧
    b.toList.Nodup ∧ a.toList.Disjoint b.toList := by
  rw [perm_join.nodup_iff, nodup_cons, mem_append, not_or, nodup_append']

/-- No red node has a red child, and all ways down to an empty tree have `n` black nodes. -/
def Balanced : RBTree β -> Nat -> Prop
  | nil, n => n = 0
  | node .red l _ r, n => l.color = .black ∧ r.color = .black ∧ l.Balanced n ∧ r.Balanced n
  | node .black _ _ _, 0 => False
  | node .black l _ r, n + 1 => l.Balanced n ∧ r.Balanced n

@[simp] lemma balanced_nil : (nil : RBTree β).Balanced n ↔ n = 0 := Iff.rfl

@[simp] lemma balanced_red : (join s .red a x b).Balanced n ↔
    a.color = .black ∧ b.color = .black ∧ a.Balanced n ∧ b.Balanced n := by
  cases s
  · rfl
  · simp only [join, Balanced]
    tauto

@[simp] lemma balanced_black_zero : ¬ (join s .black a x b).Balanced 0 := by
  cases s <;> exact id

@[simp] lemma balanced_black :
    (join s .black a x b).Balanced (n + 1) ↔ a.Balanced n ∧ b.Balanced n := by
  cases s
  · rfl
  · simp only [join, Balanced]
    tauto

lemma exists_of_balanced_black (h : (join s .black a x b).Balanced n) :
    ∃ m, n = m + 1 ∧ a.Balanced m ∧ b.Balanced m := by
  cases n with
  | zero => exact absurd h balanced_black_zero
  | succ m => exact ⟨m, rfl, balanced_black.mp h⟩

lemma exists_join_of_balanced_succ (s : Side) (h : t.Balanced (n + 1)) :
    ∃ c a x b, t = join s c a x b := by
  refine exists_join s ?_
  rintro rfl
  cases h

lemma Balanced.paint_black (h : t.Balanced n) (hc : t.color = .red) :
    (t.paint .black).Balanced (n + 1) := by
  cases t with
  | nil => cases hc
  | node c l x r =>
    cases hc
    exact ⟨h.2.2.1, h.2.2.2⟩

lemma height_join : (join s c a x b).height = max a.height b.height + 1 := by
  cases s
  · rfl
  · exact congrArg (· + 1) (max_comm _ _)

lemma Balanced.height_le (h : t.Balanced n) :
    t.height ≤ 2 * n + if t.color = .red then 1 else 0 := by
  induction t generalizing n with
  | nil => simp [height]
  | node c l x r ihl ihr =>
    cases c with
    | red =>
      obtain ⟨hl, hr, hbl, hbr⟩ := h
      have hhl := ihl hbl
      have hhr := ihr hbr
      simp only [hl, hr, reduceCtorEq, if_false] at hhl hhr
      simp only [height, color, if_true]
      omega
    | black =>
      cases n with
      | zero => cases h
      | succ m =>
        have hhl := ihl h.1
        have hhr := ihr h.2
        have hle : ∀ t : RBTree β, (if t.color = .red then 1 else 0) ≤ 1 := by
          intro t
          split <;> omega
        have hll := hle l
        have hlr := hle r
        simp only [height]
        omega

/-- Where the way down is longer than the number of black nodes, the tree has more nodes than
these need. -/
lemma Balanced.pow_add_height_le (h : t.Balanced n) :
    2 ^ n ≤ t.toList.length + 1 ∧ 2 ^ n + t.height ≤ t.toList.length + 1 + n := by
  induction t generalizing n with
  | nil =>
    obtain rfl := balanced_nil.mp h
    simp [height]
  | node c l x r ihl ihr =>
    simp only [height, toList, length_append, length_cons]
    cases c with
    | red =>
      have hl := ihl h.2.2.1
      have hr := ihr h.2.2.2
      omega
    | black =>
      cases n with
      | zero => cases h
      | succ m =>
        have hl := ihl h.1
        have hr := ihr h.2
        omega

/-- The height is at most twice the logarithm of the number of elements. -/
lemma Balanced.height_le_log (h : t.Balanced n) (hc : t.color = .black) :
    t.height ≤ 2 * log 2 (t.toList.length + 1) := by
  have hheight := h.height_le
  rw [hc] at hheight
  have hlog : n ≤ log 2 (t.toList.length + 1) :=
    Nat.le_log_of_pow_le Nat.one_lt_two h.pow_add_height_le.1
  simp only [reduceCtorEq, if_false] at hheight
  omega

lemma Balanced.height_lt {k : Nat} (hk : 2 ≤ k) (h : t.Balanced n) (hc : t.color = .black)
    (hlen : t.toList.length < 2 ^ k) : t.height < 2 * k - 1 := by
  have hheight := h.height_le
  have hadd := h.pow_add_height_le.2
  rw [hc] at hheight
  simp only [reduceCtorEq, if_false] at hheight
  have hnk : n ≤ k := (Nat.pow_le_pow_iff_right Nat.one_lt_two).mp (le_trans h.pow_add_height_le.1 hlen)
  rcases lt_or_eq_of_le hnk with hlt | rfl
  · omega
  · omega

end RBTree

open RedBlack.RBTree

/-- A node on the way to a place: the side where the way goes on, and the child on the other
side. -/
structure Frame (β : Type*) where
  side : Side
  color : Color
  value : β
  sibling : RBTree β

variable {p : List (Frame β)} {s : Side} {sib : RBTree β} {f : Frame β}

/-- The tree with a tree at the end of a path. The path begins at the place. -/
def plug : List (Frame β) -> RBTree β -> RBTree β
  | [], t => t
  | f :: p, t => plug p (join f.side f.color t f.value f.sibling)

@[simp] lemma plug_nil : plug [] t = t := rfl

@[simp] lemma plug_cons (f : Frame β) :
    plug (f :: p) t = plug p (join f.side f.color t f.value f.sibling) := rfl

lemma plug_sibling (f : Frame β) :
    plug (f :: p) t = plug (⟨f.side.flip, f.color, f.value, t⟩ :: p) f.sibling := by
  rw [plug_cons, plug_cons, join_flip]

variable (q : List (Frame β))

lemma plug_append : plug (q ++ p) t = plug p (plug q t) := by
  induction q generalizing t with
  | nil => rfl
  | cons f q ih => exact ih

/-- What is left of the place, from the left to the right. -/
def before : List (Frame β) -> List β
  | [] => []
  | f :: p => match f.side with
    | .left => before p
    | .right => before p ++ f.sibling.toList ++ [f.value]

def after : List (Frame β) -> List β
  | [] => []
  | f :: p => match f.side with
    | .left => f.value :: (f.sibling.toList ++ after p)
    | .right => after p

lemma toList_plug : (plug p t).toList = before p ++ t.toList ++ after p := by
  induction p generalizing t with
  | nil => simp [before, after]
  | cons f p ih =>
    rw [plug_cons, ih, toList_join]
    cases hside : f.side <;> simp [before, after, hside]

lemma before_append : before (q ++ p) = before p ++ before q := by
  induction q with
  | nil => simp [before]
  | cons f q ih =>
    rw [cons_append, before, before, ih]
    cases f.side with
    | left => rfl
    | right => simp

def around (p : List (Frame β)) : List β := before p ++ after p

lemma perm_plug : (plug p t).toList.Perm (t.toList ++ around p) := by
  rw [toList_plug, append_assoc]
  exact perm_append_comm_assoc _ _ _

lemma mem_toList_plug : y ∈ (plug p t).toList ↔ y ∈ t.toList ∨ y ∈ around p := by
  rw [perm_plug.mem_iff, mem_append]

lemma nodup_plug : (plug p t).toList.Nodup ↔
    t.toList.Nodup ∧ (around p).Nodup ∧ t.toList.Disjoint (around p) := by
  rw [perm_plug.nodup_iff, nodup_append']

lemma perm_around_cons (f : Frame β) :
    (around (f :: p)).Perm (f.value :: (f.sibling.toList ++ around p)) := by
  rw [around, before, after, around]
  cases f.side with
  | left =>
    refine perm_middle.trans (Perm.cons _ ?_)
    rw [← append_assoc, ← append_assoc]
    exact perm_append_comm.append_right _
  | right =>
    rw [append_assoc]
    refine perm_middle.trans (Perm.cons _ ?_)
    rw [← append_assoc]
    exact perm_append_comm.append_right _

lemma mem_around_cons :
    y ∈ around (f :: p) ↔ y = f.value ∨ y ∈ f.sibling.toList ∨ y ∈ around p := by
  rw [(perm_around_cons f).mem_iff, mem_cons, mem_append]

def Top : List (Frame β) -> Prop
  | [] => False
  | f :: _ => f.color = .black

/-- A black tree with `n` black nodes on its ways down can be put at the end of the path; and a
red one, if the node above is black. -/
def Hole : List (Frame β) -> Nat -> Prop
  | [], _ => True
  | f :: p, n => match f.color with
    | .red => f.sibling.color = .black ∧ f.sibling.Balanced n ∧ Top p ∧ Hole p n
    | .black => f.sibling.Balanced n ∧ Hole p (n + 1)

lemma balanced_plug : (∃ m, (plug p t).Balanced m) ∧ (plug p t).color = .black ↔
    ∃ n, Hole p n ∧ t.Balanced n ∧ (t.color = .black ∨ Top p) := by
  induction p generalizing t with
  | nil =>
    simp only [Hole, Top, or_false, true_and]
    exact exists_and_right.symm
  | cons f p ih =>
    rw [plug_cons, ih, color_join]
    cases hcolor : f.color with
    | red =>
      simp only [Hole, Top, hcolor, balanced_red]
      refine exists_congr fun n => ?_
      tauto
    | black =>
      simp only [Hole, Top, hcolor, or_true, true_or, and_true]
      constructor
      · rintro ⟨n, hp, hn⟩
        obtain ⟨m, rfl, ht, hsib⟩ := exists_of_balanced_black hn
        exact ⟨m, ⟨hsib, hp⟩, ht⟩
      · rintro ⟨m, ⟨hsib, hp⟩, ht⟩
        exact ⟨m + 1, hp, balanced_black.mpr ⟨ht, hsib⟩⟩

/-- One black element is missing on all ways down; if the root is red, it can be made black. -/
def Deficient (t : RBTree β) (n : Nat) : Prop :=
  (t.color = .black ∧ t.Balanced n) ∨ (t.color = .red ∧ (t.paint .black).Balanced (n + 1))

section Missing
variable {f : Frame β} (hole : Hole (f :: p) (n + 1))
include hole

lemma Hole.sibling : f.sibling.Balanced (n + 1) ∧ (f.color = .red -> f.sibling.color = .black) := by
  cases hf : f.color with
  | red =>
    rw [Hole, hf] at hole
    exact ⟨hole.2.1, fun _ => hole.1⟩
  | black =>
    rw [Hole, hf] at hole
    exact ⟨hole.1, nofun⟩

/-- Where both children of the parent lack a black element, it is missing above. -/
lemma Hole.deficient : ∃ k, Hole p (k + 1) ∧ ∀ a b : RBTree β, a.Balanced n -> b.Balanced n ->
    Deficient (join f.side f.color a f.value b) k := by
  cases hf : f.color with
  | red =>
    rw [Hole, hf] at hole
    refine ⟨n, hole.2.2.2, fun a b ha hb => .inr ⟨color_join, ?_⟩⟩
    rw [paint_join]
    exact balanced_black.mpr ⟨ha, hb⟩
  | black =>
    rw [Hole, hf] at hole
    exact ⟨n + 1, hole.2, fun a b ha hb => .inl ⟨color_join, balanced_black.mpr ⟨ha, hb⟩⟩⟩

/-- Where neither child of the parent lacks one, the whole tree is balanced. -/
lemma Hole.mended {l r : RBTree β} (hlc : l.color = .black) (hl : l.Balanced (n + 1))
    (hrc : r.color = .black) (hr : r.Balanced (n + 1)) :
    (∃ m, (plug p (join s f.color l y r)).Balanced m) ∧
      (plug p (join s f.color l y r)).color = .black := by
  refine balanced_plug.mpr ?_
  cases hf : f.color with
  | red =>
    rw [Hole, hf] at hole
    exact ⟨n + 1, hole.2.2.2, balanced_red.mpr ⟨hlc, hrc, hl, hr⟩, .inr hole.2.2.1⟩
  | black =>
    rw [Hole, hf] at hole
    exact ⟨n + 2, hole.2, balanced_black.mpr ⟨hl, hr⟩, .inl color_join⟩

end Missing

/-- A node with at most one child is taken out. If it was black, a black node is missing. -/
lemma removed (hole : Hole p n) (hb : (join s c nil x t).Balanced n)
    (hc : c = .black ∨ Top p) :
    (c = .red -> (∃ m, (plug p t).Balanced m) ∧ (plug p t).color = .black) ∧
      (c = .black -> ∃ m, Hole p (m + 1) ∧ Deficient t m) := by
  constructor
  · rintro rfl
    obtain ⟨-, hcolor, -, ht⟩ := balanced_red.mp hb
    exact balanced_plug.mpr ⟨n, hole, ht, .inl hcolor⟩
  · rintro rfl
    obtain ⟨m, rfl, -, ht⟩ := exists_of_balanced_black hb
    refine ⟨m, hole, ?_⟩
    cases hcolor : t.color with
    | black => exact .inl ⟨hcolor, ht⟩
    | red => exact .inr ⟨hcolor, ht.paint_black hcolor⟩

/-- What is at the nodes of a path does not matter for the balance. -/
lemma top_congr : Top (q ++ ⟨s, c, x, sib⟩ :: p) ↔ Top (q ++ ⟨s, c, y, sib⟩ :: p) := by
  cases q <;> rfl

lemma hole_congr : Hole (q ++ ⟨s, c, x, sib⟩ :: p) n ↔ Hole (q ++ ⟨s, c, y, sib⟩ :: p) n := by
  induction q generalizing n with
  | nil => rfl
  | cons f q ih =>
    rw [cons_append, cons_append, Hole, Hole]
    cases f.color with
    | red =>
      rw [ih, top_congr]
    | black =>
      simp only
      rw [ih]

end RedBlack
