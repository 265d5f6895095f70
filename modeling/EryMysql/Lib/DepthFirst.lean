import Mathlib.Algebra.Order.BigOperators.Group.Finset

/-!
# Depth-first traversal with callbacks

A traversal of a finite graph with a stack of its own. One callback is called when a node is met for
the first time, the other one for every edge that is examined; the second one may refuse to follow
the edge. A node that is met again while it is on the stack ends the traversal: there is a cycle.

The rules for verifying a traversal are here: it ends, an invariant of the steps holds at the end,
and what is known of the stack and of the edges that are still to be examined.
-/

namespace DepthFirst

open Relation Finset List Function Nat

variable {N S : Type} [DecidableEq N]

/-- The graph, and what is done at a node and at an edge; `true` if the edge is not followed. -/
structure Visitor (N S : Type) where
  next : N -> List N
  onNode : N -> S -> S
  onEdge : N -> N -> S -> Bool × S

/-- A traversal under way: `rest` are the neighbours of a node that are still to be examined. -/
structure Walk (N S : Type) where
  stack : List N
  rest : N -> List N
  explored : List N
  opened : List N
  state : S

namespace Visitor

variable (c : Visitor N S)

def start (root : N) (s : S) : Walk N S where
  stack := [root]
  rest := c.next
  explored := []
  opened := [root]
  state := c.onNode root s

def meet (w : Walk N S) (v : N) : Walk N S :=
  if v ∈ w.opened then w else { w with opened := v :: w.opened, state := c.onNode v w.state }

/-- Examining the edge from `u` to `v`, with `l` the neighbours after `v`. -/
def examine (w : Walk N S) (u v : N) (l : List N) : Walk N S :=
  { c.meet w v with
    rest := Function.update w.rest u l
    state := (c.onEdge u v (c.meet w v).state).2 }

def skips (w : Walk N S) (u v : N) : Prop :=
  (c.onEdge u v (c.meet w v).state).1 = true ∨ v ∈ w.explored

instance (w : Walk N S) (u v : N) : Decidable (c.skips w u v) :=
  inferInstanceAs (Decidable (_ ∨ _))

/-- The traversal: whether a cycle was found, and the state; `none` if the fuel is used up. -/
def walk : Nat -> Walk N S -> Option (Bool × S)
  | 0, _ => none
  | fuel + 1, w =>
    match w.stack with
    | [] => some (false, w.state)
    | u :: stack =>
      match w.rest u with
      | [] => walk fuel { w with stack := stack, explored := u :: w.explored }
      | v :: l =>
        if v ∈ w.stack then some (true, w.state)
        else if c.skips w u v then walk fuel (c.examine w u v l)
        else walk fuel { c.examine w u v l with stack := v :: w.stack }

inductive Step (w : Walk N S) : Walk N S -> Prop
  | pop (u : N) (stack : List N) (hstack : w.stack = u :: stack) (hrest : w.rest u = []) :
    Step w { w with stack := stack, explored := u :: w.explored }
  | skip (u v : N) (stack l : List N) (hstack : w.stack = u :: stack) (hrest : w.rest u = v :: l)
    (hv : v ∉ w.stack) (hskips : c.skips w u v) : Step w (c.examine w u v l)
  | push (u v : N) (stack l : List N) (hstack : w.stack = u :: stack) (hrest : w.rest u = v :: l)
    (hv : v ∉ w.stack) (hskips : ¬c.skips w u v) :
    Step w { c.examine w u v l with stack := v :: w.stack }

/-- The edge that is to be examined closes a cycle. -/
def ClosesCycle (w : Walk N S) : Prop :=
  ∃ u v stack l, w.stack = u :: stack ∧ w.rest u = v :: l ∧ v ∈ w.stack

variable {c} {w w' : Walk N S} {root u v : N} {l : List N} {s : S} {I : Walk N S -> Prop}

@[simp] lemma stack_meet : (c.meet w v).stack = w.stack := by
  unfold meet
  split <;> rfl

@[simp] lemma explored_meet : (c.meet w v).explored = w.explored := by
  unfold meet
  split <;> rfl

@[simp] lemma stack_examine : (c.examine w u v l).stack = w.stack := stack_meet

@[simp] lemma explored_examine : (c.examine w u v l).explored = w.explored := explored_meet

@[simp] lemma rest_examine_self : (c.examine w u v l).rest u = l := update_self ..

lemma rest_examine_of_ne {x : N} (h : x ≠ u) : (c.examine w u v l).rest x = w.rest x :=
  update_of_ne h ..

lemma mem_opened_examine {x : N} : x ∈ (c.examine w u v l).opened ↔ x = v ∨ x ∈ w.opened := by
  unfold examine meet
  split
  case isTrue h =>
    refine ⟨.inr, ?_⟩
    rintro (rfl | hx)
    · exact h
    · exact hx
  case isFalse => exact mem_cons

lemma state_examine : (c.examine w u v l).state = (c.onEdge u v (c.meet w v).state).2 := rfl

lemma sum_count_examine {F : Finset N} (hu : u ∈ F) (hrest : w.rest u = v :: l) (x : N) :
    (∑ y ∈ F, ((c.examine w u v l).rest y).count x) + (if v = x then 1 else 0) =
      ∑ y ∈ F, (w.rest y).count x := by
  rw [← add_sum_erase F _ hu, ← add_sum_erase F (fun y => (w.rest y).count x) hu,
    rest_examine_self, hrest, count_cons]
  have hothers : ∑ y ∈ F.erase u, ((c.examine w u v l).rest y).count x =
      ∑ y ∈ F.erase u, (w.rest y).count x :=
    sum_congr rfl fun y hy => by rw [rest_examine_of_ne (ne_of_mem_erase hy)]
  simp only [beq_iff_eq]
  omega

lemma walk_rule (hstep : ∀ w w', I w -> c.Step w w' -> I w') {fuel : Nat}
    {found : Bool} (hw : I w) (hwalk : c.walk fuel w = some (found, s)) :
    ∃ w', I w' ∧ w'.state = s ∧
      ((found = false ∧ w'.stack = []) ∨ (found = true ∧ ClosesCycle w')) := by
  induction fuel generalizing w with
  | zero => cases hwalk
  | succ fuel ih =>
    unfold walk at hwalk
    split at hwalk
    case h_1 hstack =>
      cases hwalk
      exact ⟨w, hw, rfl, .inl ⟨rfl, hstack⟩⟩
    case h_2 u stack hstack =>
      split at hwalk
      case h_1 hrest => exact ih (hstep w _ hw (.pop u stack hstack hrest)) hwalk
      case h_2 v l hrest =>
        split at hwalk
        case isTrue hv =>
          cases hwalk
          exact ⟨w, hw, rfl, .inr ⟨rfl, u, v, stack, l, hstack, hrest, hv⟩⟩
        case isFalse hv =>
          split at hwalk
          case isTrue hskips => exact ih (hstep w _ hw (.skip u v stack l hstack hrest hv hskips)) hwalk
          case isFalse hskips =>
            exact ih (hstep w _ hw (.push u v stack l hstack hrest hv hskips)) hwalk

/-- Where a traversal is: what is on its stack, and what has been examined. -/
structure Underway (c : Visitor N S) (root : N) (w : Walk N S) : Prop where
  rest_suffix : ∀ u, w.rest u <:+ c.next u
  rest_new : ∀ u, u ∉ w.stack -> u ∉ w.explored -> w.rest u = c.next u
  rest_explored : ∀ u ∈ w.explored, w.rest u = []
  stack_explored : ∀ u ∈ w.stack, u ∉ w.explored
  nodup : w.stack.Nodup
  chain : w.stack.IsChain fun v u => v ∈ c.next u
  reached : ∀ u, u ∈ w.stack ∨ u ∈ w.explored -> ReflTransGen (fun u v => v ∈ c.next u) root u
  root_last : (w.stack = [] ∧ root ∈ w.explored) ∨ w.stack.getLast? = some root
  opened : ∀ u, u ∈ w.stack ∨ u ∈ w.explored -> u ∈ w.opened
  unopened : ∀ v, v ∉ w.opened -> ∀ u, (w.rest u).count v = (c.next u).count v

lemma underway_start : c.Underway root (c.start root s) where
  rest_suffix _ := suffix_refl _
  rest_new _ _ _ := rfl
  rest_explored _ h := absurd h not_mem_nil
  stack_explored _ _ := not_mem_nil
  nodup := nodup_singleton _
  chain := isChain_singleton _
  reached u hu := by
    obtain rfl : u = root := by simpa [start] using hu
    exact .refl
  root_last := .inr rfl
  opened u hu := by simpa [start] using hu
  unopened _ _ _ := rfl

lemma Underway.examine (hw : c.Underway root w) {stack : List N} (hstack : w.stack = u :: stack)
    (hrest : w.rest u = v :: l) : c.Underway root (c.examine w u v l) := by
  have hu : u ∈ w.stack := hstack ▸ mem_cons_self ..
  constructor
  case rest_suffix =>
    intro x
    by_cases hx : x = u
    · subst hx
      rw [rest_examine_self]
      exact (suffix_cons v l).trans (hrest ▸ hw.rest_suffix x)
    · rw [rest_examine_of_ne hx]
      exact hw.rest_suffix x
  case rest_new =>
    intro x hx hx'
    rw [stack_examine] at hx
    rw [explored_examine] at hx'
    have hne : x ≠ u := fun h => hx (h ▸ hu)
    rw [rest_examine_of_ne hne]
    exact hw.rest_new x hx hx'
  case rest_explored =>
    intro x hx
    rw [explored_examine] at hx
    have hne : x ≠ u := fun h => hw.stack_explored u hu (h ▸ hx)
    rw [rest_examine_of_ne hne]
    exact hw.rest_explored x hx
  case stack_explored =>
    rw [stack_examine, explored_examine]
    exact hw.stack_explored
  case nodup =>
    rw [stack_examine]
    exact hw.nodup
  case chain =>
    rw [stack_examine]
    exact hw.chain
  case reached =>
    rw [stack_examine, explored_examine]
    exact hw.reached
  case root_last =>
    rw [stack_examine, explored_examine]
    exact hw.root_last
  case opened =>
    intro x
    rw [stack_examine, explored_examine, mem_opened_examine]
    exact fun h => .inr (hw.opened x h)
  case unopened =>
    intro x hx y
    rw [mem_opened_examine, not_or] at hx
    have hcount := hw.unopened x hx.2 y
    by_cases hy : y = u
    · subst hy
      rw [hrest, count_cons_of_ne (Ne.symm hx.1)] at hcount
      rw [rest_examine_self]
      exact hcount
    · rw [rest_examine_of_ne hy]
      exact hcount

lemma Underway.root_bottom (hw : c.Underway root w) (hstack : w.stack ≠ []) :
    w.stack.getLast? = some root :=
  hw.root_last.resolve_left fun h => hstack h.1

lemma Underway.mem_next (hw : c.Underway root w) (hrest : w.rest u = v :: l) : v ∈ c.next u :=
  (hw.rest_suffix u).subset (hrest ▸ mem_cons_self ..)

lemma Underway.step (hw : c.Underway root w) (hstep : c.Step w w') : c.Underway root w' := by
  cases hstep with
  | skip u v stack l hstack hrest hv hskips => exact hw.examine hstack hrest
  | pop u stack hstack hrest =>
    have hmem : ∀ x, x ∈ w.stack ↔ x = u ∨ x ∈ stack := fun x => by rw [hstack, List.mem_cons]
    have hnodup := hw.nodup
    rw [hstack] at hnodup
    have hmoved : ∀ x, x ∈ stack ∨ x ∈ u :: w.explored -> x ∈ w.stack ∨ x ∈ w.explored := by
      rintro x (hx | hx)
      · exact .inl ((hmem x).mpr (.inr hx))
      · rcases mem_cons.mp hx with rfl | hx
        · exact .inl ((hmem x).mpr (.inl rfl))
        · exact .inr hx
    constructor
    case rest_suffix => exact hw.rest_suffix
    case rest_new =>
      intro x hx hx'
      obtain ⟨hne, hx'⟩ := not_or.mp (mt List.mem_cons.mpr hx')
      exact hw.rest_new x (fun h => ((hmem x).mp h).elim hne hx) hx'
    case rest_explored =>
      intro x hx
      rcases mem_cons.mp hx with rfl | hx
      · exact hrest
      · exact hw.rest_explored x hx
    case stack_explored =>
      intro x hx hx'
      rcases mem_cons.mp hx' with rfl | hx'
      · exact (nodup_cons.mp hnodup).1 hx
      · exact hw.stack_explored x ((hmem x).mpr (.inr hx)) hx'
    case nodup => exact (nodup_cons.mp hnodup).2
    case chain =>
      have hchain := hw.chain
      rw [hstack] at hchain
      exact hchain.tail
    case reached => exact fun x hx => hw.reached x (hmoved x hx)
    case root_last =>
      have h := hw.root_bottom (hstack ▸ cons_ne_nil u stack)
      rw [hstack] at h
      cases stack with
      | nil =>
        obtain rfl : u = root := by simpa using h
        exact .inl ⟨rfl, mem_cons_self ..⟩
      | cons x stack =>
        exact .inr h
    case opened => exact fun x hx => hw.opened x (hmoved x hx)
    case unopened => exact hw.unopened
  | push u v stack l hstack hrest hv hskips =>
    have hexamined := hw.examine hstack hrest
    have hu : u ∈ w.stack := hstack ▸ mem_cons_self ..
    have hv' : v ∉ w.explored := fun h => hskips (.inr h)
    have hedge := hw.mem_next hrest
    constructor
    case rest_suffix => exact hexamined.rest_suffix
    case rest_new =>
      intro x hx hx'
      refine hexamined.rest_new x ?_ hx'
      rw [stack_examine]
      exact fun h => hx (mem_cons_of_mem _ h)
    case rest_explored => exact hexamined.rest_explored
    case stack_explored =>
      intro x hx
      rw [explored_examine]
      rcases mem_cons.mp hx with rfl | hx
      · exact hv'
      · exact hw.stack_explored x hx
    case nodup => exact nodup_cons.mpr ⟨hv, hw.nodup⟩
    case chain =>
      have hchain := hw.chain
      rw [hstack] at hchain ⊢
      exact IsChain.cons_cons hedge hchain
    case reached =>
      rintro x (hx | hx)
      · rcases mem_cons.mp hx with rfl | hx
        · exact (hw.reached u (.inl hu)).tail hedge
        · exact hw.reached x (.inl hx)
      · exact hexamined.reached x (.inr hx)
    case root_last =>
      have h := hw.root_bottom (hstack ▸ cons_ne_nil u stack)
      rw [hstack] at h ⊢
      exact .inr h
    case opened =>
      rintro x (hx | hx)
      · refine (mem_opened_examine (u := u) (l := l)).mpr ?_
        exact (mem_cons.mp hx).imp id fun hx => hw.opened x (.inl hx)
      · exact hexamined.opened x (.inr hx)
    case unopened => exact hexamined.unopened

lemma Underway.not_closesCycle (hw : c.Underway root w)
    (hacyclic : ∀ x, ¬TransGen (fun u v => v ∈ c.next u) x x) : ¬ClosesCycle w := by
  rintro ⟨u, v, stack, l, hstack, hrest, hv⟩
  have hedge := hw.mem_next hrest
  have hchain := hw.chain
  rw [hstack] at hchain hv
  have hreach : ReflTransGen (fun u v => v ∈ c.next u) v u := by
    clear hstack hrest hedge
    induction stack generalizing u with
    | nil =>
      obtain rfl : v = u := by simpa using hv
      exact .refl
    | cons x stack ih =>
      rcases mem_cons.mp hv with rfl | hv
      · exact .refl
      · obtain ⟨hxu, hchain⟩ := isChain_cons_cons.mp hchain
        exact (ih x hv hchain).tail hxu
  exact hacyclic v (TransGen.tail' hreach hedge)

section Termination

variable [Fintype N]

def left (w : Walk N S) : Nat :=
  ∑ u, if u ∈ w.explored then 0 else (w.rest u).length + 1

def enough (c : Visitor N S) : Nat := (∑ u, ((c.next u).length + 1)) + 1

lemma left_step (hw : c.Underway root w) (hstep : c.Step w w') : left w' < left w := by
  have hexamine : ∀ {u v : N} {stack l : List N}, w.stack = u :: stack -> w.rest u = v :: l ->
      left (c.examine w u v l) < left w := by
    intro u v stack l hstack hrest
    have hu : u ∉ w.explored := hw.stack_explored u (hstack ▸ mem_cons_self ..)
    refine sum_lt_sum (fun x _ => ?_) ⟨u, mem_univ u, ?_⟩
    · rw [explored_examine]
      by_cases hx : x = u
      · subst hx
        rw [if_neg hu, if_neg hu, rest_examine_self, hrest, length_cons]
        omega
      · rw [rest_examine_of_ne hx]
    · rw [explored_examine, if_neg hu, if_neg hu, rest_examine_self, hrest, length_cons]
      omega
  cases hstep with
  | pop u stack hstack hrest =>
    have hu : u ∉ w.explored := hw.stack_explored u (hstack ▸ mem_cons_self ..)
    refine sum_lt_sum (fun x _ => ?_) ⟨u, mem_univ u, ?_⟩
    · by_cases hx : x ∈ w.explored
      · rw [if_pos hx, if_pos (mem_cons_of_mem _ hx)]
      · split
        · exact zero_le _
        · exact le_refl _
    · rw [if_neg hu, if_pos (List.mem_cons_self ..)]
      exact succ_pos _
  | skip u v stack l hstack hrest hv hskips
  | push u v stack l hstack hrest hv hskips => exact hexamine hstack hrest

lemma exists_walk (hw : c.Underway root w) {fuel : Nat} (hfuel : left w < fuel) :
    ∃ r, c.walk fuel w = some r := by
  induction fuel generalizing w with
  | zero => cases hfuel
  | succ fuel ih =>
    have hnext : ∀ w', c.Step w w' -> ∃ r, c.walk fuel w' = some r := fun w' hstep =>
      ih (hw.step hstep) (lt_of_lt_of_le (left_step hw hstep) (le_of_lt_succ hfuel))
    unfold walk
    split
    case h_1 => exact ⟨_, rfl⟩
    case h_2 u stack hstack =>
      split
      case h_1 hrest => exact hnext _ (.pop u stack hstack hrest)
      case h_2 v l hrest =>
        split
        case isTrue => exact ⟨_, rfl⟩
        case isFalse hv =>
          split
          case isTrue hskips => exact hnext _ (.skip u v stack l hstack hrest hv hskips)
          case isFalse hskips => exact hnext _ (.push u v stack l hstack hrest hv hskips)

lemma exists_walk_start (c : Visitor N S) (root : N) (s : S) :
    ∃ r, c.walk c.enough (c.start root s) = some r := by
  refine exists_walk (underway_start (s := s)) (lt_succ_of_le ?_)
  exact le_refl _

/-- A traversal of a graph without cycles ends with an empty stack, and an invariant of its steps
holds then. -/
lemma walk_acyclic (root : N) (s : S) (hacyclic : ∀ x, ¬TransGen (fun u v => v ∈ c.next u) x x)
    (hstart : I (c.start root s))
    (hstep : ∀ w w', c.Underway root w -> I w -> c.Step w w' -> I w') :
    ∃ w, c.walk c.enough (c.start root s) = some (false, w.state) ∧ c.Underway root w ∧ I w ∧
      w.stack = [] := by
  obtain ⟨⟨found, s'⟩, hwalk⟩ := exists_walk_start c root s
  obtain ⟨w, ⟨hw, hI⟩, rfl, ⟨rfl, hstack⟩ | ⟨-, hcycle⟩⟩ :=
    walk_rule (I := fun w => c.Underway root w ∧ I w)
      (fun w w' h hs => ⟨h.1.step hs, hstep w w' h.1 h.2 hs⟩) ⟨underway_start, hstart⟩ hwalk
  · exact ⟨w, hwalk, hw, hI, hstack⟩
  · exact absurd hcycle (hw.not_closesCycle hacyclic)

end Termination

def Follows (c : Visitor N S) (w : Walk N S) : Prop :=
  ∀ u, ∀ v ∈ c.next u, v ∈ w.rest u ∨ v ∈ w.stack ∨ v ∈ w.explored

omit [DecidableEq N] in
lemma follows_start : c.Follows (c.start root s) := fun _ _ hv => .inl hv

lemma Follows.step (hf : c.Follows w) (hedge : ∀ u v s, (c.onEdge u v s).1 = false)
    (hstep : c.Step w w') : c.Follows w' := by
  intro x y hy
  have h := hf x y hy
  cases hstep with
  | pop u stack hstack hrest =>
    refine h.imp id ?_
    rintro (h | h)
    · rw [hstack] at h
      rcases mem_cons.mp h with rfl | h
      · exact .inr (mem_cons_self ..)
      · exact .inl h
    · exact .inr (mem_cons_of_mem _ h)
  | skip u v stack l hstack hrest hv hskips =>
    have hexplored : v ∈ w.explored := hskips.resolve_left (by simp [hedge])
    rw [stack_examine, explored_examine]
    by_cases hx : x = u
    · subst hx
      rw [hrest] at h
      rw [rest_examine_self]
      rcases h with h | h
      · rcases mem_cons.mp h with rfl | h
        · exact .inr (.inr hexplored)
        · exact .inl h
      · exact .inr h
    · rw [rest_examine_of_ne hx]
      exact h
  | push u v stack l hstack hrest hv hskips =>
    rw [explored_examine, List.mem_cons]
    by_cases hx : x = u
    · subst hx
      rw [hrest] at h
      rw [rest_examine_self]
      rcases h with h | h | h
      · rcases mem_cons.mp h with rfl | h
        · exact .inr (.inl (.inl rfl))
        · exact .inl h
      · exact .inr (.inl (.inr h))
      · exact .inr (.inr h)
    · rw [rest_examine_of_ne hx]
      exact h.imp id (Or.imp .inr id)

/-- At its end such a traversal has explored what can be reached. -/
lemma Follows.mem_explored_iff (hf : c.Follows w) (hw : c.Underway root w)
    (hstack : w.stack = []) : u ∈ w.explored ↔ ReflTransGen (fun u v => v ∈ c.next u) root u := by
  refine ⟨fun h => hw.reached u (.inr h), fun h => ?_⟩
  induction h with
  | refl =>
    refine (hw.root_last.resolve_right ?_).2
    rw [hstack]
    exact nofun
  | tail _ hedge ih =>
    rcases hf _ _ hedge with h | h | h
    · rw [hw.rest_explored _ ih] at h
      cases h
    · rw [hstack] at h
      cases h
    · exact h

/-- A traversal that finds no cycle has not come back to where it started. -/
lemma Underway.not_back_step (hw : c.Underway root w)
    (hback : ∀ u, (w.rest u).count root = (c.next u).count root) (hstep : c.Step w w') :
    ∀ u, (w'.rest u).count root = (c.next u).count root := by
  have hexamine : ∀ {u v : N} {stack l : List N}, w.stack = u :: stack -> w.rest u = v :: l ->
      v ∉ w.stack -> ∀ x, ((c.examine w u v l).rest x).count root = (c.next x).count root := by
    intro u v stack l hstack hrest hv x
    have hroot : root ∈ w.stack := mem_of_getLast? (hw.root_bottom (hstack ▸ cons_ne_nil u stack))
    have hne : v ≠ root := fun h => hv (h ▸ hroot)
    by_cases hx : x = u
    · subst hx
      have := hback x
      rw [hrest, count_cons_of_ne hne] at this
      rw [rest_examine_self]
      exact this
    · rw [rest_examine_of_ne hx]
      exact hback x
  cases hstep with
  | pop u stack hstack hrest => exact hback
  | skip u v stack l hstack hrest hv hskips
  | push u v stack l hstack hrest hv hskips => exact hexamine hstack hrest hv

end Visitor

end DepthFirst
