import EryMysql.Sql.Roles
import Mathlib.Data.Fintype.EquivFin

/-!
# The propagation of role privileges

A role is to have its own privileges and those of all the roles that it was granted, directly or
not. When this has changed for one role, `propagate_role_grants` gives it to all the others. The
second traversal does not go on from a role whose privileges have not changed, and then does not
merge those that this role was granted to; they keep the privileges that they have, since what has
changed elsewhere is part of the unchanged role.
-/

namespace Sql

open DepthFirst Relation Function Finset Visitor Nat
open List hiding mem_cons sum_eq_zero_iff

variable {N : Type} {role : N} {others : N -> Bool}

namespace Acl

variable {s s' : Acl N} {r q u v x : N} {i : Nat}

def Granted (s : Acl N) (u v : N) : Prop := v ∈ s.roleGrants u

def Holds (s : Acl N) (r : N) (i : Nat) : Prop :=
  ∃ q, ReflTransGen s.Granted r q ∧ (s.initialRoleAccess q).getLsbD i = true

/-- The privileges of every role are those that it has by the grants. -/
def Consistent (s : Acl N) : Prop :=
  ∀ r, s.isRole r = true -> ∀ i, (s.access r).getLsbD i = true ↔ s.Holds r i

lemma holds_iff : s.Holds r i ↔
    (s.initialRoleAccess r).getLsbD i = true ∨ ∃ q ∈ s.roleGrants r, s.Holds q i := by
  constructor
  · rintro ⟨q, hpath, hq⟩
    rcases hpath.cases_head with rfl | ⟨t, hrt, htq⟩
    · exact .inl hq
    · exact .inr ⟨t, hrt, q, htq, hq⟩
  · rintro (h | ⟨t, hrt, q, htq, hq⟩)
    · exact ⟨r, .refl, h⟩
    · exact ⟨q, .head hrt htq, hq⟩

def Past (s : Acl N) (role u v : N) : Prop := u ≠ role ∧ s.Granted u v

/-- The privileges that do not come from one role. -/
def Aside (s : Acl N) (role r : N) (i : Nat) : Prop :=
  ∃ q, q ≠ role ∧ ReflTransGen (s.Past role) r q ∧ (s.initialRoleAccess q).getLsbD i = true

lemma holds_split (role : N) : s.Holds r i ↔
    s.Aside role r i ∨ (ReflTransGen (s.Past role) r role ∧ s.Holds role i) := by
  constructor
  · rintro ⟨q, hpath, hq⟩
    induction hpath using ReflTransGen.head_induction_on with
    | refl =>
      by_cases hrole : q = role
      · exact .inr ⟨hrole ▸ .refl, q, hrole ▸ .refl, hq⟩
      · exact .inl ⟨q, hrole, .refl, hq⟩
    | @head a b hstep hpath ih =>
      by_cases hrole : a = role
      · exact .inr ⟨hrole ▸ .refl, q, hrole ▸ .head hstep hpath, hq⟩
      · refine ih.imp ?_ ?_
        · rintro ⟨t, ht, hbt, hti⟩
          exact ⟨t, ht, .head ⟨hrole, hstep⟩ hbt, hti⟩
        · rintro ⟨hb, hrole'⟩
          exact ⟨.head ⟨hrole, hstep⟩ hb, hrole'⟩
  · rintro (⟨q, -, hpath, hq⟩ | ⟨hpath, q, hrole, hq⟩)
    · exact ⟨q, ReflTransGen.mono (fun _ _ h => h.2) _ _ hpath, hq⟩
    · exact ⟨q, (ReflTransGen.mono (fun _ _ h => h.2) _ _ hpath).trans hrole, hq⟩

/-- Two states that differ in what one role has and was granted. -/
structure AgreeOff (role : N) (s s' : Acl N) : Prop where
  initial : ∀ x, x ≠ role -> s'.initialRoleAccess x = s.initialRoleAccess x
  grants : ∀ x, x ≠ role -> s'.roleGrants x = s.roleGrants x

namespace AgreeOff

section
variable (h : AgreeOff role s s')
include h

lemma past_eq : s'.Past role = s.Past role := by
  funext u v
  refine propext (and_congr_right fun hu => ?_)
  rw [Granted, Granted, h.grants u hu]

lemma aside_iff : s'.Aside role r i ↔ s.Aside role r i := by
  unfold Aside
  rw [h.past_eq]
  refine exists_congr fun q => and_congr_right fun hq => ?_
  rw [h.initial q hq]

lemma holds_iff : s'.Holds r i ↔
    s.Aside role r i ∨ (ReflTransGen (s.Past role) r role ∧ s'.Holds role i) := by
  rw [holds_split role, h.aside_iff, h.past_eq]

lemma holds_of_independent (hr : ¬ReflTransGen (s.Past role) r role) :
    s'.Holds r i ↔ s.Holds r i := by
  rw [h.holds_iff, holds_split (s := s) (r := r) role]
  simp [hr]

/-- If the change does not show in a role that depends on the changed one, then neither does it in
a role to which this role was granted. -/
lemma holds_of_unchanged (hr : ReflTransGen (s.Past role) r q)
    (hq : ReflTransGen (s.Past role) q role) (hunchanged : ∀ i, s'.Holds q i ↔ s.Holds q i) :
    s'.Holds r i ↔ s.Holds r i := by
  have hpart : s.Aside role q i -> s.Aside role r i := by
    rintro ⟨t, ht, hqt, hti⟩
    exact ⟨t, ht, hr.trans hqt, hti⟩
  have hboth := hunchanged i
  rw [h.holds_iff, holds_split (s := s) (r := q) role] at hboth
  rw [h.holds_iff, holds_split (s := s) (r := r) role]
  have hr' := hr.trans hq
  simp only [hq, hr'] at hboth ⊢
  constructor
  · rintro (h' | h')
    · exact .inl h'
    · exact (hboth.mp (.inr h')).imp hpart id
  · rintro (h' | h')
    · exact .inl h'
    · exact (hboth.mpr (.inr h')).imp hpart id

end

end AgreeOff

lemma holds_congr (hinitial : s'.initialRoleAccess = s.initialRoleAccess)
    (hgrants : s'.roleGrants = s.roleGrants) : s'.Holds r i ↔ s.Holds r i := by
  unfold Holds
  have hgranted : s'.Granted = s.Granted := by
    funext u v
    rw [Granted, Granted, hgrants]
  rw [hgranted, hinitial]

lemma getLsbD_foldl_or (l : List N) (access : N -> BitVec 64) (b : BitVec 64) :
    (l.foldl (fun b r => b ||| access r) b).getLsbD i = true ↔
      b.getLsbD i = true ∨ ∃ r ∈ l, (access r).getLsbD i = true := by
  induction l generalizing b with
  | nil => simp
  | cons r l ih =>
    rw [foldl_cons, ih, BitVec.getLsbD_or, Bool.or_eq_true, exists_mem_cons_iff, or_assoc]

lemma getLsbD_mergedAccess : (s.mergedAccess v).getLsbD i = true ↔
    (s.initialRoleAccess v).getLsbD i = true ∨
      ∃ r ∈ s.roleGrants v, (s.access r).getLsbD i = true :=
  getLsbD_foldl_or ..

/-- Nothing but the privileges and the counters of roles is changed. -/
def Same (s s' : Acl N) : Prop :=
  s' = { s with counter := s'.counter, access := s'.access }

lemma Same.holds_iff (h : Same s s') : s'.Holds r i ↔ s.Holds r i := by
  rw [h]
  exact holds_congr rfl rfl

lemma Same.isRole_eq (h : Same s s') : s'.isRole = s.isRole := by rw [h]

lemma Same.trans {s'' : Acl N} (h : Same s s') (h' : Same s' s'') : Same s s'' := by
  unfold Same at h h' ⊢
  rw [h', h]

variable [DecidableEq N]

/-- The arrays of granted roles and of grantees belong together, and there are no cycles. -/
structure Linked (s : Acl N) : Prop where
  isRole_of_granted : ∀ u, ∀ v ∈ s.roleGrants u, s.isRole v = true
  count_eq : ∀ u v, (s.parentGrantee v).count u = (s.roleGrants u).count v
  acyclic : ∀ x, ¬TransGen s.Granted x x

lemma Linked.congr (hs : s.Linked) (hrole : s'.isRole = s.isRole)
    (hgrants : s'.roleGrants = s.roleGrants) (hparent : s'.parentGrantee = s.parentGrantee) :
    s'.Linked where
  isRole_of_granted := by
    rw [hgrants, hrole]
    exact hs.isRole_of_granted
  count_eq := by
    rw [hgrants, hparent]
    exact hs.count_eq
  acyclic := by
    have hgranted : s'.Granted = s.Granted := by
      funext u v
      rw [Granted, Granted, hgrants]
    rw [hgranted]
    exact hs.acyclic

lemma Same.linked (h : Same s s') (hs : s.Linked) : s'.Linked := by
  rw [h]
  exact hs.congr rfl rfl rfl

lemma Linked.mem_parentGrantee (hs : s.Linked) : u ∈ s.parentGrantee v ↔ v ∈ s.roleGrants u := by
  rw [← count_pos_iff, ← count_pos_iff, hs.count_eq]

/-- The first traversal of `propagate_role_grants`. -/
abbrev counts (s : Acl N) : Visitor N (Acl N) := s.up initRoleForMerging countSubgraphNodes

abbrev merges (s : Acl N) (others : N -> Bool) : Visitor N (Acl N) :=
  s.up (fun _ s => s) (mergeRolePrivileges others)

variable {onNode : N -> Acl N -> Acl N} {onEdge : N -> N -> Acl N -> Bool × Acl N}
  {l : List N}

lemma Linked.mem_next (hs : s.Linked) :
    v ∈ (s.up onNode onEdge).next u ↔ s.Granted v u ∧ s.isRole v = true := by
  rw [Granted, ← hs.mem_parentGrantee]
  exact mem_filter

lemma Linked.up_acyclic (hs : s.Linked) (x : N) :
    ¬TransGen (fun u v => v ∈ (s.up onNode onEdge).next u) x x := by
  intro hcycle
  refine hs.acyclic x (transGen_swap.mp ?_)
  exact TransGen.mono (fun u v h => (hs.mem_next.mp h).1) _ _ hcycle

def Depends (s : Acl N) (role v : N) : Prop :=
  ReflTransGen (fun u v => s.Granted v u ∧ s.isRole v = true) role v

lemma Linked.depends_iff (hs : s.Linked) :
    ReflTransGen (fun u v => v ∈ (s.up onNode onEdge).next u) role v ↔ s.Depends role v := by
  unfold Depends
  simp only [hs.mem_next]

lemma past_of_granted (h : ReflTransGen s.Granted v role) :
    ReflTransGen (s.Past role) v role := by
  classical
  induction h using ReflTransGen.head_induction_on with
  | refl => exact .refl
  | @head a b hstep _ ih =>
    by_cases ha : a = role
    · exact ha ▸ .refl
    · exact .head ⟨ha, hstep⟩ ih

lemma depends_of_past (hs : s.Linked) (hv : s.isRole v = true)
    (h : ReflTransGen (s.Past role) v role) : s.Depends role v := by
  induction h using ReflTransGen.head_induction_on with
  | refl => exact .refl
  | head hstep _ ih => exact (ih (hs.isRole_of_granted _ _ hstep.2)).tail ⟨hstep.2, hv⟩

lemma past_of_depends (h : s.Depends role v) : ReflTransGen (s.Past role) v role := by
  refine past_of_granted ?_
  induction h with
  | refl => exact .refl
  | tail _ hstep ih => exact .head hstep.1 ih

/-- How many grants there are from the roles that depend on a role to another one. -/
def Counted (s : Acl N) (F : Finset N) (counter : N -> Nat) : Prop :=
  ∀ v ∈ F, counter v = ∑ u ∈ F, ((s.parentGrantee u).filter s.isRole).count v

section Count

variable {w : Walk N (Acl N)}

lemma counter_examine (x : N) :
    (s.counts.examine w u v l).state.counter x =
      if x = v then (if v ∈ w.opened then w.state.counter v else 0) + 1 else w.state.counter x := by
  change update (meet _ w v).state.counter v _ x = _
  by_cases hx : x = v
  · subst hx
    rw [update_self, if_pos rfl]
    unfold meet
    split
    · rfl
    · exact congrArg (· + 1) (update_self ..)
  · rw [update_of_ne hx]
    unfold meet
    split
    · rfl
    · exact update_of_ne hx ..

variable [Fintype N]

/-- The edges that were examined, of the roles that were met. -/
structure Counting (s : Acl N) (w : Walk N (Acl N)) : Prop where
  follows : (s.up initRoleForMerging countSubgraphNodes).Follows w
  state : w.state = { s with counter := w.state.counter }
  count : ∀ v ∈ w.opened, w.state.counter v + ∑ u, (w.rest u).count v =
    ∑ u, ((s.parentGrantee u).filter s.isRole).count v

lemma counting_start :
    s.Counting (s.counts.start role s) where
  follows := follows_start
  state := rfl
  count v hv := by
    obtain rfl : v = role := by simpa [start] using hv
    have hzero : (s.counts.start v s).state.counter v = 0 :=
      update_self ..
    rw [hzero, zero_add]
    rfl

lemma Counting.examine (hc : s.Counting w)
    (hw : s.counts.Underway role w) (hrest : w.rest u = v :: l) :
    (s.counts.examine w u v l).state = { s with counter :=
      (s.counts.examine w u v l).state.counter } ∧
    ∀ x ∈ (s.counts.examine w u v l).opened,
      (s.counts.examine w u v l).state.counter x +
        ∑ y, ((s.counts.examine w u v l).rest y).count x =
      ∑ y, ((s.parentGrantee y).filter s.isRole).count x := by
  constructor
  · rw [state_examine]
    unfold meet
    split
    · rw [hc.state]
      rfl
    · rw [hc.state]
      rfl
  · intro x hx
    have hsum := sum_count_examine (c := s.counts)
      (mem_univ u) hrest x
    rw [counter_examine x]
    rcases mem_opened_examine.mp hx with rfl | hopened
    · rw [if_pos rfl] at hsum ⊢
      split
      case isTrue hopened =>
        have := hc.count x hopened
        omega
      case isFalse hopened =>
        have hall : ∑ y, (w.rest y).count x = ∑ y, ((s.parentGrantee y).filter s.isRole).count x :=
          sum_congr rfl fun y _ => hw.unopened x hopened y
        omega
    · by_cases hxv : x = v
      · subst hxv
        have := hc.count x hopened
        rw [if_pos rfl] at hsum ⊢
        rw [if_pos hopened]
        omega
      · have := hc.count x hopened
        rw [if_neg (Ne.symm hxv)] at hsum
        rw [if_neg hxv]
        omega

lemma exists_counted (hs : s.Linked) (role : N) : ∃ F counter,
    s.traverseRoleGraphUp role initRoleForMerging countSubgraphNodes =
      some (false, { s with counter := counter }) ∧
    (∀ v, v ∈ F ↔ s.Depends role v) ∧ s.Counted F counter := by
  obtain ⟨w, hwalk, hw, hc, hstack⟩ := walk_acyclic role s
    (c := s.counts) (I := s.Counting) hs.up_acyclic counting_start
    (by
      intro w w' hw hc hstep
      have hfollows := hc.follows.step (fun _ _ _ => rfl) hstep
      cases hstep with
      | pop u stack hstack hrest => exact ⟨hfollows, hc.state, hc.count⟩
      | skip u v stack l hstack hrest hv hskips =>
        exact ⟨hfollows, (hc.examine hw hrest).1, (hc.examine hw hrest).2⟩
      | push u v stack l hstack hrest hv hskips =>
        exact ⟨hfollows, (hc.examine hw hrest).1, (hc.examine hw hrest).2⟩)
  have hexplored : ∀ v, v ∈ w.explored ↔ s.Depends role v := fun v =>
    (hc.follows.mem_explored_iff hw hstack).trans hs.depends_iff
  refine ⟨univ.filter (· ∈ w.explored), w.state.counter, hc.state ▸ hwalk, ?_, ?_⟩
  · simpa using hexplored
  · intro v hv
    have hopened : v ∈ w.opened := hw.opened v (.inr (by simpa using hv))
    have hcount := hc.count v hopened
    rw [← sum_filter_add_sum_filter_not univ (· ∈ w.explored),
      ← sum_filter_add_sum_filter_not univ (· ∈ w.explored)
        (fun u => ((s.parentGrantee u).filter s.isRole).count v)] at hcount
    have hnone : ∑ u ∈ univ.filter (· ∈ w.explored), (w.rest u).count v = 0 := by
      refine sum_eq_zero fun u hu => ?_
      rw [hw.rest_explored u (by simpa using hu)]
      rfl
    have hall : ∑ u ∈ univ.filter (¬· ∈ w.explored), (w.rest u).count v =
        ∑ u ∈ univ.filter (¬· ∈ w.explored),
          ((s.parentGrantee u).filter s.isRole).count v := by
      refine sum_congr rfl fun u hu => ?_
      rw [hw.rest_new u (by simp [hstack]) (by simpa using hu)]
      rfl
    omega

end Count

/-- What the second traversal starts from: the privileges of the role itself are those that it is to
have, and those of the others are the ones from before the change. -/
structure Changed (role : N) (old s : Acl N) : Prop where
  linked : s.Linked
  agree : AgreeOff role old s
  own : ∀ i, (s.access role).getLsbD i = true ↔ s.Holds role i
  others : ∀ v, v ≠ role -> s.isRole v = true -> ∀ i, (s.access v).getLsbD i = true ↔ old.Holds v i

/-- The second traversal under way. A counter is zero for the roles that were merged. -/
structure Merging (role : N) (s : Acl N) (F : Finset N) (w : Walk N (Acl N)) : Prop where
  state : w.state = { s with counter := w.state.counter, access := w.state.access }
  counter : ∀ v ∈ F, w.state.counter v = ∑ u ∈ F, (w.rest u).count v
  outside : ∀ v, v ∉ F -> w.state.access v = s.access v
  root : w.state.access role = s.access role
  merged : ∀ v ∈ F, v ≠ role -> w.state.counter v = 0 ->
    ∀ i, (w.state.access v).getLsbD i = true ↔ s.Holds v i
  pending : ∀ v ∈ F, v ≠ role -> w.state.counter v ≠ 0 -> w.state.access v = s.access v

/-- Of the roles that were merged, the ones that are not followed have not changed. -/
structure Followed (role : N) (old s : Acl N) (F : Finset N) (w : Walk N (Acl N)) : Prop where
  visited : ∀ u, u ∈ w.stack ∨ u ∈ w.explored -> u = role ∨ w.state.counter u = 0
  unchanged : ∀ v ∈ F, v ≠ role -> w.state.counter v = 0 -> v ∉ w.stack -> v ∉ w.explored ->
    ∀ i, s.Holds v i ↔ old.Holds v i

section Merge

variable {old : Acl N} {F : Finset N} {w w' : Walk N (Acl N)}

lemma Linked.ne_of_depends (hs : s.Linked) (hu : s.Depends role u) (hvu : s.Granted v u) :
    v ≠ role := by
  rintro rfl
  have hpath : ReflTransGen s.Granted u v := ReflTransGen.mono (fun _ _ h => h.2) _ _ (past_of_depends hu)
  exact hs.acyclic v (TransGen.head' hvu hpath)

section
variable (hs : s.Linked) (hF : ∀ v, v ∈ F ↔ s.Depends role v) (hcounted : s.Counted F s.counter)
include hs hF hcounted

lemma Counted.counter_ne_zero (hv : v ∈ F) (hne : v ≠ role) : s.counter v ≠ 0 := by
  intro hzero
  rw [hcounted v hv, sum_eq_zero_iff] at hzero
  rcases ((hF v).mp hv).cases_tail with rfl | ⟨u, hu, hvu⟩
  · exact hne rfl
  · have hmem : v ∈ (s.parentGrantee u).filter s.isRole :=
      mem_filter.mpr ⟨hs.mem_parentGrantee.mpr hvu.1, hvu.2⟩
    exact (count_pos_iff.mpr hmem).ne' (hzero u ((hF u).mpr hu))

end

lemma state_examine_up :
    ((s.merges others).examine w u v l).state =
      (mergeRolePrivileges others u v w.state).2 := by
  rw [state_examine]
  unfold meet
  split <;> rfl

lemma skips_up : (s.merges others).skips w u v ↔
    (mergeRolePrivileges others u v w.state).1 = true ∨ v ∈ w.explored := by
  unfold skips meet
  split <;> rfl

/-- The edge that is examined next, in the part of the graph that depends on the role. -/
structure Edge (role : N) (s : Acl N) (F : Finset N) (w : Walk N (Acl N)) (u v : N) : Prop where
  mem : u ∈ F
  mem' : v ∈ F
  granted : s.Granted v u
  isRole : s.isRole v = true
  ne : v ≠ role
  pos : 0 < w.state.counter v

variable {stack l : List N} {t : Acl N}

lemma Merging.edge (hm : Merging role s F w) (hs : s.Linked) (hF : ∀ v, v ∈ F ↔ s.Depends role v)
    (hw : (s.merges others).Underway role w)
    (hstack : w.stack = u :: stack) (hrest : w.rest u = v :: l) : Edge role s F w u v := by
  have hu : s.Depends role u := hs.depends_iff.mp (hw.reached u (.inl (hstack ▸ mem_cons_self ..)))
  obtain ⟨hgranted, hrole⟩ := hs.mem_next.mp (hw.mem_next hrest)
  have hv : v ∈ F := (hF v).mpr (hu.tail ⟨hgranted, hrole⟩)
  refine ⟨(hF u).mpr hu, hv, hgranted, hrole, hs.ne_of_depends hu hgranted, ?_⟩
  rw [hm.counter v hv]
  refine sum_pos' (fun _ _ => zero_le _) ⟨u, (hF u).mpr hu, ?_⟩
  rw [hrest, count_cons_self]
  exact succ_pos _

lemma counter_mergeRolePrivileges (x : N) : (mergeRolePrivileges others u v t).2.counter x =
      if x = v then t.counter v - 1 else t.counter x := by
  have hcounter : (mergeRolePrivileges others u v t).2.counter =
      update t.counter v (t.counter v - 1) := by
    unfold mergeRolePrivileges
    simp only
    split <;> rfl
  rw [hcounter]
  by_cases hx : x = v
  · subst hx
    rw [update_self, if_pos rfl]
  · rw [update_of_ne hx, if_neg hx]

lemma access_mergeRolePrivileges (x : N) : (mergeRolePrivileges others u v t).2.access x =
      if x = v ∧ t.counter v - 1 = 0 then t.mergedAccess v else t.access x := by
  unfold mergeRolePrivileges
  simp only [update_self]
  by_cases hcounter : t.counter v - 1 = 0
  · simp only [hcounter, and_true]
    by_cases hx : x = v
    · subst hx
      rw [if_pos rfl]
      exact update_self ..
    · rw [if_neg hx]
      exact update_of_ne hx ..
  · simp only [hcounter, ne_eq, not_false_eq_true, if_true, and_false, if_false]

lemma state_mergeRolePrivileges
    (ht : t = { s with counter := t.counter, access := t.access }) :
    (mergeRolePrivileges others u v t).2 = { s with
      counter := (mergeRolePrivileges others u v t).2.counter
      access := (mergeRolePrivileges others u v t).2.access } := by
  rw [ht]
  unfold mergeRolePrivileges
  simp only
  split <;> rfl

section
variable (hm : Merging role s F w) (hf : Followed role old s F w) (hs : Changed role old s)
  (hF : ∀ v, v ∈ F ↔ s.Depends role v)
  (hw : (s.merges others).Underway role w)
  (hstack : w.stack = u :: stack) (hrest : w.rest u = v :: l)
include hm hf hs hF hw hstack hrest

/-- A role is merged when all the roles that it was granted have the privileges that they are to
have. -/
lemma Merging.mergedAccess (hlast : w.state.counter v - 1 = 0) (i : Nat) :
    (w.state.mergedAccess v).getLsbD i = true ↔ s.Holds v i := by
  have hedge := hm.edge hs.linked hF hw hstack hrest
  have hw' := hw.examine hstack hrest
  have hnone : ∀ r ∈ F, v ∉ ((s.merges others).examine w u v l).rest r := by
    have hsum := sum_count_examine (c := s.merges others)
      hedge.mem hrest v
    have hcounter := hm.counter v hedge.mem'
    rw [if_pos rfl] at hsum
    have hzero : ∑ y ∈ F,
        (((s.merges others).examine w u v l).rest y).count v = 0 := by
      omega
    intro r hr
    exact count_eq_zero.mp (sum_eq_zero_iff.mp hzero r hr)
  have hgrants : w.state.roleGrants = s.roleGrants := by rw [hm.state]
  have hinitial : w.state.initialRoleAccess = s.initialRoleAccess := by rw [hm.state]
  rw [getLsbD_mergedAccess, hgrants, hinitial, holds_iff]
  refine or_congr_right (exists_congr fun r => and_congr_right fun hr => ?_)
  have hrole := hs.linked.isRole_of_granted v r hr
  by_cases hself : r = role
  · subst hself
    rw [hm.root]
    exact hs.own i
  by_cases hmem : r ∈ F
  · refine hm.merged r hmem hself ?_ i
    by_contra hcounter
    have hnot : ∀ h : r ∈ w.stack ∨ r ∈ w.explored, False := fun h =>
      (hf.visited r h).elim hself hcounter
    refine hnone r hmem ?_
    rw [hw'.rest_new r (by simpa using fun h => hnot (.inl h))
      (by simpa using fun h => hnot (.inr h))]
    exact hs.linked.mem_next.mpr ⟨hr, hedge.isRole⟩
  · rw [hm.outside r hmem, hs.others r hself hrole i]
    refine (hs.agree.holds_of_independent fun hpath => hmem ((hF r).mpr ?_)).symm
    refine depends_of_past hs.linked hrole ?_
    rw [hs.agree.past_eq]
    exact hpath

lemma Merging.examine :
    Merging role s F ((s.merges others).examine w u v l) := by
  have hedge := hm.edge hs.linked hF hw hstack hrest
  constructor
  case state =>
    rw [state_examine_up]
    exact state_mergeRolePrivileges hm.state
  case counter =>
    intro x hx
    have hsum := sum_count_examine (c := s.merges others)
      hedge.mem hrest x
    have hcounter := hm.counter x hx
    rw [state_examine_up, counter_mergeRolePrivileges]
    by_cases hxv : x = v
    · subst hxv
      rw [if_pos rfl] at hsum ⊢
      omega
    · rw [if_neg (Ne.symm hxv)] at hsum
      rw [if_neg hxv]
      omega
  case outside =>
    intro x hx
    have hxv : x ≠ v := fun h => hx (h ▸ hedge.mem')
    rw [state_examine_up, access_mergeRolePrivileges, if_neg fun h => hxv h.1]
    exact hm.outside x hx
  case root =>
    rw [state_examine_up, access_mergeRolePrivileges, if_neg fun h => hedge.ne h.1.symm]
    exact hm.root
  case merged =>
    intro x hx hne hzero i
    rw [state_examine_up, counter_mergeRolePrivileges] at hzero
    rw [state_examine_up, access_mergeRolePrivileges]
    by_cases hxv : x = v
    · subst hxv
      rw [if_pos rfl] at hzero
      rw [if_pos ⟨rfl, hzero⟩]
      exact hm.mergedAccess hf hs hF hw hstack hrest hzero i
    · rw [if_neg hxv] at hzero
      rw [if_neg fun h => hxv h.1]
      exact hm.merged x hx hne hzero i
  case pending =>
    intro x hx hne hcounter
    rw [state_examine_up, counter_mergeRolePrivileges] at hcounter
    rw [state_examine_up, access_mergeRolePrivileges]
    by_cases hxv : x = v
    · subst hxv
      rw [if_pos rfl] at hcounter
      rw [if_neg fun h => hcounter h.2]
      exact hm.pending x hx hne (by omega)
    · rw [if_neg hxv] at hcounter
      rw [if_neg fun h => hxv h.1]
      exact hm.pending x hx hne hcounter

lemma Merging.unchanged_of_skips (hlast : w.state.counter v - 1 = 0)
    (hskips : (mergeRolePrivileges others u v w.state).1 = true) (i : Nat) :
    s.Holds v i ↔ old.Holds v i := by
  have hedge := hm.edge hs.linked hF hw hstack hrest
  have hsame : w.state.access v = w.state.mergedAccess v := by
    by_contra hne
    unfold mergeRolePrivileges at hskips
    simp only [update_self, hlast] at hskips
    have hchanged : (mergeRoleGlobalPrivileges { w.state with
        counter := update w.state.counter v 0 } v).1 = true := decide_eq_true hne
    rw [hchanged] at hskips
    cases hskips
  rw [← hm.mergedAccess hf hs hF hw hstack hrest hlast i, ← hsame,
    hm.pending v hedge.mem' hedge.ne hedge.pos.ne']
  exact hs.others v hedge.ne hedge.isRole i

end

lemma Followed.step (hf : Followed role old s F w) (hm : Merging role s F w)
    (hs : Changed role old s) (hF : ∀ v, v ∈ F ↔ s.Depends role v)
    (hw : (s.merges others).Underway role w)
    (hstep : (s.merges others).Step w w') :
    Followed role old s F w' := by
  cases hstep with
  | pop u stack hstack hrest =>
    have hmem : ∀ x, x ∈ w.stack ↔ x = u ∨ x ∈ stack := fun x => by rw [hstack, List.mem_cons]
    constructor
    case visited =>
      rintro x (hx | hx)
      · exact hf.visited x (.inl ((hmem x).mpr (.inr hx)))
      · rcases List.mem_cons.mp hx with rfl | hx
        · exact hf.visited x (.inl ((hmem x).mpr (.inl rfl)))
        · exact hf.visited x (.inr hx)
    case unchanged =>
      intro x hx hne hzero hx' hx''
      obtain ⟨hxu, hx''⟩ := not_or.mp (mt List.mem_cons.mpr hx'')
      exact hf.unchanged x hx hne hzero (fun h => ((hmem x).mp h).elim hxu hx') hx''
  | skip u v stack l hstack hrest hv hskips =>
    have hedge := hm.edge hs.linked hF hw hstack hrest
    have hunvisited : ¬(v ∈ w.stack ∨ v ∈ w.explored) := fun h =>
      (hf.visited v h).elim hedge.ne hedge.pos.ne'
    have hskips' := (skips_up.mp hskips).resolve_right fun h => hunvisited (.inr h)
    constructor
    case visited =>
      rw [stack_examine, explored_examine]
      intro x hx
      have hxv : x ≠ v := fun h => hunvisited (h ▸ hx)
      rw [state_examine_up, counter_mergeRolePrivileges, if_neg hxv]
      exact hf.visited x hx
    case unchanged =>
      rw [stack_examine, explored_examine]
      intro x hx hne hzero hx' hx'' i
      rw [state_examine_up, counter_mergeRolePrivileges] at hzero
      by_cases hxv : x = v
      · subst hxv
        rw [if_pos rfl] at hzero
        exact hm.unchanged_of_skips hf hs hF hw hstack hrest hzero hskips' i
      · rw [if_neg hxv] at hzero
        exact hf.unchanged x hx hne hzero hx' hx'' i
  | push u v stack l hstack hrest hv hskips =>
    have hedge := hm.edge hs.linked hF hw hstack hrest
    have hunvisited : ¬(v ∈ w.stack ∨ v ∈ w.explored) := fun h =>
      (hf.visited v h).elim hedge.ne hedge.pos.ne'
    have hlast : w.state.counter v - 1 = 0 := by
      by_contra hcounter
      refine hskips (skips_up.mpr (.inl ?_))
      unfold mergeRolePrivileges
      simp only [update_self, hcounter, ne_eq, not_false_eq_true, if_true]
    constructor
    case visited =>
      intro x hx
      rw [explored_examine, List.mem_cons, or_assoc] at hx
      rw [state_examine_up, counter_mergeRolePrivileges]
      rcases hx with rfl | hx
      · rw [if_pos rfl]
        exact .inr hlast
      · have hxv : x ≠ v := fun h => hunvisited (h ▸ hx)
        rw [if_neg hxv]
        exact hf.visited x hx
    case unchanged =>
      intro x hx hne hzero hx' hx''
      rw [explored_examine] at hx''
      obtain ⟨hxv, hx'⟩ := not_or.mp (mt List.mem_cons.mpr hx')
      rw [state_examine_up, counter_mergeRolePrivileges, if_neg hxv] at hzero
      exact hf.unchanged x hx hne hzero hx' hx''

lemma Linked.wellFounded [Finite N] (hs : s.Linked) :
    WellFounded fun u v => TransGen s.Granted v u := by
  have : Std.Irrefl fun u v => TransGen s.Granted v u := ⟨hs.acyclic⟩
  exact Finite.wellFounded_of_trans_of_irrefl _

section End
variable [Finite N] (hf : Followed role old s F w) (hm : Merging role s F w)
  (hs : Changed role old s) (hF : ∀ v, v ∈ F ↔ s.Depends role v)
  (hw : (s.merges others).Underway role w) (hstack : w.stack = [])
include hf hm hs hF hw hstack

/-- At the end, a role that was not merged was granted a role that was not followed. That role has
not changed, and then neither has this one. -/
lemma Followed.holds_of_pending (hv : v ∈ F) (hne : v ≠ role)
    (hcounter : w.state.counter v ≠ 0) : ∀ i, s.Holds v i ↔ old.Holds v i := by
  have hroot : role ∈ w.explored := by
    refine (hw.root_last.resolve_right ?_).2
    rw [hstack]
    exact nofun
  induction v using hs.linked.wellFounded.induction with
  | _ v ih =>
    rw [hm.counter v hv] at hcounter
    obtain ⟨u, hu, hcount⟩ := exists_ne_zero_of_sum_ne_zero hcounter
    have hrest := count_pos_iff.mp (pos_of_ne_zero hcount)
    obtain ⟨hgranted, -⟩ := hs.linked.mem_next.mp ((hw.rest_suffix u).subset hrest)
    have hunexplored : u ∉ w.explored := by
      intro h
      rw [hw.rest_explored u h] at hrest
      cases hrest
    have hune : u ≠ role := fun h => hunexplored (h ▸ hroot)
    have hunchanged : ∀ i, s.Holds u i ↔ old.Holds u i := by
      by_cases hzero : w.state.counter u = 0
      · exact hf.unchanged u hu hune hzero (hstack ▸ not_mem_nil) hunexplored
      · exact ih u (.single hgranted) hu hune hzero
    intro i
    have hpast : ReflTransGen (s.Past role) v u := .single ⟨hne, hgranted⟩
    have hpast' := past_of_depends ((hF u).mp hu)
    rw [hs.agree.past_eq] at hpast hpast'
    exact hs.agree.holds_of_unchanged hpast hpast' hunchanged

/-- When the second traversal has ended, every role has the privileges that it is to have. -/
lemma Followed.consistent (hv : s.isRole v = true) (i : Nat) :
    (w.state.access v).getLsbD i = true ↔ s.Holds v i := by
  by_cases hne : v = role
  · subst hne
    rw [hm.root]
    exact hs.own i
  by_cases hmem : v ∈ F
  · by_cases hcounter : w.state.counter v = 0
    · exact hm.merged v hmem hne hcounter i
    · rw [hm.pending v hmem hne hcounter, hs.others v hne hv i]
      exact (hf.holds_of_pending hm hs hF hw hstack hmem hne hcounter i).symm
  · rw [hm.outside v hmem, hs.others v hne hv i]
    refine (hs.agree.holds_of_independent fun hpath => hmem ((hF v).mpr ?_)).symm
    refine depends_of_past hs.linked hv ?_
    rw [hs.agree.past_eq]
    exact hpath

end End

end Merge

section Propagate

variable [Fintype N]

/-- `propagate_role_grants` leaves the role itself as it is, and brings every other role up to
date. -/
lemma propagateRoleGrants_spec (hs : s.Linked) (others : N -> Bool) (role : N) :
    ∃ s', s.propagateRoleGrants others role = some s' ∧ Same s s' ∧
      s'.access role = s.access role ∧ ∀ old, Changed role old s -> s'.Consistent := by
  obtain ⟨F, counter, hfirst, hF, hcounted⟩ := exists_counted hs role
  let t : Acl N := { s with counter := counter }
  have ht : t.Linked := hs.congr rfl rfl rfl
  have hFt := hF
  have hcountedt := hcounted
  obtain ⟨w, hwalk, -, ⟨hsame, hroot⟩, -⟩ := walk_acyclic role t
    (c := t.up (fun _ s => s) (mergeRolePrivileges others))
    (I := fun w => Same t w.state ∧ w.state.access role = t.access role) ht.up_acyclic
    ⟨rfl, rfl⟩ (by
      rintro w w' hw ⟨hsame, hroot⟩ hstep
      have hexamine : ∀ {u v : N} {stack l : List N}, w.stack = u :: stack -> w.rest u = v :: l ->
          Same t ((t.up (fun _ s => s) (mergeRolePrivileges others)).examine w u v l).state ∧
          ((t.up (fun _ s => s) (mergeRolePrivileges others)).examine w u v l).state.access role =
            t.access role := by
        intro u v stack l hstack hrest
        have hu : t.Depends role u :=
          ht.depends_iff.mp (hw.reached u (.inl (hstack ▸ mem_cons_self ..)))
        have hne := ht.ne_of_depends hu (ht.mem_next.mp (hw.mem_next hrest)).1
        rw [state_examine_up, access_mergeRolePrivileges, if_neg fun h => hne h.1.symm]
        exact ⟨state_mergeRolePrivileges hsame, hroot⟩
      cases hstep with
      | pop u stack hstack hrest => exact ⟨hsame, hroot⟩
      | skip u v stack l hstack hrest hv hskips => exact hexamine hstack hrest
      | push u v stack l hstack hrest hv hskips => exact hexamine hstack hrest)
  refine ⟨w.state, ?_, ?_, hroot, ?_⟩
  · unfold propagateRoleGrants
    rw [hfirst]
    change (t.traverseRoleGraphUp role (fun _ s => s) (mergeRolePrivileges others)).bind _ = _
    rw [traverseRoleGraphUp, hwalk]
    rfl
  · exact hsame
  · intro old hchanged
    have hchangedt : Changed role old t :=
      ⟨ht, ⟨hchanged.agree.initial, hchanged.agree.grants⟩, fun i =>
        (hchanged.own i).trans (holds_congr rfl rfl).symm, hchanged.others⟩
    have hcounter := fun {v} => hcountedt.counter_ne_zero (v := v) ht hFt
    obtain ⟨w', hwalk', hw', ⟨hm, hf⟩, hstack⟩ := walk_acyclic role t
      (c := t.up (fun _ s => s) (mergeRolePrivileges others))
      (I := fun w => Merging role t F w ∧ Followed role old t F w) ht.up_acyclic
      ⟨⟨rfl, hcountedt, fun _ _ => rfl, rfl, fun _ hv hne hzero => absurd hzero (hcounter hv hne),
        fun _ _ _ _ => rfl⟩, fun u hu => .inl (by simpa [start] using hu),
        fun v hv hne hzero => absurd hzero (hcounter hv hne)⟩ (by
        rintro w w' hw ⟨hm, hf⟩ hstep
        refine ⟨?_, hf.step hm hchangedt hFt hw hstep⟩
        cases hstep with
        | pop u stack hstack hrest =>
          exact { hm with }
        | skip u v stack l hstack hrest hv hskips =>
          exact hm.examine hf hchangedt hFt hw hstack hrest
        | push u v stack l hstack hrest hv hskips =>
          exact { hm.examine hf hchangedt hFt hw hstack hrest with })
    have hstate : w.state = w'.state := by
      rw [hwalk] at hwalk'
      exact congrArg Prod.snd (Option.some.inj hwalk')
    intro r hr i
    rw [hsame.isRole_eq] at hr
    rw [hsame.holds_iff, hstate]
    exact hf.consistent hm hchangedt hFt hw' hstack hr i

end Propagate

end Acl

end Sql
