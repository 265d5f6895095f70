import EryMysql.Sql.RolePropagation

/-!
# The privileges of roles

The statements about roles: after each of them a role has its own privileges and those of all the
roles that it was granted. The role whose privileges are set is not merged itself, and loses there
what it was granted.
-/

namespace Sql

open DepthFirst Relation Function List BitVec

variable {N : Type}

namespace Acl

section Statements

variable {s s' old : Acl N} {role grantee r q u v : N} {i : Nat} {others : N -> Bool}

lemma AgreeOff.holds_of_role (hagree : AgreeOff role old s)
    (hrole : ∀ i, s.Holds role i ↔ old.Holds role i) : s.Holds r i ↔ old.Holds r i := by
  by_cases hpath : ReflTransGen (old.Past role) r role
  · exact hagree.holds_of_unchanged hpath .refl hrole
  · exact hagree.holds_of_independent hpath

variable [DecidableEq N]

/-- The privileges of all roles are those from before the grants of one role were changed. -/
structure Regranted (role : N) (old s : Acl N) : Prop where
  linked : s.Linked
  agree : AgreeOff role old s
  isRole : s.isRole role = true
  access : ∀ v, s.isRole v = true -> ∀ i, (s.access v).getLsbD i = true ↔ old.Holds v i

lemma Linked.holds_of_granted (hs : s.Linked) (hagree : AgreeOff role old s)
    (hq : q ∈ s.roleGrants role) : s.Holds q i ↔ old.Holds q i := by
  refine hagree.holds_of_independent fun hpath => hs.acyclic role ?_
  rw [← hagree.past_eq] at hpath
  exact TransGen.head' hq (ReflTransGen.mono (fun _ _ h => h.2) _ _ hpath)

/-- Merging the role itself gives it the privileges that it is to have. -/
lemma Regranted.mergedAccess (hs : Regranted role old s) (i : Nat) :
    (s.mergedAccess role).getLsbD i = true ↔ s.Holds role i := by
  rw [getLsbD_mergedAccess, holds_iff]
  refine or_congr_right (exists_congr fun q => and_congr_right fun hq => ?_)
  rw [hs.access q (hs.linked.isRole_of_granted role q hq) i, hs.linked.holds_of_granted hs.agree hq]

lemma mergeOneRolePrivileges_eq (s : Acl N) : s.mergeOneRolePrivileges others role =
    (!(decide (s.access role ≠ s.mergedAccess role) || others role),
      { s with
        counter := update (update s.counter role 1) role 0
        access := update s.access role (s.mergedAccess role) }) := by
  unfold mergeOneRolePrivileges mergeRolePrivileges
  simp only [update_self]
  rfl

lemma granted_addRoleUserMapping :
    (s.addRoleUserMapping grantee role).Granted u v ↔ s.Granted u v ∨ (u = grantee ∧ v = role) := by
  unfold Granted addRoleUserMapping
  by_cases hu : u = grantee
  · subst hu
    simp
  · simp [hu]

lemma Linked.count_addRoleUserMapping (hs : s.Linked) (u v : N) :
    ((s.addRoleUserMapping grantee role).parentGrantee v).count u =
      ((s.addRoleUserMapping grantee role).roleGrants u).count v := by
  have hcount := hs.count_eq u v
  unfold addRoleUserMapping
  by_cases hu : u = grantee <;> by_cases hv : v = role
  · subst hu hv
    simpa using hcount
  · subst hu
    simpa [hv, Ne.symm hv] using hcount
  · subst hv
    simpa [hu, Ne.symm hu] using hcount
  · simpa [hu, hv] using hcount

lemma transGen_addRoleUserMapping (h : TransGen (s.addRoleUserMapping grantee role).Granted u v) :
    TransGen s.Granted u v ∨ (ReflTransGen (s.addRoleUserMapping grantee role).Granted u grantee ∧
        ReflTransGen (s.addRoleUserMapping grantee role).Granted role v) := by
  induction h with
  | single huv =>
    rcases granted_addRoleUserMapping.mp huv with huv | ⟨rfl, rfl⟩
    · exact .inl (.single huv)
    · exact .inr ⟨.refl, .refl⟩
  | tail hub hbv ih =>
    rcases ih with ih | ⟨hgrantee, hrole⟩
    · rcases granted_addRoleUserMapping.mp hbv with hbv' | ⟨rfl, rfl⟩
      · exact .inl (ih.tail hbv')
      · exact .inr ⟨hub.to_reflTransGen, .refl⟩
    · exact .inr ⟨hgrantee, hrole.tail hbv⟩

/-- The check for a cycle, after a role was added: if none is found then there is none. -/
lemma undo_addRoleUserMapping :
    (s.addRoleUserMapping grantee role).undoAddRoleUserMapping grantee role = s := by
  unfold undoAddRoleUserMapping addRoleUserMapping
  simp only [update_self, dropLast_concat, update_idem, update_eq_self]

lemma granted_of_removeRoleUserMapping (h : (s.removeRoleUserMapping grantee role).Granted u v) :
    s.Granted u v := by
  change v ∈ update s.roleGrants grantee _ u at h
  by_cases hu : u = grantee
  · subst hu
    rw [update_self] at h
    exact mem_of_mem_erase h
  · rw [update_of_ne hu] at h
    exact h

lemma Linked.removeRoleUserMapping (hs : s.Linked) :
    (s.removeRoleUserMapping grantee role).Linked where
  isRole_of_granted u v hv := hs.isRole_of_granted u v (granted_of_removeRoleUserMapping hv)
  count_eq u v := by
    have hcount := hs.count_eq u v
    unfold Acl.removeRoleUserMapping
    by_cases hu : u = grantee <;> by_cases hv : v = role
    · subst hu hv
      simpa using congrArg (· - 1) hcount
    · subst hu
      simpa [hv] using hcount
    · subst hv
      simpa [hu] using hcount
    · simpa [hu, hv] using hcount
  acyclic x hcycle :=
    hs.acyclic x (TransGen.mono (fun _ _ h => granted_of_removeRoleUserMapping h) _ _ hcycle)

/-- The privileges that are given to a role contain those of the roles that it was granted. -/
def Keeps (s : Acl N) : RoleOp N -> Prop
  | .update role privileges =>
    s.isRole role = true -> ∀ q ∈ s.roleGrants role, s.access q ||| privileges = privileges
  | .grant _ _ _ => True
  | .revoke _ _ _ => True

lemma or_eq_right_iff {a b : BitVec 64} :
    a ||| b = b ↔ ∀ i, a.getLsbD i = true -> b.getLsbD i = true := by
  constructor
  · intro h i ha
    rw [← h, getLsbD_or, ha, Bool.true_or]
  · intro h
    refine eq_of_getLsbD_eq fun i _ => ?_
    rw [getLsbD_or]
    cases ha : a.getLsbD i with
    | false => rfl
    | true => rw [h i ha, Bool.true_or]

lemma aclUpdateRole_spec {privileges : BitVec 64} (hs : s.Linked) (hc : s.Consistent)
    (hrole : s.isRole role = true) (hs' : Same (s.aclUpdateRole role privileges) s')
    (haccess : s'.access role = privileges)
    (hconsistent : ∀ old, Changed role old (s.aclUpdateRole role privileges) -> s'.Consistent) :
    s'.Consistent ↔ ∀ q ∈ s.roleGrants role, s.access q ||| privileges = privileges := by
  let updated := s.aclUpdateRole role privileges
  have hself : updated.initialRoleAccess role = privileges := update_self ..
  have hlinked : updated.Linked := hs.congr rfl rfl rfl
  have hagree : AgreeOff role s updated := ⟨fun _ hx => update_of_ne hx .., fun _ _ => rfl⟩
  have hgranted : ∀ q ∈ s.roleGrants role, ∀ i, updated.Holds q i ↔ (s.access q).getLsbD i = true := by
    intro q hq i
    rw [hc q (hs.isRole_of_granted role q hq) i]
    exact hlinked.holds_of_granted hagree hq
  constructor
  · intro h q hq
    refine or_eq_right_iff.mpr fun i hi => ?_
    have hisRole : s'.isRole role = true := by
      rw [hs'.isRole_eq]
      exact hrole
    rw [← haccess, h role hisRole i, hs'.holds_iff, holds_iff]
    exact .inr ⟨q, hq, (hgranted q hq i).mpr hi⟩
  · intro h
    refine hconsistent s ⟨hlinked, hagree, fun i => ?_, fun v hv hrole' i => ?_⟩
    · have haccess' : updated.access role = privileges := update_self ..
      rw [haccess', holds_iff, hself]
      refine ⟨.inl, ?_⟩
      rintro (hi | ⟨q, hq, hi⟩)
      · exact hi
      · exact or_eq_right_iff.mp (h q hq) i ((hgranted q hq i).mp hi)
    · have haccess' : updated.access v = s.access v := update_of_ne hv ..
      rw [haccess']
      exact hc v hrole' i

variable [Fintype N]

lemma Linked.addRoleUserMapping {t : Acl N} (hs : s.Linked) (hrole : s.isRole role = true)
    (hcheck : (s.addRoleUserMapping grantee role).traverseRoleGraphDown role = some (false, t)) :
    (s.addRoleUserMapping grantee role).Linked := by
  let added := s.addRoleUserMapping grantee role
  have hisRole : ∀ u, ∀ v ∈ added.roleGrants u, added.isRole v = true := by
    intro u v hv
    rcases granted_addRoleUserMapping.mp hv with hv | ⟨-, rfl⟩
    · exact hs.isRole_of_granted u v hv
    · exact hrole
  have hnext : ∀ u v, v ∈ added.down.next u ↔ added.Granted u v := fun u v =>
    mem_filter.trans (and_iff_left_of_imp (hisRole u v))
  obtain ⟨w, ⟨hw, hfollows, hback⟩, -, ⟨-, hstack⟩ | ⟨h, -⟩⟩ :=
    Visitor.walk_rule (I := fun w => added.down.Underway role w ∧ added.down.Follows w ∧
      ∀ u, (w.rest u).count role = (added.down.next u).count role)
      (fun w w' h hstep => ⟨h.1.step hstep, h.2.1.step (fun _ _ _ => rfl) hstep,
        h.1.not_back_step h.2.2 hstep⟩)
      ⟨Visitor.underway_start, Visitor.follows_start, fun _ => rfl⟩ hcheck
  case inr => cases h
  refine ⟨hisRole, hs.count_addRoleUserMapping, fun x hcycle => ?_⟩
  rcases transGen_addRoleUserMapping hcycle with hold | ⟨hx, hx'⟩
  · exact hs.acyclic x hold
  · have hreach : ReflTransGen (fun u v => v ∈ added.down.next u) role grantee := by
      simp only [hnext]
      exact hx'.trans hx
    have hexplored := (hfollows.mem_explored_iff hw hstack).mpr hreach
    have hcount := hback grantee
    rw [hw.rest_explored grantee hexplored] at hcount
    refine count_eq_zero.mp hcount.symm ((hnext _ _).mpr ?_)
    exact granted_addRoleUserMapping.mpr (.inr ⟨rfl, rfl⟩)

lemma mergeAndPropagate_spec (hs : s.Linked) (others : N -> Bool) (role : N) :
    ∃ s', s.mergeAndPropagate others role = some s' ∧ Same s s' ∧
      ∀ old, Regranted role old s -> s'.Consistent := by
  unfold mergeAndPropagate
  rw [mergeOneRolePrivileges_eq]
  simp only
  generalize ht : ({ s with
    counter := update (update s.counter role 1) role 0
    access := update s.access role (s.mergedAccess role) } : Acl N) = t
  have hsame : Same s t := by
    rw [← ht]
    rfl
  have hself : t.access role = s.mergedAccess role := by
    rw [← ht]
    exact update_self ..
  have hother : ∀ v, v ≠ role -> t.access v = s.access v := by
    intro v hv
    rw [← ht]
    exact update_of_ne hv ..
  split
  case isTrue hchanged =>
    obtain ⟨s', hprop, hsame', -, hconsistent⟩ :=
      propagateRoleGrants_spec (hsame.linked hs) others role
    refine ⟨s', hprop, hsame.trans hsame', fun old hold => hconsistent old ?_⟩
    refine ⟨hsame.linked hs, ?_, ?_, ?_⟩
    · rw [hsame]
      exact ⟨hold.agree.initial, hold.agree.grants⟩
    · intro i
      rw [hself, hsame.holds_iff]
      exact hold.mergedAccess i
    · intro v hv hrole i
      rw [hsame.isRole_eq] at hrole
      rw [hother v hv]
      exact hold.access v hrole i
  case isFalse hchanged =>
    refine ⟨t, rfl, hsame, fun old hold => ?_⟩
    have haccess : s.access role = s.mergedAccess role := by
      by_contra hne
      exact hchanged (by simp [hne])
    have hrole : ∀ i, s.Holds role i ↔ old.Holds role i := by
      intro i
      rw [← hold.mergedAccess i, ← haccess]
      exact hold.access role hold.isRole i
    intro v hv i
    rw [hsame.isRole_eq] at hv
    rw [hsame.holds_iff, hold.agree.holds_of_role hrole, ← hold.access v hv i]
    by_cases hne : v = role
    · rw [hne, hself, ← haccess]
    · rw [hother v hne]

/-- Every statement ends, and keeps the arrays of the graph. From a state in which every role has
the privileges that it is to have, it leads to such a state exactly if it does not take a role the
privileges that it was granted. -/
lemma apply_spec (hs : s.Linked) (op : RoleOp N) :
    ∃ s', s.apply op = some s' ∧ s'.Linked ∧ (s.Consistent -> (s'.Consistent ↔ s.Keeps op)) := by
  cases op with
  | update role privileges =>
    by_cases hrole : s.isRole role = true
    · have hupdated : (s.aclUpdateRole role privileges).Linked := hs.congr rfl rfl rfl
      obtain ⟨s', happly, hsame, haccess, hconsistent⟩ :=
        propagateRoleGrants_spec hupdated (fun _ => false) role
      refine ⟨s', ?_, hsame.linked (hs.congr rfl rfl rfl), fun hc => ?_⟩
      · rw [apply, if_pos hrole, happly]
      · rw [aclUpdateRole_spec hs hc hrole hsame ?_ hconsistent]
        · exact ⟨fun h _ => h, fun h => h hrole⟩
        · rw [haccess]
          exact update_self ..
    · refine ⟨s, ?_, hs, fun hc => iff_of_true hc fun h => absurd h hrole⟩
      rw [apply, if_neg hrole]
  | grant role grantee others =>
    by_cases hroles : s.isRole role = true ∧ s.isRole grantee = true
    · by_cases hmem : role ∈ s.roleGrants grantee
      · obtain ⟨s', happly, hsame, hconsistent⟩ := mergeAndPropagate_spec hs others grantee
        refine ⟨s', ?_, hsame.linked hs, fun hc => iff_of_true (hconsistent s ?_) trivial⟩
        · rw [apply, if_pos hroles, if_pos hmem, happly]
        · exact ⟨hs, ⟨fun _ _ => rfl, fun _ _ => rfl⟩, hroles.2, hc⟩
      · obtain ⟨⟨cycle, t⟩, hwalk⟩ := Visitor.exists_walk_start
          (s.addRoleUserMapping grantee role).down role (s.addRoleUserMapping grantee role)
        have hcheck : (s.addRoleUserMapping grantee role).traverseRoleGraphDown role =
          some (cycle, t) := hwalk
        cases cycle with
        | true =>
          refine ⟨s, ?_, hs, fun hc => iff_of_true hc trivial⟩
          rw [apply, if_pos hroles, if_neg hmem]
          dsimp only
          rw [hcheck]
          exact congrArg some undo_addRoleUserMapping
        | false =>
          have hadded := hs.addRoleUserMapping hroles.1 hcheck
          obtain ⟨s', happly, hsame, hconsistent⟩ := mergeAndPropagate_spec hadded others grantee
          refine ⟨s', ?_, hsame.linked hadded, fun hc => iff_of_true (hconsistent s ?_) trivial⟩
          · rw [apply, if_pos hroles, if_neg hmem]
            dsimp only
            rw [hcheck]
            exact happly
          · exact ⟨hadded, ⟨fun _ _ => rfl, fun _ hx => update_of_ne hx ..⟩, hroles.2, hc⟩
    · refine ⟨s, ?_, hs, fun hc => iff_of_true hc trivial⟩
      rw [apply, if_neg hroles]
  | revoke role grantee others =>
    by_cases hroles : s.isRole role = true ∧ s.isRole grantee = true ∧ role ∈ s.roleGrants grantee
    · have hremoved : (s.removeRoleUserMapping grantee role).Linked := hs.removeRoleUserMapping
      obtain ⟨s', happly, hsame, hconsistent⟩ := mergeAndPropagate_spec hremoved others grantee
      refine ⟨s', ?_, hsame.linked hremoved, fun hc => iff_of_true (hconsistent s ?_) trivial⟩
      · rw [apply, if_pos hroles]
        exact happly
      · exact ⟨hremoved, ⟨fun _ _ => rfl, fun _ hx => update_of_ne hx ..⟩, hroles.2.1, hc⟩
    · refine ⟨s, ?_, hs, fun hc => iff_of_true hc trivial⟩
      rw [apply, if_neg hroles]

/-- Each of some statements, in the state that it is executed in, does not take a role the
privileges that it was granted. -/
def KeepsAll (s : Acl N) : List (RoleOp N) -> Prop
  | [] => True
  | op :: ops => s.Keeps op ∧ ∀ s', s.apply op = some s' -> s'.KeepsAll ops

lemma history_cons {op : RoleOp N} {ops : List (RoleOp N)} {states : List (Acl N)}
    (happly : s.apply op = some s') (hhistory : s'.history ops = some states) :
    s.history (op :: ops) = some (s' :: states) := by
  rw [history, happly]
  change (s'.history ops).bind _ = _
  rw [hhistory]
  rfl

lemma Linked.exists_history (hs : s.Linked) (ops : List (RoleOp N)) :
    ∃ states, s.history ops = some states := by
  induction ops generalizing s with
  | nil => exact ⟨[], rfl⟩
  | cons op ops ih =>
    obtain ⟨s', happly, hlinked, -⟩ := apply_spec hs op
    obtain ⟨states, hhistory⟩ := ih hlinked
    exact ⟨s' :: states, history_cons happly hhistory⟩

end Statements

end Acl

variable [DecidableEq N] [Fintype N]

/-- After every statement of a sequence each role has its own privileges and those of all roles that
were granted to it, directly or not, exactly if no statement sets the privileges of a role to fewer
than those of the roles that it was granted. -/
theorem role_privileges_union {s : Acl N} (hs : s.Linked) (hc : s.Consistent)
    (ops : List (RoleOp N)) :
    ∃ states, s.history ops = some states ∧ ((∀ t ∈ states, t.Consistent) ↔ s.KeepsAll ops) := by
  induction ops generalizing s with
  | nil => exact ⟨[], rfl, iff_of_true (nofun) trivial⟩
  | cons op ops ih =>
    obtain ⟨s', happly, hlinked, hiff⟩ := Acl.apply_spec hs op
    have hnext : s.KeepsAll (op :: ops) ↔ s.Keeps op ∧ s'.KeepsAll ops := by
      rw [Acl.KeepsAll, happly]
      simp
    by_cases hkeeps : s.Keeps op
    · have hc' := (hiff hc).mpr hkeeps
      obtain ⟨states, hhistory, hstates⟩ := ih hlinked hc'
      refine ⟨s' :: states, Acl.history_cons happly hhistory, ?_⟩
      rw [hnext, forall_mem_cons, hstates]
      exact and_congr_left fun _ => iff_of_true hc' hkeeps
    · obtain ⟨states, hhistory⟩ := hlinked.exists_history ops
      refine ⟨s' :: states, Acl.history_cons happly hhistory, ?_⟩
      refine iff_of_false (fun h => hkeeps ((hiff hc).mp ?_)) fun h => hkeeps (hnext.mp h).1
      exact h s' (mem_cons_self ..)

/-- Two roles, of which the first one has a privilege and none was granted. -/
def freshRoles : Acl (Fin 2) where
  isRole _ := true
  access r := if r = 0 then 1 else 0
  initialRoleAccess r := if r = 0 then 1 else 0
  counter _ := 0
  roleGrants _ := []
  parentGrantee _ := []

/-- The first role is granted to the second one, which is then given another privilege. -/
def grantThenSet : List (RoleOp (Fin 2)) :=
  [.grant 0 1 fun _ => false, .update 1 2]

lemma freshRoles_linked : freshRoles.Linked where
  isRole_of_granted _ _ _ := rfl
  count_eq _ _ := rfl
  acyclic x h := by
    obtain ⟨y, hy, -⟩ := TransGen.head'_iff.mp h
    exact absurd hy not_mem_nil

lemma freshRoles_consistent : freshRoles.Consistent := by
  intro r _ i
  rw [Acl.holds_iff]
  exact (or_iff_left fun ⟨_, hq, _⟩ => absurd hq not_mem_nil).symm

/-- The first role is granted to the second one and is then given another privilege, which the second
one keeps when it is given one more. -/
def grantThenAdd : List (RoleOp (Fin 2)) :=
  [.grant 0 1 fun _ => false, .update 0 4, .update 1 6, .revoke 0 1 fun _ => false]

lemma grantThenAdd_keepsAll : freshRoles.KeepsAll grantThenAdd := by
  refine ⟨trivial, fun s1 h1 => ⟨fun _ q hq => ?_, fun s2 h2 => ⟨fun _ q hq => ?_, fun _ _ =>
    ⟨trivial, fun _ _ => trivial⟩⟩⟩⟩
  · have hgrants : (freshRoles.apply (.grant 0 1 fun _ => false)).map (fun s => s.roleGrants 0) =
        some [] := by decide +kernel
    rw [h1, Option.map_some, Option.some_inj] at hgrants
    rw [hgrants] at hq
    cases hq
  · have hgrants : ((freshRoles.apply (.grant 0 1 fun _ => false)).bind fun s =>
        s.apply (.update 0 4)).map (fun s => (s.roleGrants 1, s.access 0)) = some ([0], 4) := by
      decide +kernel
    rw [h1, Option.bind_some, h2, Option.map_some, Option.some_inj, Prod.mk.injEq] at hgrants
    rw [hgrants.1, mem_singleton] at hq
    rw [hq, hgrants.2]
    rfl

theorem role_privileges_union_grantThenAdd : ∃ states,
    freshRoles.history grantThenAdd = some states ∧ ∀ t ∈ states, t.Consistent := by
  obtain ⟨states, hhistory, hiff⟩ := role_privileges_union freshRoles_linked freshRoles_consistent
    grantThenAdd
  exact ⟨states, hhistory, hiff.mpr grantThenAdd_keepsAll⟩

/-- The second role has lost the privilege of the first one, which is still granted to it. -/
theorem grantThenSet_loses : freshRoles.Linked ∧ freshRoles.Consistent ∧
    ∃ states, freshRoles.history grantThenSet = some states ∧ ∃ t ∈ states, ¬t.Consistent := by
  refine ⟨freshRoles_linked, freshRoles_consistent,
    (freshRoles.history grantThenSet).get (by decide +kernel), (Option.some_get _).symm,
    ((freshRoles.history grantThenSet).get (by decide +kernel)).get ⟨1, by decide +kernel⟩,
    get_mem _ _, fun h => ?_⟩
  have hholds : Acl.Holds (((freshRoles.history grantThenSet).get (by decide +kernel)).get
      ⟨1, by decide +kernel⟩) 1 0 := ⟨0, .single (show _ ∈ _ by decide +kernel), by decide +kernel⟩
  exact absurd ((h 1 (by decide +kernel) 0).mpr hholds) (by decide +kernel)

end Sql
