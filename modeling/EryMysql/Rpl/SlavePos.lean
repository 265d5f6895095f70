import EryMysql.Rpl.GtidText
import EryMysql.Rpl.DomainOwner

/-!
# The slave position

The position of a slave in a domain is the GTID with the highest sub_id in the list of the
domain's element. `iterate` and `domain_to_gtid` look for it in two different loops, and
`record_gtid` in a third, which takes all the others out of the list, and some of them back
after an error. The newest element is in the list all the time.
-/

namespace Rpl.SlaveState

open KeyedList Mysys Function List Option Rpl.SlaveState.Element Machine

/-- The loop of `iterate` over the list of an element. -/
def iterateBest (best : ListElement) : List ListElement -> ListElement
  | [] => best
  | l :: list => iterateBest (if l.subId > best.subId then l else best) list

def Element.position (e : Element) : Option Gtid :=
  match e.list with
  | [] => none
  | l :: list =>
    let best := iterateBest l list
    some ⟨e.domainId, best.serverId, best.seqNo⟩

/-- The GTIDs `iterate` calls back for when there are no extra ones. -/
def iterate (sort : Bool) (st : State) : Option (List Gtid) :=
  let gtids := st.hash.filterMap Element.position
  if sort then myQsort rplGtidCmpCb 16 gtids else some gtids

def domainBest (best : ListElement) : List ListElement -> ListElement
  | [] => best
  | l :: list => domainBest (if best.subId > l.subId then best else l) list

def domainToGtid (st : State) (domainId : UInt32) : Option Gtid :=
  match st.find domainId with
  | none => none
  | some elem =>
    match elem.list with
    | [] => none
    | l :: list =>
      let best := domainBest l list
      some ⟨domainId, best.serverId, best.seqNo⟩

section Scans
variable {l m b : ListElement} {list : List ListElement}

def Highest (m : ListElement) (list : List ListElement) : Prop :=
  m ∈ list ∧ ∀ x ∈ list, x.subId ≤ m.subId

lemma highest_singleton (l : ListElement) : Highest l [l] :=
  ⟨mem_singleton.mpr rfl, fun _ hx => by rw [mem_singleton.mp hx]; exact UInt64.le_refl _⟩

lemma Highest.cons_of_le (hm : Highest m (b :: list)) (hle : l.subId ≤ b.subId) :
    Highest m (b :: l :: list) ∧ Highest m (l :: b :: list) := by
  have hlm := UInt64.le_trans hle (hm.2 b mem_cons_self)
  constructor
  · refine ⟨?_, ?_⟩
    · rcases mem_cons.mp hm.1 with h | h
      · exact h ▸ mem_cons_self
      · exact mem_cons_of_mem _ (mem_cons_of_mem _ h)
    · rintro x (_ | ⟨_, _ | ⟨_, hx⟩⟩)
      · exact hm.2 _ mem_cons_self
      · exact hlm
      · exact hm.2 x (mem_cons_of_mem _ hx)
  · refine ⟨mem_cons_of_mem _ hm.1, ?_⟩
    rintro x (_ | ⟨_, hx⟩)
    · exact hlm
    · exact hm.2 x hx

lemma iterateBest_highest (b : ListElement) (list : List ListElement) :
    Highest (iterateBest b list) (b :: list) := by
  induction list generalizing b with
  | nil => exact highest_singleton b
  | cons l list ih =>
    rw [iterateBest]
    split
    · rename_i hlt
      exact ((ih l).cons_of_le (UInt64.le_of_lt hlt)).2
    · rename_i hle
      exact ((ih b).cons_of_le (UInt64.not_lt.mp hle)).1

lemma domainBest_highest (b : ListElement) (list : List ListElement) :
    Highest (domainBest b list) (b :: list) := by
  induction list generalizing b with
  | nil => exact highest_singleton b
  | cons l list ih =>
    rw [domainBest]
    split
    · rename_i hlt
      exact ((ih b).cons_of_le (UInt64.le_of_lt hlt)).1
    · rename_i hle
      exact ((ih l).cons_of_le (UInt64.not_lt.mp hle)).2

/-- The loop invariant: `seen` is the part of the list up to `cur`, and `best` leads to its
highest element. -/
lemma bestPtr_highest (list seen : List ListElement) (best i : Nat)
    (hb : seen[best]? = some b) (hmax : ∀ x ∈ seen, x.subId ≤ b.subId) (hi : i + 1 = seen.length) :
    ∃ m, (seen ++ list)[bestPtr best b.subId i list]? = some m ∧
      ∀ x ∈ seen ++ list, x.subId ≤ m.subId := by
  induction list generalizing seen best i b with
  | nil => exact ⟨b, by simpa [bestPtr] using hb, by simpa using hmax⟩
  | cons l list ih =>
    have hlast : (seen ++ [l])[i + 1]? = some l := by
      rw [hi, getElem?_append_right (Nat.le_refl _), Nat.sub_self]
      rfl
    have hlen : i + 1 + 1 = (seen ++ [l]).length := by
      rw [length_append, length_singleton, hi]
    have hsplit : seen ++ l :: list = (seen ++ [l]) ++ list := by simp
    rw [bestPtr, hsplit]
    split
    · rename_i hlt
      refine ih (seen ++ [l]) (i + 1) (i + 1) hlast ?_ hlen
      intro x hx
      rcases mem_append.mp hx with hx | hx
      · exact UInt64.le_trans (hmax x hx) (UInt64.le_of_lt hlt)
      · rw [mem_singleton.mp hx]
        exact UInt64.le_refl _
    · rename_i hle
      refine ih (seen ++ [l]) best (i + 1) ?_ ?_ hlen
      · rw [List.getElem?_append_left (List.getElem?_eq_some_iff.mp hb).1]
        exact hb
      · intro x hx
        rcases mem_append.mp hx with hx | hx
        · exact hmax x hx
        · rw [mem_singleton.mp hx]
          exact UInt64.not_lt.mp hle

/-- What stays is the highest element, what goes are elements of the list. -/
lemma keepBest_spec (list : List ListElement) :
    (∀ l ∈ (keepBest list).1, l ∈ list) ∧ (∀ l ∈ (keepBest list).2, l ∈ list) ∧
      ∀ l ∈ list, ∃ m ∈ (keepBest list).1, l.subId ≤ m.subId := by
  cases list with
  | nil => exact ⟨nofun, nofun, nofun⟩
  | cons cur rest =>
    obtain ⟨m, hm, hmax⟩ := bestPtr_highest rest [cur] 0 0 (b := cur) rfl
      (highest_singleton cur).2 rfl
    rw [singleton_append] at hm hmax
    have hkeep : (keepBest (cur :: rest)).1 = [m] := by
      rw [keepBest]
      simp [hm]
    refine ⟨?_, fun l hl => mem_of_mem_eraseIdx hl, ?_⟩
    · rw [hkeep]
      intro l hl
      rw [mem_singleton.mp hl]
      exact mem_of_getElem? hm
    · rw [hkeep]
      exact fun l hl => ⟨m, mem_singleton.mpr rfl, hmax l hl⟩

end Scans

/-- The lists hold elements that were added to their domain, and nothing that was added is
newer than the list of its domain. -/
structure KeepsNewest (s : Sys) : Prop where
  listed : ∀ d, ∀ l ∈ (s.state.elem d).list, (d, l) ∈ s.added
  pruned : ∀ p ∈ s.pruning, ∀ l ∈ p.2, (p.1, l) ∈ s.added
  newest : ∀ d l, (d, l) ∈ s.added -> ∃ m ∈ (s.state.elem d).list, l.subId ≤ m.subId

section Steps
variable {s s' : Sys} {o : Option UInt64} {state : State} {d : UInt32} {e' : Element}

variable {groups : List GroupInfo} {applied : List Gtid}

lemma KeepsNewest.change (h : KeepsNewest s) {pruning : List (UInt32 × List ListElement)}
    (hstate : state.elem = Function.update s.state.elem d e')
    (hmem : ∀ l ∈ e'.list, (d, l) ∈ s.added)
    (hnew : ∀ l ∈ (s.state.elem d).list, ∃ m ∈ e'.list, l.subId ≤ m.subId)
    (hpruned : ∀ p ∈ pruning, ∀ l ∈ p.2, (p.1, l) ∈ s.added) :
    KeepsNewest { s with state, groups, pruning, applied } := by
  refine ⟨?_, hpruned, ?_⟩
  · intro d' l hl
    rw [hstate] at hl
    by_cases hd : d' = d
    · rw [hd, update_self] at hl
      rw [hd]
      exact hmem l hl
    · rw [update_of_ne hd] at hl
      exact h.listed d' l hl
  · intro d' l hl
    obtain ⟨m, hm, hle⟩ := h.newest d' l hl
    rw [hstate]
    by_cases hd : d' = d
    · rw [hd] at hm ⊢
      obtain ⟨m', hm', hle'⟩ := hnew m hm
      rw [update_self]
      exact ⟨m', hm', UInt64.le_trans hle hle'⟩
    · rw [update_of_ne hd]
      exact ⟨m, hm, hle⟩

lemma KeepsNewest.same (h : KeepsNewest s)
    (hlist : ∀ d, (state.elem d).list = (s.state.elem d).list) :
    KeepsNewest { s with state, groups, applied } := by
  refine ⟨?_, h.pruned, ?_⟩
  · intro d l hl
    rw [hlist] at hl
    exact h.listed d l hl
  · intro d l hl
    rw [hlist]
    exact h.newest d l hl

lemma list_update (hstate : state.elem = Function.update s.state.elem d e')
    (hlist : e'.list = (s.state.elem d).list) (d' : UInt32) :
    (state.elem d').list = (s.state.elem d').list := by
  rw [hstate]
  by_cases hd : d' = d
  · rw [hd, update_self, hlist]
  · rw [update_of_ne hd]

lemma KeepsNewest.add (h : KeepsNewest s) (l : ListElement)
    (hstate : state.elem = Function.update s.state.elem d (e'.add l))
    (hlist : e'.list = (s.state.elem d).list) :
    KeepsNewest { s with state, groups, applied, added := s.added ++ [(d, l)] } := by
  have hadd : (e'.add l).list = l :: (s.state.elem d).list := by rw [Element.add, hlist]
  refine ⟨?_, fun p hp x hx => mem_append_left _ (h.pruned p hp x hx), ?_⟩
  · intro d' x hx
    rw [hstate] at hx
    rw [mem_append, mem_singleton]
    by_cases hd : d' = d
    · rw [hd, update_self, hadd, mem_cons] at hx
      rw [hd]
      rcases hx with rfl | hx
      · exact Or.inr rfl
      · exact Or.inl (h.listed d x hx)
    · rw [update_of_ne hd] at hx
      exact Or.inl (h.listed d' x hx)
  · intro d' x hx
    rw [hstate]
    rcases mem_append.mp hx with hx | hx
    · obtain ⟨m, hm, hle⟩ := h.newest d' x hx
      refine ⟨m, ?_, hle⟩
      by_cases hd : d' = d
      · rw [hd, update_self, hadd]
        exact mem_cons_of_mem _ (hd ▸ hm)
      · rwa [update_of_ne hd]
    · cases mem_singleton.mp hx
      rw [update_self]
      exact ⟨l, mem_cons_self, UInt64.le_refl _⟩

lemma KeepsNewest.update (h : KeepsNewest s) {err : Bool} {gtid : Gtid} {subId : UInt64}
    (hstate : state.elem = Function.update s.state.elem gtid.domainId
      (if err then e' else e'.add ⟨subId, gtid.seqNo, gtid.serverId⟩))
    (hlist : e'.list = (s.state.elem gtid.domainId).list)
    {groups : List GroupInfo} {applied : List Gtid} :
    KeepsNewest { s with
      state, groups, applied, added := s.added ++ addedBy err gtid subId } := by
  cases err with
  | true =>
    simp only [addedBy, if_true, append_nil]
    exact h.same (list_update hstate hlist)
  | false => exact h.add _ hstate hlist

lemma effect_keepsNewest (h : KeepsNewest s) (he : Effect s o s') : KeepsNewest s' := by
  cases he with
  | idle => exact h
  | newGroup | updateLost => exact h.same fun _ => rfl
  | turn _ _ hstate => exact h.same fun d => by rw [hstate]
  | grant _ _ he _ hgrab hstate =>
    subst he
    refine h.same (list_update hstate ?_)
    rcases hgrab with ⟨-, rfl⟩ | ⟨-, rfl⟩
    · rfl
    · rfl
  | release _ hdrop hstate =>
    exact h.same (list_update hstate (dropOwner_frame hdrop).2.1)
  | update _ hdrop hstate =>
    exact h.update hstate ((dropOwner_frame hdrop).2.1.trans (reach_frame _ _).2.1)
  | updateNoGroup he' hstate =>
    subst he'
    exact h.update hstate (reach_frame _ _).2.1
  | @grabOld state d e he hstate =>
    subst he
    obtain ⟨hkept, hgone, hbest⟩ := keepBest_spec (s.state.elem d).list
    refine h.change hstate (fun l hl => h.listed d l (hkept l hl)) hbest ?_
    intro p hp l hl
    rcases mem_append.mp hp with hp | hp
    · exact h.pruned p hp l hl
    · cases mem_singleton.mp hp
      exact h.listed d l (hgone l hl)
  | @deleteOld state d j elist back e hj hback he hstate =>
    subst he
    have hrest : ∀ p ∈ s.pruning.eraseIdx j, ∀ l ∈ p.2, (p.1, l) ∈ s.added :=
      fun p hp => h.pruned p (mem_of_mem_eraseIdx hp)
    rcases hstate with rfl | hstate
    · exact ⟨h.listed, hrest, h.newest⟩
    · refine h.change hstate ?_ ?_ hrest
      · intro l hl
        rcases mem_append.mp hl with hl | hl
        · exact h.pruned _ (mem_of_getElem? hj) l (hback.subset (mem_reverse.mp hl))
        · exact h.listed d l hl
      · exact fun l hl => ⟨l, mem_append_right _ hl, UInt64.le_refl _⟩

end Steps

section Runs
variable {s s' : Sys} {o : Option UInt64} {ops : List Op}

lemma addedBy_subId (err : Bool) (gtid : Gtid) (subId : UInt64) :
    ((addedBy err gtid subId).map fun p => p.2.subId).Sublist [subId] := by
  cases err with
  | true => exact nil_sublist _
  | false => exact Sublist.refl _

lemma effect_added (he : Effect s o s') : ∃ new, s'.added = s.added ++ new ∧
      (new.map fun p => p.2.subId).Sublist o.toList := by
  cases he with
  | update _ _ _ ho | updateNoGroup _ _ ho =>
    subst ho
    exact ⟨_, rfl, addedBy_subId ..⟩
  | _ => exact ⟨[], (append_nil _).symm, nil_sublist _⟩

lemma run_added (h : run ops = some s) :
    (s.added.map fun p => p.2.subId).Sublist (ops.filterMap Op.subId?) := by
  refine run_induction
    (P := fun ops s => (s.added.map fun p => p.2.subId).Sublist (ops.filterMap Op.subId?))
    (Sublist.refl []) ?_ h
  intro ops s1 op s2 ih hs2
  obtain ⟨new, hnew, hsub⟩ := effect_added (step_effect hs2)
  rw [hnew, map_append, filterMap_append]
  exact ih.append hsub

lemma keepsNewest_init : KeepsNewest Sys.init := ⟨nofun, nofun, nofun⟩

lemma run_keepsNewest (h : run ops = some s) : KeepsNewest s :=
  run_induction (P := fun _ s => KeepsNewest s) keepsNewest_init
    (fun _ _ _ _ ih hs => effect_keepsNewest ih (step_effect hs)) h

end Runs

section Reports
variable {st : State} {d : UInt32} {e : Element}

lemma State.find_of_list_ne (h : (st.elem d).list ≠ []) : st.find d = some (st.elem d) := by
  cases hfind : st.find d with
  | none =>
    rw [State.elem, hfind] at h
    exact absurd rfl h
  | some e => rw [State.elem_of_find hfind]

lemma domainToGtid_highest (h : (st.elem d).list ≠ []) :
    ∃ m, Highest m (st.elem d).list ∧ domainToGtid st d = some ⟨d, m.serverId, m.seqNo⟩ := by
  obtain ⟨l, list, hlist⟩ := exists_cons_of_ne_nil h
  refine ⟨domainBest l list, hlist ▸ domainBest_highest l list, ?_⟩
  rw [domainToGtid, State.find_of_list_ne h]
  simp [hlist]

lemma Element.position_highest (h : e.list ≠ []) :
    ∃ m, Highest m e.list ∧ e.position = some ⟨e.domainId, m.serverId, m.seqNo⟩ := by
  obtain ⟨l, list, hlist⟩ := exists_cons_of_ne_nil h
  refine ⟨iterateBest l list, hlist ▸ iterateBest_highest l list, ?_⟩
  rw [position]
  simp [hlist]

lemma Element.domainId_position {g : Gtid} (h : e.position = some g) :
    g.domainId = e.domainId := by
  unfold position at h
  split at h
  · cases h
  · cases h
    rfl

lemma filterMap_position (hash : List Element) (d : UInt32) :
    (hash.filterMap position).filter (fun g => g.domainId = d) =
      (hash.filter fun e => e.domainId = d).filterMap position := by
  rw [filter_filterMap, filterMap_filter]
  apply filterMap_congr
  intro e _
  cases hpos : e.position with
  | none => simp
  | some g =>
    have hd := domainId_position hpos
    by_cases h : e.domainId = d
    iterate 2 simp [h, hd]

lemma State.length_le (st : State) : st.hash.length ≤ 2 ^ 32 := by
  have hinj : Injective UInt32.toFin := fun _ _ h => UInt32.toFin_inj.mp h
  have hcard := Nodup.length_le_card (st.unique.map hinj)
  rw [length_map, length_map, Fintype.card_fin] at hcard
  exact hcard

/-- `iterate` reports the position of a domain once, sorted or not. -/
lemma iterate_filter {g : Gtid} (hfind : st.find d = some e) (hpos : e.position = some g)
    (sort : Bool) :
    ∃ gtids, iterate sort st = some gtids ∧ gtids.filter (fun g => g.domainId = d) = [g] := by
  have hone : (st.hash.filterMap position).filter (fun g => g.domainId = d) = [g] := by
    rw [filterMap_position, st.unique.filter_key hfind, filterMap_cons_some hpos]
    rfl
  cases sort with
  | false => exact ⟨_, rfl, hone⟩
  | true =>
    have hlen : (st.hash.filterMap position).length ≤ 2 ^ 64 :=
      ((length_filterMap_le _ _).trans st.length_le).trans (by decide)
    obtain ⟨gtids, hsort, hperm⟩ := myQsort_perm rplGtidCmpCb
      (fun x => by simp [rplGtidCmpCb, domainCmp_self]) 16 hlen
    refine ⟨gtids, hsort, ?_⟩
    rw [← perm_singleton, ← hone]
    exact hperm.filter _

end Reports

/-- In every run whose updates have distinct sub_ids the position of a domain that was
updated is the GTID of the update with the highest sub_id. -/
theorem slavePos_newest (ops : List Op) (hdistinct : (ops.filterMap Op.subId?).Nodup) :
    ∃ s, run ops = some s ∧ ∀ d l₀, (d, l₀) ∈ s.added ->
      ∃ m, (d, m) ∈ s.added ∧ m ∈ (s.state.elem d).list ∧
        (∀ l, (d, l) ∈ s.added -> l ≠ m -> l.subId < m.subId) ∧
        domainToGtid s.state d = some ⟨d, m.serverId, m.seqNo⟩ ∧
        ∀ sort, ∃ gtids, iterate sort s.state = some gtids ∧
          gtids.filter (fun g => g.domainId = d) = [⟨d, m.serverId, m.seqNo⟩] := by
  obtain ⟨s, h, -⟩ := reachable ops
  refine ⟨s, h, fun d l₀ hl0 => ?_⟩
  have hk := run_keepsNewest h
  have hnodup := hdistinct.sublist (run_added h)
  have hinj : ∀ l l', (d, l) ∈ s.added -> (d, l') ∈ s.added -> l.subId = l'.subId -> l = l' :=
    fun l l' hl hl' heq => (Prod.mk.inj (inj_on_of_nodup_map hnodup hl hl' heq)).2
  have hne : (s.state.elem d).list ≠ [] := by
    obtain ⟨m, hm, -⟩ := hk.newest d l₀ hl0
    exact ne_nil_of_mem hm
  obtain ⟨m, hm, hreport⟩ := domainToGtid_highest hne
  obtain ⟨m', hm', hpos⟩ := position_highest hne
  have hadded := hk.listed d m hm.1
  obtain rfl : m' = m := hinj m' m (hk.listed d m' hm'.1) hadded
    (UInt64.le_antisymm (hm.2 m' hm'.1) (hm'.2 m hm.1))
  refine ⟨m', hadded, hm.1, ?_, hreport, ?_⟩
  · intro l hl hlm
    obtain ⟨x, hx, hle⟩ := hk.newest d l hl
    refine UInt64.lt_of_le_of_ne (UInt64.le_trans hle (hm.2 x hx)) ?_
    exact fun heq => hlm (hinj l m' hl hadded heq)
  · rw [s.state.domainId_elem] at hpos
    exact iterate_filter (State.find_of_list_ne hne) hpos

/-- Two updates of a domain, the older of which comes last. -/
theorem slavePos_newest_two_updates :
    let env : Env := ⟨true, .append⟩
    let ops : List Op := [.updateNoGroup env true ⟨0, 1, 8⟩ 2, .updateNoGroup env true ⟨0, 2, 7⟩ 1]
    ∃ s m, run ops = some s ∧ m ∈ (s.state.elem 0).list ∧
      domainToGtid s.state 0 = some ⟨0, m.serverId, m.seqNo⟩ := by
  intro env ops
  obtain ⟨s, hs, hpos⟩ := slavePos_newest ops (by decide)
  cases hs
  obtain ⟨m, -, hm, -, hreport, -⟩ := hpos 0 ⟨2, 8, 1⟩ mem_cons_self
  exact ⟨_, m, rfl, hm, hreport⟩

end Rpl.SlaveState
