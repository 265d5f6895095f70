import EryMysql.Rpl.SlaveState

/-!
# One owner for a domain

Under `--gtid-ignore-duplicates` several connections may receive the same GTIDs, and only
one of them at a time may work in a domain. The groups of the connection that owns the
domain are counted in its element; the flag that makes a group one of them is kept in the
group. Whatever the interleaving, the two agree.
-/

namespace Rpl.SlaveState

open KeyedList Function List Option Rpl.SlaveState.Element Machine

def owns (d : UInt32) (g : GroupInfo) : Bool :=
  g.duplicateState = .owner ∧ g.currentGtid.domainId = d

/-- The element of a domain agrees with the groups. -/
structure Element.Owned (e : Element) (groups : List GroupInfo) : Prop where
  count : e.ownerCount = groups.countP (owns e.domainId)
  null : e.ownerRli = none ↔ e.ownerCount = 0
  rli : ∀ g ∈ groups, owns e.domainId g -> e.ownerRli = some g.rli

def highest (s : Sys) (d : UInt32) : UInt64 := (s.state.elem d).highestSeqNo

section Groups
variable {groups : List GroupInfo} {i : Nat} {g g' : GroupInfo} {d : UInt32} {e e' : Element}

lemma countP_set_add {α : Type} (p : α -> Bool) {l : List α} {i : Nat} {a b : α}
    (hi : l[i]? = some a) : (l.set i b).countP p + (p a).toNat = l.countP p + (p b).toNat := by
  induction l generalizing i with
  | nil => simp at hi
  | cons x l ih =>
    cases i with
    | zero =>
      obtain rfl : x = a := by simpa using hi
      rw [set_cons_zero, countP_cons, countP_cons]
      cases p x <;> cases p b <;> simp
    | succ i =>
      have := ih (by simpa using hi)
      simp only [set_cons_succ, countP_cons]
      omega

lemma mem_set_cases {α : Type} {l : List α} {i : Nat} {a b : α} (h : a ∈ l.set i b) :
    a = b ∨ a ∈ l := by
  rcases mem_or_eq_of_mem_set h with h | h
  · exact .inr h
  · exact .inl h

section
variable (h : e.Owned groups)
include h

lemma Element.Owned.congr (hd : e'.domainId = e.domainId) (hr : e'.ownerRli = e.ownerRli)
    (hc : e'.ownerCount = e.ownerCount) : e'.Owned groups := by
  constructor
  · rw [hc, hd, h.count]
  · rw [hr, hc, h.null]
  · rw [hr, hd]
    exact h.rli

lemma Element.Owned.set (hi : groups[i]? = some g) (hg : owns e.domainId g = false)
    (hg' : owns e.domainId g' = false) : e.Owned (groups.set i g') := by
  have hcount := countP_set_add (owns e.domainId) (b := g') hi
  rw [hg, hg'] at hcount
  refine ⟨by rw [h.count]; exact hcount.symm, h.null, ?_⟩
  intro x hx hown
  rcases mem_set_cases hx with rfl | hx
  · rw [hg'] at hown
    cases hown
  · exact h.rli x hx hown

lemma Element.Owned.append (hg : owns e.domainId g = false) : e.Owned (groups ++ [g]) := by
  refine ⟨?_, h.null, ?_⟩
  · rw [countP_append, countP_singleton, hg, h.count]
    rfl
  · intro x hx hown
    rcases mem_append.mp hx with hx | hx
    · exact h.rli x hx hown
    · rw [mem_singleton.mp hx, hg] at hown
      cases hown

lemma Element.Owned.grab (hi : groups[i]? = some g) (hg : owns e.domainId g = false)
    (hg' : owns e.domainId g' = true) (hfree : e.ownerRli = none ∨ e.ownerRli = some g'.rli)
    (hd : e'.domainId = e.domainId) (hr : e'.ownerRli = some g'.rli)
    (hc : e'.ownerCount = e.ownerCount + 1) : e'.Owned (groups.set i g') := by
  have hcount := countP_set_add (owns e.domainId) (b := g') hi
  rw [hg, hg'] at hcount
  refine ⟨?_, ?_, ?_⟩
  · rw [hc, hd, h.count]
    exact hcount.symm
  · rw [hr, hc]
    simp
  · rw [hr, hd]
    intro x hx hown
    rcases mem_set_cases hx with rfl | hx
    · rfl
    · have hx := h.rli x hx hown
      rcases hfree with hfree | hfree
      · rw [hfree] at hx
        cases hx
      · rw [← hx, hfree]

/-- The assertions hold for a group of the system, and it is counted out. -/
lemma Element.Owned.dropOwner (hi : groups[i]? = some g)
    (hd : g.currentGtid.domainId = e.domainId) :
    ∃ e', e.dropOwner g = some e' ∧ e'.domainId = e.domainId ∧ e'.highestSeqNo = e.highestSeqNo ∧
      e'.Owned (groups.set i { g with duplicateState := .null }) := by
  unfold Element.dropOwner
  by_cases hg : g.duplicateState = .owner
  · have hown : owns e.domainId g = true := by simp [owns, hg, hd]
    have hrli := h.rli g (mem_of_getElem? hi) hown
    have hcount := countP_set_add (owns e.domainId) (b := { g with duplicateState := .null }) hi
    rw [hown, ← h.count] at hcount
    have hleft : (groups.set i { g with duplicateState := .null }).countP (owns e.domainId) =
        e.ownerCount - 1 := Nat.eq_sub_of_add_eq hcount
    have hpos : e.ownerCount ≠ 0 := fun h0 => by
      rw [h.null.mpr h0] at hrli
      cases hrli
    rw [if_pos hg, if_pos ⟨Nat.pos_of_ne_zero hpos, hrli⟩]
    refine ⟨_, rfl, rfl, rfl, hleft.symm, ?_, ?_⟩
    · split
      · simp_all
      · simp_all
    · intro x hx hxown
      have hsome := countP_pos_iff.mpr ⟨x, hx, hxown⟩
      have hne : e.ownerCount - 1 ≠ 0 := hleft ▸ Nat.ne_of_gt hsome
      rw [if_neg hne]
      rcases mem_set_cases hx with rfl | hx
      · cases hxown
      · exact h.rli x hx hxown
  · have hown : owns e.domainId g = false := by simp [owns, hg]
    rw [if_neg hg]
    exact ⟨e, rfl, rfl, rfl, h.set hi hown (by simp [owns])⟩

end

end Groups

def Owned (s : Sys) : Prop := ∀ d, (s.state.elem d).Owned s.groups

section Steps
variable {s s' : Sys} {o : Option UInt64} {state : State} {i : Nat} {g g' : GroupInfo}
  {e' : Element} {d : UInt32}

lemma owns_of_ne (h : g.currentGtid.domainId ≠ d) : owns d g = false := by
  simp [owns, h]

lemma owns_of_not_owner (h : g.duplicateState ≠ .owner) (d : UInt32) : owns d g = false := by
  simp [owns, h]

lemma Owned.set (h : Owned s) (hi : s.groups[i]? = some g) (hg' : g'.currentGtid = g.currentGtid)
    (hstate : state.elem = Function.update s.state.elem g.currentGtid.domainId e')
    (he' : e'.Owned (s.groups.set i g')) (d : UInt32) :
    (state.elem d).Owned (s.groups.set i g') := by
  rw [hstate]
  by_cases hd : d = g.currentGtid.domainId
  · rw [hd, update_self]
    exact he'
  · rw [update_of_ne hd]
    have hne : g.currentGtid.domainId ≠ (s.state.elem d).domainId := by
      rw [s.state.domainId_elem]
      exact Ne.symm hd
    exact (h d).set hi (owns_of_ne hne) (owns_of_ne (by rwa [hg']))

/-- An element may change in the fields that do not speak of owners. -/
lemma Owned.update (h : Owned s)
    (hstate : state.elem = Function.update s.state.elem d e')
    (hd : e'.domainId = (s.state.elem d).domainId) (hr : e'.ownerRli = (s.state.elem d).ownerRli)
    (hc : e'.ownerCount = (s.state.elem d).ownerCount) (d' : UInt32) :
    (state.elem d').Owned s.groups := by
  rw [hstate]
  by_cases hdd : d' = d
  · rw [hdd, update_self]
    exact (h d).congr hd hr hc
  · rw [update_of_ne hdd]
    exact h d'

lemma Owned.reach (h : Owned s) (d : UInt32) (seqNo : UInt64) :
    ((s.state.elem d).reach seqNo).Owned s.groups := by
  obtain ⟨hd, -, hr, hc⟩ := (s.state.elem d).reach_frame seqNo
  exact (h d).congr hd hr hc

lemma ite_add_frame (err : Bool) (e : Element) (l : ListElement) :
    (if err then e else e.add l).domainId = e.domainId ∧
      (if err then e else e.add l).highestSeqNo = e.highestSeqNo ∧
      (if err then e else e.add l).ownerRli = e.ownerRli ∧
      (if err then e else e.add l).ownerCount = e.ownerCount := by
  cases err with
  | true => exact ⟨rfl, rfl, rfl, rfl⟩
  | false => exact ⟨rfl, rfl, rfl, rfl⟩

lemma effect_owned (h : Owned s) (he : Effect s o s') : Owned s' := by
  cases he with
  | idle => exact h
  | newGroup => exact fun d => (h d).append (owns_of_not_owner (by simp) _)
  | turn hi hg hstate hg' =>
    intro d
    have hg'' := owns_of_not_owner hg (s.state.elem d).domainId
    rw [hstate]
    rcases hg' with rfl | rfl
    · exact (h d).set hi hg'' hg''
    · exact (h d).set hi hg'' (owns_of_not_owner (by simp) _)
  | @grant state i g e e' hi hg he hlow hgrab hstate =>
    subst he
    have hd := s.state.domainId_elem g.currentGtid.domainId
    have hfree := owns_of_not_owner hg (s.state.elem g.currentGtid.domainId).domainId
    have hown : owns (s.state.elem g.currentGtid.domainId).domainId
        { g with duplicateState := .owner } = true := by
      simp [owns, hd]
    refine h.set hi rfl hstate ?_
    rcases hgrab with ⟨hnull, rfl⟩ | ⟨hsame, rfl⟩
    · refine (h _).grab hi hfree hown (.inl hnull) rfl rfl ?_
      rw [((h _).null).mp hnull]
    · exact (h _).grab hi hfree hown (.inr hsame) rfl hsame rfl
  | @release state i g e' hi hdrop hstate =>
    obtain ⟨e'', hdrop', -, -, he''⟩ := (h _).dropOwner hi (s.state.domainId_elem _).symm
    cases hdrop.symm.trans hdrop'
    exact h.set hi rfl hstate he''
  | updateLost => exact h
  | @update state i g e' err subId hi hdrop hstate =>
    have hreach := h.reach g.currentGtid.domainId g.currentGtid.seqNo
    have hd : g.currentGtid.domainId = domainId (reach _ g.currentGtid.seqNo) :=
      ((s.state.elem g.currentGtid.domainId).reach_frame g.currentGtid.seqNo).1.trans
        (s.state.domainId_elem _) |>.symm
    obtain ⟨e'', hdrop', -, -, he''⟩ := hreach.dropOwner hi hd
    cases hdrop.symm.trans hdrop'
    obtain ⟨hd, -, hr, hc⟩ := ite_add_frame err e' ⟨subId, g.currentGtid.seqNo, g.currentGtid.serverId⟩
    exact h.set hi rfl hstate (he''.congr hd hr hc)
  | @updateNoGroup state gtid e' err subId he' hstate =>
    subst he'
    obtain ⟨hd, -, hr, hc⟩ := (s.state.elem gtid.domainId).reach_frame gtid.seqNo
    obtain ⟨hd', -, hr', hc'⟩ := ite_add_frame err ((s.state.elem gtid.domainId).reach gtid.seqNo)
      ⟨subId, gtid.seqNo, gtid.serverId⟩
    exact h.update hstate (hd'.trans hd) (hr'.trans hr) (hc'.trans hc)
  | grabOld he hstate =>
    subst he
    exact h.update hstate rfl rfl rfl
  | deleteOld hj hback he hstate =>
    subst he
    rcases hstate with rfl | hstate
    · exact h
    · exact h.update hstate rfl rfl rfl

/-- In a system whose elements agree with the groups no assertion fails. -/
lemma step_defined (h : Owned s) (op : Op) : ∃ s', step s op = some s' := by
  cases op with
  | newGroup => exact ⟨_, rfl⟩
  | checkDuplicateGtid env i killed =>
    rw [step]
    split
    · exact ⟨_, rfl⟩
    · split
      · exact ⟨_, rfl⟩
      · exact ⟨_, rfl⟩
  | releaseDomainOwner env i =>
    rw [step]
    split
    · exact ⟨_, rfl⟩
    · rename_i g hi
      obtain ⟨e', hdrop, -⟩ := (h _).dropOwner hi (s.state.domainId_elem _).symm
      obtain ⟨r, hr⟩ := releaseDomainOwner_defined env hdrop
      rw [hr]
      exact ⟨_, rfl⟩
  | update env alloc i subId =>
    rw [step]
    split
    · exact ⟨_, rfl⟩
    · rename_i g hi
      have hreach := h.reach g.currentGtid.domainId g.currentGtid.seqNo
      have hd := ((s.state.elem g.currentGtid.domainId).reach_frame g.currentGtid.seqNo).1.trans
        (s.state.domainId_elem _)
      obtain ⟨e', hdrop, -⟩ := hreach.dropOwner hi hd.symm
      obtain ⟨r, hr⟩ := update_defined env alloc s.state g.currentGtid subId (some g) hdrop
      simp only [hr]
      exact ⟨_, rfl⟩
  | updateNoGroup env alloc gtid subId =>
    obtain ⟨r, hr⟩ := update_defined env alloc s.state gtid subId none rfl
    rw [step, hr]
    exact ⟨_, rfl⟩
  | grabOld env d | deleteOld results j =>
    rw [step]
    split
    iterate 2 exact ⟨_, rfl⟩

lemma le_highest_update (hstate : state.elem = Function.update s.state.elem d e')
    (hle : (s.state.elem d).highestSeqNo ≤ e'.highestSeqNo) (d' : UInt32) :
    (s.state.elem d').highestSeqNo ≤ (state.elem d').highestSeqNo := by
  rw [hstate]
  by_cases hd : d' = d
  · rw [hd, update_self]
    exact hle
  · rw [update_of_ne hd]
    exact UInt64.le_refl _

lemma effect_highest (he : Effect s o s') : ∀ d, highest s d ≤ highest s' d := by
  cases he with
  | idle | newGroup | updateLost => exact fun _ => UInt64.le_refl _
  | turn _ _ hstate =>
    intro d
    unfold highest
    rw [hstate]
    exact UInt64.le_refl _
  | grant _ _ he _ hgrab hstate =>
    subst he
    refine le_highest_update hstate ?_
    rcases hgrab with ⟨-, rfl⟩ | ⟨-, rfl⟩
    iterate 2 exact UInt64.le_refl _
  | release _ hdrop hstate =>
    refine le_highest_update hstate ?_
    rw [(dropOwner_frame hdrop).2.2]
    exact UInt64.le_refl _
  | update _ hdrop hstate =>
    refine le_highest_update hstate ?_
    rw [(ite_add_frame _ _ _).2.1, (dropOwner_frame hdrop).2.2]
    exact (le_reach _ _).1
  | updateNoGroup he' hstate =>
    subst he'
    refine le_highest_update hstate ?_
    rw [(ite_add_frame _ _ _).2.1]
    exact (le_reach _ _).1
  | grabOld he hstate =>
    subst he
    exact le_highest_update hstate (UInt64.le_refl _)
  | deleteOld _ _ he hstate =>
    subst he
    rcases hstate with rfl | hstate
    · exact fun _ => UInt64.le_refl _
    · exact le_highest_update hstate (UInt64.le_refl _)

lemma getElem?_set_cases {α : Type} {l : List α} {i j : Nat} {a b : α}
    (h : (l.set i b)[j]? = some a) : (i = j ∧ a = b) ∨ l[j]? = some a := by
  rw [getElem?_set] at h
  split at h
  · rename_i hij
    split at h
    · cases h
      exact .inl ⟨hij, rfl⟩
    · cases h
  · exact .inr h

/-- Where the owners of the new state come from: they owned their domain before, or were
granted it in this step. -/
lemma effect_owner (he : Effect s o s') (hi : s'.groups[i]? = some g)
    (hg : g.duplicateState = .owner) :
    s.groups[i]? = some g ∨ ∃ g0, s.groups[i]? = some g0 ∧ g0.duplicateState ≠ .owner ∧
      g.currentGtid = g0.currentGtid ∧
      highest s g0.currentGtid.domainId < g0.currentGtid.seqNo := by
  cases he with
  | idle | updateLost | updateNoGroup | grabOld | deleteOld => exact .inl hi
  | newGroup =>
    rw [getElem?_append] at hi
    split at hi
    · exact .inl hi
    · cases mem_singleton.mp (mem_of_getElem? hi)
      cases hg
  | turn hj hg0 _ hg' =>
    rcases getElem?_set_cases hi with ⟨-, rfl⟩ | hi
    · rcases hg' with rfl | rfl
      · exact absurd hg hg0
      · cases hg
    · exact .inl hi
  | grant hj hg0 he hlow =>
    subst he
    rcases getElem?_set_cases hi with ⟨rfl, rfl⟩ | hi
    · exact .inr ⟨_, hj, hg0, rfl, hlow⟩
    · exact .inl hi
  | release | update =>
    rcases getElem?_set_cases hi with ⟨-, rfl⟩ | hi
    · cases hg
    · exact .inl hi

/-- A group without memory for the element of its domain does not own that domain. -/
lemma Owned.not_owner (h : Owned s) (hi : s.groups[i]? = some g)
    (hfind : s.state.find g.currentGtid.domainId = none) : g.duplicateState ≠ .owner := by
  intro hg
  have hnew : s.state.elem g.currentGtid.domainId = new g.currentGtid.domainId := by
    rw [State.elem, hfind, getD_none]
  have hown := h g.currentGtid.domainId
  rw [hnew] at hown
  have hrli := hown.rli g (mem_of_getElem? hi) (by simp [owns, hg, new])
  cases hrli

/-- What a step adds to the applied GTIDs: the GTID of an owner, which the step reaches. -/
lemma effect_applied (h : Owned s) (he : Effect s o s') : s'.applied = s.applied ∨
    ∃ i g, s.groups[i]? = some g ∧ g.duplicateState = .owner ∧
      s'.applied = s.applied ++ [g.currentGtid] ∧
      s'.groups = s.groups.set i { g with duplicateState := .null } ∧
      g.currentGtid.seqNo ≤ highest s' g.currentGtid.domainId := by
  cases he with
  | @updateLost i g hi hfind => exact .inl (if_neg (h.not_owner hi hfind))
  | @update state i g e' err subId hi hdrop hstate =>
    by_cases hg : g.duplicateState = .owner
    · refine .inr ⟨i, g, hi, hg, if_pos hg, rfl, ?_⟩
      show g.currentGtid.seqNo ≤ (state.elem g.currentGtid.domainId).highestSeqNo
      rw [hstate, update_self, (ite_add_frame _ _ _).2.1, (dropOwner_frame hdrop).2.2]
      exact (le_reach _ _).2
    · exact .inl (if_neg hg)
  | _ => exact .inl rfl

end Steps

/-- The sequence number of a GTID in its domain. -/
def seqKey (g : Gtid) : UInt32 × UInt64 := (g.domainId, g.seqNo)

/-- No two groups own a domain for the same sequence number. -/
def DistinctOwners (groups : List GroupInfo) : Prop :=
  ∀ (i j : Nat) (g g' : GroupInfo), groups[i]? = some g -> groups[j]? = some g' ->
    g.duplicateState = .owner -> g'.duplicateState = .owner ->
    seqKey g.currentGtid = seqKey g'.currentGtid -> i = j

def Reached (s : Sys) : Prop := ∀ x ∈ s.applied, x.seqNo ≤ highest s x.domainId

/-- No sequence number was applied twice, and no owner is about to apply one again. -/
structure Once (s : Sys) : Prop where
  ahead : ∀ (i : Nat) (g : GroupInfo), s.groups[i]? = some g -> g.duplicateState = .owner ->
    seqKey g.currentGtid ∉ s.applied.map seqKey
  once : (s.applied.map seqKey).Nodup

section Runs
variable {s s' : Sys} {o : Option UInt64} {ops : List Op}

lemma effect_reached (h : Owned s) (hr : Reached s) (he : Effect s o s') : Reached s' := by
  have hold : ∀ x ∈ s.applied, x.seqNo ≤ highest s' x.domainId := fun x hx =>
    UInt64.le_trans (hr x hx) (effect_highest he x.domainId)
  rcases effect_applied h he with happ | ⟨i, g, -, -, happ, -, hreach⟩
  · intro x hx
    exact hold x (happ ▸ hx)
  · intro x hx
    rw [happ, mem_append, mem_singleton] at hx
    rcases hx with hx | rfl
    · exact hold x hx
    · exact hreach

/-- A group that was just granted its domain is ahead of everything applied. -/
lemma Reached.ahead (hr : Reached s) {g : Gtid} (hlow : highest s g.domainId < g.seqNo) :
    seqKey g ∉ s.applied.map seqKey := by
  intro hmem
  obtain ⟨x, hx, hkey⟩ := mem_map.mp hmem
  obtain ⟨hd, hn⟩ := Prod.mk.inj hkey
  have hle := hr x hx
  rw [hd, hn] at hle
  exact absurd hlow (UInt64.not_lt.mpr hle)

lemma effect_once (h : Owned s) (hr : Reached s) (hd : DistinctOwners s.groups) (ho : Once s)
    (he : Effect s o s') : Once s' := by
  have hfresh : ∀ (i : Nat) (g : GroupInfo), s'.groups[i]? = some g ->
      g.duplicateState = .owner -> seqKey g.currentGtid ∉ s.applied.map seqKey := by
    intro i g hi hg
    rcases effect_owner he hi hg with hi | ⟨g0, hi, -, hgtid, hlow⟩
    · exact ho.ahead i g hi hg
    · rw [hgtid]
      exact hr.ahead hlow
  rcases effect_applied h he with happ | ⟨j, g1, hj, hg1, happ, hgroups, -⟩
  · exact ⟨by rwa [happ], by rw [happ]; exact ho.once⟩
  · rw [hgroups] at hfresh
    have hmap : s'.applied.map seqKey = s.applied.map seqKey ++ [seqKey g1.currentGtid] := by
      rw [happ, map_append, map_singleton]
    constructor
    · intro i g hi hg hmem
      rw [hgroups] at hi
      rw [hmap, mem_append, mem_singleton] at hmem
      rcases hmem with hmem | hkey
      · exact hfresh i g hi hg hmem
      · rcases getElem?_set_cases hi with ⟨-, rfl⟩ | hi'
        · cases hg
        · obtain rfl := hd i j g g1 hi' hj hg hg1 hkey
          rw [List.getElem?_set_self (List.getElem?_eq_some_iff.mp hj).1] at hi
          cases hi
          cases hg
    · rw [hmap]
      refine nodup_append.mpr ⟨ho.once, nodup_singleton _, ?_⟩
      rintro a ha b hb rfl
      exact ho.ahead j g1 hj hg1 (mem_singleton.mp hb ▸ ha)

lemma reachable (ops : List Op) : ∃ s, run ops = some s ∧ Owned s ∧ Reached s := by
  refine run_total ?_ ⟨fun d => ⟨rfl, iff_of_true rfl rfl, nofun⟩, nofun⟩ ops
  rintro s op ⟨ho, hr⟩
  obtain ⟨s', hs'⟩ := step_defined ho op
  have he := step_effect hs'
  exact ⟨s', hs', effect_owned ho he, effect_reached ho hr he⟩

lemma run_highest (h : Machine.run step s ops = some s') (d : UInt32) :
    highest s d ≤ highest s' d := by
  refine run_induction (P := fun _ s' => highest s d ≤ highest s' d)
    (UInt64.le_refl _) ?_ h
  intro ops s1 op s2 hle hs2
  exact UInt64.le_trans hle (effect_highest (step_effect hs2) d)

lemma run_once (h : run ops = some s)
    (hd : ∀ pre s1, pre <+: ops -> run pre = some s1 -> DistinctOwners s1.groups) : Once s := by
  revert hd
  refine run_induction
    (P := fun ops s => run ops = some s ∧
      ((∀ pre s1, pre <+: ops -> run pre = some s1 -> DistinctOwners s1.groups) -> Once s))
    ⟨rfl, fun _ => ⟨nofun, nodup_nil⟩⟩ ?_ h |>.2
  rintro ops s1 op s2 ⟨h1, ih⟩ hs2
  refine ⟨by rw [run, run_concat]; exact (bind_eq_some_iff.mpr ⟨s1, h1, hs2⟩), ?_⟩
  intro hd
  have hpre := prefix_append ops [op]
  obtain ⟨s1', h1', ho, hr⟩ := reachable ops
  cases h1.symm.trans h1'
  exact effect_once ho hr (hd ops s1 hpre h1)
    (ih fun pre s0 hp => hd pre s0 (hp.trans hpre)) (step_effect hs2)

end Runs

/-- For any interleaving of the calls: no assertion fails, the element of every domain
agrees with the groups, so that two owners belong to the same connection; the highest
sequence number never goes down; a group becomes an owner only for a sequence number above
it, in particular above everything applied so far. While no two groups own a domain for the
same sequence number, nothing is applied twice. -/
theorem domainOwner_exclusive (ops : List Op) :
    ∃ s, run ops = some s ∧
      (∀ d, (s.state.elem d).ownerCount = s.groups.countP (owns d) ∧
        ((s.state.elem d).ownerRli = none ↔ (s.state.elem d).ownerCount = 0) ∧
        ∀ g ∈ s.groups, owns d g -> (s.state.elem d).ownerRli = some g.rli) ∧
      (∀ d, ∀ g ∈ s.groups, ∀ g' ∈ s.groups, owns d g -> owns d g' -> g.rli = g'.rli) ∧
      (∀ ops' s', Machine.run step s ops' = some s' -> ∀ d, highest s d ≤ highest s' d) ∧
      (∀ op s', step s op = some s' -> ∀ (i : Nat) (g g' : GroupInfo), s.groups[i]? = some g ->
        g.duplicateState ≠ .owner -> s'.groups[i]? = some g' -> g'.duplicateState = .owner ->
        g'.currentGtid = g.currentGtid ∧
          highest s g.currentGtid.domainId < g.currentGtid.seqNo) ∧
      (∀ x ∈ s.applied, x.seqNo ≤ highest s x.domainId) ∧
      ((∀ pre s₁, pre <+: ops -> run pre = some s₁ -> DistinctOwners s₁.groups) ->
        (s.applied.map seqKey).Nodup) := by
  obtain ⟨s, hs, ho, hr⟩ := reachable ops
  have hdom := s.state.domainId_elem
  refine ⟨s, hs, ?_, ?_, fun ops' s' h d => run_highest h d, ?_, hr,
    fun hd => (run_once hs hd).once⟩
  · intro d
    obtain ⟨hcount, hnull, hrli⟩ := ho d
    rw [hdom] at hcount hrli
    exact ⟨hcount, hnull, hrli⟩
  · intro d g hg g' hg' hown hown'
    have hrli := (ho d).rli
    rw [hdom] at hrli
    exact some.inj ((hrli g hg hown).symm.trans (hrli g' hg' hown'))
  · intro op s' hstep i g g' hi hg hi' hg'
    rcases effect_owner (step_effect hstep) hi' hg' with h | ⟨g0, h, -, hgtid, hlow⟩
    · cases hi.symm.trans h
      exact absurd hg' hg
    · cases hi.symm.trans h
      exact ⟨hgtid, hlow⟩

/-- Two groups of one connection with the same GTID: both are granted the domain before
either has applied it, and the second applies it again. -/
theorem domainOwner_applies_twice :
    let env : Env := ⟨true, .append⟩
    let gtid : Gtid := ⟨0, 1, 5⟩
    ∃ s s', run [.newGroup 1 gtid, .newGroup 1 gtid, .checkDuplicateGtid env 0 false,
        .checkDuplicateGtid env 1 false, .update env true 0 1] = some s ∧
      highest s 0 = 5 ∧ s.applied = [gtid] ∧
      step s (.update env true 1 2) = some s' ∧ s'.applied = [gtid, gtid] :=
  ⟨_, _, rfl, rfl, rfl, rfl, rfl⟩

end Rpl.SlaveState
