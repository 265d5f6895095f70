import EryMysql.Maria.Trnman
import Mathlib.Data.List.TakeWhile

/-!
# The lists of transactions

A `TRN` is in one of the active and the committed list, in a list to be freed and in the pool, and
what is in the hash is in one of the first three. So a `TRN` that is used again is not found by the
`trid` that it had before.
-/

namespace Maria

open Function List Option

namespace State

variable {s : State} {a b c t i : Nat} {rest : List Nat} {commit : Bool}

def freed (s : State) : List Nat := s.purges.flatMap Purge.freeMe

def inUse (s : State) : List Nat := s.active ++ s.committed ++ s.freed

/-- The transaction has been put into the hash by its thread. -/
def Inserted (s : State) (a : Nat) : Prop :=
  s.place a ≠ .created ∧ s.place a ≠ .readable ∧ s.place a ≠ .initialised

structure Listed (s : State) : Prop where
  nodup : (s.inUse ++ s.pool).Nodup
  bound : ∀ a ∈ s.inUse ++ s.pool, a < s.allocated
  inUse_of_hash : ∀ a ∈ s.tridToTrn, a ∈ s.inUse
  committed_hash : ∀ a ∈ s.committed, a ∈ s.tridToTrn
  active_hash : ∀ a ∈ s.active, s.Inserted a ↔ a ∈ s.tridToTrn
  deleted : ∀ p ∈ s.purges, p.deleted = true -> ∀ t ∈ p.freeMe.head?, t ∉ s.tridToTrn

lemma mem_inUse : a ∈ s.inUse ↔ a ∈ s.active ∨ a ∈ s.committed ∨ a ∈ s.freed := by
  simp [inUse]

lemma flatMap_set {l : List Purge} {p q : Purge} (hp : l[i]? = some p) :
    ∃ l1 l2, l = l1 ++ p :: l2 ∧ l.set i q = l1 ++ q :: l2 := by
  induction l generalizing i with
  | nil => simp at hp
  | cons x l ih =>
    cases i with
    | zero =>
      obtain rfl : x = p := by simpa using hp
      exact ⟨[], l, rfl, rfl⟩
    | succ i =>
      obtain ⟨l1, l2, hl, hset⟩ := ih (by simpa using hp)
      refine ⟨x :: l1, l2, by rw [hl]; rfl, ?_⟩
      rw [set_cons_succ, hset]
      rfl

lemma freed_deleteTrn (hp : s.purges[i]? = some ⟨t :: rest, false⟩) :
    (s.deleteTrn i t rest).freed = s.freed := by
  obtain ⟨l1, l2, hl, hset⟩ := @flatMap_set i s.purges _ ⟨t :: rest, true⟩ hp
  simp only [freed, deleteTrn, hset]
  rw [hl]
  simp

lemma freed_freeTrn (hp : s.purges[i]? = some ⟨t :: rest, true⟩) :
    s.freed.Perm (t :: (s.freeTrn i t rest).freed) := by
  obtain ⟨l1, l2, hl, hset⟩ := @flatMap_set i s.purges _ ⟨rest, false⟩ hp
  simp only [freed, freeTrn, hset]
  rw [hl]
  simp only [flatMap_append]
  exact perm_middle

lemma mem_freed_of_purge (hp : s.purges[i]? = some ⟨t :: rest, false⟩) : t ∈ s.freed :=
  mem_flatMap.mpr ⟨_, mem_of_getElem? hp, mem_cons_self ..⟩

lemma filter_ne_perm {l : List Nat} (hnodup : l.Nodup) (ha : a ∈ l) :
    l.Perm (a :: l.filter (· ≠ a)) := by
  induction l with
  | nil => cases ha
  | cons x l ih =>
    obtain ⟨hx, hl⟩ := nodup_cons.mp hnodup
    by_cases heq : x = a
    · subst heq
      have hself : l.filter (· ≠ x) = l :=
        filter_eq_self.mpr fun y hy => decide_eq_true fun h => hx (h ▸ hy)
      simp only [filter_cons, ne_eq, not_true_eq_false, decide_false, Bool.false_eq_true, if_false]
      rw [hself]
    · have ha' : a ∈ l := (mem_cons.mp ha).resolve_left fun h => heq h.symm
      have hcons : (x :: l).filter (· ≠ a) = x :: l.filter (· ≠ a) :=
        filter_cons_of_pos (decide_eq_true heq)
      rw [hcons]
      exact ((ih hl ha').cons x).trans (Perm.swap ..)

/-- The transactions that are freed at the end of one, and the committed ones that stay. -/
def purged (s : State) (a : Nat) : List Nat :=
  if s.active.head? = some a then
    s.committed.takeWhile fun c => s.commitTrid c < s.purgeLimit (s.active.filter (· ≠ a))
  else []

def kept (s : State) (a : Nat) : List Nat :=
  if s.active.head? = some a then
    s.committed.dropWhile fun c => s.commitTrid c < s.purgeLimit (s.active.filter (· ≠ a))
  else s.committed

lemma purged_append_kept : s.purged a ++ s.kept a = s.committed := by
  unfold purged kept
  split
  · exact takeWhile_append_dropWhile
  · rfl

lemma mem_purged (hc : c ∈ s.purged a) :
    s.active.head? = some a ∧ s.commitTrid c < s.purgeLimit (s.active.filter (· ≠ a)) := by
  unfold purged at hc
  split at hc
  case isTrue hhead => exact ⟨hhead, by simpa using mem_takeWhile_imp hc⟩
  case isFalse => cases hc

lemma mem_committed_of_purged (hc : c ∈ s.purged a) : c ∈ s.committed := by
  rw [← @purged_append_kept s a]
  exact mem_append_left _ hc

def Keeps (s : State) (a : Nat) (commit : Bool) : Prop :=
  commit = true ∧ s.active.filter (· ≠ a) ≠ []

instance (commit : Bool) : Decidable (s.Keeps a commit) :=
  inferInstanceAs (Decidable (_ ∧ _))

lemma active_endTrn : (s.endTrn a commit).active = s.active.filter (· ≠ a) := rfl

lemma committed_endTrn :
    (s.endTrn a commit).committed = if s.Keeps a commit then s.kept a ++ [a] else s.kept a := rfl

lemma purges_endTrn : (s.endTrn a commit).purges = s.purges ++
      [⟨if s.Keeps a commit then s.purged a else a :: s.purged a, false⟩] := rfl

lemma freed_endTrn : (s.endTrn a commit).freed = s.freed ++
      if s.Keeps a commit then s.purged a else a :: s.purged a := by
  rw [freed, purges_endTrn]
  simp [freed]

/-- Ending a transaction moves it, and some of the committed ones. -/
lemma inUse_endTrn_perm (hnodup : s.active.Nodup) (ha : a ∈ s.active) :
    (s.endTrn a commit).inUse.Perm s.inUse := by
  have hactive := filter_ne_perm hnodup ha
  have hcommitted : (s.kept a ++ s.purged a).Perm s.committed := by
    rw [← @purged_append_kept s a]
    exact perm_append_comm
  rw [inUse, active_endTrn, committed_endTrn, freed_endTrn]
  generalize s.active.filter (· ≠ a) = active' at hactive ⊢
  have hgoal : (active' ++ s.kept a ++ (s.freed ++ a :: s.purged a)).Perm
      (s.active ++ s.committed ++ s.freed) := by
    refine Perm.trans ?_ ((hactive.append_right s.committed).append_right s.freed).symm
    refine Perm.trans ?_ (((hcommitted.append_left active').cons a).append_right s.freed)
    refine perm_iff_count.mpr fun x => ?_
    simp only [count_append, count_cons]
    omega
  split
  · refine Perm.trans ?_ hgoal
    refine perm_iff_count.mpr fun x => ?_
    simp only [count_append, count_cons, count_nil]
    omega
  · exact hgoal

end State

inductive Stepped (s : State) : State -> Prop
  | newTrn (hgenerator : s.globalTridGenerator < 0xffffffffffff) : Stepped s s.newTrn
  | setMinReadFrom (a : Nat) (ha : a ∈ s.active) (hplace : s.place a = .created) :
    Stepped s (s.setMinReadFrom a)
  | setCommitTrid (a : Nat) (ha : a ∈ s.active) (hplace : s.place a = .readable) :
    Stepped s (s.setCommitTrid a)
  | insertTrn (a : Nat) (ha : a ∈ s.active) (hplace : s.place a = .initialised) :
    Stepped s (s.insertTrn a)
  | search (a trid : Nat) (ha : a ∈ s.active) (hplace : (s.place a).isRunning = true) :
    Stepped s { s with place := update s.place a (s.canReadFromSearch a trid) }
  | load (a trid found : Nat) (ha : a ∈ s.active) (hplace : s.place a = .found trid found) :
    Stepped s { s with
      place := update s.place a (.answered trid (s.canReadFromLoad a found)) }
  | endTrn (a : Nat) (commit : Bool) (ha : a ∈ s.active)
    (hplace : (s.place a).isRunning = true ∨ (s.place a = .initialised ∧ commit = false)) :
    Stepped s (s.endTrn a commit)
  | delete (i t : Nat) (rest : List Nat) (hpurge : s.purges[i]? = some ⟨t :: rest, false⟩) :
    Stepped s (s.deleteTrn i t rest)
  | free (i t : Nat) (rest : List Nat) (hpurge : s.purges[i]? = some ⟨t :: rest, true⟩) :
    Stepped s (s.freeTrn i t rest)

lemma stepped_of_step {s s' : State} {action : Action} (hstep : step s action = some s') :
    Stepped s s' := by
  cases action with
  | newTrn =>
    simp only [step, ite_none_right_eq_some, some.injEq] at hstep
    obtain ⟨h, rfl⟩ := hstep
    exact .newTrn h
  | setMinReadFrom | setCommitTrid | insertTrn | search | endTrn =>
    simp only [step, ite_none_right_eq_some, some.injEq] at hstep
    obtain ⟨⟨ha, hp⟩, rfl⟩ := hstep
    constructor <;> assumption
  | load a =>
    simp only [step] at hstep
    split at hstep
    case h_1 trid found hp =>
      simp only [ite_none_right_eq_some, some.injEq] at hstep
      obtain ⟨ha, rfl⟩ := hstep
      exact .load a trid found ha hp
    case h_2 => cases hstep
  | delete | free =>
    simp only [step] at hstep
    split at hstep
    case h_1 t rest hp =>
      cases hstep
      constructor
      exact hp
    case h_2 => cases hstep

namespace State

variable {s s' : State}

lemma inserted_of_isRunning (hplace : (s.place a).isRunning = true) : s.Inserted a := by
  refine ⟨?_, ?_, ?_⟩ <;> intro h <;> rw [h] at hplace <;> cases hplace

lemma Listed.newAddress_fresh (hs : s.Listed) : s.newAddress ∉ s.inUse := by
  intro hmem
  unfold newAddress at hmem
  cases hpool : s.pool with
  | nil =>
    rw [hpool] at hmem
    exact Nat.lt_irrefl _ (hs.bound _ (mem_append_left _ hmem))
  | cons a pool =>
    rw [hpool] at hmem
    have hnodup := hs.nodup
    rw [hpool] at hnodup
    exact (nodup_append.mp hnodup).2.2 a hmem a (mem_cons_self ..) rfl

lemma inUse_newTrn_perm : s.newTrn.inUse.Perm (s.newAddress :: s.inUse) := by
  refine perm_iff_count.mpr fun x => ?_
  change (s.active ++ [s.newAddress] ++ s.committed ++ s.freed).count x = _
  simp only [inUse, count_append, count_cons, count_nil]
  omega

lemma mem_inUse_newTrn : b ∈ s.newTrn.inUse ↔ b = s.newAddress ∨ b ∈ s.inUse := by
  rw [inUse_newTrn_perm.mem_iff, mem_cons]

/-- Being put into the hash changes with the place of the thread only. -/
lemma inserted_congr (h : s'.place a = s.place a) : s'.Inserted a ↔ s.Inserted a := by
  unfold Inserted
  rw [h]

section
variable (hs : s.Listed)
include hs

lemma Listed.newTrn : s.newTrn.Listed where
  nodup := by
    refine ((inUse_newTrn_perm.append_right _).nodup_iff).mpr ?_
    cases hpool : s.pool with
    | nil =>
      have hnew := hs.newAddress_fresh
      have hnodup := hs.nodup
      rw [hpool, append_nil] at hnodup
      simpa [State.newTrn, hpool] using ⟨hnew, hnodup⟩
    | cons a pool =>
      have hnodup := hs.nodup
      rw [hpool] at hnodup
      have ha : s.newAddress = a := by simp [newAddress, hpool]
      rw [ha]
      have hperm : (a :: s.inUse ++ pool).Perm (s.inUse ++ a :: pool) := perm_middle.symm
      simpa [State.newTrn, hpool] using hperm.nodup_iff.mpr hnodup
  bound := by
    intro b hb
    have hle : s.allocated ≤ s.newTrn.allocated := by
      simp only [State.newTrn]
      split <;> omega
    rcases mem_append.mp hb with hb | hb
    · rcases mem_inUse_newTrn.mp hb with rfl | hb
      · cases hpool : s.pool with
        | nil => simp [newAddress, State.newTrn, hpool]
        | cons a pool =>
          have ha : s.newAddress = a := by simp [newAddress, hpool]
          have := hs.bound a (mem_append_right _ (hpool ▸ mem_cons_self ..))
          omega
      · have := hs.bound b (mem_append_left _ hb)
        omega
    · have := hs.bound b (mem_append_right _ (mem_of_mem_tail hb))
      omega
  inUse_of_hash b hb := mem_inUse_newTrn.mpr (.inr (hs.inUse_of_hash b hb))
  committed_hash := hs.committed_hash
  active_hash := by
    intro b hb
    rcases mem_append.mp hb with hb | hb
    · have hne : b ≠ s.newAddress := by
        rintro rfl
        exact hs.newAddress_fresh (mem_inUse.mpr (.inl hb))
      rw [inserted_congr (update_of_ne hne ..)]
      exact hs.active_hash b hb
    · obtain rfl := mem_singleton.mp hb
      refine ⟨fun h => absurd ?_ h.1, fun h => absurd (hs.inUse_of_hash _ h) hs.newAddress_fresh⟩
      exact update_self ..
  deleted := hs.deleted

lemma Listed.moved (ha : a ∈ s.active) {trn : Nat -> Trn} {p : Place}
    (hinserted : s.Inserted a ↔ p ≠ .created ∧ p ≠ .readable ∧ p ≠ .initialised) :
    Listed { s with trn := trn, place := update s.place a p } where
  nodup := hs.nodup
  bound := hs.bound
  inUse_of_hash := hs.inUse_of_hash
  committed_hash := hs.committed_hash
  active_hash := by
    intro b hb
    by_cases hne : b = a
    · subst hne
      rw [← hs.active_hash b hb, hinserted]
      simp [Inserted]
    · rw [inserted_congr (update_of_ne hne ..)]
      exact hs.active_hash b hb
  deleted := hs.deleted

lemma Listed.insertTrn (ha : a ∈ s.active) : (s.insertTrn a).Listed where
  nodup := hs.nodup
  bound := hs.bound
  inUse_of_hash := by
    intro b hb
    rcases mem_append.mp hb with hb | hb
    · exact hs.inUse_of_hash b hb
    · obtain rfl := mem_singleton.mp hb
      exact mem_inUse.mpr (.inl ha)
  committed_hash c hc := mem_append_left _ (hs.committed_hash c hc)
  active_hash := by
    intro b hb
    by_cases hne : b = a
    · subst hne
      simp [State.insertTrn, Inserted]
    · rw [inserted_congr (update_of_ne hne ..), hs.active_hash b hb]
      simp [State.insertTrn, hne]
  deleted := by
    intro p hp hdel t ht hmem
    rcases mem_append.mp hmem with hmem | hmem
    · exact hs.deleted p hp hdel t ht hmem
    · obtain rfl := mem_singleton.mp hmem
      have hfreed : t ∈ s.freed := mem_flatMap.mpr ⟨p, hp, mem_of_mem_head? ht⟩
      have hnodup := (nodup_append.mp hs.nodup).1
      exact (nodup_append.mp hnodup).2.2 t (mem_append_left _ ha) t hfreed rfl

lemma Listed.nodup_inUse : s.inUse.Nodup := (nodup_append.mp hs.nodup).1

lemma Listed.nodup_active : s.active.Nodup := (nodup_append.mp (nodup_append.mp hs.nodup_inUse).1).1

lemma Listed.active_ne_freed (ha : a ∈ s.active) : a ∉ s.freed := fun h =>
  (nodup_append.mp hs.nodup_inUse).2.2 a (mem_append_left _ ha) a h rfl

lemma Listed.committed_ne_freed (ha : a ∈ s.committed) : a ∉ s.freed := fun h =>
  (nodup_append.mp hs.nodup_inUse).2.2 a (mem_append_right _ ha) a h rfl

lemma Listed.endTrn (ha : a ∈ s.active)
    (hplace : (s.place a).isRunning = true ∨ (s.place a = .initialised ∧ commit = false)) :
    (s.endTrn a commit).Listed where
  nodup := (((inUse_endTrn_perm hs.nodup_active ha).append_right _).nodup_iff).mpr hs.nodup
  bound b hb := hs.bound b (((inUse_endTrn_perm hs.nodup_active ha).append_right _).mem_iff.mp hb)
  inUse_of_hash b hb := (inUse_endTrn_perm hs.nodup_active ha).mem_iff.mpr (hs.inUse_of_hash b hb)
  committed_hash := by
    have hkept : ∀ c ∈ s.kept a, c ∈ s.tridToTrn := by
      intro c hc
      refine hs.committed_hash c ?_
      rw [← @purged_append_kept s a]
      exact mem_append_right _ hc
    intro c hc
    rw [committed_endTrn] at hc
    split at hc
    case isTrue hkeep =>
      rcases mem_append.mp hc with hc | hc
      · exact hkept c hc
      · obtain rfl := mem_singleton.mp hc
        refine (hs.active_hash c ha).mp ?_
        rcases hplace with h | ⟨-, rfl⟩
        · exact inserted_of_isRunning h
        · cases hkeep.1
    case isFalse => exact hkept c hc
  active_hash b hb := hs.active_hash b (mem_filter.mp hb).1
  deleted := by
    intro p hp hdel
    rcases mem_append.mp hp with hp | hp
    · exact hs.deleted p hp hdel
    · rw [mem_singleton.mp hp] at hdel
      cases hdel

lemma Listed.deleteTrn (hpurge : s.purges[i]? = some ⟨t :: rest, false⟩)
    (hinj : ∀ a ∈ s.inUse, s.trid a = s.trid t -> a = t) : (s.deleteTrn i t rest).Listed := by
  have hinUse : (s.deleteTrn i t rest).inUse = s.inUse := by
    simp only [inUse, freed_deleteTrn hpurge]
    rfl
  have hstays : ∀ a, a ∈ s.inUse -> a ∉ s.freed ->
      (a ∈ (s.deleteTrn i t rest).tridToTrn ↔ a ∈ s.tridToTrn) := by
    intro a ha hfreed
    have hne : s.trid a ≠ s.trid t := fun h => hfreed (hinj a ha h ▸ mem_freed_of_purge hpurge)
    simp [State.deleteTrn, hne]
  refine ⟨hinUse ▸ hs.nodup, hinUse ▸ hs.bound, ?_, ?_, ?_, ?_⟩
  · intro a ha
    rw [hinUse]
    exact hs.inUse_of_hash a (mem_filter.mp ha).1
  · intro a ha
    rw [hstays a (mem_inUse.mpr (.inr (.inl ha))) (hs.committed_ne_freed ha)]
    exact hs.committed_hash a ha
  · intro a ha
    rw [hstays a (mem_inUse.mpr (.inl ha)) (hs.active_ne_freed ha)]
    exact hs.active_hash a ha
  · intro p hp hdel u hu hmem
    obtain ⟨hmem, hne⟩ := mem_filter.mp hmem
    rcases mem_or_eq_of_mem_set hp with hp | rfl
    · exact hs.deleted p hp hdel u hu hmem
    · obtain rfl : t = u := by simpa using hu
      simp at hne

end

lemma inUse_freeTrn_perm (hpurge : s.purges[i]? = some ⟨t :: rest, true⟩) :
    s.inUse.Perm (t :: (s.freeTrn i t rest).inUse) := by
  have hperm := (freed_freeTrn hpurge).append_left (s.active ++ s.committed)
  exact hperm.trans perm_middle

lemma Listed.freeTrn (hs : s.Listed) (hpurge : s.purges[i]? = some ⟨t :: rest, true⟩) :
    (s.freeTrn i t rest).Listed := by
  have hperm : ((s.freeTrn i t rest).inUse ++ t :: s.pool).Perm (s.inUse ++ s.pool) :=
    perm_middle.trans ((inUse_freeTrn_perm hpurge).append_right s.pool).symm
  refine ⟨hperm.nodup_iff.mpr hs.nodup, fun a ha => hs.bound a (hperm.mem_iff.mp ha), ?_,
    hs.committed_hash, hs.active_hash, ?_⟩
  · intro a ha
    rcases mem_cons.mp ((inUse_freeTrn_perm hpurge).mem_iff.mp (hs.inUse_of_hash a ha)) with
      rfl | h
    · exact absurd ha (hs.deleted _ (mem_of_getElem? hpurge) rfl a rfl)
    · exact h
  · intro p hp hdel
    rcases mem_or_eq_of_mem_set hp with hp | rfl
    · exact hs.deleted p hp hdel
    · cases hdel

lemma Listed.step (hs : s.Listed)
    (hinj : ∀ a ∈ s.inUse, ∀ b ∈ s.inUse, s.trid a = s.trid b -> a = b) (hstep : Stepped s s') :
    s'.Listed := by
  cases hstep with
  | newTrn => exact hs.newTrn
  | setMinReadFrom a ha hplace
  | setCommitTrid a ha hplace
  | load a trid found ha hplace => exact hs.moved ha (by simp [Inserted, hplace])
  | insertTrn a ha => exact hs.insertTrn ha
  | search a trid ha hplace =>
    refine hs.moved ha (iff_of_true (inserted_of_isRunning hplace) ?_)
    unfold canReadFromSearch
    split
    · simp
    · split
      · simp
      · split <;> simp
  | endTrn a commit ha hplace => exact hs.endTrn ha hplace
  | delete i t rest hpurge =>
    exact hs.deleteTrn hpurge fun a ha =>
      hinj a ha t (mem_inUse.mpr (.inr (.inr (mem_freed_of_purge hpurge))))
  | free i t rest hpurge => exact hs.freeTrn hpurge

end State

end Maria
