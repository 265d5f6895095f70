import EryMysql.Maria.TrnLists

/-!
# What a transaction can read

A transaction reads the rows of the transactions that had committed when it was begun. The answer
of `trnman_can_read_from` comes from three places: the oldest transaction that was active then, a
comparison of the ids, and the hash. What has been purged from the committed list is below the
oldest one of every active transaction, so its absence from the hash does not matter.
-/

namespace Maria

open Function List Option Nat State

namespace State

variable {initial : Nat} {s s' : State} {a b c x : Nat}

/-- The oldest transaction that was active when a transaction was begun; `min_read_from` is this
one, except for a transaction that was begun alone. -/
def horizon (s : State) (a : Nat) : Nat :=
  if s.minReadFrom a = 0 ∨ s.minReadFrom a = s.trid a + 1 then s.trid a else s.minReadFrom a

/-- The ids of transactions, when they were given and what became of them. -/
structure Dated (initial : Nat) (s : State) : Prop where
  initial_le : initial ≤ s.globalTridGenerator
  trid_gt : ∀ a ∈ s.inUse, initial < s.trid a
  trid_le : ∀ a ∈ s.inUse, s.trid a ≤ s.globalTridGenerator
  trid_bound : ∀ a ∈ s.inUse, s.trid a ≤ 0xffffffffffff
  trid_inj : ∀ a ∈ s.inUse, ∀ b ∈ s.inUse, s.trid a = s.trid b -> a = b
  sorted : s.active.Pairwise fun a b => s.trid a < s.trid b
  given : ∀ x, initial < x -> x ≤ s.globalTridGenerator ->
    x ∈ s.finished ∨ x ∈ s.rolledBack ∨ ∃ a ∈ s.active, s.trid a = x
  finished_range : ∀ x ∈ s.finished, initial < x ∧ x ≤ s.globalTridGenerator
  unended : ∀ a ∈ s.active, s.trid a ∉ s.finished ∧ s.trid a ∉ s.rolledBack
  rolledBack_le : ∀ x ∈ s.rolledBack, x ≤ s.globalTridGenerator
  finished_rolledBack : ∀ x ∈ s.finished, x ∉ s.rolledBack
  committed_finished : ∀ c ∈ s.committed, s.trid c ∈ s.finished
  freed_ended : ∀ c ∈ s.freed, s.trid c ∈ s.finished ∨ s.trid c ∈ s.rolledBack
  snapshot_finished : ∀ t, ∀ x ∈ s.snapshot t, x ∈ s.finished
  snapshot_lt : ∀ t, ∀ x ∈ s.snapshot t, x < t
  ended : ∀ c ∈ s.inUse, s.trid c ∈ s.finished -> s.trid c ≤ s.commitTrid c ∧
    s.commitTrid c ≤ s.globalTridGenerator ∧
    ∀ a ∈ s.active, s.trid c ∈ s.snapshot (s.trid a) ↔ s.commitTrid c < s.trid a
  minReadFrom_le : ∀ a ∈ s.active, s.minReadFrom a ≤ s.trid a + 1
  below_horizon : ∀ a ∈ s.active, ∀ x, initial < x -> x < s.horizon a ->
    x ∈ s.snapshot (s.trid a) ∨ x ∈ s.rolledBack
  horizon_mono : s.active.Pairwise fun a b => s.horizon a ≤ s.horizon b
  committed_snapshot : ∀ a ∈ s.active, ∀ x ∈ s.snapshot (s.trid a), s.horizon a ≤ x ->
    ∃ c ∈ s.committed, s.trid c = x
  committed_since : ∀ h, s.active.head? = some h -> ∀ x ∈ s.finished, s.trid h < x ->
    ∃ c ∈ s.committed, s.trid c = x
  freed_below : ∀ c ∈ s.freed, s.trid c ∈ s.finished -> ∀ a ∈ s.active, s.trid c < s.horizon a

lemma Dated.horizon_le (hs : s.Dated initial) (ha : a ∈ s.active) : s.horizon a ≤ s.trid a := by
  have := hs.minReadFrom_le a ha
  unfold horizon
  split <;> omega

lemma Dated.horizon_le_active (hs : s.Dated initial) (ha : a ∈ s.active) (hb : b ∈ s.active) :
    s.horizon b ≤ s.trid a := by
  by_contra hlt
  have hgt := hs.trid_gt a (mem_inUse.mpr (.inl ha))
  rcases hs.below_horizon b hb (s.trid a) hgt (by omega) with h | h
  · exact (hs.unended a ha).1 (hs.snapshot_finished _ _ h)
  · exact (hs.unended a ha).2 h

/-- A step that changes a `TRN` but not its id keeps what depends on the ids. -/
lemma Dated.setTrn (hs : s.Dated initial) {trn : Nat -> Trn} {place : Nat -> Place}
    (htrid : { s with trn, place }.trid = s.trid)
    (hhorizon : { s with trn, place }.horizon = s.horizon)
    (hmin : ∀ a ∈ s.active, (trn a).minReadFrom ≤ s.trid a + 1)
    (hcommitTrid : ∀ c, s.trid c ∈ s.finished ->
      { s with trn, place }.commitTrid c = s.commitTrid c) :
    Dated initial { s with trn, place } := by
  constructor
  case ended =>
    intro c hc hf
    rw [htrid] at hf ⊢
    rw [hcommitTrid c hf]
    exact hs.ended c hc hf
  all_goals try rw [htrid]
  case minReadFrom_le => exact hmin
  all_goals try rw [hhorizon]
  exacts [hs.initial_le, hs.trid_gt, hs.trid_le, hs.trid_bound, hs.trid_inj, hs.sorted, hs.given,
    hs.finished_range, hs.unended, hs.rolledBack_le, hs.finished_rolledBack, hs.committed_finished, hs.freed_ended, hs.snapshot_finished,
    hs.snapshot_lt, hs.below_horizon, hs.horizon_mono, hs.committed_snapshot, hs.committed_since,
    hs.freed_below]

/-- What a changed `TRN` has in common with the old one is the same for all. -/
lemma field_update {f : Trn -> Nat} {t : Trn} (h : f t = f (s.trn a)) :
    (fun b => f (update s.trn a t b)) = fun b => f (s.trn b) := by
  funext b
  by_cases hb : b = a
  · rw [hb, update_self, h]
  · rw [update_of_ne hb]

section NewTrn

lemma trid_newTrn_self : s.newTrn.trid s.newAddress = s.globalTridGenerator + 1 := by
  simp [trid, newTrn]

lemma minReadFrom_newTrn_self :
    s.newTrn.minReadFrom s.newAddress = (s.active.head?.map s.trid).getD 0 := by
  simp [minReadFrom, newTrn]

lemma trn_newTrn_of_ne (h : a ≠ s.newAddress) : s.newTrn.trn a = s.trn a := update_of_ne h ..

lemma trid_newTrn_of_ne (h : a ≠ s.newAddress) : s.newTrn.trid a = s.trid a := by
  simp [trid, trn_newTrn_of_ne h]

lemma commitTrid_newTrn : s.newTrn.commitTrid a = s.commitTrid a := by
  have h : s.newTrn.commitTrid = s.commitTrid := field_update (f := Trn.commitTrid) rfl
  rw [h]

lemma minReadFrom_newTrn_of_ne (h : a ≠ s.newAddress) :
    s.newTrn.minReadFrom a = s.minReadFrom a := by
  simp [minReadFrom, trn_newTrn_of_ne h]

lemma horizon_newTrn_of_ne (h : a ≠ s.newAddress) : s.newTrn.horizon a = s.horizon a := by
  simp [horizon, trid_newTrn_of_ne h, minReadFrom_newTrn_of_ne h]

lemma snapshot_newTrn_self : s.newTrn.snapshot (s.globalTridGenerator + 1) = s.finished :=
  update_self ..

lemma snapshot_newTrn_of_ne (h : x ≠ s.globalTridGenerator + 1) :
    s.newTrn.snapshot x = s.snapshot x :=
  update_of_ne h ..

lemma Dated.horizon_newTrn_self (hs : s.Dated initial) :
    s.newTrn.horizon s.newAddress = (s.active.head?.map s.trid).getD (s.globalTridGenerator + 1) := by
  unfold horizon
  rw [trid_newTrn_self, minReadFrom_newTrn_self]
  cases hhead : s.active.head? with
  | none => simp
  | some h =>
    have hh : h ∈ s.inUse := mem_inUse.mpr (.inl (mem_of_mem_head? hhead))
    have hgt := hs.trid_gt h hh
    have hle := hs.trid_le h hh
    simp only [map_some, getD_some]
    rw [if_neg (by omega)]

lemma Dated.newHorizon_of_active (hs : s.Dated initial) (hb : b ∈ s.active) :
    ∃ h, s.active.head? = some h ∧ s.newTrn.horizon s.newAddress = s.trid h := by
  rw [hs.horizon_newTrn_self]
  cases hactive : s.active with
  | nil =>
    rw [hactive] at hb
    cases hb
  | cons h l => exact ⟨h, rfl, rfl⟩

lemma Dated.newHorizon_le (hs : s.Dated initial) :
    s.newTrn.horizon s.newAddress ≤ s.globalTridGenerator + 1 := by
  rw [hs.horizon_newTrn_self]
  cases hhead : s.active.head? with
  | none => exact le_refl _
  | some h =>
    exact le_succ_of_le (hs.trid_le h (mem_inUse.mpr (.inl (mem_of_mem_head? hhead))))

lemma Dated.newHorizon_le_active (hs : s.Dated initial) (hb : b ∈ s.active) :
    s.newTrn.horizon s.newAddress ≤ s.trid b := by
  rw [hs.horizon_newTrn_self]
  cases hactive : s.active with
  | nil =>
    rw [hactive] at hb
    cases hb
  | cons h l =>
    have hsorted := hs.sorted
    rw [hactive] at hb hsorted
    rcases mem_cons.mp hb with rfl | hb
    · exact le_refl _
    · exact le_of_lt ((pairwise_cons.mp hsorted).1 b hb)

end NewTrn

lemma mem_active_newTrn : b ∈ s.newTrn.active ↔ b ∈ s.active ∨ b = s.newAddress := by
  change b ∈ s.active ++ [s.newAddress] ↔ _
  simp

lemma Listed.ne_newAddress (hl : s.Listed) (hb : b ∈ s.inUse) : b ≠ s.newAddress := by
  rintro rfl
  exact hl.newAddress_fresh hb

/-- What holds for the new id and for the ids in use holds for all ids in use then. -/
lemma Listed.forall_inUse_newTrn (hl : s.Listed) {P : Nat -> Prop}
    (hnew : P (s.globalTridGenerator + 1)) (hold : ∀ b ∈ s.inUse, P (s.trid b)) :
    ∀ b ∈ s.newTrn.inUse, P (s.newTrn.trid b) := by
  intro b hb
  rcases mem_inUse_newTrn.mp hb with rfl | hb
  · rw [trid_newTrn_self]
    exact hnew
  · rw [trid_newTrn_of_ne (hl.ne_newAddress hb)]
    exact hold b hb

/-- The same for the active transactions, with their horizons and snapshots. -/
lemma Dated.forall_active_newTrn (hl : s.Listed) (hs : s.Dated initial)
    {P : Nat -> Nat -> List Nat -> Prop}
    (hnew : P (s.globalTridGenerator + 1) (s.newTrn.horizon s.newAddress) s.finished)
    (hold : ∀ b ∈ s.active, P (s.trid b) (s.horizon b) (s.snapshot (s.trid b))) :
    ∀ b ∈ s.newTrn.active,
      P (s.newTrn.trid b) (s.newTrn.horizon b) (s.newTrn.snapshot (s.newTrn.trid b)) := by
  intro b hb
  rcases mem_active_newTrn.mp hb with hb | rfl
  · have hinUse : b ∈ s.inUse := mem_inUse.mpr (.inl hb)
    have hne := hl.ne_newAddress hinUse
    rw [trid_newTrn_of_ne hne, horizon_newTrn_of_ne hne,
      snapshot_newTrn_of_ne (Nat.ne_of_lt (Nat.lt_succ_of_le (hs.trid_le b hinUse)))]
    exact hold b hb
  · rw [trid_newTrn_self, snapshot_newTrn_self]
    exact hnew

lemma Dated.newTrn (hl : s.Listed) (hs : s.Dated initial)
    (hgenerator : s.globalTridGenerator < 0xffffffffffff) : s.newTrn.Dated initial := by
  have hinitial := hs.initial_le
  have hold : ∀ b ∈ s.inUse, s.newTrn.trid b = s.trid b := fun b hb =>
    trid_newTrn_of_ne (hl.ne_newAddress hb)
  have hactive : ∀ b ∈ s.active, b ∈ s.inUse := fun b hb => mem_inUse.mpr (.inl hb)
  have hfreed : ∀ b ∈ s.freed, b ∈ s.inUse := fun b hb => mem_inUse.mpr (.inr (.inr hb))
  have hcommitted : ∀ x, (∃ c ∈ s.committed, s.trid c = x) ->
      ∃ c ∈ s.newTrn.committed, s.newTrn.trid c = x := by
    rintro x ⟨c, hc, heq⟩
    exact ⟨c, hc, (hold c (mem_inUse.mpr (.inr (.inl hc)))).trans heq⟩
  have hpairwise : ∀ {R : Nat -> Nat -> Prop}, s.active.Pairwise R ->
      (∀ b ∈ s.active, R b s.newAddress) -> s.newTrn.active.Pairwise R := by
    intro R h hnew
    refine pairwise_append.mpr ⟨h, pairwise_singleton .., fun b hb d hd => ?_⟩
    rw [mem_singleton.mp hd]
    exact hnew b hb
  have hnew : ∀ x ∈ s.finished, x ≠ s.globalTridGenerator + 1 := fun x hx =>
    Nat.ne_of_lt (Nat.lt_succ_of_le (hs.finished_range x hx).2)
  have hended : ∀ c ∈ s.newTrn.inUse, s.newTrn.trid c ∈ s.finished ->
      c ∈ s.inUse ∧ s.trid c ∈ s.finished := by
    intro c hc hf
    rcases mem_inUse_newTrn.mp hc with rfl | hc
    · exact absurd trid_newTrn_self (hnew _ hf)
    · exact ⟨hc, hold c hc ▸ hf⟩
  constructor
  case initial_le => exact le_succ_of_le hs.initial_le
  case trid_gt => exact hl.forall_inUse_newTrn (lt_succ_of_le hinitial) hs.trid_gt
  case trid_le =>
    exact hl.forall_inUse_newTrn (P := (· ≤ s.globalTridGenerator + 1)) (le_refl _)
      fun b hb => le_succ_of_le (hs.trid_le b hb)
  case trid_bound =>
    exact hl.forall_inUse_newTrn (P := (· ≤ 0xffffffffffff)) hgenerator hs.trid_bound
  case trid_inj =>
    intro b hb d hd heq
    rcases mem_inUse_newTrn.mp hb with rfl | hb <;> rcases mem_inUse_newTrn.mp hd with rfl | hd
    · rfl
    · rw [trid_newTrn_self, hold d hd] at heq
      have := hs.trid_le d hd
      omega
    · rw [trid_newTrn_self, hold b hb] at heq
      have := hs.trid_le b hb
      omega
    · rw [hold b hb, hold d hd] at heq
      exact hs.trid_inj b hb d hd heq
  case sorted =>
    refine hpairwise (hs.sorted.imp_of_mem fun hb hd h => ?_) fun b hb => ?_
    · rwa [hold _ (hactive _ hb), hold _ (hactive _ hd)]
    · rw [hold b (hactive b hb), trid_newTrn_self]
      exact lt_succ_of_le (hs.trid_le b (hactive b hb))
  case given =>
    intro x hx hle
    rcases lt_or_ge s.globalTridGenerator x with hlt | hle'
    · refine .inr (.inr ⟨s.newAddress, mem_active_newTrn.mpr (.inr rfl), ?_⟩)
      rw [trid_newTrn_self]
      exact le_antisymm hlt hle
    · refine (hs.given x hx hle').imp_right (Or.imp_right ?_)
      rintro ⟨b, hb, heq⟩
      exact ⟨b, mem_active_newTrn.mpr (.inl hb), (hold b (hactive b hb)).trans heq⟩
  case finished_range => exact fun x hx => (hs.finished_range x hx).imp_right le_succ_of_le
  case unended =>
    exact hs.forall_active_newTrn hl (P := fun t _ _ => t ∉ s.finished ∧ t ∉ s.rolledBack)
      ⟨fun hf => hnew _ hf rfl, fun hr => not_succ_le_self _ (hs.rolledBack_le _ hr)⟩ hs.unended
  case rolledBack_le => exact fun x hx => le_succ_of_le (hs.rolledBack_le x hx)
  case finished_rolledBack => exact hs.finished_rolledBack
  case committed_finished =>
    intro c hc
    rw [hold c (mem_inUse.mpr (.inr (.inl hc)))]
    exact hs.committed_finished c hc
  case freed_ended =>
    intro c hc
    rw [hold c (hfreed c hc)]
    exact hs.freed_ended c hc
  case snapshot_finished =>
    intro t x hx
    by_cases ht : t = s.globalTridGenerator + 1
    · rwa [ht, snapshot_newTrn_self] at hx
    · exact hs.snapshot_finished t x (snapshot_newTrn_of_ne ht ▸ hx)
  case snapshot_lt =>
    intro t x hx
    by_cases ht : t = s.globalTridGenerator + 1
    · rw [ht, snapshot_newTrn_self] at hx
      exact ht ▸ lt_succ_of_le (hs.finished_range x hx).2
    · exact hs.snapshot_lt t x (snapshot_newTrn_of_ne ht ▸ hx)
  case ended =>
    intro c hc hf
    obtain ⟨hc, hf⟩ := hended c hc hf
    obtain ⟨hle, hge, hsnapshot⟩ := hs.ended c hc hf
    rw [hold c hc, commitTrid_newTrn]
    refine ⟨hle, le_succ_of_le hge, ?_⟩
    exact hs.forall_active_newTrn hl (P := fun t _ l => s.trid c ∈ l ↔ s.commitTrid c < t)
      (iff_of_true hf (lt_succ_of_le hge)) hsnapshot
  case minReadFrom_le =>
    intro b hb
    rcases mem_active_newTrn.mp hb with hb | rfl
    · have hne := hl.ne_newAddress (hactive b hb)
      rw [trid_newTrn_of_ne hne, minReadFrom_newTrn_of_ne hne]
      exact hs.minReadFrom_le b hb
    · rw [trid_newTrn_self, minReadFrom_newTrn_self]
      cases hhead : s.active.head? with
      | none => simp
      | some h =>
        have := hs.trid_le h (hactive h (mem_of_mem_head? hhead))
        simp only [map_some, getD_some]
        omega
  case below_horizon =>
    refine hs.forall_active_newTrn hl (P := fun _ h l => ∀ x, initial < x -> x < h ->
      x ∈ l ∨ x ∈ s.rolledBack) (fun x hx hlt => ?_) hs.below_horizon
    have hle := hs.newHorizon_le
    rcases hs.given x hx (by omega) with h | h | ⟨d, hd, heq⟩
    · exact .inl h
    · exact .inr h
    · have := hs.newHorizon_le_active hd
      omega
  case horizon_mono =>
    have holdHorizon : ∀ b ∈ s.active, s.newTrn.horizon b = s.horizon b := fun b hb =>
      horizon_newTrn_of_ne (hl.ne_newAddress (hactive b hb))
    refine hpairwise (hs.horizon_mono.imp_of_mem fun hb hd h => ?_) fun b hb => ?_
    · rwa [holdHorizon _ hb, holdHorizon _ hd]
    · obtain ⟨h, hh, heq⟩ := hs.newHorizon_of_active hb
      rw [holdHorizon b hb, heq]
      exact hs.horizon_le_active (mem_of_mem_head? hh) hb
  case committed_snapshot =>
    refine hs.forall_active_newTrn hl (P := fun _ h l => ∀ x ∈ l, h ≤ x ->
      ∃ c ∈ s.newTrn.committed, s.newTrn.trid c = x) (fun x hx hle => ?_)
      fun b hb x hx hle => hcommitted x (hs.committed_snapshot b hb x hx hle)
    have hxle := (hs.finished_range x hx).2
    cases hactives : s.active with
    | nil =>
      rw [hs.horizon_newTrn_self, hactives] at hle
      simp at hle
      omega
    | cons d l =>
      obtain ⟨h, hh, heq⟩ := hs.newHorizon_of_active (hactives ▸ mem_cons_self ..)
      have hne : s.trid h ≠ x := fun he => (hs.unended h (mem_of_mem_head? hh)).1 (he ▸ hx)
      exact hcommitted x (hs.committed_since h hh x hx (by omega))
  case committed_since =>
    intro h hh x hx hlt
    have hxle := (hs.finished_range x hx).2
    cases hactives : s.active with
    | nil =>
      have : h = s.newAddress := by simpa [State.newTrn, hactives] using hh.symm
      rw [this, trid_newTrn_self] at hlt
      omega
    | cons d l =>
      have hd : d = h := by simpa [State.newTrn, hactives] using hh
      subst hd
      rw [hold d (hactive d (hactives ▸ mem_cons_self ..))] at hlt
      exact hcommitted x (hs.committed_since d (by rw [hactives]; rfl) x hx hlt)
  case freed_below =>
    intro c hc hf
    rw [hold c (hfreed c hc)] at hf ⊢
    refine hs.forall_active_newTrn hl (P := fun _ h _ => s.trid c < h) ?_
      (hs.freed_below c hc hf)
    rw [hs.horizon_newTrn_self]
    cases hhead : s.active.head? with
    | none => exact lt_succ_of_le (hs.trid_le c (hfreed c hc))
    | some h =>
      have hh := mem_of_mem_head? hhead
      exact lt_of_lt_of_le (hs.freed_below c hc hf h hh) (hs.horizon_le hh)

section EndTrn

variable {commit : Bool}

lemma trid_endTrn : (s.endTrn a commit).trid = s.trid := by
  cases commit with
  | false => rfl
  | true => exact field_update (f := Trn.trid) rfl

lemma minReadFrom_endTrn : (s.endTrn a commit).minReadFrom = s.minReadFrom := by
  cases commit with
  | false => rfl
  | true => exact field_update (f := Trn.minReadFrom) rfl

lemma horizon_endTrn : (s.endTrn a commit).horizon = s.horizon := by
  funext b
  simp [horizon, trid_endTrn, minReadFrom_endTrn]

lemma commitTrid_endTrn_of_ne (h : b ≠ a) : (s.endTrn a commit).commitTrid b = s.commitTrid b := by
  simp only [commitTrid, endTrn]
  split
  · simp [h]
  · rfl

lemma commitTrid_endTrn_self : (s.endTrn a true).commitTrid a = s.globalTridGenerator := by
  simp [commitTrid, endTrn]

lemma mem_finished_endTrn :
    x ∈ (s.endTrn a commit).finished ↔ x ∈ s.finished ∨ (commit = true ∧ x = s.trid a) := by
  cases commit <;> simp [endTrn, or_comm]

lemma mem_rolledBack_endTrn :
    x ∈ (s.endTrn a commit).rolledBack ↔ x ∈ s.rolledBack ∨ (commit = false ∧ x = s.trid a) := by
  cases commit <;> simp [endTrn, or_comm]

lemma mem_active_endTrn : b ∈ (s.endTrn a commit).active ↔ b ∈ s.active ∧ b ≠ a := by
  rw [active_endTrn, mem_filter, decide_eq_true_iff]

lemma mem_freed_endTrn (hc : c ∈ (s.endTrn a commit).freed) :
    c ∈ s.freed ∨ c ∈ s.purged a ∨ (c = a ∧ ¬s.Keeps a commit) := by
  rw [freed_endTrn] at hc
  rcases mem_append.mp hc with hc | hc
  · exact .inl hc
  · split at hc
    case isTrue => exact .inr (.inl hc)
    case isFalse hkeeps =>
      rcases mem_cons.mp hc with rfl | hc
      · exact .inr (.inr ⟨rfl, hkeeps⟩)
      · exact .inr (.inl hc)

lemma mem_committed_endTrn (hc : c ∈ (s.endTrn a commit).committed) :
    c ∈ s.kept a ∨ (c = a ∧ s.Keeps a commit) := by
  rw [committed_endTrn] at hc
  split at hc
  case isTrue hkeeps =>
    rcases mem_append.mp hc with hc | hc
    · exact .inl hc
    · exact .inr ⟨mem_singleton.mp hc, hkeeps⟩
  case isFalse => exact .inl hc

lemma mem_committed_endTrn_of_not_purged (hc : c ∈ s.committed) (hpurged : c ∉ s.purged a) :
    c ∈ (s.endTrn a commit).committed := by
  rw [← @purged_append_kept s a] at hc
  have hkept := (mem_append.mp hc).resolve_left hpurged
  rw [committed_endTrn]
  split
  · exact mem_append_left _ hkept
  · exact hkept

lemma mem_committed_endTrn_self (hkeeps : s.Keeps a commit) :
    a ∈ (s.endTrn a commit).committed := by
  rw [committed_endTrn, if_pos hkeeps]
  exact mem_append_right _ (mem_singleton_self a)

lemma keeps_of_active (hb : b ∈ s.active) (hne : b ≠ a) : s.Keeps a true :=
  ⟨rfl, ne_nil_of_mem (mem_filter.mpr ⟨hb, decide_eq_true hne⟩)⟩

/-- What is purged is below the horizon of every transaction that stays active: it had committed
before the next one in the list was begun alone, or before the oldest one that this one waits for
was begun. -/
lemma Dated.purged_below (hs : s.Dated initial) (hc : c ∈ s.purged a) (hb : b ∈ s.active)
    (hne : b ≠ a) : s.trid c < s.horizon b := by
  obtain ⟨-, hlimit⟩ := mem_purged hc
  have hcommitted := mem_committed_of_purged hc
  have hinUse : c ∈ s.inUse := mem_inUse.mpr (.inr (.inl hcommitted))
  have hfinished := hs.committed_finished c hcommitted
  have hle := (hs.ended c hinUse hfinished).1
  have hb' : b ∈ s.active.filter (· ≠ a) := mem_filter.mpr ⟨hb, decide_eq_true hne⟩
  have hmono : (s.active.filter (· ≠ a)).Pairwise fun a b => s.horizon a ≤ s.horizon b :=
    hs.horizon_mono.sublist filter_sublist
  cases hactive : s.active.filter (· ≠ a) with
  | nil =>
    rw [hactive] at hb'
    cases hb'
  | cons o l =>
    have ho : o ∈ s.active :=
      (mem_filter.mp (hactive ▸ mem_cons_self .. : o ∈ s.active.filter (· ≠ a))).1
    rw [hactive] at hlimit hb' hmono
    simp only [purgeLimit, head?_cons, map_some, getD_some] at hlimit
    have hne' : s.trid c ≠ s.trid o := fun h => (hs.unended o ho).1 (h ▸ hfinished)
    have hlow : s.trid c < s.horizon o := by
      unfold horizon
      split <;> omega
    rcases mem_cons.mp hb' with rfl | hb'
    · exact hlow
    · exact lt_of_lt_of_le hlow ((pairwise_cons.mp hmono).1 b hb')

lemma Dated.endTrn_finished (hs : s.Dated initial) (ha : a ∈ s.active) (hc : c ∈ s.inUse)
    (hf : s.trid c ∈ (s.endTrn a commit).finished) :
    (c ≠ a ∧ s.trid c ∈ s.finished) ∨ (c = a ∧ commit = true) := by
  rcases mem_finished_endTrn.mp hf with hold | ⟨hcommit, heq⟩
  · refine .inl ⟨?_, hold⟩
    rintro rfl
    exact (hs.unended c ha).1 hold
  · exact .inr ⟨hs.trid_inj c hc a (mem_inUse.mpr (.inl ha)) heq, hcommit⟩

lemma Dated.oldest_le (hs : s.Dated initial) (hb : b ∈ s.active) :
    ∃ h, s.active.head? = some h ∧ s.trid h ≤ s.trid b := by
  obtain ⟨h, hh, heq⟩ := hs.newHorizon_of_active hb
  exact ⟨h, hh, heq ▸ hs.newHorizon_le_active hb⟩

lemma Dated.endTrn (hl : s.Listed) (hs : s.Dated initial) (ha : a ∈ s.active) :
    (s.endTrn a commit).Dated initial := by
  have hainUse : a ∈ s.inUse := mem_inUse.mpr (.inl ha)
  have hinUse : ∀ b ∈ (s.endTrn a commit).inUse, b ∈ s.inUse := fun b hb =>
    (inUse_endTrn_perm hl.nodup_active ha).mem_iff.mp hb
  have hactive : ∀ b ∈ (s.endTrn a commit).active, b ∈ s.active := fun b hb =>
    (mem_active_endTrn.mp hb).1
  have hsub : (s.endTrn a commit).active.Sublist s.active := filter_sublist
  have htrid : ∀ b ∈ s.inUse, b ≠ a -> s.trid b ≠ s.trid a := fun b hb hne h =>
    hne (hs.trid_inj b hb a hainUse h)
  constructor
  all_goals try rw [trid_endTrn]
  all_goals try rw [horizon_endTrn]
  case initial_le => exact hs.initial_le
  case trid_gt => exact fun b hb => hs.trid_gt b (hinUse b hb)
  case trid_le => exact fun b hb => hs.trid_le b (hinUse b hb)
  case trid_bound => exact fun b hb => hs.trid_bound b (hinUse b hb)
  case trid_inj => exact fun b hb d hd => hs.trid_inj b (hinUse b hb) d (hinUse d hd)
  case sorted => exact hs.sorted.sublist hsub
  case given =>
    intro x hx hle
    rw [mem_finished_endTrn, mem_rolledBack_endTrn]
    rcases hs.given x hx hle with h | h | ⟨b, hb, heq⟩
    · exact .inl (.inl h)
    · exact .inr (.inl (.inl h))
    · by_cases hne : b = a
      · subst hne
        cases commit with
        | true => exact .inl (.inr ⟨rfl, heq.symm⟩)
        | false => exact .inr (.inl (.inr ⟨rfl, heq.symm⟩))
      · exact .inr (.inr ⟨b, mem_active_endTrn.mpr ⟨hb, hne⟩, heq⟩)
  case finished_range =>
    intro x hx
    rcases mem_finished_endTrn.mp hx with hx | ⟨-, rfl⟩
    · exact hs.finished_range x hx
    · exact ⟨hs.trid_gt a hainUse, hs.trid_le a hainUse⟩
  case unended =>
    intro b hb
    obtain ⟨hb, hne⟩ := mem_active_endTrn.mp hb
    have hne := htrid b (mem_inUse.mpr (.inl hb)) hne
    rw [mem_finished_endTrn, mem_rolledBack_endTrn]
    exact ⟨not_or.mpr ⟨(hs.unended b hb).1, fun h => hne h.2⟩,
      not_or.mpr ⟨(hs.unended b hb).2, fun h => hne h.2⟩⟩
  case rolledBack_le =>
    intro x hx
    rcases mem_rolledBack_endTrn.mp hx with hx | ⟨-, rfl⟩
    · exact hs.rolledBack_le x hx
    · exact hs.trid_le a hainUse
  case finished_rolledBack =>
    intro x hx hr
    rcases mem_finished_endTrn.mp hx with hx | ⟨hcommit, rfl⟩ <;>
      rcases mem_rolledBack_endTrn.mp hr with hr | ⟨hcommit', heq⟩
    · exact hs.finished_rolledBack x hx hr
    · exact (hs.unended a ha).1 (heq ▸ hx)
    · exact (hs.unended a ha).2 hr
    · rw [hcommit] at hcommit'
      cases hcommit'
  case committed_finished =>
    intro c hc
    rw [mem_finished_endTrn]
    rcases mem_committed_endTrn hc with hc | ⟨rfl, hkeeps⟩
    · refine .inl (hs.committed_finished c ?_)
      rw [← @purged_append_kept s a]
      exact mem_append_right _ hc
    · exact .inr ⟨hkeeps.1, rfl⟩
  case freed_ended =>
    intro c hc
    rw [mem_finished_endTrn, mem_rolledBack_endTrn]
    rcases mem_freed_endTrn hc with hc | hc | ⟨rfl, -⟩
    · exact (hs.freed_ended c hc).imp .inl .inl
    · exact .inl (.inl (hs.committed_finished c (mem_committed_of_purged hc)))
    · cases commit with
      | true => exact .inl (.inr ⟨rfl, rfl⟩)
      | false => exact .inr (.inr ⟨rfl, rfl⟩)
  case snapshot_finished =>
    intro t x hx
    exact mem_finished_endTrn.mpr (.inl (hs.snapshot_finished t x hx))
  case snapshot_lt => exact hs.snapshot_lt
  case ended =>
    intro c hc hf
    rcases hs.endTrn_finished ha (hinUse c hc) hf with ⟨hne, hf⟩ | ⟨rfl, rfl⟩
    · obtain ⟨hle, hge, hsnapshot⟩ := hs.ended c (hinUse c hc) hf
      rw [commitTrid_endTrn_of_ne hne]
      exact ⟨hle, hge, fun b hb => hsnapshot b (hactive b hb)⟩
    · rw [commitTrid_endTrn_self]
      refine ⟨hs.trid_le c hainUse, le_refl _, fun b hb => iff_of_false (fun h => ?_) ?_⟩
      · exact (hs.unended c ha).1 (hs.snapshot_finished _ _ h)
      · exact not_lt.mpr (hs.trid_le b (mem_inUse.mpr (.inl (hactive b hb))))
  case minReadFrom_le =>
    intro b hb
    rw [minReadFrom_endTrn]
    exact hs.minReadFrom_le b (hactive b hb)
  case below_horizon =>
    intro b hb x hx hlt
    rw [mem_rolledBack_endTrn]
    exact (hs.below_horizon b (hactive b hb) x hx hlt).imp id .inl
  case horizon_mono => exact hs.horizon_mono.sublist hsub
  case committed_snapshot =>
    intro b hb x hx hle
    obtain ⟨hb, hne⟩ := mem_active_endTrn.mp hb
    obtain ⟨c, hc, rfl⟩ := hs.committed_snapshot b hb x hx hle
    refine ⟨c, mem_committed_endTrn_of_not_purged hc fun hpurged => ?_, rfl⟩
    have := hs.purged_below hpurged hb hne
    omega
  case committed_since =>
    intro h hh x hx hlt
    obtain ⟨hmem, hne⟩ := mem_active_endTrn.mp (mem_of_mem_head? hh)
    rcases mem_finished_endTrn.mp hx with hx | ⟨rfl, rfl⟩
    · obtain ⟨o, ho, hole⟩ := hs.oldest_le hmem
      obtain ⟨c, hc, rfl⟩ := hs.committed_since o ho x hx (by omega)
      refine ⟨c, mem_committed_endTrn_of_not_purged hc fun hpurged => ?_, rfl⟩
      have := hs.purged_below hpurged hmem hne
      have := hs.horizon_le hmem
      omega
    · exact ⟨a, mem_committed_endTrn_self (keeps_of_active hmem hne), rfl⟩
  case freed_below =>
    intro c hc hf b hb
    obtain ⟨hmem, hne⟩ := mem_active_endTrn.mp hb
    rcases mem_freed_endTrn hc with hfreed | hpurged | ⟨rfl, hkeeps⟩
    · rcases mem_finished_endTrn.mp hf with hold | ⟨-, heq⟩
      · exact hs.freed_below c hfreed hold b hmem
      · have hc' : c ∈ s.inUse := mem_inUse.mpr (.inr (.inr hfreed))
        obtain rfl := hs.trid_inj c hc' a hainUse heq
        exact absurd hfreed (hl.active_ne_freed ha)
    · exact hs.purged_below hpurged hmem hne
    · rcases mem_finished_endTrn.mp hf with hold | ⟨rfl, -⟩
      · exact absurd hold (hs.unended c ha).1
      · exact (hkeeps (keeps_of_active hmem hne)).elim

end EndTrn

lemma trid_setMinReadFrom : (s.setMinReadFrom a).trid = s.trid := field_update (f := Trn.trid) rfl

lemma minReadFrom_setMinReadFrom_self : (s.setMinReadFrom a).minReadFrom a =
    if s.minReadFrom a = 0 then s.trid a + 1 else s.minReadFrom a := by
  change (update s.trn a _ a).minReadFrom = _
  rw [update_self]

lemma minReadFrom_setMinReadFrom_of_ne (h : b ≠ a) :
    (s.setMinReadFrom a).minReadFrom b = s.minReadFrom b :=
  congrArg Trn.minReadFrom (update_of_ne h ..)

lemma horizon_setMinReadFrom : (s.setMinReadFrom a).horizon = s.horizon := by
  funext b
  unfold horizon
  rw [trid_setMinReadFrom]
  by_cases h : b = a
  · subst h
    rw [minReadFrom_setMinReadFrom_self]
    by_cases hzero : s.minReadFrom b = 0
    · simp [hzero]
    · simp [hzero]
  · rw [minReadFrom_setMinReadFrom_of_ne h]

lemma trid_setCommitTrid : (s.setCommitTrid a).trid = s.trid := field_update (f := Trn.trid) rfl

lemma minReadFrom_setCommitTrid : (s.setCommitTrid a).minReadFrom = s.minReadFrom :=
  field_update (f := Trn.minReadFrom) rfl

lemma commitTrid_setMinReadFrom : (s.setMinReadFrom a).commitTrid = s.commitTrid :=
  field_update (f := Trn.commitTrid) rfl

lemma Dated.setMinReadFrom (hs : s.Dated initial) : (s.setMinReadFrom a).Dated initial := by
  refine hs.setTrn trid_setMinReadFrom horizon_setMinReadFrom (fun b hb => ?_) fun c _ =>
    congrFun commitTrid_setMinReadFrom c
  have hle := hs.minReadFrom_le b hb
  change (s.setMinReadFrom a).minReadFrom b ≤ _
  by_cases h : b = a
  · subst h
    rw [minReadFrom_setMinReadFrom_self]
    split
    · exact le_refl _
    · exact hle
  · rw [minReadFrom_setMinReadFrom_of_ne h]
    exact hle

lemma Dated.setCommitTrid (hs : s.Dated initial) (ha : a ∈ s.active) :
    (s.setCommitTrid a).Dated initial := by
  have hhorizon : (s.setCommitTrid a).horizon = s.horizon := by
    funext b
    simp [horizon, trid_setCommitTrid, minReadFrom_setCommitTrid]
  refine hs.setTrn trid_setCommitTrid hhorizon (fun b hb => ?_) fun c hf => ?_
  · exact (congrFun minReadFrom_setCommitTrid b).trans_le (hs.minReadFrom_le b hb)
  · have hne : c ≠ a := by
      rintro rfl
      exact (hs.unended c ha).1 hf
    simp [commitTrid, hne]

lemma Dated.setPurges (hs : s.Dated initial) {tridToTrn pool : List Nat} {purges : List Purge}
    (hfreed : ∀ c ∈ purges.flatMap Purge.freeMe, c ∈ s.freed) :
    Dated initial { s with tridToTrn, pool, purges } := by
  have hinUse : ∀ c ∈ { s with tridToTrn, pool, purges }.inUse, c ∈ s.inUse := fun c hc =>
    mem_inUse.mpr ((mem_inUse.mp hc).imp_right (Or.imp_right (hfreed c)))
  exact { hs with
    trid_gt := fun a ha => hs.trid_gt a (hinUse a ha)
    trid_le := fun a ha => hs.trid_le a (hinUse a ha)
    trid_bound := fun a ha => hs.trid_bound a (hinUse a ha)
    trid_inj := fun a ha b hb => hs.trid_inj a (hinUse a ha) b (hinUse b hb)
    freed_ended := fun c hc => hs.freed_ended c (hfreed c hc)
    ended := fun c hc => hs.ended c (hinUse c hc)
    freed_below := fun c hc => hs.freed_below c (hfreed c hc) }

lemma Dated.step (hl : s.Listed) (hs : s.Dated initial) (hstep : Stepped s s') :
    s'.Dated initial := by
  cases hstep with
  | newTrn hgenerator => exact hs.newTrn hl hgenerator
  | setMinReadFrom a => exact hs.setMinReadFrom
  | setCommitTrid a ha => exact hs.setCommitTrid ha
  | insertTrn a ha | search a trid | load a trid found => exact { hs with }
  | endTrn a commit ha => exact hs.endTrn hl ha
  | delete i t rest hpurge =>
    exact hs.setPurges fun c hc => freed_deleteTrn hpurge ▸ hc
  | free i t rest hpurge =>
    exact hs.setPurges fun c hc => (freed_freeTrn hpurge).mem_iff.mpr (mem_cons_of_mem _ hc)

end State

end Maria
