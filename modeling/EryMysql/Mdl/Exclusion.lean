import EryMysql.Mdl.Steps

/-!
# Mutual exclusion of metadata locks

Two granted tickets of different contexts are compatible. Every grant looks at the granted tickets
of the other contexts, or rests on a ticket that its own context has; only a clone of the ticket of
another context is made without either.
-/

namespace Mdl

open Function List TicketList State
open Option hiding any any_eq_false

namespace Strategy

variable {strategy : Strategy} {own type : MdlType} {m : Nat} {duration : Duration} {c : Nat}

lemma incompatibleGranted_comm (t u : MdlType) :
    u ∈ strategy.incompatibleGranted t ↔ t ∈ strategy.incompatibleGranted u := by
  cases strategy <;> cases t <;> cases u <;> decide

end Strategy

lemma MdlLock.canGrantLock_iff {lock : MdlLock} {type : MdlType} {ignore : Bool}
    (hgranted : lock.granted.Exact) (hwaiting : lock.waiting.Exact) :
    lock.canGrantLock type c ignore = true ↔
      (ignore = true ∨ ∀ t ∈ lock.waiting.list, t.type ∉ lock.strategy.incompatibleWaiting type) ∧
      ∀ t ∈ lock.granted.list, t.ctx ≠ c -> t.type ∉ lock.strategy.incompatibleGranted type := by
  have hdisjoint : ∀ {l : TicketList} {types : Finset MdlType}, l.Exact ->
      (l.bitmap ∩ types = ∅ ↔ ∀ t ∈ l.list, t.type ∉ types) := by
    intro l types hexact
    rw [Finset.eq_empty_iff_forall_notMem]
    constructor
    · intro h t ht htype
      exact h t.type (Finset.mem_inter.mpr ⟨(hexact t.type).mpr ⟨t, ht, rfl⟩, htype⟩)
    · intro h type htype
      obtain ⟨htype, hmem⟩ := Finset.mem_inter.mp htype
      obtain ⟨t, ht, rfl⟩ := (hexact type).mp htype
      exact h t ht hmem
  unfold canGrantLock
  simp only [Bool.or_eq_true, decide_eq_true_eq, hdisjoint hwaiting, hdisjoint hgranted]
  split
  case isTrue hpriority =>
    refine ⟨fun h => ⟨hpriority, ?_⟩, fun h => ?_⟩
    · split at h
      case isTrue hnone => exact fun t ht _ => hnone t ht
      case isFalse =>
        intro t ht hctx htype
        rw [Bool.not_eq_true', any_eq_false] at h
        exact h t ht (decide_eq_true ⟨hctx, htype⟩)
    · split
      case isTrue => rfl
      case isFalse =>
        rw [Bool.not_eq_true', any_eq_false]
        intro t ht hconflict
        obtain ⟨hctx, htype⟩ := of_decide_eq_true hconflict
        exact h.2 t ht hctx htype
  case isFalse hpriority => exact ⟨(absurd · Bool.false_ne_true), fun h => absurd h.1 hpriority⟩

namespace State

variable {s s' : State} {t u ticket : Ticket} {type : MdlType}

/-- No two granted tickets of different contexts are incompatible. -/
def Exclusive (s : State) : Prop :=
  ∀ t ∈ s.lock.granted.list, ∀ u ∈ s.lock.granted.list, t.ctx ≠ u.ctx ->
    u.type ∉ s.lock.strategy.incompatibleGranted t.type

/-- The type is compatible with the granted tickets of the other contexts. -/
def Compatible (s : State) (c : Nat) (type : MdlType) : Prop :=
  ∀ t ∈ s.lock.granted.list, t.ctx ≠ c -> t.type ∉ s.lock.strategy.incompatibleGranted type

lemma Exclusive.compatible (h : s.Exclusive) (ht : t ∈ s.lock.granted.list)
    (htype : s.lock.strategy.incompatibleGranted type ⊆
      s.lock.strategy.incompatibleGranted t.type) : s.Compatible t.ctx type := by
  intro u hu hctx hmem
  exact h t ht u hu (fun heq => hctx heq.symm) (htype hmem)

/-- The granted tickets are some of the old ones, and one of a type that is compatible. -/
lemma Exclusive.of_subset (h : s.Exclusive) (hcompat : s.Compatible ticket.ctx ticket.type)
    (hstrategy : s'.lock.strategy = s.lock.strategy)
    (hmem : ∀ t ∈ s'.lock.granted.list, t ∈ s.lock.granted.list ∨ t = ticket) : s'.Exclusive := by
  intro t ht u hu hctx
  rw [hstrategy]
  rcases hmem t ht with ht | rfl <;> rcases hmem u hu with hu | rfl
  · exact h t ht u hu hctx
  · rw [Strategy.incompatibleGranted_comm]
    exact hcompat t ht hctx
  · exact hcompat u hu fun heq => hctx heq.symm
  · exact absurd rfl hctx

lemma Coherent.compatible_of_canGrantLock (h : s.Coherent) {ignore : Bool}
    (hcan : s.lock.canGrantLock type c ignore = true) : s.Compatible c type :=
  ((MdlLock.canGrantLock_iff h.granted.bits h.waiting.bits).mp hcan).2

lemma Coherent.compatible_of_grantable (h : s.Coherent) (hex : s.Exclusive)
    (hgrant : s.Grantable c type) : s.Compatible c type := by
  rcases hgrant with ⟨t, ht, rfl, hstrong⟩ | hcan
  · exact hex.compatible ht (Strategy.hasStrongerOrEqualType_iff.mp hstrong)
  · exact h.compatible_of_canGrantLock hcan

lemma mem_grant (ht : t ∈ (s.grant ticket).lock.granted.list) :
    t ∈ s.lock.granted.list ∨ t = ticket := by
  simp only [grant, MdlLock.removeTicket, list_addTicket, mem_append,
    mem_unlink, mem_singleton] at ht
  exact ht.imp_left And.left

lemma mem_retype (ht : t ∈ (s.retype ticket type).lock.granted.list) :
    t ∈ s.lock.granted.list ∨ t = { ticket with type } := by
  simp only [retype, MdlLock.removeTicket, list_addTicket, mem_append,
    list_clearBitIfNotInList, mem_unlink, mem_singleton] at ht
  exact ht.imp_left And.left

lemma strategy_removeTicket (lock : MdlLock) (queue : Queue) :
    (lock.removeTicket queue ticket).strategy = lock.strategy := by
  cases queue <;> rfl

lemma Exclusive.rescheduleWaiters (h : s.Coherent) (hex : s.Exclusive) (m : Nat) :
    (s.rescheduleWaiters m).Exclusive := by
  refine (@rescheduleWaiters_induction s (fun s => s.Coherent ∧ s.Exclusive) m h.waiting.nodup
    ⟨h, hex⟩ (fun s t skip hs ht _ hcan => ⟨hs.1.grant ht, ?_⟩)
    (fun s hs => ⟨hs.1.setHogLockCount 0, hs.2⟩)).2
  exact hs.2.of_subset (hs.1.compatible_of_canGrantLock hcan) rfl fun u hu => mem_grant hu

lemma Exclusive.removeTicket {queue : Queue}
    (h : { s with lock := s.lock.removeTicket queue ticket }.Coherent) (hex : s.Exclusive) :
    (s.removeTicket m queue ticket).Exclusive := by
  have hex' : { s with lock := s.lock.removeTicket queue ticket }.Exclusive := by
    intro t ht u hu
    cases queue <;> simp only [MdlLock.removeTicket, list_clearBitIfNotInList,
      mem_unlink] at ht hu <;> exact hex t ht.1 u hu.1
  unfold State.removeTicket
  dsimp only
  split
  · exact hex'
  · exact Exclusive.rescheduleWaiters h hex' m

def Upgrades (s : State) : Prop := ∀ c, s.UpgradeAt c (s.place c)

lemma UpgradeAt.mono {place : Place} (h : s.UpgradeAt c place)
    (hstrategy : s'.lock.strategy = s.lock.strategy)
    (hmem : ∀ t ∈ s.lock.granted.list, t.ctx = c -> t ∈ s'.lock.granted.list) :
    s'.UpgradeAt c place := by
  have hticket : ∀ {id p}, s.HasTicket c id p -> s'.HasTicket c id p := by
    rintro id p ⟨t, ht, hid, hctx, hp⟩
    exact ⟨t, hmem t ht hctx, hid, hctx, hp⟩
  cases place with
  | idle => trivial
  | failed => trivial
  | merging =>
    simp only [UpgradeAt, hstrategy] at h ⊢
    exact ⟨hticket h.1, hticket h.2⟩
  | waiting t d task =>
    cases task with
    | acquire => trivial
    | upgrade =>
      simp only [UpgradeAt, hstrategy] at h ⊢
      exact ⟨h.1, hticket h.2⟩

lemma Upgrades.frame (h : s.Upgrades) (hstrategy : s'.lock.strategy = s.lock.strategy)
    (hmem : ∀ t ∈ s.lock.granted.list, t.ctx ≠ c -> t ∈ s'.lock.granted.list)
    (hplace : ∀ c', c' ≠ c -> s'.place c' = s.place c') (hc : s'.UpgradeAt c (s'.place c)) :
    s'.Upgrades := by
  intro c'
  by_cases heq : c' = c
  · rw [heq]
    exact hc
  · rw [hplace c' heq]
    refine (h c').mono hstrategy fun t ht hctx => hmem t ht ?_
    rw [hctx]
    exact heq

lemma Upgrades.mono (h : s.Upgrades) (hstrategy : s'.lock.strategy = s.lock.strategy)
    (hmem : ∀ t ∈ s.lock.granted.list, t ∈ s'.lock.granted.list)
    (hplace : s'.place = s.place) : s'.Upgrades := by
  intro c
  rw [hplace]
  exact (h c).mono hstrategy fun t ht _ => hmem t ht

lemma Upgrades.rescheduleWaiters (h : s.Coherent) (hup : s.Upgrades) (m : Nat) :
    (s.rescheduleWaiters m).Upgrades := by
  refine (@rescheduleWaiters_induction s (fun s => s.Coherent ∧ s.Upgrades) m h.waiting.nodup
    ⟨h, hup⟩ (fun s t skip hs ht _ _ => ⟨hs.1.grant ht, ?_⟩)
    (fun s hs => ⟨hs.1.setHogLockCount 0, hs.2.mono rfl (fun _ ht => ht) rfl⟩)).2
  refine hs.2.mono rfl (fun u hu => ?_) rfl
  simp only [grant, MdlLock.removeTicket, list_addTicket, mem_append, mem_unlink]
  exact .inl ⟨hu, hs.1.apart u hu t ht⟩

lemma Upgrades.removeTicket {queue : Queue}
    (h : { s with lock := s.lock.removeTicket queue ticket }.Coherent)
    (hup : { s with lock := s.lock.removeTicket queue ticket }.Upgrades) :
    (s.removeTicket m queue ticket).Upgrades := by
  unfold State.removeTicket
  dsimp only
  split
  · exact hup
  · exact Upgrades.rescheduleWaiters h hup m

def Settled (s : State) : Prop :=
  ∀ c t, s.place c = .failed t -> s.wait c ≠ .granted ∧ s.wait c ≠ .empty

lemma Settled.rescheduleWaiters (hnodup : (s.lock.waiting.list.map Ticket.id).Nodup)
    (h : s.Settled) (m : Nat) : (s.rescheduleWaiters m).Settled := by
  refine rescheduleWaiters_induction m hnodup h (fun s t skip hs ht hslot _ => ?_)
    (fun s hs => hs)
  intro c u hplace
  obtain ⟨hgranted, hempty⟩ := hs c u hplace
  have hne : c ≠ t.ctx := fun heq => hempty (heq ▸ hslot)
  simp only [grant, update_apply, if_neg hne]
  exact ⟨hgranted, hempty⟩

lemma Settled.removeTicket {queue : Queue}
    (hnodup : ((s.lock.removeTicket queue ticket).waiting.list.map Ticket.id).Nodup)
    (h : s.Settled) : (s.removeTicket m queue ticket).Settled := by
  unfold State.removeTicket
  dsimp only
  split
  · exact h
  · exact @Settled.rescheduleWaiters { s with lock := s.lock.removeTicket queue ticket } hnodup h m

end State

namespace State

variable {s s' : State} {t ticket : Ticket} {type : MdlType}
  {action : Action}

variable {newTicket : Ticket} {isNewTicket : Bool} {newType : MdlType}

lemma mem_merge (ht : t ∈ (s.merge c ticket newTicket isNewTicket newType).lock.granted.list) :
    t ∈ s.lock.granted.list ∨ t = { ticket with type := newType } := by
  rcases mem_retype ht with ht | heq
  · cases isNewTicket with
    | false => exact .inl ht
    | true =>
      simp only [if_true, dropTicket, MdlLock.removeTicket, list_clearBitIfNotInList,
        mem_unlink] at ht
      exact .inl ht.1
  · exact .inr heq

lemma mem_retype_of_ne (ht : t ∈ s.lock.granted.list) (hne : t.id ≠ ticket.id) :
    t ∈ (s.retype ticket type).lock.granted.list := by
  simp only [retype, MdlLock.removeTicket, list_addTicket, mem_append,
    list_clearBitIfNotInList, mem_unlink]
  exact .inl ⟨ht, hne⟩

lemma mem_merge_of_ne (ht : t ∈ s.lock.granted.list) (hne : t.id ≠ ticket.id)
    (hne' : t.id ≠ newTicket.id) :
    t ∈ (s.merge c ticket newTicket isNewTicket newType).lock.granted.list := by
  refine mem_retype_of_ne ?_ hne
  cases isNewTicket with
  | false => exact ht
  | true =>
    simp only [if_true, dropTicket, MdlLock.removeTicket, list_clearBitIfNotInList, mem_unlink]
    exact ⟨ht, hne'⟩

lemma strategy_merge :
    (s.merge c ticket newTicket isNewTicket newType).lock.strategy = s.lock.strategy := by
  cases isNewTicket <;> rfl

lemma place_merge {c' : Nat} : (s.merge c ticket newTicket isNewTicket newType).place c' =
      if c' = c then .idle else s.place c' := by
  cases isNewTicket <;> exact update_apply ..

lemma Upgrades.stepped (h : s.Coherent) (hup : s.Upgrades)
    (hwaits : s.Waits action) (hstep : Stepped m s action s') : s'.Upgrades := by
  have hmove : ∀ {s : State} {c c' : Nat} {place : Place}, c' ≠ c ->
      (s.moveTo c place).place c' = s.place c' := fun hne => by
    simp [moveTo, update_apply, if_neg hne]
  have hmoved : ∀ {s : State} {c : Nat} {place : Place}, (s.moveTo c place).place c = place := by
    simp [moveTo]
  cases hstep with
  | same => exact hup
  | fresh | slot | recycled => exact hup.mono rfl (fun _ ht => ht) rfl
  | moved _ c place hidle hplace hfits hat | waited _ c type duration task hidle hcan hfits hat =>
    refine @Upgrades.frame s _ c hup rfl (fun t ht _ => ht) (fun c' hne => hmove hne) ?_
    rw [hmoved]
    exact hat.mono rfl fun _ ht _ => ht
  | took c t duration task place hplace hslot hrest hfits hat =>
    refine @Upgrades.frame s _ c hup rfl (fun t ht _ => ht) (fun c' hne => hmove hne) ?_
    rw [hmoved]
    exact (hat (hup c)).mono rfl fun _ ht _ => ht
  | failed _ c t duration task hplace =>
    refine @Upgrades.frame s _ c hup rfl (fun t ht _ => ht) (fun c' hne => hmove hne) ?_
    rw [hmoved]
    trivial
  | added _ c type duration place hidle hreason hplace hfits hat =>
    refine @Upgrades.frame s _ c hup rfl (fun t ht _ => mem_append_left _ ht)
      (fun c' hne => hmove hne) ?_
    rw [hmoved]
    exact hat.mono rfl fun _ ht _ => ht
  | merged c id newId isNewTicket newType t newTicket hplace ht hnew =>
    obtain ⟨hmem, rfl, hctx, -⟩ := h.of_own? ht
    obtain ⟨hmem', rfl, hctx', -⟩ := h.of_own? hnew
    refine @Upgrades.frame s _ c hup strategy_merge (fun u hu hne => ?_) (fun c' hne => ?_) ?_
    · refine mem_merge_of_ne hu (fun heq => hne ?_) (fun heq => hne ?_)
      · rw [h.granted.eq hu hmem heq, hctx]
      · rw [h.granted.eq hu hmem' heq, hctx']
    · rw [place_merge, if_neg hne]
    · rw [place_merge, if_pos rfl]
      trivial
  | downgraded c t type duration hidle ht hctx hown hweaker =>
    have hcoherent : (s.retype t type).Coherent := by
      subst hctx
      exact h.retype ht hown
    refine Upgrades.rescheduleWaiters hcoherent ?_ m
    refine @Upgrades.frame s _ c hup rfl (fun u hu hne => mem_retype_of_ne hu fun heq => hne ?_)
      (fun _ _ => rfl) ?_
    · rw [h.granted.eq hu ht heq, hctx]
    · change (s.retype t type).UpgradeAt c (s.place c)
      rw [hidle]
      trivial
  | released c t duration hidle ht hctx hown =>
    subst hctx
    refine @Upgrades.removeTicket (s.dropTicket t.ctx duration t.id) t m .granted
      (h.release ht hown hidle rfl) ?_
    refine @Upgrades.frame s _ t.ctx hup rfl (fun u hu hne => ?_) (fun _ _ => rfl) ?_
    · simp only [MdlLock.removeTicket, list_clearBitIfNotInList, mem_unlink]
      exact ⟨hu, fun heq => hne (by rw [h.granted.eq hu ht heq])⟩
    · change UpgradeAt _ t.ctx (s.place t.ctx)
      rw [hidle]
      trivial
  | gaveUp c t hplace =>
    refine @Upgrades.removeTicket (s.moveTo c .idle) t m .waiting
      (h.giveUp hplace (hwaits c rfl)) ?_
    have hin := (h.pends c t (.inr hplace)).2.resolve_right fun hg => hwaits c rfl hg.1
    refine @Upgrades.frame s _ c hup rfl (fun u hu _ => ?_) (fun c' hne => hmove hne) ?_
    · simp only [MdlLock.removeTicket, mem_unlink]
      exact ⟨hu, h.apart u hu t hin⟩
    · rw [hmoved]
      trivial

/-- A clone for another context is compatible with the tickets of the context that it is cloned
from. -/
def ClonesCompatible (s : State) (action : Action) : Prop :=
  ∀ c source type duration t, action = .cloneTicket c source type duration ->
    s.ticket? source = some t -> ∀ u ∈ s.lock.granted.list, u.ctx = t.ctx -> u.ctx ≠ c ->
    u.type ∉ s.lock.strategy.incompatibleGranted type

lemma Exclusive.stepped (h : s.Coherent) (hup : s.Upgrades) (hex : s.Exclusive)
    (hwaits : s.Waits action) (hclone : s.ClonesCompatible action)
    (hstep : Stepped m s action s') : s'.Exclusive := by
  cases hstep with
  | same | fresh | moved | failed | waited | took | slot | recycled => exact hex
  | added _ c type duration place hidle hreason hplace hfits hat =>
    have hcompat : s.Compatible c type := by
      rcases hreason with hgrant | ⟨source, t, rfl, hopt, hstrong⟩
      · exact h.compatible_of_grantable hex hgrant
      · obtain ⟨ht, -⟩ := mem_of_ticket? hopt
        intro u hu hctx
        by_cases heq : u.ctx = t.ctx
        · exact hclone c source type duration t rfl hopt u hu heq hctx
        · exact hex.compatible ht (Strategy.hasStrongerOrEqualType_iff.mp hstrong) u hu heq
    refine @Exclusive.of_subset s _ ⟨s.nextId, c, type⟩ hex hcompat rfl fun t ht => ?_
    rcases mem_append.mp ht with ht | ht
    · exact .inl ht
    · exact .inr (mem_singleton.mp ht)
  | merged c id newId isNewTicket newType t newTicket hplace ht hnew =>
    obtain ⟨-, -, hctx, -⟩ := h.of_own? ht
    have hat := hup c
    rw [hplace] at hat
    obtain ⟨-, u, hu, huid, huctx, hstrong, -⟩ := hat
    have hcompat := hex.compatible hu hstrong
    rw [huctx, ← hctx] at hcompat
    exact @Exclusive.of_subset s _ { t with type := newType } hex hcompat strategy_merge
      fun v hv => mem_merge hv
  | downgraded c t type duration hidle ht hctx hown hweaker =>
    have hcoherent : (s.retype t type).Coherent := by
      subst hctx
      exact h.retype ht hown
    refine Exclusive.rescheduleWaiters hcoherent ?_ m
    have hcompat := hex.compatible ht hweaker
    exact @Exclusive.of_subset s _ { t with type := type } hex hcompat rfl fun u hu => mem_retype hu
  | released c t duration hidle ht hctx hown =>
    subst hctx
    exact @Exclusive.removeTicket (s.dropTicket t.ctx duration t.id) t m .granted
      (h.release ht hown hidle rfl) hex
  | gaveUp c t hplace =>
    exact @Exclusive.removeTicket (s.moveTo c .idle) t m .waiting
      (h.giveUp hplace (hwaits c rfl)) hex

lemma Settled.stepped (h : s.Coherent) (hs : s.Settled) (hwaits : s.Waits action)
    (hconnected : ∀ c, action ≠ .disconnected c) (hstep : Stepped m s action s') : s'.Settled := by
  have hmove : ∀ {s' : State} {c : Nat} {place : Place}, s'.wait = s.wait ->
      s'.place = update s.place c place ->
      (∀ t, place = .failed t -> s.wait c ≠ .granted ∧ s.wait c ≠ .empty) -> s'.Settled := by
    intro s' c place hwait hplace hc c' t ht
    rw [hplace, update_apply] at ht
    rw [hwait]
    split at ht
    case isTrue heq =>
      rw [heq]
      exact hc t ht
    case isFalse => exact hs c' t ht
  have hrest : ∀ {place : Place} {t : Ticket}, place.Resting -> place ≠ .failed t := by
    rintro place t hplace rfl
    exact hplace
  cases hstep with
  | same | fresh | recycled => exact hs
  | moved _ c place hidle hplace => exact hmove rfl rfl fun t heq => absurd heq (hrest hplace)
  | failed _ c t duration task hplace hslot hempty =>
    exact hmove rfl rfl fun _ _ => ⟨hslot, fun heq => hconnected c (hempty heq)⟩
  | added _ c type duration place hidle hreason hplace =>
    exact hmove rfl rfl fun t heq => absurd heq (hrest hplace)
  | waited _ c type duration task =>
    intro c' t ht
    simp only [moveTo, update_apply] at ht ⊢
    split at ht
    case isTrue => cases ht
    case isFalse hne =>
      rw [if_neg hne]
      exact hs c' t ht
  | took c t duration task place hplace hslot hresting =>
    exact hmove rfl rfl fun t heq => absurd heq (hrest hresting)
  | merged c id newId isNewTicket newType =>
    cases isNewTicket <;> exact hmove rfl rfl fun _ h => by cases h
  | downgraded c t type duration hidle ht hctx hown =>
    subst hctx
    exact Settled.rescheduleWaiters (h.retype ht hown).waiting.nodup hs m
  | released c t duration hidle ht hctx hown =>
    subst hctx
    exact @Settled.removeTicket (s.dropTicket t.ctx duration t.id) t m .granted
      (h.release ht hown hidle rfl).waiting.nodup hs
  | slot _ c status hslot =>
    intro c' t ht
    obtain ⟨hgranted, hempty⟩ := hs c' t ht
    by_cases heq : c' = c
    · subst heq
      rcases hslot with hidle | ⟨hslot, -⟩
      · rw [hidle] at ht
        cases ht
      · exact absurd hslot hempty
    · simp only [update_apply, if_neg heq]
      exact ⟨hgranted, hempty⟩
  | gaveUp c t hplace =>
    exact @Settled.removeTicket (s.moveTo c .idle) t m .waiting
      (h.giveUp hplace (hwaits c rfl)).waiting.nodup (hmove rfl rfl fun _ h => by cases h)

end State

/-- No client is lost during a wait, and a clone for another context is compatible with what the
context it is cloned from has. -/
def Guarded (s : State) (action : Action) : Prop :=
  (∀ c, action ≠ .disconnected c) ∧ s.ClonesCompatible action

lemma Reachable.exclusive {s : State} (h : Reachable m Guarded s) :
    s.Coherent ∧ s.Upgrades ∧ s.Settled ∧ s.Exclusive := by
  induction h with
  | initial strategy hogLockCount wait =>
    refine ⟨coherent_initial strategy hogLockCount wait, fun c => trivial, ?_, ?_⟩
    · intro c t ht
      cases ht
    · intro t ht
      cases ht
  | @step s s' action _ hc hstep ih =>
    obtain ⟨hs, hup, hsettled, hex⟩ := ih
    have hwaits : s.Waits action := by
      rintro c rfl
      simp only [Mdl.step] at hstep
      split at hstep
      · rename_i t hplace
        exact (hsettled c t hplace).1
      · cases hstep
    have hstepped := stepped_of_step hs hstep
    exact ⟨hs.stepped hwaits hstepped, State.Upgrades.stepped hs hup hwaits hstepped,
      State.Settled.stepped hs hsettled hwaits hc.1 hstepped,
      State.Exclusive.stepped hs hup hex hwaits hc.2 hstepped⟩

/-- For any number of contexts and any interleaving of their steps, with waits that end by a grant,
as a victim, by a timeout or by a kill: if a clone for another context is compatible with the tickets
of the context that it is cloned from, then no two granted tickets of different contexts are
incompatible. -/
theorem metadata_locks_exclusive (maxWriteLockCount : Nat) (s : State)
    (h : Reachable maxWriteLockCount Guarded s) :
    ∀ t ∈ s.lock.granted.list, ∀ u ∈ s.lock.granted.list, t.ctx ≠ u.ctx ->
      u.type ∉ s.lock.strategy.incompatibleGranted t.type :=
  h.exclusive.2.2.2

/-- A reader and a writer have the lock, a third context waits for it alone, and the reader
goes. -/
def writerAndWaiter : List Action :=
  [.acquireLock 1 .sharedRead .transaction, .acquireLock 2 .sharedWrite .transaction,
    .acquireLock 3 .exclusive .transaction, .releaseLock 1 .transaction 0]

theorem metadata_locks_exclusive_writer : ∃ s, Reachable 1 Guarded s ∧
    s.lock.granted.list = [⟨1, 2, .sharedWrite⟩] ∧ s.Exclusive := by
  have hcond : ∀ action ∈ writerAndWaiter, ∀ s, Guarded s action := by
    intro action hmem s
    constructor
    · rintro c rfl
      simp [writerAndWaiter] at hmem
    · rintro c source type duration t rfl
      simp [writerAndWaiter] at hmem
  obtain ⟨s, hreach, hlist⟩ := @Reachable.of_run 1 Guarded .objectLock 0 (fun _ => .empty)
    writerAndWaiter (fun s => s.lock.granted.list = [⟨1, 2, .sharedWrite⟩]) _ hcond
    (by decide +kernel)
  exact ⟨s, hreach, hlist, metadata_locks_exclusive 1 s hreach⟩

def clonedExclusive : List Action :=
  [.acquireLock 1 .exclusive .transaction, .cloneTicket 2 0 .exclusive .explicit]

theorem clonedExclusive_granted :
    ∃ s, Reachable 1 (fun _ action => ∀ c, action ≠ .disconnected c) s ∧
      s.lock.granted.list = [⟨0, 1, .exclusive⟩, ⟨1, 2, .exclusive⟩] ∧
      MdlType.exclusive ∈ s.lock.strategy.incompatibleGranted .exclusive := by
  refine @Reachable.of_run 1 _ .objectLock 0 (fun _ => .empty) clonedExclusive _ inferInstance
    (fun a ha s c heq => ?_) (by decide +kernel)
  subst heq
  simp [clonedExclusive] at ha

end Mdl
