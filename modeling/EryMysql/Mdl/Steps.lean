import EryMysql.Mdl.Coherence

/-!
# The steps of metadata locks

What a step can do to the lock and to the places of the contexts, and that the lists and bitmaps
of tickets agree with what the contexts have and wait for in every state that is reached.
-/

namespace Mdl

open Function List TicketList State
open Option hiding any any_eq_false

namespace Strategy

variable {strategy : Strategy} {own type : MdlType}

lemma hasStrongerOrEqualType_iff : strategy.hasStrongerOrEqualType own type = true ↔
      strategy.incompatibleGranted type ⊆ strategy.incompatibleGranted own := by
  simp [hasStrongerOrEqualType]

lemma incompatibleGranted_upgrade
    (hown : own ∈ [MdlType.sharedUpgradable, .sharedNoWrite, .sharedNoReadWrite])
    (hweaker : ¬ strategy.hasStrongerOrEqualType own type = true) :
    strategy.incompatibleGranted own ⊆ strategy.incompatibleGranted type := by
  cases strategy <;> cases own <;> cases type <;> revert hown hweaker <;> decide

end Strategy

namespace State

variable {s s' : State} {t ticket : Ticket} {type : MdlType} {action : Action}

def HasTicket (s : State) (c : Nat) (id : Nat) (p : MdlType -> Prop) : Prop :=
  ∃ t ∈ s.lock.granted.list, t.id = id ∧ t.ctx = c ∧ p t.type

/-- What a context at a place of an upgrade knows: its old ticket is weaker than the type it wants,
its new ticket is not, and has that type if it was made for the upgrade. -/
def UpgradeAt (s : State) (c : Nat) : Place -> Prop
  | .merging id newId isNewTicket newType =>
    s.HasTicket c id (fun type => s.lock.strategy.incompatibleGranted type ⊆
      s.lock.strategy.incompatibleGranted newType) ∧
    s.HasTicket c newId (fun type => s.lock.strategy.incompatibleGranted newType ⊆
      s.lock.strategy.incompatibleGranted type ∧ (isNewTicket = true -> type = newType))
  | .waiting t _ (.upgrade id newType _) =>
    t.type = newType ∧ s.HasTicket c id (fun type => s.lock.strategy.incompatibleGranted type ⊆
      s.lock.strategy.incompatibleGranted newType)
  | _ => True

end State

/-- The steps, with what is known of the place to which a context moves. -/
inductive Stepped (m : Nat) (s : State) : Action -> State -> Prop
  | same (action : Action) : Stepped m s action s
  | fresh (action : Action) : Stepped m s action { s with nextId := s.nextId + 1 }
  /-- A request is met by a ticket that the context has. -/
  | moved (action : Action) (c : Nat) (place : Place) (hidle : s.place c = .idle)
      (hplace : place.Resting) (hfits : s.Fits c place) (hup : s.UpgradeAt c place) :
      Stepped m s action (s.moveTo c place)
  /-- A wait ends without the lock; only a lost client leaves the slot empty. -/
  | failed (action : Action) (c : Nat) (t : Ticket) (duration : Duration) (task : Task)
      (hplace : s.place c = .waiting t duration task) (hslot : s.wait c ≠ .granted)
      (hempty : s.wait c = .empty -> action = .disconnected c) :
      Stepped m s action (s.moveTo c (.failed t))
  | added (action : Action) (c : Nat) (type : MdlType) (duration : Duration) (place : Place)
      (hidle : s.place c = .idle)
      (hreason : s.Grantable c type ∨ ∃ source t, action = .cloneTicket c source type duration ∧
        s.ticket? source = some t ∧ s.lock.strategy.hasStrongerOrEqualType t.type type = true)
      (hplace : place.Resting) (hfits : (s.addGranted c type duration).Fits c place)
      (hup : (s.addGranted c type duration).UpgradeAt c place) :
      Stepped m s action ((s.addGranted c type duration).moveTo c place)
  | waited (action : Action) (c : Nat) (type : MdlType) (duration : Duration) (task : Task)
      (hidle : s.place c = .idle) (hcan : s.lock.canGrantLock type c false = false)
      (hfits : s.Fits c (.waiting ⟨s.nextId, c, type⟩ duration task))
      (hup : s.UpgradeAt c (.waiting ⟨s.nextId, c, type⟩ duration task)) :
      Stepped m s action ({ s with
        nextId := s.nextId + 1
        lock := { s.lock with waiting := s.lock.waiting.addTicket ⟨s.nextId, c, type⟩ }
        wait := update s.wait c .empty }.moveTo c
          (.waiting ⟨s.nextId, c, type⟩ duration task))
  | took (c : Nat) (t : Ticket) (duration : Duration) (task : Task) (place : Place)
      (hplace : s.place c = .waiting t duration task) (hslot : s.wait c = .granted)
      (hrest : place.Resting) (hfits : (s.pushTicket c duration t.id).Fits c place)
      (hup : s.UpgradeAt c (s.place c) -> s.UpgradeAt c place) :
      Stepped m s (.wakeUp c) ((s.pushTicket c duration t.id).moveTo c place)
  | merged (c id newId : Nat) (isNewTicket : Bool) (newType : MdlType) (t newTicket : Ticket)
      (hplace : s.place c = .merging id newId isNewTicket newType)
      (ht : s.own? c id = some t) (hnew : s.own? c newId = some newTicket) :
      Stepped m s (.mergeTickets c) (s.merge c t newTicket isNewTicket newType)
  | downgraded (c : Nat) (t : Ticket) (type : MdlType) (duration : Duration)
      (hidle : s.place c = .idle) (ht : t ∈ s.lock.granted.list) (hctx : t.ctx = c)
      (hown : t.id ∈ s.tickets c duration)
      (hweaker : s.lock.strategy.incompatibleGranted type ⊆
        s.lock.strategy.incompatibleGranted t.type) :
      Stepped m s (.downgradeLock c t.id type) ((s.retype t type).rescheduleWaiters m)
  | released (c : Nat) (t : Ticket) (duration : Duration) (hidle : s.place c = .idle)
      (ht : t ∈ s.lock.granted.list) (hctx : t.ctx = c) (hown : t.id ∈ s.tickets c duration) :
      Stepped m s (.releaseLock c duration t.id)
        ((s.dropTicket c duration t.id).removeTicket m .granted t)
  /-- A wait slot is closed, or it is not one that this lock is waited for with. -/
  | slot (action : Action) (c : Nat) (status : WaitStatus)
      (hslot : s.place c = .idle ∨
        (s.wait c = .empty ∧ status ≠ .granted ∧ status ≠ .empty)) :
      Stepped m s action { s with wait := update s.wait c status }
  | gaveUp (c : Nat) (t : Ticket) (hplace : s.place c = .failed t) :
      Stepped m s (.giveUp c) ((s.moveTo c .idle).removeTicket m .waiting t)
  | recycled (n : Nat) (hempty : s.lock.isEmpty) :
      Stepped m s (.recycle n) { s with lock := { s.lock with hogLockCount := n } }

namespace State

variable {s s' : State} {t ticket : Ticket} {type : MdlType} {action : Action}

lemma moveTo_self {place : Place} (h : s.place c = place) : s.moveTo c place = s := by
  rw [moveTo, ← h, update_eq_self]

/-- The old ticket of an upgrade that is asked for. -/
def Task.Known (s : State) (c : Nat) (type : MdlType) (duration : Duration) : Task -> Prop
  | .acquire => True
  | .upgrade id newType savepoint => type = newType ∧ duration = .transaction ∧
    savepoint = s.savepoint c ∧ (∃ d, id ∈ s.tickets c d) ∧ s.HasTicket c id fun own =>
      s.lock.strategy.incompatibleGranted own ⊆ s.lock.strategy.incompatibleGranted newType

lemma HasTicket.addGranted {id : Nat} {p : MdlType -> Prop} (h : s.HasTicket c id p) :
    (s.addGranted c type duration).HasTicket c id p := by
  obtain ⟨t, ht, hid, hctx, hp⟩ := h
  exact ⟨t, mem_append_left _ ht, hid, hctx, hp⟩

lemma stepped_acquireLock (h : s.Coherent) (hidle : s.place c = .idle) {task : Task}
    (htask : Task.Known s c type duration task) :
    Stepped m s action (s.acquireLock c type duration task) := by
  unfold acquireLock
  rcases @tryAcquireLockImpl_cases s c duration type h with
    ⟨id, heq, -, t, ht, rfl, hin, hstrong⟩ | ⟨hgrant, heq⟩ | ⟨hcan, heq⟩ <;> rw [heq] <;> dsimp only
  · cases task with
    | acquire => exact .moved action c .idle hidle trivial trivial trivial
    | upgrade old newType savepoint =>
      obtain ⟨rfl, -, rfl, -, hold⟩ := htask
      rw [acquired, hasLock_savepoint]
      exact .moved action c _ hidle trivial nofun ⟨hold, t, ht, rfl, h.ctx_of_mem ht hin,
        Strategy.hasStrongerOrEqualType_iff.mp hstrong, nofun⟩
  · cases task with
    | acquire =>
      exact .added action c type duration .idle hidle (.inl hgrant) trivial trivial trivial
    | upgrade old newType savepoint =>
      obtain ⟨rfl, rfl, -, -, hold⟩ := htask
      refine .added action c type _ _ hidle (.inl hgrant) trivial (fun _ => ⟨?_, ?_⟩)
        ⟨hold.addGranted, ⟨s.nextId, c, type⟩, mem_append_right _ (mem_singleton.mpr rfl), rfl, rfl,
          Finset.Subset.refl _, fun _ => rfl⟩
      · obtain ⟨t, ht, rfl, -⟩ := hold
        exact (h.granted.fresh t ht).ne'
      · exact mem_pushTicket.mpr (.inr ⟨rfl, rfl, rfl⟩)
  · cases task with
    | acquire => exact .waited action c type duration .acquire hidle hcan trivial trivial
    | upgrade old newType savepoint =>
      obtain ⟨htype, hd, -, hin, hold⟩ := htask
      exact .waited action c type duration _ hidle hcan ⟨hd, hin⟩ ⟨htype, hold⟩

lemma stepped_of_step (h : s.Coherent) (hstep : step m s action = some s') :
    Stepped m s action s' := by
  cases action with
  | tryAcquireLock c type duration =>
    simp only [Mdl.step, ite_none_right_eq_some, some.injEq] at hstep
    obtain ⟨hidle, rfl⟩ := hstep
    rcases @tryAcquireLockImpl_cases s c duration type h with
      ⟨id, heq, -, -⟩ | ⟨hgrant, heq⟩ | ⟨-, heq⟩ <;> rw [heq]
    · exact .same _
    · have hadded := @Stepped.added m s (.tryAcquireLock c type duration) c type duration .idle
        hidle (.inl hgrant) trivial trivial trivial
      rw [moveTo_self (show (s.addGranted c type duration).place c = .idle from hidle)] at hadded
      exact hadded
    · exact .fresh _
  | acquireLock c type duration =>
    simp only [Mdl.step, ite_none_right_eq_some, some.injEq] at hstep
    obtain ⟨hidle, rfl⟩ := hstep
    exact stepped_acquireLock h hidle trivial
  | cloneTicket c source type duration =>
    simp only [Mdl.step, bind_eq_some, ite_none_right_eq_some, some.injEq] at hstep
    obtain ⟨t, hopt, ⟨hidle, hstrong⟩, rfl⟩ := hstep
    have hadded := @Stepped.added m s (.cloneTicket c source type duration) c type duration .idle
      hidle (.inr ⟨source, t, rfl, hopt, hstrong⟩) trivial trivial trivial
    rw [moveTo_self (show (s.addGranted c type duration).place c = .idle from hidle)] at hadded
    exact hadded
  | upgradeSharedLock c id newType =>
    simp only [Mdl.step, bind_eq_some, ite_none_right_eq_some] at hstep
    obtain ⟨t, hown, hidle, hstep⟩ := hstep
    split at hstep
    case isTrue =>
      cases hstep
      exact .same _
    case isFalse hweaker =>
      obtain ⟨htype, hstep⟩ := ite_none_right_eq_some.mp hstep
      cases hstep
      obtain ⟨ht, rfl, hctx, d, hd⟩ := h.of_own? hown
      exact stepped_acquireLock h hidle ⟨rfl, rfl, rfl, ⟨d, hd⟩, t, ht, rfl, hctx,
        Strategy.incompatibleGranted_upgrade htype hweaker⟩
  | mergeTickets c =>
    simp only [Mdl.step] at hstep
    split at hstep
    · rename_i id newId isNewTicket newType hplace
      simp only [bind_eq_some, some.injEq] at hstep
      obtain ⟨t, ht, t', ht', rfl⟩ := hstep
      exact .merged c id newId isNewTicket newType t t' hplace ht ht'
    · cases hstep
  | downgradeLock c id type =>
    simp only [Mdl.step, bind_eq_some, ite_none_right_eq_some] at hstep
    obtain ⟨t, hown, hidle, hstep⟩ := hstep
    split at hstep
    case isTrue =>
      cases hstep
      exact .same _
    case isFalse hstrong =>
      obtain ⟨-, hstep⟩ := ite_none_right_eq_some.mp hstep
      cases hstep
      obtain ⟨ht, rfl, hctx, d, hd⟩ := h.of_own? hown
      rw [not_or, not_not, Strategy.hasStrongerOrEqualType_iff] at hstrong
      exact .downgraded c t type d hidle ht hctx hd hstrong.2
  | releaseLock c duration id =>
    simp only [Mdl.step, ite_none_right_eq_some, bind_eq_some, some.injEq] at hstep
    obtain ⟨⟨hidle, hin⟩, t, hopt, rfl⟩ := hstep
    obtain ⟨ht, rfl⟩ := mem_of_ticket? hopt
    rw [removeTicket_dropTicket]
    exact .released c t duration hidle ht (h.ctx_of_mem ht hin) hin
  | victim c =>
    simp only [Mdl.step] at hstep
    split at hstep
    case isTrue hslot =>
      cases hstep
      exact .slot _ c .victim (.inr ⟨hslot, by simp, by simp⟩)
    case isFalse =>
      cases hstep
      exact .same _
  | killed c | timeout c =>
    simp only [Mdl.step] at hstep
    split at hstep
    · obtain ⟨hslot, hstep⟩ := ite_none_right_eq_some.mp hstep
      cases hstep
      exact .slot _ c _ (.inr ⟨hslot, by simp, by simp⟩)
    · cases hstep
  | wakeUp c =>
    simp only [Mdl.step] at hstep
    split at hstep
    · rename_i t duration task hplace
      split at hstep
      case isTrue hslot =>
        cases hstep
        have hp : s.Pends c t := .inl ⟨duration, task, hplace⟩
        obtain ⟨hctx, hin⟩ := h.pends c t hp
        have ht : t ∈ s.lock.granted.list := by
          rcases hin with hw | hg
          · exact absurd (hctx ▸ hslot) (h.waits t hw).2
          · exact hg.2
        cases task with
        | acquire =>
          exact .took c t duration .acquire .idle hplace hslot trivial trivial fun _ => trivial
        | upgrade old newType savepoint =>
          have hfits := h.fits c
          rw [hplace] at hfits
          obtain ⟨rfl, d, hold⟩ := hfits
          refine .took c t _ _ _ hplace hslot trivial (fun _ => ⟨fun heq => ?_, ?_⟩) fun hknown => ?_
          · exact h.not_held_of_pends hp (heq ▸ hold)
          · exact mem_pushTicket.mpr (.inr ⟨rfl, rfl, rfl⟩)
          · rw [hplace] at hknown
            exact ⟨hknown.2, t, ht, rfl, hctx, by rw [hknown.1], fun _ => hknown.1⟩
      case isFalse hslot =>
        split at hstep
        case isTrue => cases hstep
        case isFalse hempty =>
          cases hstep
          exact .failed _ c t duration task hplace hslot fun heq => absurd heq hempty
    · cases hstep
  | disconnected c =>
    simp only [Mdl.step] at hstep
    split at hstep
    · rename_i t duration task hplace
      obtain ⟨hslot, hstep⟩ := ite_none_right_eq_some.mp hstep
      cases hstep
      exact .failed _ c t duration task hplace (by simp [hslot]) fun _ => rfl
    · cases hstep
  | giveUp c =>
    simp only [Mdl.step] at hstep
    split at hstep
    · rename_i t hplace
      cases hstep
      rw [removeTicket_moveTo]
      exact .gaveUp c t hplace
    · cases hstep
  | elsewhere c status =>
    simp only [Mdl.step, ite_none_right_eq_some, some.injEq] at hstep
    obtain ⟨hidle, rfl⟩ := hstep
    exact .slot _ c status (.inl hidle)
  | recycle n =>
    simp only [Mdl.step, ite_none_right_eq_some, some.injEq] at hstep
    obtain ⟨hempty, rfl⟩ := hstep
    exact .recycled n hempty

/-- The step of a context that gives up finds its ticket among the waiting ones. -/
def Waits (s : State) (action : Action) : Prop :=
  ∀ c, action = .giveUp c -> s.wait c ≠ .granted

/-- Every step but the one of a context that was granted the lock and gives up keeps the
invariant. -/
lemma Coherent.stepped (h : s.Coherent) (hwaits : s.Waits action) (hstep : Stepped m s action s') :
    s'.Coherent := by
  cases hstep with
  | same => exact h
  | fresh => exact h.setNextId
  | moved _ c place hidle hrest hfits =>
    exact h.moveTo (fun t => iff_of_false (not_pends_moveTo hrest) (not_pends_of_idle hidle)) hfits
  | failed _ c t duration task hplace =>
    refine h.moveTo (fun u => ?_) trivial
    rw [moveTo_pends_iff]
    simp [Pends, hplace]
  | added _ c type duration place hidle hreason hrest hfits =>
    exact (h.addGranted hidle).moveTo
      (fun t => iff_of_false (not_pends_moveTo hrest) (not_pends_of_idle hidle)) hfits
  | waited _ c type duration task hidle hcan hfits => exact h.startWait hidle hfits
  | took c t duration task place hplace hslot hrest hfits =>
    exact h.takeTicket hplace hslot hrest hfits
  | merged c id newId isNewTicket newType t newTicket hplace ht hnew => exact h.merge hplace ht hnew
  | downgraded c t type duration hidle ht hctx hown =>
    subst hctx
    exact (h.retype ht hown).rescheduleWaiters m
  | released c t duration hidle ht hctx hown =>
    subst hctx
    exact @Coherent.removeTicket (s.dropTicket t.ctx duration t.id) t m .granted
      (h.release ht hown hidle rfl)
  | slot _ c status hslot =>
    refine h.setWait fun t hp => ?_
    rcases hslot with hidle | ⟨hempty, hne, -⟩
    · exact absurd hp (not_pends_of_idle hidle)
    · exact ⟨by simp [hempty], hne⟩
  | gaveUp c t hplace =>
    exact @Coherent.removeTicket (s.moveTo c .idle) t m .waiting (h.giveUp hplace (hwaits c rfl))
  | recycled n => exact h.setHogLockCount n

end State

lemma coherent_initial (strategy : Strategy) (hogLockCount : Nat) (wait : Nat -> WaitStatus) :
    (initial strategy hogLockCount wait).Coherent := by
  have hempty : ∀ nextId, Filed ⟨[], ∅⟩ nextId := fun _ => ⟨by simp [TicketList.Exact], nodup_nil, nofun⟩
  constructor
  case granted | waiting => exact hempty _
  all_goals simp [initial, State.Pends, State.Fits]

/-- The invariant holds in every state that is reached without such a step. -/
lemma Reachable.coherent {m : Nat} {cond : State -> Action -> Prop}
    (hcond : ∀ s action, cond s action -> s.Waits action) {s : State}
    (h : Reachable m cond s) : s.Coherent := by
  induction h with
  | initial strategy hogLockCount wait => exact coherent_initial strategy hogLockCount wait
  | step _ hc hstep ih => exact ih.stepped (hcond _ _ hc) (State.stepped_of_step ih hstep)

/-- A ticket that was taken out of the lists does not come back when waiters are woken up. -/
lemma State.ne_of_mem_removeTicket {s : State} {m : Nat} {queue : Queue} {ticket u : Ticket}
    (hnodup : (s.lock.waiting.list.map Ticket.id).Nodup)
    (hu : u ∈ (s.removeTicket m queue ticket).lock.granted.list ++
      (s.removeTicket m queue ticket).lock.waiting.list) : u.id ≠ ticket.id := by
  have hremoved : ∀ u ∈ (s.lock.removeTicket queue ticket).granted.list ++
      (s.lock.removeTicket queue ticket).waiting.list, u.id ≠ ticket.id := by
    intro u hu
    cases queue <;> simp only [MdlLock.removeTicket, mem_append,
      list_clearBitIfNotInList, mem_unlink] at hu <;>
      exact hu.elim And.right And.right
  have hnodup' : ((s.lock.removeTicket queue ticket).waiting.list.map Ticket.id).Nodup := by
    cases queue <;> simp only [MdlLock.removeTicket, list_clearBitIfNotInList] <;>
      exact hnodup.sublist (Sublist.map _ filter_sublist)
  unfold removeTicket at hu
  dsimp only at hu
  split at hu
  · exact hremoved u hu
  · refine @rescheduleWaiters_induction { s with lock := s.lock.removeTicket queue ticket }
      (fun s => ∀ u ∈ s.lock.granted.list ++ s.lock.waiting.list, u.id ≠ ticket.id) m hnodup'
      hremoved (fun s t skip hs ht _ _ u hu => ?_) (fun s hs => hs) u hu
    simp only [grant, MdlLock.removeTicket, list_addTicket, mem_append,
      list_clearBitIfNotInList, mem_unlink, mem_singleton] at hu
    rcases hu with (⟨hu, -⟩ | rfl) | ⟨hu, -⟩
    · exact hs u (mem_append_left _ hu)
    · exact hs u (mem_append_right _ ht)
    · exact hs u (mem_append_right _ hu)

/-- The ticket is one that a context has or has asked for. -/
def State.Live (s : State) (id : Nat) : Prop :=
  (∃ c d, id ∈ s.tickets c d) ∨ ∃ c t, s.Pends c t ∧ t.id = id

/-- If no context gives up after it was granted the lock, then in every state each ticket of a
context is in one of the two lists and not in the other one, the lists hold nothing else, each
bitmap is the set of the types in its list, and a context that gives up leaves no trace. -/
theorem queues_coherent (maxWriteLockCount : Nat) (s : State)
    (h : Reachable maxWriteLockCount State.Waits s) :
    (∀ id, s.Live id ->
      ((∃ t ∈ s.lock.granted.list, t.id = id) ∧ ∀ t ∈ s.lock.waiting.list, t.id ≠ id) ∨
      ((∃ t ∈ s.lock.waiting.list, t.id = id) ∧ ∀ t ∈ s.lock.granted.list, t.id ≠ id)) ∧
    (∀ t ∈ s.lock.granted.list ++ s.lock.waiting.list, s.Live t.id) ∧
    (s.lock.granted.list.map Ticket.id).Nodup ∧ (s.lock.waiting.list.map Ticket.id).Nodup ∧
    s.lock.granted.Exact ∧ s.lock.waiting.Exact ∧
    ∀ c t s', s.place c = .failed t -> s.Waits (.giveUp c) ->
      step maxWriteLockCount s (.giveUp c) = some s' ->
      (∀ u ∈ s'.lock.granted.list ++ s'.lock.waiting.list, u.id ≠ t.id) ∧
      s'.lock.granted.Exact ∧ s'.lock.waiting.Exact := by
  have hs := h.coherent fun _ _ hc => hc
  have hgranted : ∀ t ∈ s.lock.granted.list,
      (∃ u ∈ s.lock.granted.list, u.id = t.id) ∧ ∀ u ∈ s.lock.waiting.list, u.id ≠ t.id :=
    fun t ht => ⟨⟨t, ht, rfl⟩, fun u hu heq => hs.apart t ht u hu heq.symm⟩
  refine ⟨?_, ?_, hs.granted.nodup, hs.waiting.nodup, hs.granted.bits, hs.waiting.bits, ?_⟩
  · rintro id (⟨c, d, hin⟩ | ⟨c, t, hp, rfl⟩)
    · obtain ⟨t, ht, rfl, -⟩ := hs.held c d id hin
      exact .inl (hgranted t ht)
    · rcases (hs.pends c t hp).2 with hw | ⟨-, hg⟩
      · exact .inr ⟨⟨t, hw, rfl⟩, fun u hu => hs.apart u hu t hw⟩
      · exact .inl (hgranted t hg)
  · intro t ht
    rcases mem_append.mp ht with hg | hw
    · rcases hs.known t hg with ⟨d, hd⟩ | hp
      · exact .inl ⟨t.ctx, d, hd⟩
      · exact .inr ⟨t.ctx, t, hp, rfl⟩
    · exact .inr ⟨t.ctx, t, (hs.waits t hw).1, rfl⟩
  · intro c t s' hplace hwaits hstep
    have hs' := hs.stepped hwaits (State.stepped_of_step hs hstep)
    refine ⟨fun u hu => ?_, hs'.granted.bits, hs'.waiting.bits⟩
    simp only [step, hplace, some.injEq] at hstep
    subst hstep
    exact State.ne_of_mem_removeTicket hs.waiting.nodup hu

def endedWait : List Action :=
  [.acquireLock 1 .exclusive .transaction, .acquireLock 2 .shared .transaction, .timeout 2,
    .wakeUp 2]

theorem queues_coherent_endedWait : ∃ s, Reachable 1 State.Waits s ∧
    s.lock.waiting.list = [⟨1, 2, .shared⟩] ∧ s.lock.granted.Exact ∧ s.lock.waiting.Exact := by
  have hcond : ∀ action ∈ endedWait, ∀ s : State, s.Waits action := by
    rintro action hmem s c rfl
    simp [endedWait] at hmem
  obtain ⟨s, hreach, hlist⟩ := @Reachable.of_run 1 State.Waits .objectLock 0 (fun _ => .empty)
    endedWait (fun s => s.lock.waiting.list = [⟨1, 2, .shared⟩]) _ hcond (by decide +kernel)
  obtain ⟨-, -, -, -, hgranted, hwaiting, -⟩ := queues_coherent 1 s hreach
  exact ⟨s, hreach, hlist, hgranted, hwaiting⟩

/-- A context waits, its client goes away, and the lock is released before it can give up: the
ticket leaves the granted ones, and its type stays in their bitmap. -/
def lostWaiter : List Action :=
  [.acquireLock 1 .exclusive .transaction, .acquireLock 2 .shared .transaction, .disconnected 2,
    .releaseLock 1 .transaction 0, .giveUp 2]

theorem lostWaiter_bitmap : ∃ s, Reachable 1 (fun _ _ => True) s ∧
    s.lock.granted.list = [] ∧ .shared ∈ s.lock.granted.bitmap :=
  @Reachable.of_run 1 _ .objectLock 0 (fun _ => .empty) lostWaiter _ inferInstance
    (fun _ _ _ => trivial) (by decide +kernel)

end Mdl
