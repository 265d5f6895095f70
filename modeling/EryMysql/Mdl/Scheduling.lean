import EryMysql.Mdl.Exclusion

/-!
# Waiters that could go on

After a step no context sleeps that could be granted the lock, if `reschedule_waiters` has looked at
every ticket. It passes over the tickets of the types that hog the lock when too many of those were
granted in a row and others wait, and then it may leave one behind that nothing blocks.
-/

namespace Mdl

open List TicketList Function

lemma Strategy.incompatibleWaiting_subset {strategy : Strategy} {type : MdlType} :
    strategy.incompatibleWaiting type ⊆ strategy.incompatibleGranted type := by
  cases strategy <;> cases type <;> decide

namespace State

variable {s s' : State} {c : Nat} {t u ticket : Ticket} {type : MdlType} {m : Nat}

/-- A granted ticket of another context is in the way. -/
def HeldUp (s : State) (c : Nat) (type : MdlType) : Prop :=
  ∃ u ∈ s.lock.granted.list, u.ctx ≠ c ∧ u.type ∈ s.lock.strategy.incompatibleGranted type

/-- A granted ticket of another context is in the way, or one that waits comes first. -/
def Blocked (s : State) (c : Nat) (type : MdlType) : Prop :=
  (∃ u ∈ s.lock.waiting.list, u.type ∈ s.lock.strategy.incompatibleWaiting type) ∨
    s.HeldUp c type

def NoneForgotten (s : State) : Prop :=
  ∀ t ∈ s.lock.waiting.list, s.wait t.ctx = .empty -> s.Blocked t.ctx t.type

lemma Coherent.canGrantLock_eq_false (h : s.Coherent) :
    s.lock.canGrantLock type c false = false ↔ s.Blocked c type := by
  rw [← Bool.not_eq_true, MdlLock.canGrantLock_iff h.granted.bits h.waiting.bits, Blocked, HeldUp]
  simp only [Bool.false_eq_true, false_or, not_and_or, not_forall, not_not, exists_prop]

lemma Coherent.canGrantLock_ignore_eq_false (h : s.Coherent) :
    s.lock.canGrantLock type c true = false ↔ s.HeldUp c type := by
  rw [← Bool.not_eq_true, MdlLock.canGrantLock_iff h.granted.bits h.waiting.bits, HeldUp]
  simp

lemma HeldUp.mono (h : s.HeldUp c type) (hstrategy : s'.lock.strategy = s.lock.strategy)
    (hgranted : ∀ u ∈ s.lock.granted.list, u ∈ s'.lock.granted.list) : s'.HeldUp c type := by
  obtain ⟨u, hu, hctx, htype⟩ := h
  exact ⟨u, hgranted u hu, hctx, hstrategy ▸ htype⟩

lemma Blocked.mono (h : s.Blocked c type) (hstrategy : s'.lock.strategy = s.lock.strategy)
    (hgranted : ∀ u ∈ s.lock.granted.list, u ∈ s'.lock.granted.list)
    (hwaiting : ∀ u ∈ s.lock.waiting.list, u ∈ s'.lock.waiting.list) : s'.Blocked c type := by
  rcases h with ⟨u, hu, htype⟩ | h
  · exact .inl ⟨u, hwaiting u hu, hstrategy ▸ htype⟩
  · exact .inr (h.mono hstrategy hgranted)

lemma Coherent.mem_grant_granted (h : s.Coherent) (ht : ticket ∈ s.lock.waiting.list)
    (hu : u ∈ s.lock.granted.list) : u ∈ (s.grant ticket).lock.granted.list := by
  simp only [State.grant, MdlLock.removeTicket, list_addTicket, mem_append, mem_unlink]
  exact .inl ⟨hu, h.apart u hu ticket ht⟩

lemma mem_grant_waiting :
    u ∈ (s.grant ticket).lock.waiting.list ↔ u ∈ s.lock.waiting.list ∧ u.id ≠ ticket.id := by
  simp [grant, MdlLock.removeTicket]

lemma Coherent.heldUp_grant (h : s.Coherent) (ht : ticket ∈ s.lock.waiting.list)
    (hheld : s.HeldUp c type) : (s.grant ticket).HeldUp c type :=
  hheld.mono rfl fun _ hu => h.mem_grant_granted ht hu

/-- A waiting ticket that came first is still in the way once it is granted. -/
lemma Coherent.blocked_grant (h : s.Coherent) (ht : ticket ∈ s.lock.waiting.list)
    (hctx : ticket.ctx ≠ c) (hblocked : s.Blocked c type) : (s.grant ticket).Blocked c type := by
  rcases hblocked with ⟨u, hu, htype⟩ | hheld
  · by_cases hid : u.id = ticket.id
    · have heq := h.waiting.eq hu ht hid
      subst heq
      refine .inr ⟨u, ?_, hctx, Strategy.incompatibleWaiting_subset htype⟩
      simp [State.grant]
    · exact .inl ⟨u, mem_grant_waiting.mpr ⟨hu, hid⟩, htype⟩
  · exact .inr (h.heldUp_grant ht hheld)

/-- What keeps a ticket waiting that the loop has passed. -/
def Passed (skip : Bool) (s : State) (c : Nat) (type : MdlType) : Prop :=
  if skip then s.HeldUp c type else s.Blocked c type

variable {skip isNewTicket : Bool} {newTicket : Ticket} {newType : MdlType} {todo : List Ticket}

lemma Passed.blocked (h : s.Passed skip c type) : s.Blocked c type := by
  cases skip with
  | true => exact .inr h
  | false => exact h

lemma Coherent.passed_of_canGrantLock (h : s.Coherent)
    (hcan : s.lock.canGrantLock type c skip = false) : s.Passed skip c type := by
  cases skip with
  | true => exact h.canGrantLock_ignore_eq_false.mp hcan
  | false => exact h.canGrantLock_eq_false.mp hcan

/-- The tickets that the loop has left behind, with those that it still has to look at. -/
def LeftBehind (skip : Bool) (todo : List Ticket) (s : State) : Prop :=
  ∀ t ∈ s.lock.waiting.list, s.wait t.ctx = .empty -> t ∈ todo ∨ s.Passed skip t.ctx t.type

lemma Coherent.leftBehind_turn (h : s.Coherent)
    (ht : ticket ∈ s.lock.waiting.list)
    (hhog : ¬ (skip = true ∧ ticket.type ∈ s.lock.strategy.hogLockTypes))
    (hleft : s.LeftBehind skip (ticket :: todo)) :
    (rescheduleWaiter skip s ticket).LeftBehind skip todo := by
  unfold rescheduleWaiter
  rw [if_neg hhog]
  split
  case isTrue hcan =>
    split
    case isTrue hslot =>
      intro t hw hempty
      obtain ⟨hw, hne⟩ := mem_grant_waiting.mp hw
      have hctx : ticket.ctx ≠ t.ctx := by
        intro heq
        have hp := (h.waits t hw).1
        rw [← heq] at hp
        exact hne (congrArg Ticket.id (hp.eq (h.waits ticket ht).1))
      simp only [State.grant, update_apply, if_neg (Ne.symm hctx)] at hempty
      rcases hleft t hw hempty with hin | hpassed
      · rcases mem_cons.mp hin with rfl | hin
        · exact absurd rfl hne
        · exact .inl hin
      · cases skip with
        | true => exact .inr (h.heldUp_grant ht hpassed)
        | false => exact .inr (h.blocked_grant ht hctx hpassed)
    case isFalse hslot =>
      intro t hw hempty
      rcases hleft t hw hempty with hin | hpassed
      · rcases mem_cons.mp hin with rfl | hin
        · exact absurd hempty hslot
        · exact .inl hin
      · exact .inr hpassed
  case isFalse hcan =>
    intro t hw hempty
    rcases hleft t hw hempty with hin | hpassed
    · rcases mem_cons.mp hin with rfl | hin
      · exact .inr (h.passed_of_canGrantLock (by simpa using hcan))
      · exact .inl hin
    · exact .inr hpassed

lemma rescheduleWaiter_cases {skip : Bool} :
    rescheduleWaiter skip s ticket = s ∨ rescheduleWaiter skip s ticket = s.grant ticket := by
  unfold rescheduleWaiter
  split
  · exact .inl rfl
  · split
    · split
      · exact .inr rfl
      · exact .inl rfl
    · exact .inl rfl

lemma Coherent.leftBehind_loop (h : s.Coherent)
    (hnodup : (todo.map Ticket.id).Nodup) (hmem : ∀ t ∈ todo, t ∈ s.lock.waiting.list)
    (hhog : ∀ t ∈ todo, ¬ (skip = true ∧ t.type ∈ s.lock.strategy.hogLockTypes))
    (hleft : s.LeftBehind skip todo) :
    (todo.foldl (rescheduleWaiter skip) s).LeftBehind skip [] := by
  induction todo generalizing s with
  | nil => exact hleft
  | cons ticket todo ih =>
    rw [map_cons, nodup_cons] at hnodup
    have ht := hmem ticket (mem_cons_self ..)
    have hnext := h.leftBehind_turn ht (hhog ticket (mem_cons_self ..)) hleft
    rw [foldl_cons]
    rcases @rescheduleWaiter_cases s ticket skip with heq | heq <;> rw [heq] at hnext ⊢
    · exact ih h hnodup.2 (fun t ht => hmem t (mem_cons_of_mem _ ht))
        (fun t ht => hhog t (mem_cons_of_mem _ ht)) hnext
    · refine ih (h.grant ht) hnodup.2 (fun t hin => mem_grant_waiting.mpr
        ⟨hmem t (mem_cons_of_mem _ hin), fun heq => ?_⟩)
        (fun t ht => hhog t (mem_cons_of_mem _ ht)) hnext
      exact hnodup.1 (heq ▸ mem_map_of_mem hin)

/-- The locks that hog were not granted too often, or only such ones or only others wait. -/
def Orderly (m : Nat) (s : State) : Prop :=
  s.lock.hogLockCount < m ∨
    (∀ t ∈ s.lock.waiting.list, t.type ∈ s.lock.strategy.hogLockTypes) ∨
    ∀ t ∈ s.lock.waiting.list, t.type ∉ s.lock.strategy.hogLockTypes

lemma Coherent.noneForgotten_rescheduleWaiters (h : s.Coherent) (horderly : s.Orderly m) :
    (s.rescheduleWaiters m).NoneForgotten := by
  have hskip : ∀ t ∈ s.lock.waiting.list,
      ¬ (s.skipHighPriority m = true ∧ t.type ∈ s.lock.strategy.hogLockTypes) := by
    rintro t ht ⟨hskip, hhog⟩
    simp only [skipHighPriority, decide_eq_true_eq] at hskip
    rcases horderly with hlt | hall | hnone
    · omega
    · refine hskip.2 (Finset.sdiff_eq_empty_iff_subset.mpr fun type htype => ?_)
      obtain ⟨u, hu, rfl⟩ := (h.waiting.bits type).mp htype
      exact hall u hu
    · exact hnone t ht hhog
  have hleft := h.leftBehind_loop h.waiting.nodup (fun t ht => ht) hskip
    (fun t ht _ => .inl ht)
  unfold State.rescheduleWaiters
  dsimp only
  generalize s.lock.waiting.list.foldl (rescheduleWaiter (s.skipHighPriority m)) s = s' at hleft ⊢
  have hnone : s'.NoneForgotten := by
    intro t ht hempty
    exact (hleft t ht hempty).resolve_left not_mem_nil |>.blocked
  split
  · exact hnone
  · exact hnone

lemma Coherent.noneForgotten_removeTicket {queue : Queue}
    (h : { s with lock := s.lock.removeTicket queue ticket }.Coherent) (horderly : s.Orderly m) :
    (s.removeTicket m queue ticket).NoneForgotten := by
  unfold State.removeTicket
  dsimp only
  split
  case isTrue hempty =>
    intro t ht
    simp only [MdlLock.isEmpty, Bool.and_eq_true, List.isEmpty_iff] at hempty
    rw [hempty.2] at ht
    cases ht
  case isFalse =>
    refine h.noneForgotten_rescheduleWaiters ?_
    have hsub : ∀ t ∈ (s.lock.removeTicket queue ticket).waiting.list,
        t ∈ s.lock.waiting.list := by
      intro t ht
      cases queue <;> simp only [MdlLock.removeTicket, list_clearBitIfNotInList,
        mem_unlink] at ht <;> exact ht.1
    have hstrategy : (s.lock.removeTicket queue ticket).strategy = s.lock.strategy :=
      strategy_removeTicket ..
    have hcount : (s.lock.removeTicket queue ticket).hogLockCount = s.lock.hogLockCount := by
      cases queue <;> rfl
    simp only [Orderly, hstrategy, hcount]
    exact horderly.imp_right (Or.imp (fun hall t ht => hall t (hsub t ht))
      fun hnone t ht => hnone t (hsub t ht))

/-- A step that takes nothing out of the lists, and opens no slot of a context that waits. -/
lemma NoneForgotten.mono (hn : s.NoneForgotten) (hstrategy : s'.lock.strategy = s.lock.strategy)
    (hgranted : ∀ u ∈ s.lock.granted.list, u ∈ s'.lock.granted.list)
    (hwaiting : s'.lock.waiting.list = s.lock.waiting.list)
    (hslot : ∀ t ∈ s.lock.waiting.list, s'.wait t.ctx = .empty -> s.wait t.ctx = .empty) :
    s'.NoneForgotten := by
  intro t ht hempty
  rw [hwaiting] at ht
  exact (hn t ht (hslot t ht hempty)).mono hstrategy hgranted (by rw [hwaiting]; exact fun _ h => h)

lemma mem_merge_self : { ticket with type := newType } ∈
      (s.merge c ticket newTicket isNewTicket newType).lock.granted.list :=
  mem_append_right _ (mem_singleton.mpr rfl)

lemma mem_waiting_merge (hu : u ∈ s.lock.waiting.list) (hne : u.id ≠ ticket.id)
    (hne' : u.id ≠ newTicket.id) :
    u ∈ (s.merge c ticket newTicket isNewTicket newType).lock.waiting.list := by
  cases isNewTicket with
  | false => exact mem_unlink.mpr ⟨hu, hne⟩
  | true => exact mem_unlink.mpr ⟨mem_unlink.mpr ⟨hu, hne'⟩, hne⟩

lemma mem_of_mem_waiting_merge
    (hu : u ∈ (s.merge c ticket newTicket isNewTicket newType).lock.waiting.list) :
    u ∈ s.lock.waiting.list := by
  cases isNewTicket with
  | false => exact (mem_unlink.mp hu).1
  | true => exact (mem_unlink.mp (mem_unlink.mp hu).1).1

/-- The tickets of a merge are replaced by one that is in the way of the same requests. -/
lemma Coherent.blocked_merge (h : s.Coherent) (hup : s.Upgrades) {id newId : Nat}
    (hplace : s.place c = .merging id newId isNewTicket newType) (ht : s.own? c id = some ticket)
    (hnew : s.own? c newId = some newTicket) {c' : Nat} (hb : s.Blocked c' type) :
    (s.merge c ticket newTicket isNewTicket newType).Blocked c' type := by
  obtain ⟨hmem, rfl, hctx, -⟩ := h.of_own? ht
  obtain ⟨hmem', rfl, hctx', -⟩ := h.of_own? hnew
  have hat := hup c
  rw [hplace] at hat
  obtain ⟨⟨u, hu, huid, -, hweaker⟩, v, hv, hvid, -, -, hnewType⟩ := hat
  obtain rfl := h.granted.eq hu hmem huid
  obtain rfl := h.granted.eq hv hmem' hvid
  have hmerged : ∀ {own}, s.lock.strategy.incompatibleGranted own ⊆
      s.lock.strategy.incompatibleGranted newType -> u.ctx ≠ c' ->
      own ∈ s.lock.strategy.incompatibleGranted type ->
      (s.merge c u v isNewTicket newType).HeldUp c' type := by
    intro own hsub hne htype
    refine ⟨{ u with type := newType }, mem_merge_self, hne, ?_⟩
    rw [strategy_merge, Strategy.incompatibleGranted_comm]
    exact hsub (Strategy.incompatibleGranted_comm .. |>.mp htype)
  rcases hb with ⟨w, hw, htype⟩ | ⟨w, hw, hne, htype⟩
  · refine .inl ⟨w, ?_, by rw [strategy_merge]; exact htype⟩
    exact mem_waiting_merge hw (fun heq => h.apart u hu w hw heq.symm)
      fun heq => h.apart v hv w hw heq.symm
  · refine .inr ?_
    by_cases hid : w.id = u.id
    · obtain rfl := h.granted.eq hw hu hid
      exact hmerged hweaker hne htype
    · by_cases hid' : w.id = v.id
      · obtain rfl := h.granted.eq hw hv hid'
        cases hnewTicket : isNewTicket with
        | true =>
          have heq := hnewType hnewTicket
          subst hnewTicket
          refine @hmerged w.type (by rw [heq]) ?_ htype
          rw [hctx, ← hctx']
          exact hne
        | false =>
          exact ⟨w, mem_retype_of_ne hw hid, hne, htype⟩
      · refine ⟨w, mem_merge_of_ne hw hid hid', hne, ?_⟩
        rw [strategy_merge]
        exact htype

lemma NoneForgotten.stepped (h : s.Coherent) (hup : s.Upgrades) (hn : s.NoneForgotten)
    {action : Action} (hwaits : s.Waits action) (horderly : s.Orderly m)
    (hstep : Stepped m s action s') : s'.NoneForgotten := by
  cases hstep with
  | same | fresh | moved | failed | took | recycled => exact hn
  | added => exact hn.mono rfl (fun u hu => mem_append_left _ hu) rfl fun _ _ hslot => hslot
  | waited _ c type duration task hidle hcan =>
    have hctx : ∀ t ∈ s.lock.waiting.list, t.ctx ≠ c := by
      intro t ht heq
      have hp := (h.waits t ht).1
      rw [heq] at hp
      exact not_pends_of_idle hidle hp
    have hmono : ∀ {c' type'}, s.Blocked c' type' -> State.Blocked _ c' type' := fun hb =>
      @Blocked.mono s ({ s with
        nextId := s.nextId + 1
        lock := { s.lock with waiting := s.lock.waiting.addTicket ⟨s.nextId, c, type⟩ }
        wait := update s.wait c .empty }.moveTo c
          (.waiting ⟨s.nextId, c, type⟩ duration task)) _ _ hb rfl (fun _ hu => hu)
        fun u hu => mem_append_left _ hu
    intro t ht hempty
    rcases mem_append.mp ht with ht | ht
    · simp only [State.moveTo, update_apply, if_neg (hctx t ht)] at hempty
      exact hmono (hn t ht hempty)
    · obtain rfl := mem_singleton.mp ht
      exact hmono (h.canGrantLock_eq_false.mp hcan)
  | merged c id newId isNewTicket newType t newTicket hplace ht hnew =>
    intro u hu hempty
    have hwait : (s.merge c t newTicket isNewTicket newType).wait = s.wait := by
      cases isNewTicket <;> rfl
    rw [hwait] at hempty
    exact h.blocked_merge hup hplace ht hnew (hn u (mem_of_mem_waiting_merge hu) hempty)
  | downgraded c t type duration hidle ht hctx hown hweaker =>
    subst hctx
    have hwaiting : (s.retype t type).lock.waiting = s.lock.waiting :=
      unlink_eq_self fun u hw heq => h.apart t ht u hw heq.symm
    refine (h.retype ht hown).noneForgotten_rescheduleWaiters ?_
    unfold Orderly
    rw [hwaiting]
    exact horderly
  | released c t duration hidle ht hctx hown =>
    subst hctx
    exact @Coherent.noneForgotten_removeTicket (s.dropTicket t.ctx duration t.id) t m .granted
      (h.release ht hown hidle rfl) horderly
  | slot _ c status hslot =>
    refine hn.mono rfl (fun _ hu => hu) rfl fun t ht hempty => ?_
    simp only [update_apply] at hempty
    split at hempty
    case isTrue heq =>
      rcases hslot with hidle | ⟨-, -, hne⟩
      · have hp := (h.waits t ht).1
        rw [heq] at hp
        exact absurd hp (not_pends_of_idle hidle)
      · exact absurd hempty hne
    case isFalse => exact hempty
  | gaveUp c t hplace =>
    exact @Coherent.noneForgotten_removeTicket (s.moveTo c .idle) t m .waiting
      (h.giveUp hplace (hwaits c rfl)) horderly

end State

/-- No context gives up after it was granted the lock, and no waiter is passed over. -/
def Scheduled (m : Nat) (s : State) (action : Action) : Prop := s.Waits action ∧ s.Orderly m

lemma Reachable.noneForgotten {m : Nat} {s : State} (h : Reachable m (Scheduled m) s) :
    s.Coherent ∧ s.Upgrades ∧ s.NoneForgotten := by
  induction h with
  | initial strategy hogLockCount wait =>
    refine ⟨coherent_initial strategy hogLockCount wait, fun c => trivial, ?_⟩
    intro t ht
    cases ht
  | step _ hc hstep ih =>
    obtain ⟨hs, hup, hn⟩ := ih
    have hstepped := State.stepped_of_step hs hstep
    exact ⟨hs.stepped hc.1 hstepped, State.Upgrades.stepped hs hup hc.1 hstepped,
      State.NoneForgotten.stepped hs hup hn hc.1 hc.2 hstepped⟩

/-- For every limit: if at every step the locks that hog were not granted too often in a row, or
requests for such locks and for others do not wait together, then no waiter with an empty slot could
be granted the lock. -/
theorem no_forgotten_waiter (maxWriteLockCount : Nat) (s : State)
    (h : Reachable maxWriteLockCount (Scheduled maxWriteLockCount) s) :
    ∀ t ∈ s.lock.waiting.list, s.wait t.ctx = .empty ->
      s.lock.canGrantLock t.type t.ctx false = false := by
  obtain ⟨hs, -, hn⟩ := h.noneForgotten
  intro t ht hempty
  exact hs.canGrantLock_eq_false.mpr (hn t ht hempty)

theorem no_forgotten_waiter_reader : ∃ s, Reachable 1 (Scheduled 1) s ∧
    s.lock.waiting.list = [⟨1, 2, .shared⟩] ∧ s.wait 2 = .empty ∧
    s.lock.canGrantLock .shared 2 false = false := by
  have hcond : ∀ (s : State) c type duration, s.lock.waiting.list = [] ->
      Scheduled 1 s (.acquireLock c type duration) := by
    intro s c type duration hnil
    refine ⟨nofun, .inr (.inl ?_)⟩
    rw [hnil]
    exact nofun
  have hinitial : Reachable 1 (Scheduled 1) (initial .objectLock 0 fun _ => .empty) := .initial ..
  have hwriter := hinitial.step (hcond _ 1 .exclusive .transaction rfl) rfl
  have hreader := hwriter.step (hcond _ 2 .shared .transaction rfl) rfl
  exact ⟨_, hreader, rfl, rfl, no_forgotten_waiter 1 _ hreader ⟨1, 2, .shared⟩
    (mem_singleton.mpr rfl) rfl⟩

/-- An upgrade waits for a reader; when the reader goes, it is passed over for a writer that it
blocks itself. -/
def passedOver : List Action :=
  [.acquireLock 4 .sharedWrite .transaction, .acquireLock 3 .sharedRead .transaction,
    .acquireLock 2 .sharedNoWrite .transaction, .acquireLock 1 .sharedWrite .transaction,
    .releaseLock 4 .transaction 0, .wakeUp 2, .upgradeSharedLock 2 2 .exclusive,
    .releaseLock 3 .transaction 1]

theorem passedOver_forgotten : ∃ s, Reachable 1 (fun s action => s.Waits action) s ∧
    ⟨4, 2, .exclusive⟩ ∈ s.lock.waiting.list ∧ s.wait 2 = .empty ∧
    s.lock.canGrantLock .exclusive 2 false = true := by
  refine @Reachable.of_run 1 _ .objectLock 0 (fun _ => .empty) passedOver _ inferInstance
    (fun a ha s c heq => ?_) (by decide +kernel)
  subst heq
  simp [passedOver] at ha

end Mdl
