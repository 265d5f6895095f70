import EryMysql.Mdl.Lock

/-!
# Lock queues and wait slots

Every ticket is in one of the two lists of the lock, the bitmaps are those of the lists, and a
context that waits finds its ticket where its wait slot says. The invariant is kept by every step
except one: a context that gives up without having closed its slot may have been granted the lock.
-/

namespace Mdl

open Function List Option TicketList Nat

namespace TicketList

variable {l : TicketList} {t ticket : Ticket}

/-- The bitmap is the set of the types of the tickets in the list. -/
def Exact (l : TicketList) : Prop := ∀ type, type ∈ l.bitmap ↔ ∃ t ∈ l.list, t.type = type

@[simp]
lemma list_addTicket : (l.addTicket ticket).list = l.list ++ [ticket] := rfl

@[simp]
lemma mem_unlink : t ∈ (l.unlink ticket).list ↔ t ∈ l.list ∧ t.id ≠ ticket.id := by
  simp [unlink]

@[simp]
lemma list_clearBitIfNotInList {type : MdlType} : (l.clearBitIfNotInList type).list = l.list := by
  unfold clearBitIfNotInList
  split <;> rfl

lemma mem_addTicket : t ∈ (l.addTicket ticket).list ↔ t ∈ l.list ∨ t = ticket := by
  simp

lemma unlink_eq_self (h : ∀ t ∈ l.list, t.id ≠ ticket.id) : l.unlink ticket = l := by
  have hlist : l.list.filter (fun t => t.id ≠ ticket.id) = l.list :=
    filter_eq_self.mpr fun t ht => decide_eq_true (h t ht)
  rw [unlink, hlist]

lemma Exact.addTicket (h : l.Exact) : (l.addTicket ticket).Exact := by
  intro type
  rw [TicketList.addTicket, Finset.mem_insert, h type]
  constructor
  · rintro (rfl | ⟨t, ht, rfl⟩)
    · exact ⟨ticket, by simp, rfl⟩
    · exact ⟨t, by simp [ht], rfl⟩
  · rintro ⟨t, ht, rfl⟩
    rcases mem_append.mp ht with ht | ht
    · exact .inr ⟨t, ht, rfl⟩
    · rw [mem_singleton.mp ht]
      exact .inl rfl

lemma Exact.remove (h : l.Exact) (hmem : ∀ t ∈ l.list, t.id = ticket.id -> t = ticket) :
    ((l.unlink ticket).clearBitIfNotInList ticket.type).Exact := by
  intro type
  unfold clearBitIfNotInList
  split
  case isTrue hany =>
    obtain ⟨u, hu, htype⟩ := any_eq_true.mp hany
    have htype : u.type = ticket.type := by simpa using htype
    change type ∈ l.bitmap ↔ _
    rw [h type]
    constructor
    · rintro ⟨t, ht, rfl⟩
      by_cases hid : t.id = ticket.id
      · exact ⟨u, hu, by rw [htype, hmem t ht hid]⟩
      · exact ⟨t, mem_unlink.mpr ⟨ht, hid⟩, rfl⟩
    · rintro ⟨t, ht, rfl⟩
      exact ⟨t, (mem_unlink.mp ht).1, rfl⟩
  case isFalse hany =>
    have hnone : ∀ t ∈ (l.unlink ticket).list, t.type ≠ ticket.type := by
      intro t ht htype
      exact hany (any_eq_true.mpr ⟨t, ht, decide_eq_true htype⟩)
    change type ∈ l.bitmap.erase ticket.type ↔ _
    rw [Finset.mem_erase, h type]
    constructor
    · rintro ⟨hne, t, ht, rfl⟩
      refine ⟨t, mem_unlink.mpr ⟨ht, fun hid => hne ?_⟩, rfl⟩
      rw [hmem t ht hid]
    · rintro ⟨t, ht, rfl⟩
      exact ⟨hnone t ht, t, (mem_unlink.mp ht).1, rfl⟩

/-- The tickets have ids of their own below the next one, and the bitmap is that of their types. -/
structure Filed (l : TicketList) (nextId : Nat) : Prop where
  bits : l.Exact
  nodup : (l.list.map Ticket.id).Nodup
  fresh : ∀ t ∈ l.list, t.id < nextId

section Filed
variable {n c : Nat} {type : MdlType} {u : Ticket} (h : l.Filed n)
include h

lemma Filed.eq (ht : t ∈ l.list) (hu : u ∈ l.list) (hid : t.id = u.id) : t = u :=
  inj_on_of_nodup_map h.nodup ht hu hid

lemma Filed.mono : l.Filed (n + 1) :=
  { h with fresh := fun t ht => lt_succ_of_lt (h.fresh t ht) }

lemma Filed.addTicket (hnew : ∀ t ∈ l.list, t.id ≠ ticket.id) (hlt : ticket.id < n) :
    (l.addTicket ticket).Filed n := by
  refine ⟨h.bits.addTicket, ?_, fun t ht => ?_⟩
  · rw [list_addTicket, map_append, nodup_append]
    refine ⟨h.nodup, by simp, ?_⟩
    intro a ha b hb
    obtain ⟨t, ht, rfl⟩ := mem_map.mp ha
    rw [mem_singleton.mp hb]
    exact hnew t ht
  · rcases mem_addTicket.mp ht with ht | rfl
    · exact h.fresh t ht
    · exact hlt

lemma Filed.addNew : (l.addTicket ⟨n, c, type⟩).Filed (n + 1) :=
  h.mono.addTicket (fun t ht => (h.fresh t ht).ne) (lt_succ_self n)

lemma Filed.remove (ht : ticket ∈ l.list) :
    ((l.unlink ticket).clearBitIfNotInList ticket.type).Filed n := by
  refine ⟨h.bits.remove fun t hl hid => h.eq hl ht hid, ?_, fun t hl => ?_⟩
  · rw [list_clearBitIfNotInList]
    exact h.nodup.sublist (Sublist.map _ filter_sublist)
  · rw [list_clearBitIfNotInList] at hl
    exact h.fresh t (mem_unlink.mp hl).1

end Filed

end TicketList

/-- A place outside of a wait. -/
def Place.Resting : Place -> Prop
  | .idle => True
  | .merging .. => True
  | _ => False

namespace State

/-- The context has asked for the ticket and not come back yet. -/
def Pends (s : State) (c : Nat) (t : Ticket) : Prop :=
  (∃ duration task, s.place c = .waiting t duration task) ∨ s.place c = .failed t

/-- What the place of a context says of its tickets. -/
def Fits (s : State) (c : Nat) : Place -> Prop
  | .merging id newId isNewTicket _ =>
    isNewTicket = true -> newId ≠ id ∧ newId ∈ s.tickets c .transaction
  | .waiting _ duration (.upgrade id _ _) => duration = .transaction ∧ ∃ d, id ∈ s.tickets c d
  | _ => True

structure Coherent (s : State) : Prop where
  granted : s.lock.granted.Filed s.nextId
  waiting : s.lock.waiting.Filed s.nextId
  apart : ∀ t ∈ s.lock.granted.list, ∀ u ∈ s.lock.waiting.list, t.id ≠ u.id
  waits : ∀ t ∈ s.lock.waiting.list, s.Pends t.ctx t ∧ s.wait t.ctx ≠ .granted
  pends : ∀ c t, s.Pends c t -> t.ctx = c ∧
    (t ∈ s.lock.waiting.list ∨ (s.wait c = .granted ∧ t ∈ s.lock.granted.list))
  known : ∀ t ∈ s.lock.granted.list, (∃ d, t.id ∈ s.tickets t.ctx d) ∨ s.Pends t.ctx t
  held : ∀ c d id, id ∈ s.tickets c d ->
    ∃ t ∈ s.lock.granted.list, t.id = id ∧ t.ctx = c ∧ ¬ s.Pends c t
  once : ∀ c d d' id, id ∈ s.tickets c d -> id ∈ s.tickets c d' -> d = d'
  fits : ∀ c, s.Fits c (s.place c)

variable {s : State} {c : Nat} {t u ticket : Ticket} {duration : Duration} {type : MdlType}
  {c' id id' : Nat} {d : Duration}

lemma Pends.eq (ht : s.Pends c t) (hu : s.Pends c u) : t = u := by
  rcases ht with ⟨d, task, ht⟩ | ht <;> rcases hu with ⟨d', task', hu⟩ | hu <;>
    rw [ht] at hu <;> cases hu <;> rfl

lemma not_pends_of_idle (h : s.place c = .idle) : ¬ s.Pends c t := by
  rintro (⟨d, task, ht⟩ | ht) <;> rw [h] at ht <;> cases ht

@[simp]
lemma mem_pushTicket : id' ∈ (s.pushTicket c duration id).tickets c' d ↔
      id' ∈ s.tickets c' d ∨ (c' = c ∧ d = duration ∧ id' = id) := by
  simp only [pushTicket, update_apply]
  by_cases hc : c' = c
  · subst hc
    by_cases hd : d = duration
    · subst hd
      rw [if_pos rfl, update_self, mem_cons]
      simp only [true_and]
      exact Or.comm
    · simp [hd]
  · simp [hc]

@[simp]
lemma mem_dropTicket : id' ∈ (s.dropTicket c duration id).tickets c' d ↔
      id' ∈ s.tickets c' d ∧ ¬ (c' = c ∧ d = duration ∧ id' = id) := by
  simp only [dropTicket]
  by_cases hc : c' = c
  · subst hc
    by_cases hd : d = duration
    · subst hd
      simp
    · simp [hd]
  · simp [hc]

lemma Fits.mono {s' : State} {place : Place} (h : s.Fits c place)
    (hmono : ∀ d id, id ∈ s.tickets c d -> id ∈ s'.tickets c d) : s'.Fits c place := by
  unfold Fits at h ⊢
  split at h
  · exact fun hnew => ⟨(h hnew).1, hmono _ _ (h hnew).2⟩
  · exact ⟨h.1, h.2.imp fun d => hmono d _⟩
  · trivial

lemma Coherent.fits_moved (h : s.Coherent) {s' : State} {place : Place}
    (hplace : ∀ c', s'.place c' = if c' = c then place else s.place c') (hfits : s'.Fits c place)
    (hmono : ∀ c' d id, id ∈ s.tickets c' d -> id ∈ s'.tickets c' d) (c' : Nat) :
    s'.Fits c' (s'.place c') := by
  rw [hplace]
  split
  case isTrue hc => rwa [hc]
  case isFalse => exact (h.fits c').mono (hmono c')

lemma Coherent.not_held_of_pends (h : s.Coherent) (hp : s.Pends c t) : t.id ∉ s.tickets c' d := by
  intro hid
  obtain ⟨u, hu, huid, huc, hnot⟩ := h.held c' d _ hid
  obtain ⟨hctx, hw | ⟨-, hg⟩⟩ := h.pends c t hp
  · exact h.apart u hu t hw huid
  · rw [h.granted.eq hu hg huid] at huc hnot
    rw [← huc, hctx] at hnot
    exact hnot hp

lemma Coherent.addGranted (h : s.Coherent) (hidle : s.place c = .idle) :
    (s.addGranted c type duration).Coherent := by
  have hmem : ∀ c' d id', id' ∈ (s.addGranted c type duration).tickets c' d ↔
      id' ∈ s.tickets c' d ∨ (c' = c ∧ d = duration ∧ id' = s.nextId) :=
    fun c' d id' => mem_pushTicket
  have hlist : ∀ t, t ∈ (s.addGranted c type duration).lock.granted.list ↔
      t ∈ s.lock.granted.list ∨ t = ⟨s.nextId, c, type⟩ := fun t => mem_addTicket
  have hheld : ∀ c' d, s.nextId ∉ s.tickets c' d := by
    intro c' d hin
    obtain ⟨t, ht, hid, -⟩ := h.held c' d _ hin
    exact (h.granted.fresh t ht).ne hid
  have hfits : ∀ c', (s.addGranted c type duration).Fits c' (s.place c') := fun c' =>
    (h.fits c').mono fun d id hid => (hmem _ _ _).mpr (.inl hid)
  refine { h with
    granted := h.granted.addNew, waiting := h.waiting.mono, apart := ?apart, pends := ?pends,
    known := ?known, held := ?held, once := ?once, fits := hfits }
  case apart =>
    intro t ht u hu
    rcases (hlist t).mp ht with ht | rfl
    · exact h.apart t ht u hu
    · exact (h.waiting.fresh u hu).ne'
  case pends =>
    intro c' t ht
    obtain ⟨hctx, hin⟩ := h.pends c' t ht
    exact ⟨hctx, hin.imp_right fun hin => ⟨hin.1, (hlist t).mpr (.inl hin.2)⟩⟩
  case known =>
    intro t ht
    rcases (hlist t).mp ht with ht | rfl
    · exact (h.known t ht).imp_left fun ⟨d, hd⟩ => ⟨d, (hmem _ _ _).mpr (.inl hd)⟩
    · exact .inl ⟨duration, (hmem _ _ _).mpr (.inr ⟨rfl, rfl, rfl⟩)⟩
  case held =>
    intro c' d id hid
    rcases (hmem _ _ _).mp hid with hid | ⟨rfl, rfl, rfl⟩
    · obtain ⟨t, ht, hrest⟩ := h.held c' d id hid
      exact ⟨t, (hlist t).mpr (.inl ht), hrest⟩
    · exact ⟨_, (hlist _).mpr (.inr rfl), rfl, rfl, not_pends_of_idle hidle⟩
  case once =>
    intro c' d d' id hid hid'
    rcases (hmem _ _ _).mp hid with hid | ⟨-, hd, hnew⟩ <;>
      rcases (hmem _ _ _).mp hid' with hid' | ⟨-, hd', hnew'⟩
    · exact h.once c' d d' id hid hid'
    · exact absurd (hnew' ▸ hid) (hheld c' d)
    · exact absurd (hnew ▸ hid') (hheld c' d')
    · rw [hd, hd']

lemma Coherent.grant (h : s.Coherent) (ht : ticket ∈ s.lock.waiting.list) :
    (s.grant ticket).Coherent := by
  have hnotin : ∀ t ∈ s.lock.granted.list, t.id ≠ ticket.id := fun t hg => h.apart t hg ticket ht
  have hgranted : (s.grant ticket).lock.granted = s.lock.granted.addTicket ticket := by
    simp only [State.grant, MdlLock.removeTicket]
    rw [unlink_eq_self hnotin]
  have hmem : ∀ t, t ∈ (s.grant ticket).lock.granted.list ↔
      t ∈ s.lock.granted.list ∨ t = ticket := by
    intro t
    rw [hgranted, mem_addTicket]
  have hwaiting : ∀ t, t ∈ (s.grant ticket).lock.waiting.list ↔
      t ∈ s.lock.waiting.list ∧ t.id ≠ ticket.id := by
    simp [State.grant, MdlLock.removeTicket]
  have hwait : ∀ c, (s.grant ticket).wait c =
      if c = ticket.ctx then .granted else s.wait c := by
    simp [State.grant, update_apply]
  have hown := (h.waits ticket ht).1
  refine { h with
    granted := hgranted ▸ h.granted.addTicket hnotin (h.waiting.fresh ticket ht)
    waiting := h.waiting.remove ht
    apart := ?apart, waits := ?waits, pends := ?pends, known := ?known, held := ?held }
  case apart =>
    intro t hg u hw
    obtain ⟨hw, hne⟩ := (hwaiting u).mp hw
    rcases (hmem t).mp hg with hg | rfl
    · exact h.apart t hg u hw
    · exact hne.symm
  case waits =>
    intro t hw
    obtain ⟨hw, hne⟩ := (hwaiting t).mp hw
    obtain ⟨hp, hslot⟩ := h.waits t hw
    refine ⟨hp, ?_⟩
    rw [hwait]
    split
    case isTrue hctx =>
      rw [hctx] at hp
      exact absurd (congrArg Ticket.id (hp.eq hown)) hne
    case isFalse => exact hslot
  case pends =>
    intro c t hp
    obtain ⟨hctx, hin⟩ := h.pends c t hp
    refine ⟨hctx, ?_⟩
    rw [hwait, hmem, hwaiting]
    by_cases hc : c = ticket.ctx
    · subst hc
      exact .inr ⟨if_pos rfl, .inr (hp.eq hown)⟩
    · rw [if_neg hc]
      rcases hin with hw | ⟨hslot, hg⟩
      · refine .inl ⟨hw, fun hid => hc ?_⟩
        rw [← hctx, h.waiting.eq hw ht hid]
      · exact .inr ⟨hslot, .inl hg⟩
  case known =>
    intro t hg
    rcases (hmem t).mp hg with hg | rfl
    · exact h.known t hg
    · exact .inr hown
  case held =>
    intro c d id hid
    obtain ⟨t, hg, hrest⟩ := h.held c d id hid
    exact ⟨t, (hmem t).mpr (.inl hg), hrest⟩

variable {task : Task} {place : Place}

lemma Coherent.startWait (h : s.Coherent) (hidle : s.place c = .idle)
    (hfits : s.Fits c (.waiting ⟨s.nextId, c, type⟩ duration task)) :
    ({ s with
      nextId := s.nextId + 1
      lock := { s.lock with waiting := s.lock.waiting.addTicket ⟨s.nextId, c, type⟩ }
      wait := update s.wait c .empty }.moveTo c
        (.waiting ⟨s.nextId, c, type⟩ duration task)).Coherent := by
  generalize hs' : State.moveTo _ c (.waiting ⟨s.nextId, c, type⟩ duration task) = s'
  have hplace : ∀ c', s'.place c' =
      if c' = c then .waiting ⟨s.nextId, c, type⟩ duration task else s.place c' := by
    rw [← hs']
    simp [moveTo, update_apply]
  have hwait : ∀ c', s'.wait c' = if c' = c then .empty else s.wait c' := by
    rw [← hs']
    simp [moveTo, update_apply]
  have hmem : ∀ t, t ∈ s'.lock.waiting.list ↔
      t ∈ s.lock.waiting.list ∨ t = ⟨s.nextId, c, type⟩ := by
    intro t
    rw [← hs']
    exact mem_addTicket
  have hpends : ∀ c' t, s'.Pends c' t ↔
      (c' = c ∧ t = ⟨s.nextId, c, type⟩) ∨ (c' ≠ c ∧ s.Pends c' t) := by
    intro c' t
    simp only [Pends, hplace]
    by_cases hc : c' = c
    · simp only [hc, if_true, Place.waiting.injEq, exists_and_left, reduceCtorEq, or_false,
        true_and, ne_eq, not_true_eq_false, false_and]
      constructor
      · rintro ⟨rfl, -⟩
        rfl
      · rintro rfl
        exact ⟨rfl, duration, rfl, task, rfl⟩
    · simp [hc]
  have hother : ∀ t, s.Pends t.ctx t -> t.ctx ≠ c := by
    intro t hp hc
    rw [hc] at hp
    exact not_pends_of_idle hidle hp
  subst hs'
  have hfits := h.fits_moved hplace hfits fun _ _ _ hid => hid
  refine { h with
    granted := h.granted.mono, waiting := h.waiting.addNew, apart := ?apart, waits := ?waits,
    pends := ?pends, known := ?known, held := ?held, fits := hfits }
  case apart =>
    intro t ht u hu
    rcases (hmem u).mp hu with hu | rfl
    · exact h.apart t ht u hu
    · exact (h.granted.fresh t ht).ne
  case waits =>
    intro t ht
    rw [hpends, hwait]
    rcases (hmem t).mp ht with ht | rfl
    · obtain ⟨hp, hslot⟩ := h.waits t ht
      have hc := hother t hp
      rw [if_neg hc]
      exact ⟨.inr ⟨hc, hp⟩, hslot⟩
    · exact ⟨.inl ⟨rfl, rfl⟩, by simp⟩
  case pends =>
    intro c' t ht
    rw [hmem, hwait]
    rcases (hpends c' t).mp ht with ⟨rfl, rfl⟩ | ⟨hc, ht⟩
    · exact ⟨rfl, .inl (.inr rfl)⟩
    · obtain ⟨hctx, hin⟩ := h.pends c' t ht
      rw [if_neg hc]
      exact ⟨hctx, hin.imp_left .inl⟩
  case known =>
    intro t ht
    rw [hpends]
    exact (h.known t ht).imp_right fun hp => .inr ⟨hother t hp, hp⟩
  case held =>
    intro c' d id hid
    obtain ⟨t, ht, htid, htc, hnot⟩ := h.held c' d id hid
    refine ⟨t, ht, htid, htc, ?_⟩
    rw [hpends]
    rintro (⟨-, rfl⟩ | ⟨-, hp⟩)
    · exact absurd (h.granted.fresh _ ht) (lt_irrefl _)
    · exact hnot hp

/-- The granted list and the tickets of a context after a ticket was released. -/
lemma Coherent.release (h : s.Coherent) {s' : State} (ht : ticket ∈ s.lock.granted.list)
    (hown : ticket.id ∈ s.tickets ticket.ctx duration)
    (hidle : s.place ticket.ctx = .idle)
    (hs' : s' = { s with lock := s.lock.removeTicket .granted ticket }.dropTicket ticket.ctx
      duration ticket.id) : s'.Coherent := by
  have hnotin : ∀ t ∈ s.lock.waiting.list, t.id ≠ ticket.id :=
    fun t hw heq => h.apart ticket ht t hw heq.symm
  have hwaiting : s'.lock.waiting = s.lock.waiting := by
    rw [hs']
    exact unlink_eq_self hnotin
  have hgranted : ∀ t, t ∈ s'.lock.granted.list ↔ t ∈ s.lock.granted.list ∧ t.id ≠ ticket.id := by
    rw [hs']
    simp [dropTicket, MdlLock.removeTicket]
  have htickets : ∀ c d id, id ∈ s'.tickets c d ↔
      id ∈ s.tickets c d ∧ ¬ (c = ticket.ctx ∧ d = duration ∧ id = ticket.id) := by
    intro c d id
    rw [hs', mem_dropTicket]
  have hfits : ∀ c, s'.Fits c (s.place c) := by
    intro c
    by_cases hc : c = ticket.ctx
    · rw [hc, hidle]
      trivial
    · exact (h.fits c).mono fun d id hid => (htickets _ _ _).mpr ⟨hid, fun heq => hc heq.1⟩
  subst hs'
  refine { h with
    granted := h.granted.remove ht
    waiting := hwaiting ▸ h.waiting
    apart := fun t hg => hwaiting ▸ h.apart t ((hgranted t).mp hg).1
    waits := hwaiting ▸ h.waits
    once := fun c d d' id hid hid' =>
      h.once c d d' id ((htickets _ _ _).mp hid).1 ((htickets _ _ _).mp hid').1
    fits := hfits
    pends := ?pends, known := ?known, held := ?held }
  case pends =>
    intro c t hp
    obtain ⟨hctx, hin⟩ := h.pends c t hp
    rw [hwaiting, hgranted]
    refine ⟨hctx, hin.imp_right fun hin => ⟨hin.1, hin.2, fun hid => ?_⟩⟩
    rw [h.granted.eq hin.2 ht hid] at hp
    exact h.not_held_of_pends hp hown
  case known =>
    intro t hg
    obtain ⟨hg, hne⟩ := (hgranted t).mp hg
    exact (h.known t hg).imp_left fun ⟨d, hd⟩ =>
      ⟨d, (htickets _ _ _).mpr ⟨hd, fun heq => hne heq.2.2⟩⟩
  case held =>
    intro c d id hid
    obtain ⟨hid, hne⟩ := (htickets _ _ _).mp hid
    obtain ⟨t, hg, rfl, rfl, hnp⟩ := h.held c d id hid
    refine ⟨t, (hgranted t).mpr ⟨hg, fun heq => hne ?_⟩, rfl, rfl, hnp⟩
    have hticket := h.granted.eq hg ht heq
    rw [hticket] at hid
    exact ⟨congrArg Ticket.ctx hticket, h.once _ _ _ _ hid hown, heq⟩

lemma Coherent.retype (h : s.Coherent) (ht : ticket ∈ s.lock.granted.list)
    (hown : ticket.id ∈ s.tickets ticket.ctx duration) : (s.retype ticket type).Coherent := by
  have hnotin : ∀ t ∈ s.lock.waiting.list, t.id ≠ ticket.id :=
    fun t hw heq => h.apart ticket ht t hw heq.symm
  have hwaiting : (s.retype ticket type).lock.waiting = s.lock.waiting := by
    exact unlink_eq_self hnotin
  have hgranted : ∀ t, t ∈ (s.retype ticket type).lock.granted.list ↔
      (t ∈ s.lock.granted.list ∧ t.id ≠ ticket.id) ∨ t = { ticket with type } := by
    simp [State.retype, MdlLock.removeTicket]
  refine { h with
    granted := (h.granted.remove ht).addTicket ?granted (h.granted.fresh ticket ht)
    waiting := hwaiting ▸ h.waiting
    waits := hwaiting ▸ h.waits
    apart := ?apart, pends := ?pends, known := ?known, held := ?held }
  case granted =>
    intro t hg
    rw [list_clearBitIfNotInList] at hg
    exact (mem_unlink.mp hg).2
  case apart =>
    intro t hg u hw
    rw [hwaiting] at hw
    rcases (hgranted t).mp hg with ⟨hg, -⟩ | rfl
    · exact h.apart t hg u hw
    · exact h.apart ticket ht u hw
  case pends =>
    intro c t hp
    obtain ⟨hctx, hin⟩ := h.pends c t hp
    rw [hwaiting, hgranted]
    refine ⟨hctx, hin.imp_right fun hin => ⟨hin.1, .inl ⟨hin.2, fun hid => ?_⟩⟩⟩
    rw [h.granted.eq hin.2 ht hid] at hp
    exact h.not_held_of_pends hp hown
  case known =>
    intro t hg
    rcases (hgranted t).mp hg with ⟨hg, -⟩ | rfl
    · exact h.known t hg
    · exact .inl ⟨duration, hown⟩
  case held =>
    intro c d id hid
    obtain ⟨t, hg, htid, hctx, hnp⟩ := h.held c d id hid
    by_cases heq : t.id = ticket.id
    · refine ⟨{ ticket with type }, (hgranted _).mpr (.inr rfl), ?_, ?_, fun hp => ?_⟩
      · rw [← htid, heq]
      · rw [← hctx, h.granted.eq hg ht heq]
      · obtain ⟨-, hw | ⟨-, hg'⟩⟩ := h.pends c _ hp
        · exact hnotin _ hw rfl
        · rw [h.granted.eq hg' ht rfl] at hp
          exact h.not_held_of_pends hp hown
    · exact ⟨t, (hgranted t).mpr (.inl ⟨hg, heq⟩), htid, hctx, hnp⟩

lemma Coherent.setWait (h : s.Coherent) {status : WaitStatus}
    (hslot : ∀ t, s.Pends c t -> s.wait c ≠ .granted ∧ status ≠ .granted) :
    { s with wait := update s.wait c status }.Coherent := by
  have hwait : ∀ c', update s.wait c status c' = if c' = c then status else s.wait c' :=
    fun c' => update_apply ..
  refine { h with waits := ?_, pends := ?_ }
  · intro t ht
    obtain ⟨hp, hne⟩ := h.waits t ht
    refine ⟨hp, ?_⟩
    simp only [hwait]
    split
    case isTrue hc =>
      rw [hc] at hp
      exact (hslot t hp).2
    case isFalse => exact hne
  · intro c' t hp
    obtain ⟨hctx, hin⟩ := h.pends c' t hp
    refine ⟨hctx, ?_⟩
    simp only [hwait]
    split
    case isTrue hc =>
      rw [hc] at hp hin
      exact .inl (hin.resolve_right fun hg => (hslot t hp).1 hg.1)
    case isFalse => exact hin

lemma Coherent.moveTo (h : s.Coherent) (hpends : ∀ t, (s.moveTo c place).Pends c t ↔ s.Pends c t)
    (hfits : s.Fits c place) : (s.moveTo c place).Coherent := by
  have hplace : ∀ c', (s.moveTo c place).place c' = if c' = c then place else s.place c' :=
    fun c' => update_apply ..
  have hpends' : ∀ c' t, (s.moveTo c place).Pends c' t ↔ s.Pends c' t := by
    intro c' t
    by_cases hc : c' = c
    · rw [hc]
      exact hpends t
    · simp [Pends, hplace, if_neg hc]
  have hfits := h.fits_moved hplace hfits fun _ _ _ hid => hid
  refine { h with
    waits := ?_, pends := ?_, known := ?_, held := ?_, fits := hfits }
  · intro t ht
    rw [hpends']
    exact h.waits t ht
  · intro c' t hp
    exact h.pends c' t ((hpends' c' t).mp hp)
  · intro t ht
    rw [hpends']
    exact h.known t ht
  · intro c' d id hid
    obtain ⟨t, ht, htid, hctx, hnot⟩ := h.held c' d id hid
    exact ⟨t, ht, htid, hctx, fun hp => hnot ((hpends' c' t).mp hp)⟩

lemma moveTo_pends_iff : (s.moveTo c place).Pends c t ↔
      (∃ duration task, place = .waiting t duration task) ∨ place = .failed t := by
  simp [Pends, State.moveTo]

lemma not_pends_moveTo (hrest : place.Resting) : ¬ (s.moveTo c place).Pends c t := by
  rw [moveTo_pends_iff]
  rintro (⟨_, _, rfl⟩ | rfl) <;> exact hrest

lemma Coherent.giveUp (h : s.Coherent) (hplace : s.place c = .failed ticket)
    (hslot : s.wait c ≠ .granted) :
    ({ s with lock := s.lock.removeTicket .waiting ticket }.moveTo c .idle).Coherent := by
  generalize hs' : State.moveTo _ c .idle = s'
  have hp : s.Pends c ticket := .inr hplace
  obtain ⟨hctx, hin⟩ := h.pends c ticket hp
  have ht := hin.resolve_right fun hg => hslot hg.1
  have hnotin : ∀ t ∈ s.lock.granted.list, t.id ≠ ticket.id := fun t hg => h.apart t hg ticket ht
  have hgranted : s'.lock.granted = s.lock.granted := by
    rw [← hs']
    exact unlink_eq_self hnotin
  have hwaiting : ∀ t, t ∈ s'.lock.waiting.list ↔ t ∈ s.lock.waiting.list ∧ t.id ≠ ticket.id := by
    rw [← hs']
    simp [State.moveTo, MdlLock.removeTicket]
  have hplace' : ∀ c', s'.place c' = if c' = c then .idle else s.place c' := by
    intro c'
    rw [← hs']
    exact update_apply ..
  have hpends : ∀ c' t, s'.Pends c' t ↔ c' ≠ c ∧ s.Pends c' t := by
    intro c' t
    simp only [Pends, hplace']
    by_cases hc : c' = c <;> simp [hc]
  have hother : ∀ t, t.id ≠ ticket.id -> s.Pends t.ctx t -> t.ctx ≠ c := by
    intro t hne hp' hc
    rw [hc] at hp'
    exact hne (congrArg Ticket.id (hp'.eq hp))
  subst hs'
  have hfits := h.fits_moved hplace' trivial fun _ _ _ hid => hid
  refine { h with
    granted := hgranted ▸ h.granted
    waiting := h.waiting.remove ht
    apart := fun t hg u hw => h.apart t (hgranted ▸ hg) u ((hwaiting u).mp hw).1
    waits := ?waits, pends := ?pends, known := ?known, held := ?held,
    fits := hfits }
  case waits =>
    intro t hw
    obtain ⟨hw, hne⟩ := (hwaiting t).mp hw
    obtain ⟨hp', hslot'⟩ := h.waits t hw
    exact ⟨(hpends _ _).mpr ⟨hother t hne hp', hp'⟩, hslot'⟩
  case pends =>
    intro c' t hp'
    obtain ⟨hc, hp'⟩ := (hpends c' t).mp hp'
    obtain ⟨hctx', hin'⟩ := h.pends c' t hp'
    rw [hgranted, hwaiting]
    refine ⟨hctx', hin'.imp_left fun hw => ⟨hw, fun hid => hc ?_⟩⟩
    rw [← hctx', h.waiting.eq hw ht hid, hctx]
  case known =>
    intro t hg
    rw [hgranted] at hg
    rw [hpends]
    exact (h.known t hg).imp_right fun hp' => ⟨hother t (hnotin t hg) hp', hp'⟩
  case held =>
    intro c' d id hid
    obtain ⟨t, hg, htid, hctx', hnot⟩ := h.held c' d id hid
    exact ⟨t, hgranted ▸ hg, htid, hctx', fun hp' => hnot ((hpends _ _).mp hp').2⟩

lemma Coherent.takeTicket (h : s.Coherent) (hplace : s.place c = .waiting ticket duration task)
    (hslot : s.wait c = .granted) (hrest : place.Resting)
    (hfits : (s.pushTicket c duration ticket.id).Fits c place) :
    ((s.pushTicket c duration ticket.id).moveTo c place).Coherent := by
  have hp : s.Pends c ticket := .inl ⟨duration, task, hplace⟩
  obtain ⟨hctx, hin⟩ := h.pends c ticket hp
  have ht : ticket ∈ s.lock.granted.list := by
    rcases hin with hw | ⟨-, hg⟩
    · have hne := (h.waits ticket hw).2
      rw [hctx] at hne
      exact absurd hslot hne
    · exact hg
  generalize hs' : State.moveTo _ c place = s'
  have hplace' : ∀ c', s'.place c' = if c' = c then place else s.place c' := by
    intro c'
    rw [← hs']
    exact update_apply ..
  have hpends : ∀ c' t, s'.Pends c' t ↔ c' ≠ c ∧ s.Pends c' t := by
    intro c' t
    by_cases hc : c' = c
    · rw [hc, ← hs']
      exact ⟨fun hp' => absurd hp' (not_pends_moveTo hrest), fun hp' => absurd rfl hp'.1⟩
    · simp only [Pends, hplace', if_neg hc]
      exact ⟨fun hp' => ⟨hc, hp'⟩, fun hp' => hp'.2⟩
  have htickets : ∀ c' d id, id ∈ s'.tickets c' d ↔
      id ∈ s.tickets c' d ∨ (c' = c ∧ d = duration ∧ id = ticket.id) := by
    intro c' d id
    rw [← hs']
    exact mem_pushTicket
  subst hs'
  have hfits := h.fits_moved hplace' hfits fun c' d id hid => (htickets c' d id).mpr (.inl hid)
  refine { h with
    pends := fun c' t hp' => h.pends c' t ((hpends c' t).mp hp').2
    waits := ?waits, known := ?known, held := ?held, once := ?once,
    fits := hfits }
  case waits =>
    intro t hw
    obtain ⟨hp', hne⟩ := h.waits t hw
    refine ⟨(hpends _ _).mpr ⟨fun hc => ?_, hp'⟩, hne⟩
    rw [hc] at hne
    exact hne hslot
  case known =>
    intro t hg
    simp only [htickets, hpends]
    rcases h.known t hg with ⟨d, hd⟩ | hp'
    · exact .inl ⟨d, .inl hd⟩
    · by_cases hc : t.ctx = c
      · rw [hc] at hp'
        rw [hp'.eq hp]
        exact .inl ⟨duration, .inr ⟨hctx, rfl, rfl⟩⟩
      · exact .inr ⟨hc, hp'⟩
  case held =>
    intro c' d id hid
    rcases (htickets c' d id).mp hid with hid | ⟨rfl, rfl, rfl⟩
    · obtain ⟨t, hg, htid, hctx', hnot⟩ := h.held c' d id hid
      exact ⟨t, hg, htid, hctx', fun hp' => hnot ((hpends _ _).mp hp').2⟩
    · exact ⟨ticket, ht, rfl, hctx, fun hp' => ((hpends _ _).mp hp').1 rfl⟩
  case once =>
    intro c' d d' id hid hid'
    rcases (htickets c' d id).mp hid with hid | ⟨-, hd, hnew⟩ <;>
      rcases (htickets c' d' id).mp hid' with hid' | ⟨-, hd', hnew'⟩
    · exact h.once c' d d' id hid hid'
    · exact absurd (hnew' ▸ hid) (h.not_held_of_pends hp)
    · exact absurd (hnew ▸ hid') (h.not_held_of_pends hp)
    · rw [hd, hd']

lemma rescheduleWaiters_rest (m : Nat) (place : Nat -> Place)
    (tickets : Nat -> Duration -> List Nat) :
    { s with place, tickets }.rescheduleWaiters m =
      { s.rescheduleWaiters m with place, tickets } := by
  have hturn : ∀ skip (s : State) t, rescheduleWaiter skip { s with place, tickets } t =
      { rescheduleWaiter skip s t with place, tickets } := by
    intro skip s t
    unfold rescheduleWaiter
    split
    · rfl
    · split
      · split <;> rfl
      · rfl
  have hloop : ∀ skip (l : List Ticket) (s : State),
      l.foldl (rescheduleWaiter skip) { s with place, tickets } =
        { l.foldl (rescheduleWaiter skip) s with place, tickets } := by
    intro skip l
    induction l with
    | nil => exact fun _ => rfl
    | cons t l ih =>
      intro s
      rw [foldl_cons, foldl_cons, hturn, ih]
  have hskip : { s with place, tickets }.skipHighPriority m = s.skipHighPriority m := rfl
  unfold rescheduleWaiters
  rw [hskip]
  simp only [hloop]
  split <;> rfl

/-- The loop grants the lock to tickets that wait with an empty slot. -/
lemma rescheduleWaiters_induction {P : State -> Prop} (m : Nat)
    (hnodup : (s.lock.waiting.list.map Ticket.id).Nodup) (hs : P s)
    (hgrant : ∀ (s : State) t skip, P s -> t ∈ s.lock.waiting.list -> s.wait t.ctx = .empty ->
      s.lock.canGrantLock t.type t.ctx skip = true -> P (s.grant t))
    (hcount : ∀ s : State, P s -> P { s with lock := { s.lock with hogLockCount := 0 } }) :
    P (s.rescheduleWaiters m) := by
  have hloop : ∀ skip (l : List Ticket) (s : State), (l.map Ticket.id).Nodup ->
      (∀ t ∈ l, t ∈ s.lock.waiting.list) -> P s -> P (l.foldl (rescheduleWaiter skip) s) := by
    intro skip l
    induction l with
    | nil => exact fun s _ _ hs => hs
    | cons t l ih =>
      intro s hnodup hmem hs
      rw [map_cons, nodup_cons] at hnodup
      have htail : ∀ u ∈ l, u ∈ s.lock.waiting.list := fun u hu => hmem u (mem_cons_of_mem _ hu)
      rw [foldl_cons]
      have hturn : rescheduleWaiter skip s t = s ∨ (rescheduleWaiter skip s t = s.grant t ∧
          s.wait t.ctx = .empty ∧ s.lock.canGrantLock t.type t.ctx skip = true) := by
        unfold rescheduleWaiter
        split
        · exact .inl rfl
        · split
          · split
            · exact .inr ⟨rfl, by assumption, by assumption⟩
            · exact .inl rfl
          · exact .inl rfl
      rcases hturn with heq | ⟨heq, hslot, hcan⟩
      · rw [heq]
        exact ih s hnodup.2 htail hs
      · rw [heq]
        refine ih _ hnodup.2 (fun u hu => ?_)
          (hgrant s t skip hs (hmem t (mem_cons_self ..)) hslot hcan)
        have hne : u.id ≠ t.id := fun heq => hnodup.1 (heq ▸ mem_map_of_mem hu)
        simpa [grant, MdlLock.removeTicket] using ⟨htail u hu, hne⟩
  have h := hloop (s.skipHighPriority m) s.lock.waiting.list s hnodup (fun t ht => ht) hs
  unfold rescheduleWaiters
  dsimp only
  split
  · exact hcount _ h
  · exact h

lemma Coherent.setHogLockCount (h : s.Coherent) (n : Nat) :
    { s with lock := { s.lock with hogLockCount := n } }.Coherent :=
  { h with }

lemma Coherent.rescheduleWaiters (h : s.Coherent) (m : Nat) : (s.rescheduleWaiters m).Coherent :=
  rescheduleWaiters_induction m h.waiting.nodup h (fun _ _ _ hs ht _ _ => hs.grant ht)
    fun _ hs => hs.setHogLockCount 0

section Remove
variable {m : Nat} {queue : Queue}

lemma Coherent.removeTicket (h : { s with lock := s.lock.removeTicket queue ticket }.Coherent) :
    (s.removeTicket m queue ticket).Coherent := by
  unfold State.removeTicket
  dsimp only
  split
  · exact h
  · exact h.rescheduleWaiters m

lemma removeTicket_rest (place : Nat -> Place) (tickets : Nat -> Duration -> List Nat) :
    { s with place, tickets }.removeTicket m queue ticket =
      { s.removeTicket m queue ticket with place, tickets } := by
  unfold removeTicket
  dsimp only
  split
  · rfl
  · exact @rescheduleWaiters_rest { s with lock := s.lock.removeTicket queue ticket } m place
      tickets

lemma removeTicket_same : (s.removeTicket m queue ticket).tickets = s.tickets ∧
      (s.removeTicket m queue ticket).place = s.place := by
  have h := @removeTicket_rest s ticket m queue s.place s.tickets
  rw [h]
  exact ⟨rfl, rfl⟩

lemma removeTicket_dropTicket (id : Nat) : (s.removeTicket m queue ticket).dropTicket c duration id =
      (s.dropTicket c duration id).removeTicket m queue ticket := by
  obtain ⟨htickets, hplace⟩ := @removeTicket_same s ticket m queue
  refine Eq.trans ?_ (removeTicket_rest s.place (s.dropTicket c duration id).tickets).symm
  simp only [dropTicket]
  rw [htickets, ← hplace]

lemma removeTicket_moveTo (place : Place) : (s.removeTicket m queue ticket).moveTo c place =
      (s.moveTo c place).removeTicket m queue ticket := by
  obtain ⟨htickets, hplace⟩ := @removeTicket_same s ticket m queue
  refine Eq.trans ?_ (removeTicket_rest (s.moveTo c place).place s.tickets).symm
  simp only [State.moveTo]
  rw [hplace, ← htickets]

end Remove

lemma mem_of_ticket? {id : Nat} (h : s.ticket? id = some t) : t ∈ s.lock.granted.list ∧ t.id = id :=
  ⟨mem_of_find?_eq_some h, by simpa using find?_some h⟩

lemma Coherent.ctx_of_mem (h : s.Coherent) (ht : t ∈ s.lock.granted.list)
    (hid : t.id ∈ s.tickets c duration) : t.ctx = c := by
  obtain ⟨u, hu, huid, huc, -⟩ := h.held c duration t.id hid
  rw [← h.granted.eq hu ht huid]
  exact huc

lemma Coherent.of_own? (h : s.Coherent) {id : Nat} (hown : s.own? c id = some t) :
    t ∈ s.lock.granted.list ∧ t.id = id ∧ t.ctx = c ∧ ∃ d, id ∈ s.tickets c d := by
  unfold own? at hown
  split at hown
  case isTrue hany =>
    obtain ⟨d, -, hd⟩ := any_eq_true.mp hany
    rw [decide_eq_true_eq] at hd
    obtain ⟨hmem, rfl⟩ := mem_of_ticket? hown
    exact ⟨hmem, rfl, h.ctx_of_mem hmem hd, d, hd⟩
  case isFalse => cases hown

lemma of_findTicket {id : Nat} {found : Duration}
    (h : s.findTicket c type duration = some (id, found)) :
    id ∈ s.tickets c found ∧
      ∃ t, s.ticket? id = some t ∧ s.lock.strategy.hasStrongerOrEqualType t.type type = true := by
  obtain ⟨d, -, hd⟩ := exists_of_findSome?_eq_some h
  obtain ⟨i, hi, heq⟩ := map_eq_some_iff.mp hd
  obtain ⟨rfl, rfl⟩ := Prod.mk.inj heq
  refine ⟨mem_of_find?_eq_some hi, ?_⟩
  have hany := find?_some hi
  cases hopt : s.ticket? i with
  | none => simp [hopt] at hany
  | some t =>
    rw [hopt] at hany
    exact ⟨t, rfl, hany⟩

/-- Why a request is granted at once: by a ticket of the context, or by the lock. -/
def Grantable (s : State) (c : Nat) (type : MdlType) : Prop :=
  (∃ t ∈ s.lock.granted.list, t.ctx = c ∧
    s.lock.strategy.hasStrongerOrEqualType t.type type = true) ∨
  s.lock.canGrantLock type c false = true

lemma tryAcquireLockImpl_cases (h : s.Coherent) :
    (∃ id, s.tryAcquireLockImpl c type duration = (s, .inl id) ∧ duration ≠ .explicit ∧
      ∃ t ∈ s.lock.granted.list, t.id = id ∧ id ∈ s.tickets c duration ∧
        s.lock.strategy.hasStrongerOrEqualType t.type type = true) ∨
    (s.Grantable c type ∧ s.tryAcquireLockImpl c type duration =
      (s.addGranted c type duration, .inl s.nextId)) ∨
    (s.lock.canGrantLock type c false = false ∧ s.tryAcquireLockImpl c type duration =
      ({ s with nextId := s.nextId + 1 }, .inr ⟨s.nextId, c, type⟩)) := by
  unfold tryAcquireLockImpl
  cases hfind : s.findTicket c type duration with
  | none =>
    cases hcan : s.lock.canGrantLock type c false with
    | true => exact .inr (.inl ⟨.inr hcan, rfl⟩)
    | false => exact .inr (.inr ⟨rfl, rfl⟩)
  | some found =>
    obtain ⟨id, found⟩ := found
    obtain ⟨hin, t, hopt, hstrong⟩ := of_findTicket hfind
    obtain ⟨ht, rfl⟩ := mem_of_ticket? hopt
    dsimp only
    by_cases hclone : found ≠ duration ∨ duration = .explicit
    · rw [if_pos hclone]
      exact .inr (.inl ⟨.inl ⟨t, ht, h.ctx_of_mem ht hin, hstrong⟩, rfl⟩)
    · rw [if_neg hclone]
      obtain ⟨hfound, hexplicit⟩ := not_or.mp hclone
      rw [not_not] at hfound
      subst hfound
      exact .inl ⟨t.id, rfl, hexplicit, t, ht, rfl, hin, hstrong⟩

lemma hasLock_savepoint (id : Nat) : s.hasLock c (s.savepoint c) id = true := by
  have htake : ∀ l : List Nat, l.takeWhile (fun i => some i ≠ l.head?) = [] := by
    intro l
    cases l <;> simp
  rw [hasLock, savepoint, htake, htake]
  rfl

lemma Coherent.setNextId (h : s.Coherent) : { s with nextId := s.nextId + 1 }.Coherent :=
  { h with granted := h.granted.mono, waiting := h.waiting.mono }

lemma Coherent.merge (h : s.Coherent) {id newId : Nat} {isNewTicket : Bool} {newType : MdlType}
    {newTicket : Ticket} (hplace : s.place c = .merging id newId isNewTicket newType)
    (ht : s.own? c id = some ticket) (hnew : s.own? c newId = some newTicket) :
    (s.merge c ticket newTicket isNewTicket newType).Coherent := by
  have hmoved : (s.moveTo c .idle).Coherent := by
    refine h.moveTo (fun t => ?_) trivial
    rw [moveTo_pends_iff]
    simp [Pends, hplace]
  obtain ⟨hmem, rfl, hctx, d, hd⟩ := h.of_own? ht
  obtain ⟨hmem', rfl, hctx', d', hd'⟩ := h.of_own? hnew
  cases hnewTicket : isNewTicket with
  | false =>
    subst hctx
    exact hmoved.retype hmem hd
  | true =>
    have hfits := h.fits c
    rw [hplace] at hfits
    obtain ⟨hne, htrans⟩ := hfits hnewTicket
    subst hctx
    have hidle : (s.moveTo ticket.ctx .idle).place ticket.ctx = .idle := by
      simp [State.moveTo]
    have hreleased := @Coherent.release (s.moveTo ticket.ctx .idle) newTicket .transaction hmoved _
      hmem' (by rw [hctx']; exact htrans) (by rw [hctx', hidle]) rfl
    rw [hctx'] at hreleased
    refine @Coherent.retype _ ticket d newType hreleased ?_ ?_
    · simp only [dropTicket, MdlLock.removeTicket, list_clearBitIfNotInList, mem_unlink]
      exact ⟨hmem, fun heq => hne heq.symm⟩
    · rw [mem_dropTicket]
      exact ⟨hd, fun heq => hne heq.2.2.symm⟩

end State

end Mdl
