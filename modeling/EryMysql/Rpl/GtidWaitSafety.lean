import EryMysql.Lib.Partial
import EryMysql.Rpl.GtidWait

/-!
# Waiters and the queue

The invariants of `MASTER_GTID_WAIT` that do not depend on the order of the queue: a waiter
is in the queue as long as it is not done, the waiter known to the slave state is in the
small wait for a sequence number that is still to come, and a waiter that was taken out of
the queue as reached has its sequence number behind the highest one. So no assertion fails,
and who returns 0 without being killed has waited long enough.
-/

namespace Rpl.GtidWait

open Comparison Mysys SlaveState Multiset Function Queue

lemma cmpQueueElem_le {a b : UInt64} : cmpQueueElem a b ≤ 0 ↔ a ≤ b := by
  unfold cmpQueueElem
  split
  · rename_i h
    exact iff_of_true (by decide) (UInt64.le_of_lt h)
  · rename_i h
    split
    · rename_i heq
      exact iff_of_true le_rfl (heq ▸ UInt64.le_refl a)
    · rename_i hne
      refine iff_of_false (by decide) fun hle => ?_
      exact hne (UInt64.le_antisymm hle (UInt64.not_lt.mp h))

lemma preorders_cmpQueueElem : Preorders cmpQueueElem := by
  constructor
  · intro x y
    have hxy : ¬ 0 < cmpQueueElem y x ↔ y ≤ x := by rw [not_lt, cmpQueueElem_le]
    have hyx : cmpQueueElem x y < 0 ↔ x < y := by
      unfold cmpQueueElem
      split
      · rename_i h
        exact iff_of_true (by decide) h
      · rename_i h
        refine iff_of_false ?_ h
        split
        · decide
        · decide
    rw [hyx, ← not_iff_not, hxy, UInt64.not_lt]
  · intro x y z hxy hyz
    rw [cmpQueueElem_le] at *
    exact UInt64.le_trans hxy hyz

lemma modify_self (s : Sys) (w : Nat) (f : Waiter -> Waiter) :
    (s.modify w f).waiters w = f (s.waiters w) := update_self _ _ _

lemma modify_of_ne {s : Sys} {f : Waiter -> Waiter} {w x : Nat} (h : x ≠ w) :
    (s.modify w f).waiters x = s.waiters x := update_of_ne h _ _

structure Sound (q : Queue Nat UInt64) : Prop where
  pos : q.hasQueuePos = true
  minAtTop : q.maxAtTop = false
  room : q.elements ≤ q.maxElements
  placed : q.Placed

section Queues
variable {q q' : Queue Nat UInt64} {w x : Nat}

lemma Sound.nodup (h : Sound q) : q.contents.Nodup := by
  unfold contents Heap.contents
  refine Multiset.Nodup.map_on ?_ (Finset.nodup _)
  intro i hi j hj heq
  exact (h.placed h.pos).injOn (Finset.mem_Icc.mp (Finset.mem_val.mp hi))
    (Finset.mem_Icc.mp (Finset.mem_val.mp hj)) heq

lemma Sound.le_iff (h : Sound q) (a b : Nat) : q.Le cmpQueueElem a b ↔ q.key a ≤ q.key b := by
  rw [Queue.Le, Queue.compare, h.minAtTop]
  simp [cmpQueueElem_le]

lemma Sound.remove (h : Sound q) {idx : Nat} (hidx : 1 ≤ idx ∧ idx ≤ q.elements) :
    ∃ q', q.queueRemove cmpQueueElem idx = some (q', q.root idx) ∧ Sound q' ∧ q'.key = q.key ∧
      q'.elements + 1 = q.elements ∧
      ∀ x, x ∈ q'.contents ↔ x ∈ q.contents ∧ x ≠ q.root idx := by
  obtain ⟨⟨q', y⟩, hremove⟩ : ∃ r, q.queueRemove cmpQueueElem idx = some r := ⟨_, if_pos hidx⟩
  obtain ⟨rfl, -, hsame, helements, hcontents, hplaced⟩ := queueRemove_spec hremove
  refine ⟨q', hremove, ⟨hsame.hasQueuePos.trans h.pos, hsame.maxAtTop.trans h.minAtTop, ?_,
    hplaced h.placed⟩, hsame.key, helements, ?_⟩
  · have := h.room
    rw [hsame.maxElements]
    omega
  · have hnodup := h.nodup
    rw [hcontents, nodup_cons] at hnodup
    intro x
    rw [hcontents, mem_cons]
    constructor
    · intro hx
      exact ⟨.inr hx, fun heq => hnodup.1 (heq ▸ hx)⟩
    · rintro ⟨rfl | hx, hne⟩
      · exact absurd rfl hne
      · exact hx

lemma root_mem {idx : Nat} (hidx : 1 ≤ idx ∧ idx ≤ q.elements) : q.root idx ∈ q.contents :=
  Heap.mem_contents.mpr ⟨idx, hidx.1, hidx.2, rfl⟩

lemma elements_pos (h : x ∈ q.contents) : 1 ≤ q.elements := by
  obtain ⟨i, h1, hi, -⟩ := Heap.mem_contents.mp h
  omega

lemma Sound.insert (h : Sound q) (hw : w ∉ q.contents) (memory : Bool) :
    ∃ q' err, q.queueInsertSafe cmpQueueElem memory w = some (q', err) ∧
      (err = 0 -> Sound q' ∧ q'.key = q.key ∧ ∀ x, x ∈ q'.contents ↔ x = w ∨ x ∈ q.contents) := by
  obtain ⟨⟨q', err⟩, hinsert⟩ : ∃ r, q.queueInsertSafe cmpQueueElem memory w = some r := by
    unfold queueInsertSafe
    split
    · split
      · exact ⟨_, rfl⟩
      · rw [resizeQueue, if_neg (by omega)]
        cases memory with
        | false => exact ⟨_, rfl⟩
        | true =>
          simp only [if_true, queueInsert]
          rw [if_pos (by omega)]
          exact ⟨_, rfl⟩
    · have := h.room
      rw [queueInsert, if_pos (by omega)]
      exact ⟨_, rfl⟩
  refine ⟨q', err, hinsert, ?_⟩
  rintro rfl
  rcases queueInsertSafe_cases hinsert with ⟨herr, -⟩ | ⟨-, m, hinsert⟩
  · exact absurd rfl herr
  · obtain ⟨hsame, helements, hcontents, hplaced⟩ := queueInsert_spec hinsert
    refine ⟨⟨hsame.hasQueuePos.trans h.pos, hsame.maxAtTop.trans h.minAtTop, ?_,
      hplaced h.placed fun _ => hw⟩, hsame.key, fun x => ?_⟩
    · unfold queueInsert at hinsert
      split at hinsert
      · rename_i hroom
        rw [hsame.maxElements, helements]
        exact hroom
      · cases hinsert
    · rw [hcontents, mem_cons]
      rfl

end Queues

/-- What `process_wait_hash` does: some waiters whose sequence number is reached leave the
queue and are done, and if the queue is ordered, all of them. -/
structure Processed (wakeupSeqNo : UInt64) (s s' : Sys) : Prop where
  state : s'.state = s.state
  lock : s'.lock = s.lock
  sound : Sound s'.queue
  key : s'.queue.key = s.queue.key
  sub : ∀ x ∈ s'.queue.contents, x ∈ s.queue.contents
  popped : ∀ x ∈ s.queue.contents, x ∉ s'.queue.contents -> s.queue.key x ≤ wakeupSeqNo
  waiters : ∀ x, s'.waiters x =
    if x ∈ s.queue.contents ∧ x ∉ s'.queue.contents then { s.waiters x with done := true }
    else s.waiters x
  all : s.queue.Ordered cmpQueueElem -> ∀ x ∈ s'.queue.contents, wakeupSeqNo < s.queue.key x

section Process
variable {s s' : Sys} {wakeupSeqNo : UInt64}

lemma processed_refl (h : Sound s.queue)
    (hall : s.queue.Ordered cmpQueueElem -> ∀ x ∈ s.queue.contents, wakeupSeqNo < s.queue.key x) :
    Processed wakeupSeqNo s s :=
  ⟨rfl, rfl, h, rfl, fun _ h => h, fun _ h h' => absurd h h',
    fun _ => (if_neg fun h => h.2 h.1).symm, hall⟩

lemma processLoop_spec (fuel : Nat) (h : Sound s.queue) (hfuel : s.queue.elements ≤ fuel)
    (hdone : ∀ x ∈ s.queue.contents, (s.waiters x).done = false) :
    ∃ s', processLoop wakeupSeqNo fuel s = some s' ∧ Processed wakeupSeqNo s s' := by
  induction fuel generalizing s with
  | zero =>
    refine ⟨s, rfl, processed_refl h fun _ x hx => ?_⟩
    exact absurd (elements_pos hx) (by omega)
  | succ fuel ih =>
    rw [processLoop]
    split
    · refine ⟨s, rfl, processed_refl h fun _ x hx => ?_⟩
      exact absurd (elements_pos hx) (by omega)
    · have htop : 1 ≤ 1 ∧ 1 ≤ s.queue.elements := ⟨le_rfl, by omega⟩
      simp only
      split
      · rename_i hgt
        refine ⟨s, rfl, processed_refl h fun hord x hx => ?_⟩
        obtain ⟨i, h1, hi, rfl⟩ := Heap.mem_contents.mp hx
        have hle := Heap.Ordered.top_le hord (fun _ => le_refl' preorders_cmpQueueElem)
          (fun _ _ _ => le_trans' preorders_cmpQueueElem) i h1 hi
        exact UInt64.lt_of_lt_of_le hgt ((h.le_iff _ _).mp hle)
      · rename_i hle
        rw [if_neg (by rw [hdone _ (root_mem htop)]; decide)]
        obtain ⟨q', hremove, hsound, hkey, helements, hmem⟩ := h.remove htop
        have hdone' : ∀ x ∈ q'.contents, (({ s with queue := q' }.modify (s.queue.root 1)
            fun x => { x with done := true }).waiters x).done = false := by
          intro x hx
          obtain ⟨hx, hxt⟩ := (hmem x).mp hx
          rw [modify_of_ne hxt]
          exact hdone x hx
        rw [queueRemoveTop, hremove]
        obtain ⟨s', hs', hp⟩ := ih
          (s := { s with queue := q' }.modify (s.queue.root 1) fun x => { x with done := true })
          hsound (by show q'.elements ≤ fuel; omega) hdone'
        have hkey' : ∀ x, ({ s with queue := q' }.modify (s.queue.root 1)
            fun x => { x with done := true }).queue.key x = s.queue.key x :=
          fun x => congrFun hkey x
        refine ⟨s', hs', hp.state, hp.lock, hp.sound, hp.key.trans hkey, ?_, ?_, ?_, ?_⟩
        · exact fun x hx => ((hmem x).mp (hp.sub x hx)).1
        · intro x hx hx'
          by_cases hxt : x = s.queue.root 1
          · rw [hxt]
            exact UInt64.not_lt.mp hle
          · rw [← hkey']
            exact hp.popped x ((hmem x).mpr ⟨hx, hxt⟩) hx'
        · intro x
          rw [hp.waiters]
          by_cases hxt : x = s.queue.root 1
          · have hout : x ∉ q'.contents := fun hx => ((hmem x).mp hx).2 hxt
            have hin : x ∈ s.queue.contents := hxt ▸ root_mem htop
            have hout' : x ∉ s'.queue.contents := fun hx => hout (hp.sub x hx)
            rw [if_neg fun h => hout h.1, if_pos ⟨hin, hout'⟩, hxt, modify_self]
          · have hiff := (hmem x).trans (and_iff_left hxt)
            rw [modify_of_ne hxt]
            exact if_congr (and_congr_left' hiff) rfl rfl
        · intro hord x hx
          have hord' := (queueRemove_ordered preorders_cmpQueueElem hremove
            (hord.but preorders_cmpQueueElem 1)).mpr (.inl rfl)
          rw [← hkey']
          exact hp.all hord' x hx

end Process

def Pc.active : Pc -> Bool
  | .idle => false
  | .returned _ => false
  | _ => true

/-- What is known about a waiter for `seqNo`, when `highest` is the highest sequence number
so far and the domain is `known` to the slave state. -/
structure Waiter.Ok (highest : UInt64) (known : Prop) (seqNo : UInt64) (registered : Prop)
    (x : Waiter) : Prop where
  registered_iff : registered ↔ x.pc.active = true ∧ x.done = false
  small : x.pc = .small -> x.done = false ∧ x.doSmallWait = true
  smallWait : x.pc = .smallWait -> x.doSmallWait = true ∧ known
  relock : ∀ u, x.pc = .relock u -> u ≤ highest ∧ known
  reached : x.pc.active = true -> x.done = true -> seqNo ≤ highest
  returned : x.pc = .returned 0 -> x.killed = false -> seqNo ≤ highest

def Ok (d : UInt32) (s : Sys) (x : Nat) : Prop :=
  (s.waiters x).Ok (s.state.elem d).highestSeqNo (s.state.find d ≠ none) (s.queue.key x)
    (x ∈ s.queue.contents)

/-- The waiter known to the slave state is in its small wait, for a sequence number that is
not reached. -/
def WaiterKnown (d : UInt32) (s : Sys) : Prop :=
  ∀ x, (s.state.elem d).gtidWaiter = some x ->
    (s.waiters x).pc = .smallWait ∧ (s.waiters x).done = false ∧
      (s.state.elem d).minWaitSeqNo = s.queue.key x ∧
      (s.state.elem d).highestSeqNo < s.queue.key x

structure Inv (d : UInt32) (s : Sys) : Prop where
  sound : Sound s.queue
  ok : ∀ x, Ok d s x
  lock : ∀ x, (s.waiters x).pc = .small ↔ s.lock = some x
  known : WaiterKnown d s

/-- A state in the middle of a turn of `w`, which holds `LOCK_gtid_waiting`. -/
structure Mid (d : UInt32) (s : Sys) (w : Nat) : Prop where
  sound : Sound s.queue
  ok : ∀ x, x ≠ w -> Ok d s x ∧ (s.waiters x).pc ≠ .small
  known : WaiterKnown d s
  other : (s.state.elem d).gtidWaiter ≠ some w
  registered : w ∈ s.queue.contents ↔ (s.waiters w).done = false
  reached : (s.waiters w).done = true -> (s.waiters w).killed = true ∨
    (s.waiters w).timedOut = true ∨ s.queue.key w ≤ (s.state.elem d).highestSeqNo

section Waiters
variable {highest highest' seqNo : UInt64} {known known' registered registered' : Prop} {x : Waiter}

lemma Waiter.Ok.mono (h : x.Ok highest known seqNo registered) (hle : highest ≤ highest')
    (hknown : known -> known') (hiff : registered' ↔ registered) :
    x.Ok highest' known' seqNo registered' := by
  refine ⟨hiff.trans h.registered_iff, h.small, ?_, ?_, ?_, ?_⟩
  · exact fun hpc => ⟨(h.smallWait hpc).1, hknown (h.smallWait hpc).2⟩
  · exact fun u hpc => ⟨UInt64.le_trans (h.relock u hpc).1 hle, hknown (h.relock u hpc).2⟩
  · exact fun hpc hdone => UInt64.le_trans (h.reached hpc hdone) hle
  · exact fun hpc hk => UInt64.le_trans (h.returned hpc hk) hle

section
variable (h : x.Ok highest known seqNo registered)
include h

lemma Waiter.Ok.promote : Waiter.Ok highest known seqNo registered { x with doSmallWait := true } :=
  { h with
    small := fun hpc => ⟨(h.small hpc).1, rfl⟩
    smallWait := fun hpc => ⟨rfl, (h.smallWait hpc).2⟩ }

lemma Waiter.Ok.kill (hpc : ∀ r, x.pc ≠ .returned r) :
    Waiter.Ok highest known seqNo registered { x with killed := true } :=
  { h with returned := fun hret => absurd hret (hpc 0) }

lemma Waiter.Ok.pop (hin : registered) (hpc : x.pc ≠ .small) (hle : seqNo ≤ highest) :
    Waiter.Ok highest known seqNo False { x with done := true } := by
  have hactive := (h.registered_iff.mp hin).1
  refine ⟨⟨False.elim, fun h => absurd h.2 (by simp)⟩, fun hs => absurd hs hpc, h.smallWait,
    h.relock, fun _ _ => hle, ?_⟩
  intro hret
  rw [show x.pc = _ from hret] at hactive
  cases hactive

end

end Waiters

section Turns
variable {d : UInt32} {s s' : Sys} {w x : Nat} {f : Waiter -> Waiter} {a b : Waiter}

lemma Inv.mid (h : Inv d s) (hactive : (s.waiters w).pc.active = true)
    (hpc : (s.waiters w).pc ≠ .smallWait) (hlock : ∀ x, x ≠ w -> s.lock ≠ some x) : Mid d s w := by
  refine ⟨h.sound, fun x hx => ⟨h.ok x, fun hs => hlock x hx ((h.lock x).mp hs)⟩, h.known,
    fun hw => hpc (h.known w hw).1, ?_, fun hdone => .inr (.inr ((h.ok w).reached hactive hdone))⟩
  exact (h.ok w).registered_iff.trans (and_iff_right hactive)

section
variable (h : Inv d s) (state : State)
  (hle : (s.state.elem d).highestSeqNo ≤ (state.elem d).highestSeqNo)
  (hfind : s.state.find d ≠ none -> state.find d ≠ none)
include h state hle hfind

lemma Inv.setState (hknown : WaiterKnown d { s with state }) : Inv d { s with state } :=
  ⟨h.sound, fun x => (h.ok x).mono hle hfind Iff.rfl, h.lock, hknown⟩

lemma Inv.change
    (hw : Waiter.Ok (state.elem d).highestSeqNo (state.find d ≠ none) (s.queue.key w)
      (w ∈ s.queue.contents) (f (s.waiters w)))
    (hlock : (f (s.waiters w)).pc = .small ↔ s.lock = some w)
    (hknown : WaiterKnown d ({ s with state }.modify w f)) :
    Inv d ({ s with state }.modify w f) := by
  refine ⟨h.sound, fun x => ?_, fun x => ?_, hknown⟩
  · rcases eq_or_ne x w with rfl | hxw
    · rw [Ok, modify_self]
      exact hw
    · rw [Ok, modify_of_ne hxw]
      exact (h.ok x).mono hle hfind Iff.rfl
  · rcases eq_or_ne x w with rfl | hxw
    · rw [modify_self]
      exact hlock
    · rw [modify_of_ne hxw]
      exact h.lock x

end

lemma Mid.modify (h : Mid d s w)
    (hf : ∀ x, (f x).done = x.done ∧ (f x).killed = x.killed ∧
      (x.timedOut = true -> (f x).timedOut = true)) : Mid d (s.modify w f) w := by
  obtain ⟨hdone, hkilled, htimed⟩ := hf (s.waiters w)
  refine ⟨h.sound, ?_, ?_, h.other, ?_, ?_⟩
  · intro x hx
    have hok := h.ok x hx
    rw [Ok, modify_of_ne hx]
    exact hok
  · intro x hx
    have hxw : x ≠ w := fun heq => h.other (heq ▸ hx)
    rw [modify_of_ne hxw]
    exact h.known x hx
  · rw [modify_self, hdone]
    exact h.registered
  · rw [modify_self, hdone, hkilled]
    intro hd
    rcases h.reached hd with hk | ht | hle
    · exact .inl hk
    · exact .inr (.inl (htimed ht))
    · exact .inr (.inr hle)

lemma Processed.mid {u : UInt64} (hp : Processed u s s') (h : Mid d s w)
    (hu : u ≤ (s.state.elem d).highestSeqNo) : Mid d s' w := by
  have hle : ∀ x ∈ s.queue.contents, x ∉ s'.queue.contents ->
      s.queue.key x ≤ (s.state.elem d).highestSeqNo :=
    fun x hx hx' => UInt64.le_trans (hp.popped x hx hx') hu
  refine ⟨hp.sound, ?_, ?_, ?_, ?_, ?_⟩
  · intro x hx
    obtain ⟨hok, hpc⟩ := h.ok x hx
    rw [Ok, hp.state, hp.key, hp.waiters]
    split
    · rename_i hpop
      exact ⟨(hok.pop hpop.1 hpc (hle x hpop.1 hpop.2)).mono (UInt64.le_refl _) id
        (iff_of_false hpop.2 id), hpc⟩
    · rename_i hpop
      refine ⟨hok.mono (UInt64.le_refl _) id ⟨hp.sub x, fun hx' => ?_⟩, hpc⟩
      exact by_contra fun hout => hpop ⟨hx', hout⟩
  · intro x hx
    rw [hp.state] at hx
    obtain ⟨hpc, hdone, hmin, hlt⟩ := h.known x hx
    have hkeep : ¬ (x ∈ s.queue.contents ∧ x ∉ s'.queue.contents) :=
      fun hpop => UInt64.not_lt.mpr (hle x hpop.1 hpop.2) hlt
    rw [hp.waiters, if_neg hkeep, hp.state, hp.key]
    exact ⟨hpc, hdone, hmin, hlt⟩
  · rw [hp.state]
    exact h.other
  · rw [hp.waiters]
    split
    · rename_i hpop
      exact iff_of_false hpop.2 (by simp)
    · rename_i hpop
      rw [← h.registered]
      exact ⟨hp.sub w, fun hw => by_contra fun hout => hpop ⟨hw, hout⟩⟩
  · rw [hp.waiters, hp.key, hp.state]
    split
    · rename_i hpop
      exact fun _ => .inr (.inr (hle w hpop.1 hpop.2))
    · exact h.reached

lemma Mid.done_of_mem (h : Mid d s w) (hx : x ∈ s.queue.contents) :
    (s.waiters x).done = false := by
  by_cases hxw : x = w
  · subst hxw
    exact h.registered.mp hx
  · exact ((h.ok x hxw).1.registered_iff.mp hx).2

lemma Mid.process (h : Mid d s w) {u : UInt64} (hu : u ≤ (s.state.elem d).highestSeqNo) :
    ∃ s', processWaitHash u s = some s' ∧ Processed u s s' ∧ Mid d s' w := by
  obtain ⟨s', hs', hp⟩ := processLoop_spec s.queue.elements h.sound le_rfl fun x hx =>
    h.done_of_mem hx
  exact ⟨s', hs', hp, hp.mid h hu⟩

lemma Sound.queuePos (h : Sound s.queue) (hw : w ∈ s.queue.contents) :
    (1 ≤ s.queue.queuePos w ∧ s.queue.queuePos w ≤ s.queue.elements) ∧
      s.queue.root (s.queue.queuePos w) = w := by
  obtain ⟨i, h1, hi, rfl⟩ := Heap.mem_contents.mp hw
  rw [h.placed h.pos i h1 hi]
  exact ⟨⟨h1, hi⟩, rfl⟩

lemma removeFromWaitQueue_spec (h : Sound s.queue) (hw : w ∈ s.queue.contents) :
    ∃ q, removeFromWaitQueue s w = some { s with queue := q } ∧ Sound q ∧ q.key = s.queue.key ∧
      ∀ x, x ∈ q.contents ↔ x ∈ s.queue.contents ∧ x ≠ w := by
  obtain ⟨hidx, hroot⟩ := h.queuePos hw
  obtain ⟨q, hremove, hsound, hkey, -, hmem⟩ := h.remove hidx
  rw [hroot] at hremove hmem
  refine ⟨q, ?_, hsound, hkey, hmem⟩
  rw [removeFromWaitQueue, hremove]
  rfl

/-- `s'` differs from `s` in whether `w` is registered and done. -/
structure Aborted (s : Sys) (w : Nat) (s' : Sys) : Prop where
  state : s'.state = s.state
  key : s'.queue.key = s.queue.key
  mem : ∀ x, x ≠ w -> (x ∈ s'.queue.contents ↔ x ∈ s.queue.contents)
  waiters : ∀ x, x ≠ w -> s'.waiters x = s.waiters x
  small : (s'.waiters w).doSmallWait = (s.waiters w).doSmallWait
  sub : w ∈ s'.queue.contents -> w ∈ s.queue.contents

lemma abort_spec (h : Mid d s w) : ∃ s', abort s w = some s' ∧ Mid d s' w ∧ Aborted s w s' := by
  unfold abort
  simp only
  split
  · rename_i hcond
    have hflags : (s.waiters w).killed = true ∨ (s.waiters w).timedOut = true := by
      simpa using (Bool.and_eq_true_iff.mp hcond).1
    have hdone : (s.waiters w).done = false := by
      simpa using (Bool.and_eq_true_iff.mp hcond).2
    obtain ⟨q, hremove, hsound, hkey, hmem⟩ :=
      removeFromWaitQueue_spec h.sound (h.registered.mpr hdone)
    have hout : w ∉ q.contents := fun hw => ((hmem w).mp hw).2 rfl
    rw [hremove]
    refine ⟨_, rfl, ⟨hsound, ?_, ?_, h.other, ?_, ?_⟩, rfl, hkey, ?_, ?_, ?_, ?_⟩
    · intro x hx
      obtain ⟨hok, hpc⟩ := h.ok x hx
      rw [Ok, modify_of_ne hx]
      refine ⟨?_, hpc⟩
      show Waiter.Ok _ _ (q.key x) (x ∈ q.contents) _
      rw [hkey]
      exact hok.mono (UInt64.le_refl _) id ((hmem x).trans (and_iff_left hx))
    · intro x hx
      have hxw : x ≠ w := fun heq => h.other (heq ▸ hx)
      rw [modify_of_ne hxw]
      show _ ∧ _ ∧ _ = q.key x ∧ _ < q.key x
      rw [hkey]
      exact h.known x hx
    · rw [modify_self]
      exact iff_of_false hout (by simp)
    · rw [modify_self]
      exact fun _ => hflags.imp_right .inl
    · exact fun x hx => (hmem x).trans (and_iff_left hx)
    · exact fun x hx => modify_of_ne hx
    · rw [modify_self]
    · exact fun hw => absurd hw hout
  · exact ⟨s, rfl, h, rfl, rfl, fun _ _ => Iff.rfl, fun _ _ => rfl, rfl, id⟩

/-- `promote_new_waiter` sets `do_small_wait` of a waiter in the queue, if there is one. -/
lemma promoteNewWaiter_cases (s : Sys) : (promoteNewWaiter s = s ∧ ∀ x, x ∉ s.queue.contents) ∨
      ∃ x ∈ s.queue.contents,
        promoteNewWaiter s = s.modify x fun x => { x with doSmallWait := true } := by
  unfold promoteNewWaiter
  split
  · exact .inl ⟨rfl, fun x hx => absurd (elements_pos hx) (by omega)⟩
  · exact .inr ⟨_, root_mem ⟨le_rfl, by omega⟩, rfl⟩

/-- The waiter is at most told to see to the small wait. -/
def Raised (a b : Waiter) : Prop := b = a ∨ b = { a with doSmallWait := true }

lemma Raised.pc (h : Raised a b) : b.pc = a.pc := by
  rcases h with rfl | rfl
  · rfl
  · rfl

lemma Raised.small (h : Raised a b) (ha : a.doSmallWait = true) :
    b.doSmallWait = true := by
  rcases h with rfl | rfl
  · exact ha
  · rfl

/-- A waiter that leaves the queue promotes another one. -/
structure Promoted (s s' : Sys) : Prop where
  state : s'.state = s.state
  queue : s'.queue = s.queue
  raised : ∀ x, Raised (s.waiters x) (s'.waiters x)
  frame : ∀ x, x ∉ s.queue.contents -> s'.waiters x = s.waiters x
  some : ∀ y ∈ s.queue.contents, ∃ x ∈ s.queue.contents, (s'.waiters x).doSmallWait = true

lemma promoted (s : Sys) : Promoted s (promoteNewWaiter s) := by
  rcases promoteNewWaiter_cases s with ⟨heq, hempty⟩ | ⟨t, ht, heq⟩
  · rw [heq]
    exact ⟨rfl, rfl, fun _ => .inl rfl, fun _ _ => rfl, fun y hy => absurd hy (hempty y)⟩
  · rw [heq]
    refine ⟨rfl, rfl, fun x => ?_, fun x hx => ?_, fun _ _ => ⟨t, ht, ?_⟩⟩
    · by_cases hxt : x = t
      · rw [hxt, modify_self]
        exact .inr rfl
      · exact .inl (modify_of_ne hxt)
    · exact modify_of_ne fun hxt => hx (hxt ▸ ht)
    · rw [modify_self]

lemma Promoted.mid (hp : Promoted s s') (h : Mid d s w) (hw : w ∉ s.queue.contents) :
    Mid d s' w := by
  refine ⟨hp.queue ▸ h.sound, ?_, ?_, hp.state ▸ h.other, ?_, ?_⟩
  · intro x hx
    obtain ⟨hok, hpc⟩ := h.ok x hx
    rw [Ok, hp.state, hp.queue]
    rcases hp.raised x with heq | heq
    · rw [heq]
      exact ⟨hok, hpc⟩
    · rw [heq]
      exact ⟨hok.promote, hpc⟩
  · intro x hx
    rw [hp.state] at hx
    rw [hp.state, hp.queue]
    rcases hp.raised x with heq | heq
    · rw [heq]
      exact h.known x hx
    · rw [heq]
      exact h.known x hx
  · rw [hp.frame w hw, hp.queue]
    exact h.registered
  · rw [hp.frame w hw, hp.queue, hp.state]
    exact h.reached

/-- The turn ends with `w` outside of `LOCK_gtid_waiting`, or about to lock
`LOCK_slave_state`. -/
lemma Mid.inv (h : Mid d s w) {lock : Option Nat}
    (hw : Waiter.Ok (s.state.elem d).highestSeqNo (s.state.find d ≠ none) (s.queue.key w)
      (w ∈ s.queue.contents) (f (s.waiters w)))
    (hlock : (f (s.waiters w)).pc = .small ↔ lock = some w) (hother : ∀ x, x ≠ w -> lock ≠ some x) :
    Inv d ({ s with lock }.modify w f) := by
  refine ⟨h.sound, ?_, ?_, ?_⟩
  · intro x
    by_cases hxw : x = w
    · subst hxw
      rw [Ok, modify_self]
      exact hw
    · rw [Ok, modify_of_ne hxw]
      exact (h.ok x hxw).1
  · intro x
    by_cases hxw : x = w
    · subst hxw
      rw [modify_self]
      exact hlock
    · rw [modify_of_ne hxw]
      exact iff_of_false (h.ok x hxw).2 (hother x hxw)
  · intro x hx
    have hxw : x ≠ w := fun heq => h.other (heq ▸ hx)
    rw [modify_of_ne hxw]
    exact h.known x hx

/-- How a turn of `w` ends: with the small wait to be done, in the large wait, or outside of
the queue, with another waiter promoted if `w` had to see to the small wait. -/
structure Turned (s : Sys) (w : Nat) (s' : Sys) : Prop where
  state : s'.state = s.state
  key : s'.queue.key = s.queue.key
  mem : ∀ x, x ≠ w -> (x ∈ s'.queue.contents ↔ x ∈ s.queue.contents)
  raised : ∀ x, x ≠ w -> Raised (s.waiters x) (s'.waiters x)
  sub : w ∈ s'.queue.contents -> w ∈ s.queue.contents
  turn : (w ∈ s'.queue.contents ∧ (s'.waiters w).doSmallWait = (s.waiters w).doSmallWait ∧
      (s'.waiters w).pc = if (s.waiters w).doSmallWait then .small else .largeWait) ∨
    (w ∉ s'.queue.contents ∧ (∃ res, (s'.waiters w).pc = .returned res) ∧
      ((s.waiters w).doSmallWait = true ->
        ∀ y ∈ s'.queue.contents, ∃ x ∈ s'.queue.contents, (s'.waiters x).doSmallWait = true))

lemma endTurn_returns (h : Mid d s w) (hdone : (s.waiters w).done = true) :
    Inv d ({ s with lock := none }.modify w fun x =>
      { x with pc := .returned (if x.timedOut then -1 else 0) }) := by
  refine h.inv ?_ (by simp) (by simp)
  refine ⟨?_, by simp, by simp, by simp, by simp [Pc.active], ?_⟩
  · rw [h.registered, hdone]
    simp
  · intro hpc hk
    rcases h.reached hdone with hkilled | ht | hle
    · exact absurd (hkilled.symm.trans hk) (by decide)
    · simp [ht] at hpc
    · exact hle

lemma Aborted.turned {s1 : Sys} (ha : Aborted s w s1) (ht : Turned s1 w s') : Turned s w s' := by
  refine ⟨ht.state.trans ha.state, ht.key.trans ha.key,
    fun x hx => (ht.mem x hx).trans (ha.mem x hx), fun x hx => ha.waiters x hx ▸ ht.raised x hx,
    fun hw => ha.sub (ht.sub hw), ?_⟩
  rw [← ha.small]
  exact ht.turn

lemma turned_of_promoted {s1 : Sys} (hstate : s1.state = s.state)
    (hqueue : s1.queue = s.queue) (hraised : ∀ x, Raised (s.waiters x) (s1.waiters x))
    (hw : w ∉ s.queue.contents) (hf : ∃ res, (f (s1.waiters w)).pc = .returned res)
    (hsome : (s.waiters w).doSmallWait = true ->
      ∀ y ∈ s.queue.contents, ∃ x ∈ s.queue.contents, (s1.waiters x).doSmallWait = true) :
    Turned s w ({ s1 with lock := none }.modify w f) := by
  have hcontents : ({ s1 with lock := none }.modify w f).queue = s.queue := hqueue
  refine ⟨hstate, congrArg key hqueue, fun x _ => by rw [hcontents],
    fun x hx => ?_, fun h => hcontents ▸ h, .inr ⟨hcontents ▸ hw, ?_, ?_⟩⟩
  · rw [modify_of_ne hx]
    exact hraised x
  · rw [modify_self]
    exact hf
  · rw [hcontents]
    intro hsmall y hy
    obtain ⟨x, hx, hxs⟩ := hsome hsmall y hy
    have hxw : x ≠ w := fun heq => hw (heq ▸ hx)
    refine ⟨x, hx, ?_⟩
    rw [modify_of_ne hxw]
    exact hxs

lemma endTurn_spec (h : Mid d s w) : ∃ s', endTurn s w = some s' ∧ Inv d s' ∧ Turned s w s' := by
  obtain ⟨s1, habort, h1, ha⟩ := abort_spec h
  rw [endTurn, habort]
  simp only [some_bind]
  cases hdone : (s1.waiters w).done with
  | true =>
    have hout : w ∉ s1.queue.contents := fun hw => by
      rw [h1.registered.mp hw] at hdone
      cases hdone
    cases hsmall : (s1.waiters w).doSmallWait with
    | true =>
      have hp := promoted s1
      refine ⟨_, rfl, endTurn_returns (hp.mid h1 hout) ?_, ha.turned ?_⟩
      · exact (congrArg Waiter.done (hp.frame w hout)).trans hdone
      · exact turned_of_promoted hp.state hp.queue hp.raised hout ⟨_, rfl⟩ fun _ => hp.some
    | false =>
      refine ⟨_, rfl, endTurn_returns h1 hdone, ha.turned ?_⟩
      refine turned_of_promoted rfl rfl (fun _ => .inl rfl) hout ⟨_, rfl⟩ fun hs => ?_
      rw [hsmall] at hs
      cases hs
  | false =>
    have hin := h1.registered.mpr hdone
    cases hsmall : (s1.waiters w).doSmallWait with
    | true =>
      refine ⟨_, rfl, h1.inv ?_ (by simp) (by simp [eq_comm]), ha.turned ?_⟩
      · exact ⟨by simp [hin, hdone, Pc.active], fun _ => ⟨hdone, hsmall⟩, by simp, by simp,
          fun _ hd => absurd (hdone.symm.trans hd) (by decide), by simp⟩
      · refine ⟨rfl, rfl, fun _ _ => Iff.rfl, fun x hx => .inl (modify_of_ne hx), id,
          .inl ⟨hin, ?_, ?_⟩⟩
        · rw [modify_self]
        · rw [modify_self, hsmall]
          rfl
    | false =>
      refine ⟨_, rfl, h1.inv ?_ (by simp) (by simp), ha.turned ?_⟩
      · exact ⟨by simp [hin, hdone, Pc.active], by simp, by simp, by simp,
          fun _ hd => absurd (hdone.symm.trans hd) (by decide), by simp⟩
      · refine ⟨rfl, rfl, fun _ _ => Iff.rfl, fun x hx => .inl (modify_of_ne hx), id,
          .inl ⟨hin, ?_, ?_⟩⟩
        · rw [modify_self]
        · rw [modify_self, hsmall]
          rfl

end Turns

end Rpl.GtidWait
