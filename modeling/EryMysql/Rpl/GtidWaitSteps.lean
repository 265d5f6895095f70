import EryMysql.Rpl.GtidWaitSafety

/-!
# The steps of the waiters

No step of the system fails, every step keeps the invariant, and every step is one of a few
moves of the waiters in the queue. The hand-over of the small wait is a matter of the moves
alone.
-/

namespace Rpl.SlaveState

open Option Rpl.SlaveState.Element State

section States
variable {d d' : UInt32} {env : Env} {st st' : State} {e : Element}

lemma State.find_put (e : Element) (h : st.find d ≠ none) : (st.put e).find d ≠ none := by
  rw [find, put, KeyedList.lookup_replace]
  split
  · rw [Ne, map_eq_none_iff]
    exact h
  · exact h

lemma find_getElement (hget : getElement env st d' = some (st', e)) (h : st.find d ≠ none) :
    st'.find d ≠ none := by
  unfold getElement at hget
  split at hget
  · cases hget
    exact h
  · rename_i hfind
    split at hget
    · cases hget
      have hinsert := st.unique.lookup_insert (a := new d') env.order hfind d
      rw [State.find, hinsert]
      split
      · exact some_ne_none _
      · exact h
    · cases hget

/-- The sequence number for which the waiter waits is not reached when the waiter is kept. -/
structure Element.Later (e e' : Element) : Prop where
  le : e.highestSeqNo ≤ e'.highestSeqNo
  waiter : ∀ x, e'.gtidWaiter = some x -> e.gtidWaiter = some x ∧ e'.minWaitSeqNo = e.minWaitSeqNo ∧
    (e.highestSeqNo < e.minWaitSeqNo -> e'.highestSeqNo < e.minWaitSeqNo)

lemma Element.later_refl (e : Element) : e.Later e := ⟨UInt64.le_refl _, fun _ hx => ⟨hx, rfl, id⟩⟩

lemma Element.later_reach (e : Element) (seqNo : UInt64) : e.Later (e.reach seqNo) := by
  refine ⟨(e.le_reach seqNo).1, fun x hx => ?_⟩
  rw [highestSeqNo_reach]
  have hraise : (e.raiseHighest seqNo).gtidWaiter = e.gtidWaiter ∧
      (e.raiseHighest seqNo).minWaitSeqNo = e.minWaitSeqNo := by
    unfold raiseHighest
    split
    iterate 2 exact ⟨rfl, rfl⟩
  rw [reach, wakeWaiter] at hx ⊢
  split at hx
  · cases hx
  · rename_i hkeep
    rw [if_neg hkeep]
    rw [hraise.1] at hx
    refine ⟨hx, hraise.2, fun hlt => ?_⟩
    split
    · rw [hraise.1, hx, hraise.2] at hkeep
      exact UInt64.not_le.mp fun hle => hkeep ⟨some_ne_none _, hle⟩
    · exact hlt

lemma update_later {alloc : Bool} {gtid : Gtid} {subId : UInt64} {r : Option GroupInfo × Bool}
    (hupd : update env alloc st gtid subId none = some (st', r)) (d : UInt32) :
    (st.elem d).Later (st'.elem d) ∧ (st.find d ≠ none -> st'.find d ≠ none) := by
  unfold update at hupd
  split at hupd
  · cases hupd
    exact ⟨later_refl _, id⟩
  · rename_i st1 e1 hget
    obtain ⟨-, -, he1⟩ := getElement_spec hget
    have hframe := (e1.reach_frame gtid.seqNo).1
    have hdomain : e1.domainId = gtid.domainId := he1 ▸ domainId_elem st _
    have hput : ∀ e : Element, e.domainId = gtid.domainId -> (e1.Later e) ->
        (st.elem d).Later ((st1.put e).elem d) := by
      intro e hd hlater
      rw [getElement_put hget hd]
      by_cases hdd : d = gtid.domainId
      · rw [hdd, Function.update_self, ← he1]
        exact hlater
      · rw [Function.update_of_ne hdd]
        exact later_refl _
    have hlater := e1.later_reach gtid.seqNo
    cases alloc with
    | true =>
      cases hupd
      exact ⟨hput _ (hframe.trans hdomain) ⟨hlater.le, hlater.waiter⟩,
        fun h => find_put _ (find_getElement hget h)⟩
    | false =>
      cases hupd
      exact ⟨hput _ (hframe.trans hdomain) hlater,
        fun h => find_put _ (find_getElement hget h)⟩

end States

end Rpl.SlaveState

namespace Rpl.GtidWait

open Mysys SlaveState

/-- `s'` differs from `s` in `w` alone, as far as the queue and the waits are concerned. -/
structure Beside (s : Sys) (w : Nat) (s' : Sys) : Prop where
  key : ∀ x, x ≠ w -> s'.queue.key x = s.queue.key x
  mem : ∀ x, x ≠ w -> (x ∈ s'.queue.contents ↔ x ∈ s.queue.contents)
  pc : ∀ x, x ≠ w -> (s'.waiters x).pc = (s.waiters x).pc
  small : ∀ x, x ≠ w -> (s'.waiters x).doSmallWait = (s.waiters x).doSmallWait

/-- The waiter `w` stays where it is with respect to the queue. -/
structure Keeps (s : Sys) (w : Nat) (s' : Sys) : Prop where
  key : s'.queue.key w = s.queue.key w
  mem : w ∈ s'.queue.contents ↔ w ∈ s.queue.contents

/-- What a step is for the waiters in the queue. -/
inductive Moves (d : UInt32) (s : Sys) : Sys -> Prop where
  /-- Nothing but a call that ends at its start. -/
  | quiet {s' : Sys} (key : s'.queue.key = s.queue.key)
      (mem : ∀ x, x ∈ s'.queue.contents ↔ x ∈ s.queue.contents)
      (pc : ∀ x, (s'.waiters x).pc = (s.waiters x).pc ∧
          (s'.waiters x).doSmallWait = (s.waiters x).doSmallWait ∨
        x ∉ s.queue.contents ∧ ∃ res, (s'.waiters x).pc = .returned res) : Moves d s s'
  | join (w : Nat) {s' : Sys} (free : s.lock = none) (beside : Beside s w s')
      (new : w ∉ s.queue.contents) (pc : (s'.waiters w).pc = .small)
      (small : (s'.waiters w).doSmallWait = true) : Moves d s s'
  /-- A new waiter is behind another one. -/
  | joinBehind (w : Nat) (s₁ : Sys) {s' : Sys} (free : s.lock = none) (beside : Beside s w s₁)
      (new : w ∉ s.queue.contents) (small : (s₁.waiters w).doSmallWait = false)
      (behind : ∃ y ∈ s.queue.contents, s.queue.key y ≤ s₁.queue.key w)
      (turned : Turned s₁ w s') : Moves d s s'
  | large (w : Nat) (s₁ : Sys) {s' : Sys} (free : s.lock = none) (beside : Beside s w s₁)
      (keeps : Keeps s w s₁) (pc : (s.waiters w).pc = .largeWait)
      (small : (s₁.waiters w).doSmallWait = (s.waiters w).doSmallWait)
      (turned : Turned s₁ w s') : Moves d s s'
  | back (w : Nat) (u : UInt64) (s₁ : Sys) {s' : Sys} (free : s.lock = none)
      (pc : (s.waiters w).pc = .relock u) (processed : Processed u s s₁)
      (turned : Turned s₁ w s') : Moves d s s'
  | fail (w : Nat) {s' : Sys} (unknown : s.state.find d = none)
      (mem : ∀ x, x ∈ s'.queue.contents ↔ x ∈ s.queue.contents ∧ x ≠ w)
      (raised : ∀ x, x ≠ w -> Raised (s.waiters x) (s'.waiters x))
      (some : ∀ y ∈ s'.queue.contents, ∃ x ∈ s'.queue.contents,
        (s'.waiters x).doSmallWait = true)
      (returned : ∃ res, (s'.waiters w).pc = .returned res) : Moves d s s'
  /-- The sequence number of a waiter with `do_small_wait` is reached. -/
  | enough (w : Nat) (s₁ s₂ : Sys) {s' : Sys} (beside : Beside s w s₁)
      (queue : s₁.queue = s.queue)
      (small : (s₁.waiters w).doSmallWait = true)
      (processed : Processed (s.state.elem d).highestSeqNo s₁ s₂)
      (turned : Turned s₂ w s') : Moves d s s'
  /-- The small wait is done by a waiter that is not behind. -/
  | yield (w x : Nat) (s₁ s₂ : Sys) {s' : Sys} (beside : Beside s w s₁)
      (queue : s₁.queue = s.queue)
      (waiter : (s.state.elem d).gtidWaiter = some x) (ne : x ≠ w)
      (processed : Processed (s.state.elem d).highestSeqNo s₁ s₂)
      (turned : Turned s₂ w s') : Moves d s s'
  /-- The waiter begins the small wait, and ends it at once if it is killed. -/
  | wait (w : Nat) {s' : Sys} (beside : Beside s w s') (keeps : Keeps s w s')
      (small : (s'.waiters w).doSmallWait = (s.waiters w).doSmallWait)
      (before : (s.waiters w).pc = .small)
      (later : (s.state.elem d).highestSeqNo < s.queue.key w)
      (pc : (s'.waiters w).pc = .smallWait ∨
        (s'.waiters w).pc = .relock (s.state.elem d).highestSeqNo) : Moves d s s'
  /-- The waiter ends the small wait; another one may have taken it over. -/
  | ends (w : Nat) {s' : Sys} (beside : Beside s w s') (keeps : Keeps s w s')
      (before : (s.waiters w).pc = .smallWait)
      (pc : (s'.waiters w).pc = .relock (s.state.elem d).highestSeqNo)
      (small : (s'.waiters w).doSmallWait = (s.waiters w).doSmallWait ∨
        ∃ x, (s.state.elem d).gtidWaiter = some x ∧ x ≠ w) : Moves d s s'

section Steps
variable {d : UInt32} {env : Env} {s s' : Sys} {w x : Nat} {f : Waiter -> Waiter}

lemma moves_refl (d : UInt32) (s : Sys) : Moves d s s :=
  .quiet rfl (fun _ => Iff.rfl) fun _ => .inl ⟨rfl, rfl⟩

lemma Inv.not_mem_of_idle (h : Inv d s) (hpc : (s.waiters w).pc = .idle) :
    w ∉ s.queue.contents := by
  intro hw
  have hactive := ((h.ok w).registered_iff.mp hw).1
  rw [hpc] at hactive
  cases hactive

lemma Inv.waiter_ne (h : Inv d s) (hpc : (s.waiters w).pc ≠ .smallWait) :
    (s.state.elem d).gtidWaiter ≠ some w := fun hw => hpc (h.known w hw).1

lemma Inv.not_locked (h : Inv d s) (hpc : (s.waiters w).pc ≠ .small) : s.lock ≠ some w :=
  fun hs => hpc ((h.lock w).mpr hs)

section
variable (h : Inv d s) (hpc : (s.waiters w).pc = .idle)
include h hpc

lemma start_fails : Inv d (s.modify w fun x => { x with pc := .returned 1 }) ∧
      Moves d s (s.modify w fun x => { x with pc := .returned 1 }) := by
  have hnew := h.not_mem_of_idle hpc
  have hother := h.waiter_ne (w := w) (by rw [hpc]; decide)
  refine ⟨h.change s.state (UInt64.le_refl _) id ⟨iff_of_false hnew (by simp [Pc.active]), by simp,
    by simp, by simp, by simp [Pc.active], by simp⟩ (iff_of_false (by simp) (h.not_locked ?_)) ?_,
    .quiet rfl (fun _ => Iff.rfl) fun x => ?_⟩
  · rw [hpc]
    decide
  · intro x hx
    have hxw : x ≠ w := fun heq => hother (heq ▸ hx)
    rw [modify_of_ne hxw]
    exact h.known x hx
  · rcases eq_or_ne x w with rfl | hxw
    · rw [modify_self]
      exact .inr ⟨hnew, 1, rfl⟩
    · rw [modify_of_ne hxw]
      exact .inl ⟨rfl, rfl⟩

lemma start_mid (hlock : s.lock = none) {q : Queue Nat UInt64} (hsound : Sound q)
    (hkey : ∀ x, x ≠ w -> q.key x = s.queue.key x)
    (hmem : ∀ x, x ∈ q.contents ↔ x = w ∨ x ∈ s.queue.contents)
    (hf : (f (s.waiters w)).done = false) : Mid d ({ s with queue := q }.modify w f) w ∧
      Beside s w ({ s with queue := q }.modify w f) := by
  have hother := h.waiter_ne (w := w) (by rw [hpc]; decide)
  have hiff : ∀ x, x ≠ w -> (x ∈ q.contents ↔ x ∈ s.queue.contents) :=
    fun x hx => (hmem x).trans (or_iff_right hx)
  refine ⟨⟨hsound, ?_, ?_, hother, ?_, ?_⟩, hkey, hiff, ?_, ?_⟩
  · intro x hx
    rw [Ok, modify_of_ne hx]
    refine ⟨?_, fun hs => ?_⟩
    · show Waiter.Ok _ _ (q.key x) (x ∈ q.contents) _
      rw [hkey x hx]
      exact (h.ok x).mono (UInt64.le_refl _) id (hiff x hx)
    · have := (h.lock x).mp hs
      rw [hlock] at this
      cases this
  · intro x hx
    have hxw : x ≠ w := fun heq => hother (heq ▸ hx)
    rw [modify_of_ne hxw]
    show _ ∧ _ ∧ _ = q.key x ∧ _ < q.key x
    rw [hkey x hxw]
    exact h.known x hx
  · rw [modify_self]
    exact iff_of_true ((hmem w).mpr (.inl rfl)) hf
  · rw [modify_self]
    intro hd
    exact absurd (hf.symm.trans hd) (by decide)
  iterate 2
    intro x hx
    rw [modify_of_ne hx]

lemma start_spec (hlock : s.lock = none) (seqNo : UInt64) (entryMemory queueMemory : Bool) :
    ∃ s', start s w seqNo entryMemory queueMemory = some s' ∧ Inv d s' ∧ Moves d s s' := by
  have hnew := h.not_mem_of_idle hpc
  unfold start
  split
  · exact ⟨_, rfl, start_fails h hpc⟩
  · have hset : Sound (s.queue.setKey w seqNo) :=
      { h.sound with }
    obtain ⟨q, err, hinsert, hq⟩ := hset.insert hnew queueMemory
    simp only [hinsert, some_bind]
    by_cases herr : err = 0
    · subst herr
      obtain ⟨hsound, hqkey, hmem⟩ := hq rfl
      have hkey : ∀ x, x ≠ w -> q.key x = s.queue.key x := by
        intro x hx
        rw [hqkey]
        exact Function.update_of_ne hx _ _
      have hkeyw : q.key w = seqNo := by
        rw [hqkey]
        exact Function.update_self _ _ _
      generalize hsmall : (decide ((s.queue.setKey w seqNo).elements = 0) ||
        decide ((s.queue.setKey w seqNo).key ((s.queue.setKey w seqNo).root 1) > seqNo)) = small
      obtain ⟨hmid, hbeside⟩ := start_mid h hpc hlock hsound hkey hmem
        (f := fun x => { x with doSmallWait := small, done := false, timedOut := false }) rfl
      have hin : w ∈ q.contents := (hmem w).mpr (.inl rfl)
      cases small with
      | true =>
        refine ⟨_, rfl, hmid.inv ?_ (by simp) (by simp [eq_comm]), .join w hlock ?_ hnew ?_ ?_⟩
        · rw [modify_self]
          exact ⟨iff_of_true hin (by simp [Pc.active]), by simp, by simp, by simp, by simp, by simp⟩
        · refine ⟨hkey, hbeside.mem, fun x hx => ?_, fun x hx => ?_⟩
          · rw [modify_of_ne hx]
            exact hbeside.pc x hx
          · rw [modify_of_ne hx]
            exact hbeside.small x hx
        · rw [modify_self]
        · simp [modify_self]
      | false =>
        obtain ⟨s', hs', hinv, hturned⟩ := endTurn_spec hmid
        obtain ⟨hne, hroot⟩ := Bool.or_eq_false_iff.mp hsmall
        have hne : s.queue.elements ≠ 0 := of_decide_eq_false hne
        have hmem1 : s.queue.root 1 ∈ s.queue.contents := root_mem ⟨le_rfl, by omega⟩
        have hroot1 : s.queue.root 1 ≠ w := fun heq => hnew (heq ▸ hmem1)
        refine ⟨s', hs', hinv, .joinBehind w _ hlock hbeside hnew ?_ ⟨_, hmem1, ?_⟩ hturned⟩
        · rw [modify_self]
        · show _ ≤ q.key w
          rw [hkeyw]
          have hle := UInt64.not_lt.mp (of_decide_eq_false hroot)
          rwa [show (s.queue.setKey w seqNo).key ((s.queue.setKey w seqNo).root 1) =
            s.queue.key (s.queue.root 1) from Function.update_of_ne hroot1 _ _] at hle
    · rw [if_pos herr]
      exact ⟨_, rfl, start_fails h hpc⟩

end

lemma Beside.trans {s₁ : Sys} (h : Beside s w s₁) (h' : Beside s₁ w s') : Beside s w s' :=
  ⟨fun x hx => (h'.key x hx).trans (h.key x hx), fun x hx => (h'.mem x hx).trans (h.mem x hx),
    fun x hx => (h'.pc x hx).trans (h.pc x hx), fun x hx => (h'.small x hx).trans (h.small x hx)⟩

lemma beside_modify (s : Sys) (w : Nat) (f : Waiter -> Waiter) (state : State)
    (lock : Option Nat) : Beside s w ({ s with state, lock }.modify w f) := by
  refine ⟨fun _ _ => rfl, fun _ _ => Iff.rfl, fun x hx => ?_, fun x hx => ?_⟩
  iterate 2 rw [modify_of_ne hx]

structure Ended (d : UInt32) (s : Sys) (w : Nat) (s' : Sys) : Prop where
  beside : Beside s w s'
  keeps : Keeps s w s'
  pc : (s'.waiters w).pc = .relock (s.state.elem d).highestSeqNo
  small : (s'.waiters w).doSmallWait = (s.waiters w).doSmallWait ∨
    ∃ x, (s.state.elem d).gtidWaiter = some x ∧ x ≠ w

lemma Inv.relock (h : Inv d s) (hpc : (s.waiters w).pc = .smallWait) {state : State}
    (hf : (f (s.waiters w)).pc = .relock (s.state.elem d).highestSeqNo ∧
      (f (s.waiters w)).done = (s.waiters w).done)
    (hhighest : (state.elem d).highestSeqNo = (s.state.elem d).highestSeqNo)
    (hfind : s.state.find d ≠ none -> state.find d ≠ none)
    (hwaiter : ∀ x, (state.elem d).gtidWaiter = some x -> x ≠ w ∧
      (s.state.elem d).gtidWaiter = some x ∧
      (state.elem d).minWaitSeqNo = (s.state.elem d).minWaitSeqNo) :
    Inv d ({ s with state }.modify w f) := by
  have hle : (s.state.elem d).highestSeqNo ≤ (state.elem d).highestSeqNo :=
    hhighest ▸ UInt64.le_refl _
  have hok := h.ok w
  have hiff := hok.registered_iff
  have hreached := hok.reached
  rw [hpc] at hiff hreached
  refine h.change state hle hfind ⟨?_, ?_, ?_, ?_, ?_, ?_⟩ ?_ fun x hx => ?_
  · rw [hf.1, hf.2]
    exact hiff
  iterate 2
    rw [hf.1]
    simp
  · rw [hf.1]
    intro u hu
    cases hu
    exact ⟨hle, hfind (hok.smallWait hpc).2⟩
  · rw [hf.2]
    exact fun _ hdone => UInt64.le_trans (hreached rfl hdone) hle
  · rw [hf.1]
    simp
  · rw [hf.1]
    exact iff_of_false (by simp) (h.not_locked (by rw [hpc]; decide))
  · obtain ⟨hxw, hx, hmin⟩ := hwaiter x hx
    obtain ⟨hpc, hdone, hkey, hlt⟩ := h.known x hx
    rw [modify_of_ne hxw]
    exact ⟨hpc, hdone, hmin.trans hkey, hhighest.symm ▸ hlt⟩

lemma elem_put_of_ne {e : SlaveState.Element} {st : State} (hfind : st.find d ≠ none)
    (hd : e.domainId = d) : (st.put e).elem d = e := by
  obtain ⟨e0, he0⟩ := Option.ne_none_iff_exists'.mp hfind
  rw [State.elem_put he0 hd, Function.update_self]

lemma smallEnd_spec (h : Inv d s) (hpc : (s.waiters w).pc = .smallWait) :
    Inv d (smallEnd d s w) ∧ Ended d s w (smallEnd d s w) := by
  have hfind := ((h.ok w).smallWait hpc).2
  unfold smallEnd
  simp only
  cases hwaiter : (s.state.elem d).gtidWaiter with
  | none =>
    refine ⟨h.relock hpc ⟨rfl, rfl⟩ rfl id fun x hx => ?_, beside_modify s w _ _ _, ⟨rfl, Iff.rfl⟩,
      ?_, .inl ?_⟩
    · rw [hwaiter] at hx
      cases hx
    iterate 2 rw [modify_self]
  | some cur =>
    simp only
    split
    · have helem := elem_put_of_ne (e := { s.state.elem d with gtidWaiter := none }) hfind
        (State.domainId_elem _ _)
      have hform : ∀ P : Sys -> Prop,
          P ({ s with state := s.state.put { s.state.elem d with gtidWaiter := none } }.modify w
            fun x => { x with pc := .relock (s.state.elem d).highestSeqNo }) ->
          P { s.modify w fun x => { x with pc := .relock (s.state.elem d).highestSeqNo } with
            state := s.state.put { s.state.elem d with gtidWaiter := none } } := fun _ => id
      refine hform (fun s' => Inv d s' ∧ Ended d s w s') ⟨h.relock hpc
        ⟨rfl, rfl⟩ ?_ (State.find_put _) fun x hx => ?_, beside_modify s w _ _ _, ⟨rfl, Iff.rfl⟩,
        ?_, .inl ?_⟩
      · rw [helem]
      · rw [helem] at hx
        cases hx
      · rw [modify_self]
      · rw [modify_self]
    · rename_i hcur
      have hwaiter' : ∀ x, (s.state.elem d).gtidWaiter = some x -> x ≠ w ∧
          (s.state.elem d).gtidWaiter = some x ∧
          (s.state.elem d).minWaitSeqNo = (s.state.elem d).minWaitSeqNo := by
        intro x hx
        rw [hwaiter] at hx
        cases hx
        exact ⟨hcur, hwaiter, rfl⟩
      split
      · have hmodify : ∀ g : Waiter -> Waiter, (s.modify w fun x => { x with
            pc := .relock (s.state.elem d).highestSeqNo }).modify w g =
            s.modify w fun x => g { x with pc := .relock (s.state.elem d).highestSeqNo } := by
          simp [Sys.modify]
        rw [hmodify]
        refine ⟨h.relock hpc ⟨rfl, rfl⟩ rfl id hwaiter', beside_modify s w _ _ _, ⟨rfl, Iff.rfl⟩,
          ?_, .inr ⟨cur, hwaiter, hcur⟩⟩
        rw [modify_self]
      · refine ⟨h.relock hpc ⟨rfl, rfl⟩ rfl id hwaiter', beside_modify s w _ _ _, ⟨rfl, Iff.rfl⟩,
          ?_, .inl ?_⟩
        · rw [modify_self]
        · rw [modify_self]

lemma smallEnd_modify (d : UInt32) (s : Sys) (w : Nat) (pc : Pc) :
    smallEnd d (s.modify w fun x => { x with pc }) w = smallEnd d s w := by
  have hmodify : ∀ p : Pc, (s.modify w fun x => { x with pc }).modify w
      (fun x => { x with pc := p }) = s.modify w fun x => { x with pc := p } := by
    simp [Sys.modify]
  unfold smallEnd
  simp [hmodify, show (s.modify w fun x => { x with pc }).state = s.state from rfl]

lemma Inv.modify (h : Inv d s)
    (hok : ∀ {highest seqNo : UInt64} {known registered : Prop},
      (s.waiters w).Ok highest known seqNo registered ->
        (f (s.waiters w)).Ok highest known seqNo registered)
    (hf : (f (s.waiters w)).pc = (s.waiters w).pc ∧ (f (s.waiters w)).done = (s.waiters w).done) :
    Inv d (s.modify w f) := by
  refine h.change s.state (UInt64.le_refl _) id (hok (h.ok w)) ?_ fun x hx => ?_
  · rw [hf.1]
    exact h.lock w
  · rcases eq_or_ne x w with rfl | hxw
    · rw [modify_self, hf.1, hf.2]
      exact h.known x hx
    · rw [modify_of_ne hxw]
      exact h.known x hx

lemma Inv.timeout (h : Inv d s) (w : Nat) :
    Inv d (s.modify w fun x => { x with timedOut := true }) :=
  h.modify (fun hok => { hok with }) ⟨rfl, rfl⟩

lemma smallWake_spec (h : Inv d s) (hpc : (s.waiters w).pc = .smallWait) (timeout : Bool) :
    Inv d (smallWake d s w timeout) ∧ Moves d s (smallWake d s w timeout) := by
  unfold smallWake
  split
  · obtain ⟨hinv, hended⟩ := smallEnd_spec (h.timeout w)
      (w := w) (by rw [modify_self]; exact hpc)
    refine ⟨hinv, .ends w ((beside_modify s w _ _ _).trans hended.beside)
      ⟨hended.keeps.key, hended.keeps.mem⟩ hpc hended.pc ?_⟩
    have hsmall := hended.small
    rw [modify_self] at hsmall
    exact hsmall
  · split
    · exact ⟨h, moves_refl d s⟩
    · obtain ⟨hinv, hended⟩ := smallEnd_spec h hpc
      exact ⟨hinv, .ends w hended.beside hended.keeps hpc hended.pc hended.small⟩

lemma smallLock_fails (h : Inv d s) (hpc : (s.waiters w).pc = .small)
    (hfind : s.state.find d = none) : ∃ s', (do
      let s := promoteNewWaiter (← removeFromWaitQueue s w)
      return { s with lock := none }.modify w fun x => { x with pc := .returned 1 }) = some s' ∧
      Inv d s' ∧ Moves d s s' := by
  have hin : w ∈ s.queue.contents :=
    (h.ok w).registered_iff.mpr ⟨by rw [hpc]; rfl, ((h.ok w).small hpc).1⟩
  obtain ⟨q, hremove, hsound, hkey, hmem⟩ := removeFromWaitQueue_spec h.sound hin
  have hout : w ∉ q.contents := fun hw => ((hmem w).mp hw).2 rfl
  have hlock := (h.lock w).mp hpc
  have hother := h.waiter_ne (w := w) (by rw [hpc]; decide)
  obtain ⟨s₁, hs1, hstate, hqueue, hraised, -, hsome⟩ :
      ∃ s₁, promoteNewWaiter { s with queue := q } = s₁ ∧ Promoted { s with queue := q } s₁ :=
    ⟨_, rfl, promoted _⟩
  refine ⟨{ s₁ with lock := none }.modify w fun x => { x with pc := .returned 1 }, ?_,
    ⟨?_, ?_, ?_, ?_⟩, .fail w hfind ?_ ?_ ?_ ?_⟩
  · rw [hremove, ← hs1]
    rfl
  · exact hqueue.symm ▸ hsound
  · intro x
    by_cases hxw : x = w
    · subst hxw
      rw [Ok, modify_self]
      refine ⟨iff_of_false ?_ (by simp [Pc.active]), by simp, by simp, by simp,
        by simp [Pc.active], by simp⟩
      exact hqueue.symm ▸ hout
    · have hok := (h.ok x).mono (UInt64.le_refl _) id ((hmem x).trans (and_iff_left hxw))
      rw [Ok, modify_of_ne hxw]
      show (s₁.waiters x).Ok (s₁.state.elem d).highestSeqNo (s₁.state.find d ≠ none)
        (s₁.queue.key x) (x ∈ s₁.queue.contents)
      rw [hstate, hqueue, hkey]
      rcases hraised x with heq | heq
      · exact heq.symm ▸ hok
      · exact heq.symm ▸ hok.promote
  · intro x
    by_cases hxw : x = w
    · subst hxw
      rw [modify_self]
      exact iff_of_false (by simp) (by simp [Sys.modify])
    · rw [modify_of_ne hxw]
      refine iff_of_false (fun hs => hxw ?_) (by simp [Sys.modify])
      have hs := (h.lock x).mp ((hraised x).pc.symm.trans hs)
      exact Option.some_injective _ (hs.symm.trans hlock)
  · intro x hx
    have hx : (s.state.elem d).gtidWaiter = some x := hstate ▸ hx
    have hxw : x ≠ w := fun heq => hother (heq ▸ hx)
    rw [modify_of_ne hxw]
    show (s₁.waiters x).pc = _ ∧ (s₁.waiters x).done = _ ∧
      (s₁.state.elem d).minWaitSeqNo = s₁.queue.key x ∧ _ < s₁.queue.key x
    rw [hstate, hqueue, hkey]
    rcases hraised x with heq | heq
    iterate 2 exact heq.symm ▸ h.known x hx
  · rw [hqueue]
    exact hmem
  · intro x hx
    rw [modify_of_ne hx]
    exact hraised x
  · rw [hqueue]
    intro y hy
    obtain ⟨x, hx, hxs⟩ := hsome y hy
    have hxw : x ≠ w := fun heq => hout (heq ▸ hx)
    refine ⟨x, hx, ?_⟩
    rw [modify_of_ne hxw]
    exact hxs
  · rw [modify_self]
    exact ⟨1, rfl⟩

lemma smallLock_waits (h : Mid d s w) (hsmall : (s.waiters w).doSmallWait = true)
    (hdone : (s.waiters w).done = false) (hfind : s.state.find d ≠ none)
    (hlt : (s.state.elem d).highestSeqNo < s.queue.key w) :
    let s' := { s with
      state := s.state.put
        { s.state.elem d with gtidWaiter := some w, minWaitSeqNo := s.queue.key w }
      lock := none }.modify w fun x => { x with pc := .smallWait }
    Inv d s' ∧ (s'.waiters w).pc = .smallWait ∧ (s'.state.elem d).gtidWaiter = some w ∧
      (s'.state.elem d).highestSeqNo = (s.state.elem d).highestSeqNo := by
  intro s'
  have helem : s'.state.elem d =
      { s.state.elem d with gtidWaiter := some w, minWaitSeqNo := s.queue.key w } :=
    elem_put_of_ne hfind (State.domainId_elem _ _)
  have hpc : s'.waiters w = { s.waiters w with pc := .smallWait } := modify_self _ _ _
  have hwaits : Inv d ({ s with lock := none }.modify w fun x => { x with pc := .smallWait }) := by
    refine h.inv ⟨?_, by simp, fun _ => ⟨hsmall, hfind⟩, by simp, ?_, by simp⟩ (by simp) (by simp)
    · exact iff_of_true (h.registered.mpr hdone) ⟨rfl, hdone⟩
    · exact fun _ hd => absurd (hdone.symm.trans hd) (by decide)
  refine ⟨hwaits.setState s'.state ?_ (State.find_put _) ?_, by rw [hpc], by rw [helem],
    by rw [helem]⟩
  · rw [helem]
    exact UInt64.le_refl _
  · intro x hx
    have hxw : w = x := by
      rw [helem] at hx
      exact Option.some_injective _ hx
    subst hxw
    show (s'.waiters w).pc = _ ∧ (s'.waiters w).done = _ ∧ (s'.state.elem d).minWaitSeqNo = _ ∧
      (s'.state.elem d).highestSeqNo < _
    rw [hpc, helem]
    exact ⟨rfl, hdone, rfl, hlt⟩

lemma smallLock_spec (h : Inv d s) (hpc : (s.waiters w).pc = .small) (env : Env) :
    ∃ s', smallLock d env s w = some s' ∧ Inv d s' ∧ Moves d s s' := by
  have hsmall := (h.ok w).small hpc
  have hlock := (h.lock w).mp hpc
  unfold smallLock
  cases hget : getElement env s.state d with
  | none => exact smallLock_fails h hpc (getElement_none hget)
  | some r =>
    obtain ⟨state, e⟩ := r
    obtain ⟨helem, hfind, rfl⟩ := getElement_spec hget
    have hinv1 : Inv d { s with state } := by
      refine h.setState state (helem ▸ UInt64.le_refl _) (find_getElement hget) fun x hx => ?_
      rw [helem] at hx ⊢
      exact h.known x hx
    have hmid : Mid d { s with state } w := by
      refine hinv1.mid (by rw [hpc]; rfl) (by rw [hpc]; decide) fun x hx hs => hx ?_
      exact Option.some_injective _ (hs.symm.trans hlock)
    have hhighest : (s.state.elem d).highestSeqNo ≤ (state.elem d).highestSeqNo :=
      helem ▸ UInt64.le_refl _
    simp only
    split
    · obtain ⟨s₂, hs2, hp, hmid2⟩ := hmid.process hhighest
      obtain ⟨s', hs', hinv', hturned⟩ := endTurn_spec hmid2
      refine ⟨s', ?_, hinv', .enough w { s with state } s₂ ⟨fun _ _ => rfl, fun _ _ => Iff.rfl,
        fun _ _ => rfl, fun _ _ => rfl⟩ rfl hsmall.2 hp hturned⟩
      rw [hs2]
      exact hs'
    · rename_i hnot
      have hlt := UInt64.not_le.mp hnot
      split
      · rename_i hwaiter
        obtain ⟨x, hx⟩ := Option.ne_none_iff_exists'.mp hwaiter.1
        have hxw : x ≠ w := by
          rintro rfl
          exact h.waiter_ne (by rw [hpc]; decide) hx
        obtain ⟨s₂, hs2, hp, hmid2⟩ := (hmid.modify
          (f := fun x => { x with doSmallWait := false }) fun _ => ⟨rfl, rfl, id⟩).process hhighest
        obtain ⟨s', hs', hinv', hturned⟩ := endTurn_spec hmid2
        refine ⟨s', ?_, hinv', .yield w x _ s₂ (beside_modify s w _ state s.lock) rfl hx hxw hp
          hturned⟩
        rw [hs2]
        exact hs'
      · have hknown : state.find d ≠ none := by
          rw [hfind]
          exact Option.some_ne_none _
        obtain ⟨hinv2, hpc2, hwaiter2, hhighest2⟩ := smallLock_waits hmid hsmall.2 hsmall.1 hknown
          (helem.symm ▸ hlt)
        have hbeside := beside_modify s w (fun x => { x with pc := .smallWait })
          (state.put { state.elem d with gtidWaiter := some w, minWaitSeqNo := s.queue.key w }) none
        rw [helem] at *
        split
        · obtain ⟨hinv', hended⟩ := smallEnd_spec hinv2 hpc2
          rw [smallEnd_modify] at hinv' hended
          refine ⟨_, rfl, hinv', .wait w (hbeside.trans hended.beside)
            ⟨hended.keeps.key, hended.keeps.mem⟩ ?_ hpc hlt (.inr ?_)⟩
          · rcases hended.small with heq | ⟨x, hx, hxw⟩
            · rw [modify_self] at heq
              exact heq
            · exact absurd (Option.some_injective _ (hx.symm.trans hwaiter2)) hxw
          · rw [hended.pc, hhighest2]
        · refine ⟨_, rfl, hinv2, .wait w hbeside ⟨rfl, Iff.rfl⟩ ?_ hpc hlt (.inl hpc2)⟩
          rw [modify_self]

lemma step_spec (h : Inv d s) (op : Op) :
    ∃ s', step d s op = some s' ∧ Inv d s' ∧ Moves d s s' := by
  have hstay : ∃ s', some s = some s' ∧ Inv d s' ∧ Moves d s s' := ⟨s, rfl, h, moves_refl d s⟩
  cases op with
  | start w seqNo entryMemory queueMemory =>
    rw [step]
    split
    · rename_i hpc
      exact start_spec h hpc.1 hpc.2 seqNo entryMemory queueMemory
    · exact hstay
  | smallLock env w =>
    rw [step]
    split
    · rename_i hpc
      exact smallLock_spec h hpc env
    · exact hstay
  | smallWake w timeout =>
    rw [step]
    split
    · rename_i hpc
      exact ⟨_, rfl, smallWake_spec h hpc timeout⟩
    · exact hstay
  | relock w =>
    rw [step]
    split
    · rename_i u hpc
      split
      · rename_i hlock
        have hmid : Mid d s w := h.mid (by rw [hpc]; rfl) (by rw [hpc]; simp) (by simp [hlock])
        obtain ⟨s₁, hs1, hp, hmid1⟩ := hmid.process ((h.ok w).relock u hpc).1
        obtain ⟨s', hs', hinv', hturned⟩ := endTurn_spec hmid1
        refine ⟨s', ?_, hinv', .back w u s₁ hlock hpc hp hturned⟩
        rw [hs1]
        exact hs'
      · exact hstay
    · exact hstay
  | largeWake w timeout =>
    rw [step]
    split
    · rename_i hpc
      have hmid : Mid d s w := h.mid (by rw [hpc.1]; rfl) (by rw [hpc.1]; simp) (by simp [hpc.2])
      obtain ⟨s', hs', hinv', hturned⟩ := endTurn_spec (hmid.modify
        (f := fun x => { x with timedOut := x.timedOut || timeout })
        fun x => ⟨rfl, rfl, fun ht => by simp [ht]⟩)
      refine ⟨s', hs', hinv', .large w _ hpc.2 (beside_modify s w _ _ _) ⟨rfl, Iff.rfl⟩ hpc.1 ?_
        hturned⟩
      rw [modify_self]
    · exact hstay
  | kill w =>
    rw [step]
    split
    · exact hstay
    · rename_i hpc
      refine ⟨_, rfl, h.modify (fun hok => hok.kill hpc) ⟨rfl, rfl⟩,
        .quiet rfl (fun _ => Iff.rfl) fun x => .inl ?_⟩
      by_cases hxw : x = w
      · subst hxw
        rw [modify_self]
        exact ⟨rfl, rfl⟩
      · rw [modify_of_ne hxw]
        exact ⟨rfl, rfl⟩
  | update env alloc gtid subId =>
    rw [step]
    obtain ⟨⟨state, r⟩, hupd⟩ := update_defined env alloc s.state gtid subId none rfl
    obtain ⟨hlater, hfind⟩ := update_later hupd d
    rw [hupd]
    refine ⟨_, rfl, h.setState state hlater.le hfind fun x hx => ?_,
      .quiet rfl (fun _ => Iff.rfl) fun _ => .inl ⟨rfl, rfl⟩⟩
    obtain ⟨hx, hmin, hlt⟩ := hlater.waiter x hx
    obtain ⟨hpc, hdone, hkey, hnot⟩ := h.known x hx
    rw [← hkey] at hnot ⊢
    exact ⟨hpc, hdone, hmin, hlt hnot⟩

end Steps

end Rpl.GtidWait
