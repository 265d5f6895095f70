import EryMysql.Rpl.GtidWaitSteps

/-!
# Who does the small wait

While the queue of a domain is a heap, there is always a waiter in the queue that has to see
to the small wait. The invariant is about thresholds. A waiter that comes back from the small
wait takes everything up to the sequence number it saw out of the queue; it may have left the
small wait to somebody else, and then there must be somebody left behind that number. So, for
every threshold, either a waiter above it is on its way to the small wait or in it, or all
waiters are above it and one of them has `do_small_wait`.

`queue_remove` may leave the queue out of order. Then a waiter that is reached may stay in the
queue, behind one that is not, and be promoted in place of one that is not reached.
-/

namespace Rpl.GtidWait

open Mysys SlaveState Option List Nat State Machine

/-- The sequence number is above the threshold, which may be missing. -/
def Above (v : Option UInt64) (seqNo : UInt64) : Prop := ∀ t ∈ v, t < seqNo

/-- A waiter that does the small wait, or will learn what it needs to know about the
threshold. -/
def Hot (v : Option UInt64) (pc : Pc) : Prop :=
  pc = .small ∨ pc = .smallWait ∨ ∃ u, pc = .relock u ∧ ∀ t ∈ v, t ≤ u

/-- There is a waiter for everything above the threshold. -/
def Safe (v : Option UInt64) (s : Sys) : Prop :=
  (∃ x ∈ s.queue.contents, (s.waiters x).doSmallWait = true ∧ Above v (s.queue.key x) ∧
    Hot v (s.waiters x).pc) ∨
  (∀ y ∈ s.queue.contents, Above v (s.queue.key y) ∨ (s.waiters y).pc = .small) ∧
    ((∃ y ∈ s.queue.contents, Above v (s.queue.key y)) ->
      ∃ x ∈ s.queue.contents, (s.waiters x).doSmallWait = true ∧ Above v (s.queue.key x))

/-- The thresholds are those of the waiters that left the small wait to others. -/
structure HandOver (s : Sys) : Prop where
  queue : Safe none s
  back : ∀ w u, (s.waiters w).pc = .relock u -> (s.waiters w).doSmallWait = false ->
    Safe (some u) s

/-- A state in which `w` is about to end its turn, with a waiter for everything above the
threshold. -/
def Ready (v : Option UInt64) (s : Sys) (w : Nat) : Prop :=
  (∃ x ∈ s.queue.contents, x ≠ w ∧ (s.waiters x).doSmallWait = true ∧ Above v (s.queue.key x) ∧
    Hot v (s.waiters x).pc) ∨
  (∀ y ∈ s.queue.contents, Above v (s.queue.key y)) ∧
    ((s.waiters w).doSmallWait = true ∨
      ∀ y ∈ s.queue.contents, ∃ x ∈ s.queue.contents, x ≠ w ∧ (s.waiters x).doSmallWait = true)

section Thresholds
variable {d : UInt32} {s s' s₁ : Sys} {w x : Nat} {v : Option UInt64} {u : UInt64}

lemma Turned.safe (ht : Turned s w s') (h : Ready v s w) : Safe v s' := by
  have hsub : ∀ y ∈ s'.queue.contents, y ∈ s.queue.contents := by
    intro y hy
    by_cases hyw : y = w
    · subst hyw
      exact ht.sub hy
    · exact (ht.mem y hyw).mp hy
  rw [Safe, ht.key]
  rcases h with ⟨x, hx, hxw, hsmall, habove, hhot⟩ | ⟨hall, hsome⟩
  · refine .inl ⟨x, (ht.mem x hxw).mpr hx, (ht.raised x hxw).small hsmall, habove, ?_⟩
    rw [(ht.raised x hxw).pc]
    exact hhot
  · refine .inr ⟨fun y hy => .inl (hall y (hsub y hy)), ?_⟩
    rintro ⟨y, hy, -⟩
    have hone : ∃ x ∈ s'.queue.contents, (s'.waiters x).doSmallWait = true := by
      rcases hsome with hw | hother
      · rcases ht.turn with ⟨hin, hsmall, -⟩ | ⟨-, -, hpromoted⟩
        · exact ⟨w, hin, hsmall.trans hw⟩
        · exact hpromoted hw y hy
      · obtain ⟨x, hx, hxw, hsmall⟩ := hother y (hsub y hy)
        exact ⟨x, (ht.mem x hxw).mpr hx, (ht.raised x hxw).small hsmall⟩
    obtain ⟨x, hx, hsmall⟩ := hone
    exact ⟨x, hx, hsmall, hall x (hsub x hx)⟩

lemma Inv.pc_ne_small (h : Inv d s) (hlock : s.lock = none) (x : Nat) :
    (s.waiters x).pc ≠ .small := by
  intro hs
  have := (h.lock x).mp hs
  rw [hlock] at this
  cases this

lemma Inv.safe_cases (h : Inv d s) (hlock : s.lock = none) (hsafe : Safe v s) :
    (∃ x ∈ s.queue.contents, (s.waiters x).doSmallWait = true ∧ Above v (s.queue.key x) ∧
      Hot v (s.waiters x).pc) ∨
    (∀ y ∈ s.queue.contents, Above v (s.queue.key y)) ∧
      ∀ y ∈ s.queue.contents, ∃ x ∈ s.queue.contents, (s.waiters x).doSmallWait = true := by
  rcases hsafe with hhot | ⟨hlow, hsome⟩
  · exact .inl hhot
  · have hall : ∀ y ∈ s.queue.contents, Above v (s.queue.key y) :=
      fun y hy => (hlow y hy).resolve_right (h.pc_ne_small hlock y)
    refine .inr ⟨hall, fun y hy => ?_⟩
    obtain ⟨x, hx, hsmall, -⟩ := hsome ⟨y, hy, hall y hy⟩
    exact ⟨x, hx, hsmall⟩

/-- The waiter known to the slave state does the small wait for every threshold that is
reached. -/
lemma Inv.waiter_hot (h : Inv d s) (hv : ∀ t ∈ v, t ≤ (s.state.elem d).highestSeqNo)
    (hx : (s.state.elem d).gtidWaiter = some x) :
    x ∈ s.queue.contents ∧ (s.waiters x).doSmallWait = true ∧ Above v (s.queue.key x) ∧
      (s.waiters x).pc = .smallWait := by
  obtain ⟨hpc, hdone, -, hlt⟩ := h.known x hx
  refine ⟨(h.ok x).registered_iff.mpr ⟨by rw [hpc]; rfl, hdone⟩, ((h.ok x).smallWait hpc).1, ?_, hpc⟩
  exact fun t ht => UInt64.lt_of_le_of_lt (hv t ht) hlt

lemma Processed.mem (hp : Processed u s s₁) (hx : x ∈ s.queue.contents)
    (hu : u < s.queue.key x) : x ∈ s₁.queue.contents :=
  by_contra fun hout => UInt64.not_le.mpr hu (hp.popped x hx hout)

lemma Processed.flags (hp : Processed u s s₁) (x : Nat) : (s₁.waiters x).pc = (s.waiters x).pc ∧
      (s₁.waiters x).doSmallWait = (s.waiters x).doSmallWait := by
  rw [hp.waiters]
  split
  iterate 2 exact ⟨rfl, rfl⟩

/-- A waiter other than `w` carries over to a state that differs in `w` alone. -/
lemma Beside.hot (h : Beside s w s₁) (hxw : x ≠ w)
    (hx : x ∈ s.queue.contents ∧ (s.waiters x).doSmallWait = true ∧ Above v (s.queue.key x) ∧
      Hot v (s.waiters x).pc) :
    x ∈ s₁.queue.contents ∧ (s₁.waiters x).doSmallWait = true ∧ Above v (s₁.queue.key x) ∧
      Hot v (s₁.waiters x).pc := by
  rw [h.mem x hxw, h.small x hxw, h.key x hxw, h.pc x hxw]
  exact hx

lemma Beside.mem_iff (h : Beside s w s₁) (hkeeps : Keeps s w s₁) (x : Nat) :
    x ∈ s₁.queue.contents ↔ x ∈ s.queue.contents := by
  by_cases hxw : x = w
  · subst hxw
    exact hkeeps.mem
  · exact h.mem x hxw

lemma Beside.key_eq (h : Beside s w s₁) (hkeeps : Keeps s w s₁) (x : Nat) :
    s₁.queue.key x = s.queue.key x := by
  by_cases hxw : x = w
  · subst hxw
    exact hkeeps.key
  · exact h.key x hxw

lemma join_safe (h : Inv d s) (hlock : s.lock = none) (hbeside : Beside s w s')
    (hnew : w ∉ s.queue.contents) (hpc : (s'.waiters w).pc = .small)
    (hsmall : (s'.waiters w).doSmallWait = true) (hsafe : Safe v s) : Safe v s' := by
  have hne : ∀ x ∈ s.queue.contents, x ≠ w := fun x hx heq => hnew (heq ▸ hx)
  rcases h.safe_cases hlock hsafe with ⟨x, hx⟩ | ⟨hall, hsome⟩
  · exact .inl ⟨x, hbeside.hot (hne x hx.1) hx⟩
  · refine .inr ⟨fun y hy => ?_, ?_⟩
    · by_cases hyw : y = w
      · exact .inr (hyw ▸ hpc)
      · rw [hbeside.key y hyw]
        exact .inl (hall y ((hbeside.mem y hyw).mp hy))
    · rintro ⟨y, hy, habove⟩
      by_cases hyw : y = w
      · subst hyw
        exact ⟨y, hy, hsmall, habove⟩
      · obtain ⟨x, hx, hxs⟩ := hsome y ((hbeside.mem y hyw).mp hy)
        have hxw := hne x hx
        rw [← hbeside.small x hxw] at hxs
        refine ⟨x, (hbeside.mem x hxw).mpr hx, hxs, ?_⟩
        rw [hbeside.key x hxw]
        exact hall x hx

lemma joinBehind_ready (h : Inv d s) (hlock : s.lock = none) (hbeside : Beside s w s₁)
    (hnew : w ∉ s.queue.contents) (hbehind : ∃ y ∈ s.queue.contents, s.queue.key y ≤ s₁.queue.key w)
    (hsafe : Safe v s) : Ready v s₁ w := by
  have hne : ∀ x ∈ s.queue.contents, x ≠ w := fun x hx heq => hnew (heq ▸ hx)
  obtain ⟨b, hb, hle⟩ := hbehind
  rcases h.safe_cases hlock hsafe with ⟨x, hx⟩ | ⟨hall, hsome⟩
  · obtain ⟨hin, hrest⟩ := hbeside.hot (hne x hx.1) hx
    exact .inl ⟨x, hin, hne x hx.1, hrest⟩
  · refine .inr ⟨fun y hy => ?_, .inr fun _ _ => ?_⟩
    · by_cases hyw : y = w
      · subst hyw
        exact fun t ht => UInt64.lt_of_lt_of_le (hall b hb t ht) hle
      · rw [hbeside.key y hyw]
        exact hall y ((hbeside.mem y hyw).mp hy)
    · obtain ⟨x, hx, hxs⟩ := hsome b hb
      have hxw := hne x hx
      rw [← hbeside.small x hxw] at hxs
      exact ⟨x, (hbeside.mem x hxw).mpr hx, hxw, hxs⟩

lemma large_ready (h : Inv d s) (hlock : s.lock = none) (hbeside : Beside s w s₁)
    (hkeeps : Keeps s w s₁) (hpc : (s.waiters w).pc = .largeWait)
    (hsmall : (s₁.waiters w).doSmallWait = (s.waiters w).doSmallWait) (hsafe : Safe v s) :
    Ready v s₁ w := by
  have hmem := hbeside.mem_iff hkeeps
  have hkey := hbeside.key_eq hkeeps
  rcases h.safe_cases hlock hsafe with ⟨x, hx⟩ | ⟨hall, hsome⟩
  · have hxw : x ≠ w := by
      rintro rfl
      obtain ⟨-, -, -, hhot⟩ := hx
      rw [hpc] at hhot
      simp [Hot] at hhot
    obtain ⟨hin, hrest⟩ := hbeside.hot hxw hx
    exact .inl ⟨x, hin, hxw, hrest⟩
  · refine .inr ⟨fun y hy => hkey y ▸ hall y ((hmem y).mp hy), ?_⟩
    by_cases hw : (s.waiters w).doSmallWait = true
    · exact .inl (hsmall.trans hw)
    · refine .inr fun y hy => ?_
      obtain ⟨x, hx, hxs⟩ := hsome y ((hmem y).mp hy)
      have hxw : x ≠ w := by
        rintro rfl
        exact hw hxs
      exact ⟨x, (hmem x).mpr hx, hxw, (hbeside.small x hxw).trans hxs⟩

/-- A waiter comes back with a sequence number that is not below the threshold: all that is
left is above the threshold. -/
lemma back_ready_of_le (hover : HandOver s) (hord : s.queue.Ordered cmpQueueElem)
    (hpc : (s.waiters w).pc = .relock u) (hp : Processed u s s₁) (hv : ∀ t ∈ v, t ≤ u) :
    Ready v s₁ w := by
  have hleft := hp.all hord
  refine .inr ⟨fun y hy t ht => ?_, ?_⟩
  · rw [hp.key]
    exact UInt64.lt_of_le_of_lt (hv t ht) (hleft y hy)
  · by_cases hw : (s.waiters w).doSmallWait = true
    · exact .inl ((hp.flags w).2.trans hw)
    · refine .inr fun y hy => ?_
      have hsome : ∃ x ∈ s.queue.contents, (s.waiters x).doSmallWait = true ∧
          Above (some u) (s.queue.key x) := by
        rcases hover.back w u hpc (Bool.eq_false_iff.mpr hw) with ⟨x, hx, hxs, habove, -⟩ | ⟨-, hsome⟩
        · exact ⟨x, hx, hxs, habove⟩
        · refine hsome ⟨y, hp.sub y hy, ?_⟩
          rintro t ⟨⟩
          exact hleft y hy
      obtain ⟨x, hx, hxs, habove⟩ := hsome
      refine ⟨x, hp.mem hx (habove u rfl), ?_, (hp.flags x).2.trans hxs⟩
      rintro rfl
      exact hw hxs

/-- A waiter comes back with a sequence number below the threshold: it takes nothing away that
is above the threshold. -/
lemma back_ready_of_lt {t u : UInt64} (h : Inv d s) (hlock : s.lock = none)
    (hpc : (s.waiters w).pc = .relock u) (hp : Processed u s s₁) (hlt : u < t)
    (hsafe : Safe (some t) s) : Ready (some t) s₁ w := by
  have hkept : ∀ x ∈ s.queue.contents, Above (some t) (s.queue.key x) -> x ∈ s₁.queue.contents :=
    fun x hx habove => hp.mem hx (UInt64.lt_trans hlt (habove t rfl))
  rcases h.safe_cases hlock hsafe with ⟨x, hx, hsmall, habove, hhot⟩ | ⟨hall, hsome⟩
  · refine .inl ⟨x, hkept x hx habove, ?_, (hp.flags x).2.trans hsmall, hp.key ▸ habove, ?_⟩
    · rintro rfl
      rw [hpc] at hhot
      rcases hhot with hpc' | hpc' | ⟨u', hpc', hle⟩
      · cases hpc'
      · cases hpc'
      · cases hpc'
        exact UInt64.not_lt.mpr (hle t rfl) hlt
    · rw [(hp.flags x).1]
      exact hhot
  · refine .inr ⟨fun y hy => hp.key ▸ hall y (hp.sub y hy), ?_⟩
    by_cases hw : (s.waiters w).doSmallWait = true
    · exact .inl ((hp.flags w).2.trans hw)
    · refine .inr fun y hy => ?_
      obtain ⟨x, hx, hxs⟩ := hsome y (hp.sub y hy)
      refine ⟨x, hkept x hx (hall x hx), ?_, (hp.flags x).2.trans hxs⟩
      rintro rfl
      exact hw hxs

lemma back_ready (h : Inv d s) (hover : HandOver s)
    (hord : s.queue.Ordered cmpQueueElem) (hlock : s.lock = none)
    (hpc : (s.waiters w).pc = .relock u) (hp : Processed u s s₁) (hsafe : Safe v s) :
    Ready v s₁ w := by
  by_cases hle : ∀ t ∈ v, t ≤ u
  · exact back_ready_of_le hover hord hpc hp hle
  · cases v with
    | none => exact absurd (nofun) hle
    | some t =>
      refine back_ready_of_lt h hlock hpc hp (UInt64.not_le.mp fun htu => hle ?_) hsafe
      rintro _ ⟨⟩
      exact htu

section
variable (h : Inv d s) (hv : ∀ t ∈ v, t ≤ (s.state.elem d).highestSeqNo)
include h hv

lemma yield_ready {s2 : Sys} (hbeside : Beside s w s₁) (hx : (s.state.elem d).gtidWaiter = some x)
    (hxw : x ≠ w) (hp : Processed (s.state.elem d).highestSeqNo s₁ s2) : Ready v s2 w := by
  obtain ⟨hin, hsmall, habove, hpc⟩ := h.waiter_hot hv hx
  obtain ⟨-, -, -, hlt⟩ := h.known x hx
  refine .inl ⟨x, hp.mem ((hbeside.mem x hxw).mpr hin) ?_, hxw, ?_, ?_, .inr (.inl ?_)⟩
  · rw [hbeside.key x hxw]
    exact hlt
  · rw [(hp.flags x).2, hbeside.small x hxw]
    exact hsmall
  · rw [hp.key, hbeside.key x hxw]
    exact habove
  · rw [(hp.flags x).1, hbeside.pc x hxw]
    exact hpc

lemma wait_safe (hkeeps : Keeps s w s')
    (hsmall : (s'.waiters w).doSmallWait = (s.waiters w).doSmallWait)
    (hbefore : (s.waiters w).pc = .small) (hlater : (s.state.elem d).highestSeqNo < s.queue.key w)
    (hpc : (s'.waiters w).pc = .smallWait ∨
      (s'.waiters w).pc = .relock (s.state.elem d).highestSeqNo) : Safe v s' := by
  have hw := (h.ok w).small hbefore
  refine .inl ⟨w, ?_, hsmall.trans hw.2, ?_, .inr ?_⟩
  · exact hkeeps.mem.mpr ((h.ok w).registered_iff.mpr ⟨by rw [hbefore]; rfl, hw.1⟩)
  · rw [hkeeps.key]
    exact fun t ht => UInt64.lt_of_le_of_lt (hv t ht) hlater
  · exact hpc.imp_right fun hpc => ⟨_, hpc, hv⟩

/-- Whoever took over the small wait is a waiter for all thresholds that are reached. -/
lemma overtaken_safe (hbeside : Beside s w s') (hx : (s.state.elem d).gtidWaiter = some x)
    (hxw : x ≠ w) : Safe v s' := by
  obtain ⟨hin, hsmall, habove, hpc⟩ := h.waiter_hot hv hx
  exact .inl ⟨x, hbeside.hot hxw ⟨hin, hsmall, habove, .inr (.inl hpc)⟩⟩

end

lemma ends_safe (hv : ∀ t ∈ v, t ≤ (s.state.elem d).highestSeqNo)
    (hbeside : Beside s w s') (hkeeps : Keeps s w s') (hbefore : (s.waiters w).pc = .smallWait)
    (hpc : (s'.waiters w).pc = .relock (s.state.elem d).highestSeqNo)
    (hsmall : (s'.waiters w).doSmallWait = (s.waiters w).doSmallWait) (hsafe : Safe v s) :
    Safe v s' := by
  have hmem := hbeside.mem_iff hkeeps
  have hkey := hbeside.key_eq hkeeps
  have hsmall' : ∀ x, (s'.waiters x).doSmallWait = (s.waiters x).doSmallWait := by
    intro x
    by_cases hxw : x = w
    · subst hxw
      exact hsmall
    · exact hbeside.small x hxw
  rcases hsafe with ⟨x, hx, hxs, habove, hhot⟩ | ⟨hlow, hsome⟩
  · refine .inl ⟨x, (hmem x).mpr hx, (hsmall' x).trans hxs, (hkey x).symm ▸ habove, ?_⟩
    by_cases hxw : x = w
    · subst hxw
      exact .inr (.inr ⟨_, hpc, hv⟩)
    · rw [hbeside.pc x hxw]
      exact hhot
  · refine .inr ⟨fun y hy => ?_, ?_⟩
    · rw [hkey]
      have hy := hlow y ((hmem y).mp hy)
      by_cases hyw : y = w
      · subst hyw
        rw [hbefore] at hy
        exact hy.imp_right fun hpc => absurd hpc (by decide)
      · rw [hbeside.pc y hyw]
        exact hy
    · rintro ⟨y, hy, habove⟩
      obtain ⟨x, hx, hxs, hxa⟩ := hsome ⟨y, (hmem y).mp hy, hkey y ▸ habove⟩
      exact ⟨x, (hmem x).mpr hx, (hsmall' x).trans hxs, (hkey x).symm ▸ hxa⟩

lemma quiet_safe (hkey : s'.queue.key = s.queue.key)
    (hmem : ∀ x, x ∈ s'.queue.contents ↔ x ∈ s.queue.contents)
    (hpc : ∀ x ∈ s.queue.contents, (s'.waiters x).pc = (s.waiters x).pc ∧
      (s'.waiters x).doSmallWait = (s.waiters x).doSmallWait) (hsafe : Safe v s) : Safe v s' := by
  rw [Safe, hkey]
  rcases hsafe with ⟨x, hx, hxs, habove, hhot⟩ | ⟨hlow, hsome⟩
  · refine .inl ⟨x, (hmem x).mpr hx, (hpc x hx).2.trans hxs, habove, ?_⟩
    rw [(hpc x hx).1]
    exact hhot
  · refine .inr ⟨fun y hy => ?_, ?_⟩
    · have hy := (hmem y).mp hy
      rw [(hpc y hy).1]
      exact hlow y hy
    · rintro ⟨y, hy, habove⟩
      obtain ⟨x, hx, hxs, hxa⟩ := hsome ⟨y, (hmem y).mp hy, habove⟩
      exact ⟨x, (hmem x).mpr hx, (hpc x hx).2.trans hxs, hxa⟩

/-- A step keeps a waiter for everything above a threshold that is reached. -/
lemma Moves.safe (hm : Moves d s s') (h : Inv d s) (hover : HandOver s)
    (hord : s.queue.Ordered cmpQueueElem)
    (hv : ∀ t ∈ v, t ≤ (s.state.elem d).highestSeqNo ∧ s.state.find d ≠ none)
    (hsafe : Safe v s) : Safe v s' := by
  have hle : ∀ t ∈ v, t ≤ (s.state.elem d).highestSeqNo := fun t ht => (hv t ht).1
  cases hm with
  | quiet hkey hmem hpc =>
    exact quiet_safe hkey hmem (fun x hx => (hpc x).resolve_right fun h => h.1 hx) hsafe
  | join w hlock hbeside hnew hpc hsmall => exact join_safe h hlock hbeside hnew hpc hsmall hsafe
  | joinBehind w s₁ hlock hbeside hnew hsmall hbehind hturned =>
    exact hturned.safe (joinBehind_ready h hlock hbeside hnew hbehind hsafe)
  | large w s₁ hlock hbeside hkeeps hpc hsmall hturned =>
    exact hturned.safe (large_ready h hlock hbeside hkeeps hpc hsmall hsafe)
  | back w u s₁ hlock hpc hp hturned =>
    exact hturned.safe (back_ready h hover hord hlock hpc hp hsafe)
  | fail w hfind hmem hraised hsome hreturned =>
    cases v with
    | none =>
      refine .inr ⟨fun y hy => .inl (by simp [Above]), ?_⟩
      rintro ⟨y, hy, -⟩
      obtain ⟨x, hx, hxs⟩ := hsome y hy
      exact ⟨x, hx, hxs, by simp [Above]⟩
    | some t => exact absurd hfind (hv t rfl).2
  | enough w s₁ s2 hbeside hqueue hsmall hp hturned =>
    refine hturned.safe (.inr ⟨fun y hy t ht => ?_, .inl ((hp.flags w).2.trans hsmall)⟩)
    rw [hp.key]
    exact UInt64.lt_of_le_of_lt (hle t ht) (hp.all (hqueue ▸ hord) y hy)
  | yield w x s₁ s2 hbeside hqueue hx hxw hp hturned =>
    exact hturned.safe (yield_ready h hle hbeside hx hxw hp)
  | wait w hbeside hkeeps hsmall hbefore hlater hpc =>
    exact wait_safe h hle hkeeps hsmall hbefore hlater hpc
  | ends w hbeside hkeeps hbefore hpc hsmall =>
    rcases hsmall with hsmall | ⟨x, hx, hxw⟩
    · exact ends_safe hle hbeside hkeeps hbefore hpc hsmall hsafe
    · exact overtaken_safe h hle hbeside hx hxw

lemma Turned.relock (ht : Turned s w s') (hpc : (s'.waiters x).pc = .relock u)
    (hsmall : (s'.waiters x).doSmallWait = false) :
    x ≠ w ∧ (s.waiters x).pc = .relock u ∧ (s.waiters x).doSmallWait = false := by
  have hxw : x ≠ w := by
    rintro rfl
    rcases ht.turn with ⟨-, -, hpc'⟩ | ⟨-, ⟨res, hpc'⟩, -⟩
    · rw [hpc] at hpc'
      split at hpc'
      · cases hpc'
      · cases hpc'
    · rw [hpc] at hpc'
      cases hpc'
  have hraised := ht.raised x hxw
  refine ⟨hxw, hraised.pc.symm.trans hpc, Bool.eq_false_iff.mpr fun hs => ?_⟩
  rw [hraised.small hs] at hsmall
  cases hsmall

/-- A waiter that comes back and has left the small wait to others did so before, or to the
waiter that does it now. -/
lemma Moves.relock (hm : Moves d s s') (h : Inv d s)
    (hpc : (s'.waiters x).pc = .relock u) (hsmall : (s'.waiters x).doSmallWait = false) :
    ((s.waiters x).pc = .relock u ∧ (s.waiters x).doSmallWait = false) ∨ Safe (some u) s' := by
  have hbeside : ∀ {w : Nat} {s₁ : Sys}, Beside s w s₁ -> x ≠ w -> (s₁.waiters x).pc = .relock u ->
      (s₁.waiters x).doSmallWait = false ->
      (s.waiters x).pc = .relock u ∧ (s.waiters x).doSmallWait = false := by
    intro w s₁ hb hxw hpc hsmall
    exact ⟨(hb.pc x hxw).symm.trans hpc, (hb.small x hxw).symm.trans hsmall⟩
  have hflags : ∀ {u' : UInt64} {s₁ s2 : Sys}, Processed u' s₁ s2 -> (s2.waiters x).pc = .relock u ->
      (s2.waiters x).doSmallWait = false ->
      (s₁.waiters x).pc = .relock u ∧ (s₁.waiters x).doSmallWait = false := by
    intro u' s₁ s2 hp hpc hsmall
    exact ⟨(hp.flags x).1.symm.trans hpc, (hp.flags x).2.symm.trans hsmall⟩
  cases hm with
  | quiet hkey hmem hpcs =>
    rcases hpcs x with ⟨hpc', hsmall'⟩ | ⟨-, res, hpc'⟩
    · exact .inl ⟨hpc'.symm.trans hpc, hsmall'.symm.trans hsmall⟩
    · rw [hpc] at hpc'
      cases hpc'
  | join w hlock hb hnew hpc' hsmall' =>
    have hxw : x ≠ w := by
      rintro rfl
      rw [hpc] at hpc'
      cases hpc'
    exact .inl (hbeside hb hxw hpc hsmall)
  | joinBehind w s₁ hlock hb hnew hsmall' hbehind hturned
  | large w s₁ hlock hb hkeeps hpc' hsmall' hturned =>
    obtain ⟨hxw, hpc, hsmall⟩ := hturned.relock hpc hsmall
    exact .inl (hbeside hb hxw hpc hsmall)
  | back w u' s₁ hlock hpc' hp hturned =>
    obtain ⟨hxw, hpc, hsmall⟩ := hturned.relock hpc hsmall
    exact .inl (hflags hp hpc hsmall)
  | fail w hfind hmem hraised hsome hreturned =>
    have hxw : x ≠ w := by
      rintro rfl
      obtain ⟨res, hpc'⟩ := hreturned
      rw [hpc] at hpc'
      cases hpc'
    refine .inl ⟨(hraised x hxw).pc.symm.trans hpc, Bool.eq_false_iff.mpr fun hs => ?_⟩
    rw [(hraised x hxw).small hs] at hsmall
    cases hsmall
  | enough w s₁ s2 hb hqueue hsmall' hp hturned | yield w y s₁ s2 hb hqueue hy hyw hp hturned =>
    obtain ⟨hxw, hpc, hsmall⟩ := hturned.relock hpc hsmall
    obtain ⟨hpc, hsmall⟩ := hflags hp hpc hsmall
    exact .inl (hbeside hb hxw hpc hsmall)
  | wait w hb hkeeps hsmall' hbefore hlater hpc' =>
    have hxw : x ≠ w := by
      rintro rfl
      rw [hsmall', ((h.ok x).small hbefore).2] at hsmall
      cases hsmall
    exact .inl (hbeside hb hxw hpc hsmall)
  | ends w hb hkeeps hbefore hpc' hsmall' =>
    by_cases hxw : x = w
    · subst hxw
      rcases hsmall' with hsmall' | ⟨y, hy, hyx⟩
      · rw [hsmall', ((h.ok x).smallWait hbefore).1] at hsmall
        cases hsmall
      · rw [hpc] at hpc'
        cases hpc'
        refine .inr (overtaken_safe h ?_ hb hy hyx)
        rintro _ ⟨⟩
        exact UInt64.le_refl _
    · exact .inl (hbeside hb hxw hpc hsmall)

lemma Moves.handOver (hm : Moves d s s') (h : Inv d s) (hover : HandOver s)
    (hord : s.queue.Ordered cmpQueueElem) : HandOver s' := by
  refine ⟨hm.safe h hover hord (nofun) hover.queue, fun w u hpc hsmall => ?_⟩
  rcases hm.relock h hpc hsmall with ⟨hpc0, hsmall0⟩ | hsafe
  · refine hm.safe h hover hord ?_ (hover.back w u hpc0 hsmall0)
    rintro _ ⟨⟩
    exact (h.ok w).relock u hpc0
  · exact hsafe

/-- With `LOCK_gtid_waiting` free, somebody in the queue sees to the small wait. -/
lemma HandOver.someone (hover : HandOver s) (h : Inv d s) {y : Nat}
    (hy : y ∈ s.queue.contents) : ∃ x ∈ s.queue.contents, (s.waiters x).done = false ∧
      (s.waiters x).doSmallWait = true := by
  have hsome : ∃ x ∈ s.queue.contents, (s.waiters x).doSmallWait = true := by
    rcases hover.queue with ⟨x, hx, hxs, -⟩ | ⟨-, hsome⟩
    · exact ⟨x, hx, hxs⟩
    · obtain ⟨x, hx, hxs, -⟩ := hsome ⟨y, hy, by simp [Above]⟩
      exact ⟨x, hx, hxs⟩
  obtain ⟨x, hx, hxs⟩ := hsome
  exact ⟨x, hx, ((h.ok x).registered_iff.mp hx).2, hxs⟩

end Thresholds

section Runs
variable {d : UInt32} {state : State} {root queuePos : Nat -> Nat} {key : Nat -> UInt64}

lemma init_empty (x : Nat) : x ∉ (init state root queuePos key).queue.contents :=
  fun hx => not_succ_le_zero 0 (elements_pos hx)

lemma init_inv (hstate : (state.elem d).gtidWaiter = none) :
    Inv d (init state root queuePos key) := by
  refine ⟨⟨rfl, rfl, zero_le _, fun _ i h1 h0 => ?_⟩, ?_, ?_, ?_⟩
  · exact absurd (h1.trans h0) (not_succ_le_zero 0)
  · intro x
    refine ⟨iff_of_false (init_empty x) (by simp [init, Pc.active]), ?_, ?_, ?_, ?_, ?_⟩ <;>
      simp [init]
  · exact fun x => iff_of_false (by simp [init]) (by simp [init])
  · intro x hx
    cases hstate.symm.trans hx

lemma init_handOver : HandOver (init state root queuePos key) := by
  refine ⟨.inr ⟨fun y hy => absurd hy (init_empty y), ?_⟩, nofun⟩
  rintro ⟨y, hy, -⟩
  exact absurd hy (init_empty y)

/-- Along a run in which every step finds the queue in order, the small wait is handed over. -/
lemma run_handOver {ops : List Op} {s s' : Sys}
    (hrun : run (step d) s ops = some s') (h : Inv d s) (hover : HandOver s)
    (hord : ∀ pre op s₁, pre ++ [op] <+: ops -> run (step d) s pre = some s₁ ->
      s₁.queue.Ordered cmpQueueElem) : HandOver s' := by
  refine (run_induction (P := fun ops s' => run (step d) s ops = some s' ∧
    Inv d s' ∧ ((∀ pre op s₁, pre ++ [op] <+: ops -> run (step d) s pre = some s₁ ->
      s₁.queue.Ordered cmpQueueElem) -> HandOver s')) ⟨rfl, h, fun _ => hover⟩ ?_ hrun).2.2 hord
  rintro ops s₁ op s2 ⟨hrun1, h1, hover1⟩ hstep
  obtain ⟨s2', hstep', h2, hmoves⟩ := step_spec h1 op
  cases hstep.symm.trans hstep'
  refine ⟨?_, h2, fun hord => ?_⟩
  · rw [run_concat, hrun1]
    exact hstep
  · refine hmoves.handOver h1 (hover1 fun pre op' s0 hpre => ?_) ?_
    · exact hord pre op' s0 (hpre.trans (prefix_append _ _))
    · exact hord ops op s₁ (prefix_refl _) hrun1

/-- `MASTER_GTID_WAIT` for the waiters of a domain, in any interleaving of their steps and of
updates of the slave state: no assertion fails; who returns 0 without being killed has its
sequence number reached; and if every step finds the queue of the domain in heap order, then
with `LOCK_gtid_waiting` free and a waiter in the queue there is one that sees to the small
wait. -/
theorem gtidWait_handOver (d : UInt32) (state : State) (root queuePos : Nat -> Nat)
    (key : Nat -> UInt64) (hstate : (state.elem d).gtidWaiter = none) (ops : List Op) :
    ∃ s, Machine.run (step d) (init state root queuePos key) ops = some s ∧
      (∀ w, (s.waiters w).pc = .returned 0 -> (s.waiters w).killed = false ->
        s.queue.key w ≤ (s.state.elem d).highestSeqNo) ∧
      ((∀ pre op s₁, pre ++ [op] <+: ops ->
          Machine.run (step d) (init state root queuePos key) pre = some s₁ ->
          s₁.queue.Ordered cmpQueueElem) ->
        s.lock = none -> ∀ y ∈ s.queue.contents, (s.waiters y).done = false ->
          ∃ x ∈ s.queue.contents, (s.waiters x).done = false ∧
            ((s.waiters x).doSmallWait = true ∨ (s.state.elem d).gtidWaiter = some x)) := by
  have hinit : Inv d (init state root queuePos key) := init_inv hstate
  have hstep : ∀ s op, Inv d s -> ∃ s', step d s op = some s' ∧ Inv d s' := by
    intro s op h
    obtain ⟨s', hs', h', -⟩ := step_spec h op
    exact ⟨s', hs', h'⟩
  obtain ⟨s, hrun, h⟩ := run_total hstep hinit ops
  refine ⟨s, hrun, fun w => (h.ok w).returned, fun hord _ y hy _ => ?_⟩
  obtain ⟨x, hx, hdone, hsmall⟩ := (run_handOver hrun hinit init_handOver hord).someone h hy
  exact ⟨x, hx, hdone, .inl hsmall⟩

/-- Three waiters, of which the first one does the small wait until its sequence number arrives. -/
def threeWaiters : List Op :=
  [.start 0 5 true true, .smallLock ⟨true, .append⟩ 0, .start 1 9 true true, .start 2 7 true true,
    .update ⟨true, .append⟩ true ⟨0, 1, 5⟩ 1, .smallWake 0 false, .relock 0]

lemma threeWaiters_ordered (pre : List Op) (op : Op) (s : Sys) (hpre : pre ++ [op] <+: threeWaiters)
    (hrun : Machine.run (step 0) (init empty id id fun _ => 0) pre = some s) :
    s.queue.Ordered cmpQueueElem := by
  have hall : ∀ n < 7, ((Machine.run (step 0) (init empty id id fun _ => 0)
      (threeWaiters.take n)).all fun s => s.queue.elements < 4 ∧ ∀ i < 4, 2 ≤ i ->
        i ≤ s.queue.elements -> s.queue.Le cmpQueueElem (s.queue.root (i / 2)) (s.queue.root i)) =
      true := by decide +kernel
  have hlen := hpre.length_le
  rw [length_append] at hlen
  have htake := prefix_iff_eq_take.mp ((prefix_append pre [op]).trans hpre)
  have hs := hall pre.length hlen
  rw [← htake, hrun] at hs
  obtain ⟨hlt, hle⟩ := of_decide_eq_true hs
  exact fun i h2 hi => hle i (by omega) h2 hi

/-- The first one returns, and one of the others is to do the small wait. -/
theorem gtidWait_handOver_threeWaiters :
    ∃ s, Machine.run (step 0) (init State.empty id id fun _ => 0) threeWaiters = some s ∧
      (s.waiters 0).pc = .returned 0 ∧ s.queue.key 0 ≤ (s.state.elem 0).highestSeqNo ∧
      2 ∈ s.queue.contents ∧ ∃ x ∈ s.queue.contents, (s.waiters x).done = false ∧
        ((s.waiters x).doSmallWait = true ∨ (s.state.elem 0).gtidWaiter = some x) := by
  obtain ⟨s, hrun, hreached, hover⟩ := gtidWait_handOver 0 empty id id (fun _ => 0) rfl threeWaiters
  have hend : (run (step 0) (init empty id id fun _ => 0) threeWaiters).map
      (fun s => ((s.waiters 0).pc, (s.waiters 0).killed, s.lock, (s.waiters 2).done,
        (2 ∈ s.queue.contents : Bool))) = some (.returned 0, false, none, false, true) := by
    decide +kernel
  rw [hrun, map_some, some_inj] at hend
  simp only [Prod.mk.injEq, decide_eq_true_eq] at hend
  obtain ⟨hpc, hkilled, hlock, hdone, hmem⟩ := hend
  exact ⟨s, hrun, hpc, hreached 0 hpc hkilled, hmem, hover threeWaiters_ordered hlock 2 hmem hdone⟩

end Runs

/-- The waiter for 7 times out and leaves the queue from an inner place, which puts the waiter
for 2 below the one for 3. So the one for 3 is promoted when 1 arrives, and after 2 has arrived
the waiter for 5 leaves the small wait to it. It times out and promotes the waiter for 2, which
the one for 5 then takes out of the queue as reached. -/
def lostSmallWait : List Op :=
  let env : Env := ⟨true, .append⟩
  [.start 0 5 true true, .smallLock env 0, .start 1 2 true true, .smallLock env 1,
    .start 2 1 true true, .smallLock env 2, .start 3 3 true true, .start 4 7 true true,
    .start 5 6 true true, .start 6 1 true true, .largeWake 4 true, .start 7 8 true true,
    .update env true ⟨0, 1, 1⟩ 1, .smallWake 2 false, .relock 2, .update env true ⟨0, 1, 2⟩ 2,
    .largeWake 3 false, .smallLock env 3, .smallWake 0 false, .smallWake 3 true, .relock 3,
    .relock 0]

/-- Three waiters are left in the queue, and nobody sees to the small wait. -/
theorem gtidWait_nobody_responsible :
    ∃ s, Machine.run (step 0) (init State.empty id id fun _ => 0) lostSmallWait = some s ∧
      s.lock = none ∧ (∃ y ∈ s.queue.contents, (s.waiters y).done = false) ∧
      ¬ ∃ x ∈ s.queue.contents, (s.waiters x).done = false ∧
        ((s.waiters x).doSmallWait = true ∨ (s.state.elem 0).gtidWaiter = some x) := by
  have hend : (run (step 0) (init empty id id fun _ => 0) lostSmallWait).map
      (fun s => (s.lock, s.queue.elements, (s.state.elem 0).gtidWaiter,
        [1, 2, 3].map fun i => ((s.waiters (s.queue.root i)).done,
          (s.waiters (s.queue.root i)).doSmallWait))) =
      some (none, 3, none, [(false, false), (false, false), (false, false)]) := by
    decide +kernel
  obtain ⟨s, hs, heq⟩ := map_eq_some_iff.mp hend
  simp only [map_cons, map_nil, Prod.mk.injEq, cons.injEq, and_true] at heq
  obtain ⟨hlock, hn, hwaiter, h1, h2, h3⟩ := heq
  refine ⟨s, hs, hlock, ⟨_, root_mem ⟨le_rfl, by omega⟩, h1.1⟩, ?_⟩
  rintro ⟨x, hx, -, hsmall | hx'⟩
  · obtain ⟨i, hi, hin, rfl⟩ := Heap.mem_contents.mp hx
    obtain rfl | rfl | rfl : i = 1 ∨ i = 2 ∨ i = 3 := by omega
    · rw [h1.2] at hsmall
      cases hsmall
    · rw [h2.2] at hsmall
      cases hsmall
    · rw [h3.2] at hsmall
      cases hsmall
  · rw [hwaiter] at hx'
    cases hx'

end Rpl.GtidWait
