import EryMysql.Lib.Machine
import EryMysql.Mysys.Queue

/-!
# When a queue stays in order

`queue_remove` fills the place of the element with the last one of the queue, and
`_downheap` only looks below that place. So the order is lost when the last element is
before the parent of the place. `queue_replace` removes an element and inserts it again,
and the insertion may, by chance, repair the order.

The elements in the queue and the places they store are right in any case.
-/

namespace Mysys

open Comparison Heap Function Finset Option Nat Queue Machine

variable {α κ : Type} [DecidableEq α] {cmp : κ -> κ -> Int}

section SiftUp
variable {q : Queue α κ} {idx start fuel i : Nat} {x : α}

lemma Under.up (h : Under i idx) : Under (i / 2) idx := by
  obtain ⟨k, hk⟩ := h
  exact ⟨k + 1, by rw [pow_succ, ← Nat.div_div_eq_div_mul, hk]⟩

lemma ne_of_not_under (hi : ¬ Under i idx) : i ≠ idx := by
  rintro rfl
  exact hi (under_refl _)

lemma siftUp_off_path (hi : ¬ Under i idx) :
    (q.siftUp cmp start x fuel idx).root i = q.root i := by
  induction fuel generalizing q idx with
  | zero => exact update_of_ne (ne_of_not_under hi) _ _
  | succ fuel ih =>
    have hplace : ∀ y : α, (q.place idx y).root i = q.root i :=
      fun y => update_of_ne (ne_of_not_under hi) _ _
    rw [siftUp]
    split
    · rw [ih fun h => hi h.of_half, hplace]
    · exact hplace x

lemma siftUp_stays (hne : i ≠ idx) (hi : ¬ q.compare cmp x (q.root i) < 0) :
    (q.siftUp cmp start x fuel idx).root i = q.root i := by
  induction fuel generalizing q idx with
  | zero => exact update_of_ne hne _ _
  | succ fuel ih =>
    have hplace : ∀ y : α, (q.place idx y).root i = q.root i := fun y => update_of_ne hne _ _
    rw [siftUp]
    split
    · rename_i hmove
      have hnext : i ≠ idx / 2 := fun h => hi (h ▸ hmove.2)
      have hstay : ¬ (q.place idx (q.root (idx / 2))).compare cmp x
          ((q.place idx (q.root (idx / 2))).root i) < 0 := by
        rw [hplace]
        exact hi
      rw [ih hnext hstay, hplace]
    · exact hplace x

lemma siftUp_hole (h1 : 1 ≤ idx) (hfuel : 1 ≤ fuel) : (q.siftUp cmp start x fuel idx).root idx =
      if idx / 2 > start ∧ q.compare cmp x (q.root (idx / 2)) < 0 then q.root (idx / 2) else x := by
  obtain ⟨fuel, rfl⟩ : ∃ n, fuel = n + 1 := ⟨fuel - 1, by omega⟩
  rw [siftUp]
  split
  · have hoff : ¬ Under idx (idx / 2) := fun h => absurd h.le (by omega)
    rw [siftUp_off_path hoff]
    exact update_self _ _ _
  · exact update_self _ _ _

omit [DecidableEq α] in
lemma before_of_before_le (hcmp : Preorders cmp) {a b : α} (hxa : q.compare cmp x a < 0)
    (hab : q.Le cmp a b) : q.compare cmp x b < 0 := by
  by_contra hxb
  have hax := le_trans' hcmp hab ((not_before_iff hcmp).mp hxb)
  exact absurd hxa ((not_before_iff hcmp).mpr hax)

/-- The hole reaches every place above it whose element is after the new one, if the way up
is ordered. -/
lemma siftUp_reaches (hcmp : Preorders cmp) (hfuel : idx ≤ fuel) (hs : start < i)
    (hi : i < idx) (hunder : Under i idx) (hx : q.compare cmp x (q.root i) < 0)
    (hway : ∀ j, i < j -> j < idx -> Under j idx -> q.Le cmp (q.root (j / 2)) (q.root j)) :
    (q.siftUp cmp start x fuel idx).root i =
      if i / 2 > start ∧ q.compare cmp x (q.root (i / 2)) < 0 then q.root (i / 2) else x := by
  induction fuel generalizing q idx with
  | zero => omega
  | succ fuel ih =>
    have hnext : Under i (idx / 2) := hunder.parent (by omega)
    have hle := hnext.le
    have hbetween : ∀ m, i ≤ m -> m < idx -> Under m idx -> Under i m ->
        q.compare cmp x (q.root m) < 0 := by
      intro m
      induction m using Nat.strongRecOn with
      | ind m ihm =>
        intro him hm hum hui
        by_cases heq : i = m
        · rwa [← heq]
        · have hui' := hui.parent heq
          exact before_of_before_le hcmp (ihm (m / 2) (by omega) hui'.le (by omega) hum.up hui')
            (hway m (by omega) hm hum)
    have hbefore := hbetween (idx / 2) hle (by omega) (under_refl _).of_half hnext
    have hroot : ∀ m, m < idx -> (q.place idx (q.root (idx / 2))).root m = q.root m :=
      fun m hm => update_of_ne (by omega) _ _
    rw [siftUp, if_pos ⟨by omega, hbefore⟩]
    by_cases heq : i = idx / 2
    · rw [heq, siftUp_hole (by omega) (by omega), hroot _ (by omega)]
      rfl
    · refine (ih (q := q.place idx (q.root (idx / 2))) (by omega) (by omega) hnext ?_ ?_).trans ?_
      · rw [hroot i hi]
        exact hx
      · intro j hij hj hu
        rw [hroot j (by omega), hroot (j / 2) (by omega)]
        exact hway j hij (by omega) hu.of_half
      · rw [hroot (i / 2) (by omega)]
        rfl

end SiftUp

section Replace
variable {q q' : Queue α κ} {idx start : Nat} {x : α}

lemma downheap_fits (hcmp : Preorders cmp) (h1 : 1 ≤ start)
    (hfits : ∀ i, i ≤ q.elements -> i / 2 = start -> q.Le cmp x (q.root i)) :
    q.downheap cmp start x = q.place start x := by
  rw [downheap, sink]
  split
  · rename_i hhalf
    obtain ⟨-, hnext, hparent⟩ := nextIndex_bounds cmp h1 hhalf
    have hge : q.compare cmp (q.root (q.nextIndex cmp start)) x ≥ 0 :=
      not_lt.mp ((not_before_iff hcmp).mpr (hfits _ hnext hparent))
    exact if_pos ⟨rfl, hge⟩
  · exact siftUp_self h1

omit [DecidableEq α] in
/-- The order goes across the place `idx` to everything below it. -/
lemma OrderedBut.across_under (hcmp : Preorders cmp) (h : q.OrderedBut cmp idx) (h2 : 2 ≤ idx)
    (i : Nat) (hi : i ≤ q.elements) (hunder : Under idx i) (hne : idx ≠ i) :
    q.Le cmp (q.root (idx / 2)) (q.root i) := by
  induction i using Nat.strongRecOn with
  | ind i ih =>
    have hup := hunder.parent hne
    have hle := hup.le
    by_cases heq : idx = i / 2
    · exact h.across i hi heq.symm h2 trivial trivial
    · exact le_trans' hcmp (ih (i / 2) (by omega) (by omega) hup heq)
        (h.away i (by omega) hi trivial (Ne.symm hne) (Ne.symm heq))

/-- The insertion repairs what the removal has broken: the parent of the place is on the way
up from the last place, and neither the new element nor the grandparent is after the last
element. -/
def Queue.Repairs (cmp : κ -> κ -> Int) (q : Queue α κ) (idx : Nat) : Prop :=
  Under (idx / 2) q.elements ∧ q.Le cmp (q.root idx) (q.root q.elements) ∧
    (idx / 2 = 1 ∨ q.Le cmp (q.root (idx / 2 / 2)) (q.root q.elements))

/-- The queue between the removal and the insertion, when the last element does not fit. -/
lemma queueReplace_misfit (hcmp : Preorders cmp) (h : q.queueReplace cmp idx = some q')
    (hbut : q.OrderedBut cmp idx) (hfit : ¬ q.Fits cmp idx) :
    q' = siftUp cmp 0 (q.root idx) q.elements (q.place idx (q.root q.elements)) q.elements ∧
      2 ≤ idx ∧ idx < q.elements ∧ q.compare cmp (q.root q.elements) (q.root (idx / 2)) < 0 ∧
      ¬ Under idx q.elements ∧
      ∀ i, i ≤ q.elements -> i / 2 = idx -> q.Le cmp (q.root q.elements) (q.root i) := by
  obtain ⟨⟨q1, y⟩, hremove, hinsert⟩ := bind_eq_some_iff.mp h
  obtain ⟨rfl, hidx, -, helements, -⟩ := queueRemove_spec hremove
  have hnot : idx ≠ 1 ∧ idx ≠ q.elements ∧
      ¬ q.Le cmp (q.root (idx / 2)) (q.root q.elements) := by
    simpa [Queue.Fits] using hfit
  obtain ⟨h1, hlast, hle⟩ := hnot
  have hbefore : q.compare cmp (q.root q.elements) (q.root (idx / 2)) < 0 := by
    by_contra hc
    exact hle ((not_before_iff hcmp).mp hc)
  have hchildren : ∀ i, i ≤ q.elements -> i / 2 = idx ->
      q.Le cmp (q.root q.elements) (q.root i) := fun i hi hpi =>
    le_trans' hcmp (le_of_before hbefore) (hbut.across i hi hpi (by omega) trivial trivial)
  refine ⟨?_, by omega, by omega, hbefore, ?_, hchildren⟩
  · unfold queueRemove at hremove
    rw [if_pos hidx] at hremove
    cases hremove
    have hplace := downheap_fits (q := { q with elements := q.elements - 1 })
      (x := q.root q.elements) hcmp hidx.1 fun i hi => hchildren i (by simp only at hi; omega)
    simp only [hplace, queueInsert] at hinsert
    split at hinsert
    · cases hinsert
      have hn : q.elements - 1 + 1 = q.elements := by omega
      simp [place, hn]
    · cases hinsert
  · intro hunder
    exact hle (OrderedBut.across_under hcmp hbut (by omega) _ le_rfl hunder hlast)

/-- Once the element is inserted again, only the pair of the place and its parent may be out
of order. -/
lemma misfit_ordered (hcmp : Preorders cmp) (hbut : q.OrderedBut cmp idx) (h2 : 2 ≤ idx)
    (hlt : idx < q.elements) (hoff : ¬ Under idx q.elements)
    (hchildren : ∀ i, i ≤ q.elements -> i / 2 = idx -> q.Le cmp (q.root q.elements) (q.root i))
    (hq' : q' = siftUp cmp 0 x q.elements (q.place idx (q.root q.elements)) q.elements) :
    q'.Ordered cmp ↔ q.Le cmp (q'.root (idx / 2)) (q.root q.elements) := by
  have hsettles : (q.place idx (q.root q.elements)).Settles q.elements x q' := by
    rw [hq']
    exact settles_siftUp ⟨by omega, le_rfl⟩
  obtain ⟨hsame, helements⟩ := hsettles.same
  have hle : q'.Le cmp = q.Le cmp := hsame.le
  have hself : q'.root idx = q.root q.elements := by
    rw [hq', siftUp_off_path hoff]
    exact update_self _ _ _
  have hrest : OrderedOn (q.Le cmp) (fun i => i ≠ idx) q.elements q'.root := by
    rw [hq']
    refine siftUp_ordered (q := q.place idx (q.root q.elements)) hcmp ?_ le_rfl le_rfl (by omega)
      ⟨q.elements, Nat.div_eq_of_lt Nat.lt_two_pow_self⟩ ⟨?_, ?_⟩ ?_ (by omega)
    · rintro i hu - rfl
      exact hoff hu
    · intro i hi2 hi hne hni _
      show q.Le cmp (update q.root idx _ (i / 2)) (update q.root idx _ i)
      rw [update_of_ne hne]
      by_cases hpi : i / 2 = idx
      · rw [hpi, update_self]
        exact hchildren i hi hpi
      · rw [update_of_ne hpi]
        exact hbut.away i hi2 hi trivial hne hpi
    iterate 2
      intro i hi hpi
      have hi' : i ≤ q.elements := hi
      omega
  rw [Queue.Ordered, hle, helements]
  constructor
  · intro hord
    rw [← hself]
    exact hord idx h2 (le_of_lt hlt)
  · intro hpair i hi2 hi
    by_cases hne : i = idx
    · rw [hne, hself]
      exact hpair
    · exact hrest i hi2 hi hne

/-- After a replacement the heap is ordered exactly when the last element fits into the place,
or the insertion repairs the order. -/
lemma queueReplace_ordered (hcmp : Preorders cmp) (h : q.queueReplace cmp idx = some q')
    (hbut : q.OrderedBut cmp idx) : q'.Ordered cmp ↔ q.Fits cmp idx ∨ q.Repairs cmp idx := by
  by_cases hfit : q.Fits cmp idx
  · refine iff_of_true ?_ (.inl hfit)
    obtain ⟨⟨q1, y⟩, hremove, hinsert⟩ := bind_eq_some_iff.mp h
    exact queueInsert_ordered hcmp hinsert ((queueRemove_ordered hcmp hremove hbut).mpr hfit)
  · obtain ⟨hq', h2, hlt, hbefore, hoff, hchildren⟩ := queueReplace_misfit hcmp h hbut hfit
    rw [misfit_ordered hcmp hbut h2 hlt hoff hchildren hq', or_iff_right hfit]
    have hp : (q.place idx (q.root q.elements)).root (idx / 2) = q.root (idx / 2) :=
      update_of_ne (by omega) _ _
    have hpp : (q.place idx (q.root q.elements)).root (idx / 2 / 2) = q.root (idx / 2 / 2) :=
      update_of_ne (by omega) _ _
    have hnot : ¬ q.Le cmp (q.root (idx / 2)) (q.root q.elements) := fun hle =>
      absurd hbefore ((not_before_iff hcmp).mpr hle)
    by_cases hunder : Under (idx / 2) q.elements
    · by_cases hx : q.compare cmp (q.root idx) (q.root (idx / 2)) < 0
      · have hway : ∀ j, idx / 2 < j -> j < q.elements -> Under j q.elements ->
            (q.place idx (q.root q.elements)).Le cmp
              ((q.place idx (q.root q.elements)).root (j / 2))
              ((q.place idx (q.root q.elements)).root j) := by
          intro j hpj hj hu
          have hne : j ≠ idx := fun heq => hoff (heq ▸ hu)
          have hpne : j / 2 ≠ idx := fun heq => hoff (heq ▸ hu.up)
          show q.Le cmp (update q.root idx _ (j / 2)) (update q.root idx _ j)
          rw [update_of_ne hpne, update_of_ne hne]
          exact hbut.away j (by omega) (le_of_lt hj) trivial hne hpne
        rw [hq', siftUp_reaches hcmp le_rfl (by omega) (by omega) hunder (by rw [hp]; exact hx) hway,
          hpp]
        split
        · rename_i habove
          constructor
          · intro hle
            exact ⟨hunder, le_trans' hcmp (le_of_before habove.2) hle, .inr hle⟩
          · rintro ⟨-, -, h1 | hle⟩
            · omega
            · exact hle
        · rename_i hbelow
          refine ⟨fun hle => ⟨hunder, hle, ?_⟩, fun hr => hr.2.1⟩
          by_cases h1 : idx / 2 = 1
          · exact .inl h1
          · refine .inr (le_trans' hcmp ((not_before_iff hcmp).mp fun hb => ?_) hle)
            exact hbelow ⟨by omega, hb⟩
      · have hroot : q'.root (idx / 2) = q.root (idx / 2) := by
          rw [hq', siftUp_stays (by omega) (by rw [hp]; exact hx), hp]
        rw [hroot]
        refine iff_of_false hnot fun hr => hx ?_
        by_contra hc
        exact hnot (le_trans' hcmp ((not_before_iff hcmp).mp hc) hr.2.1)
    · have hroot : q'.root (idx / 2) = q.root (idx / 2) := by rw [hq', siftUp_off_path hunder, hp]
      rw [hroot]
      exact iff_of_false hnot fun hr => hunder hr.1

end Replace

/-- A queue, and the elements that were inserted and not removed. -/
structure QueueUse (α κ : Type) where
  queue : Queue α κ
  held : Multiset α

inductive QueueOp (α κ : Type) where
  /-- An element outside of the queue gets another key. -/
  | setKey (a : α) (k : κ)
  | insert (a : α)
  | insertSafe (memory : Bool) (a : α)
  | remove (idx : Nat)
  | removeTop
  /-- The element in a place gets another key before the call. -/
  | replace (idx : Nat) (k : κ)
  /-- Any elements get other keys before the call. -/
  | fix (key : α -> κ)

def Queue.setKey (q : Queue α κ) (a : α) (k : κ) : Queue α κ :=
  { q with key := update q.key a k }

/-- A call, which fails with its assertions. An element that stores its place is in the queue
at most once, and so is one whose key changes for `queue_replace`. -/
def QueueUse.step (cmp : κ -> κ -> Int) (s : QueueUse α κ) : QueueOp α κ -> Option (QueueUse α κ)
  | .setKey a k =>
    if a ∈ s.queue.contents then none else some { s with queue := s.queue.setKey a k }
  | .insert a =>
    if s.queue.hasQueuePos ∧ a ∈ s.queue.contents then none
    else do
      let queue ← s.queue.queueInsert cmp a
      return { queue, held := a ::ₘ s.held }
  | .insertSafe memory a =>
    if s.queue.hasQueuePos ∧ a ∈ s.queue.contents then none
    else do
      let (queue, err) ← s.queue.queueInsertSafe cmp memory a
      return { queue, held := if err = 0 then a ::ₘ s.held else s.held }
  | .remove idx => do
    let (queue, a) ← s.queue.queueRemove cmp idx
    return { queue, held := s.held.erase a }
  | .removeTop => do
    let (queue, a) ← s.queue.queueRemoveTop cmp
    return { queue, held := s.held.erase a }
  | .replace idx k =>
    if s.queue.contents.count (s.queue.root idx) = 1 then do
      let queue ← (s.queue.setKey (s.queue.root idx) k).queueReplace cmp idx
      return { s with queue }
    else none
  | .fix key => some { s with queue := { s.queue with key }.queueFix cmp }

/-- The calls after which the heap is ordered again. -/
def QueueOp.Meets (cmp : κ -> κ -> Int) (q : Queue α κ) : QueueOp α κ -> Prop
  | .remove idx => q.Fits cmp idx
  | .replace idx k =>
    (q.setKey (q.root idx) k).Fits cmp idx ∨ (q.setKey (q.root idx) k).Repairs cmp idx
  | _ => True

def QueueUse.Holds (s : QueueUse α κ) : Prop := s.queue.contents = s.held ∧ s.queue.Placed

section Steps
variable {s s' : QueueUse α κ} {q q' : Queue α κ} {a : α} {k : κ} {idx : Nat} {op : QueueOp α κ}

lemma setKey_ordered (ha : a ∉ q.contents) (h : q.Ordered cmp) : (q.setKey a k).Ordered cmp := by
  have hne : ∀ i, 1 ≤ i -> i ≤ q.elements -> q.root i ≠ a :=
    fun i h1 hn heq => ha (mem_contents.mpr ⟨i, h1, hn, heq⟩)
  intro i h2 hi
  have hi' : i ≤ q.elements := hi
  have hle := h i h2 hi
  simp only [Queue.Le, Queue.compare, Queue.setKey] at hle ⊢
  rwa [update_of_ne (hne _ (by omega) (by omega)), update_of_ne (hne i (by omega) hi)]

lemma ne_of_count_one (hidx : 1 ≤ idx ∧ idx ≤ q.elements)
    (hcount : q.contents.count (q.root idx) = 1) {i : Nat} (h1 : 1 ≤ i) (hi : i ≤ q.elements)
    (hne : i ≠ idx) : q.root i ≠ q.root idx := by
  intro heq
  rw [Queue.contents, contents_eq hidx, Multiset.count_cons_self] at hcount
  have hmem : q.root idx ∈ others q.elements idx q.root := by
    refine Multiset.mem_map.mpr ⟨i, ?_, heq⟩
    exact mem_val.mpr (mem_erase.mpr ⟨hne, mem_Icc.mpr ⟨h1, hi⟩⟩)
  have hpos := Multiset.count_pos.mpr hmem
  omega

lemma setKey_orderedBut (hcmp : Preorders cmp) (hidx : 1 ≤ idx ∧ idx ≤ q.elements)
    (hcount : q.contents.count (q.root idx) = 1) (h : q.Ordered cmp) :
    (q.setKey (q.root idx) k).OrderedBut cmp idx := by
  have hle : ∀ i j, 1 ≤ i -> i ≤ q.elements -> i ≠ idx -> 1 ≤ j -> j ≤ q.elements -> j ≠ idx ->
      q.Le cmp (q.root i) (q.root j) ->
      (q.setKey (q.root idx) k).Le cmp (q.root i) (q.root j) := by
    intro i j hi1 hi hine hj1 hj hjne h
    simp only [Queue.Le, Queue.compare, Queue.setKey] at h ⊢
    rwa [update_of_ne (ne_of_count_one hidx hcount hi1 hi hine),
      update_of_ne (ne_of_count_one hidx hcount hj1 hj hjne)]
  obtain ⟨haway, hacross⟩ := h.but hcmp idx
  constructor
  · intro i h2 hi _ hne hpne
    have hi' : i ≤ q.elements := hi
    exact hle _ _ (by omega) (by omega) hpne (by omega) hi hne (haway i h2 hi trivial hne hpne)
  · intro i hi hpi h2 _ _
    exact hle _ _ (by omega) (by omega) (by omega) (by omega) hi (by omega)
      (hacross i hi hpi h2 trivial trivial)

lemma queueReplace_spec (h : q.queueReplace cmp idx = some q') :
    (1 ≤ idx ∧ idx ≤ q.elements) ∧ q'.contents = q.contents ∧ (q.Placed -> q'.Placed) := by
  obtain ⟨⟨q1, y⟩, hremove, hinsert⟩ := bind_eq_some_iff.mp h
  obtain ⟨rfl, hidx, hsame, helements, hcontents, hplaced⟩ := queueRemove_spec hremove
  obtain ⟨-, -, hcontents', hplaced'⟩ := queueInsert_spec hinsert
  refine ⟨hidx, hcontents'.trans hcontents.symm, fun hp => hplaced' (hplaced hp) ?_⟩
  intro hpos hmem
  rw [hsame.hasQueuePos] at hpos
  have hothers : q1.contents = others q.elements idx q.root :=
    (Multiset.cons_inj_right _).mp (hcontents.symm.trans (contents_eq hidx _))
  rw [hothers] at hmem
  obtain ⟨j, hj, heq⟩ := Multiset.mem_map.mp hmem
  obtain ⟨hne, hj⟩ := mem_erase.mp (mem_val.mp hj)
  exact hne ((hp hpos).injOn (mem_Icc.mp hj) hidx heq)

lemma queueInsertSafe_cases {memory : Bool} {err : Nat}
    (h : q.queueInsertSafe cmp memory a = some (q', err)) :
    (err ≠ 0 ∧ q' = q) ∨
      err = 0 ∧ ∃ m, queueInsert cmp { q with maxElements := m } a = some q' := by
  have hroom : ∀ {q1 : Queue α κ}, (q1.queueInsert cmp a).map (fun q => (q, 0)) = some (q', err) ->
      err = 0 ∧ q1.queueInsert cmp a = some q' := by
    intro q1 h
    obtain ⟨q2, hq2, heq⟩ := map_eq_some_iff.mp h
    cases heq
    exact ⟨rfl, hq2⟩
  unfold queueInsertSafe at h
  split at h
  · split at h
    · cases h
      exact .inl ⟨by decide, rfl⟩
    · cases memory with
      | false =>
        have hresize : q.resizeQueue false (q.maxElements + q.autoExtent) = (q, true) := by
          rw [resizeQueue, if_neg (by omega)]
          rfl
        rw [hresize] at h
        cases h
        exact .inl ⟨by decide, rfl⟩
      | true =>
        have hmin : min q.elements (q.maxElements + q.autoExtent) = q.elements := by omega
        have hresize : q.resizeQueue true (q.maxElements + q.autoExtent) =
            ({ q with maxElements := q.maxElements + q.autoExtent }, false) := by
          rw [resizeQueue, if_neg (by omega), if_pos rfl, hmin]
        rw [hresize] at h
        obtain ⟨herr, hinsert⟩ := hroom h
        exact .inr ⟨herr, _, hinsert⟩
  · obtain ⟨herr, hinsert⟩ := hroom h
    exact .inr ⟨herr, q.maxElements, hinsert⟩

lemma QueueUse.Holds.insert (h : s.Holds)
    (hfresh : ¬ (s.queue.hasQueuePos ∧ a ∈ s.queue.contents)) {m : Nat}
    (hinsert : queueInsert cmp { s.queue with maxElements := m } a = some q') :
    QueueUse.Holds ⟨q', a ::ₘ s.held⟩ := by
  obtain ⟨-, -, hcontents, hplaced⟩ := queueInsert_spec hinsert
  refine ⟨?_, hplaced h.2 fun hpos hmem => hfresh ⟨hpos, hmem⟩⟩
  rw [← h.1]
  exact hcontents

lemma QueueUse.Holds.remove (h : s.Holds) (hremove : s.queue.queueRemove cmp idx = some (q', a)) :
    QueueUse.Holds ⟨q', s.held.erase a⟩ := by
  obtain ⟨-, -, -, -, hcontents, hplaced⟩ := queueRemove_spec hremove
  refine ⟨?_, hplaced h.2⟩
  rw [← h.1, hcontents, Multiset.erase_cons_head]

/-- A call keeps the elements that are held and their places, and from an ordered heap leads to an
ordered heap exactly when it meets its condition. -/
lemma step_spec (hcmp : Preorders cmp) (h : s.Holds) (hstep : s.step cmp op = some s') :
    s'.Holds ∧ (s.queue.Ordered cmp -> (s'.queue.Ordered cmp ↔ op.Meets cmp s.queue)) := by
  cases op with
  | setKey a k =>
    obtain ⟨ha, hstep⟩ := ite_none_left_eq_some.mp hstep
    cases hstep
    exact ⟨h, fun hord => iff_of_true (setKey_ordered ha hord) trivial⟩
  | insert a =>
    obtain ⟨hfresh, hstep⟩ := ite_none_left_eq_some.mp hstep
    obtain ⟨q', hinsert, heq⟩ := bind_eq_some_iff.mp hstep
    cases heq
    exact ⟨h.insert hfresh (m := s.queue.maxElements) hinsert,
      fun hord => iff_of_true (queueInsert_ordered hcmp hinsert hord) trivial⟩
  | insertSafe memory a =>
    obtain ⟨hfresh, hstep⟩ := ite_none_left_eq_some.mp hstep
    obtain ⟨⟨q', err⟩, hinsert, heq⟩ := bind_eq_some_iff.mp hstep
    cases heq
    rcases queueInsertSafe_cases hinsert with ⟨herr, rfl⟩ | ⟨rfl, m, hinsert⟩
    · rw [if_neg herr]
      exact ⟨h, fun hord => iff_of_true hord trivial⟩
    · exact ⟨h.insert hfresh hinsert,
        fun hord => iff_of_true (queueInsert_ordered hcmp hinsert hord) trivial⟩
  | remove idx =>
    obtain ⟨⟨q', a⟩, hremove, heq⟩ := bind_eq_some_iff.mp hstep
    cases heq
    exact ⟨h.remove hremove, fun hord => queueRemove_ordered hcmp hremove (hord.but hcmp idx)⟩
  | removeTop =>
    obtain ⟨⟨q', a⟩, hremove, heq⟩ := bind_eq_some_iff.mp hstep
    cases heq
    refine ⟨h.remove hremove, fun hord => ?_⟩
    exact (queueRemove_ordered hcmp hremove (hord.but hcmp 1)).trans
      (iff_of_true (.inl rfl) trivial)
  | replace idx k =>
    obtain ⟨hcount, hstep⟩ := ite_none_right_eq_some.mp hstep
    obtain ⟨q', hreplace, heq⟩ := bind_eq_some_iff.mp hstep
    cases heq
    obtain ⟨hidx, hcontents, hplaced⟩ := queueReplace_spec hreplace
    exact ⟨⟨hcontents.trans h.1, hplaced h.2⟩, fun hord =>
      queueReplace_ordered hcmp hreplace (setKey_orderedBut hcmp hidx hcount hord)⟩
  | fix key =>
    cases hstep
    obtain ⟨-, hcontents, hplaced⟩ := @fixLoop_spec _ _ cmp { s.queue with key } _
      (s.queue.elements / 2) (div_le_self _ _)
    refine ⟨⟨hcontents.trans h.1, hplaced h.2⟩, fun _ => iff_of_true ?_ trivial⟩
    exact fixLoop_ordered hcmp _ le_rfl fun j _ hj h => absurd h (by omega)

end Steps

/-- `init_queue`; the array and the memory of the elements may hold anything. -/
def initQueue (maxElements autoExtent : Nat) (maxAtTop hasQueuePos : Bool) (root : Nat -> α)
    (key : α -> κ) (queuePos : α -> Nat) : QueueUse α κ :=
  ⟨⟨root, 0, maxElements, autoExtent, maxAtTop, hasQueuePos, key, queuePos⟩, 0⟩

omit [DecidableEq α] in
lemma queue_top_le (hcmp : Preorders cmp) {s : QueueUse α κ} (h : s.Holds)
    (hord : s.queue.Ordered cmp) {a : α} (ha : a ∈ s.held) :
    s.queue.compare cmp (s.queue.root 1) a ≤ 0 := by
  rw [← h.1] at ha
  obtain ⟨i, h1, hi, rfl⟩ := mem_contents.mp ha
  exact Heap.Ordered.top_le hord (fun _ => le_refl' hcmp) (fun _ _ _ => le_trans' hcmp) i h1 hi

/-- For every sequence of calls the queue holds the elements inserted and not removed, and
they store their places. The heap is ordered after every call exactly when every call meets
its condition, and then the first element is a minimum. -/
theorem queue_invariant (hcmp : Preorders cmp) (maxElements autoExtent : Nat)
    (maxAtTop hasQueuePos : Bool) (root : Nat -> α) (key : α -> κ) (queuePos : α -> Nat)
    (ops : List (QueueOp α κ)) (s : QueueUse α κ)
    (hrun : Machine.run (QueueUse.step cmp)
      (initQueue maxElements autoExtent maxAtTop hasQueuePos root key queuePos) ops = some s) :
    s.queue.contents = s.held ∧
    (s.queue.hasQueuePos = true ->
      ∀ i, 1 ≤ i -> i ≤ s.queue.elements -> s.queue.queuePos (s.queue.root i) = i) ∧
    ((∀ pre s₁, pre <+: ops -> Machine.run (QueueUse.step cmp)
        (initQueue maxElements autoExtent maxAtTop hasQueuePos root key queuePos) pre = some s₁ ->
        s₁.queue.Ordered cmp) ↔
      ∀ pre op s₁, pre ++ [op] <+: ops -> Machine.run (QueueUse.step cmp)
        (initQueue maxElements autoExtent maxAtTop hasQueuePos root key queuePos) pre = some s₁ ->
        op.Meets cmp s₁.queue) ∧
    (s.queue.Ordered cmp -> ∀ a ∈ s.held, s.queue.compare cmp (s.queue.root 1) a ≤ 0) := by
  have hinit : QueueUse.Holds
      (initQueue maxElements autoExtent maxAtTop hasQueuePos root key queuePos) :=
    ⟨rfl, fun _ i h1 hi => absurd (h1.trans hi) (not_succ_le_zero 0)⟩
  have hholds : s.Holds := run_induction (P := fun _ s => QueueUse.Holds s) hinit
    (fun _ _ _ _ h hs => (step_spec hcmp h hs).1) hrun
  refine ⟨hholds.1, hholds.2, ?_, fun hord a ha => queue_top_le hcmp hholds hord ha⟩
  exact always_iff QueueUse.Holds (P := fun s => s.queue.Ordered cmp) hinit
    (fun i h2 hi => absurd (h2.trans hi) (not_succ_le_zero 1))
    (fun _ _ _ h hs => (step_spec hcmp h hs).1) (fun _ _ _ h hord hs => (step_spec hcmp h hs).2 hord)
    hrun

def natCmp (x y : Nat) : Int := x - y

lemma preorders_natCmp : Preorders natCmp :=
  ⟨fun x y => by unfold natCmp; omega, fun x y z => by unfold natCmp; omega⟩

theorem queue_invariant_two_inserts :
    ∃ s, Machine.run (QueueUse.step natCmp) (initQueue 8 0 false true id id id)
        [.insert 2, .insert 1, .removeTop] = some s ∧
      s.queue.contents = s.held ∧ s.queue.queuePos 2 = 1 := by
  obtain ⟨hcontents, hplaced, -, -⟩ := queue_invariant preorders_natCmp 8 0 false true id id id
    [.insert 2, .insert 1, .removeTop] _ rfl
  exact ⟨_, rfl, hcontents, hplaced rfl 1 (by decide +kernel) (by decide +kernel)⟩

/-- Seven insertions, and the removal of 7 from the fourth place. -/
def sevenAndRemoval : List (QueueOp Nat Nat) :=
  [.insert 1, .insert 5, .insert 2, .insert 7, .insert 6, .insert 4, .insert 3, .remove 4]

/-- The removal of 7 puts 3, the last element, below 5. Two removals later 4 is at the top,
and 3 still in the queue. -/
theorem queue_remove_loses_order :
    (∃ s, Machine.run (QueueUse.step natCmp) (initQueue 8 0 false true id id id) sevenAndRemoval =
        some s ∧ s.queue.elements = 6 ∧ s.queue.root 2 = 5 ∧ s.queue.root 4 = 3 ∧
        ¬ s.queue.Ordered natCmp) ∧
      ∃ s, Machine.run (QueueUse.step natCmp) (initQueue 8 0 false true id id id)
        (sevenAndRemoval ++ [.removeTop, .removeTop]) = some s ∧
        s.queue.root 1 = 4 ∧ 3 ∈ s.held := by
  have hbroken : (run (QueueUse.step natCmp) (initQueue 8 0 false true id id id)
      sevenAndRemoval).map (fun s => (s.queue.elements, s.queue.root 2, s.queue.root 4,
        decide (s.queue.Le natCmp (s.queue.root 2) (s.queue.root 4)))) =
      some (6, 5, 3, false) := by
    decide +kernel
  have htop : (run (QueueUse.step natCmp) (initQueue 8 0 false true id id id)
      (sevenAndRemoval ++ [.removeTop, .removeTop])).map
        (fun s => (s.queue.root 1, decide (3 ∈ s.held))) = some (4, true) := by
    decide +kernel
  constructor
  · obtain ⟨s, hs, heq⟩ := map_eq_some_iff.mp hbroken
    simp only [Prod.mk.injEq, decide_eq_false_iff_not] at heq
    obtain ⟨hn, h2, h4, hle⟩ := heq
    exact ⟨s, hs, hn, h2, h4, fun hord => hle (hord 4 (by decide) (by omega))⟩
  · obtain ⟨s, hs, heq⟩ := map_eq_some_iff.mp htop
    simp only [Prod.mk.injEq, decide_eq_true_eq] at heq
    exact ⟨s, hs, heq.1, heq.2⟩

end Mysys
