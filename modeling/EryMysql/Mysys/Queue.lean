import EryMysql.Lib.Comparison
import EryMysql.Lib.Heap

/-!
# Priority queues

`QUEUE` of mysys/queues.c: pointers in an array, with the first one in place 1. The elements
are objects whose memory holds a key, which the comparison reads, and, if the queue wants
it, their place in the queue. The memory of the elements is part of the state here.

`none` stands for a failed debug assertion. The values of the comparison are signs: their
product with `max_at_top` does not overflow.
-/

namespace Mysys

open Comparison Heap Function Option Nat

structure Queue (α κ : Type) where
  root : Nat -> α
  elements : Nat
  maxElements : Nat
  autoExtent : Nat
  maxAtTop : Bool
  /-- `offset_to_queue_pos` is not zero. -/
  hasQueuePos : Bool
  key : α -> κ
  queuePos : α -> Nat

variable {α κ : Type} (cmp : κ -> κ -> Int) {q q' : Queue α κ}

/-- The comparison of two elements, swapped if the biggest one is to be at the top. -/
def Queue.compare (q : Queue α κ) (a b : α) : Int :=
  cmp (q.key a) (q.key b) * (if q.maxAtTop then -1 else 1)

def Queue.Le (q : Queue α κ) (a b : α) : Prop := q.compare cmp a b ≤ 0

instance (q : Queue α κ) (a b : α) : Decidable (q.Le cmp a b) :=
  inferInstanceAs (Decidable (q.compare cmp a b ≤ 0))

def Queue.Ordered (q : Queue α κ) : Prop := Heap.Ordered (q.Le cmp) q.elements q.root

def Queue.contents (q : Queue α κ) : Multiset α := Heap.contents q.elements q.root

/-- The elements know their places, if they are to. -/
def Queue.Placed (q : Queue α κ) : Prop :=
  q.hasQueuePos = true -> Indexed q.elements q.root q.queuePos

section Order
variable {cmp} {q : Queue α κ} {a b c : α} (hcmp : Preorders cmp)
include hcmp

lemma compare_swap : q.compare cmp a b < 0 ↔ 0 < q.compare cmp b a := by
  unfold Queue.compare
  cases q.maxAtTop with
  | true =>
    have h := hcmp.swap (q.key b) (q.key a)
    simp only [if_true]
    omega
  | false =>
    have h := hcmp.swap (q.key a) (q.key b)
    simp only [Bool.false_eq_true, if_false]
    omega

lemma not_before_iff : ¬ q.compare cmp a b < 0 ↔ q.Le cmp b a := by
  rw [compare_swap hcmp, Queue.Le, not_lt]

omit hcmp in
lemma le_of_before (h : q.compare cmp a b < 0) : q.Le cmp a b := le_of_lt h

lemma le_of_ge (h : q.compare cmp a b ≥ 0) : q.Le cmp b a := (not_before_iff hcmp).mp (not_lt.mpr h)

lemma le_refl' : q.Le cmp a a := by
  have h := compare_swap (q := q) (a := a) (b := a) hcmp
  unfold Queue.Le
  omega

lemma le_trans' (hab : q.Le cmp a b) (hbc : q.Le cmp b c) : q.Le cmp a c := by
  unfold Queue.Le Queue.compare at *
  cases hm : q.maxAtTop with
  | true =>
    simp only [hm, if_true] at *
    have hcb : cmp (q.key c) (q.key b) ≤ 0 := by
      have := hcmp.swap (q.key b) (q.key c)
      omega
    have hba : cmp (q.key b) (q.key a) ≤ 0 := by
      have := hcmp.swap (q.key a) (q.key b)
      omega
    have hca := hcmp.trans _ _ _ hcb hba
    have := hcmp.swap (q.key a) (q.key c)
    omega
  | false =>
    simp only [hm, Bool.false_eq_true, if_false, mul_one] at *
    exact hcmp.trans _ _ _ hab hbc

end Order

variable [DecidableEq α] {start idx : Nat}

/-- Write an element to the array and its place to the element. -/
def Queue.place (q : Queue α κ) (idx : Nat) (a : α) : Queue α κ :=
  { q with
    root := update q.root idx a
    queuePos := if q.hasQueuePos then update q.queuePos a idx else q.queuePos }

/-- The loop that `queue_insert` (with `start` 0) and `_downheap` end with: the hole at `idx`
goes up while its place is behind `start` and the element before its parent. The fuel is
enough when it is at least `idx`. -/
def Queue.siftUp (start : Nat) (element : α) : Nat -> Queue α κ -> Nat -> Queue α κ
  | 0, q, idx => q.place idx element
  | fuel + 1, q, idx =>
    let next := idx / 2
    if next > start ∧ q.compare cmp element (q.root next) < 0 then
      siftUp start element fuel (q.place idx (q.root next)) next
    else q.place idx element

/-- The child of `idx` that the hole moves to. -/
def Queue.nextIndex (q : Queue α κ) (idx : Nat) : Nat :=
  let next := idx + idx
  if next < q.elements ∧ q.compare cmp (q.root next) (q.root (next + 1)) > 0 then next + 1
  else next

/-- The first loop of `_downheap`: unless the element fits right where the hole is, the hole
goes down to a leaf. -/
def Queue.sink (start : Nat) (element : α) : Nat -> Bool -> Queue α κ -> Nat -> Queue α κ
  | 0, _, q, idx => q.place idx element
  | fuel + 1, first, q, idx =>
    if idx ≤ q.elements / 2 then
      let next := q.nextIndex cmp idx
      if first ∧ q.compare cmp (q.root next) element ≥ 0 then q.place idx element
      else sink start element fuel false (q.place idx (q.root next)) next
    else q.siftUp cmp start element idx idx

def Queue.downheap (q : Queue α κ) (startIdx : Nat) (element : α) : Queue α κ :=
  q.sink cmp startIdx element (q.elements + 1) true startIdx

def Queue.queueInsert (q : Queue α κ) (element : α) : Option (Queue α κ) :=
  if q.elements < q.maxElements then
    let idx := q.elements + 1
    some (Queue.siftUp cmp 0 element idx { q with elements := idx } idx)
  else none

/-- Returns `true` when there is no memory. -/
def Queue.resizeQueue (memory : Bool) (q : Queue α κ) (maxElements : Nat) : Queue α κ × Bool :=
  if q.maxElements = maxElements then (q, false)
  else if memory then ({ q with elements := min q.elements maxElements, maxElements }, false)
  else (q, true)

def Queue.queueInsertSafe (memory : Bool) (q : Queue α κ) (element : α) :
    Option (Queue α κ × Nat) :=
  if q.elements = q.maxElements then
    if q.autoExtent = 0 then some (q, 2)
    else
      match q.resizeQueue memory (q.maxElements + q.autoExtent) with
      | (q, true) => some (q, 1)
      | (q, false) => (q.queueInsert cmp element).map fun q => (q, 0)
  else (q.queueInsert cmp element).map fun q => (q, 0)

def Queue.queueRemove (q : Queue α κ) (idx : Nat) : Option (Queue α κ × α) :=
  if 1 ≤ idx ∧ idx ≤ q.elements then
    some (Queue.downheap cmp { q with elements := q.elements - 1 } idx (q.root q.elements),
      q.root idx)
  else none

def Queue.queueRemoveTop (q : Queue α κ) : Option (Queue α κ × α) := q.queueRemove cmp 1

/-- The loop of `queue_fix`, from place `i` down to the first. -/
def Queue.fixLoop : Nat -> Queue α κ -> Queue α κ
  | 0, q => q
  | i + 1, q => fixLoop i (q.downheap cmp (i + 1) (q.root (i + 1)))

def Queue.queueFix (q : Queue α κ) : Queue α κ := Queue.fixLoop cmp (q.elements / 2) q

def Queue.queueReplace (q : Queue α κ) (idx : Nat) : Option (Queue α κ) := do
  let (q', element) ← q.queueRemove cmp idx
  q'.queueInsert cmp element

/-- The queue once the hole at `idx` is filled, through whatever moves of the hole: the same
elements, in their places. -/
structure Queue.Settles (q : Queue α κ) (idx : Nat) (x : α) (q' : Queue α κ) : Prop where
  frame : q' = { q with root := q'.root, queuePos := q'.queuePos }
  contents : Heap.contents q.elements q'.root =
    Heap.contents q.elements (update q.root idx x)
  indexed : q.hasQueuePos = true -> IndexedBut q.elements q.root idx x q.queuePos ->
    Indexed q.elements q'.root q'.queuePos

section Settles
variable {cmp} {idx next start fuel : Nat} {x : α} {first : Bool}

lemma settles_place (q : Queue α κ) (idx : Nat) (x : α) : q.Settles idx x (q.place idx x) := by
  refine ⟨rfl, rfl, ?_⟩
  intro hpos hbut
  rw [Queue.place]
  simp only [hpos]
  exact hbut.fill

lemma Queue.Settles.move (hidx : 1 ≤ idx ∧ idx ≤ q.elements)
    (hnext : 1 ≤ next ∧ next ≤ q.elements) (hne : next ≠ idx)
    (h : (q.place idx (q.root next)).Settles next x q') : q.Settles idx x q' := by
  refine ⟨h.frame, h.contents.trans (contents_move hidx hnext hne), ?_⟩
  intro hpos hbut
  refine h.indexed hpos ?_
  rw [Queue.place]
  simp only [hpos]
  exact hbut.move hnext hne

lemma settles_siftUp (hidx : 1 ≤ idx ∧ idx ≤ q.elements) :
    q.Settles idx x (q.siftUp cmp start x fuel idx) := by
  induction fuel generalizing q idx with
  | zero => exact settles_place q idx x
  | succ fuel ih =>
    rw [Queue.siftUp]
    split
    · have hnext : 1 ≤ idx / 2 ∧ idx / 2 ≤ q.elements := by omega
      exact Queue.Settles.move hidx hnext (by omega) (ih hnext)
    · exact settles_place q idx x

omit [DecidableEq α] in
lemma nextIndex_cases (cmp : κ -> κ -> Int) (q : Queue α κ) (idx : Nat) :
    q.nextIndex cmp idx = idx + idx ∨
      q.nextIndex cmp idx = idx + idx + 1 ∧ idx + idx < q.elements := by
  unfold Queue.nextIndex
  simp only
  split
  · rename_i h
    exact .inr ⟨rfl, h.1⟩
  · exact .inl rfl

omit [DecidableEq α] in
lemma nextIndex_bounds (cmp : κ -> κ -> Int) (h1 : 1 ≤ idx) (hhalf : idx ≤ q.elements / 2) :
    2 ≤ q.nextIndex cmp idx ∧ q.nextIndex cmp idx ≤ q.elements ∧
      q.nextIndex cmp idx / 2 = idx := by
  rcases nextIndex_cases cmp q idx with h | ⟨h, hlt⟩
  · omega
  · omega

lemma settles_sink (hidx : 1 ≤ idx ∧ idx ≤ q.elements) :
    q.Settles idx x (q.sink cmp start x fuel first idx) := by
  induction fuel generalizing q idx first with
  | zero => exact settles_place q idx x
  | succ fuel ih =>
    rw [Queue.sink]
    split
    · rename_i hhalf
      obtain ⟨h2, hn, hparent⟩ := nextIndex_bounds cmp hidx.1 hhalf
      have hnext : 1 ≤ q.nextIndex cmp idx ∧ q.nextIndex cmp idx ≤ q.elements := by omega
      simp only
      split
      · exact settles_place q idx x
      · exact Queue.Settles.move hidx hnext (by omega) (ih hnext)
    · exact settles_siftUp hidx

lemma settles_downheap (hidx : 1 ≤ idx ∧ idx ≤ q.elements) :
    q.Settles idx x (q.downheap cmp idx x) := settles_sink hidx

lemma downheap_behind (hidx : q.elements < idx) : q.downheap cmp idx x = q.place idx x := by
  rw [Queue.downheap, Queue.sink, if_neg (by omega)]
  cases idx with
  | zero => omega
  | succ idx => rw [Queue.siftUp, if_neg (by omega)]

end Settles

def Under (start idx : Nat) : Prop := ∃ k, idx / 2 ^ k = start

lemma under_refl (start : Nat) : Under start start := ⟨0, by simp⟩

lemma Under.le (h : Under start idx) : start ≤ idx := by
  obtain ⟨k, rfl⟩ := h
  exact div_le_self _ _

lemma Under.of_half (h : Under start (idx / 2)) : Under start idx := by
  obtain ⟨k, hk⟩ := h
  exact ⟨k + 1, by rw [pow_succ', ← Nat.div_div_eq_div_mul, hk]⟩

lemma Under.child {start idx c : Nat} (h : Under start idx) (hc : c / 2 = idx) :
    Under start c := by
  subst hc
  exact Under.of_half h

lemma Under.parent (h : Under start idx) (hne : start ≠ idx) :
    Under start (idx / 2) := by
  obtain ⟨k, hk⟩ := h
  cases k with
  | zero => exact absurd (by simpa using hk.symm) hne
  | succ k => exact ⟨k, by rw [← hk, pow_succ', Nat.div_div_eq_div_mul]⟩

section Order
variable {cmp} {q : Queue α κ} {idx start fuel : Nat} {x : α} {first : Bool} {i : Nat}

lemma siftUp_frame (hs : start < idx) (hi : i ≤ start) :
    (q.siftUp cmp start x fuel idx).root i = q.root i := by
  have hplace : ∀ y : α, (q.place idx y).root i = q.root i := fun y => update_of_ne (by omega) _ _
  induction fuel generalizing q idx with
  | zero => exact hplace x
  | succ fuel ih =>
    rw [Queue.siftUp]
    split
    · rename_i hmove
      rw [ih hmove.1 fun y => update_of_ne (by omega) _ _, hplace]
    · exact hplace x

lemma sink_frame (hs : start < idx) (hi : i ≤ start) :
    (q.sink cmp start x fuel first idx).root i = q.root i := by
  have hplace : ∀ y : α, (q.place idx y).root i = q.root i := fun y => update_of_ne (by omega) _ _
  induction fuel generalizing q idx first with
  | zero => exact hplace x
  | succ fuel ih =>
    rw [Queue.sink]
    split
    · rename_i hhalf
      simp only
      have hnext := (nextIndex_bounds cmp (by omega) hhalf).2.2
      split
      · exact hplace x
      · rw [ih (by omega) fun y => update_of_ne (by omega) _ _, hplace]
    · exact siftUp_frame hs hi

lemma siftUp_self (hstart : 1 ≤ start) : q.siftUp cmp start x start start = q.place start x := by
  obtain ⟨start, rfl⟩ : ∃ n, start = n + 1 := ⟨start - 1, by omega⟩
  rw [Queue.siftUp, if_neg (by omega)]

/-- Above the start nothing changes, and the start gets the element or one before it. -/
lemma downheap_frame (cmp : κ -> κ -> Int) (q : Queue α κ) (x : α) (hstart : 1 ≤ start) :
    (∀ i < start, (q.downheap cmp start x).root i = q.root i) ∧
      ((q.downheap cmp start x).root start = x ∨
        q.compare cmp ((q.downheap cmp start x).root start) x < 0) := by
  have hplace : ∀ y : α, ∀ i < start, (q.place start y).root i = q.root i :=
    fun y i hi => update_of_ne (by omega) _ _
  have hself : ∀ y : α, (q.place start y).root start = y := fun y => update_self _ _ _
  rw [Queue.downheap, Queue.sink]
  split
  · rename_i hhalf
    simp only
    have hnext := (nextIndex_bounds cmp hstart hhalf).2.2
    split
    · exact ⟨hplace x, .inl (hself x)⟩
    · rename_i hlow
      have hlt : start < q.nextIndex cmp start := by omega
      refine ⟨fun i hi => ?_, .inr ?_⟩
      · rw [sink_frame hlt (le_of_lt hi), hplace _ i hi]
      · rw [sink_frame hlt (le_refl _), hself]
        simpa using hlow
  · rw [siftUp_self hstart]
    exact ⟨hplace x, .inl (hself x)⟩

variable {E : Nat -> Prop} (hcmp : Preorders cmp)
include hcmp

lemma siftUp_ordered (hE : ∀ i, Under i idx -> start < i / 2 -> E i) (hfuel : idx ≤ fuel)
    (hn : idx ≤ q.elements) (hs : start < idx) (hunder : Under start idx)
    (hole : Hole (q.Le cmp) E q.elements q.root idx)
    (hdown : ∀ i, i ≤ q.elements -> i / 2 = idx -> E i -> q.Le cmp x (q.root i))
    (hstop : 1 ≤ start -> q.Le cmp (q.root start) x) :
    OrderedOn (q.Le cmp) E q.elements (q.siftUp cmp start x fuel idx).root := by
  induction fuel generalizing q idx with
  | zero => omega
  | succ fuel ih =>
    rw [Queue.siftUp]
    split
    · rename_i hmove
      obtain ⟨hnext, hbefore⟩ := hmove
      refine ih (q := q.place idx (q.root (idx / 2)))
        (fun i hi => hE i (Under.of_half hi)) (by omega)
        (by show idx / 2 ≤ q.elements; omega) hnext (hunder.parent (by omega))
        (hole.up (fun _ _ _ => le_trans' hcmp) (by omega) hn (hE idx (under_refl idx) hnext)) ?_ ?_
      · intro i hin hpi hEi
        show q.Le cmp x (update q.root idx (q.root (idx / 2)) i)
        by_cases hik : i = idx
        · rw [hik, update_self]
          exact le_of_before hbefore
        · rw [update_of_ne hik]
          refine le_trans' hcmp (le_of_before hbefore) ?_
          rw [← hpi]
          exact hole.away i (by omega) hin hEi hik (by omega)
      · intro h1
        show q.Le cmp (update q.root idx (q.root (idx / 2)) start) x
        rw [update_of_ne (by omega)]
        exact hstop h1
    · rename_i hstay
      refine hole.fill (by omega) ?_ hdown
      intro h2 _
      by_cases hnext : idx / 2 > start
      · exact (not_before_iff hcmp).mp fun hlt => hstay ⟨hnext, hlt⟩
      · have hle := (hunder.parent (by omega)).le
        have heq : idx / 2 = start := by omega
        rw [heq]
        exact hstop (by omega)

omit [DecidableEq α] in
lemma nextIndex_min (hin : i ≤ q.elements) (hi : i / 2 = idx) :
    q.Le cmp (q.root (q.nextIndex cmp idx)) (q.root i) := by
  have hcases : i = idx + idx ∨ i = idx + idx + 1 := by omega
  unfold Queue.nextIndex
  simp only
  split
  · rename_i h
    rcases hcases with rfl | rfl
    · exact le_of_before ((compare_swap hcmp).mpr h.2)
    · exact le_refl' hcmp
  · rename_i h
    rcases hcases with rfl | rfl
    · exact le_refl' hcmp
    · exact not_lt.mp fun hlt => h ⟨by omega, hlt⟩

lemma sink_ordered (h1 : 1 ≤ start) (hE : ∀ i, start ≤ i / 2 -> E i)
    (hfuel : q.elements < fuel + idx) (hn : idx ≤ q.elements) (hs : start < idx)
    (hunder : Under start idx) (hole : Hole (q.Le cmp) E q.elements q.root idx)
    (hstop : q.Le cmp (q.root start) x) :
    OrderedOn (q.Le cmp) E q.elements (q.sink cmp start x fuel false idx).root := by
  induction fuel generalizing q idx with
  | zero => omega
  | succ fuel ih =>
    rw [Queue.sink]
    split
    · rename_i hhalf
      obtain ⟨h2, hnext, hparent⟩ := nextIndex_bounds cmp (by omega) hhalf
      refine ih (q := q.place idx (q.root (q.nextIndex cmp idx)))
        (by show q.elements < _; omega) hnext (by omega) (hunder.child hparent)
        (hole.down (by omega) hnext hparent (hE _ (by omega))
          fun i hin hpi _ => nextIndex_min hcmp hin hpi) ?_
      show q.Le cmp (update q.root idx _ start) x
      rw [update_of_ne (by omega)]
      exact hstop
    · exact siftUp_ordered hcmp (fun i _ hi => hE i (by omega)) le_rfl hn hs hunder hole
        (fun i hin hpi => absurd hin (by omega)) fun _ => hstop

/-- `_downheap` makes an ordered heap, provided that the element is not before the parent of
the start. The other way round, this is needed. -/
lemma downheap_ordered (h1 : 1 ≤ start) (hn : start ≤ q.elements)
    (hE : ∀ i, start ≤ i / 2 -> E i) (hole : Hole (q.Le cmp) E q.elements q.root start) :
    OrderedOn (q.Le cmp) E q.elements (q.downheap cmp start x).root ↔
      (2 ≤ start -> E start -> q.Le cmp (q.root (start / 2)) x) := by
  constructor
  · intro hord h2 hEs
    obtain ⟨habove, hself⟩ := downheap_frame cmp q x h1
    have hedge := hord start h2 hn hEs
    rw [habove (start / 2) (by omega)] at hedge
    rcases hself with hself | hself
    · rwa [hself] at hedge
    · exact le_trans' hcmp hedge (le_of_before hself)
  · intro hup
    rw [Queue.downheap, Queue.sink]
    split
    · rename_i hhalf
      obtain ⟨h2, hnext, hparent⟩ := nextIndex_bounds cmp h1 hhalf
      simp only
      split
      · rename_i hfits
        refine hole.fill h1 hup ?_
        intro i hin hpi _
        exact le_trans' hcmp (le_of_ge hcmp hfits.2) (nextIndex_min hcmp hin hpi)
      · rename_i hlow
        have hbefore : q.compare cmp (q.root (q.nextIndex cmp start)) x < 0 := by simpa using hlow
        refine sink_ordered (q := q.place start (q.root (q.nextIndex cmp start))) hcmp h1 hE
          (by show q.elements < _; omega) hnext (by omega) ((under_refl start).child hparent)
          (hole.down h1 hnext hparent (hE _ (by omega))
            fun i hin hpi _ => nextIndex_min hcmp hin hpi) ?_
        show q.Le cmp (update q.root start _ start) x
        rw [update_self]
        exact le_of_before hbefore
    · rw [siftUp_self h1]
      exact hole.fill h1 hup fun i hin hpi => absurd hin (by omega)

end Order

/-- Calls do not change the keys of the elements, nor the kind and the size of the queue. -/
structure Queue.Same (q q' : Queue α κ) : Prop where
  key : q'.key = q.key
  maxAtTop : q'.maxAtTop = q.maxAtTop
  hasQueuePos : q'.hasQueuePos = q.hasQueuePos
  maxElements : q'.maxElements = q.maxElements

section Calls
variable {cmp} {idx : Nat} {x y : α}

omit [DecidableEq α] in
lemma Queue.Same.le (h : q.Same q') : q'.Le cmp = q.Le cmp := by
  funext a b
  rw [Queue.Le, Queue.Le, Queue.compare, Queue.compare, h.key, h.maxAtTop]

omit [DecidableEq α] in
lemma Queue.Settles.same (h : q.Settles idx x q') : q.Same q' ∧ q'.elements = q.elements := by
  rw [h.frame]
  exact ⟨⟨rfl, rfl, rfl, rfl⟩, rfl⟩

lemma queueInsert_spec (h : q.queueInsert cmp x = some q') :
    q.Same q' ∧ q'.elements = q.elements + 1 ∧ q'.contents = x ::ₘ q.contents ∧
      (q.Placed -> (q.hasQueuePos = true -> x ∉ q.contents) -> q'.Placed) := by
  obtain ⟨-, h⟩ := ite_none_right_eq_some.mp h
  cases h
  have hn : 1 ≤ q.elements + 1 ∧ q.elements + 1 ≤ q.elements + 1 := by omega
  have hs : Queue.Settles { q with elements := q.elements + 1 } (q.elements + 1) x
    (Queue.siftUp cmp 0 x (q.elements + 1) { q with elements := q.elements + 1 }
      (q.elements + 1)) := settles_siftUp hn
  obtain ⟨hsame, helements⟩ := hs.same
  refine ⟨{ hsame with }, helements, ?_, ?_⟩
  · rw [Queue.contents, helements, hs.contents, contents_succ, update_self]
    congr 1
    exact contents_congr fun i _ hi => update_of_ne (by omega) _ _
  · intro hplaced hfresh hpos
    rw [hsame.hasQueuePos] at hpos
    rw [helements]
    refine hs.indexed hpos ⟨?_, ?_⟩
    · intro i h1 hi hne
      exact hplaced hpos i h1 (by simp only at hi; omega)
    · intro i h1 hi hne heq
      refine hfresh hpos (mem_contents.mpr ⟨i, h1, ?_, heq⟩)
      simp only at hi
      omega

lemma queueRemove_spec (h : q.queueRemove cmp idx = some (q', y)) :
    y = q.root idx ∧ (1 ≤ idx ∧ idx ≤ q.elements) ∧ q.Same q' ∧
      q'.elements + 1 = q.elements ∧ q.contents = y ::ₘ q'.contents ∧
      (q.Placed -> q'.Placed) := by
  obtain ⟨hidx, h⟩ := ite_none_right_eq_some.mp h
  cases h
  obtain ⟨n, hn⟩ : ∃ n, q.elements = n + 1 := ⟨q.elements - 1, by omega⟩
  have hall : q.contents = q.root q.elements ::ₘ Heap.contents (q.elements - 1) q.root := by
    rw [Queue.contents, hn, contents_succ]
    rfl
  refine ⟨rfl, hidx, ?_⟩
  by_cases hlast : idx = q.elements
  · rw [downheap_behind (by simp only; omega)]
    refine ⟨⟨rfl, rfl, rfl, rfl⟩, by show q.elements - 1 + 1 = _; omega, ?_, ?_⟩
    · rw [hall, hlast]
      congr 1
      exact contents_congr fun i _ hi => (update_of_ne (by omega) _ _).symm
    · intro hplaced hpos i h1 hi
      have hplace := hplaced hpos
      have hi' : i ≤ q.elements - 1 := hi
      have hpos' : q.hasQueuePos = true := hpos
      have hne : i ≠ idx := by omega
      have hroot : q.root i ≠ q.root q.elements := fun heq =>
        hne ((hplace.injOn ⟨h1, by omega⟩ ⟨by omega, le_rfl⟩ heq).trans hlast.symm)
      simp only [Queue.place, hpos', if_true]
      rw [update_of_ne hne, update_of_ne hroot]
      exact hplace i h1 (by omega)
  · have hs : Queue.Settles { q with elements := q.elements - 1 } idx (q.root q.elements)
      (Queue.downheap cmp { q with elements := q.elements - 1 } idx (q.root q.elements)) :=
      settles_downheap (by simp only; omega)
    obtain ⟨hsame, helements⟩ := hs.same
    refine ⟨{ hsame with }, by rw [helements]; simp only; omega, ?_, ?_⟩
    · rw [hall, Queue.contents, helements, hs.contents]
      exact (cons_contents_update ⟨hidx.1, by omega⟩ _ _).symm
    · intro hplaced hpos
      rw [hsame.hasQueuePos] at hpos
      have hplace := hplaced hpos
      rw [helements]
      refine hs.indexed hpos ⟨?_, ?_⟩
      · intro i h1 hi _
        exact hplace i h1 (by simp only at hi; omega)
      · intro i h1 hi _ heq
        simp only at hi
        have := hplace.injOn ⟨h1, by omega⟩ ⟨by omega, le_rfl⟩ heq
        omega

/-- All pairs but those of one element are ordered. -/
def Queue.OrderedBut (cmp : κ -> κ -> Int) (q : Queue α κ) (idx : Nat) : Prop :=
  Hole (q.Le cmp) (fun _ => True) q.elements q.root idx

/-- The last element may go to the place `idx`. -/
def Queue.Fits (cmp : κ -> κ -> Int) (q : Queue α κ) (idx : Nat) : Prop :=
  idx = 1 ∨ idx = q.elements ∨ q.Le cmp (q.root (idx / 2)) (q.root q.elements)

section Calls
variable (hcmp : Preorders cmp)
include hcmp

omit [DecidableEq α] in
lemma Queue.Ordered.but (h : q.Ordered cmp) (idx : Nat) : q.OrderedBut cmp idx :=
  (ordered_iff.mp h).hole (fun _ _ _ => le_trans' hcmp) idx

lemma queueInsert_ordered (h : q.queueInsert cmp x = some q') (hord : q.Ordered cmp) :
    q'.Ordered cmp := by
  obtain ⟨hsame, helements, -⟩ := queueInsert_spec h
  rw [Queue.Ordered, hsame.le, helements]
  obtain ⟨-, h⟩ := ite_none_right_eq_some.mp h
  cases h
  rw [ordered_iff]
  refine siftUp_ordered (q := { q with elements := q.elements + 1 }) hcmp (fun _ _ _ => trivial)
    le_rfl le_rfl (by omega) ⟨q.elements + 1, Nat.div_eq_of_lt Nat.lt_two_pow_self⟩ ?_ ?_ ?_
  · refine ⟨fun i h2 hi _ hne _ => hord i h2 (by simp only at hi; omega), ?_⟩
    intro i hi hpi
    simp only at hi
    omega
  · intro i hi hpi
    simp only at hi
    omega
  · omega

/-- After a removal the heap is ordered exactly when the last element fits. -/
lemma queueRemove_ordered (h : q.queueRemove cmp idx = some (q', y))
    (hbut : q.OrderedBut cmp idx) : q'.Ordered cmp ↔ q.Fits cmp idx := by
  obtain ⟨-, hidx, hsame, helements, -⟩ := queueRemove_spec h
  have hn : q'.elements = q.elements - 1 := by omega
  rw [Queue.Ordered, hsame.le, hn]
  unfold Queue.queueRemove at h
  rw [if_pos hidx] at h
  cases h
  by_cases hlast : idx = q.elements
  · rw [downheap_behind (by simp only; omega)]
    refine iff_of_true ?_ (.inr (.inl hlast))
    intro i h2 hi
    simp only [Queue.place]
    rw [update_of_ne (by omega : i / 2 ≠ idx), update_of_ne (by omega : i ≠ idx)]
    exact hbut.away i h2 (by omega) trivial (by omega) (by omega)
  · have hole : Hole (q.Le cmp) (fun _ => True) (q.elements - 1) q.root idx :=
      ⟨fun i h2 hi => hbut.away i h2 (by omega), fun i hi => hbut.across i (by omega)⟩
    rw [ordered_iff]
    refine (downheap_ordered (q := { q with elements := q.elements - 1 }) hcmp hidx.1
      (by simp only; omega) (fun _ _ => trivial) hole).trans ?_
    constructor
    · intro hup
      by_cases h1 : idx = 1
      · exact .inl h1
      · exact .inr (.inr (hup (by omega) trivial))
    · rintro (h1 | h1 | hle) h2 _
      · omega
      · omega
      · exact hle

lemma fixLoop_ordered (i : Nat) (hi : i ≤ q.elements / 2)
    (hord : OrderedOn (q.Le cmp) (fun j => i + 1 ≤ j / 2) q.elements q.root) :
    (Queue.fixLoop cmp i q).Ordered cmp := by
  induction i generalizing q with
  | zero => exact fun j h2 hj => hord j h2 hj (by omega)
  | succ i ih =>
    have hs : q.Settles (i + 1) (q.root (i + 1)) (q.downheap cmp (i + 1) (q.root (i + 1))) :=
      settles_downheap (by omega)
    obtain ⟨hsame, helements⟩ := hs.same
    refine ih (by omega) ?_
    rw [hsame.le, helements]
    exact (downheap_ordered hcmp (by omega) (by omega) (fun _ h => h) hord.hole_succ).mpr
      fun _ h => absurd h (by omega)

end Calls

lemma fixLoop_spec (i : Nat) (hi : i ≤ q.elements) :
    q.Same (Queue.fixLoop cmp i q) ∧ (Queue.fixLoop cmp i q).contents = q.contents ∧
      (q.Placed -> (Queue.fixLoop cmp i q).Placed) := by
  induction i generalizing q with
  | zero => exact ⟨⟨rfl, rfl, rfl, rfl⟩, rfl, id⟩
  | succ i ih =>
    have hs : q.Settles (i + 1) (q.root (i + 1)) (q.downheap cmp (i + 1) (q.root (i + 1))) :=
      settles_downheap (by omega)
    obtain ⟨hsame, helements⟩ := hs.same
    obtain ⟨hsame', hcontents, hplaced⟩ :=
      ih (q := q.downheap cmp (i + 1) (q.root (i + 1))) (by omega)
    refine ⟨⟨hsame'.key.trans hsame.key, hsame'.maxAtTop.trans hsame.maxAtTop,
      hsame'.hasQueuePos.trans hsame.hasQueuePos,
      hsame'.maxElements.trans hsame.maxElements⟩, ?_, ?_⟩
    · have hmove := hs.contents
      rw [update_eq_self] at hmove
      rw [Queue.fixLoop, hcontents, Queue.contents, helements, hmove]
      rfl
    · intro hp
      refine hplaced fun hpos => ?_
      rw [hsame.hasQueuePos] at hpos
      rw [helements]
      refine hs.indexed hpos ⟨fun j h1 hj _ => hp hpos j h1 hj, ?_⟩
      intro j h1 hj hne heq
      exact hne ((hp hpos).injOn ⟨h1, hj⟩ ⟨by omega, by omega⟩ heq)

end Calls

end Mysys
