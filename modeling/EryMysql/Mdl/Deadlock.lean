import EryMysql.Mdl.Lock
import Mathlib.Data.Finset.Card
import Mathlib.Data.List.Chain

/-!
# Deadlock detection for metadata locks

sql/mdl.cc: `Deadlock_detection_visitor`, the traversal of the wait-for graph, and
`MDL_context::find_deadlock`, while nothing else changes the graph or the wait slots. The read locks
that a traversal takes on its way are not kept here.

A traversal that comes to the depth limit takes it for a deadlock. The traversal from a context
depends on how much of the limit is left only in this, which is why a path to the start never passes
a context twice.
-/

namespace Mdl

open Function Finset List Option Nat

/-- `MDL_context::m_waiting_for`: a ticket, with its lock. -/
structure WaitingFor where
  lock : Nat
  ticket : Ticket

structure WaitGraph where
  locks : Nat -> MdlLock
  isGlobal : Nat -> Bool
  waitingFor : Nat -> Option WaitingFor
  contexts : Finset Nat
  ctx_eq : ∀ c w, waitingFor c = some w -> w.ticket.ctx = c
  mem_contexts : ∀ c w, waitingFor c = some w -> c ∈ contexts

structure DeadlockVisitor where
  victim : Option Nat
  currentSearchDepth : Nat
  foundDeadlock : Bool

def MdlType.fromSharedUpgradable : MdlType -> Bool
  | sharedUpgradable | sharedNoWrite | sharedNoReadWrite | exclusive => true
  | _ => false

def maxSearchDepth : Nat := 32

/-- `MDL_wait::set_status`, for the wait slot of a context. -/
def setStatus (wait : Nat -> WaitStatus) (ctx : Nat) (status : WaitStatus) : Nat -> WaitStatus :=
  if wait ctx = .empty then update wait ctx status else wait

namespace WaitGraph

variable (g : WaitGraph)

/-- `MDL_ticket::get_deadlock_weight`: `DEADLOCK_WEIGHT_DDL` or `DEADLOCK_WEIGHT_DML`. -/
def ticketWeight (w : WaitingFor) : Nat :=
  if g.isGlobal w.lock || w.ticket.type.fromSharedUpgradable then 100 else 0

/-- `MDL_context::get_deadlock_weight`; `none` if the context waits for nothing. -/
def deadlockWeight (ctx : Nat) : Option Nat := (g.waitingFor ctx).map g.ticketWeight

def optChangeVictimTo (v : DeadlockVisitor) (newVictim : Nat) : Option DeadlockVisitor :=
  match v.victim with
  | none => some { v with victim := some newVictim }
  | some victim => do
    let old ← g.deadlockWeight victim
    let new ← g.deadlockWeight newVictim
    some (if new ≤ old then { v with victim := some newVictim } else v)

/-- `none` if the assertion fails. -/
def enterNode (v : DeadlockVisitor) (node : Nat) : Option (Bool × DeadlockVisitor) :=
  let depth := v.currentSearchDepth + 1
  if maxSearchDepth ≤ depth then
    if v.victim = none then do
      let v ← g.optChangeVictimTo ⟨v.victim, depth, true⟩ node
      some (true, v)
    else none
  else some (false, ⟨v.victim, depth, false⟩)

def leaveNode (v : DeadlockVisitor) (node : Nat) : Option DeadlockVisitor :=
  let v := { v with currentSearchDepth := v.currentSearchDepth - 1 }
  if v.foundDeadlock then g.optChangeVictimTo v node else some v

def inspectEdge (start : Nat) (v : DeadlockVisitor) (node : Nat) : Bool × DeadlockVisitor :=
  (node = start, { v with foundDeadlock := node = start })

/-- The contexts that a waiting ticket is incompatible with: of the granted tickets and of the
waiting ones, in the order of the loops of `MDL_lock::visit_subgraph`. -/
def edges (w : WaitingFor) : List Nat :=
  let lock := g.locks w.lock
  let granted := lock.granted.list.filter fun t =>
    t.ctx ≠ w.ticket.ctx ∧ t.type ∈ lock.strategy.incompatibleGranted w.ticket.type
  let waiting := lock.waiting.list.filter fun t =>
    t.ctx ≠ w.ticket.ctx ∧ t.type ∈ lock.strategy.incompatibleWaiting w.ticket.type
  (granted ++ waiting).map Ticket.ctx

def inspectEdges (start : Nat) : List Nat -> DeadlockVisitor -> Bool × DeadlockVisitor
  | [], v => (false, v)
  | node :: rest, v =>
    let (found, v) := inspectEdge start v node
    if found then (true, v) else inspectEdges start rest v

def visitNodes (visit : Nat -> DeadlockVisitor -> Option (Bool × DeadlockVisitor)) :
    List Nat -> DeadlockVisitor -> Option (Bool × DeadlockVisitor)
  | [], v => some (false, v)
  | node :: rest, v => do
    let (result, v) ← visit node v
    if result then some (true, v) else visitNodes visit rest v

def visitEdges (start : Nat) (visit : Nat -> DeadlockVisitor -> Option (Bool × DeadlockVisitor))
    (nodes : List Nat) (v : DeadlockVisitor) : Option (Bool × DeadlockVisitor) :=
  match inspectEdges start nodes v with
  | (true, v) => some (true, v)
  | (false, v) => visitNodes visit nodes v

/-- `MDL_context::visit_subgraph` and `MDL_lock::visit_subgraph`; `none` if the recursion is deeper
than the first argument. -/
def visitSubgraph (wait : Nat -> WaitStatus) (start : Nat) :
    Nat -> Nat -> DeadlockVisitor -> Option (Bool × DeadlockVisitor)
  | 0, _, _ => none
  | depth + 1, ctx, v =>
    match g.waitingFor ctx with
    | none => some (false, v)
    | some w =>
      let srcCtx := w.ticket.ctx
      if wait srcCtx ≠ .empty then some (false, v)
      else do
        let (exceeded, v) ← g.enterNode v srcCtx
        if exceeded then some (true, v)
        else do
          let (result, v) ← visitEdges start (visitSubgraph wait start depth) (g.edges w) v
          let v ← g.leaveNode v srcCtx
          some (result, v)

/-- `find_deadlock`, with a bound on the number of searches; the wait slots afterwards. -/
def findDeadlock (ctx : Nat) : Nat -> (Nat -> WaitStatus) -> Option (Nat -> WaitStatus)
  | 0, _ => none
  | searches + 1, wait => do
    let (result, v) ← g.visitSubgraph wait ctx maxSearchDepth ctx ⟨none, 0, false⟩
    if result then do
      let victim ← v.victim
      let wait := setStatus wait victim .victim
      if victim = ctx then some wait else findDeadlock ctx searches wait
    else some wait

variable {g} {wait : Nat -> WaitStatus} {start c d left depth : Nat} {p : List Nat}
  {w : WaitingFor} {v : DeadlockVisitor} {victim : Nat} {wait' : Nat -> WaitStatus} {left' : Nat}

def WaitsFor (g : WaitGraph) (c d : Nat) : Prop := ∃ w, g.waitingFor c = some w ∧ d ∈ g.edges w

/-- The path from a context on which a traversal ends, if the depth limit leaves so many
contexts. -/
def route (g : WaitGraph) (wait : Nat -> WaitStatus) (start : Nat) : Nat -> Nat -> Option (List Nat)
  | 0, _ => none
  | left + 1, c =>
    match g.waitingFor c with
    | none => none
    | some w =>
      if wait c ≠ .empty then none
      else if left = 0 ∨ start ∈ g.edges w then some [c]
      else ((g.edges w).findSome? (route g wait start left)).map (c :: ·)

lemma route_eq_none_iff : g.route wait start (left + 1) c = none ↔
    ∀ w, g.waitingFor c = some w -> wait c = .empty ->
      left ≠ 0 ∧ start ∉ g.edges w ∧ ∀ d ∈ g.edges w, g.route wait start left d = none := by
  rw [route]
  cases hw : g.waitingFor c with
  | none => simp
  | some w =>
    by_cases hempty : wait c = .empty
    · by_cases hend : left = 0 ∨ start ∈ g.edges w
      · simp only [hempty, hend, ne_eq, not_true_eq_false, if_false, if_true, reduceCtorEq, false_iff]
        intro h
        obtain ⟨h1, h2, -⟩ := h w rfl trivial
        exact hend.elim h1 h2
      · have hend' := not_or.mp hend
        simp [hend'.1, hend'.2]
    · simp [hempty]

lemma route_eq_some_iff : g.route wait start (left + 1) c = some p ↔
    ∃ w, g.waitingFor c = some w ∧ wait c = .empty ∧ (((left = 0 ∨ start ∈ g.edges w) ∧ p = [c]) ∨
        (left ≠ 0 ∧ start ∉ g.edges w ∧ ∃ q l d l', p = c :: q ∧ g.edges w = l ++ d :: l' ∧
          g.route wait start left d = some q ∧ ∀ e ∈ l, g.route wait start left e = none)) := by
  rw [route]
  cases hw : g.waitingFor c with
  | none => simp
  | some w =>
    by_cases hempty : wait c = .empty
    · by_cases hend : left = 0 ∨ start ∈ g.edges w
      · simp only [hempty, hend, ne_eq, not_true_eq_false, if_false, if_true, some.injEq,
          exists_eq_left', true_and]
        constructor
        · rintro rfl
          exact .inl rfl
        · rintro (rfl | ⟨h1, h2, -⟩)
          · rfl
          · exact absurd hend (not_or.mpr ⟨h1, h2⟩)
      · have hend' := not_or.mp hend
        simp only [hempty, hend'.1, hend'.2, ne_eq, not_true_eq_false, if_false,
          some.injEq, exists_eq_left', true_and, false_and, false_or, not_false_eq_true,
          map_eq_some_iff, findSome?_eq_some_iff]
        constructor
        · rintro ⟨q, ⟨l, d, l', hl, hd, hnone⟩, rfl⟩
          exact ⟨q, l, d, l', rfl, hl, hd, hnone⟩
        · rintro ⟨q, l, d, l', rfl, hl, hd, hnone⟩
          exact ⟨q, ⟨l, d, l', hl, hd, hnone⟩, rfl⟩
    · simp [hempty]

/-- The wait slots of the contexts of a path are empty, and each waits for the next one. -/
structure Path (g : WaitGraph) (wait : Nat -> WaitStatus) (p : List Nat) : Prop where
  chain : p.IsChain g.WaitsFor
  isEmpty : ∀ c ∈ p, wait c = .empty
  waiting : ∀ c ∈ p, ∃ w, g.waitingFor c = some w

lemma Path.cons (h : g.Path wait (d :: p)) (hw : g.waitingFor c = some w)
    (hempty : wait c = .empty) (hd : d ∈ g.edges w) : g.Path wait (c :: d :: p) where
  chain := isChain_cons_cons.mpr ⟨⟨w, hw, hd⟩, h.chain⟩
  isEmpty e he := by
    rcases mem_cons.mp he with rfl | he
    · exact hempty
    · exact h.isEmpty e he
  waiting e he := by
    rcases mem_cons.mp he with rfl | he
    · exact ⟨w, hw⟩
    · exact h.waiting e he

/-- A route is a path that has used up the depth limit, or whose last context waits for the
start. -/
lemma route_path (h : g.route wait start left c = some p) : g.Path wait p ∧ p.head? = some c ∧
      (p.length = left ∨ (p.length < left ∧ ∃ last ∈ p.getLast?, g.WaitsFor last start)) := by
  induction left generalizing c p with
  | zero => cases h
  | succ left ih =>
    obtain ⟨w, hw, hempty, ⟨hend, rfl⟩ | ⟨hleft, hstart, q, l, d, l', rfl, hl, hd, hnone⟩⟩ :=
      route_eq_some_iff.mp h
    · refine ⟨⟨isChain_singleton _, fun _ hd => List.mem_singleton.mp hd ▸ hempty,
        fun _ hd => List.mem_singleton.mp hd ▸ ⟨w, hw⟩⟩, rfl, ?_⟩
      by_cases hleft : left = 0
      · exact .inl (by rw [hleft]; rfl)
      · exact .inr ⟨by rw [length_singleton]; omega, c, rfl, w, hw, hend.resolve_left hleft⟩
    · obtain ⟨hpath, hhead, hend⟩ := ih hd
      obtain ⟨q, rfl⟩ : ∃ q', q = d :: q' := head?_eq_some_iff.mp hhead
      refine ⟨hpath.cons hw hempty (hl ▸ by simp), rfl, ?_⟩
      rcases hend with hlength | ⟨hlength, last, hlast, hwaits⟩
      · exact .inl (congrArg (· + 1) hlength)
      · exact .inr ⟨succ_lt_succ hlength, last, by simpa using hlast, hwaits⟩

lemma route_none_mono (h : g.route wait start left c = none) (hpos : 0 < left)
    (hle : left ≤ left') : g.route wait start left' c = none := by
  induction left generalizing c left' with
  | zero => omega
  | succ left ih =>
    obtain ⟨left', rfl⟩ : ∃ n, left' = n + 1 := ⟨left' - 1, by omega⟩
    refine route_eq_none_iff.mpr fun w hw hempty => ?_
    obtain ⟨hleft, hstart, hrest⟩ := route_eq_none_iff.mp h w hw hempty
    exact ⟨by omega, hstart, fun d hd => ih (hrest d hd) (by omega) (by omega)⟩

section
variable (h : g.route wait start left c = some p) (hlength : p.length < left)
include h hlength

lemma route_some_mono (hle : left ≤ left') :
    g.route wait start left' c = some p := by
  induction left generalizing c p left' with
  | zero => omega
  | succ left ih =>
    obtain ⟨left', rfl⟩ : ∃ n, left' = n + 1 := ⟨left' - 1, by omega⟩
    obtain ⟨w, hw, hempty, ⟨hend, rfl⟩ | ⟨hleft, hstart, q, l, d, l', rfl, hl, hd, hnone⟩⟩ :=
      route_eq_some_iff.mp h
    · have hleft : left ≠ 0 := by
        rw [length_singleton] at hlength
        omega
      exact route_eq_some_iff.mpr ⟨w, hw, hempty, .inl ⟨.inr (hend.resolve_left hleft), rfl⟩⟩
    · rw [length_cons] at hlength
      refine route_eq_some_iff.mpr ⟨w, hw, hempty, .inr ⟨by omega, hstart, q, l, d, l', rfl, hl, ?_, ?_⟩⟩
      · exact ih hd (by omega) (by omega)
      · exact fun e he => route_none_mono (hnone e he) (by omega) (by omega)

lemma route_suffix {l : List Nat} (hl : d :: l <:+ p) :
    ∃ left' ≤ left, (d :: l).length < left' ∧ g.route wait start left' d = some (d :: l) := by
  induction left generalizing c p with
  | zero => omega
  | succ left ih =>
    have hhead := (route_path h).2.1
    rcases suffix_cons_iff.mp (show d :: l <:+ c :: p.tail by
      rwa [cons_head?_tail hhead]) with heq | hl'
    · have hp : p = d :: l := by rw [heq, cons_head?_tail hhead]
      obtain rfl : d = c := (cons.inj heq).1
      subst hp
      exact ⟨left + 1, le_refl _, hlength, h⟩
    · obtain ⟨w, hw, hempty, ⟨hend, rfl⟩ | ⟨hleft, hstart, q, l1, e, l2, rfl, hl1, he, hnone⟩⟩ :=
        route_eq_some_iff.mp h
      · exact absurd (suffix_nil.mp hl') (cons_ne_nil _ _)
      · rw [length_cons] at hlength
        obtain ⟨left', hle, h'⟩ := ih he (by omega) hl'
        exact ⟨left', by omega, h'⟩

lemma route_nodup : p.Nodup := by
  have hsuffix : ∀ l, l <:+ p -> l.Nodup := by
    intro l
    induction l with
    | nil => exact fun _ => nodup_nil
    | cons d l ih =>
      intro hl
      refine nodup_cons.mpr ⟨fun hd => ?_, ih ((suffix_cons d l).trans hl)⟩
      obtain ⟨l1, l2, rfl⟩ := append_of_mem hd
      obtain ⟨left1, -, hlength1, h1⟩ := route_suffix h hlength hl
      obtain ⟨left2, -, hlength2, h2⟩ := route_suffix h hlength
        (((suffix_append l1 (d :: l2)).trans (suffix_cons d _)).trans hl)
      have heq : d :: (l1 ++ d :: l2) = d :: l2 := by
        rcases le_total left1 left2 with hle | hle
        · exact some.inj ((route_some_mono h1 hlength1 hle).symm.trans h2)
        · exact some.inj (h1.symm.trans (route_some_mono h2 hlength2 hle))
      have hlengths := congrArg length heq
      simp only [length_cons, length_append] at hlengths
      omega
  exact hsuffix p (suffix_refl _)

end

lemma not_waitsFor_of_route_none (h : g.route wait start left c = none)
    (hpath : g.Path wait (c :: p)) (hlength : (c :: p).length < left) :
    ∀ last ∈ (c :: p).getLast?, ¬g.WaitsFor last start := by
  induction p generalizing c left with
  | nil =>
    rintro last hlast ⟨w, hw, hstart⟩
    obtain rfl : c = last := by simpa using hlast
    obtain ⟨left, rfl⟩ : ∃ n, left = n + 1 := ⟨left - 1, by omega⟩
    exact (route_eq_none_iff.mp h w hw (hpath.isEmpty c (by simp))).2.1 hstart
  | cons d p ih =>
    obtain ⟨left, rfl⟩ : ∃ n, left = n + 1 := ⟨left - 1, by omega⟩
    obtain ⟨⟨w, hw, hd⟩, hchain⟩ := isChain_cons_cons.mp hpath.chain
    have hnone := (route_eq_none_iff.mp h w hw (hpath.isEmpty c (by simp))).2.2 d hd
    have htail : g.Path wait (d :: p) :=
      ⟨hchain, fun e he => hpath.isEmpty e (mem_cons_of_mem _ he),
        fun e he => hpath.waiting e (mem_cons_of_mem _ he)⟩
    have hlast := ih hnone htail (by simpa using hlength)
    rwa [getLast?_cons_cons]

/-- The first context waits for a ticket with at most the weight of the second one's. -/
def Lighter (g : WaitGraph) (c d : Nat) : Prop :=
  ∃ w w', g.waitingFor c = some w ∧ g.waitingFor d = some w' ∧ g.ticketWeight w ≤ g.ticketWeight w'

structure Lightest (g : WaitGraph) (p : List Nat) (victim : Nat) : Prop where
  mem : victim ∈ p
  le : ∀ c ∈ p, g.Lighter victim c

lemma lightest_singleton (hw : g.waitingFor c = some w) : g.Lightest [c] c where
  mem := List.mem_singleton_self c
  le d hd := by
    rw [List.mem_singleton.mp hd]
    exact ⟨w, w, hw, hw, le_refl _⟩

lemma optChangeVictimTo_spec (h : g.Lightest p victim)
    (hv : v.victim = some victim) (hw : g.waitingFor c = some w) :
    ∃ victim', g.optChangeVictimTo v c = some { v with victim := some victim' } ∧
      g.Lightest (c :: p) victim' := by
  obtain ⟨w1, -, hw1, -, -⟩ := h.le victim h.mem
  unfold optChangeVictimTo
  simp only [hv, deadlockWeight, hw1, hw, map_some, some_bind]
  by_cases hle : g.ticketWeight w ≤ g.ticketWeight w1
  · refine ⟨c, by rw [if_pos hle], mem_cons_self .., fun d hd => ?_⟩
    rcases mem_cons.mp hd with rfl | hd
    · exact ⟨w, w, hw, hw, le_refl _⟩
    · obtain ⟨w2, w', hw2, hw', hle'⟩ := h.le d hd
      obtain rfl : w1 = w2 := some.inj (hw1.symm.trans hw2)
      exact ⟨w, w', hw, hw', le_trans hle hle'⟩
  · refine ⟨victim, ?_, mem_cons_of_mem _ h.mem, fun d hd => ?_⟩
    · rw [if_neg hle, ← hv]
    · rcases mem_cons.mp hd with rfl | hd
      · exact ⟨w1, w, hw1, hw, Nat.le_of_not_le hle⟩
      · exact h.le d hd

lemma inspectEdges_spec (nodes : List Nat) (hv : v.foundDeadlock = false) :
    inspectEdges start nodes v =
      if start ∈ nodes then (true, { v with foundDeadlock := true }) else (false, v) := by
  induction nodes with
  | nil => rfl
  | cons node rest ih =>
    unfold inspectEdges inspectEdge
    by_cases hnode : node = start
    · subst hnode
      simp
    · have hsame : ({ v with foundDeadlock := decide (node = start) } : DeadlockVisitor) = v := by
        rw [decide_eq_false hnode, ← hv]
      simp only [hnode, decide_false, List.mem_cons, Ne.symm hnode,
        false_or]
      rw [decide_eq_false hnode] at hsame
      rw [hsame]
      exact ih

def VisitSpec (g : WaitGraph) (wait : Nat -> WaitStatus) (start left : Nat)
    (visit : Nat -> DeadlockVisitor -> Option (Bool × DeadlockVisitor)) : Prop :=
  ∀ c, (g.route wait start left c = none ->
      visit c ⟨none, maxSearchDepth - left, false⟩ =
        some (false, ⟨none, maxSearchDepth - left, false⟩)) ∧
    ∀ p, g.route wait start left c = some p -> ∃ victim depth,
      visit c ⟨none, maxSearchDepth - left, false⟩ = some (true, ⟨some victim, depth, true⟩) ∧
      g.Lightest p victim

lemma visitNodes_spec {visit : Nat -> DeadlockVisitor -> Option (Bool × DeadlockVisitor)}
    (hvisit : g.VisitSpec wait start left visit) (nodes : List Nat) :
    (nodes.findSome? (g.route wait start left) = none ->
      visitNodes visit nodes ⟨none, maxSearchDepth - left, false⟩ =
        some (false, ⟨none, maxSearchDepth - left, false⟩)) ∧
    ∀ p, nodes.findSome? (g.route wait start left) = some p -> ∃ victim depth,
      visitNodes visit nodes ⟨none, maxSearchDepth - left, false⟩ =
        some (true, ⟨some victim, depth, true⟩) ∧ g.Lightest p victim := by
  induction nodes with
  | nil => exact ⟨fun _ => rfl, nofun⟩
  | cons node rest ih =>
    cases hroute : g.route wait start left node with
    | none =>
      have h := (hvisit node).1 hroute
      simpa [hroute, visitNodes, h] using ih
    | some q =>
      obtain ⟨victim, depth, h, hlight⟩ := (hvisit node).2 q hroute
      refine ⟨fun hnone => ?_, fun p hp => ⟨victim, depth, ?_, ?_⟩⟩
      · simp [hroute] at hnone
      · simp [visitNodes, h]
      · obtain rfl : q = p := by simpa [hroute] using hp
        exact hlight

lemma visitSubgraph_spec (hleft : left < maxSearchDepth) :
    g.VisitSpec wait start (left + 1) (g.visitSubgraph wait start (left + 1)) := by
  induction left with
  | zero =>
    intro c
    rw [route, visitSubgraph]
    cases hw : g.waitingFor c with
    | none => simp
    | some w =>
      obtain rfl := g.ctx_eq c w hw
      by_cases hempty : wait w.ticket.ctx = .empty
      · refine ⟨fun h => ?_, fun p hp => ⟨w.ticket.ctx, maxSearchDepth, ?_, ?_⟩⟩
        · simp [hempty] at h
        · simp [hempty, enterNode, optChangeVictimTo, maxSearchDepth]
        · obtain rfl : [w.ticket.ctx] = p := by simpa [hempty] using hp
          exact lightest_singleton hw
      · simp [hempty]
  | succ left ih =>
    intro c
    have hvisit := ih (by omega)
    rw [route, visitSubgraph]
    cases hw : g.waitingFor c with
    | none => simp
    | some w =>
      obtain rfl := g.ctx_eq c w hw
      have hdepth : maxSearchDepth - (left + 1 + 1) + 1 = maxSearchDepth - (left + 1) := by omega
      by_cases hempty : wait w.ticket.ctx = .empty
      · have henter : g.enterNode ⟨none, maxSearchDepth - (left + 1 + 1), false⟩ w.ticket.ctx =
            some (false, ⟨none, maxSearchDepth - (left + 1), false⟩) := by
          unfold enterNode
          rw [hdepth]
          exact if_neg (by omega)
        simp only [hempty, henter, bind_eq_bind, bind_some]
        unfold visitEdges
        rw [inspectEdges_spec _ rfl]
        by_cases hstart : start ∈ g.edges w
        · simp only [hstart]
          refine ⟨fun h => absurd h (some_ne_none _), fun p hp => ?_⟩
          obtain rfl : [w.ticket.ctx] = p := some.inj hp
          exact ⟨w.ticket.ctx, _, rfl, lightest_singleton hw⟩
        · simp only [hstart, if_false]
          obtain ⟨hnone, hsome⟩ := visitNodes_spec hvisit (g.edges w)
          refine ⟨fun h => ?_, fun p hp => ?_⟩
          · rw [hnone (map_eq_none_iff.mp h)]
            rfl
          · obtain ⟨q, hq, rfl⟩ := map_eq_some_iff.mp hp
            obtain ⟨victim, depth, hvisited, hlight⟩ := hsome q hq
            obtain ⟨victim', hchange, hlight'⟩ := optChangeVictimTo_spec
              (v := ⟨some victim, depth - 1, true⟩) hlight rfl hw
            refine ⟨victim', depth - 1, ?_, hlight'⟩
            rw [hvisited]
            simp [leaveNode, hchange]
      · simp [hempty]

/-- Contexts with empty wait slots, from `start` on, each of which waits for the next one and the
last one for `start`. There are as many edges as contexts. -/
structure Cycle (g : WaitGraph) (wait : Nat -> WaitStatus) (start : Nat) (p : List Nat) : Prop where
  path : g.Path wait p
  head : p.head? = some start
  last : ∃ last ∈ p.getLast?, g.WaitsFor last start

def pending (g : WaitGraph) (wait : Nat -> WaitStatus) : Finset Nat :=
  g.contexts.filter fun c => wait c = .empty

/-- How a victim is chosen: on a cycle, or on a path that came to the depth limit. -/
structure Chosen (g : WaitGraph) (wait : Nat -> WaitStatus) (start victim : Nat) : Prop where
  exists_path : ∃ p, p.head? = some start ∧ g.Path wait p ∧ g.Lightest p victim ∧
    ((g.Cycle wait start p ∧ p.Nodup ∧ p.length < maxSearchDepth) ∨ p.length = maxSearchDepth)

lemma Path.mono (h : g.Path wait' p)
    (hempty : ∀ c, wait' c = .empty -> wait c = .empty) : g.Path wait p :=
  ⟨h.chain, fun c hc => hempty c (h.isEmpty c hc), h.waiting⟩

lemma Chosen.mono (h : g.Chosen wait' start victim)
    (hempty : ∀ c, wait' c = .empty -> wait c = .empty) : g.Chosen wait start victim := by
  obtain ⟨p, hhead, hpath, hlight, hend⟩ := h
  refine ⟨p, hhead, hpath.mono hempty, hlight, hend.imp_left ?_⟩
  rintro ⟨hcycle, hnodup, hlength⟩
  exact ⟨⟨hcycle.path.mono hempty, hcycle.head, hcycle.last⟩, hnodup, hlength⟩

lemma Chosen.isEmpty (h : g.Chosen wait start victim) :
    wait victim = .empty ∧ victim ∈ g.contexts := by
  obtain ⟨p, -, hpath, hlight, -⟩ := h
  obtain ⟨w, hw⟩ := hpath.waiting victim hlight.mem
  exact ⟨hpath.isEmpty victim hlight.mem, g.mem_contexts victim w hw⟩

lemma search_spec (g : WaitGraph) (wait : Nat -> WaitStatus) (start : Nat) :
    ((∃ v, g.visitSubgraph wait start maxSearchDepth start ⟨none, 0, false⟩ = some (false, v)) ∧
      ∀ p, g.Cycle wait start p -> maxSearchDepth ≤ p.length) ∨
    ∃ victim depth, g.visitSubgraph wait start maxSearchDepth start ⟨none, 0, false⟩ =
      some (true, ⟨some victim, depth, true⟩) ∧ g.Chosen wait start victim := by
  have hvisit := @visitSubgraph_spec g wait start 31 (by decide) start
  cases hroute : g.route wait start maxSearchDepth start with
  | none =>
    refine .inl ⟨⟨_, hvisit.1 hroute⟩, fun p hcycle => Nat.le_of_not_lt fun hlength => ?_⟩
    obtain ⟨q, rfl⟩ := head?_eq_some_iff.mp hcycle.head
    obtain ⟨last, hlast, hwaits⟩ := hcycle.last
    exact not_waitsFor_of_route_none hroute hcycle.path hlength last hlast hwaits
  | some p =>
    obtain ⟨victim, depth, hvisited, hlight⟩ := hvisit.2 p hroute
    obtain ⟨hpath, hhead, hend⟩ := route_path hroute
    refine .inr ⟨victim, depth, hvisited, p, hhead, hpath, hlight, hend.symm.imp_left ?_⟩
    rintro ⟨hlength, hlast⟩
    exact ⟨⟨hpath, hhead, hlast⟩, route_nodup hroute hlength, hlength⟩

structure Resolved (g : WaitGraph) (ctx : Nat) (wait wait' : Nat -> WaitStatus) : Prop where
  no_cycle : wait' ctx = .victim ∨ ∀ p, g.Cycle wait' ctx p -> maxSearchDepth ≤ p.length
  victims : ∀ c, wait' c ≠ wait c -> wait' c = .victim ∧ g.Chosen wait ctx c

lemma findDeadlock_spec (ctx : Nat) {searches : Nat}
    (hsearches : (g.pending wait).card ≤ searches) :
    ∃ wait', g.findDeadlock ctx (searches + 1) wait = some wait' ∧ g.Resolved ctx wait wait' := by
  induction searches using Nat.strongRecOn generalizing wait with
  | ind searches ih =>
    rw [findDeadlock]
    rcases g.search_spec wait ctx with ⟨⟨v, hvisit⟩, hnone⟩ | ⟨victim, depth, hvisit, hchosen⟩
    · rw [hvisit]
      exact ⟨wait, rfl, .inr hnone, fun c hc => absurd rfl hc⟩
    · obtain ⟨hempty, hmem⟩ := hchosen.isEmpty
      rw [hvisit]
      simp only [some_bind, setStatus, hempty]
      have hupdate : ∀ c, update wait victim .victim c = .empty -> wait c = .empty := by
        intro c hc
        by_cases hcv : c = victim
        · rw [hcv]
          exact hempty
        · rwa [update_of_ne hcv] at hc
      by_cases hself : victim = ctx
      · subst hself
        refine ⟨_, if_pos rfl, .inl (update_self ..), fun c hc => ?_⟩
        obtain rfl : c = victim := by
          by_contra hne
          exact hc (update_of_ne hne ..)
        exact ⟨update_self .., hchosen⟩
      · rw [if_neg hself]
        have hless : g.pending (update wait victim .victim) ⊂ g.pending wait := by
          refine ssubset_iff_of_subset (fun c hc => ?_) |>.mpr ⟨victim, ?_, ?_⟩
          · obtain ⟨hc, hc'⟩ := mem_filter.mp hc
            exact mem_filter.mpr ⟨hc, hupdate c hc'⟩
          · exact mem_filter.mpr ⟨hmem, hempty⟩
          · intro h
            have h := (mem_filter.mp h).2
            rw [update_self] at h
            cases h
        have hcard := (card_lt_card hless).trans_le hsearches
        obtain ⟨searches, rfl⟩ := Nat.exists_eq_add_one_of_ne_zero (Nat.ne_zero_of_lt hcard)
        obtain ⟨wait', hfind, hresolved⟩ := ih searches (lt_succ_self _)
          (le_of_lt_succ hcard)
        refine ⟨wait', hfind, hresolved.no_cycle, fun c hc => ?_⟩
        by_cases hcv : c = victim
        · subst hcv
          refine ⟨?_, hchosen⟩
          by_contra hne
          have hchanged : wait' c ≠ update wait c .victim c := by
            rwa [update_self]
          exact hne (hresolved.victims c hchanged).1
        · obtain ⟨hvictim, h⟩ := hresolved.victims c (by rwa [update_of_ne hcv])
          exact ⟨hvictim, h.mono hupdate⟩

/-- `find_deadlock` ends. Afterwards the context is a victim itself, or there is no cycle through it
with fewer edges than the depth limit. A context that was made a victim had an empty wait slot, and
is of the lightest ones on a cycle through the context, or on a path that came to the depth limit. -/
theorem find_deadlock_resolves (g : WaitGraph) (ctx : Nat) (wait : Nat -> WaitStatus) :
    ∃ searches wait', g.findDeadlock ctx searches wait = some wait' ∧
      (wait' ctx = .victim ∨ ∀ p, g.Cycle wait' ctx p -> maxSearchDepth ≤ p.length) ∧
      ∀ c, wait' c ≠ wait c -> wait' c = .victim ∧ ∃ p, c ∈ p ∧ (∀ d ∈ p, g.Lighter c d) ∧
        ((g.Cycle wait ctx p ∧ p.Nodup ∧ p.length < maxSearchDepth) ∨
          (g.Path wait p ∧ p.head? = some ctx ∧ p.length = maxSearchDepth)) := by
  obtain ⟨wait', hfind, hresolved⟩ := findDeadlock_spec ctx (le_refl (g.pending wait).card)
  refine ⟨_, wait', hfind, hresolved.no_cycle, fun c hc => ?_⟩
  obtain ⟨hvictim, p, hhead, hpath, hlight, hend⟩ := hresolved.victims c hc
  exact ⟨hvictim, p, hlight.mem, hlight.le, hend.imp_right fun h => ⟨hpath, hhead, h⟩⟩

/-- Each of two contexts has a lock that the other one waits for, the first one for `MDL_EXCLUSIVE`
and the second one for `MDL_SHARED`. -/
def crossed : WaitGraph :=
  let ticket (c : Nat) : Ticket := ⟨3 - c, c, if c = 0 then .exclusive else .shared⟩
  { locks := fun l => ⟨.objectLock, ⟨[⟨l, l, .exclusive⟩], {.exclusive}⟩,
      ⟨[ticket (1 - l)], {(ticket (1 - l)).type}⟩, 0⟩
    isGlobal := fun _ => false
    waitingFor := fun c => if c < 2 then some ⟨1 - c, ticket c⟩ else none
    contexts := range 2
    ctx_eq := by
      intro c w h
      split at h
      · obtain rfl := some.inj h
        rfl
      · cases h
    mem_contexts := by
      intro c w h
      split at h
      · exact Finset.mem_range.mpr ‹_›
      · cases h }

/-- The second context, which waits for the weaker lock, is the victim. -/
theorem find_deadlock_resolves_crossed :
    (crossed.findDeadlock 0 2 fun _ => .empty).map (fun wait => (wait 0, wait 1)) =
      some (.empty, .victim) ∧
    ∃ searches wait', crossed.findDeadlock 0 searches (fun _ => .empty) = some wait' ∧
      (wait' 0 = .victim ∨ ∀ p, crossed.Cycle wait' 0 p -> maxSearchDepth ≤ p.length) := by
  obtain ⟨searches, wait', hfind, hresolved, -⟩ := find_deadlock_resolves crossed 0 fun _ => .empty
  exact ⟨by decide, searches, wait', hfind, hresolved⟩

end WaitGraph

end Mdl
