import Mathlib.Data.List.Chain
import Mathlib.Logic.Relation
import EryMysql.Lib.Partial

/-!
# Deadlock detection for waiting threads

mysys/waiting_threads.c: the search for a cycle in the graph of threads and resources, from the
thread that is about to wait. A thread waits for a resource, and a resource has owners. The graph
does not change during the search, so `deadlock_search` does not have to look at `waiting_for` again
after it has locked the resource.

The resource of a frame stays locked until the caller has decided whether its waiter becomes the
victim; the locks that are held are counted here, and releasing one that is not held is an error.
-/

namespace Mysys

open Function List Nat

/-- The graph: `WT_THD::waiting_for`, `WT_RESOURCE::owners` and `WT_THD::weight`. -/
structure WtGraph where
  waitingFor : Nat -> Option Nat
  owners : Nat -> List Nat
  weight : Nat -> Nat

inductive WtResult
  | ok
  | deadlock
  | depthExceeded
  | freeToGo
  deriving DecidableEq, Repr

/-- `struct deadlock_arg`, with the read locks of resources. -/
structure DeadlockArg where
  victim : Option Nat
  lastLockedRc : Option Nat
  locks : Nat -> Nat

namespace WtGraph

variable (g : WtGraph)

def lock (rc : Nat) (locks : Nat -> Nat) : Nat -> Nat :=
  update locks rc (locks rc + 1)

/-- `rc_unlock`; `none` if the resource is not locked. -/
def unlock (rc : Nat) (locks : Nat -> Nat) : Option (Nat -> Nat) :=
  if locks rc = 0 then none else some (update locks rc (locks rc - 1))

/-- Release the resource of a frame that has ended. -/
def unlockLast (arg : DeadlockArg) : Option DeadlockArg :=
  match arg.lastLockedRc with
  | none => some arg
  | some rc => do
    let locks ← unlock rc arg.locks
    some { arg with locks := locks }

/-- `change_victim`; `none` if its assertion fails. -/
def changeVictim (thd found : Nat) (arg : DeadlockArg) : Option DeadlockArg := do
  let victim ← arg.victim
  if g.weight found < g.weight victim then
    if victim ≠ thd then
      let rc ← g.waitingFor victim
      let locks ← unlock rc arg.locks
      if arg.lastLockedRc = g.waitingFor found then
        some { victim := some found, lastLockedRc := none, locks := locks }
      else none
    else some { arg with victim := some found, lastLockedRc := none }
  else some arg

/-- The second loop of `deadlock_search` over the owners, with the search from an owner. -/
def searchOwners (thd : Nat) (search : Nat -> DeadlockArg -> Option (WtResult × DeadlockArg)) :
    List Nat -> WtResult -> DeadlockArg -> Option (WtResult × DeadlockArg)
  | [], ret, arg => some (ret, arg)
  | cursor :: rest, ret, arg => do
    let (result, arg) ← search cursor arg
    match result with
    | .ok => do
      let arg ← unlockLast arg
      searchOwners thd search rest ret arg
    | .depthExceeded => do
      let arg ← unlockLast arg
      searchOwners thd search rest .depthExceeded arg
    | .deadlock => do
      let arg ← g.changeVictim thd cursor arg
      let arg ← unlockLast arg
      some (.deadlock, arg)
    | .freeToGo => none

/-- `deadlock_search`; the first argument is `max_depth + 1 - depth`. -/
def deadlockSearch (thd : Nat) : Nat -> Nat -> DeadlockArg -> Option (WtResult × DeadlockArg)
  | 0, _, arg => some (.depthExceeded, { arg with lastLockedRc := none })
  | left + 1, blocker, arg =>
    match g.waitingFor blocker with
    | none => some (.ok, { arg with lastLockedRc := none })
    | some rc =>
      let arg := { arg with lastLockedRc := none, locks := lock rc arg.locks }
      if thd ∈ g.owners rc then
        some (.deadlock, { arg with victim := some thd, lastLockedRc := some rc })
      else do
        let (ret, arg) ← g.searchOwners thd (deadlockSearch thd left) (g.owners rc) .ok arg
        some (ret, { arg with lastLockedRc := some rc })

/-- With a search that starts with depth 1, `deadlock_search` has not considered the first
thread. -/
def considerBlocker (thd blocker depth : Nat) (ret : WtResult) (arg : DeadlockArg) :
    Option DeadlockArg :=
  if ret = .deadlock ∧ depth ≠ 0 then g.changeVictim thd blocker arg else some arg

/-- The special result if there is nobody to wait for. -/
def freeToGo (depth : Nat) (ret : WtResult) (arg : DeadlockArg) : WtResult :=
  match arg.lastLockedRc with
  | some rc => if depth = 0 ∧ ret = .ok ∧ g.owners rc = [] then .freeToGo else ret
  | none => ret

/-- `deadlock`: the result, the locks and the threads that are killed. -/
def deadlock (thd blocker depth maxDepth : Nat) (locks : Nat -> Nat) (killed : Nat -> Bool) :
    Option (WtResult × (Nat -> Nat) × (Nat -> Bool)) := do
  let (ret, arg) ← g.deadlockSearch thd (maxDepth + 1 - depth) blocker
    { victim := none, lastLockedRc := none, locks := locks }
  let ret : WtResult := if ret = .depthExceeded then .ok else ret
  let arg ← g.considerBlocker thd blocker depth ret arg
  let ret : WtResult := g.freeToGo depth ret arg
  let arg ← unlockLast arg
  match ret, arg.victim with
  | .deadlock, some victim =>
    if victim ≠ thd then do
      let rc ← g.waitingFor victim
      let locks ← unlock rc arg.locks
      some (.ok, locks, update killed victim true)
    else some (.deadlock, arg.locks, killed)
  | .deadlock, none => none
  | ret, _ => some (ret, arg.locks, killed)

def Waits (t u : Nat) : Prop := ∃ rc, g.waitingFor t = some rc ∧ u ∈ g.owners rc

/-- The threads of a walk, each of which waits for the next one and the last one for `thd`. -/
def Blocks (thd : Nat) (walk : List Nat) : Prop := (walk ++ [thd]).IsChain g.Waits

def holding (locks : Nat -> Nat) (rc : Option Nat) : Nat -> Nat :=
  fun x => locks x + if rc = some x then 1 else 0

variable {g}

lemma lock_eq (rc : Nat) (locks : Nat -> Nat) : lock rc locks = holding locks (some rc) := by
  funext x
  unfold lock holding
  by_cases hx : x = rc
  · subst hx
    simp
  · simp [hx, Ne.symm hx]

@[simp] lemma holding_none (locks : Nat -> Nat) : holding locks none = locks := by
  funext x
  simp [holding]

lemma holding_comm (locks : Nat -> Nat) (a b : Option Nat) :
    holding (holding locks a) b = holding (holding locks b) a := by
  funext x
  unfold holding
  omega

@[simp] lemma unlock_holding (rc : Nat) (locks : Nat -> Nat) :
    unlock rc (holding locks (some rc)) = some locks := by
  unfold unlock
  have hpos : holding locks (some rc) rc = locks rc + 1 := by simp [holding]
  rw [hpos]
  refine congrArg some (funext fun x => ?_)
  by_cases hx : x = rc
  · subst hx
    simp
  · rw [update_of_ne hx]
    simp [holding, Ne.symm hx]

variable {locks : Nat -> Nat} {walk : List Nat} {arg : DeadlockArg}
  {thd blocker depth maxDepth : Nat} {thd t : Nat} {depth : Nat}

lemma unlockLast_holding {victim rc : Option Nat} :
    unlockLast ⟨victim, rc, holding locks rc⟩ = some ⟨victim, rc, locks⟩ := by
  cases rc with
  | none => simp [unlockLast]
  | some rc => simp [unlockLast]

/-- The victim of a walk: the lightest one of the threads, and `thd` unless another one is
lighter. -/
structure Lightest (g : WtGraph) (thd : Nat) (walk : List Nat) (v : Nat) : Prop where
  mem : v = thd ∨ v ∈ walk
  le : ∀ t ∈ thd :: walk, g.weight v ≤ g.weight t
  lt : v ≠ thd -> g.weight v < g.weight thd

/-- What a search finds: a walk to `thd` from the thread that it starts with, the victim among the
other threads of the walk, and the locks of the first thread and of the victim. -/
structure Finds (g : WtGraph) (thd left blocker : Nat) (locks : Nat -> Nat) (arg : DeadlockArg) :
    Prop where
  exists_walk : ∃ walk v, g.Blocks thd (blocker :: walk) ∧ thd ∉ walk ∧
    (blocker :: walk).length ≤ left ∧ g.Lightest thd walk v ∧ arg.victim = some v ∧
    arg.lastLockedRc = g.waitingFor blocker ∧
    arg.locks = holding (holding locks (g.waitingFor blocker)) (if v = thd then none else g.waitingFor v)

structure Misses (g : WtGraph) (thd left blocker : Nat) (locks : Nat -> Nat) (arg : DeadlockArg) :
    Prop where
  no_walk : ∀ walk, g.Blocks thd (blocker :: walk) -> ¬(blocker :: walk).length ≤ left
  locks : arg.locks = holding locks arg.lastLockedRc
  last : arg.lastLockedRc = none ∨ arg.lastLockedRc = g.waitingFor blocker

lemma blocks_singleton {thd t rc : Nat} (hrc : g.waitingFor t = some rc) (hthd : thd ∈ g.owners rc) :
    g.Blocks thd [t] :=
  isChain_cons_cons.mpr ⟨⟨rc, hrc, hthd⟩, isChain_singleton _⟩

lemma blocks_cons {thd t u : Nat} :
    g.Blocks thd (t :: u :: walk) ↔ g.Waits t u ∧ g.Blocks thd (u :: walk) :=
  isChain_cons_cons

lemma Blocks.waiting {walk : List Nat} (h : g.Blocks thd (t :: walk)) :
    ∃ rc, g.waitingFor t = some rc := by
  cases walk with
  | nil =>
    obtain ⟨⟨rc, hrc, -⟩, -⟩ := isChain_cons_cons.mp h
    exact ⟨rc, hrc⟩
  | cons u walk =>
    obtain ⟨⟨rc, hrc, -⟩, -⟩ := blocks_cons.mp h
    exact ⟨rc, hrc⟩

lemma Blocks.waiting_of_mem (h : g.Blocks thd walk) (ht : t ∈ walk) :
    ∃ rc, g.waitingFor t = some rc := by
  obtain ⟨l, l', rfl⟩ := append_of_mem ht
  refine @Blocks.waiting g thd t l' ?_
  unfold Blocks at h ⊢
  rw [append_assoc] at h
  exact (isChain_append.mp h).2.1

lemma changeVictim_spec {thd found v : Nat} (hlight : g.Lightest thd walk v)
    (hv : arg.victim = some v) (hlast : arg.lastLockedRc = g.waitingFor found)
    (hblocks : g.Blocks thd (found :: walk))
    (hlocks : arg.locks = holding (holding locks (g.waitingFor found))
      (if v = thd then none else g.waitingFor v)) :
    ∃ arg' v', g.changeVictim thd found arg = some arg' ∧ g.Lightest thd (found :: walk) v' ∧
      arg'.victim = some v' ∧
      unlockLast arg' = some ⟨some v', arg'.lastLockedRc,
        holding locks (if v' = thd then none else g.waitingFor v')⟩ ∧
      (arg'.lastLockedRc = none ∨ arg'.lastLockedRc = g.waitingFor found) := by
  obtain ⟨victim, last, held⟩ := arg
  obtain rfl : victim = some v := hv
  obtain rfl : last = g.waitingFor found := hlast
  obtain rfl : held = _ := hlocks
  by_cases hlighter : g.weight found < g.weight v
  · have hle : ∀ t ∈ thd :: walk, g.weight found < g.weight t := fun t ht =>
      lt_of_lt_of_le hlighter (hlight.le t ht)
    have hne : found ≠ thd := by
      rintro rfl
      exact lt_irrefl _ (hle found (mem_cons_self ..))
    have hlight' : g.Lightest thd (found :: walk) found := by
      refine ⟨.inr (mem_cons_self ..), fun t ht => ?_, fun _ => hle thd (mem_cons_self ..)⟩
      rcases mem_cons.mp ht with rfl | ht
      · exact le_of_lt (hle t (mem_cons_self ..))
      · rcases mem_cons.mp ht with rfl | ht
        · exact le_refl _
        · exact le_of_lt (hle t (mem_cons_of_mem _ ht))
    refine ⟨⟨some found, none, holding locks (g.waitingFor found)⟩, found, ?_, hlight', rfl, ?_,
      .inl rfl⟩
    · unfold changeVictim
      by_cases hv : v = thd
      · subst hv
        simp [hlighter]
      · have hmem := hlight.mem.resolve_left hv
        obtain ⟨rc, hrc⟩ := hblocks.waiting_of_mem (mem_cons_of_mem _ hmem)
        simp [hlighter, hv, hrc]
    · rw [if_neg hne]
      rfl
  · have hlight' : g.Lightest thd (found :: walk) v := by
      refine ⟨hlight.mem.imp id (mem_cons_of_mem _), fun t ht => ?_, hlight.lt⟩
      rcases mem_cons.mp ht with rfl | ht
      · exact hlight.le t (mem_cons_self ..)
      · rcases mem_cons.mp ht with rfl | ht
        · omega
        · exact hlight.le t (mem_cons_of_mem _ ht)
    refine ⟨⟨some v, g.waitingFor found, holding (holding locks (g.waitingFor found))
      (if v = thd then none else g.waitingFor v)⟩, v, ?_, hlight', rfl, ?_, .inr rfl⟩
    · unfold changeVictim
      simp [hlighter]
    · rw [holding_comm]
      exact unlockLast_holding

def SearchSpec (g : WtGraph) (thd left : Nat)
    (search : Nat -> DeadlockArg -> Option (WtResult × DeadlockArg)) : Prop :=
  ∀ blocker arg, ∃ ret arg', search blocker arg = some (ret, arg') ∧
    ((ret = .deadlock ∧ g.Finds thd left blocker arg.locks arg') ∨
      ((ret = .ok ∨ ret = .depthExceeded) ∧ g.Misses thd left blocker arg.locks arg'))

lemma searchOwners_spec {thd left : Nat}
    {search : Nat -> DeadlockArg -> Option (WtResult × DeadlockArg)}
    (hsearch : g.SearchSpec thd left search) (owners : List Nat) {ret : WtResult}
    (hret : ret = .ok ∨ ret = .depthExceeded) (arg : DeadlockArg) :
    ∃ ret' arg', g.searchOwners thd search owners ret arg = some (ret', arg') ∧
      ((ret' = .deadlock ∧ ∃ c ∈ owners, ∃ walk v, g.Blocks thd (c :: walk) ∧
          thd ∉ walk ∧ (c :: walk).length ≤ left ∧ g.Lightest thd (c :: walk) v ∧ arg'.victim = some v ∧
          arg'.locks = holding arg.locks (if v = thd then none else g.waitingFor v)) ∨
        ((ret' = .ok ∨ ret' = .depthExceeded) ∧ arg'.locks = arg.locks ∧
          ∀ c ∈ owners, ∀ walk, g.Blocks thd (c :: walk) -> ¬(c :: walk).length ≤ left)) := by
  induction owners generalizing ret arg with
  | nil => exact ⟨ret, arg, rfl, .inr ⟨hret, rfl, nofun⟩⟩
  | cons cursor rest ih =>
    obtain ⟨result, arg1, hsome, hresult⟩ := hsearch cursor arg
    have hnext : ∀ ret1, ret1 = .ok ∨ ret1 = .depthExceeded ->
        g.Misses thd left cursor arg.locks arg1 -> ∃ ret' arg',
        ((unlockLast arg1).bind fun arg => g.searchOwners thd search rest ret1 arg) =
          some (ret', arg') ∧
        ((ret' = .deadlock ∧ ∃ c ∈ cursor :: rest, ∃ walk v, g.Blocks thd (c :: walk) ∧
            thd ∉ walk ∧ (c :: walk).length ≤ left ∧ g.Lightest thd (c :: walk) v ∧ arg'.victim = some v ∧
            arg'.locks = holding arg.locks (if v = thd then none else g.waitingFor v)) ∨
          ((ret' = .ok ∨ ret' = .depthExceeded) ∧ arg'.locks = arg.locks ∧
            ∀ c ∈ cursor :: rest, ∀ walk, g.Blocks thd (c :: walk) ->
              ¬(c :: walk).length ≤ left)) := by
      intro ret1 hret1 hmiss
      obtain ⟨victim, last, held⟩ := arg1
      obtain rfl : held = holding arg.locks last := hmiss.locks
      obtain ⟨ret', arg', hrest, hspec⟩ := ih hret1 ⟨victim, last, arg.locks⟩
      refine ⟨ret', arg', ?_, ?_⟩
      · rw [unlockLast_holding]
        exact hrest
      · refine hspec.imp ?_ ?_
        · rintro ⟨hret', c, hc, h⟩
          exact ⟨hret', c, mem_cons_of_mem _ hc, h⟩
        · rintro ⟨hret', hlocks, hnone⟩
          refine ⟨hret', hlocks, fun c hc => ?_⟩
          rcases mem_cons.mp hc with rfl | hc
          · exact hmiss.no_walk
          · exact hnone c hc
    unfold searchOwners
    rw [hsome]
    rcases hresult with ⟨rfl, ⟨walk, v, hblocks, hthd, hlen, hlight, hv, hlast, hlocks⟩⟩ |
      ⟨rfl | rfl, hmiss⟩
    · obtain ⟨arg2, v', hchange, hlight', hv', hunlock, -⟩ :=
        changeVictim_spec hlight hv hlast hblocks hlocks
      refine ⟨.deadlock, ⟨some v', arg2.lastLockedRc,
        holding arg.locks (if v' = thd then none else g.waitingFor v')⟩, ?_, .inl ⟨rfl, cursor,
        mem_cons_self .., walk, v', hblocks, hthd, hlen, hlight', rfl, rfl⟩⟩
      simp [hchange, hunlock]
    · exact hnext ret hret hmiss
    · exact hnext .depthExceeded (.inr rfl) hmiss

lemma deadlockSearch_spec (g : WtGraph) (thd left : Nat) :
    g.SearchSpec thd left (g.deadlockSearch thd left) := by
  induction left with
  | zero =>
    intro blocker arg
    refine ⟨.depthExceeded, _, rfl, .inr ⟨.inr rfl, ?_, ?_, .inl rfl⟩⟩
    · intro walk _ hlen
      simp at hlen
    · simp
  | succ left ih =>
    intro blocker arg
    unfold deadlockSearch
    split
    case h_1 hwaiting =>
      refine ⟨.ok, _, rfl, .inr ⟨.inl rfl, ?_, ?_, .inl rfl⟩⟩
      · intro walk hblocks
        obtain ⟨rc, hrc⟩ := hblocks.waiting
        rw [hwaiting] at hrc
        cases hrc
      · simp
    case h_2 rc hwaiting =>
      split
      case isTrue hthd =>
        refine ⟨.deadlock, _, rfl, .inl ⟨rfl, [], thd, blocks_singleton hwaiting hthd, not_mem_nil,
          ?_, ?_, rfl, hwaiting.symm, ?_⟩⟩
        · simp
        · refine ⟨.inl rfl, fun t ht => ?_, fun h => absurd rfl h⟩
          rw [mem_singleton.mp ht]
        · rw [hwaiting, lock_eq, if_pos rfl, holding_none]
      case isFalse hthd =>
        obtain ⟨ret, arg', hsome, hspec⟩ := searchOwners_spec ih (g.owners rc) (.inl rfl)
          { arg with lastLockedRc := none, locks := lock rc arg.locks }
        refine ⟨ret, { arg' with lastLockedRc := some rc }, ?_, ?_⟩
        · simp only [hsome]
          rfl
        · refine hspec.imp ?_ ?_
          · rintro ⟨hret, c, hc, walk, v, hblocks, hnot, hlen, hlight, hv, hlocks⟩
            refine ⟨hret, c :: walk, v, blocks_cons.mpr ⟨⟨rc, hwaiting, hc⟩, hblocks⟩, ?_, ?_, hlight,
              hv, hwaiting.symm, ?_⟩
            · exact not_mem_cons_of_ne_of_not_mem (ne_of_mem_of_not_mem hc hthd).symm hnot
            · simpa using hlen
            · rw [hwaiting, ← lock_eq]
              exact hlocks
          · rintro ⟨hret, hlocks, hnone⟩
            refine ⟨hret, ?_, ?_, .inr hwaiting.symm⟩
            · intro walk hblocks hlen
              cases walk with
              | nil =>
                obtain ⟨⟨rc', hrc', hmem⟩, -⟩ := isChain_cons_cons.mp hblocks
                rw [hwaiting] at hrc'
                cases hrc'
                exact hthd hmem
              | cons u walk =>
                obtain ⟨⟨rc', hrc', hmem⟩, hblocks⟩ := blocks_cons.mp hblocks
                rw [hwaiting] at hrc'
                cases hrc'
                refine hnone u hmem walk hblocks ?_
                simpa using hlen
            · rw [← lock_eq]
              exact hlocks

/-- A cycle through `thd`: the other threads of it, in the order in which they wait. With depth 1,
`thd` is going to wait for the blocker. -/
structure Cycle (g : WtGraph) (thd blocker depth maxDepth : Nat) (walk : List Nat) : Prop where
  head : ∀ t ∈ (walk ++ [thd]).head?, g.Waits thd t ∨ (depth = 1 ∧ t = blocker)
  blocks : g.Blocks thd walk
  notMem : thd ∉ walk
  length : walk.length ≤ maxDepth

/-- A cycle without `thd` can be reached. -/
def SideCycle (g : WtGraph) (thd start : Nat) : Prop :=
  ∃ t walk, Relation.ReflTransGen g.Waits start t ∧ thd ∉ t :: walk ∧ g.Blocks t (t :: walk)

lemma Blocks.reaches (h : g.Blocks thd (t :: walk)) :
    ∀ u ∈ t :: walk, Relation.ReflTransGen g.Waits t u := by
  induction walk generalizing t with
  | nil =>
    intro u hu
    rw [mem_singleton.mp hu]
  | cons w walk ih =>
    obtain ⟨hwaits, hrest⟩ := blocks_cons.mp h
    intro u hu
    rcases mem_cons.mp hu with rfl | hu
    · exact .refl
    · exact (ih hrest u hu).head hwaits

/-- Where no cycle without `thd` can be reached, no thread is met twice. -/
lemma Blocks.nodup {start : Nat} (h : g.Blocks thd walk) (hthd : thd ∉ walk)
    (hreach : ∀ t ∈ walk, Relation.ReflTransGen g.Waits start t) (hside : ¬ g.SideCycle thd start) :
    walk.Nodup := by
  induction walk with
  | nil => exact nodup_nil
  | cons t walk ih =>
    refine nodup_cons.mpr ⟨fun ht => ?_, ih (isChain_cons.mp h).2 (fun h => hthd (mem_cons_of_mem _ h))
      fun u hu => hreach u (mem_cons_of_mem _ hu)⟩
    obtain ⟨l, l', rfl⟩ := append_of_mem ht
    refine hside ⟨t, l, hreach t (mem_cons_self ..), fun hmem => hthd ?_, ?_⟩
    · simp only [mem_cons, mem_append] at hmem ⊢
      exact hmem.imp_right .inl
    · refine IsChain.prefix h ⟨l' ++ [thd], ?_⟩
      simp

lemma freeToGo_deadlock : g.freeToGo depth .deadlock arg = .deadlock := by
  unfold freeToGo
  split <;> simp

lemma freeToGo_ok {arg : DeadlockArg} :
    g.freeToGo depth .ok arg = .ok ∨ g.freeToGo depth .ok arg = .freeToGo := by
  unfold freeToGo
  split
  · split
    · exact .inr rfl
    · exact .inl rfl
  · exact .inl rfl

section
variable (hdepth : depth = 0 ∧ blocker = thd ∨ depth = 1 ∧ blocker ≠ thd)
include hdepth

lemma exists_deadlock (hfinds : g.Finds thd (maxDepth + 1 - depth) blocker locks arg) :
    ∃ arg' walk v, g.considerBlocker thd blocker depth .deadlock arg = some arg' ∧
      g.Cycle thd blocker depth maxDepth walk ∧
      (∀ t ∈ walk, Relation.ReflTransGen g.Waits blocker t) ∧ g.Lightest thd walk v ∧
      (v ≠ thd -> ∃ rc, g.waitingFor v = some rc) ∧
      ∃ last, unlockLast arg' = some ⟨some v, last,
        holding locks (if v = thd then none else g.waitingFor v)⟩ := by
  obtain ⟨walk, v, hblocks, hthd, hlen, hlight, hv, hlast, hlocks⟩ := hfinds.exists_walk
  have hreach := hblocks.reaches
  obtain ⟨hhead, hwalk⟩ := isChain_cons.mp hblocks
  rcases hdepth with ⟨rfl, rfl⟩ | ⟨rfl, hne⟩
  · refine ⟨arg, walk, v, rfl, ⟨fun t ht => .inl (hhead t ht), hwalk, hthd, by simpa using hlen⟩,
      fun t ht => hreach t (mem_cons_of_mem _ ht), hlight, fun hne => ?_, g.waitingFor blocker, ?_⟩
    · exact hblocks.waiting_of_mem (mem_cons_of_mem _ (hlight.mem.resolve_left hne))
    · obtain ⟨victim, last, held⟩ := arg
      obtain rfl : victim = some v := hv
      obtain rfl : last = g.waitingFor blocker := hlast
      obtain rfl : held = _ := hlocks
      rw [holding_comm]
      exact unlockLast_holding
  · obtain ⟨arg', v', hchange, hlight', -, hunlock, -⟩ :=
      changeVictim_spec hlight hv hlast hblocks hlocks
    refine ⟨arg', blocker :: walk, v', hchange, ⟨fun t ht => .inr ⟨rfl, ?_⟩, hblocks, ?_, ?_⟩, hreach,
      hlight', fun hne => ?_, arg'.lastLockedRc, hunlock⟩
    · exact (Option.some.inj ht).symm
    · exact not_mem_cons_of_ne_of_not_mem hne.symm hthd
    · simpa using hlen
    · exact hblocks.waiting_of_mem (hlight'.mem.resolve_left hne)

lemma no_cycle (hedge : depth = 1 -> ∀ t, g.Waits thd t -> t = blocker)
    (hmiss : g.Misses thd (maxDepth + 1 - depth) blocker locks arg) (walk : List Nat) :
    ¬g.Cycle thd blocker depth maxDepth walk := by
  rintro ⟨hhead, hblocks, -, hlen⟩
  rcases hdepth with ⟨rfl, rfl⟩ | ⟨rfl, hne⟩
  · refine hmiss.no_walk walk (isChain_cons.mpr ⟨fun t ht => ?_, hblocks⟩) (by simpa using hlen)
    exact (hhead t ht).resolve_right fun h => absurd h.1 (by decide)
  · have hfirst : ∀ t ∈ (walk ++ [thd]).head?, t = blocker := fun t ht =>
      (hhead t ht).elim (hedge rfl t) And.right
    cases walk with
    | nil => exact hne (hfirst thd rfl).symm
    | cons t walk =>
      obtain rfl := hfirst t rfl
      exact hmiss.no_walk walk hblocks (by simpa using hlen)

end

end WtGraph

open WtGraph

/-- Thread 0 is going to wait for thread 1, which waits for threads 4 and 2. Threads 2 and 3 wait for
threads 3 and 0, thread 4 for none, and thread 3 is the lightest. -/
def newEdge : WtGraph where
  waitingFor t := if t < 4 then some t else none
  owners
    | 0 => [1]
    | 1 => [4, 2]
    | 2 => [3]
    | 3 => [0]
    | _ => []
  weight t := if t = 3 then 1 else 5

lemma newEdge_lt {t u : Nat} (h : newEdge.Waits t u) (hu : u ≠ 0) : t < u := by
  obtain ⟨rc, hrc, hu'⟩ := h
  have ht : t < 4 := by
    by_contra hge
    cases (if_neg hge).symm.trans hrc
  obtain rfl : t = rc := Option.some.inj ((if_pos ht).symm.trans hrc)
  have hall : ∀ t < 4, ∀ u ∈ newEdge.owners t, u ≠ 0 -> t < u := by decide
  exact hall t ht u hu' hu

lemma newEdge_lt_of_blocks {t u : Nat} {walk : List Nat} (h : newEdge.Blocks u (t :: walk))
    (hwalk : 0 ∉ walk) (hu : u ≠ 0) : t < u := by
  induction walk generalizing t with
  | nil => exact newEdge_lt (isChain_cons_cons.mp h).1 hu
  | cons w walk ih =>
    obtain ⟨hwaits, hrest⟩ := blocks_cons.mp h
    obtain ⟨hw, hwalk⟩ := not_or.mp (mt mem_cons.mpr hwalk)
    exact (newEdge_lt hwaits (Ne.symm hw)).trans (ih hrest hwalk)

lemma newEdge_not_sideCycle : ¬ newEdge.SideCycle 0 1 := by
  rintro ⟨t, walk, -, hnot, hblocks⟩
  obtain ⟨ht, hwalk⟩ := not_or.mp (mt mem_cons.mpr hnot)
  exact lt_irrefl t (newEdge_lt_of_blocks hblocks hwalk (Ne.symm ht))

/-- Threads 0, 1 and 3 wait for each other in a circle, and so do threads 1 and 2, of which the
latter is the lightest. -/
def sideCycle : WtGraph where
  waitingFor t := if t < 4 then some t else none
  owners
    | 0 => [1]
    | 1 => [2, 3]
    | 2 => [1]
    | 3 => [0]
    | _ => []
  weight t := if t = 2 then 1 else 5

end Mysys
