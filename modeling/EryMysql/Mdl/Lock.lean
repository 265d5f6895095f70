import Mathlib.Data.Finset.Basic
import EryMysql.Lib.Partial

/-!
# Metadata locks

sql/mdl.cc: one `MDL_lock` with its tickets, and the contexts that want it. What happens under
`m_rwlock` is one step, and so is a change of a wait slot under its own mutex. Between two steps a
context is at a place in `acquire_lock` or `upgrade_shared_lock`, or at none.

A bitmap of types is the set of the types whose bits are set. Write-set replication is off. The
lists of tickets are intrusive, and taking a ticket out of a list is to take it out of the one that
it is in; where a list ends is not kept here.
-/

namespace Mdl

open Function

inductive MdlType
  | intentionExclusive
  | shared
  | sharedHighPrio
  | sharedRead
  | sharedWrite
  | sharedUpgradable
  | sharedNoWrite
  | sharedNoReadWrite
  | exclusive
  deriving DecidableEq, Repr

inductive Duration
  | statement
  | transaction
  | explicit
  deriving DecidableEq, Repr

inductive WaitStatus
  | empty
  | granted
  | victim
  | timeout
  | killed
  deriving DecidableEq, Repr

/-- `MDL_lock_strategy`: of the namespaces GLOBAL, COMMIT and SCHEMA, and of the others. -/
inductive Strategy
  | scopedLock
  | objectLock
  deriving DecidableEq, Repr

open MdlType in
/-- `m_granted_incompatible`. -/
def Strategy.incompatibleGranted : Strategy -> MdlType -> Finset MdlType
  | scopedLock, intentionExclusive => {exclusive, shared}
  | scopedLock, shared => {exclusive, intentionExclusive}
  | scopedLock, exclusive => {exclusive, shared, intentionExclusive}
  | scopedLock, _ => ∅
  | objectLock, intentionExclusive => ∅
  | objectLock, shared => {exclusive}
  | objectLock, sharedHighPrio => {exclusive}
  | objectLock, sharedRead => {exclusive, sharedNoReadWrite}
  | objectLock, sharedWrite => {exclusive, sharedNoReadWrite, sharedNoWrite}
  | objectLock, sharedUpgradable => {exclusive, sharedNoReadWrite, sharedNoWrite, sharedUpgradable}
  | objectLock, sharedNoWrite =>
    {exclusive, sharedNoReadWrite, sharedNoWrite, sharedUpgradable, sharedWrite}
  | objectLock, sharedNoReadWrite =>
    {exclusive, sharedNoReadWrite, sharedNoWrite, sharedUpgradable, sharedWrite, sharedRead}
  | objectLock, exclusive =>
    {exclusive, sharedNoReadWrite, sharedNoWrite, sharedUpgradable, sharedWrite, sharedRead,
      sharedHighPrio, shared}

open MdlType in
/-- `m_waiting_incompatible`. -/
def Strategy.incompatibleWaiting : Strategy -> MdlType -> Finset MdlType
  | scopedLock, intentionExclusive => {exclusive, shared}
  | scopedLock, shared => {exclusive}
  | scopedLock, _ => ∅
  | objectLock, shared => {exclusive}
  | objectLock, sharedRead => {exclusive, sharedNoReadWrite}
  | objectLock, sharedWrite => {exclusive, sharedNoReadWrite, sharedNoWrite}
  | objectLock, sharedUpgradable => {exclusive}
  | objectLock, sharedNoWrite => {exclusive}
  | objectLock, sharedNoReadWrite => {exclusive}
  | objectLock, _ => ∅

open MdlType in
def Strategy.hogLockTypes : Strategy -> Finset MdlType
  | scopedLock => ∅
  | objectLock => {sharedNoWrite, sharedNoReadWrite, exclusive}

/-- `has_stronger_or_equal_type`, for a ticket of the first type. -/
def Strategy.hasStrongerOrEqualType (strategy : Strategy) (own type : MdlType) : Bool :=
  strategy.incompatibleGranted type ⊆ strategy.incompatibleGranted own

/-- A ticket, known by its address, with the context that it belongs to. -/
structure Ticket where
  id : Nat
  ctx : Nat
  type : MdlType
  deriving DecidableEq, Repr

structure TicketList where
  list : List Ticket
  bitmap : Finset MdlType
  deriving DecidableEq

namespace TicketList

def addTicket (l : TicketList) (ticket : Ticket) : TicketList where
  list := l.list ++ [ticket]
  bitmap := insert ticket.type l.bitmap

def unlink (l : TicketList) (ticket : Ticket) : TicketList :=
  { l with list := l.list.filter fun t => t.id ≠ ticket.id }

def clearBitIfNotInList (l : TicketList) (type : MdlType) : TicketList :=
  if l.list.any (fun t => t.type = type) then l else { l with bitmap := l.bitmap.erase type }

end TicketList

structure MdlLock where
  strategy : Strategy
  granted : TicketList
  waiting : TicketList
  hogLockCount : Nat

/-- `Ticket_list MDL_lock::*`. -/
inductive Queue
  | granted
  | waiting
  deriving DecidableEq, Repr

namespace MdlLock

def isEmpty (lock : MdlLock) : Bool := lock.granted.list.isEmpty && lock.waiting.list.isEmpty

/-- `Ticket_list::remove_ticket`, called for a list. -/
def removeTicket (lock : MdlLock) (queue : Queue) (ticket : Ticket) : MdlLock :=
  let granted := lock.granted.unlink ticket
  let waiting := lock.waiting.unlink ticket
  match queue with
  | .granted => { lock with granted := granted.clearBitIfNotInList ticket.type, waiting }
  | .waiting => { lock with granted, waiting := waiting.clearBitIfNotInList ticket.type }

def canGrantLock (lock : MdlLock) (type : MdlType) (requestorCtx : Nat)
    (ignoreLockPriority : Bool) : Bool :=
  let granted := lock.strategy.incompatibleGranted type
  if ignoreLockPriority || lock.waiting.bitmap ∩ lock.strategy.incompatibleWaiting type = ∅ then
    if lock.granted.bitmap ∩ granted = ∅ then true
    else !lock.granted.list.any fun t => t.ctx ≠ requestorCtx ∧ t.type ∈ granted
  else false

end MdlLock

/-- `MDL_savepoint`: the first tickets of the two lists. -/
structure Savepoint where
  stmtTicket : Option Nat
  transTicket : Option Nat
  deriving DecidableEq, Repr

inductive Task
  | acquire
  | upgrade (ticket : Nat) (newType : MdlType) (savepoint : Savepoint)
  deriving DecidableEq, Repr

/-- Where a context is: it waits for a ticket, has found that its wait failed, or has to merge the
new ticket of an upgrade with the old one. -/
inductive Place
  | idle
  | waiting (ticket : Ticket) (duration : Duration) (task : Task)
  | failed (ticket : Ticket)
  | merging (ticket newTicket : Nat) (isNewTicket : Bool) (newType : MdlType)
  deriving DecidableEq, Repr

/-- The lock, and of each context its wait slot, its place and its tickets for the lock, the newest
first. -/
structure State where
  lock : MdlLock
  wait : Nat -> WaitStatus
  place : Nat -> Place
  tickets : Nat -> Duration -> List Nat
  nextId : Nat

namespace State

variable (s : State)

def grant (ticket : Ticket) : State :=
  let lock := s.lock.removeTicket .waiting ticket
  { s with
    wait := update s.wait ticket.ctx .granted
    lock := { lock with
      granted := lock.granted.addTicket ticket
      hogLockCount := if ticket.type ∈ lock.strategy.hogLockTypes then lock.hogLockCount + 1
        else lock.hogLockCount } }

/-- One turn of the loop of `reschedule_waiters`. -/
def rescheduleWaiter (skipHighPriority : Bool) (s : State) (ticket : Ticket) : State :=
  if skipHighPriority ∧ ticket.type ∈ s.lock.strategy.hogLockTypes then s
  else if s.lock.canGrantLock ticket.type ticket.ctx skipHighPriority then
    -- a slot that is not empty stays as it is, and the request waits for its context
    if s.wait ticket.ctx = .empty then s.grant ticket else s
  else s

def skipHighPriority (maxWriteLockCount : Nat) (s : State) : Bool :=
  maxWriteLockCount ≤ s.lock.hogLockCount ∧
    s.lock.waiting.bitmap \ s.lock.strategy.hogLockTypes ≠ ∅

def rescheduleWaiters (maxWriteLockCount : Nat) (s : State) : State :=
  let skip := s.skipHighPriority maxWriteLockCount
  let s := s.lock.waiting.list.foldl (rescheduleWaiter skip) s
  if s.lock.waiting.bitmap \ s.lock.strategy.hogLockTypes = ∅ then
    { s with lock := { s.lock with hogLockCount := 0 } }
  else s

def removeTicket (maxWriteLockCount : Nat) (s : State) (queue : Queue) (ticket : Ticket) : State :=
  let s := { s with lock := s.lock.removeTicket queue ticket }
  if s.lock.isEmpty then s else s.rescheduleWaiters maxWriteLockCount

def ticket? (id : Nat) : Option Ticket := s.lock.granted.list.find? fun t => t.id = id

def durations : Duration -> List Duration
  | .statement => [.statement, .transaction, .explicit]
  | .transaction => [.transaction, .explicit, .statement]
  | .explicit => [.explicit, .statement, .transaction]

def findTicket (c : Nat) (type : MdlType) (duration : Duration) : Option (Nat × Duration) :=
  (durations duration).findSome? fun d =>
    ((s.tickets c d).find? fun id =>
      (s.ticket? id).any fun t => s.lock.strategy.hasStrongerOrEqualType t.type type).map (·, d)

def savepoint (c : Nat) : Savepoint :=
  ⟨(s.tickets c .statement).head?, (s.tickets c .transaction).head?⟩

def hasLock (c : Nat) (savepoint : Savepoint) (id : Nat) : Bool :=
  !(((s.tickets c .statement).takeWhile fun i => some i ≠ savepoint.stmtTicket).contains id ||
    ((s.tickets c .transaction).takeWhile fun i => some i ≠ savepoint.transTicket).contains id)

/-- `m_tickets[duration].push_front`. -/
def pushTicket (c : Nat) (duration : Duration) (id : Nat) : State :=
  { s with
    tickets := update s.tickets c
      (update (s.tickets c) duration (id :: s.tickets c duration)) }

/-- `m_tickets[duration].remove`. -/
def dropTicket (c : Nat) (duration : Duration) (id : Nat) : State :=
  { s with
    tickets := update s.tickets c
      (update (s.tickets c) duration ((s.tickets c duration).filter (· ≠ id))) }

def addGranted (c : Nat) (type : MdlType) (duration : Duration) : State :=
  { s with
    lock := { s.lock with granted := s.lock.granted.addTicket ⟨s.nextId, c, type⟩ }
    nextId := s.nextId + 1 }.pushTicket c duration s.nextId

/-- `try_acquire_lock_impl`: the ticket of the request, or the new one that has to wait. -/
def tryAcquireLockImpl (c : Nat) (type : MdlType) (duration : Duration) : State × (Nat ⊕ Ticket) :=
  match s.findTicket c type duration with
  | some (id, found) =>
    -- the clone of a ticket is granted as it is
    if found ≠ duration ∨ duration = .explicit then
      (s.addGranted c type duration, .inl s.nextId)
    else (s, .inl id)
  | none =>
    if s.lock.canGrantLock type c false then (s.addGranted c type duration, .inl s.nextId)
    else ({ s with nextId := s.nextId + 1 }, .inr ⟨s.nextId, c, type⟩)

def moveTo (c : Nat) (place : Place) : State :=
  { s with place := update s.place c place }

def acquired (c : Nat) (id : Nat) : Task -> State
  | .acquire => s.moveTo c .idle
  | .upgrade ticket newType savepoint =>
    s.moveTo c (.merging ticket id (!s.hasLock c savepoint id) newType)

/-- The first part of `acquire_lock`, up to the wait. -/
def acquireLock (c : Nat) (type : MdlType) (duration : Duration) (task : Task) : State :=
  match s.tryAcquireLockImpl c type duration with
  | (s, .inl id) => s.acquired c id task
  | (s, .inr ticket) =>
    { s with
      lock := { s.lock with waiting := s.lock.waiting.addTicket ticket }
      wait := update s.wait c .empty }.moveTo c (.waiting ticket duration task)

/-- A ticket is taken out of the granted ones and put back with another type. -/
def retype (ticket : Ticket) (type : MdlType) : State :=
  let lock := s.lock.removeTicket .granted ticket
  { s with lock := { lock with granted := lock.granted.addTicket { ticket with type } } }

/-- The merge at the end of `upgrade_shared_lock`. -/
def merge (c : Nat) (ticket newTicket : Ticket) (isNewTicket : Bool) (newType : MdlType) : State :=
  let s := if isNewTicket then
      { s with lock := s.lock.removeTicket .granted newTicket }.dropTicket c .transaction
        newTicket.id
    else s
  (s.retype ticket newType).moveTo c .idle

end State

inductive Action
  | tryAcquireLock (c : Nat) (type : MdlType) (duration : Duration)
  | acquireLock (c : Nat) (type : MdlType) (duration : Duration)
  | cloneTicket (c : Nat) (source : Nat) (type : MdlType) (duration : Duration)
  | upgradeSharedLock (c : Nat) (ticket : Nat) (newType : MdlType)
  | mergeTickets (c : Nat)
  | downgradeLock (c : Nat) (ticket : Nat) (type : MdlType)
  | releaseLock (c : Nat) (duration : Duration) (ticket : Nat)
  /-- A search for deadlocks has chosen the context. -/
  | victim (c : Nat)
  /-- The wait of the context is closed by itself. -/
  | killed (c : Nat)
  | timeout (c : Nat)
  /-- The context has seen the status in its slot. -/
  | wakeUp (c : Nat)
  /-- A short wait is over, the slot is empty and the client is gone. -/
  | disconnected (c : Nat)
  /-- The end of an `acquire_lock` that failed. -/
  | giveUp (c : Nat)
  /-- The slot of a context that does not wait for this lock. -/
  | elsewhere (c : Nat) (status : WaitStatus)
  /-- An empty lock is given back, and the next lock is made from an old one. -/
  | recycle (hogLockCount : Nat)
  deriving Repr

def State.own? (s : State) (c : Nat) (id : Nat) : Option Ticket :=
  if (State.durations .statement).any (fun d => id ∈ s.tickets c d) then s.ticket? id else none

/-- One step; `none` if the context is not at the place for it, or if an assertion fails. -/
def step (maxWriteLockCount : Nat) (s : State) : Action -> Option State
  | .tryAcquireLock c type duration =>
    if s.place c = .idle then some (s.tryAcquireLockImpl c type duration).1 else none
  | .acquireLock c type duration =>
    if s.place c = .idle then some (s.acquireLock c type duration .acquire) else none
  | .cloneTicket c source type duration => do
    let ticket ← s.ticket? source
    if s.place c = .idle ∧ s.lock.strategy.hasStrongerOrEqualType ticket.type type then
      some (s.addGranted c type duration)
    else none
  | .upgradeSharedLock c id newType => do
    let ticket ← s.own? c id
    if s.place c = .idle then
      if s.lock.strategy.hasStrongerOrEqualType ticket.type newType then some s
      else if ticket.type ∈
          [MdlType.sharedUpgradable, .sharedNoWrite, .sharedNoReadWrite] then
        some (s.acquireLock c newType .transaction (.upgrade id newType (s.savepoint c)))
      else none
    else none
  | .mergeTickets c =>
    match s.place c with
    | .merging id newId isNewTicket newType => do
      let ticket ← s.own? c id
      let newTicket ← s.own? c newId
      some (s.merge c ticket newTicket isNewTicket newType)
    | _ => none
  | .downgradeLock c id type => do
    let ticket ← s.own? c id
    if s.place c = .idle then
      if ticket.type = type ∨ ¬ s.lock.strategy.hasStrongerOrEqualType ticket.type type then some s
      else if ticket.type ∈ [MdlType.exclusive, .sharedNoWrite] then
        some ((s.retype ticket type).rescheduleWaiters maxWriteLockCount)
      else none
    else none
  | .releaseLock c duration id =>
    if s.place c = .idle ∧ id ∈ s.tickets c duration then do
      let ticket ← s.ticket? id
      some ((s.removeTicket maxWriteLockCount .granted ticket).dropTicket c duration id)
    else none
  | .victim c =>
    if s.wait c = .empty then some { s with wait := update s.wait c .victim } else some s
  | .killed c =>
    match s.place c with
    | .waiting .. =>
      if s.wait c = .empty then some { s with wait := update s.wait c .killed } else none
    | _ => none
  | .timeout c =>
    match s.place c with
    | .waiting .. =>
      if s.wait c = .empty then some { s with wait := update s.wait c .timeout } else none
    | _ => none
  | .wakeUp c =>
    match s.place c with
    | .waiting ticket duration task =>
      if s.wait c = .granted then
        some ((s.pushTicket c duration ticket.id).acquired c ticket.id task)
      else if s.wait c = .empty then none
      else some (s.moveTo c (.failed ticket))
    | _ => none
  | .disconnected c =>
    match s.place c with
    | .waiting ticket _ _ =>
      if s.wait c = .empty then some (s.moveTo c (.failed ticket)) else none
    | _ => none
  | .giveUp c =>
    match s.place c with
    | .failed ticket => some ((s.removeTicket maxWriteLockCount .waiting ticket).moveTo c .idle)
    | _ => none
  | .elsewhere c status =>
    if s.place c = .idle then some { s with wait := update s.wait c status } else none
  | .recycle hogLockCount =>
    if s.lock.isEmpty then some { s with lock := { s.lock with hogLockCount } } else none

def initial (strategy : Strategy) (hogLockCount : Nat) (wait : Nat -> WaitStatus) : State where
  lock := ⟨strategy, ⟨[], ∅⟩, ⟨[], ∅⟩, hogLockCount⟩
  wait := wait
  place := fun _ => .idle
  tickets := fun _ _ => []
  nextId := 0

inductive Reachable (maxWriteLockCount : Nat) (cond : State -> Action -> Prop) : State -> Prop
  | initial (strategy : Strategy) (hogLockCount : Nat) (wait : Nat -> WaitStatus) :
      Reachable maxWriteLockCount cond (initial strategy hogLockCount wait)
  | step {s s' : State} {action : Action} : Reachable maxWriteLockCount cond s -> cond s action ->
      step maxWriteLockCount s action = some s' -> Reachable maxWriteLockCount cond s'

def run (maxWriteLockCount : Nat) (s : State) : List Action -> Option State
  | [] => some s
  | action :: actions => do
    let s ← step maxWriteLockCount s action
    run maxWriteLockCount s actions

lemma Reachable.run {maxWriteLockCount : Nat} {cond : State -> Action -> Prop} {s s' : State}
    {actions : List Action} (hs : Reachable maxWriteLockCount cond s)
    (hcond : ∀ action ∈ actions, ∀ s, cond s action)
    (hrun : run maxWriteLockCount s actions = some s') : Reachable maxWriteLockCount cond s' := by
  induction actions generalizing s with
  | nil =>
    cases hrun
    exact hs
  | cons action actions ih =>
    simp only [Mdl.run, bind_eq_some] at hrun
    obtain ⟨next, hstep, hrun⟩ := hrun
    exact ih (hs.step (hcond action (List.mem_cons_self ..) s) hstep)
      (fun a ha => hcond a (List.mem_cons_of_mem _ ha)) hrun

lemma Reachable.of_run {maxWriteLockCount : Nat} {cond : State -> Action -> Prop}
    {strategy : Strategy} {hogLockCount : Nat} {wait : Nat -> WaitStatus} {actions : List Action}
    (p : State -> Prop) [DecidablePred p] (hcond : ∀ action ∈ actions, ∀ s, cond s action)
    (hrun : (Mdl.run maxWriteLockCount (Mdl.initial strategy hogLockCount wait) actions).any
      (fun s => p s) = true) : ∃ s, Reachable maxWriteLockCount cond s ∧ p s := by
  cases hfinal : Mdl.run maxWriteLockCount (Mdl.initial strategy hogLockCount wait) actions with
  | none =>
    rw [hfinal] at hrun
    cases hrun
  | some s =>
    rw [hfinal, Option.any_some, decide_eq_true_eq] at hrun
    exact ⟨s, (Reachable.initial ..).run hcond hfinal, hrun⟩

end Mdl
