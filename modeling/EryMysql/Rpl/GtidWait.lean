import EryMysql.Mysys.QueueRuns
import EryMysql.Rpl.SlaveState

/-!
# MASTER_GTID_WAIT

`gtid_waiting::wait_for_gtid` of sql/rpl_gtid.cc for the waiters of one domain. A waiter is
registered in the queue of the domain until it is done. One waiter at a time does the small
wait, for which it is known to the slave state; the others wait for a waiter to wake them.
A waiter with `do_small_wait` has to see to it that somebody does the small wait.

What a waiter does between two acquisitions of a lock is one step. `LOCK_slave_state` is
free between the steps. `LOCK_gtid_waiting` is kept by a waiter that is about to take
`LOCK_slave_state` as well. Waits may end at any time, with a timeout or without.
-/

namespace Rpl.GtidWait

open Mysys SlaveState

/-- Where a waiter is between its steps: before its start; about to lock `LOCK_slave_state`
for the small wait; in the small wait; about to lock `LOCK_gtid_waiting` again, with the
highest sequence number it saw; in the large wait; at its end. -/
inductive Pc where
  | idle
  | small
  | smallWait
  | relock (wakeupSeqNo : UInt64)
  | largeWait
  | returned (res : Int)
  deriving DecidableEq, Repr

/-- A `queue_element` with the local variables and the kill flag of its thread. The
`wait_seq_no` and the `queue_idx` are in the memory of the queue. -/
structure Waiter where
  pc : Pc
  doSmallWait : Bool
  done : Bool
  timedOut : Bool
  killed : Bool
  deriving DecidableEq, Repr

/-- The slave state, the queue of the domain, the holder of `LOCK_gtid_waiting`, and the
waiters. -/
structure Sys where
  state : State
  queue : Queue Nat UInt64
  lock : Option Nat
  waiters : Nat -> Waiter

def cmpQueueElem (a b : UInt64) : Int := if a < b then -1 else if a = b then 0 else 1

variable (s : Sys)

def Sys.modify (w : Nat) (f : Waiter -> Waiter) : Sys :=
  { s with waiters := Function.update s.waiters w (f (s.waiters w)) }

def promoteNewWaiter : Sys :=
  if s.queue.elements = 0 then s
  else s.modify (s.queue.root 1) fun x => { x with doSmallWait := true }

/-- The loop of `process_wait_hash`; each turn takes an element from the queue. -/
def processLoop (wakeupSeqNo : UInt64) : Nat -> Sys -> Option Sys
  | 0, s => some s
  | fuel + 1, s =>
    if s.queue.elements = 0 then some s
    else
      let qe := s.queue.root 1
      if s.queue.key qe > wakeupSeqNo then some s
      else if (s.waiters qe).done then none
      else do
        let (queue, _) ← s.queue.queueRemoveTop cmpQueueElem
        processLoop wakeupSeqNo fuel
          ({ s with queue }.modify qe fun x => { x with done := true })

def processWaitHash (wakeupSeqNo : UInt64) (s : Sys) : Option Sys :=
  processLoop wakeupSeqNo s.queue.elements s

def removeFromWaitQueue (w : Nat) : Option Sys := do
  let (queue, _) ← s.queue.queueRemove cmpQueueElem (s.queue.queuePos w)
  return { s with queue }

def abort (w : Nat) : Option Sys :=
  let x := s.waiters w
  if (x.killed || x.timedOut) && !x.done then do
    return (← removeFromWaitQueue s w).modify w fun x => { x with done := true }
  else some s

/-- The end of a turn of the loop, under `LOCK_gtid_waiting`: the waiter returns, or goes on
to its next wait. -/
def endTurn (w : Nat) : Option Sys := do
  let s ← abort s w
  let x := s.waiters w
  if x.done then
    let s := if x.doSmallWait then promoteNewWaiter s else s
    return { s with lock := none }.modify w fun x =>
      { x with pc := .returned (if x.timedOut then -1 else 0) }
  else if x.doSmallWait then
    return { s with lock := some w }.modify w fun x => { x with pc := .small }
  else return { s with lock := none }.modify w fun x => { x with pc := .largeWait }

/-- A new waiter, up to its first wait or to `LOCK_slave_state`. The two flags tell whether
there is memory for the entry of the domain and for the queue. -/
def start (w : Nat) (seqNo : UInt64) (entryMemory queueMemory : Bool) : Option Sys :=
  if !entryMemory then some (s.modify w fun x => { x with pc := .returned 1 })
  else do
    let q := s.queue.setKey w seqNo
    let small : Bool := q.elements = 0 || q.key (q.root 1) > seqNo
    let (queue, err) ← q.queueInsertSafe cmpQueueElem queueMemory w
    if err ≠ 0 then return s.modify w fun x => { x with pc := .returned 1 }
    else
      let s := { s with queue }.modify w fun x =>
        { x with doSmallWait := small, done := false, timedOut := false }
      if small then return { s with lock := some w }.modify w fun x => { x with pc := .small }
      else endTurn s w

/-- The end of the small wait, still under `LOCK_slave_state`. -/
def smallEnd (d : UInt32) (s : Sys) (w : Nat) : Sys :=
  let e := s.state.elem d
  let s := s.modify w fun x => { x with pc := .relock e.highestSeqNo }
  match e.gtidWaiter with
  | none => s
  | some cur =>
    if cur = w then { s with state := s.state.put { e with gtidWaiter := none } }
    else if e.minWaitSeqNo ≤ s.queue.key w then s.modify w fun x => { x with doSmallWait := false }
    else s

/-- The waiter locks `LOCK_slave_state` to do the small wait. -/
def smallLock (d : UInt32) (env : Env) (s : Sys) (w : Nat) : Option Sys :=
  let seqNo := s.queue.key w
  match getElement env s.state d with
  | none => do
    let s := promoteNewWaiter (← removeFromWaitQueue s w)
    return { s with lock := none }.modify w fun x => { x with pc := .returned 1 }
  | some (state, e) =>
    let s := { s with state }
    if e.highestSeqNo ≥ seqNo then do endTurn (← processWaitHash e.highestSeqNo s) w
    else if e.gtidWaiter ≠ none ∧ e.minWaitSeqNo ≤ seqNo then do
      let s := s.modify w fun x => { x with doSmallWait := false }
      endTurn (← processWaitHash e.highestSeqNo s) w
    else
      let s := { s with
        state := s.state.put { e with gtidWaiter := some w, minWaitSeqNo := seqNo }
        lock := none }
      if (s.waiters w).killed then some (smallEnd d s w)
      else some (s.modify w fun x => { x with pc := .smallWait })

/-- The small wait is interrupted. Unless it timed out or is killed, a waiter that is still
known to the slave state goes on waiting. -/
def smallWake (d : UInt32) (s : Sys) (w : Nat) (timeout : Bool) : Sys :=
  if timeout then smallEnd d (s.modify w fun x => { x with timedOut := true }) w
  else if (s.state.elem d).gtidWaiter = some w ∧ (s.waiters w).killed = false then s
  else smallEnd d s w

inductive Op where
  | start (w : Nat) (seqNo : UInt64) (entryMemory queueMemory : Bool)
  | smallLock (env : Env) (w : Nat)
  | smallWake (w : Nat) (timeout : Bool)
  | relock (w : Nat)
  | largeWake (w : Nat) (timeout : Bool)
  | kill (w : Nat)
  | update (env : Env) (alloc : Bool) (gtid : Gtid) (subId : UInt64)

/-- A step that a waiter cannot take where it is, or for which it would have to wait for
`LOCK_gtid_waiting`, changes nothing. -/
def step (d : UInt32) (s : Sys) : Op -> Option Sys
  | .start w seqNo entryMemory queueMemory =>
    if (s.waiters w).pc = .idle ∧ s.lock = none then start s w seqNo entryMemory queueMemory
    else some s
  | .smallLock env w => if (s.waiters w).pc = .small then smallLock d env s w else some s
  | .smallWake w timeout =>
    if (s.waiters w).pc = .smallWait then some (smallWake d s w timeout) else some s
  | .relock w =>
    match (s.waiters w).pc with
    | .relock wakeupSeqNo =>
      if s.lock = none then do endTurn (← processWaitHash wakeupSeqNo s) w else some s
    | _ => some s
  | .largeWake w timeout =>
    if (s.waiters w).pc = .largeWait ∧ s.lock = none then
      endTurn (s.modify w fun x => { x with timedOut := x.timedOut || timeout }) w
    else some s
  | .kill w =>
    match (s.waiters w).pc with
    | .returned _ => some s
    | _ => some (s.modify w fun x => { x with killed := true })
  | .update env alloc gtid subId => do
    let (state, _, _) ← SlaveState.update env alloc s.state gtid subId none
    return { s with state }

def init (state : State) (root queuePos : Nat -> Nat) (key : Nat -> UInt64) : Sys where
  state
  queue := (initQueue 8 1 false true root key queuePos).queue
  lock := none
  waiters := fun _ => ⟨.idle, false, false, false, false⟩

end Rpl.GtidWait
