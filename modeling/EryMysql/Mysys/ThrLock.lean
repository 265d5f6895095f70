import Mathlib.Data.List.Basic

/-!
# Table locks

mysys/thr_lock.c: one `THR_LOCK` with its four lists. A request is granted at once or waits in a
list; a lock that is released, and a wait that ends without a lock, wake up the requests that can be
granted then. Each function runs under the mutex of the lock and is one step; a request that waits
stays in its list until it is granted, times out or is aborted.

`TL_WRITE_DELAYED` and the types that only the parser uses are left out, and so are the callbacks
that store the status of a table. What `check_status` answers is part of a step.
-/

namespace Mysys

inductive ThrLockType
  | read
  | readWithSharedLocks
  | readHighPriority
  | readNoInsert
  | writeAllowWrite
  | writeConcurrentInsert
  | writeLowPriority
  | write
  | writeOnly
  deriving DecidableEq, Repr

/-- The numbers of the types; 8 is `TL_WRITE_DELAYED`. -/
def ThrLockType.rank : ThrLockType -> Nat
  | .read => 2
  | .readWithSharedLocks => 3
  | .readHighPriority => 4
  | .readNoInsert => 5
  | .writeAllowWrite => 6
  | .writeConcurrentInsert => 7
  | .writeLowPriority => 10
  | .write => 11
  | .writeOnly => 12

structure ThrLockData where
  id : Nat
  owner : Nat
  type : ThrLockType
  deriving DecidableEq, Repr

structure ThrLock where
  readWait : List ThrLockData
  read : List ThrLockData
  writeWait : List ThrLockData
  write : List ThrLockData
  writeLockCount : Nat
  readNoWriteCount : Nat
  deriving DecidableEq, Repr

/-- What does not change: whether there is a `check_status`, `allow_multiple_concurrent_insert`,
the option that sets `thr_upgraded_concurrent_insert_lock`, and `max_write_lock_count`. -/
structure ThrLockSetup where
  checksStatus : Bool
  allowMultipleConcurrentInsert : Bool
  lowPriorityUpdates : Bool
  maxWriteLockCount : Nat
  deriving Repr

/-- `thr_upgraded_concurrent_insert_lock`. -/
def ThrLockSetup.upgradedConcurrentInsertLock (setup : ThrLockSetup) : ThrLockType :=
  if setup.lowPriorityUpdates then .writeLowPriority else .write

inductive ThrLockResult
  | success
  | aborted
  | waits
  deriving DecidableEq, Repr

namespace ThrLock

def hasOldLock (l : List ThrLockData) (owner : Nat) : Bool := l.any fun d => d.owner = owner

variable (s : ThrLock)

def freeAllReadLocks (usingConcurrentInsert : Bool) : ThrLock :=
  let stays (d : ThrLockData) := d.type = .readNoInsert ∧ usingConcurrentInsert = true
  let freed := s.readWait.filter fun d => ¬stays d
  let readWait := s.readWait.filter fun d => stays d
  { s with
    read := s.read ++ freed
    readWait := readWait
    readNoWriteCount := s.readNoWriteCount + freed.countP fun d => d.type = .readNoInsert
    writeLockCount := if readWait = [] then 0 else s.writeLockCount }

/-- A concurrent insert that cannot be one becomes a `TL_WRITE`. -/
def upgrade (checkStatus : Nat -> Bool) (d : ThrLockData) : ThrLockData :=
  if d.type = .writeConcurrentInsert ∧ checkStatus d.id = true then { d with type := .write } else d

/-- The loop of `wake_up_waiters` for a table without locks: the waiting write lock, and those for
`TL_WRITE_ALLOW_WRITE` that follow such a one. The last type is returned with the lists. -/
def releaseWriters (checkStatus : Nat -> Bool) (write : List ThrLockData) (d : ThrLockData) :
    List ThrLockData -> List ThrLockData × List ThrLockData × ThrLockType
  | [] => (write ++ [upgrade checkStatus d], [], (upgrade checkStatus d).type)
  | next :: rest =>
    if (upgrade checkStatus d).type ≠ .writeAllowWrite ∨ next.type ≠ .writeAllowWrite then
      (write ++ [upgrade checkStatus d], next :: rest, (upgrade checkStatus d).type)
    else releaseWriters checkStatus (write ++ [upgrade checkStatus d]) next rest

def startWriters (lockType : ThrLockType) (write : List ThrLockData) (d : ThrLockData) :
    List ThrLockData -> List ThrLockData × List ThrLockData
  | [] => (write ++ [d], [])
  | next :: rest =>
    if lockType = .writeAllowWrite ∧ next.type = .writeAllowWrite then
      startWriters lockType (write ++ [d]) next rest
    else (write ++ [d], next :: rest)

/-- The types that let `TL_READ_NO_INSERT` wait. -/
def insertsConcurrently (type : ThrLockType) : Bool :=
  type = .writeConcurrentInsert ∨ type = .writeAllowWrite

variable (setup : ThrLockSetup)

/-- `wake_up_waiters` for a table without locks. -/
def wakeUpUnlocked (checkStatus : Nat -> Bool) (s : ThrLock) : ThrLock :=
  let freeReaders (s : ThrLock) (type : Option ThrLockType) : ThrLock :=
    if s.readWait = [] then s else s.freeAllReadLocks (type.any insertsConcurrently)
  match s.writeWait with
  | [] => freeReaders s none
  | d :: rest =>
    if d.type ≠ .writeLowPriority ∨
        (∀ r ∈ s.readWait.head?, r.type.rank < ThrLockType.readHighPriority.rank) then
      let tooMany := setup.maxWriteLockCount < s.writeLockCount
      let s := { s with writeLockCount := if tooMany then 0 else s.writeLockCount + 1 }
      if tooMany ∧ s.readWait ≠ [] then s.freeAllReadLocks false
      else
        let (write, writeWait, type) := releaseWriters checkStatus s.write d rest
        let s := { s with write := write, writeWait := writeWait }
        if ThrLockType.writeLowPriority.rank ≤ type.rank then s else freeReaders s (some type)
    else freeReaders s (some d.type)

/-- `wake_up_waiters` for a table with read locks only. -/
def wakeUpReadLocked (checkStatus : Nat -> Bool) (s : ThrLock) : ThrLock :=
  let freeReaders (s : ThrLock) (usingConcurrentInsert : Bool) : ThrLock :=
    if s.readWait = [] then s else s.freeAllReadLocks usingConcurrentInsert
  match s.writeWait with
  | [] => freeReaders s false
  | d :: rest =>
    if d.type.rank ≤ 8 ∧ (insertsConcurrently d.type = false ∨ s.readNoWriteCount = 0) then
      if d.type = .writeConcurrentInsert ∧ checkStatus d.id = true then
        freeReaders { s with writeWait := { d with type := .write } :: rest } false
      else
        let (write, writeWait) := startWriters d.type s.write d rest
        freeReaders { s with write := write, writeWait := writeWait } (insertsConcurrently d.type)
    else s

def wakeUpWaiters (checkStatus : Nat -> Bool) (s : ThrLock) : ThrLock :=
  if s.write ≠ [] then s
  else if s.read = [] then s.wakeUpUnlocked setup checkStatus
  else s.wakeUpReadLocked checkStatus

def addRead (d : ThrLockData) : ThrLock :=
  { s with
    read := s.read ++ [d]
    readNoWriteCount := if d.type = .readNoInsert then s.readNoWriteCount + 1 else s.readNoWriteCount }

def lockRead (d : ThrLockData) : ThrLock × ThrLockResult :=
  match s.write with
  | w :: _ =>
    if d.owner = w.owner ∨ (w.type.rank ≤ 8 ∧
        (d.type.rank ≤ ThrLockType.readHighPriority.rank ∨ w.type ≠ .writeConcurrentInsert)) then
      (s.addRead d, .success)
    else if w.type = .writeOnly then (s, .aborted)
    else ({ s with readWait := s.readWait ++ [d] }, .waits)
  | [] =>
    if (∀ w ∈ s.writeWait.head?, w.type.rank ≤ ThrLockType.writeLowPriority.rank) ∨
        d.type = .readHighPriority ∨ hasOldLock s.read d.owner = true then
      (s.addRead d, .success)
    else ({ s with readWait := s.readWait ++ [d] }, .waits)

/-- The assertion that an owner does not ask for a stronger lock than the first write lock. -/
def notStronger (w : ThrLockData) (type : ThrLockType) : Prop :=
  type.rank ≤ w.type.rank ∨ (type = .write ∧ w.type = .writeLowPriority)

instance (w : ThrLockData) (type : ThrLockType) : Decidable (notStronger w type) :=
  inferInstanceAs (Decidable (_ ∨ _))

/-- A write lock beside write locks of other owners. -/
def sharesWrite (s : ThrLock) (w : ThrLockData) (type : ThrLockType) : Prop :=
  (type = .writeAllowWrite ∨ (type = .writeConcurrentInsert ∧
      setup.allowMultipleConcurrentInsert = true ∧ s.readNoWriteCount = 0)) ∧
    s.writeWait = [] ∧ w.type = type ∧ s.readNoWriteCount = 0

instance (setup : ThrLockSetup) (s : ThrLock) (w : ThrLockData) (type : ThrLockType) :
    Decidable (s.sharesWrite setup w type) :=
  inferInstanceAs (Decidable (_ ∧ _))

def besideReads (type : ThrLockType) : Prop :=
  s.read = [] ∨ (type.rank ≤ 8 ∧ (insertsConcurrently type = false ∨ s.readNoWriteCount = 0))

instance (s : ThrLock) (type : ThrLockType) : Decidable (s.besideReads type) :=
  inferInstanceAs (Decidable (_ ∨ _))

/-- The type of a write request: a concurrent insert needs a `check_status`. -/
def requestedType (type : ThrLockType) : ThrLockType :=
  if type = .writeConcurrentInsert ∧ setup.checksStatus = false then
    setup.upgradedConcurrentInsertLock
  else type

/-- `thr_lock` for a write lock; `none` if an assertion fails. -/
def lockWrite (checkStatus : Nat -> Bool) (s : ThrLock) (d : ThrLockData) :
    Option (ThrLock × ThrLockResult) :=
  let type := requestedType setup d.type
  match s.write with
  | w :: _ =>
    if w.type = .writeOnly ∧ d.owner ≠ w.owner then some (s, .aborted)
    else if hasOldLock s.write d.owner = true ∧ ¬notStronger w type then none
    else if s.sharesWrite setup w type ∨ hasOldLock s.write d.owner = true then
      some ({ s with write := s.write ++ [{ d with type := type }] }, .success)
    else some ({ s with writeWait := s.writeWait ++ [{ d with type := type }] }, .waits)
  | [] =>
    if s.writeWait = [] then
      let type := if type = .writeConcurrentInsert ∧ checkStatus d.id = true then
        setup.upgradedConcurrentInsertLock else type
      if s.besideReads type then some ({ s with write := [{ d with type := type }] }, .success)
      else some ({ s with writeWait := [{ d with type := type }] }, .waits)
    else some ({ s with writeWait := s.writeWait ++ [{ d with type := type }] }, .waits)

def thrLock (checkStatus : Nat -> Bool) (s : ThrLock) (d : ThrLockData) :
    Option (ThrLock × ThrLockResult) :=
  if d.type.rank ≤ ThrLockType.readNoInsert.rank then some (s.lockRead d)
  else s.lockWrite setup checkStatus d

/-- `thr_unlock` up to the call of `wake_up_waiters`. -/
def remove (d : ThrLockData) : ThrLock :=
  { s with
    read := s.read.erase d
    write := s.write.erase d
    readNoWriteCount := if d.type = .readNoInsert then s.readNoWriteCount - 1 else s.readNoWriteCount }

end ThrLock

/-- What threads do with a lock: a request, the release of a lock, a wait that ends by a time-out or
a kill, `thr_abort_locks` without an upgrade, and `thr_abort_locks_for_thread`. -/
inductive ThrLockAction
  | lock (d : ThrLockData)
  | unlock (d : ThrLockData)
  | giveUp (d : ThrLockData)
  | abortLocks
  | abortLocksForThread (owner : Nat)
  deriving Repr

namespace ThrLock

/-- One step, with the answers of `check_status`; `none` if an assertion fails or if there is no
such lock. -/
def step (setup : ThrLockSetup) (checkStatus : Nat -> Bool) (s : ThrLock) :
    ThrLockAction -> Option ThrLock
  | .lock d => (s.thrLock setup checkStatus d).map Prod.fst
  | .unlock d =>
    if d ∈ s.read ++ s.write then some ((s.remove d).wakeUpWaiters setup checkStatus) else none
  | .giveUp d =>
    if d ∈ s.readWait ++ s.writeWait then
      some (wakeUpWaiters setup checkStatus
        { s with readWait := s.readWait.erase d, writeWait := s.writeWait.erase d })
    else none
  | .abortLocks => some { s with readWait := [], writeWait := [] }
  | .abortLocksForThread owner =>
    some (wakeUpWaiters setup checkStatus { s with
      readWait := s.readWait.filter fun d => d.owner ≠ owner
      writeWait := s.writeWait.filter fun d => d.owner ≠ owner })

def init : ThrLock := ⟨[], [], [], [], 0, 0⟩

inductive Reachable (setup : ThrLockSetup) (cond : ThrLock -> ThrLockAction -> Prop) : ThrLock -> Prop
  | init : Reachable setup cond init
  | step {s s' : ThrLock} {action : ThrLockAction} (checkStatus : Nat -> Bool) :
    Reachable setup cond s -> cond s action -> s.step setup checkStatus action = some s' ->
    Reachable setup cond s'

def run (setup : ThrLockSetup) (s : ThrLock) : List ThrLockAction -> Option ThrLock
  | [] => some s
  | action :: actions => do
    let s ← s.step setup (fun _ => false) action
    s.run setup actions

end ThrLock

end Mysys
