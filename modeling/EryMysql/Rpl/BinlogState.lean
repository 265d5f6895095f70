import EryMysql.Lib.KeyedList

/-!
# The state of the binary log

`rpl_binlog_state` of sql/rpl_gtid.cc: for every replication domain the last
sequence number binlogged by each server, the most recent of these entries, and
the counter from which new sequence numbers are taken. Each call below runs under
`LOCK_binlog_state`, so it is one step.

The two levels of `HASH` are lists of records in the order of their arrays. What an
insertion does to that order, and whether memory can be had for it, is up to the
environment of the call.
-/

namespace Rpl

open KeyedList

structure Gtid where
  domainId : UInt32
  serverId : UInt32
  seqNo : UInt64
  deriving DecidableEq, Repr

/-- What a call finds around it: memory, and where the tables put new records. -/
structure Env where
  memory : Bool
  order : Order

/-- The errors that are reported with `my_error`. -/
inductive GtidError where
  | strictOutOfOrder (gtid last : Gtid)
  | outOfResources
  deriving DecidableEq, Repr

/-- One domain. `lastGtid` points to a record of `hash`, named here by its key. -/
structure Element where
  domainId : UInt32
  hash : List Gtid
  lastGtid : Option UInt32
  seqNoCounter : UInt64
  deriving DecidableEq, Repr

abbrev BinlogState := List Element

def Element.last (e : Element) : Option Gtid := e.lastGtid.bind (lookup Gtid.serverId e.hash)

def Element.raiseCounter (e : Element) (seqNo : UInt64) : Element :=
  if e.seqNoCounter < seqNo then { e with seqNoCounter := seqNo } else e

variable (env : Env)

def Element.updateElement (e : Element) (gtid : Gtid) : Option Element :=
  match e.last with
  | some last =>
    if last.serverId = gtid.serverId then
      some { e with hash := replace Gtid.serverId e.hash { last with seqNo := gtid.seqNo } }
    else search
  | none => search
where
  search : Option Element :=
    match lookup Gtid.serverId e.hash gtid.serverId with
    | some found =>
      some { e with
        hash := replace Gtid.serverId e.hash { found with seqNo := gtid.seqNo }
        lastGtid := some found.serverId }
    | none =>
      if env.memory then
        some { e with
          hash := env.order.insert Gtid.serverId e.hash gtid
          lastGtid := some gtid.serverId }
      else none

def allocElementNolock (st : BinlogState) (gtid : Gtid) : Option BinlogState :=
  if env.memory then
    some (env.order.insert Element.domainId st
      ⟨gtid.domainId, env.order.insert Gtid.serverId [] gtid, some gtid.serverId, gtid.seqNo⟩)
  else none

def updateNolock (st : BinlogState) (gtid : Gtid) (strict : Bool) :
    BinlogState × Option GtidError :=
  match lookup Element.domainId st gtid.domainId with
  | some elem =>
    match elem.last with
    | some last =>
      if strict ∧ gtid.seqNo ≤ last.seqNo then (st, some (.strictOutOfOrder gtid last))
      else accept elem
    | none => accept elem
  | none =>
    match allocElementNolock env st gtid with
    | some st' => (st', none)
    | none => (st, some .outOfResources)
where
  accept (elem : Element) : BinlogState × Option GtidError :=
    let elem := elem.raiseCounter gtid.seqNo
    match elem.updateElement env gtid with
    | some elem' => (replace Element.domainId st elem', none)
    | none => (replace Element.domainId st elem, some .outOfResources)

def update (st : BinlogState) (gtid : Gtid) (strict : Bool) : BinlogState × Option GtidError :=
  updateNolock env st gtid strict

def updateWithNextGtid (st : BinlogState) (domainId serverId : UInt32) :
    BinlogState × Gtid × Option GtidError :=
  match lookup Element.domainId st domainId with
  | some elem =>
    let elem := { elem with seqNoCounter := elem.seqNoCounter + 1 }
    let gtid : Gtid := ⟨domainId, serverId, elem.seqNoCounter⟩
    match elem.updateElement env gtid with
    | some elem' => (replace Element.domainId st elem', gtid, none)
    | none => (replace Element.domainId st elem, gtid, some .outOfResources)
  | none =>
    let gtid : Gtid := ⟨domainId, serverId, 1⟩
    match allocElementNolock env st gtid with
    | some st' => (st', gtid, none)
    | none => (st, gtid, some .outOfResources)

/-- Returns `true` when there is no memory for a new element. -/
def bumpSeqNoIfNeeded (st : BinlogState) (domainId : UInt32) (seqNo : UInt64) :
    BinlogState × Bool :=
  match lookup Element.domainId st domainId with
  | some elem => (replace Element.domainId st (elem.raiseCounter seqNo), false)
  | none =>
    if env.memory then
      (env.order.insert Element.domainId st ⟨domainId, [], none, seqNo⟩, false)
    else (st, true)

def reset : BinlogState := []

/-- The loop of `load`, each update in its own environment. -/
def updateAll : List (Env × Gtid) -> BinlogState -> BinlogState × Bool
  | [], st => (st, false)
  | (env, gtid) :: list, st =>
    match updateNolock env st gtid false with
    | (st', none) => updateAll list st'
    | (st', some _) => (st', true)

/-- `load` from a list; from a slave position it is a load of the list `iterate` makes. -/
def load (list : List (Env × Gtid)) : BinlogState × Bool := updateAll list reset

def find (st : BinlogState) (domainId serverId : UInt32) : Option Gtid :=
  (lookup Element.domainId st domainId).bind fun elem => lookup Gtid.serverId elem.hash serverId

def findMostRecent (st : BinlogState) (domainId : UInt32) : Option Gtid :=
  (lookup Element.domainId st domainId).bind Element.last

end Rpl
