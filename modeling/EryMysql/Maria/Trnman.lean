import Mathlib.Data.List.Basic
import Mathlib.Algebra.Ring.Nat
import EryMysql.Lib.Partial

/-!
# The transaction manager of Aria

storage/maria/trnman.c: beginning and ending transactions, and the question whether a transaction
can read the rows of another one. What is done under `LOCK_trn_list` is one step, and so is every
access to the hash of transactions and every store outside of the mutex. A `TRN` is known by its
address, and the hash holds addresses, found by the `trid` that is there.

Three fields are not of the program: which transactions have committed, which were rolled back, and
which ones had committed when a transaction was begun.
-/

namespace Maria

open Function

def maxTrid : Nat := 2 ^ 64 - 1

structure Trn where
  trid : Nat
  minReadFrom : Nat
  commitTrid : Nat
  deriving DecidableEq, Repr

/-- Where the thread of an active transaction is: in `trnman_new_trn`, outside of the functions, or
in `trnman_can_read_from`; an answer is kept until the next question. -/
inductive Place
  | created
  | readable
  | initialised
  | running
  | found (trid : Nat) (trn : Nat)
  | answered (trid : Nat) (can : Bool)
  deriving DecidableEq, Repr

/-- The end of `trnman_end_trn`, outside of the mutex: what is to be freed, and whether the first
one is out of the hash. -/
structure Purge where
  freeMe : List Nat
  deleted : Bool
  deriving DecidableEq, Repr

structure State where
  trn : Nat -> Trn
  active : List Nat
  committed : List Nat
  pool : List Nat
  allocated : Nat
  globalTridGenerator : Nat
  tridToTrn : List Nat
  place : Nat -> Place
  purges : List Purge
  finished : List Nat
  rolledBack : List Nat
  snapshot : Nat -> List Nat

namespace State

variable (s : State)

def trid (a : Nat) : Nat := (s.trn a).trid

def minReadFrom (a : Nat) : Nat := (s.trn a).minReadFrom

def commitTrid (a : Nat) : Nat := (s.trn a).commitTrid

def search (trid : Nat) : Option Nat := s.tridToTrn.find? fun a => s.trid a = trid

/-- The address of a new transaction: the first one of the pool, or a new one. -/
def newAddress : Nat := s.pool.headD s.allocated

/-- The part of `trnman_new_trn` under the mutex. -/
def newTrn : State :=
  let a := s.newAddress
  let trid := s.globalTridGenerator + 1
  { s with
    trn := update s.trn a
      { s.trn a with trid, minReadFrom := (s.active.head?.map s.trid).getD 0 }
    active := s.active ++ [a]
    pool := s.pool.tail
    allocated := if s.pool = [] then s.allocated + 1 else s.allocated
    globalTridGenerator := trid
    place := update s.place a .created
    snapshot := update s.snapshot trid s.finished }

def setMinReadFrom (a : Nat) : State :=
  { s with
    trn := update s.trn a { s.trn a with
      minReadFrom := if s.minReadFrom a = 0 then s.trid a + 1 else s.minReadFrom a }
    place := update s.place a .readable }

def setCommitTrid (a : Nat) : State :=
  { s with
    trn := update s.trn a { s.trn a with commitTrid := maxTrid }
    place := update s.place a .initialised }

def insertTrn (a : Nat) : State :=
  { s with
    tridToTrn := s.tridToTrn ++ [a]
    place := update s.place a .running }

/-- `trnman_can_read_from`, up to the search in the hash. -/
def canReadFromSearch (a : Nat) (trid : Nat) : Place :=
  if trid < s.minReadFrom a then .answered trid true
  else if s.trid a ≤ trid then .answered trid (trid = s.trid a)
  else
    match s.search trid with
    | none => .answered trid false
    | some found => .found trid found

/-- Its end, for a transaction that was found. -/
def canReadFromLoad (a found : Nat) : Bool := s.commitTrid found < s.trid a

def canReadFrom (a : Nat) (trid : Nat) : Bool :=
  match s.canReadFromSearch a trid with
  | .found _ found => s.canReadFromLoad a found
  | .answered _ can => can
  | _ => false

/-- The limit for the committed transactions that are freed: `active_list_min.next->min_read_from`
after the transaction was taken out of the active list. -/
def purgeLimit (active : List Nat) : Nat := (active.head?.map s.minReadFrom).getD maxTrid

/-- The part of `trnman_end_trn` under the mutex. -/
def endTrn (a : Nat) (commit : Bool) : State :=
  let active := s.active.filter (· ≠ a)
  let old c := s.commitTrid c < s.purgeLimit active
  let purged := if s.active.head? = some a then s.committed.takeWhile old else []
  let kept := if s.active.head? = some a then s.committed.dropWhile old else s.committed
  let keep := commit ∧ active ≠ []
  { s with
    active
    committed := if keep then kept ++ [a] else kept
    trn := if commit then
        update s.trn a { s.trn a with commitTrid := s.globalTridGenerator }
      else s.trn
    purges := s.purges ++ [⟨if keep then purged else a :: purged, false⟩]
    finished := if commit then s.trid a :: s.finished else s.finished
    rolledBack := if commit then s.rolledBack else s.trid a :: s.rolledBack }

/-- `lf_hash_delete` for the first one of a list to be freed. -/
def deleteTrn (i : Nat) (t : Nat) (rest : List Nat) : State :=
  { s with
    tridToTrn := s.tridToTrn.filter fun a => s.trid a ≠ s.trid t
    purges := s.purges.set i ⟨t :: rest, true⟩ }

def freeTrn (i : Nat) (t : Nat) (rest : List Nat) : State :=
  { s with pool := t :: s.pool, purges := s.purges.set i ⟨rest, false⟩ }

end State

inductive Action
  | newTrn
  | setMinReadFrom (a : Nat)
  | setCommitTrid (a : Nat)
  | insertTrn (a : Nat)
  | search (a : Nat) (trid : Nat)
  | load (a : Nat)
  | endTrn (a : Nat) (commit : Bool)
  | delete (i : Nat)
  | free (i : Nat)
  deriving Repr

def Place.isRunning : Place -> Bool
  | .running => true
  | .answered _ _ => true
  | _ => false

/-- One step; `none` if the thread is not at the place for it, or if an assertion fails. -/
def step (s : State) : Action -> Option State
  | .newTrn => if s.globalTridGenerator < 0xffffffffffff then some s.newTrn else none
  | .setMinReadFrom a =>
    if a ∈ s.active ∧ s.place a = .created then some (s.setMinReadFrom a) else none
  | .setCommitTrid a =>
    if a ∈ s.active ∧ s.place a = .readable then some (s.setCommitTrid a) else none
  | .insertTrn a =>
    if a ∈ s.active ∧ s.place a = .initialised then some (s.insertTrn a) else none
  | .search a trid =>
    if a ∈ s.active ∧ (s.place a).isRunning then
      some { s with place := update s.place a (s.canReadFromSearch a trid) }
    else none
  | .load a =>
    match s.place a with
    | .found trid found =>
      if a ∈ s.active then
        some { s with
          place := update s.place a (.answered trid (s.canReadFromLoad a found)) }
      else none
    | _ => none
  | .endTrn a commit =>
    -- a transaction that could not be put into the hash is rolled back
    if a ∈ s.active ∧ ((s.place a).isRunning ∨ (s.place a = .initialised ∧ commit = false)) then
      some (s.endTrn a commit)
    else none
  | .delete i =>
    match s.purges[i]? with
    | some ⟨t :: rest, false⟩ => some (s.deleteTrn i t rest)
    | _ => none
  | .free i =>
    match s.purges[i]? with
    | some ⟨t :: rest, true⟩ => some (s.freeTrn i t rest)
    | _ => none

def init (initialTrid : Nat) : State where
  trn := fun _ => ⟨0, 0, 0⟩
  active := []
  committed := []
  pool := []
  allocated := 0
  globalTridGenerator := initialTrid
  tridToTrn := []
  place := fun _ => .created
  purges := []
  finished := []
  rolledBack := []
  snapshot := fun _ => []

inductive Steps (s : State) : State -> Prop
  | refl : Steps s s
  | step {s' s'' : State} {action : Action} : Steps s s' -> step s' action = some s'' -> Steps s s''

def run (s : State) : List Action -> Option State
  | [] => some s
  | action :: actions => do
    let s ← step s action
    run s actions

variable {actions : List Action}

lemma Steps.run {s s' s'' : State} (hs : Steps s s')
    (hrun : run s' actions = some s'') : Steps s s'' := by
  induction actions generalizing s' with
  | nil =>
    cases hrun
    exact hs
  | cons action actions ih =>
    simp only [Maria.run, bind_eq_some] at hrun
    obtain ⟨next, hstep, hrun⟩ := hrun
    exact ih (hs.step hstep) hrun

lemma steps_of_run {s : State} (h : (run s actions).isSome = true) :
    Steps s ((run s actions).getD s) := by
  cases hrun : run s actions with
  | none =>
    rw [hrun] at h
    cases h
  | some s' => exact Steps.run .refl hrun

end Maria
