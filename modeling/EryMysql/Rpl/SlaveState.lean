import EryMysql.Lib.Machine
import EryMysql.Rpl.BinlogState

/-!
# The state of the replication slave

`rpl_slave_state` of sql/rpl_gtid.cc: for every domain the list of GTIDs whose rows are in
`mysql.gtid_slave_pos`, the highest sequence number applied, the waiter that
`MASTER_GTID_WAIT` has left there, and the connection that owns the domain under
`--gtid-ignore-duplicates`.

Each critical section of `LOCK_slave_state` is one step of the system at the end. `none`
stands for a failed debug assertion. Objects known by their address (connections, waiters)
are numbers.
-/

namespace Rpl.SlaveState

open KeyedList Function Option List

structure ListElement where
  subId : UInt64
  seqNo : UInt64
  serverId : UInt32
  deriving DecidableEq, Repr

/-- One domain. `minWaitSeqNo` means nothing while `gtidWaiter` is null. The owners are
running worker threads, so their number is far from the end of 32 bits. -/
structure Element where
  domainId : UInt32
  list : List ListElement
  highestSeqNo : UInt64
  gtidWaiter : Option Nat
  minWaitSeqNo : UInt64
  ownerRli : Option Nat
  ownerCount : Nat
  deriving DecidableEq, Repr

/-- What `get_element` makes of a new domain. -/
def Element.new (domainId : UInt32) : Element := ⟨domainId, [], 0, none, 0, none, 0⟩

def Element.add (e : Element) (l : ListElement) : Element := { e with list := l :: e.list }

inductive DuplicateState where
  | null
  | ignore
  | owner
  deriving DecidableEq, Repr

/-- What `rpl_group_info` says to the slave state. -/
structure GroupInfo where
  rli : Nat
  currentGtid : Gtid
  duplicateState : DuplicateState
  deriving DecidableEq, Repr

/-- The table of the domains has `HASH_UNIQUE`. -/
structure State where
  hash : List Element
  lastSubId : UInt64
  unique : Unique Element.domainId hash

def State.empty : State := ⟨[], 0, List.nodup_nil⟩

def State.find (st : State) (domainId : UInt32) : Option Element :=
  lookup Element.domainId st.hash domainId

def State.put (st : State) (e : Element) : State :=
  { st with hash := replace Element.domainId st.hash e, unique := st.unique.replace e }

def getElement (env : Env) (st : State) (domainId : UInt32) : Option (State × Element) :=
  match h : st.find domainId with
  | some elem => some (st, elem)
  | none =>
    if env.memory then
      let elem := Element.new domainId
      some (⟨env.order.insert Element.domainId st.hash elem, st.lastSubId,
        st.unique.insert env.order h⟩, elem)
    else none

/-- The results -1, 0 and 1, and a turn of the loop that ends in the condition wait. -/
inductive CheckResult where
  | error
  | skip
  | apply
  | wait
  deriving DecidableEq, Repr

/-- One turn of the loop of `check_duplicate_gtid`. The element stays in the table once it
is there, so a turn after a wait may look it up again. -/
def checkDuplicateGtid (env : Env) (st : State) (rgi : GroupInfo) (killed : Bool) :
    State × GroupInfo × CheckResult :=
  match getElement env st rgi.currentGtid.domainId with
  | none => (st, rgi, .error)
  | some (st, elem) =>
    if elem.highestSeqNo ≥ rgi.currentGtid.seqNo then
      (st, { rgi with duplicateState := .ignore }, .skip)
    else
      match elem.ownerRli with
      | none =>
        (st.put { elem with ownerRli := some rgi.rli, ownerCount := 1 },
          { rgi with duplicateState := .owner }, .apply)
      | some rli =>
        if rli = rgi.rli then
          (st.put { elem with ownerCount := elem.ownerCount + 1 },
            { rgi with duplicateState := .owner }, .apply)
        else if killed then (st, rgi, .error)
        else (st, rgi, .wait)

/-- What `update` and `release_domain_owner` do for a group that owns the domain, with the
two assertions. -/
def Element.dropOwner (e : Element) (rgi : GroupInfo) : Option Element :=
  if rgi.duplicateState = .owner then
    if 0 < e.ownerCount ∧ e.ownerRli = some rgi.rli then
      let count := e.ownerCount - 1
      some { e with
        ownerCount := count
        ownerRli := if count = 0 then none else e.ownerRli }
    else none
  else some e

def releaseDomainOwner (env : Env) (st : State) (rgi : GroupInfo) : Option (State × GroupInfo) :=
  match getElement env st rgi.currentGtid.domainId with
  | none => some (st, rgi)
  | some (st, elem) => do
    return (st.put (← elem.dropOwner rgi), { rgi with duplicateState := .null })

def Element.raiseHighest (e : Element) (seqNo : UInt64) : Element :=
  if seqNo > e.highestSeqNo then { e with highestSeqNo := seqNo } else e

/-- The waiter of `MASTER_GTID_WAIT` is taken away and signalled. -/
def Element.wakeWaiter (e : Element) (seqNo : UInt64) : Element :=
  if e.gtidWaiter ≠ none ∧ e.minWaitSeqNo ≤ seqNo then { e with gtidWaiter := none } else e

/-- What `update` does before the owner is looked at. -/
def Element.reach (e : Element) (seqNo : UInt64) : Element :=
  (e.raiseHighest seqNo).wakeWaiter seqNo

/-- `alloc` tells whether there is memory for the list element. Returns `true` on error. -/
def update (env : Env) (alloc : Bool) (st : State) (gtid : Gtid) (subId : UInt64)
    (rgi : Option GroupInfo) : Option (State × Option GroupInfo × Bool) :=
  match getElement env st gtid.domainId with
  | none => some (st, rgi, true)
  | some (st, elem) => do
    let elem ← rgi.elim (some (elem.reach gtid.seqNo)) (elem.reach gtid.seqNo).dropOwner
    let rgi := rgi.map fun g => { g with duplicateState := .null }
    if alloc then
      let st := st.put (elem.add ⟨subId, gtid.seqNo, gtid.serverId⟩)
      return ({ st with lastSubId := if st.lastSubId < subId then subId else st.lastSubId },
        rgi, false)
    else return (st.put elem, rgi, true)

/-- The loop of `record_gtid` over a list whose first element is already seen: `best` is the
element `best_ptr_ptr` leads to and `i` the element `cur`, both by their positions. -/
def bestPtr (best : Nat) (bestSubId : UInt64) (i : Nat) : List ListElement -> Nat
  | [] => best
  | next :: rest =>
    if next.subId > bestSubId then bestPtr (i + 1) next.subId (i + 1) rest
    else bestPtr best bestSubId (i + 1) rest

/-- The list `record_gtid` leaves in the element, and the one it takes with it. -/
def keepBest : List ListElement -> List ListElement × List ListElement
  | [] => ([], [])
  | cur :: rest =>
    let best := bestPtr 0 cur.subId 0 rest
    ((cur :: rest)[best]?.toList, (cur :: rest).eraseIdx best)

def grabOld (env : Env) (st : State) (domainId : UInt32) : Option (State × List ListElement) := do
  let (st, elem) ← getElement env st domainId
  let (list, elist) := keepBest elem.list
  return (st.put { elem with list }, elist)

/-- The loop that deletes the rows; `errs` are the results of `ha_delete_row`. The element
whose row makes an error is discarded as well. -/
def deleteRows : List Bool -> List ListElement -> List ListElement × Bool
  | _, [] => ([], false)
  | [], _ :: elist => deleteRows [] elist
  | err :: errs, _ :: elist => if err then (elist, true) else deleteRows errs elist

def putBackList (st : State) (domainId : UInt32) (list : List ListElement) : State :=
  match st.find domainId with
  | none => st
  | some e => st.put (list.foldl Element.add e)

/-- The results of `ha_index_init`, of the deletions and of the commit. -/
structure TableResults where
  initErr : Bool
  rowErrs : List Bool
  commitErr : Bool

/-- The rest of `record_gtid`: the rows are deleted, and after an error what remains goes
back under the lock. -/
def deleteOld (results : TableResults) (st : State) (domainId : UInt32)
    (elist : List ListElement) : State :=
  let (elist, err) := if results.initErr then (elist, true) else deleteRows results.rowErrs elist
  if err || results.commitErr then putBackList st domainId elist else st

/-- The slave state, the groups of all connections, and the calls of `record_gtid` that are
between their two critical sections. The last two fields are history: the GTIDs applied by
groups that owned their domain, and the list elements that were added. -/
structure Sys where
  state : State
  groups : List GroupInfo
  pruning : List (UInt32 × List ListElement)
  applied : List Gtid
  added : List (UInt32 × ListElement)

def Sys.init : Sys := ⟨State.empty, [], [], [], []⟩

inductive Op where
  | newGroup (rli : Nat) (gtid : Gtid)
  | checkDuplicateGtid (env : Env) (i : Nat) (killed : Bool)
  | releaseDomainOwner (env : Env) (i : Nat)
  | update (env : Env) (alloc : Bool) (i : Nat) (subId : UInt64)
  | updateNoGroup (env : Env) (alloc : Bool) (gtid : Gtid) (subId : UInt64)
  | grabOld (env : Env) (domainId : UInt32)
  | deleteOld (results : TableResults) (j : Nat)

def addedBy (err : Bool) (gtid : Gtid) (subId : UInt64) : List (UInt32 × ListElement) :=
  if err then [] else [(gtid.domainId, ⟨subId, gtid.seqNo, gtid.serverId⟩)]

/-- A group is checked when its GTID event comes, before it works under that GTID, so not
while it is an owner already. -/
def step (s : Sys) : Op -> Option Sys
  | .newGroup rli gtid => some { s with groups := s.groups ++ [⟨rli, gtid, .null⟩] }
  | .checkDuplicateGtid env i killed =>
    match s.groups[i]? with
    | none => some s
    | some rgi =>
      if rgi.duplicateState = .owner then some s
      else
        let (state, rgi, _) := checkDuplicateGtid env s.state rgi killed
        some { s with state, groups := s.groups.set i rgi }
  | .releaseDomainOwner env i =>
    match s.groups[i]? with
    | none => some s
    | some rgi => do
      let (state, rgi) ← releaseDomainOwner env s.state rgi
      return { s with state, groups := s.groups.set i rgi }
  | .update env alloc i subId =>
    match s.groups[i]? with
    | none => some s
    | some rgi => do
      let gtid := rgi.currentGtid
      let (state, rgi', err) ← update env alloc s.state gtid subId (some rgi)
      return { s with
        state
        groups := s.groups.set i (rgi'.getD rgi)
        applied := if rgi.duplicateState = .owner then s.applied ++ [gtid] else s.applied
        added := s.added ++ addedBy err gtid subId }
  | .updateNoGroup env alloc gtid subId => do
    let (state, _, err) ← update env alloc s.state gtid subId none
    return { s with state, added := s.added ++ addedBy err gtid subId }
  | .grabOld env domainId =>
    match grabOld env s.state domainId with
    | none => some s
    | some (state, elist) => some { s with state, pruning := s.pruning ++ [(domainId, elist)] }
  | .deleteOld results j =>
    match s.pruning[j]? with
    | none => some s
    | some (domainId, elist) =>
      some { s with
        state := deleteOld results s.state domainId elist
        pruning := s.pruning.eraseIdx j }

def run (ops : List Op) : Option Sys := Machine.run step Sys.init ops

/-- The element of a domain, whether it is in the table already or not. -/
def State.elem (st : State) (domainId : UInt32) : Element :=
  (st.find domainId).getD (Element.new domainId)

section Elements
variable {st st' : State} {env : Env} {d : UInt32} {e : Element}

lemma State.elem_of_find (h : st.find d = some e) : st.elem d = e := by
  rw [State.elem, h, getD_some]

lemma State.domainId_elem (st : State) (d : UInt32) : (st.elem d).domainId = d := by
  cases h : st.find d with
  | none => rw [State.elem, h]; rfl
  | some e => rw [State.elem_of_find h]; exact key_eq_of_lookup h

lemma State.elem_put (h : st.find d = some e) {e' : Element} (hd : e'.domainId = d) :
    (st.put e').elem = Function.update st.elem d e' := by
  funext d'
  have hfind : (st.put e').find d' = if d = d' then some e' else st.find d' :=
    lookup_replace_of_some h hd d'
  by_cases hdd : d = d'
  · subst hdd
    rw [update_self, State.elem, hfind, if_pos rfl, getD_some]
  · rw [update_of_ne (Ne.symm hdd), State.elem, hfind, if_neg hdd]
    rfl

/-- `get_element` does not change what the state says about any domain. -/
lemma getElement_spec (h : getElement env st d = some (st', e)) :
    st'.elem = st.elem ∧ st'.find d = some e ∧ e = st.elem d := by
  unfold getElement at h
  split at h
  · rename_i elem hfind
    cases h
    exact ⟨rfl, hfind, (State.elem_of_find hfind).symm⟩
  · rename_i hfind
    split at h
    · cases h
      have hinsert : ∀ d', State.find ⟨env.order.insert Element.domainId st.hash (Element.new d),
          st.lastSubId, st.unique.insert env.order hfind⟩ d' =
            if d = d' then some (Element.new d) else st.find d' :=
        fun d' => st.unique.lookup_insert (a := Element.new d) env.order hfind d'
      have hnew : Element.new d = st.elem d := by rw [State.elem, hfind, getD_none]
      refine ⟨?_, by rw [hinsert, if_pos rfl], hnew⟩
      funext d'
      by_cases hdd : d = d'
      · subst hdd
        rw [State.elem, hinsert, if_pos rfl, getD_some, hnew]
      · rw [State.elem, hinsert, if_neg hdd]
        rfl
    · cases h

lemma getElement_put (h : getElement env st d = some (st', e)) {e' : Element}
    (hd : e'.domainId = d) : (st'.put e').elem = Function.update st.elem d e' := by
  obtain ⟨helem, hfind, -⟩ := getElement_spec h
  rw [State.elem_put hfind hd, helem]

lemma getElement_none (h : getElement env st d = none) : st.find d = none := by
  unfold getElement at h
  split at h
  · cases h
  · assumption

end Elements

section Frames
variable {e e' : Element} {g : GroupInfo}

lemma Element.reach_frame (e : Element) (seqNo : UInt64) :
    (e.reach seqNo).domainId = e.domainId ∧ (e.reach seqNo).list = e.list ∧
      (e.reach seqNo).ownerRli = e.ownerRli ∧ (e.reach seqNo).ownerCount = e.ownerCount := by
  unfold reach raiseHighest wakeWaiter
  split
  iterate 2
    split
    iterate 2 exact ⟨rfl, rfl, rfl, rfl⟩

lemma Element.highestSeqNo_reach (e : Element) (seqNo : UInt64) :
    (e.reach seqNo).highestSeqNo = if seqNo > e.highestSeqNo then seqNo else e.highestSeqNo := by
  have hwake : ∀ e : Element, (e.wakeWaiter seqNo).highestSeqNo = e.highestSeqNo := by
    intro e
    unfold wakeWaiter
    split
    · rfl
    · rfl
  rw [reach, hwake, raiseHighest]
  split
  · rfl
  · rfl

lemma Element.le_reach (e : Element) (seqNo : UInt64) :
    e.highestSeqNo ≤ (e.reach seqNo).highestSeqNo ∧ seqNo ≤ (e.reach seqNo).highestSeqNo := by
  rw [highestSeqNo_reach]
  split
  · rename_i hlt
    exact ⟨UInt64.le_of_lt hlt, UInt64.le_refl _⟩
  · rename_i hle
    exact ⟨UInt64.le_refl _, UInt64.not_lt.mp hle⟩

lemma Element.dropOwner_frame (h : e.dropOwner g = some e') :
    e'.domainId = e.domainId ∧ e'.list = e.list ∧ e'.highestSeqNo = e.highestSeqNo := by
  unfold dropOwner at h
  split at h
  · split at h
    · cases h
      exact ⟨rfl, rfl, rfl⟩
    · cases h
  · cases h
    exact ⟨rfl, rfl, rfl⟩

end Frames

section Calls
variable {st st' : State} {env : Env} {d : UInt32} {rgi rgi' : GroupInfo}

/-- What a turn of `check_duplicate_gtid` can do: nothing to the state, or a grant. -/
lemma checkDuplicateGtid_cases {killed : Bool} {res : CheckResult}
    (h : checkDuplicateGtid env st rgi killed = (st', rgi', res))
    (hd : rgi.currentGtid.domainId = d) :
    (st'.elem = st.elem ∧ (rgi' = rgi ∨ rgi' = { rgi with duplicateState := .ignore })) ∨
    ((st.elem d).highestSeqNo < rgi.currentGtid.seqNo ∧
      rgi' = { rgi with duplicateState := .owner } ∧
      ((st.elem d).ownerRli = none ∧ st'.elem = Function.update st.elem d
          { st.elem d with ownerRli := some rgi.rli, ownerCount := 1 } ∨
        (st.elem d).ownerRli = some rgi.rli ∧ st'.elem = Function.update st.elem d
          { st.elem d with ownerCount := (st.elem d).ownerCount + 1 })) := by
  subst hd
  unfold checkDuplicateGtid at h
  split at h
  · cases h
    exact .inl ⟨rfl, .inl rfl⟩
  · rename_i st1 elem hget
    obtain ⟨helem, -, rfl⟩ := getElement_spec hget
    have hd := st.domainId_elem rgi.currentGtid.domainId
    split at h
    · cases h
      exact .inl ⟨helem, .inr rfl⟩
    · rename_i hlow
      have hlt := UInt64.not_le.mp hlow
      split at h
      · rename_i hnull
        cases h
        exact .inr ⟨hlt, rfl, .inl ⟨hnull, getElement_put hget hd⟩⟩
      · rename_i rli hrli
        split at h
        · rename_i heq
          subst heq
          cases h
          exact .inr ⟨hlt, rfl, .inr ⟨hrli, getElement_put hget hd⟩⟩
        · split at h
          iterate 2
            cases h
            exact .inl ⟨helem, .inl rfl⟩

/-- A call on a domain without memory for its element changes nothing. Any other goes
through `dropOwner`, and fails only there. -/
lemma releaseDomainOwner_cases
    (h : releaseDomainOwner env st rgi = some (st', rgi')) (hd : rgi.currentGtid.domainId = d) :
    (st' = st ∧ rgi' = rgi ∧ st.find d = none) ∨
    ∃ e', (st.elem d).dropOwner rgi = some e' ∧ st'.elem = Function.update st.elem d e' ∧
      rgi' = { rgi with duplicateState := .null } := by
  subst hd
  unfold releaseDomainOwner at h
  split at h
  · rename_i hget
    cases h
    exact .inl ⟨rfl, rfl, getElement_none hget⟩
  · rename_i st1 elem hget
    obtain ⟨-, -, rfl⟩ := getElement_spec hget
    obtain ⟨e', hdrop, h⟩ := bind_eq_some_iff.mp h
    cases h
    have hd := (Element.dropOwner_frame hdrop).1.trans (st.domainId_elem _)
    exact .inr ⟨e', hdrop, getElement_put hget hd, rfl⟩

lemma releaseDomainOwner_defined (env : Env) {rgi : GroupInfo} {e' : Element}
    (hdrop : (st.elem rgi.currentGtid.domainId).dropOwner rgi = some e') :
    ∃ r, releaseDomainOwner env st rgi = some r := by
  unfold releaseDomainOwner
  split
  · exact ⟨_, rfl⟩
  · rename_i st1 elem hget
    obtain ⟨-, -, rfl⟩ := getElement_spec hget
    rw [hdrop]
    exact ⟨_, rfl⟩

lemma update_cases {alloc err : Bool} {gtid : Gtid} {subId : UInt64} {rgi rgi' : Option GroupInfo}
    (h : update env alloc st gtid subId rgi = some (st', rgi', err)) (hd : gtid.domainId = d) :
    (st' = st ∧ rgi' = rgi ∧ err = true ∧ st.find d = none) ∨
    ∃ e', rgi.elim (some ((st.elem d).reach gtid.seqNo))
        ((st.elem d).reach gtid.seqNo).dropOwner = some e' ∧
      st'.elem = Function.update st.elem d
        (if err then e' else e'.add ⟨subId, gtid.seqNo, gtid.serverId⟩) ∧
      rgi' = rgi.map fun g => { g with duplicateState := .null } := by
  subst hd
  unfold update at h
  split at h
  · rename_i hget
    cases h
    exact .inl ⟨rfl, rfl, rfl, getElement_none hget⟩
  · rename_i st1 elem hget
    obtain ⟨-, -, rfl⟩ := getElement_spec hget
    obtain ⟨e', hdrop, h⟩ := bind_eq_some_iff.mp h
    have hreach := ((st.elem gtid.domainId).reach_frame gtid.seqNo).1.trans (st.domainId_elem _)
    have hd : e'.domainId = gtid.domainId := by
      cases rgi with
      | none =>
        cases hdrop
        exact hreach
      | some g => exact (Element.dropOwner_frame hdrop).1.trans hreach
    refine .inr ⟨e', hdrop, ?_⟩
    split at h
    iterate 2
      cases h
      exact ⟨getElement_put hget hd, rfl⟩

lemma update_defined (env : Env) (alloc : Bool) (st : State) (gtid : Gtid) (subId : UInt64)
    (rgi : Option GroupInfo) {e' : Element}
    (hdrop : rgi.elim (some ((st.elem gtid.domainId).reach gtid.seqNo))
        ((st.elem gtid.domainId).reach gtid.seqNo).dropOwner = some e') :
    ∃ r, update env alloc st gtid subId rgi = some r := by
  unfold update
  split
  · exact ⟨_, rfl⟩
  · rename_i st1 elem hget
    obtain ⟨-, -, rfl⟩ := getElement_spec hget
    rw [hdrop]
    cases alloc with
    | false => exact ⟨_, rfl⟩
    | true => exact ⟨_, rfl⟩

lemma grabOld_cases {elist : List ListElement} (h : grabOld env st d = some (st', elist)) :
    st'.elem = Function.update st.elem d
      { st.elem d with list := (keepBest (st.elem d).list).1 } ∧
      elist = (keepBest (st.elem d).list).2 := by
  obtain ⟨⟨st1, elem⟩, hget, h⟩ := bind_eq_some_iff.mp h
  obtain ⟨-, -, rfl⟩ := getElement_spec hget
  cases h
  exact ⟨getElement_put hget (st.domainId_elem d), rfl⟩

lemma foldl_add (list : List ListElement) (e : Element) :
    list.foldl Element.add e = { e with list := list.reverse ++ e.list } := by
  induction list generalizing e with
  | nil => rfl
  | cons l list ih =>
    rw [foldl_cons, ih, reverse_cons, append_assoc]
    rfl

lemma putBackList_cases (st : State) (d : UInt32) (list : List ListElement) :
    putBackList st d list = st ∨ (putBackList st d list).elem = Function.update st.elem d
      { st.elem d with list := list.reverse ++ (st.elem d).list } := by
  unfold putBackList
  split
  · exact .inl rfl
  · rename_i e hfind
    have hd : (list.foldl Element.add e).domainId = d := by
      rw [foldl_add, ← key_eq_of_lookup hfind]
    refine .inr ?_
    rw [State.elem_put hfind hd, foldl_add, State.elem_of_find hfind]

lemma deleteRows_suffix (errs : List Bool) (elist : List ListElement) :
    (deleteRows errs elist).1 <:+ elist := by
  induction elist generalizing errs with
  | nil => simp [deleteRows]
  | cons l elist ih =>
    have hcons := suffix_cons l elist
    cases errs with
    | nil => exact (ih []).trans hcons
    | cons err errs =>
      cases err with
      | true => exact hcons
      | false => exact (ih errs).trans hcons

lemma deleteOld_cases (results : TableResults) (st : State) (d : UInt32)
    (elist : List ListElement) :
    deleteOld results st d elist = st ∨
    ∃ back, back <:+ elist ∧ (deleteOld results st d elist).elem = Function.update st.elem d
      { st.elem d with list := back.reverse ++ (st.elem d).list } := by
  have hsuf : (if results.initErr then (elist, true)
      else deleteRows results.rowErrs elist).1 <:+ elist := by
    split
    · exact suffix_rfl
    · exact deleteRows_suffix results.rowErrs elist
  unfold deleteOld
  split
  rename_i back err hresult
  rw [hresult] at hsuf
  split
  · exact (putBackList_cases st d back).imp_right fun h => ⟨back, hsuf, h⟩
  · exact .inl rfl

end Calls

def Op.subId? : Op -> Option UInt64
  | .update _ _ _ subId => some subId
  | .updateNoGroup _ _ _ subId => some subId
  | _ => none

inductive Effect (s : Sys) (o : Option UInt64) : Sys -> Prop
  | idle : Effect s o s
  | newGroup {rli : Nat} {gtid : Gtid} :
    Effect s o { s with groups := s.groups ++ [⟨rli, gtid, .null⟩] }
  | turn {state : State} {i : Nat} {g g' : GroupInfo} (hi : s.groups[i]? = some g)
    (hg : g.duplicateState ≠ .owner) (hstate : state.elem = s.state.elem)
    (hg' : g' = g ∨ g' = { g with duplicateState := .ignore }) :
    Effect s o { s with state, groups := s.groups.set i g' }
  | grant {state : State} {i : Nat} {g : GroupInfo} {e e' : Element}
    (hi : s.groups[i]? = some g) (hg : g.duplicateState ≠ .owner)
    (he : e = s.state.elem g.currentGtid.domainId)
    (hlow : e.highestSeqNo < g.currentGtid.seqNo)
    (hgrab : e.ownerRli = none ∧ e' = { e with ownerRli := some g.rli, ownerCount := 1 } ∨
      e.ownerRli = some g.rli ∧ e' = { e with ownerCount := e.ownerCount + 1 })
    (hstate : state.elem = Function.update s.state.elem g.currentGtid.domainId e') :
    Effect s o { s with state, groups := s.groups.set i { g with duplicateState := .owner } }
  | release {state : State} {i : Nat} {g : GroupInfo} {e' : Element}
    (hi : s.groups[i]? = some g)
    (hdrop : (s.state.elem g.currentGtid.domainId).dropOwner g = some e')
    (hstate : state.elem = Function.update s.state.elem g.currentGtid.domainId e') :
    Effect s o { s with state, groups := s.groups.set i { g with duplicateState := .null } }
  | updateLost {i : Nat} {g : GroupInfo} (hi : s.groups[i]? = some g)
    (hfind : s.state.find g.currentGtid.domainId = none) :
    Effect s o { s with
      applied := if g.duplicateState = .owner then s.applied ++ [g.currentGtid] else s.applied }
  | update {state : State} {i : Nat} {g : GroupInfo} {e' : Element} {err : Bool} {subId : UInt64}
    (hi : s.groups[i]? = some g)
    (hdrop : ((s.state.elem g.currentGtid.domainId).reach g.currentGtid.seqNo).dropOwner g =
      some e')
    (hstate : state.elem = Function.update s.state.elem g.currentGtid.domainId
      (if err then e' else e'.add ⟨subId, g.currentGtid.seqNo, g.currentGtid.serverId⟩))
    (ho : o = some subId) :
    Effect s o { s with
      state
      groups := s.groups.set i { g with duplicateState := .null }
      applied := if g.duplicateState = .owner then s.applied ++ [g.currentGtid] else s.applied
      added := s.added ++ addedBy err g.currentGtid subId }
  | updateNoGroup {state : State} {gtid : Gtid} {e' : Element} {err : Bool} {subId : UInt64}
    (he' : e' = (s.state.elem gtid.domainId).reach gtid.seqNo)
    (hstate : state.elem = Function.update s.state.elem gtid.domainId
      (if err then e' else e'.add ⟨subId, gtid.seqNo, gtid.serverId⟩))
    (ho : o = some subId) :
    Effect s o { s with state, added := s.added ++ addedBy err gtid subId }
  | grabOld {state : State} {d : UInt32} {e : Element} (he : e = s.state.elem d)
    (hstate : state.elem = Function.update s.state.elem d { e with list := (keepBest e.list).1 }) :
    Effect s o { s with state, pruning := s.pruning ++ [(d, (keepBest e.list).2)] }
  | deleteOld {state : State} {d : UInt32} {j : Nat} {elist back : List ListElement}
    {e : Element} (hj : s.pruning[j]? = some (d, elist)) (hback : back <:+ elist)
    (he : e = s.state.elem d)
    (hstate : state = s.state ∨
      state.elem = Function.update s.state.elem d { e with list := back.reverse ++ e.list }) :
    Effect s o { s with state, pruning := s.pruning.eraseIdx j }

lemma set_same {α : Type} {l : List α} {i : Nat} {a : α} (hi : l[i]? = some a) :
    l.set i a = l := by
  obtain ⟨h, rfl⟩ := List.getElem?_eq_some_iff.mp hi
  exact set_getElem_self h

lemma step_effect {s s' : Sys} {op : Op} (h : step s op = some s') :
    Effect s op.subId? s' := by
  cases op with
  | newGroup rli gtid =>
    cases h
    exact .newGroup
  | checkDuplicateGtid env i killed =>
    rw [step] at h
    split at h
    · cases h
      exact .idle
    · rename_i g hi
      split at h
      · cases h
        exact .idle
      · rename_i hg
        generalize hcall : checkDuplicateGtid env s.state g killed = r at h
        cases h
        rcases checkDuplicateGtid_cases hcall rfl with ⟨hstate, hg'⟩ | ⟨hlow, hg', hgrab⟩
        · exact .turn hi hg hstate hg'
        · rw [hg']
          rcases hgrab with ⟨hnull, hstate⟩ | ⟨hsame, hstate⟩
          · exact .grant hi hg rfl hlow (.inl ⟨hnull, rfl⟩) hstate
          · exact .grant hi hg rfl hlow (.inr ⟨hsame, rfl⟩) hstate
  | releaseDomainOwner env i =>
    rw [step] at h
    split at h
    · cases h
      exact .idle
    · rename_i g hi
      obtain ⟨⟨state, g'⟩, hcall, h⟩ := bind_eq_some_iff.mp h
      cases h
      rcases releaseDomainOwner_cases hcall rfl with ⟨rfl, rfl, -⟩ | ⟨e', hdrop, hstate, rfl⟩
      · rw [set_same hi]
        exact .idle
      · exact .release hi hdrop hstate
  | update env alloc i subId =>
    rw [step] at h
    split at h
    · cases h
      exact .idle
    · rename_i g hi
      obtain ⟨⟨state, g', err⟩, hcall, h⟩ := bind_eq_some_iff.mp h
      cases h
      rcases update_cases hcall rfl with ⟨rfl, rfl, rfl, hfind⟩ | ⟨e', hdrop, hstate, rfl⟩
      · simp only [getD_some, set_same hi, addedBy, if_true, append_nil]
        exact .updateLost hi hfind
      · exact .update hi hdrop hstate rfl
  | updateNoGroup env alloc gtid subId =>
    obtain ⟨⟨state, g', err⟩, hcall, h⟩ := bind_eq_some_iff.mp h
    cases h
    rcases update_cases hcall rfl with ⟨rfl, rfl, rfl, -⟩ | ⟨e', hdrop, hstate, rfl⟩
    · simp only [addedBy, if_true, append_nil]
      exact .idle
    · cases hdrop
      exact .updateNoGroup rfl hstate rfl
  | grabOld env d =>
    rw [step] at h
    split at h
    · cases h
      exact .idle
    · rename_i state elist hcall
      cases h
      obtain ⟨hstate, rfl⟩ := grabOld_cases hcall
      exact .grabOld rfl hstate
  | deleteOld results j =>
    rw [step] at h
    split at h
    · cases h
      exact .idle
    · rename_i d elist hj
      cases h
      rcases deleteOld_cases results s.state d elist with hstate | ⟨back, hback, hstate⟩
      · exact .deleteOld hj suffix_rfl rfl (.inl hstate)
      · exact .deleteOld hj hback rfl (.inr hstate)

end Rpl.SlaveState
