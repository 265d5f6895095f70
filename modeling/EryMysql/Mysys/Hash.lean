import EryMysql.Lib.Chains
import EryMysql.Lib.Machine
import Mathlib.Data.Nat.Bitwise

/-!
# HASH of mysys

The hash table of mysys/hash.c. Its array grows by one entry at a time. A record has its home
where the low bits of its hash number say, with one bit less if that is behind the end of the
array; so when the array grows by one, only the records of one home move, and when it shrinks,
the records of the last home go back to there.

Records are pointers, with the key in the memory they point to. A loop over a chain has as
many turns as there are records; one that does not end in these, or leads out of the array by
`NO_RECORD`, is undefined.
-/

namespace Mysys

open Chains Function

/-- A `HASH`. The flag tells whether it is `HASH_UNIQUE`; `getKey` is the key in the memory of
a record. -/
structure Hash (α κ : Type) where
  array : Nat -> Link α
  records : Nat
  blength : Nat
  unique : Bool
  hashFunction : κ -> Nat
  getKey : α -> κ

/-- Calculate the position according to the hash number. -/
def myHashMask (hashnr buffmax maxlength : Nat) : Nat :=
  if hashnr &&& (buffmax - 1) < maxlength then hashnr &&& (buffmax - 1)
  else hashnr &&& ((buffmax >>> 1) - 1)

variable {α κ : Type}

def Hash.recHashnr (hash : Hash α κ) (record : α) : Nat := hash.hashFunction (hash.getKey record)

def Hash.myHashRecMask (hash : Hash α κ) (pos : Link α) (buffmax maxlength : Nat) : Nat :=
  myHashMask (hash.recHashnr pos.data) buffmax maxlength

section Search
variable [DecidableEq κ]

/-- The loop of `my_hash_first_from_hash_value`. The flag is set in the first turn. -/
def Hash.firstLoop (hash : Hash α κ) (key : κ) : Nat -> Bool -> Nat -> Option (Option Nat)
  | 0, _, _ => none
  | fuel + 1, flag, idx =>
    let pos := hash.array idx
    if hash.getKey pos.data = key then some (some idx)
    else if flag ∧ hash.myHashRecMask pos hash.blength hash.records ≠ idx then some none
    else match pos.next with
      | none => some none
      | some next => firstLoop hash key fuel false next

def Hash.myHashFirstFromHashValue (hash : Hash α κ) (hashValue : Nat) (key : κ) :
    Option (Option Nat) :=
  if hash.records = 0 then some none
  else hash.firstLoop key hash.records true (myHashMask hashValue hash.blength hash.records)

def Hash.myHashFirst (hash : Hash α κ) (key : κ) : Option (Option Nat) :=
  hash.myHashFirstFromHashValue (hash.hashFunction key) key

def Hash.myHashSearch (hash : Hash α κ) (key : κ) : Option (Option α) := do
  let current ← hash.myHashFirst key
  return current.map fun idx => (hash.array idx).data

/-- The loop of `my_hash_next`, from the link of the current record on. -/
def Hash.nextLoop (hash : Hash α κ) (key : κ) : Nat -> Option Nat -> Option (Option Nat)
  | _, none => some none
  | 0, some _ => none
  | fuel + 1, some idx =>
    if hash.getKey (hash.array idx).data = key then some (some idx)
    else nextLoop hash key fuel (hash.array idx).next

def Hash.myHashNext (hash : Hash α κ) (key : κ) (current : Nat) : Option (Option Nat) :=
  hash.nextLoop key hash.records (hash.array current).next

/-- The records that a caller sees who calls `my_hash_first`, and then `my_hash_next` until it
returns none. -/
def Hash.followNext (hash : Hash α κ) (key : κ) : Nat -> Option Nat -> Option (List α)
  | _, none => some []
  | 0, some _ => none
  | fuel + 1, some current => do
    let next ← hash.myHashNext key current
    let rest ← followNext hash key fuel next
    return (hash.array current).data :: rest

def Hash.enumerate (hash : Hash α κ) (key : κ) : Option (List α) := do
  hash.followNext key hash.records (← hash.myHashFirst key)

end Search

/-- Change the link that leads to `find`, which is looked for from `nextLink` on. -/
def Hash.movelink (fuel : Nat) (array : Nat -> Link α) (find : Option Nat) (nextLink : Nat)
    (newlink : Option Nat) : Option (Nat -> Link α) := relink array find newlink fuel nextLink

/-- The local variables of the loop of `my_hash_insert`. The four bits of `flag` tell whether a
record that stays and one that goes was found, and whether the last one of a kind has its link
as it should be. -/
structure SplitState (α : Type) where
  array : Nat -> Link α
  lowFind : Bool
  lowUsed : Bool
  highFind : Bool
  highUsed : Bool
  gpos : Nat
  ptrToRec : α
  gpos2 : Nat
  ptrToRec2 : α
  empty : Nat

/-- A turn of the loop, for the record in `pos`, which goes to the new home or not. -/
def SplitState.turn (st : SplitState α) (pos : Nat) (high : Bool) : SplitState α :=
  if !high then
    -- key will not move
    if !st.lowFind then
      if st.highFind then
        -- key shall be moved to the current empty position
        { st with
          lowFind := true, lowUsed := false, highUsed := false
          gpos := st.empty, ptrToRec := (st.array pos).data, empty := pos }
      else
        { st with
          lowFind := true, lowUsed := true, highUsed := false
          gpos := pos, ptrToRec := (st.array pos).data }
    else
      -- change link of previous low key
      let st := if !st.lowUsed then
          { st with
            array := update st.array st.gpos ⟨some pos, st.ptrToRec⟩
            lowUsed := true, highUsed := false }
        else st
      { st with gpos := pos, ptrToRec := (st.array pos).data }
  else
    -- key will be moved
    if !st.highFind then
      { st with
        highFind := true, lowUsed := false, highUsed := false
        gpos2 := st.empty, empty := pos, ptrToRec2 := (st.array pos).data }
    else
      let st := if !st.highUsed then
          { st with
            array := update st.array st.gpos2 ⟨some pos, st.ptrToRec2⟩
            lowUsed := false, highUsed := true }
        else st
      { st with gpos2 := pos, ptrToRec2 := (st.array pos).data }

/-- The loop of `my_hash_insert` over the chain whose records are divided. In the first turn it
is checked that there is such a chain. -/
def Hash.splitLoop (info : Hash α κ) (firstIndex : Nat) :
    Nat -> SplitState α -> Nat -> Option (SplitState α)
  | 0, _, _ => none
  | fuel + 1, st, pos =>
    let hashNr := info.recHashnr (st.array pos).data
    let first := !st.lowFind && !st.lowUsed && !st.highFind && !st.highUsed
    if first ∧ myHashMask hashNr info.blength info.records ≠ firstIndex then some st
    else
      let st := st.turn pos (hashNr &&& (info.blength >>> 1) ≠ 0)
      match (st.array pos).next with
      | none => some st
      | some next => splitLoop info firstIndex fuel st next

/-- The last records of the two kinds get the ends of their chains. -/
def SplitState.finish (st : SplitState α) : (Nat -> Link α) × Nat :=
  let array := if st.lowFind && !st.lowUsed then
    update st.array st.gpos ⟨none, st.ptrToRec⟩ else st.array
  let array := if st.highFind && !st.highUsed then
    update array st.gpos2 ⟨none, st.ptrToRec2⟩ else array
  (array, st.empty)

/-- Make room for one more entry. Returns the array and the position that is empty. The
variables that are not initialised in the source have any value. -/
def Hash.split (info : Hash α κ) (record : α) : Option ((Nat -> Link α) × Nat) :=
  let halfbuff := info.blength >>> 1
  let firstIndex := info.records - halfbuff
  if firstIndex ≠ info.records then do
    let st ← info.splitLoop firstIndex info.records
      ⟨info.array, false, false, false, false, 0, record, 0, record, info.records⟩ firstIndex
    return st.finish
  else some (info.array, info.records)

def Hash.place (info : Hash α κ) (record : α) (array : Nat -> Link α) (empty : Nat) :
    Option (Nat -> Link α) :=
  let pos := myHashMask (info.recHashnr record) info.blength (info.records + 1)
  if pos = empty then some (update array pos ⟨none, record⟩)
  else
    -- check if more records in same hash-nr family
    let gpos := info.myHashRecMask (array pos) info.blength (info.records + 1)
    let array := update array empty (array pos)
    if pos = gpos then some (update array pos ⟨some empty, record⟩)
    else Hash.movelink (info.records + 1) (update array pos ⟨none, record⟩) (some pos) gpos
      (some empty)

def Hash.myHashInsert [DecidableEq κ] (info : Hash α κ) (record : α) :
    Option (Hash α κ × Bool) := do
  if info.unique && (← info.myHashSearch (info.getKey record)).isSome then return (info, true)
  else
    let (array, empty) ← info.split record
    let array ← info.place record array empty
    let records := info.records + 1
    return ({ info with
      array, records
      blength := if records = info.blength then info.blength + info.blength else info.blength },
      false)

section Delete
variable [DecidableEq α]

/-- The search for a record by its address. Returns the position of the record, and of the one
before it. -/
def Hash.findLoop (hash : Hash α κ) (record : α) :
    Nat -> Option Nat -> Nat -> Option (Option (Option Nat × Nat))
  | 0, _, _ => none
  | fuel + 1, gpos, pos =>
    if (hash.array pos).data = record then some (some (gpos, pos))
    else match (hash.array pos).next with
      | none => some none
      | some next => findLoop hash record fuel (some pos) next

/-- Remove the link to a record. Returns the array and the position that is now empty. -/
def unlinkRecord (array : Nat -> Link α) (gpos : Option Nat) (pos : Nat) : (Nat -> Link α) × Nat :=
  match gpos, (array pos).next with
  | some gpos, next => (setNext array gpos next, pos)
  | none, some next => (update array pos (array next), next)
  | none, none => (array, pos)

/-- Move the last entry, which is at the position `records`, to the empty one. `old` is the
table before the record was removed. -/
def Hash.moveLast (hash old : Hash α κ) (array : Nat -> Link α) (empty : Nat) :
    Option (Nat -> Link α) :=
  let lastpos := hash.records
  let lastposHashnr := hash.recHashnr (array lastpos).data
  -- pos is where lastpos should be
  let pos := myHashMask lastposHashnr hash.blength hash.records
  if pos = empty then some (update array empty (array lastpos))
  else
    let posHashnr := hash.recHashnr (array pos).data
    -- pos3 is where the pos should be
    let pos3 := myHashMask posHashnr hash.blength hash.records
    if pos ≠ pos3 then
      -- pos is on wrong position
      Hash.movelink old.records
        (update (update array empty (array pos)) pos (array lastpos))
        (some pos) pos3 (some empty)
    else
      let pos2 := myHashMask lastposHashnr old.blength (hash.records + 1)
      let same : Bool := pos2 = myHashMask posHashnr old.blength (hash.records + 1)
      if same ∧ pos2 ≠ hash.records then
        Hash.movelink old.records (update array empty (array lastpos)) (some lastpos) pos
          (some empty)
      else do
        -- link pos->next after lastpos, or different positions merge
        let idx := if same then some pos else none
        let array := update array empty (array lastpos)
        let array ← Hash.movelink old.records array idx empty (array pos).next
        return setNext array pos (some empty)

/-- Returns whether the record is not found. -/
def Hash.myHashDelete (hash : Hash α κ) (record : α) : Option (Hash α κ × Bool) :=
  if hash.records = 0 then some (hash, true)
  else do
    let start := myHashMask (hash.recHashnr record) hash.blength hash.records
    match ← hash.findLoop record hash.records none start with
    | none => return (hash, true)
    | some (gpos, pos) =>
      let records := hash.records - 1
      let blength := if records < hash.blength >>> 1 then hash.blength >>> 1 else hash.blength
      let (array, empty) := unlinkRecord hash.array gpos pos
      let array ← if empty = records then some array
        else Hash.moveLast { hash with records, blength } hash array empty
      return ({ hash with array, records, blength }, false)

variable [DecidableEq κ]

/-- The check of `my_hash_update` that no other record has the new key. -/
def Hash.duplicateLoop (hash : Hash α κ) (record : α) (key : κ) : Nat -> Option Nat -> Option Bool
  | _, none => some false
  | 0, some _ => none
  | fuel + 1, some current =>
    if (hash.array current).data ≠ record then some true
    else do duplicateLoop hash record key fuel (← hash.myHashNext key current)

/-- Move an unlinked record to its correct position. `orgLink` is its link, which was at the
position `pos`. -/
def Hash.moveToIndex (hash : Hash α κ) (array : Nat -> Link α) (newIndex empty pos : Nat)
    (orgLink : Link α) : Option (Nat -> Link α) :=
  if newIndex = empty then
    -- the record was moved while it was unlinked, or is still there
    let array := if empty ≠ pos then update array empty orgLink else array
    some (setNext array empty none)
  else
    let newPosIndex := hash.myHashRecMask (array newIndex) hash.blength hash.records
    if newIndex ≠ newPosIndex then do
      -- other record in wrong position
      let array ← Hash.movelink hash.records (update array empty (array newIndex))
        (some newIndex) newPosIndex (some empty)
      return update array newIndex { orgLink with next := none }
    else
      -- link in chain at right position
      let array := update array empty { orgLink with next := (array newIndex).next }
      some (setNext array newIndex (some empty))

/-- Update the table when the key of a record has changed. Returns whether there is a duplicate,
or the record is not found. -/
def Hash.myHashUpdate (hash : Hash α κ) (record : α) (oldKey : κ) : Option (Hash α κ × Bool) := do
  let newKey := hash.getKey record
  if hash.unique && (← hash.duplicateLoop record newKey hash.records (← hash.myHashFirst newKey)) then
    return (hash, true)
  else
    let idx := myHashMask (hash.hashFunction oldKey) hash.blength hash.records
    let newIndex := myHashMask (hash.recHashnr record) hash.blength hash.records
    if idx = newIndex then return (hash, false)
    else
      match ← hash.findLoop record hash.records none idx with
      | none => return (hash, true)
      | some (previous, pos) =>
        let (array, empty) := unlinkRecord hash.array previous pos
        let array ← hash.moveToIndex array newIndex empty pos (hash.array pos)
        return ({ hash with array }, false)

end Delete

def Hash.myHashReset (hash : Hash α κ) : Hash α κ := { hash with records := 0, blength := 1 }

end Mysys
