import EryMysql.Mysys.Hash

/-!
# Tables of the HEAP engine

storage/heap: a table of records in memory with hash indexes. An index has an array of
`HASH_INFO` entries, as many as there are records, which grows and shrinks by one entry at a time
like the array of a `HASH` of mysys. What `hp_write_key` does to divide a chain, and how a record is
unlinked, is what mysys/hash.c does with an entry in the place of a record, so this part of the model
is shared; the hash number of an entry is kept in it.

All indexes are hash indexes. A position of a record is a number; a new one is taken only when no
deleted record is left, so it is the number of records. Allocation of memory does not fail, but the
table may be full. What a handler remembers of its last read is not kept here.
-/

namespace Hp

open Chains Mysys Function

/-- A `HASH_INFO` without its link. -/
structure HashInfo where
  ptrToRec : Nat
  hashOfKey : Nat
  deriving DecidableEq, Repr

/-- What does not change of an `HP_KEYDEF`: the flag `HA_NOSAME`, whether a record has a NULL in the
key and the key may, the hash numbers of records and of keys, and the comparisons of a record with
another one (`hp_rec_key_cmp`) and with a key (`hp_key_cmp`). -/
structure KeySpec (ρ κ : Type) where
  noSame : Bool
  nullInKey : ρ -> Bool
  recHashnr : ρ -> Nat
  hashnr : κ -> Nat
  recKeyEq : ρ -> ρ -> Bool
  keyEq : ρ -> κ -> Bool

structure HpKeydef (ρ κ : Type) where
  spec : KeySpec ρ κ
  block : Nat -> Link HashInfo
  hashBuckets : Nat

/-- An `HP_SHARE`. `live` is the byte behind a record, and `delLink` the list of the positions of
deleted records. -/
structure HpShare (ρ κ : Type) where
  keydef : List (HpKeydef ρ κ)
  records : Nat
  blength : Nat
  recordsInBlock : Nat
  deleted : Nat
  delLink : List Nat
  data : Nat -> ρ
  live : Nat -> Bool

abbrev hpMask (hashnr buffmax maxlength : Nat) : Nat := myHashMask hashnr buffmax maxlength

abbrev hpMovelink (fuel : Nat) (block : Nat -> Link HashInfo) (pos : Option Nat) (nextLink : Nat)
    (newlink : Option Nat) : Option (Nat -> Link HashInfo) :=
  Hash.movelink fuel block pos nextLink newlink

variable {ρ κ : Type}

/-- The array of an index as one of a `HASH`, whose records are the entries. -/
def HpKeydef.table (keyinfo : HpKeydef ρ κ) (records blength : Nat) : Hash HashInfo Nat :=
  ⟨keyinfo.block, records, blength, false, id, HashInfo.hashOfKey⟩

/-- The first part of `hp_write_key`. Returns the array, the position that is empty, and whether
there are two chains now where there was one. -/
def HpKeydef.makeRoom (keyinfo : HpKeydef ρ κ) (records blength : Nat) (entry : HashInfo) :
    Option ((Nat -> Link HashInfo) × Nat × Bool) :=
  let halfbuff := blength >>> 1
  let firstIndex := records - halfbuff
  if firstIndex ≠ records then do
    let st ← (keyinfo.table records blength).splitLoop firstIndex records
      ⟨keyinfo.block, false, false, false, false, 0, entry, 0, entry, records⟩ firstIndex
    return (st.finish.1, st.finish.2, st.lowFind && st.highFind)
  else some (keyinfo.block, records, false)

def KeySpec.duplicateLoop (spec : KeySpec ρ κ) (data : Nat -> ρ) (record : ρ)
    (block : Nat -> Link HashInfo) : Nat -> Nat -> Option Bool
  | 0, _ => none
  | fuel + 1, pos =>
    let entry := (block pos).data
    if entry.hashOfKey = spec.recHashnr record ∧ spec.recKeyEq record (data entry.ptrToRec) then
      some true
    else match (block pos).next with
      | none => some false
      | some next => duplicateLoop spec data record block fuel next

def KeySpec.duplicate (spec : KeySpec ρ κ) (data : Nat -> ρ) (record : ρ)
    (block : Nat -> Link HashInfo) (fuel empty : Nat) : Option Bool :=
  if spec.noSame = true ∧ spec.nullInKey record = false then
    spec.duplicateLoop data record block fuel empty
  else some false

def HpKeydef.placeKey (keyinfo : HpKeydef ρ κ) (share : HpShare ρ κ) (record : ρ) (entry : HashInfo)
    (block : Nat -> Link HashInfo) (empty buckets : Nat) : Option (HpKeydef ρ κ × Bool) :=
  let pos := hpMask entry.hashOfKey share.blength (share.records + 1)
  if pos = empty then
    some ({ keyinfo with
      block := update block pos ⟨none, entry⟩
      hashBuckets := buckets + 1 }, false)
  else
    -- check if more records in same hash-nr family
    let gpos := hpMask (block pos).data.hashOfKey share.blength (share.records + 1)
    let block := update block empty (block pos)
    if pos = gpos then do
      let block := update block pos ⟨some empty, entry⟩
      let duplicate ← keyinfo.spec.duplicate share.data record block (share.records + 1) empty
      return ({ keyinfo with block := block, hashBuckets := buckets }, duplicate)
    else do
      let block ← hpMovelink (share.records + 1) (update block pos ⟨none, entry⟩) (some pos)
        gpos (some empty)
      return ({ keyinfo with block := block, hashBuckets := buckets + 1 }, false)

variable (share : HpShare ρ κ)

/-- Write a key to an index. Returns whether there is a duplicate; the key was still added. -/
def HpShare.hpWriteKey (keyinfo : HpKeydef ρ κ) (record : ρ) (recpos : Nat) :
    Option (HpKeydef ρ κ × Bool) := do
  let entry : HashInfo := ⟨recpos, keyinfo.spec.recHashnr record⟩
  let (block, empty, two) ← keyinfo.makeRoom share.records share.blength entry
  keyinfo.placeKey share record entry block empty
    (if two then keyinfo.hashBuckets + 1 else keyinfo.hashBuckets)

/-- Search after the record. Returns its position, and that of the one before it. -/
def findEntry (block : Nat -> Link HashInfo) (recpos : Nat) :
    Nat -> Option Nat -> Nat -> Option (Option (Option Nat × Nat))
  | 0, _, _ => none
  | fuel + 1, gpos, pos =>
    if (block pos).data.ptrToRec = recpos then some (some (gpos, pos))
    else match (block pos).next with
      | none => some none
      | some next => findEntry block recpos fuel (some pos) next

/-- Move the last key to the empty position. Returns whether two chains became one. -/
def moveLastKey (records blength oldBlength : Nat) (block : Nat -> Link HashInfo) (empty : Nat) :
    Option ((Nat -> Link HashInfo) × Bool) :=
  let lastpos := records
  let lastposHashnr := (block lastpos).data.hashOfKey
  -- pos is where lastpos should be
  let pos := hpMask lastposHashnr blength records
  if pos = empty then some (update block empty (block lastpos), false)
  else
    let posHashnr := (block pos).data.hashOfKey
    -- pos3 is where the pos should be
    let pos3 := hpMask posHashnr blength records
    if pos ≠ pos3 then do
      -- pos is on wrong position
      let block ← hpMovelink (records + 1)
        (update (update block empty (block pos)) pos (block lastpos))
        (some pos) pos3 (some empty)
      return (block, false)
    else
      let pos2 := hpMask lastposHashnr oldBlength (records + 1)
      if pos2 = hpMask posHashnr oldBlength (records + 1) then
        if pos2 ≠ records then do
          let block ← hpMovelink (records + 1) (update block empty (block lastpos))
            (some lastpos) pos (some empty)
          return (block, false)
        else do
          -- the last entry was the first key in the chain, and stays it
          let block ← hpMovelink (records + 1)
            (update (update block empty (block pos)) pos (block lastpos))
            (some pos) pos (some empty)
          return (block, false)
      else do
        -- different positions merge
        let block := update block empty (block lastpos)
        let block ← hpMovelink (records + 1) block none empty (block pos).next
        return (setNext block pos (some empty), true)

/-- Remove one key from an index; the table has one record less already. Returns whether the record
is not found. -/
def HpShare.hpDeleteKey (keyinfo : HpKeydef ρ κ) (record : ρ) (recpos : Nat) :
    Option (HpKeydef ρ κ × Bool) := do
  let blength := if share.records + 1 = share.blength then share.blength + share.blength
    else share.blength
  let keyPos := hpMask (keyinfo.spec.recHashnr record) blength (share.records + 1)
  match ← findEntry keyinfo.block recpos (share.records + 1) none keyPos with
  | none => return (keyinfo, true)
  | some (gpos, pos) =>
    let buckets := if gpos = none ∧ (keyinfo.block pos).next = none then keyinfo.hashBuckets - 1
      else keyinfo.hashBuckets
    let (block, empty) := unlinkRecord keyinfo.block gpos pos
    if empty = share.records then
      return ({ keyinfo with block := block, hashBuckets := buckets }, false)
    else do
      let (block, merged) ← moveLastKey share.records share.blength blength block empty
      return ({ keyinfo with
        block := block
        hashBuckets := if merged then buckets - 1 else buckets }, false)

/-- `next_free_record_pos`; `none` if the table is full. -/
def HpShare.nextFreeRecordPos (full : Bool) : Option (Nat × HpShare ρ κ) :=
  match share.delLink with
  | pos :: rest => some (pos, { share with delLink := rest, deleted := share.deleted - 1 })
  | [] => if share.records % share.recordsInBlock = 0 ∧ full = true then none
    else some (share.records, share)

/-- The loop that takes back the keys of a record, from the index with the duplicate on. -/
def HpShare.undoKeys (share : HpShare ρ κ) (record : ρ) (pos : Nat) :
    List (HpKeydef ρ κ) -> Option (List (HpKeydef ρ κ))
  | [] => some []
  | keydef :: rest => do
    let (keydef, failed) ← share.hpDeleteKey keydef record pos
    if failed then some (keydef :: rest)
    else do
      let rest ← undoKeys share record pos rest
      some (keydef :: rest)

/-- The loop that writes the keys of a record. The indexes before are in reverse order. Returns
whether there was a duplicate. -/
def HpShare.writeKeys (share : HpShare ρ κ) (record : ρ) (pos : Nat) :
    List (HpKeydef ρ κ) -> List (HpKeydef ρ κ) -> Option (List (HpKeydef ρ κ) × Bool)
  | done, [] => some (done.reverse, false)
  | done, keydef :: rest => do
    let (keydef, duplicate) ← share.hpWriteKey keydef record pos
    if duplicate then do
      let undone ← share.undoKeys record pos (keydef :: done)
      some (undone.reverse ++ rest, true)
    else writeKeys share record pos (keydef :: done) rest

def HpShare.heapWrite (record : ρ) (full : Bool) : Option (HpShare ρ κ × Bool) :=
  match share.nextFreeRecordPos full with
  | none => some (share, true)
  | some (pos, share) => do
    let (keydef, failed) ← share.writeKeys record pos [] share.keydef
    if failed then
      some ({ share with
        keydef := keydef
        deleted := share.deleted + 1
        delLink := pos :: share.delLink
        live := update share.live pos false }, true)
    else
      let records := share.records + 1
      some ({ share with
        keydef := keydef
        data := update share.data pos record
        live := update share.live pos true
        records := records
        blength := if records = share.blength then share.blength + share.blength
          else share.blength }, false)

/-- The loop that removes the keys of a record. Returns whether one is not found. -/
def HpShare.deleteKeys (share : HpShare ρ κ) (record : ρ) (pos : Nat) :
    List (HpKeydef ρ κ) -> Option (List (HpKeydef ρ κ) × Bool)
  | [] => some ([], false)
  | keydef :: rest => do
    let (keydef, failed) ← share.hpDeleteKey keydef record pos
    if failed then some (keydef :: rest, true)
    else do
      let (rest, failed) ← deleteKeys share record pos rest
      some (keydef :: rest, failed)

/-- `heap_delete` for the record at the current position. Returns whether there is an error. -/
def HpShare.heapDelete (pos : Nat) : Option (HpShare ρ κ × Bool) := do
  let records := share.records - 1
  let blength := if records < share.blength >>> 1 then share.blength >>> 1 else share.blength
  let shrunk := { share with records := records, blength := blength }
  let (keydef, failed) ← shrunk.deleteKeys (share.data pos) pos share.keydef
  if failed then
    some ({ shrunk with
      keydef := keydef
      records := records + 1
      blength := if records + 1 = blength then blength + blength else blength }, true)
  else
    some ({ shrunk with
      keydef := keydef
      deleted := share.deleted + 1
      delLink := pos :: share.delLink
      live := update share.live pos false }, false)

/-- The loop of `hp_search` for a key. The flag is set in the first turn. -/
def HpShare.searchLoop (share : HpShare ρ κ) (keyinfo : HpKeydef ρ κ) (key : κ) :
    Nat -> Bool -> Nat -> Option (Option Nat)
  | 0, _, _ => none
  | fuel + 1, flag, pos =>
    let entry := (keyinfo.block pos).data
    if keyinfo.spec.keyEq (share.data entry.ptrToRec) key = true then some (some entry.ptrToRec)
    else if flag = true ∧ hpMask entry.hashOfKey share.blength share.records ≠ pos then some none
    else match (keyinfo.block pos).next with
      | none => some none
      | some next => searchLoop share keyinfo key fuel false next

/-- `hp_search` with the flag for a search. Returns the position of the record. -/
def HpShare.hpSearch (keyinfo : HpKeydef ρ κ) (key : κ) : Option (Option Nat) :=
  if share.records = 0 then some none
  else share.searchLoop keyinfo key share.records true
    (hpMask (keyinfo.spec.hashnr key) share.blength share.records)

end Hp
