import EryMysql.Mysys.HashUpdate

/-!
# Runs of a hash table

A table is used by inserting, deleting and updating records, and may be emptied. What it should
hold is told by the operations alone, and it is what is in the array at any time, with every
record in the chain of its home.
-/

namespace Mysys

open Chains

variable {α κ : Type}

/-- A call, or a change to the key in the memory of a record. -/
inductive HashOp (α κ : Type)
  | insert (record : α)
  | delete (record : α)
  /-- The key of a record changes, and the table is updated with the old key. -/
  | update (record : α) (key : κ)
  /-- The key of a record that is not in the table changes. -/
  | setKey (record : α) (key : κ)
  | reset

/-- A table, and the records that it should hold. -/
structure HashUse (α κ : Type) where
  hash : Hash α κ
  held : Multiset α

/-- An empty table, as `my_hash_init` makes it. There may be anything in the memory of the
array. -/
def myHashInit (array : Nat -> Link α) (unique : Bool) (hashFunction : κ -> Nat) (getKey : α -> κ) :
    HashUse α κ :=
  ⟨⟨array, 0, 1, unique, hashFunction, getKey⟩, 0⟩

section Runs
variable [DecidableEq α] [DecidableEq κ] {s : HashUse α κ}

/-- There is a record with the same key where keys are unique. -/
def HashUse.refuses (s : HashUse α κ) (record : α) : Bool :=
  s.hash.unique && decide (s.hash.getKey record ∈ s.held.map s.hash.getKey)

/-- An operation. The key of a record that is in the table twice cannot change, as an update is
for one of the two only; nor may an empty table be updated. When an update fails, the caller takes
the change back. -/
def HashUse.step (s : HashUse α κ) : HashOp α κ -> Option (HashUse α κ)
  | .insert record => do
    let (hash, _) ← s.hash.myHashInsert record
    return ⟨hash, if s.refuses record then s.held else record ::ₘ s.held⟩
  | .delete record => do
    let (hash, _) ← s.hash.myHashDelete record
    return ⟨hash, s.held.erase record⟩
  | .update record key =>
    if s.hash.records = 0 ∨ 1 < s.held.count record then some s
    else do
      let (hash, failed) ← (s.hash.rekey record key).myHashUpdate record (s.hash.getKey record)
      return if failed then s else ⟨hash, s.held⟩
  | .setKey record key => some (if record ∈ s.held then s else ⟨s.hash.rekey record key, s.held⟩)
  | .reset => some ⟨s.hash.myHashReset, 0⟩

def HashUse.Holds (s : HashUse α κ) : Prop := (∃ C, s.hash.Inv C) ∧ s.hash.stored = s.held

omit [DecidableEq α] [DecidableEq κ] in
lemma inv_of_records_eq_zero {hash : Hash α κ} (hrecords : hash.records = 0)
    (hblength : hash.blength = 1) : hash.Inv fun _ => [] := by
  refine ⟨?_, ?_, ?_⟩
  · rw [hrecords, hblength]
    exact ⟨⟨0, rfl⟩, by decide, by decide⟩
  · exact fun k hk => absurd rfl hk
  · intro k p
    simp [hrecords]

lemma step_insert (h : s.Holds) (r : α) : ∃ s', s.step (.insert r) = some s' ∧ s'.Holds := by
  obtain ⟨⟨C, hinv⟩, hheld⟩ := h
  obtain ⟨hash', duplicate, C', hinsert, hinv', -, hdup, hstored⟩ := myHashInsert_spec hinv r
  have hrefuses : s.refuses r = duplicate := by
    rw [HashUse.refuses, Bool.eq_iff_iff, hdup, Bool.and_eq_true, decide_eq_true_eq,
      Multiset.mem_map, hheld]
  refine ⟨⟨hash', if s.refuses r then s.held else r ::ₘ s.held⟩, ?_, ⟨C', hinv'⟩, ?_⟩
  · rw [HashUse.step, hinsert]
    rfl
  · rw [hstored, hrefuses, hheld]

lemma step_delete (h : s.Holds) (r : α) : ∃ s', s.step (.delete r) = some s' ∧ s'.Holds := by
  obtain ⟨⟨C, hinv⟩, hheld⟩ := h
  obtain ⟨hash', notFound, C', hdelete, hinv', -, -, hstored⟩ := myHashDelete_spec hinv r
  refine ⟨⟨hash', s.held.erase r⟩, ?_, ⟨C', hinv'⟩, by rw [hstored, hheld]⟩
  rw [HashUse.step, hdelete]
  rfl

lemma step_update (h : s.Holds) (r : α) (key : κ) :
    ∃ s', s.step (.update r key) = some s' ∧ s'.Holds := by
  rw [HashUse.step]
  split
  · exact ⟨s, rfl, h⟩
  · rename_i hallowed
    rw [not_or] at hallowed
    obtain ⟨⟨C, hinv⟩, hheld⟩ := h
    have hcount : s.hash.stored.count r ≤ 1 := by
      rw [hheld]
      exact not_lt.mp hallowed.2
    obtain ⟨hash', failed, C', hupdate, -, hkept⟩ := myHashUpdate_spec hinv hallowed.1 hcount key
    rw [hupdate]
    cases failed with
    | true => exact ⟨s, rfl, ⟨C, hinv⟩, hheld⟩
    | false =>
      obtain ⟨hinv', -, hstored⟩ := hkept rfl
      exact ⟨⟨hash', s.held⟩, rfl, ⟨C', hinv'⟩, hstored.trans hheld⟩

lemma step_setKey (h : s.Holds) (r : α) (key : κ) :
    ∃ s', s.step (.setKey r key) = some s' ∧ s'.Holds := by
  refine ⟨_, rfl, ?_⟩
  split
  · exact h
  · rename_i hr
    obtain ⟨⟨C, hinv⟩, hheld⟩ := h
    exact ⟨⟨C, hinv.rekey (hheld ▸ hr)⟩, hheld⟩

lemma step_holds_hash (op : HashOp α κ) (h : s.Holds) : ∃ s', s.step op = some s' ∧ s'.Holds := by
  cases op with
  | insert r => exact step_insert h r
  | delete r => exact step_delete h r
  | update r key => exact step_update h r key
  | setKey r key => exact step_setKey h r key
  | reset => exact ⟨_, rfl, ⟨_, inv_of_records_eq_zero rfl rfl⟩, rfl⟩

/-- In every run the table has the right length, every record is in the chain of its home, and
the records are those inserted and not deleted. So a search finds a record with a key if there is
one, and the records with a key are visited once each. An update fails for a duplicate, and for a
record that is not in the table and would have to move. -/
theorem hash_run_holds (array : Nat -> Link α) (unique : Bool) (hashFunction : κ -> Nat)
    (getKey : α -> κ) (ops : List (HashOp α κ)) :
    ∃ s, Machine.run HashUse.step (myHashInit array unique hashFunction getKey) ops = some s ∧
      ((∃ k, s.hash.blength = 2 ^ k) ∧ s.hash.blength / 2 ≤ s.hash.records ∧
        s.hash.records < s.hash.blength) ∧
      (∃ chains : Nat -> List Nat,
        (∀ h, chains h ≠ [] -> Seg s.hash.array (some h) (chains h) none) ∧
        (∀ h, (chains h).Nodup) ∧
        ∀ h p, p ∈ chains h ↔ p < s.hash.records ∧
          myHashMask (s.hash.recHashnr (s.hash.array p).data) s.hash.blength s.hash.records = h) ∧
      (∀ key, ∃ found, s.hash.myHashSearch key = some found ∧
        (∀ r, found = some r -> r ∈ s.held ∧ s.hash.getKey r = key) ∧
        (found = none -> ∀ r ∈ s.held, s.hash.getKey r ≠ key)) ∧
      (∀ key, ∃ l, s.hash.enumerate key = some l ∧
        (l : Multiset α) = s.held.filter fun r => s.hash.getKey r = key) ∧
      (s.hash.records ≠ 0 -> ∀ r, s.held.count r ≤ 1 -> ∀ key, ∃ hash' failed,
        (s.hash.rekey r key).myHashUpdate r (s.hash.getKey r) = some (hash', failed) ∧
        (failed = true ↔ (s.hash.unique = true ∧ ∃ x ∈ s.held, x ≠ r ∧ s.hash.getKey x = key) ∨
          (r ∉ s.held ∧ s.hash.home r ≠ (s.hash.rekey r key).home r))) ∧
      ((List.range s.hash.records).map fun p => (s.hash.array p).data : Multiset α) = s.held := by
  have hinit : (myHashInit array unique hashFunction getKey).Holds :=
    ⟨⟨_, inv_of_records_eq_zero rfl rfl⟩, rfl⟩
  obtain ⟨s, hrun, ⟨C, hinv⟩, hheld⟩ := Machine.run_total
    (fun _ op h => step_holds_hash op h) hinit ops
  refine ⟨s, hrun, ⟨hinv.sized.pow, hinv.sized.half_le, hinv.sized.lt⟩, ⟨C, hinv.laid.linked,
    hinv.laid.nodup, fun h p => ?_⟩, fun key => ?_, fun key => ?_,
    fun hzero r hcount key => ?_, hheld⟩
  · rw [hinv.laid.mem, Finset.mem_range]
    rfl
  · rw [← hheld]
    exact hinv.myHashSearch_eq key
  · rw [← hheld]
    exact hinv.enumerate_eq key
  · rw [← hheld] at hcount ⊢
    obtain ⟨hash', failed, -, hupdate, hfailed, -⟩ := myHashUpdate_spec hinv hzero hcount key
    exact ⟨hash', failed, hupdate, hfailed⟩

example : ((Machine.run HashUse.step (myHashInit (fun _ => ⟨none, 0⟩) false id (· % 4))
    [.insert 1, .insert 5, .insert 2, .insert 9, .delete 1, .update 2 1]).bind fun s =>
      s.hash.enumerate 1).map Multiset.ofList = some {2, 5, 9} := by
  decide +kernel

end Runs

end Mysys
