import Mathlib.Data.BitVec
import EryMysql.Lib.Partial

/-!
# Row images of row-based replication

`pack_row` and `unpack_row` of sql/rpl_record.cc. A row image starts with one bit for each column
that is stored, set if the column is NULL; the values of the others follow. The writer stores a byte
of these bits when it is full, the reader fetches one when the next bit is needed. The slave may
lack the last columns of the master; their values are skipped with the sizes of the table map.

Both sides have the same types, so there is no conversion table, and the slave has no columns of its
own. What `Field` does with a value is arbitrary.
-/

namespace Rpl

open List Nat

structure Cell (V : Type) where
  isNull : Bool
  value : V

/-- A field, and what the table map knows of it. -/
structure FieldDef (V : Type) where
  maybeNull : Bool
  pack : V -> List UInt8
  unpack : List UInt8 -> Option (V × List UInt8)
  calcFieldSize : List UInt8 -> Nat
  resetValue : V
  defaultValue : V

/-- A column of the master: its field, its bit in `cols`, and what the record has in it. -/
structure Column (V : Type) where
  field : FieldDef V
  used : Bool
  cell : Cell V

variable {V : Type} {bits : BitVec 32}

def nullByteCount (cols : List Bool) : Nat := (cols.count true + 7) / 8

def setNullBit (nullBits nullMask : BitVec 32) (isNull : Bool) : BitVec 32 :=
  if isNull then nullBits ||| nullMask else nullBits &&& ~~~nullMask

def toByte (nullBits : BitVec 32) : UInt8 := UInt8.ofBitVec (nullBits.setWidth 8)

/-- What is stored from here on at `null_ptr` and at `pack_ptr`. -/
def packLoop : List (Column V) -> BitVec 32 -> BitVec 32 -> List UInt8 × List UInt8
  | [], nullMask, nullBits => (if 1 < nullMask &&& 0xff then [toByte nullBits] else [], [])
  | column :: columns, nullMask, nullBits =>
    if column.used then
      let nullBits := setNullBit nullBits nullMask column.cell.isNull
      let data := if column.cell.isNull then [] else column.field.pack column.cell.value
      if nullMask <<< 1 &&& 0xff = 0 then
        let rest := packLoop columns 1 0xff
        (toByte nullBits :: rest.1, data ++ rest.2)
      else
        let rest := packLoop columns (nullMask <<< 1) nullBits
        (rest.1, data ++ rest.2)
    else packLoop columns nullMask nullBits

/-- Fails if an assertion on `null_ptr` does. -/
def packRow (columns : List (Column V)) : Option (List UInt8) :=
  let row := packLoop columns 1 0xff
  if row.1.length = nullByteCount (columns.map Column.used) then some (row.1 ++ row.2) else none

structure NullReader where
  nullMask : BitVec 32
  nullBits : BitVec 32
  nullPtr : List UInt8

namespace NullReader

def load (r : NullReader) : Option NullReader :=
  match r.nullPtr with
  | [] => none
  | b :: nullPtr => some ⟨1, b.toBitVec.setWidth 32, nullPtr⟩

def next (r : NullReader) : Option (Bool × NullReader) := do
  let r ← if r.nullMask &&& 0xff = 0 then r.load else some r
  some (r.nullBits &&& r.nullMask ≠ 0, { r with nullMask := r.nullMask <<< 1 })

end NullReader

def unpackField (f : FieldDef V) (cell : Cell V) (isNull : Bool) (packPtr : List UInt8) :
    Option (Cell V × List UInt8) :=
  if isNull then
    if f.maybeNull then some (⟨true, f.resetValue⟩, packPtr)
    else some ({ cell with value := f.defaultValue }, packPtr)
  else do
    let (value, packPtr) ← f.unpack packPtr
    some (⟨false, value⟩, packPtr)

def unpackFields : List (FieldDef V) -> List (Cell V) -> List Bool -> NullReader -> List UInt8 ->
    Option (List (Cell V) × NullReader × List UInt8)
  | f :: fields, cell :: record, used :: cols, r, packPtr =>
    if used then do
      let (isNull, r) ← r.next
      let (cell, packPtr) ← unpackField f cell isNull packPtr
      let (record, r, packPtr) ← unpackFields fields record cols r packPtr
      some (cell :: record, r, packPtr)
    else do
      let (record, r, packPtr) ← unpackFields fields record cols r packPtr
      some (cell :: record, r, packPtr)
  | _, record, _, r, packPtr => some (record, r, packPtr)

def skipFields : List (FieldDef V) -> List Bool -> NullReader -> List UInt8 ->
    Option (NullReader × List UInt8)
  | f :: tabledef, used :: cols, r, packPtr =>
    if used then do
      let (isNull, r) ← r.next
      skipFields tabledef cols r
        (if isNull && f.maybeNull then packPtr else packPtr.drop (f.calcFieldSize packPtr))
    else skipFields tabledef cols r packPtr
  | _, _, r, packPtr => some (r, packPtr)

/-- The record of the slave and what is behind `*current_row_end`. Fails if an assertion does. -/
def unpackRow (fields tabledef : List (FieldDef V)) (record : List (Cell V)) (cols : List Bool)
    (rowData : List UInt8) : Option (List (Cell V) × List UInt8) :=
  let packPtr := rowData.drop (nullByteCount cols)
  if cols.count true = 0 then some (record, packPtr)
  else do
    let r ← NullReader.load ⟨1, 0, rowData.take (nullByteCount cols)⟩
    let (record, r, packPtr) ← unpackFields fields record cols r packPtr
    let (r, packPtr) ← skipFields (tabledef.drop fields.length) (cols.drop fields.length) r packPtr
    if r.nullPtr = [] then some (record, packPtr) else none

def writeNulls (nullMask nullBits : BitVec 32) : List Bool -> List UInt8
  | [] => if 1 < nullMask &&& 0xff then [toByte nullBits] else []
  | isNull :: nulls =>
    if nullMask <<< 1 &&& 0xff = 0 then
      toByte (setNullBit nullBits nullMask isNull) :: writeNulls 1 0xff nulls
    else writeNulls (nullMask <<< 1) (setNullBit nullBits nullMask isNull) nulls

/-- The reader gets these bits, and no byte is left behind them. -/
def NullReader.Reads : NullReader -> List Bool -> Prop
  | r, [] => r.nullPtr = []
  | r, isNull :: nulls => ∃ r', r.next = some (isNull, r') ∧ Reads r' nulls

lemma mask_shift : ∀ j < 8, BitVec.twoPow 32 j <<< 1 = BitVec.twoPow 32 (j + 1) ∧
    (BitVec.twoPow 32 (j + 1) &&& 0xff = 0 ↔ j + 1 = 8) ∧
    (1 < BitVec.twoPow 32 j &&& 0xff ↔ 0 < j) ∧ BitVec.twoPow 32 j &&& 0xff ≠ 0 := by
  decide

lemma getLsbD_setNullBit {i j : Nat} {isNull : Bool} (hj : j < 8) :
    (setNullBit bits (BitVec.twoPow 32 j) isNull).getLsbD i =
      if i = j then isNull else bits.getLsbD i := by
  have hj' : j < 32 := by omega
  by_cases hij : i = j
  · subst hij
    cases isNull <;> simp [setNullBit, hj']
  · cases isNull <;> simp [setNullBit, hij, Ne.symm hij]
    intro h
    exact BitVec.lt_of_getLsbD h

lemma getLsbD_toByte {i : Nat} (hi : i < 8) :
    ((toByte bits).toBitVec.setWidth 32).getLsbD i = bits.getLsbD i := by
  simp [toByte, hi, show i < 32 by omega]

section Masks
variable {i j : Nat} {bits : BitVec 32} {isNull : Bool} {nulls : List Bool} {b : UInt8}
  {bytes : List UInt8}

lemma writeNulls_nil (hj : j < 8) :
    writeNulls (BitVec.twoPow 32 j) bits [] = if 0 < j then [toByte bits] else [] := by
  simp only [writeNulls, (mask_shift j hj).2.2.1]

lemma writeNulls_cons (hj : j < 8) : writeNulls (BitVec.twoPow 32 j) bits (isNull :: nulls) =
      if j + 1 = 8 then
        toByte (setNullBit bits (BitVec.twoPow 32 j) isNull) ::
          writeNulls (BitVec.twoPow 32 0) 0xff nulls
      else
        writeNulls (BitVec.twoPow 32 (j + 1)) (setNullBit bits (BitVec.twoPow 32 j) isNull)
          nulls := by
  simp only [writeNulls, (mask_shift j hj).1, (mask_shift j hj).2.1]
  rfl

lemma length_writeNulls (hj : j < 8) :
    (writeNulls (BitVec.twoPow 32 j) bits nulls).length = (j + nulls.length + 7) / 8 := by
  induction nulls generalizing j bits with
  | nil =>
    rw [writeNulls_nil hj]
    split <;> simp <;> omega
  | cons isNull nulls ih =>
    rw [writeNulls_cons hj, length_cons]
    split
    · rw [length_cons, ih (by decide)]
      omega
    · rw [ih (by omega)]
      omega

/-- The bits that are set already stay in the byte that is written next. -/
lemma writeNulls_low (hj : j < 8) (h : writeNulls (BitVec.twoPow 32 j) bits nulls = b :: bytes)
    (hi : i < j) : (b.toBitVec.setWidth 32).getLsbD i = bits.getLsbD i := by
  induction nulls generalizing j bits with
  | nil =>
    rw [writeNulls_nil hj, if_pos (by omega)] at h
    obtain ⟨rfl, -⟩ := cons.inj h
    exact getLsbD_toByte (by omega)
  | cons isNull nulls ih =>
    have hset : (setNullBit bits (BitVec.twoPow 32 j) isNull).getLsbD i = bits.getLsbD i := by
      rw [getLsbD_setNullBit hj, if_neg (by omega)]
    rw [writeNulls_cons hj] at h
    split at h
    · obtain ⟨rfl, -⟩ := cons.inj h
      rw [getLsbD_toByte (by omega), hset]
    · rw [ih (by omega) h (by omega), hset]

lemma NullReader.next_eq (hj : j < 8) : NullReader.next ⟨BitVec.twoPow 32 j, bits, bytes⟩ =
      some (bits.getLsbD j, ⟨BitVec.twoPow 32 (j + 1), bits, bytes⟩) := by
  obtain ⟨hshift, -, -, hmask⟩ := mask_shift j hj
  have htest : decide (bits &&& BitVec.twoPow 32 j ≠ 0) = bits.getLsbD j := by
    have hne : BitVec.twoPow 32 j ≠ 0 := fun h => hmask (by rw [h]; rfl)
    rw [BitVec.and_twoPow]
    cases bits.getLsbD j with
    | false => rfl
    | true => exact decide_eq_true hne
  simp only [NullReader.next, if_neg hmask, some_bind, htest, hshift]

/-- When a byte is used up, the next one is fetched before a bit is taken. -/
lemma NullReader.next_full : NullReader.next ⟨BitVec.twoPow 32 8, bits, b :: bytes⟩ =
      NullReader.next ⟨BitVec.twoPow 32 0, b.toBitVec.setWidth 32, bytes⟩ := by
  have hfull : BitVec.twoPow 32 8 &&& 0xff = 0 := by decide
  have hstart : BitVec.twoPow 32 0 &&& 0xff ≠ 0 := by decide
  simp only [NullReader.next, if_pos hfull, if_neg hstart]
  rfl

/-- A reader that is in the middle of a byte, or has just fetched one. -/
lemma reads_writeNulls (hj : j < 8)
    (h : writeNulls (BitVec.twoPow 32 j) bits nulls = b :: bytes) :
    NullReader.Reads ⟨BitVec.twoPow 32 j, b.toBitVec.setWidth 32, bytes⟩ nulls := by
  induction nulls generalizing j bits b bytes with
  | nil =>
    rw [writeNulls_nil hj] at h
    split at h
    · exact (cons.inj h).2.symm
    · cases h
  | cons isNull nulls ih =>
    have hself : (setNullBit bits (BitVec.twoPow 32 j) isNull).getLsbD j = isNull := by
      rw [getLsbD_setNullBit hj, if_pos rfl]
    rw [writeNulls_cons hj] at h
    refine ⟨⟨BitVec.twoPow 32 (j + 1), b.toBitVec.setWidth 32, bytes⟩, ?_, ?_⟩
    · rw [NullReader.next_eq hj]
      split at h
      · obtain ⟨rfl, -⟩ := cons.inj h
        rw [getLsbD_toByte hj, hself]
      · rw [writeNulls_low (by omega) h (lt_succ_self j), hself]
    · split at h
      case isTrue hlast =>
        obtain ⟨-, h⟩ := cons.inj h
        rw [hlast]
        cases nulls with
        | nil => exact h.symm
        | cons isNull' nulls =>
          have hlen : 0 < bytes.length := by
            rw [← h, length_writeNulls (by decide), length_cons]
            omega
          obtain ⟨b', bytes', rfl⟩ := exists_cons_of_length_pos hlen
          obtain ⟨r, hnext, hrest⟩ := ih (by decide) h
          exact ⟨r, NullReader.next_full.trans hnext, hrest⟩
      case isFalse => exact ih (by omega) h

end Masks

/-- `unpack` and `calc_field_size` consume what `pack` produced, and the value is restored. -/
def FieldDef.RoundTrip (f : FieldDef V) : Prop :=
  ∀ value rest, f.unpack (f.pack value ++ rest) = some (value, rest) ∧
    f.calcFieldSize (f.pack value ++ rest) = (f.pack value).length

/-- A column that the master and the slave may have: only a nullable one is NULL. -/
structure Column.Sound (column : Column V) : Prop where
  roundTrip : column.field.RoundTrip
  nullable : column.cell.isNull = true -> column.field.maybeNull = true

def Column.data (column : Column V) : List UInt8 :=
  if column.cell.isNull then [] else column.field.pack column.cell.value

def nullsOf (columns : List (Column V)) : List Bool :=
  (columns.filter Column.used).map fun column => column.cell.isNull

def dataOf (columns : List (Column V)) : List UInt8 :=
  (columns.filter Column.used).flatMap Column.data

def Column.restore (column : Column V) (cell : Cell V) : Cell V :=
  if column.used then
    if column.cell.isNull then ⟨true, column.field.resetValue⟩ else ⟨false, column.cell.value⟩
  else cell

section Rows
variable {column : Column V} {columns : List (Column V)} {r : NullReader} {rest : List UInt8}

lemma nullsOf_cons : nullsOf (column :: columns) =
    if column.used then column.cell.isNull :: nullsOf columns else nullsOf columns := by
  cases hused : column.used <;> simp [nullsOf, hused]

lemma dataOf_cons : dataOf (column :: columns) =
    if column.used then column.data ++ dataOf columns else dataOf columns := by
  cases hused : column.used <;> simp [dataOf, hused]

lemma packLoop_eq (columns : List (Column V)) (nullMask nullBits : BitVec 32) :
    packLoop columns nullMask nullBits =
      (writeNulls nullMask nullBits (nullsOf columns), dataOf columns) := by
  induction columns generalizing nullMask nullBits with
  | nil => rfl
  | cons column columns ih =>
    rw [packLoop]
    rw [nullsOf_cons, dataOf_cons]
    split
    · simp only [ih, writeNulls]
      split <;> rfl
    · exact ih nullMask nullBits

lemma Column.Sound.unpackField_data (h : column.Sound)
    (hused : column.used = true) (cell : Cell V) :
    unpackField column.field cell column.cell.isNull (column.data ++ rest) =
      some (column.restore cell, rest) := by
  cases hnull : column.cell.isNull with
  | false => simp [unpackField, Column.data, Column.restore, hused, hnull, (h.roundTrip _ rest).1]
  | true => simp [unpackField, Column.data, Column.restore, hused, hnull, h.nullable hnull]

lemma unpackFields_spec (hcolumns : ∀ column ∈ columns, column.Sound) (record : List (Cell V))
    (hlen : record.length ≤ columns.length) (hr : r.Reads (nullsOf columns)) :
    ∃ r', unpackFields ((columns.take record.length).map Column.field) record
        (columns.map Column.used) r (dataOf columns ++ rest) =
          some (zipWith Column.restore columns record, r',
            dataOf (columns.drop record.length) ++ rest) ∧
      r'.Reads (nullsOf (columns.drop record.length)) := by
  induction record generalizing columns r with
  | nil => exact ⟨r, by simp [unpackFields], hr⟩
  | cons cell record ih =>
    cases columns with
    | nil => simp at hlen
    | cons column columns =>
      have hrest := fun c hc => hcolumns c (mem_cons_of_mem column hc)
      have hlen' : record.length ≤ columns.length := by simpa using hlen
      rw [nullsOf_cons] at hr
      simp only [length_cons, take_succ_cons, map_cons, unpackFields,
        drop_succ_cons, zipWith_cons_cons, dataOf_cons]
      cases hused : column.used with
      | false =>
        rw [hused] at hr
        obtain ⟨r', hrun, hr'⟩ := ih hrest hlen' hr
        refine ⟨r', ?_, hr'⟩
        simp only [Bool.false_eq_true, if_false, hrun, some_bind, Column.restore, hused]
      | true =>
        rw [hused] at hr
        obtain ⟨r1, hnext, hr1⟩ := hr
        obtain ⟨r', hrun, hr'⟩ := ih hrest hlen' hr1
        refine ⟨r', ?_, hr'⟩
        simp only [if_true, hnext, hrun, append_assoc, some_bind,
          (hcolumns column mem_cons_self).unpackField_data hused]

lemma skipFields_spec (hcolumns : ∀ column ∈ columns, column.Sound)
    (hr : r.Reads (nullsOf columns)) :
    ∃ r', skipFields (columns.map Column.field) (columns.map Column.used) r
        (dataOf columns ++ rest) = some (r', rest) ∧ r'.nullPtr = [] := by
  induction columns generalizing r with
  | nil => exact ⟨r, rfl, hr⟩
  | cons column columns ih =>
    have hrest := fun c hc => hcolumns c (mem_cons_of_mem column hc)
    rw [nullsOf_cons] at hr
    simp only [map_cons, skipFields, dataOf_cons]
    cases hused : column.used with
    | false =>
      rw [hused] at hr
      exact ih hrest hr
    | true =>
      rw [hused] at hr
      obtain ⟨r1, hnext, hr1⟩ := hr
      obtain ⟨r', hrun, hr'⟩ := ih hrest hr1
      refine ⟨r', ?_, hr'⟩
      have hsound := hcolumns column mem_cons_self
      cases hnull : column.cell.isNull with
      | false => simp [hnext, hnull, hrun, Column.data, (hsound.roundTrip _ _).2]
      | true => simp [hnext, hnull, hrun, Column.data, hsound.nullable hnull]

lemma length_nullsOf : (nullsOf columns).length = (columns.map Column.used).count true := by
  induction columns with
  | nil => rfl
  | cons column columns ih =>
    rw [nullsOf_cons, map_cons]
    cases column.used <;> simp [ih]

lemma zipWith_restore_of_unused (hunused : ∀ column ∈ columns, column.used = false)
    (record : List (Cell V)) (hlen : record.length ≤ columns.length) :
    zipWith Column.restore columns record = record := by
  induction record generalizing columns with
  | nil => exact zipWith_nil_right
  | cons cell record ih =>
    cases columns with
    | nil => simp at hlen
    | cons column columns =>
      rw [zipWith_cons_cons, ih (fun c hc => hunused c (mem_cons_of_mem column hc))
        (by simpa using hlen), Column.restore, hunused column mem_cons_self]
      rfl

end Rows

/-- A row image that the slave unpacks restores the columns that are stored and that it has, leaves
its other columns alone, and ends where `pack_row` says. -/
theorem unpackRow_packRow (columns : List (Column V)) (hcolumns : ∀ column ∈ columns, column.Sound)
    (record : List (Cell V)) (hlen : record.length ≤ columns.length) (rest : List UInt8) :
    ∃ row, packRow columns = some row ∧
      unpackRow ((columns.take record.length).map Column.field) (columns.map Column.field) record
        (columns.map Column.used) (row ++ rest) =
          some (zipWith Column.restore columns record, rest) := by
  have hbytes : (writeNulls 1 0xff (nullsOf columns)).length =
      nullByteCount (columns.map Column.used) := by
    have h := @length_writeNulls 0 0xff (nullsOf columns) (by decide)
    rw [length_nullsOf, zero_add] at h
    exact h
  refine ⟨writeNulls 1 0xff (nullsOf columns) ++ dataOf columns, ?_, ?_⟩
  · simp only [packRow, packLoop_eq, hbytes, if_true]
  · unfold unpackRow
    rw [append_assoc, drop_left' hbytes, take_left' hbytes]
    by_cases hnone : (columns.map Column.used).count true = 0
    · have hunused : ∀ column ∈ columns, column.used = false := by
        simpa [count_eq_zero] using hnone
      have hdata : dataOf columns = [] := by
        rw [dataOf, filter_eq_nil_iff.mpr (by simpa using hunused)]
        rfl
      rw [if_pos hnone, hdata, nil_append, zipWith_restore_of_unused hunused record hlen]
    · have hpos : 0 < (writeNulls 1 0xff (nullsOf columns)).length := by
        rw [hbytes, nullByteCount]
        omega
      obtain ⟨b, bytes, hnulls⟩ := exists_cons_of_length_pos hpos
      have hreads := @reads_writeNulls 0 0xff (nullsOf columns) b bytes (by decide) hnulls
      obtain ⟨r1, hunpack, hr1⟩ := @unpackFields_spec V columns _ rest hcolumns record hlen hreads
      obtain ⟨r2, hskip, hr2⟩ := @skipFields_spec V _ _ rest
        (fun c hc => hcolumns c (mem_of_mem_drop hc)) hr1
      have hload : NullReader.load ⟨1, 0, b :: bytes⟩ =
          some ⟨BitVec.twoPow 32 0, b.toBitVec.setWidth 32, bytes⟩ := rfl
      have hfields : ((columns.take record.length).map Column.field).length = record.length := by
        rw [length_map, length_take, min_eq_left hlen]
      simp only [if_neg hnone, hnulls, hload, some_bind, hunpack,
        hfields, ← map_drop, hskip, hr2, if_true]

def byteColumn (maybeNull used isNull : Bool) (value : UInt8) : Column UInt8 where
  field := ⟨maybeNull, fun v => [v], fun l => l.head?.map fun v => (v, l.tail), fun _ => 1, 0, 0⟩
  used := used
  cell := ⟨isNull, value⟩

theorem unpackRow_packRow_three_columns :
    ∃ row, packRow [byteColumn true true true 1, byteColumn false false false 2,
        byteColumn false true false 3] = some row ∧
      unpackRow [(byteColumn true true true 1).field, (byteColumn false false false 2).field]
        [(byteColumn true true true 1).field, (byteColumn false false false 2).field,
          (byteColumn false true false 3).field] [⟨false, 7⟩, ⟨false, 8⟩] [true, false, true]
        (row ++ [9]) = some ([⟨true, 0⟩, ⟨false, 8⟩], [9]) :=
  unpackRow_packRow [byteColumn true true true 1, byteColumn false false false 2,
    byteColumn false true false 3] (by
      intro column hcolumn
      simp only [mem_cons, not_mem_nil, or_false] at hcolumn
      rcases hcolumn with rfl | rfl | rfl <;>
        exact ⟨fun value rest => ⟨rfl, rfl⟩, by decide⟩)
    [⟨false, 7⟩, ⟨false, 8⟩] (by decide) [9]

end Rpl
