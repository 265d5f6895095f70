import EryMysql.Strings.Numbers

/-!
# Dynamic columns

The search for a column in a packed record, by mysys/ma_dyncol.c. A record and a name are pointers
with a length, and the code reads what stands in memory after them too: a string is the memory from
its first byte on. `bsearch` of the C library is a parameter, and so are the readers of the values.
-/

namespace Dyncol

open List Strings Option Nat

/-- `DYNAMIC_COLUMN` and `LEX_STRING`. -/
structure MemString where
  memory : List UInt8
  length : Nat

def MemString.text (s : MemString) : List UInt8 := s.memory.take s.length

/-- `uint2korr` to `uint5korr`, by the number of bytes. -/
def korr (memory : List UInt8) (place : Nat) : Nat -> Nat
  | 0 => 0
  | n + 1 => (memory.getD place 0).toNat + 256 * korr memory (place + 1) n

inductive Format
  | num | str
  deriving DecidableEq

inductive FuncResult
  | ok | yes | format | limit | resource | data | unknownCharset | truncated
  deriving DecidableEq

/-- `ER_DYNCOL_NO` -/
abbrev FuncResult.no : FuncResult := .ok

/-- `DYN_COL_NULL`; the types of the values follow up to `DYN_COL_DYNCOL`. -/
def dynColNull : Nat := 0

def dynColDyncol : Nat := 9

/-- The size of the fixed header and the bits of a type in an entry. -/
def Format.fixedHdr : Format -> Nat
  | .num => 3
  | .str => 5

def Format.typeBits : Format -> Nat
  | .num => 3
  | .str => 4

/-- The size of the fixed part of an entry, `COLUMN_NUMBER_SIZE` and `COLUMN_NAMEPTR_SIZE`. -/
def fixedHdrEntry : Nat := 2

structure DynHeader where
  format : Format
  offsetSize : Nat
  columnCount : Nat
  nmpoolSize : Nat

namespace DynHeader

variable (hdr : DynHeader)

def entrySize : Nat := hdr.offsetSize + fixedHdrEntry
def headerSize : Nat := hdr.entrySize * hdr.columnCount
def nmpool : Nat := hdr.format.fixedHdr + hdr.headerSize
def dtpool : Nat := hdr.nmpool + hdr.nmpoolSize

/-- The difference is in the unsigned arithmetic of `size_t`. -/
def dataSize (str : MemString) : Nat := (str.length + 2 ^ 64 - hdr.dtpool) % 2 ^ 64

def entry (i : Nat) : Nat := hdr.format.fixedHdr + hdr.entrySize * i

end DynHeader

/-- `init_read_hdr`, with `read_fixed_header`. -/
def initReadHdr (str : MemString) : Option DynHeader :=
  let flags := korr str.memory 0 1
  let format := if flags / 4 % 2 = 1 then Format.str else .num
  if str.length < 1 ∨ 8 ≤ flags ∨ str.length < format.fixedHdr then none
  else some
    { format
      offsetSize := flags % 4 + 1 + if format = .str then 1 else 0
      columnCount := korr str.memory 1 2
      nmpoolSize := if format = .str then korr str.memory 3 2 else 0 }

/-- `type_and_offset_read_num` and `type_and_offset_read_named`: the type and the offset. -/
def typeAndOffsetRead (hdr : DynHeader) (memory : List UInt8) (i : Nat) : Option (Nat × Nat) :=
  let val := korr memory (hdr.entry i + fixedHdrEntry) hdr.offsetSize
  let offset := val / 2 ^ hdr.format.typeBits
  if 2 ^ (8 * hdr.offsetSize - hdr.format.typeBits) - 1 ≤ offset then none
  else some (val % 2 ^ hdr.format.typeBits + 1, offset)

structure Column where
  type : Nat
  data : Nat
  length : Nat

def Column.null : Column := ⟨dynColNull, 0, 0⟩

/-- Where the data of a column end: at those of the next one, or with the record. -/
def nextOffset (hdr : DynHeader) (str : MemString) (i : Nat) : Option Nat :=
  if i + 1 = hdr.columnCount then some (hdr.dataSize str)
  else (typeAndOffsetRead hdr str.memory (i + 1)).map Prod.snd

/-- `hdr_interval_length`, with the checks of `find_column`. -/
def hdrInterval (hdr : DynHeader) (str : MemString) (i : Nat) : Option Column := do
  let (type, offset) ← typeAndOffsetRead hdr str.memory i
  let next ← nextOffset hdr str i
  let length := (next + 2 ^ 64 - offset) % 2 ^ 64
  if hdr.dataSize str < offset ∨ hdr.dataSize str < next ∨ 2 ^ 31 ≤ length then none
  else some ⟨type, hdr.dtpool + offset, length⟩

/-- The number of a column, or the offset of its name. -/
def columnNumber (hdr : DynHeader) (memory : List UInt8) (i : Nat) : Nat := korr memory (hdr.entry i) 2

def readName (hdr : DynHeader) (memory : List UInt8) (i : Nat) : Option MemString :=
  let nmoffset := columnNumber hdr memory i
  let next := if i + 1 = hdr.columnCount then hdr.nmpoolSize else columnNumber hdr memory (i + 1)
  if hdr.nmpoolSize < nmoffset ∨ hdr.nmpoolSize < next then none
  else some ⟨memory.drop (hdr.nmpool + nmoffset), (next + 2 ^ 64 - nmoffset) % 2 ^ 64⟩

/-- `find_entry_named`, between `min` and the entry after `max`. -/
def findEntryNamed (hdr : DynHeader) (memory key : List UInt8) (min stop : Nat) : Option Nat :=
  if min < stop then
    let mid := (min + (stop - 1)) / 2
    match readName hdr memory mid with
    | none => none
    | some name =>
      match (compare name.length key.length).then (compare name.text key) with
      | .lt => findEntryNamed hdr memory key (mid + 1) stop
      | .gt => findEntryNamed hdr memory key min mid
      | .eq => some mid
  else none
termination_by stop - min

/-- The loop is the one of `longlong10_to_str`. -/
def backwritenum (numkey : Nat) : List UInt8 := longlong10ToStr (.ofNat numkey)

/-- `DYNCOL_NUM_CHAR`, the size of `nmkeybuff`. -/
def dyncolNumChar : Nat := 6

def isSpace (c : UInt8) : Bool := c ∈ [9, 10, 11, 12, 13, 32]

/-- `strtoul` of the C library to base 10: the value, and how much of the text was read. -/
def strtoul (s : List UInt8) : Nat × Nat :=
  let signed := splitSign (s.dropWhile isSpace)
  let digits := signed.2.takeWhile isDigit
  let value := numeral 0 digits
  if digits = [] then (0, 0)
  else (if 2 ^ 64 ≤ value then 2 ^ 64 - 1 else if signed.1 then (2 ^ 64 - value) % 2 ^ 64 else value,
    s.length - signed.2.length + digits.length)

/-- A column is looked for by its number, or by its name if there is one. -/
structure Key where
  num : Nat
  str : Option MemString

/-- The number that is looked for in a record with numbers. -/
def Key.number? : Key -> Option Nat
  | ⟨num, none⟩ => some num
  | ⟨_, some name⟩ =>
    if (strtoul name.memory).2 = name.length then some ((strtoul name.memory).1 % 2 ^ 32) else none

/-- The name that is looked for in a record with names. The digits of a number are written to
`nmkeybuff` from its end on; `none` if they do not fit, and are written before it, too. -/
def Key.name : Key -> Option (List UInt8)
  | ⟨num, none⟩ => if num < 10 ^ dyncolNumChar then some (backwritenum num) else none
  | ⟨_, some name⟩ => some name.text

section Lookup
variable (bsearch : (Nat -> Ordering) -> Nat -> Option Nat) (read : Column -> FuncResult)
  (str : MemString) (key : Key)

/-- The key is stored in two bytes. -/
def findEntryNum (hdr : DynHeader) (memory : List UInt8) (key : Nat) : Option Nat :=
  bsearch (fun i => compare (key % 2 ^ 16) (columnNumber hdr memory i)) hdr.columnCount

def findEntry (hdr : DynHeader) : Option (Option Nat) :=
  match hdr.format with
  | .num => some (key.number?.bind (findEntryNum bsearch hdr str.memory))
  | .str => key.name.map fun name => findEntryNamed hdr str.memory name 0 hdr.columnCount

/-- An error in the data is `some none`. -/
def findColumn (hdr : DynHeader) : Option (Option Column) :=
  if str.length < hdr.nmpool then some none
  else (findEntry bsearch str key hdr).map fun
    | none => some .null
    | some i => hdrInterval hdr str i

def dynamicColumnGetValue (column : Column) : FuncResult × Nat :=
  if column.type = dynColNull then (.ok, dynColNull)
  else if column.type ≤ dynColDyncol then (read column, column.type)
  else (.format, dynColNull)

def dynamicColumnGetInternal : Option (FuncResult × Nat) :=
  if str.length = 0 then some (.ok, dynColNull)
  else match initReadHdr str with
    | none => some (.format, dynColNull)
    | some hdr =>
      if hdr.columnCount = 0 then some (.ok, dynColNull)
      else (findColumn bsearch str key hdr).map fun
        -- `rc` is still what `init_read_hdr` returned
        | none => (.ok, dynColNull)
        | some column => dynamicColumnGetValue read column

def dynamicColumnExistsInternal : Option FuncResult :=
  if str.length = 0 then some .no
  else match initReadHdr str with
    | none => some .format
    | some hdr =>
      if hdr.columnCount = 0 then some .no
      else (findColumn bsearch str key hdr).map fun
        | none => .format
        | some column => if column.type ≠ dynColNull then .yes else .no

/-- Where `exists` finds the record malformed, so does `get`; where there is no column, the value is
`NULL`. -/
def Agree : Prop := ∃ found value, dynamicColumnExistsInternal bsearch str key = some found ∧
  dynamicColumnGetInternal bsearch read str key = some value ∧
  (found = .format -> value.1 = .format) ∧ (found = .no -> value = (.ok, dynColNull))

end Lookup

namespace DynHeader

variable (hdr : DynHeader)

/-- The offset in the bytes of an entry, and the first one that its bits are not for. -/
def offset (memory : List UInt8) (i : Nat) : Nat :=
  korr memory (hdr.entry i + fixedHdrEntry) hdr.offsetSize / 2 ^ hdr.format.typeBits

def offsetLimit : Nat := 2 ^ (8 * hdr.offsetSize - hdr.format.typeBits) - 1

/-- The data of an entry are within those of the record: they begin not after they end, at the offset
of the next entry or with the record. -/
def InRange (str : MemString) (i : Nat) : Prop :=
  ∃ next, (if i + 1 = hdr.columnCount then next = hdr.dataSize str
      else next = hdr.offset str.memory (i + 1) ∧ next < hdr.offsetLimit) ∧
    hdr.offset str.memory i < hdr.offsetLimit ∧ hdr.offset str.memory i ≤ next ∧
    next ≤ hdr.dataSize str ∧ next < hdr.offset str.memory i + 2 ^ 31

end DynHeader

section Range
variable {bsearch : (Nat -> Ordering) -> Nat -> Option Nat} {read : Column -> FuncResult}
  {str : MemString} {key : Key} {hdr : DynHeader} {i : Nat}

lemma korr_lt (memory : List UInt8) (place n : Nat) : korr memory place n < 256 ^ n := by
  induction n generalizing place with
  | zero => exact one_pos
  | succ n ih =>
    have hbyte := (memory.getD place 0).toNat_lt
    have hrest := ih (place + 1)
    rw [korr]
    omega

lemma offset_lt (hread : initReadHdr str = some hdr) : hdr.offset str.memory i < 2 ^ 40 := by
  have hsize : hdr.offsetSize ≤ 5 := by
    simp only [initReadHdr, ite_none_left_eq_some, some.injEq] at hread
    obtain ⟨-, rfl⟩ := hread
    dsimp only
    split_ifs <;> omega
  calc hdr.offset str.memory i ≤ korr str.memory (hdr.entry i + fixedHdrEntry) hdr.offsetSize :=
        Nat.div_le_self _ _
    _ < 256 ^ hdr.offsetSize := korr_lt _ _ _
    _ ≤ 256 ^ 5 := Nat.pow_le_pow_right (by decide) hsize

lemma typeAndOffsetRead_eq_some_iff {offset : Nat} :
    (∃ type, typeAndOffsetRead hdr str.memory i = some (type, offset)) ↔
      offset = hdr.offset str.memory i ∧ offset < hdr.offsetLimit := by
  simp only [typeAndOffsetRead, DynHeader.offset, DynHeader.offsetLimit, ite_none_left_eq_some,
    not_le, some.injEq, Prod.mk.injEq]
  constructor
  · rintro ⟨type, hlt, -, rfl⟩
    exact ⟨rfl, hlt⟩
  · rintro ⟨rfl, hlt⟩
    exact ⟨_, hlt, rfl, rfl⟩

lemma nextOffset_eq_some_iff {next : Nat} : nextOffset hdr str i = some next ↔
    if i + 1 = hdr.columnCount then next = hdr.dataSize str
    else next = hdr.offset str.memory (i + 1) ∧ next < hdr.offsetLimit := by
  unfold nextOffset
  split
  · exact some_inj.trans eq_comm
  · rw [← typeAndOffsetRead_eq_some_iff, map_eq_some_iff]
    simp

lemma hdrInterval_ne_none_iff (hread : initReadHdr str = some hdr) :
    hdrInterval hdr str i ≠ none ↔ hdr.InRange str i := by
  have hoffset := @offset_lt str hdr i hread
  have hsize : hdr.dataSize str < 2 ^ 64 := Nat.mod_lt _ (by decide)
  simp only [ne_none_iff_exists', hdrInterval, bind_eq_bind, bind_eq_some_iff,
    ite_none_left_eq_some, DynHeader.InRange, ← nextOffset_eq_some_iff]
  constructor
  · rintro ⟨column, ⟨type, offset⟩, hentry, next, hnext, hin, -⟩
    obtain ⟨rfl, hlimit⟩ := typeAndOffsetRead_eq_some_iff.mp ⟨type, hentry⟩
    exact ⟨next, hnext, hlimit, by omega, by omega, by omega⟩
  · rintro ⟨next, hnext, hlimit, hle, hend, hlength⟩
    obtain ⟨type, hentry⟩ := typeAndOffsetRead_eq_some_iff.mpr ⟨rfl, hlimit⟩
    exact ⟨_, _, hentry, next, hnext, by omega, rfl⟩

lemma Key.name_ne_none_iff : key.name ≠ none ↔ (key.str = none -> key.num < 10 ^ dyncolNumChar) := by
  obtain ⟨num, - | str⟩ := key <;> simp [Key.name]

/-- The column is told exactly if the header and the key fit and the entry of the column is in
range. -/
lemma exists_findColumn_iff (hread : initReadHdr str = some hdr) :
    (∃ column, findColumn bsearch str key hdr = some (some column)) ↔ hdr.nmpool ≤ str.length ∧
      (hdr.format = .str -> key.str = none -> key.num < 10 ^ dyncolNumChar) ∧
      ∀ i, findEntry bsearch str key hdr = some (some i) -> hdr.InRange str i := by
  have hentry : findEntry bsearch str key hdr ≠ none ↔
      (hdr.format = .str -> key.str = none -> key.num < 10 ^ dyncolNumChar) := by
    rw [findEntry, ← Key.name_ne_none_iff]
    cases hdr.format <;> simp
  rw [← hentry, findColumn]
  by_cases hfits : str.length < hdr.nmpool
  · simp [hfits]
  · rw [if_neg hfits]
    rcases findEntry bsearch str key hdr with - | - | i
    · simp
    · simpa using not_lt.mp hfits
    · simpa [← hdrInterval_ne_none_iff hread, ne_none_iff_exists'] using fun _ _ => not_lt.mp hfits

end Range

/-- The two agree exactly if the header fits into the record, a number that is looked for as a name
fits into its buffer, and the data of the entry that is found are within the record. -/
theorem agree_iff (bsearch : (Nat -> Ordering) -> Nat -> Option Nat) (read : Column -> FuncResult)
    (str : MemString) (key : Key) :
    Agree bsearch read str key ↔ ∀ hdr, initReadHdr str = some hdr -> hdr.columnCount ≠ 0 ->
      hdr.nmpool ≤ str.length ∧
      (hdr.format = .str -> key.str = none -> key.num < 10 ^ dyncolNumChar) ∧
      ∀ i, findEntry bsearch str key hdr = some (some i) -> hdr.InRange str i := by
  unfold Agree dynamicColumnExistsInternal dynamicColumnGetInternal
  by_cases hlength : str.length = 0
  · have hnone : initReadHdr str = none := by simp [initReadHdr, hlength]
    simp [hlength, hnone]
  · simp only [if_neg hlength]
    cases hread : initReadHdr str with
    | none => simp
    | some hdr =>
      by_cases hcount : hdr.columnCount = 0
      · simp [hcount]
      · simp only [some.injEq, forall_eq', ne_eq, hcount, not_false_eq_true,
          forall_const]
        rw [← exists_findColumn_iff hread]
        rcases hfind : findColumn bsearch str key hdr with - | - | column
        · simp
        · simp
        · by_cases htype : column.type = dynColNull
          · simp [htype, dynamicColumnGetValue]
          · simp [htype]

/-- One column is announced, and there is no entry for it. -/
theorem not_agree_cut : ¬ Agree (fun _ _ => none) (fun _ => .ok) ⟨[0, 1, 0], 3⟩ ⟨0, none⟩ := by
  rintro ⟨found, value, hfound, hvalue, hformat, -⟩
  obtain rfl : .format = found := some.inj hfound
  obtain rfl : (.ok, dynColNull) = value := some.inj hvalue
  exact absurd (hformat rfl) (by decide)

/-- What the C library says about `bsearch`. -/
def IsBsearch (bsearch : (Nat -> Ordering) -> Nat -> Option Nat) : Prop :=
  ∀ cmp n, (∀ i j, i < j -> j < n -> (cmp i = .lt -> cmp j = .lt) ∧ (cmp j = .gt -> cmp i = .gt)) ->
    (∀ i, bsearch cmp n = some i -> i < n ∧ cmp i = .eq) ∧
      (bsearch cmp n = none -> ∀ i < n, cmp i ≠ .eq)

structure IsNumeric (str : MemString) (hdr : DynHeader) : Prop where
  read : initReadHdr str = some hdr
  format : hdr.format = .num
  fits : hdr.nmpool ≤ str.length
  sorted : ∀ i j, i < j -> j < hdr.columnCount ->
    columnNumber hdr str.memory i < columnNumber hdr str.memory j
  intervals : ∀ i < hdr.columnCount, hdrInterval hdr str i ≠ none

def Stored (hdr : DynHeader) (memory : List UInt8) (n : Nat) : Prop :=
  ∃ i < hdr.columnCount, columnNumber hdr memory i = n

/-- Whether the column is there, by `exists` and by `get`. -/
def Reports (bsearch : (Nat -> Ordering) -> Nat -> Option Nat) (read : Column -> FuncResult)
    (str : MemString) (key : Key) (there : Prop) : Prop :=
  (dynamicColumnExistsInternal bsearch str key = some .yes ↔ there) ∧
    ∃ value, dynamicColumnGetInternal bsearch read str key = some value ∧
      (value.2 ≠ dynColNull ↔ there)

section Exact
variable {bsearch : (Nat -> Ordering) -> Nat -> Option Nat} {read : Column -> FuncResult}
  {str name : MemString} {hdr : DynHeader} {n : Nat}

lemma Stored.lt (h : Stored hdr str.memory n) : n < 2 ^ 16 := by
  obtain ⟨i, -, rfl⟩ := h
  exact korr_lt str.memory (hdr.entry i) 2

lemma IsNumeric.type_le (h : IsNumeric str hdr) {i : Nat} {column : Column}
    (hcolumn : hdrInterval hdr str i = some column) :
    column.type ≠ dynColNull ∧ column.type ≤ dynColDyncol := by
  simp only [hdrInterval, typeAndOffsetRead, h.format, Format.typeBits, bind_eq_bind,
    bind_eq_some_iff, ite_none_left_eq_some, some.injEq] at hcolumn
  obtain ⟨-, ⟨-, rfl⟩, -, -, -, rfl⟩ := hcolumn
  simp only [dynColNull, dynColDyncol]
  omega

/-- The number that is looked for, in the two bytes of an entry, is stored. -/
def Sought (hdr : DynHeader) (memory : List UInt8) (key : Key) : Prop :=
  ∃ n, key.number? = some n ∧ Stored hdr memory (n % 2 ^ 16)

lemma findColumn_num (hb : IsBsearch bsearch) (h : IsNumeric str hdr) (key : Key) :
    (findColumn bsearch str key hdr = some (some .null) ∧ ¬ Sought hdr str.memory key) ∨
      ∃ column, findColumn bsearch str key hdr = some (some column) ∧
        (column.type ≠ dynColNull ∧ column.type ≤ dynColDyncol) ∧ Sought hdr str.memory key := by
  simp only [findColumn, if_neg h.fits.not_gt, findEntry, h.format, Sought, map_some]
  cases key.number? with
  | none => exact .inl ⟨rfl, by simp⟩
  | some n =>
    obtain ⟨hsome, hnone⟩ := hb (fun i => compare (n % 2 ^ 16) (columnNumber hdr str.memory i))
      hdr.columnCount fun i j hij hj => by
        have hlt := h.sorted i j hij hj
        simp only [compare_lt_iff_lt, compare_gt_iff_gt]
        omega
    simp only [bind_some, some.injEq, exists_eq_left']
    cases hentry : findEntryNum bsearch hdr str.memory n with
    | none =>
      refine .inl ⟨rfl, fun ⟨i, hi, heq⟩ => hnone hentry i hi ?_⟩
      exact compare_eq_iff_eq.mpr heq.symm
    | some i =>
      obtain ⟨hi, heq⟩ := hsome i hentry
      obtain ⟨column, hcolumn⟩ := ne_none_iff_exists'.mp (h.intervals i hi)
      exact .inr ⟨column, hcolumn, h.type_le hcolumn, i, hi, (compare_eq_iff_eq.mp heq).symm⟩

lemma reports_sought (hb : IsBsearch bsearch) (h : IsNumeric str hdr) (key : Key) :
    Reports bsearch read str key (Sought hdr str.memory key) := by
  have hlength : str.length ≠ 0 := by
    intro hzero
    have hread := h.read
    simp [initReadHdr, hzero] at hread
  unfold Reports dynamicColumnExistsInternal dynamicColumnGetInternal
  rcases findColumn_num hb h key with ⟨heq, hnot⟩ | ⟨column, heq, ⟨hne, hle⟩, hthere⟩
  · by_cases hcount : hdr.columnCount = 0 <;>
      simp [h.read, heq, hnot, Column.null, dynamicColumnGetValue]
  · have hcount : hdr.columnCount ≠ 0 := by
      obtain ⟨-, -, i, hi, -⟩ := hthere
      omega
    simp [hlength, h.read, hcount, heq, hthere, hne, hle, dynamicColumnGetValue]

lemma isSpace_of_isDigit {c : UInt8} (hc : isDigit c = true) : isSpace c = false := by
  have hnone : ∀ c ∈ [9, 10, 11, 12, 13, 32], isDigit c = false := by decide +kernel
  exact decide_eq_false fun hspace => by simp [hnone c hspace] at hc

/-- If no digit follows the digits of a number, they are read. -/
lemma strtoul_backwritenum (hn : n < 2 ^ 16) (htext : name.text = backwritenum n)
    (hend : (strtoul name.memory).2 = name.length) : (strtoul name.memory).1 = n := by
  obtain ⟨⟨hne, hdigits, hvalue⟩, -⟩ := longlong10ToStr_spec (.ofNat n)
  rw [UInt64.toNat_ofNat_of_lt' (by change n < 2 ^ 64; omega)] at hvalue
  have hmemory := take_append_drop name.length name.memory
  rw [MemString.text, backwritenum] at htext
  rw [htext] at hmemory
  have hlength := congrArg List.length htext
  obtain ⟨c, ds, hds⟩ := exists_cons_of_ne_nil hne
  have hc := hdigits c (hds ▸ mem_cons_self)
  have hsplit : splitSign (name.memory.dropWhile isSpace) = (false, name.memory) := by
    obtain ⟨-, -, hminus, hplus⟩ := not_blank_of_isDigit hc
    rw [← hmemory, hds, cons_append, dropWhile_cons_of_neg (by simp [isSpace_of_isDigit hc]),
      splitSign, if_neg hminus, if_neg hplus]
  have htake : name.memory.takeWhile isDigit = longlong10ToStr (.ofNat n) ++
      (name.memory.drop name.length).takeWhile isDigit := by
    conv_lhs => rw [← hmemory, takeWhile_append_of_pos hdigits]
  have hrest : (name.memory.drop name.length).takeWhile isDigit = [] := by
    rcases le_total name.memory.length name.length with hle | hle
    · rw [drop_eq_nil_of_le hle]
      rfl
    · rw [length_take_of_le hle] at hlength
      simp only [strtoul, hsplit, htake, append_eq_nil_iff, hne, false_and, if_false,
        length_append] at hend
      exact eq_nil_of_length_eq_zero (by omega)
  rw [hrest, append_nil] at htake
  simp only [strtoul, hsplit, htake, if_neg hne, hvalue]
  exact if_neg (by omega)

/-- A column is reported as present by its number exactly when it is stored, unless the number has
more than two bytes and those two are the number of a column; and by its name, unless the name is
another way to write the number of a column or is followed by a digit. -/
theorem reports_stored_iff (hb : IsBsearch bsearch) (h : IsNumeric str hdr) :
    (∀ num, Reports bsearch read str ⟨num, none⟩ (Stored hdr str.memory num) ↔
      (num < 2 ^ 16 ∨ ¬ Stored hdr str.memory (num % 2 ^ 16))) ∧
    ∀ name, Reports bsearch read str ⟨0, some name⟩
        (∃ n, Stored hdr str.memory n ∧ name.text = backwritenum n) ↔
      ∀ n, Stored hdr str.memory n -> ((Key.number? ⟨0, some name⟩).map (· % 2 ^ 16) = some n ↔
        name.text = backwritenum n) := by
  have hreports : ∀ key there, Reports bsearch read str key there ↔
      (Sought hdr str.memory key ↔ there) := by
    intro key there
    obtain ⟨hexists, value, hvalue, hget⟩ := @reports_sought bsearch read str hdr hb h key
    simp only [Reports, hexists, hvalue, some.injEq, exists_eq_left', hget, and_self]
  refine ⟨fun num => ?_, fun name => ?_⟩
  · rw [hreports]
    simp only [Sought, Key.number?, some.injEq, exists_eq_left']
    constructor
    · intro hiff
      by_contra hnot
      rw [not_or, not_not] at hnot
      exact absurd (hiff.mp hnot.2).lt (by omega)
    · rintro (hlt | hnot)
      · rw [mod_eq_of_lt hlt]
      · exact iff_of_false hnot fun hs => hnot ((mod_eq_of_lt hs.lt).symm ▸ hs)
  · rw [hreports]
    have hread : ∀ {n m}, Stored hdr str.memory n -> Stored hdr str.memory m ->
        name.text = backwritenum n -> (Key.number? ⟨0, some name⟩).map (· % 2 ^ 16) = some m ->
        m = n := by
      intro n m hn hm htext hmap
      simp only [Key.number?] at hmap
      split at hmap
      case isTrue hend =>
        rw [strtoul_backwritenum hn.lt htext hend] at hmap
        have hlt := hn.lt
        have hmod : n % 2 ^ 32 % 2 ^ 16 = m := some.inj hmap
        omega
      case isFalse => cases hmap
    have hsought : Sought hdr str.memory ⟨0, some name⟩ ↔
        ∃ n, Stored hdr str.memory n ∧ (Key.number? ⟨0, some name⟩).map (· % 2 ^ 16) = some n := by
      simp only [Sought, map_eq_some_iff]
      grind
    rw [hsought]
    constructor
    · intro hiff n hn
      constructor
      · intro hmap
        obtain ⟨m, hm, htext⟩ := hiff.mp ⟨n, hn, hmap⟩
        rw [hread hm hn htext hmap, htext]
      · intro htext
        obtain ⟨m, hm, hmap⟩ := hiff.mpr ⟨n, hn, htext⟩
        rw [hmap, hread hn hm htext hmap]
    · exact fun hall => exists_congr fun n => and_congr_right fun hn => hall n hn

end Exact

/-- A record with the column 5, and one with the columns 3, 5 and 9. -/
def fifthColumn : MemString := ⟨[0, 1, 0, 5, 0, 0, 1], 7⟩

def threeColumns : MemString := ⟨[0, 3, 0, 3, 0, 1, 5, 0, 9, 9, 0, 25, 7, 8, 9, 1], 16⟩

def firstEqual (cmp : Nat -> Ordering) (n : Nat) : Option Nat := (range n).find? (cmp · = .eq)

theorem reports_stored_iff_threeColumns :
    Reports firstEqual (fun _ => .ok) threeColumns ⟨9, none⟩
        (Stored ⟨.num, 1, 3, 0⟩ threeColumns.memory 9) ∧
      Reports firstEqual (fun _ => .ok) threeColumns ⟨4, none⟩
        (Stored ⟨.num, 1, 3, 0⟩ threeColumns.memory 4) := by
  have hnumeric : IsNumeric threeColumns ⟨.num, 1, 3, 0⟩ := by
    have hsorted : ∀ j < 3, ∀ i < j, columnNumber ⟨.num, 1, 3, 0⟩ threeColumns.memory i <
        columnNumber ⟨.num, 1, 3, 0⟩ threeColumns.memory j := by decide
    exact ⟨rfl, rfl, by decide, fun i j hij hj => hsorted j hj i hij, by decide⟩
  have hnum := (@reports_stored_iff firstEqual (fun _ => .ok) _ _ (fun cmp n _ =>
    ⟨fun i hi => ⟨mem_range.mp (mem_of_find?_eq_some hi), by simpa using find?_some hi⟩,
      fun hnone i hi => by simpa using find?_eq_none.mp hnone i (mem_range.mpr hi)⟩) hnumeric).1
  exact ⟨(hnum 9).mpr (.inl (by decide)), (hnum 4).mpr (.inl (by decide))⟩

theorem not_reports_wrapped : ¬ Reports firstEqual (fun _ => .ok) fifthColumn ⟨65541, none⟩
    (Stored ⟨.num, 1, 1, 0⟩ fifthColumn.memory 65541) := by
  rintro ⟨hexists, -⟩
  obtain ⟨i, hi, hnumber⟩ := hexists.mp (by decide)
  exact absurd hnumber (by decide +revert)

end Dyncol
