import EryMysql.Rpl.GtidText

/-!
# The state file

`write_to_iocache` writes one line for every GTID of the binlog state, in each domain
the most recent one last, and `read_from_iocache` rebuilds the state from the lines.
A write may fail, and then some part of its line may have reached the file.
-/

namespace Rpl

open KeyedList Strings List Option Nat

/-- The line `my_b_printf` makes of a GTID. -/
def gtidLine (gtid : Gtid) : List UInt8 :=
  int10ToStr gtid.domainId ++ '-'.toUInt8 ::
    (int10ToStr gtid.serverId ++ '-'.toUInt8 :: (longlong10ToStr gtid.seqNo ++ ['\n'.toUInt8]))

/-- What becomes of the writes, counted from the first: a failed one leaves that many
bytes of its line. -/
abbrev WritePattern := Nat -> Option Nat

/-- The writes from the `i`-th on, and the value of the inner `res` at the end. -/
def writeLoop (writes : WritePattern) : Nat -> List Gtid -> List UInt8 -> List UInt8 × Int
  | _, [], dest => (dest, 0)
  | i, gtid :: gtids, dest =>
    match writes i with
    | none => writeLoop writes (i + 1) gtids (dest ++ gtidLine gtid)
    | some n => (dest ++ (gtidLine gtid).take n, 1)

/-- The text written and the return value. The `res` that the loop sets is declared inside
it and hides the one that is returned. -/
def writeToIocache (writes : WritePattern) (st : BinlogState) : Option (List UInt8 × Int) := do
  let res : Int := 0
  let (dest, _) := writeLoop writes 0 (← entries st) []
  return (dest, res)

/-- `my_b_gets` with `left` bytes of room: up to the end of the line, of the room, or
nothing when the text ends before. -/
def myBGets : Nat -> List UInt8 -> Option (List UInt8 × List UInt8)
  | 0, src => some ([], src)
  | _ + 1, [] => none
  | left + 1, c :: src =>
    if c = '\n'.toUInt8 then some ([c], src)
    else (myBGets left src).map fun (line, rest) => (c :: line, rest)

def lineBuffer : Nat := 10 + 1 + 10 + 1 + 20 + 1 + 1

/-- The loop of `read_from_iocache`. Every turn takes at least one byte. -/
def readLoop (env : Gtid -> Env) : Nat -> List UInt8 -> BinlogState -> Option (BinlogState × Int)
  | 0, _, _ => none
  | fuel + 1, src, st =>
    match myBGets (lineBuffer - 1) src with
    | none => some (st, 0)
    | some (buf, src) =>
      match gtidParserHelper buf with
      | none => some (st, 1)
      | some (gtid, _) =>
        match updateNolock (env gtid) st gtid false with
        | (st, none) => readLoop env fuel src st
        | (st, some _) => some (st, 1)

def readFromIocache (env : Gtid -> Env) (src : List UInt8) : Option (BinlogState × Int) :=
  readLoop env (src.length + 1) src reset

section Lines
variable {gtid : Gtid} {rest : List UInt8}

lemma parseId_int10ToStr (d : UInt32) (rest : List UInt8) :
    parseId (int10ToStr d ++ '-'.toUInt8 :: rest) = some (d, rest) := by
  have hdec : IsDecimal (int10ToStr d) d.toUInt64.toNat := by
    exact (int10ToStr_spec d).1
  exact parseId_decimal hdec rest

lemma gtidParserHelper_gtidLine (gtid : Gtid) :
    gtidParserHelper (gtidLine gtid) = some (gtid, ['\n'.toUInt8]) := by
  have hends : Ends ['\n'.toUInt8] := ends_cons (by decide)
  unfold gtidParserHelper gtidLine
  simp only [parseId_int10ToStr, some_bind, myStrtoll10_decimal (longlong10ToStr_spec _).1 hends]
  rfl

lemma myBGets_line {left : Nat} {line : List UInt8} (hline : ∀ c ∈ line, c ≠ '\n'.toUInt8)
    (hleft : line.length < left) (rest : List UInt8) :
    myBGets left (line ++ '\n'.toUInt8 :: rest) = some (line ++ ['\n'.toUInt8], rest) := by
  induction line generalizing left with
  | nil =>
    obtain ⟨left, rfl⟩ := exists_eq_succ_of_ne_zero (ne_of_gt hleft)
    rfl
  | cons c line ih =>
    obtain ⟨left, rfl⟩ : ∃ n, left = n + 1 := ⟨left - 1, by omega⟩
    have hc := hline c (mem_cons_self ..)
    have htail := ih (fun c' hc' => hline c' (mem_cons_of_mem c hc'))
      (lt_of_succ_lt_succ hleft)
    rw [cons_append, myBGets, if_neg hc, htail]
    rfl

def gtidLineBody (gtid : Gtid) : List UInt8 :=
  int10ToStr gtid.domainId ++ '-'.toUInt8 ::
    (int10ToStr gtid.serverId ++ '-'.toUInt8 :: longlong10ToStr gtid.seqNo)

lemma gtidLine_eq (gtid : Gtid) : gtidLine gtid = gtidLineBody gtid ++ ['\n'.toUInt8] := by
  simp [gtidLine, gtidLineBody]

lemma not_newline_of_isDigit {c : UInt8} (hc : isDigit c = true) : c ≠ '\n'.toUInt8 := by
  rintro rfl
  exact absurd hc (by decide)

lemma gtidLineBody_no_newline (gtid : Gtid) : ∀ c ∈ gtidLineBody gtid, c ≠ '\n'.toUInt8 := by
  intro c hc
  simp only [gtidLineBody, mem_append, mem_cons] at hc
  rcases hc with hc | rfl | hc | rfl | hc
  · exact not_newline_of_isDigit ((int10ToStr_spec _).1.digits c hc)
  · decide
  · exact not_newline_of_isDigit ((int10ToStr_spec _).1.digits c hc)
  · decide
  · exact not_newline_of_isDigit ((longlong10ToStr_spec _).1.digits c hc)

lemma length_gtidLineBody (gtid : Gtid) : (gtidLineBody gtid).length < lineBuffer - 1 := by
  have h1 := (int10ToStr_spec gtid.domainId).2
  have h2 := (int10ToStr_spec gtid.serverId).2
  have h3 := (longlong10ToStr_spec gtid.seqNo).2
  simp only [gtidLineBody, length_append, length_cons, lineBuffer]
  omega

lemma myBGets_gtidLine (gtid : Gtid) (rest : List UInt8) :
    myBGets (lineBuffer - 1) (gtidLine gtid ++ rest) = some (gtidLine gtid, rest) := by
  rw [gtidLine_eq, append_assoc]
  exact myBGets_line (gtidLineBody_no_newline gtid) (length_gtidLineBody gtid) rest

lemma readLoop_lines {env : Gtid -> Env} (hmem : ∀ g, (env g).memory = true) {fuel : Nat}
    (list : List Gtid) (hfuel : list.length < fuel) (st : BinlogState) :
    readLoop env fuel (list.flatMap gtidLine) st =
      some ((updateAll (list.map fun g => (env g, g)) st).1, 0) := by
  induction list generalizing fuel st with
  | nil =>
    obtain ⟨fuel, rfl⟩ := exists_eq_succ_of_ne_zero (ne_of_gt hfuel)
    rfl
  | cons g list ih =>
    obtain ⟨fuel, rfl⟩ : ∃ n, fuel = n + 1 := ⟨fuel - 1, by omega⟩
    have hok := updateNolock_ok (hmem g) st g
    rw [flatMap_cons, readLoop, myBGets_gtidLine]
    dsimp only
    rw [gtidParserHelper_gtidLine]
    dsimp only
    cases hpair : updateNolock (env g) st g false with
    | mk st' err =>
      rw [hpair] at hok
      cases hok
      rw [map_cons, updateAll, hpair]
      exact ih (lt_of_succ_lt_succ hfuel) st'

end Lines

section Writes
variable {writes : WritePattern}

lemma writeLoop_ok (i : Nat) (list : List Gtid) (dest : List UInt8)
    (hok : ∀ j, i ≤ j -> j < i + list.length -> writes j = none) :
    writeLoop writes i list dest = (dest ++ list.flatMap gtidLine, 0) := by
  induction list generalizing i dest with
  | nil => simp [writeLoop]
  | cons g list ih =>
    rw [length_cons] at hok
    rw [writeLoop, hok i le_rfl (by omega)]
    rw [ih (i + 1) (dest ++ gtidLine g) fun j hi hj => hok j (by omega) (by omega),
      flatMap_cons, append_assoc]

lemma writeLoop_failed (i : Nat) (list : List Gtid) (dest : List UInt8) {j : Nat} (hi : i ≤ j)
    (hj : j < i + list.length) (hfail : writes j ≠ none) : (writeLoop writes i list dest).2 = 1 := by
  induction list generalizing i dest with
  | nil => simp at hj; omega
  | cons g list ih =>
    rw [length_cons] at hj
    rw [writeLoop]
    cases hw : writes i with
    | some n => rfl
    | none =>
      have hne : i ≠ j := by
        rintro rfl
        exact hfail hw
      exact ih (i + 1) _ (by omega) (by omega)

end Writes

/-- The contract of the state file, for one pattern of writes: when zero is returned the
file gives the state back, and zero is not returned when a write failed. -/
def StateFileContract (writes : WritePattern) (env : Gtid -> Env) (st : BinlogState) : Prop :=
  ∃ list text res, entries st = some list ∧ writeToIocache writes st = some (text, res) ∧
    (res = 0 -> ∃ st', readFromIocache env text = some (st', 0) ∧
      (∀ d s, find st' d s = find st d s) ∧ ∀ d, findMostRecent st' d = findMostRecent st d) ∧
    ((writeLoop writes 0 list []).2 ≠ 0 -> res ≠ 0)

lemma length_le_flatMap_gtidLine (list : List Gtid) :
    list.length ≤ (list.flatMap gtidLine).length := by
  induction list with
  | nil => exact le_rfl
  | cons g list ih =>
    rw [flatMap_cons, gtidLine_eq, length_append, length_append, length_cons, length_singleton]
    omega

lemma readFromIocache_lines {env : Gtid -> Env} (hmem : ∀ g, (env g).memory = true)
    {st : BinlogState} {list : List Gtid} (hdesc : Describes list st) :
    ∃ st', readFromIocache env (list.flatMap gtidLine) = some (st', 0) ∧
      (∀ d s, find st' d s = find st d s) ∧ ∀ d, findMostRecent st' d = findMostRecent st d := by
  obtain ⟨st', hload, hfind, hrecent⟩ := load_perm env hmem hdesc (.refl list)
  have hlen := length_le_flatMap_gtidLine list
  refine ⟨st', ?_, hfind, fun d => by rw [hrecent, hdesc.last]⟩
  rw [readFromIocache, readLoop_lines hmem list (by omega)]
  have hst : (updateAll (list.map fun g => (env g, g)) reset).1 = st' := congrArg Prod.fst hload
  rw [hst]

/-- In every run the file keeps its contract exactly when none of the writes fails. -/
theorem stateFile_contract (ops : List Op) (writes : WritePattern) (env : Gtid -> Env)
    (hmem : ∀ g, (env g).memory = true) :
    ∃ list, entries (Trace.run ops).state = some list ∧
      (StateFileContract writes env (Trace.run ops).state ↔
        ∀ i < list.length, writes i = none) := by
  obtain ⟨list, hlist, hdesc⟩ := (Trace.tracks_run ops).entries
  have hwrite : writeToIocache writes (Trace.run ops).state =
      some ((writeLoop writes 0 list []).1, 0) := by
    simp [writeToIocache, hlist]
  refine ⟨list, hlist, ?_, fun hok => ?_⟩
  · rintro ⟨list', text, res, hlist', hwrite', -, hreport⟩ i hi
    obtain rfl := some.inj (hlist.symm.trans hlist')
    obtain ⟨-, rfl⟩ := Prod.ext_iff.mp (some.inj (hwrite.symm.trans hwrite'))
    by_contra hfail
    refine hreport ?_ rfl
    rw [writeLoop_failed 0 list [] (zero_le i) (by omega) hfail]
    exact one_ne_zero
  · have hall := writeLoop_ok 0 list [] fun j _ hj => hok j (by omega)
    refine ⟨list, _, 0, hlist, hwrite, fun _ => ?_, fun hfail => ?_⟩
    · rw [hall]
      exact readFromIocache_lines hmem hdesc
    · rw [hall] at hfail
      exact absurd rfl hfail

theorem stateFile_contract_threeUpdates :
    StateFileContract (fun _ => none) (fun _ => ⟨true, .append⟩) (Trace.run threeUpdates).state := by
  obtain ⟨list, -, hiff⟩ := stateFile_contract threeUpdates (fun _ => none)
    (fun _ => ⟨true, .append⟩) fun _ => rfl
  exact hiff.mpr fun _ _ => rfl

/-- A failed write of the only line is not reported. -/
theorem stateFile_failure_lost :
    let st := (Trace.run [.update ⟨true, .append⟩ ⟨0, 1, 7⟩ false]).state
    ¬ StateFileContract (fun _ => some 0) (fun _ => ⟨true, .append⟩) st := by
  rintro st ⟨list, text, res, hlist, hwrite, -, hreport⟩
  have hentries : entries st = some [⟨0, 1, 7⟩] := by decide
  have hres : writeToIocache (fun _ => some 0) st = some ([], 0) := by decide
  obtain rfl := some.inj (hentries.symm.trans hlist)
  obtain ⟨-, rfl⟩ := Prod.ext_iff.mp (some.inj (hres.symm.trans hwrite))
  exact hreport (by decide) rfl

end Rpl
