import Mathlib.Data.Fintype.Prod
import EryMysql.Mysys.QsortEqual
import EryMysql.Strings.Numbers
import EryMysql.Rpl.Reload

/-!
# The binlog state as a string

`append_state` writes the binlog state as the value of `@@gtid_binlog_state`: the
entries sorted by domain and joined by commas. `gtid_parse_string_to_list` reads such
a list. The most recent GTID of a domain is told only by its place, so everything
depends on where the sort leaves it.
-/

namespace Rpl

open KeyedList Strings Mysys List Nat Gtid Trace

def domainCmp (d1 d2 : UInt32) : Int := if d1 < d2 then -1 else if d1 > d2 then 1 else 0

def rplGtidCmpCb (g1 g2 : Gtid) : Int := domainCmp g1.domainId g2.domainId

def gtidStr (gtid : Gtid) : List UInt8 :=
  longlong10ToStr gtid.domainId.toUInt64 ++ '-'.toUInt8 ::
    (longlong10ToStr gtid.serverId.toUInt64 ++ '-'.toUInt8 :: longlong10ToStr gtid.seqNo)

/-- `rpl_slave_state_tostring_helper` for one GTID, with the string and the flag `first`. -/
def tostringHelper (dest : List UInt8 × Bool) (gtid : Gtid) : List UInt8 × Bool :=
  (dest.1 ++ (if dest.2 then [] else [','.toUInt8]) ++ gtidStr gtid, false)

/-- `rpl_slave_state_tostring_helper` for the sorted array; a GTID takes 16 bytes. -/
def rplSlaveStateTostringHelper (gtids : List Gtid) (str : List UInt8) : Option (List UInt8) := do
  return ((← myQsort rplGtidCmpCb 16 gtids).foldl tostringHelper (str, true)).1

def appendState (st : BinlogState) (str : List UInt8) : Option (List UInt8) := do
  rplSlaveStateTostringHelper (← entries st) str

def parseId (p : List UInt8) : Option (UInt32 × List UInt8) :=
  let r := myStrtoll10 p
  if r.error ≠ .ok ∨ 0xffffffff < r.value then none
  else
    match r.rest with
    | [] => none
    | c :: q => if c = '-'.toUInt8 then some (r.value.toUInt32, q) else none

/-- The GTID at the start of the text, and the text after it. -/
def gtidParserHelper (p : List UInt8) : Option (Gtid × List UInt8) := do
  let (v1, p) ← parseId p
  let (v2, p) ← parseId p
  let r := myStrtoll10 p
  if r.error ≠ .ok then none else return (⟨v1, v2, r.value⟩, r.rest)

/-- The loop of `gtid_parse_string_to_list`. Each turn but the last takes a comma away. -/
def parseLoop : Nat -> List Gtid -> List UInt8 -> Option (List Gtid)
  | 0, _, _ => none
  | fuel + 1, list, p =>
    if 2 ^ 28 - 1 ≤ list.length then none
    else do
      let (gtid, p) ← gtidParserHelper p
      match p with
      | [] => return list ++ [gtid]
      | c :: p => if c = ','.toUInt8 then parseLoop fuel (list ++ [gtid]) p else none

def gtidParseStringToList (str : List UInt8) : Option (List Gtid) :=
  parseLoop (str.length + 1) [] str

section Text
variable {g : Gtid} {gs list : List Gtid} {rest : List UInt8}

lemma ends_cons {c : UInt8} (hc : isDigit c = false) : Ends (c :: rest) := by
  simpa [Ends] using hc

lemma parseId_decimal {ds : List UInt8} {d : UInt32} (hd : IsDecimal ds d.toUInt64.toNat)
    (rest : List UInt8) : parseId (ds ++ '-'.toUInt8 :: rest) = some (d, rest) := by
  have hdash : Ends ('-'.toUInt8 :: rest) := ends_cons (by decide)
  have hle : ¬ (0xffffffff : UInt64) < d.toUInt64 := by
    have hlt := d.toNat_lt
    show ¬ 4294967295 < d.toNat
    omega
  rw [parseId, myStrtoll10_decimal hd hdash]
  simp [hle]

lemma gtidParserHelper_gtidStr (g : Gtid) (hrest : Ends rest) :
    gtidParserHelper (gtidStr g ++ rest) = some (g, rest) := by
  unfold gtidParserHelper gtidStr
  simp only [append_assoc, cons_append, parseId_decimal (longlong10ToStr_spec _).1, some_bind,
    myStrtoll10_decimal (longlong10ToStr_spec _).1 hrest]
  rfl

/-- The entries after the first, each with the comma before it. -/
def commaTail (gs : List Gtid) : List UInt8 := gs.flatMap fun g => ','.toUInt8 :: gtidStr g

lemma ends_commaTail (gs : List Gtid) : Ends (commaTail gs) := by
  cases gs with
  | nil => rfl
  | cons g gs => exact ends_cons (by decide)

lemma length_le_commaTail (gs : List Gtid) : gs.length ≤ (commaTail gs).length := by
  induction gs with
  | nil => exact le_rfl
  | cons g gs ih =>
    have hcons : commaTail (g :: gs) = ','.toUInt8 :: gtidStr g ++ commaTail gs := rfl
    rw [hcons, length_append, length_cons, length_cons]
    omega

lemma foldl_tostringHelper (gs : List Gtid) (str : List UInt8) :
    (gs.foldl tostringHelper (str, false)).1 = str ++ commaTail gs := by
  induction gs generalizing str with
  | nil => exact (append_nil str).symm
  | cons g gs ih =>
    have hcons : commaTail (g :: gs) = ','.toUInt8 :: gtidStr g ++ commaTail gs := rfl
    rw [foldl_cons, tostringHelper, ih, hcons]
    simp

lemma foldl_tostringHelper_cons (g : Gtid) (gs : List Gtid) :
    ((g :: gs).foldl tostringHelper ([], true)).1 = gtidStr g ++ commaTail gs := by
  rw [foldl_cons, tostringHelper, foldl_tostringHelper]
  simp

lemma parseLoop_text {fuel : Nat} (hfuel : gs.length < fuel) (list : List Gtid) (g : Gtid) :
    parseLoop fuel list (gtidStr g ++ commaTail gs) =
      if list.length + gs.length < 2 ^ 28 - 1 then some (list ++ g :: gs) else none := by
  induction gs generalizing fuel list g with
  | nil =>
    obtain ⟨fuel, rfl⟩ := exists_eq_succ_of_ne_zero (ne_of_gt hfuel)
    rw [parseLoop, gtidParserHelper_gtidStr g (ends_commaTail []), length_nil, add_zero]
    by_cases hlen : 2 ^ 28 - 1 ≤ list.length
    · rw [if_pos hlen, if_neg (not_lt.mpr hlen)]
    · rw [if_neg hlen, if_pos (not_le.mp hlen)]
      rfl
  | cons g' gs ih =>
    obtain ⟨fuel, rfl⟩ : ∃ n, fuel = n + 1 := ⟨fuel - 1, by omega⟩
    have hcons : commaTail (g' :: gs) = ','.toUInt8 :: (gtidStr g' ++ commaTail gs) := rfl
    have hnext := ih (lt_of_succ_lt_succ hfuel) (list ++ [g]) g'
    rw [parseLoop, gtidParserHelper_gtidStr g (ends_commaTail _), hcons]
    by_cases hlen : 2 ^ 28 - 1 ≤ list.length
    · rw [if_pos hlen, if_neg (by omega)]
    · have hstep : (list ++ [g]).length + gs.length = list.length + (g' :: gs).length := by
        simp only [length_append, length_cons, length_nil]
        omega
      rw [if_neg hlen]
      simp only [some_bind, if_true]
      rw [hnext, hstep, append_assoc, singleton_append]

lemma gtidParseStringToList_text (gs : List Gtid) :
    gtidParseStringToList (gs.foldl tostringHelper ([], true)).1 =
      if gs ≠ [] ∧ gs.length < 2 ^ 28 then some gs else none := by
  cases gs with
  | nil => rfl
  | cons g gs =>
    have hlen := length_le_commaTail gs
    rw [gtidParseStringToList, foldl_tostringHelper_cons, parseLoop_text (by simp; omega)]
    congr 1
    simp
    omega

end Text

/-- The sort of positions by their domain ids leaves the last position of each domain
behind the other positions of the domain. -/
def KeepsLast (domains : List UInt32) : Prop :=
  ∃ out, myQsort (fun x y => domainCmp x.1 y.1) 16 domains.zipIdx = some out ∧
    ∀ d, (out.filter fun x => x.1 = d).getLast? = (domains.zipIdx.filter fun x => x.1 = d).getLast?

section KeepsLast

lemma domainCmp_self (d : UInt32) : domainCmp d d = 0 := by
  simp [domainCmp]

lemma map_eq_map_iff {α β : Type} {f : α -> β} {S : List α}
    (hf : ∀ x ∈ S, ∀ y ∈ S, f x = f y -> x = y) {a b : Option α} (ha : ∀ x ∈ a, x ∈ S)
    (hb : ∀ x ∈ b, x ∈ S) : a.map f = b.map f ↔ a = b := by
  refine ⟨fun h => ?_, congrArg _⟩
  cases a with
  | none => cases b with
    | none => rfl
    | some y => cases h
  | some x => cases b with
    | none => cases h
    | some y => rw [hf x (ha x rfl) y (hb y rfl) (Option.some.inj h)]

/-- Two lists of entries end alike in a domain exactly when their images do. -/
lemma getLast_map_iff {α β : Type} {f : α -> β} {S out : List α} (hperm : out.Perm S)
    (hf : ∀ x ∈ S, ∀ y ∈ S, f x = f y -> x = y) (p : β -> Bool) :
    ((out.map f).filter p).getLast? = ((S.map f).filter p).getLast? ↔
      (out.filter (p ∘ f)).getLast? = (S.filter (p ∘ f)).getLast? := by
  rw [filter_map, filter_map, getLast?_map, getLast?_map]
  apply map_eq_map_iff hf
  · exact fun x hx => hperm.mem_iff.mp (mem_filter.mp (mem_of_getLast? hx)).1
  · exact fun x hx => (mem_filter.mp (mem_of_getLast? hx)).1

/-- Whether the last GTIDs stay last depends on the domain ids alone. -/
lemma keepsLast_iff {list gs : List Gtid} (hnodup : list.Nodup) (hlen : list.length ≤ 2 ^ 64)
    (hsort : myQsort rplGtidCmpCb 16 list = some gs) :
    KeepsLast (list.map domainId) ↔
      ∀ d, (ofDomain gs d).getLast? = (ofDomain list d).getLast? := by
  obtain ⟨pairs, hpairs⟩ : ∃ pairs, pairs = list.zipIdx := ⟨_, rfl⟩
  have hfst : list = pairs.map Prod.fst := by rw [hpairs, zipIdx_map_fst]
  have hdomain : (list.map domainId).zipIdx = pairs.map fun x => (x.1.domainId, x.2) := by
    rw [hpairs, zipIdx_map]
    rfl
  have hmem : ∀ x ∈ pairs, list[x.2]? = some x.1 := fun x hx => by
    rw [hpairs] at hx
    exact mem_zipIdx_iff_getElem?.mp hx
  obtain ⟨out, hout, hperm⟩ := myQsort_perm (fun x y : Gtid × Nat => rplGtidCmpCb x.1 y.1)
    (fun x => by simp [rplGtidCmpCb, domainCmp_self]) 16
    (show pairs.length ≤ 2 ^ 64 by rwa [hpairs, length_zipIdx])
  have hgs : gs = out.map Prod.fst := by
    have hmap := myQsort_map rplGtidCmpCb Prod.fst (a := pairs) 16
    rw [← hfst, hsort, hout] at hmap
    exact Option.some.inj hmap
  have hpos : myQsort (fun x y => domainCmp x.1 y.1) 16 (list.map domainId).zipIdx =
      some (out.map fun x => (x.1.domainId, x.2)) := by
    rw [hdomain, myQsort_map]
    exact congrArg _ hout
  have hinj : ∀ x ∈ pairs, ∀ y ∈ pairs, (x.1.domainId, x.2) = (y.1.domainId, y.2) -> x = y := by
    intro x hx y hy hxy
    have hidx := (Prod.ext_iff.mp hxy).2
    have hval := hmem x hx
    rw [hidx, hmem y hy] at hval
    exact Prod.ext (Option.some.inj hval).symm hidx
  have hinj' : ∀ x ∈ pairs, ∀ y ∈ pairs, x.1 = y.1 -> x = y := by
    intro x hx y hy hxy
    obtain ⟨hx1, hx2⟩ := List.getElem?_eq_some_iff.mp (hmem x hx)
    obtain ⟨hy1, hy2⟩ := List.getElem?_eq_some_iff.mp (hmem y hy)
    exact Prod.ext hxy ((hnodup.getElem_inj_iff).mp (hx2.trans (hxy.trans hy2.symm)))
  have hsame : ∀ d, (((out.map fun x => (x.1.domainId, x.2)).filter fun x => x.1 = d).getLast? =
      ((pairs.map fun x => (x.1.domainId, x.2)).filter fun x => x.1 = d).getLast?) ↔
      (ofDomain gs d).getLast? = (ofDomain list d).getLast? := by
    intro d
    rw [getLast_map_iff hperm hinj, hgs, ofDomain, ofDomain]
    conv_rhs => rw [hfst]
    rw [getLast_map_iff hperm hinj']
    rfl
  rw [KeepsLast, hpos, hdomain]
  constructor
  · rintro ⟨_, hout', hlast⟩ d
    rw [← Option.some.inj hout'] at hlast
    exact (hsame d).mp (hlast d)
  · exact fun hlast => ⟨_, rfl, fun d => (hsame d).mpr (hlast d)⟩

lemma keepsLast_of_lt {domains : List UInt32} (hlen : domains.length < 10) :
    KeepsLast domains := by
  have hlen' : domains.zipIdx.length < 10 := by rwa [length_zipIdx]
  obtain ⟨out, hout, -⟩ := myQsort_perm (fun x y : UInt32 × Nat => domainCmp x.1 y.1)
    (fun x => by simp [domainCmp_self]) 16 (show domains.zipIdx.length ≤ 2 ^ 64 by omega)
  refine ⟨out, hout, fun d => ?_⟩
  rw [myQsort_filter_of_lt _ ?_ hlen' hout]
  rintro x y hgt ⟨hx, hy⟩
  rw [of_decide_eq_true hx, of_decide_eq_true hy, domainCmp_self] at hgt
  exact lt_irrefl _ hgt

/-- In one domain the last GTID stays last up to forty servers, and not beyond. -/
lemma keepsLast_replicate (d : UInt32) {n : Nat} (hn : n < 2 ^ 28) :
    KeepsLast (replicate n d) ↔ n ≤ 40 := by
  have hzip : (replicate n d).zipIdx = (range n).map fun i => (d, i) := by
    apply ext_getElem
    · simp
    · simp
  have hsort : myQsort (fun x y => domainCmp x.1 y.1) 16 (replicate n d).zipIdx =
      (myQsort (fun _ _ => 0) 16 (range n)).map (map fun i => (d, i)) := by
    rw [hzip, myQsort_map]
    simp [domainCmp_self]
  have hall : ∀ l : List Nat, (l.map fun i => (d, i)).filter (fun x => x.1 = d) =
      l.map fun i => (d, i) := by
    intro l
    simp
  constructor
  · rintro ⟨out, hout, hlast⟩
    by_contra hlarge
    obtain ⟨b, hb, hne⟩ := myQsort_const_last 16 (nodup_range (n := n))
      (by rw [length_range]; omega) (by rw [length_range]; omega)
    rw [hsort, hb, Option.map_some, Option.some.injEq] at hout
    have hd := hlast d
    rw [← hout, hzip, hall, hall, getLast?_map, getLast?_map] at hd
    exact hne (Option.map_injective (Prod.mk_right_injective d) hd)
  · intro hsmall
    have hconst := myQsort_const_of_le n hsmall
    obtain ⟨b, hb, hlast⟩ := Option.map_eq_some_iff.mp hconst
    refine ⟨b.map fun i => (d, i), by rw [hsort, hb, Option.map_some], fun d' => ?_⟩
    rw [hzip]
    by_cases hd : d = d'
    · rw [← hd, hall, hall, getLast?_map, getLast?_map, hlast]
    · have hnone : ∀ l : List Nat, (l.map fun i => (d, i)).filter (fun x => x.1 = d') = [] := by
        intro l
        simp [hd]
      rw [hnone, hnone]

end KeepsLast

/-- Writing the state as a string and loading the string gives the same map and the same
most recent GTIDs. -/
def Survives (env : Gtid -> Env) (st : BinlogState) : Prop :=
  ∃ text list st', appendState st [] = some text ∧ gtidParseStringToList text = some list ∧
    load (list.map fun g => (env g, g)) = (st', false) ∧
    (∀ d s, find st' d s = find st d s) ∧ ∀ d, findMostRecent st' d = findMostRecent st d

variable {st : BinlogState} {env : Gtid -> Env} {list : List Gtid}

lemma Describes.length_le (hdesc : Describes list st) :
    list.length ≤ 2 ^ 64 := by
  have hinj : Function.Injective fun k : UInt32 × UInt32 => (k.1.toFin, k.2.toFin) := by
    rintro ⟨d, s⟩ ⟨d', s'⟩ hk
    obtain ⟨hd, hs⟩ := Prod.ext_iff.mp hk
    exact Prod.ext (UInt32.toFin_inj.mp hd) (UInt32.toFin_inj.mp hs)
  have hcard := Nodup.length_le_card (hdesc.unique.map hinj)
  rw [length_map, length_map, Fintype.card_prod, Fintype.card_fin] at hcard
  exact hcard

lemma survives_sorted (hmem : ∀ g, (env g).memory = true)
    {list gs : List Gtid} (hlist : entries st = some list) (hdesc : Describes list st)
    (hsort : myQsort rplGtidCmpCb 16 list = some gs) (hperm : gs.Perm list) :
    Survives env st ↔ (gs ≠ [] ∧ gs.length < 2 ^ 28) ∧
      ∀ d, (ofDomain gs d).getLast? = (ofDomain list d).getLast? := by
  have htext : appendState st [] = some (gs.foldl tostringHelper ([], true)).1 := by
    simp [appendState, rplSlaveStateTostringHelper, hlist, hsort]
  have hparse := gtidParseStringToList_text gs
  obtain ⟨st', hload, hfind, hrecent⟩ := load_perm env hmem hdesc hperm
  constructor
  · rintro ⟨text, parsed, st'', htext', hparsed, hload', -, hrecent'⟩
    obtain rfl := Option.some.inj (htext.symm.trans htext')
    rw [hparse] at hparsed
    split at hparsed
    · rename_i hshort
      obtain rfl := Option.some.inj hparsed
      obtain rfl := (Prod.ext_iff.mp (hload.symm.trans hload')).1
      refine ⟨hshort, fun d => ?_⟩
      rw [← hrecent, hrecent', hdesc.last]
    · cases hparsed
  · rintro ⟨hshort, hlast⟩
    refine ⟨_, gs, st', htext, hparse.trans (if_pos hshort), hload, hfind, fun d => ?_⟩
    rw [hrecent, hlast, hdesc.last]

lemma survives_iff (hmem : ∀ g, (env g).memory = true)
    (hlist : entries st = some list) (hdesc : Describes list st) :
    Survives env st ↔
      list ≠ [] ∧ list.length < 2 ^ 28 ∧ KeepsLast (list.map domainId) := by
  have hnodup := Nodup.of_map _ hdesc.unique
  obtain ⟨gs, hsort, hperm⟩ := myQsort_perm rplGtidCmpCb
    (fun x => by simp [rplGtidCmpCb, domainCmp_self]) 16 hdesc.length_le
  have hne : gs ≠ [] ↔ list ≠ [] := by
    rw [← length_pos_iff, ← length_pos_iff, hperm.length_eq]
  rw [survives_sorted hmem hlist hdesc hsort hperm, keepsLast_iff hnodup hdesc.length_le hsort,
    hperm.length_eq, hne, and_assoc]

/-- The state of any run survives as a string exactly when it has an entry, no more than
the parser takes, and the sort leaves the last entry of every domain last in its domain.
The sort does so below ten entries; in one domain it does so up to forty. -/
theorem appendState_survives (ops : List Op) (env : Gtid -> Env)
    (hmem : ∀ g, (env g).memory = true) :
    ∃ list, entries (Trace.run ops).state = some list ∧
      (Survives env (Trace.run ops).state ↔
        list ≠ [] ∧ list.length < 2 ^ 28 ∧ KeepsLast (list.map Gtid.domainId)) ∧
      (list.length < 10 -> KeepsLast (list.map Gtid.domainId)) ∧
      ∀ d, (∀ g ∈ list, g.domainId = d) -> list.length < 2 ^ 28 ->
        (KeepsLast (list.map Gtid.domainId) ↔ list.length ≤ 40) := by
  obtain ⟨list, hlist, hdesc⟩ := (tracks_run ops).entries
  refine ⟨list, hlist, survives_iff hmem hlist hdesc, fun hlen => ?_, fun d hd hlen => ?_⟩
  · exact keepsLast_of_lt (by rwa [length_map])
  · have hsame : list.map domainId = replicate list.length d := by
      rw [← length_map domainId, eq_replicate_length]
      intro d' hd'
      obtain ⟨g, hg, rfl⟩ := mem_map.mp hd'
      exact hd g hg
    rw [hsame, keepsLast_replicate d hlen]

/-- Two servers of one domain, and one of another. -/
def threeUpdates : List Op :=
  [.update ⟨true, .append⟩ ⟨0, 1, 7⟩ false, .update ⟨true, .append⟩ ⟨0, 2, 8⟩ false,
    .update ⟨true, .append⟩ ⟨3, 1, 9⟩ false]

theorem appendState_survives_threeUpdates :
    Survives (fun _ => ⟨true, .append⟩) (Trace.run threeUpdates).state := by
  obtain ⟨list, hlist, hiff, hkeeps, -⟩ := appendState_survives threeUpdates
    (fun _ => ⟨true, .append⟩) fun _ => rfl
  have hlen : (entries (run threeUpdates).state).map length = some 3 := by decide +kernel
  rw [hlist, Option.map_some, Option.some.injEq] at hlen
  exact hiff.mpr ⟨ne_nil_of_length_pos (by omega), by omega, hkeeps (by omega)⟩

/-- Forty-one servers of one domain, one after the other. -/
def fortyOneUpdates : List Op :=
  (range 41).map fun i =>
    .update ⟨true, .append⟩ ⟨0, UInt32.ofNat i, UInt64.ofNat (i + 1)⟩ false

/-- With forty-one servers in a domain the string tells of another most recent GTID. -/
theorem appendState_loses_most_recent :
    ¬ Survives (fun _ => ⟨true, .append⟩) (Trace.run fortyOneUpdates).state := by
  obtain ⟨list, hlist, hdesc⟩ := (tracks_run fortyOneUpdates).entries
  have hrun : ((entries (run fortyOneUpdates).state).map fun list =>
      list.map domainId) = some (replicate 41 0) := by decide +kernel
  rw [hlist, Option.map_some, Option.some.injEq] at hrun
  rw [survives_iff (fun _ => rfl) hlist hdesc, hrun, keepsLast_replicate 0 (by decide)]
  exact fun h => absurd h.2.2 (by decide)

end Rpl
