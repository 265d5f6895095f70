import EryMysql.Hp.DeleteKey

/-!
# Runs of a HEAP table

The positions of a table are those of its live records and those in the list of deleted ones. Every
index holds one entry for each live record, also after a write that has failed: what was written to
the indexes is removed again, and the position goes to the list.
-/

namespace Hp

open Chains Mysys Function Finset Nat HpShare

variable {ρ κ : Type} {share : HpShare ρ κ} {keyinfo : HpKeydef ρ κ} {live : Finset Nat} {pos : Nat}
  {share' : HpShare ρ κ} {p : Nat}

/-- Every position is that of a live record or in the list of deleted ones. -/
structure HpShare.Slots (share : HpShare ρ κ) : Prop where
  deleted : share.deleted = share.delLink.length
  nodup : share.delLink.Nodup
  dead : ∀ p ∈ share.delLink, share.live p = false
  used : ∀ p, share.live p = true ∨ p ∈ share.delLink ↔ p < share.records + share.delLink.length

def HpShare.liveSet (share : HpShare ρ κ) : Finset Nat :=
  (range (share.records + share.delLink.length)).filter fun p => share.live p = true

def entries (live : Finset Nat) (data : Nat -> ρ) (spec : KeySpec ρ κ) : Multiset HashInfo :=
  live.val.map fun p => ⟨p, spec.recHashnr (data p)⟩

lemma mem_entries {data : Nat -> ρ} {spec : KeySpec ρ κ} {e : HashInfo} :
    e ∈ entries live data spec ↔
      e.ptrToRec ∈ live ∧ e.hashOfKey = spec.recHashnr (data e.ptrToRec) := by
  rw [entries, Multiset.mem_map]
  constructor
  · rintro ⟨p, hp, rfl⟩
    exact ⟨hp, rfl⟩
  · rintro ⟨hp, hhash⟩
    exact ⟨e.ptrToRec, hp, by rw [← hhash]⟩

lemma entries_insert (hp : p ∉ live) (data : Nat -> ρ) (record : ρ)
    (spec : KeySpec ρ κ) : entries (insert p live) (update data p record) spec =
      ⟨p, spec.recHashnr record⟩ ::ₘ entries live data spec := by
  rw [entries, insert_val_of_notMem hp, Multiset.map_cons, update_self]
  refine congrArg _ (Multiset.map_congr rfl fun q hq => ?_)
  rw [update_of_ne]
  rintro rfl
  exact hp hq

lemma entries_erase (hp : p ∈ live) (data : Nat -> ρ)
    (spec : KeySpec ρ κ) : entries live data spec =
      ⟨p, spec.recHashnr (data p)⟩ ::ₘ entries (live.erase p) data spec := by
  rw [← entries_insert (notMem_erase p live), update_eq_self, insert_erase hp]

section Slots
variable (h : share.Slots)
include h

lemma HpShare.Slots.mem_liveSet : p ∈ share.liveSet ↔ share.live p = true := by
  rw [liveSet, mem_filter, mem_range]
  constructor
  · rintro ⟨-, hlive⟩
    exact hlive
  · intro hlive
    exact ⟨(h.used p).mp (Or.inl hlive), hlive⟩

lemma HpShare.Slots.card_liveSet : share.liveSet.card = share.records := by
  have hunion : share.liveSet ∪ share.delLink.toFinset =
      range (share.records + share.delLink.length) := by
    ext p
    rw [mem_union, h.mem_liveSet, List.mem_toFinset, h.used, mem_range]
  have hdisj : Disjoint share.liveSet share.delLink.toFinset := by
    rw [disjoint_left]
    intro p hp hdel
    have hlive := h.mem_liveSet.mp hp
    rw [h.dead p (List.mem_toFinset.mp hdel)] at hlive
    cases hlive
  have hcard := card_union_of_disjoint hdisj
  rw [hunion, card_range, List.toFinset_card_of_nodup h.nodup] at hcard
  omega

lemma HpShare.Slots.nextFreeRecordPos {full : Bool}
    (hpos : share.nextFreeRecordPos full = some (pos, share')) :
    ∃ rest deleted, share' = { share with delLink := rest, deleted := deleted } ∧
      HpShare.Slots { share with delLink := pos :: rest, deleted := deleted + 1 } := by
  unfold HpShare.nextFreeRecordPos at hpos
  cases hdel : share.delLink with
  | cons first rest =>
    simp only [hdel] at hpos
    obtain ⟨rfl, rfl⟩ := hpos
    obtain ⟨hdeleted, hnodup, hdead, hused⟩ := h
    rw [hdel] at hdeleted hnodup hdead hused
    refine ⟨rest, share.deleted - 1, rfl, ?_, hnodup, hdead, hused⟩
    rw [hdeleted]
    rfl
  | nil =>
    simp only [hdel] at hpos
    split at hpos
    · cases hpos
    · cases hpos
      obtain ⟨hdeleted, hnodup, hdead, hused⟩ := h
      rw [hdel] at hdeleted hused
      refine ⟨[], share.deleted, by rw [← hdel], congrArg succ hdeleted,
        List.nodup_singleton _, ?_, fun p => ?_⟩
      · intro p hp
        rw [List.mem_singleton.mp hp]
        refine Bool.eq_false_iff.mpr fun hlive => ?_
        exact lt_irrefl _ ((hused share.records).mp (Or.inl hlive))
      · have hp := hused p
        simp only [List.not_mem_nil, or_false, List.length_nil] at hp
        simp only [List.mem_singleton, hp, List.length_singleton]
        omega

end Slots

lemma HpShare.Slots.fill {rest : List Nat} {deleted : Nat}
    (h : HpShare.Slots { share with delLink := pos :: rest, deleted := deleted + 1 })
    {share' : HpShare ρ κ} (hdel : share'.delLink = rest) (hdeleted : share'.deleted = deleted)
    (hrecords : share'.records = share.records + 1)
    (hlive : share'.live = update share.live pos true) : share'.Slots := by
  obtain ⟨hlen, hnodup, hdead, hused⟩ := h
  obtain ⟨hpos, hnodup⟩ := List.nodup_cons.mp hnodup
  simp only [List.length_cons] at hlen hused
  refine ⟨by rw [hdeleted, hdel]; exact succ.inj hlen, hdel ▸ hnodup, fun p hp => ?_,
    fun p => ?_⟩
  · rw [hdel] at hp
    rw [hlive, update_of_ne (by rintro rfl; exact hpos hp)]
    exact hdead p (List.mem_cons_of_mem _ hp)
  · have hp := hused p
    rw [hlive, hdel]
    by_cases heq : p = pos
    · subst heq
      simp only [List.mem_cons, true_or, or_true, true_iff] at hp
      simp only [update_self, true_or, true_iff]
      omega
    · rw [update_of_ne heq]
      simp only [List.mem_cons, heq, false_or] at hp
      rw [hp]
      omega

lemma HpShare.Slots.release (h : share.Slots) (hpos : share.live pos = true)
    (hdel : share'.delLink = pos :: share.delLink)
    (hdeleted : share'.deleted = share.deleted + 1) (hrecords : share'.records + 1 = share.records)
    (hlive : share'.live = update share.live pos false) : share'.Slots := by
  obtain ⟨hlen, hnodup, hdead, hused⟩ := h
  refine ⟨by rw [hdeleted, hdel, hlen]; rfl, ?_, fun p hp => ?_, fun p => ?_⟩
  · rw [hdel, List.nodup_cons]
    refine ⟨fun hin => ?_, hnodup⟩
    rw [hdead pos hin] at hpos
    cases hpos
  · rw [hlive]
    by_cases heq : p = pos
    · rw [heq, update_self]
    · rw [hdel, List.mem_cons] at hp
      rw [update_of_ne heq]
      exact hdead p (hp.resolve_left heq)
  · have hp := hused p
    rw [hlive, hdel, List.length_cons]
    by_cases heq : p = pos
    · subst heq
      simp only [hpos, true_or, true_iff] at hp
      simp only [List.mem_cons, true_or, or_true, true_iff]
      omega
    · rw [update_of_ne heq]
      simp only [List.mem_cons, heq, false_or]
      rw [hp]
      omega

section Loops
variable {E : KeySpec ρ κ -> Multiset HashInfo} {record : ρ} {pos : Nat}

def HpShare.Written (share : HpShare ρ κ) (E : KeySpec ρ κ -> Multiset HashInfo) (record : ρ)
    (pos : Nat) (keydefs : List (HpKeydef ρ κ)) : Prop :=
  ∀ keydef ∈ keydefs, keydef.Holds (share.records + 1) (grown share.blength share.records)
    (⟨pos, keydef.spec.recHashnr record⟩ ::ₘ E keydef.spec)

def HpShare.Hold (share : HpShare ρ κ) (E : KeySpec ρ κ -> Multiset HashInfo)
    (keydefs : List (HpKeydef ρ κ)) : Prop :=
  ∀ keydef ∈ keydefs, keydef.Holds share.records share.blength (E keydef.spec)

variable (hsized : Sized share.blength share.records)
  (huniq : ∀ spec, ∀ e ∈ E spec, e.ptrToRec ≠ pos)
include hsized huniq

/-- The loop of `heap_delete` removes the entry from all indexes, and so does the one for a
duplicate, as no entry is missing. -/
lemma deleteKeys_spec {keydefs : List (HpKeydef ρ κ)} (h : share.Written E record pos keydefs) :
    ∃ keydefs', share.deleteKeys record pos keydefs = some (keydefs', false) ∧
      share.undoKeys record pos keydefs = some keydefs' ∧
      keydefs'.map HpKeydef.spec = keydefs.map HpKeydef.spec ∧ share.Hold E keydefs' := by
  induction keydefs with
  | nil => exact ⟨[], rfl, rfl, rfl, nofun⟩
  | cons keydef rest ih =>
    obtain ⟨hkey, hrest⟩ := List.forall_mem_cons.mp h
    obtain ⟨keydef', hdelete, hspec, hholds⟩ := hpDeleteKey_spec hsized hkey (huniq _)
    obtain ⟨rest', hloop, hundo, hspecs, hhold⟩ := ih hrest
    refine ⟨keydef' :: rest', ?_, ?_, ?_, List.forall_mem_cons.mpr ⟨hspec ▸ hholds, hhold⟩⟩
    · rw [deleteKeys, hdelete]
      simp [hloop]
    · rw [undoKeys, hdelete]
      simp [hundo]
    · rw [List.map_cons, List.map_cons, hspec, hspecs]

/-- The loop of `heap_write`. When there is a duplicate, all indexes are as they were. -/
lemma writeKeys_spec {before rest : List (HpKeydef ρ κ)}
    (hbefore : share.Written E record pos before) (hrest : share.Hold E rest) :
    ∃ keydefs failed, share.writeKeys record pos before rest = some (keydefs, failed) ∧
      keydefs.map HpKeydef.spec = (before.reverse ++ rest).map HpKeydef.spec ∧
      (failed = true -> share.Hold E keydefs) ∧
      (failed = false -> share.Written E record pos keydefs) ∧
      (failed = true ↔ ∃ keydef ∈ rest, keydef.spec.Duplicates share.data record (E keydef.spec)) := by
  induction rest generalizing before with
  | nil =>
    refine ⟨before.reverse, false, rfl, by rw [List.append_nil], Bool.noConfusion,
      fun _ keydef hmem => hbefore keydef (List.mem_reverse.mp hmem), by simp⟩
  | cons keydef rest ih =>
    obtain ⟨hkey, hrest⟩ := List.forall_mem_cons.mp hrest
    obtain ⟨keydef', duplicate, hwrite, hspec, hholds, hdup⟩ := hpWriteKey_spec hkey record pos
    have hwritten : share.Written E record pos (keydef' :: before) :=
      List.forall_mem_cons.mpr ⟨by rw [hspec]; exact hholds, hbefore⟩
    rw [writeKeys, hwrite]
    cases duplicate with
    | true =>
      obtain ⟨undone, -, hundo, hspecs, hhold⟩ := deleteKeys_spec hsized huniq hwritten
      refine ⟨undone.reverse ++ rest, true, ?_, ?_, fun _ => ?_, Bool.noConfusion, ?_⟩
      · simp [hundo]
      · rw [List.map_append, List.map_reverse, hspecs]
        simp [hspec]
      · intro k hk
        rcases List.mem_append.mp hk with hk | hk
        · exact hhold k (List.mem_reverse.mp hk)
        · exact hrest k hk
      · exact iff_of_true rfl ⟨keydef, List.mem_cons_self, hdup.mp rfl⟩
    | false =>
      obtain ⟨keydefs, failed, hloop, hspecs, hfail, hok, hiff⟩ := ih hwritten hrest
      refine ⟨keydefs, failed, ?_, ?_, hfail, hok, hiff.trans ?_⟩
      · simp [hloop]
      · rw [hspecs]
        simp [hspec]
      · simp only [List.mem_cons, exists_eq_or_imp]
        refine (or_iff_right fun hd => ?_).symm
        cases hdup.mpr hd

end Loops

/-- Every index of the table holds one entry for each live record. -/
structure HpShare.Inv (share : HpShare ρ κ) : Prop where
  slots : share.Slots
  sized : Sized share.blength share.records
  keys : share.Hold (entries share.liveSet share.data) share.keydef

lemma HpShare.Slots.liveSet_eq {L : Finset Nat} (h : share.Slots)
    (hL : ∀ p, p ∈ L ↔ share.live p = true) : share.liveSet = L := by
  ext p
  rw [h.mem_liveSet, hL]

def HpShare.specs (share : HpShare ρ κ) : List (KeySpec ρ κ) := share.keydef.map HpKeydef.spec

/-- `heap_write` fails if the table is full or a live record has the key of a unique index, and
changes no record then. -/
lemma heapWrite_spec (h : share.Inv) (record : ρ) (full : Bool) :
    ∃ share' failed, share.heapWrite record full = some (share', failed) ∧ share'.Inv ∧
      share'.specs = share.specs ∧
      (failed = true ↔ share.nextFreeRecordPos full = none ∨ ∃ spec ∈ share.specs,
          spec.Duplicates share.data record (entries share.liveSet share.data spec)) ∧
      (failed = true -> share'.live = share.live ∧ share'.data = share.data ∧
        share'.records = share.records) ∧
      (failed = false -> ∃ pos, share.live pos = false ∧ share'.live = update share.live pos true ∧
        share'.data = update share.data pos record ∧
        share'.records = share.records + 1) := by
  unfold heapWrite
  cases hnext : share.nextFreeRecordPos full with
  | none =>
    exact ⟨share, true, rfl, h, rfl, by simp, fun _ => ⟨rfl, rfl, rfl⟩, Bool.noConfusion⟩
  | some next =>
    obtain ⟨pos, taken⟩ := next
    obtain ⟨rest, deleted, rfl, hslots⟩ := h.slots.nextFreeRecordPos hnext
    have hdead := hslots.dead pos List.mem_cons_self
    have hpos : pos ∉ share.liveSet := by
      rw [h.slots.mem_liveSet, hdead]
      exact Bool.false_ne_true
    have huniq : ∀ spec : KeySpec ρ κ, ∀ e ∈ entries share.liveSet share.data spec,
        e.ptrToRec ≠ pos := by
      rintro spec e he rfl
      exact hpos (mem_entries.mp he).1
    set taken : HpShare ρ κ := { share with delLink := rest, deleted := deleted } with htaken
    have hsized : Sized taken.blength taken.records := h.sized
    have hkeys : taken.Hold (entries share.liveSet share.data) taken.keydef := h.keys
    have hnone : taken.Written (entries share.liveSet share.data) record pos [] := by
      intro keydef hmem
      cases hmem
    obtain ⟨keydefs, failed, hloop, hspecs, hfail, hok, hiff⟩ :=
      writeKeys_spec hsized huniq hnone hkeys
    have hdup : failed = true ↔ ∃ spec ∈ share.specs,
        spec.Duplicates share.data record (entries share.liveSet share.data spec) := by
      rw [hiff]
      constructor
      · rintro ⟨keydef, hmem, hd⟩
        exact ⟨keydef.spec, List.mem_map_of_mem hmem, hd⟩
      · rintro ⟨spec, hmem, hd⟩
        obtain ⟨keydef, hkey, rfl⟩ := List.mem_map.mp hmem
        exact ⟨keydef, hkey, hd⟩
    simp only [hloop]
    cases failed with
    | true =>
      have hlive : update share.live pos false = share.live := by
        rw [← hdead, update_eq_self]
      have hslots' : HpShare.Slots { taken with
          keydef := keydefs
          deleted := deleted + 1
          delLink := pos :: rest
          live := update share.live pos false } := by
        rw [hlive]
        exact { hslots with }
      refine ⟨_, true, rfl, ⟨hslots', h.sized, ?_⟩, hspecs, by simp [← hdup],
        fun _ => ⟨hlive, rfl, rfl⟩, Bool.noConfusion⟩
      rw [hslots'.liveSet_eq fun p => by rw [h.slots.mem_liveSet, hlive]]
      exact hfail rfl
    | false =>
      set written : HpShare ρ κ := { taken with
        keydef := keydefs
        data := update share.data pos record
        live := update share.live pos true
        records := share.records + 1
        blength := grown share.blength share.records }
      have hslots' : written.Slots := hslots.fill rfl rfl rfl rfl
      refine ⟨written, false, rfl, ⟨hslots', h.sized.succ.1, ?_⟩, hspecs, by simp [← hdup],
        Bool.noConfusion, fun _ => ⟨pos, hdead, rfl, rfl, rfl⟩⟩
      have hL : written.liveSet = insert pos share.liveSet := hslots'.liveSet_eq fun p => by
        show p ∈ insert pos share.liveSet ↔ update share.live pos true p = true
        rw [mem_insert, h.slots.mem_liveSet]
        by_cases heq : p = pos
        iterate 2 simp [heq]
      rw [hL]
      intro keydef hmem
      rw [entries_insert hpos]
      exact hok rfl keydef hmem

/-- The `blength` of `heap_delete` is the one that grows to the one before. -/
lemma grown_pred {b n : Nat} (h : Sized b (n + 1)) :
    grown (if n < b >>> 1 then b >>> 1 else b) n = b := by
  obtain ⟨c, rfl, hc, hlt, hshift, -⟩ := h.halves (succ_pos n)
  rw [grown]
  split
  · rw [if_pos (by omega)]
    omega
  · rw [if_neg (by omega)]

lemma heapDelete_spec (h : share.Inv) (hpos : share.live pos = true) :
    ∃ share', share.heapDelete pos = some (share', false) ∧ share'.Inv ∧
      share'.specs = share.specs ∧ share'.live = update share.live pos false ∧
      share'.data = share.data ∧ share'.records + 1 = share.records := by
  have hmem := h.slots.mem_liveSet.mpr hpos
  obtain ⟨n, hn⟩ : ∃ n, share.records = n + 1 := by
    have hcard := card_pos.mpr ⟨pos, hmem⟩
    rw [h.slots.card_liveSet] at hcard
    exact ⟨share.records - 1, by omega⟩
  have hsized : Sized share.blength (n + 1) := hn ▸ h.sized
  set shrunk : HpShare ρ κ := { share with
    records := n
    blength := if n < share.blength >>> 1 then share.blength >>> 1 else share.blength } with hshrunk
  have hsized' := hsized.pred.1
  have huniq : ∀ spec : KeySpec ρ κ, ∀ e ∈ entries (share.liveSet.erase pos) share.data spec,
      e.ptrToRec ≠ pos := by
    intro spec e he
    exact ne_of_mem_erase (mem_entries.mp he).1
  have hwritten : shrunk.Written (entries (share.liveSet.erase pos) share.data) (share.data pos) pos
      share.keydef := by
    intro keydef hkey
    have hholds := h.keys keydef hkey
    rw [entries_erase hmem, hn, ← grown_pred hsized] at hholds
    exact hholds
  obtain ⟨keydefs, hloop, -, hspecs, hhold⟩ := deleteKeys_spec hsized' huniq hwritten
  have hslots : HpShare.Slots { shrunk with
      keydef := keydefs
      deleted := share.deleted + 1
      delLink := pos :: share.delLink
      live := update share.live pos false } := h.slots.release hpos rfl rfl hn.symm rfl
  refine ⟨_, ?_, ⟨hslots, hsized', ?_⟩, hspecs, rfl, rfl, hn.symm⟩
  · unfold heapDelete
    have hpred : share.records - 1 = n := by omega
    simp only [hpred, ← hshrunk, hloop]
    rfl
  · rw [hslots.liveSet_eq (L := share.liveSet.erase pos) fun p => by
      rw [mem_erase, h.slots.mem_liveSet]
      by_cases heq : p = pos
      · simp [heq]
      · simp [heq]]
    exact hhold

/-- An index has exactly one entry for each live record, in chains that start at the home of the
entry. -/
structure HpShare.Indexed (share : HpShare ρ κ) (keydef : HpKeydef ρ κ) : Prop where
  entry_live : ∀ q < share.records, share.live (keydef.block q).data.ptrToRec = true ∧
    (keydef.block q).data.hashOfKey =
      keydef.spec.recHashnr (share.data (keydef.block q).data.ptrToRec)
  entry_unique : ∀ p, share.live p = true ->
    ∃! q, q < share.records ∧ (keydef.block q).data.ptrToRec = p
  chains : ∃ (C : Nat -> List Nat) (N : Finset Nat),
    (∀ k, C k ≠ [] -> Seg keydef.block (some k) (C k) none) ∧ (∀ k, (C k).Nodup) ∧
    (∀ k q, q ∈ C k ↔ q < share.records ∧
      hpMask (keydef.block q).data.hashOfKey share.blength share.records = k) ∧
    (∀ k, k ∈ N ↔ C k ≠ []) ∧ keydef.hashBuckets = N.card

lemma HpShare.Inv.indexed (h : share.Inv) (hkey : keyinfo ∈ share.keydef) :
    share.Indexed keyinfo := by
  obtain ⟨⟨C, hinv⟩, hstored, hbuckets⟩ := h.keys keyinfo hkey
  have hlaid : Laid keyinfo.block (hashHome share.blength share.records)
    (range share.records) C := hinv.laid
  have hcont : contents keyinfo.block (range share.records) =
    entries share.liveSet share.data keyinfo.spec := hstored
  have hptr : (range share.records).val.map (fun q => (keyinfo.block q).data.ptrToRec) =
      share.liveSet.val := by
    have hmap := congrArg (Multiset.map HashInfo.ptrToRec) hcont
    rw [contents, entries, Multiset.map_map, Multiset.map_map] at hmap
    exact hmap.trans (Multiset.map_id _)
  refine ⟨fun q hq => ?_, fun p hp => ?_, C, _, hlaid.linked, hlaid.nodup, fun k q => ?_,
    fun k => ?_, hbuckets⟩
  · have hmem : (keyinfo.block q).data ∈ contents keyinfo.block (range share.records) :=
      Multiset.mem_map_of_mem _ (mem_range.mpr hq)
    rw [hcont, mem_entries, h.slots.mem_liveSet] at hmem
    exact hmem
  · have hmem : p ∈ share.liveSet.val := h.slots.mem_liveSet.mpr hp
    rw [← hptr] at hmem
    obtain ⟨q, hq, hqp⟩ := Multiset.mem_map.mp hmem
    refine ⟨q, ⟨mem_range.mp hq, hqp⟩, ?_⟩
    rintro r ⟨hr, hrp⟩
    have hnodup : ((range share.records).val.map
        fun q => (keyinfo.block q).data.ptrToRec).Nodup := by
      rw [hptr]
      exact share.liveSet.nodup
    exact Multiset.inj_on_of_nodup_map hnodup r (mem_range.mpr hr) q hq (hrp.trans hqp.symm)
  · rw [hlaid.mem, mem_range]
  · rw [← hcont]
    exact mem_homes_iff_chain hlaid

lemma searchLoop_spec {l : List Nat} {p fuel : Nat} (share : HpShare ρ κ) (key : κ)
    (flag : Bool) (h : Seg keyinfo.block (some p) l none) (hfuel : l.length ≤ fuel)
    (hflag : flag = true -> hpMask (keyinfo.block p).data.hashOfKey share.blength share.records = p) :
    ∃ found, share.searchLoop keyinfo key fuel flag p = some found ∧
      (∀ pos, found = some pos -> ∃ q ∈ l, (keyinfo.block q).data.ptrToRec = pos ∧
        keyinfo.spec.keyEq (share.data pos) key = true) ∧
      (found = none -> ∀ q ∈ l,
        keyinfo.spec.keyEq (share.data (keyinfo.block q).data.ptrToRec) key = false) := by
  induction l generalizing p fuel flag with
  | nil => cases h
  | cons q l ih =>
    obtain ⟨hq, hl⟩ := h
    cases hq
    obtain ⟨fuel, rfl⟩ : ∃ f, fuel = f + 1 := ⟨fuel - 1, by simp at hfuel; omega⟩
    rw [searchLoop]
    split
    · rename_i heq
      refine ⟨_, rfl, ?_, nofun⟩
      intro pos hpos
      cases hpos
      exact ⟨q, List.mem_cons_self, rfl, heq⟩
    · rename_i heq
      rw [if_neg fun hcond => hcond.2 (hflag hcond.1)]
      cases hnext : (keyinfo.block q).next with
      | none =>
        rw [hnext] at hl
        cases l with
        | cons y l => cases hl.1
        | nil =>
          refine ⟨none, rfl, nofun, fun _ r hr => ?_⟩
          rw [List.mem_singleton.mp hr]
          exact Bool.eq_false_iff.mpr heq
      | some next =>
        rw [hnext] at hl
        obtain ⟨found, hloop, hsome, hnone⟩ := ih false hl
          (by simpa using hfuel) Bool.noConfusion
        refine ⟨found, hloop, ?_, ?_⟩
        · intro pos hpos
          obtain ⟨r, hr, hrest⟩ := hsome pos hpos
          exact ⟨r, List.mem_cons_of_mem _ hr, hrest⟩
        · intro hf r hr
          rcases List.mem_cons.mp hr with rfl | hr
          · exact Bool.eq_false_iff.mpr heq
          · exact hnone hf r hr

/-- A record with the key has the hash number of the key. -/
def KeySpec.HashesAlike (spec : KeySpec ρ κ) (key : κ) : Prop :=
  ∀ record, spec.keyEq record key = true -> spec.recHashnr record = spec.hashnr key

lemma hpSearch_spec (h : share.Inv) (hkey : keyinfo ∈ share.keydef) (key : κ) :
    ∃ found, share.hpSearch keyinfo key = some found ∧
      (∀ pos, found = some pos -> share.live pos = true ∧
        keyinfo.spec.keyEq (share.data pos) key = true) ∧
      (keyinfo.spec.HashesAlike key -> found = none -> ∀ pos, share.live pos = true ->
        keyinfo.spec.keyEq (share.data pos) key = false) := by
  have hindexed := h.indexed hkey
  obtain ⟨⟨C, hinv⟩, -⟩ := h.keys keyinfo hkey
  have hlaid : Laid keyinfo.block (hashHome share.blength share.records)
    (range share.records) C := hinv.laid
  unfold hpSearch
  by_cases hzero : share.records = 0
  · rw [if_pos hzero]
    refine ⟨none, rfl, nofun, fun _ _ pos hpos => ?_⟩
    have hcard := h.slots.card_liveSet
    rw [hzero, Finset.card_eq_zero] at hcard
    have hmem := h.slots.mem_liveSet.mpr hpos
    rw [hcard] at hmem
    cases hmem
  · rw [if_neg hzero]
    set k := hpMask (keyinfo.spec.hashnr key) share.blength share.records with hk
    have hkS : k ∈ range share.records :=
      mem_range.mpr (h.sized.mask_lt (Nat.pos_of_ne_zero hzero) _)
    have hchain : keyinfo.spec.HashesAlike key -> ∀ pos, share.live pos = true ->
        keyinfo.spec.keyEq (share.data pos) key = true ->
        ∃ q ∈ C k, (keyinfo.block q).data.ptrToRec = pos := by
      intro halike pos hpos heq
      obtain ⟨q, ⟨hq, rfl⟩, -⟩ := hindexed.entry_unique pos hpos
      refine ⟨q, (hlaid.mem k q).mpr ⟨mem_range.mpr hq, ?_⟩, rfl⟩
      rw [hashHome, (hindexed.entry_live q hq).2, hk, ← halike _ heq]
    by_cases hhome : hpMask (keyinfo.block k).data.hashOfKey share.blength share.records = k
    · have hmem : k ∈ C k := (hlaid.mem k k).mpr ⟨hkS, hhome⟩
      obtain ⟨found, hloop, hsome, hnone⟩ := searchLoop_spec share key true
        (hlaid.linked k (List.ne_nil_of_mem hmem))
        (length_chain_le hlaid le_rfl k) (fun _ => hhome)
      refine ⟨found, hloop, ?_, ?_⟩
      · intro pos hpos
        obtain ⟨q, hq, rfl, heq⟩ := hsome pos hpos
        exact ⟨(hindexed.entry_live q (mem_range.mp (hlaid.mem_S hq))).1, heq⟩
      · intro halike hf pos hpos
        refine Bool.eq_false_iff.mpr fun heq => ?_
        obtain ⟨q, hq, rfl⟩ := hchain halike pos hpos heq
        rw [hnone hf q hq] at heq
        cases heq
    · obtain ⟨n, hn⟩ : ∃ n, share.records = n + 1 := ⟨share.records - 1, by omega⟩
      by_cases heq : keyinfo.spec.keyEq (share.data (keyinfo.block k).data.ptrToRec) key = true
      · refine ⟨some (keyinfo.block k).data.ptrToRec, ?_, ?_, fun _ h => by cases h⟩
        · rw [hn, searchLoop, if_pos heq]
        · rintro pos ⟨⟩
          exact ⟨(hindexed.entry_live k (mem_range.mp hkS)).1, heq⟩
      refine ⟨none, ?_, nofun, fun halike _ pos hpos => ?_⟩
      · rw [hn, searchLoop, if_neg heq, if_pos ⟨rfl, hhome⟩]
      · refine Bool.eq_false_iff.mpr fun heq => ?_
        obtain ⟨q, hq, -⟩ := hchain halike pos hpos heq
        have hlinked := hlaid.linked k (List.ne_nil_of_mem hq)
        have hmem : k ∈ C k := by
          cases hC : C k with
          | nil => rw [hC] at hq; cases hq
          | cons p l =>
            rw [hC] at hlinked
            cases hlinked.1
            exact List.mem_cons_self
        exact hhome ((hlaid.mem k k).mp hmem).2

/-- A new table. What is in its memory is arbitrary. -/
def HpShare.create (specs : List (KeySpec ρ κ)) (recordsInBlock : Nat) (data : Nat -> ρ)
    (block : Nat -> Link HashInfo) : HpShare ρ κ :=
  ⟨specs.map fun spec => ⟨spec, block, 0⟩, 0, 1, recordsInBlock, 0, [], data, fun _ => false⟩

/-- The calls of the handler: a write, which may find the table full, and the removal of the record at
the current position. -/
inductive Call (ρ : Type)
  | write (record : ρ) (full : Bool)
  | delete (pos : Nat)

/-- Where no record is live, none is active, and `heap_delete` does nothing. -/
def HpShare.step (share : HpShare ρ κ) : Call ρ -> Option (HpShare ρ κ)
  | .write record full => (share.heapWrite record full).map Prod.fst
  | .delete pos => if share.live pos = true then (share.heapDelete pos).map Prod.fst else some share

lemma inv_create (specs : List (KeySpec ρ κ)) (recordsInBlock : Nat) (data : Nat -> ρ)
    (block : Nat -> Link HashInfo) : (create specs recordsInBlock data block).Inv := by
  have hsized : Sized 1 0 := ⟨⟨0, rfl⟩, by decide, by decide⟩
  refine ⟨⟨rfl, List.nodup_nil, nofun, fun p => by simp [create]⟩,
    hsized, fun keydef hkey => ?_⟩
  obtain ⟨spec, -, rfl⟩ := List.mem_map.mp hkey
  refine ⟨⟨fun _ => [], hsized, ?_⟩, rfl, rfl⟩
  exact ⟨fun _ hne => absurd rfl hne, fun k p => by simp [HpKeydef.table, create]⟩

lemma step_inv (h : share.Inv) (call : Call ρ) :
    ∃ share', share.step call = some share' ∧ share'.Inv ∧ share'.specs = share.specs := by
  cases call with
  | write record full =>
    obtain ⟨share', failed, hwrite, hinv, hspecs, -⟩ := heapWrite_spec h record full
    exact ⟨share', by rw [step, hwrite]; rfl, hinv, hspecs⟩
  | delete pos =>
    rw [step]
    by_cases hlive : share.live pos = true
    · obtain ⟨share', hdelete, hinv, hspecs, -⟩ := heapDelete_spec h hlive
      exact ⟨share', by rw [if_pos hlive, hdelete]; rfl, hinv, hspecs⟩
    · exact ⟨share, if_neg hlive, h, rfl⟩

def HpShare.indexContents (share : HpShare ρ κ) : List (Multiset HashInfo) :=
  share.keydef.map fun keydef => contents keydef.block (range share.records)

lemma HpShare.Inv.indexContents_eq (h : share.Inv) :
    share.indexContents = share.specs.map (entries share.liveSet share.data) := by
  rw [specs, List.map_map]
  refine List.map_congr_left fun keydef hkey => ?_
  exact (h.keys keydef hkey).stored

/-- After every sequence of calls, each index has one entry for each live record, so that a search
finds a record with a key if there is one and they hash alike, and a write that fails changes no
record and the contents of no index. -/
theorem heap_indexes_exact (specs : List (KeySpec ρ κ)) (recordsInBlock : Nat) (data : Nat -> ρ)
    (block : Nat -> Link HashInfo) (calls : List (Call ρ)) :
    ∃ share, Machine.run HpShare.step (HpShare.create specs recordsInBlock data block) calls =
        some share ∧ share.specs = specs ∧
      (∀ keydef ∈ share.keydef, share.Indexed keydef) ∧
      (∀ keydef ∈ share.keydef, ∀ key, ∃ found, share.hpSearch keydef key = some found ∧
        (∀ pos, found = some pos ->
          share.live pos = true ∧ keydef.spec.keyEq (share.data pos) key = true) ∧
        (keydef.spec.HashesAlike key -> (found.isSome = true ↔
          ∃ pos, share.live pos = true ∧ keydef.spec.keyEq (share.data pos) key = true))) ∧
      ∀ record full, ∃ share' failed, share.heapWrite record full = some (share', failed) ∧
        (failed = true -> share'.live = share.live ∧ share'.data = share.data ∧
          share'.indexContents = share.indexContents) := by
  have hstep : ∀ (share : HpShare ρ κ) (call : Call ρ), (share.Inv ∧ share.specs = specs) ->
      ∃ share', share.step call = some share' ∧ (share'.Inv ∧ share'.specs = specs) := by
    rintro share call ⟨hinv, hspecs⟩
    obtain ⟨share', hstep, hinv', hspecs'⟩ := step_inv hinv call
    exact ⟨share', hstep, hinv', hspecs'.trans hspecs⟩
  have hspecs0 : (create specs recordsInBlock data block).specs = specs := by
    rw [HpShare.specs, HpShare.create, List.map_map]
    exact List.map_id _
  obtain ⟨share, hrun, hinv, hspecs⟩ := Machine.run_total hstep
    ⟨inv_create specs recordsInBlock data block, hspecs0⟩ calls
  refine ⟨share, hrun, hspecs, fun keydef hkey => hinv.indexed hkey, ?_, ?_⟩
  · intro keydef hkey key
    obtain ⟨found, hsearch, hsome, hnone⟩ := hpSearch_spec hinv hkey key
    refine ⟨found, hsearch, hsome, fun halike => ?_⟩
    cases found with
    | some pos => exact iff_of_true rfl ⟨pos, hsome pos rfl⟩
    | none =>
      refine iff_of_false Bool.false_ne_true ?_
      rintro ⟨pos, hlive, heq⟩
      rw [hnone halike rfl pos hlive] at heq
      cases heq
  · intro record full
    obtain ⟨share', failed, hwrite, hinv', hspecs', -, hfail, -⟩ := heapWrite_spec hinv record full
    refine ⟨share', failed, hwrite, fun hf => ?_⟩
    obtain ⟨hlive, hdata, -⟩ := hfail hf
    refine ⟨hlive, hdata, ?_⟩
    rw [hinv'.indexContents_eq, hinv.indexContents_eq, hspecs', hdata,
      hinv'.slots.liveSet_eq fun p => by rw [hinv.slots.mem_liveSet, hlive]]

/-- An index on the first column that allows no duplicates, with collisions. -/
def firstColumn : KeySpec (Nat × Nat) Nat where
  noSame := true
  nullInKey _ := false
  recHashnr r := r.1 % 4
  hashnr key := key % 4
  recKeyEq r r' := r.1 == r'.1
  keyEq r key := r.1 == key

def secondColumn : KeySpec (Nat × Nat) Nat where
  noSame := false
  nullInKey _ := false
  recHashnr r := r.2
  hashnr key := key
  recKeyEq r r' := r.2 == r'.2
  keyEq r key := r.2 == key

/-- The first columns of three records hash alike. The fourth one is a duplicate, and its entry in the
first index is taken back. The position of the record that is removed is used again. -/
def someCalls : List (Call (Nat × Nat)) :=
  [.write (1, 7) false, .write (5, 7) false, .write (9, 8) false, .write (5, 3) false, .delete 0,
    .write (2, 8) false]

def newTable : HpShare (Nat × Nat) Nat :=
  HpShare.create [secondColumn, firstColumn] 1 (fun _ => (0, 0)) fun _ => ⟨none, ⟨0, 0⟩⟩

theorem heap_indexes_exact_someCalls :
    ((Machine.run HpShare.step newTable someCalls).map fun share =>
      [3, 8, 1, 5].map fun key => share.keydef.map fun keydef => share.hpSearch keydef key) =
      some [[some none, some none], [some (some 0), some none], [some none, some none],
        [some none, some (some 1)]] ∧
    ∃ share, Machine.run HpShare.step newTable someCalls = some share ∧
      ∀ keydef ∈ share.keydef, ∀ key, ∃ found, share.hpSearch keydef key = some found ∧
        (found.isSome = true ↔
          ∃ pos, share.live pos = true ∧ keydef.spec.keyEq (share.data pos) key = true) := by
  obtain ⟨share, hrun, hspecs, -, hsearch, -⟩ := heap_indexes_exact [secondColumn, firstColumn] 1
    (fun _ => (0, 0)) (fun _ => ⟨none, ⟨0, 0⟩⟩) someCalls
  refine ⟨by decide, share, hrun, fun keydef hkey key => ?_⟩
  obtain ⟨found, hfound, -, hiff⟩ := hsearch keydef hkey key
  refine ⟨found, hfound, hiff fun record heq => ?_⟩
  have hspec : keydef.spec ∈ [secondColumn, firstColumn] := by
    rw [← hspecs]
    exact List.mem_map_of_mem hkey
  rcases List.mem_pair.mp hspec with h | h
  · rw [h] at heq ⊢
    exact eq_of_beq heq
  · rw [h] at heq ⊢
    exact congrArg (· % 4) (eq_of_beq heq)

end Hp
