import EryMysql.Hp.Heap
import EryMysql.Mysys.HashDelete

/-!
# Writing a key to a HEAP index

An index has a chain for every home of an entry in it, so the number of chains is told by the
entries: it grows when a home is divided between entries of both kinds, and when an entry is the
first one with its home.
-/

namespace Hp

open Chains Mysys Function Finset Nat

section Homes
variable {α κ : Type} {home old new : α -> Nat} {E : Multiset α} {d : Nat -> Link α} {S : Finset Nat}
  {C : Nat -> List Nat} {k m par : Nat} {e : α} {info : Hash α κ}

abbrev hashHome (b n : Nat) (e : HashInfo) : Nat := hpMask e.hashOfKey b n

def homes (home : α -> Nat) (E : Multiset α) : Finset Nat := (E.map home).toFinset

lemma mem_homes : k ∈ homes home E ↔ ∃ e ∈ E, home e = k := by
  rw [homes, Multiset.mem_toFinset, Multiset.mem_map]

lemma homes_cons : homes home (e ::ₘ E) = insert (home e) (homes home E) := by
  rw [homes, Multiset.map_cons, Multiset.toFinset_cons, homes]

lemma mem_homes_contents (h : Laid d home S C) :
    k ∈ homes home (contents d S) ↔ k ∈ S ∧ home (d k).data = k := by
  rw [mem_homes]
  constructor
  · rintro ⟨e, he, rfl⟩
    obtain ⟨p, hp, rfl⟩ := Multiset.mem_map.mp he
    exact h.home_mem hp
  · rintro ⟨hk, hhome⟩
    exact ⟨_, Multiset.mem_map_of_mem _ hk, hhome⟩

lemma mem_homes_iff_chain (h : Laid d home S C) : k ∈ homes home (contents d S) ↔ C k ≠ [] := by
  rw [mem_homes_contents h, ← h.mem]
  constructor
  · exact List.ne_nil_of_mem
  · intro hne
    have hlinked := h.linked k hne
    cases hC : C k with
    | nil => exact absurd hC hne
    | cons p l =>
      rw [hC] at hlinked
      cases hlinked.1
      exact List.mem_cons_self

lemma card_homes_merge (old new : α -> Nat) (m par : Nat)
    (h : ∀ e ∈ E, new e = if old e = m then par else old e) (hne : par ≠ m) :
    (homes new E).card + (if m ∈ homes old E ∧ par ∈ homes old E then 1 else 0) =
      (homes old E).card := by
  have hmem : ∀ k, k ∈ homes new E ↔
      (k ∈ homes old E ∧ k ≠ m) ∨ (k = par ∧ m ∈ homes old E) := by
    intro k
    simp only [mem_homes]
    constructor
    · rintro ⟨e, he, rfl⟩
      rw [h e he]
      split
      · rename_i hm
        exact .inr ⟨rfl, e, he, hm⟩
      · rename_i hm
        exact .inl ⟨⟨e, he, rfl⟩, hm⟩
    · rintro (⟨⟨e, he, rfl⟩, hm⟩ | ⟨rfl, e, he, hm⟩)
      · exact ⟨e, he, by rw [h e he, if_neg hm]⟩
      · exact ⟨e, he, by rw [h e he, if_pos hm]⟩
  by_cases hm : m ∈ homes old E
  · by_cases hpar : par ∈ homes old E
    · have heq : homes new E = (homes old E).erase m := by
        ext k
        rw [hmem, mem_erase]
        constructor
        · rintro (⟨hk, hkm⟩ | ⟨rfl, -⟩)
          · exact ⟨hkm, hk⟩
          · exact ⟨hne, hpar⟩
        · rintro ⟨hkm, hk⟩
          exact .inl ⟨hk, hkm⟩
      rw [if_pos ⟨hm, hpar⟩, heq]
      exact card_erase_add_one hm
    · have heq : homes new E = insert par ((homes old E).erase m) := by
        ext k
        rw [hmem, mem_insert, mem_erase]
        constructor
        · rintro (⟨hk, hkm⟩ | ⟨hk, -⟩)
          · exact .inr ⟨hkm, hk⟩
          · exact .inl hk
        · rintro (hk | ⟨hkm, hk⟩)
          · exact .inr ⟨hk, hm⟩
          · exact .inl ⟨hk, hkm⟩
      rw [if_neg fun hcond => hpar hcond.2, heq, card_insert_of_notMem,
        card_erase_add_one hm]
      exact fun hin => hpar (mem_of_mem_erase hin)
  · have heq : homes new E = homes old E := by
      ext k
      rw [hmem]
      constructor
      · rintro (⟨hk, -⟩ | ⟨-, hm'⟩)
        · exact hk
        · exact absurd hm' hm
      · intro hk
        exact .inl ⟨hk, fun hkm => hm (hkm ▸ hk)⟩
    rw [if_neg fun hcond => hm hcond.1, heq, add_zero]

/-- Of the chain that is split, records go to the new position or stay. -/
lemma mem_homes_split (h : info.Inv C) (hn : 0 < info.records) (goes : Bool) :
    (if goes then info.records else info.records - (info.blength >>> 1)) ∈
        homes info.homeSucc info.stored ↔
      ∃ p ∈ C (info.records - (info.blength >>> 1)), info.goes (info.array p).data = goes := by
  rw [mem_homes, Hash.stored]
  constructor
  · rintro ⟨e, he, hhome⟩
    obtain ⟨p, hp, rfl⟩ := Multiset.mem_map.mp he
    have hlt : info.home (info.array p).data < info.records := h.sized.mask_lt hn _
    rw [h.homeSucc_eq hn] at hhome
    obtain ⟨hold, hgoes⟩ : info.home (info.array p).data = info.records - (info.blength >>> 1) ∧
        info.goes (info.array p).data = goes := by grind
    exact ⟨p, (h.laid.mem _ p).mpr ⟨hp, hold⟩, hgoes⟩
  · rintro ⟨p, hp, rfl⟩
    obtain ⟨hpS, hhome⟩ := (h.laid.mem _ p).mp hp
    refine ⟨_, Multiset.mem_map_of_mem _ hpS, ?_⟩
    rw [h.homeSucc_eq hn]
    grind

end Homes

variable {ρ κ : Type} {keyinfo : HpKeydef ρ κ} {share : HpShare ρ κ} {n b : Nat}
  {E : Multiset HashInfo} {d : Nat -> Link HashInfo} {C : Nat -> List Nat} {empty buckets : Nat}
  {l : List Nat}

structure HpKeydef.Holds (keyinfo : HpKeydef ρ κ) (n b : Nat) (E : Multiset HashInfo) : Prop where
  inv : ∃ C, (keyinfo.table n b).Inv C
  stored : (keyinfo.table n b).stored = E
  buckets : keyinfo.hashBuckets = (homes (fun e => hpMask e.hashOfKey b n) E).card

def grown (b n : Nat) : Nat := if n + 1 = b then b + b else b

lemma makeRoom_spec (h : keyinfo.Holds n b E) (entry : HashInfo) :
    ∃ d empty two C, keyinfo.makeRoom n b entry = some (d, empty, two) ∧
      (keyinfo.table n b).Roomy d empty C ∧
      (homes (hashHome b (n + 1)) E).card =
        if two then keyinfo.hashBuckets + 1 else keyinfo.hashBuckets := by
  obtain ⟨C, hinv⟩ := h.inv
  unfold HpKeydef.makeRoom
  simp only
  split
  · rename_i hne
    have hn : 0 < n := Nat.pos_of_ne_zero fun hzero => hne (hinv.halfbuff_eq_iff.mpr hzero)
    obtain ⟨st, C', hloop, hroomy, hlow, hhigh⟩ := splitLoop_roomy hinv entry hn
    refine ⟨_, _, st.lowFind && st.highFind, C', ?_, hroomy, ?_⟩
    · have hloop' : (keyinfo.table n b).splitLoop (n - (b >>> 1)) n
          ⟨keyinfo.block, false, false, false, false, 0, entry, 0, entry, n⟩ (n - (b >>> 1)) =
          some st := hloop
      rw [hloop']
      rfl
    · have hmerge := card_homes_merge (E := E) (hashHome b (n + 1)) (hashHome b n) n (n - (b >>> 1))
        (fun e _ => hinv.sized.mask_pred hn _) hne
      have hiff : (n ∈ homes (hashHome b (n + 1)) E ∧
          n - (b >>> 1) ∈ homes (hashHome b (n + 1)) E) ↔
          (st.lowFind && st.highFind) = true := by
        rw [Bool.and_eq_true, hlow, hhigh, and_comm, ← h.stored]
        exact and_congr (mem_homes_split hinv hn false) (mem_homes_split hinv hn true)
      rw [← hmerge, h.buckets]
      by_cases htwo : (st.lowFind && st.highFind) = true
      · rw [if_pos htwo, if_pos (hiff.mpr htwo)]
      · rw [if_neg htwo, if_neg (mt hiff.mp htwo), add_zero]
  · rename_i heq
    have hzero : n = 0 := hinv.halfbuff_eq_iff.mp (not_not.mp heq)
    have hE : E = 0 := by
      rw [← h.stored, hzero]
      rfl
    refine ⟨_, _, false, _, rfl, roomy_of_zero hzero _, ?_⟩
    rw [h.buckets, hE]
    rfl

def KeySpec.Duplicates (spec : KeySpec ρ κ) (data : Nat -> ρ) (record : ρ) (E : Multiset HashInfo) :
    Prop :=
  spec.noSame = true ∧ spec.nullInKey record = false ∧
    ∃ e ∈ E, e.hashOfKey = spec.recHashnr record ∧ spec.recKeyEq record (data e.ptrToRec) = true

section
variable (spec : KeySpec ρ κ) (data : Nat -> ρ) (record : ρ) {p fuel : Nat}
include spec data record

lemma duplicateLoop_spec (h : Seg d (some p) l none)
    (hfuel : l.length ≤ fuel) : ∃ found, spec.duplicateLoop data record d fuel p = some found ∧
      (found = true ↔ ∃ q ∈ l, (d q).data.hashOfKey = spec.recHashnr record ∧
        spec.recKeyEq record (data (d q).data.ptrToRec) = true) := by
  refine Seg.walk (fun fuel q hnext => ?_) (fun fuel q next l hnext ih => ?_) h hfuel
  · rw [KeySpec.duplicateLoop, hnext]
    split
    case isTrue hcond => exact ⟨true, rfl, by simpa using hcond⟩
    case isFalse hcond => exact ⟨false, rfl, by simpa using hcond⟩
  · rw [KeySpec.duplicateLoop, hnext]
    split
    case isTrue hcond => exact ⟨true, rfl, iff_of_true rfl ⟨q, List.mem_cons_self, hcond⟩⟩
    case isFalse hcond =>
      obtain ⟨found, hfound, hiff⟩ := ih
      refine ⟨found, hfound, ?_⟩
      rw [hiff, List.exists_mem_cons_iff, or_iff_right hcond]

lemma duplicate_spec (h : Seg d (some p) l none)
    (hfuel : l.length ≤ fuel)
    (hE : ∀ e : HashInfo, e.hashOfKey = spec.recHashnr record -> (e ∈ E ↔ ∃ q ∈ l, (d q).data = e)) :
    ∃ found, spec.duplicate data record d fuel p = some found ∧
      (found = true ↔ spec.Duplicates data record E) := by
  unfold KeySpec.duplicate KeySpec.Duplicates
  by_cases hunique : spec.noSame = true ∧ spec.nullInKey record = false
  · rw [if_pos hunique]
    obtain ⟨found, hfound, hiff⟩ := duplicateLoop_spec spec data record h hfuel
    refine ⟨found, hfound, hiff.trans ?_⟩
    constructor
    · rintro ⟨q, hq, hhash, heq⟩
      exact ⟨hunique.1, hunique.2, _, (hE _ hhash).mpr ⟨q, hq, rfl⟩, hhash, heq⟩
    · rintro ⟨-, -, e, he, hhash, heq⟩
      obtain ⟨q, hq, rfl⟩ := (hE e hhash).mp he
      exact ⟨q, hq, hhash, heq⟩
  · rw [if_neg hunique]
    refine ⟨false, rfl, iff_of_false Bool.false_ne_true ?_⟩
    rintro ⟨h1, h2, -⟩
    exact hunique ⟨h1, h2⟩

lemma not_duplicates {b m : Nat}
    (h : hpMask (spec.recHashnr record) b m ∉ homes (hashHome b m) E) :
    ¬spec.Duplicates data record E := by
  rintro ⟨-, -, e, he, hhash, -⟩
  exact h (mem_homes.mpr ⟨e, he, by rw [hashHome, hhash]⟩)

end

lemma mem_behind {home : HashInfo -> Nat} {S : Finset Nat} {k : Nat} {e : HashInfo}
    (h : Laid d home S C) (hC : C k = k :: l) (hcontents : contents d S = (d k).data ::ₘ E)
    (he : home e = k) : e ∈ E ↔ ∃ q ∈ l, (d q).data = e := by
  have hk : k ∈ S := h.mem_S (k := k) (by rw [hC]; exact List.mem_cons_self)
  have hnodup := h.nodup k
  rw [hC] at hnodup
  rw [contents_erase hk] at hcontents
  rw [← (Multiset.cons_inj_right _).mp hcontents, contents, Multiset.mem_map]
  constructor
  · rintro ⟨q, hq, rfl⟩
    obtain ⟨hqk, hqS⟩ := mem_erase.mp hq
    have hmem := (h.mem k q).mpr ⟨hqS, he⟩
    rw [hC] at hmem
    exact ⟨q, (List.mem_cons.mp hmem).resolve_left hqk, rfl⟩
  · rintro ⟨q, hq, rfl⟩
    refine ⟨q, mem_erase.mpr ⟨?_, ?_⟩, rfl⟩
    · rintro rfl
      exact (List.nodup_cons.mp hnodup).1 hq
    · exact h.mem_S (k := k) (by rw [hC]; exact List.mem_cons_of_mem _ hq)

lemma place_table (keyinfo : HpKeydef ρ κ) (d : Nat -> Link HashInfo) (empty : Nat) {n b k : Nat}
    {entry : HashInfo} (hk : hpMask entry.hashOfKey b (n + 1) = k) :
    (keyinfo.table n b).place entry d empty = if k = empty then some (update d k ⟨none, entry⟩)
      else if k = hpMask (d k).data.hashOfKey b (n + 1) then
        some (update (update d empty (d k)) k ⟨some empty, entry⟩)
      else hpMovelink (n + 1) (update (update d empty (d k)) k ⟨none, entry⟩) (some k)
        (hpMask (d k).data.hashOfKey b (n + 1)) (some empty) := by
  subst hk
  rfl

lemma placeKey_spec (hroomy : (keyinfo.table share.records share.blength).Roomy d empty C)
    (hsized : Sized share.blength share.records)
    (hstored : (keyinfo.table share.records share.blength).stored = E)
    (hbuckets : (homes (hashHome share.blength (share.records + 1)) E).card =
      buckets) (record : ρ) (recpos : Nat) :
    ∃ keyinfo' duplicate, keyinfo.placeKey share record ⟨recpos, keyinfo.spec.recHashnr record⟩ d
        empty buckets = some (keyinfo', duplicate) ∧
      keyinfo'.spec = keyinfo.spec ∧
      keyinfo'.Holds (share.records + 1) (grown share.blength share.records)
        (⟨recpos, keyinfo.spec.recHashnr record⟩ ::ₘ E) ∧
      (duplicate = true ↔ keyinfo.spec.Duplicates share.data record E) := by
  generalize hentry : (⟨recpos, keyinfo.spec.recHashnr record⟩ : HashInfo) = entry
  have hhash : entry.hashOfKey = keyinfo.spec.recHashnr record := by rw [← hentry]
  obtain ⟨hsized', hmask⟩ := hsized.succ
  obtain ⟨d', C', hplace, hlaid, hcontents⟩ := place_spec hroomy hsized entry
  rw [hstored] at hcontents
  rw [place_table _ _ _ rfl] at hplace
  unfold HpKeydef.placeKey
  simp only
  have hkS : hpMask entry.hashOfKey share.blength (share.records + 1) ∈ range (share.records + 1) := by
    rw [mem_range, hpMask, ← hmask]
    exact hsized'.mask_lt (succ_pos _) _
  generalize hk : hpMask entry.hashOfKey share.blength (share.records + 1) = k at hplace hkS ⊢
  have hholds : ∀ buckets',
      buckets' = (insert k (homes (hashHome share.blength (share.records + 1)) E)).card ->
      HpKeydef.Holds { keyinfo with block := d', hashBuckets := buckets' }
        (share.records + 1) (grown share.blength share.records) (entry ::ₘ E) := by
    intro buckets' hbuckets'
    refine ⟨⟨C', hsized', hlaid.congr (fun _ _ => rfl) fun p _ => hmask _⟩, hcontents, ?_⟩
    have hhomes : homes (hashHome (grown share.blength share.records) (share.records + 1)) (entry ::ₘ E) =
        homes (hashHome share.blength (share.records + 1)) (entry ::ₘ E) :=
      congrArg (homes · _) (funext fun e => hmask _)
    rw [hhomes, homes_cons, hashHome, hk]
    exact hbuckets'
  have hmem : k ∈ homes (hashHome share.blength (share.records + 1)) E ↔
      k ≠ empty ∧ k = hpMask (d k).data.hashOfKey share.blength (share.records + 1) := by
    rw [← hstored, ← hroomy.contents]
    refine (mem_homes_contents hroomy.laid).trans ?_
    rw [mem_erase]
    constructor
    · rintro ⟨⟨hne, -⟩, hhome⟩
      exact ⟨hne, hhome.symm⟩
    · rintro ⟨hne, hhome⟩
      exact ⟨⟨hne, hkS⟩, hhome.symm⟩
  have hfirst : ¬(k ≠ empty ∧ k = hpMask (d k).data.hashOfKey share.blength (share.records + 1)) ->
      HpKeydef.Holds { keyinfo with block := d', hashBuckets := buckets + 1 }
        (share.records + 1) (grown share.blength share.records) (entry ::ₘ E) ∧
      (false = true ↔ keyinfo.spec.Duplicates share.data record E) := by
    intro hnone
    have hnot := mt hmem.mp hnone
    refine ⟨hholds (buckets + 1) ?_, iff_of_false Bool.false_ne_true ?_⟩
    · rw [card_insert_of_notMem hnot, hbuckets]
    · rw [← hk, hhash] at hnot
      exact not_duplicates _ _ _ hnot
  by_cases hpos : k = empty
  · rw [if_pos hpos] at hplace ⊢
    obtain rfl := Option.some.inj hplace
    exact ⟨_, false, rfl, rfl, hfirst fun h => h.1 hpos⟩
  · rw [if_neg hpos] at hplace ⊢
    by_cases hgpos : k = hpMask (d k).data.hashOfKey share.blength (share.records + 1)
    · rw [if_pos hgpos] at hplace ⊢
      obtain rfl := Option.some.inj hplace
      generalize hblock : update (update d empty (d k)) k ⟨some empty, entry⟩ = block at *
      have hblockk : block k = ⟨some empty, entry⟩ := by rw [← hblock, update_self]
      obtain ⟨l, hC, hl⟩ := chain_eq_cons hlaid hkS (by rw [hblockk]; exact hk)
      rw [hblockk] at hl
      have hlen : (C' k).length ≤ share.records + 1 := length_chain_le hlaid le_rfl k
      rw [hC] at hlen
      obtain ⟨found, hfound, hiff⟩ := duplicate_spec keyinfo.spec share.data record hl
        (le_of_succ_le hlen) fun e he => mem_behind hlaid hC (by rw [hcontents, hblockk])
          (show hpMask e.hashOfKey share.blength (share.records + 1) = k by rw [he, ← hhash, hk])
      rw [hfound]
      refine ⟨_, found, rfl, rfl, hholds buckets ?_, hiff⟩
      rw [insert_eq_of_mem (hmem.mpr ⟨hpos, hgpos⟩), hbuckets]
    · rw [if_neg hgpos] at hplace ⊢
      rw [hplace]
      exact ⟨_, false, rfl, rfl, hfirst fun h => hgpos h.2⟩

/-- `hp_write_key` adds the entry, and tells whether the index is unique and has a duplicate. -/
lemma hpWriteKey_spec (h : keyinfo.Holds share.records share.blength E) (record : ρ)
    (recpos : Nat) :
    ∃ keyinfo' duplicate, share.hpWriteKey keyinfo record recpos = some (keyinfo', duplicate) ∧
      keyinfo'.spec = keyinfo.spec ∧
      keyinfo'.Holds (share.records + 1) (grown share.blength share.records)
        (⟨recpos, keyinfo.spec.recHashnr record⟩ ::ₘ E) ∧
      (duplicate = true ↔ keyinfo.spec.Duplicates share.data record E) := by
  obtain ⟨C, hinv⟩ := h.inv
  obtain ⟨d, empty, two, C', hroom, hroomy, hbuckets⟩ :=
    makeRoom_spec h ⟨recpos, keyinfo.spec.recHashnr record⟩
  unfold HpShare.hpWriteKey
  simp only [hroom]
  exact placeKey_spec hroomy hinv.sized h.stored hbuckets record recpos

end Hp
