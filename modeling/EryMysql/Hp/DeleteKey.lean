import EryMysql.Hp.WriteKey

/-!
# Removing a key from a HEAP index

The cases of `hp_delete_key` are those of `my_hash_delete`, except where the last entry is the first
one of its chain and the entry in its new home is behind it: here the last entry stays the first
one. The number of chains shrinks when an entry was the only one with its home, and when the chain
of the last home is put together with another one.
-/

namespace Hp

open Chains Mysys Function Finset Option Bool Hash
open List hiding mem_range range

section Front
variable {α : Type} {d : Nat -> Link α} {old new : α -> Nat} {m e par k : Nat} {C : Nat -> List Nat}

/-- The entry at `k` has moved to the empty position, where the link of `g` leads now, and the last
entry to `k`. -/
lemma Shrunk.ofFront (h : Shrinking d old new m e par C) (l0 l2 : List Nat) (g : Nat)
    (hC : C m = l0 ++ g :: k :: l2) (hpar : par = k) (hkm : k < m) (hke : k ≠ e)
    (hlast : old (d m).data = m) {d' : Nat -> Link α}
    (hk : d' k = setNext (update d e (d k)) g (some e) m)
    (hd : ∀ r, r ≠ k -> r ≠ m -> d' r = setNext (update d e (d k)) g (some e) r) :
    Shrunk d d' new m e := by
  have hlt := h.lt
  have hkS : k ∈ (range (m + 1)).erase e := by
    simp only [mem_erase, mem_range]
    omega
  have hge : g ≠ e := by
    have hg : g ∈ (range (m + 1)).erase e := h.laid.mem_S (k := m) (by rw [hC]; simp)
    exact ne_of_mem_erase hg
  have hstay : ∀ r, r ≠ e -> update d e (d k) r = d r := fun r hr => update_of_ne hr _ _
  have hmoved := h.laid.move hC (notMem_erase _ _)
    (show setNext (update d e (d k)) g (some e) e = d k by
      rw [setNext_of_ne hge.symm, update_self])
    (by rw [setNext_self, hstay g hge])
    (fun r hr hrg _ => by rw [setNext_of_ne hrg, hstay r (ne_of_mem_erase hr)])
  generalize hdA : setNext (update d e (d k)) g (some e) = dA at *
  have hdata : ∀ r, r ≠ e -> (dA r).data = (d r).data := by
    intro r hr
    rw [← hdA, data_setNext, hstay r hr]
  have hmS : m ∈ insert e (((range (m + 1)).erase e).erase k) := by
    simp only [mem_insert, mem_erase, mem_range]
    omega
  have hkS' : k ∉ insert e (((range (m + 1)).erase e).erase k) := by simp [hke]
  have hset : insert k ((insert e (((range (m + 1)).erase e).erase k)).erase m) =
      range m := by
    ext p
    simp only [mem_insert, mem_erase, mem_range]
    omega
  obtain ⟨l, hCm, -⟩ := chain_eq_cons hmoved hmS (by rw [hdata m hlt.ne', hlast])
  have hneK : ∀ r ∈ insert e (((range (m + 1)).erase e).erase k), r ≠ k := by
    rintro r hr rfl
    exact hkS' hr
  have hfinal : Laid d' new _ _ := hmoved.rehome hCm hkS' hk
    (fun r hr hrm => hd r (hneK r hr) hrm) (fun r _ => by rw [h.home, hpar])
  rw [hset] at hfinal
  refine ⟨_, hfinal, ?_⟩
  calc contents d' (range m)
      = contents dA (insert e (((range (m + 1)).erase e).erase k)) := by
        rw [← hset]
        refine contents_move hmS hkS' (by rw [hk]) fun r hr => ?_
        obtain ⟨hrm, hr⟩ := mem_erase.mp hr
        rw [hd r (hneK r hr) hrm]
    _ = contents d ((range (m + 1)).erase e) := by
        refine contents_move hkS (notMem_erase _ _) ?_ fun r hr => ?_
        · rw [← hdA, data_setNext, update_self]
        · exact hdata r (ne_of_mem_erase (mem_of_mem_erase hr))

/-- The entry in the new home of the last one moves to the empty position, behind the entries that
were before it. -/
lemma toFront (h : Shrinking d old new m e par C) (hpos : new (d m).data = k) (hke : k ≠ e)
    (hsame : old (d m).data = old (d k).data) (hlast : old (d m).data = m) :
    ∃ d', movelink (m + 1) (update (update d e (d k)) k (d m)) (some k) k
      (some e) = some d' ∧ Shrunk d d' new m e := by
  have hlt := h.lt
  have hkm : k < m := hpos ▸ h.home_lt _
  have hpar : par = k := by rw [← hpos, h.home, if_pos hlast]
  have hkS : k ∈ (range (m + 1)).erase e := by
    simp only [mem_erase, mem_range]
    omega
  obtain ⟨l, hC, hl⟩ := chain_eq_cons h.laid h.last_mem hlast
  have hkl : k ∈ l := by
    have hmem := (h.laid.mem m k).mpr ⟨hkS, hsame.symm.trans hlast⟩
    rw [hC] at hmem
    exact (mem_cons.mp hmem).resolve_left hkm.ne
  obtain ⟨l1, l2, rfl, hl1, -⟩ := hl.split hkl
  have hnodup := h.laid.nodup m
  have hlen := length_chain_le h.laid (erase_subset _ _) m
  rw [hC] at hnodup hlen
  have hne : ∀ r ∈ l1, r ≠ k ∧ r ≠ m ∧ r ≠ e := by
    intro r hr
    have hrS : r ∈ (range (m + 1)).erase e := h.laid.mem_S (k := m) (by rw [hC]; simp [hr])
    refine ⟨?_, ?_, ne_of_mem_erase hrS⟩
    iterate 2
      grind
  have hd₁k : update (update d e (d k)) k (d m) k = d m := update_self _ _ _
  have hd1 : ∀ r, r ≠ k -> update (update d e (d k)) k (d m) r =
      update d e (d k) r := fun r hr => update_of_ne hr _ _
  rcases eq_nil_or_concat l1 with rfl | ⟨l0, g, hcat⟩
  · refine ⟨setNext (update (update d e (d k)) k (d m)) k (some e), ?_,
      Shrunk.ofFront h [] l2 m hC hpar hkm hke hlast ?_ fun r hrk hrm => ?_⟩
    · rw [movelink, relink, hd₁k, if_pos (seg_nil.mp hl1)]
    · rw [setNext_self, setNext_self, hd₁k, update_of_ne hlt.ne']
    · rw [setNext_of_ne hrk, setNext_of_ne hrm, hd1 r hrk]
  · rw [concat_eq_append] at hcat
    subst hcat
    have hg := hne g (by simp)
    refine ⟨setNext (update (update d e (d k)) k (d m)) g (some e), ?_,
      Shrunk.ofFront h (m :: l0) l2 g (by simp [hC]) hpar hkm hke hlast ?_
        fun r hrk hrm => ?_⟩
    · obtain ⟨p, hp⟩ : ∃ p, (d m).next = some p := by
        cases hnext : (d m).next with
        | none =>
          rw [hnext] at hl1
          cases l0 with
          | nil => cases hl1.1
          | cons x l0 => cases hl1.1
        | some p => exact ⟨p, rfl⟩
      rw [hp] at hl1
      have hpl : p ∈ l0 ++ [g] := by
        cases l0 with
        | nil =>
          cases hl1.1
          simp
        | cons x l0 =>
          cases hl1.1
          simp
      rw [movelink, relink, hd₁k, hp, if_neg fun heq => (hne p hpl).1 (some.inj heq)]
      refine relink_eq (some e) (hl1.frame fun r hr => ?_) (fun r hr heq => ?_) ?_
      · rw [hd1 r (hne r hr).1, update_of_ne (hne r hr).2.2]
      · exact (hne r hr).1 (some.inj heq).symm
      · simp only [length_cons, length_append] at hlen
        omega
    · rw [setNext_of_ne hg.1.symm, setNext_of_ne hg.2.1.symm, hd₁k, update_of_ne hlt.ne']
    · by_cases hrg : r = g
      · subst hrg
        rw [setNext_self, setNext_self, hd1 r hrk]
      · rw [setNext_of_ne hrg, setNext_of_ne hrg, hd1 r hrk]

end Front

variable {ρ κ : Type} {keyinfo : HpKeydef ρ κ} {share : HpShare ρ κ} {n b : Nat}
  {E : Multiset HashInfo} {d : Nat -> Link HashInfo} {C : Nat -> List Nat} {empty buckets : Nat}

lemma moveLastKey_spec {oldB : Nat} {par : Nat}
    (h : Shrinking d (hashHome oldB (n + 1))
      (hashHome b n) n empty par C) :
    ∃ d' merged, moveLastKey n b oldB d empty = some (d', merged) ∧
      Shrunk d d' (hashHome b n) n empty ∧
      (merged = true ↔ n ∈ homes (hashHome oldB (n + 1))
          (contents d ((range (n + 1)).erase empty)) ∧
        par ∈ homes (hashHome oldB (n + 1))
          (contents d ((range (n + 1)).erase empty))) := by
  have hlaid := h.laid
  have hmemLast : n ∈ homes (hashHome oldB (n + 1))
      (contents d ((range (n + 1)).erase empty)) ↔
      hpMask (d n).data.hashOfKey oldB (n + 1) = n := by
    rw [mem_homes_contents hlaid]
    exact and_iff_right h.last_mem
  have hpar : hpMask (d n).data.hashOfKey oldB (n + 1) = n ->
      par = hpMask (d n).data.hashOfKey b n := by
    intro hlast
    exact ((h.home (d n).data).trans (if_pos hlast)).symm
  unfold moveLastKey
  simp only
  split
  · rename_i hpos
    refine ⟨_, false, rfl, h.toHome hpos, iff_of_false false_ne_true ?_⟩
    rintro ⟨hn, hp⟩
    rw [hpar (hmemLast.mp hn), hpos] at hp
    exact notMem_erase _ _ ((mem_homes_contents hlaid).mp hp).1
  · rename_i hpos
    split
    · rename_i hpos3
      obtain ⟨d', hlink, hshrunk⟩ := h.toEvicted rfl hpos (Ne.symm hpos3)
      rw [hpMovelink, hlink]
      refine ⟨d', false, rfl, hshrunk, iff_of_false false_ne_true ?_⟩
      rintro ⟨hn, hp⟩
      rw [hpar (hmemLast.mp hn)] at hp
      have hk := ((mem_homes_contents hlaid).mp hp).2
      refine hpos3 (hk.symm.trans (h.home_eq fun heq => ?_).symm)
      exact (h.home_lt (d n).data).ne (hk.symm.trans heq)
    · rename_i hpos3
      split
      · rename_i hsame
        split
        · rename_i hne
          obtain ⟨d', hlink, hshrunk⟩ := h.inChain hne
          rw [hpMovelink, hlink]
          refine ⟨d', false, rfl, hshrunk, iff_of_false false_ne_true ?_⟩
          rintro ⟨hn, -⟩
          exact hne (hmemLast.mp hn)
        · rename_i hlast
          have hlast := not_not.mp hlast
          obtain ⟨d', hlink, hshrunk⟩ := toFront h rfl hpos hsame hlast
          rw [hpMovelink, hlink]
          refine ⟨d', false, rfl, hshrunk, iff_of_false false_ne_true ?_⟩
          rintro ⟨hn, hp⟩
          rw [hpar hlast] at hp
          have hk := ((mem_homes_contents hlaid).mp hp).2
          exact (h.home_lt (d n).data).ne (hk.symm.trans (hsame.symm.trans hlast))
      · rename_i hsame
        obtain ⟨d', hlink, hshrunk⟩ := h.toMerged rfl hpos (not_not.mp hpos3).symm
          fun hcond => hsame hcond.1
        rw [if_neg hsame] at hlink
        rw [hpMovelink, hlink]
        refine ⟨_, true, rfl, hshrunk, iff_of_true rfl ?_⟩
        have hlast : hpMask (d n).data.hashOfKey oldB (n + 1) = n := by
          by_contra hne
          exact hsame ((h.home_eq hne).symm.trans (h.at_home hne).2.symm)
        have hk : hpMask (d (hpMask (d n).data.hashOfKey b n)).data.hashOfKey oldB (n + 1) ≠ n :=
          fun heq => hsame (hlast.trans heq.symm)
        refine ⟨hmemLast.mpr hlast, ?_⟩
        rw [hpar hlast, mem_homes_contents hlaid, mem_erase, mem_range]
        exact ⟨⟨hpos, (h.home_lt (d n).data).trans (Nat.lt_succ_self n)⟩,
          (h.home_eq hk).symm.trans (not_not.mp hpos3).symm⟩

lemma shrinkKey_spec (hsized : Sized b n) (he : empty ≤ n)
    (h : Laid d (hashHome (grown b n) (n + 1))
      ((range (n + 1)).erase empty) C) :
    ∃ d' merged, (if empty = n then some (d, false)
        else moveLastKey n b (grown b n) d empty) = some (d', merged) ∧
      Shrunk d d' (hashHome b n) n empty ∧
      (homes (hashHome b n)
          (contents d ((range (n + 1)).erase empty))).card +
        (if merged = true then 1 else 0) =
        (homes (hashHome (grown b n) (n + 1))
          (contents d ((range (n + 1)).erase empty))).card := by
  have hpred : 0 < n -> ∀ e : HashInfo, hpMask e.hashOfKey b n =
      if hpMask e.hashOfKey (grown b n) (n + 1) = n then n - (b >>> 1)
      else hpMask e.hashOfKey (grown b n) (n + 1) := by
    intro hn e
    have hmask : hpMask e.hashOfKey (grown b n) (n + 1) = hpMask e.hashOfKey b (n + 1) :=
      hsized.succ.2 e.hashOfKey
    rw [hmask]
    exact hsized.mask_pred hn _
  by_cases hen : empty = n
  · rw [if_pos hen]
    have hset : (range (n + 1)).erase empty = range n := by
      rw [hen, range_add_one, erase_insert (by simp)]
    have hsame : ∀ e ∈ contents d ((range (n + 1)).erase empty),
        hpMask e.hashOfKey b n = hpMask e.hashOfKey (grown b n) (n + 1) := by
      intro e he
      rw [hset] at h he
      obtain ⟨p, hp, rfl⟩ := Multiset.mem_map.mp he
      have hlt := mem_range.mp (h.home_mem hp).1
      rw [hpred (by omega), if_neg hlt.ne]
    refine ⟨d, false, rfl, ⟨C, ?_, by rw [hset]⟩, ?_⟩
    · rw [hset] at h hsame
      exact h.congr (fun _ _ => rfl) fun p hp => hsame _ (Multiset.mem_map_of_mem _ hp)
    · rw [homes, Multiset.map_congr rfl hsame]
      rfl
  · rw [if_neg hen]
    have hlt := lt_of_le_of_ne he hen
    have hn : 0 < n := by omega
    obtain ⟨c, hb, hc, hnc, hshift, -⟩ := hsized.halves hn
    obtain ⟨d', merged, heq, hshrunk, hmerged⟩ := moveLastKey_spec
      ⟨h, hlt, hpred hn, fun e => hsized.mask_lt hn _⟩
    refine ⟨d', merged, heq, hshrunk, ?_⟩
    rw [← card_homes_merge _ _ n _ (fun e _ => hpred hn e) (by omega)]
    simp [hmerged]

section Chain
variable {α : Type} {home : α -> Nat} {S : Finset Nat} {d : Nat -> Link α} {k : Nat}

lemma filter_contents (h : Laid d home S C) (k : Nat) :
    (contents d S).filter (fun e => home e = k) = ((C k).map fun p => (d p).data : Multiset α) := by
  have hchain : S.val.filter (fun p => home (d p).data = k) = (C k : Multiset Nat) := by
    refine (Multiset.Nodup.ext (S.nodup.filter _) (Multiset.coe_nodup.mpr (h.nodup k))).mpr
      fun p => ?_
    rw [Multiset.mem_filter, Multiset.mem_coe, h.mem]
    rfl
  rw [contents, Multiset.filter_map, ← Multiset.map_coe, ← hchain]
  rfl

lemma home_mem_rest (h : Laid d home S C) {e : α} {E : Multiset α} (hE : contents d S = e ::ₘ E)
    {l1 l2 : List Nat} {q : Nat} (hC : C (home e) = l1 ++ q :: l2) :
    home e ∈ homes home E ↔ ¬ (l1 = [] ∧ l2 = []) := by
  have hfilter := congrArg Multiset.card (filter_contents h (home e))
  have hcons : (e ::ₘ E).filter (fun x => home x = home e) =
      e ::ₘ E.filter fun x => home x = home e := Multiset.filter_cons_of_pos E rfl
  rw [hE, hcons, Multiset.card_cons, hC, Multiset.coe_card,
    length_map, length_append, length_cons] at hfilter
  have hpos : home e ∈ homes home E ↔ 0 < (E.filter fun x => home x = home e).card := by
    rw [Multiset.card_pos_iff_exists_mem, mem_homes]
    simp
  rw [hpos, ← length_eq_zero_iff, ← length_eq_zero_iff]
  omega

end Chain

lemma hpDeleteKey_spec (hsized : Sized share.blength share.records) {record : ρ} {recpos : Nat}
    (h : keyinfo.Holds (share.records + 1) (grown share.blength share.records)
      (⟨recpos, keyinfo.spec.recHashnr record⟩ ::ₘ E))
    (huniq : ∀ e ∈ E, e.ptrToRec ≠ recpos) :
    ∃ keyinfo', share.hpDeleteKey keyinfo record recpos = some (keyinfo', false) ∧
      keyinfo'.spec = keyinfo.spec ∧ keyinfo'.Holds share.records share.blength E := by
  obtain ⟨⟨C, hinv⟩, hstored, hbuckets⟩ := h
  set n := share.records with hn
  set b := share.blength with hb
  set entry : HashInfo := ⟨recpos, keyinfo.spec.recHashnr record⟩ with hentry
  have hlaid : Laid keyinfo.block (hashHome (grown b n) (n + 1))
    (range (n + 1)) C := hinv.laid
  have hcont : contents keyinfo.block (range (n + 1)) = entry ::ₘ E := hstored
  obtain ⟨p, hp, hpe⟩ : ∃ p ∈ range (n + 1), (keyinfo.block p).data = entry := by
    have hmem : entry ∈ contents keyinfo.block (range (n + 1)) := by
      rw [hcont]
      exact Multiset.mem_cons_self _ _
    exact Multiset.mem_map.mp hmem
  have hpC : p ∈ C (hpMask entry.hashOfKey (grown b n) (n + 1)) :=
    (hlaid.mem _ p).mpr ⟨hp, by rw [hpe]⟩
  obtain ⟨l1, q, l2, hC, hq, hfind⟩ := (@Seg.find_before _ _ _ _
    (fun q => (keyinfo.block q).data.ptrToRec = recpos) _ (findEntry keyinfo.block recpos)
    (fun _ _ _ => rfl) none _ (hlaid.linked _ (ne_nil_of_mem hpC))
    (length_chain_le hlaid le_rfl _)).resolve_left fun hnot => hnot.2 p hpC (by rw [hpe])
  have hqe : (keyinfo.block q).data = entry := by
    have hqS : q ∈ range (n + 1) := hlaid.mem_S (by rw [hC]; simp)
    have hmem : (keyinfo.block q).data ∈ entry ::ₘ E := by
      rw [← hcont]
      exact Multiset.mem_map_of_mem _ hqS
    exact (Multiset.mem_cons.mp hmem).resolve_right fun hin => huniq _ hin hq
  obtain ⟨d, empty, C1, hunlink, he, hlaid1, hcontents, -⟩ := unlinkRecord_spec hlaid hC
  rw [hqe, hcont, Multiset.cons_inj_right] at hcontents
  obtain ⟨d', merged, hlast, ⟨C', hlaid', hcontents'⟩, hcard⟩ := shrinkKey_spec hsized
    (Nat.lt_succ_iff.mp (mem_range.mp he)) hlaid1
  rw [← hcontents] at hcontents' hcard
  have halone : (l1.getLast? = none ∧ (keyinfo.block q).next = none) ↔ (l1 = [] ∧ l2 = []) := by
    rw [getLast?_eq_none_iff]
    have hlinked := hlaid.linked _ (ne_nil_of_mem hpC)
    rw [hC] at hlinked
    obtain ⟨s, -, -, hl2⟩ := (seg_append _ _).mp hlinked
    rw [hl2.eq_head?, head?_eq_none_iff]
  have hbuckets' : (if l1.getLast? = none ∧ (keyinfo.block q).next = none
      then keyinfo.hashBuckets - 1 else keyinfo.hashBuckets) =
      (homes (hashHome (grown b n) (n + 1)) E).card := by
    have hrest := home_mem_rest hlaid hcont hC
    rw [homes_cons] at hbuckets
    by_cases hone : l1 = [] ∧ l2 = []
    · rw [if_pos (halone.mpr hone), hbuckets,
        card_insert_of_notMem fun hin => hrest.mp hin hone, Nat.add_sub_cancel]
    · rw [if_neg fun hcond => hone (halone.mp hcond), hbuckets, insert_eq_of_mem (hrest.mpr hone)]
  refine ⟨{ keyinfo with
    block := d'
    hashBuckets := (homes (hashHome b n) E).card }, ?_, rfl,
    ⟨C', hsized, hlaid'⟩, hcontents', rfl⟩
  have hgrown : (if n + 1 = b then b + b else b) = grown b n := rfl
  have hhash : keyinfo.spec.recHashnr record = entry.hashOfKey := rfl
  rw [or_none] at hfind
  unfold HpShare.hpDeleteKey
  simp only [← hn, ← hb, hgrown, hhash, hfind, hunlink, hbuckets', some_bind]
  rw [← hcard]
  by_cases hen : empty = n
  · rw [if_pos hen] at hlast ⊢
    cases hlast
    rfl
  · rw [if_neg hen] at hlast ⊢
    rw [hlast]
    cases merged with
    | false => rfl
    | true => rfl

end Hp
