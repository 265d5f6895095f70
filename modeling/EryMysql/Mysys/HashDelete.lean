import EryMysql.Mysys.HashPlace

/-!
# Deleting records

When a record is taken out, the array becomes shorter by one, so the last entry moves to the
position that is empty, and the records of the last home go to another one. Whether the last
entry is at home, and whose home that other one is, makes the cases of `my_hash_delete`.
-/

namespace Mysys

open Chains Function Finset Hash

variable {α κ : Type} {d d' : Nat -> Link α} {old new : α -> Nat} {C : Nat -> List Nat}
  {m e par k : Nat} {r : α}

/-- The array is to lose its last position `m`, and has an empty one before it. The records of
the home `m` are to go to the home `par`. -/
structure Shrinking (d : Nat -> Link α) (old new : α -> Nat) (m e par : Nat) (C : Nat -> List Nat) :
    Prop where
  laid : Laid d old ((range (m + 1)).erase e) C
  lt : e < m
  home : ∀ r, new r = if old r = m then par else old r
  home_lt : ∀ r, new r < m

def Shrunk (d d' : Nat -> Link α) (new : α -> Nat) (m e : Nat) : Prop :=
  ∃ C', Laid d' new (range m) C' ∧
    contents d' (range m) = contents d ((range (m + 1)).erase e)

section Cases

private lemma mem_kept (hk : k < m) (hke : k ≠ e) : k ∈ (range (m + 1)).erase e := by
  simp only [mem_erase, mem_range]
  omega

private lemma ne_of_kept (hk : k ∈ (range (m + 1)).erase e) : k ≠ e := ne_of_mem_erase hk

variable (h : Shrinking d old new m e par C)
include h

lemma Shrinking.last_mem : m ∈ (range (m + 1)).erase e := by
  have := h.lt
  simp only [mem_erase, mem_range]
  omega

lemma Shrinking.set_eq :
    insert e (((range (m + 1)).erase e).erase m) = range m := by
  have := h.lt
  ext p
  simp only [mem_insert, mem_erase, mem_range]
  omega

lemma Shrinking.home_eq (hne : old r ≠ m) : new r = old r := by rw [h.home, if_neg hne]

lemma Shrinking.at_home (hne : old (d m).data ≠ m) :
    new (d m).data ≠ e ∧ old (d (new (d m).data)).data = new (d m).data := by
  obtain ⟨hmem, heq⟩ := h.laid.home_mem h.last_mem
  rw [← h.home_eq hne] at hmem heq
  exact ⟨ne_of_kept hmem, heq⟩

lemma Shrinking.contents_eq (hde : (d' e).data = (d m).data)
    (hd : ∀ p, p ≠ e -> (d' p).data = (d p).data) :
    contents d' (range m) = contents d ((range (m + 1)).erase e) := by
  rw [← h.set_eq]
  refine contents_move h.last_mem (notMem_erase _ _) hde fun p hp => hd p ?_
  exact ne_of_kept (mem_of_mem_erase hp)

lemma Shrinking.toHome (hpos : new (d m).data = e) : Shrunk d (update d e (d m)) new m e := by
  have hlast : old (d m).data = m := by
    by_contra hne
    exact (h.at_home hne).1 hpos
  have hpar : par = e := by rw [← hpos, h.home, if_pos hlast]
  obtain ⟨l, hC, -⟩ := chain_eq_cons h.laid h.last_mem hlast
  have hlaid : Laid _ new _ _ := h.laid.rehome hC (notMem_erase _ _)
    (update_self e (d m) d)
    (fun r hr _ => update_of_ne (ne_of_kept hr) _ _) (fun r _ => by rw [h.home, hpar])
  rw [h.set_eq] at hlaid
  refine ⟨_, hlaid, h.contents_eq (by rw [update_self]) fun p hp => ?_⟩
  rw [update_of_ne hp]

/-- The last entry takes its home from a record that is not at home. -/
lemma Shrinking.toEvicted (hpos : new (d m).data = k) (hke : k ≠ e) (hk : new (d k).data ≠ k) :
    ∃ d', movelink (m + 1) (update (update d e (d k)) k (d m)) (some k)
      (new (d k).data) (some e) = some d' ∧ Shrunk d d' new m e := by
  have hkm : k < m := hpos ▸ h.home_lt _
  have hkS := mem_kept hkm hke
  have hlast : old (d m).data = m := by
    by_contra hne
    obtain ⟨-, heq⟩ := h.at_home hne
    rw [hpos] at heq
    exact hk ((h.home_eq (by omega)).trans heq)
  have hpar : par = k := by rw [← hpos, h.home, if_pos hlast]
  have hkold : old (d k).data ≠ m := by
    intro heq
    exact hk (by rw [h.home, if_pos heq, hpar])
  rw [h.home_eq hkold] at hk ⊢
  obtain ⟨g, hg, hgk, hghome, hlink, hmove⟩ := evict h.laid hkS hk (notMem_erase _ _)
    fun j => length_chain_le h.laid (erase_subset _ _) j
  have hgm : m ≠ g := by
    rintro rfl
    exact hkold (hghome.symm.trans hlast)
  have hge := ne_of_kept hg
  have hstay : ∀ p, p ≠ k -> p ≠ e ->
      update (update d e (d k)) k (d m) p = d p := by
    intro p hpk hpe
    rw [update_of_ne hpk, update_of_ne hpe]
  set d1 := update (update d e (d k)) k (d m) with hd1
  have hd₁e : d1 e = d k := by rw [hd1, update_of_ne hke.symm, update_self]
  have hd₁k : d1 k = d m := by rw [hd1, update_self]
  refine ⟨setNext d1 g (some e), hlink d1 fun p hp hpk => hstay p hpk (ne_of_kept hp), ?_⟩
  obtain ⟨C1, hlaid⟩ := hmove (setNext d1 g (some e)) (by rw [setNext_of_ne hge.symm, hd₁e])
    (by rw [setNext_self, hstay g hgk hge])
    (fun p hp hpg hpk => by rw [setNext_of_ne hpg, hstay p hpk (ne_of_kept hp)])
  set d2 := setNext d1 g (some e) with hd2
  have hd₂m : d2 m = d m := by
    rw [hd2, setNext_of_ne hgm, hstay m hkm.ne' h.lt.ne']
  have hd₂k : d2 k = d m := by rw [hd2, setNext_of_ne hgk.symm, hd₁k]
  have hmS : m ∈ insert e (((range (m + 1)).erase e).erase k) :=
    mem_insert_of_mem (mem_erase.mpr ⟨hkm.ne', h.last_mem⟩)
  have hkS' : k ∉ insert e (((range (m + 1)).erase e).erase k) := by simp [hke]
  have hset : insert k ((insert e (((range (m + 1)).erase e).erase k)).erase m) =
      range m := by
    have := h.lt
    ext p
    simp only [mem_insert, mem_erase, mem_range]
    omega
  obtain ⟨l, hC, -⟩ := chain_eq_cons hlaid hmS (by rw [hd₂m, hlast])
  have hfinal : Laid d2 new _ _ := hlaid.rehome hC hkS' (hd₂k.trans hd₂m.symm) (fun _ _ _ => rfl)
    fun r _ => by rw [h.home, hpar]
  rw [hset] at hfinal
  refine ⟨_, hfinal, ?_⟩
  calc contents d2 (range m)
      = contents d2 (insert e (((range (m + 1)).erase e).erase k)) := by
        rw [← hset]
        exact contents_move hmS hkS' (by rw [hd₂k, hd₂m]) fun _ _ => rfl
    _ = contents d ((range (m + 1)).erase e) := by
        refine contents_move hkS (notMem_erase _ _) ?_ fun p hp => ?_
        · rw [data_setNext, hd₁e]
        · rw [data_setNext, hstay p (ne_of_mem_erase hp) (ne_of_kept (mem_of_mem_erase hp))]

/-- The last entry stays in its chain, where it is not the first. -/
lemma Shrinking.inChain (hne : old (d m).data ≠ m) :
    ∃ d', movelink (m + 1) (update d e (d m)) (some m) (new (d m).data) (some e) =
      some d' ∧ Shrunk d d' new m e := by
  rw [h.home_eq hne]
  obtain ⟨g, hg, hgm, -, hlink, hmove⟩ := evict h.laid h.last_mem hne (notMem_erase _ _)
    fun j => length_chain_le h.laid (erase_subset _ _) j
  have hstay : ∀ p, p ≠ e -> update d e (d m) p = d p := fun p hp => update_of_ne hp _ _
  have hge := ne_of_kept hg
  refine ⟨_, hlink _ fun p hp _ => hstay p (ne_of_kept hp), ?_⟩
  obtain ⟨C', hlaid⟩ := hmove (setNext (update d e (d m)) g (some e))
    (by rw [setNext_of_ne hge.symm, update_self])
    (by rw [setNext_self, hstay g hge])
    (fun p hp hpg _ => by rw [setNext_of_ne hpg, hstay p (ne_of_kept hp)])
  rw [h.set_eq] at hlaid
  refine ⟨C', hlaid.congr (fun _ _ => rfl) fun p hp => h.home_eq ?_, h.contents_eq ?_ ?_⟩
  · intro heq
    have hmem := (hlaid.home_mem hp).1
    rw [heq] at hmem
    simp at hmem
  · rw [data_setNext, update_self]
  · intro p hp
    rw [data_setNext, hstay p hp]

/-- The chain of the last home is put between the first record of the home it goes to and those
behind it. -/
lemma Shrinking.merged {l1 l2 : List Nat} {x : Option Nat} (hpar : par = k)
    (hmem : ∀ p, p ∈ C m ∨ p ∈ C k ↔ p = m ∨ p = k ∨ p ∈ l1 ∨ p ∈ l2)
    (hnodup : (m :: k :: (l1 ++ l2)).Nodup) (hl1 : Seg d (d m).next l1 x)
    (hl2 : Seg d (d k).next l2 none) (hx : ∀ p, x = some p -> p = k) :
    ∃ d', movelink (m + 1) (update d e (d m)) x e
        (update d e (d m) k).next = some d' ∧
      Shrunk d (setNext d' k (some e)) new m e := by
  have hS : ∀ p, p = m ∨ p = k ∨ p ∈ l1 ∨ p ∈ l2 -> p ∈ (range (m + 1)).erase e := by
    intro p hp
    rcases (hmem p).mpr hp with hp | hp
    iterate 2 exact h.laid.mem_S hp
  have hke : k ≠ e := ne_of_kept (hS k (by simp))
  obtain ⟨l0, q, hlast⟩ : ∃ l0 q, e :: l1 = l0 ++ [q] := by
    rcases List.eq_nil_or_concat (e :: l1) with hnil | ⟨l0, q, hcat⟩
    · cases hnil
    · exact ⟨l0, q, by rw [hcat, List.concat_eq_append]⟩
  have hseg : Seg (update d e (d m)) (some e) (l0 ++ [q]) x := by
    rw [← hlast]
    refine ⟨rfl, ?_⟩
    rw [update_self]
    refine hl1.frame fun p hp => ?_
    rw [update_of_ne (ne_of_kept (hS p (by simp [hp])))]
  have hlen : l0.length < m + 1 := by
    have hsub : (m :: l1).toFinset ⊆ range (m + 1) := by
      intro p hp
      exact mem_of_mem_erase (hS p (by simp at hp; tauto))
    have hcard := card_le_card hsub
    rw [List.toFinset_card_of_nodup (by grind), card_range] at hcard
    have hlen := congrArg List.length hlast
    simp only [List.length_cons, List.length_append] at hlen hcard
    omega
  refine ⟨_, relink_eq _ hseg (fun p hp heq => ?_) hlen, ?_⟩
  · rw [← hlast] at hp
    obtain rfl := hx p heq
    rcases List.mem_cons.mp hp with hp | hp
    · exact hke hp
    · grind
  · have hlaid : Laid _ new _ _ := h.laid.merge hmem hnodup hl1 hl2 (notMem_erase _ _) hlast
      rfl fun r _ => by rw [h.home, hpar]
    rw [h.set_eq] at hlaid
    rw [update_of_ne hke]
    refine ⟨_, hlaid, h.contents_eq ?_ fun p hp => ?_⟩
    · rw [data_setNext, data_setNext, update_self]
    · rw [data_setNext, data_setNext, update_of_ne hp]

/-- The last home is given up, and the record in the home its records go to is at home now. Before,
it was either in the chain of the last home, or first in a chain of its own. -/
lemma Shrinking.toMerged (hpos : new (d m).data = k) (hke : k ≠ e) (hk : new (d k).data = k)
    (hsame : ¬ (old (d m).data = old (d k).data ∧ old (d m).data ≠ m)) :
    ∃ d', movelink (m + 1) (update d e (d m))
        (if old (d m).data = old (d k).data then some k else none) e
        (update d e (d m) k).next = some d' ∧
      Shrunk d (setNext d' k (some e)) new m e := by
  have hkm : k < m := hpos ▸ h.home_lt _
  have hkS := mem_kept hkm hke
  have hlast : old (d m).data = m := by
    by_contra hne
    refine hsame ⟨?_, hne⟩
    have heq := (h.at_home hne).2
    rw [hpos] at heq
    rw [← h.home_eq hne, hpos, heq]
  have hpar : par = k := by rw [← hpos, h.home, if_pos hlast]
  obtain ⟨l, hC, hl⟩ := chain_eq_cons h.laid h.last_mem hlast
  have hnodup := h.laid.nodup m
  by_cases heq : old (d m).data = old (d k).data
  · have hkold := heq.symm.trans hlast
    have hkl : k ∈ l := by
      have hmem := (h.laid.mem m k).mpr ⟨hkS, hkold⟩
      rw [hC] at hmem
      exact (List.mem_cons.mp hmem).resolve_left hkm.ne
    have hnil : C k = [] := h.laid.nil_of_not_home fun _ => by omega
    obtain ⟨l1, l2, rfl, hl1, hl2⟩ := hl.split hkl
    rw [if_pos heq]
    refine h.merged hpar (fun p => ?_) ?_ hl1 hl2 fun p hp => (Option.some_injective _ hp).symm
    · grind
    · grind
  · have hkold : old (d k).data = k := by
      rw [← h.home_eq fun hm => heq (hlast.trans hm.symm), hk]
    obtain ⟨l2, hC2, hl2⟩ := chain_eq_cons h.laid hkS hkold
    have hnodup2 := h.laid.nodup k
    have hmem := h.laid.mem m
    have hmem2 := h.laid.mem k
    rw [if_neg heq]
    refine h.merged hpar (fun p => ?_) ?_ hl hl2 nofun
    · grind
    · grind

end Cases

section Delete
variable {hash : Hash α κ} {b : Nat}

lemma moveLast_spec (hrecords : hash.records = m + 1)
    (h : Shrinking d (fun r => myHashMask (hash.recHashnr r) hash.blength (m + 1))
      (fun r => myHashMask (hash.recHashnr r) b m) m e par C) :
    ∃ d', moveLast { hash with records := m, blength := b } hash d e = some d' ∧
      Shrunk d d' (fun r => myHashMask (hash.recHashnr r) b m) m e := by
  have hnr : recHashnr { hash with records := m, blength := b } = hash.recHashnr := rfl
  unfold moveLast
  simp only [hrecords, hnr, decide_eq_true_eq]
  split
  · rename_i hpos
    exact ⟨_, rfl, h.toHome hpos⟩
  · rename_i hpos
    split
    · rename_i hpos3
      exact h.toEvicted rfl hpos (Ne.symm hpos3)
    · rename_i hpos3
      rw [not_not] at hpos3
      split
      · rename_i hsame
        exact h.inChain hsame.2
      · rename_i hsame
        obtain ⟨d', hlink, hshrunk⟩ := h.toMerged rfl hpos hpos3.symm hsame
        refine ⟨_, ?_, hshrunk⟩
        rw [hlink]
        rfl

variable [DecidableEq α] {home : α -> Nat} {S : Finset Nat}

/-- From the home of a record the search finds it, wherever it is. If another record is there,
the search goes along a chain of another home. -/
lemma findLoop_home (h : Laid hash.array home S C) (hk : home r ∈ S) {fuel : Nat}
    (hfuel : ∀ j, (C j).length ≤ fuel) :
    (hash.findLoop r fuel none (home r) = some none ∧ ∀ q ∈ S, (hash.array q).data ≠ r) ∨
    ∃ l1 q l2, C (home r) = l1 ++ q :: l2 ∧ (hash.array q).data = r ∧
      hash.findLoop r fuel none (home r) = some (some (l1.getLast?, q)) := by
  have hmem := (h.mem _ _).mpr ⟨hk, rfl⟩
  obtain ⟨l0, l, hC, -, hl⟩ := (h.linked _ (List.ne_nil_of_mem hmem)).split hmem
  have hseg : Seg hash.array (some (home r)) (home r :: l) none := ⟨rfl, hl⟩
  have hlen : (home r :: l).length ≤ fuel := by
    refine le_trans ?_ (hfuel (home (hash.array (home r)).data))
    rw [hC, List.length_append]
    exact Nat.le_add_left _ _
  have hchain : C (home r) ≠ [] -> C (home r) = home r :: l :=
    fun hne => (h.linked _ hne).unique hseg
  rcases @Seg.find_before _ _ _ _ (fun p => (hash.array p).data = r) _ (hash.findLoop r)
    (fun _ _ _ => rfl) none fuel hseg hlen with ⟨hfind, hnot⟩ | ⟨l1, q, l2, heq, hq, hfind⟩
  · refine Or.inl ⟨hfind, fun q hqS hq => ?_⟩
    have hqC := (h.mem (home r) q).mpr ⟨hqS, by rw [hq]⟩
    rw [hchain (List.ne_nil_of_mem hqC)] at hqC
    exact hnot q hqC hq
  · refine Or.inr ⟨l1, q, l2, ?_, hq, hfind.trans (by rw [Option.or_none])⟩
    have hqS : q ∈ S := h.mem_S (k := home (hash.array (home r)).data) (by rw [hC, heq]; simp)
    have hqC := (h.mem (home r) q).mpr ⟨hqS, by rw [hq]⟩
    rw [hchain (List.ne_nil_of_mem hqC), heq]

omit [DecidableEq α] in
lemma shrink_spec (hrecords : hash.records = m + 1) (hsized : Sized hash.blength (m + 1))
    (hb : b = if m < hash.blength >>> 1 then hash.blength >>> 1 else hash.blength)
    (he : e ≤ m) (h : Laid d hash.home ((range (m + 1)).erase e) C) :
    ∃ d', (if e = m then some d
        else moveLast { hash with records := m, blength := b } hash d e) = some d' ∧
      Shrunk d d' (fun r => myHashMask (hash.recHashnr r) b m) m e := by
  obtain ⟨hsized', hmask⟩ := hsized.pred
  rw [← hb] at hsized' hmask
  have hhome : hash.home = fun r => myHashMask (hash.recHashnr r) hash.blength (m + 1) := by
    funext r
    rw [home, hrecords]
  rw [hhome] at h
  have hpred : 0 < m -> ∀ r, myHashMask (hash.recHashnr r) b m =
      if myHashMask (hash.recHashnr r) hash.blength (m + 1) = m then m - (b >>> 1)
      else myHashMask (hash.recHashnr r) hash.blength (m + 1) := by
    intro hm r
    rw [hmask]
    exact hsized'.mask_pred hm _
  by_cases hem : e = m
  · rw [if_pos hem]
    have hset : (range (m + 1)).erase e = range m := by
      rw [hem, range_add_one, erase_insert (by simp)]
    refine ⟨d, rfl, C, ?_, by rw [hset]⟩
    rw [hset] at h
    refine h.congr (fun _ _ => rfl) fun p hp => ?_
    have hlt := (h.home_mem hp).1
    rw [mem_range] at hlt hp
    rw [hpred (by omega), if_neg (by omega)]
  · rw [if_neg hem]
    have hlt := lt_of_le_of_ne he hem
    exact moveLast_spec hrecords ⟨h, hlt, hpred (by omega), fun r => hsized'.mask_lt (by omega) _⟩

lemma myHashDelete_spec (h : hash.Inv C) (r : α) :
    ∃ hash' notFound C', hash.myHashDelete r = some (hash', notFound) ∧ hash'.Inv C' ∧
      hash.Same hash' ∧ (notFound = true ↔ r ∉ hash.stored) ∧
      hash'.stored = hash.stored.erase r := by
  unfold myHashDelete
  by_cases hzero : hash.records = 0
  · have hnil : hash.stored = 0 := by
      rw [stored, hzero]
      rfl
    rw [if_pos hzero]
    exact ⟨hash, true, C, rfl, h, ⟨rfl, rfl, rfl⟩, by simp [hnil], by simp [hnil]⟩
  · rw [if_neg hzero]
    obtain ⟨m, hm⟩ : ∃ m, hash.records = m + 1 := ⟨hash.records - 1, by omega⟩
    have hmask : myHashMask (hash.recHashnr r) hash.blength hash.records = hash.home r := rfl
    have hstart : hash.home r ∈ range hash.records := mem_range.mpr (h.sized.mask_lt (by omega) _)
    rcases findLoop_home h.laid hstart (fun j => length_chain_le h.laid le_rfl j) with
      ⟨hfind, hnot⟩ | ⟨l1, q, l2, hC, hq, hfind⟩
    · have hr : r ∉ hash.stored := by
        rw [stored, contents, Multiset.mem_map]
        rintro ⟨p, hp, heq⟩
        exact hnot p hp heq
      refine ⟨hash, true, C, ?_, h, ⟨rfl, rfl, rfl⟩, by simp [hr], by rw [Multiset.erase_of_notMem hr]⟩
      simp only [hmask, hfind]
      rfl
    · obtain ⟨d, e, C1, hunlink, he, hlaid, hcontents, -⟩ := unlinkRecord_spec h.laid hC
      rw [hq] at hcontents
      rw [hm] at he hlaid hcontents
      obtain ⟨d', hlast, C', hlaid', hcontents'⟩ := shrink_spec hm (hm ▸ h.sized) rfl
        (Nat.lt_succ_iff.mp (mem_range.mp he)) hlaid
      have hstored : hash.stored = r ::ₘ contents d' (range m) := by
        rw [stored, hm, hcontents, hcontents']
      refine ⟨{ hash with array := d', records := m, blength := if m < hash.blength >>> 1 then
        hash.blength >>> 1 else hash.blength }, false, C', ?_, ⟨?_, hlaid'⟩, ⟨rfl, rfl, rfl⟩, ?_, ?_⟩
      · have hpred : hash.records - 1 = m := by omega
        simp only [hmask, hfind, hunlink, hpred, some_bind]
        by_cases hem : e = m
        · rw [if_pos hem] at hlast
          cases hlast
          rw [if_pos hem]
          rfl
        · rw [if_neg hem] at hlast
          rw [if_neg hem, hlast]
          rfl
      · exact (hm ▸ h.sized : Sized hash.blength (m + 1)).pred.1
      · simp [hstored]
      · rw [hstored, Multiset.erase_cons_head]
        rfl

end Delete

end Mysys
