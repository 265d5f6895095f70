import EryMysql.Mysys.HashDelete

/-!
# Updating records

When the key of a record changes, the record is still in the chain of its old home, and
`my_hash_update` takes it from there to its new home. With unique keys it first looks for another
record with the new key; the table it searches has one record out of place.
-/

namespace Mysys

open Chains Function Finset Option Hash

variable {α κ : Type} [DecidableEq α] {hash : Hash α κ} {C : Nat -> List Nat} {r : α} {key : κ}
  {e q : Nat} {x : α}

def Hash.rekey (hash : Hash α κ) (record : α) (key : κ) : Hash α κ :=
  { hash with getKey := fun x => if x = record then key else hash.getKey x }

@[simp] lemma rekey_array : (hash.rekey r key).array = hash.array := rfl

@[simp] lemma rekey_records : (hash.rekey r key).records = hash.records := rfl

@[simp] lemma rekey_blength : (hash.rekey r key).blength = hash.blength := rfl

@[simp] lemma rekey_unique : (hash.rekey r key).unique = hash.unique := rfl

@[simp] lemma rekey_hashFunction : (hash.rekey r key).hashFunction = hash.hashFunction := rfl

lemma getKey_rekey_self : (hash.rekey r key).getKey r = key := if_pos rfl

lemma getKey_rekey (hx : x ≠ r) : (hash.rekey r key).getKey x = hash.getKey x := if_neg hx

lemma home_rekey (hx : x ≠ r) : (hash.rekey r key).home x = hash.home x := by
  simp [home, recHashnr, getKey_rekey hx]

omit [DecidableEq α] in
lemma mem_stored : x ∈ hash.stored ↔ ∃ p, p < hash.records ∧ (hash.array p).data = x := by
  simp [stored, contents]

lemma Hash.Inv.rekey (h : hash.Inv C) (hr : r ∉ hash.stored) : (hash.rekey r key).Inv C := by
  refine ⟨h.sized, h.laid.congr (fun _ _ => rfl) fun p hp => home_rekey ?_⟩
  rintro rfl
  exact hr (mem_stored.mpr ⟨p, mem_range.mp hp, rfl⟩)

section Duplicate
variable [DecidableEq κ]

lemma duplicateLoop_eq {s : Option Nat} {l : List Nat} {fuel : Nat}
    (h : Seg hash.array s l none) (hlen : l.length ≤ hash.records) (hfuel : l.length ≤ fuel) :
    ∃ found, hash.duplicateLoop r key fuel
        (l.find? fun p => hash.getKey (hash.array p).data = key) = some found ∧
      (found = true ↔ ∃ p ∈ l, hash.getKey (hash.array p).data = key ∧ (hash.array p).data ≠ r) := by
  induction fuel generalizing s l with
  | zero =>
    obtain rfl := List.eq_nil_of_length_eq_zero (Nat.le_zero.mp hfuel)
    exact ⟨false, rfl, by simp⟩
  | succ fuel ih =>
    cases hfind : l.find? fun p => hash.getKey (hash.array p).data = key with
    | none =>
      refine ⟨false, rfl, ?_⟩
      have hnone := List.find?_eq_none.mp hfind
      simp only [decide_eq_true_eq] at hnone
      simp only [Bool.false_eq_true, false_iff]
      rintro ⟨p, hp, hkey, -⟩
      exact hnone p hp hkey
    | some p =>
      obtain ⟨hp, l1, l2, rfl, hl1⟩ := List.find?_eq_some_iff_append.mp hfind
      simp only [decide_eq_true_eq] at hp hl1
      rw [duplicateLoop]
      by_cases hr : (hash.array p).data = r
      · obtain ⟨m, -, -, hl2⟩ := (seg_append l1 (p :: l2)).mp h
        simp only [List.length_append, List.length_cons] at hlen hfuel
        obtain ⟨found, heq, hiff⟩ := ih hl2 (by omega) (by omega)
        refine ⟨found, ?_, hiff.trans ?_⟩
        · rw [if_neg (not_not.mpr hr), myHashNext, nextLoop_eq hl2 (by omega)]
          exact heq
        · grind
      · rw [if_pos hr]
        exact ⟨true, rfl, by simp only [true_iff]; exact ⟨p, by simp, hp, hr⟩⟩

/-- The search for the new key goes through a chain that has every other record with this key.
If the record is at the home of the key already, in the chain of its old home, it is the rest of
that chain. -/
lemma Hash.Inv.myHashFirst_rekey (h : hash.Inv C) (r : α) (key : κ) (hzero : hash.records ≠ 0) :
    ∃ s l, Seg hash.array s l none ∧ (∀ p ∈ l, p < hash.records) ∧ l.length ≤ hash.records ∧
      (hash.rekey r key).myHashFirst key = some
        (l.find? fun p => (hash.rekey r key).getKey (hash.array p).data = key) ∧
      ∀ p < hash.records, (hash.array p).data ≠ r -> hash.getKey (hash.array p).data = key ->
        p ∈ l := by
  have hk : myHashMask (hash.hashFunction key) hash.blength hash.records < hash.records :=
    h.sized.mask_lt (by omega) _
  generalize hkey : myHashMask (hash.hashFunction key) hash.blength hash.records = k at hk
  have hkS := mem_range.mpr hk
  have hfirst : (hash.rekey r key).myHashFirst key =
      (hash.rekey r key).firstLoop key hash.records true k := by
    unfold myHashFirst myHashFirstFromHashValue
    simp [hkey, if_neg hzero]
  have hchain : ∀ p < hash.records, hash.getKey (hash.array p).data = key -> p ∈ C k := by
    intro p hp hpkey
    refine (h.laid.mem k p).mpr ⟨mem_range.mpr hp, ?_⟩
    rw [home, recHashnr, hpkey, hkey]
  rw [hfirst]
  by_cases hhome : hash.home (hash.array k).data = k
  · have hmem := (h.laid.mem k k).mpr ⟨hkS, hhome⟩
    have hseg := h.laid.linked k (List.ne_nil_of_mem hmem)
    have hlen := length_chain_le h.laid le_rfl k
    refine ⟨some k, C k, hseg, fun p hp => mem_range.mp (h.laid.mem_S hp), hlen, ?_,
      fun p hp _ hpkey => hchain p hp hpkey⟩
    refine firstLoop_true_eq hseg hlen (Or.inr ?_)
    change (hash.rekey r key).home (hash.array k).data = k
    by_cases hr : (hash.array k).data = r
    · simpa [hr, home, recHashnr, getKey_rekey_self] using hkey
    · rw [home_rekey hr, hhome]
  · have hnil : C k = [] := h.laid.nil_of_not_home fun _ => hhome
    rw [hnil] at hchain
    by_cases hr : (hash.array k).data = r
    · have hmem := (h.laid.mem _ k).mpr ⟨hkS, rfl⟩
      obtain ⟨l1, l2, hC, -, hl2⟩ := (h.laid.linked _ (List.ne_nil_of_mem hmem)).split hmem
      have hlen := length_chain_le h.laid le_rfl (hash.home (hash.array k).data)
      have hseg : Seg hash.array (some k) (k :: l2) none := ⟨rfl, hl2⟩
      rw [hC, List.length_append] at hlen
      refine ⟨some k, k :: l2, hseg, fun p hp => ?_, by omega, ?_,
        fun p hp _ hpkey => absurd (hchain p hp hpkey) (List.not_mem_nil)⟩
      · refine mem_range.mp (h.laid.mem_S (k := hash.home (hash.array k).data) ?_)
        rw [hC]
        exact List.mem_append_right _ hp
      · refine firstLoop_true_eq hseg (by omega) (Or.inl ?_)
        exact hr ▸ getKey_rekey_self
    · refine ⟨none, [], rfl, by simp, by simp, ?_,
        fun p hp _ hpkey => absurd (hchain p hp hpkey) (List.not_mem_nil)⟩
      refine firstLoop_true_none (by omega) (fun hkeyK => ?_) ?_
      · rw [rekey_array, getKey_rekey hr] at hkeyK
        exact absurd (hchain k hk hkeyK) List.not_mem_nil
      · change (hash.rekey r key).home (hash.array k).data ≠ k
        rwa [home_rekey hr]

lemma Hash.Inv.duplicate_rekey (h : hash.Inv C) (r : α) (key : κ) (hzero : hash.records ≠ 0) :
    ∃ current found, (hash.rekey r key).myHashFirst key = some current ∧
      (hash.rekey r key).duplicateLoop r key hash.records current = some found ∧
      (found = true ↔ ∃ x ∈ hash.stored, x ≠ r ∧ hash.getKey x = key) := by
  obtain ⟨s, l, hseg, hlt, hlen, hfirst, hall⟩ := h.myHashFirst_rekey r key hzero
  have hseg' : Seg (hash.rekey r key).array s l none := hseg
  obtain ⟨found, hloop, hiff⟩ := duplicateLoop_eq hseg' hlen hlen
  refine ⟨_, found, hfirst, hloop, hiff.trans ?_⟩
  simp only [rekey_array]
  constructor
  · rintro ⟨p, hp, hkey, hr⟩
    rw [getKey_rekey hr] at hkey
    exact ⟨_, mem_stored.mpr ⟨p, hlt p hp, rfl⟩, hr, hkey⟩
  · rintro ⟨x, hx, hr, hkey⟩
    obtain ⟨p, hp, rfl⟩ := mem_stored.mp hx
    exact ⟨p, hall p hp hr hkey, by rw [getKey_rekey hr, hkey], hr⟩

end Duplicate

omit [DecidableEq α] in
lemma moveToIndex_spec {d : Nat -> Link α} {e pos : Nat} {orgLink : Link α}
    (h : Laid d hash.home ((range hash.records).erase e) C)
    (hsized : Sized hash.blength hash.records) (he : e < hash.records) (hdata : orgLink.data = r)
    (hpos : e = pos -> (d e).data = r) :
    ∃ d' C', hash.moveToIndex d (hash.home r) e pos orgLink = some d' ∧
      Laid d' hash.home (range hash.records) C' ∧
      contents d' (range hash.records) =
        r ::ₘ contents d ((range hash.records).erase e) := by
  have hset : insert e ((range hash.records).erase e) = range hash.records :=
    insert_erase (mem_range.mpr he)
  have hfree : e ∉ (range hash.records).erase e := notMem_erase _ _
  have hne : ∀ p ∈ (range hash.records).erase e, p ≠ e := fun p hp => ne_of_mem_erase hp
  have hlt : hash.home r < hash.records := hsized.mask_lt (by omega) _
  have hcopy : ∀ link : Link α, ∀ p ∈ (range hash.records).erase e,
      update d e link p = d p := fun link p hp => update_of_ne (hne p hp) _ _
  obtain ⟨next, data⟩ := orgLink
  subst hdata
  generalize hS : (range hash.records).erase e = S at h hset hfree hne hcopy
  rw [← hset]
  unfold moveToIndex
  split
  · rename_i hhome
    obtain ⟨C', hlaid, hcontents⟩ := place_free (r := data)
      (setNext (if e ≠ pos then update d e ⟨next, data⟩ else d) e none) h hfree hhome
      (by
        rw [setNext_self]
        split
        · rw [update_self]
        · rename_i heq
          rw [hpos (not_not.mp heq)])
      (fun p hp => by
        rw [setNext_of_ne (hne p hp)]
        split
        · exact hcopy _ p hp
        · rfl)
    exact ⟨_, C', rfl, hlaid, hcontents⟩
  · rename_i hhome
    have hk : hash.home data ∈ S := hS ▸ mem_erase.mpr ⟨hhome, mem_range.mpr hlt⟩
    simp only
    split
    · rename_i hother
      obtain ⟨g, hg, hgk, hlink, hplace⟩ := place_evict h hk (Ne.symm hother) hfree rfl
        fun j => length_chain_le h (hS ▸ erase_subset _ _) j
      obtain ⟨C', hlaid, hcontents⟩ := hplace (update (setNext
          (update d e (d (hash.home data))) g (some e)) (hash.home data) ⟨none, data⟩)
        (by rw [update_of_ne (Ne.symm hhome), setNext_of_ne (hne g hg).symm, update_self])
        (update_self _ _ _)
        (by rw [update_of_ne hgk, setNext_self, hcopy _ g hg])
        (fun p hp hpg hpk => by
          rw [update_of_ne hpk, setNext_of_ne hpg, hcopy _ p hp])
      refine ⟨_, C', ?_, hlaid, hcontents⟩
      have hmove := hlink (update d e (d (hash.home data))) fun p hp _ => hcopy _ p hp
      exact congrArg (bind · _) hmove
    · rename_i hother
      obtain ⟨C', hlaid, hcontents⟩ := place_chain (setNext (update d e
          ⟨(d (hash.home data)).next, data⟩) (hash.home data) (some e)) h hk
        (not_not.mp hother).symm hfree rfl (.inl ⟨rfl, rfl⟩)
        (by rw [setNext_of_ne (Ne.symm hhome), update_self])
        (by rw [setNext_self, hcopy _ _ hk])
        (fun p hp hpk => by rw [setNext_of_ne hpk, hcopy _ p hp])
      exact ⟨_, C', rfl, hlaid, hcontents⟩

lemma relinked_spec (h : hash.Inv C) (hcount : hash.stored.count r ≤ 1) {l1 l2 : List Nat}
    (hC : C (hash.home r) = l1 ++ q :: l2) (hq : (hash.array q).data = r) (key : κ) :
    ∃ d e d' C', unlinkRecord hash.array l1.getLast? q = (d, e) ∧
      (hash.rekey r key).moveToIndex d ((hash.rekey r key).home r) e q (hash.array q) = some d' ∧
      Laid d' (hash.rekey r key).home (range hash.records) C' ∧
      contents d' (range hash.records) = hash.stored := by
  obtain ⟨d, e, C1, hunlink, he, hlaid, hcontents, hsame⟩ := unlinkRecord_spec h.laid hC
  rw [hq] at hcontents hsame
  have hstored : hash.stored = r ::ₘ contents d ((range hash.records).erase e) := hcontents
  have hnot : r ∉ contents d ((range hash.records).erase e) := by
    rw [hstored, Multiset.count_cons_self] at hcount
    rw [← Multiset.count_eq_zero]
    omega
  have hlaid' : Laid d (hash.rekey r key).home ((range hash.records).erase e) C1 := by
    refine hlaid.congr (fun _ _ => rfl) fun p hp => home_rekey ?_
    rintro rfl
    exact hnot (Multiset.mem_map_of_mem _ hp)
  obtain ⟨d', C', hmove, hfinal, hall⟩ := moveToIndex_spec hlaid' h.sized (mem_range.mp he)
    hq hsame
  exact ⟨d, e, d', C', hunlink, hmove, hfinal, hall.trans hstored.symm⟩

variable [DecidableEq κ]

/-- `my_hash_update` keeps the records. It fails for a duplicate, and may fail for a record that is
not in the table. -/
lemma myHashUpdate_spec (h : hash.Inv C) (hzero : hash.records ≠ 0)
    (hcount : hash.stored.count r ≤ 1) (key : κ) :
    ∃ hash' failed C', (hash.rekey r key).myHashUpdate r (hash.getKey r) = some (hash', failed) ∧
      (failed = true ↔ (hash.unique = true ∧ ∃ x ∈ hash.stored, x ≠ r ∧ hash.getKey x = key) ∨
        (r ∉ hash.stored ∧ hash.home r ≠ (hash.rekey r key).home r)) ∧
      (failed = false -> hash'.Inv C' ∧ (hash.rekey r key).Same hash' ∧
        hash'.stored = hash.stored) := by
  obtain ⟨current, found, hfirst, hloop, hfound⟩ := h.duplicate_rekey r key hzero
  have hidx : myHashMask (hash.hashFunction (hash.getKey r)) hash.blength hash.records =
    hash.home r := rfl
  have hnew : myHashMask ((hash.rekey r key).recHashnr r) hash.blength hash.records =
    (hash.rekey r key).home r := rfl
  unfold myHashUpdate
  simp only [getKey_rekey_self, hfirst, hloop, rekey_records, rekey_blength, rekey_unique,
    rekey_hashFunction, rekey_array, hidx, hnew, bind_eq_bind, bind_some]
  cases hdup : hash.unique && found with
  | true =>
    refine ⟨_, true, C, rfl, ?_, fun h => absurd h.symm Bool.false_ne_true⟩
    rw [Bool.and_eq_true, hfound] at hdup
    exact iff_of_true rfl (Or.inl hdup)
  | false =>
    have hnodup : ¬ (hash.unique = true ∧ ∃ x ∈ hash.stored, x ≠ r ∧ hash.getKey x = key) := by
      rw [← hfound, ← Bool.and_eq_true, hdup]
      exact Bool.false_ne_true
    simp only [Bool.false_eq_true, hnodup, false_or]
    by_cases heq : hash.home r = (hash.rekey r key).home r
    · rw [if_pos heq]
      refine ⟨_, false, C, rfl, iff_of_false Bool.false_ne_true fun hr => hr.2 heq, fun _ => ?_⟩
      refine ⟨⟨h.sized, h.laid.congr (fun _ _ => rfl) fun p hp => ?_⟩, ⟨rfl, rfl, rfl⟩, rfl⟩
      by_cases hr : (hash.array p).data = r
      · rw [hr, heq]
      · exact home_rekey hr
    · rw [if_neg heq]
      have hstart : hash.home r ∈ range hash.records := mem_range.mpr (h.sized.mask_lt (by omega) _)
      have hlaid : Laid (hash.rekey r key).array hash.home (range hash.records) C := h.laid
      rcases findLoop_home hlaid hstart (fun j => length_chain_le h.laid le_rfl j) with
        ⟨hfind, hnot⟩ | ⟨l1, q, l2, hC, hq, hfind⟩
      · rw [hfind]
        refine ⟨_, true, C, rfl, iff_of_true rfl ⟨fun hr => ?_, heq⟩,
          fun h => absurd h.symm Bool.false_ne_true⟩
        obtain ⟨p, hp, hpr⟩ := mem_stored.mp hr
        exact hnot p (mem_range.mpr hp) hpr
      · obtain ⟨d, e, d', C', hunlink, hmove, hfinal, hall⟩ := relinked_spec h hcount hC hq key
        have hr : r ∈ hash.stored := mem_stored.mpr
          ⟨q, mem_range.mp (h.laid.mem_S (k := hash.home r) (by simp [hC])), hq⟩
        rw [hfind]
        refine ⟨{ hash.rekey r key with array := d' }, false, C', ?_,
          iff_of_false Bool.false_ne_true fun hnot => hnot.1 hr,
          fun _ => ⟨⟨h.sized, hfinal⟩, ⟨rfl, rfl, rfl⟩, hall⟩⟩
        simp only [bind_some, hunlink, hmove]
        rfl

end Mysys
