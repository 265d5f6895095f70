import EryMysql.Mysys.HashSplit

/-!
# Placing and removing records

A record is put into an array with an empty position: into its home, if this is empty; or
behind or before the record there, if that is at home; or else the record there, which is in
the chain of another home, moves to the empty position. A record is taken out of its chain, and
then a position is empty.
-/

namespace Mysys

open Chains Function Finset Hash

variable {α κ : Type} {d d' : Nat -> Link α} {home : α -> Nat} {S : Finset Nat} {C : Nat -> List Nat}
  {k e p : Nat} {r : α} {fuel : Nat}

section Place

/-- A new record at an empty position, or in the place of one that moves there. -/
lemma contents_place (hk : k ∈ S) (he : e ∉ S) (hde : (d' e).data = (d k).data)
    (hdk : (d' k).data = r) (hd : ∀ p ∈ S, p ≠ k -> (d' p).data = (d p).data) :
    contents d' (insert e S) = r ::ₘ contents d S := by
  rw [contents_insert he, contents_erase hk, contents_erase (d := d) hk,
    Multiset.cons_swap]
  congr 2
  exact contents_congr fun p hp => hd p (mem_of_mem_erase hp) (ne_of_mem_erase hp)

lemma place_free (d' : Nat -> Link α) (h : Laid d home S C) (he : e ∉ S) (hhome : home r = e)
    (hde : d' e = ⟨none, r⟩) (hd : ∀ p ∈ S, d' p = d p) :
    ∃ C', Laid d' home (insert e S) C' ∧ contents d' (insert e S) = r ::ₘ contents d S := by
  refine ⟨_, h.single he (by rw [hde]) (by rw [hde]; exact hhome) hd, ?_⟩
  rw [contents_insert he, hde, contents_congr fun p hp => by rw [hd p hp]]

/-- The record goes behind the first one of its chain, or before it. -/
lemma place_chain (d' : Nat -> Link α) {x y : α} (h : Laid d home S C) (hk : k ∈ S)
    (hkhome : home (d k).data = k) (he : e ∉ S) (hhome : home r = k)
    (hxy : x = r ∧ y = (d k).data ∨ x = (d k).data ∧ y = r) (hde : d' e = ⟨(d k).next, x⟩)
    (hdk : d' k = ⟨some e, y⟩) (hd : ∀ p ∈ S, p ≠ k -> d' p = d p) :
    ∃ C', Laid d' home (insert e S) C' ∧ contents d' (insert e S) = r ::ₘ contents d S := by
  obtain ⟨l, hC, -⟩ := chain_eq_cons h hk hkhome
  refine ⟨_, h.second hC (by rw [hdk]) (by rw [hde]) ?_ hd, ?_⟩ <;>
    rcases hxy with ⟨rfl, rfl⟩ | ⟨rfl, rfl⟩
  · rw [hdk, hde]
    exact ⟨hkhome, hhome⟩
  · rw [hdk, hde]
    exact ⟨hhome, hkhome⟩
  · rw [contents_insert he, hde, contents_congr fun p hp => ?_]
    by_cases hpk : p = k
    · rw [hpk, hdk]
    · rw [hd p hp hpk]
  · exact contents_place hk he (by rw [hde]) (by rw [hdk]) fun p hp hpk => by rw [hd p hp hpk]

lemma evict (h : Laid d home S C) (hk : k ∈ S) (hkhome : home (d k).data ≠ k) (he : e ∉ S)
    (hfuel : ∀ j, (C j).length ≤ fuel) :
    ∃ g ∈ S, g ≠ k ∧ home (d g).data = home (d k).data ∧
      (∀ d1 : Nat -> Link α, (∀ p ∈ S, p ≠ k -> d1 p = d p) ->
        movelink fuel d1 (some k) (home (d k).data) (some e) = some (setNext d1 g (some e))) ∧
      ∀ d' : Nat -> Link α, d' e = d k -> d' g = ⟨some e, (d g).data⟩ ->
        (∀ p ∈ S, p ≠ g -> p ≠ k -> d' p = d p) ->
        ∃ C', Laid d' home (insert e (S.erase k)) C' := by
  obtain ⟨l1, g, l2, hC, hseg⟩ := chain_eq_append h hk hkhome
  have hlen := hfuel (home (d k).data)
  have hnodup := h.nodup (home (d k).data)
  rw [hC] at hnodup hlen
  have hmem : ∀ p ∈ l1 ++ [g], p ∈ S ∧ p ≠ k := by
    intro p hp
    refine ⟨h.mem_S (k := home (d k).data) (by grind), ?_⟩
    grind
  refine ⟨g, (hmem g (by simp)).1, (hmem g (by simp)).2, ((h.mem _ g).mp (by simp [hC])).2,
    fun d1 hd1 => ?_, fun d' hde hdg hd => ?_⟩
  · refine relink_eq (some e) (hseg.frame fun p hp => ?_) (fun p hp heq => ?_) ?_
    · rw [hd1 p (hmem p hp).1 (hmem p hp).2]
    · exact (hmem p hp).2 (Option.some_injective _ heq).symm
    · simp only [List.length_append, List.length_cons] at hlen
      omega
  · exact ⟨_, h.move hC he hde hdg hd⟩

/-- The record takes its home from another one, which moves to the empty position. -/
lemma place_evict (h : Laid d home S C) (hk : k ∈ S) (hkhome : home (d k).data ≠ k)
    (he : e ∉ S) (hhome : home r = k) (hfuel : ∀ j, (C j).length ≤ fuel) :
    ∃ g ∈ S, g ≠ k ∧ (∀ d1 : Nat -> Link α, (∀ p ∈ S, p ≠ k -> d1 p = d p) ->
        movelink fuel d1 (some k) (home (d k).data) (some e) = some (setNext d1 g (some e))) ∧
      ∀ d' : Nat -> Link α, d' e = d k -> d' k = ⟨none, r⟩ -> d' g = ⟨some e, (d g).data⟩ ->
        (∀ p ∈ S, p ≠ g -> p ≠ k -> d' p = d p) ->
        ∃ C', Laid d' home (insert e S) C' ∧ contents d' (insert e S) = r ::ₘ contents d S := by
  obtain ⟨g, hg, hgk, -, hlink, hmove⟩ := evict h hk hkhome he hfuel
  refine ⟨g, hg, hgk, hlink, fun d' hde hdk hdg hd => ?_⟩
  obtain ⟨C', hlaid⟩ := hmove d' hde hdg hd
  have hke : k ≠ e := fun heq => he (heq ▸ hk)
  have hfree : k ∉ insert e (S.erase k) := by simp [hke]
  have hset : insert k (insert e (S.erase k)) = insert e S := by
    rw [insert_comm, insert_erase hk]
  have hsingle := hlaid.single hfree (by rw [hdk]) (by rw [hdk]; exact hhome) fun _ _ => rfl
  rw [hset] at hsingle
  refine ⟨_, hsingle, contents_place hk he (by rw [hde]) (by rw [hdk]) fun p hp hpk => ?_⟩
  by_cases hpg : p = g
  · rw [hpg, hdg]
  · rw [hd p hp hpg hpk]

end Place

section Insert
variable {info : Hash α κ}

lemma place_spec (h : info.Roomy d e C) (hsized : Sized info.blength info.records) (r : α) :
    ∃ d' C', info.place r d e = some d' ∧ Laid d' info.homeSucc (range (info.records + 1)) C' ∧
      contents d' (range (info.records + 1)) = r ::ₘ info.stored := by
  have hset : insert e ((range (info.records + 1)).erase e) = range (info.records + 1) :=
    insert_erase (mem_range.mpr (Nat.lt_succ_of_le h.le))
  have hfree : e ∉ (range (info.records + 1)).erase e := notMem_erase _ _
  have hne : ∀ p ∈ (range (info.records + 1)).erase e, p ≠ e := fun p hp => ne_of_mem_erase hp
  have hlt : info.homeSucc r < info.records + 1 := by
    have hsucc := hsized.succ
    rw [homeSucc, ← hsucc.2]
    exact hsucc.1.mask_lt (Nat.succ_pos _) _
  rw [← hset, ← h.contents]
  unfold place
  simp only
  split
  · rename_i hpos
    obtain ⟨C', hlaid, hcontents⟩ := place_free (update d e ⟨none, r⟩) h.laid hfree hpos
      (update_self _ _ _) fun p hp => update_of_ne (hne p hp) _ _
    exact ⟨_, C', by rw [hpos], hlaid, hcontents⟩
  · rename_i hpos
    have hk : info.homeSucc r ∈ (range (info.records + 1)).erase e :=
      mem_erase.mpr ⟨hpos, mem_range.mpr hlt⟩
    have hmoved : ∀ link : Link α, update (update d e (d (info.homeSucc r)))
        (info.homeSucc r) link e = d (info.homeSucc r) := by
      intro link
      rw [update_of_ne (hne _ hk).symm, update_self]
    have hstay : ∀ link : Link α, ∀ p ∈ (range (info.records + 1)).erase e,
        p ≠ info.homeSucc r -> update (update d e (d (info.homeSucc r)))
          (info.homeSucc r) link p = d p := by
      intro link p hp hpk
      rw [update_of_ne hpk, update_of_ne (hne p hp)]
    split
    · rename_i hgpos
      obtain ⟨C', hlaid, hcontents⟩ := place_chain _ h.laid hk hgpos.symm hfree rfl (.inr ⟨rfl, rfl⟩)
        (hmoved ⟨some e, r⟩) (update_self _ _ _) (hstay _)
      exact ⟨_, C', rfl, hlaid, hcontents⟩
    · rename_i hgpos
      obtain ⟨g, hg, hgk, hlink, hplace⟩ := place_evict h.laid hk (Ne.symm hgpos) hfree rfl
        fun j => length_chain_le h.laid (erase_subset _ _) j
      obtain ⟨C', hlaid, hcontents⟩ := hplace (setNext (update
        (update d e (d (info.homeSucc r))) (info.homeSucc r) ⟨none, r⟩) g (some e))
        (by rw [setNext_of_ne (hne g hg).symm, hmoved])
        (by rw [setNext_of_ne hgk.symm, update_self])
        (by rw [setNext_self, hstay _ g hg hgk])
        (fun p hp hpg hpk => by rw [setNext_of_ne hpg, hstay _ p hp hpk])
      exact ⟨_, C', hlink _ (hstay _), hlaid, hcontents⟩

structure Hash.Same (hash hash' : Hash α κ) : Prop where
  unique : hash'.unique = hash.unique
  hashFunction : hash'.hashFunction = hash.hashFunction
  getKey : hash'.getKey = hash.getKey

variable [DecidableEq κ]

/-- `my_hash_insert` adds the record, unless there is another one with the same key and the keys
are unique. -/
lemma myHashInsert_spec (h : info.Inv C) (r : α) :
    ∃ info' duplicate C', info.myHashInsert r = some (info', duplicate) ∧ info'.Inv C' ∧
      info.Same info' ∧
      (duplicate = true ↔ info.unique = true ∧ ∃ x ∈ info.stored, info.getKey x = info.getKey r) ∧
      info'.stored = if duplicate then info.stored else r ::ₘ info.stored := by
  obtain ⟨found, hsearch, hfound, hnone⟩ := h.myHashSearch_eq (info.getKey r)
  have hiff : (info.unique && found.isSome) = true ↔
      info.unique = true ∧ ∃ x ∈ info.stored, info.getKey x = info.getKey r := by
    rw [Bool.and_eq_true, and_congr_right_iff]
    intro _
    cases found with
    | none =>
      refine iff_of_false (by simp) ?_
      rintro ⟨x, hx, hkey⟩
      exact hnone rfl x hx hkey
    | some x => exact iff_of_true rfl ⟨x, hfound x rfl⟩
  obtain ⟨d, e, C1, hsplit, hroomy⟩ := split_spec h r
  obtain ⟨d', C', hplace, hlaid, hcontents⟩ := place_spec hroomy h.sized r
  unfold myHashInsert
  simp only [hsearch, hsplit, hplace, some_bind]
  cases hdup : info.unique && found.isSome with
  | true =>
    rw [hdup] at hiff
    exact ⟨info, true, C, rfl, h, ⟨rfl, rfl, rfl⟩, hiff, rfl⟩
  | false =>
    rw [hdup] at hiff
    obtain ⟨hsized, hmask⟩ := h.sized.succ
    refine ⟨_, false, C', rfl, ⟨hsized, ?_⟩, ⟨rfl, rfl, rfl⟩, hiff, hcontents⟩
    exact hlaid.congr (fun _ _ => rfl) fun p _ => hmask _

end Insert

section Unlink
variable [DecidableEq α] {hash : Hash α κ} {l : List Nat}

omit [DecidableEq α] in
lemma unlinkRecord_spec (h : Laid d home S C) {l1 l2 : List Nat} (hC : C k = l1 ++ p :: l2) :
    ∃ d' e C', unlinkRecord d l1.getLast? p = (d', e) ∧ e ∈ S ∧ Laid d' home (S.erase e) C' ∧
      contents d S = (d p).data ::ₘ contents d' (S.erase e) ∧
      (e = p -> (d' e).data = (d p).data) := by
  have hlinked := h.linked k (by simp [hC])
  have hp : p ∈ S := h.mem_S (k := k) (by simp [hC])
  rcases List.eq_nil_or_concat l1 with rfl | ⟨l0, g, rfl⟩
  · rw [hC] at hlinked
    obtain ⟨hpk, hl2⟩ := hlinked
    cases hpk
    cases l2 with
    | nil =>
      refine ⟨d, k, _, ?_, hp, h.clear hC, contents_erase hp, fun _ => rfl⟩
      simp [unlinkRecord, seg_nil.mp hl2]
    | cons q l2 =>
      have hq : q ∈ S := h.mem_S (k := k) (by simp [hC])
      have hkq : k ≠ q := by
        have hnodup := h.nodup k
        rw [hC] at hnodup
        grind
      refine ⟨update d k (d q), q, _, ?_, hq, h.pull hC (update_self _ _ _)
        (fun r _ hrk _ => update_of_ne hrk _ _), ?_, fun heq => absurd heq hkq.symm⟩
      · simp [unlinkRecord, hl2.1]
      · have hset : S.erase q = insert k ((S.erase k).erase q) := by
          rw [erase_right_comm, insert_erase (mem_erase.mpr ⟨hkq, hp⟩)]
        rw [contents_erase hp, hset]
        refine congrArg _ (contents_move (mem_erase.mpr ⟨hkq.symm, hq⟩)
          (notMem_erase _ _) (by rw [update_self]) fun r hr => ?_).symm
        rw [update_of_ne (ne_of_mem_erase (mem_of_mem_erase hr))]
  · have hC' : C k = l0 ++ g :: p :: l2 := by simpa using hC
    refine ⟨setNext d g (d p).next, p, _, ?_, hp, h.unlink hC' (setNext_self _ _ _)
      (fun r _ hrg _ => setNext_of_ne hrg), ?_, fun _ => data_setNext _ _ _ _⟩
    · rw [List.concat_eq_append, List.getLast?_concat]
      rfl
    · rw [contents_erase hp, contents_congr fun r _ => (data_setNext d g (d p).next r)]

end Unlink

end Mysys
