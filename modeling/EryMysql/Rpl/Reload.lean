import EryMysql.Rpl.BinlogHistory

/-!
# Writing a state out and loading it again

The GTIDs of the binlog state are written domain by domain, in each domain the most
recent one last, and a state is rebuilt from such a list by plain updates. The list
says all there is to say about the tables, and the rebuilt state has the same map
whatever the order of the list. Only the most recent GTID of a domain depends on it.
-/

namespace Rpl

open KeyedList Option Rpl.Element
open List hiding lookup lookup_append lookup_cons map_map

/-- The GTIDs of a domain in the order they are written. The debug assertion says that a
domain without a last GTID has none. -/
def Element.entries (e : Element) : Option (List Gtid) :=
  match e.lastGtid with
  | none => if e.hash = [] then some [] else none
  | some last => some (e.hash.filter (fun g => g.serverId ≠ last) ++ e.last.toList)

def entries : BinlogState -> Option (List Gtid)
  | [] => some []
  | e :: st => do return (← e.entries) ++ (← entries st)

/-- The key of a GTID in the two tables together. -/
def Gtid.key (g : Gtid) : UInt32 × UInt32 := (g.domainId, g.serverId)

def ofDomain (list : List Gtid) (d : UInt32) : List Gtid := list.filter fun g => g.domainId = d

/-- A list holds all of the tables, and in each domain ends with the most recent GTID. -/
structure Describes (list : List Gtid) (st : BinlogState) : Prop where
  unique : Unique Gtid.key list
  find : ∀ d s, find st d s = lookup Gtid.key list (d, s)
  last : ∀ d, findMostRecent st d = (ofDomain list d).getLast?

section Entries
variable {e : Element} {st : BinlogState} {h : History} {list : List Gtid}

lemma Element.Tracks.last_eq (he : e.Tracks h) {k : UInt32} (hk : e.lastGtid = some k) :
    ∃ g, e.last = some g ∧ lookup Gtid.serverId e.hash k = some g := by
  have hne : e.hash ≠ [] := fun hnil => by
    rw [he.null.mpr hnil] at hk
    cases hk
  obtain ⟨g, hash, hhash⟩ := exists_cons_of_ne_nil hne
  have hmap := he.map g.serverId
  rw [hhash, lookup_cons, if_pos rfl] at hmap
  cases hacc : h.accepted e.domainId with
  | nil =>
    rw [hacc] at hmap
    cases hmap
  | cons g' acc =>
    have hlast : e.last = some g' := by rw [he.last, hacc, head?_cons]
    refine ⟨g', hlast, ?_⟩
    rwa [Element.last, hk] at hlast

lemma Element.Tracks.entries (he : e.Tracks h) :
    ∃ list, e.entries = some list ∧ list.Perm e.hash ∧ list.getLast? = e.last := by
  unfold Element.entries
  cases hk : e.lastGtid with
  | none =>
    have hnil := he.null.mp hk
    refine ⟨[], if_pos hnil, by rw [hnil], ?_⟩
    rw [Element.last, hk]
    rfl
  | some k =>
    obtain ⟨g, hlast, hlookup⟩ := he.last_eq hk
    refine ⟨_, rfl, ?_, ?_⟩
    · have hperm := filter_append_perm (fun g => decide (g.serverId ≠ k)) e.hash
      have hone : e.hash.filter (fun g => ! decide (g.serverId ≠ k)) = [g] := by
        rw [← he.unique.filter_key hlookup]
        simp
      rw [hone] at hperm
      rw [hlast]
      exact hperm
    · rw [hlast, toList_some, getLast?_append_of_ne_nil _ (cons_ne_nil _ _)]
      rfl

lemma lookup_key_of_domain {d d' s : UInt32} (hd : ∀ g ∈ list, g.domainId = d) :
    lookup Gtid.key list (d', s) = if d = d' then lookup Gtid.serverId list s else none := by
  induction list with
  | nil => simp [lookup]
  | cons g list ih =>
    have hg := hd g (mem_cons_self ..)
    rw [lookup_cons, lookup_cons, ih fun g' hg' => hd g' (mem_cons_of_mem g hg'), Gtid.key, hg]
    by_cases hdd : d = d'
    · simp [hdd]
    · simp [hdd]

lemma ofDomain_of_domain {d d' : UInt32} (hd : ∀ g ∈ list, g.domainId = d) :
    ofDomain list d' = if d = d' then list else [] := by
  unfold ofDomain
  split
  · rename_i hdd
    rw [filter_eq_self]
    intro g hg
    simpa using (hd g hg).trans hdd
  · rename_i hdd
    rw [filter_eq_nil_iff]
    intro g hg
    simpa [hd g hg] using hdd

lemma entries_spec (hu : Unique domainId st) (he : ∀ e ∈ st, e.Tracks h) :
    ∃ list, entries st = some list ∧ Describes list st ∧
      ∀ g ∈ list, ∃ e ∈ st, e.domainId = g.domainId := by
  induction st with
  | nil =>
    exact ⟨[], rfl, ⟨nodup_nil, fun _ _ => rfl, fun _ => rfl⟩, nofun⟩
  | cons e st ih =>
    obtain ⟨hnot, hu'⟩ := nodup_cons.mp hu
    obtain ⟨rest, hrest, hdesc, hdom⟩ := ih hu' fun x hx => he x (mem_cons_of_mem e hx)
    have htracks := he e (mem_cons_self ..)
    obtain ⟨list, hlist, hperm, hlast⟩ := htracks.entries
    have hd : ∀ g ∈ list, g.domainId = e.domainId := fun g hg =>
      htracks.domain g (hperm.mem_iff.mp hg)
    have happart : ∀ g ∈ rest, g.domainId ≠ e.domainId := by
      intro g hg hge
      obtain ⟨x, hx, hxg⟩ := hdom g hg
      exact hnot (mem_map.mpr ⟨x, hx, hxg.trans hge⟩)
    refine ⟨list ++ rest, by simp [Rpl.entries, hlist, hrest], ⟨?_, fun d s => ?_, fun d => ?_⟩, ?_⟩
    · rw [KeyedList.Unique, map_append]
      refine List.Nodup.append ?_ hdesc.unique ?_
      · refine List.Nodup.of_map Prod.snd ?_
        rw [List.map_map]
        exact (hperm.map Gtid.serverId).nodup_iff.mpr htracks.unique
      · intro k hk hk'
        obtain ⟨g, hg, rfl⟩ := mem_map.mp hk
        obtain ⟨g', hg', hkey⟩ := mem_map.mp hk'
        exact happart g' hg' ((Prod.ext_iff.mp hkey).1.trans (hd g hg))
    · have hhash := htracks.unique.lookup_perm hperm.symm s
      rw [lookup_append, lookup_key_of_domain hd, ← hdesc.find, Rpl.find, Rpl.find, lookup_cons]
      by_cases hdd : e.domainId = d
      · have hnone : lookup domainId st d = none := lookup_eq_none_iff.mpr fun x hx hxd =>
          hnot (mem_map.mpr ⟨x, hx, hxd.trans hdd.symm⟩)
        rw [if_pos hdd, if_pos hdd, hnone, hhash]
        simp
      · rw [if_neg hdd, if_neg hdd, none_or]
    · have hsplit : ofDomain (list ++ rest) d = ofDomain list d ++ ofDomain rest d :=
        filter_append ..
      have hrec := hdesc.last d
      rw [hsplit, ofDomain_of_domain hd, findMostRecent, lookup_cons]
      rw [findMostRecent] at hrec
      by_cases hdd : e.domainId = d
      · have hnil : ofDomain rest d = [] := by
          rw [ofDomain, filter_eq_nil_iff]
          intro g hg
          simpa [← hdd] using happart g hg
        rw [if_pos hdd, if_pos hdd, hnil, append_nil, bind_some, hlast]
      · rw [if_neg hdd, if_neg hdd, nil_append, hrec]
    · intro g hg
      rcases mem_append.mp hg with hg | hg
      · exact ⟨e, mem_cons_self .., (hd g hg).symm⟩
      · obtain ⟨x, hx, hxg⟩ := hdom g hg
        exact ⟨x, mem_cons_of_mem e hx, hxg⟩

lemma Tracks.entries (ht : Tracks st h) : ∃ list, entries st = some list ∧ Describes list st := by
  obtain ⟨list, hlist, hdesc, -⟩ := entries_spec ht.unique ht.element
  exact ⟨list, hlist, hdesc⟩

lemma Tracks.find_eq (ht : Tracks st h) (d s : UInt32) :
    find st d s = lookup Gtid.serverId (h.accepted d) s := by
  cases hl : lookup domainId st d with
  | none =>
    rw [Rpl.find, hl, History.accepted_eq_nil (ht.absent d hl)]
    rfl
  | some e =>
    obtain ⟨he, rfl⟩ := ht.of_lookup hl
    rw [Rpl.find, hl, bind_some, he.map]

lemma Tracks.findMostRecent_eq (ht : Tracks st h) (d : UInt32) :
    findMostRecent st d = (h.accepted d).head? := by
  cases hl : lookup domainId st d with
  | none => simp [findMostRecent, hl, History.accepted_eq_nil (ht.absent d hl)]
  | some e =>
    obtain ⟨he, rfl⟩ := ht.of_lookup hl
    rw [findMostRecent, hl, bind_some, he.last]

end Entries

section Loading
variable {st : BinlogState} {h : History} {list gs : List Gtid}

lemma updateNolock_ok {env : Env} (hmem : env.memory = true) (st : BinlogState) (gtid : Gtid) :
    (updateNolock env st gtid false).2 = none := by
  have haccept : ∀ e, (updateNolock.accept env st gtid e).2 = none := by
    intro e
    have hrun : ∃ e', (e.raiseCounter gtid.seqNo).updateElement env gtid = some e' := by
      simp only [updateElement, updateElement.search, hmem]
      split
      · split
        · exact ⟨_, rfl⟩
        · split <;> exact ⟨_, rfl⟩
      · split <;> exact ⟨_, rfl⟩
    obtain ⟨e', hrun⟩ := hrun
    simp [updateNolock.accept, hrun]
  unfold updateNolock
  split
  · split
    · exact haccept _
    · exact haccept _
  · simp [allocElementNolock, hmem]

def acceptAll (list : List Gtid) (h : History) : History := (list.map Event.accepted).reverse ++ h

lemma updateAll_tracks (env : Gtid -> Env) (hmem : ∀ g, (env g).memory = true)
    (ht : Tracks st h) (list : List Gtid) :
    (updateAll (list.map fun g => (env g, g)) st).2 = false ∧
      Tracks (updateAll (list.map fun g => (env g, g)) st).1 (acceptAll list h) := by
  induction list generalizing st h with
  | nil => exact ⟨rfl, ht⟩
  | cons g list ih =>
    have hok := updateNolock_ok (hmem g) st g
    have hstep := ht.updateNolock (env g) g false
    rw [hok] at hstep
    have hhist : acceptAll (g :: list) h = acceptAll list (.accepted g :: h) := by
      simp [acceptAll]
    have hrun : updateAll ((g :: list).map fun g => (env g, g)) st =
        updateAll (list.map fun g => (env g, g)) (updateNolock (env g) st g false).1 := by
      rw [map_cons, updateAll]
      cases hpair : updateNolock (env g) st g false with
      | mk st' err =>
        rw [hpair] at hok
        cases hok
        rfl
    rw [hrun, hhist]
    exact ih hstep

lemma accepted_acceptAll (list : List Gtid) (d : UInt32) :
    (acceptAll list []).accepted d = (ofDomain list d).reverse := by
  induction list with
  | nil => rfl
  | cons g list ih =>
    have hsplit : (acceptAll (g :: list) []).accepted d =
        (acceptAll list []).accepted d ++ History.accepted [.accepted g] d := by
      simp [acceptAll, History.accepted, History.ofDomain]
    rw [hsplit, ih]
    by_cases hd : g.domainId = d
    · simp [ofDomain, hd, History.accepted, History.ofDomain, Event.domainId, Event.gtid?]
    · simp [ofDomain, hd, History.accepted, History.ofDomain, Event.domainId]

lemma lookup_ofDomain (hu : Unique Gtid.key list) (d s : UInt32) :
    lookup Gtid.serverId (ofDomain list d).reverse s = lookup Gtid.key list (d, s) := by
  have hdomain : lookup Gtid.serverId (ofDomain list d) s = lookup Gtid.key list (d, s) := by
    rw [lookup, ofDomain, lookup]
    simp [Gtid.key]
  have hserver : Unique Gtid.serverId (ofDomain list d) := by
    have hsub : Unique Gtid.key (ofDomain list d) :=
      List.Nodup.sublist (filter_sublist.map Gtid.key) hu
    refine List.Nodup.of_map (fun s => (d, s)) ?_
    rw [List.map_map]
    refine (map_congr_left fun g hg => ?_) ▸ hsub
    have hgd := (mem_filter.mp hg).2
    simp [Gtid.key, ← of_decide_eq_true hgd]
  rw [hserver.lookup_perm (reverse_perm _).symm, hdomain]

/-- A state rebuilt from a rearrangement of the entries has the same map, and the most
recent GTID of a domain is the last one of the list. -/
lemma load_perm (env : Gtid -> Env) (hmem : ∀ g, (env g).memory = true)
    (hdesc : Describes list st) (hperm : gs.Perm list) :
    ∃ st', load (gs.map fun g => (env g, g)) = (st', false) ∧ (∀ d s, find st' d s = find st d s) ∧
      ∀ d, findMostRecent st' d = (ofDomain gs d).getLast? := by
  obtain ⟨hok, ht⟩ := updateAll_tracks env hmem Trace.tracks_start gs
  have hu := hdesc.unique.perm hperm.symm
  refine ⟨_, Prod.ext rfl hok, fun d s => ?_, fun d => ?_⟩
  · have hfind := ht.find_eq d s
    rw [hdesc.find, ← hdesc.unique.lookup_perm hperm.symm, ← lookup_ofDomain hu,
      ← accepted_acceptAll]
    exact hfind
  · have hlast := ht.findMostRecent_eq d
    rw [← head?_reverse, ← accepted_acceptAll]
    exact hlast

end Loading

end Rpl
