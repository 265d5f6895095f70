import EryMysql.Rpl.BinlogState

/-!
# What the binlog state remembers of its history

Abstractly the state is a history: the GTIDs accepted and the sequence numbers
bumped since the last reset, newest first. The tables of the state are functions of
it. A run carries the history along as a ghost and every step of the code keeps the
two in step.
-/

namespace Rpl

open KeyedList Option Rpl.Element

/-- A GTID accepted from elsewhere, one issued here, or a sequence number seen only. -/
inductive Event where
  | accepted (gtid : Gtid)
  | issued (gtid : Gtid)
  | bumped (domainId : UInt32) (seqNo : UInt64)
  deriving DecidableEq, Repr

def Event.domainId : Event -> UInt32
  | .accepted gtid | .issued gtid => gtid.domainId
  | .bumped domainId _ => domainId

def Event.seqNo : Event -> UInt64
  | .accepted gtid | .issued gtid => gtid.seqNo
  | .bumped _ seqNo => seqNo

def Event.gtid? : Event -> Option Gtid
  | .accepted gtid | .issued gtid => some gtid
  | .bumped _ _ => none

def Event.issued? : Event -> Option (UInt32 × UInt64)
  | .issued gtid => some (gtid.domainId, gtid.seqNo)
  | _ => none

abbrev History := List Event

namespace History

def ofDomain (h : History) (domainId : UInt32) : History := h.filter fun ev => ev.domainId = domainId

def accepted (h : History) (domainId : UInt32) : List Gtid := (h.ofDomain domainId).filterMap Event.gtid?

/-- Every sequence number that was accepted or bumped in a domain. -/
def seen (h : History) (domainId : UInt32) : List UInt64 := (h.ofDomain domainId).map Event.seqNo

def issued (h : History) : List (UInt32 × UInt64) := h.filterMap Event.issued?

end History

/-- The calls, each with the environment it meets. -/
inductive Op where
  | update (env : Env) (gtid : Gtid) (strict : Bool)
  | updateWithNextGtid (env : Env) (domainId serverId : UInt32)
  | bumpSeqNoIfNeeded (env : Env) (domainId : UInt32) (seqNo : UInt64)
  | load (list : List (Env × Gtid))
  | reset

structure Trace where
  state : BinlogState
  history : History

namespace Trace

def record (h : History) (ev : Event) : Option GtidError -> History
  | none => ev :: h
  | some _ => h

def stepUpdate (t : Trace) (env : Env) (gtid : Gtid) (strict : Bool) : Trace :=
  let (st, err) := update env t.state gtid strict
  ⟨st, record t.history (.accepted gtid) err⟩

/-- The history of a load ends where the load does. -/
def stepAll : List (Env × Gtid) -> Trace -> Trace
  | [], t => t
  | (env, gtid) :: list, t =>
    match updateNolock env t.state gtid false with
    | (_, none) => stepAll list (t.stepUpdate env gtid false)
    | (_, some _) => t.stepUpdate env gtid false

def step (t : Trace) : Op -> Trace
  | .update env gtid strict => t.stepUpdate env gtid strict
  | .updateWithNextGtid env domainId serverId =>
    let (st, gtid, err) := updateWithNextGtid env t.state domainId serverId
    ⟨st, record t.history (.issued gtid) err⟩
  | .bumpSeqNoIfNeeded env domainId seqNo =>
    let (st, res) := bumpSeqNoIfNeeded env t.state domainId seqNo
    ⟨st, if res then t.history else .bumped domainId seqNo :: t.history⟩
  | .load list => ⟨(load list).1, (stepAll list ⟨reset, []⟩).history⟩
  | .reset => ⟨reset, []⟩

def start : Trace := ⟨reset, []⟩

def run (ops : List Op) : Trace := ops.foldl step start

end Trace

/-- An element holds what the history of its domain says. -/
structure Element.Tracks (e : Element) (h : History) : Prop where
  unique : Unique Gtid.serverId e.hash
  domain : ∀ g ∈ e.hash, g.domainId = e.domainId
  map : ∀ s, lookup Gtid.serverId e.hash s = lookup Gtid.serverId (h.accepted e.domainId) s
  last : e.last = (h.accepted e.domainId).head?
  null : e.lastGtid = none ↔ e.hash = []

structure Tracks (st : BinlogState) (h : History) : Prop where
  unique : Unique domainId st
  element : ∀ e ∈ st, e.Tracks h
  absent : ∀ d, lookup domainId st d = none -> h.seen d = []

namespace History
variable {h : History} {ev : Event} {d : UInt32} {env : Env}

lemma seen_cons : seen (ev :: h) d =
    if ev.domainId = d then ev.seqNo :: seen h d else seen h d := by
  by_cases hd : ev.domainId = d <;> simp [seen, ofDomain, hd]

lemma accepted_cons_ne (hd : ev.domainId ≠ d) : accepted (ev :: h) d = accepted h d := by
  simp [accepted, ofDomain, hd]

lemma accepted_cons_gtid {g : Gtid} (hg : ev.gtid? = some g) :
    accepted (ev :: h) g.domainId = g :: accepted h g.domainId := by
  have hd : ev.domainId = g.domainId := by
    cases ev <;> simp_all [Event.gtid?, Event.domainId]
  simp [accepted, ofDomain, hd, hg]

lemma accepted_cons_none (hg : ev.gtid? = none) : accepted (ev :: h) d = accepted h d := by
  by_cases hd : ev.domainId = d <;> simp [accepted, ofDomain, hd, hg]

lemma accepted_eq_nil (hs : seen h d = []) : accepted h d = [] := by
  have hd := List.map_eq_nil_iff.mp hs
  rw [accepted, hd, List.filterMap_nil]

end History

/-- Two histories that differ in one domain only. -/
def SameElsewhere (d : UInt32) (h h' : History) : Prop :=
  ∀ d', d' ≠ d -> h'.accepted d' = h.accepted d' ∧ h'.seen d' = h.seen d'

lemma SameElsewhere.refl (d : UInt32) (h : History) : SameElsewhere d h h := fun _ _ => ⟨rfl, rfl⟩

lemma SameElsewhere.cons (ev : Event) (h : History) : SameElsewhere ev.domainId h (ev :: h) := by
  intro d hd
  rw [History.accepted_cons_ne hd.symm, History.seen_cons, if_neg hd.symm]
  exact ⟨rfl, rfl⟩

section Elements
variable {e e' : Element} {h h' : History}

lemma Element.Tracks.elsewhere (he : e.Tracks h) (hs : SameElsewhere d h h')
    (hd : e.domainId ≠ d) : e.Tracks h' := by
  obtain ⟨hacc, -⟩ := hs _ hd
  exact ⟨he.unique, he.domain, fun s => hacc ▸ he.map s, hacc ▸ he.last, he.null⟩

lemma Element.domainId_raiseCounter (e : Element) (n : UInt64) :
    (e.raiseCounter n).domainId = e.domainId := by
  unfold raiseCounter
  split <;> rfl

lemma Element.le_raiseCounter (e : Element) (n : UInt64) :
    n ≤ (e.raiseCounter n).seqNoCounter ∧ e.seqNoCounter ≤ (e.raiseCounter n).seqNoCounter := by
  unfold raiseCounter
  split
  · rename_i hlt
    exact ⟨UInt64.le_refl n, UInt64.le_of_lt hlt⟩
  · rename_i hlt
    exact ⟨UInt64.not_lt.mp hlt, UInt64.le_refl _⟩

lemma Element.Tracks.withCounter (he : e.Tracks h) (c : UInt64) :
    Tracks { e with seqNoCounter := c } h :=
  { he with }

lemma Element.Tracks.raise (he : e.Tracks h) (n : UInt64) : (e.raiseCounter n).Tracks h := by
  unfold raiseCounter
  split
  · exact he.withCounter n
  · exact he

/-- What `update_element` does to the table of a domain. -/
structure Element.Updated (e : Element) (gtid : Gtid) (e' : Element) : Prop where
  domainId : e'.domainId = e.domainId
  counter : e'.seqNoCounter = e.seqNoCounter
  lastGtid : e'.lastGtid = some gtid.serverId
  unique : Unique Gtid.serverId e'.hash
  domain : ∀ g ∈ e'.hash, g.domainId = e.domainId
  map : ∀ s, lookup Gtid.serverId e'.hash s =
    if gtid.serverId = s then some gtid else lookup Gtid.serverId e.hash s

section
variable {gtid : Gtid} (he : e.Tracks h) (hg : gtid.domainId = e.domainId)
include he hg

lemma Element.Tracks.set_seqNo {found : Gtid}
    (hf : lookup Gtid.serverId e.hash gtid.serverId = some found) : e.Updated gtid { e with
      hash := replace Gtid.serverId e.hash { found with seqNo := gtid.seqNo }
      lastGtid := some found.serverId } := by
  have hkey := key_eq_of_lookup hf
  have hnew : { found with seqNo := gtid.seqNo } = gtid := by
    have hdomain := he.domain _ (mem_of_lookup hf)
    cases gtid
    simp_all
  rw [hnew, hkey]
  refine ⟨rfl, rfl, rfl, he.unique.replace gtid, fun g hgm => ?_, fun s => ?_⟩
  · rcases mem_replace hgm with rfl | hgm
    · exact hg
    · exact he.domain g hgm
  · rw [lookup_replace]
    by_cases hs : gtid.serverId = s
    · rw [if_pos hs, if_pos hs, ← hs, hf]
      rfl
    · rw [if_neg hs, if_neg hs]

lemma Element.Tracks.updateElement_search
    (hrun : updateElement.search env e gtid = some e') : e.Updated gtid e' := by
  unfold updateElement.search at hrun
  split at hrun
  · rename_i found hf
    obtain rfl := some.inj hrun
    exact he.set_seqNo hg hf
  · rename_i hnone
    split at hrun
    · obtain rfl := some.inj hrun
      refine ⟨rfl, rfl, rfl, he.unique.insert _ hnone, fun g hgm => ?_, fun s => ?_⟩
      · rcases (mem_insert _).mp hgm with rfl | hgm
        · exact hg
        · exact he.domain g hgm
      · exact he.unique.lookup_insert _ hnone s
    · cases hrun

lemma Element.Tracks.updateElement (hrun : e.updateElement env gtid = some e') :
    e.Updated gtid e' := by
  unfold Element.updateElement at hrun
  split at hrun
  · rename_i last hlast
    split at hrun
    · rename_i hserver
      obtain ⟨s, hs, hf⟩ := bind_eq_some_iff.mp hlast
      have hkey := key_eq_of_lookup hf
      obtain rfl := some.inj hrun
      have hset := he.set_seqNo hg (hserver ▸ hkey ▸ hf)
      rwa [show some last.serverId = e.lastGtid by rw [hs, hkey]] at hset
    · exact he.updateElement_search hg hrun
  · exact he.updateElement_search hg hrun

end

lemma Element.Updated.tracks (he : e.Tracks h) {gtid : Gtid} (hu : e.Updated gtid e')
    (hg : gtid.domainId = e.domainId) (hev : ev.gtid? = some gtid) :
    e'.Tracks (ev :: h) := by
  have hacc : History.accepted (ev :: h) e'.domainId = gtid :: h.accepted e.domainId := by
    rw [hu.domainId, ← hg, History.accepted_cons_gtid hev]
  have hfound : lookup Gtid.serverId e'.hash gtid.serverId = some gtid := by
    rw [hu.map, if_pos rfl]
  refine ⟨hu.unique, fun g hgm => ?_, fun s => ?_, ?_, ?_⟩
  · rw [hu.domainId]
    exact hu.domain g hgm
  · rw [hacc, lookup_cons, hu.map, he.map]
  · rw [hacc, last, hu.lastGtid, bind_some, hfound, List.head?_cons]
  · rw [hu.lastGtid]
    refine ⟨fun hnone => (nomatch hnone), fun hnil => ?_⟩
    rw [hnil] at hfound
    cases hfound

lemma Element.tracks_empty (hseen : h.seen d = []) (c : UInt64) :
    Tracks ⟨d, [], none, c⟩ h :=
  ⟨List.nodup_nil, by simp, by simp [History.accepted_eq_nil hseen],
    by simp [last, History.accepted_eq_nil hseen], by simp⟩

end Elements

section States
variable {st : BinlogState} {e e' : Element} {h h' : History}

section
variable (ht : Tracks st h)
include ht

lemma Tracks.of_lookup (hl : lookup domainId st d = some e) : e.Tracks h ∧ e.domainId = d :=
  ⟨ht.element e (mem_of_lookup hl), key_eq_of_lookup hl⟩

lemma Tracks.replace (hl : lookup domainId st d = some e) (hd : e'.domainId = d) (he : e'.Tracks h')
    (hs : SameElsewhere d h h') : Tracks (KeyedList.replace domainId st e') h' := by
  have hfind := lookup_replace_of_some hl hd
  have hunique := ht.unique.replace e'
  refine ⟨hunique, fun x hx => ?_, fun d' hnone => ?_⟩
  · have hlx := hunique.lookup_mem hx
    rw [hfind] at hlx
    split at hlx
    · exact some.inj hlx ▸ he
    · rename_i hne
      exact (ht.of_lookup hlx).1.elsewhere hs fun hxd => hne hxd.symm
  · rw [hfind] at hnone
    split at hnone
    · cases hnone
    · rename_i hne
      rw [(hs d' fun hdd => hne hdd.symm).2]
      exact ht.absent d' hnone

lemma Tracks.insert (hl : lookup domainId st d = none) (o : Order) (hd : e'.domainId = d)
    (he : e'.Tracks h') (hs : SameElsewhere d h h') : Tracks (o.insert domainId st e') h' := by
  have hnone : lookup domainId st e'.domainId = none := hd ▸ hl
  refine ⟨ht.unique.insert o hnone, fun x hx => ?_, fun d' hd' => ?_⟩
  · rcases (mem_insert o).mp hx with rfl | hx
    · exact he
    · refine (ht.element x hx).elsewhere hs fun hxd => ?_
      exact lookup_eq_none_iff.mp hl x hx hxd
  · rw [ht.unique.lookup_insert o hnone, hd] at hd'
    split at hd'
    · cases hd'
    · rename_i hne
      rw [(hs d' fun hdd => hne hdd.symm).2]
      exact ht.absent d' hd'

lemma Tracks.allocElementNolock {gtid : Gtid}
    (hl : lookup domainId st gtid.domainId = none) {st' : BinlogState}
    (hrun : allocElementNolock env st gtid = some st') (hev : ev.gtid? = some gtid) :
    Tracks st' (ev :: h) := by
  have hempty := tracks_empty (ht.absent _ hl) gtid.seqNo
  have hdomain : ev.domainId = gtid.domainId := by
    cases ev <;> simp_all [Event.gtid?, Event.domainId]
  obtain ⟨-, hrun⟩ := ite_none_right_eq_some.mp hrun
  obtain rfl := some.inj hrun
  have hu : Updated ⟨gtid.domainId, [], none, gtid.seqNo⟩ gtid
      ⟨gtid.domainId, env.order.insert Gtid.serverId [] gtid, some gtid.serverId, gtid.seqNo⟩ := by
    refine ⟨rfl, rfl, rfl, hempty.unique.insert _ rfl, fun g hg => ?_, fun s => ?_⟩
    · rcases (mem_insert _).mp hg with rfl | hg
      · rfl
      · cases hg
    · exact hempty.unique.lookup_insert _ rfl s
  exact ht.insert hl _ rfl (hu.tracks hempty rfl hev) (hdomain ▸ SameElsewhere.cons ev h)

lemma Tracks.updateNolock_accept {gtid : Gtid}
    (hl : lookup domainId st gtid.domainId = some e) : Tracks (updateNolock.accept env st gtid e).1
      (Trace.record h (.accepted gtid) (updateNolock.accept env st gtid e).2) := by
  obtain ⟨he, hd⟩ := ht.of_lookup hl
  have hraised := he.raise gtid.seqNo
  have hd' : gtid.domainId = (e.raiseCounter gtid.seqNo).domainId := by
    rw [domainId_raiseCounter, hd]
  unfold updateNolock.accept
  dsimp only
  split
  · rename_i e' hrun
    have hu := hraised.updateElement hd' hrun
    refine ht.replace hl (hu.domainId.trans hd'.symm) ?_ (SameElsewhere.cons (.accepted gtid) h)
    exact hu.tracks hraised hd' rfl
  · exact ht.replace hl hd'.symm hraised (SameElsewhere.refl _ h)

lemma Tracks.updateNolock (env : Env) (gtid : Gtid) (strict : Bool) :
    Tracks (updateNolock env st gtid strict).1
      (Trace.record h (.accepted gtid) (Rpl.updateNolock env st gtid strict).2) := by
  unfold Rpl.updateNolock
  split
  · rename_i elem hl
    split
    · split
      · exact ht
      · exact ht.updateNolock_accept hl
    · exact ht.updateNolock_accept hl
  · rename_i hl
    split
    · rename_i st' hrun
      exact ht.allocElementNolock hl hrun rfl
    · exact ht

lemma Tracks.updateWithNextGtid (env : Env) (d s : UInt32) :
    Tracks (updateWithNextGtid env st d s).1
      (Trace.record h (.issued (Rpl.updateWithNextGtid env st d s).2.1)
        (Rpl.updateWithNextGtid env st d s).2.2) := by
  unfold Rpl.updateWithNextGtid
  split
  · rename_i e hl
    obtain ⟨he, hd⟩ := ht.of_lookup hl
    have hnext := he.withCounter (e.seqNoCounter + 1)
    dsimp only
    split
    · rename_i e' hrun
      have hu := hnext.updateElement hd.symm hrun
      refine ht.replace hl (hu.domainId.trans hd) ?_
        (SameElsewhere.cons (.issued ⟨d, s, e.seqNoCounter + 1⟩) h)
      exact hu.tracks hnext hd.symm rfl
    · exact ht.replace hl hd hnext (SameElsewhere.refl _ h)
  · rename_i hl
    dsimp only
    split
    · rename_i st' hrun
      exact ht.allocElementNolock hl hrun rfl
    · exact ht

end

lemma Element.Tracks.bump (he : e.Tracks h) (n : UInt64) :
    e.Tracks (.bumped e.domainId n :: h) := by
  have hacc : History.accepted (.bumped e.domainId n :: h) e.domainId = h.accepted e.domainId :=
    History.accepted_cons_none rfl
  exact ⟨he.unique, he.domain, fun s => hacc ▸ he.map s, hacc ▸ he.last, he.null⟩

lemma Tracks.bumpSeqNoIfNeeded (ht : Tracks st h) (env : Env) (d : UInt32) (n : UInt64) :
    Tracks (bumpSeqNoIfNeeded env st d n).1
      (if (Rpl.bumpSeqNoIfNeeded env st d n).2 then h else .bumped d n :: h) := by
  unfold Rpl.bumpSeqNoIfNeeded
  split
  · rename_i e hl
    obtain ⟨he, rfl⟩ := ht.of_lookup hl
    have hraised := (he.raise n).bump n
    rw [e.domainId_raiseCounter] at hraised
    exact ht.replace hl (e.domainId_raiseCounter n) hraised
      (SameElsewhere.cons (.bumped e.domainId n) h)
  · rename_i hl
    split
    · exact ht.insert hl _ rfl ((tracks_empty (ht.absent _ hl) n).bump n)
        (SameElsewhere.cons (.bumped d n) h)
    · exact ht

end States

namespace Trace
variable {t : Trace}

lemma stepAll_state (list : List (Env × Gtid)) (t : Trace) :
    (stepAll list t).state = (updateAll list t.state).1 := by
  induction list generalizing t with
  | nil => rfl
  | cons x list ih =>
    obtain ⟨env, gtid⟩ := x
    cases hrun : updateNolock env t.state gtid false with
    | mk st err =>
      cases err with
      | none => simp [stepAll, updateAll, hrun, ih, stepUpdate, update]
      | some err => simp [stepAll, updateAll, hrun, stepUpdate, update]

lemma stepAll_keeps {P : Trace -> Prop}
    (hstep : ∀ t env gtid, P t -> P (t.stepUpdate env gtid false)) (list : List (Env × Gtid))
    (ht : P t) : P (stepAll list t) := by
  induction list generalizing t with
  | nil => exact ht
  | cons x list ih =>
    obtain ⟨env, gtid⟩ := x
    unfold stepAll
    split
    · exact ih (hstep t env gtid ht)
    · exact hstep t env gtid ht

lemma tracks_start : Tracks start.state start.history :=
  ⟨List.nodup_nil, by simp [start, reset], fun _ _ => rfl⟩

end Trace

lemma Trace.tracks_step {t : Trace} (ht : Tracks t.state t.history) (op : Op) :
    Tracks (t.step op).state (t.step op).history := by
  cases op with
  | update env gtid strict => exact ht.updateNolock env gtid strict
  | updateWithNextGtid env d s => exact ht.updateWithNextGtid env d s
  | bumpSeqNoIfNeeded env d n => exact ht.bumpSeqNoIfNeeded env d n
  | load list =>
    have hload := stepAll_keeps (P := fun t => Tracks t.state t.history)
      (fun _ env gtid ht => ht.updateNolock env gtid false) list tracks_start
    rwa [stepAll_state] at hload
  | reset => exact tracks_start

lemma Trace.tracks_foldl (ops : List Op) {t : Trace} (ht : Tracks t.state t.history) :
    Tracks (ops.foldl step t).state (ops.foldl step t).history := by
  induction ops generalizing t with
  | nil => exact ht
  | cons op ops ih => exact ih (tracks_step ht op)

/-- In every run the tables of the state are those of its history. -/
lemma Trace.tracks_run (ops : List Op) : Tracks (run ops).state (run ops).history :=
  tracks_foldl ops tracks_start

end Rpl
