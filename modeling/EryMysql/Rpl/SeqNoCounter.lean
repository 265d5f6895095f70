import EryMysql.Rpl.BinlogHistory

/-!
# New sequence numbers

The counter of a domain is kept past every sequence number the domain has seen, and
`update_with_next_gtid` takes the number after it. The counter has 64 bits, so this
lasts until it has reached its greatest value.
-/

namespace Rpl

open KeyedList Option List Rpl.Element History Trace

/-- The counter of a domain, zero before there is one. -/
def counter (st : BinlogState) (domainId : UInt32) : UInt64 :=
  (lookup Element.domainId st domainId).elim 0 Element.seqNoCounter

/-- The counters are past every sequence number of the history. -/
def Counts (st : BinlogState) (h : History) : Prop := ∀ d, ∀ n ∈ h.seen d, n ≤ counter st d

def Room (st : BinlogState) (domainId : UInt32) : Prop := counter st domainId ≠ 0xFFFFFFFFFFFFFFFF

/-- A call that takes a new sequence number finds one. -/
def Op.Room (st : BinlogState) : Op -> Prop
  | .updateWithNextGtid _ domainId _ => Rpl.Room st domainId
  | _ => True

variable {n : UInt64} {h : History} {d : UInt32}

lemma lt_succ_of_ne (h : n ≠ 0xFFFFFFFFFFFFFFFF) : n < n + 1 := by
  have hmax : n.toNat ≠ 2 ^ 64 - 1 := by
    intro hn
    apply h
    rw [← UInt64.toNat_inj, hn]
    rfl
  have hlt := n.toNat_lt
  rw [UInt64.lt_iff_toNat_lt, UInt64.toNat_add, UInt64.toNat_one]
  omega

/-- What a call does to the counters: none goes down, and that of its domain is past `n`. -/
structure Past (st st' : BinlogState) (d : UInt32) (n : UInt64) : Prop where
  mono : ∀ d', counter st d' ≤ counter st' d'
  past : n ≤ counter st' d

/-- A call that fails may leave the counter where it was. -/
structure PastUnless (failed : Prop) (st st' : BinlogState) (d : UInt32) (n : UInt64) : Prop where
  mono : ∀ d', counter st d' ≤ counter st' d'
  past : ¬ failed -> n ≤ counter st' d

section Counters
variable {st st' : BinlogState} {e e' : Element} {h : History} {n : UInt64}
  {gtid : Gtid}

lemma counter_of_lookup (hl : lookup domainId st d = some e) :
    counter st d = e.seqNoCounter := by
  rw [counter, hl]
  rfl

lemma Past.of_set (hc : counter st d ≤ e'.seqNoCounter)
    (hset : ∀ d', lookup domainId st' d' =
      if d = d' then some e' else lookup domainId st d') :
    Past st st' d e'.seqNoCounter := by
  have hnew : counter st' d = e'.seqNoCounter := counter_of_lookup (by rw [hset, if_pos rfl])
  refine ⟨fun d' => ?_, UInt64.le_of_eq hnew.symm⟩
  by_cases hd : d = d'
  · rw [← hd, hnew]
    exact hc
  · refine UInt64.le_of_eq ?_
    rw [counter, counter, hset, if_neg hd]

lemma past_replace (hl : lookup domainId st d = some e) (hd : e'.domainId = d)
    (hc : e.seqNoCounter ≤ e'.seqNoCounter) :
    Past st (replace domainId st e') d e'.seqNoCounter := by
  apply Past.of_set
  · rw [counter_of_lookup hl]
    exact hc
  · exact lookup_replace_of_some hl hd

lemma past_insert (hu : Unique domainId st) (hl : lookup domainId st d = none)
    (hd : e'.domainId = d) (o : Order) :
    Past st (o.insert domainId st e') d e'.seqNoCounter := by
  apply Past.of_set
  · rw [counter, hl]
    exact UInt64.zero_le
  · intro d'
    rw [hu.lookup_insert o (hd ▸ hl), hd]

lemma past_allocElementNolock (ht : Tracks st h) {env : Env}
    (hl : lookup domainId st gtid.domainId = none)
    (hrun : allocElementNolock env st gtid = some st') : Past st st' gtid.domainId gtid.seqNo := by
  unfold allocElementNolock at hrun
  split at hrun
  · obtain rfl := some.inj hrun
    exact past_insert ht.unique hl rfl _
  · cases hrun

lemma Past.unless (hp : Past st st' d n) (failed : Prop) : PastUnless failed st st' d n :=
  ⟨hp.mono, fun _ => hp.past⟩

lemma Past.trans_le {m : UInt64} (hp : Past st st' d n) (hmn : m ≤ n) : Past st st' d m :=
  ⟨hp.mono, UInt64.le_trans hmn hp.past⟩

lemma pastUnless_refl {failed : Prop} (hf : failed) : PastUnless failed st st d n :=
  ⟨fun _ => UInt64.le_refl _, fun hnot => absurd hf hnot⟩

lemma updateNolock_accept_past (ht : Tracks st h) {env : Env}
    (hl : lookup domainId st gtid.domainId = some e) :
    Past st (updateNolock.accept env st gtid e).1 gtid.domainId gtid.seqNo := by
  obtain ⟨he, hd⟩ := ht.of_lookup hl
  have hd' : gtid.domainId = (e.raiseCounter gtid.seqNo).domainId := by
    rw [domainId_raiseCounter, hd]
  obtain ⟨hnew, hold⟩ := e.le_raiseCounter gtid.seqNo
  unfold updateNolock.accept
  dsimp only
  split
  · rename_i e' hrun
    have hu := (he.raise gtid.seqNo).updateElement hd' hrun
    rw [← hu.counter] at hnew hold
    exact (past_replace hl (hu.domainId.trans hd'.symm) hold).trans_le hnew
  · exact (past_replace hl hd'.symm hold).trans_le hnew

lemma updateNolock_past (ht : Tracks st h) (env : Env) (gtid : Gtid) (strict : Bool) :
    PastUnless ((updateNolock env st gtid strict).2 ≠ none) st (updateNolock env st gtid strict).1
      gtid.domainId gtid.seqNo := by
  unfold updateNolock
  split
  · rename_i elem hl
    split
    · split
      · exact pastUnless_refl (some_ne_none _)
      · exact (updateNolock_accept_past ht hl).unless _
    · exact (updateNolock_accept_past ht hl).unless _
  · rename_i hl
    split
    · rename_i st' hrun
      exact (past_allocElementNolock ht hl hrun).unless _
    · exact pastUnless_refl (some_ne_none _)

lemma updateWithNextGtid_past (ht : Tracks st h) (env : Env) (s : UInt32) (hroom : Room st d) :
    PastUnless ((updateWithNextGtid env st d s).2.2 ≠ none) st (updateWithNextGtid env st d s).1
      d (updateWithNextGtid env st d s).2.1.seqNo := by
  unfold updateWithNextGtid
  split
  · rename_i e hl
    obtain ⟨he, hd⟩ := ht.of_lookup hl
    rw [Room, counter_of_lookup hl] at hroom
    have hle := UInt64.le_of_lt (lt_succ_of_ne hroom)
    dsimp only
    split
    · rename_i e' hrun
      have hu := (he.withCounter (e.seqNoCounter + 1)).updateElement hd.symm hrun
      have hcounter : e'.seqNoCounter = e.seqNoCounter + 1 := hu.counter
      rw [← hcounter] at hle ⊢
      exact (past_replace hl (hu.domainId.trans hd) hle).unless _
    · let e' : Element := { e with seqNoCounter := e.seqNoCounter + 1 }
      have hp : Past st (replace domainId st e') d e'.seqNoCounter := past_replace hl hd hle
      exact hp.unless _
  · rename_i hl
    dsimp only
    split
    · rename_i st' hrun
      exact (past_allocElementNolock ht hl hrun).unless _
    · exact pastUnless_refl (some_ne_none _)

lemma bumpSeqNoIfNeeded_past (ht : Tracks st h) (env : Env) (d : UInt32) (n : UInt64) :
    PastUnless ((bumpSeqNoIfNeeded env st d n).2 = true) st (bumpSeqNoIfNeeded env st d n).1
      d n := by
  unfold bumpSeqNoIfNeeded
  split
  · rename_i e hl
    obtain ⟨hnew, hold⟩ := e.le_raiseCounter n
    have hd := (e.domainId_raiseCounter n).trans (ht.of_lookup hl).2
    exact ((past_replace hl hd hold).trans_le hnew).unless _
  · rename_i hl
    split
    · exact Past.unless (past_insert ht.unique hl rfl env.order) _
    · exact pastUnless_refl rfl

lemma Counts.mono (hc : Counts st h) (hle : ∀ d', counter st d' ≤ counter st' d') : Counts st' h :=
  fun d n hn => UInt64.le_trans (hc d n hn) (hle d)

lemma Counts.cons (hc : Counts st h) {ev : Event} (hev : ev.seqNo ≤ counter st ev.domainId) :
    Counts st (ev :: h) := by
  intro d n hn
  rw [seen_cons] at hn
  split at hn
  · rename_i hd
    rcases mem_cons.mp hn with rfl | hn
    · exact hd ▸ hev
    · exact hc d n hn
  · exact hc d n hn

lemma Counts.record (hc : Counts st h) {ev : Event} {err : Option GtidError}
    (hd : ev.domainId = d) (hp : PastUnless (err ≠ none) st st' d ev.seqNo) :
    Counts st' (record h ev err) := by
  subst hd
  cases err with
  | none => exact (hc.mono hp.mono).cons (hp.past fun hne => hne rfl)
  | some err => exact hc.mono hp.mono

end Counters

lemma domainId_next (env : Env) (st : BinlogState) (d s : UInt32) :
    (updateWithNextGtid env st d s).2.1.domainId = d := by
  unfold updateWithNextGtid
  split
  iterate 2
    dsimp only
    split <;> rfl

lemma seen_lt_next {st : BinlogState} (ht : Tracks st h) (hc : Counts st h)
    (env : Env) (s : UInt32) (hroom : Room st d) (hn : n ∈ h.seen d) :
    n < (updateWithNextGtid env st d s).2.1.seqNo := by
  cases hl : lookup domainId st d with
  | none =>
    rw [ht.absent d hl] at hn
    cases hn
  | some e =>
    have hnext : (updateWithNextGtid env st d s).2.1.seqNo = e.seqNoCounter + 1 := by
      simp only [updateWithNextGtid, hl]
      split <;> rfl
    have hle := hc d n hn
    rw [Room] at hroom
    rw [counter_of_lookup hl] at hle hroom
    rw [hnext]
    exact UInt64.lt_of_le_of_lt hle (lt_succ_of_ne hroom)

namespace Trace
variable {t : Trace}

lemma counts_stepUpdate (ht : Tracks t.state t.history) (hc : Counts t.state t.history)
    (env : Env) (gtid : Gtid) (strict : Bool) :
    Counts (t.stepUpdate env gtid strict).state (t.stepUpdate env gtid strict).history :=
  hc.record rfl (updateNolock_past ht env gtid strict)

lemma counts_start : Counts start.state start.history := nofun

lemma counts_step (ht : Tracks t.state t.history) (hc : Counts t.state t.history) {op : Op}
    (hroom : op.Room t.state) : Counts (t.step op).state (t.step op).history := by
  cases op with
  | update env gtid strict => exact counts_stepUpdate ht hc env gtid strict
  | updateWithNextGtid env d s =>
    exact hc.record (domainId_next env t.state d s) (updateWithNextGtid_past ht env s hroom)
  | bumpSeqNoIfNeeded env d n =>
    have hp := bumpSeqNoIfNeeded_past ht env d n
    rw [step]
    dsimp only
    split
    · exact hc.mono hp.mono
    · rename_i hres
      exact (hc.mono hp.mono).cons (hp.past hres)
  | load list =>
    have hload := stepAll_keeps
      (P := fun t => Tracks t.state t.history ∧ Counts t.state t.history)
      (fun _ env gtid h => ⟨h.1.updateNolock env gtid false, counts_stepUpdate h.1 h.2 env gtid false⟩)
      list ⟨tracks_start, counts_start⟩
    rw [stepAll_state] at hload
    exact hload.2
  | reset => exact counts_start

lemma issued_record_accepted (h : History) (gtid : Gtid) (err : Option GtidError) :
    (record h (.accepted gtid) err).issued = h.issued := by
  cases err <;> rfl

end Trace

lemma History.mem_seen_of_issued
    (hi : (d, n) ∈ h.issued) : n ∈ h.seen d := by
  obtain ⟨ev, hev, hpair⟩ := mem_filterMap.mp hi
  cases ev with
  | accepted gtid => cases hpair
  | bumped => cases hpair
  | issued gtid =>
    simp only [Event.issued?, some.injEq, Prod.mk.injEq] at hpair
    refine mem_map.mpr ⟨.issued gtid, mem_filter.mpr ⟨hev, ?_⟩, hpair.2⟩
    exact decide_eq_true hpair.1

/-- The runs in which no counter stands at its greatest value when a number is taken from it. -/
inductive Reachable : Trace -> Prop where
  | start : Reachable Trace.start
  | step {t : Trace} (op : Op) (ht : Reachable t) (hroom : op.Room t.state) : Reachable (t.step op)

namespace Reachable
variable {t : Trace}

lemma tracks (hr : Reachable t) : Tracks t.state t.history := by
  induction hr with
  | start => exact tracks_start
  | step op _ _ ih => exact tracks_step ih op

lemma counts (hr : Reachable t) : Counts t.state t.history := by
  induction hr with
  | start => exact counts_start
  | step op hr hroom ih => exact counts_step hr.tracks ih hroom

lemma issued_nodup (hr : Reachable t) : t.history.issued.Nodup := by
  induction hr with
  | start => exact nodup_nil
  | @step t op hr hroom ih =>
    cases op with
    | update env gtid strict =>
      have hsame : (t.step (.update env gtid strict)).history.issued = t.history.issued :=
        issued_record_accepted ..
      rwa [hsame]
    | updateWithNextGtid env d s =>
      have hnew : (t.step (.updateWithNextGtid env d s)).history =
          record t.history (.issued (updateWithNextGtid env t.state d s).2.1)
            (updateWithNextGtid env t.state d s).2.2 := rfl
      rw [hnew]
      generalize (updateWithNextGtid env t.state d s).2.2 = err
      cases err with
      | some err => exact ih
      | none =>
        refine nodup_cons.mpr ⟨fun hmem => ?_, ih⟩
        have hseen := mem_seen_of_issued hmem
        rw [domainId_next] at hseen
        exact UInt64.lt_irrefl _ (seen_lt_next hr.tracks hr.counts env s hroom hseen)
    | bumpSeqNoIfNeeded env d n =>
      rw [Trace.step]
      dsimp only
      split <;> exact ih
    | load list =>
      have hsame : (t.step (.load list)).history.issued = [] :=
        stepAll_keeps (P := fun t => t.history.issued = [])
          (fun _ _ _ ht => (issued_record_accepted ..).trans ht) list rfl
      rw [hsame]
      exact nodup_nil
    | reset => exact nodup_nil

end Reachable

/-- In every run in which no counter stands at its greatest value when a new number is
taken from it, the state holds what its history says, the counters are past every
sequence number seen, and no call takes a number that was seen or issued before. -/
theorem binlogState_tracks {t : Trace} (ht : Reachable t) :
    Tracks t.state t.history ∧ Counts t.state t.history ∧ t.history.issued.Nodup ∧
      ∀ env d s, Room t.state d -> ∀ n ∈ t.history.seen d,
        n < (updateWithNextGtid env t.state d s).2.1.seqNo :=
  ⟨ht.tracks, ht.counts, ht.issued_nodup, fun env _ s hroom _ hn =>
    seen_lt_next ht.tracks ht.counts env s hroom hn⟩

theorem binlogState_tracks_two_updates :
    let t := Trace.run [.update ⟨true, .append⟩ ⟨0, 1, 7⟩ true,
      .updateWithNextGtid ⟨true, .append⟩ 0 2]
    Tracks t.state t.history ∧ Counts t.state t.history ∧ t.history.issued.Nodup ∧
      ∀ env d s, Room t.state d -> ∀ n ∈ t.history.seen d,
        n < (updateWithNextGtid env t.state d s).2.1.seqNo := by
  apply binlogState_tracks
  refine .step (.updateWithNextGtid ⟨true, .append⟩ 0 2)
    (.step (.update ⟨true, .append⟩ ⟨0, 1, 7⟩ true) .start trivial) ?_
  show counter [⟨0, [⟨0, 1, 7⟩], some 1, 7⟩] 0 ≠ 0xFFFFFFFFFFFFFFFF
  decide

/-- A counter at its greatest value starts again at zero, and after a reset the numbers
start again at one. -/
theorem binlogState_counter_wraps :
    let env : Env := ⟨true, .append⟩
    let t := Trace.run [.update env ⟨0, 1, 0xFFFFFFFFFFFFFFFF⟩ false, .updateWithNextGtid env 0 1]
    let t' := Trace.run [.updateWithNextGtid env 0 1, .reset]
    ¬ Counts t.state t.history ∧
      (updateWithNextGtid env Trace.start.state 0 1).2.1 =
        (updateWithNextGtid env t'.state 0 1).2.1 := by
  refine ⟨fun hc => ?_, rfl⟩
  exact absurd (hc 0 0xFFFFFFFFFFFFFFFF (by decide)) (by decide)

end Rpl
