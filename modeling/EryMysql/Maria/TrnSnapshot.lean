import EryMysql.Maria.TrnVisibility

/-!
# The snapshot of a transaction

The threads inside of `trnman_can_read_from`, and from them what a transaction is told: it reads its
own rows and those of the transactions that had committed when it was begun. The limit below which
transaction ids are removed from rows is compared with this.
-/

namespace Maria

open Function List Nat

namespace State

variable {initial : Nat} {s s' : State} {a b c x : Nat} {can : Bool} {tridToTrn : List Nat}
  {trn : Nat -> Trn}

def Reads (s : State) (a x : Nat) : Prop := x = s.trid a ∨ x ∈ s.snapshot (s.trid a)

/-- A transaction that is found in the hash, by a search of another: it has committed, or its
commit is still to come. -/
structure Finds (s : State) (a x b : Nat) : Prop where
  le : s.minReadFrom a ≤ x
  lt : x < s.trid a
  found : x ∈ s.rolledBack ∨ (s.trid b = x ∧ (b ∈ s.committed ∨ b ∈ s.active ∧ s.Inserted b))

structure Reading (initial : Nat) (s : State) : Prop where
  commitTrid_active : ∀ a ∈ s.active, s.place a ≠ .created -> s.place a ≠ .readable ->
    s.commitTrid a = maxTrid
  minReadFrom_zero : ∀ a ∈ s.active, s.minReadFrom a = 0 -> s.place a = .created
  finds : ∀ a ∈ s.active, ∀ x b, s.place a = .found x b -> s.Finds a x b
  answered : ∀ a ∈ s.active, ∀ x can, s.place a = .answered x can -> initial < x ->
    x ∉ s.rolledBack -> (can = true ↔ s.Reads a x)

/-- A limit of a transaction that was not begun alone is its horizon. -/
lemma horizon_eq_minReadFrom (hzero : s.minReadFrom a ≠ 0)
    (hle : s.minReadFrom a ≤ s.trid a) : s.horizon a = s.minReadFrom a := by
  unfold horizon
  rw [if_neg (by omega)]

lemma Dated.reads_of_lt_minReadFrom (hs : s.Dated initial) (ha : a ∈ s.active)
    (hlt : x < s.minReadFrom a) (hx : initial < x) (hrolledBack : x ∉ s.rolledBack) :
    s.Reads a x := by
  by_cases hself : x = s.trid a
  · exact .inl hself
  · refine .inr ((hs.below_horizon a ha x hx ?_).resolve_right hrolledBack)
    unfold horizon
    split <;> omega

lemma canReadFromSearch_cases (s : State) (a x : Nat) :
    (∃ can, s.canReadFromSearch a x = .answered x can) ∨
      ∃ b, s.canReadFromSearch a x = .found x b := by
  unfold canReadFromSearch
  split
  · exact .inl ⟨_, rfl⟩
  · split
    · exact .inl ⟨_, rfl⟩
    · split
      · exact .inl ⟨_, rfl⟩
      · exact .inr ⟨_, rfl⟩

section
variable (hl : s.Listed) (hs : s.Dated initial) (hr : s.Reading initial) (ha : a ∈ s.active)
  (hplace : (s.place a).isRunning = true)
include hl hs hr ha hplace

lemma Reading.search_answer (hanswer : s.canReadFromSearch a x = .answered x can)
    (hx : initial < x) (hrolledBack : x ∉ s.rolledBack) : can = true ↔ s.Reads a x := by
  have hzero : s.minReadFrom a ≠ 0 := by
    intro h
    have := hr.minReadFrom_zero a ha h
    rw [this] at hplace
    cases hplace
  unfold canReadFromSearch at hanswer
  split at hanswer
  case isTrue hlt =>
    cases hanswer
    exact iff_of_true rfl (hs.reads_of_lt_minReadFrom ha hlt hx hrolledBack)
  case isFalse hmin =>
    split at hanswer
    case isTrue hle =>
      cases hanswer
      rw [decide_eq_true_iff]
      refine ⟨.inl, fun h => h.resolve_right fun hmem => ?_⟩
      have := hs.snapshot_lt _ x hmem
      omega
    case isFalse hlt =>
      split at hanswer
      case h_1 hnone =>
        cases hanswer
        refine iff_of_false Bool.false_ne_true ?_
        rintro (rfl | hmem)
        · omega
        · have hhorizon := horizon_eq_minReadFrom hzero (by omega)
          obtain ⟨c, hc, rfl⟩ := hs.committed_snapshot a ha x hmem (by omega)
          have := find?_eq_none.mp hnone c (hl.committed_hash c hc)
          simp at this
      case h_2 => cases hanswer

lemma Reading.search_finds {y : Nat} (hfound : s.canReadFromSearch a x = .found y b) :
    s.Finds a y b := by
  unfold canReadFromSearch at hfound
  split at hfound
  case isTrue => cases hfound
  case isFalse hmin =>
    split at hfound
    case isTrue => cases hfound
    case isFalse hlt =>
      split at hfound
      case h_1 => cases hfound
      case h_2 b' hsome =>
        cases hfound
        refine ⟨by omega, by omega, ?_⟩
        have htrid : s.trid b = x := by simpa using find?_some hsome
        have hmem := mem_of_find?_eq_some hsome
        rcases mem_inUse.mp (hl.inUse_of_hash b hmem) with hb | hb | hb
        · exact .inr ⟨htrid, .inr ⟨hb, (hl.active_hash b hb).mpr hmem⟩⟩
        · exact .inr ⟨htrid, .inl hb⟩
        · rcases hs.freed_ended b hb with hf | hf
          · have hzero : s.minReadFrom a ≠ 0 := by
              intro h
              have := hr.minReadFrom_zero a ha h
              rw [this] at hplace
              cases hplace
            have hhorizon := horizon_eq_minReadFrom hzero (by omega)
            have := hs.freed_below b hb hf a ha
            omega
          · exact .inl (htrid ▸ hf)

end

lemma Reading.load_answer (hs : s.Dated initial) (hr : s.Reading initial) (ha : a ∈ s.active)
    (hfinds : s.Finds a x b) (hrolledBack : x ∉ s.rolledBack) :
    s.canReadFromLoad a b = true ↔ s.Reads a x := by
  obtain ⟨rfl, hb⟩ := hfinds.found.resolve_left hrolledBack
  have hne := Nat.ne_of_lt hfinds.lt
  unfold canReadFromLoad Reads
  rw [decide_eq_true_iff, or_iff_right hne]
  rcases hb with hb | ⟨hb, hinserted⟩
  · exact ((hs.ended b (mem_inUse.mpr (.inr (.inl hb))) (hs.committed_finished b hb)).2.2
      a ha).symm
  · have hcommit := hr.commitTrid_active b hb hinserted.1 hinserted.2.1
    have hle := hs.trid_bound a (mem_inUse.mpr (.inl ha))
    refine iff_of_false ?_ fun h => (hs.unended b hb).1 (hs.snapshot_finished _ _ h)
    rw [hcommit, maxTrid]
    omega

lemma Reading.newTrn (hl : s.Listed) (hs : s.Dated initial) (hr : s.Reading initial) :
    s.newTrn.Reading initial := by
  have hold : ∀ b ∈ s.active, b ≠ s.newAddress := fun b hb =>
    hl.ne_newAddress (mem_inUse.mpr (.inl hb))
  have hplace : ∀ b, b ≠ s.newAddress -> s.newTrn.place b = s.place b := fun b hb =>
    update_of_ne hb ..
  have hnew : s.newTrn.place s.newAddress = .created := update_self ..
  constructor
  case commitTrid_active =>
    intro b hb hcreated hreadable
    rcases mem_active_newTrn.mp hb with hb | rfl
    · rw [hplace b (hold b hb)] at hcreated hreadable
      rw [commitTrid_newTrn]
      exact hr.commitTrid_active b hb hcreated hreadable
    · exact absurd hnew hcreated
  case minReadFrom_zero =>
    intro b hb hzero
    rcases mem_active_newTrn.mp hb with hb | rfl
    · rw [minReadFrom_newTrn_of_ne (hold b hb)] at hzero
      rw [hplace b (hold b hb)]
      exact hr.minReadFrom_zero b hb hzero
    · exact hnew
  case finds =>
    intro b hb x d hfound
    rcases mem_active_newTrn.mp hb with hb | rfl
    · rw [hplace b (hold b hb)] at hfound
      obtain ⟨hle, hlt, hd⟩ := hr.finds b hb x d hfound
      rw [← minReadFrom_newTrn_of_ne (hold b hb)] at hle
      rw [← trid_newTrn_of_ne (hold b hb)] at hlt
      refine ⟨hle, hlt, hd.imp id ?_⟩
      rintro ⟨htrid, hd⟩
      have hne : d ≠ s.newAddress := by
        rcases hd with hd | ⟨hd, -⟩
        · exact hl.ne_newAddress (mem_inUse.mpr (.inr (.inl hd)))
        · exact hold d hd
      refine ⟨(trid_newTrn_of_ne hne).trans htrid, hd.imp id ?_⟩
      rintro ⟨hd, hinserted⟩
      exact ⟨mem_active_newTrn.mpr (.inl hd), (inserted_congr (hplace d hne)).mpr hinserted⟩
    · rw [hnew] at hfound
      cases hfound
  case answered =>
    intro b hb x can hanswered hx hrolledBack
    rcases mem_active_newTrn.mp hb with hb | rfl
    · rw [hplace b (hold b hb)] at hanswered
      rw [Reads, trid_newTrn_of_ne (hold b hb), snapshot_newTrn_of_ne]
      · exact hr.answered b hb x can hanswered hx hrolledBack
      · have := hs.trid_le b (mem_inUse.mpr (.inl hb))
        omega
    · rw [hnew] at hanswered
      cases hanswered

lemma Finds.moved {p : Place} (h : s.Finds c x b)
    (htrid : (trn b).trid = s.trid b) (htridc : (trn c).trid = s.trid c)
    (hmin : (trn c).minReadFrom = s.minReadFrom c)
    (hinserted : s.Inserted a -> p ≠ .created ∧ p ≠ .readable ∧ p ≠ .initialised) :
    Finds { s with trn := trn, tridToTrn := tridToTrn, place := update s.place a p }
      c x b where
  le := le_trans (le_of_eq hmin) h.le
  lt := lt_of_lt_of_eq h.lt htridc.symm
  found := by
    refine h.found.imp id ?_
    rintro ⟨heq, hb⟩
    refine ⟨htrid.trans heq, hb.imp id ?_⟩
    rintro ⟨hb, hi⟩
    refine ⟨hb, ?_⟩
    by_cases hne : b = a
    · subst hne
      simpa [Inserted] using hinserted hi
    · rwa [inserted_congr (update_of_ne hne ..)]

lemma Reading.moved {p : Place} (hr : s.Reading initial)
    (htrid : ∀ c, (trn c).trid = s.trid c)
    (htrn : ∀ c, c ≠ a -> trn c = s.trn c)
    (hinserted : s.Inserted a -> p ≠ .created ∧ p ≠ .readable ∧ p ≠ .initialised)
    (hcommit : p ≠ .created -> p ≠ .readable -> (trn a).commitTrid = maxTrid)
    (hzero : (trn a).minReadFrom = 0 -> p = .created)
    (hfinds : ∀ x b, p = .found x b -> s.Finds a x b ∧ (trn a).minReadFrom = s.minReadFrom a)
    (hanswer : ∀ x can, p = .answered x can -> initial < x -> x ∉ s.rolledBack ->
      (can = true ↔ s.Reads a x)) :
    Reading initial { s with
      trn := trn, tridToTrn := tridToTrn, place := update s.place a p } := by
  have hself : update s.place a p a = p := update_self ..
  have hold : ∀ c, c ≠ a -> update s.place a p c = s.place c := fun c hc => update_of_ne hc ..
  constructor
  case commitTrid_active =>
    intro c hc hcreated hreadable
    dsimp only at hcreated hreadable
    by_cases hne : c = a
    · subst hne
      rw [hself] at hcreated hreadable
      exact hcommit hcreated hreadable
    · rw [hold c hne] at hcreated hreadable
      refine (congrArg Trn.commitTrid (htrn c hne)).trans ?_
      exact hr.commitTrid_active c hc hcreated hreadable
  case minReadFrom_zero =>
    intro c hc h
    dsimp only
    by_cases hne : c = a
    · subst hne
      rw [hself]
      exact hzero h
    · rw [hold c hne]
      exact hr.minReadFrom_zero c hc ((congrArg Trn.minReadFrom (htrn c hne)).symm.trans h)
  case finds =>
    intro c hc x b h
    dsimp only at h
    by_cases hne : c = a
    · subst hne
      rw [hself] at h
      obtain ⟨hf, hmin⟩ := hfinds x b h
      exact hf.moved (htrid b) (htrid c) hmin hinserted
    · rw [hold c hne] at h
      exact (hr.finds c hc x b h).moved (htrid b) (htrid c)
        (congrArg Trn.minReadFrom (htrn c hne)) hinserted
  case answered =>
    intro c hc x can h hx hrolledBack
    dsimp only at h
    have hreads : Reads { s with
        trn := trn, tridToTrn := tridToTrn, place := update s.place a p } c x ↔
        s.Reads c x := by
      simp only [Reads]
      rw [trid, htrid c]
    rw [hreads]
    by_cases hne : c = a
    · subst hne
      rw [hself] at h
      exact hanswer x can h hx hrolledBack
    · rw [hold c hne] at h
      exact hr.answered c hc x can h hx hrolledBack

lemma Reading.endTrn {commit : Bool} (hs : s.Dated initial) (hr : s.Reading initial)
    (ha : a ∈ s.active) : (s.endTrn a commit).Reading initial := by
  constructor
  case commitTrid_active =>
    intro b hb
    obtain ⟨hb, hne⟩ := mem_active_endTrn.mp hb
    rw [commitTrid_endTrn_of_ne hne]
    exact hr.commitTrid_active b hb
  case minReadFrom_zero =>
    intro b hb
    rw [minReadFrom_endTrn]
    exact hr.minReadFrom_zero b (mem_active_endTrn.mp hb).1
  case finds =>
    intro b hactive x d hfound
    obtain ⟨hb, hne⟩ := mem_active_endTrn.mp hactive
    obtain ⟨hle, hlt, hd⟩ := hr.finds b hb x d hfound
    have hzero : s.minReadFrom b ≠ 0 := by
      intro h
      have hcreated := hr.minReadFrom_zero b hb h
      have hplace : s.place b = .found x d := hfound
      rw [hcreated] at hplace
      cases hplace
    constructor
    case le =>
      rw [minReadFrom_endTrn]
      exact hle
    case lt =>
      rw [trid_endTrn]
      exact hlt
    rw [mem_rolledBack_endTrn, trid_endTrn]
    rcases hd with hrolledBack | ⟨rfl, hd | ⟨hd, hinserted⟩⟩
    · exact .inl (.inl hrolledBack)
    · refine .inr ⟨rfl, .inl (mem_committed_endTrn_of_not_purged hd fun hpurged => ?_)⟩
      have hlow := hs.purged_below hpurged hb hne
      rw [horizon_eq_minReadFrom hzero (by omega)] at hlow
      omega
    · by_cases hda : d = a
      · subst hda
        cases commit with
        | true => exact .inr ⟨rfl, .inl (mem_committed_endTrn_self (keeps_of_active hb hne))⟩
        | false => exact .inl (.inr ⟨rfl, rfl⟩)
      · exact .inr ⟨rfl, .inr ⟨mem_active_endTrn.mpr ⟨hd, hda⟩, hinserted⟩⟩
  case answered =>
    intro b hb x can hanswered hx hrolledBack
    obtain ⟨hb, -⟩ := mem_active_endTrn.mp hb
    rw [Reads, trid_endTrn]
    exact hr.answered b hb x can hanswered hx fun h =>
      hrolledBack (mem_rolledBack_endTrn.mpr (.inl h))

lemma Reading.step (hl : s.Listed) (hs : s.Dated initial) (hr : s.Reading initial)
    (hstep : Stepped s s') : s'.Reading initial := by
  have hsame : ∀ a ∈ s.active, s.place a ≠ .created -> s.minReadFrom a ≠ 0 := fun a ha h hzero =>
    h (hr.minReadFrom_zero a ha hzero)
  cases hstep with
  | newTrn => exact hr.newTrn hl hs
  | setMinReadFrom a ha hplace =>
    refine hr.moved (congrFun trid_setMinReadFrom) (fun c hc => update_of_ne hc ..) ?_ ?_
      ?_ ?_ ?_
    · exact fun h => absurd hplace h.1
    · exact fun _ h => absurd rfl h
    · intro hzero
      have hset : (s.setMinReadFrom a).minReadFrom a = 0 := hzero
      rw [minReadFrom_setMinReadFrom_self] at hset
      split at hset
      · cases hset
      · exact absurd hset ‹_›
    · rintro x b ⟨⟩
    · rintro x can ⟨⟩
  | setCommitTrid a ha hplace =>
    refine hr.moved (congrFun trid_setCommitTrid) (fun c hc => update_of_ne hc ..) ?_ ?_
      ?_ ?_ ?_
    · exact fun h => absurd hplace h.2.1
    · intro _ _
      rw [update_self]
    · intro hzero
      have hset : (s.setCommitTrid a).minReadFrom a = 0 := hzero
      rw [minReadFrom_setCommitTrid] at hset
      have := hr.minReadFrom_zero a ha hset
      rw [hplace] at this
      cases this
    · rintro x b ⟨⟩
    · rintro x can ⟨⟩
  | insertTrn a ha hplace =>
    refine hr.moved (fun _ => rfl) (fun _ _ => rfl) ?_ ?_ ?_ ?_ ?_
    · simp
    · exact fun _ _ => hr.commitTrid_active a ha (by simp [hplace]) (by simp [hplace])
    · exact fun h => absurd h (hsame a ha (by simp [hplace]))
    · rintro x b ⟨⟩
    · rintro x can ⟨⟩
  | search a x ha hplace =>
    obtain ⟨hcreated, hreadable, -⟩ := inserted_of_isRunning hplace
    have hcases := canReadFromSearch_cases s a x
    refine hr.moved (fun _ => rfl) (fun _ _ => rfl) ?_ ?_ ?_ ?_ ?_
    · rcases hcases with ⟨can, h⟩ | ⟨b, h⟩ <;> simp [h]
    · exact fun _ _ => hr.commitTrid_active a ha hcreated hreadable
    · exact fun h => absurd h (hsame a ha hcreated)
    · exact fun y b h => ⟨hr.search_finds hl hs ha hplace h, rfl⟩
    · intro y can h hx hrolledBack
      obtain rfl : x = y := by
        rcases hcases with ⟨can', h'⟩ | ⟨b, h'⟩
        · exact (Place.answered.inj (h'.symm.trans h)).1
        · cases h'.symm.trans h
      exact hr.search_answer hl hs ha hplace h hx hrolledBack
  | load a x b ha hplace =>
    refine hr.moved (fun _ => rfl) (fun _ _ => rfl) ?_ ?_ ?_ ?_ ?_
    · simp
    · exact fun _ _ => hr.commitTrid_active a ha (by simp [hplace]) (by simp [hplace])
    · exact fun h => absurd h (hsame a ha (by simp [hplace]))
    · rintro y d ⟨⟩
    · rintro y can ⟨⟩ hx hrolledBack
      exact hr.load_answer hs ha (hr.finds a ha _ _ hplace) hrolledBack
  | endTrn a commit ha => exact hr.endTrn hs ha
  | delete i t rest | free i t rest =>
    exact { hr with finds := fun a ha x b h => { hr.finds a ha x b h with } }

structure Sound (initial : Nat) (s : State) : Prop where
  listed : s.Listed
  dated : s.Dated initial
  reading : s.Reading initial

lemma sound_init : (init initial).Sound initial where
  listed := by constructor <;> simp [init, inUse, freed]
  dated := by
    constructor <;> simp [init, inUse, freed]
  reading := by constructor <;> simp [init]

lemma Sound.step (hs : s.Sound initial) (hstep : Stepped s s') : s'.Sound initial where
  listed := hs.listed.step hs.dated.trid_inj hstep
  dated := hs.dated.step hs.listed hstep
  reading := hs.reading.step hs.listed hs.dated hstep

def Lives (s : State) (x : Nat) : Prop := x ∈ s.finished ∨ ∃ b ∈ s.active, s.trid b = x

lemma Dated.not_rolledBack (hs : s.Dated initial) (hx : s.Lives x) : x ∉ s.rolledBack := by
  rcases hx with hx | ⟨b, hb, rfl⟩
  · exact hs.finished_rolledBack x hx
  · exact (hs.unended b hb).2

lemma Dated.initial_lt (hs : s.Dated initial) (hx : s.Lives x) : initial < x := by
  rcases hx with hx | ⟨b, hb, rfl⟩
  · exact (hs.finished_range x hx).1
  · exact hs.trid_gt b (mem_inUse.mpr (.inl hb))

/-- A step gives no id anew, forgets no commit, and leaves the snapshots that were taken. -/
structure Grows (s s' : State) : Prop where
  generator_le : s.globalTridGenerator ≤ s'.globalTridGenerator
  finished : ∀ x ∈ s.finished, x ∈ s'.finished
  snapshot : ∀ t ≤ s.globalTridGenerator, s'.snapshot t = s.snapshot t
  later : ∀ t, s.globalTridGenerator < t -> t ≤ s'.globalTridGenerator ->
    ∀ x ∈ s.finished, x ∈ s'.snapshot t

lemma Grows.refl : s.Grows s :=
  ⟨le_refl _, fun _ => id, fun _ _ => rfl, fun _ h h' => absurd h' (by omega)⟩

lemma grows_of_stepped (hstep : Stepped s s') : s.Grows s' := by
  cases hstep with
  | newTrn =>
    refine ⟨le_succ _, fun _ => id, fun t ht => snapshot_newTrn_of_ne (by omega), ?_⟩
    intro t hlt hle x hx
    obtain rfl : t = s.globalTridGenerator + 1 := le_antisymm hle hlt
    rw [snapshot_newTrn_self]
    exact hx
  | endTrn a commit =>
    refine ⟨le_refl _, fun x hx => mem_finished_endTrn.mpr (.inl hx), fun _ _ => rfl, ?_⟩
    intro t hlt hle
    exact absurd hlt (not_lt.mpr hle)
  | setMinReadFrom | setCommitTrid | insertTrn | search | load | delete | free =>
    exact ⟨le_refl _, fun _ => id, fun _ _ => rfl, fun _ h h' => absurd h (not_lt.mpr h')⟩

lemma Grows.trans {s'' : State} (h : s.Grows s') (h' : s'.Grows s'') : s.Grows s'' where
  generator_le := le_trans h.generator_le h'.generator_le
  finished x hx := h'.finished x (h.finished x hx)
  snapshot t ht := (h'.snapshot t (le_trans ht h.generator_le)).trans (h.snapshot t ht)
  later t hlt hle x hx := by
    rcases lt_or_ge s'.globalTridGenerator t with hlt' | hle'
    · exact h'.later t hlt' hle x (h.finished x hx)
    · rw [h'.snapshot t hle']
      exact h.later t hlt hle' x hx

lemma grows_of_steps (hs : Steps s s') : s.Grows s' := by
  induction hs with
  | refl => exact Grows.refl
  | step _ hstep ih => exact ih.trans (grows_of_stepped (stepped_of_step hstep))

end State

open State

variable {initial : Nat} {s s' : State} {a x : Nat} {can : Bool}

lemma Steps.sound (hs : s.Sound initial) (hsteps : Steps s s') : s'.Sound initial := by
  induction hsteps with
  | refl => exact hs
  | step _ hstep ih => exact ih.step (stepped_of_step hstep)

/-- Whatever other threads do, a transaction is told that it can read the rows of itself and of the
transactions that had committed when it was begun, and this does not change while it is active:
`s` is any state of its life, and `s'` any later one in which a call has returned. -/
theorem snapshot_visibility (hs : Steps (init initial) s) (hs' : Steps s s') (ha : a ∈ s.active)
    (ha' : a ∈ s'.active) (hsame : s'.trid a = s.trid a) (hanswer : s'.place a = .answered x can)
    (hx : s'.Lives x) : can = true ↔ x = s.trid a ∨ x ∈ s.snapshot (s.trid a) := by
  have hsound := hs.sound sound_init
  have hsound' := hs'.sound hsound
  have hreads := hsound'.reading.answered a ha' x can hanswer (hsound'.dated.initial_lt hx)
    (hsound'.dated.not_rolledBack hx)
  have hle := hsound.dated.trid_le a (mem_inUse.mpr (.inl ha))
  rw [hreads, Reads, hsame, (grows_of_steps hs').snapshot _ hle]

/-- The first transaction commits while the second one is active, and the second one then asks for
it. -/
def askForCommitted : List Action :=
  [.newTrn, .setMinReadFrom 0, .setCommitTrid 0, .insertTrn 0,
    .newTrn, .setMinReadFrom 1, .setCommitTrid 1, .insertTrn 1, .endTrn 0 true, .search 1 1, .load 1]

theorem snapshot_visibility_overlap :
    ((run (init 0) askForCommitted).getD (init 0)).place 1 = .answered 1 false ∧
    (false = true ↔ 1 = ((run (init 0) askForCommitted).getD (init 0)).trid 1 ∨
      1 ∈ ((run (init 0) askForCommitted).getD (init 0)).snapshot
        (((run (init 0) askForCommitted).getD (init 0)).trid 1)) :=
  ⟨by decide +kernel, snapshot_visibility (steps_of_run (by decide +kernel)) .refl
    (by decide +kernel) (by decide +kernel) rfl (by decide +kernel)
    (.inl (by decide +kernel))⟩

/-- No transaction is in two lists or in the pool and the hash, and one that a thread has found and
not yet read is not used again, unless it was rolled back. -/
theorem found_not_reused (hs : Steps (init initial) s) :
    (s.active ++ s.committed ++ s.freed ++ s.pool).Nodup ∧ (∀ b ∈ s.tridToTrn, b ∉ s.pool) ∧
    ∀ a ∈ s.active, ∀ b, s.place a = .found x b -> x ∉ s.rolledBack -> s.trid b = x ∧ b ∉ s.pool := by
  obtain ⟨hl, -, hr⟩ := hs.sound sound_init
  have hpool : ∀ b ∈ s.inUse, b ∉ s.pool := fun b hb h =>
    (nodup_append.mp hl.nodup).2.2 b hb b h rfl
  refine ⟨hl.nodup, fun b hb => hpool b (hl.inUse_of_hash b hb), fun a ha b hplace hx => ?_⟩
  obtain ⟨htrid, hb⟩ := (hr.finds a ha x b hplace).found.resolve_left hx
  exact ⟨htrid, hpool b (mem_inUse.mpr (by tauto))⟩

theorem found_not_reused_committed :
    0 ∉ ((run (init 0) askForCommitted.dropLast).getD (init 0)).pool :=
  ((found_not_reused (steps_of_run (by decide +kernel))).2.2 1 (by decide +kernel) 0
    (by decide +kernel : _ = Place.found 1 0) (by decide +kernel)).2

lemma State.Sound.canReadFrom_iff (hs : s.Sound initial) (ha : a ∈ s.active)
    (hplace : (s.place a).isRunning = true) (hx : s.Lives x) :
    s.canReadFrom a x = true ↔ s.Reads a x := by
  have hgt := hs.dated.initial_lt hx
  have hrolledBack := hs.dated.not_rolledBack hx
  unfold canReadFrom
  rcases canReadFromSearch_cases s a x with ⟨can, hanswer⟩ | ⟨b, hfound⟩
  · rw [hanswer]
    exact hs.reading.search_answer hs.listed hs.dated ha hplace hanswer hgt hrolledBack
  · rw [hfound]
    have hfinds := hs.reading.search_finds hs.listed hs.dated ha hplace hfound
    exact hs.reading.load_answer hs.dated ha hfinds hrolledBack

/-- Rows of every transaction below the limit of `a` are visible to all: to those that are active
and to those that are begun later. -/
def State.RemovalSafe (s : State) (a : Nat) : Prop :=
  ∀ x, s.Lives x -> x < s.minReadFrom a ->
    (∀ b ∈ s.active, (s.place b).isRunning = true -> s.canReadFrom b x = true) ∧
    ∀ s', Steps s s' -> s'.Lives x -> ∀ b ∈ s'.active, (s'.place b).isRunning = true ->
      s.globalTridGenerator < s'.trid b -> s'.canReadFrom b x = true

lemma exists_later (hs : s.Sound initial) (hgenerator : s.globalTridGenerator < 0xffffffffffff) :
    ∃ s' b, Steps s s' ∧ b ∈ s'.active ∧ (s'.place b).isRunning = true ∧
      s'.trid b = s.globalTridGenerator + 1 ∧ s'.finished = s.finished ∧
      (∀ c ∈ s.active, c ∈ s'.active ∧ s'.trid c = s.trid c) := by
  let b := s.newAddress
  let s' := ((s.newTrn.setMinReadFrom b).setCommitTrid b).insertTrn b
  have hb : b ∈ s.newTrn.active := mem_active_newTrn.mpr (.inr rfl)
  have htrid : s'.trid = s.newTrn.trid := by
    change ((s.newTrn.setMinReadFrom b).setCommitTrid b).trid = _
    rw [trid_setCommitTrid, trid_setMinReadFrom]
  have h1 : step s .newTrn = some s.newTrn := if_pos hgenerator
  have h2 : step s.newTrn (.setMinReadFrom b) = some (s.newTrn.setMinReadFrom b) :=
    if_pos ⟨hb, update_self ..⟩
  have h3 : step (s.newTrn.setMinReadFrom b) (.setCommitTrid b) =
      some ((s.newTrn.setMinReadFrom b).setCommitTrid b) :=
    if_pos ⟨hb, update_self ..⟩
  have h4 : step ((s.newTrn.setMinReadFrom b).setCommitTrid b) (.insertTrn b) = some s' :=
    if_pos ⟨hb, update_self ..⟩
  refine ⟨s', b, (((Steps.refl.step h1).step h2).step h3).step h4, hb, ?_, ?_, rfl, ?_⟩
  · have hplace : s'.place b = .running := update_self ..
    rw [hplace]
    rfl
  · rw [htrid]
    exact trid_newTrn_self
  · intro c hc
    refine ⟨mem_active_newTrn.mpr (.inl hc), ?_⟩
    rw [htrid]
    exact trid_newTrn_of_ne (hs.listed.ne_newAddress (mem_inUse.mpr (.inl hc)))

/-- The transaction was not begun alone, and what committed below its limit had committed when each
of the other active transactions was begun. -/
def State.LimitVisible (s : State) (a : Nat) : Prop :=
  s.minReadFrom a ≤ s.trid a ∧
    ∀ b ∈ s.active, (s.place b).isRunning = true -> ∀ x ∈ s.finished, s.minReadFrom b ≤ x ->
      x < s.minReadFrom a -> x ∈ s.snapshot (s.trid b)

lemma State.Sound.removalSafe (hs : s.Sound initial) (ha : a ∈ s.active)
    (hlimit : s.LimitVisible a) : s.RemovalSafe a := by
  obtain ⟨hle, hvisible⟩ := hlimit
  intro x hx hlt
  have hgt := hs.dated.initial_lt hx
  have hrolledBack := hs.dated.not_rolledBack hx
  have hhorizon := horizon_eq_minReadFrom (by omega) hle
  have hfinished : x ∈ s.finished := hs.dated.snapshot_finished _ _
    ((hs.dated.below_horizon a ha x hgt (by omega)).resolve_right hrolledBack)
  constructor
  · intro b hb hplace
    refine (hs.canReadFrom_iff hb hplace hx).mpr ?_
    by_cases hlow : x < s.minReadFrom b
    · exact hs.dated.reads_of_lt_minReadFrom hb hlow hgt hrolledBack
    · exact .inr (hvisible b hb hplace x hfinished (by omega) hlt)
  · intro s' hsteps hx' b hb hplace hlater
    have hs' := hsteps.sound hs
    refine (hs'.canReadFrom_iff hb hplace hx').mpr (.inr ?_)
    exact (grows_of_steps hsteps).later _ hlater
      (hs'.dated.trid_le b (mem_inUse.mpr (.inl hb))) x hfinished

lemma State.Sound.limitVisible (hs : s.Sound initial) (ha : a ∈ s.active)
    (hgenerator : s.globalTridGenerator < 0xffffffffffff) (hsafe : s.RemovalSafe a) :
    s.LimitVisible a := by
  constructor
  · by_contra hlt
    have hlives : s.Lives (s.trid a) := .inr ⟨a, ha, rfl⟩
    obtain ⟨s', b, hsteps, hb, hplace, htrid, hfinished, hold⟩ := exists_later hs hgenerator
    have hs' := hsteps.sound hs
    obtain ⟨ha', hsame⟩ := hold a ha
    have hlives' : s'.Lives (s.trid a) := .inr ⟨a, ha', hsame⟩
    have hcan := (hsafe _ hlives (by omega)).2 s' hsteps hlives' b hb hplace (by omega)
    have hle := hs.dated.trid_le a (mem_inUse.mpr (.inl ha))
    rcases (hs'.canReadFrom_iff hb hplace hlives').mp hcan with heq | hmem
    · omega
    · exact (hs.dated.unended a ha).1 (hfinished ▸ hs'.dated.snapshot_finished _ _ hmem)
  · intro b hb hplace x hx _ hlt
    have hlives : s.Lives x := .inl hx
    have hcan := (hsafe x hlives hlt).1 b hb hplace
    refine ((hs.canReadFrom_iff hb hplace hlives).mp hcan).resolve_left ?_
    rintro rfl
    exact (hs.dated.unended b hb).1 hx

/-- Removing the ids below the limit of a transaction hides nothing from anyone exactly if the
transaction was not begun alone and no other active one was begun before a commit below this limit;
the second half is as long as there is an id for one more transaction. -/
theorem removal_of_transid (hs : Steps (init initial) s) (ha : a ∈ s.active) :
    (s.LimitVisible a -> s.RemovalSafe a) ∧
      (s.globalTridGenerator < 0xffffffffffff -> s.RemovalSafe a -> s.LimitVisible a) :=
  ⟨(hs.sound sound_init).removalSafe ha, (hs.sound sound_init).limitVisible ha⟩

/-- The first transaction commits between the begins of the second and the third one. -/
def commitBetweenBegins : List Action :=
  [.newTrn, .setMinReadFrom 0, .setCommitTrid 0, .insertTrn 0,
    .newTrn, .setMinReadFrom 1, .setCommitTrid 1, .insertTrn 1, .endTrn 0 true,
    .newTrn, .setMinReadFrom 2, .setCommitTrid 2, .insertTrn 2]

/-- The limit of the third one is above the id of the first one, whose rows the second one must
not read. -/
theorem commitBetweenBegins_unsafe :
    Steps (init 0) ((run (init 0) commitBetweenBegins).getD (init 0)) ∧
    2 ∈ ((run (init 0) commitBetweenBegins).getD (init 0)).active ∧
    ¬((run (init 0) commitBetweenBegins).getD (init 0)).RemovalSafe 2 := by
  refine ⟨steps_of_run (by decide +kernel), by decide +kernel, fun hsafe => ?_⟩
  have hcan := (hsafe 1 (.inl (by decide +kernel)) (by decide +kernel)).1 1 (by decide +kernel)
    (by decide +kernel)
  exact absurd hcan (by decide +kernel)

/-- The second transaction commits before the third one begins, and the first one is rolled back
before the fourth one does. -/
def commitBeforeBegins : List Action :=
  [.newTrn, .setMinReadFrom 0, .setCommitTrid 0, .insertTrn 0,
    .newTrn, .setMinReadFrom 1, .setCommitTrid 1, .insertTrn 1, .endTrn 1 true,
    .newTrn, .setMinReadFrom 2, .setCommitTrid 2, .insertTrn 2, .endTrn 0 false,
    .newTrn, .setMinReadFrom 3, .setCommitTrid 3, .insertTrn 3]

/-- The limit of the fourth one is above the id of the second one, whose rows the third one can
read. -/
theorem removal_of_transid_fourth :
    3 ∈ ((run (init 0) commitBeforeBegins).getD (init 0)).active ∧
    2 ∈ ((run (init 0) commitBeforeBegins).getD (init 0)).finished ∧
    2 < ((run (init 0) commitBeforeBegins).getD (init 0)).minReadFrom 3 ∧
    ((run (init 0) commitBeforeBegins).getD (init 0)).RemovalSafe 3 := by
  have hactive : 3 ∈ ((run (init 0) commitBeforeBegins).getD (init 0)).active := by decide +kernel
  exact ⟨hactive, by decide +kernel, by decide +kernel,
    (removal_of_transid (steps_of_run (by decide +kernel)) hactive).1
      ⟨by decide +kernel, by decide +kernel⟩⟩

end Maria
