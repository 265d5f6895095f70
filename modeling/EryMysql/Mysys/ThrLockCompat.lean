import EryMysql.Lib.Partial
import EryMysql.Mysys.ThrLock

/-!
# The compatibility of table locks

A lock that does not let others in is alone, write locks of several owners are all of one kind that
lets others write, and a concurrent insert goes on beside no `TL_READ_NO_INSERT` of another owner.

`thr_lock` looks at the first write lock only, and an owner that has a write lock gets the next one
at once. So this needs that an owner who has a lock that lets others in asks for the same type only,
and does not ask for `TL_READ_NO_INSERT` beside a concurrent insert of another.
-/

namespace Mysys

open List Option

namespace ThrLock

variable {setup : ThrLockSetup} {s s' : ThrLock} {d : ThrLockData} {checkStatus : Nat -> Bool}
  {type : ThrLockType}

def Exclusive (type : ThrLockType) : Prop :=
  ThrLockType.writeLowPriority.rank ≤ type.rank

instance (type : ThrLockType) : Decidable (Exclusive type) := inferInstanceAs (Decidable (_ ≤ _))

def IsRead (type : ThrLockType) : Prop := type.rank ≤ ThrLockType.readNoInsert.rank

instance (type : ThrLockType) : Decidable (IsRead type) := inferInstanceAs (Decidable (_ ≤ _))

variable {l : List ThrLockData} {usingConcurrentInsert : Bool}
  {rest : List ThrLockData} {w : ThrLockData}

lemma shared_cases (hread : ¬IsRead type) (hshared : ¬Exclusive type) :
    type = .writeAllowWrite ∨ type = .writeConcurrentInsert := by
  cases type with
  | writeAllowWrite => exact .inl rfl
  | writeConcurrentInsert => exact .inr rfl
  | read | readWithSharedLocks | readHighPriority | readNoInsert => exact absurd (by decide) hread
  | writeLowPriority | write | writeOnly => exact absurd (by decide) hshared

lemma shared_iff (hread : ¬IsRead type) : (type.rank ≤ 8 ↔ ¬Exclusive type) ∧
    (insertsConcurrently type = true ↔ ¬Exclusive type) := by
  cases type with
  | read | readWithSharedLocks | readHighPriority | readNoInsert => exact absurd (by decide) hread
  | writeAllowWrite | writeConcurrentInsert | writeLowPriority | write | writeOnly => decide

structure Held (setup : ThrLockSetup) (read write : List ThrLockData) (count : Nat) : Prop where
  isRead : ∀ r ∈ read, IsRead r.type
  isWrite : ∀ w ∈ write, ¬IsRead w.type
  order : write.Pairwise fun a b => Exclusive b.type -> Exclusive a.type
  shared : ∀ a ∈ write, ∀ b ∈ write, ¬Exclusive a.type -> ¬Exclusive b.type -> a.type = b.type
  owners : ∀ a ∈ write, ∀ b ∈ write, a.owner ≠ b.owner -> ¬Exclusive a.type ∧
    (a.type = .writeConcurrentInsert -> setup.allowMultipleConcurrentInsert = true)
  exclusive : ∀ a ∈ write, Exclusive a.type -> ∀ r ∈ read, r.owner = a.owner
  inserts : ∀ a ∈ write, a.type = .writeConcurrentInsert ->
    ∀ r ∈ read, r.type = .readNoInsert -> r.owner = a.owner
  count : count = read.countP fun r => r.type = .readNoInsert

/-- The locks that are held, and the kinds of those that are waited for. -/
structure Compatible (setup : ThrLockSetup) (s : ThrLock) : Prop where
  held : Held setup s.read s.write s.readNoWriteCount
  readWait : ∀ r ∈ s.readWait, IsRead r.type
  writeWait : ∀ w ∈ s.writeWait, ¬IsRead w.type

section Held

variable {read write l : List ThrLockData} {count : Nat}

lemma Held.addReads (h : Held setup read write count) (hl : ∀ r ∈ l, IsRead r.type)
    (hexclusive : ∀ a ∈ write, Exclusive a.type -> ∀ r ∈ l, r.owner = a.owner)
    (hinserts : ∀ a ∈ write, a.type = .writeConcurrentInsert ->
      ∀ r ∈ l, r.type = .readNoInsert -> r.owner = a.owner) :
    Held setup (read ++ l) write (count + l.countP fun r => r.type = .readNoInsert) :=
  { h with
    isRead := forall_mem_append.mpr ⟨h.isRead, hl⟩
    exclusive := fun a ha hx => forall_mem_append.mpr ⟨h.exclusive a ha hx, hexclusive a ha hx⟩
    inserts := fun a ha hx => forall_mem_append.mpr ⟨h.inserts a ha hx, hinserts a ha hx⟩
    count := by rw [countP_append, ← h.count] }

lemma Held.addRead (h : Held setup read write count) (hd : IsRead d.type)
    (hexclusive : ∀ a ∈ write, Exclusive a.type -> d.owner = a.owner)
    (hinserts : d.type = .readNoInsert -> ∀ a ∈ write, a.type = .writeConcurrentInsert ->
      d.owner = a.owner) :
    Held setup (read ++ [d]) write (if d.type = .readNoInsert then count + 1 else count) := by
  have hadd := h.addReads (l := [d]) (by simpa using hd) (by simpa using hexclusive)
    (by simpa using fun a ha hx hr => hinserts hr a ha hx)
  by_cases hins : d.type = .readNoInsert
  iterate 2 simpa [hins] using hadd

lemma Held.addWrite (h : Held setup read write count) (hd : ¬IsRead d.type)
    (hshared : ∀ a ∈ write, ¬Exclusive a.type -> d.type = a.type)
    (howners : ∀ a ∈ write, a.owner ≠ d.owner -> ¬Exclusive a.type ∧
      (a.type = .writeConcurrentInsert -> setup.allowMultipleConcurrentInsert = true))
    (hexclusive : Exclusive d.type -> ∀ r ∈ read, r.owner = d.owner)
    (hinserts : d.type = .writeConcurrentInsert ->
      ∀ r ∈ read, r.type = .readNoInsert -> r.owner = d.owner) :
    Held setup read (write ++ [d]) count := by
  refine { h with
    isWrite := forall_mem_append.mpr ⟨h.isWrite, forall_mem_singleton.mpr hd⟩
    exclusive := forall_mem_append.mpr
      ⟨h.exclusive, forall_mem_singleton.mpr hexclusive⟩
    inserts := forall_mem_append.mpr ⟨h.inserts, forall_mem_singleton.mpr hinserts⟩
    order := ?order, shared := ?shared, owners := ?owners }
  case order =>
    refine pairwise_append.mpr ⟨h.order, pairwise_singleton .., ?_⟩
    intro a ha b hb hx
    obtain rfl := mem_singleton.mp hb
    by_contra hshare
    exact hshare (hshared a ha hshare ▸ hx)
  case shared =>
    intro a ha b hb hxa hxb
    rcases mem_append.mp ha with ha | ha <;> rcases mem_append.mp hb with hb | hb
    · exact h.shared a ha b hb hxa hxb
    · exact (mem_singleton.mp hb ▸ hshared a ha hxa).symm
    · exact mem_singleton.mp ha ▸ hshared b hb hxb
    · rw [mem_singleton.mp ha, mem_singleton.mp hb]
  case owners =>
    intro a ha b hb hne
    rcases mem_append.mp ha with ha | ha <;> rcases mem_append.mp hb with hb | hb
    · exact h.owners a ha b hb hne
    · exact howners a ha (mem_singleton.mp hb ▸ hne)
    · have hda := mem_singleton.mp ha
      obtain ⟨hxb, hallow⟩ := howners b hb (hda ▸ Ne.symm hne)
      rw [hda, hshared b hb hxb]
      exact ⟨hxb, hallow⟩
    · rw [mem_singleton.mp ha, mem_singleton.mp hb] at hne
      exact absurd rfl hne

lemma Held.ofUniform (h : Held setup read [] count) (htype : ∀ w ∈ write, w.type = type)
    (hwrite : ¬IsRead type) (hone : type = .writeAllowWrite ∨ write.length ≤ 1)
    (hexclusive : Exclusive type -> read = [])
    (hinserts : type = .writeConcurrentInsert -> ∀ r ∈ read, r.type ≠ .readNoInsert) :
    Held setup read write count where
  isRead := h.isRead
  isWrite w hw := htype w hw ▸ hwrite
  order := by
    refine Pairwise.imp_of_mem ?_ (pairwise_of_forall (R := fun _ _ => True) fun _ _ => trivial)
    intro a b ha hb _ hx
    rw [htype a ha, ← htype b hb]
    exact hx
  shared a ha b hb _ _ := (htype a ha).trans (htype b hb).symm
  owners a ha b hb hne := by
    have hallow : type = .writeAllowWrite := by
      refine hone.resolve_right fun hlen => hne ?_
      match write, hlen with
      | [x], _ => rw [mem_singleton.mp ha, mem_singleton.mp hb]
    rw [htype a ha, hallow]
    exact ⟨by decide, nofun⟩
  exclusive a ha hx r hr := by
    rw [hexclusive (htype a ha ▸ hx)] at hr
    cases hr
  inserts a ha hx r hr hins := absurd hins (hinserts ((htype a ha).symm.trans hx) r hr)
  count := h.count

lemma Held.removeWrite (h : Held setup read write count) (hl : l.Sublist write) :
    Held setup read l count :=
  { h with
    isWrite := fun w hw => h.isWrite w (hl.subset hw)
    order := h.order.sublist hl
    shared := fun a ha b hb => h.shared a (hl.subset ha) b (hl.subset hb)
    owners := fun a ha b hb => h.owners a (hl.subset ha) b (hl.subset hb)
    exclusive := fun a ha => h.exclusive a (hl.subset ha)
    inserts := fun a ha => h.inserts a (hl.subset ha) }

lemma Held.removeRead (h : Held setup read write count) (hd : d ∈ read) :
    Held setup (read.erase d) write (if d.type = .readNoInsert then count - 1 else count) := by
  refine { h with
    isRead := fun r hr => h.isRead r (mem_of_mem_erase hr)
    exclusive := fun a ha hx r hr => h.exclusive a ha hx r (mem_of_mem_erase hr)
    inserts := fun a ha hx r hr => h.inserts a ha hx r (mem_of_mem_erase hr)
    count := ?_ }
  have hperm := (perm_cons_erase hd).countP_eq fun r => decide (r.type = .readNoInsert)
  rw [h.count, hperm]
  by_cases hins : d.type = .readNoInsert
  · simp [hins]
  · simp [hins]

end Held

/-- Read locks are given beside write locks that let others in, and those that do not let others
insert only beside none. -/
lemma Compatible.freeAllReadLocks (hs : Compatible setup s)
    (hshared : ∀ a ∈ s.write, ¬Exclusive a.type)
    (husing : s.write ≠ [] -> usingConcurrentInsert = true) :
    Compatible setup (s.freeAllReadLocks usingConcurrentInsert) where
  held := by
    refine hs.held.addReads ?_ ?_ ?_
    · exact fun r hr => hs.readWait r (mem_of_mem_filter hr)
    · exact fun a ha hx => absurd hx (hshared a ha)
    · intro a ha _ r hr hins
      have hstays := (mem_filter.mp hr).2
      simp [hins, husing (ne_nil_of_mem ha)] at hstays
  readWait r hr := hs.readWait r (mem_of_mem_filter hr)
  writeWait := hs.writeWait

lemma Compatible.freeAllReadLocks_of_nil (hs : Compatible setup s)
    (hwrite : s.write = []) : Compatible setup (s.freeAllReadLocks usingConcurrentInsert) :=
  hs.freeAllReadLocks (fun _ ha => absurd (hwrite ▸ ha) not_mem_nil) (absurd hwrite)

lemma upgrade_type (checkStatus : Nat -> Bool) (d : ThrLockData) (hd : ¬IsRead d.type) :
    ¬IsRead (upgrade checkStatus d).type ∧
      (d.type = .writeAllowWrite -> (upgrade checkStatus d).type = .writeAllowWrite) := by
  unfold upgrade
  split
  case isTrue h => exact ⟨show ¬IsRead .write by decide, fun h' => absurd (h.1.symm.trans h') (by decide)⟩
  case isFalse => exact ⟨hd, id⟩

/-- The write locks that are given together are of one type, and several only if this type lets
others write. -/
lemma releaseWriters_spec (checkStatus : Nat -> Bool) (write : List ThrLockData)
    (hd : ¬IsRead d.type)
    (hrest : ∀ w ∈ rest, ¬IsRead w.type) (hwrite : ∀ w ∈ write, w.type = .writeAllowWrite)
    (hmore : write ≠ [] -> d.type = .writeAllowWrite) :
    ∃ write' rest' type, releaseWriters checkStatus write d rest = (write', rest', type) ∧
      (∀ w ∈ write', w.type = type) ∧ ¬IsRead type ∧
      (type = .writeAllowWrite ∨ write'.length ≤ 1) ∧ ∀ w ∈ rest', ¬IsRead w.type := by
  have hupgrade := upgrade_type checkStatus d hd
  have hlast : ∀ w ∈ write ++ [upgrade checkStatus d], w.type = (upgrade checkStatus d).type := by
    refine forall_mem_append.mpr ⟨fun w hw => ?_, forall_mem_singleton.mpr rfl⟩
    rw [hwrite w hw, hupgrade.2 (hmore (ne_nil_of_mem hw))]
  have hone : (upgrade checkStatus d).type = .writeAllowWrite ∨
      (write ++ [upgrade checkStatus d]).length ≤ 1 := by
    by_cases hnil : write = []
    · exact .inr (by simp [hnil])
    · exact .inl (hupgrade.2 (hmore hnil))
  induction rest generalizing write d with
  | nil => exact ⟨_, _, _, rfl, hlast, hupgrade.1, hone, hrest⟩
  | cons next rest ih =>
    unfold releaseWriters
    split
    case isTrue => exact ⟨_, _, _, rfl, hlast, hupgrade.1, hone, hrest⟩
    case isFalse hmany =>
      obtain ⟨htype, hnext⟩ := not_or.mp hmany
      have htype := not_not.mp htype
      have hnext := not_not.mp hnext
      have hall : ∀ w ∈ write ++ [upgrade checkStatus d], w.type = .writeAllowWrite := fun w hw =>
        (hlast w hw).trans htype
      have hnextw := hrest next (mem_cons_self ..)
      have hup := upgrade_type checkStatus next hnextw
      refine ih _ hnextw (fun w hw => hrest w (mem_cons_of_mem _ hw)) hall (fun _ => hnext) hup ?_
        (.inl (hup.2 hnext))
      rw [hup.2 hnext]
      exact forall_mem_append.mpr ⟨hall, forall_mem_singleton.mpr (hup.2 hnext)⟩

lemma startWriters_spec (write : List ThrLockData) (hd : d.type = type)
    (hrest : ∀ w ∈ rest, ¬IsRead w.type) (hwrite : ∀ w ∈ write, w.type = type)
    (hone : type = .writeAllowWrite ∨ write = []) :
    ∃ write' rest', startWriters type write d rest = (write', rest') ∧
      (∀ w ∈ write', w.type = type) ∧ (type = .writeAllowWrite ∨ write'.length ≤ 1) ∧
      ∀ w ∈ rest', ¬IsRead w.type := by
  have hlast : ∀ w ∈ write ++ [d], w.type = type :=
    forall_mem_append.mpr ⟨hwrite, forall_mem_singleton.mpr hd⟩
  have hone' : type = .writeAllowWrite ∨ (write ++ [d]).length ≤ 1 :=
    hone.imp id fun h => by simp [h]
  induction rest generalizing write d with
  | nil => exact ⟨_, _, rfl, hlast, hone', hrest⟩
  | cons next rest ih =>
    unfold startWriters
    split
    case isTrue hmany =>
      have hnext := hmany.2.trans hmany.1.symm
      exact ih _ hnext (fun w hw => hrest w (mem_cons_of_mem _ hw)) hlast (.inl hmany.1)
        (forall_mem_append.mpr ⟨hlast, forall_mem_singleton.mpr hnext⟩) (.inl hmany.1)
    case isFalse => exact ⟨_, _, rfl, hlast, hone', hrest⟩

section
variable (hs : Compatible setup s)
include hs

/-- Writers of one type start on a table that has no writer. -/
lemma Compatible.start {write' writeWait' : List ThrLockData} (hwrite : s.write = [])
    (htype : ∀ w ∈ write', w.type = type) (hisWrite : ¬IsRead type)
    (hone : type = .writeAllowWrite ∨ write'.length ≤ 1) (hrest : ∀ w ∈ writeWait', ¬IsRead w.type)
    (hexclusive : Exclusive type -> s.read = [])
    (hinserts : ∀ r ∈ s.read, r.type ≠ .readNoInsert) (writeLockCount : Nat) :
    Compatible setup { s with write := write', writeWait := writeWait', writeLockCount } := by
  have h := hs.held
  rw [hwrite] at h
  exact ⟨h.ofUniform htype hisWrite hone hexclusive fun _ => hinserts, hs.readWait, hrest⟩

lemma Compatible.wakeUpUnlocked (hwrite : s.write = []) (hread : s.read = []) :
    Compatible setup (s.wakeUpUnlocked setup checkStatus) := by
  unfold ThrLock.wakeUpUnlocked
  simp only
  split
  case h_1 =>
    split
    · exact hs
    · exact hs.freeAllReadLocks_of_nil hwrite
  case h_2 d rest hwait =>
    obtain ⟨hd, hrest⟩ := forall_mem_cons.mp (hwait ▸ hs.writeWait)
    split
    case isTrue =>
      split
      case isTrue =>
        have hcounted : ∀ count, Compatible setup { s with writeLockCount := count } := fun _ =>
          { hs with }
        exact (hcounted _).freeAllReadLocks_of_nil hwrite
      case isFalse =>
        obtain ⟨write', writeWait', type, heq, htype, hisWrite, hone, hrest'⟩ :=
          releaseWriters_spec checkStatus s.write hd hrest (by simp [hwrite]) (absurd hwrite)
        have hreleased := hs.start hwrite htype hisWrite hone hrest' (fun _ => hread)
          (by simp [hread])
        rw [heq]
        split
        case isTrue => exact hreleased _
        case isFalse hshared =>
          split
          case isTrue => exact hreleased _
          case isFalse =>
            refine (hreleased _).freeAllReadLocks (fun a ha => htype a ha ▸ hshared) fun _ => ?_
            exact (shared_iff hisWrite).2.mpr hshared
    case isFalse =>
      split
      · exact hs
      · exact hs.freeAllReadLocks_of_nil hwrite

lemma Compatible.noInsert_of_count (hcount : s.readNoWriteCount = 0) :
    ∀ r ∈ s.read, r.type ≠ .readNoInsert := by
  have h := hs.held.count
  rw [hcount] at h
  simpa using countP_eq_zero.mp h.symm

lemma Compatible.wakeUpReadLocked (hwrite : s.write = []) :
    Compatible setup (s.wakeUpReadLocked checkStatus) := by
  unfold ThrLock.wakeUpReadLocked
  simp only
  split
  case h_1 =>
    split
    · exact hs
    · exact hs.freeAllReadLocks_of_nil hwrite
  case h_2 d rest hwait =>
    obtain ⟨hd, hrest⟩ := forall_mem_cons.mp (hwait ▸ hs.writeWait)
    split
    case isFalse => exact hs
    case isTrue hbeside =>
      have hshared := (shared_iff hd).1.mp hbeside.1
      split
      case isTrue =>
        have hs' : Compatible setup { s with writeWait := { d with type := .write } :: rest } :=
          { hs with
            writeWait := forall_mem_cons.mpr ⟨show ¬IsRead .write by decide, hrest⟩ }
        split
        · exact hs'
        · exact hs'.freeAllReadLocks_of_nil hwrite
      case isFalse =>
        obtain ⟨write', writeWait', heq, htype, hone, hrest'⟩ := startWriters_spec s.write (d := d)
          rfl hrest (by simp [hwrite]) (.inr hwrite)
        have hcount : s.readNoWriteCount = 0 := by
          refine hbeside.2.resolve_left ?_
          rw [(shared_iff hd).2.mpr hshared]
          exact nofun
        have hstarted := hs.start hwrite htype hd hone hrest' (fun hx => absurd hx hshared)
          (hs.noInsert_of_count hcount) s.writeLockCount
        rw [heq]
        split
        case isTrue => exact hstarted
        case isFalse =>
          refine hstarted.freeAllReadLocks (fun a ha => htype a ha ▸ hshared) fun _ => ?_
          exact (shared_iff hd).2.mpr hshared

lemma Compatible.wakeUpWaiters : Compatible setup (s.wakeUpWaiters setup checkStatus) := by
  unfold ThrLock.wakeUpWaiters
  split
  case isTrue => exact hs
  case isFalse hwrite =>
    have hwrite := not_not.mp hwrite
    split
    case isTrue hread => exact hs.wakeUpUnlocked hwrite hread
    case isFalse => exact hs.wakeUpReadLocked hwrite

end

/-- A request of an owner that has write locks: for the same type, if one of them lets others in;
and not for `TL_READ_NO_INSERT` if the first of the write locks is its own and another owner inserts
concurrently. -/
def Guarded (setup : ThrLockSetup) (s : ThrLock) : ThrLockAction -> Prop
  | .lock d =>
    if IsRead d.type then
      d.type = .readNoInsert -> ∀ w ∈ s.write.head?, w.owner = d.owner ->
        ∀ a ∈ s.write, a.type = .writeConcurrentInsert -> a.owner = d.owner
    else
      ∀ a ∈ s.write, a.owner = d.owner -> Exclusive a.type ∨ requestedType setup d.type = a.type
  | .unlock _ => True
  | .giveUp _ => True
  | .abortLocks => True
  | .abortLocksForThread _ => True

section
variable (hs : Compatible setup s)
include hs

lemma Compatible.addRead (hd : IsRead d.type)
    (hexclusive : ∀ a ∈ s.write, Exclusive a.type -> d.owner = a.owner)
    (hinserts : d.type = .readNoInsert -> ∀ a ∈ s.write, a.type = .writeConcurrentInsert ->
      d.owner = a.owner) : Compatible setup (s.addRead d) :=
  ⟨hs.held.addRead hd hexclusive hinserts, hs.readWait, hs.writeWait⟩

lemma Compatible.waitRead (hd : IsRead d.type) :
    Compatible setup { s with readWait := s.readWait ++ [d] } :=
  { hs with
    readWait := forall_mem_append.mpr ⟨hs.readWait, forall_mem_singleton.mpr hd⟩ }

lemma Compatible.waitWrite (hd : ¬IsRead d.type) :
    Compatible setup { s with writeWait := s.writeWait ++ [d] } :=
  { hs with
    writeWait := forall_mem_append.mpr ⟨hs.writeWait, forall_mem_singleton.mpr hd⟩ }

lemma Compatible.exclusive_head (hwrite : s.write = w :: l) {a : ThrLockData}
    (ha : a ∈ s.write) (hx : Exclusive a.type) : Exclusive w.type := by
  have horder := hs.held.order
  rw [hwrite] at horder ha
  rcases mem_cons.mp ha with rfl | ha
  · exact hx
  · exact (pairwise_cons.mp horder).1 a ha hx

lemma Compatible.lockRead (hd : IsRead d.type)
    (hguard : d.type = .readNoInsert -> ∀ w ∈ s.write.head?, w.owner = d.owner ->
      ∀ a ∈ s.write, a.type = .writeConcurrentInsert -> a.owner = d.owner) :
    Compatible setup (s.lockRead d).1 := by
  unfold ThrLock.lockRead
  split
  case h_1 w l hwrite =>
    have hw : w ∈ s.write := hwrite ▸ mem_cons_self ..
    split
    case isTrue hgrant =>
      refine hs.addRead hd (fun a ha hx => ?_) fun hins a ha hci => ?_
      · rcases hgrant with howner | ⟨hshared, -⟩
        · rw [howner]
          by_contra hne
          exact (hs.held.owners a ha w hw (Ne.symm hne)).1 hx
        · exact absurd (hs.exclusive_head hwrite ha hx) ((shared_iff (hs.held.isWrite w hw)).1.mp hshared)
      · rcases hgrant with howner | ⟨hshared, hmatrix⟩
        · exact (hguard hins w (by rw [hwrite]; rfl) howner.symm a ha hci).symm
        · have hwtype := hmatrix.resolve_left (by rw [hins]; decide)
          have hwshared := (shared_iff (hs.held.isWrite w hw)).1.mp hshared
          have hashared : ¬Exclusive a.type := fun hx => hwshared (hs.exclusive_head hwrite ha hx)
          exact absurd ((hs.held.shared a ha w hw hashared hwshared).symm.trans hci) hwtype
    case isFalse =>
      split
      · exact hs
      · exact hs.waitRead hd
  case h_2 hwrite =>
    split
    case isTrue =>
      have hnone : ∀ a, a ∉ s.write := by simp [hwrite]
      exact hs.addRead hd (fun a ha => absurd ha (hnone a)) fun _ a ha => absurd ha (hnone a)
    case isFalse => exact hs.waitRead hd

end

lemma requestedType_isWrite (h : ¬IsRead type) : ¬IsRead (requestedType setup type) := by
  unfold requestedType ThrLockSetup.upgradedConcurrentInsertLock
  split
  · split <;> decide
  · exact h

lemma mem_of_hasOldLock {owner : Nat} (h : hasOldLock l owner = true) :
    ∃ a ∈ l, a.owner = owner := by
  simpa [hasOldLock] using h

section
variable (hs : Compatible setup s)
include hs

lemma Compatible.held_share (hwrite : s.write = w :: l) (htype : ¬IsRead type)
    (hkind : type = .writeAllowWrite ∨ (type = .writeConcurrentInsert ∧
      setup.allowMultipleConcurrentInsert = true ∧ s.readNoWriteCount = 0))
    (hwtype : w.type = type) (hcount : s.readNoWriteCount = 0) :
    Held setup s.read (s.write ++ [{ d with type := type }]) s.readNoWriteCount := by
  have hw : w ∈ s.write := hwrite ▸ mem_cons_self ..
  have hshared : ¬Exclusive type := by
    rcases hkind with h | ⟨h, -⟩ <;> rw [h] <;> decide
  have hall : ∀ a ∈ s.write, ¬Exclusive a.type := fun a ha hx =>
    hshared (hwtype ▸ hs.exclusive_head hwrite ha hx)
  have htypes : ∀ a ∈ s.write, a.type = type := fun a ha =>
    (hs.held.shared a ha w hw (hall a ha) (hall w hw)).trans hwtype
  refine hs.held.addWrite htype (fun a ha _ => (htypes a ha).symm) (fun a ha _ => ⟨hall a ha, ?_⟩)
    (fun hx => absurd hx hshared) fun _ r hr hins => absurd hins (hs.noInsert_of_count hcount r hr)
  intro hci
  rcases hkind with h | ⟨-, hallow, -⟩
  · exact absurd ((htypes a ha).symm.trans hci) (by rw [h]; decide)
  · exact hallow

lemma Compatible.held_again (htype : ¬IsRead type)
    (hguard : ∀ a ∈ s.write, a.owner = d.owner -> Exclusive a.type ∨ type = a.type)
    (hold : hasOldLock s.write d.owner = true) :
    Held setup s.read (s.write ++ [{ d with type := type }]) s.readNoWriteCount := by
  obtain ⟨o, ho, howner⟩ := mem_of_hasOldLock hold
  refine hs.held.addWrite htype (fun a ha hshared => ?_) (fun a ha hne => ?_) (fun hx r hr => ?_)
    fun hci r hr hins => ?_
  · by_cases hsame : a.owner = d.owner
    · exact (hguard a ha hsame).resolve_left hshared
    · have hoshared := (hs.held.owners o ho a ha (howner ▸ Ne.symm hsame)).1
      exact ((hguard o ho howner).resolve_left hoshared).trans
        (hs.held.shared o ho a ha hoshared hshared)
  · exact hs.held.owners a ha o ho (howner ▸ hne)
  · have hox : Exclusive o.type := (hguard o ho howner).elim id fun h => h ▸ hx
    exact (hs.held.exclusive o ho hox r hr).trans howner
  · rcases hguard o ho howner with hox | heq
    · exact (hs.held.exclusive o ho hox r hr).trans howner
    · exact (hs.held.inserts o ho (heq.symm.trans hci) r hr hins).trans howner

lemma Compatible.held_first (hwrite : s.write = []) (htype : ¬IsRead type)
    (hbeside : s.besideReads type) :
    Held setup s.read [{ d with type := type }] s.readNoWriteCount := by
  have h := hs.held
  rw [hwrite] at h
  have hone : ∀ w ∈ [{ d with type := type }], w.type = type := by simp
  refine h.ofUniform hone htype (.inr (by simp)) (fun hx => ?_) fun hci r hr => ?_
  · exact hbeside.resolve_right fun h => (shared_iff htype).1.mp h.1 hx
  · rcases hbeside with hread | ⟨-, hnot | hcount⟩
    · rw [hread] at hr
      cases hr
    · rw [hci] at hnot
      cases hnot
    · exact hs.noInsert_of_count hcount r hr

lemma Compatible.lockWrite {r : ThrLock × ThrLockResult} (hd : ¬IsRead d.type)
    (hguard : ∀ a ∈ s.write, a.owner = d.owner ->
      Exclusive a.type ∨ requestedType setup d.type = a.type)
    (hlock : s.lockWrite setup checkStatus d = some r) : Compatible setup r.1 := by
  have htype : ¬IsRead (requestedType setup d.type) := requestedType_isWrite hd
  unfold ThrLock.lockWrite at hlock
  simp only at hlock
  generalize requestedType setup d.type = type at *
  split at hlock
  case h_1 w l hwrite =>
    split at hlock
    case isTrue =>
      cases hlock
      exact hs
    case isFalse =>
      split at hlock
      case isTrue => cases hlock
      case isFalse =>
        split at hlock
        case isFalse =>
          cases hlock
          exact hs.waitWrite htype
        case isTrue hgrant =>
          cases hlock
          refine ⟨?_, hs.readWait, hs.writeWait⟩
          rcases hgrant with ⟨hkind, -, hwtype, hcount⟩ | hold
          · exact hs.held_share hwrite htype hkind hwtype hcount
          · exact hs.held_again htype hguard hold
  case h_2 hwrite =>
    split at hlock
    case isFalse =>
      cases hlock
      exact hs.waitWrite htype
    case isTrue hwait =>
      have htype' : ¬IsRead (if type = .writeConcurrentInsert ∧ checkStatus d.id = true then
          setup.upgradedConcurrentInsertLock else type) := by
        split
        · unfold ThrLockSetup.upgradedConcurrentInsertLock
          split <;> decide
        · exact htype
      generalize (if type = .writeConcurrentInsert ∧ checkStatus d.id = true then
        setup.upgradedConcurrentInsertLock else type) = type' at *
      split at hlock
      case isTrue hbeside =>
        cases hlock
        exact ⟨hs.held_first hwrite htype' hbeside, hs.readWait, hs.writeWait⟩
      case isFalse =>
        cases hlock
        have hwaits := hs.waitWrite (d := { d with type := type' }) htype'
        rw [hwait] at hwaits
        exact hwaits

end

lemma Compatible.remove (hs : Compatible setup s) (hd : d ∈ s.read ++ s.write) :
    Compatible setup (s.remove d) := by
  refine ⟨?_, hs.readWait, hs.writeWait⟩
  rcases mem_append.mp hd with hread | hwrite
  · exact (hs.held.removeRead hread).removeWrite erase_sublist
  · have hwtype := hs.held.isWrite d hwrite
    have hnot : d ∉ s.read := fun h => hwtype (hs.held.isRead d h)
    have hins : d.type ≠ .readNoInsert := fun h => hwtype (h ▸ by decide)
    have hheld := hs.held.removeWrite (l := s.write.erase d) erase_sublist
    unfold ThrLock.remove
    simp only [if_neg hins, erase_of_not_mem hnot]
    exact hheld

lemma Compatible.step {action : ThrLockAction} (hs : Compatible setup s)
    (hguard : s.Guarded setup action) (hstep : s.step setup checkStatus action = some s') :
    Compatible setup s' := by
  cases action with
  | lock d =>
    simp only [ThrLock.step, map_eq_some_iff] at hstep
    obtain ⟨r, hlock, rfl⟩ := hstep
    unfold thrLock at hlock
    simp only [Guarded] at hguard
    split at hlock
    case isTrue hread =>
      cases hlock
      rw [if_pos (show IsRead d.type from hread)] at hguard
      exact hs.lockRead hread hguard
    case isFalse hread =>
      rw [if_neg (show ¬IsRead d.type from hread)] at hguard
      exact hs.lockWrite hread hguard hlock
  | unlock d =>
    simp only [ThrLock.step, ite_none_right_eq_some, some.injEq] at hstep
    obtain ⟨hd, rfl⟩ := hstep
    exact (hs.remove hd).wakeUpWaiters
  | giveUp d =>
    simp only [ThrLock.step, ite_none_right_eq_some, some.injEq] at hstep
    obtain ⟨-, rfl⟩ := hstep
    refine Compatible.wakeUpWaiters ⟨hs.held, fun r hr => ?_, fun w hw => ?_⟩
    · exact hs.readWait r (mem_of_mem_erase hr)
    · exact hs.writeWait w (mem_of_mem_erase hw)
  | abortLocks =>
    cases hstep
    exact ⟨hs.held, forall_mem_nil _, forall_mem_nil _⟩
  | abortLocksForThread owner =>
    cases hstep
    refine Compatible.wakeUpWaiters ⟨hs.held, fun r hr => ?_, fun w hw => ?_⟩
    · exact hs.readWait r (mem_of_mem_filter hr)
    · exact hs.writeWait w (mem_of_mem_filter hw)

lemma compatible_init : Compatible setup init := by
  constructor
  case held => constructor <;> simp [init]
  case readWait => simp [init]
  case writeWait => simp [init]

lemma Reachable.compatible (hs : Reachable setup (Guarded setup) s) : Compatible setup s := by
  induction hs with
  | init => exact compatible_init
  | step checkStatus _ hguard hstep ih => exact ih.step hguard hstep

end ThrLock

open ThrLock

variable {s : ThrLock}

/-- Of two owners: one that has an exclusive lock excludes the other one; write locks of both are all
`TL_WRITE_ALLOW_WRITE`, or all concurrent inserts where several are allowed; and one does not insert
concurrently while the other one has `TL_READ_NO_INSERT`, whose locks are counted. -/
theorem table_locks_compatible (hs : Reachable setup (Guarded setup) s) :
    (∀ ownerA ownerB, ownerA ≠ ownerB ->
      ((∃ a ∈ s.write, a.owner = ownerA ∧
          ThrLockType.writeLowPriority.rank ≤ a.type.rank) ->
        ∀ b ∈ s.read ++ s.write, b.owner ≠ ownerB) ∧
      ((∃ a ∈ s.write, a.owner = ownerA) -> (∃ b ∈ s.write, b.owner = ownerB) ->
        (∀ d ∈ s.write, d.owner = ownerA ∨ d.owner = ownerB -> d.type = .writeAllowWrite) ∨
        (setup.allowMultipleConcurrentInsert = true ∧
          ∀ d ∈ s.write, d.owner = ownerA ∨ d.owner = ownerB -> d.type = .writeConcurrentInsert)) ∧
      ((∃ b ∈ s.write, b.owner = ownerB ∧ b.type = .writeConcurrentInsert) ->
        ∀ a ∈ s.read, a.owner = ownerA -> a.type ≠ .readNoInsert)) ∧
    s.readNoWriteCount = s.read.countP fun r => r.type = .readNoInsert := by
  have hheld := hs.compatible.held
  refine ⟨fun ownerA ownerB hne => ⟨?_, ?_, ?_⟩, hheld.count⟩
  · rintro ⟨a, ha, rfl, hx⟩ b hb rfl
    rcases mem_append.mp hb with hb | hb
    · exact hne (hheld.exclusive a ha hx b hb).symm
    · exact (hheld.owners a ha b hb hne).1 hx
  · rintro ⟨a, ha, rfl⟩ ⟨b, hb, rfl⟩
    obtain ⟨hax, hallow⟩ := hheld.owners a ha b hb hne
    have hall : ∀ d ∈ s.write, d.owner = a.owner ∨ d.owner = b.owner -> d.type = a.type := by
      intro d hd hor
      have hdx : ¬Exclusive d.type := by
        by_cases hda : d.owner = a.owner
        · exact (hheld.owners d hd b hb (hda ▸ hne)).1
        · exact (hheld.owners d hd a ha hda).1
      exact hheld.shared d hd a ha hdx hax
    rcases shared_cases (hheld.isWrite a ha) hax with htype | htype
    · exact .inl fun d hd hor => (hall d hd hor).trans htype
    · exact .inr ⟨hallow htype, fun d hd hor => (hall d hd hor).trans htype⟩
  · rintro ⟨b, hb, rfl, hci⟩ a ha rfl hins
    exact hne (hheld.inserts b hb hci a ha hins)

lemma ThrLock.Reachable.run {cond : ThrLock -> ThrLockAction -> Prop} {s s' : ThrLock}
    {actions : List ThrLockAction} (hs : Reachable setup cond s) (hcond : ∀ s action, cond s action)
    (hrun : s.run setup actions = some s') : Reachable setup cond s' := by
  induction actions generalizing s with
  | nil =>
    cases hrun
    exact hs
  | cons action actions ih =>
    simp only [ThrLock.run, bind_eq_some] at hrun
    obtain ⟨next, hstep, hrun⟩ := hrun
    exact ih (hs.step _ (hcond s action) hstep) hrun

/-- A table on which several owners can insert concurrently. -/
def concurrentInserts : ThrLockSetup := ⟨true, true, false, 10⟩

/-- Two owners insert concurrently beside a reader, and another one waits for `TL_READ_NO_INSERT`. -/
def twoInserters : ThrLock :=
  ⟨[⟨3, 3, .readNoInsert⟩], [⟨2, 2, .read⟩], [],
    [⟨0, 0, .writeConcurrentInsert⟩, ⟨1, 1, .writeConcurrentInsert⟩], 0, 0⟩

theorem table_locks_compatible_inserters :
    Reachable concurrentInserts (Guarded concurrentInserts) twoInserters ∧
    ((∀ d ∈ twoInserters.write, d.owner = 0 ∨ d.owner = 1 -> d.type = .writeAllowWrite) ∨
      (concurrentInserts.allowMultipleConcurrentInsert = true ∧
        ∀ d ∈ twoInserters.write, d.owner = 0 ∨ d.owner = 1 -> d.type = .writeConcurrentInsert)) ∧
    ∀ a ∈ twoInserters.read, a.owner = 2 -> a.type ≠ .readNoInsert := by
  have hfirst : Reachable concurrentInserts (Guarded concurrentInserts) _ :=
    @Reachable.step _ _ _ _ (.lock ⟨0, 0, .writeConcurrentInsert⟩) (fun _ => false) .init
      (by unfold Guarded; decide) rfl
  have hsecond := @Reachable.step _ _ _ _ (.lock ⟨1, 1, .writeConcurrentInsert⟩) (fun _ => false)
    hfirst (by unfold Guarded; decide) rfl
  have hreader := @Reachable.step _ _ _ _ (.lock ⟨2, 2, .read⟩) (fun _ => false) hsecond
    (by unfold Guarded; decide) rfl
  have hreach : Reachable concurrentInserts (Guarded concurrentInserts) twoInserters :=
    @Reachable.step _ _ _ _ (.lock ⟨3, 3, .readNoInsert⟩) (fun _ => false) hreader
      (by unfold Guarded; decide) rfl
  have hall := (table_locks_compatible hreach).1
  exact ⟨hreach, (hall 0 1 (by decide)).2.1 (by decide) (by decide),
    (hall 2 0 (by decide)).2.2 (by decide)⟩

/-- Two owners insert concurrently, and the first of them is given `TL_READ_NO_INSERT`. -/
theorem readNoInsert_beside_insert : ∃ s : ThrLock,
    Reachable concurrentInserts (fun _ _ => True) s ∧
    ⟨1, 1, .writeConcurrentInsert⟩ ∈ s.write ∧ ⟨2, 0, .readNoInsert⟩ ∈ s.read := by
  have hrun : ThrLock.init.run concurrentInserts [.lock ⟨0, 0, .writeConcurrentInsert⟩,
    .lock ⟨1, 1, .writeConcurrentInsert⟩, .lock ⟨2, 0, .readNoInsert⟩] = some _ := rfl
  refine ⟨_, Reachable.run .init (fun _ _ => trivial) hrun, ?_, ?_⟩
  · decide
  · decide

end Mysys

