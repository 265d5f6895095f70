import Mathlib.Data.Finset.Basic

/-!
# Chains in an array

The entries of an array are linked into chains by the positions of their successors. Every
entry has a home, and the entries of one home form a chain that starts at the home, so an
entry that is not in its home may stand in the home of others as long as these have no
entries. The order of a chain does not matter, only that it visits each of its entries.

The changes of such an array are all of one kind: a few chains are laid anew, and the entries
of the other chains stay.
-/

namespace Chains

open Function Finset

structure Link (α : Type*) where
  next : Option Nat
  data : α
  deriving DecidableEq, Repr

variable {α : Type*} {d d' : Nat -> Link α} {s e m : Option Nat} {l l' : List Nat} {p q : Nat}

/-- From the pointer `s` the entries `l` are visited one after the other, up to the pointer
`e`. -/
def Seg (d : Nat -> Link α) : Option Nat -> List Nat -> Option Nat -> Prop
  | s, [], e => s = e
  | s, p :: l, e => s = some p ∧ Seg d (d p).next l e

def setNext (d : Nat -> Link α) (p : Nat) (next : Option Nat) : Nat -> Link α :=
  update d p { d p with next }

lemma setNext_of_ne {d : Nat -> Link α} {v : Option Nat} (h : q ≠ p) :
    setNext d p v q = d q := update_of_ne h _ _

lemma setNext_self (d : Nat -> Link α) (p : Nat) (v : Option Nat) :
    setNext d p v p = ⟨v, (d p).data⟩ := update_self _ _ _

lemma data_setNext (d : Nat -> Link α) (p : Nat) (v : Option Nat) (q : Nat) :
    (setNext d p v q).data = (d q).data := by
  by_cases h : q = p
  · rw [h, setNext_self]
  · rw [setNext_of_ne h]

@[simp] lemma seg_nil : Seg d s [] e ↔ s = e := Iff.rfl

@[simp] lemma seg_cons : Seg d s (p :: l) e ↔ s = some p ∧ Seg d (d p).next l e := Iff.rfl

lemma seg_append (l₁ l₂ : List Nat) :
    Seg d s (l₁ ++ l₂) e ↔ ∃ m, Seg d s l₁ m ∧ Seg d m l₂ e := by
  induction l₁ generalizing s with
  | nil => simp
  | cons p l₁ ih => simp [ih, and_assoc]

lemma seg_concat (l : List Nat) (p : Nat) :
    Seg d s (l ++ [p]) e ↔ Seg d s l (some p) ∧ (d p).next = e := by
  rw [seg_append]
  constructor
  · rintro ⟨m, hl, rfl, he⟩
    exact ⟨hl, he⟩
  · rintro ⟨hl, he⟩
    exact ⟨some p, hl, rfl, he⟩

lemma Seg.frame (h : Seg d s l e) (hd : ∀ p ∈ l, (d' p).next = (d p).next) : Seg d' s l e := by
  induction l generalizing s with
  | nil => exact h
  | cons p l ih =>
    obtain ⟨hs, hl⟩ := h
    refine ⟨hs, ?_⟩
    rw [hd p List.mem_cons_self]
    exact ih hl fun q hq => hd q (List.mem_cons_of_mem p hq)

lemma Seg.eq_head? (h : Seg d s l none) : s = l.head? := by
  cases l with
  | nil => exact h
  | cons p l => exact h.1

lemma Seg.unique (h : Seg d s l none) (h' : Seg d s l' none) : l = l' := by
  induction l generalizing s l' with
  | nil =>
    cases l' with
    | nil => rfl
    | cons p l' => cases h.symm.trans h'.1
  | cons p l ih =>
    cases l' with
    | nil => cases h.1.symm.trans h'
    | cons p' l' =>
      cases h.1.symm.trans h'.1
      rw [ih h.2 h'.2]

lemma Seg.nodup (h : Seg d s l none) : l.Nodup := by
  induction l generalizing s with
  | nil => exact List.nodup_nil
  | cons p l ih =>
    refine List.nodup_cons.mpr ⟨fun hp => ?_, ih h.2⟩
    obtain ⟨l₁, l₂, rfl⟩ := List.append_of_mem hp
    obtain ⟨m, -, hm, hl2⟩ := (seg_append l₁ (p :: l₂)).mp h.2
    have heq := h.2.unique hl2
    have hlen := congrArg List.length heq
    rw [List.length_append, List.length_cons] at hlen
    omega

lemma Seg.split (h : Seg d s l e) (hp : p ∈ l) : ∃ l₁ l₂, l = l₁ ++ p :: l₂ ∧
    Seg d s l₁ (some p) ∧ Seg d (d p).next l₂ e := by
  obtain ⟨l₁, l₂, rfl⟩ := List.append_of_mem hp
  obtain ⟨m, hl1, rfl, hl2⟩ := (seg_append l₁ (p :: l₂)).mp h
  exact ⟨l₁, l₂, rfl, hl1, hl2⟩

lemma Seg.setLast (h : Seg d s (l ++ [p]) e) (hp : p ∉ l) (e' : Option Nat) :
    Seg (setNext d p e') s (l ++ [p]) e' := by
  obtain ⟨hl, -⟩ := (seg_concat l p).mp h
  refine (seg_concat l p).mpr ⟨hl.frame fun q hq => ?_, ?_⟩
  · have hqp : q ≠ p := fun heq => hp (heq ▸ hq)
    rw [setNext_of_ne hqp]
  · rw [setNext_self]

@[elab_as_elim] lemma Seg.walk {motive : Nat -> Nat -> List Nat -> Prop}
    (last : ∀ fuel q, (d q).next = none -> motive (fuel + 1) q [q])
    (more : ∀ fuel q next l, (d q).next = some next -> motive fuel next l ->
      motive (fuel + 1) q (q :: l))
    {fuel : Nat} (h : Seg d (some p) l none) (hfuel : l.length ≤ fuel) : motive fuel p l := by
  induction l generalizing p fuel with
  | nil => cases h
  | cons q l ih =>
    obtain ⟨hq, hl⟩ := h
    cases hq
    obtain ⟨fuel, rfl⟩ : ∃ f, fuel = f + 1 := ⟨fuel - 1, by simp at hfuel; omega⟩
    cases hnext : (d q).next with
    | none =>
      rw [hnext] at hl
      cases l with
      | nil => exact last fuel q hnext
      | cons x l => cases hl.1
    | some next =>
      rw [hnext] at hl
      exact more fuel q next l hnext (ih hl (by simpa using hfuel))

lemma Seg.find_before {P : Nat -> Prop} [DecidablePred P]
    {find : Nat -> Option Nat -> Nat -> Option (Option (Option Nat × Nat))}
    (hfind : ∀ fuel g p, find (fuel + 1) g p = if P p then some (some (g, p))
      else match (d p).next with
        | none => some none
        | some next => find fuel (some p) next)
    (g : Option Nat) {fuel : Nat} (h : Seg d (some p) l none) (hfuel : l.length ≤ fuel) :
    (find fuel g p = some none ∧ ∀ q ∈ l, ¬ P q) ∨
    ∃ l₁ q l₂, l = l₁ ++ q :: l₂ ∧ P q ∧ find fuel g p = some (some (l₁.getLast?.or g, q)) := by
  revert g
  refine Seg.walk (fun fuel q hnext g => ?_) (fun fuel q next l hnext ih g => ?_) h hfuel
  · rw [hfind, hnext]
    by_cases hq : P q
    · exact .inr ⟨[], q, [], rfl, hq, if_pos hq⟩
    · exact .inl ⟨if_neg hq, by simpa using hq⟩
  · rw [hfind, hnext]
    by_cases hq : P q
    · exact .inr ⟨[], q, l, rfl, hq, if_pos hq⟩
    · rw [if_neg hq]
      rcases ih (some q) with ⟨heq, hnot⟩ | ⟨l₁, x, l₂, rfl, hx, heq⟩
      · exact .inl ⟨heq, by simpa [hq] using hnot⟩
      · refine .inr ⟨q :: l₁, x, l₂, rfl, hx, heq.trans ?_⟩
        rw [List.getLast?_cons]
        cases l₁.getLast? <;> rfl

/-- Walk from `i` to the entry whose successor is `find`, and change the successor. -/
def relink (d : Nat -> Link α) (find newlink : Option Nat) : Nat -> Nat -> Option (Nat -> Link α)
  | 0, _ => none
  | fuel + 1, i =>
    if (d i).next = find then some (setNext d i newlink)
    else (d i).next.bind (relink d find newlink fuel)

lemma relink_eq {find : Option Nat} (newlink : Option Nat) {i fuel : Nat}
    (h : Seg d (some i) (l ++ [q]) find) (hfind : ∀ r ∈ l ++ [q], find ≠ some r)
    (hfuel : l.length < fuel) : relink d find newlink fuel i = some (setNext d q newlink) := by
  induction l generalizing i fuel with
  | nil =>
    obtain ⟨hi, hq⟩ := h
    cases hi
    obtain ⟨fuel, rfl⟩ : ∃ k, fuel = k + 1 := ⟨fuel - 1, by omega⟩
    rw [relink, if_pos (seg_nil.mp hq)]
  | cons p l ih =>
    obtain ⟨hi, hl⟩ := h
    cases hi
    obtain ⟨fuel, rfl⟩ : ∃ k, fuel = k + 1 := ⟨fuel - 1, by omega⟩
    obtain ⟨j, hj, hnext⟩ : ∃ j ∈ l ++ [q], (d p).next = some j := by
      cases l with
      | nil => exact ⟨q, List.mem_singleton_self q, hl.1⟩
      | cons j l => exact ⟨j, List.mem_cons_self, hl.1⟩
    have hmem : ∀ r ∈ l ++ [q], find ≠ some r := fun r hr => hfind r (List.mem_cons_of_mem p hr)
    rw [relink, if_neg fun heq => hmem j hj (heq.symm.trans hnext), hnext]
    rw [hnext] at hl
    refine ih hl hmem ?_
    rw [List.length_cons] at hfuel
    omega

/-- The entries at the positions `S` are laid out in the chains `C`, one for each home. -/
structure Laid (d : Nat -> Link α) (home : α -> Nat) (S : Finset Nat) (C : Nat -> List Nat) :
    Prop where
  linked : ∀ k, C k ≠ [] -> Seg d (some k) (C k) none
  mem : ∀ k p, p ∈ C k ↔ p ∈ S ∧ home (d p).data = k

def contents (d : Nat -> Link α) (S : Finset Nat) : Multiset α := S.val.map fun p => (d p).data

section Laid
variable {home home' : α -> Nat} {S S' : Finset Nat} {C C' : Nat -> List Nat} {k : Nat}

section
variable (h : Laid d home S C) {l₁ l₂ : List Nat}
include h

/-- Lay the chains of some homes anew. The entries of the other homes stay. -/
lemma Laid.change (K : Nat -> Prop) (hkeep : ∀ k, ¬ K k -> C' k = C k)
    (hframe : ∀ p ∈ S, ¬ K (home (d p).data) ->
      p ∈ S' ∧ d' p = d p ∧ home' (d p).data = home (d p).data)
    (hnew : ∀ p ∈ S', (p ∈ S ∧ ¬ K (home (d p).data)) ∨ ∃ k, K k ∧ p ∈ C' k)
    (hC' : ∀ k, K k -> ∀ p ∈ C' k, p ∈ S' ∧ home' (d' p).data = k)
    (hlinked : ∀ k, K k -> C' k ≠ [] -> Seg d' (some k) (C' k) none) : Laid d' home' S' C' := by
  have hstay : ∀ p ∈ S, ¬ K (home (d p).data) -> home' (d' p).data = home (d p).data := by
    intro p hp hK
    obtain ⟨-, hd, hh⟩ := hframe p hp hK
    rw [hd, hh]
  constructor
  · intro k hne
    by_cases hK : K k
    · exact hlinked k hK hne
    · rw [hkeep k hK] at hne ⊢
      refine (h.linked k hne).frame fun p hp => ?_
      obtain ⟨hpS, rfl⟩ := (h.mem k p).mp hp
      rw [(hframe p hpS hK).2.1]
  · intro k p
    constructor
    · intro hp
      by_cases hK : K k
      · exact hC' k hK p hp
      · rw [hkeep k hK] at hp
        obtain ⟨hpS, rfl⟩ := (h.mem k p).mp hp
        exact ⟨(hframe p hpS hK).1, hstay p hpS hK⟩
    · rintro ⟨hpS', rfl⟩
      rcases hnew p hpS' with ⟨hpS, hK⟩ | ⟨k, hK, hp⟩
      · rw [hstay p hpS hK, hkeep _ hK]
        exact (h.mem _ p).mpr ⟨hpS, rfl⟩
      · rw [(hC' k hK p hp).2]
        exact hp

lemma Laid.relay (k : Nat) {l : List Nat} (hS : ∀ p, p ∈ S' ↔ (p ∈ S ∧ p ∉ C k) ∨ p ∈ l)
    (hframe : ∀ p ∈ S, p ∉ C k -> d' p = d p) (hl : ∀ p ∈ l, home (d' p).data = k)
    (hlinked : l ≠ [] -> Seg d' (some k) l none) : Laid d' home S' (update C k l) := by
  have hother : ∀ p ∈ S, home (d p).data ≠ k -> p ∉ C k := fun p _ hk hp => hk ((h.mem k p).mp hp).2
  refine h.change (· = k) (fun j hj => update_of_ne hj _ _) ?_ ?_ ?_ ?_
  · intro p hp hk
    have hpk := hother p hp hk
    exact ⟨(hS p).mpr (.inl ⟨hp, hpk⟩), hframe p hp hpk, rfl⟩
  · intro p hp
    rcases (hS p).mp hp with ⟨hp, hpk⟩ | hpl
    · exact .inl ⟨hp, fun hk => hpk ((h.mem k p).mpr ⟨hp, hk⟩)⟩
    · refine .inr ⟨k, rfl, ?_⟩
      rw [update_self]
      exact hpl
  · rintro _ rfl p hp
    rw [update_self] at hp
    exact ⟨(hS p).mpr (.inr hp), hl p hp⟩
  · rintro _ rfl
    rw [update_self]
    exact hlinked

lemma Laid.mem_S (hp : p ∈ C k) : p ∈ S := ((h.mem k p).mp hp).1

lemma Laid.seg (k : Nat) : ∃ s, Seg d s (C k) none := by
  by_cases hne : C k = []
  · exact ⟨none, hne ▸ seg_nil.mpr rfl⟩
  · exact ⟨some k, h.linked k hne⟩

lemma Laid.nodup (k : Nat) : (C k).Nodup := by
  obtain ⟨s, hs⟩ := h.seg k
  exact hs.nodup

lemma Laid.home_mem (hp : p ∈ S) :
    home (d p).data ∈ S ∧ home (d (home (d p).data)).data = home (d p).data := by
  have hmem := (h.mem _ p).mpr ⟨hp, rfl⟩
  have hlinked := h.linked _ (List.ne_nil_of_mem hmem)
  refine (h.mem _ _).mp ?_
  cases hC : C (home (d p).data) with
  | nil =>
    rw [hC] at hmem
    cases hmem
  | cons q l =>
    rw [hC] at hlinked
    cases hlinked.1
    exact List.mem_cons_self

lemma Laid.nil_of_not_home (hk : k ∈ S -> home (d k).data ≠ k) : C k = [] := by
  rw [List.eq_nil_iff_forall_not_mem]
  intro p hp
  obtain ⟨hpS, rfl⟩ := (h.mem k p).mp hp
  obtain ⟨hin, heq⟩ := h.home_mem hpS
  exact hk hin heq

lemma Laid.chain (hC : C k = l) (hne : l ≠ []) :
    (∀ p, p ∈ l ↔ p ∈ S ∧ home (d p).data = k) ∧ l.Nodup ∧ Seg d (some k) l none := by
  subst hC
  exact ⟨h.mem k, h.nodup k, h.linked k hne⟩

lemma Laid.congr (hd : ∀ p ∈ S, d' p = d p) (hhome : ∀ p ∈ S, home' (d p).data = home (d p).data) :
    Laid d' home' S C := by
  refine h.change (fun _ => False) (fun _ _ => rfl) (fun p hp _ => ⟨hp, hd p hp, hhome p hp⟩)
    (fun p hp => .inl ⟨hp, not_false⟩) ?_ ?_
  iterate 2 exact fun _ hK => hK.elim

lemma Laid.unlink {g : Nat} (hC : C k = l₁ ++ g :: p :: l₂)
    (hg : d' g = ⟨(d p).next, (d g).data⟩) (hd : ∀ r ∈ S, r ≠ g -> r ≠ p -> d' r = d r) :
    Laid d' home (S.erase p) (update C k (l₁ ++ g :: l₂)) := by
  obtain ⟨hmem, hnodup, hlinked⟩ := h.chain hC (by simp)
  refine h.relay k (by grind) (by grind) (by grind) fun _ => ?_
  obtain ⟨m, hl1, rfl, -, hl2⟩ := (seg_append l₁ (g :: p :: l₂)).mp hlinked
  refine (seg_append l₁ (g :: l₂)).mpr ⟨some g, hl1.frame (by grind), rfl, ?_⟩
  rw [hg]
  exact hl2.frame (by grind)

/-- The first entry of a chain is taken out, and the second one moves to its place. -/
lemma Laid.pull (hC : C k = k :: q :: l) (hk : d' k = d q)
    (hd : ∀ r ∈ S, r ≠ k -> r ≠ q -> d' r = d r) :
    Laid d' home (S.erase q) (update C k (k :: l)) := by
  obtain ⟨hmem, hnodup, hlinked⟩ := h.chain hC (by simp)
  refine h.relay k (by grind) (by grind) (by grind) fun _ => ?_
  obtain ⟨-, -, hl⟩ := hlinked
  refine ⟨rfl, ?_⟩
  rw [hk]
  exact hl.frame (by grind)

lemma Laid.clear (hC : C k = [k]) : Laid d home (S.erase k) (update C k []) := by
  exact h.relay k (by grind) (fun _ _ _ => rfl) (by simp) fun hne => absurd rfl hne

lemma Laid.move {g e : Nat} (hC : C k = l₁ ++ g :: p :: l₂) (he : e ∉ S)
    (hde : d' e = d p) (hg : d' g = ⟨some e, (d g).data⟩)
    (hd : ∀ r ∈ S, r ≠ g -> r ≠ p -> d' r = d r) :
    Laid d' home (insert e (S.erase p)) (update C k (l₁ ++ g :: e :: l₂)) := by
  obtain ⟨hmem, hnodup, hlinked⟩ := h.chain hC (by simp)
  refine h.relay k (by grind) (by grind) (by grind) fun _ => ?_
  obtain ⟨m, hl1, rfl, -, hl2⟩ := (seg_append l₁ (g :: p :: l₂)).mp hlinked
  refine (seg_append l₁ (g :: e :: l₂)).mpr ⟨some g, hl1.frame (by grind), rfl, ?_, ?_⟩
  · rw [hg]
  · rw [hde]
    exact hl2.frame (by grind)

lemma Laid.single (hk : k ∉ S) (hdk : (d' k).next = none) (hhome : home (d' k).data = k)
    (hd : ∀ r ∈ S, d' r = d r) : Laid d' home (insert k S) (update C k [k]) := by
  have hC : C k = [] := h.nil_of_not_home fun hin => absurd hin hk
  refine h.relay k (by grind) (by grind) (by grind) fun _ => ⟨rfl, ?_⟩
  exact hdk

lemma Laid.second {e : Nat} (hC : C k = k :: l) (hdk : (d' k).next = some e)
    (hde : (d' e).next = (d k).next) (hhome : home (d' k).data = k ∧ home (d' e).data = k)
    (hd : ∀ r ∈ S, r ≠ k -> d' r = d r) : Laid d' home (insert e S) (update C k (k :: e :: l)) := by
  obtain ⟨hmem, hnodup, hlinked⟩ := h.chain hC (by simp)
  refine h.relay k (by grind) (by grind) (by grind) fun _ => ?_
  obtain ⟨-, hl⟩ := hlinked
  refine ⟨rfl, hdk, ?_⟩
  rw [hde]
  exact hl.frame (by grind)

lemma Laid.rehome {e : Nat} (hC : C k = k :: l) (he : e ∉ S) (hde : d' e = d k)
    (hd : ∀ r ∈ S, r ≠ k -> d' r = d r)
    (hhome : ∀ r ∈ S, home' (d r).data = if home (d r).data = k then e else home (d r).data) :
    Laid d' home' (insert e (S.erase k)) (update (update C k []) e (e :: l)) := by
  have hCe : C e = [] := h.nil_of_not_home fun hin => absurd hin he
  have hmemE := h.mem e
  obtain ⟨hmem, hnodup, hlinked⟩ := h.chain hC (by simp)
  have hek : e ≠ k := fun heq => he (heq ▸ ((hmem k).mp List.mem_cons_self).1)
  refine h.change (fun j => j = k ∨ j = e) ?_ ?_ ?_ ?_ ?_
  iterate 4 grind
  · rintro j (rfl | rfl) hne
    · exact absurd (by rw [update_of_ne hek.symm, update_self]) hne
    · rw [update_self]
      refine ⟨rfl, ?_⟩
      rw [hde]
      exact hlinked.2.frame (by grind)

/-- Two homes become one. The entry in the home `m` that is given up moves to `e`, behind the
entry in the home `k` that is kept; what `k` leads to comes behind `l₁`. Of the entries of `m`
the one in `k` may be one. -/
lemma Laid.merge {m e : Nat} {l₁ l₂ l0 : List Nat} {x : Option Nat}
    (hmem : ∀ p, p ∈ C m ∨ p ∈ C k ↔ p = m ∨ p = k ∨ p ∈ l₁ ∨ p ∈ l₂)
    (hnodup : (m :: k :: (l₁ ++ l₂)).Nodup) (hl1 : Seg d (d m).next l₁ x)
    (hl2 : Seg d (d k).next l₂ none) (he : e ∉ S) (hlast : e :: l₁ = l0 ++ [q])
    (hd : d' = setNext (setNext (update d e (d m)) q (d k).next) k (some e))
    (hhome : ∀ r ∈ S, home' (d r).data = if home (d r).data = m then k else home (d r).data) :
    Laid d' home' (insert e (S.erase m))
      (update (update C m []) k (k :: e :: (l₁ ++ l₂))) := by
  have hCm := h.mem m
  have hCk := h.mem k
  have hS : ∀ p, p = m ∨ p = k ∨ p ∈ l₁ ∨ p ∈ l₂ -> p ∈ S := by grind
  have hq : q ∈ e :: l₁ := by simp [hlast]
  have hkm : k ≠ m := by grind
  have hdata : ∀ p, (d' p).data = if p = e then (d m).data else (d p).data := by
    intro p
    rw [hd, data_setNext, data_setNext]
    grind
  have hother : ∀ p ∈ S, p ≠ k -> p ∉ l₁ -> d' p = d p := by
    intro p hp hpk hpl
    have hpe : p ≠ e := fun heq => he (heq ▸ hp)
    have hpq : p ≠ q := by grind
    rw [hd, setNext_of_ne hpk, setNext_of_ne hpq, update_of_ne hpe]
  have hseg : Seg d' (some k) (k :: e :: (l₁ ++ l₂)) none := by
    have hfirst : Seg (update d e (d m)) (some e) (e :: l₁) x := by
      refine ⟨rfl, ?_⟩
      rw [update_self]
      refine hl1.frame fun p hp => ?_
      have hpe : p ≠ e := fun heq => he (heq ▸ hS p (by simp [hp]))
      rw [update_of_ne hpe]
    rw [hlast] at hfirst
    have hnodup0 : (l0 ++ [q]).Nodup := by
      grind
    have hturn := hfirst.setLast (by grind) (d k).next
    refine ⟨rfl, ?_⟩
    rw [hd, setNext_self, ← List.cons_append, hlast]
    refine (seg_append _ _).mpr ⟨(d k).next, hturn.frame fun p hp => ?_, hl2.frame fun p hp => ?_⟩
    · have hpk : p ≠ k := by grind
      rw [setNext_of_ne hpk]
    · rw [← hd, hother p (hS p (by simp [hp])) (by grind) (by grind)]
  clear hd hl1 hl2 hlast hq
  refine h.change (fun j => j = m ∨ j = k) ?_ ?_ ?_ ?_ ?_
  · grind only [= update_apply]
  iterate 3 grind
  · rintro j (rfl | rfl) hne
    · exact absurd (by rw [update_of_ne hkm.symm, update_self]) hne
    · rw [update_self]
      exact hseg

lemma Laid.divide {n : Nat} {low high : List Nat} (hn : n ∉ S) (hkn : k ≠ n)
    (hS : ∀ p, p ∈ S' ↔ (p ∈ S ∧ p ∉ C k) ∨ p ∈ low ∨ p ∈ high)
    (hframe : ∀ p ∈ S, p ∉ C k -> d' p = d p ∧ home' (d p).data = home (d p).data)
    (hlow : (∀ p ∈ low, home' (d' p).data = k) ∧ (low ≠ [] -> Seg d' (some k) low none))
    (hhigh : (∀ p ∈ high, home' (d' p).data = n) ∧ (high ≠ [] -> Seg d' (some n) high none)) :
    Laid d' home' S' (update (update C k low) n high) := by
  have hCn : C n = [] := h.nil_of_not_home fun hin => absurd hin hn
  have hmemN := h.mem n
  have hmem := h.mem k
  refine h.change (fun j => j = k ∨ j = n) (by grind) (by grind) ?_ (by grind) ?_
  · intro p hp
    rcases (hS p).mp hp with ⟨hp, hpk⟩ | hpl | hph
    · exact .inl ⟨hp, by grind⟩
    · exact .inr ⟨k, .inl rfl, by grind⟩
    · exact .inr ⟨n, .inr rfl, by grind⟩
  · rintro j (rfl | rfl) hne
    · rw [update_of_ne hkn, update_self] at hne ⊢
      exact hlow.2 hne
    · rw [update_self] at hne ⊢
      exact hhigh.2 hne

end

end Laid

section Contents
variable {S : Finset Nat}

lemma contents_congr (hd : ∀ q ∈ S, (d' q).data = (d q).data) : contents d' S = contents d S :=
  Multiset.map_congr rfl hd

lemma contents_insert (hp : p ∉ S) : contents d (insert p S) = (d p).data ::ₘ contents d S := by
  rw [contents, insert_val_of_notMem hp, Multiset.map_cons, contents]

lemma contents_erase (hp : p ∈ S) : contents d S = (d p).data ::ₘ contents d (S.erase p) := by
  rw [← contents_insert (notMem_erase p S), insert_erase hp]

lemma contents_move (hp : p ∈ S) (hq : q ∉ S) (hdq : (d' q).data = (d p).data)
    (hd : ∀ r ∈ S.erase p, (d' r).data = (d r).data) :
    contents d' (insert q (S.erase p)) = contents d S := by
  rw [contents_insert fun h => hq (mem_of_mem_erase h), hdq, contents_congr hd, ← contents_erase hp]

lemma contents_split (hl : l.Nodup) (hsub : ∀ p ∈ l, p ∈ S) :
    contents d S = contents d (S.filter (· ∉ l)) + ↑(l.map fun p => (d p).data) := by
  induction l generalizing S with
  | nil => simp
  | cons p l ih =>
    obtain ⟨hpl, hl⟩ := List.nodup_cons.mp hl
    have hp := hsub p List.mem_cons_self
    have hrest : S.filter (· ∉ p :: l) = (S.erase p).filter (· ∉ l) := by
      ext r
      simp only [mem_filter, mem_erase, List.mem_cons]
      tauto
    have hsub' : ∀ r ∈ l, r ∈ S.erase p := fun r hr =>
      mem_erase.mpr ⟨fun heq => hpl (heq ▸ hr), hsub r (List.mem_cons_of_mem p hr)⟩
    rw [contents_erase hp, ih hl hsub', hrest, List.map_cons, ← Multiset.cons_coe,
      Multiset.add_cons]

end Contents

end Chains
