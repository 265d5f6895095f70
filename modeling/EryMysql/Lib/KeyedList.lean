import Mathlib.Data.List.Nodup
import Mathlib.Data.List.Perm.Basic

/-!
# Lists of records with unique keys

A hash table seen from outside: its records in some order, each with a key of its
own. The order is the table's business and may change with every insertion, so
everything here is invariant under rearrangement.
-/

namespace KeyedList

open List

variable {α κ : Type*} [DecidableEq κ] (key : α -> κ)

def lookup (l : List α) (k : κ) : Option α := l.find? (fun a => key a = k)

def replace (l : List α) (a : α) : List α := l.map fun b => if key b = key a then a else b

def Unique (l : List α) : Prop := (l.map key).Nodup

/-- A table inserts a record somewhere, and may move the others. -/
structure Order where
  insert : {α : Type} -> {κ : Type} -> (α -> κ) -> List α -> α -> List α
  perm : ∀ {α κ : Type} (key : α -> κ) (l : List α) (a : α), (insert key l a).Perm (a :: l)

def Order.append : Order where
  insert := fun _ l a => l ++ [a]
  perm := fun _ l a => perm_append_singleton a l

section
variable {key} {l m : List α} {a : α} {k : κ}

lemma lookup_cons : lookup key (a :: l) k = if key a = k then some a else lookup key l k := by
  by_cases h : key a = k
  iterate 2 simp [lookup, h]

lemma key_eq_of_lookup (h : lookup key l k = some a) : key a = k := by
  simpa using find?_some h

lemma mem_of_lookup (h : lookup key l k = some a) : a ∈ l := mem_of_find?_eq_some h

lemma lookup_eq_none_iff : lookup key l k = none ↔ ∀ b ∈ l, key b ≠ k := by
  simp [lookup]

lemma Unique.lookup_mem (h : Unique key l) (ha : a ∈ l) : lookup key l (key a) = some a := by
  induction l with
  | nil => simp at ha
  | cons b l ih =>
    obtain ⟨hb, hl⟩ := nodup_cons.mp h
    rw [lookup_cons]
    rcases mem_cons.mp ha with rfl | ha
    · simp
    · have hne : key b ≠ key a := fun hba => hb (hba ▸ mem_map_of_mem ha)
      rw [if_neg hne, ih hl ha]

omit [DecidableEq κ] in
lemma Unique.perm (h : Unique key l) (hp : l.Perm m) : Unique key m := (hp.map key).nodup_iff.mp h

lemma Unique.lookup_perm (h : Unique key l) (hp : l.Perm m) (k : κ) :
    lookup key m k = lookup key l k := by
  cases hl : lookup key l k with
  | none =>
    rw [lookup_eq_none_iff] at hl ⊢
    exact fun b hb => hl b (hp.mem_iff.mpr hb)
  | some a =>
    have hkey := key_eq_of_lookup hl
    rw [← hkey]
    exact (h.perm hp).lookup_mem (hp.mem_iff.mp (mem_of_lookup hl))

lemma lookup_append (l m : List α) (k : κ) :
    lookup key (l ++ m) k = (lookup key l k).or (lookup key m k) :=
  find?_append

lemma Unique.filter_key (h : Unique key l) (ha : lookup key l k = some a) :
    l.filter (fun b => key b = k) = [a] := by
  induction l with
  | nil => cases ha
  | cons b l ih =>
    obtain ⟨hb, hl⟩ := nodup_cons.mp h
    rw [lookup_cons] at ha
    by_cases hbk : key b = k
    · rw [if_pos hbk, Option.some.injEq] at ha
      have hrest : l.filter (fun b => key b = k) = [] := by
        rw [filter_eq_nil_iff]
        intro c hc hck
        exact hb (mem_map.mpr ⟨c, hc, (of_decide_eq_true hck).trans hbk.symm⟩)
      rw [filter_cons_of_pos (by simpa using hbk), hrest, ha]
    · rw [if_neg hbk] at ha
      rw [filter_cons_of_neg (by simpa using hbk), ih hl ha]

lemma Unique.cons (h : Unique key l) (ha : lookup key l (key a) = none) : Unique key (a :: l) := by
  refine nodup_cons.mpr ⟨?_, h⟩
  rw [lookup_eq_none_iff] at ha
  rw [mem_map]
  rintro ⟨b, hb, hkey⟩
  exact ha b hb hkey

lemma map_replace (l : List α) (a : α) : (replace key l a).map key = l.map key := by
  rw [replace, map_map]
  apply map_congr_left
  intro b _
  by_cases hb : key b = key a
  · simp [hb]
  · simp [hb]

lemma Unique.replace (h : Unique key l) (a : α) : Unique key (replace key l a) := by
  rw [Unique, map_replace]
  exact h

lemma lookup_replace (l : List α) (a : α) (k : κ) : lookup key (replace key l a) k =
      if key a = k then (lookup key l k).map fun _ => a else lookup key l k := by
  induction l with
  | nil => simp [lookup, replace]
  | cons b l ih =>
    have hcons : replace key (b :: l) a = (if key b = key a then a else b) :: replace key l a := rfl
    rw [hcons, lookup_cons, lookup_cons, ih]
    by_cases hba : key b = key a
    · by_cases hak : key a = k
      · simp [hba, hak]
      · simp [hba, hak]
    · by_cases hak : key a = k
      · have hbk : key b ≠ k := fun h => hba (h.trans hak.symm)
        simp [hak, hbk]
      · simp [hba, hak]

lemma lookup_replace_of_some {b : α} (hl : lookup key l k = some b) (hk : key a = k) (k' : κ) :
    lookup key (KeyedList.replace key l a) k' = if k = k' then some a else lookup key l k' := by
  rw [lookup_replace, hk]
  split
  · rename_i hkk
    rw [← hkk, hl]
    rfl
  · rfl

lemma mem_replace {b : α} (h : b ∈ replace key l a) : b = a ∨ b ∈ l := by
  obtain ⟨c, hc, rfl⟩ := mem_map.mp h
  by_cases hca : key c = key a
  · simp [hca]
  · simp [hca, hc]

end

section
variable {α κ : Type} [DecidableEq κ] {key : α -> κ} {l : List α} {a : α} (o : Order)

lemma Unique.insert (h : Unique key l) (ha : lookup key l (key a) = none) :
    Unique key (o.insert key l a) :=
  (h.cons ha).perm (o.perm key l a).symm

lemma Unique.lookup_insert (h : Unique key l) (ha : lookup key l (key a) = none) (k : κ) :
    lookup key (o.insert key l a) k = if key a = k then some a else lookup key l k := by
  rw [(h.cons ha).lookup_perm (o.perm key l a).symm, lookup_cons]

omit [DecidableEq κ] in
lemma mem_insert {b : α} : b ∈ o.insert key l a ↔ b = a ∨ b ∈ l := by
  rw [(o.perm key l a).mem_iff, mem_cons]

end

end KeyedList
