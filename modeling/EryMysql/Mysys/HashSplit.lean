import EryMysql.Mysys.HashInvariant

/-!
# Making room for a record

`my_hash_insert` divides a chain in place before it adds the record. The records that stay are
linked from the home of the chain on, those that go from the new position on; the first one
that goes is moved there, and what becomes free by this takes the first one that stays, if the
home was not free for it. A link is written only where two neighbours in a new chain were none
in the old one, or where a record was moved, and not before the next record of its kind is
known.
-/

namespace Mysys

open Chains Finset Function Hash SplitState
open List hiding map_cons mem_range mem_singleton_self range mem_filter

variable {α κ : Type} {a a' : Nat -> Link α} {start gpos pos n k : Nat} {found used : Bool} {ptr : α}
  {next next' : Option Nat} {l : List Nat} {recs : List α} {P R low high : List Nat}
  {d : Nat -> Link α} {st : SplitState α} {info : Hash α κ}

/-- One of the two new chains, as far as it is known. Its last entry is the record `ptr` for the
position `gpos`; it is written down only if it is `used`, and then with the link it had. -/
structure ChainSide (a : Nat -> Link α) (start : Nat) (found used : Bool) (gpos : Nat) (ptr : α)
    (next : Option Nat) (l : List Nat) (recs : List α) : Prop where
  absent : found = false -> l = [] ∧ recs = [] ∧ used = false
  present : found = true -> ∃ l₀, l = l₀ ++ [gpos] ∧ Seg a (some start) l₀ (some gpos) ∧
    recs = l₀.map (fun p => (a p).data) ++ [ptr]
  placed : used = true -> a gpos = ⟨next, ptr⟩

lemma ChainSide.pause (h : ChainSide a start found used gpos ptr next l recs)
    (ha : ∀ p ∈ l, a' p = a p) (next' : Option Nat) :
    ChainSide a' start found false gpos ptr next' l recs := by
  refine ⟨fun hf => ⟨(h.absent hf).1, (h.absent hf).2.1, rfl⟩, fun hf => ?_, nofun⟩
  obtain ⟨l₀, rfl, hseg, rfl⟩ := h.present hf
  refine ⟨l₀, rfl, hseg.frame fun p hp => ?_, ?_⟩
  · rw [ha p (mem_append_left _ hp)]
  · rw [append_cancel_right_eq]
    exact map_congr_left fun p hp => by rw [ha p (mem_append_left _ hp)]

lemma ChainSide.found_iff (h : ChainSide a start found used gpos ptr next l recs) :
    found = true ↔ recs ≠ [] := by
  cases found with
  | false => simp [(h.absent rfl).2.1]
  | true =>
    obtain ⟨l₀, -, -, rfl⟩ := h.present rfl
    simp

lemma ChainSide.gpos_mem (h : ChainSide a start true used gpos ptr next l recs) : gpos ∈ l := by
  obtain ⟨l₀, rfl, -⟩ := h.present rfl
  simp

/-- The first record of a kind goes to the position where its chain is to start. -/
lemma ChainSide.open (start : Nat) (ptr : α) (next : Option Nat) :
    ChainSide a start true false start ptr next [start] [ptr] :=
  ⟨nofun, fun _ => ⟨[], rfl, rfl, rfl⟩, nofun⟩

/-- The array after the link of the last record of a kind is set. -/
def relinked (a : Nat -> Link α) (used : Bool) (gpos : Nat) (ptr : α) (pos : Nat) : Nat -> Link α :=
  if used then a else Function.update a gpos ⟨some pos, ptr⟩

lemma relinked_of_ne (a : Nat -> Link α) (used : Bool) (ptr : α) (pos : Nat) {p : Nat}
    (hp : p ≠ gpos) : relinked a used gpos ptr pos p = a p := by
  rw [relinked]
  split
  · rfl
  · exact update_of_ne hp _ _

section
variable (h : ChainSide a start true used gpos ptr (some pos) l recs) (hl : l.Nodup)
  (hpos : pos ∉ l)
include h hl hpos

lemma ChainSide.extend : ChainSide (relinked a used gpos ptr pos) start true true pos (a pos).data
      (a pos).next (l ++ [pos]) (recs ++ [(a pos).data]) := by
  obtain ⟨l₀, rfl, hseg, rfl⟩ := h.present rfl
  have hgpos : relinked a used gpos ptr pos gpos = ⟨some pos, ptr⟩ := by
    cases used with
    | true => exact h.placed rfl
    | false => exact update_self _ _ _
  have hother : ∀ p, p ≠ gpos -> relinked a used gpos ptr pos p = a p :=
    fun p hp => relinked_of_ne _ _ _ _ hp
  have hl0 : ∀ p ∈ l₀, p ≠ gpos := by
    rintro p hp rfl
    exact (nodup_append.mp hl).2.2 p hp p (List.mem_singleton_self p) rfl
  refine ⟨nofun, fun _ => ⟨l₀ ++ [gpos], rfl, ?_, ?_⟩, fun _ => ?_⟩
  · refine (seg_concat l₀ gpos).mpr ⟨hseg.frame fun p hp => ?_, ?_⟩
    · rw [hother p (hl0 p hp)]
    · rw [hgpos]
  · rw [map_append, List.map_cons, map_nil, hgpos, append_cancel_right_eq, append_cancel_right_eq]
    exact map_congr_left fun p hp => by rw [hother p (hl0 p hp)]
  · exact hother pos fun heq => hpos (heq ▸ h.gpos_mem)

lemma ChainSide.relink {link : Link α} (hget : a pos = link) :
    ChainSide (relinked a used gpos ptr pos) start true true pos
        (relinked a used gpos ptr pos pos).data link.next (l ++ [pos]) (recs ++ [link.data]) ∧
      relinked a used gpos ptr pos pos = link ∧ ∀ p ∉ l, relinked a used gpos ptr pos p = a p := by
  subst hget
  have hother : ∀ p ∉ l, relinked a used gpos ptr pos p = a p :=
    fun p hp => relinked_of_ne _ _ _ _ fun heq => hp (heq ▸ h.gpos_mem)
  have hpos' := hother pos hpos
  exact ⟨hpos' ▸ h.extend hl hpos, hpos', hother⟩

end

/-- The records at the positions `P` are divided, those at the positions `R` are still to come.
The chain that stays is to be at the positions `low`, the one that goes at `high`. -/
structure Splitting (d : Nat -> Link α) (goes : Nat -> Bool) (k n : Nat) (P R : List Nat)
    (st : SplitState α) (low high : List Nat) : Prop where
  lowSide : ChainSide st.array k st.lowFind st.lowUsed st.gpos st.ptrToRec R.head? low
    ((P.filter fun p => !goes p).map fun p => (d p).data)
  highSide : ChainSide st.array n st.highFind st.highUsed st.gpos2 st.ptrToRec2 R.head? high
    ((P.filter goes).map fun p => (d p).data)
  excl : st.lowUsed = true -> st.highUsed = false
  frame : ∀ p, p ∉ P -> p ≠ n -> st.array p = d p
  nodup : (st.empty :: (low ++ high)).Nodup
  mem : ∀ p, p = st.empty ∨ p ∈ low ∨ p ∈ high ↔ p = n ∨ p ∈ P
  emptyLow : st.lowFind = false -> st.highFind = true -> st.empty = k
  emptyHigh : st.highFind = false -> st.empty = n
  fresh : st.lowFind = false -> st.highFind = false -> P = []

lemma turn_low_eq (st : SplitState α) (pos : Nat) (hfind : st.lowFind = true) :
    st.turn pos false = { st with
      array := relinked st.array st.lowUsed st.gpos st.ptrToRec pos
      lowUsed := true
      highUsed := st.lowUsed && st.highUsed
      gpos := pos
      ptrToRec := (relinked st.array st.lowUsed st.gpos st.ptrToRec pos pos).data } := by
  rw [turn]
  cases hused : st.lowUsed with
  | true => simp [hfind, hused, relinked]
  | false => simp [hfind, relinked]

lemma turn_high_eq (st : SplitState α) (pos : Nat) (hfind : st.highFind = true) :
    st.turn pos true = { st with
      array := relinked st.array st.highUsed st.gpos2 st.ptrToRec2 pos
      lowUsed := st.highUsed && st.lowUsed
      highUsed := true
      gpos2 := pos
      ptrToRec2 := (relinked st.array st.highUsed st.gpos2 st.ptrToRec2 pos pos).data } := by
  rw [turn]
  cases hused : st.highUsed with
  | true => simp [hfind, hused, relinked]
  | false => simp [hfind, relinked]

section Turn
variable {goes : Nat -> Bool}

lemma Splitting.new (h : Splitting d goes k n P R st low high) (hpos : pos ∉ P) (hn : pos ≠ n) :
    pos ≠ st.empty ∧ pos ∉ low ∧ pos ∉ high := by
  have := (h.mem pos).not.mpr (by simp [hpos, hn])
  simpa using this

lemma Splitting.frame_append (h : Splitting d goes k n P R st low high) :
    ∀ p, p ∉ P ++ [pos] -> p ≠ n -> st.array p = d p :=
  fun p hp hpn => h.frame p (fun h => hp (mem_append_left _ h)) hpn

variable (h : Splitting d goes k n P (pos :: R) st low high) (hpos : pos ∉ P) (hn : pos ≠ n)
  (hnext : (d pos).next = R.head?) (hfirst : P = [] -> pos = k)
include h hpos hn hnext hfirst

lemma Splitting.turn_low (hgoes : goes pos = false) :
    ∃ low', Splitting d goes k n (P ++ [pos]) R (st.turn pos false) low' high ∧
      (st.turn pos false).array pos = d pos := by
  have hget := h.frame pos hpos hn
  have hnew := h.new hpos hn
  have hlow : (P ++ [pos]).filter (fun p => !goes p) = P.filter (fun p => !goes p) ++ [pos] := by
    simp [hgoes]
  have hhigh : (P ++ [pos]).filter goes = P.filter goes := by simp [hgoes]
  have hnodup := h.nodup
  have hmem := h.mem
  cases hfind : st.lowFind with
  | false =>
    obtain ⟨rfl, hrecs, -⟩ := h.lowSide.absent hfind
    cases hhf : st.highFind with
    | true =>
      have hempty := h.emptyLow hfind hhf
      refine ⟨[k], ?_⟩
      rw [turn]
      simp only [hfind, hhf, Bool.not_false]
      refine ⟨⟨?_, ?_, nofun, h.frame_append, ?_, ?_, nofun, nofun, nofun⟩, hget⟩
      · rw [hlow, map_append, hrecs, hempty, hget]
        exact ChainSide.open k _ _
      · rw [hhigh]
        exact hhf ▸ h.highSide.pause (fun _ _ => rfl) _
      · grind
      · grind
    | false =>
      have hP := h.fresh hfind hhf
      have hempty := h.emptyHigh hhf
      obtain rfl := hfirst hP
      refine ⟨[pos], ?_⟩
      rw [turn]
      simp only [hfind, hhf, Bool.not_false, if_true, Bool.false_eq_true, if_false]
      refine ⟨⟨?_, ?_, fun _ => rfl, h.frame_append, ?_, ?_, nofun, fun _ => hempty, nofun⟩, hget⟩
      · rw [hlow, map_append, hrecs, hget]
        exact ⟨nofun, fun _ => ⟨[], rfl, rfl, rfl⟩, fun _ => by rw [hget, ← hnext]⟩
      · rw [hhigh]
        exact hhf ▸ h.highSide.pause (fun _ _ => rfl) _
      · grind
      · grind
  | true =>
    obtain ⟨hside, hpos', hother⟩ := ChainSide.relink (hfind ▸ h.lowSide) (by grind) hnew.2.1 hget
    have hexcl : (st.lowUsed && st.highUsed) = false := by
      cases hused : st.lowUsed with
      | true => exact h.excl hused
      | false => rfl
    rw [turn_low_eq st pos hfind]
    refine ⟨low ++ [pos], ⟨?_, ?_, fun _ => hexcl, fun p hp hpn => ?_, ?_, ?_, by simp [hfind],
      h.emptyHigh, by simp [hfind]⟩, hpos'⟩
    · rw [hlow, map_append, ← hnext]
      simp only [hfind]
      exact hside
    · rw [hhigh, hexcl]
      exact h.highSide.pause (fun p hp => hother p (by grind)) _
    · exact (hother p (by grind)).trans (h.frame_append p hp hpn)
    · grind
    · grind

lemma Splitting.turn_high (hgoes : goes pos = true) :
    ∃ high', Splitting d goes k n (P ++ [pos]) R (st.turn pos true) low high' ∧
      (st.turn pos true).array pos = d pos := by
  have hget := h.frame pos hpos hn
  have hnew := h.new hpos hn
  have hlow : (P ++ [pos]).filter (fun p => !goes p) = P.filter (fun p => !goes p) := by
    simp [hgoes]
  have hhigh : (P ++ [pos]).filter goes = P.filter goes ++ [pos] := by simp [hgoes]
  have hnodup := h.nodup
  have hmem := h.mem
  cases hfind : st.highFind with
  | false =>
    obtain ⟨rfl, hrecs, -⟩ := h.highSide.absent hfind
    have hempty := h.emptyHigh hfind
    refine ⟨[n], ?_⟩
    rw [turn]
    simp only [hfind]
    refine ⟨⟨?_, ?_, nofun, h.frame_append, ?_, ?_, fun hlf _ => hfirst (h.fresh hlf hfind), nofun,
      nofun⟩, hget⟩
    · rw [hlow]
      exact h.lowSide.pause (fun _ _ => rfl) _
    · rw [hhigh, map_append, hrecs, hempty, hget]
      exact ChainSide.open n _ _
    · grind
    · grind
  | true =>
    obtain ⟨hside, hpos', hother⟩ := ChainSide.relink (hfind ▸ h.highSide) (by grind) hnew.2.2 hget
    have hexcl : (st.highUsed && st.lowUsed) = false := by
      cases hused : st.lowUsed with
      | true => rw [h.excl hused, Bool.false_and]
      | false => rw [Bool.and_false]
    rw [turn_high_eq st pos hfind]
    refine ⟨high ++ [pos], ⟨?_, ?_, fun hused => ?_, fun p hp hpn => ?_, ?_, ?_, h.emptyLow,
      by simp [hfind], by simp [hfind]⟩, hpos'⟩
    · rw [hlow, hexcl]
      exact h.lowSide.pause (fun p hp => hother p (by grind)) _
    · rw [hhigh, map_append, ← hnext]
      simp only [hfind]
      exact hside
    · exact absurd (hexcl.symm.trans hused) (by decide)
    · exact (hother p (by grind)).trans (h.frame_append p hp hpn)
    · grind
    · grind

lemma Splitting.turn : ∃ low' high', Splitting d goes k n (P ++ [pos]) R (st.turn pos (goes pos))
    low' high' ∧ (st.turn pos (goes pos)).array pos = d pos := by
  cases hgoes : goes pos with
  | false =>
    obtain ⟨low', h'⟩ := h.turn_low hpos hn hnext hfirst hgoes
    exact ⟨low', high, h'⟩
  | true =>
    obtain ⟨high', h'⟩ := h.turn_high hpos hn hnext hfirst hgoes
    exact ⟨low, high', h'⟩

end Turn

section Loop

def Hash.goes (info : Hash α κ) (record : α) : Bool :=
  info.recHashnr record &&& (info.blength >>> 1) ≠ 0

section
variable (h : Splitting d (fun p => info.goes (d p).data) k n P (pos :: R) st low high)
  (hnodup : (P ++ pos :: R).Nodup) (hn : n ∉ P ++ pos :: R)
  (hseg : Seg d (some pos) (pos :: R) none) (hfirst : P = [] -> pos = k)
include h hnodup hn hseg hfirst

lemma splitLoop_turn (fuel : Nat) (hhome : info.home (d pos).data = k) :
    ∃ st' low' high', info.splitLoop k (fuel + 1) st pos =
        (match R.head? with
          | none => some st'
          | some next => info.splitLoop k fuel st' next) ∧
      Splitting d (fun p => info.goes (d p).data) k n (P ++ [pos]) R st' low' high' := by
  have hpos : pos ∉ P := by grind
  have hposn : pos ≠ n := by grind
  have hget := h.frame pos hpos hposn
  have hnext := hseg.2.eq_head?
  obtain ⟨low', high', h', hget'⟩ := h.turn hpos hposn hnext hfirst
  have hnext' : ((st.turn pos (info.goes (d pos).data)).array pos).next = R.head? := by
    rw [hget', hnext]
  refine ⟨_, low', high', ?_, h'⟩
  rw [splitLoop, hget, if_neg fun hbreak => hbreak.2 hhome, ← hnext']
  rfl

lemma splitLoop_spec {fuel : Nat} (hhome : ∀ p ∈ pos :: R, info.home (d p).data = k)
    (hfuel : (pos :: R).length ≤ fuel) :
    ∃ st' low' high', info.splitLoop k fuel st pos = some st' ∧
      Splitting d (fun p => info.goes (d p).data) k n (P ++ pos :: R) [] st' low' high' := by
  induction R generalizing P st low high pos fuel with
  | nil =>
    obtain ⟨fuel, rfl⟩ : ∃ f, fuel = f + 1 := ⟨fuel - 1, by simp at hfuel; omega⟩
    exact splitLoop_turn h hnodup hn hseg hfirst fuel (hhome pos mem_cons_self)
  | cons q R ih =>
    obtain ⟨fuel, rfl⟩ : ∃ f, fuel = f + 1 := ⟨fuel - 1, by simp at hfuel; omega⟩
    obtain ⟨st1, low1, high1, hloop, h1⟩ :=
      splitLoop_turn h hnodup hn hseg hfirst fuel (hhome pos mem_cons_self)
    have happend : P ++ pos :: q :: R = (P ++ [pos]) ++ q :: R := by simp
    rw [hloop, happend]
    rw [happend] at hnodup hn
    obtain ⟨-, hq, hR⟩ := hseg
    refine ih h1 hnodup hn ⟨rfl, hR⟩ (by simp) (fun p hp => hhome p (mem_cons_of_mem _ hp)) ?_
    simpa using hfuel

end

lemma ChainSide.close (h : ChainSide a start found used gpos ptr none l recs) (a' : Nat -> Link α)
    (hl : l.Nodup) (hother : ∀ p ∈ l, p ≠ gpos -> a' p = a p)
    (ha' : found = true -> a' gpos = if used then a gpos else ⟨none, ptr⟩) :
    (l ≠ [] -> Seg a' (some start) l none) ∧ l.map (fun p => (a' p).data) = recs := by
  cases found with
  | false =>
    obtain ⟨rfl, rfl, -⟩ := h.absent rfl
    exact ⟨fun hne => absurd rfl hne, rfl⟩
  | true =>
    obtain ⟨l₀, rfl, hseg, rfl⟩ := h.present rfl
    have hgpos : a' gpos = ⟨none, ptr⟩ := by
      cases used with
      | true => rw [ha' rfl, if_pos rfl, h.placed rfl]
      | false => rw [ha' rfl, if_neg nofun]
    have hl0 : ∀ p ∈ l₀, p ≠ gpos := by
      rintro p hp rfl
      exact (nodup_append.mp hl).2.2 p hp p (List.mem_singleton_self p) rfl
    have hsame : ∀ p ∈ l₀, a' p = a p := fun p hp => hother p (mem_append_left _ hp) (hl0 p hp)
    refine ⟨fun _ => (seg_concat l₀ gpos).mpr ⟨hseg.frame fun p hp => ?_, ?_⟩, ?_⟩
    · rw [hsame p hp]
    · rw [hgpos]
    · rw [map_append, List.map_cons, map_nil, hgpos, append_cancel_right_eq]
      exact map_congr_left fun p hp => by rw [hsame p hp]

structure Divided (d : Nat -> Link α) (goes : Nat -> Bool) (k n : Nat) (P : List Nat)
    (d' : Nat -> Link α) (empty : Nat) (low high : List Nat) : Prop where
  lowSeg : low ≠ [] -> Seg d' (some k) low none
  highSeg : high ≠ [] -> Seg d' (some n) high none
  lowRecs : low.map (fun p => (d' p).data) = (P.filter fun p => !goes p).map fun p => (d p).data
  highRecs : high.map (fun p => (d' p).data) = (P.filter goes).map fun p => (d p).data
  frame : ∀ p, p ∉ P -> p ≠ n -> d' p = d p
  nodup : (empty :: (low ++ high)).Nodup
  mem : ∀ p, p = empty ∨ p ∈ low ∨ p ∈ high ↔ p = n ∨ p ∈ P

lemma Splitting.finish {goes : Nat -> Bool} (h : Splitting d goes k n P [] st low high) :
    Divided d goes k n P st.finish.1 st.finish.2 low high := by
  have hnodup := h.nodup
  have hmem := h.mem
  have hlowMem : st.lowFind = true -> st.gpos ∈ low := fun hf => (hf ▸ h.lowSide).gpos_mem
  have hhighMem : st.highFind = true -> st.gpos2 ∈ high := fun hf => (hf ▸ h.highSide).gpos_mem
  have hget : ∀ p, st.finish.1 p =
      if st.highFind = true ∧ st.highUsed = false ∧ p = st.gpos2 then ⟨none, st.ptrToRec2⟩
      else if st.lowFind = true ∧ st.lowUsed = false ∧ p = st.gpos then ⟨none, st.ptrToRec⟩
      else st.array p := by
    simp only [SplitState.finish]
    grind
  have hlow := h.lowSide.close st.finish.1 (by grind) (by grind) (by grind)
  have hhigh := h.highSide.close st.finish.1 (by grind) (by grind) (by grind)
  exact ⟨hlow.1, hhigh.1, hlow.2, hhigh.2, fun p hp hpn => by grind [h.frame p hp hpn], hnodup, hmem⟩

end Loop

def Hash.homeSucc (info : Hash α κ) (record : α) : Nat :=
  myHashMask (info.recHashnr record) info.blength (info.records + 1)

section Split
variable {C : Nat -> List Nat}

lemma Hash.Inv.homeSucc_eq (h : info.Inv C) (hn : 0 < info.records) (record : α) :
    info.homeSucc record =
      if info.home record = info.records - (info.blength >>> 1) ∧ info.goes record = true then
        info.records
      else info.home record := by
  rw [homeSucc, h.sized.mask_succ hn]
  simp [home, goes]

/-- A table with an empty position among one more than there were. -/
structure Hash.Roomy (info : Hash α κ) (d : Nat -> Link α) (empty : Nat) (C : Nat -> List Nat) :
    Prop where
  le : empty ≤ info.records
  laid : Laid d info.homeSucc ((range (info.records + 1)).erase empty) C
  contents : contents d ((range (info.records + 1)).erase empty) = info.stored

lemma roomy_of_divided (h : info.Inv C) (hn : 0 < info.records) {d' : Nat -> Link α}
    {empty : Nat} {low high : List Nat}
    (hd : Divided info.array (fun p => info.goes (info.array p).data)
      (info.records - (info.blength >>> 1)) info.records
      (C (info.records - (info.blength >>> 1))) d' empty low high) :
    ∃ C', info.Roomy d' empty C' := by
  obtain ⟨c, -, hc, hlt, hshift, -⟩ := h.sized.halves hn
  generalize hk : info.records - (info.blength >>> 1) = k at hd
  have hmemC := h.laid.mem k
  have hmem := hd.mem
  have hnodup := hd.nodup
  have hkn : k ≠ info.records := by omega
  have hempty : empty ≤ info.records := by
    rcases (hmem empty).mp (Or.inl rfl) with rfl | hin
    · exact le_rfl
    · have := mem_range.mp ((hmemC empty).mp hin).1
      omega
  have hS : ∀ p, p ∈ (range (info.records + 1)).erase empty ↔
      (p ∈ range info.records ∧ p ∉ C k) ∨ p ∈ low ∨ p ∈ high := by
    intro p
    grind
  have hrec : ∀ {l : List Nat} {f}, l.map (fun p => (d' p).data) =
      ((C k).filter f).map (fun p => (info.array p).data) -> ∀ p ∈ l, ∃ q ∈ C k, f q = true ∧
      (d' p).data = (info.array q).data := by
    intro l f heq p hp
    obtain ⟨q, hq, heq⟩ := mem_map.mp (heq ▸ mem_map_of_mem hp)
    obtain ⟨hqC, hf⟩ := List.mem_filter.mp hq
    exact ⟨q, hqC, hf, heq.symm⟩
  have hlow : ∀ p ∈ low, info.homeSucc (d' p).data = k := by
    intro p hp
    obtain ⟨q, hqC, hgoes, heq⟩ := hrec hd.lowRecs p hp
    rw [heq, h.homeSucc_eq hn, if_neg fun hcond => by simp [hcond.2] at hgoes]
    exact ((hmemC q).mp hqC).2
  have hhigh : ∀ p ∈ high, info.homeSucc (d' p).data = info.records := by
    intro p hp
    obtain ⟨q, hqC, hgoes, heq⟩ := hrec hd.highRecs p hp
    rw [heq, h.homeSucc_eq hn, if_pos ⟨((hmemC q).mp hqC).2.trans hk.symm, hgoes⟩]
  have hframe : ∀ p ∈ range info.records, p ∉ C k -> d' p = info.array p :=
    fun p hp hpC => hd.frame p hpC (mem_range.mp hp).ne
  refine ⟨_, hempty, h.laid.divide (by simp) hkn hS (fun p hp hpC => ⟨hframe p hp hpC, ?_⟩)
    ⟨hlow, hd.lowSeg⟩ ⟨hhigh, hd.highSeg⟩, ?_⟩
  · rw [h.homeSucc_eq hn, if_neg fun hcond => hpC ((hmemC p).mpr ⟨hp, hcond.1.trans hk⟩)]
  · have hrest : ((range (info.records + 1)).erase empty).filter (· ∉ low ++ high) =
        (range info.records).filter (· ∉ C k) := by
      ext p
      grind
    have hperm : ((low ++ high).map fun p => (d' p).data).Perm
        ((C k).map fun p => (info.array p).data) := by
      rw [map_append, hd.lowRecs, hd.highRecs, ← map_append]
      exact (perm_append_comm.trans (filter_append_perm _ (C k))).map _
    rw [contents_split (l := low ++ high) (nodup_cons.mp hnodup).2 fun p hp =>
        (hS p).mpr (Or.inr (mem_append.mp hp)), hrest, Multiset.coe_eq_coe.mpr hperm,
      stored, contents_split (h.laid.nodup k) fun p hp => h.laid.mem_S hp]
    congr 1
    refine contents_congr fun p hp => ?_
    obtain ⟨hp, hpC⟩ := mem_filter.mp hp
    rw [hframe p hp hpC]

def SplitState.unsplit (array : Nat -> Link α) (record : α) (records : Nat) : SplitState α :=
  ⟨array, false, false, false, false, 0, record, 0, record, records⟩

/-- The loop divides the chain of one home, and then there is room for a record. It has found the
kinds of records that are in the chain. -/
lemma splitLoop_roomy (h : info.Inv C) (record : α) (hn : 0 < info.records) :
    ∃ st C', info.splitLoop (info.records - (info.blength >>> 1)) info.records
        (.unsplit info.array record info.records) (info.records - (info.blength >>> 1)) = some st ∧
      info.Roomy st.finish.1 st.finish.2 C' ∧
      (st.lowFind = true ↔ ∃ p ∈ C (info.records - (info.blength >>> 1)),
        info.goes (info.array p).data = false) ∧
      (st.highFind = true ↔ ∃ p ∈ C (info.records - (info.blength >>> 1)),
        info.goes (info.array p).data = true) := by
  set k := info.records - (info.blength >>> 1) with hk
  obtain ⟨c, -, hc, hlt, hshift, -⟩ := h.sized.halves hn
  have hkS : k ∈ range info.records := mem_range.mpr (by omega)
  by_cases hhome : info.home (info.array k).data = k
  · obtain ⟨l, hC, hl⟩ := chain_eq_cons h.laid hkS hhome
    have hmemC := h.laid.mem k
    have hnodup := h.laid.nodup k
    have hlen := length_chain_le h.laid le_rfl k
    rw [hC] at hmemC hnodup hlen
    have hside : ∀ start : Nat, ChainSide info.array start false false 0 record (some k) [] [] :=
      fun _ => ⟨fun _ => ⟨rfl, rfl, rfl⟩, nofun, nofun⟩
    have hstart : Splitting info.array (fun p => info.goes (info.array p).data)
        k info.records [] (k :: l) (.unsplit info.array record info.records) [] [] :=
      ⟨hside _, hside _, nofun, fun _ _ _ => rfl, by simp,
        by simp [unsplit], nofun, fun _ => rfl, fun _ _ => rfl⟩
    obtain ⟨st, low, high, hloop, hst⟩ := splitLoop_spec hstart hnodup
      (fun hin => by simpa using ((hmemC _).mp hin).1) ⟨rfl, hl⟩ (fun _ => rfl)
      (fun p hp => ((hmemC p).mp hp).2) hlen
    obtain ⟨C', hroomy⟩ := roomy_of_divided h hn (hC ▸ hst.finish)
    refine ⟨st, C', hloop, hroomy, ?_, ?_⟩
    · rw [hst.lowSide.found_iff, hC, Ne, map_eq_nil_iff, filter_eq_nil_iff]
      simp only [nil_append, not_forall, not_not, exists_prop, Bool.not_eq_true']
    · rw [hst.highSide.found_iff, hC, Ne, map_eq_nil_iff, filter_eq_nil_iff]
      simp only [nil_append, not_forall, not_not, exists_prop]
  · have hC := h.laid.nil_of_not_home fun _ => hhome
    have hnothing : Divided info.array (fun p => info.goes (info.array p).data)
        k info.records (C k) info.array info.records [] [] :=
      ⟨fun hne => absurd rfl hne, fun hne => absurd rfl hne, by rw [hC]; rfl, by rw [hC]; rfl,
        fun _ _ _ => rfl, by simp, by simp [hC]⟩
    obtain ⟨C', hroomy⟩ := roomy_of_divided h hn hnothing
    obtain ⟨fuel, hfuel⟩ := Nat.exists_eq_succ_of_ne_zero hn.ne'
    refine ⟨.unsplit info.array record info.records, C', ?_, hroomy, ?_, ?_⟩
    · rw [show info.splitLoop k info.records = info.splitLoop k (fuel + 1) by rw [hfuel]]
      exact if_pos ⟨by simp [unsplit], hhome⟩
    iterate 2 simp [hC, unsplit]

lemma roomy_of_zero (hzero : info.records = 0) (array : Nat -> Link α) :
    info.Roomy array info.records fun _ => [] := by
  refine ⟨le_rfl, ?_, ?_⟩
  · exact ⟨fun _ hne => absurd rfl hne, by simp [hzero]⟩
  · simp [hzero, stored, contents]

lemma Hash.Inv.halfbuff_eq_iff (h : info.Inv C) :
    info.records - (info.blength >>> 1) = info.records ↔ info.records = 0 := by
  constructor
  · intro heq
    by_contra hne
    obtain ⟨c, -, hc, hlt, hshift, -⟩ := h.sized.halves (Nat.pos_of_ne_zero hne)
    omega
  · omega

lemma split_spec (h : info.Inv C) (record : α) :
    ∃ d' empty C', info.split record = some (d', empty) ∧ info.Roomy d' empty C' := by
  unfold split
  simp only
  split
  · rename_i hne
    have hn : 0 < info.records := Nat.pos_of_ne_zero fun hzero => hne (h.halfbuff_eq_iff.mpr hzero)
    obtain ⟨st, C', hloop, hroomy, -, -⟩ := splitLoop_roomy h record hn
    refine ⟨_, _, C', ?_, hroomy⟩
    rw [unsplit] at hloop
    rw [hloop]
    rfl
  · rename_i heq
    exact ⟨_, _, _, rfl, roomy_of_zero (h.halfbuff_eq_iff.mp (not_not.mp heq)) _⟩

end Split

end Mysys
