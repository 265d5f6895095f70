import EryMysql.Sql.SelTree

/-!
# Trees are implied by the condition

A tree stands for a formula, as the comment on `SEL_TREE` has it: the conjunction of its ranges and
its imerges, where an imerge is a disjunction of range trees. The operations only weaken the formula
if those on the `SEL_ARG` graphs do.
-/

namespace Sql

open List Option Function

variable {A Row : Type}

/-- The range operations are sound: what satisfies both operands satisfies `key_and`, what satisfies
one of them satisfies `key_or`, and nothing satisfies an impossible graph. -/
structure RangeOptParam.Sound (param : RangeOptParam A) (sat : A -> Row -> Prop) : Prop where
  keyAnd : ∀ key1 key2 row, (∀ a, key1 = some a -> sat a row) -> (∀ a, key2 = some a -> sat a row) ->
    ∀ a, param.keyAnd key1 key2 = some a -> sat a row
  keyOr : ∀ key1 key2 row, sat key1 row ∨ sat key2 row ->
    ∀ a, param.keyOr key1 key2 = some a -> sat a row
  impossible : ∀ a row, param.isImpossible a = true -> ¬ sat a row

namespace SelTree

variable (param : RangeOptParam A) (sat : A -> Row -> Prop)

/-- The range part. An index without a graph tells nothing. -/
def SatRanges (tree : SelTree A) (row : Row) : Prop :=
  ∀ i < param.keys, ∀ a, tree.keys i = some a -> sat a row

def SatImerge (imerge : List (SelTree A)) (row : Row) : Prop :=
  ∃ tree ∈ imerge, tree.SatRanges param sat row

def Sat (tree : SelTree A) (row : Row) : Prop :=
  match tree.type with
  | .impossible => False
  | .always => True
  | .maybe => True
  | .key | .keySmaller =>
    tree.SatRanges param sat row ∧ ∀ imerge ∈ tree.merges, SatImerge param sat imerge row

/-- The tree has a formula of its own. -/
def IsKey (tree : SelTree A) : Prop := tree.type = .key ∨ tree.type = .keySmaller

/-- The bitmap tells the indexes that have a graph. -/
def Agrees (tree : SelTree A) : Prop := ∀ i < param.keys, tree.keysMap i = (tree.keys i).isSome

/-- A tree of an imerge is a range tree. One that is always true has no ranges. -/
structure Member (tree : SelTree A) : Prop where
  type : tree.IsKey ∨ (tree.type = .always ∧ ∀ i < param.keys, tree.keys i = none)
  agrees : tree.Agrees param

/-- An imerge has trees, and a tree that is alone in it has no imerges. -/
structure ImergeOk (imerge : List (SelTree A)) : Prop where
  nonempty : imerge ≠ []
  members : ∀ tree ∈ imerge, tree.Member param
  single : ∀ tree, imerge = [tree] -> tree.merges = []

structure WellFormed (tree : SelTree A) : Prop where
  agrees : tree.IsKey -> tree.Agrees param
  merges : ∀ imerge ∈ tree.merges, ImergeOk param imerge

end SelTree

open SelTree

variable {param : RangeOptParam A} {sat : A -> Row -> Prop} {row : Row} {tree tree1 tree2 : SelTree A}
  {imerge : List (SelTree A)}

lemma Sat_of_isKey (h : tree.IsKey) : tree.Sat param sat row ↔
    tree.SatRanges param sat row ∧ ∀ imerge ∈ tree.merges, SatImerge param sat imerge row := by
  rcases h with h | h <;> simp [Sat, h]

lemma not_isKey_impossible (h : tree.type = .impossible) : ¬ tree.IsKey := by
  rintro (hk | hk) <;> rw [h] at hk <;> cases hk

namespace RangeOptParam

lemma isClearAll_iff {map : Nat -> Bool} :
    param.isClearAll map = true ↔ ∀ i < param.keys, map i = false := by
  simp [isClearAll]

/-- The indexes of a list that either tree has a graph for got the new graph. -/
structure AndedOn (param : RangeOptParam A) (tree1 tree2 : SelTree A) (is : List Nat)
    (result : SelTree A) (resultKeys : Nat -> Bool) (r : SelTree A) : Prop where
  type : r.type = result.type
  merges : r.merges = result.merges
  keys : ∀ i, r.keys i = if i ∈ is ∧ (tree1.keysMap i || tree2.keysMap i) = true then
    param.keyAnd (tree1.keys i) (tree2.keys i) else result.keys i
  keysMap : ∀ i, r.keysMap i = if i ∈ is ∧ (tree1.keysMap i || tree2.keysMap i) = true then
    (param.keyAnd (tree1.keys i) (tree2.keys i)).isSome || resultKeys i else resultKeys i

variable {is : List Nat} {result r : SelTree A} {imerge' : List (SelTree A)} {n : Nat}
  {other : Row -> Prop} {resultKeys : Nat -> Bool}

/-- One turn of the loop: the index is not met again, and the others do not see it. -/
lemma AndedOn.cons {j : Nat} {result result' r : SelTree A} {resultKeys resultKeys' : Nat -> Bool}
    (hj : j ∉ is) (h : AndedOn param tree1 tree2 is result' resultKeys' r)
    (htype : result'.type = result.type) (hmerges : result'.merges = result.merges)
    (hother : ∀ i, i ≠ j -> result'.keys i = result.keys i ∧ resultKeys' i = resultKeys i)
    (hkey : result'.keys j = if (tree1.keysMap j || tree2.keysMap j) = true then
      param.keyAnd (tree1.keys j) (tree2.keys j) else result.keys j)
    (hbit : resultKeys' j = if (tree1.keysMap j || tree2.keysMap j) = true then
      (param.keyAnd (tree1.keys j) (tree2.keys j)).isSome || resultKeys j else resultKeys j) :
    AndedOn param tree1 tree2 (j :: is) result resultKeys r where
  type := h.type.trans htype
  merges := h.merges.trans hmerges
  keys i := by
    rw [h.keys i]
    rcases eq_or_ne i j with rfl | hij
    · simp [hj, hkey]
    · simp [hij, (hother i hij).1]
  keysMap i := by
    rw [h.keysMap i]
    rcases eq_or_ne i j with rfl | hij
    · simp [hj, hbit]
    · simp [hij, (hother i hij).2]

lemma andKeys_andedOn (hnd : is.Nodup)
    (h : param.andKeys tree1 tree2 is result resultKeys = (false, r)) :
    AndedOn param tree1 tree2 is result resultKeys r := by
  induction is generalizing result resultKeys with
  | nil =>
    simp only [andKeys, Prod.mk.injEq, true_and] at h
    subst h
    exact ⟨rfl, rfl, fun i => by simp, fun i => by simp⟩
  | cons j is ih =>
    obtain ⟨hj, hnd⟩ := nodup_cons.mp hnd
    rw [andKeys] at h
    by_cases hmap : (tree1.keysMap j || tree2.keysMap j) = true
    · rw [if_pos hmap] at h
      cases hkey : param.keyAnd (tree1.keys j) (tree2.keys j) with
      | none =>
        simp only [hkey] at h
        refine (ih hnd h).cons hj rfl rfl (fun i hij => ⟨update_of_ne hij _ _, rfl⟩) ?_ ?_
        · simp [hmap, hkey]
        · simp [hkey]
      | some a =>
        simp only [hkey] at h
        split at h
        · cases h
        · refine (ih hnd h).cons hj rfl rfl (fun i hij =>
            ⟨update_of_ne hij _ _, update_of_ne hij _ _⟩) ?_ ?_
          · simp [hmap, hkey]
          · simp [hmap, hkey]
    · rw [if_neg hmap] at h
      exact (ih hnd h).cons hj rfl rfl (fun i _ => ⟨rfl, rfl⟩) (by rw [if_neg hmap])
        (by rw [if_neg hmap])

/-- The loop ends early only for an index whose graphs exclude each other. -/
lemma andKeys_impossible
    (h : param.andKeys tree1 tree2 is result resultKeys = (true, r)) :
    r.type = .impossible ∧ r.merges = result.merges ∧
      ∃ i ∈ is, ∃ a, param.keyAnd (tree1.keys i) (tree2.keys i) = some a ∧
        param.isImpossible a = true := by
  induction is generalizing result resultKeys with
  | nil => simp [andKeys] at h
  | cons j is ih =>
    rw [andKeys] at h
    have hnext : ∀ {result' resultKeys'},
        param.andKeys tree1 tree2 is result' resultKeys' = (true, r) ->
        result'.merges = result.merges ->
        r.type = .impossible ∧ r.merges = result.merges ∧
          ∃ i ∈ j :: is, ∃ a, param.keyAnd (tree1.keys i) (tree2.keys i) = some a ∧
            param.isImpossible a = true := by
      intro result' resultKeys' h hm
      obtain ⟨htype, hmerges, i, hi, hrest⟩ := ih h
      exact ⟨htype, hmerges.trans hm, i, mem_cons_of_mem _ hi, hrest⟩
    split at h
    · cases hkey : param.keyAnd (tree1.keys j) (tree2.keys j) with
      | none =>
        simp only [hkey] at h
        exact hnext h rfl
      | some a =>
        simp only [hkey] at h
        split at h
        · rename_i himp
          cases h
          exact ⟨rfl, rfl, j, mem_cons_self .., a, hkey, himp⟩
        · exact hnext h rfl
    · exact hnext h rfl

variable (hparam : param.Sound sat) {merges : List (List (SelTree A))} {orTree : SelTree A}
include hparam

lemma andRangeTrees_possible (h1 : tree1.SatRanges param sat row) (h2 : tree2.SatRanges param sat row)
    (result : SelTree A) : ∃ r, param.andRangeTrees tree1 tree2 result = (false, r) := by
  rcases h : param.andRangeTrees tree1 tree2 result with ⟨_ | _, r⟩
  · exact ⟨r, rfl⟩
  · obtain ⟨-, -, i, hi, a, hkey, himp⟩ := andKeys_impossible h
    have hi := mem_range.mp hi
    exact absurd (hparam.keyAnd _ _ row (h1 i hi) (h2 i hi) a hkey) (hparam.impossible a row himp)

/-- The result has the graphs of the first tree, or none, for the other indexes. -/
lemma andRangeTrees_spec (h : param.andRangeTrees tree1 tree2 result = (false, r))
    (ha : tree1.Agrees param) (hres : result.keys = tree1.keys ∨ ∀ i, result.keys i = none) :
    r.type = result.type ∧ r.merges = result.merges ∧ r.Agrees param ∧
      (∀ row, tree1.SatRanges param sat row -> tree2.SatRanges param sat row ->
        r.SatRanges param sat row) := by
  obtain ⟨htype, hmerges, hkeys, hkeysMap⟩ := andKeys_andedOn nodup_range h
  refine ⟨htype, hmerges, ?_, ?_⟩
  · intro i hi
    rw [hkeys i, hkeysMap i]
    by_cases hmap : (tree1.keysMap i || tree2.keysMap i) = true
    · simp [hi, hmap]
    · have hnone : result.keys i = none := by
        rcases hres with heq | hnone
        · rw [heq]
          have hmap' := ha i hi
          simp only [Bool.or_eq_true, not_or, Bool.not_eq_true] at hmap
          rw [hmap.1] at hmap'
          exact not_isSome_iff_eq_none.mp (Bool.eq_false_iff.mp hmap'.symm)
        · exact hnone i
      simp [hmap, hnone]
  · intro row h1 h2 i hi a ha
    rw [hkeys i] at ha
    split at ha
    · exact hparam.keyAnd _ _ row (h1 i hi) (h2 i hi) a ha
    · rcases hres with heq | hnone
      · rw [heq] at ha
        exact h1 i hi a ha
      · rw [hnone i] at ha
        cases ha

/-- Pushing a range tree into an imerge keeps a tree that the row satisfies. -/
lemma satImerge_andSelTree (hmem : ∀ m ∈ imerge, m.Member param) (himerge : SatImerge param sat imerge row)
    (htree : tree.SatRanges param sat row) : SatImerge param sat (param.andSelTree imerge tree) row := by
  obtain ⟨m, hm, hsat⟩ := himerge
  have htree' : tree.rangePart.SatRanges param sat row := htree
  obtain ⟨r, hr⟩ := andRangeTrees_possible hparam hsat htree' .empty
  obtain ⟨-, -, -, hand⟩ := andRangeTrees_spec hparam hr (hmem m hm).agrees (.inr fun _ => rfl)
  refine ⟨r, mem_filterMap.mpr ⟨m, hm, ?_⟩, hand row hsat htree⟩
  simp [hr]

lemma imergeOk_andSelTree (hmem : ∀ m ∈ imerge, m.Member param)
    (hne : (param.andSelTree imerge tree).isEmpty = false) :
    ImergeOk param (param.andSelTree imerge tree) := by
  have hmember : ∀ m ∈ param.andSelTree imerge tree, m.Member param ∧ m.merges = [] := by
    intro m hm
    obtain ⟨orTree, hor, heq⟩ := mem_filterMap.mp hm
    split at heq
    · cases heq
    · rename_i r hr
      obtain rfl := some.inj heq
      obtain ⟨htype, hmerges, hagrees, -⟩ :=
        andRangeTrees_spec hparam hr (hmem orTree hor).agrees (.inr fun _ => rfl)
      exact ⟨⟨.inl (.inl htype), hagrees⟩, hmerges⟩
  refine ⟨?_, fun m hm => (hmember m hm).1, ?_⟩
  · intro h
    rw [h] at hne
    cases hne
  · intro m h
    exact (hmember m (h ▸ mem_singleton_self m)).2

omit hparam in
lemma mem_imergeListAndTree
    (h : imerge ∈ param.imergeListAndTree merges tree) :
    ∃ im ∈ merges, imerge = im ∨
      (imerge = param.andSelTree im tree ∧ (param.andSelTree im tree).isEmpty = false) := by
  obtain ⟨im, him, heq⟩ := mem_filterMap.mp h
  refine ⟨im, him, ?_⟩
  split at heq
  · split at heq
    · cases heq
    · rename_i hne
      exact .inr ⟨(some.inj heq).symm, Bool.eq_false_iff.mpr hne⟩
  · exact .inl (some.inj heq).symm

lemma imergeOk_imergeListAndTree
    (hok : ∀ imerge ∈ merges, ImergeOk param imerge) :
    ∀ imerge ∈ param.imergeListAndTree merges tree, ImergeOk param imerge := by
  intro imerge himerge
  obtain ⟨im, him, rfl | ⟨rfl, hne⟩⟩ := mem_imergeListAndTree himerge
  · exact hok _ him
  · exact imergeOk_andSelTree hparam (hok im him).members hne

lemma satImerge_imergeListAndTree
    (hok : ∀ imerge ∈ merges, ImergeOk param imerge)
    (hmerges : ∀ imerge ∈ merges, SatImerge param sat imerge row) (htree : tree.SatRanges param sat row) :
    ∀ imerge ∈ param.imergeListAndTree merges tree, SatImerge param sat imerge row := by
  intro imerge himerge
  obtain ⟨im, him, rfl | ⟨rfl, -⟩⟩ := mem_imergeListAndTree himerge
  · exact hmerges _ him
  · exact satImerge_andSelTree hparam (hok im him).members (hmerges im him) htree

omit hparam in
lemma isKey_of_type (h1 : tree.type ≠ .impossible) (h2 : tree.type ≠ .always)
    (h3 : tree.type ≠ .maybe) : tree.IsKey := by
  cases h : tree.type with
  | impossible => exact absurd h h1
  | always => exact absurd h h2
  | maybe => exact absurd h h3
  | key => exact .inl h
  | keySmaller => exact .inr h

omit hparam in
lemma isKey_of_types (h1 : ¬ (tree1.type = .impossible ∨ tree2.type = .always))
    (h2 : ¬ (tree2.type = .impossible ∨ tree1.type = .always)) (h3 : tree1.type ≠ .maybe)
    (h4 : tree2.type ≠ .maybe) : tree1.IsKey ∧ tree2.IsKey := by
  rw [not_or] at h1 h2
  exact ⟨isKey_of_type h1.1 h2.2 h3, isKey_of_type h2.1 h1.2 h4⟩

/-- The range parts of two trees: a tree that both imply, or they exclude each other. -/
lemma andRangeTrees_cases (hkey1 : tree1.IsKey) (hkey2 : tree2.IsKey) (hw : tree1.WellFormed param)
    (merges : List (List (SelTree A))) :
    ∃ r, r.merges = merges ∧
      ((param.andRangeTrees tree1 tree2 { tree1 with merges := merges } = (false, r) ∧ r.IsKey ∧
        r.Agrees param ∧ ∀ row, tree1.Sat param sat row -> tree2.Sat param sat row ->
          r.SatRanges param sat row) ∨
      (param.andRangeTrees tree1 tree2 { tree1 with merges := merges } = (true, r) ∧
        r.type = .impossible ∧
        ∀ row, tree1.Sat param sat row -> ¬ tree2.Sat param sat row)) := by
  simp only [Sat_of_isKey hkey1, Sat_of_isKey hkey2]
  rcases hand : param.andRangeTrees tree1 tree2 { tree1 with merges := merges } with ⟨_ | _, r⟩
  · obtain ⟨htype, hmerges, hagrees, himplied⟩ :=
      andRangeTrees_spec hparam hand (hw.agrees hkey1) (.inl rfl)
    exact ⟨r, hmerges, .inl ⟨rfl, by rwa [IsKey, htype], hagrees,
      fun row hs1 hs2 => himplied row hs1.1 hs2.1⟩⟩
  · obtain ⟨htype, hmerges, -⟩ := andKeys_impossible hand
    refine ⟨r, hmerges, .inr ⟨rfl, htype, fun row hs1 hs2 => ?_⟩⟩
    obtain ⟨r', hr'⟩ := andRangeTrees_possible hparam hs1.1 hs2.1 { tree1 with merges := merges }
    rw [hand] at hr'
    cases hr'

/-- The result of an AND: a well-formed tree that is implied by both operands. -/
structure AndOk (param : RangeOptParam A) (sat : A -> Row -> Prop) (tree1 tree2 r : SelTree A) : Prop where
  wellFormed : r.WellFormed param
  implied : ∀ row, tree1.Sat param sat row -> tree2.Sat param sat row -> r.Sat param sat row

lemma treeAndTrees_ranges (fuel : Nat) (hkey : tree1.IsKey ∨ tree1.type = .impossible)
    (hw₁ : tree1.WellFormed param) (hm1 : tree1.merges = []) (hmem : tree2.Member param)
    (hm2 : tree2.merges = []) :
    ∃ r, param.treeAndTrees (fuel + 1) tree1 tree2 = some r ∧ r.merges = [] ∧
      (r.IsKey ∨ r.type = .impossible) ∧ AndOk param sat tree1 tree2 r := by
  have hstay : ∀ {r}, r = tree1 -> r.merges = [] ∧ (r.IsKey ∨ r.type = .impossible) ∧
      AndOk param sat tree1 tree2 r := by
    rintro r rfl
    exact ⟨hm1, hkey, hw₁, fun row h _ => h⟩
  rw [treeAndTrees]
  split
  · exact ⟨tree1, rfl, hstay rfl⟩
  rename_i h1
  have hkey1 : tree1.IsKey := hkey.resolve_right fun h => h1 (.inl h)
  have hkey2 : tree2.IsKey := hmem.type.resolve_right fun h => h1 (.inr h.1)
  rw [if_neg (by rintro (h | h)
                 · exact not_isKey_impossible h hkey2
                 · rcases hkey1 with hk | hk <;> rw [h] at hk <;> cases hk),
    if_neg (by rcases hkey1 with hk | hk <;> rw [hk] <;> decide),
    if_neg (by rcases hkey2 with hk | hk <;> rw [hk] <;> decide)]
  simp only [hm1, hm2, imergeListAndTree, filterMap_nil]
  obtain ⟨r, hmerges, ⟨hand, hrkey, hagrees, himplied⟩ | ⟨hand, htype, hnone⟩⟩ :=
    andRangeTrees_cases hparam hkey1 hkey2 hw₁ []
  · have hrkey' : ({ r with merges := [] } : SelTree A).IsKey := hrkey
    refine ⟨{ r with merges := [] }, by rw [hand]; rfl, rfl, .inl hrkey,
      ⟨fun _ => hagrees, forall_mem_nil _⟩, fun row hs1 hs2 => ?_⟩
    rw [Sat_of_isKey hrkey']
    exact ⟨himplied row hs1 hs2, forall_mem_nil _⟩
  · refine ⟨r, by rw [hand], hmerges, .inr htype,
      ⟨fun h => absurd h (not_isKey_impossible htype), ?_⟩, fun row hs1 hs2 =>
        absurd hs2 (hnone row hs1)⟩
    rw [hmerges]
    exact forall_mem_nil _

/-- The trees that are alone in their imerges go into the range part. -/
lemma eliminate_ok (fuel : Nat) {rest kept : List (List (SelTree A))}
    (hkey : tree.IsKey ∨ tree.type = .impossible) (hw : tree.WellFormed param) (hm : tree.merges = [])
    (hrest : ∀ imerge ∈ rest, ImergeOk param imerge) (hkept : ∀ imerge ∈ kept, ImergeOk param imerge) :
    ∃ r, eliminateSingleTreeImerges (param.treeAndTrees (fuel + 1)) tree rest kept = some r ∧
      r.WellFormed param ∧ ∀ row, tree.Sat param sat row ->
        (∀ imerge ∈ rest ++ kept, SatImerge param sat imerge row) -> r.Sat param sat row := by
  induction rest generalizing tree kept with
  | nil =>
    refine ⟨{ tree with merges := kept }, by rw [eliminateSingleTreeImerges], ⟨hw.agrees, hkept⟩, ?_⟩
    intro row hsat hall
    rcases hkey with hkey | himp
    · rw [Sat_of_isKey hkey] at hsat
      rw [Sat_of_isKey (show IsKey { tree with merges := kept } from hkey)]
      exact ⟨hsat.1, hall⟩
    · simp only [Sat, himp] at hsat
  | cons imerge rest ih =>
    obtain ⟨hok, hrest'⟩ := forall_mem_cons.mp hrest
    by_cases hsingle : ∃ single, imerge = [single]
    · obtain ⟨single, rfl⟩ := hsingle
      have hmem := hok.members single (mem_singleton_self _)
      have hposs : ¬ (single.type = .impossible ∧ tree.type ≠ .impossible) := by
        rintro ⟨himp, -⟩
        rcases hmem.type with hk | ⟨hk, -⟩
        · exact not_isKey_impossible himp hk
        · rw [himp] at hk
          cases hk
      obtain ⟨r, hr, hrm, hrkey, hrok⟩ :=
        treeAndTrees_ranges hparam fuel hkey hw hm hmem (hok.single single rfl)
      obtain ⟨r', hr', hw', hsat'⟩ := ih hrkey hrok.wellFormed hrm hrest' hkept
      refine ⟨r', ?_, hw', ?_⟩
      · rw [eliminateSingleTreeImerges, if_neg hposs, hr, bind_some, hr']
      · intro row hsat hall
        have hone : single.SatRanges param sat row := by
          obtain ⟨m, hm, hs⟩ := hall [single] (mem_cons_self ..)
          rwa [mem_singleton.mp hm] at hs
        refine hsat' row (hrok.implied row hsat ?_) fun im him => hall im (mem_cons_of_mem _ him)
        rcases hmem.type with hk | ⟨hk, -⟩
        · rw [Sat_of_isKey hk, hok.single single rfl]
          exact ⟨hone, forall_mem_nil _⟩
        · simp [Sat, hk]
    · have hkept' : ∀ im ∈ kept ++ [imerge], ImergeOk param im :=
        forall_mem_append.mpr ⟨hkept, forall_mem_singleton.mpr hok⟩
      obtain ⟨r, hr, hw', hsat'⟩ := ih hkey hw hm hrest' hkept'
      refine ⟨r, ?_, hw', ?_⟩
      · rw [eliminateSingleTreeImerges]
        · exact hr
        · exact fun single h => hsingle ⟨single, h⟩
      · intro row hsat hall
        refine hsat' row hsat fun im him => hall im ?_
        simp only [mem_append, mem_cons, not_mem_nil, or_false] at him ⊢
        rcases him with him | him | him
        · exact .inl (.inr him)
        · exact .inr him
        · exact .inl (.inl him)

lemma treeAndTrees_ok {fuel : Nat} (hw₁ : tree1.WellFormed param) (hw₂ : tree2.WellFormed param) :
    ∃ r, param.treeAndTrees (fuel + 2) tree1 tree2 = some r ∧ AndOk param sat tree1 tree2 r := by
  rw [treeAndTrees]
  split
  · exact ⟨tree1, rfl, hw₁, fun row h _ => h⟩
  rename_i h1
  split
  · exact ⟨tree2, rfl, hw₂, fun row _ h => h⟩
  rename_i h2
  split
  · refine ⟨_, rfl, ?_⟩
    split
    · rename_i hkey
      refine ⟨⟨fun _ => hw₂.agrees (.inl hkey), hw₂.merges⟩, fun row _ h => ?_⟩
      rw [Sat_of_isKey (.inl hkey)] at h
      exact h
    · exact ⟨hw₂, fun row _ h => h⟩
  rename_i h3
  split
  · have hkey : tree1.IsKey := isKey_of_type (fun h => h1 (.inl h)) (fun h => h2 (.inr h)) h3
    refine ⟨_, rfl, ⟨fun _ => hw₁.agrees hkey, hw₁.merges⟩, fun row h _ => ?_⟩
    rw [Sat_of_isKey hkey] at h
    exact h
  rename_i h4
  obtain ⟨hkey1, hkey2⟩ := isKey_of_types h1 h2 h3 h4
  have hok1 := fun imerge => @imergeOk_imergeListAndTree _ _ _ _ tree2 hparam _ hw₁.merges imerge
  have hok2 := fun imerge => @imergeOk_imergeListAndTree _ _ _ _ tree1 hparam _ hw₂.merges imerge
  dsimp only
  obtain ⟨r, hmerges, ⟨hand, hrkey, hagrees, himplied⟩ | ⟨hand, htype, hnone⟩⟩ :=
    andRangeTrees_cases hparam hkey1 hkey2 hw₁ (param.imergeListAndTree tree1.merges tree2) <;>
    rw [hand]
  · have hok : ∀ imerge ∈ param.imergeListAndTree tree1.merges tree2 ++
        param.imergeListAndTree tree2.merges tree1, ImergeOk param imerge :=
      forall_mem_append.mpr ⟨hok1, hok2⟩
    have hrkey' : ({ r with merges := [] } : SelTree A).IsKey := hrkey
    obtain ⟨r', hr', hw', hsat'⟩ := eliminate_ok hparam fuel (.inl hrkey')
      ⟨fun _ => hagrees, forall_mem_nil _⟩ rfl hok (forall_mem_nil _)
    refine ⟨r', hr', hw', fun row hs1 hs2 => hsat' row ?_ ?_⟩
    · rw [Sat_of_isKey hrkey']
      exact ⟨himplied row hs1 hs2, forall_mem_nil _⟩
    · rw [Sat_of_isKey hkey1] at hs1
      rw [Sat_of_isKey hkey2] at hs2
      rw [append_nil]
      exact forall_mem_append.mpr
        ⟨satImerge_imergeListAndTree hparam hw₁.merges hs1.2 hs2.1,
          satImerge_imergeListAndTree hparam hw₂.merges hs2.2 hs1.1⟩
  · refine ⟨r, rfl, ⟨fun h => absurd h (not_isKey_impossible htype), ?_⟩, fun row hs1 hs2 =>
      absurd hs2 (hnone row hs1)⟩
    rw [hmerges]
    exact hok1

lemma satRanges_orInto {oredKeys : Nat -> Bool}
    (h : orTree.SatRanges param sat row ∨ tree.SatRanges param sat row) :
    (param.orInto orTree tree oredKeys).SatRanges param sat row := by
  intro i hi a ha
  obtain ⟨-, ha⟩ := ite_none_right_eq_some.mp ha
  rw [oredKey] at ha
  split at ha
  · rename_i key1 key2 h1 h2
    exact hparam.keyOr key1 key2 row (h.imp (fun h => h i hi key1 h1) fun h => h i hi key2 h2) a ha
  · cases ha

omit hparam in
lemma member_orInto {oredKeys : Nat -> Bool} (h : orTree.Member param) :
    (param.orInto orTree tree oredKeys).Member param := by
  refine ⟨?_, fun i _ => rfl⟩
  by_cases hclear : param.isClearAll (param.orInto orTree tree oredKeys).keysMap = true
  · refine .inr ⟨if_pos hclear, fun i hi => ?_⟩
    have hbit := isClearAll_iff.mp hclear i hi
    exact not_isSome_iff_eq_none.mp (Bool.eq_false_iff.mp hbit)
  · rcases h.type with hkey | ⟨-, hnone⟩
    · left
      have htype : (param.orInto orTree tree oredKeys).type = orTree.type := if_neg hclear
      rwa [IsKey, htype]
    · refine absurd (isClearAll_iff.mpr fun i hi => ?_) hclear
      have hkey : param.oredKey orTree tree i = none := by rw [oredKey, hnone i hi]
      simp [orInto, hkey]

/-- The trees of an imerge after the loop of one OR: a tree that took the other operand up is weaker,
and the imerges of a tree stay. -/
structure OredOk (param : RangeOptParam A) (sat : A -> Row -> Prop) (imerge : List (SelTree A))
    (tree : SelTree A) (r : OredTrees A) : Prop where
  members : ∀ m ∈ r.trees, m.Member param
  merges : r.trees.map SelTree.merges = imerge.map SelTree.merges
  weaker : ∀ row, SatImerge param sat imerge row -> SatImerge param sat r.trees row
  ored : r.discard = true ∨ r.wasOred = true ->
    ∀ row, tree.SatRanges param sat row -> SatImerge param sat r.trees row

omit hparam in
lemma satImerge_cons {m : SelTree A} : SatImerge param sat (m :: imerge) row ↔
    m.SatRanges param sat row ∨ SatImerge param sat imerge row := by
  simp [SatImerge]

omit hparam in
lemma satImerge_append : SatImerge param sat (imerge ++ imerge') row ↔
    SatImerge param sat imerge row ∨ SatImerge param sat imerge' row := by
  simp [SatImerge, or_and_right, exists_or]

lemma orTrees_ok (isFirst : Bool) (hmem : ∀ m ∈ imerge, m.Member param) :
    OredOk param sat imerge tree (param.orTrees tree isFirst imerge) := by
  induction imerge with
  | nil =>
    refine ⟨hmem, rfl, fun row h => h, ?_⟩
    rintro (h | h) <;> cases h
  | cons m rest ih =>
    obtain ⟨hm, hmem⟩ := forall_mem_cons.mp hmem
    obtain ⟨hmembers, hmerges, hweaker, hored⟩ := ih hmem
    have hstay : OredOk param sat (m :: rest) tree
        { param.orTrees tree isFirst rest with trees := m :: (param.orTrees tree isFirst rest).trees } := by
      refine ⟨forall_mem_cons.mpr ⟨hm, hmembers⟩, by simp [hmerges], fun row h => ?_,
        fun h row hs => ?_⟩
      · exact satImerge_cons.mpr ((satImerge_cons.mp h).imp_right (hweaker row))
      · exact satImerge_cons.mpr (.inr (hored h row hs))
    rw [orTrees]
    cases param.selTreesCanBeOred m tree with
    | none => exact hstay
    | some oredKeys =>
      dsimp only
      have hnew := @member_orInto _ param tree m oredKeys hm
      split
      · split
        · refine ⟨forall_mem_cons.mpr ⟨hnew, hmem⟩, rfl, fun row h => ?_, fun _ row hs => ?_⟩
          · exact satImerge_cons.mpr ((satImerge_cons.mp h).imp_left fun h =>
              satRanges_orInto hparam (.inl h))
          · exact satImerge_cons.mpr (.inl (satRanges_orInto hparam (.inr hs)))
        · refine ⟨forall_mem_cons.mpr ⟨hnew, hmembers⟩, by simp [hmerges, orInto],
            fun row h => ?_, fun _ row hs => ?_⟩
          · exact satImerge_cons.mpr ((satImerge_cons.mp h).imp
              (fun h => satRanges_orInto hparam (.inl h)) (hweaker row))
          · exact satImerge_cons.mpr (.inl (satRanges_orInto hparam (.inr hs)))
      · exact { hstay with }

/-- An imerge after an OR with something: it has grown at its end, and the trees that were there from
the start are weaker. -/
structure GrownOk (param : RangeOptParam A) (sat : A -> Row -> Prop) (n : Nat) (imerge : List (SelTree A))
    (other : Row -> Prop) (r : OredTrees A) : Prop where
  members : ∀ m ∈ r.trees, m.Member param
  merges : ∃ l, r.trees.map SelTree.merges = imerge.map SelTree.merges ++ l
  taken : ∀ row, SatImerge param sat (imerge.take n) row -> SatImerge param sat (r.trees.take n) row
  weaker : ∀ row, SatImerge param sat imerge row -> SatImerge param sat r.trees row
  ored : r.discard = false -> ∀ row, other row -> SatImerge param sat r.trees row

lemma orSelTreeWithChecks_ok {n : Nat} (hn : n ≤ imerge.length) (isFirst : Bool)
    (hmem : ∀ m ∈ imerge, m.Member param) (htree : tree.Member param) :
    GrownOk param sat n imerge (tree.SatRanges param sat)
      (param.orSelTreeWithChecks imerge n tree isFirst) := by
  have hok := @orTrees_ok _ _ _ _ tree (imerge.take n) hparam isFirst fun m hm =>
    hmem m (mem_of_mem_take hm)
  rw [orSelTreeWithChecks]
  generalize param.orTrees tree isFirst (imerge.take n) = ored at hok ⊢
  obtain ⟨hmembers, hmerges, hweaker, hored⟩ := hok
  have hlen : ored.trees.length = n := by
    have h := congrArg length hmerges
    rw [length_map, length_map, length_take] at h
    omega
  have hmap : (ored.trees ++ imerge.drop n).map SelTree.merges = imerge.map SelTree.merges := by
    rw [map_append, hmerges, ← map_append, take_append_drop]
  have hmembers' : ∀ m ∈ ored.trees ++ imerge.drop n, m.Member param :=
    forall_mem_append.mpr ⟨hmembers, fun m h => hmem m (mem_of_mem_drop h)⟩
  have hweaker' : ∀ row, SatImerge param sat imerge row ->
      SatImerge param sat (ored.trees ++ imerge.drop n) row := by
    intro row h
    rw [← take_append_drop n imerge, satImerge_append] at h
    exact satImerge_append.mpr (h.imp_left (hweaker row))
  have hlast : ∀ tree' : SelTree A, tree'.Member param ->
      (∀ row, tree.SatRanges param sat row -> tree'.SatRanges param sat row) ->
      GrownOk param sat n imerge (tree.SatRanges param sat)
        { ored with trees := ored.trees ++ imerge.drop n ++ [tree'] } := by
    intro tree' hmem' hsat
    refine ⟨forall_mem_append.mpr ⟨hmembers', forall_mem_singleton.mpr hmem'⟩,
      ⟨[tree'.merges], ?_⟩, ?_, ?_, ?_⟩
    · rw [map_append, hmap, map_singleton]
    · intro row h
      rw [append_assoc, take_left' hlen]
      exact hweaker row h
    · exact fun row h => satImerge_append.mpr (.inl (hweaker' row h))
    · exact fun _ row h => satImerge_append.mpr (.inr ⟨tree', mem_singleton_self _, hsat row h⟩)
  split
  · rename_i htaken
    refine ⟨hmembers', ⟨[], by rw [hmap, append_nil]⟩, ?_, hweaker', ?_⟩
    · intro row h
      rw [take_left' hlen]
      exact hweaker row h
    · intro _ row h
      exact satImerge_append.mpr (.inl (hored (Bool.or_eq_true _ _ ▸ htaken) row h))
  · split
    · exact hlast tree.copy ⟨htree.type, htree.agrees⟩ fun row h => h
    · exact hlast tree htree fun row h => h

lemma orSelImergeWithChecks_ok {trees : List (SelTree A)} (hn : n ≤ imerge.length)
    (isFirst : Bool) (hmem : ∀ m ∈ imerge, m.Member param) (htrees : ∀ m ∈ trees, m.Member param) :
    GrownOk param sat n imerge (SatImerge param sat trees)
      (param.orSelImergeWithChecks n isFirst imerge trees) := by
  induction trees generalizing imerge with
  | nil =>
    refine ⟨hmem, ⟨[], (append_nil _).symm⟩, fun row h => h, fun row h => h, ?_⟩
    rintro - row ⟨m, hm, -⟩
    cases hm
  | cons tree trees ih =>
    obtain ⟨htree, htrees⟩ := forall_mem_cons.mp htrees
    have hstep := @orSelTreeWithChecks_ok _ _ _ _ tree imerge hparam n hn isFirst hmem htree
    rw [orSelImergeWithChecks]
    generalize param.orSelTreeWithChecks imerge n tree isFirst = ored at hstep ⊢
    obtain ⟨l, hl⟩ := hstep.merges
    split
    · rename_i hdiscard
      exact { hstep with ored := fun h => absurd (hdiscard.symm.trans h) Bool.noConfusion }
    · rename_i hdiscard
      have hlen := congrArg length hl
      rw [length_map, length_append, length_map] at hlen
      obtain ⟨hmembers, ⟨l', hl'⟩, htaken, hweaker, hored⟩ :=
        @ih ored.trees (by omega) hstep.members htrees
      refine ⟨hmembers, ⟨l ++ l', by rw [← append_assoc, ← hl, hl']⟩,
        fun row h => htaken row (hstep.taken row h), fun row h => hweaker row (hstep.weaker row h), ?_⟩
      intro h row hsat
      rcases satImerge_cons.mp hsat with hsat | hsat
      · exact hweaker row (hstep.ored (Bool.eq_false_iff.mpr hdiscard) row hsat)
      · exact hored h row hsat

omit hparam in
lemma GrownOk.imergeOk {r : OredTrees A} (h : GrownOk param sat n imerge other r)
    (hok : ImergeOk param imerge) : ImergeOk param r.trees := by
  obtain ⟨l, hl⟩ := h.merges
  obtain ⟨m, rest, rfl⟩ := exists_cons_of_ne_nil hok.nonempty
  refine ⟨?_, h.members, ?_⟩
  · intro hnil
    rw [hnil] at hl
    cases hl
  · intro m' hm'
    rw [hm', map_singleton, map_cons, cons_append] at hl
    obtain ⟨hhead, htail⟩ := cons.inj hl
    have hrest : rest = [] := by
      have := congrArg length htail
      rw [length_nil, length_append, length_map] at this
      exact length_eq_zero_iff.mp (by omega)
    rw [hhead]
    exact hok.single m (by rw [hrest])

omit hparam in
lemma imergeOk_copyImerge (hok : ImergeOk param imerge) :
    ImergeOk param (copyImerge imerge n) := by
  have hsub : ∀ m ∈ copyImerge imerge n, m.Member param ∧ m.merges = [] := by
    intro m hm
    obtain ⟨m', hm', rfl⟩ := mem_map.mp hm
    have hmem : m' ∈ imerge := by
      split at hm'
      · exact hm'
      · exact mem_of_mem_take hm'
    exact ⟨⟨(hok.members m' hmem).type, (hok.members m' hmem).agrees⟩, rfl⟩
  refine ⟨?_, fun m hm => (hsub m hm).1, fun m hm => (hsub m (hm ▸ mem_singleton_self m)).2⟩
  intro hnil
  rw [copyImerge, map_eq_nil_iff] at hnil
  split at hnil
  · exact hok.nonempty hnil
  · rename_i hn
    rcases take_eq_nil_iff.mp hnil with h | h
    · exact hn h
    · exact hok.nonempty h

omit hparam in
lemma satImerge_copyImerge
    (h : SatImerge param sat (if n = 0 then imerge else imerge.take n) row) :
    SatImerge param sat (copyImerge imerge n) row := by
  obtain ⟨m, hm, hsat⟩ := h
  exact ⟨m.rangePart, mem_map_of_mem hm, hsat⟩

omit hparam in
/-- The copy for the second pass: the trees that were there from the start, after the first one. -/
lemma GrownOk.satImerge_copy {r : OredTrees A} (hok : ImergeOk param imerge)
    (h : GrownOk param sat imerge.length imerge other r) (hsat : SatImerge param sat imerge row) :
    SatImerge param sat (copyImerge r.trees imerge.length) row := by
  apply satImerge_copyImerge
  have hlen : imerge.length ≠ 0 := fun h => hok.nonempty (length_eq_zero_iff.mp h)
  rw [if_neg hlen]
  exact h.taken row (by rwa [take_length])

omit hparam in
lemma GrownOk.length_copy {r : OredTrees A} (hok : ImergeOk param imerge)
    (h : GrownOk param sat imerge.length imerge other r) :
    imerge.length ≤ (copyImerge r.trees imerge.length).length := by
  obtain ⟨l, hl⟩ := h.merges
  have hlen := congrArg length hl
  have hne : imerge.length ≠ 0 := fun h => hok.nonempty (length_eq_zero_iff.mp h)
  rw [length_map, length_append, length_map] at hlen
  rw [copyImerge, if_neg hne, length_map, length_take]
  omega

lemma imergeListOrList_ok {im1 im2 : List (List (SelTree A))} (h1 : ImergeOk param (im1.headD []))
    (h2 : ImergeOk param (im2.headD [])) :
    (∀ imerge ∈ (param.imergeListOrList im1 im2).2, ImergeOk param imerge) ∧
      ((param.imergeListOrList im1 im2).1 = true -> ∀ row,
        SatImerge param sat (im1.headD []) row ∨ SatImerge param sat (im2.headD []) row ->
        ∀ imerge ∈ (param.imergeListOrList im1 im2).2, SatImerge param sat imerge row) := by
  rw [imergeListOrList]
  have hfirst := orSelImergeWithChecks_ok hparam (Nat.le_refl _) true h1.members h2.members
  generalize param.orSelImergeWithChecks (im1.headD []).length true (im1.headD []) (im2.headD []) =
    first at hfirst ⊢
  have hok := hfirst.imergeOk h1
  have hsat : first.discard = false -> ∀ row,
      SatImerge param sat (im1.headD []) row ∨ SatImerge param sat (im2.headD []) row ->
      SatImerge param sat first.trees row := fun hd row h =>
    h.elim (hfirst.weaker row) (hfirst.ored hd row)
  dsimp only
  split
  · simp
  rename_i hdiscard
  have hdiscard := Bool.eq_false_iff.mpr hdiscard
  split
  · simp only [mem_singleton, forall_eq]
    exact ⟨hok, fun _ row h => hsat hdiscard row h⟩
  have hcopy : ImergeOk param (copyImerge first.trees (im1.headD []).length) := imergeOk_copyImerge hok
  have hsecond := orSelImergeWithChecks_ok hparam (hfirst.length_copy h1) false hcopy.members
    h2.members
  split
  · simp only [mem_singleton, forall_eq]
    exact ⟨hok, nofun⟩
  · rename_i hdiscard'
    simp only [mem_cons, not_mem_nil, or_false, forall_eq_or_imp, forall_eq]
    refine ⟨⟨hok, hsecond.imergeOk hcopy⟩, fun _ row h => ⟨hsat hdiscard row h, ?_⟩⟩
    rcases h with h | h
    · exact hsecond.weaker row (hfirst.satImerge_copy h1 h)
    · exact hsecond.ored (Bool.eq_false_iff.mpr hdiscard') row h

lemma imergeOrTree_ok (hok : ImergeOk param imerge) (htree : tree.Member param)
    (h : (param.imergeOrTree imerge tree).1 = some imerge' ∨
      (param.imergeOrTree imerge tree).2 = some imerge') :
    ImergeOk param imerge' ∧ ∀ row, SatImerge param sat imerge row ∨ tree.SatRanges param sat row ->
      SatImerge param sat imerge' row := by
  have hcopy : tree.copy.Member param := ⟨htree.type, htree.agrees⟩
  rw [imergeOrTree] at h
  have hfirst := orSelTreeWithChecks_ok hparam (Nat.le_refl _) true hok.members hcopy
  generalize param.orSelTreeWithChecks imerge imerge.length tree.copy true = first at hfirst h
  have hleft : first.discard = false -> ImergeOk param first.trees ∧ ∀ row,
      SatImerge param sat imerge row ∨ tree.SatRanges param sat row ->
      SatImerge param sat first.trees row := fun hd =>
    ⟨hfirst.imergeOk hok, fun row h => h.elim (hfirst.weaker row) (hfirst.ored hd row)⟩
  split at h
  · rcases h with h | h
    · obtain ⟨hd, h⟩ := ite_none_left_eq_some.mp h
      obtain rfl := some.inj h
      exact hleft (Bool.eq_false_iff.mpr hd)
    · cases h
  · have hcopyOk : ImergeOk param (copyImerge first.trees imerge.length) :=
      imergeOk_copyImerge (hfirst.imergeOk hok)
    have hsecond := orSelTreeWithChecks_ok hparam (hfirst.length_copy hok) false hcopyOk.members hcopy
    rcases h with h | h
    · obtain ⟨hd, h⟩ := ite_none_left_eq_some.mp h
      obtain rfl := some.inj h
      rw [Bool.or_eq_true, not_or] at hd
      exact hleft (Bool.eq_false_iff.mpr hd.1)
    · obtain ⟨hd, h⟩ := ite_none_left_eq_some.mp h
      obtain rfl := some.inj h
      refine ⟨hsecond.imergeOk hcopyOk, fun row h => ?_⟩
      rcases h with h | h
      · exact hsecond.weaker row (hfirst.satImerge_copy hok h)
      · exact hsecond.ored (Bool.eq_false_iff.mpr hd) row h

lemma imergeListOrTree_ok (hok : ImergeOk param imerge) (htree : tree.Member param)
    (h : imerge' ∈ param.imergeListOrTree [imerge] tree) :
    ImergeOk param imerge' ∧ ∀ row, SatImerge param sat imerge row ∨ tree.SatRanges param sat row ->
      SatImerge param sat imerge' row := by
  apply imergeOrTree_ok hparam hok htree
  refine (mem_append.mp h).imp (fun h => ?_) fun h => ?_ <;>
  · obtain ⟨im, him, heq⟩ := mem_filterMap.mp h
    rwa [mem_singleton.mp him] at heq

lemma orRanges_ok (ha : tree1.Agrees param) :
    (param.orRanges tree1 tree2).1.merges = [] ∧ (param.orRanges tree1 tree2).1.Agrees param ∧
      ∀ row, tree1.SatRanges param sat row ∨ tree2.SatRanges param sat row ->
        (param.orRanges tree1 tree2).1.SatRanges param sat row := by
  rw [orRanges]
  cases param.selTreesCanBeOred tree1 tree2 with
  | none =>
    refine ⟨rfl, fun i _ => rfl, fun row _ i _ a h => ?_⟩
    cases h
  | some oredKeys =>
    dsimp only
    have hother : ∀ i < param.keys, oredKeys i = false ->
        (if (param.selTreesMustBeOred tree1 tree2 oredKeys && tree1.merges.isEmpty &&
          tree2.merges.isEmpty) = true then tree1 else .empty).keys i = none := by
      intro i hi hnot
      split
      · rename_i hsimple
        simp only [Bool.and_eq_true, selTreesMustBeOred] at hsimple
        have hclear := isClearAll_iff.mp hsimple.1.1.1 i hi
        simp only [hnot, Bool.not_false, Bool.and_true, Bool.or_eq_false_iff] at hclear
        have hmap := ha i hi
        rw [hclear.1] at hmap
        exact not_isSome_iff_eq_none.mp (Bool.eq_false_iff.mp hmap.symm)
      · rfl
    refine ⟨?_, ?_, ?_⟩
    · split
      · rename_i hsimple
        simp only [Bool.and_eq_true] at hsimple
        exact isEmpty_iff.mp hsimple.1.2
      · rfl
    · intro i hi
      cases hored : oredKeys i with
      | true => simp [hored]
      | false =>
        simp only [hored]
        rw [hother i hi hored]
        rfl
    · intro row h i hi a hkey
      cases hored : oredKeys i with
      | true =>
        simp only [hored, if_true, oredKey] at hkey
        split at hkey
        · rename_i key1 key2 h1 h2
          exact hparam.keyOr key1 key2 row
            (h.imp (fun h => h i hi key1 h1) fun h => h i hi key2 h2) a hkey
        · cases hkey
      | false =>
        simp only [hored] at hkey
        rw [hother i hi hored] at hkey
        cases hkey

omit hparam in
lemma orRanges_isKey (hkey : tree1.IsKey) : (param.orRanges tree1 tree2).1.IsKey := by
  rw [orRanges]
  cases param.selTreesCanBeOred tree1 tree2 with
  | none => exact .inl rfl
  | some oredKeys => exact hkey

omit hparam in
lemma headD_mem {l : List (List (SelTree A))} (hne : l.isEmpty = false) : l.headD [] ∈ l := by
  cases l with
  | nil => cases hne
  | cons m rest => exact mem_cons_self ..

/-- The imerge part for the first imerge of a tree and the ranges of the other one. -/
lemma orImergeRanges_ok (hw : tree2.WellFormed param) (hkey : tree1.IsKey)
    (ha : tree1.Agrees param) {ranges : Bool} (h : imerge' ∈ if ranges && !tree2.merges.isEmpty then
      param.imergeListOrTree [copyImerge (tree2.merges.headD []) 0] tree1.rangePart else []) :
    ImergeOk param imerge' ∧ ∀ row, tree1.SatRanges param sat row ∨
      (∀ imerge ∈ tree2.merges, SatImerge param sat imerge row) -> SatImerge param sat imerge' row := by
  split at h
  case isFalse => cases h
  rename_i hboth
  rw [Bool.and_eq_true, Bool.not_eq_true'] at hboth
  have hne := hboth.2
  have hhead := hw.merges _ (headD_mem hne)
  obtain ⟨hok, hsat⟩ := imergeListOrTree_ok hparam (imergeOk_copyImerge hhead)
    (show tree1.rangePart.Member param from ⟨.inl hkey, ha⟩) h
  refine ⟨hok, fun row h => hsat row ?_⟩
  rcases h with h | h
  · exact .inr h
  · exact .inl (satImerge_copyImerge (h _ (headD_mem hne)))

omit hparam in
lemma rangesImerge_ok {rt1 rt2 : SelTree A} {holds : Row -> Prop} (hkey1 : tree1.IsKey)
    (hkey2 : tree2.IsKey) (ha1 : tree1.Agrees param) (ha2 : tree2.Agrees param)
    (h1 : rt1.type = tree1.type ∧ rt1.keys = tree1.keys ∧ rt1.keysMap = tree1.keysMap)
    (h2 : rt2.type = tree2.type ∧ rt2.keys = tree2.keys ∧ rt2.keysMap = tree2.keysMap)
    (hsat : ∀ row, holds row -> tree1.SatRanges param sat row ∨ tree2.SatRanges param sat row) :
    ImergeOk param [rt1, rt2] ∧ ∀ row, holds row -> SatImerge param sat [rt1, rt2] row := by
  refine ⟨⟨cons_ne_nil _ _, ?_, ?_⟩, fun row h => ?_⟩
  · intro m hm
    simp only [mem_cons, not_mem_nil, or_false] at hm
    rcases hm with rfl | rfl
    · exact ⟨.inl (by rwa [IsKey, h1.1]), by rwa [Agrees, h1.2.1, h1.2.2]⟩
    · exact ⟨.inl (by rwa [IsKey, h2.1]), by rwa [Agrees, h2.2.1, h2.2.2]⟩
  · intro m hm
    cases hm
  · rcases hsat row h with h | h
    · exact ⟨rt1, mem_cons_self .., by rwa [SatRanges, h1.2.1]⟩
    · exact ⟨rt2, mem_cons_of_mem _ (mem_singleton_self _), by rwa [SatRanges, h2.2.1]⟩

lemma treeOrTrees_ok (hw₁ : tree1.WellFormed param) (hw₂ : tree2.WellFormed param) :
    (param.treeOrTrees tree1 tree2).WellFormed param ∧
      ∀ row, tree1.Sat param sat row ∨ tree2.Sat param sat row ->
        (param.treeOrTrees tree1 tree2).Sat param sat row := by
  rw [treeOrTrees]
  split
  · rename_i h
    refine ⟨hw₂, fun row hsat => ?_⟩
    rcases hsat with hsat | hsat
    · rcases h with h | h
      · simp only [Sat, h] at hsat
      · simp [Sat, h]
    · exact hsat
  rename_i h1
  split
  · rename_i h
    refine ⟨hw₁, fun row hsat => ?_⟩
    rcases hsat with hsat | hsat
    · exact hsat
    · rcases h with h | h
      · simp only [Sat, h] at hsat
      · simp [Sat, h]
  rename_i h2
  split
  · rename_i h
    refine ⟨hw₁, fun row _ => ?_⟩
    simp [Sat, h]
  rename_i h3
  split
  · rename_i h
    refine ⟨hw₂, fun row _ => ?_⟩
    simp [Sat, h]
  rename_i h4
  obtain ⟨hkey1, hkey2⟩ := isKey_of_types h1 h2 h3 h4
  obtain ⟨hmerges, hagrees, hranges⟩ := @orRanges_ok _ _ _ _ tree1 tree2 hparam (hw₁.agrees hkey1)
  have hsat : ∀ row, tree1.Sat param sat row ∨ tree2.Sat param sat row ->
      (tree1.SatRanges param sat row ∧ ∀ imerge ∈ tree1.merges, SatImerge param sat imerge row) ∨
      (tree2.SatRanges param sat row ∧ ∀ imerge ∈ tree2.merges, SatImerge param sat imerge row) := by
    intro row h
    rwa [Sat_of_isKey hkey1, Sat_of_isKey hkey2] at h
  have hrkey := @orRanges_isKey _ param tree1 tree2 hkey1
  have ha1 := hw₁.agrees hkey1
  have ha2 := hw₂.agrees hkey2
  generalize param.orRanges tree1 tree2 = ored at hmerges hagrees hranges hrkey ⊢
  obtain ⟨result, must⟩ := ored
  dsimp only at hmerges hagrees hranges hrkey ⊢
  have hresult : ∀ row, tree1.Sat param sat row ∨ tree2.Sat param sat row ->
      result.SatRanges param sat row := fun row h =>
    hranges row ((hsat row h).imp And.left And.left)
  split
  · split
    · refine ⟨⟨fun h => ?_, hmerges ▸ forall_mem_nil _⟩, fun row _ => trivial⟩
      rcases h with h | h <;> cases h
    · refine ⟨⟨fun _ => hagrees, hmerges ▸ forall_mem_nil _⟩, fun row h => ?_⟩
      rw [Sat_of_isKey hrkey, hmerges]
      exact ⟨hresult row h, forall_mem_nil _⟩
  have hparts : ∀ merges : List (List (SelTree A)), (∀ imerge ∈ merges, ImergeOk param imerge ∧
        ∀ row, tree1.Sat param sat row ∨ tree2.Sat param sat row -> SatImerge param sat imerge row) ->
      ({ result with type := tree1.type, merges := merges } : SelTree A).WellFormed param ∧
        ∀ row, tree1.Sat param sat row ∨ tree2.Sat param sat row ->
          ({ result with type := tree1.type, merges := merges } : SelTree A).Sat param sat row := by
    intro merges hall
    refine ⟨⟨fun _ => hagrees, fun imerge h => (hall imerge h).1⟩, fun row h => ?_⟩
    rw [Sat_of_isKey (show IsKey { result with type := tree1.type, merges := merges } from hkey1)]
    exact ⟨hresult row h, fun imerge him => (hall imerge him).2 row h⟩
  apply hparts
  intro imerge him
  rcases mem_append.mp him with him | him
  · rcases mem_append.mp him with him | him
    · rcases mem_append.mp him with him | him
      · split at him
        · rw [mem_singleton.mp him]
          refine rangesImerge_ok hkey1 hkey2 ha1 ha2 ?_ ?_ fun row h =>
            (hsat row h).imp And.left And.left
          iterate 2 split <;> exact ⟨rfl, rfl, rfl⟩
        · cases him
      · cases hboth : !tree1.merges.isEmpty && !tree2.merges.isEmpty with
        | false =>
          rw [hboth] at him
          cases him
        | true =>
          rw [hboth, if_pos rfl] at him
          rw [Bool.and_eq_true, Bool.not_eq_true', Bool.not_eq_true'] at hboth
          split at him
          · rename_i hsuccess
            have hhead1 := headD_mem hboth.1
            have hhead2 := headD_mem hboth.2
            obtain ⟨hok, himplied⟩ := @imergeListOrList_ok _ _ _ sat hparam _ _ (hw₁.merges _ hhead1)
              (hw₂.merges _ hhead2)
            refine ⟨hok imerge him, fun row h => himplied hsuccess row ?_ imerge him⟩
            exact (hsat row h).imp (fun h => h.2 _ hhead1) fun h => h.2 _ hhead2
          · cases him
    · obtain ⟨hok, himplied⟩ := orImergeRanges_ok hparam hw₂ hkey1 ha1 him
      exact ⟨hok, fun row h => himplied row ((hsat row h).imp And.left And.right)⟩
  · obtain ⟨hok, himplied⟩ := orImergeRanges_ok hparam hw₁ hkey2 ha2 him
    exact ⟨hok, fun row h => himplied row ((hsat row h).symm.imp And.left And.right)⟩

end RangeOptParam

/-- A tree that is NULL is true. -/
def SatOption (param : RangeOptParam A) (sat : A -> Row -> Prop) (tree : Option (SelTree A))
    (row : Row) : Prop :=
  ∀ t, tree = some t -> t.Sat param sat row

def WellFormedOption (param : RangeOptParam A) (tree : Option (SelTree A)) : Prop :=
  ∀ t, tree = some t -> t.WellFormed param

section
variable (hparam : param.Sound sat) {tree1 tree2 : Option (SelTree A)}
  (hw₁ : WellFormedOption param tree1) (hw₂ : WellFormedOption param tree2)
include hparam hw₁ hw₂

lemma treeAnd_ok {fuel : Nat} (hfuel : 2 ≤ fuel) :
    ∃ r, param.treeAnd fuel tree1 tree2 = some r ∧ WellFormedOption param r ∧
      ∀ row, SatOption param sat tree1 row -> SatOption param sat tree2 row ->
        SatOption param sat r row := by
  rcases tree1 with - | tree1
  · exact ⟨tree2, rfl, hw₂, fun row _ h => h⟩
  rcases tree2 with - | tree2
  · exact ⟨some tree1, rfl, hw₁, fun row h _ => h⟩
  obtain ⟨fuel, rfl⟩ : ∃ k, fuel = k + 2 := ⟨fuel - 2, by omega⟩
  obtain ⟨r, hr, hok⟩ := @RangeOptParam.treeAndTrees_ok _ _ _ sat tree1 tree2 hparam fuel
    (hw₁ tree1 rfl) (hw₂ tree2 rfl)
  refine ⟨some r, by rw [RangeOptParam.treeAnd, hr, map_some], ?_, ?_⟩
  · rintro t ⟨⟩
    exact hok.wellFormed
  · rintro row h1 h2 t ⟨⟩
    exact hok.implied row (h1 tree1 rfl) (h2 tree2 rfl)

lemma treeOr_ok : WellFormedOption param (param.treeOr tree1 tree2) ∧
    ∀ row, SatOption param sat tree1 row ∨ SatOption param sat tree2 row ->
      SatOption param sat (param.treeOr tree1 tree2) row := by
  rcases tree1 with - | tree1
  · constructor
    · rintro t ⟨⟩
    · rintro row - t ⟨⟩
  rcases tree2 with - | tree2
  · constructor
    · rintro t ⟨⟩
    · rintro row - t ⟨⟩
  obtain ⟨hw, himplied⟩ := RangeOptParam.treeOrTrees_ok hparam (hw₁ tree1 rfl) (hw₂ tree2 rfl)
  constructor
  · rintro t ⟨⟩
    exact hw
  · rintro row h t ⟨⟩
    exact himplied row (h.imp (fun h => h tree1 rfl) fun h => h tree2 rfl)

end

/-- The AND and the OR of two trees are implied by the AND and the OR of what they stand for, and they
can be operands again. -/
theorem tree_and_or_implied (param : RangeOptParam A) (sat : A -> Row -> Prop)
    (hparam : param.Sound sat) (tree1 tree2 : Option (SelTree A))
    (hw₁ : WellFormedOption param tree1) (hw₂ : WellFormedOption param tree2) :
    (∀ fuel, 2 ≤ fuel -> ∃ r, param.treeAnd fuel tree1 tree2 = some r ∧ WellFormedOption param r ∧
      ∀ row, SatOption param sat tree1 row -> SatOption param sat tree2 row ->
        SatOption param sat r row) ∧
    WellFormedOption param (param.treeOr tree1 tree2) ∧
    ∀ row, SatOption param sat tree1 row ∨ SatOption param sat tree2 row ->
      SatOption param sat (param.treeOr tree1 tree2) row := by
  obtain ⟨hw, himplied⟩ := treeOr_ok hparam hw₁ hw₂
  exact ⟨fun fuel hfuel => treeAnd_ok hparam hw₁ hw₂ hfuel, hw, himplied⟩

/-- A condition that is analysed: the trees of its comparisons, with AND and OR of two. -/
inductive RangeCond (A : Type)
  | leaf (tree : Option (SelTree A))
  | and (c d : RangeCond A)
  | or (c d : RangeCond A)

namespace RangeCond

/-- The tree that `get_mm_tree` builds for a condition. -/
def getMmTree (param : RangeOptParam A) (fuel : Nat) : RangeCond A -> Option (Option (SelTree A))
  | leaf t => some t
  | and c d => (c.getMmTree param fuel).bind fun t => (d.getMmTree param fuel).bind fun u =>
    param.treeAnd fuel t u
  | or c d => (c.getMmTree param fuel).bind fun t => (d.getMmTree param fuel).map fun u => param.treeOr t u

def Holds (param : RangeOptParam A) (sat : A -> Row -> Prop) : RangeCond A -> Row -> Prop
  | leaf t, row => SatOption param sat t row
  | and c d, row => c.Holds param sat row ∧ d.Holds param sat row
  | or c d, row => c.Holds param sat row ∨ d.Holds param sat row

def WellFormed (param : RangeOptParam A) : RangeCond A -> Prop
  | leaf t => WellFormedOption param t
  | and c d => c.WellFormed param ∧ d.WellFormed param
  | or c d => c.WellFormed param ∧ d.WellFormed param

lemma getMmTree_implied (hparam : param.Sound sat) {fuel : Nat} (hfuel : 2 ≤ fuel) (c : RangeCond A)
    (hc : c.WellFormed param) : ∃ r, c.getMmTree param fuel = some r ∧ WellFormedOption param r ∧
      ∀ row, c.Holds param sat row -> SatOption param sat r row := by
  induction c with
  | leaf t => exact ⟨t, rfl, hc, fun row h => h⟩
  | and c d ihc ihd =>
    obtain ⟨t, ht, hwt, hct⟩ := ihc hc.1
    obtain ⟨u, hu, hwu, hdu⟩ := ihd hc.2
    obtain ⟨r, hr, hwr, hand⟩ := treeAnd_ok hparam hwt hwu hfuel
    refine ⟨r, ?_, hwr, fun row h => hand row (hct row h.1) (hdu row h.2)⟩
    simp [getMmTree, ht, hu, hr]
  | or c d ihc ihd =>
    obtain ⟨t, ht, hwt, hct⟩ := ihc hc.1
    obtain ⟨u, hu, hwu, hdu⟩ := ihd hc.2
    obtain ⟨hwr, hor⟩ := treeOr_ok hparam hwt hwu
    refine ⟨param.treeOr t u, ?_, hwr, fun row h => hor row (h.imp (hct row) (hdu row))⟩
    simp [getMmTree, ht, hu]

end RangeCond

mutual

/-- A tree read as a whole: in an imerge, too, it stands for its ranges and its imerges. -/
def SelTree.holdsWhole (n : Nat) (holds : A -> Bool) : SelTree A -> Bool
  | ⟨.impossible, _, _, _⟩ => false
  | ⟨.always, _, _, _⟩ | ⟨.maybe, _, _, _⟩ => true
  | ⟨.key, ranges, _, merges⟩ | ⟨.keySmaller, ranges, _, merges⟩ =>
    ((List.range n).all fun i => (ranges i).all holds) && mergesHoldWhole n holds merges

def mergesHoldWhole (n : Nat) (holds : A -> Bool) : List (List (SelTree A)) -> Bool
  | [] => true
  | imerge :: rest => imergeHoldsWhole n holds imerge && mergesHoldWhole n holds rest

def imergeHoldsWhole (n : Nat) (holds : A -> Bool) : List (SelTree A) -> Bool
  | [] => false
  | tree :: rest => tree.holdsWhole n holds || imergeHoldsWhole n holds rest

end

structure ColumnRange where
  column : Nat
  lo : Int
  hi : Int

def ColumnRange.Sat (a : ColumnRange) (row : Nat -> Int) : Prop :=
  a.lo ≤ row a.column ∧ row a.column ≤ a.hi

instance (a : ColumnRange) (row : Nat -> Int) : Decidable (a.Sat row) := instDecidableAnd

def fourKeys : RangeOptParam ColumnRange where
  keys := 4
  field i _ := i
  part _ := 0
  maxPartNo _ := 1
  isImpossible a := decide (a.hi < a.lo)
  keyAnd
    | some a, some b =>
      some (if a.column = b.column then ⟨a.column, max a.lo b.lo, min a.hi b.hi⟩ else a)
    | none, b => b
    | a, none => a
  keyOr a b :=
    if a.column = b.column then some ⟨a.column, min a.lo b.lo, max a.hi b.hi⟩ else none

lemma fourKeys_sound : fourKeys.Sound ColumnRange.Sat where
  keyAnd key1 key2 row h1 h2 a ha := by
    rcases key1 with - | b
    · rcases key2 with - | c
      · cases ha
      · exact h2 a ha
    rcases key2 with - | c
    · exact h1 a ha
    obtain rfl := some.inj ha
    split
    · rename_i hcolumn
      obtain ⟨hb1, hb2⟩ := h1 b rfl
      obtain ⟨hc1, hc2⟩ := h2 c rfl
      rw [← hcolumn] at hc1 hc2
      exact ⟨Int.max_le.mpr ⟨hb1, hc1⟩, Int.le_min.mpr ⟨hb2, hc2⟩⟩
    · exact h1 b rfl
  keyOr b c row h a ha := by
    simp only [fourKeys] at ha
    split at ha
    · rename_i hcolumn
      obtain rfl := some.inj ha
      rcases h with ⟨h1, h2⟩ | ⟨h1, h2⟩
      · exact ⟨Int.le_trans (Int.min_le_left ..) h1, Int.le_trans h2 (Int.le_max_left ..)⟩
      · rw [← hcolumn] at h1 h2
        exact ⟨Int.le_trans (Int.min_le_right ..) h1, Int.le_trans h2 (Int.le_max_right ..)⟩
    · cases ha
  impossible a row h hsat := by
    have hlt := of_decide_eq_true h
    exact Int.not_le.mpr hlt (Int.le_trans hsat.1 hsat.2)

def RangeCond.equals (column : Nat) (x : Int) : RangeCond ColumnRange :=
  .leaf (some ⟨.key, fun i => if i = column then some ⟨column, x, x⟩ else none,
    fun i => decide (i = column), []⟩)

lemma equals_wellFormed (column : Nat) (x : Int) :
    (RangeCond.equals column x).WellFormed fourKeys := by
  rintro t ⟨⟩
  refine ⟨fun _ i _ => ?_, nofun⟩
  dsimp only
  split
  iterate 2
    rename_i h
    simp [h]

lemma equals_holds {column : Nat} {x : Int} {row : Nat -> Int} (h : row column = x) :
    (RangeCond.equals column x).Holds fourKeys ColumnRange.Sat row := by
  rintro t ⟨⟩
  refine (Sat_of_isKey (.inl rfl)).mpr ⟨fun i _ a ha => ?_, nofun⟩
  dsimp only at ha
  split at ha
  · obtain rfl := some.inj ha
    exact ⟨Int.le_of_eq h.symm, Int.le_of_eq h⟩
  · cases ha

/-- `(k0 = 1 AND (k2 = 5 OR k3 = 5)) OR k1 = 1` -/
def nestedCond : RangeCond ColumnRange :=
  .or (.and (.equals 0 1) (.or (.equals 2 5) (.equals 3 5))) (.equals 1 1)

/-- `k0 = 2 OR k1 = 2` -/
def flatCond : RangeCond ColumnRange := .or (.equals 0 2) (.equals 1 2)

/-- The row with `k0 = 2` satisfies the second condition, the row with `k1 = 1`, too, both of them. -/
theorem tree_and_or_implied_nested :
    ∃ tree1 tree2, nestedCond.getMmTree fourKeys 2 = some tree1 ∧
      flatCond.getMmTree fourKeys 2 = some tree2 ∧
      SatOption fourKeys ColumnRange.Sat (fourKeys.treeOr tree1 tree2) ([2].getD · 0) ∧
      ∃ r, fourKeys.treeAnd 2 tree1 tree2 = some r ∧
        SatOption fourKeys ColumnRange.Sat r ([2, 1].getD · 0) := by
  have hwf := equals_wellFormed
  obtain ⟨tree1, h1, hw₁, hsat1⟩ := RangeCond.getMmTree_implied fourKeys_sound (Nat.le_refl 2) nestedCond
    ⟨⟨hwf 0 1, hwf 2 5, hwf 3 5⟩, hwf 1 1⟩
  obtain ⟨tree2, h2, hw₂, hsat2⟩ := RangeCond.getMmTree_implied fourKeys_sound (Nat.le_refl 2) flatCond
    ⟨hwf 0 2, hwf 1 2⟩
  obtain ⟨hand, -, hor⟩ := tree_and_or_implied fourKeys ColumnRange.Sat fourKeys_sound tree1 tree2 hw₁
    hw₂
  obtain ⟨r, hr, -, hsat⟩ := hand 2 (Nat.le_refl 2)
  exact ⟨tree1, tree2, h1, h2, hor _ (.inr (hsat2 _ (.inl (equals_holds rfl)))), r, hr,
    hsat _ (hsat1 _ (.inr (equals_holds rfl))) (hsat2 _ (.inl (equals_holds rfl)))⟩

/-- The first tree has an imerge with a tree that has imerges. In the OR of both trees the range of
that tree is widened, but its imerges stay, and the row with `k0 = 2` does not satisfy it as a
whole. -/
theorem imerge_read_whole_misses :
    ∃ tree1 tree2, nestedCond.getMmTree fourKeys 2 = some (some tree1) ∧
      flatCond.getMmTree fourKeys 2 = some (some tree2) ∧
      tree2.holdsWhole 4 (fun a => a.Sat ([2].getD · 0)) = true ∧
      (fourKeys.treeOrTrees tree1 tree2).holdsWhole 4 (fun a => a.Sat ([2].getD · 0)) = false :=
  ⟨_, _, rfl, rfl, by decide, by decide⟩

end Sql
