import Mathlib.Data.List.Induction

/-!
# Machines that may fail

A machine is a partial step function. A failed step stands for a failed assertion or an
access outside of an array, so a run is defined only when none of its steps fails.
-/

namespace Machine

open List Option

variable {σ ω : Type*} {step : σ -> ω -> Option σ} {s s' : σ} {ops : List ω}

def run (step : σ -> ω -> Option σ) (s : σ) : List ω -> Option σ
  | [] => some s
  | op :: ops => (step s op).bind fun s' => run step s' ops

@[simp] lemma run_nil : run step s [] = some s := rfl

lemma run_append (ops ops' : List ω) :
    run step s (ops ++ ops') = (run step s ops).bind fun s' => run step s' ops' := by
  induction ops generalizing s with
  | nil => rfl
  | cons op ops ih =>
    rw [cons_append, run, run, bind_assoc]
    congr 1
    funext s'
    exact ih

lemma run_concat (ops : List ω) (op : ω) :
    run step s (ops ++ [op]) = (run step s ops).bind fun s' => step s' op := by
  rw [run_append]
  congr 1
  funext s'
  exact bind_fun_some _

/-- An invariant under which no step fails from a state that allows it. -/
lemma run_total_of {Inv Room : σ -> Prop}
    (hstep : ∀ s op, Inv s -> Room s -> ∃ s', step s op = some s' ∧ Inv s') (hs : Inv s)
    (hroom : ∀ pre s', pre <+: ops -> run step s pre = some s' -> Room s') :
    ∃ s', run step s ops = some s' ∧ Inv s' := by
  induction ops using reverseRecOn with
  | nil => exact ⟨s, rfl, hs⟩
  | append_singleton ops op ih =>
    obtain ⟨s1, h1, hs1⟩ := ih fun pre s' hpre => hroom pre s' (hpre.trans (prefix_append _ _))
    obtain ⟨s2, h2, hs2⟩ := hstep s1 op hs1 (hroom ops s1 (prefix_append _ _) h1)
    refine ⟨s2, ?_, hs2⟩
    rw [run_concat, h1]
    exact h2

lemma run_total {Inv : σ -> Prop} (hstep : ∀ s op, Inv s -> ∃ s', step s op = some s' ∧ Inv s')
    (hs : Inv s) (ops : List ω) : ∃ s', run step s ops = some s' ∧ Inv s' :=
  run_total_of (fun s op h (_ : True) => hstep s op h) hs fun _ _ _ _ => trivial

/-- An invariant that may speak about the operations done so far. -/
lemma run_induction {P : List ω -> σ -> Prop} (hinit : P [] s)
    (hstep : ∀ ops s1 op s2, P ops s1 -> step s1 op = some s2 -> P (ops ++ [op]) s2)
    (hrun : run step s ops = some s') : P ops s' := by
  induction ops using reverseRecOn generalizing s' with
  | nil =>
    cases hrun
    exact hinit
  | append_singleton ops op ih =>
    rw [run_concat] at hrun
    obtain ⟨s1, h1, h2⟩ := bind_eq_some_iff.mp hrun
    exact hstep ops s1 op s' (ih h1) h2

/-- Where a property holds after a step exactly when the step meets a condition, it holds all
along a run exactly when every step of the run meets the condition. -/
lemma always_iff (Inv : σ -> Prop) {P : σ -> Prop} {C : σ -> ω -> Prop} (hinv : Inv s) (hinit : P s)
    (hkeep : ∀ s op s', Inv s -> step s op = some s' -> Inv s')
    (hstep : ∀ s op s', Inv s -> P s -> step s op = some s' -> (P s' ↔ C s op))
    (hrun : run step s ops = some s') :
    (∀ pre s1, pre <+: ops -> run step s pre = some s1 -> P s1) ↔
      ∀ pre op s1, pre ++ [op] <+: ops -> run step s pre = some s1 -> C s1 op := by
  refine (run_induction (P := fun ops s' => run step s ops = some s' ∧ Inv s' ∧
    ((∀ pre s1, pre <+: ops -> run step s pre = some s1 -> P s1) ↔
      ∀ pre op s1, pre ++ [op] <+: ops -> run step s pre = some s1 -> C s1 op))
    ⟨rfl, hinv, ?_⟩ ?_ hrun).2.2
  · refine iff_of_true ?_ ?_
    · intro pre s1 hpre hs1
      rw [prefix_nil.mp hpre] at hs1
      cases hs1
      exact hinit
    · intro pre op s1 hpre
      exact absurd (prefix_nil.mp hpre) (append_ne_nil_of_right_ne_nil _ (cons_ne_nil _ _))
  · rintro ops s1 op s2 ⟨hs1, hinv1, ih⟩ hs2
    have hrun2 : run step s (ops ++ [op]) = some s2 := by
      rw [run_concat, hs1]
      exact hs2
    refine ⟨hrun2, hkeep s1 op s2 hinv1 hs2, ?_⟩
    constructor
    · intro hall pre op' s0 hpre hs0
      have hold : ∀ pre s1, pre <+: ops -> run step s pre = some s1 -> P s1 :=
        fun pre s1 hp => hall pre s1 (hp.trans (prefix_append _ _))
      rcases prefix_concat_iff.mp hpre with heq | hp
      · obtain ⟨rfl, hop⟩ := append_inj' heq rfl
        cases hop
        cases hs1.symm.trans hs0
        exact (hstep s1 op s2 hinv1 (hold pre s1 (prefix_refl _) hs1) hs2).mp
          (hall _ s2 (prefix_refl _) hrun2)
      · exact ih.mp hold pre op' s0 hp hs0
    · intro hall pre s0 hpre hs0
      have hold : ∀ pre s1, pre <+: ops -> run step s pre = some s1 -> P s1 :=
        ih.mpr fun pre op' s1 hp => hall pre op' s1 (hp.trans (prefix_append _ _))
      rcases prefix_concat_iff.mp hpre with rfl | hp
      · cases hrun2.symm.trans hs0
        exact (hstep s1 op s2 hinv1 (hold ops s1 (prefix_refl _) hs1) hs2).mpr
          (hall ops op s1 (prefix_refl _) hs1)
      · exact hold pre s0 hp hs0

end Machine
