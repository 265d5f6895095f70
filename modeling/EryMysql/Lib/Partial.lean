import Mathlib.Tactic.Common

/-!
# Partial functions in do notation

A step that has a result is done, and a result of two steps is one of each.
-/

universe u

lemma some_bind {α β : Type u} (a : α) (f : α -> Option β) : (some a >>= f) = f a := rfl

lemma bind_eq_some {α β : Type u} {x : Option α} {f : α -> Option β} {b : β} :
    (x >>= f) = some b ↔ ∃ a, x = some a ∧ f a = some b :=
  Option.bind_eq_some_iff
