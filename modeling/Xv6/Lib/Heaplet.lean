import Mathlib.Logic.Function.Basic
import Mathlib.Algebra.Order.Ring.Int
import Mathlib.Tactic.Common

/-! Partial memories that say who may touch which cell: a heaplet holds the
cells its owner has to itself, with their contents. -/
namespace Xv6.Lib

abbrev Heaplet (π : Type u) (κ : Type v) := π → Option κ

namespace Heaplet

variable {π : Type u} {κ : Type v}

def empty : Heaplet π κ := fun _ => none

structure Splits (h left right : Heaplet π κ) : Prop where
  disjoint : ∀ c, left c = none ∨ right c = none
  join : ∀ c, h c = (left c).or (right c)

variable {h left right : Heaplet π κ} {c : π}

namespace Splits

theorem symm (hs : Splits h left right) : Splits h right left where
  disjoint c := (hs.disjoint c).symm
  join c := by
    rw [hs.join c]
    rcases hs.disjoint c with hc | hc <;> simp [hc]

theorem of_left (hs : Splits h left right) {x : κ} (hc : left c = some x) : h c = some x := by
  simp [hs.join c, hc]

theorem of_right (hs : Splits h left right) {x : κ} (hc : right c = some x) : h c = some x :=
  hs.symm.of_left hc

theorem right_none (hs : Splits h left right) (hc : left c ≠ none) : right c = none :=
  (hs.disjoint c).resolve_left hc

theorem left_none (hs : Splits h left right) (hc : right c ≠ none) : left c = none :=
  (hs.disjoint c).resolve_right hc

theorem eq_none (hs : Splits h left right) : h c = none ↔ left c = none ∧ right c = none := by
  rw [hs.join c]
  cases left c <;> simp

theorem ne_none (hs : Splits h left right) : h c ≠ none ↔ left c ≠ none ∨ right c ≠ none := by
  rw [ne_eq, hs.eq_none, not_and_or]

/-- Two divisions into the same parts are of the same heaplet. -/
theorem unique {h' : Heaplet π κ} (hs : Splits h left right) (hs' : Splits h' left right) :
    h' = h := by
  funext c
  rw [hs.join c, hs'.join c]

section Update

variable [DecidableEq π]

/-- The owner of a part changes it; what it takes must not be the other's. -/
theorem update_left (hs : Splits h left right) (hc : right c = none) (x : Option κ) :
    Splits (Function.update h c x) (Function.update left c x) right where
  disjoint d := by
    by_cases hd : d = c
    · exact Or.inr (hd ▸ hc)
    · rw [Function.update_of_ne hd]
      exact hs.disjoint d
  join d := by
    by_cases hd : d = c
    · subst hd
      simp [hc]
    · rw [Function.update_of_ne hd, Function.update_of_ne hd]
      exact hs.join d

end Update

end Splits

theorem splits_empty (h : Heaplet π κ) : Splits h h empty :=
  ⟨fun _ => Or.inr rfl, fun c => by simp [empty]⟩

theorem Splits.eq_of_right_empty (hs : Splits h left empty) : h = left := by
  funext c
  simp [hs.join c, empty]

theorem splits_single [DecidableEq π] (h : Heaplet π κ) (c : π) :
    Splits h (Function.update h c none) (Function.update empty c (h c)) where
  disjoint d := by
    by_cases hd : d = c
    · simp [hd]
    · simp [hd, empty]
  join d := by
    by_cases hd : d = c
    · simp [hd]
    · simp [hd, empty]

end Heaplet

end Xv6.Lib
