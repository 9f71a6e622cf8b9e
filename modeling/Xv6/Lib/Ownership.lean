import Mathlib.Algebra.Order.Ring.Int
import Mathlib.Tactic.Common

/-! Exclusive ownership: every resource that is taken has exactly one holder. -/
namespace Xv6.Lib

variable {ι : Type u} {ρ : Type v}

structure Owns (holds : ι → ρ → Prop) (taken : ρ → Prop) : Prop where
  unique : ∀ i j r, holds i r → holds j r → i = j
  taken_iff : ∀ r, taken r ↔ ∃ i, holds i r

namespace Owns

variable {holds holds' : ι → ρ → Prop} {taken taken' : ρ → Prop} (h : Owns holds taken) {i : ι}
  {r : ρ}
include h

theorem taken_of_holds (hi : holds i r) : taken r := (h.taken_iff r).mpr ⟨i, hi⟩

theorem congr (hholds : ∀ j x, holds' j x ↔ holds j x) (htaken : ∀ x, taken' x ↔ taken x) :
    Owns holds' taken' where
  unique j k x hj hk := h.unique j k x ((hholds j x).mp hj) ((hholds k x).mp hk)
  taken_iff x := by simp only [htaken, h.taken_iff, hholds]

theorem acquireAll (more : ρ → Prop) (hr : ∀ x, more x → ¬taken x)
    (hholds : ∀ j x, holds' j x ↔ holds j x ∨ j = i ∧ more x)
    (htaken : ∀ x, taken' x ↔ taken x ∨ more x) : Owns holds' taken' where
  unique := by
    intro j k x hj hk
    rcases (hholds j x).mp hj with hj | ⟨rfl, hx⟩
    · rcases (hholds k x).mp hk with hk | ⟨rfl, hx⟩
      · exact h.unique j k x hj hk
      · exact absurd (h.taken_of_holds hj) (hr x hx)
    · rcases (hholds k x).mp hk with hk | ⟨rfl, -⟩
      · exact absurd (h.taken_of_holds hk) (hr x hx)
      · rfl
  taken_iff := by
    intro x
    rw [htaken, h.taken_iff]
    constructor
    · rintro (⟨j, hj⟩ | hx)
      · exact ⟨j, (hholds j x).mpr (Or.inl hj)⟩
      · exact ⟨i, (hholds i x).mpr (Or.inr ⟨rfl, hx⟩)⟩
    · rintro ⟨j, hj⟩
      rcases (hholds j x).mp hj with hj | ⟨-, hx⟩
      · exact Or.inl ⟨j, hj⟩
      · exact Or.inr hx

theorem acquire (hr : ¬taken r) (hholds : ∀ j x, holds' j x ↔ holds j x ∨ j = i ∧ x = r)
    (htaken : ∀ x, taken' x ↔ taken x ∨ x = r) : Owns holds' taken' :=
  h.acquireAll (· = r) (fun _ hx => hx ▸ hr) hholds htaken

theorem releaseAll (less : ρ → Prop) (hi : ∀ x, less x → holds i x)
    (hholds : ∀ j x, holds' j x ↔ holds j x ∧ ¬(j = i ∧ less x))
    (htaken : ∀ x, taken' x ↔ taken x ∧ ¬less x) : Owns holds' taken' where
  unique j k x hj hk := h.unique j k x ((hholds j x).mp hj).1 ((hholds k x).mp hk).1
  taken_iff := by
    intro x
    rw [htaken, h.taken_iff]
    constructor
    · rintro ⟨⟨j, hj⟩, hx⟩
      exact ⟨j, (hholds j x).mpr ⟨hj, fun hsame => hx hsame.2⟩⟩
    · rintro ⟨j, hj⟩
      obtain ⟨hj, hne⟩ := (hholds j x).mp hj
      exact ⟨⟨j, hj⟩, fun hx => hne ⟨h.unique j i x hj (hi x hx), hx⟩⟩

theorem release (hi : holds i r) (hholds : ∀ j x, holds' j x ↔ holds j x ∧ ¬(j = i ∧ x = r))
    (htaken : ∀ x, taken' x ↔ taken x ∧ x ≠ r) : Owns holds' taken' :=
  h.releaseAll (· = r) (fun _ hx => hx ▸ hi) hholds htaken

theorem transfer (target : ι) (hi : holds i r)
    (hholds : ∀ j x, holds' j x ↔ holds j x ∧ x ≠ r ∨ j = target ∧ x = r)
    (htaken : ∀ x, taken' x ↔ taken x) : Owns holds' taken' where
  unique := by
    intro j k x hj hk
    rcases (hholds j x).mp hj with ⟨hj, hne⟩ | ⟨rfl, rfl⟩
    · rcases (hholds k x).mp hk with ⟨hk, -⟩ | ⟨-, hx⟩
      · exact h.unique j k x hj hk
      · exact absurd hx hne
    · rcases (hholds k x).mp hk with ⟨-, hne⟩ | ⟨rfl, -⟩
      · exact absurd rfl hne
      · rfl
  taken_iff := by
    intro x
    rw [htaken]
    constructor
    · intro hx
      by_cases hxr : x = r
      · exact ⟨target, (hholds target x).mpr (Or.inr ⟨rfl, hxr⟩)⟩
      · obtain ⟨j, hj⟩ := (h.taken_iff x).mp hx
        exact ⟨j, (hholds j x).mpr (Or.inl ⟨hj, hxr⟩)⟩
    · rintro ⟨j, hj⟩
      rcases (hholds j x).mp hj with ⟨hj, -⟩ | ⟨-, rfl⟩
      · exact h.taken_of_holds hj
      · exact h.taken_of_holds hi

end Owns

end Xv6.Lib
