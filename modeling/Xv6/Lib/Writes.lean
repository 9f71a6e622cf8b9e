import Mathlib.Logic.Function.Basic
import Mathlib.Data.List.Basic
import Mathlib.Algebra.Order.Ring.Int
import Mathlib.Tactic.Common

/-! Ordered sequences of point writes to a store. Cutting such a sequence after
any number of writes is how a crash is expressed; replaying it over a cut copy
of itself gives the uncut result. -/
namespace Xv6.Lib.Writes

variable {α : Type u} {β : Type v} [DecidableEq α]

def applyAll (store : α → β) (writes : List (α × β)) : α → β :=
  writes.foldl (fun store write => Function.update store write.1 write.2) store

@[simp] theorem applyAll_nil (store : α → β) : applyAll store [] = store := rfl

@[simp] theorem applyAll_cons (store : α → β) (write : α × β) (writes : List (α × β)) :
    applyAll store (write :: writes) =
      applyAll (Function.update store write.1 write.2) writes := rfl

theorem applyAll_append (store : α → β) (left right : List (α × β)) :
    applyAll store (left ++ right) = applyAll (applyAll store left) right := by
  simp [applyAll]

theorem applyAll_of_forall_ne (store : α → β) (writes : List (α × β)) (key : α)
    (h : ∀ write ∈ writes, write.1 ≠ key) : applyAll store writes key = store key := by
  induction writes generalizing store with
  | nil => rfl
  | cons write writes ih =>
    have hne : key ≠ write.1 := fun heq => h write List.mem_cons_self heq.symm
    rw [applyAll_cons, ih _ fun w hw => h w (List.mem_cons_of_mem _ hw),
      Function.update_of_ne hne]

theorem applyAll_cases (store : α → β) (writes : List (α × β)) (key : α) :
    applyAll store writes key = store key ∨
      ∃ write ∈ writes, write.1 = key ∧ applyAll store writes key = write.2 := by
  induction writes generalizing store with
  | nil => exact Or.inl rfl
  | cons write writes ih =>
    rw [applyAll_cons]
    rcases ih (Function.update store write.1 write.2) with hold | ⟨other, hmem, hkey, hvalue⟩
    · by_cases hkey : write.1 = key
      · refine Or.inr ⟨write, List.mem_cons_self, hkey, ?_⟩
        rw [hold, ← hkey, Function.update_self]
      · rw [hold, Function.update_of_ne (Ne.symm hkey)]
        exact Or.inl rfl
    · exact Or.inr ⟨other, List.mem_cons_of_mem _ hmem, hkey, hvalue⟩

/-- Two stores agree after the same writes wherever they agreed before, and
also wherever the writes reach. -/
theorem applyAll_congr (left right : α → β) (writes : List (α × β)) (key : α)
    (h : (∃ write ∈ writes, write.1 = key) ∨ left key = right key) :
    applyAll left writes key = applyAll right writes key := by
  induction writes generalizing left right with
  | nil =>
    rcases h with ⟨write, hmem, _⟩ | h
    · simp at hmem
    · exact h
  | cons write writes ih =>
    rw [applyAll_cons, applyAll_cons]
    apply ih
    by_cases hkey : write.1 = key
    · subst hkey
      exact Or.inr (by simp)
    · rcases h with ⟨other, hmem, hother⟩ | h
      · rcases List.mem_cons.mp hmem with rfl | hmem
        · exact absurd hother hkey
        · exact Or.inl ⟨other, hmem, hother⟩
      · refine Or.inr ?_
        rw [Function.update_of_ne (Ne.symm hkey), Function.update_of_ne (Ne.symm hkey), h]

/-- Redoing a whole sequence over the result of one of its prefixes is the
same as doing it once. -/
theorem applyAll_take_applyAll (store : α → β) (writes : List (α × β)) (count : Nat) :
    applyAll (applyAll store (writes.take count)) writes = applyAll store writes := by
  funext key
  apply applyAll_congr
  by_cases hkey : ∃ write ∈ writes, write.1 = key
  · exact Or.inl hkey
  · refine Or.inr (applyAll_of_forall_ne _ _ _ ?_)
    intro write hwrite heq
    exact hkey ⟨write, List.mem_of_mem_take hwrite, heq⟩

/-- With distinct keys the order of the writes does not matter: each key ends
with the value paired with it. -/
theorem applyAll_of_mem (store : α → β) (writes : List (α × β))
    (hnodup : (writes.map Prod.fst).Nodup) (write : α × β) (hmem : write ∈ writes) :
    applyAll store writes write.1 = write.2 := by
  induction writes generalizing store with
  | nil => simp at hmem
  | cons head tail ih =>
    rw [List.map_cons, List.nodup_cons] at hnodup
    rw [applyAll_cons]
    rcases List.mem_cons.mp hmem with rfl | hmem
    · rw [applyAll_of_forall_ne, Function.update_self]
      intro other hother heq
      exact hnodup.1 (heq ▸ List.mem_map_of_mem hother)
    · exact ih _ hnodup.2 hmem

end Xv6.Lib.Writes
