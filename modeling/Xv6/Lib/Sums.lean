import Mathlib.Algebra.BigOperators.Ring.Finset
import Mathlib.Algebra.Order.BigOperators.Group.Finset
import Mathlib.Algebra.Order.Ring.Int
import Mathlib.Tactic.Common

/-! Totals over a finite family of local states, and how they move when one
member changes. -/
namespace Xv6.Lib

open scoped BigOperators

variable {ι : Type u} {τ : Type v} [Fintype ι]

def total (quantity : τ → Nat) (family : ι → τ) : Nat := ∑ i, quantity (family i)

theorem total_update [DecidableEq ι] (quantity : τ → Nat) (family : ι → τ) (i : ι) (value : τ) :
    total quantity (Function.update family i value) + quantity (family i) =
      total quantity family + quantity value := by
  have hafter : ∑ j, quantity (Function.update family i value j) =
      quantity value + ∑ j ∈ Finset.univ.erase i, quantity (family j) := by
    rw [← Finset.add_sum_erase _ _ (Finset.mem_univ i), Function.update_self]
    congr 1
    apply Finset.sum_congr rfl
    intro j hj
    rw [Function.update_of_ne (Finset.ne_of_mem_erase hj)]
  have hbefore : ∑ j, quantity (family j) =
      quantity (family i) + ∑ j ∈ Finset.univ.erase i, quantity (family j) :=
    (Finset.add_sum_erase _ _ (Finset.mem_univ i)).symm
  unfold total
  omega

theorem le_total (quantity : τ → Nat) (family : ι → τ) (i : ι) :
    quantity (family i) ≤ total quantity family :=
  Finset.single_le_sum (fun j _ => Nat.zero_le (quantity (family j))) (Finset.mem_univ i)

theorem total_eq_zero {quantity : τ → Nat} {family : ι → τ} :
    total quantity family = 0 ↔ ∀ i, quantity (family i) = 0 := by
  simp [total]

theorem total_le_mul (quantity weight : τ → Nat) (bound : Nat)
    (h : ∀ value, quantity value ≤ bound * weight value) (family : ι → τ) :
    total quantity family ≤ bound * total weight family := by
  unfold total
  rw [Finset.mul_sum]
  exact Finset.sum_le_sum fun i _ => h (family i)

end Xv6.Lib
