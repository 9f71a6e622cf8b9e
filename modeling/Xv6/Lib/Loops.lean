import Mathlib.Algebra.Order.Ring.Int
import Mathlib.Tactic.Common

/-! Counting loops whose body may fail. -/
namespace Xv6.Lib

variable {σ : Type u} {ε : Type v}

/-- A loop over `0, …, n - 1` runs to its end when every iteration keeps the
invariant for the next index. -/
theorem foldlM_range_ok (P : Nat → σ → Prop) {f : σ → Nat → Except ε σ} {n : Nat} {s : σ}
    (hinit : P 0 s)
    (hstep : ∀ i t, i < n → P i t → ∃ t', f t i = .ok t' ∧ P (i + 1) t') :
    ∃ t, (List.range n).foldlM f s = .ok t ∧ P n t := by
  induction n with
  | zero => exact ⟨s, rfl, hinit⟩
  | succ n ih =>
    obtain ⟨t, hloop, ht⟩ := ih fun i t hi => hstep i t (by omega)
    obtain ⟨t', hlast, ht'⟩ := hstep n t (by omega) ht
    refine ⟨t', ?_, ht'⟩
    rw [List.range_succ, List.foldlM_append, hloop]
    simp only [List.foldlM_cons, List.foldlM_nil, bind, Except.bind, hlast]
    rfl

theorem foldlM_range'_ok (P : Nat → σ → Prop) {f : σ → Nat → Except ε σ} {n : Nat} {s : σ}
    (hinit : P 1 s)
    (hstep : ∀ i t, 1 ≤ i → i < n → P i t → ∃ t', f t i = .ok t' ∧ P (i + 1) t') :
    ∃ t, (List.range' 1 (n - 1)).foldlM f s = .ok t ∧ P (max 1 n) t := by
  have hrange : List.range' 1 (n - 1) = (List.range (n - 1)).map (· + 1) := by
    rw [List.range'_eq_map_range]
    exact List.map_congr_left fun i _ => Nat.add_comm 1 i
  have hlast : max 1 n = n - 1 + 1 := by omega
  rw [hrange, List.foldlM_map, hlast]
  exact foldlM_range_ok (fun i => P (i + 1)) hinit fun i t hi =>
    hstep (i + 1) t (by omega) (by omega)

end Xv6.Lib
