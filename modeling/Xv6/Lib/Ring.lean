import Mathlib.Data.Nat.ModEq
import Mathlib.Algebra.Order.Ring.Int
import Mathlib.Tactic.Common

/-! A ring of cells between two free-running counters. The writer's counter is
the length of the log of everything ever put in, the reader's counter says how
much of it has been taken out; the cells hold what lies between. -/
namespace Xv6.Lib

variable {α : Type u} {N : Nat} [NeZero N]

structure Ring (cells : Fin N → α) (log : List α) (done : Nat) : Prop where
  le : done ≤ log.length
  fits : log.length ≤ done + N
  cell : ∀ k (hk : k < log.length), done ≤ k → cells (Fin.ofNat N k) = log[k]

theorem ofNat_ne_of_lt {i j : Nat} (hlt : i < j) (hturn : j < i + N) :
    Fin.ofNat N i ≠ Fin.ofNat N j := by
  intro h
  have hmod : i ≡ j [MOD N] := congrArg Fin.val h
  obtain ⟨k, hk⟩ := (Nat.modEq_iff_dvd' hlt.le).mp hmod
  have hpos : 0 < k := by
    rcases Nat.eq_zero_or_pos k with rfl | hk'
    · omega
    · exact hk'
  have : N ≤ N * k := Nat.le_mul_of_pos_right N hpos
  omega

namespace Ring

variable {cells : Fin N → α} {log : List α} {done : Nat}

theorem write (h : Ring cells log done) (hroom : log.length < done + N) (x : α) :
    Ring (Function.update cells (Fin.ofNat N log.length) x) log done where
  le := h.le
  fits := h.fits
  cell k hk hdone := by
    rw [Function.update_of_ne (ofNat_ne_of_lt hk (by omega))]
    exact h.cell k hk hdone

theorem publish (h : Ring cells log done) (hroom : log.length < done + N) {x : α}
    (hx : cells (Fin.ofNat N log.length) = x) : Ring cells (log ++ [x]) done where
  le := by
    have := h.le
    simp only [List.length_append, List.length_singleton]
    omega
  fits := by
    simp only [List.length_append, List.length_singleton]
    omega
  cell := by
    intro k hk hdone
    by_cases hlast : k < log.length
    · rw [List.getElem_append_left hlast]
      exact h.cell k hlast hdone
    · have hk' : k = log.length := by
        simp only [List.length_append, List.length_singleton] at hk
        omega
      subst hk'
      rw [hx]
      simp

theorem push (h : Ring cells log done) (hroom : log.length < done + N) (x : α) :
    Ring (Function.update cells (Fin.ofNat N log.length) x) (log ++ [x]) done :=
  (h.write hroom x).publish hroom (Function.update_self ..)

theorem pop (h : Ring cells log done) (hne : done < log.length) : Ring cells log (done + 1) where
  le := hne
  fits := by
    have := h.fits
    omega
  cell k hk hdone := h.cell k hk (by omega)

theorem takeBack {rest : List α} (h : Ring cells (log ++ rest) done) (hle : done ≤ log.length) :
    Ring cells log done where
  le := hle
  fits := by
    have := h.fits
    simp only [List.length_append] at this
    omega
  cell k hk hdone := by
    rw [h.cell k (by simp only [List.length_append]; omega) hdone, List.getElem_append_left hk]

theorem front (h : Ring cells log done) (hne : done < log.length) :
    cells (Fin.ofNat N done) = log[done] := h.cell done hne le_rfl

end Ring

theorem taken_next {log taken : List α} (h : taken <+: log)
    (hlt : taken.length < log.length) : taken ++ [log[taken.length]] <+: log := by
  obtain ⟨rest, rfl⟩ := h
  cases rest with
  | nil => simp at hlt
  | cons x rest => exact ⟨rest, by simp⟩

end Xv6.Lib
