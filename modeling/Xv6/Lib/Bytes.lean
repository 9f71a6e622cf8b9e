import Mathlib.Logic.Function.Basic
import Mathlib.Algebra.Order.Ring.Int
import Mathlib.Tactic.Common

/-! Fixed-size byte buffers and the little-endian fields stored in them. A
field is an offset and a width; a write to one field leaves every disjoint
field alone, and a field written with a value that fits reads back as it. -/
namespace Xv6.Lib

def Bytes (size : Nat) := Fin size → UInt8

namespace Bytes

@[ext] theorem ext {left right : Bytes size} (h : ∀ i, left i = right i) : left = right :=
  funext h

def zero (size : Nat) : Bytes size := fun _ => 0

def get (bytes : Bytes size) (offset : Nat) : UInt8 :=
  if h : offset < size then bytes ⟨offset, h⟩ else 0

def set (bytes : Bytes size) (offset : Nat) (value : UInt8) : Bytes size :=
  fun i => if i.val = offset then value else bytes i

theorem get_of_lt (bytes : Bytes size) {offset : Nat} (h : offset < size) :
    bytes.get offset = bytes ⟨offset, h⟩ := by
  simp [get, h]

@[simp] theorem get_zero (offset : Nat) : (zero size).get offset = 0 := by
  simp [get, zero]

theorem get_set_self (bytes : Bytes size) {offset : Nat} (value : UInt8) (h : offset < size) :
    (bytes.set offset value).get offset = value := by
  simp [get, set, h]

theorem get_set_of_ne (bytes : Bytes size) {offset other : Nat} (value : UInt8)
    (h : other ≠ offset) : (bytes.set offset value).get other = bytes.get other := by
  simp only [get, set, if_neg h]

def getLE (bytes : Bytes size) (offset : Nat) : Nat → Nat
  | 0 => 0
  | width + 1 => (bytes.get offset).toNat + 256 * bytes.getLE (offset + 1) width

def setLE (bytes : Bytes size) (offset : Nat) : Nat → Nat → Bytes size
  | 0, _ => bytes
  | width + 1, value =>
      (bytes.set offset (UInt8.ofNat value)).setLE (offset + 1) width (value / 256)

@[simp] theorem getLE_zero (offset width : Nat) : (zero size).getLE offset width = 0 := by
  induction width generalizing offset with
  | zero => rfl
  | succ width ih => simp [getLE, ih]

theorem getLE_lt (bytes : Bytes size) (offset width : Nat) :
    bytes.getLE offset width < 256 ^ width := by
  induction width generalizing offset with
  | zero => simp [getLE]
  | succ width ih =>
    have hbyte : (bytes.get offset).toNat < 256 := UInt8.toNat_lt _
    have hrest := ih (offset + 1)
    rw [getLE, Nat.pow_succ]
    omega

theorem get_setLE_of_disjoint (bytes : Bytes size) (offset width value other : Nat)
    (h : other < offset ∨ offset + width ≤ other) :
    (bytes.setLE offset width value).get other = bytes.get other := by
  induction width generalizing bytes offset value with
  | zero => rfl
  | succ width ih =>
    rw [setLE, ih _ _ _ (by omega), get_set_of_ne _ _ (by omega)]

theorem getLE_setLE_of_disjoint (bytes : Bytes size) (offset width value other count : Nat)
    (h : other + count ≤ offset ∨ offset + width ≤ other) :
    (bytes.setLE offset width value).getLE other count = bytes.getLE other count := by
  induction count generalizing other with
  | zero => rfl
  | succ count ih =>
    rw [getLE, getLE, ih (other + 1) (by omega),
      get_setLE_of_disjoint _ _ _ _ _ (by omega)]

theorem getLE_setLE_mod (bytes : Bytes size) (offset width value : Nat)
    (h : offset + width ≤ size) :
    (bytes.setLE offset width value).getLE offset width = value % 256 ^ width := by
  induction width generalizing bytes offset value with
  | zero => simp [getLE, Nat.mod_one]
  | succ width ih =>
    have hpow : 256 ^ (width + 1) = 256 * 256 ^ width := Nat.pow_succ'
    rw [setLE, getLE, ih _ _ _ (by omega), get_setLE_of_disjoint _ _ _ _ _ (by omega),
      get_set_self _ _ (by omega), UInt8.toNat_ofNat', hpow, Nat.mod_mul]

theorem getLE_setLE_self (bytes : Bytes size) (offset width value : Nat)
    (h : offset + width ≤ size) (hvalue : value < 256 ^ width) :
    (bytes.setLE offset width value).getLE offset width = value := by
  rw [getLE_setLE_mod _ _ _ _ h, Nat.mod_eq_of_lt hvalue]

def setWords (bytes : Bytes size) (offset : Nat) (word : Nat → Nat) : Nat → Bytes size
  | 0 => bytes
  | count + 1 => (bytes.setWords offset word count).setLE (offset + 4 * count) 4 (word count)

theorem getLE_setWords_of_disjoint (bytes : Bytes size) (offset : Nat) (word : Nat → Nat)
    (count other width : Nat) (h : other + width ≤ offset ∨ offset + 4 * count ≤ other) :
    (bytes.setWords offset word count).getLE other width = bytes.getLE other width := by
  induction count with
  | zero => rfl
  | succ count ih =>
    rw [setWords, getLE_setLE_of_disjoint _ _ _ _ _ _ (by omega), ih (by omega)]

theorem getLE_setWords (bytes : Bytes size) (offset : Nat) (word : Nat → Nat) {count i : Nat}
    (hi : i < count) (h : offset + 4 * count ≤ size) (hword : word i < 2 ^ 32) :
    (bytes.setWords offset word count).getLE (offset + 4 * i) 4 = word i := by
  induction count with
  | zero => omega
  | succ count ih =>
    rw [setWords]
    by_cases hlast : i = count
    · subst hlast
      exact getLE_setLE_self _ _ _ _ (by omega) (by omega)
    · rw [getLE_setLE_of_disjoint _ _ _ _ _ _ (by omega), ih (by omega) (by omega)]

def blit (bytes : Bytes size) (offset : Nat) : List UInt8 → Bytes size
  | [] => bytes
  | byte :: rest => (bytes.set offset byte).blit (offset + 1) rest

theorem get_blit (bytes : Bytes size) (offset : Nat) (values : List UInt8) (other : Nat)
    (h : other < size) : (bytes.blit offset values).get other =
      if offset ≤ other then values.getD (other - offset) (bytes.get other)
      else bytes.get other := by
  induction values generalizing bytes offset with
  | nil => simp [blit]
  | cons byte rest ih =>
    rw [blit, ih]
    by_cases heq : other = offset
    · subst heq
      simp [get_set_self _ _ h]
    · rw [get_set_of_ne _ _ heq]
      by_cases hle : offset + 1 ≤ other
      · rw [if_pos hle, if_pos (by omega), show other - offset = other - (offset + 1) + 1 by omega,
          List.getD_cons_succ]
      · rw [if_neg hle, if_neg (by omega)]

def slice (bytes : Bytes size) (offset count : Nat) : List UInt8 :=
  (List.range count).map fun i => bytes.get (offset + i)

end Bytes

end Xv6.Lib
