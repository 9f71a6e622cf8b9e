import Xv6.Lib.Copies
import Mathlib.Data.Nat.Bitwise

/-! `memmove` of the kernel (string.c) and of the user library (ulib.c). They choose the
direction of the copy by different tests; both leave what a copy of all bytes at once would. -/
namespace Xv6.User

open Lib

abbrev Addr := BitVec 64

abbrev Memory := Addr → UInt8

def copyUp : Nat → Addr → Addr → Memory → Memory
  | 0, _, _, mem => mem
  | n + 1, d, s, mem => copyUp n (d + 1) (s + 1) (Function.update mem d (mem s))

def copyDown : Nat → Addr → Addr → Memory → Memory
  | 0, _, _, mem => mem
  | n + 1, d, s, mem => copyDown n (d - 1) (s - 1) (Function.update mem (d - 1) (mem (s - 1)))

def kmemmove (dst src : Addr) (n : UInt32) (mem : Memory) : Addr × Memory :=
  let len : Addr := n.toBitVec.setWidth 64
  if n = 0 then (dst, mem)
  else if src < dst ∧ src + len > dst then (dst, copyDown n.toNat (dst + len) (src + len) mem)
  else (dst, copyUp n.toNat dst src mem)

def memmove (dst src : Addr) (n : Int32) (mem : Memory) : Addr × Memory :=
  let len : Addr := n.toBitVec.signExtend 64
  if src > dst then (dst, copyUp n.toInt.toNat dst src mem)
  else (dst, copyDown n.toInt.toNat (dst + len) (src + len) mem)

structure Moved (dst src : Addr) (n : Nat) (mem mem' : Memory) : Prop where
  copied : ∀ j, j < n → mem' (dst + BitVec.ofNat 64 j) = mem (src + BitVec.ofNat 64 j)
  other : ∀ a, a.toNat < dst.toNat ∨ dst.toNat + n ≤ a.toNat → mem' a = mem a

section Moves

variable {dst src : Addr} {n : Nat}

def bytewise (dst src : Addr) (n : Nat) : List (Addr × Addr) :=
  (List.range n).map fun j => (dst + BitVec.ofNat 64 j, src + BitVec.ofNat 64 j)

theorem bytewise_succ (dst src : Addr) (n : Nat) :
    bytewise dst src (n + 1) = (dst, src) :: bytewise (dst + 1) (src + 1) n := by
  have hnext : ∀ (a : Addr) j, a + BitVec.ofNat 64 (j + 1) = a + 1 + BitVec.ofNat 64 j := by
    intro a j
    rw [BitVec.add_assoc, Nat.add_comm j, BitVec.ofNat_add]
    rfl
  unfold bytewise
  rw [List.range_succ_eq_map, List.map_cons, List.map_map]
  simp only [Function.comp_def, Nat.succ_eq_add_one, hnext, BitVec.add_zero]

theorem copyUp_eq (n : Nat) (dst src : Addr) (mem : Memory) :
    copyUp n dst src mem = copies (bytewise dst src n) mem := by
  induction n generalizing dst src mem with
  | zero => rfl
  | succ n ih => rw [copyUp, bytewise_succ, copies_cons, ih]

theorem copyDown_eq (n : Nat) (dst src : Addr) (mem : Memory) :
    copyDown n (dst + BitVec.ofNat 64 n) (src + BitVec.ofNat 64 n) mem =
      copies (bytewise dst src n).reverse mem := by
  have hback : ∀ (a : Addr) k, a + BitVec.ofNat 64 (k + 1) - 1 = a + BitVec.ofNat 64 k := by
    intro a k
    rw [BitVec.ofNat_add, ← BitVec.add_assoc]
    exact BitVec.add_sub_cancel ..
  induction n generalizing mem with
  | zero => rfl
  | succ n ih =>
    rw [copyDown, hback, hback, ih, bytewise, bytewise, List.range_succ, List.map_append,
      List.reverse_append, copies_append]
    rfl

theorem toNat_offset {a : Addr} {j : Nat} (hj : a.toNat + j < 2 ^ 64) :
    (a + BitVec.ofNat 64 j).toNat = a.toNat + j := by
  rw [BitVec.toNat_add, BitVec.toNat_ofNat, Nat.mod_eq_of_lt (show j < 2 ^ 64 by omega),
    Nat.mod_eq_of_lt hj]

theorem offset_ne {a b : Addr} {j k : Nat} (ha : a.toNat + j < 2 ^ 64) (hb : b.toNat + k < 2 ^ 64)
    (hne : a.toNat + j ≠ b.toNat + k) : a + BitVec.ofNat 64 j ≠ b + BitVec.ofNat 64 k := by
  intro heq
  have hnat := congrArg BitVec.toNat heq
  rw [toNat_offset ha, toNat_offset hb] at hnat
  exact hne hnat

theorem pairwise_bytewise {R : Addr × Addr → Addr × Addr → Prop}
    (h : ∀ j k, j < k → k < n → R (dst + BitVec.ofNat 64 j, src + BitVec.ofNat 64 j)
      (dst + BitVec.ofNat 64 k, src + BitVec.ofNat 64 k)) : (bytewise dst src n).Pairwise R := by
  unfold bytewise
  rw [List.pairwise_map]
  exact List.Pairwise.imp_of_mem (fun _ hk hlt => h _ _ hlt (List.mem_range.mp hk))
    List.pairwise_lt_range

variable (hdst : dst.toNat + n ≤ 2 ^ 64) (hsrc : src.toNat + n ≤ 2 ^ 64)
include hdst

theorem moved_of_inOrder {moves : List (Addr × Addr)} (hmoves : moves.Perm (bytewise dst src n))
    (hahead : moves.Pairwise fun move later => move.1 ≠ later.2) (mem : Memory) :
    Moved dst src n mem (copies moves mem) := by
  have honce : (bytewise dst src n).Pairwise fun move later => move.1 ≠ later.1 :=
    pairwise_bytewise fun j k hjk hk => offset_ne (by omega) (by omega) (by omega)
  have horder : InOrder moves :=
    ⟨(hmoves.pairwise_iff fun h => Ne.symm h).mpr honce, hahead⟩
  constructor
  · intro j hj
    apply horder.copied
    exact hmoves.mem_iff.mpr (List.mem_map.mpr ⟨j, List.mem_range.mpr hj, rfl⟩)
  · intro a ha
    apply copies_other
    intro move hmove heq
    obtain ⟨j, hj, rfl⟩ := List.mem_map.mp (hmoves.mem_iff.mp hmove)
    have hj := List.mem_range.mp hj
    have hnat := congrArg BitVec.toNat heq
    rw [toNat_offset (by omega)] at hnat
    omega

include hsrc in
theorem copyUp_moved (hup : dst.toNat ≤ src.toNat ∨ src.toNat + n ≤ dst.toNat) (mem : Memory) :
    Moved dst src n mem (copyUp n dst src mem) := by
  rw [copyUp_eq]
  apply moved_of_inOrder hdst (List.Perm.refl _)
  exact pairwise_bytewise fun j k hjk hk => offset_ne (by omega) (by omega) (by omega)

theorem copyDown_moved (hdown : src.toNat ≤ dst.toNat) (mem : Memory) :
    Moved dst src n mem
      (copyDown n (dst + BitVec.ofNat 64 n) (src + BitVec.ofNat 64 n) mem) := by
  rw [copyDown_eq]
  apply moved_of_inOrder hdst (List.reverse_perm _)
  rw [List.pairwise_reverse]
  exact pairwise_bytewise fun j k hjk hk => offset_ne (by omega) (by omega) (by omega)

end Moves

theorem Moved.unique {dst src : Addr} {n : Nat} {mem mem₁ mem₂ : Memory}
    (h₁ : Moved dst src n mem mem₁) (h₂ : Moved dst src n mem mem₂) : mem₁ = mem₂ := by
  funext a
  by_cases ha : a.toNat < dst.toNat ∨ dst.toNat + n ≤ a.toNat
  · rw [h₁.other a ha, h₂.other a ha]
  · have hj : a.toNat - dst.toNat < n := by omega
    have haddr : a = dst + BitVec.ofNat 64 (a.toNat - dst.toNat) := by
      apply BitVec.eq_of_toNat_eq
      have := a.isLt
      rw [toNat_offset (by omega)]
      omega
    rw [haddr, h₁.copied _ hj, h₂.copied _ hj]

theorem kmemmove_moved {dst src : Addr} {n : UInt32} (hdst : dst.toNat + n.toNat ≤ 2 ^ 64)
    (hsrc : src.toNat + n.toNat ≤ 2 ^ 64) (mem : Memory) :
    (kmemmove dst src n mem).1 = dst ∧ Moved dst src n.toNat mem (kmemmove dst src n mem).2 := by
  have hlen : n.toBitVec.setWidth 64 = BitVec.ofNat 64 n.toNat := by
    apply BitVec.eq_of_toNat_eq
    simp [BitVec.toNat_setWidth]
  unfold kmemmove
  dsimp only
  split
  · rename_i hzero
    rw [hzero]
    exact ⟨rfl, fun j hj => absurd hj (Nat.not_lt_zero j), fun a _ => rfl⟩
  split
  · rename_i hback
    refine ⟨rfl, ?_⟩
    rw [hlen]
    exact copyDown_moved hdst (Nat.le_of_lt hback.1) mem
  · rename_i hnot hforward
    refine ⟨rfl, copyUp_moved hdst hsrc ?_ mem⟩
    by_contra hoverlap
    -- the end of the source is past the target, so it has not wrapped
    have hlt : src.toNat + n.toNat < 2 ^ 64 := by
      have := dst.isLt
      omega
    apply hforward
    constructor
    · exact BitVec.lt_def.mpr (by omega)
    · rw [hlen]
      apply BitVec.lt_def.mpr
      rw [toNat_offset hlt]
      omega

theorem memmove_moved {dst src : Addr} {n : Int32} {len : Nat} (hn : n.toInt = len)
    (hdst : dst.toNat + len ≤ 2 ^ 64) (hsrc : src.toNat + len ≤ 2 ^ 64) (mem : Memory) :
    (memmove dst src n mem).1 = dst ∧ Moved dst src len mem (memmove dst src n mem).2 := by
  have hcount : n.toInt.toNat = len := by omega
  have hlen : n.toBitVec.signExtend 64 = BitVec.ofNat 64 len := by
    have hmsb : n.toBitVec.msb = false := by
      rw [← Bool.not_eq_true, BitVec.msb_eq_toInt, decide_eq_true_eq]
      have : n.toBitVec.toInt = len := hn
      omega
    apply BitVec.eq_of_toNat_eq
    rw [BitVec.signExtend_eq_setWidth_of_msb_false hmsb, BitVec.toNat_setWidth, BitVec.toNat_ofNat]
    have : (n.toBitVec.toNat : Int) = len := by
      rw [← BitVec.toInt_eq_toNat_of_msb hmsb]
      exact hn
    omega
  unfold memmove
  dsimp only
  rw [hcount]
  split
  · rename_i hup
    exact ⟨rfl, copyUp_moved hdst hsrc (Or.inl (Nat.le_of_lt hup)) mem⟩
  · rename_i hdown
    refine ⟨rfl, ?_⟩
    rw [hlen]
    exact copyDown_moved hdst (Nat.not_lt.mp hdown) mem

/-- Both versions of `memmove` do the same, whatever the overlap. -/
theorem memmove_exact {dst src : Addr} {n : UInt32} (hdst : dst.toNat + n.toNat ≤ 2 ^ 64)
    (hsrc : src.toNat + n.toNat ≤ 2 ^ 64) (mem : Memory) :
    ∃ mem', Moved dst src n.toNat mem mem' ∧ kmemmove dst src n mem = (dst, mem') ∧
      (n.toNat < 2 ^ 31 → memmove dst src n.toInt32 mem = (dst, mem')) := by
  obtain ⟨hret, hmoved⟩ := kmemmove_moved hdst hsrc mem
  refine ⟨_, hmoved, Prod.ext hret rfl, fun hsmall => ?_⟩
  have hn : n.toInt32.toInt = (n.toNat : Int) := by
    show n.toBitVec.toInt = n.toNat
    rw [BitVec.toInt_eq_toNat_of_lt (by show 2 * n.toNat < 2 ^ 32; omega)]
    rfl
  obtain ⟨huser, hmoved'⟩ := memmove_moved hn hdst hsrc mem
  exact Prod.ext huser (hmoved'.unique hmoved)

/-- Six bytes, moved up by two. -/
theorem memmove_exact_overlap : ∃ mem', Moved 2 0 6 (fun a => UInt8.ofNat a.toNat) mem' ∧
    kmemmove 2 0 6 (fun a => UInt8.ofNat a.toNat) = (2, mem') ∧
    memmove 2 0 6 (fun a => UInt8.ofNat a.toNat) = (2, mem') := by
  have hdst : (2 : Addr).toNat + (6 : UInt32).toNat ≤ 2 ^ 64 := by decide
  have hsrc : (0 : Addr).toNat + (6 : UInt32).toNat ≤ 2 ^ 64 := by decide
  obtain ⟨mem', hmoved, hkernel, huser⟩ := memmove_exact hdst hsrc (fun a => UInt8.ofNat a.toNat)
  exact ⟨mem', hmoved, hkernel, huser (by decide)⟩

end Xv6.User
