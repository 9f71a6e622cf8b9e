import Mathlib.Data.Nat.Bitwise
import Xv6.Lib.Bytes

/-! Addresses and page-table entries of `riscv.h` and `memlayout.h`. A physical
page is named by its number, its address divided by `PGSIZE`. -/
namespace Xv6.Vm

open Lib

def pgSize : Nat := 4096

def maxVa : Nat := 2 ^ 38

def trampoline : Nat := maxVa - pgSize

def trapframe : Nat := trampoline - pgSize

def kernBase : Nat := 0x80000000

def physTop : Nat := kernBase + 128 * 1024 * 1024

def pgRoundUp (sz : Nat) : Nat := (sz + pgSize - 1) % 2 ^ 64 / pgSize * pgSize

def pgRoundDown (a : Nat) : Nat := a / pgSize * pgSize

def px (level va : Nat) : Nat := va / 2 ^ (12 + 9 * level) % 512

def pteV : Nat := 1
def pteR : Nat := 2
def pteW : Nat := 4
def pteX : Nat := 8
def pteU : Nat := 16

def pa2pte (page : Nat) : Nat := page <<< 10

def pte2pa (pte : Nat) : Nat := pte >>> 10

def pteFlags (pte : Nat) : Nat := pte &&& 0x3FF

abbrev Data := Bytes pgSize

def word (data : Data) (i : Nat) : Nat := data.getLE (8 * i) 8

def setWord (data : Data) (i value : Nat) : Data := data.setLE (8 * i) 8 value

def filled (byte : UInt8) : Data := fun _ => byte

theorem word_filled_zero (i : Nat) : word (filled 0) i = 0 := Bytes.getLE_zero _ _

theorem word_setWord_self (data : Data) {i value : Nat} (hi : i < 512) (hvalue : value < 2 ^ 64) :
    word (setWord data i value) i = value :=
  Bytes.getLE_setLE_self _ _ _ _ (by unfold pgSize; omega) hvalue

theorem word_setWord_of_ne (data : Data) {i j : Nat} (value : Nat) (h : j ≠ i) :
    word (setWord data i value) j = word data j :=
  Bytes.getLE_setLE_of_disjoint _ _ _ _ _ _ (by omega)

section Bits

variable {page flags mask : Nat}

theorem pa2pte_or (page : Nat) (hflags : flags < 1024) :
    pa2pte page ||| flags = page * 1024 + flags := by
  rw [pa2pte, ← Nat.shiftLeft_add_eq_or_of_lt (by simpa using hflags), Nat.shiftLeft_eq]

theorem pte2pa_or (page : Nat) (hflags : flags < 1024) : pte2pa (pa2pte page ||| flags) = page := by
  rw [pa2pte_or page hflags, pte2pa, Nat.shiftRight_eq_div_pow]
  omega

theorem pteFlags_eq_mod (pte : Nat) : pteFlags pte = pte % 1024 :=
  Nat.and_two_pow_sub_one_eq_mod pte 10

theorem or_and_mask (page : Nat) (hflags : flags < 1024) (hmask : 1023 &&& mask = mask) :
    (pa2pte page ||| flags) &&& mask = flags &&& mask := by
  have hlow : (pa2pte page ||| flags) &&& 1023 = flags &&& 1023 := by
    rw [show (1023 : Nat) = 2 ^ 10 - 1 from rfl, Nat.and_two_pow_sub_one_eq_mod,
      Nat.and_two_pow_sub_one_eq_mod, pa2pte_or page hflags]
    omega
  calc (pa2pte page ||| flags) &&& mask = (pa2pte page ||| flags) &&& 1023 &&& mask := by
        rw [Nat.and_assoc, hmask]
    _ = flags &&& mask := by rw [hlow, Nat.and_assoc, hmask]

theorem and_mask_pteFlags (pte : Nat) (hmask : 1023 &&& mask = mask) :
    pteFlags pte &&& mask = pte &&& mask := by
  rw [pteFlags, Nat.and_assoc, hmask]

theorem pa2pte_or_lt (hpage : page < 2 ^ 54) (hflags : flags < 1024) :
    pa2pte page ||| flags < 2 ^ 64 := by
  rw [pa2pte_or page hflags]
  omega

end Bits

def tableEntry : Option Nat → Nat
  | none => 0
  | some page => pa2pte page ||| pteV

theorem tableEntry_valid (page : Nat) : tableEntry (some page) &&& pteV = 1 :=
  or_and_mask page (by decide) (by decide)

theorem tableEntry_inner (page : Nat) :
    tableEntry (some page) &&& (pteR ||| pteW ||| pteX) = 0 :=
  or_and_mask page (by decide) (by decide)

theorem pte2pa_tableEntry (page : Nat) : pte2pa (tableEntry (some page)) = page :=
  pte2pa_or page (by decide)

theorem tableEntry_lt {page : Nat} (hpage : page < 2 ^ 54) : tableEntry (some page) < 2 ^ 64 :=
  pa2pte_or_lt hpage (by decide)

section Pages

def vpn (va : Nat) : Nat := va / pgSize

theorem px_eq (level va : Nat) : px level va = vpn va / 512 ^ level % 512 := by
  have hpow : 2 ^ (12 + 9 * level) = pgSize * 512 ^ level := by
    rw [Nat.pow_add, Nat.pow_mul]
    rfl
  rw [px, vpn, hpow, Nat.div_div_eq_div_mul]

theorem px_lt (level va : Nat) : px level va < 512 := Nat.mod_lt _ (by decide)

theorem vpn_px (level va : Nat) :
    vpn va / 512 ^ (level + 1) * 512 + px level va = vpn va / 512 ^ level := by
  rw [px_eq, Nat.pow_succ, ← Nat.div_div_eq_div_mul]
  exact Nat.div_add_mod' _ _

theorem vpn_lt {va : Nat} (hva : va < maxVa) : vpn va < 2 ^ 26 := by
  unfold vpn pgSize
  unfold maxVa at hva
  omega

theorem vpn_mul (v : Nat) : vpn (v * pgSize) = v := Nat.mul_div_cancel _ (by decide)

theorem pgRoundUp_eq {sz : Nat} (hsz : sz + pgSize ≤ 2 ^ 64) :
    pgRoundUp sz = (sz + pgSize - 1) / pgSize * pgSize := by
  rw [pgRoundUp, Nat.mod_eq_of_lt (by unfold pgSize at *; omega)]

end Pages

section Sizes

def npages (sz : Nat) : Nat := (sz + pgSize - 1) / pgSize

variable {sz n : Nat}

theorem pgRoundUp_npages (hsz : sz + pgSize ≤ 2 ^ 64) : pgRoundUp sz = npages sz * pgSize :=
  pgRoundUp_eq hsz

theorem npages_le : npages sz ≤ n ↔ sz ≤ n * pgSize := by
  unfold npages pgSize
  omega

theorem lt_npages : n < npages sz ↔ n * pgSize < sz := by
  rw [← not_iff_not, Nat.not_lt, Nat.not_lt, npages_le]

theorem npages_mul (n : Nat) : npages (n * pgSize) = n := by
  unfold npages pgSize
  omega

theorem npages_mono {sz' : Nat} (h : sz ≤ sz') : npages sz ≤ npages sz' :=
  npages_le.mpr (Nat.le_trans h (npages_le.mp (Nat.le_refl _)))

end Sizes

end Xv6.Vm
