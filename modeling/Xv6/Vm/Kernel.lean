import Xv6.Lib.Prog
import Xv6.Vm.Pte

/-! The pages of physical memory, and the programs that take them from `kalloc` and give
them back to `kfree`. -/
namespace Xv6.Vm

open Lib

inductive Cell where
  | page (n : Nat)
  deriving DecidableEq

inductive Panic where
  | walk
  | mappagesVa
  | mappagesSize
  | mappagesRemap
  | uvmunmapNotAligned
  | freewalkLeaf
  | uvmclear
  | kfree
  | loadseg
  | nullPointer
  /-- a store beyond the end of `ustack` -/
  | ustack
  | endless
  deriving DecidableEq

/-- The fields of `struct proc` that describe its memory; `none` is the null
pointer. -/
structure Mm where
  sz : Nat
  pagetable : Option Nat
  trapframe : Option Nat
  deriving DecidableEq

def Mm.none : Mm := ⟨0, Option.none, Option.none⟩

abbrev sig : Sig := ⟨Cell, Data, Panic⟩

instance : DecidableEq sig.Cell := inferInstanceAs (DecidableEq Cell)

abbrev Code := Prog sig

abbrev Heap := Heaplet Cell Data

/-- `kalloc` fills a page with 5, `kfree` with 1. -/
def machine : Machine sig := ⟨filled 5, filled 1⟩

end Xv6.Vm
