import Xv6.Lib.Bytes

/-! Sizes from `param.h` and `fs.h`. -/
namespace Xv6

def maxOpBlocks : Nat := 10

def logBlocks : Nat := maxOpBlocks * 3

def nbuf : Nat := maxOpBlocks * 3

def bsize : Nat := 1024

abbrev Block := Lib.Bytes bsize

abbrev Disk := Nat → Block

@[simp] theorem logBlocks_eq : logBlocks = 30 := rfl

end Xv6
