import Xv6.Param

/-! The on-disk log header: `struct logheader` laid over a block, a 4-byte
count followed by 4-byte block numbers. Entries past the count keep whatever an
older transaction left there. -/
namespace Xv6.Log

def headN (block : Block) : Nat := block.getLE 0 4

def headBlock (block : Block) (index : Nat) : Nat := block.getLE (4 + 4 * index) 4

/-- The count as the signed loop bound the C code uses: a negative `n` runs no
iteration. -/
def loopCount (n : Nat) : Nat := if n < 2 ^ 31 then n else 0

def loadBlocks (block : Block) : Nat → Nat → List Nat
  | _, 0 => []
  | index, count + 1 => headBlock block index :: loadBlocks block (index + 1) count

def storeBlocks (block : Block) : Nat → List Nat → Block
  | _, [] => block
  | index, blockno :: rest =>
      storeBlocks (block.setLE (4 + 4 * index) 4 blockno) (index + 1) rest

/-- `read_head`: the in-memory header after copying the block's first `n` entries. -/
def readHead (block : Block) : List Nat :=
  loadBlocks block 0 (loopCount (headN block))

def fillHead (block : Block) (blocks : List Nat) : Block :=
  storeBlocks (block.setLE 0 4 blocks.length) 0 blocks

private theorem getLE_storeBlocks (block : Block) (index : Nat) (blocks : List Nat)
    (offset width : Nat) (h : offset + width ≤ 4 + 4 * index) :
    (storeBlocks block index blocks).getLE offset width = block.getLE offset width := by
  induction blocks generalizing block index with
  | nil => rfl
  | cons blockno rest ih =>
    rw [storeBlocks, ih _ _ (by omega), Lib.Bytes.getLE_setLE_of_disjoint _ _ _ _ _ _ (Or.inl h)]

theorem loadBlocks_storeBlocks (block : Block) (index : Nat) (blocks : List Nat)
    (hroom : index + blocks.length ≤ logBlocks) (hword : ∀ blockno ∈ blocks, blockno < 2 ^ 32) :
    loadBlocks (storeBlocks block index blocks) index blocks.length = blocks := by
  induction blocks generalizing block index with
  | nil => rfl
  | cons blockno rest ih =>
    simp only [List.length_cons, logBlocks_eq] at hroom
    have hfirst : headBlock (storeBlocks block index (blockno :: rest)) index = blockno := by
      unfold headBlock
      rw [storeBlocks, getLE_storeBlocks _ _ _ _ _ (by omega)]
      exact Lib.Bytes.getLE_setLE_self _ _ _ _ (by unfold bsize; omega)
        (hword blockno List.mem_cons_self)
    rw [List.length_cons, loadBlocks, hfirst, storeBlocks,
      ih _ _ (by simp only [logBlocks_eq]; omega) fun b hb => hword b (List.mem_cons_of_mem _ hb)]

theorem headN_fillHead (block : Block) (blocks : List Nat) (hroom : blocks.length ≤ logBlocks) :
    headN (fillHead block blocks) = blocks.length := by
  rw [logBlocks_eq] at hroom
  unfold headN fillHead
  rw [getLE_storeBlocks _ _ _ _ _ (by omega)]
  exact Lib.Bytes.getLE_setLE_self _ _ _ _ (by unfold bsize; omega) (by omega)

@[simp] theorem headN_fillHead_nil (block : Block) : headN (fillHead block []) = 0 :=
  headN_fillHead block [] (Nat.zero_le _)

theorem readHead_fillHead (block : Block) (blocks : List Nat)
    (hroom : blocks.length ≤ logBlocks) (hword : ∀ blockno ∈ blocks, blockno < 2 ^ 32) :
    readHead (fillHead block blocks) = blocks := by
  have hcount : loopCount blocks.length = blocks.length := by
    rw [logBlocks_eq] at hroom
    exact if_pos (by omega)
  unfold readHead
  rw [headN_fillHead block blocks hroom, hcount]
  exact loadBlocks_storeBlocks _ 0 blocks (by omega) hword

theorem readHead_of_headN_eq_zero {block : Block} (h : headN block = 0) : readHead block = [] := by
  simp [readHead, h, loopCount, loadBlocks]

end Xv6.Log
