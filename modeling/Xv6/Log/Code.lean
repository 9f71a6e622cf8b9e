import Xv6.Log.Header
import Xv6.Lib.Writes

/-! `commit`, `recover_from_log` and the routines they call, as the sequence of
buffer operations each performs. Control in these routines depends only on the
in-memory header, so a header determines the whole sequence; buffers are named
by the block they hold. -/
namespace Xv6.Log

inductive Call where
  | bread (blockno : Nat)
  /-- `memmove(dst->data, src->data, BSIZE)` -/
  | memmove (dst src : Nat)
  /-- The stores of `write_head` into the header buffer. -/
  | fillHead
  | bwrite (blockno : Nat)
  | bunpin (blockno : Nat)
  | brelse (blockno : Nat)
  | resetHead
  deriving DecidableEq

variable (start : Nat)

def writeLogFrom : Nat → List Nat → List Call
  | _, [] => []
  | tail, blockno :: rest =>
      [.bread (start + tail + 1), .bread blockno, .memmove (start + tail + 1) blockno,
        .bwrite (start + tail + 1), .brelse blockno, .brelse (start + tail + 1)] ++
      writeLogFrom (tail + 1) rest

def writeLog (blocks : List Nat) : List Call := writeLogFrom start 0 blocks

def writeHead : List Call :=
  [.bread start, .fillHead, .bwrite start, .brelse start]

def installTransFrom (recovering : Bool) : Nat → List Nat → List Call
  | _, [] => []
  | tail, blockno :: rest =>
      [.bread (start + tail + 1), .bread blockno, .memmove blockno (start + tail + 1),
        .bwrite blockno] ++
      (if recovering then [] else [.bunpin blockno]) ++
      [.brelse (start + tail + 1), .brelse blockno] ++
      installTransFrom recovering (tail + 1) rest

def installTrans (recovering : Bool) (blocks : List Nat) : List Call :=
  installTransFrom start recovering 0 blocks

def commit (blocks : List Nat) : List Call :=
  if blocks.length > 0 then
    writeLog start blocks ++ writeHead start ++ installTrans start false blocks ++
      [.resetHead] ++ writeHead start
  else []

/-- `recover_from_log` after its `read_head`, whose result is `blocks`. -/
def recoverFromLog (blocks : List Nat) : List Call :=
  installTrans start true blocks ++ [.resetHead] ++ writeHead start

/-- The header update of `log_write`: scan for the block, overwrite the slot
the scan stopped at, and extend the header when that slot is the first free one. -/
def absorb (blocks : List Nat) (blockno : Nat) : List Nat :=
  let i := blocks.idxOf blockno
  if i = blocks.length then blocks ++ [blockno] else blocks.set i blockno

theorem absorb_of_notMem {blocks : List Nat} {blockno : Nat} (h : blockno ∉ blocks) :
    absorb blocks blockno = blocks ++ [blockno] :=
  if_pos (List.idxOf_eq_length h)

theorem absorb_of_mem {blocks : List Nat} {blockno : Nat} (h : blockno ∈ blocks) :
    absorb blocks blockno = blocks := by
  have hlt := List.idxOf_lt_length_of_mem h
  have hget : blocks[blocks.idxOf blockno] = blockno := List.getElem_idxOf hlt
  calc
    absorb blocks blockno = blocks.set (blocks.idxOf blockno) blockno := if_neg (Nat.ne_of_lt hlt)
    _ = blocks.set (blocks.idxOf blockno) blocks[blocks.idxOf blockno] := by rw [hget]
    _ = blocks := List.set_getElem_self hlt

theorem mem_absorb {blocks : List Nat} {blockno b : Nat} :
    b ∈ absorb blocks blockno ↔ b ∈ blocks ∨ b = blockno := by
  by_cases h : blockno ∈ blocks
  · rw [absorb_of_mem h]
    constructor
    · exact Or.inl
    · rintro (hb | rfl)
      · exact hb
      · exact h
  · rw [absorb_of_notMem h]
    simp

theorem nodup_absorb {blocks : List Nat} (h : blocks.Nodup) (blockno : Nat) :
    (absorb blocks blockno).Nodup := by
  by_cases hmem : blockno ∈ blocks
  · rwa [absorb_of_mem hmem]
  · rw [absorb_of_notMem hmem]
    refine List.nodup_append.mpr ⟨h, by simp, ?_⟩
    intro b hb c hc heq
    exact hmem (List.mem_singleton.mp hc ▸ heq ▸ hb)

/-- Memory and disk as one kernel thread sees them: a valid buffer shadows the
disk block it caches. -/
structure Machine where
  disk : Disk
  cache : Nat → Option Block
  lh : List Nat

def Machine.boot (disk : Disk) : Machine := ⟨disk, fun _ => none, []⟩

def Machine.read (m : Machine) (blockno : Nat) : Block :=
  (m.cache blockno).getD (m.disk blockno)

def Machine.setBuf (m : Machine) (blockno : Nat) (data : Block) : Machine :=
  { m with cache := Function.update m.cache blockno (some data) }

def exec (m : Machine) : Call → Machine
  | .bread blockno => m.setBuf blockno (m.read blockno)
  | .memmove dst src => m.setBuf dst (m.read src)
  | .fillHead => m.setBuf start (fillHead (m.read start) m.lh)
  | .bwrite blockno => { m with disk := Function.update m.disk blockno (m.read blockno) }
  | .bunpin _ => m
  | .brelse _ => m
  | .resetHead => { m with lh := [] }

def run (m : Machine) (calls : List Call) : Machine := calls.foldl (exec start) m

def writes (m : Machine) : List Call → List (Nat × Block)
  | [] => []
  | .bwrite blockno :: rest =>
      (blockno, m.read blockno) :: writes (exec start m (.bwrite blockno)) rest
  | call :: rest => writes (exec start m call) rest

def Machine.logWrite (m : Machine) (update : Nat × Block) : Machine :=
  { m.setBuf update.1 update.2 with lh := absorb m.lh update.1 }

end Xv6.Log
