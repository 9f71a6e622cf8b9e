import Mathlib.Data.List.FinRange
import Xv6.Fs.Layout

/-! The block allocator and the inode layer of `fs.c`, over block contents as
`bread` shows them. Every function follows its source; a loop over an index
range is a fold or a search over the list of its indices. -/
namespace Xv6.Fs

open Lib

def ninode : Nat := 50

abbrev Ptr := Fin ninode

/-- `struct inode`, for the one device there is. -/
structure Inode where
  inum : Nat
  ref : Int
  valid : Bool
  d : Dinode

@[ext]
structure Store where
  disk : Disk
  inode : Ptr → Inode

inductive Panic where
  | freeingFreeBlock
  | bmapOutOfRange
  | igetNoInodes
  | ilock
  | ilockNoType
  deriving DecidableEq

def Store.setBlock (fs : Store) (b : Nat) (data : Block) : Store :=
  { fs with disk := Function.update fs.disk b data }

def Store.setInode (fs : Store) (ip : Ptr) (inode : Inode) : Store :=
  { fs with inode := Function.update fs.inode ip inode }

def Store.setD (fs : Store) (ip : Ptr) (d : Dinode) : Store :=
  fs.setInode ip { fs.inode ip with d := d }

def Dinode.setAddr (d : Dinode) (i b : Nat) : Dinode :=
  { d with addrs := Function.update d.addrs i b }

variable (sb : Superblock)

def findClear (block : Block) (limit : Nat) : Option Nat :=
  (List.range limit).find? fun bi => !bitSet block bi

def ballocScan (disk : Disk) : Option (Nat × Nat) :=
  (List.range ((sb.size + bpb - 1) / bpb)).findSome? fun k =>
    (findClear (disk (sb.bblock (k * bpb))) (min bpb (sb.size - k * bpb))).map fun bi => (k, bi)

def balloc (fs : Store) : Nat × Store :=
  match ballocScan sb fs.disk with
  | some (k, bi) =>
      let bblock := sb.bblock (k * bpb)
      let b := k * bpb + bi
      (b, (fs.setBlock bblock (markBit (fs.disk bblock) bi)).setBlock b (Bytes.zero bsize))
  | none => (0, fs)

def bfree (fs : Store) (b : Nat) : Except Panic Store :=
  let bblock := sb.bblock b
  let bi := b % bpb
  if bitSet (fs.disk bblock) bi then .ok (fs.setBlock bblock (clearBit (fs.disk bblock) bi))
  else .error .freeingFreeBlock

def diskInode (disk : Disk) (inum : Nat) : Dinode :=
  readDinode (disk (sb.iblock inum)) (inum % ipb)

def writeInode (fs : Store) (inum : Nat) (d : Dinode) : Store :=
  fs.setBlock (sb.iblock inum) (writeDinode (fs.disk (sb.iblock inum)) (inum % ipb) d)

def iupdate (fs : Store) (ip : Ptr) : Store :=
  writeInode sb fs (fs.inode ip).inum (fs.inode ip).d

def iget (fs : Store) (inum : Nat) : Except Panic (Ptr × Store) :=
  match (List.finRange ninode).find? fun ip =>
      0 < (fs.inode ip).ref ∧ (fs.inode ip).inum = inum with
  | some ip => .ok (ip, fs.setInode ip { fs.inode ip with ref := (fs.inode ip).ref + 1 })
  | none =>
      match (List.finRange ninode).find? fun ip => (fs.inode ip).ref = 0 with
      | some ip =>
          .ok (ip, fs.setInode ip { fs.inode ip with inum := inum, ref := 1, valid := false })
      | none => .error .igetNoInodes

def idup (fs : Store) (ip : Ptr) : Store :=
  fs.setInode ip { fs.inode ip with ref := (fs.inode ip).ref + 1 }

def ialloc (fs : Store) (type : Int16) : Except Panic (Option Ptr × Store) :=
  match (List.range' 1 (sb.ninodes - 1)).find? fun inum => (diskInode sb fs.disk inum).type = 0 with
  | some inum => do
      let (ip, fs) ← iget (writeInode sb fs inum (.fresh type)) inum
      pure (some ip, fs)
  | none => pure (none, fs)

/-- `ilock`, without the sleep-lock itself. -/
def ilock (fs : Store) (ip : Ptr) : Except Panic Store :=
  let inode := fs.inode ip
  if inode.ref < 1 then .error .ilock
  else if inode.valid then .ok fs
  else
    let d := diskInode sb fs.disk inode.inum
    if d.type = 0 then .error .ilockNoType
    else .ok (fs.setInode ip { inode with d := d, valid := true })

def bmapDirect (fs : Store) (ip : Ptr) (bn : Nat) : Nat × Store :=
  let d := (fs.inode ip).d
  if d.addrs bn = 0 then
    let (b, fs) := balloc sb fs
    if b = 0 then (0, fs) else (b, fs.setD ip (d.setAddr bn b))
  else (d.addrs bn, fs)

def bmapEntry (fs : Store) (addr bn : Nat) : Nat × Store :=
  if entry (fs.disk addr) bn = 0 then
    let (b, fs) := balloc sb fs
    if b = 0 then (0, fs) else (b, fs.setBlock addr (setEntry (fs.disk addr) bn b))
  else (entry (fs.disk addr) bn, fs)

def bmap (fs : Store) (ip : Ptr) (bn : Nat) : Except Panic (Nat × Store) :=
  if bn < nDirect then .ok (bmapDirect sb fs ip bn)
  else if bn - nDirect < nIndirect then
    -- the indirect block itself is allocated like a direct one
    let (addr, fs) := bmapDirect sb fs ip nDirect
    if addr = 0 then .ok (0, fs) else .ok (bmapEntry sb fs addr (bn - nDirect))
  else .error .bmapOutOfRange

def truncDirect (ip : Ptr) (fs : Store) (i : Nat) : Except Panic Store :=
  let d := (fs.inode ip).d
  if d.addrs i = 0 then .ok fs
  else do
    let fs ← bfree sb fs (d.addrs i)
    pure (fs.setD ip (d.setAddr i 0))

def truncEntry (addr : Nat) (fs : Store) (j : Nat) : Except Panic Store :=
  if entry (fs.disk addr) j = 0 then .ok fs else bfree sb fs (entry (fs.disk addr) j)

def truncIndirect (fs : Store) (ip : Ptr) : Except Panic Store :=
  let d := (fs.inode ip).d
  if d.addrs nDirect = 0 then .ok fs
  else do
    let fs ← (List.range nIndirect).foldlM (truncEntry sb (d.addrs nDirect)) fs
    let fs ← bfree sb fs (d.addrs nDirect)
    pure (fs.setD ip ((fs.inode ip).d.setAddr nDirect 0))

def itrunc (fs : Store) (ip : Ptr) : Except Panic Store := do
  let fs ← (List.range nDirect).foldlM (truncDirect sb ip) fs
  let fs ← truncIndirect sb fs ip
  pure (iupdate sb (fs.setD ip { (fs.inode ip).d with size := 0 }) ip)

def iput (fs : Store) (ip : Ptr) : Except Panic Store := do
  let inode := fs.inode ip
  let fs ←
    if inode.ref = 1 ∧ inode.valid ∧ inode.d.nlink = 0 then do
      let fs ← itrunc sb fs ip
      let fs := iupdate sb (fs.setD ip { (fs.inode ip).d with type := 0 }) ip
      pure (fs.setInode ip { fs.inode ip with valid := false })
    else pure fs
  pure (fs.setInode ip { fs.inode ip with ref := (fs.inode ip).ref - 1 })

/-- The bytes a caller writes from, `none` where reading them faults. -/
abbrev Source := Nat → Option UInt8

/-- `either_copyin` of `m` bytes into a block: what it has stored, and whether
it got to the end. -/
def eitherCopyin (src : Source) (block : Block) (offset start : Nat) : Nat → Block × Bool
  | 0 => (block, true)
  | m + 1 =>
      match src start with
      | none => (block, false)
      | some byte => eitherCopyin src (block.set offset byte) (offset + 1) (start + 1) m

/-- The loop of `writei` with the values of `tot` and `off` it leaves; `fuel`
bounds the iterations. -/
def writeLoop (ip : Ptr) (src : Source) (n : Nat) :
    Nat → Nat → Nat → Store → Except Panic (Nat × Nat × Store)
  | 0, tot, off, fs => .ok (tot, off, fs)
  | fuel + 1, tot, off, fs =>
      if tot < n then do
        let (addr, fs) ← bmap sb fs ip (off / bsize)
        if addr = 0 then pure (tot, off, fs)
        else
          let m := min (n - tot) (bsize - off % bsize)
          let (data, copied) := eitherCopyin src (fs.disk addr) (off % bsize) tot m
          let fs := fs.setBlock addr data
          if copied then writeLoop ip src n fuel (tot + m) (off + m) fs else pure (tot, off, fs)
      else pure (tot, off, fs)

/-- `off` and `n` are 32-bit; every iteration writes at least one byte, so `n`
iterations are enough. -/
def writei (fs : Store) (ip : Ptr) (src : Source) (off n : Nat) : Except Panic (Int × Store) :=
  let d := (fs.inode ip).d
  if off > d.size ∨ (off + n) % 2 ^ 32 < off then .ok (-1, fs)
  else if (off + n) % 2 ^ 32 > maxFile * bsize then .ok (-1, fs)
  else do
    let (tot, off, fs) ← writeLoop sb ip src n n 0 off fs
    let d := (fs.inode ip).d
    let fs := if off > d.size then fs.setD ip { d with size := off } else fs
    pure (tot, iupdate sb fs ip)

/-- Where a caller wants the bytes it reads: whether storing each of them works. -/
abbrev Sink := Nat → Bool

def eitherCopyout (sink : Sink) (block : Block) (offset start : Nat) : Nat → List UInt8 × Bool
  | 0 => ([], true)
  | m + 1 =>
      if sink start then
        let (rest, copied) := eitherCopyout sink block (offset + 1) (start + 1) m
        (block.get offset :: rest, copied)
      else ([], false)

def readLoop (ip : Ptr) (sink : Sink) (n : Nat) :
    Nat → Nat → Nat → Store → Except Panic (Int × List UInt8 × Store)
  | 0, tot, _, fs => .ok (tot, [], fs)
  | fuel + 1, tot, off, fs =>
      if tot < n then do
        let (addr, fs) ← bmap sb fs ip (off / bsize)
        if addr = 0 then pure (tot, [], fs)
        else
          let m := min (n - tot) (bsize - off % bsize)
          let (bytes, copied) := eitherCopyout sink (fs.disk addr) (off % bsize) tot m
          if copied then do
            let (result, rest, fs) ← readLoop ip sink n fuel (tot + m) (off + m) fs
            pure (result, bytes ++ rest, fs)
          else pure (-1, bytes, fs)
      else pure (tot, [], fs)

def readi (fs : Store) (ip : Ptr) (sink : Sink) (off n : Nat) :
    Except Panic (Int × List UInt8 × Store) :=
  let d := (fs.inode ip).d
  if off > d.size ∨ (off + n) % 2 ^ 32 < off then .ok (0, [], fs)
  else
    let n := if (off + n) % 2 ^ 32 > d.size then d.size - off else n
    readLoop sb ip sink n n 0 off fs

end Xv6.Fs
