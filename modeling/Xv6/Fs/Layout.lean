import Mathlib.Data.Nat.Bitwise
import Xv6.Param

/-! The on-disk format of `fs.h`: the superblock's numbers, the free bit map,
the array of inodes and the entries of an indirect block, as bytes of blocks. -/
namespace Xv6.Fs

open Lib

def nDirect : Nat := 12
def nIndirect : Nat := 256
def maxFile : Nat := nDirect + nIndirect

def dinodeSize : Nat := 64

def ipb : Nat := 16

def bpb : Nat := bsize * 8

structure Superblock where
  size : Nat
  ninodes : Nat
  nlog : Nat
  logstart : Nat
  inodestart : Nat
  bmapstart : Nat

namespace Superblock

variable (sb : Superblock)

def iblock (inum : Nat) : Nat := inum / ipb + sb.inodestart

def bblock (b : Nat) : Nat := b / bpb + sb.bmapstart

def dataStart : Nat := sb.bmapstart + sb.size / bpb + 1

/-- Boot block, super block and log come before the inodes. -/
def Head (b : Nat) : Prop := b < sb.inodestart

def Front (b : Nat) : Prop := b < sb.bmapstart

def Bitmap (b : Nat) : Prop := sb.bmapstart ≤ b ∧ b < sb.dataStart

def Data (b : Nat) : Prop := sb.dataStart ≤ b

/-- A superblock as `mkfs` lays the disk out: boot block, super block, log,
inodes, bit map, data, in this order, and few enough blocks for an `int`. -/
structure WF : Prop where
  log : 2 ≤ sb.logstart
  inodes : sb.logstart + sb.nlog ≤ sb.inodestart
  bitmap : sb.inodestart + sb.ninodes / ipb < sb.bmapstart
  data : sb.dataStart ≤ sb.size
  size : sb.size < 2 ^ 31

theorem bmapstart_lt_dataStart : sb.bmapstart < sb.dataStart :=
  Nat.lt_succ_of_le (Nat.le_add_right _ _)

theorem bmapstart_le_bblock (b : Nat) : sb.bmapstart ≤ sb.bblock b := Nat.le_add_left _ _

theorem bblock_lt {b : Nat} (hb : b < sb.size) : sb.bblock b < sb.dataStart := by
  have : b / bpb ≤ sb.size / bpb := Nat.div_le_div_right (Nat.le_of_lt hb)
  unfold bblock dataStart
  omega

theorem WF.bmapstart_pos {sb : Superblock} (h : sb.WF) : 0 < sb.bmapstart :=
  Nat.lt_of_le_of_lt (Nat.zero_le _) h.bitmap

theorem WF.iblock_lt {sb : Superblock} (h : sb.WF) {i : Nat} (hi : i < sb.ninodes) :
    sb.iblock i < sb.bmapstart := by
  have := h.bitmap
  have hdiv : i / ipb ≤ sb.ninodes / ipb := Nat.div_le_div_right (Nat.le_of_lt hi)
  unfold iblock
  omega

theorem WF.inodestart_lt {sb : Superblock} (h : sb.WF) : sb.inodestart < sb.bmapstart :=
  Nat.lt_of_le_of_lt (Nat.le_add_right _ _) h.bitmap

theorem inodestart_le_iblock (i : Nat) : sb.inodestart ≤ sb.iblock i := Nat.le_add_left _ _

theorem bitmap_bblock {b : Nat} (hb : b < sb.size) : sb.Bitmap (sb.bblock b) :=
  ⟨sb.bmapstart_le_bblock b, sb.bblock_lt hb⟩

theorem WF.outside {sb : Superblock} (h : sb.WF) {i : Nat} (b : Nat) (hb : sb.Head b) :
    ¬sb.Bitmap b ∧ b ≠ sb.iblock i := by
  have hstart := h.inodestart_lt
  have hblock := sb.inodestart_le_iblock i
  unfold Head at hb
  unfold Bitmap
  omega

theorem WF.outside_data {sb : Superblock} (h : sb.WF) {i : Nat} (hi : i < sb.ninodes) {b : Nat}
    (hb : sb.Data b) : ¬sb.Bitmap b ∧ b ≠ sb.iblock i := by
  have hblock := h.iblock_lt hi
  have hstart := sb.bmapstart_lt_dataStart
  unfold Data at hb
  unfold Bitmap
  omega

theorem WF.iblock_pos {sb : Superblock} (h : sb.WF) (i : Nat) : sb.iblock i ≠ 0 := by
  have := h.log
  have := h.inodes
  have hle : sb.inodestart ≤ sb.iblock i := Nat.le_add_left _ _
  omega

end Superblock

section Bitmap

def bitMask (bi : Nat) : UInt8 := UInt8.ofNat (2 ^ (bi % 8))

def bitSet (block : Block) (bi : Nat) : Bool := (block.get (bi / 8) &&& bitMask bi) != 0

def markBit (block : Block) (bi : Nat) : Block :=
  block.set (bi / 8) (block.get (bi / 8) ||| bitMask bi)

def clearBit (block : Block) (bi : Nat) : Block :=
  block.set (bi / 8) (block.get (bi / 8) &&& ~~~bitMask bi)

theorem bitMask_toNat (bi : Nat) : (bitMask bi).toNat = 2 ^ (bi % 8) := by
  have hlt : 2 ^ (bi % 8) < 2 ^ 8 := Nat.pow_lt_pow_right (by decide) (Nat.mod_lt _ (by decide))
  exact UInt8.toNat_ofNat_of_lt' hlt

theorem bitSet_eq_testBit (block : Block) (bi : Nat) :
    bitSet block bi = (block.get (bi / 8)).toNat.testBit (bi % 8) := by
  have hand : (block.get (bi / 8) &&& bitMask bi).toNat =
      ((block.get (bi / 8)).toNat.testBit (bi % 8)).toNat * 2 ^ (bi % 8) := by
    rw [UInt8.toNat_and, bitMask_toNat, Nat.and_two_pow]
  have hpos : 0 < 2 ^ (bi % 8) := Nat.two_pow_pos _
  unfold bitSet
  cases hbit : (block.get (bi / 8)).toNat.testBit (bi % 8)
  · have : block.get (bi / 8) &&& bitMask bi = 0 := by
      apply UInt8.toNat_inj.mp
      simp [hand, hbit]
    simp [this]
  · have : block.get (bi / 8) &&& bitMask bi ≠ 0 := by
      intro h
      rw [h, hbit] at hand
      simp at hand
      omega
    simpa using this

private theorem testBit_not_mask (bi j : Nat) (hj : j < 8) :
    (~~~bitMask bi).toNat.testBit j = decide (j ≠ bi % 8) := by
  have hall : ∀ k < 8, ∀ j < 8, (UInt8.size - 1 - 2 ^ k).testBit j = decide (j ≠ k) := by
    decide
  rw [UInt8.toNat_not, bitMask_toNat]
  exact hall _ (Nat.mod_lt _ (by decide)) _ hj

theorem bitSet_markBit (block : Block) {bi bj : Nat} (hi : bi < bpb) :
    bitSet (markBit block bi) bj = (decide (bj = bi) || bitSet block bj) := by
  have hbyte : bi / 8 < bsize := by
    unfold bpb bsize at *
    omega
  rw [bitSet_eq_testBit, bitSet_eq_testBit, markBit]
  by_cases hsame : bj / 8 = bi / 8
  · rw [hsame, Bytes.get_set_self _ _ hbyte, UInt8.toNat_or, Nat.testBit_or, bitMask_toNat,
      Nat.testBit_two_pow, Bool.or_comm]
    congr 1
    rw [decide_eq_decide]
    omega
  · have hne : bj ≠ bi := fun h => hsame (by rw [h])
    rw [Bytes.get_set_of_ne _ _ hsame]
    simp [hne]

theorem bitSet_clearBit (block : Block) {bi bj : Nat} (hi : bi < bpb) :
    bitSet (clearBit block bi) bj = (decide (bj ≠ bi) && bitSet block bj) := by
  have hbyte : bi / 8 < bsize := by
    unfold bpb bsize at *
    omega
  rw [bitSet_eq_testBit, bitSet_eq_testBit, clearBit]
  by_cases hsame : bj / 8 = bi / 8
  · rw [hsame, Bytes.get_set_self _ _ hbyte, UInt8.toNat_and, Nat.testBit_and,
      testBit_not_mask _ _ (Nat.mod_lt _ (by decide)), Bool.and_comm]
    congr 1
    rw [decide_eq_decide]
    omega
  · have hne : bj ≠ bi := fun h => hsame (by rw [h])
    rw [Bytes.get_set_of_ne _ _ hsame]
    simp [hne]

end Bitmap

section Inodes

structure Dinode where
  type : Int16
  major : Int16
  minor : Int16
  nlink : Int16
  size : Nat
  addrs : Nat → Nat

def getShort (block : Block) (offset : Nat) : Int16 :=
  .ofBitVec (.ofNat 16 (block.getLE offset 2))

def setShort (block : Block) (offset : Nat) (value : Int16) : Block :=
  block.setLE offset 2 value.toBitVec.toNat

def readDinode (block : Block) (slot : Nat) : Dinode :=
  let base := slot * dinodeSize
  { type := getShort block base
    major := getShort block (base + 2)
    minor := getShort block (base + 4)
    nlink := getShort block (base + 6)
    size := block.getLE (base + 8) 4
    addrs := fun i => if i ≤ nDirect then block.getLE (base + 12 + 4 * i) 4 else 0 }

def writeDinode (block : Block) (slot : Nat) (d : Dinode) : Block :=
  let base := slot * dinodeSize
  let block := setShort block base d.type
  let block := setShort block (base + 2) d.major
  let block := setShort block (base + 4) d.minor
  let block := setShort block (base + 6) d.nlink
  let block := block.setLE (base + 8) 4 d.size
  block.setWords (base + 12) d.addrs (nDirect + 1)

/-- A dinode that survives being stored. -/
structure Dinode.Fits (d : Dinode) : Prop where
  size : d.size < 2 ^ 32
  addrs : ∀ i, d.addrs i < 2 ^ 32
  rest : ∀ i, nDirect < i → d.addrs i = 0

def Dinode.fresh (type : Int16) : Dinode := ⟨type, 0, 0, 0, 0, fun _ => 0⟩

theorem getShort_setShort_self (block : Block) {offset : Nat} (value : Int16)
    (h : offset + 2 ≤ bsize) : getShort (setShort block offset value) offset = value := by
  have hvalue : value.toBitVec.toNat < 256 ^ 2 := value.toBitVec.isLt
  simp [getShort, setShort, Bytes.getLE_setLE_self _ _ _ _ h hvalue]

theorem getShort_setShort_of_disjoint (block : Block) {offset other : Nat} (value : Int16)
    (h : other + 2 ≤ offset ∨ offset + 2 ≤ other) :
    getShort (setShort block offset value) other = getShort block other := by
  simp [getShort, setShort, Bytes.getLE_setLE_of_disjoint _ _ _ _ _ _ h]

theorem getLE_writeDinode_of_disjoint (block : Block) (slot : Nat) (d : Dinode)
    {offset width : Nat}
    (h : offset + width ≤ slot * dinodeSize ∨ slot * dinodeSize + dinodeSize ≤ offset) :
    (writeDinode block slot d).getLE offset width = block.getLE offset width := by
  unfold dinodeSize at h
  simp only [writeDinode, setShort, dinodeSize, nDirect]
  rw [Bytes.getLE_setWords_of_disjoint _ _ _ _ _ _ (by omega),
    Bytes.getLE_setLE_of_disjoint _ _ _ _ _ _ (by omega),
    Bytes.getLE_setLE_of_disjoint _ _ _ _ _ _ (by omega),
    Bytes.getLE_setLE_of_disjoint _ _ _ _ _ _ (by omega),
    Bytes.getLE_setLE_of_disjoint _ _ _ _ _ _ (by omega),
    Bytes.getLE_setLE_of_disjoint _ _ _ _ _ _ (by omega)]

theorem readDinode_congr {left right : Block} {slot : Nat}
    (h : ∀ offset width, offset + width ≤ dinodeSize →
      left.getLE (slot * dinodeSize + offset) width =
        right.getLE (slot * dinodeSize + offset) width) :
    readDinode left slot = readDinode right slot := by
  have hshort : ∀ offset, offset + 2 ≤ dinodeSize →
      getShort left (slot * dinodeSize + offset) = getShort right (slot * dinodeSize + offset) := by
    intro offset hoffset
    rw [getShort, getShort, h offset 2 hoffset]
  have hbase := hshort 0 (by decide)
  simp only [Nat.add_zero] at hbase
  simp only [readDinode, Dinode.mk.injEq]
  refine ⟨hbase, hshort 2 (by decide), hshort 4 (by decide), hshort 6 (by decide),
    h 8 4 (by decide), ?_⟩
  funext i
  split
  · rename_i hi
    have := h (12 + 4 * i) 4 (by unfold dinodeSize; unfold nDirect at hi; omega)
    simpa only [Nat.add_assoc] using this
  · rfl

theorem readDinode_writeDinode_of_ne (block : Block) {slot other : Nat} (d : Dinode)
    (h : other ≠ slot) : readDinode (writeDinode block slot d) other = readDinode block other := by
  apply readDinode_congr
  intro offset width hfield
  apply getLE_writeDinode_of_disjoint
  unfold dinodeSize at *
  omega

theorem readDinode_writeDinode_self (block : Block) {slot : Nat} {d : Dinode} (hd : d.Fits)
    (hslot : slot < ipb) : readDinode (writeDinode block slot d) slot = d := by
  have hbase : slot * dinodeSize + dinodeSize ≤ bsize := by
    unfold dinodeSize bsize ipb at *
    omega
  have hbytes : ∀ x : Int16, x.toBitVec.toNat < 256 ^ 2 := fun x => x.toBitVec.isLt
  have hsize : d.size < 256 ^ 4 := hd.size
  unfold dinodeSize at hbase
  -- each field is read past the stores that follow its own
  have hshort : ∀ {block : Block} {offset other : Nat} {x y : Int16},
      other + 2 ≤ offset → getShort block other = x →
        getShort (setShort block offset y) other = x :=
    fun hlt hx => (getShort_setShort_of_disjoint _ _ (Or.inl hlt)).trans hx
  have htail : ∀ {block : Block} {other : Nat} {x : Int16}, other + 2 ≤ slot * 64 + 8 →
      getShort block other = x →
      getShort ((block.setLE (slot * 64 + 8) 4 d.size).setWords (slot * 64 + 12) d.addrs 13)
        other = x := by
    intro block other x hlt hx
    rw [getShort, Bytes.getLE_setWords_of_disjoint _ _ _ _ _ _ (by omega),
      Bytes.getLE_setLE_of_disjoint _ _ _ _ _ _ (by omega)]
    exact hx
  rcases d with ⟨type, major, minor, nlink, size, addrs⟩
  simp only [readDinode, writeDinode, dinodeSize, Dinode.mk.injEq]
  refine ⟨htail (by omega) (hshort (by omega) (hshort (by omega) (hshort (by omega) ?_))),
    htail (by omega) (hshort (by omega) (hshort (by omega) ?_)),
    htail (by omega) (hshort (by omega) ?_), htail (by omega) ?_, ?_, ?_⟩
  · exact getShort_setShort_self _ _ (by omega)
  · exact getShort_setShort_self _ _ (by omega)
  · exact getShort_setShort_self _ _ (by omega)
  · exact getShort_setShort_self _ _ (by omega)
  · rw [Bytes.getLE_setWords_of_disjoint _ _ _ _ _ _ (by omega),
      Bytes.getLE_setLE_self _ _ _ _ (by omega) hsize]
  · funext i
    split
    · exact Bytes.getLE_setWords _ _ _ (by omega) (by unfold nDirect; omega) (hd.addrs i)
    · exact (hd.rest i (by omega)).symm

theorem fits_readDinode (block : Block) (slot : Nat) : (readDinode block slot).Fits where
  size := Bytes.getLE_lt _ _ 4
  addrs i := by
    simp only [readDinode]
    split
    · exact Bytes.getLE_lt _ _ 4
    · decide
  rest i hi := by
    simp only [readDinode]
    rw [if_neg (by omega)]

end Inodes

def entry (block : Block) (j : Nat) : Nat := block.getLE (4 * j) 4

def setEntry (block : Block) (j value : Nat) : Block := block.setLE (4 * j) 4 value

theorem entry_zero (j : Nat) : entry (Bytes.zero bsize) j = 0 := Bytes.getLE_zero _ _

theorem entry_setEntry (block : Block) {j k value : Nat} (hj : j < nIndirect)
    (hvalue : value < 2 ^ 32) :
    entry (setEntry block j value) k = if k = j then value else entry block k := by
  unfold nIndirect at hj
  split
  · rename_i hkj
    subst hkj
    exact Bytes.getLE_setLE_self _ _ _ _ (by unfold bsize; omega) hvalue
  · exact Bytes.getLE_setLE_of_disjoint _ _ _ _ _ _ (by omega)

end Xv6.Fs
