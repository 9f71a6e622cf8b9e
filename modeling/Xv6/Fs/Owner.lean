import Xv6.Fs.View
import Xv6.Lib.Ownership

/-! Who owns a disk block. Slots of inodes hold blocks: the addresses in the
inode, the last of which names the indirect block, and the entries of that
block. While a block changes hands the books are off by known amounts: a block
just allocated has no slot yet, and entries of an indirect block that is being
freed still name blocks that are free already. -/
namespace Xv6.Fs

open Lib

inductive RefSlot where
  | addr (i : Nat)
  | entry (j : Nat)
  deriving DecidableEq

/-- The block a slot names, 0 for none. -/
def Dinode.refs (d : Dinode) (disk : Disk) : RefSlot → Nat
  | .addr i => d.addrs i
  | .entry j => if d.addrs nDirect = 0 ∨ nIndirect ≤ j then 0 else entry (disk (d.addrs nDirect)) j

def fileSlot (bn : Nat) : RefSlot := if bn < nDirect then .addr bn else .entry (bn - nDirect)

variable (sb : Superblock)

def blockRef (fs : Store) (i : Nat) (slot : RefSlot) : Nat :=
  (inodes sb fs i).refs fs.disk slot

def Used (fs : Store) (i : Nat) : Prop := 1 ≤ i ∧ i < sb.ninodes ∧ (inodes sb fs i).type ≠ 0

/-- The slot holds the block; `dead` slots hold nothing. -/
def Holds (fs : Store) (dead : Nat → RefSlot → Prop) (x : Nat × RefSlot) (b : Nat) : Prop :=
  Used sb fs x.1 ∧ blockRef sb fs x.1 x.2 = b ∧ b ≠ 0 ∧ ¬dead x.1 x.2

/-- A data block marked in the bit map and not `spare`. -/
def Taken (fs : Store) (spare : Nat → Prop) (b : Nat) : Prop :=
  sb.dataStart ≤ b ∧ b < sb.size ∧ marked sb fs.disk b = true ∧ ¬spare b

structure Table (fs : Store) : Prop where
  unique : UniqueEntries fs
  used : ∀ ip, 0 < (fs.inode ip).ref → 1 ≤ (fs.inode ip).inum ∧
    (fs.inode ip).inum < sb.ninodes ∧ (diskInode sb fs.disk (fs.inode ip).inum).type ≠ 0
  valid : ∀ ip, 0 < (fs.inode ip).ref → (fs.inode ip).valid = true →
    (fs.inode ip).d.Fits ∧ (fs.inode ip).d.type ≠ 0

structure Core (fs : Store) (spare : Nat → Prop) (dead : Nat → RefSlot → Prop) : Prop where
  wf : sb.WF
  table : Table sb fs
  reserved : ∀ b, b < sb.dataStart → marked sb fs.disk b = true
  owns : Owns (Holds sb fs dead) (Taken sb fs spare)
  entries : ∀ i slot, dead i slot → ∃ j, slot = .entry j

abbrev Settled (fs : Store) : Prop := Core sb fs (fun _ => False) (fun _ _ => False)

def Mapped (fs : Store) : Prop :=
  ∀ i, Used sb fs i → (inodes sb fs i).size ≤ maxFile * bsize ∧
    ∀ bn, bn * bsize < (inodes sb fs i).size → blockRef sb fs i (fileSlot bn) ≠ 0

/-- The state of an entry that its holder may work with. -/
structure Live (fs : Store) (ip : Ptr) : Prop where
  ref : 0 < (fs.inode ip).ref
  valid : (fs.inode ip).valid = true

variable {sb} {fs : Store} {ip : Ptr} {spare : Nat → Prop} {dead : Nat → RefSlot → Prop}

theorem Live.inodes (h : Live fs ip) (ht : Table sb fs) :
    inodes sb fs (fs.inode ip).inum = (fs.inode ip).d :=
  inodes_of_live ht.unique h.ref h.valid

theorem Live.used (h : Live fs ip) (ht : Table sb fs) : Used sb fs (fs.inode ip).inum := by
  obtain ⟨hlow, hhigh, -⟩ := ht.used ip h.ref
  refine ⟨hlow, hhigh, ?_⟩
  rw [h.inodes ht]
  exact (ht.valid ip h.ref h.valid).2

section SetBlock

variable {b : Nat} {data : Block}

theorem Table.setBlock (ht : Table sb fs) (hwf : sb.WF) (hb : sb.bmapstart ≤ b) :
    Table sb (fs.setBlock b data) where
  unique := ht.unique
  used jp hjp := by
    obtain ⟨hlow, hhigh, htype⟩ := ht.used jp hjp
    refine ⟨hlow, hhigh, ?_⟩
    show (diskInode sb (fs.setBlock b data).disk (fs.inode jp).inum).type ≠ 0
    rwa [diskInode_setBlock hwf hb data hhigh]
  valid := ht.valid

theorem used_setBlock (hwf : sb.WF) (hb : sb.bmapstart ≤ b) (i : Nat) :
    Used sb (fs.setBlock b data) i ↔ Used sb fs i := by
  refine and_congr_right fun _ => and_congr_right fun hi => ?_
  rw [inodes_setBlock hwf hb data hi]

theorem blockRef_setBlock (hwf : sb.WF) (hb : sb.bmapstart ≤ b) {i : Nat} (hi : i < sb.ninodes)
    (hindirect : (inodes sb fs i).addrs nDirect ≠ b) (slot : RefSlot) :
    blockRef sb (fs.setBlock b data) i slot = blockRef sb fs i slot := by
  unfold blockRef
  rw [inodes_setBlock hwf hb data hi]
  cases slot with
  | addr k => rfl
  | entry j => simp [Dinode.refs, Store.setBlock, hindirect]

end SetBlock

section Core

variable (hc : Core sb fs spare dead)
include hc

theorem Core.range {x : Nat × RefSlot} {b : Nat} (h : Holds sb fs dead x b) :
    sb.dataStart ≤ b ∧ b < sb.size :=
  have ht := hc.owns.taken_of_holds h
  ⟨ht.1, ht.2.1⟩

theorem Core.holds_addr {i k : Nat} (hi : Used sb fs i) (hk : (inodes sb fs i).addrs k ≠ 0) :
    Holds sb fs dead (i, .addr k) ((inodes sb fs i).addrs k) := by
  refine ⟨hi, rfl, hk, fun hdead => ?_⟩
  obtain ⟨j, hj⟩ := hc.entries _ _ hdead
  cases hj

theorem Core.indirect_ne {b i : Nat} (hb : b < sb.dataStart) (hpos : b ≠ 0)
    (hi : Used sb fs i) : (inodes sb fs i).addrs nDirect ≠ b := by
  rintro rfl
  have := (hc.range (hc.holds_addr hi hpos)).1
  omega

theorem Core.setBlock {b : Nat} {data : Block} {spare' : Nat → Prop} (hb : sb.bmapstart ≤ b)
    (hindirect : ∀ i, Used sb fs i → (inodes sb fs i).addrs nDirect ≠ b)
    (hreserved : ∀ x, x < sb.dataStart → marked sb (fs.setBlock b data).disk x = true)
    (htaken : ∀ x, Taken sb (fs.setBlock b data) spare' x ↔ Taken sb fs spare x) :
    Core sb (fs.setBlock b data) spare' dead where
  wf := hc.wf
  table := hc.table.setBlock hc.wf hb
  reserved := hreserved
  owns := by
    refine hc.owns.congr (fun x y => ?_) htaken
    unfold Holds
    rw [used_setBlock hc.wf hb]
    refine and_congr_right fun hx => ?_
    rw [blockRef_setBlock hc.wf hb hx.2.1 (hindirect x.1 hx)]
  entries := hc.entries

theorem Core.setData {b : Nat} (data : Block) (hb : sb.dataStart ≤ b)
    (hindirect : ∀ i, Used sb fs i → (inodes sb fs i).addrs nDirect ≠ b) :
    Core sb (fs.setBlock b data) spare dead := by
  have hstart := sb.bmapstart_lt_dataStart
  have hsize := hc.wf.data
  refine hc.setBlock (by omega) hindirect (fun x hx => ?_) fun x => ?_
  · rw [marked_setBlock (Or.inr hb) data (by omega)]
    exact hc.reserved x hx
  · unfold Taken
    refine and_congr_right fun _ => and_congr_right fun hx => ?_
    rw [marked_setBlock (Or.inr hb) data hx]

theorem Core.mark {b : Nat} (hspare : ∀ x, ¬spare x) (hlow : sb.dataStart ≤ b)
    (hhigh : b < sb.size) (hfree : marked sb fs.disk b = false) :
    Core sb (fs.setBlock (sb.bblock b) (markBit (fs.disk (sb.bblock b)) (b % bpb)))
      (fun x => x = b) dead := by
  have hblock := sb.bblock_lt hhigh
  have hstart := sb.bmapstart_le_bblock b
  have hpos := hc.wf.bmapstart_pos
  refine hc.setBlock hstart (fun i hi => hc.indirect_ne hblock (by omega) hi) (fun x hx => ?_)
    fun x => ?_
  · rw [marked_markBit, hc.reserved x hx, Bool.or_true]
  · unfold Taken
    rw [marked_markBit]
    refine and_congr_right fun _ => and_congr_right fun _ => ?_
    have hx := hspare x
    by_cases hxb : x = b
    · subst hxb
      simp [hfree]
    · simp [hxb, hx]

end Core

structure Fresh (sb : Superblock) (fs : Store) (b : Nat) : Prop where
  pos : b ≠ 0
  low : sb.dataStart ≤ b
  high : b < sb.size
  marked : marked sb fs.disk b = true
  zero : fs.disk b = Bytes.zero bsize

/-- What `balloc` does to the books: nothing, or one fresh zeroed block that no
slot holds. -/
theorem balloc_cases (hc : Core sb fs spare dead) (hspare : ∀ x, ¬spare x) :
    balloc sb fs = (0, fs) ∧ Full sb fs.disk ∨
    ∃ b fs', balloc sb fs = (b, fs') ∧ Fresh sb fs' b ∧
      Core sb fs' (fun x => x = b) dead ∧ fs'.inode = fs.inode ∧
      (∀ i, i < sb.ninodes → inodes sb fs' i = inodes sb fs i) ∧
      (∀ i slot, Used sb fs i → blockRef sb fs' i slot = blockRef sb fs i slot) ∧
      (∀ x c, Holds sb fs dead x c → fs'.disk c = fs.disk c) ∧
      Keeps sb.Front fs fs' := by
  rcases ballocScan_cases sb fs.disk with ⟨b, hb, hfree, hscan⟩ | hscan
  · right
    have hlow : sb.dataStart ≤ b := by
      by_contra h
      have := hc.reserved b (by omega)
      simp [hfree] at this
    have hblockno : b / bpb * bpb + b % bpb = b := Nat.div_add_mod' b bpb
    have hbblock : sb.bblock (b / bpb * bpb) = sb.bblock b := by
      unfold Superblock.bblock
      rw [Nat.mul_div_cancel _ (by decide : 0 < bpb)]
    have hstart := sb.bmapstart_le_bblock b
    have hlt := sb.bblock_lt hb
    have hpos := hc.wf.bmapstart_pos
    have hdata : sb.bmapstart ≤ b := by omega
    -- nobody holds a free block, least of all as an indirect block
    have hindirect : ∀ i, Used sb fs i → (inodes sb fs i).addrs nDirect ≠ b := by
      intro i hi heq
      have htaken := hc.owns.taken_of_holds (hc.holds_addr hi (by rw [heq]; omega))
      rw [heq] at htaken
      simp [Taken, hfree] at htaken
    have hbitmap : ∀ i, Used sb fs i → (inodes sb fs i).addrs nDirect ≠ sb.bblock b :=
      fun i hi => hc.indirect_ne hlt (by omega) hi
    have hmark := hc.mark hspare hlow hb hfree
    have hinodes : ∀ i, i < sb.ninodes → inodes sb
        (fs.setBlock (sb.bblock b) (markBit (fs.disk (sb.bblock b)) (b % bpb))) i =
          inodes sb fs i := fun i hi => inodes_setBlock hc.wf hstart _ hi
    refine ⟨b, (fs.setBlock (sb.bblock b) (markBit (fs.disk (sb.bblock b)) (b % bpb))).setBlock b
      (Bytes.zero bsize), ?_, ?_, ?_, rfl, ?_, ?_, ?_, ?_⟩
    · simp [balloc, hscan, hbblock, hblockno]
    · refine ⟨by omega, hlow, hb, ?_, by simp [Store.setBlock]⟩
      rw [marked_setBlock (Or.inr hlow) _ hb, marked_markBit]
      simp
    · refine hmark.setData _ hlow fun i hi => ?_
      rw [hinodes i hi.2.1]
      exact hindirect i ((used_setBlock hc.wf hstart i).mp hi)
    · intro i hi
      rw [inodes_setBlock hc.wf hdata _ hi, hinodes i hi]
    · intro i slot hi
      rw [blockRef_setBlock hc.wf hdata hi.2.1 (by rw [hinodes i hi.2.1]; exact hindirect i hi),
        blockRef_setBlock hc.wf hstart hi.2.1 (hbitmap i hi)]
    · intro x c hx
      have htaken := hc.owns.taken_of_holds hx
      have hcb : c ≠ b := by
        rintro rfl
        simp [Taken, hfree] at htaken
      have hcblock : c ≠ sb.bblock b := by
        have := htaken.1
        omega
      simp [Store.setBlock, hcb, hcblock]
    · exact (keeps_front hstart _).trans (keeps_front hdata _)
  · left
    exact ⟨by simp [balloc, hscan], full_of_ballocScan hscan⟩

section SetD

variable {d : Dinode}

structure EntryOk (sb : Superblock) (fs : Store) (ip : Ptr) (x : Inode) : Prop where
  unique : ∀ jp, jp ≠ ip → 0 < (fs.inode jp).ref → (fs.inode jp).inum ≠ x.inum
  used : 1 ≤ x.inum ∧ x.inum < sb.ninodes ∧ (diskInode sb fs.disk x.inum).type ≠ 0
  valid : x.valid = true → x.d.Fits ∧ x.d.type ≠ 0

theorem Table.entryOk (ht : Table sb fs) (href : 0 < (fs.inode ip).ref) :
    EntryOk sb fs ip (fs.inode ip) :=
  ⟨fun jp hne hjp heq => hne (ht.unique jp ip hjp href heq), ht.used ip href, ht.valid ip href⟩

theorem Table.setInode {x : Inode} (ht : Table sb fs) (hx : 0 < x.ref → EntryOk sb fs ip x) :
    Table sb (fs.setInode ip x) := by
  have hself : (fs.setInode ip x).inode ip = x := by simp [Store.setInode]
  have hother : ∀ jp, jp ≠ ip → (fs.setInode ip x).inode jp = fs.inode jp := by
    intro jp hjp
    simp [Store.setInode, hjp]
  have hentry : ∀ jp, 0 < ((fs.setInode ip x).inode jp).ref →
      EntryOk sb fs jp ((fs.setInode ip x).inode jp) ∨ jp = ip ∧ 0 < x.ref := by
    intro jp href
    by_cases hjp : jp = ip
    · subst hjp
      rw [hself] at href
      exact Or.inr ⟨rfl, href⟩
    · rw [hother jp hjp] at href ⊢
      exact Or.inl (ht.entryOk href)
  constructor
  · intro jp kp hj hk heq
    by_cases hjp : jp = ip <;> by_cases hkp : kp = ip
    · rw [hjp, hkp]
    · subst hjp
      rw [hself] at hj heq
      rw [hother kp hkp] at hk heq
      exact absurd heq.symm ((hx hj).unique kp hkp hk)
    · subst hkp
      rw [hself] at hk heq
      rw [hother jp hjp] at hj heq
      exact absurd heq ((hx hk).unique jp hjp hj)
    · rw [hother jp hjp] at hj heq
      rw [hother kp hkp] at hk heq
      exact ht.unique jp kp hj hk heq
  · intro jp href
    rcases hentry jp href with hok | ⟨rfl, hpos⟩
    · exact hok.used
    · rw [hself]
      exact (hx hpos).used
  · intro jp href
    rcases hentry jp href with hok | ⟨rfl, hpos⟩
    · exact hok.valid
    · rw [hself]
      exact (hx hpos).valid

theorem Table.setD (ht : Table sb fs) (hd : d.Fits) (htype : d.type ≠ 0) :
    Table sb (fs.setD ip d) :=
  ht.setInode fun href => { ht.entryOk href with valid := fun _ => ⟨hd, htype⟩ }

variable (hlive : Live fs ip) (ht : Table sb fs)
include hlive ht

theorem used_setD (htype : d.type ≠ 0) (i : Nat) :
    Used sb (fs.setD ip d) i ↔ Used sb fs i := by
  have hused := hlive.used ht
  unfold Used
  rw [inodes_setD ht.unique hlive.ref hlive.valid]
  by_cases hi : i = (fs.inode ip).inum
  · subst hi
    simp only [Function.update_self]
    exact ⟨fun _ => hused, fun h => ⟨h.1, h.2.1, htype⟩⟩
  · rw [Function.update_of_ne hi]

theorem blockRef_setD_self (slot : RefSlot) :
    blockRef sb (fs.setD ip d) (fs.inode ip).inum slot = d.refs fs.disk slot := by
  unfold blockRef
  rw [inodes_setD ht.unique hlive.ref hlive.valid, Function.update_self]
  rfl

theorem blockRef_setD_of_ne {i : Nat} (hi : i ≠ (fs.inode ip).inum) (slot : RefSlot) :
    blockRef sb (fs.setD ip d) i slot = blockRef sb fs i slot := by
  unfold blockRef
  rw [inodes_setD ht.unique hlive.ref hlive.valid, Function.update_of_ne hi]
  rfl

end SetD

theorem Dinode.Fits.setAddr {d : Dinode} (hd : d.Fits) {k b : Nat} (hk : k ≤ nDirect)
    (hb : b < 2 ^ 32) : (d.setAddr k b).Fits where
  size := hd.size
  addrs i := by
    by_cases hi : i = k
    · simpa [Dinode.setAddr, hi] using hb
    · simpa [Dinode.setAddr, hi] using hd.addrs i
  rest i hi := by
    have hne : i ≠ k := by omega
    simpa [Dinode.setAddr, hne] using hd.rest i hi

theorem refs_setAddr_of_lt (d : Dinode) (disk : Disk) {k : Nat} (b : Nat) (hk : k < nDirect)
    (slot : RefSlot) :
    (d.setAddr k b).refs disk slot = if slot = .addr k then b else d.refs disk slot := by
  cases slot with
  | addr i =>
    by_cases hi : i = k
    · subst hi
      simp [Dinode.refs, Dinode.setAddr]
    · simp [Dinode.refs, Dinode.setAddr, hi]
  | entry j =>
    have hne : nDirect ≠ k := by omega
    simp [Dinode.refs, Dinode.setAddr, hne]

theorem refs_setIndirect (d : Dinode) {disk : Disk} {b : Nat} (hzero : d.addrs nDirect = 0)
    (hb : disk b = Bytes.zero bsize) (slot : RefSlot) :
    (d.setAddr nDirect b).refs disk slot =
      if slot = .addr nDirect then b else d.refs disk slot := by
  cases slot with
  | addr i =>
    by_cases hi : i = nDirect
    · subst hi
      simp [Dinode.refs, Dinode.setAddr]
    · simp [Dinode.refs, Dinode.setAddr, hi]
  | entry j => simp [Dinode.refs, Dinode.setAddr, hzero, hb, entry_zero]

theorem Core.settle {fs' : Store} {b i : Nat} {slot : RefSlot}
    (hc : Core sb fs (fun x => x = b) dead) (hb : Fresh sb fs b) (ht : Table sb fs')
    (hmarked : ∀ x, x < sb.size → marked sb fs'.disk x = marked sb fs.disk x)
    (hused : ∀ j, Used sb fs' j ↔ Used sb fs j) (hi : Used sb fs i) (hdead : ¬dead i slot)
    (hempty : blockRef sb fs i slot = 0)
    (hrefs : ∀ j other, Used sb fs j → blockRef sb fs' j other =
      if j = i ∧ other = slot then b else blockRef sb fs j other) :
    Core sb fs' (fun _ => False) dead where
  wf := hc.wf
  table := ht
  reserved x hx := by
    have := hc.wf.data
    rw [hmarked x (by omega)]
    exact hc.reserved x hx
  owns := by
    apply hc.owns.acquire (i := (i, slot)) (r := b)
    · exact fun h => h.2.2.2 rfl
    · rintro ⟨j, other⟩ x
      unfold Holds
      dsimp only
      rw [hused]
      constructor
      · rintro ⟨hj, hx, hpos, hnot⟩
        rw [hrefs j other hj] at hx
        split at hx
        · rename_i hsame
          exact Or.inr ⟨by rw [hsame.1, hsame.2], hx.symm⟩
        · exact Or.inl ⟨hj, hx, hpos, hnot⟩
      · rintro (⟨hj, hx, hpos, hnot⟩ | ⟨heq, rfl⟩)
        · refine ⟨hj, ?_, hpos, hnot⟩
          rw [hrefs j other hj, if_neg, hx]
          rintro ⟨rfl, rfl⟩
          exact hpos (hx.symm.trans hempty)
        · cases heq
          exact ⟨hi, by rw [hrefs i slot hi, if_pos ⟨rfl, rfl⟩], hb.pos, hdead⟩
    · intro x
      unfold Taken
      constructor
      · rintro ⟨hlow, hhigh, hmark, -⟩
        by_cases hx : x = b
        · exact Or.inr hx
        · exact Or.inl ⟨hlow, hhigh, by rwa [← hmarked x hhigh], hx⟩
      · rintro (⟨hlow, hhigh, hmark, -⟩ | rfl)
        · exact ⟨hlow, hhigh, by rwa [hmarked x hhigh], id⟩
        · exact ⟨hb.low, hb.high, by rw [hmarked x hb.high]; exact hb.marked, id⟩
  entries := hc.entries

theorem Core.congr {fs' : Store} {dead' : Nat → RefSlot → Prop} (hc : Core sb fs spare dead)
    (ht : Table sb fs')
    (hmarked : ∀ x, x < sb.size → marked sb fs'.disk x = marked sb fs.disk x)
    (hholds : ∀ x b, Holds sb fs' dead' x b ↔ Holds sb fs dead x b)
    (hentries : ∀ i slot, dead' i slot → ∃ j, slot = .entry j) : Core sb fs' spare dead' where
  wf := hc.wf
  table := ht
  reserved x hx := by
    have := hc.wf.data
    rw [hmarked x (by omega)]
    exact hc.reserved x hx
  owns := by
    refine hc.owns.congr hholds fun x => ?_
    unfold Taken
    refine and_congr_right fun _ => and_congr_right fun hx => ?_
    rw [hmarked x hx]
  entries := hentries

theorem holds_congr {fs' : Store} (hused : ∀ i, Used sb fs' i ↔ Used sb fs i)
    (hrefs : ∀ i slot, Used sb fs i → blockRef sb fs' i slot = blockRef sb fs i slot)
    (x : Nat × RefSlot) (b : Nat) : Holds sb fs' dead x b ↔ Holds sb fs dead x b := by
  unfold Holds
  rw [hused]
  refine and_congr_right fun hx => ?_
  rw [hrefs _ _ hx]

section WriteInode

variable {fs' : Store} {inum : Nat} {d : Dinode} (hc : Core sb fs spare dead)
  (hinum : inum < sb.ninodes) (hdisk : fs'.disk = (writeInode sb fs inum d).disk)
include hc hinum hdisk

theorem Core.marked_writeInode {x : Nat} (hx : x < sb.size) :
    marked sb fs'.disk x = marked sb fs.disk x := by
  rw [hdisk]
  exact marked_setBlock (Or.inl (hc.wf.iblock_lt hinum)) _ hx

theorem Core.blockRef_writeInode {i : Nat} (hi : Used sb fs i)
    (hinode : inodes sb fs' i = inodes sb fs i) (slot : RefSlot) :
    blockRef sb fs' i slot = blockRef sb fs i slot := by
  have hblock := hc.wf.iblock_lt hinum
  have hstart := sb.bmapstart_lt_dataStart
  have hne := hc.indirect_ne (by omega) (hc.wf.iblock_pos inum) hi
  unfold blockRef
  rw [hinode, hdisk]
  cases slot with
  | addr k => rfl
  | entry j => simp [Dinode.refs, writeInode, Store.setBlock, hne]

end WriteInode

theorem keeps_writeInode (sb : Superblock) (fs : Store) (inum : Nat) (d : Dinode) :
    Keeps sb.Head fs (writeInode sb fs inum d) :=
  keeps_head (sb.inodestart_le_iblock inum) _

theorem keeps_iupdate (sb : Superblock) (fs : Store) (ip : Ptr) :
    Keeps sb.Head fs (iupdate sb fs ip) :=
  keeps_writeInode sb fs _ _

section Update

variable {d : Dinode} (hc : Core sb fs spare dead) (hlive : Live fs ip)
include hc hlive

theorem Core.setMeta (hfits : d.Fits) (htype : d.type ≠ 0)
    (haddrs : d.addrs = (fs.inode ip).d.addrs) :
    Core sb (fs.setD ip d) spare dead ∧ (∀ i, Used sb (fs.setD ip d) i ↔ Used sb fs i) ∧
      ∀ i slot, blockRef sb (fs.setD ip d) i slot = blockRef sb fs i slot := by
  have hused := used_setD (d := d) hlive hc.table htype
  have hrefs : ∀ i slot, blockRef sb (fs.setD ip d) i slot = blockRef sb fs i slot := by
    intro i slot
    by_cases hi : i = (fs.inode ip).inum
    · subst hi
      rw [blockRef_setD_self hlive hc.table, blockRef, hlive.inodes hc.table]
      cases slot <;> simp only [Dinode.refs, haddrs]
    · exact blockRef_setD_of_ne hlive hc.table hi slot
  exact ⟨hc.congr (hc.table.setD hfits htype) (fun _ _ => rfl)
    (holds_congr hused fun i slot _ => hrefs i slot) hc.entries, hused, hrefs⟩

theorem iupdate_spec :
    Core sb (iupdate sb fs ip) spare dead ∧ inodes sb (iupdate sb fs ip) = inodes sb fs ∧
      ∀ i slot, Used sb fs i → blockRef sb (iupdate sb fs ip) i slot = blockRef sb fs i slot := by
  obtain ⟨hfits, htype⟩ := hc.table.valid ip hlive.ref hlive.valid
  have hinodes : inodes sb (iupdate sb fs ip) = inodes sb fs :=
    inodes_iupdate hc.table.unique hlive.ref hlive.valid hfits
  have hinum := (hc.table.used ip hlive.ref).2.1
  have hused : ∀ i, Used sb (iupdate sb fs ip) i ↔ Used sb fs i := by
    intro i
    unfold Used
    rw [hinodes]
  have hrefs : ∀ i slot, Used sb fs i →
      blockRef sb (iupdate sb fs ip) i slot = blockRef sb fs i slot := fun i slot hi =>
    hc.blockRef_writeInode hinum rfl hi (congrFun hinodes i) slot
  refine ⟨hc.congr ⟨hc.table.unique, fun jp hjp => ?_, hc.table.valid⟩
    (fun x hx => hc.marked_writeInode hinum rfl hx) (holds_congr hused hrefs) hc.entries,
    hinodes, hrefs⟩
  obtain ⟨hlow, hhigh, hold⟩ := hc.table.used jp hjp
  refine ⟨hlow, hhigh, ?_⟩
  show (diskInode sb (writeInode sb fs (fs.inode ip).inum (fs.inode ip).d).disk
    (fs.inode jp).inum).type ≠ 0
  rw [diskInode_writeInode hfits]
  by_cases hsame : (fs.inode jp).inum = (fs.inode ip).inum
  · rwa [hsame, Function.update_self]
  · rwa [Function.update_of_ne hsame]

end Update

end Xv6.Fs
