import Xv6.Fs.Inode
import Xv6.Lib.Overlay

/-! The inodes as the file system sees them, in-memory copies before those on
disk, and the bit map. Each primitive update is followed through both. -/
namespace Xv6.Fs

open Lib

def Inode.live (x : Inode) : Option (Nat × Dinode) :=
  if 0 < x.ref ∧ x.valid = true then some (x.inum, x.d) else none

variable {sb : Superblock} {fs : Store} {ip : Ptr}

def inodes (sb : Superblock) (fs : Store) : Nat → Dinode :=
  Overlay.view (fun ip => (fs.inode ip).live) (diskInode sb fs.disk)

def UniqueEntries (fs : Store) : Prop :=
  ∀ ip jp, 0 < (fs.inode ip).ref → 0 < (fs.inode jp).ref →
    (fs.inode ip).inum = (fs.inode jp).inum → ip = jp

theorem live_eq_some {x : Inode} {e : Nat × Dinode} :
    x.live = some e ↔ 0 < x.ref ∧ x.valid = true ∧ (x.inum, x.d) = e := by
  unfold Inode.live
  split
  · rename_i h
    simp [h]
  · rename_i h
    simp only [reduceCtorEq, false_iff]
    tauto

theorem live_setInode (fs : Store) (ip : Ptr) (x : Inode) :
    (fun jp => ((fs.setInode ip x).inode jp).live) =
      Function.update (fun jp => (fs.inode jp).live) ip x.live := by
  funext jp
  by_cases hjp : jp = ip
  · subst hjp
    simp [Store.setInode]
  · simp [Store.setInode, hjp]

theorem UniqueEntries.live (h : UniqueEntries fs) :
    Overlay.Unique fun ip => (fs.inode ip).live := by
  intro ip jp e f hi hj hkey
  obtain ⟨hrefi, -, rfl⟩ := live_eq_some.mp hi
  obtain ⟨hrefj, -, rfl⟩ := live_eq_some.mp hj
  exact h ip jp hrefi hrefj hkey

theorem inodes_of_live (h : UniqueEntries fs) (href : 0 < (fs.inode ip).ref)
    (hvalid : (fs.inode ip).valid = true) :
    inodes sb fs (fs.inode ip).inum = (fs.inode ip).d :=
  Overlay.view_of_live h.live (live_eq_some.mpr ⟨href, hvalid, rfl⟩)

theorem inodes_setD (h : UniqueEntries fs) (href : 0 < (fs.inode ip).ref)
    (hvalid : (fs.inode ip).valid = true) (d : Dinode) :
    inodes sb (fs.setD ip d) = Function.update (inodes sb fs) (fs.inode ip).inum d := by
  have hlive : (fs.inode ip).live = some ((fs.inode ip).inum, (fs.inode ip).d) :=
    live_eq_some.mpr ⟨href, hvalid, rfl⟩
  unfold inodes Store.setD
  rw [live_setInode, ← Overlay.view_set h.live hlive d]
  simp [Inode.live, href, hvalid, Store.setInode]

theorem diskInode_setBlock (hwf : sb.WF) {b : Nat} (hb : sb.bmapstart ≤ b) (data : Block) {i : Nat}
    (hi : i < sb.ninodes) :
    diskInode sb (fs.setBlock b data).disk i = diskInode sb fs.disk i := by
  have hne : sb.iblock i ≠ b := by
    have := hwf.iblock_lt hi
    omega
  simp [diskInode, Store.setBlock, hne]

theorem inodes_setBlock (hwf : sb.WF) {b : Nat} (hb : sb.bmapstart ≤ b) (data : Block) {i : Nat}
    (hi : i < sb.ninodes) : inodes sb (fs.setBlock b data) i = inodes sb fs i :=
  Overlay.view_congr_store (diskInode_setBlock hwf hb data hi)

theorem diskInode_writeInode {inum : Nat} {d : Dinode} (hd : d.Fits) :
    diskInode sb (writeInode sb fs inum d).disk =
      Function.update (diskInode sb fs.disk) inum d := by
  have hslot : inum % ipb < ipb := Nat.mod_lt _ (by decide)
  funext i
  by_cases hi : i = inum
  · subst hi
    simp [diskInode, writeInode, Store.setBlock, readDinode_writeDinode_self _ hd hslot]
  · rw [Function.update_of_ne hi]
    by_cases hblock : sb.iblock i = sb.iblock inum
    · have hother : i % ipb ≠ inum % ipb := by
        unfold Superblock.iblock ipb at *
        omega
      simp [diskInode, writeInode, Store.setBlock, hblock,
        readDinode_writeDinode_of_ne _ _ hother]
    · simp [diskInode, writeInode, Store.setBlock, hblock]

theorem diskInode_iupdate (hd : (fs.inode ip).d.Fits) :
    diskInode sb (iupdate sb fs ip).disk =
      Function.update (diskInode sb fs.disk) (fs.inode ip).inum (fs.inode ip).d :=
  diskInode_writeInode hd

theorem inodes_iupdate (h : UniqueEntries fs) (href : 0 < (fs.inode ip).ref)
    (hvalid : (fs.inode ip).valid = true) (hd : (fs.inode ip).d.Fits) :
    inodes sb (iupdate sb fs ip) = inodes sb fs := by
  unfold inodes
  rw [diskInode_iupdate hd]
  exact Overlay.view_store_of_live h.live (live_eq_some.mpr ⟨href, hvalid, rfl⟩) _

section Keeps

def Keeps (P : Nat → Prop) (fs fs' : Store) : Prop := ∀ b, P b → fs'.disk b = fs.disk b

variable {P Q : Nat → Prop} {fs' fs'' : Store}

theorem Keeps.refl (P : Nat → Prop) (fs : Store) : Keeps P fs fs := fun _ _ => rfl

theorem Keeps.trans (h : Keeps P fs fs') (h' : Keeps P fs' fs'') : Keeps P fs fs'' :=
  fun b hb => (h' b hb).trans (h b hb)

theorem Keeps.mono (h : Keeps P fs fs') (himp : ∀ b, Q b → P b) : Keeps Q fs fs' :=
  fun b hb => h b (himp b hb)

theorem keeps_setBlock {b : Nat} (hb : ¬P b) (data : Block) : Keeps P fs (fs.setBlock b data) := by
  intro x hx
  have hne : x ≠ b := by
    rintro rfl
    exact hb hx
  exact Function.update_of_ne hne _ _

theorem keeps_head {b : Nat} (hb : sb.inodestart ≤ b) (data : Block) :
    Keeps sb.Head fs (fs.setBlock b data) :=
  keeps_setBlock (P := sb.Head) (Nat.not_lt.mpr hb) data

theorem keeps_front {b : Nat} (hb : sb.bmapstart ≤ b) (data : Block) :
    Keeps sb.Front fs (fs.setBlock b data) :=
  keeps_setBlock (P := sb.Front) (Nat.not_lt.mpr hb) data

theorem Keeps.head (h : Keeps sb.Front fs fs') (hwf : sb.WF) : Keeps sb.Head fs fs' := by
  refine h.mono fun b hb => ?_
  exact Nat.lt_trans hb hwf.inodestart_lt

theorem Keeps.diskInode (h : Keeps sb.Front fs fs') (hwf : sb.WF) {i : Nat} (hi : i < sb.ninodes) :
    diskInode sb fs'.disk i = diskInode sb fs.disk i := by
  unfold Fs.diskInode
  rw [h _ (hwf.iblock_lt hi)]

end Keeps

section Bitmap

def marked (sb : Superblock) (disk : Disk) (b : Nat) : Bool :=
  bitSet (disk (sb.bblock b)) (b % bpb)

theorem marked_setBlock {b : Nat} (hb : b < sb.bmapstart ∨ sb.dataStart ≤ b)
    (data : Block) {x : Nat} (hx : x < sb.size) :
    marked sb (fs.setBlock b data).disk x = marked sb fs.disk x := by
  have hne : sb.bblock x ≠ b := by
    have hlt := sb.bblock_lt hx
    have hle := sb.bmapstart_le_bblock x
    omega
  simp [marked, Store.setBlock, hne]

theorem eq_of_bblock_eq {b x : Nat} (hblock : sb.bblock x = sb.bblock b)
    (hbit : x % bpb = b % bpb) : x = b := by
  have hdiv : x / bpb = b / bpb := Nat.add_right_cancel hblock
  rw [← Nat.div_add_mod x bpb, ← Nat.div_add_mod b bpb, hdiv, hbit]

theorem marked_markBit (b x : Nat) :
    marked sb (fs.setBlock (sb.bblock b) (markBit (fs.disk (sb.bblock b)) (b % bpb))).disk x =
      (decide (x = b) || marked sb fs.disk x) := by
  by_cases hblock : sb.bblock x = sb.bblock b
  · have heq : (x % bpb = b % bpb) ↔ x = b := ⟨eq_of_bblock_eq hblock, fun h => by rw [h]⟩
    simp only [marked, Store.setBlock, hblock, Function.update_self,
      bitSet_markBit _ (Nat.mod_lt b (by decide : 0 < bpb)), heq]
  · have hne : x ≠ b := fun h => hblock (by rw [h])
    simp [marked, Store.setBlock, hblock, hne]

theorem marked_clearBit (b x : Nat) :
    marked sb (fs.setBlock (sb.bblock b) (clearBit (fs.disk (sb.bblock b)) (b % bpb))).disk x =
      (decide (x ≠ b) && marked sb fs.disk x) := by
  by_cases hblock : sb.bblock x = sb.bblock b
  · have heq : (x % bpb ≠ b % bpb) ↔ x ≠ b :=
      not_congr ⟨eq_of_bblock_eq hblock, fun h => by rw [h]⟩
    simp only [marked, Store.setBlock, hblock, Function.update_self,
      bitSet_clearBit _ (Nat.mod_lt b (by decide : 0 < bpb)), heq]
  · have hne : x ≠ b := fun h => hblock (by rw [h])
    simp [marked, Store.setBlock, hblock, hne]

theorem ballocScan_cases (sb : Superblock) (disk : Disk) :
    (∃ b, b < sb.size ∧ marked sb disk b = false ∧ ballocScan sb disk = some (b / bpb, b % bpb)) ∨
      ballocScan sb disk = none := by
  cases hscan : ballocScan sb disk with
  | none => exact Or.inr rfl
  | some found =>
    obtain ⟨k, bi⟩ := found
    obtain ⟨k', -, hk⟩ := List.exists_of_findSome?_eq_some hscan
    obtain ⟨bi', hclear, heq⟩ := Option.map_eq_some_iff.mp hk
    cases heq
    have hrange := List.mem_range.mp (List.mem_of_find?_eq_some hclear)
    have hbit := List.find?_some hclear
    have hbi : bi < bpb := by omega
    have hpos : 0 < bpb := by decide
    have hdiv : (k * bpb + bi) / bpb = k := by
      rw [Nat.add_comm, Nat.add_mul_div_right _ _ hpos, Nat.div_eq_of_lt hbi, Nat.zero_add]
    have hmod : (k * bpb + bi) % bpb = bi := by
      rw [Nat.add_comm, Nat.add_mul_mod_self_right, Nat.mod_eq_of_lt hbi]
    refine Or.inl ⟨k * bpb + bi, by omega, ?_, by rw [hdiv, hmod]⟩
    have hblock : sb.bblock (k * bpb) = sb.bblock (k * bpb + bi) := by
      unfold Superblock.bblock
      rw [hdiv, Nat.mul_div_cancel _ hpos]
    simpa [marked, hmod, hblock] using hbit

def Full (sb : Superblock) (disk : Disk) : Prop := ∀ b, b < sb.size → marked sb disk b = true

theorem full_of_ballocScan {disk : Disk} (h : ballocScan sb disk = none) : Full sb disk := by
  intro b hb
  have hpos : 0 < bpb := by decide
  have hdiv : b / bpb < (sb.size + bpb - 1) / bpb := by
    rw [Nat.div_lt_iff_lt_mul hpos]
    have hceil : sb.size ≤ (sb.size + bpb - 1) / bpb * bpb := by
      have := Nat.div_add_mod' (sb.size + bpb - 1) bpb
      have := Nat.mod_lt (sb.size + bpb - 1) hpos
      omega
    omega
  have hscan := List.findSome?_eq_none_iff.mp h (b / bpb) (List.mem_range.mpr hdiv)
  have hclear := List.find?_eq_none.mp (Option.map_eq_none_iff.mp hscan) (b % bpb) (by
    have := Nat.div_add_mod' b bpb
    have := Nat.mod_lt b hpos
    rw [List.mem_range]
    omega)
  have hblock : sb.bblock (b / bpb * bpb) = sb.bblock b := by
    unfold Superblock.bblock
    rw [Nat.mul_div_cancel _ hpos]
  simpa [hblock, marked] using hclear

end Bitmap

end Xv6.Fs
