import Xv6.Fs.Node

/-! Disks whose files have direct blocks only: a check of finitely many numbers that
makes them well-formed. -/
namespace Xv6.Fs

open Lib

variable {sb : Superblock} {fs : Store}

/-- Files without indirect blocks, in entries of the table that say what the disk says.
`owner` gives the inode and the index of every block in use. -/
structure Direct (sb : Superblock) (fs : Store) (owner : Nat → Nat × Nat) : Prop where
  superblock : sb.WF
  unique : UniqueEntries fs
  nonneg : ∀ ip, 0 ≤ (fs.inode ip).ref
  table : ∀ ip, 0 < (fs.inode ip).ref → 1 ≤ (fs.inode ip).inum ∧ (fs.inode ip).inum < sb.ninodes ∧
    (diskInode sb fs.disk (fs.inode ip).inum).type ≠ 0
  valid : ∀ ip, 0 < (fs.inode ip).ref → (fs.inode ip).valid = true →
    (fs.inode ip).d = diskInode sb fs.disk (fs.inode ip).inum
  reserved : ∀ b, b < sb.dataStart → marked sb fs.disk b = true
  indirect : ∀ i, i < sb.ninodes → (diskInode sb fs.disk i).addrs nDirect = 0
  size : ∀ i, i < sb.ninodes → (diskInode sb fs.disk i).size ≤ nDirect * bsize
  mapped : ∀ i, i < sb.ninodes → ∀ k, k < nDirect → k * bsize < (diskInode sb fs.disk i).size →
    (diskInode sb fs.disk i).addrs k ≠ 0
  addrs : ∀ i, i < sb.ninodes → ∀ k, k < nDirect → (diskInode sb fs.disk i).addrs k ≠ 0 →
    sb.dataStart ≤ (diskInode sb fs.disk i).addrs k ∧ (diskInode sb fs.disk i).addrs k < sb.size ∧
      marked sb fs.disk ((diskInode sb fs.disk i).addrs k) = true ∧
      owner ((diskInode sb fs.disk i).addrs k) = (i, k)
  owned : ∀ b, b < sb.size → sb.dataStart ≤ b → marked sb fs.disk b = true →
    1 ≤ (owner b).1 ∧ (owner b).1 < sb.ninodes ∧ (diskInode sb fs.disk (owner b).1).type ≠ 0 ∧
      (diskInode sb fs.disk (owner b).1).addrs (owner b).2 = b

variable {owner : Nat → Nat × Nat} (h : Direct sb fs owner)
include h

theorem Direct.inodes {i : Nat} : inodes sb fs i = diskInode sb fs.disk i := by
  rcases Overlay.sees_view (fun ip => (fs.inode ip).live) (diskInode sb fs.disk) i with
    ⟨ip, hip⟩ | ⟨-, hview⟩
  · obtain ⟨href, hvalid, hentry⟩ := live_eq_some.mp hip
    obtain ⟨rfl, hd⟩ := Prod.mk.inj hentry
    exact hd.symm.trans (h.valid ip href hvalid)
  · exact hview.symm

theorem Direct.slot {i : Nat} {slot : RefSlot} (hi : i < sb.ninodes)
    (hb : blockRef sb fs i slot ≠ 0) :
    ∃ k, k < nDirect ∧ slot = .addr k ∧
      blockRef sb fs i slot = (diskInode sb fs.disk i).addrs k := by
  unfold blockRef at *
  rw [h.inodes] at *
  cases slot with
  | addr k =>
    refine ⟨k, ?_, rfl, rfl⟩
    by_contra hk
    have hzero : (diskInode sb fs.disk i).addrs k = 0 := by
      by_cases hlast : k = nDirect
      · rw [hlast]
        exact h.indirect i hi
      · exact (fits_readDinode _ _).rest k (by omega)
    exact hb hzero
  | entry j => simp [Dinode.refs, h.indirect i hi] at hb

theorem Direct.quiet : Quiet sb fs := by
  have hwf : WellFormed sb fs := by
    refine ⟨h.superblock, ⟨h.unique, h.table, fun ip href hvalid => ?_⟩, h.reserved,
      fun i j slot other hi hj hpos heq => ?_, fun i slot hi hpos => ?_, fun b hlow hhigh hb => ?_,
      fun i hi => ⟨?_, fun bn hbn => ?_⟩⟩
    · rw [h.valid ip href hvalid]
      exact ⟨fits_readDinode _ _, (h.table ip href).2.2⟩
    · obtain ⟨k, hk, rfl, hblock⟩ := h.slot hi.2.1 hpos
      obtain ⟨m, hm, rfl, hother⟩ := h.slot hj.2.1 (by rwa [← heq])
      rw [hblock] at hpos
      have hown := (h.addrs i hi.2.1 k hk hpos).2.2.2
      rw [← hblock, heq, hother] at hown hpos
      have hown' := (h.addrs j hj.2.1 m hm hpos).2.2.2
      obtain ⟨rfl, rfl⟩ := Prod.mk.inj (hown.symm.trans hown')
      exact ⟨rfl, rfl⟩
    · obtain ⟨k, hk, rfl, hblock⟩ := h.slot hi.2.1 hpos
      rw [hblock] at hpos ⊢
      obtain ⟨hlow, hhigh, hmarked, -⟩ := h.addrs i hi.2.1 k hk hpos
      exact ⟨hlow, hhigh, hmarked⟩
    · obtain ⟨hone, hlt, htype, haddr⟩ := h.owned b hhigh hlow hb
      refine ⟨(owner b).1, .addr (owner b).2, ⟨hone, hlt, by rwa [h.inodes]⟩, ?_⟩
      rw [blockRef, h.inodes]
      exact haddr
    · rw [h.inodes]
      exact Nat.le_trans (h.size i hi.2.1) (by decide)
    · rw [h.inodes] at hbn
      have hlt : bn < nDirect := by
        have := h.size i hi.2.1
        have : bn * bsize < nDirect * bsize := by omega
        exact Nat.lt_of_mul_lt_mul_right this
      rw [blockRef, h.inodes, fileSlot, if_pos hlt]
      exact h.mapped i hi.2.1 bn hlt hbn
  exact ⟨hwf.settled, hwf.mapped, fun i _ => h.inodes, h.nonneg⟩

omit h

def withInodes (sb : Superblock) (disk : Disk) (files : List (Nat × Dinode)) : Disk :=
  files.foldl (fun disk f => Function.update disk (sb.iblock f.1)
    (writeDinode (disk (sb.iblock f.1)) (f.1 % ipb) f.2)) disk

theorem diskInode_withInodes (files : List (Nat × Dinode)) : ∀ disk : Disk,
    (∀ f ∈ files, f.2.Fits) → diskInode sb (withInodes sb disk files) =
      files.foldl (fun g f => Function.update g f.1 f.2) (diskInode sb disk) := by
  induction files with
  | nil =>
    intro disk _
    rfl
  | cons f files ih =>
    intro disk hfits
    have hwrite := @diskInode_writeInode sb ⟨disk, fun _ => ⟨0, 0, false, .fresh 0⟩⟩ f.1 f.2
      (hfits f List.mem_cons_self)
    refine (ih _ fun g hg => hfits g (List.mem_cons_of_mem _ hg)).trans ?_
    rw [List.foldl_cons, ← hwrite]
    rfl

theorem withInodes_of_ge (hwf : sb.WF) {b : Nat} (hb : sb.bmapstart ≤ b)
    (files : List (Nat × Dinode)) : ∀ disk : Disk, (∀ f ∈ files, f.1 < sb.ninodes) →
    withInodes sb disk files b = disk b := by
  induction files with
  | nil =>
    intro disk _
    rfl
  | cons f files ih =>
    intro disk hlt
    have hblock := hwf.iblock_lt (hlt f List.mem_cons_self)
    refine (ih _ fun g hg => hlt g (List.mem_cons_of_mem _ hg)).trans ?_
    exact Function.update_of_ne (by omega) _ _

theorem foldl_update_congr (files : List (Nat × Dinode)) {i : Nat} : ∀ {g g' : Nat → Dinode},
    g i = g' i → files.foldl (fun g f => Function.update g f.1 f.2) g i =
      files.foldl (fun g f => Function.update g f.1 f.2) g' i := by
  induction files with
  | nil =>
    intro g g' hgg
    exact hgg
  | cons f files ih =>
    intro g g' hgg
    refine ih ?_
    dsimp only
    by_cases hi : i = f.1
    · rw [hi, Function.update_self, Function.update_self]
    · rw [Function.update_of_ne hi, Function.update_of_ne hi, hgg]

theorem readDinode_zero (slot : Nat) : readDinode (Bytes.zero bsize) slot = .fresh 0 := by
  simp [readDinode, getShort, Dinode.fresh]

section Sample

def imageSuperblock : Superblock := ⟨12, 64, 0, 2, 2, 7⟩

def blockOf (bytes : List UInt8) : Block := fun i => bytes.getD i 0

def imageDisk (files : List (Nat × Dinode)) (bytes : List UInt8) : Disk :=
  withInodes imageSuperblock (fun b =>
    if b = 7 then blockOf [0xff, 0x01] else if b = 8 then blockOf bytes else Bytes.zero bsize) files

def rootDinode (size : Nat) : Dinode := ⟨1, 0, 0, 1, size, Function.update (fun _ => 0) 0 8⟩

theorem fits_rootDinode {size : Nat} (h : size ≤ bsize) : (rootDinode size).Fits := by
  refine ⟨Nat.lt_of_le_of_lt h (by decide), fun i => ?_, fun i hi => ?_⟩
  · by_cases hi : i = 0
    · rw [hi]
      simp [rootDinode]
    · simp [rootDinode, hi]
  · have hne : i ≠ 0 := by omega
    simp [rootDinode, hne]

def imageInode (files : List (Nat × Dinode)) : Nat → Dinode :=
  files.foldl (fun g f => Function.update g f.1 f.2) fun _ => .fresh 0

theorem diskInode_imageDisk {files : List (Nat × Dinode)} (hfits : ∀ f ∈ files, f.2.Fits)
    (bytes : List UInt8) {i : Nat} (hi : i < 64) :
    diskInode imageSuperblock (imageDisk files bytes) i = imageInode files i := by
  rw [imageDisk, diskInode_withInodes files _ hfits]
  refine foldl_update_congr files ?_
  have hlow : imageSuperblock.iblock i ≠ 7 ∧ imageSuperblock.iblock i ≠ 8 := by
    have : imageSuperblock.iblock i = i / 16 + 2 := rfl
    omega
  unfold diskInode
  dsimp only
  rw [if_neg hlow.1, if_neg hlow.2]
  exact readDinode_zero _

theorem marked_imageDisk {files : List (Nat × Dinode)} (hlt : ∀ f ∈ files, f.1 < 64)
    (bytes : List UInt8) {b : Nat} (hb : b < 12) :
    marked imageSuperblock (imageDisk files bytes) b = decide (b < 9) := by
  have hbits : ∀ b < 12, bitSet (blockOf [0xff, 0x01]) (b % bpb) = decide (b < 9) := by
    decide +kernel
  have hblock : imageSuperblock.bblock b = 7 := by
    have : imageSuperblock.bblock b = b / 8192 + 7 := rfl
    omega
  unfold marked
  rw [hblock, imageDisk, withInodes_of_ge ⟨by decide, by decide, by decide, by decide, by decide⟩
    (Nat.le_refl 7) files _ hlt, if_pos rfl]
  exact hbits b hb

structure IsImage (files : List (Nat × Dinode)) (size : Nat) : Prop where
  lt : ∀ f ∈ files, f.1 < 64
  small : size ≤ bsize
  root : imageInode files 1 = rootDinode size
  rest : ∀ f ∈ files, f.1 ≠ 1 → f.2.size = 0 ∧ f.2.addrs = fun _ => 0

theorem foldl_update_empty {i : Nat} (hi : i ≠ 1) (files : List (Nat × Dinode)) :
    ∀ {g : Nat → Dinode}, (∀ f ∈ files, f.1 ≠ 1 → f.2.size = 0 ∧ f.2.addrs = fun _ => 0) →
    ((g i).size = 0 ∧ (g i).addrs = fun _ => 0) →
    (files.foldl (fun g f => Function.update g f.1 f.2) g i).size = 0 ∧
      (files.foldl (fun g f => Function.update g f.1 f.2) g i).addrs = fun _ => 0 := by
  induction files with
  | nil =>
    intro g _ hg
    exact hg
  | cons f files ih =>
    intro g hfiles hg
    refine ih (fun f' hf' => hfiles f' (List.mem_cons_of_mem _ hf')) ?_
    dsimp only
    by_cases hif : i = f.1
    · rw [hif, Function.update_self]
      exact hfiles f List.mem_cons_self (hif ▸ hi)
    · rwa [Function.update_of_ne hif]

theorem imageInode_cases {files : List (Nat × Dinode)} {size : Nat}
    (h : IsImage files size) (i : Nat) :
    i = 1 ∧ imageInode files i = rootDinode size ∨
      i ≠ 1 ∧ (imageInode files i).size = 0 ∧ (imageInode files i).addrs = fun _ => 0 := by
  by_cases hi : i = 1
  · exact Or.inl ⟨hi, by rw [hi]; exact h.root⟩
  · exact Or.inr ⟨hi, foldl_update_empty hi files h.rest ⟨rfl, rfl⟩⟩

theorem IsImage.quiet {files : List (Nat × Dinode)} {bytes : List UInt8} {size : Nat}
    {table : Ptr → Inode} (h : IsImage files size) (hfits : ∀ f ∈ files, f.2.Fits)
    (hunique : UniqueEntries ⟨imageDisk files bytes, table⟩) (hnonneg : ∀ ip, 0 ≤ (table ip).ref)
    (htable : ∀ ip, 0 < (table ip).ref → 1 ≤ (table ip).inum ∧ (table ip).inum < 64 ∧
      (imageInode files (table ip).inum).type ≠ 0)
    (hvalid : ∀ ip, 0 < (table ip).ref → (table ip).valid = true →
      (table ip).d = imageInode files (table ip).inum) :
    Quiet imageSuperblock ⟨imageDisk files bytes, table⟩ := by
  have hinode : ∀ i, i < 64 → diskInode imageSuperblock (imageDisk files bytes) i =
      imageInode files i := fun i hi => diskInode_imageDisk hfits bytes hi
  have hmarked : ∀ b, b < 12 → marked imageSuperblock (imageDisk files bytes) b = decide (b < 9) :=
    fun b hb => marked_imageDisk h.lt bytes hb
  have hsize := h.small
  have haddr : ∀ k, k ≠ 0 → (rootDinode size).addrs k = 0 := by
    intro k hk
    simp [rootDinode, hk]
  refine @Direct.quiet _ _ (fun _ => (1, 0))
    ⟨⟨by decide, by decide, by decide, by decide, by decide⟩, hunique, hnonneg, fun ip hip => ?_,
      fun ip hip hv => ?_, fun b hb => ?_, fun i hi => ?_,
    fun i hi => ?_, fun i hi k hk hlt => ?_, fun i hi k hk hne => ?_, fun b hb hlow hm => ?_⟩
  · obtain ⟨hone, hlt, htype⟩ := htable ip hip
    exact ⟨hone, hlt, by rwa [hinode _ hlt]⟩
  · rw [hinode _ (htable ip hip).2.1]
    exact hvalid ip hip hv
  · have hb : b < 8 := hb
    rw [hmarked b (by omega)]
    simp
    omega
  · rw [hinode i hi]
    rcases imageInode_cases h i with ⟨-, hroot⟩ | ⟨-, -, hempty⟩
    · rw [hroot]
      exact haddr _ (by decide)
    · rw [hempty]
  · rw [hinode i hi]
    rcases imageInode_cases h i with ⟨-, hroot⟩ | ⟨-, hzero, -⟩
    · rw [hroot]
      exact Nat.le_trans hsize (by decide)
    · rw [hzero]
      exact Nat.zero_le _
  · rw [hinode i hi] at hlt ⊢
    rcases imageInode_cases h i with ⟨-, hroot⟩ | ⟨-, hzero, -⟩
    · rw [hroot] at hlt ⊢
      have hk0 : k = 0 := by
        have : k * bsize < bsize := Nat.lt_of_lt_of_le hlt hsize
        unfold bsize at this
        omega
      rw [hk0]
      simp [rootDinode]
    · rw [hzero] at hlt
      omega
  · rw [hinode i hi] at hne ⊢
    rcases imageInode_cases h i with ⟨hi1, hroot⟩ | ⟨-, -, hempty⟩
    · rw [hroot] at hne ⊢
      have hk0 : k = 0 := by
        by_contra hk0
        exact hne (haddr k hk0)
      rw [hk0, hi1]
      have height : (rootDinode size).addrs 0 = 8 := by simp [rootDinode]
      rw [height]
      exact ⟨Nat.le_refl 8, by decide, by rw [hmarked 8 (by decide)]; rfl, rfl⟩
    · rw [hempty] at hne
      exact absurd rfl hne
  · rw [hmarked b hb] at hm
    have hb8 : b = 8 := by
      have hlow : 8 ≤ b := hlow
      have := of_decide_eq_true hm
      omega
    rw [hinode 1 (by decide), h.root, hb8]
    exact ⟨Nat.le_refl 1, by decide, by simp [rootDinode], by simp [rootDinode]⟩

end Sample

end Xv6.Fs
