import Xv6.Fs.Entry
import Xv6.Lib.System

/-! Sequences of calls into the inode layer, and what they leave of the disk:
every block is free, reserved, or in exactly one slot of one file. -/
namespace Xv6.Fs

open Lib

inductive Call where
  | iget (inum : Nat)
  | idup (ip : Ptr)
  | ilock (ip : Ptr)
  | ialloc (type : Int16)
  | bmap (ip : Ptr) (bn : Nat)
  | readi (ip : Ptr) (sink : Sink) (off n : Nat)
  | writei (ip : Ptr) (src : Source) (off n : Nat)
  | itrunc (ip : Ptr)
  /-- assignments to `ip->major`, `ip->minor` and `ip->nlink` -/
  | assign (ip : Ptr) (major minor nlink : Int16)
  | iupdate (ip : Ptr)
  | iput (ip : Ptr)

variable (sb : Superblock)

/-- References are held by those who use them; fields are touched under the lock. -/
def enabled (fs : Store) : Call → Prop
  | .iget inum => 1 ≤ inum ∧ inum < sb.ninodes ∧ (diskInode sb fs.disk inum).type ≠ 0
  | .idup ip | .ilock ip | .iput ip => 0 < (fs.inode ip).ref
  | .ialloc type => type ≠ 0
  | .bmap ip _ | .itrunc ip | .assign ip _ _ _ | .iupdate ip =>
      0 < (fs.inode ip).ref ∧ (fs.inode ip).valid = true
  | .readi ip _ off n | .writei ip _ off n =>
      (0 < (fs.inode ip).ref ∧ (fs.inode ip).valid = true) ∧ off < 2 ^ 32 ∧ n < 2 ^ 32

def exec (fs : Store) : Call → Except Panic Store
  | .iget inum => (iget fs inum).map (·.2)
  | .idup ip => .ok (idup fs ip)
  | .ilock ip => ilock sb fs ip
  | .ialloc type => (ialloc sb fs type).map (·.2)
  | .bmap ip bn => (bmap sb fs ip bn).map (·.2)
  | .readi ip sink off n => (readi sb fs ip sink off n).map (·.2.2)
  | .writei ip src off n => (writei sb fs ip src off n).map (·.2)
  | .itrunc ip => itrunc sb fs ip
  | .assign ip major minor nlink =>
      .ok (fs.setD ip { (fs.inode ip).d with major := major, minor := minor, nlink := nlink })
  | .iupdate ip => .ok (iupdate sb fs ip)
  | .iput ip => iput sb fs ip

/-- The entry says what the disk says. -/
def Clean (fs : Store) (ip : Ptr) : Prop :=
  let d := (fs.inode ip).d
  let disk := diskInode sb fs.disk (fs.inode ip).inum
  d.type = disk.type ∧ d.major = disk.major ∧ d.minor = disk.minor ∧ d.nlink = disk.nlink ∧
    d.size = disk.size ∧ ∀ i, i ≤ nDirect → d.addrs i = disk.addrs i

/-- What callers of `bmap` and `iupdate` see to: block numbers are those of a
file, and no change of an inode is forgotten before the last reference goes. -/
def InContract (fs : Store) : Call → Prop
  | .bmap _ bn => bn < maxFile
  | .iput ip => (fs.inode ip).ref = 1 ∧ (fs.inode ip).valid = true ∧
      (fs.inode ip).d.nlink ≠ 0 → Clean sb fs ip
  | _ => True

structure WellFormed (fs : Store) : Prop where
  superblock : sb.WF
  table : Table sb fs
  /-- Boot block, super block, log, inodes and bit map are never free. -/
  reserved : ∀ b, b < sb.dataStart → marked sb fs.disk b = true
  /-- No block is in two slots. -/
  once : ∀ i j slot other, Used sb fs i → Used sb fs j → blockRef sb fs i slot ≠ 0 →
    blockRef sb fs i slot = blockRef sb fs j other → i = j ∧ slot = other
  /-- A block in a slot is an allocated data block. -/
  allocated : ∀ i slot, Used sb fs i → blockRef sb fs i slot ≠ 0 →
    sb.dataStart ≤ blockRef sb fs i slot ∧ blockRef sb fs i slot < sb.size ∧
      marked sb fs.disk (blockRef sb fs i slot) = true
  /-- An allocated data block is in a slot. -/
  referenced : ∀ b, sb.dataStart ≤ b → b < sb.size → marked sb fs.disk b = true →
    ∃ i slot, Used sb fs i ∧ blockRef sb fs i slot = b
  mapped : Mapped sb fs

def calls : System Store Panic Call where
  init := WellFormed sb
  enabled := enabled sb
  exec := exec sb

variable {sb} {fs : Store}

theorem WellFormed.settled (h : WellFormed sb fs) : Settled sb fs where
  wf := h.superblock
  table := h.table
  reserved := h.reserved
  owns := by
    constructor
    · rintro ⟨i, slot⟩ ⟨j, other⟩ b ⟨hi, hslot, hb, -⟩ ⟨hj, hother, -, -⟩
      obtain ⟨rfl, rfl⟩ := h.once i j slot other hi hj (by rwa [hslot]) (hslot.trans hother.symm)
      rfl
    · intro b
      constructor
      · rintro ⟨hlow, hhigh, hmarked, -⟩
        obtain ⟨i, slot, hi, hslot⟩ := h.referenced b hlow hhigh hmarked
        have := h.superblock.bmapstart_pos
        have := sb.bmapstart_lt_dataStart
        exact ⟨(i, slot), hi, hslot, by omega, id⟩
      · rintro ⟨⟨i, slot⟩, hi, hslot, hb, -⟩
        obtain ⟨hlow, hhigh, hmarked⟩ := h.allocated i slot hi (by rwa [hslot])
        rw [hslot] at hlow hhigh hmarked
        exact ⟨hlow, hhigh, hmarked, id⟩
  entries _ _ hdead := hdead.elim

theorem wellFormed_of_settled (hc : Settled sb fs) (hm : Mapped sb fs) : WellFormed sb fs where
  superblock := hc.wf
  table := hc.table
  reserved := hc.reserved
  once i j slot other hi hj hpos heq :=
    Prod.mk.inj (hc.owns.unique (i, slot) (j, other) _ ⟨hi, rfl, hpos, id⟩ ⟨hj, heq.symm, hpos, id⟩)
  allocated i slot hi hpos :=
    have h : Holds sb fs (fun _ _ => False) (i, slot) _ := ⟨hi, rfl, hpos, id⟩
    have ⟨hlow, hhigh, hmarked, _⟩ := hc.owns.taken_of_holds h
    ⟨hlow, hhigh, hmarked⟩
  referenced b hlow hhigh hmarked :=
    have ⟨⟨i, slot⟩, hi, hslot, _, _⟩ := (hc.owns.taken_iff b).mp ⟨hlow, hhigh, hmarked, id⟩
    ⟨i, slot, hi, hslot⟩
  mapped := hm

theorem Clean.eq {ip : Ptr} (h : Clean sb fs ip) (hfits : (fs.inode ip).d.Fits) :
    (fs.inode ip).d = diskInode sb fs.disk (fs.inode ip).inum := by
  obtain ⟨htype, hmajor, hminor, hnlink, hsize, haddrs⟩ := h
  have hrest := (fits_readDinode (fs.disk (sb.iblock (fs.inode ip).inum))
    ((fs.inode ip).inum % ipb)).rest
  have haddrs : (fs.inode ip).d.addrs = (diskInode sb fs.disk (fs.inode ip).inum).addrs := by
    funext i
    by_cases hi : i ≤ nDirect
    · exact haddrs i hi
    · exact (hfits.rest i (by omega)).trans (hrest i (by omega)).symm
  generalize (fs.inode ip).d = d at *
  generalize diskInode sb fs.disk (fs.inode ip).inum = disk at *
  cases d
  cases disk
  simp_all

/-- One call keeps the books and stays off the super block and the log, unless
the inode table is full. -/
theorem exec_spec (hc : Settled sb fs) (hm : Mapped sb fs) {call : Call}
    (henabled : enabled sb fs call) (hcontract : InContract sb fs call) :
    (∃ e, exec sb fs call = .error e ∧ e = .igetNoInodes) ∨
    ∃ fs', exec sb fs call = .ok fs' ∧ Settled sb fs' ∧ Mapped sb fs' ∧ Keeps sb.Head fs fs' := by
  cases call with
  | iget inum =>
    obtain ⟨hlow, hhigh, htype⟩ := henabled
    rcases iget_spec hc hm hlow hhigh htype with hfull | ⟨ip, fs', heq, h⟩
    · exact Or.inl ⟨_, by simp [exec, hfull, Except.map], rfl⟩
    · exact Or.inr ⟨fs', by simp [exec, heq, Except.map], h.1, h.2, keeps_of_disk (disk_iget heq)⟩
  | idup ip =>
    have h := idup_spec hc hm henabled
    exact Or.inr ⟨_, rfl, h.1, h.2, Keeps.refl _ fs⟩
  | ilock ip =>
    obtain ⟨fs', heq, h⟩ := ilock_spec hc hm henabled
    exact Or.inr ⟨fs', heq, h.1, h.2, keeps_of_disk (disk_ilock heq)⟩
  | ialloc type =>
    rcases ialloc_spec hc hm henabled with hfull | ⟨r, fs', heq, h⟩
    · exact Or.inl ⟨_, by simp [exec, hfull, Except.map], rfl⟩
    · exact Or.inr ⟨fs', by simp [exec, heq, Except.map], h⟩
  | bmap ip bn =>
    obtain ⟨b, fs', heq, hsettled, hgrows, hhead, -⟩ :=
      bmap_spec hc ⟨henabled.1, henabled.2⟩ hcontract
    exact Or.inr ⟨fs', by simp [exec, heq, Except.map], hsettled, hgrows.toGrows.mapped hm,
      hhead.head hc.wf⟩
  | readi ip sink off n =>
    obtain ⟨⟨href, hvalid⟩, hoff, hn⟩ := henabled
    obtain ⟨r, k, heq, -⟩ := @readi_spec sb fs ip sink n hc ⟨href, hvalid⟩ off hm hoff hn
    exact Or.inr ⟨fs, by simp [exec, heq, Except.map], hc, hm, Keeps.refl _ fs⟩
  | writei ip src off n =>
    obtain ⟨⟨href, hvalid⟩, hoff, hn⟩ := henabled
    obtain ⟨r, fs', heq, hsettled, hmapped, hhead, -⟩ :=
      @writei_spec sb fs ip src n hc hm ⟨href, hvalid⟩ off hoff hn
    exact Or.inr ⟨fs', by simp [exec, heq, Except.map], hsettled, hmapped, hhead⟩
  | itrunc ip =>
    obtain ⟨fs', heq, hsettled, hmapped, -, -, hkeeps, -⟩ :=
      itrunc_spec hc ⟨henabled.1, henabled.2⟩ hm
    exact Or.inr ⟨fs', heq, hsettled, hmapped, hkeeps.mono hc.wf.outside⟩
  | assign ip major minor nlink =>
    have hlive : Live fs ip := ⟨henabled.1, henabled.2⟩
    obtain ⟨hfits, htype⟩ := hc.table.valid ip hlive.ref hlive.valid
    have hfits : Dinode.Fits { (fs.inode ip).d with
        major := major, minor := minor, nlink := nlink } :=
      ⟨hfits.size, hfits.addrs, hfits.rest⟩
    exact Or.inr ⟨_, rfl, (hc.setMeta hlive hfits htype rfl).1,
      Mapped.setMeta hc hm hlive hfits htype rfl rfl, Keeps.refl _ fs⟩
  | iupdate ip =>
    have hlive : Live fs ip := ⟨henabled.1, henabled.2⟩
    exact Or.inr ⟨_, rfl, (iupdate_spec hc hlive).1, Mapped.iupdate hc hlive hm,
      keeps_iupdate sb fs ip⟩
  | iput ip =>
    refine Or.inr (iput_spec hc hm henabled fun hlast hvalid hnlink => ?_)
    exact (hcontract ⟨hlast, hvalid, hnlink⟩).eq (hc.table.valid ip henabled hvalid).1

/-- Whatever calls are made, by callers that keep to the rules of `bmap` and
`iupdate`, every block has its one place, and the allocator never panics. -/
theorem blocks_owned {r : Except Panic Store} (h : (calls sb).Reach (InContract sb) r) :
    r ≠ .error .freeingFreeBlock ∧ r ≠ .error .bmapOutOfRange ∧
      ∀ fs, r = .ok fs → WellFormed sb fs := by
  have hinv := h.invariant_or (fun fs => Settled sb fs ∧ Mapped sb fs) (fun e => e = .igetNoInodes)
    (fun fs hfs => ⟨WellFormed.settled hfs, WellFormed.mapped hfs⟩)
    fun fs call hfs henabled hcontract =>
      (exec_spec hfs.1 hfs.2 henabled hcontract).imp_right fun ⟨fs', hexec, hsettled, hmapped, _⟩ =>
        ⟨fs', hexec, hsettled, hmapped⟩
  rcases hinv with ⟨e, rfl, rfl⟩ | ⟨fs, rfl, hsettled, hmapped⟩
  · exact ⟨by simp, by simp, fun _ h => by cases h⟩
  · refine ⟨by simp, by simp, fun fs' h => ?_⟩
    cases h
    exact wellFormed_of_settled hsettled hmapped

instance (sb : Superblock) (fs : Store) : DecidablePred (enabled sb fs)
  | .iget _ | .bmap _ _ | .itrunc _ | .assign _ _ _ _ | .iupdate _ | .readi _ _ _ _
  | .writei _ _ _ _ => inferInstanceAs (Decidable (_ ∧ _))
  | .idup _ | .ilock _ | .iput _ => inferInstanceAs (Decidable (_ < _))
  | .ialloc _ => inferInstanceAs (Decidable (¬_))

instance (sb : Superblock) (fs : Store) (ip : Ptr) : Decidable (Clean sb fs ip) :=
  inferInstanceAs (Decidable (_ ∧ _))

instance (sb : Superblock) (fs : Store) : DecidablePred (InContract sb fs)
  | .bmap _ _ => inferInstanceAs (Decidable (_ < _))
  | .iput ip => inferInstanceAs (Decidable (_ → Clean sb fs ip))
  | .iget _ | .idup _ | .ilock _ | .ialloc _ | .readi _ _ _ _ | .writei _ _ _ _ | .itrunc _
  | .assign _ _ _ _ | .iupdate _ => inferInstanceAs (Decidable True)

instance (sb : Superblock) (fs : Store) : DecidablePred ((calls sb).enabled fs) :=
  inferInstanceAs (DecidablePred (enabled sb fs))

/-- A disk of seven blocks, two of them for data, and one inode. -/
def smallSuperblock : Superblock := ⟨7, 2, 0, 2, 2, 4⟩

def emptyDisk : Store where
  disk b := if b = 4 then (Bytes.zero bsize).set 0 0x1f else Bytes.zero bsize
  inode _ := ⟨0, 0, false, .fresh 0⟩

theorem wellFormed_emptyDisk : WellFormed smallSuperblock emptyDisk := by
  have hinodes : ∀ i, i < 2 → (inodes smallSuperblock emptyDisk i).type = 0 := by
    decide +kernel
  have hunused : ∀ i, ¬Used smallSuperblock emptyDisk i :=
    fun i ⟨_, hi, htype⟩ => htype (hinodes i hi)
  have hmarked : ∀ b, b < 7 → (marked smallSuperblock emptyDisk.disk b = true ↔ b < 5) := by
    decide +kernel
  have hfree : ∀ ip, ¬0 < (emptyDisk.inode ip).ref := fun _ => by simp [emptyDisk]
  refine ⟨⟨by decide, by decide, by decide, by decide, by decide⟩,
    ⟨fun ip _ hip => absurd hip (hfree ip), fun ip hip => absurd hip (hfree ip),
      fun ip hip => absurd hip (hfree ip)⟩, fun b hb => ?_,
    fun i j _ _ hi => absurd hi (hunused i), fun i _ hi => absurd hi (hunused i),
    fun b hlow hhigh hb => ?_, fun i hi => absurd hi (hunused i)⟩
  · have hb : b < 5 := hb
    exact (hmarked b (by omega)).mpr hb
  · have hlow : 5 ≤ b := hlow
    have := (hmarked b hhigh).mp hb
    omega

def firstEntry : Ptr := ⟨0, by decide⟩

/-- A file is created, three bytes are written to it, and it is closed. -/
theorem blocks_owned_written : ∃ fs, (calls smallSuperblock).Reach (InContract smallSuperblock)
    (.ok fs) ∧ marked smallSuperblock fs.disk 5 = true ∧ WellFormed smallSuperblock fs := by
  have hrun : ((calls smallSuperblock).runActions (InContract smallSuperblock) emptyDisk
      [.ialloc 2, .ilock firstEntry, .assign firstEntry 0 0 1, .iupdate firstEntry,
        .writei firstEntry (fun _ => some 7) 0 3, .iput firstEntry]).map (fun r =>
          match r with
          | .ok fs => marked smallSuperblock fs.disk 5
          | .error _ => false) = some true := by
    decide +kernel
  obtain ⟨r, hr, hmarked⟩ := Option.map_eq_some_iff.mp hrun
  have hreach := System.Reach.of_runActions (.init wellFormed_emptyDisk) hr
  cases r with
  | error e => cases hmarked
  | ok fs => exact ⟨fs, hreach, hmarked, (blocks_owned hreach).2.2 fs rfl⟩

def lostBlock : Except Panic Store → Bool
  | .ok fs => marked smallSuperblock fs.disk 5 &&
      ((List.finRange ninode).all fun ip => (fs.inode ip).ref == 0) &&
      (List.range (nDirect + 1)).all fun k => (diskInode smallSuperblock fs.disk 1).addrs k == 0
  | .error _ => false

/-- When the change that `bmap` made to an inode never reaches the disk, the
block is lost with the last reference. -/
theorem block_lost : ∃ fs, (calls smallSuperblock).Reachable (.ok fs) ∧
    ¬WellFormed smallSuperblock fs := by
  have hrun : ((calls smallSuperblock).runActions (fun _ _ => True) emptyDisk
      [.ialloc 2, .ilock firstEntry, .assign firstEntry 0 0 1, .iupdate firstEntry,
        .bmap firstEntry 0, .iput firstEntry]).map lostBlock = some true := by
    decide +kernel
  obtain ⟨r, hr, hlost⟩ := Option.map_eq_some_iff.mp hrun
  have hreach : (calls smallSuperblock).Reachable r :=
    System.Reach.of_runActions (.init wellFormed_emptyDisk) hr
  cases r with
  | error e => cases hlost
  | ok fs =>
    refine ⟨fs, hreach, fun hwf => ?_⟩
    simp only [lostBlock, Bool.and_eq_true, List.all_eq_true, List.mem_finRange, beq_iff_eq,
      List.mem_range, true_implies] at hlost
    obtain ⟨⟨hmarked, hfree⟩, haddrs⟩ := hlost
    obtain ⟨i, slot, ⟨hlow, hhigh, -⟩, hslot⟩ := hwf.referenced 5 (by decide) (by decide) hmarked
    have hi : i = 1 := by
      have : i < 2 := hhigh
      omega
    have hinode : inodes smallSuperblock fs 1 = diskInode smallSuperblock fs.disk 1 := by
      rcases Overlay.sees_view (fun ip => (fs.inode ip).live)
        (diskInode smallSuperblock fs.disk) 1 with ⟨ip, hip⟩ | ⟨-, hview⟩
      · obtain ⟨href, -⟩ := live_eq_some.mp hip
        rw [hfree ip] at href
        omega
      · exact hview.symm
    have hzero : ∀ k, (diskInode smallSuperblock fs.disk 1).addrs k = 0 := by
      intro k
      by_cases hk : k < nDirect + 1
      · exact haddrs k hk
      · exact (fits_readDinode _ _).rest k (by omega)
    rw [hi, blockRef, hinode] at hslot
    cases slot <;> simp [Dinode.refs, hzero] at hslot

end Xv6.Fs
