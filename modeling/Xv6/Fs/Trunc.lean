import Xv6.Fs.Map
import Xv6.Lib.Loops

/-! `bfree` and `itrunc`. A block is freed only while its slot holds it, which
is why its bit is found set; the slot is cleared right after, or together with
the indirect block it lies in. -/
namespace Xv6.Fs

open Lib

variable {sb : Superblock} {fs fs' fs'' : Store} {ip : Ptr} {dead : Nat → RefSlot → Prop}

def cleared (sb : Superblock) (fs : Store) (b : Nat) : Store :=
  fs.setBlock (sb.bblock b) (clearBit (fs.disk (sb.bblock b)) (b % bpb))

section Cleared

variable {x : Nat × RefSlot} {b : Nat} (hc : Core sb fs (fun _ => False) dead)
include hc

theorem used_cleared (b i : Nat) : Used sb (cleared sb fs b) i ↔ Used sb fs i :=
  used_setBlock hc.wf (sb.bmapstart_le_bblock b) i

theorem inodes_cleared (b : Nat) {i : Nat} (hi : i < sb.ninodes) :
    inodes sb (cleared sb fs b) i = inodes sb fs i :=
  inodes_setBlock hc.wf (sb.bmapstart_le_bblock b) _ hi

theorem table_cleared (b : Nat) : Table sb (cleared sb fs b) :=
  hc.table.setBlock hc.wf (sb.bmapstart_le_bblock b)

variable (hx : Holds sb fs dead x b)
include hx

theorem bfree_ok : bfree sb fs b = .ok (cleared sb fs b) := by
  have hmarked : bitSet (fs.disk (sb.bblock b)) (b % bpb) = true :=
    (hc.owns.taken_of_holds hx).2.2.1
  simp [bfree, hmarked, cleared]

theorem keeps_cleared : Keeps (fun y => ¬sb.Bitmap y) fs (cleared sb fs b) :=
  keeps_setBlock (not_not_intro (sb.bitmap_bblock (hc.range hx).2)) _

theorem blockRef_cleared {i : Nat} (hi : Used sb fs i) (slot : RefSlot) :
    blockRef sb (cleared sb fs b) i slot = blockRef sb fs i slot := by
  have hlt := sb.bblock_lt (hc.range hx).2
  have hle := sb.bmapstart_le_bblock b
  have hpos := hc.wf.bmapstart_pos
  exact blockRef_setBlock hc.wf hle hi.2.1 (hc.indirect_ne hlt (by omega) hi) slot

theorem Core.release {dead' : Nat → RefSlot → Prop} (ht : Table sb fs')
    (hdisk : fs'.disk = (cleared sb fs b).disk)
    (hholds : ∀ y c, Holds sb fs' dead' y c ↔ Holds sb fs dead y c ∧ ¬(y = x ∧ c = b))
    (hentries : ∀ i slot, dead' i slot → ∃ j, slot = .entry j) :
    Core sb fs' (fun _ => False) dead' where
  wf := hc.wf
  table := ht
  reserved y hy := by
    have hlow := (hc.range hx).1
    have hne : y ≠ b := by omega
    rw [hdisk, cleared, marked_clearBit, hc.reserved y hy]
    simpa using hne
  owns := by
    refine hc.owns.release hx hholds fun y => ?_
    unfold Taken
    rw [hdisk, cleared, marked_clearBit]
    simp only [Bool.and_eq_true, decide_eq_true_eq]
    tauto
  entries := hentries

end Cleared

structure Truncates (sb : Superblock) (ip : Ptr) (fs fs' : Store) : Prop where
  table : fs'.inode =
    (fs.setD ip { (fs.inode ip).d with addrs := (fs'.inode ip).d.addrs }).inode
  used : ∀ i, Used sb fs' i ↔ Used sb fs i
  inodes : ∀ i, i < sb.ninodes → i ≠ (fs.inode ip).inum → inodes sb fs' i = inodes sb fs i
  refs : ∀ i slot, Used sb fs i → i ≠ (fs.inode ip).inum →
    blockRef sb fs' i slot = blockRef sb fs i slot

namespace Truncates

theorem refl (sb : Superblock) (ip : Ptr) (fs : Store) : Truncates sb ip fs fs where
  table := by simp [Store.setD, Store.setInode]
  used _ := Iff.rfl
  inodes _ _ _ := rfl
  refs _ _ _ _ := rfl

variable (h : Truncates sb ip fs fs')
include h

theorem entry : fs'.inode ip =
    { fs.inode ip with d := { (fs.inode ip).d with addrs := (fs'.inode ip).d.addrs } } := by
  conv_lhs => rw [h.table]
  simp [Store.setD, Store.setInode]

theorem inum : (fs'.inode ip).inum = (fs.inode ip).inum := by
  rw [h.entry]

theorem live (hlive : Live fs ip) : Live fs' ip := by
  constructor
  · rw [h.entry]
    exact hlive.ref
  · rw [h.entry]
    exact hlive.valid

theorem trans (h' : Truncates sb ip fs' fs'') : Truncates sb ip fs fs'' where
  table := by
    rw [h'.table, Store.setD, h.entry]
    simp only [Store.setInode]
    rw [h.table]
    simp [Store.setD, Store.setInode]
  used i := (h'.used i).trans (h.used i)
  inodes i hi hne := (h'.inodes i hi (by rwa [h.inum])).trans (h.inodes i hi hne)
  refs i slot hi hne :=
    (h'.refs i slot ((h.used i).mpr hi) (by rwa [h.inum])).trans (h.refs i slot hi hne)

end Truncates

/-- The slots that become empty with address `k`. -/
def FallsWith (k : Nat) : RefSlot → Prop
  | .addr i => i = k
  | .entry _ => k = nDirect

theorem refs_clearAddr {d : Dinode} {disk : Disk} {k : Nat} {slot : RefSlot}
    (h : FallsWith k slot) : (d.setAddr k 0).refs disk slot = 0 := by
  cases slot with
  | addr i =>
    have h : i = k := h
    simp [Dinode.refs, Dinode.setAddr, h]
  | entry j =>
    have h : k = nDirect := h
    simp [Dinode.refs, Dinode.setAddr, h]

theorem refs_clearAddr_of_not {d : Dinode} {disk : Disk} {k : Nat} {slot : RefSlot}
    (h : ¬FallsWith k slot) : (d.setAddr k 0).refs disk slot = d.refs disk slot := by
  cases slot with
  | addr i =>
    have h : ¬i = k := h
    simp [Dinode.refs, Dinode.setAddr, h]
  | entry j =>
    have h : nDirect ≠ k := fun heq => h heq.symm
    simp [Dinode.refs, Dinode.setAddr, h]

section FreeAddr

variable {k : Nat} (hc : Core sb fs (fun _ => False) dead) (hlive : Live fs ip)
include hc hlive

/-- `bfree(ip->addrs[k]); ip->addrs[k] = 0`. With the indirect block go its
entries, which must be dead by then. -/
theorem Core.freeAddr (hk : k ≤ nDirect) (hpos : (fs.inode ip).d.addrs k ≠ 0)
    (hdead : ∀ i slot, dead i slot → k = nDirect ∧ i = (fs.inode ip).inum)
    (hgone : k = nDirect → ∀ j, blockRef sb fs (fs.inode ip).inum (.entry j) ≠ 0 →
      dead (fs.inode ip).inum (.entry j)) :
    bfree sb fs ((fs.inode ip).d.addrs k) = .ok (cleared sb fs ((fs.inode ip).d.addrs k)) ∧
      Settled sb ((cleared sb fs ((fs.inode ip).d.addrs k)).setD ip
        ((fs.inode ip).d.setAddr k 0)) ∧
      Truncates sb ip fs ((cleared sb fs ((fs.inode ip).d.addrs k)).setD ip
        ((fs.inode ip).d.setAddr k 0)) ∧
      Keeps (fun b => ¬sb.Bitmap b) fs (cleared sb fs ((fs.inode ip).d.addrs k)) := by
  have hinode := hlive.inodes hc.table
  have hused := hlive.used hc.table
  obtain ⟨hfits, htype⟩ := hc.table.valid ip hlive.ref hlive.valid
  have hx : Holds sb fs dead ((fs.inode ip).inum, .addr k) ((fs.inode ip).d.addrs k) := by
    have := hc.holds_addr (k := k) hused (by rwa [hinode])
    rwa [hinode] at this
  generalize hb : (fs.inode ip).d.addrs k = b at hpos hx
  have htable := table_cleared hc b
  have hlive' : Live (cleared sb fs b) ip := ⟨hlive.ref, hlive.valid⟩
  have htype' : ((fs.inode ip).d.setAddr k 0).type ≠ 0 := htype
  have huses : ∀ i, Used sb ((cleared sb fs b).setD ip ((fs.inode ip).d.setAddr k 0)) i ↔
      Used sb fs i := fun i => (used_setD hlive' htable htype' i).trans (used_cleared hc b i)
  have hown : ∀ slot,
      blockRef sb ((cleared sb fs b).setD ip ((fs.inode ip).d.setAddr k 0))
        (fs.inode ip).inum slot =
        ((fs.inode ip).d.setAddr k 0).refs (cleared sb fs b).disk slot :=
    blockRef_setD_self hlive' htable
  have hsame : ∀ slot, (fs.inode ip).d.refs (cleared sb fs b).disk slot =
      blockRef sb fs (fs.inode ip).inum slot := by
    intro slot
    rw [← blockRef_cleared hc hx hused, blockRef, inodes_cleared hc b hused.2.1, hinode]
  have hother : ∀ i slot, Used sb fs i → i ≠ (fs.inode ip).inum →
      blockRef sb ((cleared sb fs b).setD ip ((fs.inode ip).d.setAddr k 0)) i slot =
        blockRef sb fs i slot := fun i slot hi hne =>
    (blockRef_setD_of_ne hlive' htable hne slot).trans (blockRef_cleared hc hx hi slot)
  refine ⟨bfree_ok hc hx, ?_, ⟨?_, huses, fun i hi hne => ?_, hother⟩, keeps_cleared hc hx⟩
  · refine hc.release hx (htable.setD (hfits.setAddr hk (by decide)) htype) rfl ?_
      fun _ _ h => absurd h id
    rintro ⟨i, slot⟩ c
    unfold Holds
    dsimp only
    rw [huses]
    by_cases hi : i = (fs.inode ip).inum
    · subst hi
      by_cases hfalls : FallsWith k slot
      · rw [hown, refs_clearAddr hfalls]
        refine ⟨fun h => absurd h.2.1.symm h.2.2.1, ?_⟩
        rintro ⟨⟨-, hc', hpos', hnotdead⟩, hne⟩
        cases slot with
        | addr m =>
          have hm : m = k := hfalls
          subst hm
          refine absurd ⟨rfl, ?_⟩ hne
          rw [← hc', hx.2.1]
        | entry j => exact absurd (hgone hfalls j (by rwa [hc'])) hnotdead
      · have hslot : slot ≠ .addr k := fun h => hfalls (by rw [h]; rfl)
        have hnotdead : ¬dead (fs.inode ip).inum slot := by
          intro h
          obtain ⟨j, hj⟩ := hc.entries _ _ h
          rw [hj] at hfalls
          exact hfalls (hdead _ _ h).1
        rw [hown, refs_clearAddr_of_not hfalls, hsame]
        simp [hslot, hnotdead]
    · have hnotdead : ¬dead i slot := fun h => hi (hdead _ _ h).2
      constructor
      · rintro ⟨hi', href, hpos', -⟩
        rw [hother i slot hi' hi] at href
        exact ⟨⟨hi', href, hpos', hnotdead⟩, fun h => hi (congrArg Prod.fst h.1)⟩
      · rintro ⟨⟨hi', href, hpos', -⟩, -⟩
        exact ⟨hi', (hother i slot hi' hi).trans href, hpos', id⟩
  · simp [Store.setD, Store.setInode, cleared, Store.setBlock, Dinode.setAddr]
  · have hne' : i ≠ ((cleared sb fs b).inode ip).inum := hne
    rw [inodes_setD htable.unique hlive'.ref hlive'.valid, Function.update_of_ne hne',
      inodes_cleared hc b hi]

end FreeAddr

def freed (inum n : Nat) (i : Nat) (slot : RefSlot) : Prop :=
  i = inum ∧ ∃ j, j < n ∧ slot = .entry j

section Itrunc

variable (hc : Settled sb fs) (hlive : Live fs ip)
include hc hlive

theorem truncDirects_spec : ∃ fs', (List.range nDirect).foldlM (truncDirect sb ip) fs = .ok fs' ∧
    Settled sb fs' ∧ Truncates sb ip fs fs' ∧ Keeps (fun b => ¬sb.Bitmap b) fs fs' ∧
    ∀ m, m < nDirect → (fs'.inode ip).d.addrs m = 0 := by
  refine foldlM_range_ok (fun k fs' => Settled sb fs' ∧ Truncates sb ip fs fs' ∧
    Keeps (fun b => ¬sb.Bitmap b) fs fs' ∧ ∀ m, m < k → (fs'.inode ip).d.addrs m = 0)
    ⟨hc, Truncates.refl sb ip fs, Keeps.refl _ fs, fun m hm => absurd hm (Nat.not_lt_zero m)⟩ ?_
  rintro k mid hk ⟨hmid, htrunc, hkeeps, hzero⟩
  have hlive' := htrunc.live hlive
  unfold truncDirect
  by_cases hk0 : (mid.inode ip).d.addrs k = 0
  · refine ⟨mid, if_pos hk0, hmid, htrunc, hkeeps, fun m hm => ?_⟩
    rcases Nat.lt_succ_iff_lt_or_eq.mp hm with hm | rfl
    · exact hzero m hm
    · exact hk0
  · obtain ⟨hfree, hsettled, hnext, hkeeps'⟩ := hmid.freeAddr hlive' (Nat.le_of_lt hk) hk0
      (fun _ _ h => absurd h id) (fun h => by omega)
    refine ⟨_, by simp only [hk0, if_false, hfree, bind, Except.bind]; rfl, hsettled,
      htrunc.trans hnext, hkeeps.trans hkeeps', fun m hm => ?_⟩
    simp only [Store.setD, Store.setInode, Function.update_self, Dinode.setAddr]
    by_cases hmk : m = k
    · rw [hmk, Function.update_self]
    · rw [Function.update_of_ne hmk]
      exact hzero m (by omega)

omit hc in
theorem truncEntry_spec {k : Nat} {mid : Store}
    (hmid : Core sb mid (fun _ => False) (freed (fs.inode ip).inum k)) (hk : k < nIndirect)
    (htable : mid.inode = fs.inode) (hpos : (fs.inode ip).d.addrs nDirect ≠ 0) :
    ∃ mid', truncEntry sb ((fs.inode ip).d.addrs nDirect) mid k = .ok mid' ∧
      Core sb mid' (fun _ => False) (freed (fs.inode ip).inum (k + 1)) ∧
      mid'.inode = fs.inode ∧ Truncates sb ip mid mid' ∧
      Keeps (fun b => ¬sb.Bitmap b) mid mid' := by
  have hlive' : Live mid ip := ⟨by rw [htable]; exact hlive.ref, by rw [htable]; exact hlive.valid⟩
  have hinode := hlive'.inodes hmid.table
  have hused := hlive'.used hmid.table
  rw [htable] at hinode hused
  have hslot : blockRef sb mid (fs.inode ip).inum (.entry k) =
      entry (mid.disk ((fs.inode ip).d.addrs nDirect)) k := by
    simp [blockRef, Dinode.refs, hinode, hpos, hk]
  have hentries : ∀ i slot, freed (fs.inode ip).inum (k + 1) i slot → ∃ j, slot = .entry j := by
    rintro i slot ⟨-, j, -, hj⟩
    exact ⟨j, hj⟩
  -- the dead slots of the next round, in terms of those of this one
  have hfreed : ∀ i slot, freed (fs.inode ip).inum (k + 1) i slot ↔
      freed (fs.inode ip).inum k i slot ∨ i = (fs.inode ip).inum ∧ slot = .entry k := by
    intro i slot
    unfold freed
    constructor
    · rintro ⟨hi, j, hj, heq⟩
      by_cases hjk : j = k
      · exact Or.inr ⟨hi, by rw [heq, hjk]⟩
      · exact Or.inl ⟨hi, j, by omega, heq⟩
    · rintro (⟨hi, j, hj, heq⟩ | ⟨hi, heq⟩)
      · exact ⟨hi, j, by omega, heq⟩
      · exact ⟨hi, k, by omega, heq⟩
  unfold truncEntry
  by_cases hzero : entry (mid.disk ((fs.inode ip).d.addrs nDirect)) k = 0
  · refine ⟨mid, if_pos hzero, hmid.congr hmid.table (fun _ _ => rfl) ?_ hentries, htable,
      Truncates.refl sb ip mid, Keeps.refl _ mid⟩
    rintro ⟨i, slot⟩ b
    unfold Holds
    dsimp only
    rw [hfreed]
    refine and_congr_right fun _ => and_congr_right fun href => and_congr_right fun hb => ?_
    refine not_congr (or_iff_left ?_)
    rintro ⟨rfl, rfl⟩
    exact hb (href.symm.trans (hslot.trans hzero))
  · have hnotdead : ¬freed (fs.inode ip).inum k (fs.inode ip).inum (.entry k) := by
      rintro ⟨-, j, hj, heq⟩
      cases heq
      omega
    have hx : Holds sb mid (freed (fs.inode ip).inum k) ((fs.inode ip).inum, .entry k)
        (entry (mid.disk ((fs.inode ip).d.addrs nDirect)) k) := ⟨hused, hslot, hzero, hnotdead⟩
    generalize entry (mid.disk ((fs.inode ip).d.addrs nDirect)) k = b at hzero hx
    refine ⟨cleared sb mid b, (if_neg hzero).trans (bfree_ok hmid hx),
      hmid.release hx (table_cleared hmid b) rfl ?_ hentries, htable,
      ⟨by simp [cleared, Store.setBlock, Store.setD, Store.setInode], used_cleared hmid b,
        fun i hi _ => inodes_cleared hmid b hi,
        fun i slot hi _ => blockRef_cleared hmid hx hi slot⟩, keeps_cleared hmid hx⟩
    rintro ⟨i, slot⟩ c
    unfold Holds
    dsimp only
    rw [used_cleared hmid b, hfreed]
    constructor
    · rintro ⟨hi, href, hc0, hnot⟩
      rw [blockRef_cleared hmid hx hi] at href
      refine ⟨⟨hi, href, hc0, fun h => hnot (Or.inl h)⟩, fun h => hnot (Or.inr ?_)⟩
      exact Prod.mk.injEq .. ▸ h.1
    · rintro ⟨⟨hi, href, hc0, hnot⟩, hne⟩
      refine ⟨hi, (blockRef_cleared hmid hx hi slot).trans href, hc0, ?_⟩
      rintro (h | ⟨rfl, rfl⟩)
      · exact hnot h
      · exact hne ⟨rfl, by rw [← href, hx.2.1]⟩

theorem truncIndirect_spec : ∃ fs', truncIndirect sb fs ip = .ok fs' ∧ Settled sb fs' ∧
    Truncates sb ip fs fs' ∧ Keeps (fun b => ¬sb.Bitmap b) fs fs' ∧
    (fs'.inode ip).d.addrs = Function.update (fs.inode ip).d.addrs nDirect 0 := by
  unfold truncIndirect
  by_cases hzero : (fs.inode ip).d.addrs nDirect = 0
  · refine ⟨fs, if_pos hzero, hc, Truncates.refl sb ip fs, Keeps.refl _ fs, ?_⟩
    rw [← hzero, Function.update_eq_self]
  · have hstart : Core sb fs (fun _ => False) (freed (fs.inode ip).inum 0) := by
      refine hc.congr hc.table (fun _ _ => rfl) (fun x b => ?_) fun _ _ ⟨_, j, hj, _⟩ => by omega
      simp [Holds, freed]
    obtain ⟨mid, hloop, hmid, htable, htrunc, hkeeps⟩ := foldlM_range_ok
      (fun k mid => Core sb mid (fun _ => False) (freed (fs.inode ip).inum k) ∧
        mid.inode = fs.inode ∧ Truncates sb ip fs mid ∧ Keeps (fun b => ¬sb.Bitmap b) fs mid)
      (f := truncEntry sb ((fs.inode ip).d.addrs nDirect)) (n := nIndirect)
      ⟨hstart, rfl, Truncates.refl sb ip fs, Keeps.refl _ fs⟩
      fun k mid hk ⟨hmid, htable, htrunc, hkeeps⟩ =>
        have ⟨mid', heq, hmid', htable', hnext, hkeeps'⟩ :=
          truncEntry_spec hlive hmid hk htable hzero
        ⟨mid', heq, hmid', htable', htrunc.trans hnext, hkeeps.trans hkeeps'⟩
    have hlive' := htrunc.live hlive
    have hfree := hmid.freeAddr (k := nDirect) hlive' (Nat.le_refl _) (by rwa [htable])
      (fun i slot h => ⟨rfl, by rw [htable]; exact h.1⟩) ?_
    · rw [htable] at hfree
      obtain ⟨hbfree, hsettled, hnext, hkeeps'⟩ := hfree
      have hclear : (cleared sb mid ((fs.inode ip).d.addrs nDirect)).inode ip = fs.inode ip := by
        rw [← htable]
        rfl
      refine ⟨_, ?_, hsettled, htrunc.trans hnext, hkeeps.trans hkeeps', ?_⟩
      · simp only [hzero, if_false, hloop, hbfree, bind, Except.bind, hclear]
        rfl
      · simp [Store.setD, Store.setInode, Dinode.setAddr]
    · rw [htable]
      intro _ j hj
      refine ⟨rfl, j, ?_, rfl⟩
      by_contra hlarge
      exact hj (by simp [blockRef, Dinode.refs, Nat.not_lt.mp hlarge])

theorem itrunc_spec (hm : Mapped sb fs) :
    ∃ fs', itrunc sb fs ip = .ok fs' ∧ Settled sb fs' ∧ Mapped sb fs' ∧
      fs'.inode = (fs.setD ip { (fs.inode ip).d with size := 0, addrs := fun _ => 0 }).inode ∧
      (∀ i, i < sb.ninodes → i ≠ (fs.inode ip).inum → inodes sb fs' i = inodes sb fs i) ∧
      Keeps (fun b => ¬sb.Bitmap b ∧ b ≠ sb.iblock (fs.inode ip).inum) fs fs' ∧
      ∀ i, i < sb.ninodes → diskInode sb fs'.disk i = if i = (fs.inode ip).inum then
        { (fs.inode ip).d with size := 0, addrs := fun _ => 0 } else diskInode sb fs.disk i := by
  obtain ⟨mid, hdirect, hmid, htrunc, hkeeps, hzero⟩ := truncDirects_spec hc hlive
  have hlive' := htrunc.live hlive
  obtain ⟨last, hindirect, hlast, htrunc', hkeeps', haddrs⟩ := truncIndirect_spec hmid hlive'
  have hall := htrunc.trans htrunc'
  have hlive'' := hall.live hlive
  obtain ⟨hfits, htype⟩ := hlast.table.valid ip hlive''.ref hlive''.valid
  have hempty : (last.inode ip).d.addrs = fun _ => 0 := by
    funext m
    by_cases hm : nDirect < m
    · exact hfits.rest m hm
    · rw [haddrs]
      by_cases hmn : m = nDirect
      · rw [hmn, Function.update_self]
      · rw [Function.update_of_ne hmn]
        exact hzero m (by omega)
  obtain ⟨hsettled, hused, hrefs⟩ := hlast.setMeta
    (d := { (last.inode ip).d with size := 0 }) hlive''
    ⟨Nat.two_pow_pos 32, hfits.addrs, hfits.rest⟩ htype rfl
  have hlive3 : Live (last.setD ip { (last.inode ip).d with size := 0 }) ip :=
    ⟨by simpa [Store.setD, Store.setInode] using hlive''.ref,
      by simpa [Store.setD, Store.setInode] using hlive''.valid⟩
  have hmapped : Mapped sb (last.setD ip { (last.inode ip).d with size := 0 }) := by
    intro i hi
    simp only [hrefs]
    rw [inodes_setD hlast.table.unique hlive''.ref hlive''.valid]
    by_cases hinum : i = (last.inode ip).inum
    · rw [hinum, Function.update_self]
      exact ⟨Nat.zero_le _, fun bn hbn => absurd hbn (Nat.not_lt_zero _)⟩
    · rw [Function.update_of_ne hinum]
      have hold : Used sb fs i := (hall.used i).mp ((hused i).mp hi)
      rw [hall.inum] at hinum
      rw [hall.inodes i hold.2.1 hinum]
      simp only [hall.refs i _ hold hinum]
      exact hm i hold
  refine ⟨_, by simp only [itrunc, hdirect, hindirect, bind, Except.bind]; rfl,
    (iupdate_spec hsettled hlive3).1, Mapped.iupdate hsettled hlive3 hmapped, ?_, ?_, ?_, ?_⟩
  · show (last.setD ip _).inode = _
    rw [Store.setD, hall.entry]
    simp only [Store.setInode]
    rw [hall.table]
    simp [Store.setD, Store.setInode, hempty]
  · intro i hi hne
    rw [← hall.inum] at hne
    rw [(iupdate_spec hsettled hlive3).2.1,
      inodes_setD hlast.table.unique hlive''.ref hlive''.valid,
      Function.update_of_ne hne, hall.inodes i hi (by rwa [hall.inum] at hne)]
  · have hblock : ((last.setD ip { (last.inode ip).d with size := 0 }).inode ip).inum =
        (fs.inode ip).inum := by
      rw [← hall.inum]
      simp [Store.setD, Store.setInode]
    refine ((hkeeps.trans hkeeps').mono fun _ h => h.1).trans (keeps_setBlock (fun h => h.2 ?_) _)
    rw [hblock]
  · intro i hi
    have hd : ((last.setD ip { (last.inode ip).d with size := 0 }).inode ip).d =
        { (fs.inode ip).d with size := 0, addrs := fun _ => 0 } := by
      simp only [Store.setD, Store.setInode, Function.update_self, hempty]
      rw [hall.entry]
    have hinum : ((last.setD ip { (last.inode ip).d with size := 0 }).inode ip).inum =
        (fs.inode ip).inum := by
      rw [← hall.inum]
      simp [Store.setD, Store.setInode]
    have hold : diskInode sb last.disk i = diskInode sb fs.disk i := by
      unfold diskInode
      rw [(hkeeps.trans hkeeps') _ fun h => Nat.not_le.mpr (hlast.wf.iblock_lt hi) h.1]
    rw [diskInode_iupdate (hsettled.table.valid ip hlive3.ref hlive3.valid).1, hd, hinum]
    by_cases hii : i = (fs.inode ip).inum
    · rw [if_pos hii, hii, Function.update_self]
    · rw [if_neg hii, Function.update_of_ne hii]
      exact hold

end Itrunc

end Xv6.Fs
