import Xv6.Fs.Reclaim
import Xv6.Log.Crash

/-! `fsinit` on a disk that was cut off at any point. Commits cut the calls into
transactions, and the disk shows those of them whose header got there; in each
of these images the books are settled, apart from inodes that lost their last
name while somebody had them open. -/
namespace Xv6.Fs

open Lib Lib.Writes

def fsMagic : Nat := 0x10203040

/-- `readsb`, with `sb.magic` first. -/
def readsb (block : Block) : Nat × Superblock :=
  (block.getLE 0 4,
    { size := block.getLE 4 4
      ninodes := block.getLE 12 4
      nlog := block.getLE 16 4
      logstart := block.getLE 20 4
      inodestart := block.getLE 24 4
      bmapstart := block.getLE 28 4 })

def bootTable : Ptr → Inode := fun _ => ⟨0, 0, false, .fresh 0⟩

/-- The buffers agree with the disk when `recover_from_log` is done, so its disk
is what `ireclaim` reads. -/
def fsinit (disk : Disk) : Except BootPanic (Superblock × Store) :=
  let (magic, sb) := readsb (disk 1)
  if magic ≠ fsMagic then .error .invalidFileSystem
  else do
    let fs ← ireclaim sb ⟨Log.recoverDisk sb.logstart disk, bootTable⟩
    pure (sb, fs)

variable (sb : Superblock)

/-- Room for the whole log, and a bit map much smaller than that, as with the
`FSSIZE` and `LOGBLOCKS` of `param.h`. -/
structure Superblock.Sized : Prop where
  log : logBlocks < sb.nlog
  bitmap : sb.size / bpb + 2 < logBlocks

def Written (fs : Store) : Prop :=
  ∀ ip, 0 < (fs.inode ip).ref → (fs.inode ip).valid = true → Clean sb fs ip

/-- Transactions that calls have made, from a disk with an empty log to the
store `fs`. A transaction ends when all that was changed is written, and logs
no block in front of the inodes that the calls have left alone. -/
inductive History (disk : Disk) : List (Log.Transaction sb.logstart) → Store → Prop where
  | start {fs : Store} : fs.disk = disk → WellFormed sb fs → Idle fs →
      readsb (disk 1) = (fsMagic, sb) → Log.headN (disk sb.logstart) = 0 → History disk [] fs
  | commit {txs : List (Log.Transaction sb.logstart)} {fs fs' : Store}
      {steps : List (Store × Call)} {tx : Log.Transaction sb.logstart} : History disk txs fs →
      (calls sb).Path (InContract sb) fs steps fs' → Written sb fs' →
      (∀ b, Log.IsHome sb.logstart b → fs'.disk b = applyAll fs.disk tx.updates b) →
      (∀ update ∈ tx.updates, sb.Head update.1 → fs'.disk update.1 ≠ fs.disk update.1) →
      History disk (txs ++ [tx]) fs'

structure Reclaimed (before after : Disk) : Prop where
  /-- No inode is allocated without a link. -/
  orphans : ∀ i, 1 ≤ i → i < sb.ninodes →
    ¬((diskInode sb after i).type ≠ 0 ∧ (diskInode sb after i).nlink = 0)
  freed : ∀ i, 1 ≤ i → i < sb.ninodes → (diskInode sb before i).type ≠ 0 →
    (diskInode sb before i).nlink = 0 → (diskInode sb after i).type = 0
  /-- The others are as they were. -/
  inodes : ∀ i, 1 ≤ i → i < sb.ninodes →
    ¬((diskInode sb before i).type ≠ 0 ∧ (diskInode sb before i).nlink = 0) →
    diskInode sb after i = diskInode sb before i
  /-- So are the blocks of a file, and what is in them. -/
  content : ∀ i, 1 ≤ i → i < sb.ninodes → (diskInode sb before i).type ≠ 0 →
    (diskInode sb before i).nlink ≠ 0 → ∀ slot,
      (diskInode sb after i).refs after slot = (diskInode sb before i).refs before slot ∧
      ((diskInode sb before i).refs before slot ≠ 0 →
        after ((diskInode sb before i).refs before slot) =
          before ((diskInode sb before i).refs before slot))
  /-- A data block is marked when a file has it, and only then. -/
  bitmap : ∀ b, sb.dataStart ≤ b → b < sb.size → (marked sb after b = true ↔
    ∃ i slot, 1 ≤ i ∧ i < sb.ninodes ∧ (diskInode sb after i).type ≠ 0 ∧
      (diskInode sb after i).refs after slot = b)

variable {sb} {fs fs' : Store}

theorem idle_written (h : Idle fs) : Written sb fs := by
  intro ip href
  rw [h ip] at href
  omega

theorem path_spec {steps : List (Store × Call)} (hc : Settled sb fs) (hm : Mapped sb fs)
    (h : (calls sb).Path (InContract sb) fs steps fs') :
    Settled sb fs' ∧ Mapped sb fs' ∧ Keeps sb.Head fs fs' := by
  refine h.invariant (fun t => Settled sb t ∧ Mapped sb t ∧ Keeps sb.Head fs t)
    ⟨hc, hm, Keeps.refl _ fs⟩ (fun _ => True) ?_ fun _ _ => trivial
  rintro t call u ⟨hc, hm, hkeeps⟩ - henabled hcontract hexec
  have hexec : exec sb t call = .ok u := hexec
  rcases exec_spec hc hm henabled hcontract with ⟨e, herror, -⟩ | ⟨u', hok, hc', hm', hkeeps'⟩
  · rw [hexec] at herror
    cases herror
  · rw [hexec] at hok
    cases hok
    exact ⟨hc', hm', hkeeps.trans hkeeps'⟩

namespace History

variable {disk : Disk} {txs : List (Log.Transaction sb.logstart)}

theorem settled (h : History sb disk txs fs) : Settled sb fs ∧ Mapped sb fs ∧ Written sb fs := by
  induction h with
  | start _ hwf hidle => exact ⟨hwf.settled, hwf.mapped, idle_written hidle⟩
  | commit _ hpath hwritten _ _ ih =>
    obtain ⟨hc, hm, -⟩ := path_spec ih.1 ih.2.1 hpath
    exact ⟨hc, hm, hwritten⟩

theorem boot (h : History sb disk txs fs) :
    readsb (disk 1) = (fsMagic, sb) ∧ Log.headN (disk sb.logstart) = 0 := by
  induction h with
  | start _ _ _ hmagic hclean => exact ⟨hmagic, hclean⟩
  | commit _ _ _ _ _ ih => exact ih

theorem head (h : History sb disk txs fs) :
    ∀ tx ∈ txs, ∀ update ∈ tx.updates, ¬sb.Head update.1 := by
  induction h with
  | start => exact fun tx htx => by cases htx
  | commit hprev hpath _ _ hlogged ih =>
    obtain ⟨hc, hm, -⟩ := hprev.settled
    have hkeeps := (path_spec hc hm hpath).2.2
    intro tx htx update hupdate hhead
    rcases List.mem_append.mp htx with htx | htx
    · exact ih tx htx update hupdate hhead
    · rw [List.mem_singleton.mp htx] at hupdate
      exact hlogged update hupdate hhead (hkeeps _ hhead)

theorem image (h : History sb disk txs fs) {b : Nat} (hb : Log.IsHome sb.logstart b) :
    fs.disk b = Log.applyTransactions sb.logstart disk
      (txs.filter fun tx => !tx.updates.isEmpty) b := by
  induction h with
  | start hdisk => rw [hdisk]; rfl
  | @commit txs _ _ _ tx _ _ _ hdisk _ ih =>
    rw [hdisk b hb, List.filter_append, Log.applyTransactions, List.flatMap_append,
      applyAll_append]
    have hlast : ([tx].filter fun tx => !tx.updates.isEmpty).flatMap (·.updates) = tx.updates := by
      cases hempty : tx.updates <;> simp [hempty]
    rw [hlast]
    exact applyAll_congr _ _ _ _ (Or.inr ih)

theorem committed (h : History sb disk txs fs) (k : Nat) :
    ∃ fs', Settled sb fs' ∧ Mapped sb fs' ∧ Written sb fs' ∧ ∀ b, Log.IsHome sb.logstart b →
      fs'.disk b = Log.applyTransactions sb.logstart disk
        ((txs.filter fun tx => !tx.updates.isEmpty).take k) b := by
  induction h with
  | @start fs hdisk hwf hidle hmagic hclean =>
    exact ⟨fs, hwf.settled, hwf.mapped, idle_written hidle, fun b hb => by rw [hdisk]; simp; rfl⟩
  | @commit txs fs fs' steps tx hprev hpath hwritten hdisk hlogged ih =>
    by_cases hk : k ≤ (txs.filter fun tx => !tx.updates.isEmpty).length
    · rwa [List.filter_append, List.take_append_of_le_length hk]
    · by_cases hall : ((txs ++ [tx]).filter fun tx => !tx.updates.isEmpty).length ≤ k
      · have hnow : History sb disk (txs ++ [tx]) fs' := .commit hprev hpath hwritten hdisk hlogged
        obtain ⟨hc, hm, hw⟩ := hnow.settled
        refine ⟨fs', hc, hm, hw, fun b hb => ?_⟩
        rw [List.take_of_length_le hall]
        exact hnow.image hb
      · have hone : ([tx].filter fun tx => !tx.updates.isEmpty).length ≤ 1 :=
          List.length_filter_le _ _
        rw [List.filter_append, List.length_append] at hall
        omega

end History

section Restart

variable {disk : Disk} (hdisk : ∀ b, sb.inodestart ≤ b → disk b = fs.disk b)
include hdisk

theorem diskInode_restart (i : Nat) : diskInode sb disk i = diskInode sb fs.disk i := by
  rw [diskInode, diskInode, hdisk _ (sb.inodestart_le_iblock i)]

variable (hc : Settled sb fs)
include hc

theorem marked_restart (b : Nat) : marked sb disk b = marked sb fs.disk b := by
  have hstart := hc.wf.inodestart_lt
  have hblock := sb.bmapstart_le_bblock b
  rw [marked, marked, hdisk _ (by omega)]

theorem Core.data_restart {x : Nat × RefSlot} {b : Nat} (h : Holds sb fs (fun _ _ => False) x b) :
    disk b = fs.disk b := by
  have hlow := (hc.range h).1
  have hstart := hc.wf.inodestart_lt
  have hmap := sb.bmapstart_lt_dataStart
  exact hdisk b (by omega)

theorem refs_restart {i : Nat} (hi : Used sb fs i) (slot : RefSlot) :
    (inodes sb fs i).refs disk slot = blockRef sb fs i slot := by
  cases slot with
  | addr k => rfl
  | entry j =>
    by_cases hzero : (inodes sb fs i).addrs nDirect = 0
    · simp [blockRef, Dinode.refs, hzero]
    · simp only [blockRef, Dinode.refs, hc.data_restart hdisk (hc.holds_addr hi hzero)]

theorem settled_restart (hm : Mapped sb fs) (hw : Written sb fs) :
    Settled sb ⟨disk, bootTable⟩ ∧ Mapped sb ⟨disk, bootTable⟩ := by
  have hidle : Idle ⟨disk, bootTable⟩ := fun _ => rfl
  have hfree : ∀ ip, ¬0 < ((⟨disk, bootTable⟩ : Store).inode ip).ref := fun _ => lt_irrefl 0
  have hinodes : inodes sb ⟨disk, bootTable⟩ = inodes sb fs := by
    funext i
    rw [hidle.inodes, diskInode_restart hdisk]
    rcases Overlay.sees_view (fun ip => (fs.inode ip).live) (diskInode sb fs.disk) i with
      ⟨ip, hip⟩ | ⟨-, hview⟩
    · obtain ⟨href, hvalid, heq⟩ := live_eq_some.mp hip
      have hclean := (hw ip href hvalid).eq (hc.table.valid ip href hvalid).1
      rw [← (Prod.mk.inj heq).1, ← hclean, inodes_of_live hc.table.unique href hvalid]
    · exact hview
  have hused : ∀ i, Used sb ⟨disk, bootTable⟩ i ↔ Used sb fs i := by
    intro i
    unfold Used
    rw [hinodes]
  have hrefs : ∀ i slot, Used sb fs i →
      blockRef sb ⟨disk, bootTable⟩ i slot = blockRef sb fs i slot := by
    intro i slot hi
    rw [← refs_restart hdisk hc hi, blockRef, hinodes]
  refine ⟨hc.congr ⟨fun ip _ hip => absurd hip (hfree ip), fun ip hip => absurd hip (hfree ip),
    fun ip hip => absurd hip (hfree ip)⟩ (fun x _ => marked_restart hdisk hc x)
    (holds_congr hused hrefs) hc.entries, fun i hi => ?_⟩
  have hi := (hused i).mp hi
  simp only [hinodes, hrefs i _ hi]
  exact hm i hi

end Restart

theorem Swept.reclaimed {fs₀ : Store} {before : Disk} (h : Swept sb fs₀ (max 1 sb.ninodes) fs)
    (hc : Settled sb fs₀) (hidle : Idle fs₀)
    (hbefore : ∀ b, sb.inodestart ≤ b → before b = fs₀.disk b) : Reclaimed sb before fs.disk where
  orphans i hlow hhigh := by
    by_cases horphan : (diskInode sb fs₀.disk i).Orphan
    · exact fun hleft => hleft.1 (h.freed i hlow (by omega) hhigh horphan)
    · rw [h.kept i hhigh horphan]
      exact horphan
  freed i hlow hhigh htype hnlink := by
    rw [diskInode_restart hbefore] at htype hnlink
    exact h.freed i hlow (by omega) hhigh ⟨htype, hnlink⟩
  inodes i _ hhigh hkept := by
    rw [diskInode_restart hbefore] at hkept ⊢
    exact h.kept i hhigh hkept
  content i hlow hhigh htype hnlink slot := by
    rw [diskInode_restart hbefore] at htype hnlink ⊢
    rw [h.kept i hhigh fun horphan => hnlink horphan.2]
    have hused : Used sb fs₀ i := ⟨hlow, hhigh, by rw [hidle.inodes]; exact htype⟩
    have hrefs := refs_restart hbefore hc hused slot
    have hsame : (diskInode sb fs₀.disk i).refs fs.disk slot = blockRef sb fs₀ i slot := by
      rw [← hidle.inodes]
      cases slot with
      | addr k => rfl
      | entry j =>
        by_cases hzero : (inodes sb fs₀ i).addrs nDirect = 0
        · simp [blockRef, Dinode.refs, hzero]
        · have hlow := (hc.range (hc.holds_addr hused hzero)).1
          simp only [blockRef, Dinode.refs, h.data _ hlow]
    rw [hidle.inodes] at hrefs
    rw [hsame, hrefs]
    refine ⟨rfl, fun hpos => ?_⟩
    have hholds : Holds sb fs₀ (fun _ _ => False) (i, slot) _ := ⟨hused, rfl, hpos, id⟩
    rw [h.data _ (hc.range hholds).1, hc.data_restart hbefore hholds]
  bitmap b hlow hhigh := by
    have howns := h.settled.owns.taken_iff b
    have hpos : b ≠ 0 := by
      have := h.settled.wf.bmapstart_pos
      have := sb.bmapstart_lt_dataStart
      omega
    have htaken : Taken sb fs (fun _ => False) b ↔ marked sb fs.disk b = true :=
      ⟨fun ht => ht.2.2.1, fun hmarked => ⟨hlow, hhigh, hmarked, id⟩⟩
    rw [← htaken, howns]
    constructor
    · rintro ⟨⟨i, slot⟩, ⟨hi, hmax, htype⟩, href, -, -⟩
      rw [h.idle.inodes] at htype
      rw [blockRef, h.idle.inodes] at href
      exact ⟨i, slot, hi, hmax, htype, href⟩
    · rintro ⟨i, slot, hi, hmax, htype, href⟩
      rw [← h.idle.inodes] at htype href
      exact ⟨(i, slot), ⟨hi, hmax, htype⟩, href, hpos, id⟩

/-- Boot-time reclamation. Cut the disk writes of any file-system transactions at
any point, and the recoveries that follow too: `fsinit` then succeeds, no
orphan is left, no other inode and no byte of it has changed since the last
transaction that the disk shows, and the bit map is that of the files left. -/
theorem fsinit_reclaims (hsized : sb.Sized) {disk : Disk} {txs : List (Log.Transaction sb.logstart)}
    (h : History sb disk txs fs) (survived : Nat) (crashes : List Nat) :
    let written := (Log.allCommitWrites sb.logstart (Log.Machine.boot disk) txs).take survived
    let image := Log.applyTransactions sb.logstart disk (Log.committed sb.logstart txs written)
    ∃ fs', fsinit (Log.interrupted sb.logstart (applyAll disk written) crashes) = .ok (sb, fs') ∧
      Reclaimed sb image fs'.disk := by
  intro written image
  obtain ⟨hmagic, hclean⟩ := h.boot
  have hquiet := Log.quiescent_boot sb.logstart hclean
  obtain ⟨mid, hc, hm, hw, hmid⟩ := h.committed (written.countP (Log.isCommitPoint sb.logstart))
  have hwf := hc.wf
  have hlog := hsized.log
  have hafter := hwf.inodes
  have hhome : ∀ b, sb.inodestart ≤ b → Log.IsHome sb.logstart b := fun b hb => Or.inr (by omega)
  have hsuper : Log.IsHome sb.logstart 1 := Or.inl hwf.log
  have hhead : sb.Head 1 := by
    have := hwf.log
    unfold Superblock.Head
    omega
  -- the super block is where it was, and says what it said
  have hrec : Log.Recoverable sb.logstart image (applyAll disk written) :=
    Log.recoverable_survived sb.logstart hquiet txs survived
  have hsteady : Log.Steady sb.logstart 1 (disk 1) (applyAll disk written) :=
    Log.steady_survived hsuper hquiet
      (fun tx htx update hupdate heq => h.head tx htx update hupdate (heq ▸ hhead)) survived
  have hone := (hsteady.interrupted hsuper hrec crashes).1
  have hrecovered := ((hrec.interrupted sb.logstart crashes).recoverDisk sb.logstart).1
  generalize Log.interrupted sb.logstart (applyAll disk written) crashes =
    crashed at hone hrecovered
  have hfsinit : fsinit crashed = (do
      let fs ← ireclaim sb ⟨Log.recoverDisk sb.logstart crashed, bootTable⟩
      pure (sb, fs)) := by
    unfold fsinit
    rw [hone, hmagic]
    rfl
  rw [hfsinit]
  generalize Log.recoverDisk sb.logstart crashed = recovered at hrecovered
  have hdisk : ∀ b, sb.inodestart ≤ b → recovered b = mid.disk b :=
    fun b hb => (hrecovered b (hhome b hb)).trans (hmid b (hhome b hb)).symm
  obtain ⟨hboot, hmapped⟩ := settled_restart hdisk hc hm hw
  obtain ⟨fs', hreclaim, hswept⟩ := ireclaim_spec hsized.bitmap hboot hmapped fun _ => rfl
  refine ⟨fs', ?_, hswept.reclaimed hboot (fun _ => rfl) fun b hb =>
    (hrecovered b (hhome b hb)).symm⟩
  rw [hreclaim]
  rfl

section Sample

def orphanSuperblock : Superblock := ⟨37, 3, 31, 2, 33, 34⟩

def rootInode : Dinode := ⟨1, 0, 0, 1, 0, fun _ => 0⟩

def linkedInode : Dinode := ⟨2, 0, 0, 1, 3, fun i => if i = 0 then 35 else 0⟩

def linkedDisk : Disk := fun b =>
  if b = 1 then
    [(0, fsMagic), (4, 37), (12, 3), (16, 31), (20, 2), (24, 33), (28, 34)].foldl
      (fun block field => block.setLE field.1 4 field.2) (Bytes.zero bsize)
  else if b = 33 then
    writeDinode (writeDinode (Bytes.zero bsize) 1 rootInode) 2 linkedInode
  else if b = 34 then fun i => if i.val < 4 then 0xff else if i.val = 4 then 0x0f else 0
  else Bytes.zero bsize

theorem fits_linkedInode : linkedInode.Fits := by
  refine ⟨by decide, fun i => ?_, fun i hi => if_neg (by omega)⟩
  simp only [linkedInode]
  split <;> decide

theorem diskInode_linkedDisk {i : Nat} (hlow : 1 ≤ i) (hi : i < 3) :
    diskInode orphanSuperblock linkedDisk i = if i = 2 then linkedInode else rootInode := by
  have hroot : rootInode.Fits := ⟨by decide, fun _ => by simp [rootInode], fun _ _ => rfl⟩
  by_cases htwo : i = 2
  · subst htwo
    exact readDinode_writeDinode_self _ fits_linkedInode (by decide)
  · obtain rfl : i = 1 := by omega
    exact (readDinode_writeDinode_of_ne _ _ (by decide)).trans
      (readDinode_writeDinode_self _ hroot (by decide))

theorem wellFormed_linkedDisk : WellFormed orphanSuperblock ⟨linkedDisk, bootTable⟩ := by
  have hidle : Idle ⟨linkedDisk, bootTable⟩ := fun _ => rfl
  have hfree : ∀ ip, ¬0 < ((⟨linkedDisk, bootTable⟩ : Store).inode ip).ref := fun _ => lt_irrefl 0
  have hrefs : ∀ i, Used orphanSuperblock ⟨linkedDisk, bootTable⟩ i → ∀ slot,
      blockRef orphanSuperblock ⟨linkedDisk, bootTable⟩ i slot =
        if i = 2 ∧ slot = .addr 0 then 35 else 0 := by
    intro i hi slot
    rw [blockRef, hidle.inodes, diskInode_linkedDisk hi.1 hi.2.1]
    by_cases htwo : i = 2 <;> cases slot <;>
      simp [htwo, Dinode.refs, linkedInode, rootInode, nDirect]
  have hmarked : ∀ b, b < 37 → (marked orphanSuperblock linkedDisk b = true ↔ b < 36) := by
    decide +kernel
  have hused : Used orphanSuperblock ⟨linkedDisk, bootTable⟩ 2 := by
    refine ⟨by decide, by decide, ?_⟩
    rw [hidle.inodes, diskInode_linkedDisk (by decide) (by decide)]
    decide
  refine ⟨⟨by decide, by decide, by decide, by decide, by decide⟩,
    ⟨fun ip _ hip => absurd hip (hfree ip), fun ip hip => absurd hip (hfree ip),
      fun ip hip => absurd hip (hfree ip)⟩, fun b hb => ?_, fun i j slot other hi hj hpos heq => ?_,
    fun i slot hi hpos => ?_, fun b hlow hhigh hb => ?_, fun i hi => ?_⟩
  · have hb : b < 35 := hb
    exact (hmarked b (by omega)).mpr (by omega)
  · rw [hrefs i hi] at hpos heq
    rw [hrefs j hj] at heq
    split at hpos
    · rename_i hfirst
      rw [if_pos hfirst] at heq
      split at heq
      · rename_i hsecond
        exact ⟨hfirst.1.trans hsecond.1.symm, hfirst.2.trans hsecond.2.symm⟩
      · cases heq
    · exact absurd rfl hpos
  · rw [hrefs i hi] at hpos ⊢
    split at hpos
    · rename_i hslot
      rw [if_pos hslot]
      exact ⟨by decide, by decide, (hmarked 35 (by decide)).mpr (by decide)⟩
    · exact absurd rfl hpos
  · have hlow : 35 ≤ b := hlow
    have := (hmarked b hhigh).mp hb
    refine ⟨2, .addr 0, hused, ?_⟩
    rw [hrefs 2 hused]
    simp
    omega
  · rw [hidle.inodes, diskInode_linkedDisk hi.1 hi.2.1]
    split
    · rename_i htwo
      refine ⟨by decide, fun bn hbn => ?_⟩
      have hbn : bn * 1024 < 3 := hbn
      obtain rfl : bn = 0 := by omega
      rw [hrefs i hi, htwo]
      decide
    · exact ⟨Nat.zero_le _, fun bn hbn => absurd hbn (Nat.not_lt_zero _)⟩

def orphanInode : Dinode := { linkedInode with nlink := 0 }

def openStore (valid : Bool) (d : Dinode) : Store :=
  ⟨linkedDisk, Function.update bootTable firstEntry ⟨2, 1, valid, d⟩⟩

def orphanStore : Store := iupdate orphanSuperblock (openStore true orphanInode) firstEntry

def orphanBlock : Block := writeDinode (linkedDisk 33) 2 orphanInode

@[simp] theorem openStore_inode (valid : Bool) (d : Dinode) :
    (openStore valid d).inode firstEntry = ⟨2, 1, valid, d⟩ := by
  simp [openStore]

@[simp] theorem openStore_setInode (valid valid' : Bool) (d d' : Dinode) :
    (openStore valid d).setInode firstEntry ⟨2, 1, valid', d'⟩ = openStore valid' d' := by
  rw [Store.setInode, openStore, Function.update_idem, openStore]

theorem orphanStore_disk : orphanStore.disk = Function.update linkedDisk 33 orphanBlock := by
  simp only [orphanStore, iupdate, writeInode, openStore_inode]
  rfl

theorem diskInode_orphanStore : diskInode orphanSuperblock orphanStore.disk 2 = orphanInode := by
  have hfits : orphanInode.Fits :=
    ⟨fits_linkedInode.size, fits_linkedInode.addrs, fits_linkedInode.rest⟩
  rw [orphanStore, diskInode_iupdate (by rw [openStore_inode]; exact hfits), openStore_inode]
  exact Function.update_self _ _ _

theorem orphan_path : ∃ steps, (calls orphanSuperblock).Path (InContract orphanSuperblock)
    ⟨linkedDisk, bootTable⟩ steps orphanStore := by
  have hdisk : diskInode orphanSuperblock linkedDisk 2 = linkedInode :=
    diskInode_linkedDisk (by decide) (by decide)
  have hused : (calls orphanSuperblock).enabled ⟨linkedDisk, bootTable⟩ (.iget 2) := by
    refine ⟨by decide, by decide, ?_⟩
    rw [hdisk]
    decide
  have higet : (calls orphanSuperblock).exec ⟨linkedDisk, bootTable⟩ (.iget 2) =
      .ok (openStore false (.fresh 0)) := rfl
  have hheld : (calls orphanSuperblock).enabled (openStore false (.fresh 0))
      (.ilock firstEntry) := by
    simp [calls, enabled]
  have hilock : (calls orphanSuperblock).exec (openStore false (.fresh 0)) (.ilock firstEntry) =
      .ok (openStore true linkedInode) := by
    have hsame : (openStore false (.fresh 0)).disk = linkedDisk := rfl
    have htype : linkedInode.type ≠ 0 := by decide
    simp [calls, exec, ilock, hsame, hdisk, htype]
  have hopen : (calls orphanSuperblock).enabled (openStore true linkedInode)
      (.assign firstEntry 0 0 0) := by
    simp [calls, enabled]
  have hassign : (calls orphanSuperblock).exec (openStore true linkedInode)
      (.assign firstEntry 0 0 0) = .ok (openStore true orphanInode) := by
    simp [calls, exec, Store.setD, orphanInode, linkedInode]
  have hstill : (calls orphanSuperblock).enabled (openStore true orphanInode)
      (.iupdate firstEntry) := by
    simp [calls, enabled]
  exact ⟨_, .cons hused trivial higet <| .cons hheld trivial hilock <|
    .cons hopen trivial hassign <| .cons hstill trivial rfl .nil⟩

theorem orphanStore_written : Written orphanSuperblock orphanStore := by
  intro ip href hvalid
  have hinode : orphanStore.inode = (openStore true orphanInode).inode := rfl
  by_cases hip : ip = firstEntry
  · subst hip
    rw [Clean, hinode, openStore_inode, diskInode_orphanStore]
    exact ⟨rfl, rfl, rfl, rfl, rfl, fun _ _ => rfl⟩
  · simp [hinode, openStore, hip, bootTable] at href

def orphanTransaction : Log.Transaction orphanSuperblock.logstart where
  updates := [(33, orphanBlock)]
  nodup := by simp
  room := by decide
  home := by
    intro update hupdate
    rw [List.mem_singleton.mp hupdate]
    exact Or.inr (by decide)
  word := by simp

theorem orphan_history :
    History orphanSuperblock linkedDisk [orphanTransaction] orphanStore := by
  obtain ⟨steps, hpath⟩ := orphan_path
  refine .commit (.start rfl wellFormed_linkedDisk (fun _ => rfl) (by rfl)
    (by decide +kernel)) hpath
    orphanStore_written (fun b _ => by rw [orphanStore_disk]; rfl) fun update hupdate hhead => ?_
  rw [List.mem_singleton.mp hupdate] at hhead
  exact absurd hhead (lt_irrefl 33)

/-- The writes of the transaction that reach the disk: the log and its header. -/
def orphanWrites : List (Nat × Block) :=
  (Log.allCommitWrites orphanSuperblock.logstart (Log.Machine.boot linkedDisk)
    [orphanTransaction]).take 2

theorem orphan_committed :
    Log.committed orphanSuperblock.logstart [orphanTransaction] orphanWrites =
      [orphanTransaction] := by
  have : orphanWrites.countP (Log.isCommitPoint orphanSuperblock.logstart) = 1 := by
    decide +kernel
  rw [Log.committed, this]
  rfl

end Sample

/-- The power goes when only the log has the transaction, and again in the recovery. -/
theorem fsinit_reclaims_orphan : (diskInode orphanSuperblock linkedDisk 2).nlink = 1 ∧
    (diskInode orphanSuperblock orphanStore.disk 2).Orphan ∧
    ∃ fs, fsinit (Log.interrupted orphanSuperblock.logstart
      (applyAll linkedDisk orphanWrites) [1]) =
      .ok (orphanSuperblock, fs) ∧ (diskInode orphanSuperblock fs.disk 2).type = 0 := by
  have hlinked : (diskInode orphanSuperblock linkedDisk 2).nlink = 1 := by
    rw [diskInode_linkedDisk (by decide) (by decide)]
    rfl
  have horphan : (diskInode orphanSuperblock orphanStore.disk 2).Orphan := by
    rw [diskInode_orphanStore]
    decide
  obtain ⟨fs, hfsinit, hreclaimed⟩ :=
    fsinit_reclaims ⟨by decide, by decide⟩ orphan_history 2 [1]
  have himage : Log.applyTransactions orphanSuperblock.logstart linkedDisk
      (Log.committed orphanSuperblock.logstart [orphanTransaction] orphanWrites) =
        orphanStore.disk := by
    rw [orphan_committed, orphanStore_disk]
    rfl
  change Reclaimed _ (Log.applyTransactions _ _ (Log.committed _ _ orphanWrites)) _ at hreclaimed
  rw [himage] at hreclaimed
  exact ⟨hlinked, horphan, fs, hfsinit,
    hreclaimed.freed 2 (by decide) (by decide) horphan.1 horphan.2⟩

end Xv6.Fs
