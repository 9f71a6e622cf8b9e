import Xv6.Fs.Calls
import Xv6.Log.Code
import Mathlib.Data.Finset.Card
import Mathlib.Order.Interval.Finset.Nat

/-! `ireclaim`: at boot, before any process runs, every inode without a link is
freed, one transaction for each. The scan reads inode blocks that the calls it
makes rewrite; each of them changes one inode, the bit map, and nothing else. -/
namespace Xv6.Fs

open Lib

inductive BootPanic where
  | invalidFileSystem
  | tooBigATransaction
  | inode (e : Panic)
  deriving DecidableEq

def Dinode.Orphan (d : Dinode) : Prop := d.type ≠ 0 ∧ d.nlink = 0

instance (d : Dinode) : Decidable d.Orphan := inferInstanceAs (Decidable (_ ∧ _))

/-- `log_write` for each of these blocks in turn, from a header that lists `lh`;
`none` for its panic. -/
def logWrites (lh : List Nat) : List Nat → Option (List Nat)
  | [] => some lh
  | b :: rest => if lh.length ≥ logBlocks then none else logWrites (Log.absorb lh b) rest

variable (sb : Superblock)

/-- The blocks that `itrunc` passes to `log_write`: one bit map block for each
block it frees, and the inode's own. -/
def itruncLog (fs : Store) (ip : Ptr) : List Nat :=
  let d := (fs.inode ip).d
  let direct := (List.range nDirect).map d.addrs
  let indirect := if d.addrs nDirect = 0 then [] else
    (List.range nIndirect).map (entry (fs.disk (d.addrs nDirect))) ++ [d.addrs nDirect]
  ((direct ++ indirect).filter (· ≠ 0)).map sb.bblock ++ [sb.iblock (fs.inode ip).inum]

def iputLog (fs : Store) (ip : Ptr) : List Nat :=
  let inode := fs.inode ip
  if inode.ref = 1 ∧ inode.valid ∧ inode.d.nlink = 0 then
    itruncLog sb fs ip ++ [sb.iblock inode.inum]
  else []

/-- One iteration of the loop of `ireclaim`. Nothing else runs, so `begin_op`
finds the log empty. -/
def reclaimInode (fs : Store) (inum : Nat) : Except BootPanic Store :=
  if (diskInode sb fs.disk inum).Orphan then do
    let (ip, fs) ← (iget fs inum).mapError .inode
    let fs ← (ilock sb fs ip).mapError .inode
    match logWrites [] (iputLog sb fs ip) with
    | none => .error .tooBigATransaction
    | some _ => (iput sb fs ip).mapError .inode
  else .ok fs

def ireclaim (fs : Store) : Except BootPanic Store :=
  (List.range' 1 (sb.ninodes - 1)).foldlM (reclaimInode sb) fs

variable {sb} {fs : Store} {ip : Ptr}

def Idle (fs : Store) : Prop := ∀ ip, (fs.inode ip).ref = 0

theorem Idle.inodes (h : Idle fs) : inodes sb fs = diskInode sb fs.disk := by
  funext i
  rcases Overlay.sees_view (fun ip => (fs.inode ip).live) (diskInode sb fs.disk) i with
    ⟨ip, hip⟩ | ⟨-, hview⟩
  · obtain ⟨href, -⟩ := live_eq_some.mp hip
    rw [h ip] at href
    omega
  · exact hview.symm

section LogWrites

theorem logWrites_ok {blocks : Finset Nat} (hcard : blocks.card < logBlocks) :
    ∀ {logged lh : List Nat}, lh.Nodup → (∀ b ∈ lh, b ∈ blocks) → (∀ b ∈ logged, b ∈ blocks) →
      ∃ lh', logWrites lh logged = some lh' := by
  intro logged
  induction logged with
  | nil => exact fun _ _ _ => ⟨_, rfl⟩
  | cons b rest ih =>
    intro lh hnodup hlh hlogged
    have hroom : lh.length < logBlocks := by
      have hle : lh.toFinset.card ≤ blocks.card :=
        Finset.card_le_card fun x hx => hlh x (List.mem_toFinset.mp hx)
      rw [List.toFinset_card_of_nodup hnodup] at hle
      omega
    rw [logWrites, if_neg (Nat.not_le.mpr hroom)]
    refine ih (Log.nodup_absorb hnodup b) (fun x hx => ?_) fun x hx =>
      hlogged x (List.mem_cons_of_mem _ hx)
    rcases Log.mem_absorb.mp hx with hx | rfl
    · exact hlh x hx
    · exact hlogged x List.mem_cons_self

end LogWrites

section Reclaim

variable {inum : Nat} (hc : Settled sb fs)
include hc

theorem mem_itruncLog (hlive : Live fs ip) {b : Nat} (hb : b ∈ itruncLog sb fs ip) :
    sb.Bitmap b ∨ b = sb.iblock (fs.inode ip).inum := by
  have hinode := hlive.inodes hc.table
  have hused := hlive.used hc.table
  have hblock : ∀ slot, blockRef sb fs (fs.inode ip).inum slot ≠ 0 →
      sb.Bitmap (sb.bblock (blockRef sb fs (fs.inode ip).inum slot)) := by
    intro slot hslot
    have hholds : Holds sb fs (fun _ _ => False) ((fs.inode ip).inum, slot) _ :=
      ⟨hused, rfl, hslot, id⟩
    exact sb.bitmap_bblock (hc.range hholds).2
  have haddr : ∀ k, (fs.inode ip).d.addrs k ≠ 0 →
      sb.Bitmap (sb.bblock ((fs.inode ip).d.addrs k)) := by
    intro k hk
    have := hblock (.addr k)
    simp only [blockRef, Dinode.refs, hinode] at this
    exact this hk
  simp only [itruncLog, List.mem_append, List.mem_map, List.mem_filter, List.mem_singleton,
    decide_eq_true_eq] at hb
  rcases hb with ⟨x, ⟨⟨k, -, rfl⟩ | hx, hpos⟩, rfl⟩ | rfl
  · exact Or.inl (haddr k hpos)
  · left
    split at hx
    · cases hx
    · rename_i hindirect
      rcases List.mem_append.mp hx with hx | hx
      · obtain ⟨j, hj, rfl⟩ := List.mem_map.mp hx
        have hentry := hblock (.entry j)
        simp only [blockRef, Dinode.refs, hinode, hindirect, false_or,
          Nat.not_le.mpr (List.mem_range.mp hj), if_false] at hentry
        exact hentry hpos
      · rw [List.mem_singleton.mp hx]
        exact haddr nDirect hindirect
  · exact Or.inr rfl

theorem iputLog_fits (hsmall : sb.size / bpb + 2 < logBlocks) (hlive : Live fs ip) :
    ∃ lh, logWrites [] (iputLog sb fs ip) = some lh := by
  let blocks := insert (sb.iblock (fs.inode ip).inum) (Finset.Ico sb.bmapstart sb.dataStart)
  have hcard : blocks.card < logBlocks := by
    have hsize : sb.dataStart - sb.bmapstart = sb.size / bpb + 1 := by
      rw [Superblock.dataStart, Nat.add_assoc, Nat.add_sub_cancel_left]
    calc
      blocks.card ≤ (Finset.Ico sb.bmapstart sb.dataStart).card + 1 := Finset.card_insert_le _ _
      _ = sb.size / bpb + 2 := by rw [Nat.card_Ico, hsize]
      _ < logBlocks := hsmall
  have hmem : ∀ b, sb.Bitmap b ∨ b = sb.iblock (fs.inode ip).inum → b ∈ blocks := by
    rintro b (hb | rfl)
    · exact Finset.mem_insert_of_mem (Finset.mem_Ico.mpr hb)
    · exact Finset.mem_insert_self _ _
  refine logWrites_ok hcard List.nodup_nil (fun b hb => by cases hb) fun b hb => hmem b ?_
  unfold iputLog at hb
  dsimp only at hb
  split at hb
  · rcases List.mem_append.mp hb with hb | hb
    · exact mem_itruncLog hc hlive hb
    · exact Or.inr (List.mem_singleton.mp hb)
  · cases hb

variable (hm : Mapped sb fs) (hidle : Idle fs)
include hm hidle

theorem lock_idle (hlow : 1 ≤ inum) (hhigh : inum < sb.ninodes)
    (htype : (diskInode sb fs.disk inum).type ≠ 0) :
    ∃ ip mid locked, iget fs inum = .ok (ip, mid) ∧ ilock sb mid ip = .ok locked ∧
      locked = fs.setInode ip ⟨inum, 1, true, diskInode sb fs.disk inum⟩ ∧
      Settled sb locked ∧ Mapped sb locked := by
  obtain ⟨ip, higet⟩ : ∃ ip, iget fs inum =
      .ok (ip, fs.setInode ip { fs.inode ip with inum := inum, ref := 1, valid := false }) := by
    have hmiss : (List.finRange ninode).find? (fun ip => 0 < (fs.inode ip).ref ∧
        (fs.inode ip).inum = inum) = none := by
      rw [List.find?_eq_none]
      intro ip _
      simp [hidle ip]
    unfold iget
    rw [hmiss]
    cases hempty : (List.finRange ninode).find? fun ip => (fs.inode ip).ref = 0 with
    | some ip => exact ⟨ip, rfl⟩
    | none =>
      exact absurd (decide_eq_true (hidle firstEntry))
        (List.find?_eq_none.mp hempty firstEntry (List.mem_finRange _))
  rcases iget_spec hc hm hlow hhigh htype with hfull | ⟨jp, mid, heq, hmid, hmapped⟩
  · rw [higet] at hfull
    cases hfull
  · rw [higet] at heq
    cases heq
    have href : 0 < ((fs.setInode ip
        { fs.inode ip with inum := inum, ref := 1, valid := false }).inode ip).ref := by
      simp [Store.setInode]
    obtain ⟨locked, hilock, hlocked, hmapped'⟩ := ilock_spec hmid hmapped href
    refine ⟨ip, _, locked, higet, hilock, ?_, hlocked, hmapped'⟩
    simp only [ilock, Store.setInode, Function.update_self, htype] at hilock
    simp only [Store.setInode]
    injection hilock with hilock
    rw [← hilock]
    simp

theorem reclaimInode_spec (hsmall : sb.size / bpb + 2 < logBlocks) (hlow : 1 ≤ inum)
    (hhigh : inum < sb.ninodes) (horphan : (diskInode sb fs.disk inum).Orphan) :
    ∃ fs', reclaimInode sb fs inum = .ok fs' ∧ Settled sb fs' ∧ Mapped sb fs' ∧ Idle fs' ∧
      (diskInode sb fs'.disk inum).type = 0 ∧
      (∀ i, i < sb.ninodes → i ≠ inum → diskInode sb fs'.disk i = diskInode sb fs.disk i) ∧
      Keeps sb.Data fs fs' := by
  obtain ⟨ip, mid, locked, higet, hilock, hlocked, hsettled, hmapped⟩ :=
    lock_idle hc hm hidle hlow hhigh horphan.1
  have hentry : locked.inode ip = ⟨inum, 1, true, diskInode sb fs.disk inum⟩ := by
    simp [hlocked, Store.setInode]
  have hlive : Live locked ip := by
    constructor <;> simp [hentry]
  obtain ⟨lh, hlog⟩ := iputLog_fits hsettled hsmall hlive
  obtain ⟨fs', hiput, hsettled', hmapped', ⟨x, hx, htable⟩, htype, hothers, hkeeps, -⟩ :=
    iput_free_spec hsettled hmapped hlive (by rw [hentry]) (by rw [hentry]; exact horphan.2)
  have hidle' : Idle fs' := by
    intro jp
    rw [htable, hlocked]
    by_cases hjp : jp = ip
    · simp [Store.setInode, hjp, hx]
    · simp [Store.setInode, hjp, hidle jp]
  -- the entry that was locked said what the disk says
  have hsame : inodes sb locked = diskInode sb fs.disk := by
    rw [← hidle.inodes, hlocked]
    refine inodes_setInode_of_clean hc.table.unique (fun e he => ?_) fun e he => ?_
    · obtain ⟨href, -⟩ := live_eq_some.mp he
      rw [hidle ip] at href
      omega
    · obtain ⟨-, -, rfl⟩ := live_eq_some.mp he
      refine ⟨rfl, fun jp _ href => ?_⟩
      rw [hidle jp] at href
      omega
  have hdisk : locked.disk = fs.disk := by rw [hlocked]; rfl
  simp only [hentry, hidle'.inodes, hsame] at htype hothers
  refine ⟨fs', ?_, hsettled', hmapped', hidle', htype, hothers, ?_⟩
  · unfold reclaimInode
    rw [if_pos horphan]
    simp [higet, hilock, hlog, hiput, Except.mapError, bind, Except.bind]
  · refine (keeps_of_disk hdisk).trans (hkeeps.mono fun b hb => ?_)
    rw [hentry]
    exact hc.wf.outside_data hhigh hb

end Reclaim

structure Swept (sb : Superblock) (fs₀ : Store) (k : Nat) (fs : Store) : Prop where
  settled : Settled sb fs
  mapped : Mapped sb fs
  idle : Idle fs
  freed : ∀ i, 1 ≤ i → i < k → i < sb.ninodes → (diskInode sb fs₀.disk i).Orphan →
    (diskInode sb fs.disk i).type = 0
  kept : ∀ i, i < sb.ninodes → ¬(diskInode sb fs₀.disk i).Orphan →
    diskInode sb fs.disk i = diskInode sb fs₀.disk i
  ahead : ∀ i, k ≤ i → i < sb.ninodes → diskInode sb fs.disk i = diskInode sb fs₀.disk i
  data : Keeps sb.Data fs₀ fs

theorem Swept.step {fs₀ : Store} {k : Nat} (h : Swept sb fs₀ k fs)
    (hsmall : sb.size / bpb + 2 < logBlocks) (hlow : 1 ≤ k) (hhigh : k < sb.ninodes) :
    ∃ fs', reclaimInode sb fs k = .ok fs' ∧ Swept sb fs₀ (k + 1) fs' := by
  by_cases horphan : (diskInode sb fs.disk k).Orphan
  · obtain ⟨fs', heq, hsettled, hmapped, hidle, htype, hothers, hdata⟩ :=
      reclaimInode_spec h.settled h.mapped h.idle hsmall hlow hhigh horphan
    refine ⟨fs', heq, hsettled, hmapped, hidle, fun i hi hik hmax hfreed => ?_,
      fun i hmax hkept => ?_, fun i hik hmax => ?_, h.data.trans hdata⟩
    · by_cases hk : i = k
      · rwa [hk]
      · rw [hothers i hmax hk]
        exact h.freed i hi (by omega) hmax hfreed
    · have hk : i ≠ k := by
        rintro rfl
        rw [h.ahead i (Nat.le_refl i) hmax] at horphan
        exact hkept horphan
      rw [hothers i hmax hk, h.kept i hmax hkept]
    · rw [hothers i hmax (by omega), h.ahead i (by omega) hmax]
  · refine ⟨fs, if_neg horphan, { h with
      freed := fun i hi hik hmax hfreed => ?_
      ahead := fun i hik hmax => h.ahead i (by omega) hmax }⟩
    have hk : i ≠ k := by
      rintro rfl
      rw [h.ahead i (Nat.le_refl i) hmax] at horphan
      exact horphan hfreed
    exact h.freed i hi (by omega) hmax hfreed

theorem ireclaim_spec (hsmall : sb.size / bpb + 2 < logBlocks) (hc : Settled sb fs)
    (hm : Mapped sb fs) (hidle : Idle fs) :
    ∃ fs', ireclaim sb fs = .ok fs' ∧ Swept sb fs (max 1 sb.ninodes) fs' :=
  foldlM_range'_ok (Swept sb fs)
    ⟨hc, hm, hidle, fun i hi hlt => by omega, fun _ _ _ => rfl, fun _ _ _ => rfl, Keeps.refl _ fs⟩
    fun _ _ hlow hhigh h => h.step hsmall hlow hhigh

end Xv6.Fs
