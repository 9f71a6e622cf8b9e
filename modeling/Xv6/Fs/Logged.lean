import Mathlib.Data.Finset.Card
import Xv6.Fs.Content

/-! Which blocks a write hands to `log_write`. Every block logged by `bmap` belongs to a
slot that was empty before, is the bit map block of one that does, or is the file's
indirect block; counting slots is what bounds the log space that a call needs. -/
namespace Xv6.Fs

open Lib

section Code

variable (sb : Superblock)

def ballocLogs (fs : Store) : List Nat :=
  match ballocScan sb fs.disk with
  | some (k, bi) => [sb.bblock (k * bpb), k * bpb + bi]
  | none => []

def bmapDirectLogs (fs : Store) (ip : Ptr) (bn : Nat) : List Nat :=
  if (fs.inode ip).d.addrs bn = 0 then ballocLogs sb fs else []

def bmapEntryLogs (fs : Store) (addr bn : Nat) : List Nat :=
  if entry (fs.disk addr) bn = 0 then
    ballocLogs sb fs ++ if (balloc sb fs).1 = 0 then [] else [addr]
  else []

def bmapLogs (fs : Store) (ip : Ptr) (bn : Nat) : List Nat :=
  if bn < nDirect then bmapDirectLogs sb fs ip bn
  else
    let (addr, fs') := bmapDirect sb fs ip nDirect
    bmapDirectLogs sb fs ip nDirect ++
      if addr = 0 then [] else bmapEntryLogs sb fs' addr (bn - nDirect)

/-- The loop of `writei`: a block is logged when all of its bytes were copied. -/
def writeLoopLogs (ip : Ptr) (src : Source) (n : Nat) : Nat → Nat → Nat → Store → List Nat
  | 0, _, _, _ => []
  | fuel + 1, tot, off, fs =>
      if tot < n then
        match bmap sb fs ip (off / bsize) with
        | .error _ => []
        | .ok (addr, fs') =>
            bmapLogs sb fs ip (off / bsize) ++
              if addr = 0 then []
              else
                let m := min (n - tot) (bsize - off % bsize)
                let (data, copied) := eitherCopyin src (fs'.disk addr) (off % bsize) tot m
                if copied then
                  addr :: writeLoopLogs ip src n fuel (tot + m) (off + m) (fs'.setBlock addr data)
                else []
      else []

/-- The blocks that `writei` logs, the last one in `iupdate`. -/
def writeiLogs (fs : Store) (ip : Ptr) (src : Source) (off n : Nat) : List Nat :=
  let d := (fs.inode ip).d
  if off > d.size ∨ (off + n) % 2 ^ 32 < off then []
  else if (off + n) % 2 ^ 32 > maxFile * bsize then []
  else writeLoopLogs sb ip src n n 0 off fs ++ [sb.iblock (fs.inode ip).inum]

end Code

variable {sb : Superblock} {fs fs' fs'' : Store} {ip : Ptr} {src : Source} {n x i : Nat}

structure Filled (sb : Superblock) (fs fs' : Store) (i : Nat) (slot : RefSlot)
    (x : Nat) : Prop where
  empty : blockRef sb fs i slot = 0
  filled : blockRef sb fs' i slot ≠ 0
  block : x = blockRef sb fs' i slot ∨ x = sb.bblock (blockRef sb fs' i slot)

theorem Filled.later {slot : RefSlot} (h : Filled sb fs fs' i slot x) (hi : Used sb fs' i)
    (hgrows : Grows sb fs' fs'') : Filled sb fs fs'' i slot x := by
  have hsame := hgrows.refs i slot hi h.filled
  exact ⟨h.empty, by rw [hsame]; exact h.filled, by rw [hsame]; exact h.block⟩

theorem Filled.earlier {slot : RefSlot} (h : Filled sb fs' fs'' i slot x) (hi : Used sb fs i)
    (hgrows : Grows sb fs fs') : Filled sb fs fs'' i slot x := by
  refine ⟨?_, h.filled, h.block⟩
  by_contra hpos
  have hsame := hgrows.refs i slot hi hpos
  exact hpos (hsame.symm.trans h.empty)

section Bmap

variable (hc : Settled sb fs)
include hc

theorem mem_ballocLogs (h : x ∈ ballocLogs sb fs) :
    (balloc sb fs).1 ≠ 0 ∧ (x = (balloc sb fs).1 ∨ x = sb.bblock (balloc sb fs).1) := by
  rcases ballocScan_cases sb fs.disk with ⟨b, hb, hfree, hscan⟩ | hscan
  · have hblockno : b / bpb * bpb + b % bpb = b := Nat.div_add_mod' b bpb
    have hbblock : sb.bblock (b / bpb * bpb) = sb.bblock b := by
      unfold Superblock.bblock
      rw [Nat.mul_div_cancel _ (by decide : 0 < bpb)]
    have hpos : b ≠ 0 := by
      rintro rfl
      have hzero := hc.reserved 0 (Nat.lt_trans hc.wf.bmapstart_pos sb.bmapstart_lt_dataStart)
      rw [hfree] at hzero
      cases hzero
    simp only [ballocLogs, hscan, hbblock, hblockno, List.mem_cons, List.not_mem_nil, or_false] at h
    simp only [balloc, hscan, hblockno]
    exact ⟨hpos, h.symm⟩
  · simp [ballocLogs, hscan] at h

variable (hlive : Live fs ip)
include hlive

theorem mem_bmapDirectLogs {k b : Nat} (hk : k ≤ nDirect) (hmap : bmapDirect sb fs ip k = (b, fs'))
    (h : x ∈ bmapDirectLogs sb fs ip k) : Filled sb fs fs' (fs.inode ip).inum (.addr k) x := by
  obtain ⟨b', mid, heq, -, -, -, -, hslot⟩ := bmapDirect_spec hc hlive hk
  rw [hmap] at heq
  cases heq
  unfold bmapDirectLogs at h
  split at h
  · rename_i hzero
    obtain ⟨hpos, hx⟩ := mem_ballocLogs hc h
    have hb : b = (balloc sb fs).1 := by
      rw [bmapDirect, if_pos hzero] at hmap
      simp only [hpos, if_false] at hmap
      exact (congrArg Prod.fst hmap).symm
    have hempty : blockRef sb fs (fs.inode ip).inum (.addr k) = 0 := by
      show (inodes sb fs _).addrs k = 0
      rwa [hlive.inodes hc.table]
    rw [← hb] at hpos hx
    exact ⟨hempty, by rw [hslot hpos]; exact hpos, by rw [hslot hpos]; exact hx⟩
  · cases h

theorem mem_bmapEntryLogs {k b : Nat} (hk : k < nIndirect)
    (hpos : (fs.inode ip).d.addrs nDirect ≠ 0)
    (hmap : bmapEntry sb fs ((fs.inode ip).d.addrs nDirect) k = (b, fs'))
    (h : x ∈ bmapEntryLogs sb fs ((fs.inode ip).d.addrs nDirect) k) :
    Filled sb fs fs' (fs.inode ip).inum (.entry k) x ∨
      x ≠ 0 ∧ x = blockRef sb fs' (fs.inode ip).inum (.addr nDirect) := by
  have hinode := hlive.inodes hc.table
  obtain ⟨b', mid, heq, -, hextends, -, -, hslot⟩ := bmapEntry_spec hc hlive hk hpos
  rw [hmap] at heq
  cases heq
  unfold bmapEntryLogs at h
  split at h
  · rename_i hzero
    rcases List.mem_append.mp h with h | h
    · obtain ⟨hnew, hx⟩ := mem_ballocLogs hc h
      have hb : b = (balloc sb fs).1 := by
        rw [bmapEntry, if_pos hzero] at hmap
        simp only [hnew, if_false] at hmap
        exact (congrArg Prod.fst hmap).symm
      have hempty : blockRef sb fs (fs.inode ip).inum (.entry k) = 0 := by
        simp [blockRef, Dinode.refs, hinode, hzero]
      rw [← hb] at hnew hx
      exact Or.inl ⟨hempty, by rw [hslot hnew]; exact hnew, by rw [hslot hnew]; exact hx⟩
    · split at h
      · cases h
      · have hindirect : blockRef sb fs (fs.inode ip).inum (.addr nDirect) =
            (fs.inode ip).d.addrs nDirect := by
          show (inodes sb fs _).addrs nDirect = _
          rw [hinode]
        have hx := List.mem_singleton.mp h
        refine Or.inr ⟨by rwa [hx], hx.trans ?_⟩
        rw [hextends.refs _ _ (hlive.used hc.table) (by rwa [hindirect]), hindirect]
  · cases h

theorem mem_bmapLogs {bn b : Nat} (hbn : bn < maxFile) (hmap : bmap sb fs ip bn = .ok (b, fs'))
    (h : x ∈ bmapLogs sb fs ip bn) :
    Filled sb fs fs' (fs.inode ip).inum (fileSlot bn) x ∨
      Filled sb fs fs' (fs.inode ip).inum (.addr nDirect) x ∨
      x ≠ 0 ∧ x = blockRef sb fs' (fs.inode ip).inum (.addr nDirect) := by
  have hused := hlive.used hc.table
  unfold bmap at hmap
  unfold bmapLogs at h
  unfold fileSlot
  by_cases hdirect : bn < nDirect
  · rw [if_pos hdirect] at hmap h ⊢
    exact Or.inl (mem_bmapDirectLogs hc hlive (Nat.le_of_lt hdirect) (Except.ok.inj hmap) h)
  · have hk : bn - nDirect < nIndirect := by
      unfold maxFile at hbn
      omega
    rw [if_neg hdirect, if_pos hk] at hmap
    rw [if_neg hdirect] at h ⊢
    obtain ⟨addr, mid, heq, hmid, hextends, -, -, haddr⟩ :=
      bmapDirect_spec hc hlive (Nat.le_refl nDirect)
    simp only [heq] at hmap h
    by_cases hzero : addr = 0
    · rw [if_pos hzero] at hmap h
      cases hmap
      rw [List.append_nil] at h
      exact Or.inr (Or.inl (mem_bmapDirectLogs hc hlive (Nat.le_refl _) heq h))
    · rw [if_neg hzero] at hmap h
      have hlive' := hextends.toGrows.live hlive
      have hinum := (hextends.inode ip).2.1
      have hindirect : (mid.inode ip).d.addrs nDirect = addr := by
        rw [← hlive'.inodes hmid.table, hinum]
        exact haddr hzero
      have hentry := Except.ok.inj hmap
      rw [← hindirect] at hentry
      obtain ⟨b', last, heq', -, hextends', -⟩ := bmapEntry_spec hmid hlive' hk (by rwa [hindirect])
      rw [hentry] at heq'
      cases heq'
      rcases List.mem_append.mp h with h | h
      · have hfilled := mem_bmapDirectLogs hc hlive (Nat.le_refl _) heq h
        exact Or.inr (Or.inl (hfilled.later ((hextends.used _).mpr hused) hextends'.toGrows))
      · rw [← hindirect] at h
        rcases mem_bmapEntryLogs hmid hlive' hk (by rwa [hindirect]) hentry h with hfilled | hx
        · rw [hinum] at hfilled
          exact Or.inl (hfilled.earlier hused hextends.toGrows)
        · rw [hinum] at hx
          exact Or.inr (Or.inr hx)

end Bmap

section Loop

/-- A block that a write to bytes `lo` to `hi` of file `i` may have logged, next to the
inode's: one that holds some of these bytes, the bit map block of one that was allocated
for them, the indirect block or its bit map block. -/
def MayLog (sb : Superblock) (fs fs' : Store) (i lo hi x : Nat) : Prop :=
  x = blockRef sb fs' i (.addr nDirect) ∨ x = sb.bblock (blockRef sb fs' i (.addr nDirect)) ∨
  ∃ bn, lo / bsize ≤ bn ∧ bn * bsize < hi ∧ (x = blockRef sb fs' i (fileSlot bn) ∨
    x = sb.bblock (blockRef sb fs' i (fileSlot bn)) ∧ blockRef sb fs i (fileSlot bn) = 0)

theorem Filled.mayLog {bn lo hi : Nat} (h : Filled sb fs fs' i (fileSlot bn) x)
    (hlo : lo / bsize ≤ bn) (hhi : bn * bsize < hi) : MayLog sb fs fs' i lo hi x :=
  Or.inr (Or.inr ⟨bn, hlo, hhi, h.block.imp_right fun hx => ⟨hx, h.empty⟩⟩)

theorem MayLog.earlier {lo mid hi : Nat} (h : MayLog sb fs' fs'' i mid hi x) (hi' : Used sb fs i)
    (hgrows : Grows sb fs fs') (hlo : lo ≤ mid) : MayLog sb fs fs'' i lo hi x := by
  rcases h with h | h | ⟨bn, hbn, hhi, h⟩
  · exact Or.inl h
  · exact Or.inr (Or.inl h)
  · refine Or.inr (Or.inr ⟨bn, Nat.le_trans (Nat.div_le_div_right hlo) hbn, hhi, h.imp_right ?_⟩)
    rintro ⟨hx, hempty⟩
    refine ⟨hx, ?_⟩
    by_contra hpos
    exact hpos ((hgrows.refs i _ hi' hpos).symm.trans hempty)

theorem mayLog_bmap {bn b lo hi : Nat} (hc : Settled sb fs) (hlive : Live fs ip)
    (hbn : bn < maxFile) (hmap : bmap sb fs ip bn = .ok (b, fs')) (hgrows : Grows sb fs' fs'')
    (hused : Used sb fs' (fs.inode ip).inum) (hlo : lo / bsize ≤ bn) (hhi : bn * bsize < hi)
    (h : x ∈ bmapLogs sb fs ip bn) : MayLog sb fs fs'' (fs.inode ip).inum lo hi x := by
  rcases mem_bmapLogs hc hlive hbn hmap h with hfilled | hfilled | ⟨hpos, hx⟩
  · exact (hfilled.later hused hgrows).mayLog hlo hhi
  · have hblock := (hfilled.later hused hgrows).block
    rcases hblock with hx | hx
    · exact Or.inl hx
    · exact Or.inr (Or.inl hx)
  · rw [hx] at hpos
    exact Or.inl (hx.trans (hgrows.refs _ _ hused hpos).symm)

theorem mem_writeLoopLogs {base : Nat} (hmax : base + n ≤ maxFile * bsize) (fuel : Nat) :
    ∀ {tot : Nat} {fs : Store}, Settled sb fs → Live fs ip →
    MappedBelow sb fs (fs.inode ip).inum (base + tot) → tot ≤ n → n - tot ≤ fuel →
    ∀ {r}, writeLoop sb ip src n fuel tot (base + tot) fs = .ok r →
    ∀ x ∈ writeLoopLogs sb ip src n fuel tot (base + tot) fs,
      MayLog sb fs r.2.2 (fs.inode ip).inum (base + tot) (base + n) x := by
  induction fuel with
  | zero =>
    intro tot fs _ _ _ _ _ r _ x hx
    cases hx
  | succ fuel ih =>
    intro tot fs hc hlive hmapped hle hfuel r hloop x hx
    rw [writeLoop] at hloop
    rw [writeLoopLogs] at hx
    by_cases hmore : tot < n
    · have hbn : (base + tot) / bsize < maxFile := by
        rw [Nat.div_lt_iff_lt_mul (by decide)]
        omega
      obtain ⟨addr, fs', hbmap, hc', hextends, -, -, haddr⟩ := bmap_spec hc hlive hbn
      have hused := hlive.used hc.table
      have hused' := (hextends.used _).mpr hused
      have hbelow : (base + tot) / bsize * bsize < base + n := by
        have := Nat.div_mul_le_self (base + tot) bsize
        omega
      rw [if_pos hmore, hbmap] at hloop hx
      simp only [bind, Except.bind] at hloop
      dsimp only at hx
      by_cases hzero : addr = 0
      · rw [if_pos hzero] at hloop hx
        cases hloop
        rw [List.append_nil] at hx
        exact mayLog_bmap hc hlive hbn hbmap (Grows.refl sb fs') hused' (Nat.le_refl _) hbelow hx
      · rw [if_neg hzero] at hloop hx
        generalize hm : min (n - tot) (bsize - (base + tot) % bsize) = m at hloop hx
        have hmle : m ≤ n - tot ∧ m ≤ bsize - (base + tot) % bsize := by omega
        have hmod : (base + tot) % bsize < bsize := Nat.mod_lt _ (by decide)
        generalize hcopy : eitherCopyin src (fs'.disk addr) ((base + tot) % bsize) tot m = result
          at hloop hx
        obtain ⟨data, copied⟩ := result
        dsimp only at hloop hx
        obtain ⟨hsettled, hgrows, -, -, hrefs, -⟩ :=
          Core.setFileData hc' hused' (haddr hzero) hzero data
        cases copied with
        | false =>
          simp only [Bool.false_eq_true, if_false] at hloop hx
          cases hloop
          rw [List.append_nil] at hx
          exact mayLog_bmap hc hlive hbn hbmap hgrows hused' (Nat.le_refl _) hbelow hx
        | true =>
          simp only [if_true] at hloop hx
          have hall := hextends.toGrows.trans hgrows
          have hlive' := hall.live hlive
          have hinum := (hall.inode ip).2.1
          have hslot : blockRef sb (fs'.setBlock addr data) (fs.inode ip).inum
              (fileSlot ((base + tot) / bsize)) = addr := by
            rw [hrefs _ _ hused', haddr hzero]
          have hmapped' := ((hmapped.grows hused hextends.toGrows).grows hused' hgrows).extend
            (by rw [hslot]; exact hzero) hmle.2
          rw [Nat.add_assoc] at hloop hx hmapped'
          rw [← hinum] at hmapped'
          obtain ⟨tot', extra, last, heq, -, -, -, hstores, -⟩ := @writeLoop_spec sb ip src n base
            hmax fuel (tot + m) _ hsettled hlive' hmapped' (by omega) (by omega)
          have hlast : r.2.2 = last := by
            rw [heq] at hloop
            cases hloop
            rfl
          have hrest := hstores.toGrows
          rcases List.mem_append.mp hx with hx | hx
          · rw [hlast]
            exact mayLog_bmap hc hlive hbn hbmap (hgrows.trans hrest) hused' (Nat.le_refl _)
              hbelow hx
          · rcases List.mem_cons.mp hx with rfl | hx
            · refine Or.inr (Or.inr ⟨(base + tot) / bsize, Nat.le_refl _, hbelow, Or.inl ?_⟩)
              rw [hlast, hrest.refs _ _ ((hall.used _).mpr hused)
                (by rw [hslot]; exact hzero), hslot]
            · have h := ih hsettled hlive' hmapped' (by omega) (by omega) hloop x hx
              rw [hinum] at h
              exact h.earlier hused hall (by omega)
    · rw [if_neg hmore] at hx
      cases hx

end Loop

theorem mem_writeiLogs {off : Nat} (hc : Settled sb fs) (hm : Mapped sb fs) (hlive : Live fs ip)
    (hn : n < 2 ^ 32) :
    writeiLogs sb fs ip src off n = [] ∨ off ≤ (fs.inode ip).d.size ∧
      ∃ fs', ∀ x ∈ writeiLogs sb fs ip src off n, x = sb.iblock (fs.inode ip).inum ∨
        MayLog sb fs fs' (fs.inode ip).inum off (off + n) x := by
  unfold writeiLogs
  dsimp only
  by_cases hrange : off > (fs.inode ip).d.size ∨ (off + n) % 2 ^ 32 < off
  · exact Or.inl (if_pos hrange)
  by_cases hlarge : (off + n) % 2 ^ 32 > maxFile * bsize
  · exact Or.inl ((if_neg hrange).trans (if_pos hlarge))
  have hsize : (fs.inode ip).d.size ≤ maxFile * bsize := by
    rw [← hlive.inodes hc.table]
    exact (hm _ (hlive.used hc.table)).1
  have hbound : maxFile * bsize < 2 ^ 32 := by decide
  have hend : off + n ≤ maxFile * bsize := by omega
  have hmapped := Mapped.below hc hm hlive (by omega : off ≤ (fs.inode ip).d.size)
  obtain ⟨tot, extra, mid, hloop, -⟩ := @writeLoop_spec sb ip src n off hend n 0 fs hc hlive hmapped
    (Nat.zero_le n) (Nat.le_refl n)
  refine Or.inr ⟨by omega, mid, fun x hx => ?_⟩
  rw [if_neg hrange, if_neg hlarge] at hx
  rcases List.mem_append.mp hx with hx | hx
  · exact Or.inr (@mem_writeLoopLogs sb ip src n off hend n 0 fs hc hlive hmapped (Nat.zero_le n)
      (Nat.le_refl n) _ hloop x hx)
  · exact Or.inl (List.mem_singleton.mp hx)

/-- The most that `filewrite` passes to `writei` at a time. -/
def maxChunk : Nat := (maxOpBlocks - 1 - 1 - 2) / 2 * bsize

/-- At most four blocks hold bytes of a chunk; if there are four, the chunk starts inside
the first. -/
theorem chunk_blocks {off bn : Nat} (hn : n ≤ 3 * bsize) (hlo : off / bsize ≤ bn)
    (hhi : bn * bsize < off + n) :
    ∃ k, bn = off / bsize + k ∧ (k < 3 ∨ k = 3 ∧ off % bsize ≠ 0) := by
  obtain ⟨k, rfl⟩ := Nat.exists_eq_add_of_le hlo
  refine ⟨k, rfl, ?_⟩
  have hoff := Nat.div_add_mod' off bsize
  have hmod : off % bsize < bsize := Nat.mod_lt _ (by decide)
  generalize off / bsize = f at *
  generalize off % bsize = o at *
  unfold bsize at *
  omega

/-- A chunk of `filewrite` never needs more log space than one operation may use,
however many bit map blocks there are. -/
theorem write_chunk_fits_log {off : Nat} (h : WellFormed sb fs) (href : 0 < (fs.inode ip).ref)
    (hvalid : (fs.inode ip).valid = true) (hn : n ≤ maxChunk) :
    (writeiLogs sb fs ip src off n).toFinset.card ≤ maxOpBlocks := by
  have hlive : Live fs ip := ⟨href, hvalid⟩
  have hc := h.settled
  have hn : n ≤ 3 * bsize := hn
  have hlt : n < 2 ^ 32 := Nat.lt_of_le_of_lt hn (by decide)
  rcases mem_writeiLogs hc h.mapped hlive hlt with hnone | ⟨hoff, fs', hall⟩
  · rw [hnone]
    decide
  let I := blockRef sb fs' (fs.inode ip).inum (.addr nDirect)
  let D k := blockRef sb fs' (fs.inode ip).inum (fileSlot (off / bsize + k))
  -- a list of at most ten blocks has them all
  suffices ∃ blocks : List Nat, blocks.length ≤ maxOpBlocks ∧
      ∀ x ∈ writeiLogs sb fs ip src off n, x ∈ blocks by
    obtain ⟨blocks, hlen, hblocks⟩ := this
    refine Nat.le_trans (Finset.card_le_card fun x hx => ?_)
      (Nat.le_trans (List.toFinset_card_le blocks) hlen)
    exact List.mem_toFinset.mpr (hblocks x (List.mem_toFinset.mp hx))
  by_cases haligned : off % bsize = 0
  · refine ⟨[sb.iblock (fs.inode ip).inum, I, sb.bblock I, D 0, sb.bblock (D 0), D 1,
      sb.bblock (D 1), D 2, sb.bblock (D 2)], Nat.le_succ 9, fun x hx => ?_⟩
    rcases hall x hx with hx | hx | hx | ⟨bn, hlo, hhi, hx⟩
    · simp [hx]
    · simp [hx, I]
    · simp [hx, I]
    · obtain ⟨k, rfl, hk⟩ := chunk_blocks hn hlo hhi
      have hk : k = 0 ∨ k = 1 ∨ k = 2 := by omega
      rcases hk with rfl | rfl | rfl <;> rcases hx with hx | ⟨hx, -⟩ <;> simp [hx, D]
  · have hmapped : blockRef sb fs (fs.inode ip).inum (fileSlot (off / bsize)) ≠ 0 := by
      refine Mapped.below hc h.mapped hlive hoff _ ?_
      have := Nat.div_add_mod' off bsize
      omega
    refine ⟨[sb.iblock (fs.inode ip).inum, I, sb.bblock I, D 0, D 1, sb.bblock (D 1), D 2,
      sb.bblock (D 2), D 3, sb.bblock (D 3)], Nat.le_refl 10, fun x hx => ?_⟩
    rcases hall x hx with hx | hx | hx | ⟨bn, hlo, hhi, hx⟩
    · simp [hx]
    · simp [hx, I]
    · simp [hx, I]
    · obtain ⟨k, rfl, hk⟩ := chunk_blocks hn hlo hhi
      have hk : k = 0 ∨ k = 1 ∨ k = 2 ∨ k = 3 := by omega
      rcases hk with rfl | rfl | rfl | rfl <;> rcases hx with hx | ⟨hx, hempty⟩
      · simp [hx, D]
      · exact absurd hempty hmapped
      all_goals simp [hx, D]

theorem write_chunk_fits_log_start : (writeiLogs crowdSuperblock crowdStore firstEntry
    (fun _ => some 7) 512 maxChunk).toFinset.card ≤ maxOpBlocks :=
  write_chunk_fits_log wellFormed_crowdStore (by decide) (by decide) (Nat.le_refl _)

end Xv6.Fs
