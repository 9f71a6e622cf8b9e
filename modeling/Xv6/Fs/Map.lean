import Xv6.Fs.Owner

/-! `bmap` and `writei`: blocks are only added to files. Every step of them
either settles the books at once or leaves a fresh block that the next
assignment settles. -/
namespace Xv6.Fs

open Lib

/-- From `fs` to `fs'` no slot of a file lost its block and no size changed. -/
structure Grows (sb : Superblock) (fs fs' : Store) : Prop where
  inode : ∀ jp, (fs'.inode jp).ref = (fs.inode jp).ref ∧
    (fs'.inode jp).inum = (fs.inode jp).inum ∧ (fs'.inode jp).valid = (fs.inode jp).valid
  used : ∀ i, Used sb fs' i ↔ Used sb fs i
  size : ∀ i, Used sb fs i → (inodes sb fs' i).size = (inodes sb fs i).size
  refs : ∀ i slot, Used sb fs i → blockRef sb fs i slot ≠ 0 →
    blockRef sb fs' i slot = blockRef sb fs i slot

variable {sb : Superblock} {fs fs' fs'' : Store} {ip : Ptr} {dead : Nat → RefSlot → Prop}

theorem fileSlot_injective {bn bm : Nat} (h : fileSlot bn = fileSlot bm) : bn = bm := by
  unfold fileSlot at h
  split at h <;> split at h <;> simp only [RefSlot.addr.injEq, RefSlot.entry.injEq,
    reduceCtorEq] at h <;> omega

theorem Grows.refl (sb : Superblock) (fs : Store) : Grows sb fs fs :=
  ⟨fun _ => ⟨rfl, rfl, rfl⟩, fun _ => Iff.rfl, fun _ _ => rfl, fun _ _ _ _ => rfl⟩

theorem Grows.trans (h : Grows sb fs fs') (h' : Grows sb fs' fs'') : Grows sb fs fs'' where
  inode jp := by
    obtain ⟨href, hinum, hvalid⟩ := h.inode jp
    rw [← href, ← hinum, ← hvalid]
    exact h'.inode jp
  used i := (h'.used i).trans (h.used i)
  size i hi := (h'.size i ((h.used i).mpr hi)).trans (h.size i hi)
  refs i slot hi hslot := by
    have hfirst := h.refs i slot hi hslot
    rw [← hfirst]
    exact h'.refs i slot ((h.used i).mpr hi) (by rwa [hfirst])

theorem Grows.live (h : Grows sb fs fs') (hlive : Live fs ip) : Live fs' ip := by
  obtain ⟨href, -, hvalid⟩ := h.inode ip
  exact ⟨by rw [href]; exact hlive.ref, by rw [hvalid]; exact hlive.valid⟩

theorem Grows.mapped (h : Grows sb fs fs') (hm : Mapped sb fs) : Mapped sb fs' := by
  intro i hi
  have hi := (h.used i).mp hi
  obtain ⟨hsize, hblocks⟩ := hm i hi
  rw [h.size i hi]
  refine ⟨hsize, fun bn hbn => ?_⟩
  rw [h.refs i _ hi (hblocks bn hbn)]
  exact hblocks bn hbn

theorem Grows.fill {b i : Nat} {slot : RefSlot}
    (hinode : ∀ jp, (fs'.inode jp).ref = (fs.inode jp).ref ∧
      (fs'.inode jp).inum = (fs.inode jp).inum ∧ (fs'.inode jp).valid = (fs.inode jp).valid)
    (hused : ∀ j, Used sb fs' j ↔ Used sb fs j)
    (hsize : ∀ j, Used sb fs j → (inodes sb fs' j).size = (inodes sb fs j).size)
    (hempty : blockRef sb fs i slot = 0)
    (hrefs : ∀ j other, Used sb fs j → blockRef sb fs' j other =
      if j = i ∧ other = slot then b else blockRef sb fs j other) :
    Grows sb fs fs' where
  inode := hinode
  used := hused
  size := hsize
  refs j other hj hother := by
    rw [hrefs j other hj, if_neg]
    rintro ⟨rfl, rfl⟩
    exact hother hempty

section Bytes

def byteAt (sb : Superblock) (fs : Store) (i off : Nat) : UInt8 :=
  if blockRef sb fs i (fileSlot (off / bsize)) = 0 then 0
  else (fs.disk (blockRef sb fs i (fileSlot (off / bsize)))).get (off % bsize)

theorem byteAt_congr {i off : Nat}
    (hrefs : blockRef sb fs' i (fileSlot (off / bsize)) = blockRef sb fs i (fileSlot (off / bsize)))
    (hdisk : blockRef sb fs i (fileSlot (off / bsize)) ≠ 0 →
      fs'.disk (blockRef sb fs i (fileSlot (off / bsize))) =
        fs.disk (blockRef sb fs i (fileSlot (off / bsize)))) :
    byteAt sb fs' i off = byteAt sb fs i off := by
  unfold byteAt
  rw [hrefs]
  split
  · rfl
  · rename_i hpos
    rw [hdisk hpos]

/-- From `fs` to `fs'` files were given blocks and these are zero, so that no byte of a
file and no other field of an inode shows it. -/
structure Extends (sb : Superblock) (fs fs' : Store) : Prop extends Grows sb fs fs' where
  fields : ∀ i, Used sb fs i →
    inodes sb fs' i = { inodes sb fs i with addrs := (inodes sb fs' i).addrs }
  bytes : ∀ i off, Used sb fs i → byteAt sb fs' i off = byteAt sb fs i off

theorem Extends.refl (sb : Superblock) (fs : Store) : Extends sb fs fs :=
  ⟨Grows.refl sb fs, fun _ _ => rfl, fun _ _ _ => rfl⟩

theorem Extends.trans (h : Extends sb fs fs') (h' : Extends sb fs' fs'') : Extends sb fs fs'' where
  toGrows := h.toGrows.trans h'.toGrows
  fields i hi := by
    rw [h'.fields i ((h.used i).mpr hi), h.fields i hi]
  bytes i off hi := (h'.bytes i off ((h.used i).mpr hi)).trans (h.bytes i off hi)

theorem Extends.fill {b i : Nat} {slot : RefSlot}
    (hinode : ∀ jp, (fs'.inode jp).ref = (fs.inode jp).ref ∧
      (fs'.inode jp).inum = (fs.inode jp).inum ∧ (fs'.inode jp).valid = (fs.inode jp).valid)
    (hused : ∀ j, Used sb fs' j ↔ Used sb fs j)
    (hfields : ∀ j, Used sb fs j →
      inodes sb fs' j = { inodes sb fs j with addrs := (inodes sb fs' j).addrs })
    (hempty : blockRef sb fs i slot = 0)
    (hrefs : ∀ j other, Used sb fs j → blockRef sb fs' j other =
      if j = i ∧ other = slot then b else blockRef sb fs j other)
    (hzero : fs'.disk b = Bytes.zero bsize)
    (hdata : ∀ j bn, Used sb fs j → blockRef sb fs j (fileSlot bn) ≠ 0 →
      fs'.disk (blockRef sb fs j (fileSlot bn)) = fs.disk (blockRef sb fs j (fileSlot bn))) :
    Extends sb fs fs' where
  toGrows := Grows.fill hinode hused (fun j hj => by rw [hfields j hj]) hempty hrefs
  fields := hfields
  bytes j off hj := by
    by_cases hhere : j = i ∧ fileSlot (off / bsize) = slot
    · -- the byte was 0 for want of a block and is now one of its zeros
      have hold : blockRef sb fs j (fileSlot (off / bsize)) = 0 := by
        rw [hhere.1, hhere.2]
        exact hempty
      have hnew := hrefs j (fileSlot (off / bsize)) hj
      rw [if_pos hhere] at hnew
      unfold byteAt
      rw [hold, hnew, if_pos rfl, hzero, Bytes.get_zero, ite_self]
    · have hsame := hrefs j (fileSlot (off / bsize)) hj
      rw [if_neg hhere] at hsame
      exact byteAt_congr hsame (hdata j _ hj)

theorem Core.data_ne_indirect {spare : Nat → Prop} (hc : Core sb fs spare dead) {i j bn : Nat}
    (hi : Used sb fs i) (hdead : ∀ slot, ¬dead i slot)
    (hslot : blockRef sb fs i (fileSlot bn) ≠ 0) (hj : Used sb fs j) :
    (inodes sb fs j).addrs nDirect ≠ blockRef sb fs i (fileSlot bn) := by
  intro heq
  have hother := hc.holds_addr (k := nDirect) hj (by rwa [heq])
  rw [heq] at hother
  have hholds : Holds sb fs dead (i, fileSlot bn) _ := ⟨hi, rfl, hslot, hdead _⟩
  have hsame := congrArg Prod.snd (hc.owns.unique _ _ _ hother hholds)
  unfold fileSlot at hsame
  split at hsame
  · cases hsame
    omega
  · cases hsame

theorem Core.byteAt_writeInode {spare : Nat → Prop} (hc : Core sb fs spare dead)
    (hdead : ∀ i slot, ¬dead i slot) {inum : Nat} {d : Dinode} (hinum : inum < sb.ninodes)
    (hdisk : fs'.disk = (writeInode sb fs inum d).disk) {i : Nat} (hi : Used sb fs i)
    (hinode : inodes sb fs' i = inodes sb fs i) (off : Nat) :
    byteAt sb fs' i off = byteAt sb fs i off := by
  refine byteAt_congr (hc.blockRef_writeInode hinum hdisk hi hinode _) fun hpos => ?_
  have hholds : Holds sb fs dead (i, fileSlot (off / bsize)) _ := ⟨hi, rfl, hpos, hdead _ _⟩
  have hlow : sb.dataStart ≤ blockRef sb fs i (fileSlot (off / bsize)) := (hc.range hholds).1
  have hblock := hc.wf.iblock_lt hinum
  have hstart := sb.bmapstart_lt_dataStart
  rw [hdisk]
  exact Function.update_of_ne (by omega) ..

end Bytes

section Assign

variable {b k : Nat} (hc : Core sb fs (fun x => x = b) dead) (hb : Fresh sb fs b)
include hc hb

theorem Fresh.lt : b < 2 ^ 32 := by
  have := hb.high
  have := hc.wf.size
  omega

theorem Core.assignAddr (hlive : Live fs ip) (hk : k ≤ nDirect)
    (hzero : (fs.inode ip).d.addrs k = 0) :
    Core sb (fs.setD ip ((fs.inode ip).d.setAddr k b)) (fun _ => False) dead ∧
      Extends sb fs (fs.setD ip ((fs.inode ip).d.setAddr k b)) ∧
      blockRef sb (fs.setD ip ((fs.inode ip).d.setAddr k b)) (fs.inode ip).inum (.addr k) = b := by
  have hinode := hlive.inodes hc.table
  have hused := hlive.used hc.table
  obtain ⟨hfits, htype⟩ := hc.table.valid ip hlive.ref hlive.valid
  have hempty : blockRef sb fs (fs.inode ip).inum (.addr k) = 0 := by
    show (inodes sb fs _).addrs k = 0
    rwa [hinode]
  have hown : ∀ slot, ((fs.inode ip).d.setAddr k b).refs fs.disk slot =
      if slot = .addr k then b else (fs.inode ip).d.refs fs.disk slot := by
    rcases Nat.lt_or_eq_of_le hk with hlt | rfl
    · exact refs_setAddr_of_lt _ _ _ hlt
    · exact refs_setIndirect _ hzero hb.zero
  have hrefs : ∀ j other, Used sb fs j →
      blockRef sb (fs.setD ip ((fs.inode ip).d.setAddr k b)) j other =
        if j = (fs.inode ip).inum ∧ other = .addr k then b else blockRef sb fs j other := by
    intro j other _
    by_cases hj : j = (fs.inode ip).inum
    · subst hj
      rw [blockRef_setD_self hlive hc.table, hown, blockRef, hinode]
      simp
    · rw [blockRef_setD_of_ne hlive hc.table hj, if_neg fun h => hj h.1]
  have huses := used_setD (d := (fs.inode ip).d.setAddr k b) hlive hc.table htype
  refine ⟨hc.settle hb (hc.table.setD (hfits.setAddr hk (Fresh.lt hc hb)) htype)
    (fun _ _ => rfl) huses hused (fun hdead => ?_) hempty hrefs,
    Extends.fill (fun jp => ?_) huses (fun j hj => ?_) hempty hrefs hb.zero
      (fun _ _ _ _ => rfl), ?_⟩
  · obtain ⟨j, hj⟩ := hc.entries _ _ hdead
    cases hj
  · by_cases hjp : jp = ip
    · subst hjp
      simp [Store.setD, Store.setInode]
    · simp [Store.setD, Store.setInode, hjp]
  · rw [inodes_setD hc.table.unique hlive.ref hlive.valid]
    by_cases hj : j = (fs.inode ip).inum
    · subst hj
      rw [Function.update_self, hinode]
      rfl
    · rw [Function.update_of_ne hj]
  · rw [hrefs _ _ hused, if_pos ⟨rfl, rfl⟩]

theorem Core.assignEntry {i : Nat} (hi : Used sb fs i) (hdead : ∀ j slot, ¬dead j slot)
    (hk : k < nIndirect) (hpos : (inodes sb fs i).addrs nDirect ≠ 0)
    (hzero : entry (fs.disk ((inodes sb fs i).addrs nDirect)) k = 0) :
    let addr := (inodes sb fs i).addrs nDirect
    Core sb (fs.setBlock addr (setEntry (fs.disk addr) k b)) (fun _ => False) dead ∧
      Extends sb fs (fs.setBlock addr (setEntry (fs.disk addr) k b)) ∧
      blockRef sb (fs.setBlock addr (setEntry (fs.disk addr) k b)) i (.entry k) = b := by
  intro addr
  have hholds := hc.holds_addr hi hpos
  have hlow := (hc.range hholds).1
  have hstart := sb.bmapstart_lt_dataStart
  have hle : sb.bmapstart ≤ addr := Nat.le_of_lt (Nat.lt_of_lt_of_le hstart hlow)
  have hempty : blockRef sb fs i (.entry k) = 0 := by
    simp [blockRef, Dinode.refs, hzero]
  have hrefs : ∀ j other, Used sb fs j →
      blockRef sb (fs.setBlock addr (setEntry (fs.disk addr) k b)) j other =
        if j = i ∧ other = .entry k then b else blockRef sb fs j other := by
    intro j other hj
    by_cases hji : j = i
    · subst hji
      unfold blockRef
      rw [inodes_setBlock hc.wf hle _ hj.2.1]
      cases other with
      | addr m => simp [Dinode.refs]
      | entry m =>
        by_cases hm : nIndirect ≤ m
        · have hmk : m ≠ k := by omega
          simp [Dinode.refs, hm, hmk]
        · simp [Dinode.refs, hm, hpos, Store.setBlock, addr,
            entry_setEntry _ hk (Fresh.lt hc hb)]
    · rw [if_neg fun h => hji h.1]
      refine blockRef_setBlock hc.wf hle hj.2.1 (fun heq => hji ?_) other
      have hother := hc.holds_addr (k := nDirect) hj (by rw [heq]; exact hpos)
      rw [heq] at hother
      exact congrArg Prod.fst (hc.owns.unique _ _ _ hother hholds)
  have huses : ∀ j, Used sb (fs.setBlock addr (setEntry (fs.disk addr) k b)) j ↔ Used sb fs j :=
    used_setBlock hc.wf hle
  -- the indirect block is neither the new block nor anybody's data
  have hne : b ≠ addr := fun heq => (hc.owns.taken_of_holds hholds).2.2.2 heq.symm
  refine ⟨hc.settle hb (hc.table.setBlock hc.wf hle) (fun x hx => ?_) huses hi (hdead _ _) hempty
    hrefs, Extends.fill (fun jp => ⟨rfl, rfl, rfl⟩) huses (fun j hj => ?_) hempty hrefs ?_
      (fun j bn hj hslot => ?_), ?_⟩
  · exact marked_setBlock (Or.inr hlow) _ hx
  · rw [inodes_setBlock hc.wf hle _ hj.2.1]
  · exact (Function.update_of_ne hne ..).trans hb.zero
  · exact Function.update_of_ne (hc.data_ne_indirect hj (hdead j) hslot hi).symm ..
  · rw [hrefs _ _ hi, if_pos ⟨rfl, rfl⟩]

end Assign

section Bmap

variable (hc : Settled sb fs) (hlive : Live fs ip)
include hc

theorem balloc_extends : balloc sb fs = (0, fs) ∧ Full sb fs.disk ∨
    ∃ b fs', balloc sb fs = (b, fs') ∧ Fresh sb fs' b ∧
      Core sb fs' (fun x => x = b) (fun _ _ => False) ∧ fs'.inode = fs.inode ∧
      (∀ i, i < sb.ninodes → inodes sb fs' i = inodes sb fs i) ∧
      (∀ i slot, Used sb fs i → blockRef sb fs' i slot = blockRef sb fs i slot) ∧
      Keeps sb.Front fs fs' ∧ Extends sb fs fs' := by
  rcases balloc_cases hc (fun _ => id) with
    hnone | ⟨b, fs', hballoc, hb, hcore, hinode, hinodes, hrefs, hheld, hhead⟩
  · exact Or.inl hnone
  · refine Or.inr ⟨b, fs', hballoc, hb, hcore, hinode, hinodes, hrefs, hhead, ⟨fun jp => ?_,
      fun i => ?_, fun i hi => ?_, fun i slot hi _ => hrefs i slot hi⟩, fun i hi => ?_,
      fun i off hi => byteAt_congr (hrefs i _ hi) fun hpos => hheld (i, _) _ ⟨hi, rfl, hpos, id⟩⟩
    · rw [hinode]
      exact ⟨rfl, rfl, rfl⟩
    · refine and_congr_right fun _ => and_congr_right fun hi => ?_
      rw [hinodes i hi]
    · rw [hinodes i hi.2.1]
    · rw [hinodes i hi.2.1]

include hlive

theorem bmapDirect_spec {k : Nat} (hk : k ≤ nDirect) :
    ∃ b fs', bmapDirect sb fs ip k = (b, fs') ∧ Settled sb fs' ∧ Extends sb fs fs' ∧
      Keeps sb.Front fs fs' ∧ (b = 0 → Full sb fs'.disk) ∧
      (b ≠ 0 → blockRef sb fs' (fs.inode ip).inum (.addr k) = b) := by
  unfold bmapDirect
  by_cases hzero : (fs.inode ip).d.addrs k = 0
  · rcases balloc_extends hc with
      ⟨hnone, hfull⟩ | ⟨b, fs', hballoc, hb, hcore, hinode, -, -, hhead, hgrows⟩
    · exact ⟨0, fs, by simp [hzero, hnone], hc, Extends.refl sb fs, Keeps.refl _ fs,
        fun _ => hfull, fun h => absurd rfl h⟩
    · have hassign := hcore.assignAddr hb (hgrows.live hlive) hk (by rw [hinode]; exact hzero)
      rw [hinode] at hassign
      obtain ⟨hsettled, hfill, hslot⟩ := hassign
      exact ⟨b, _, by simp [hzero, hballoc, hb.pos], hsettled, hgrows.trans hfill, hhead,
        fun h => absurd h hb.pos, fun _ => hslot⟩
  · refine ⟨(fs.inode ip).d.addrs k, fs, by simp [hzero], hc, Extends.refl sb fs, Keeps.refl _ fs,
      fun h => absurd h hzero, fun _ => ?_⟩
    show (inodes sb fs _).addrs k = _
    rw [hlive.inodes hc.table]

theorem bmapEntry_spec {k : Nat} (hk : k < nIndirect) (hpos : (fs.inode ip).d.addrs nDirect ≠ 0) :
    ∃ b fs', bmapEntry sb fs ((fs.inode ip).d.addrs nDirect) k = (b, fs') ∧ Settled sb fs' ∧
      Extends sb fs fs' ∧ Keeps sb.Front fs fs' ∧ (b = 0 → Full sb fs'.disk) ∧
      (b ≠ 0 → blockRef sb fs' (fs.inode ip).inum (.entry k) = b) := by
  have hinode := hlive.inodes hc.table
  have hused := hlive.used hc.table
  rw [← hinode] at hpos ⊢
  have hslot : blockRef sb fs (fs.inode ip).inum (.entry k) =
      entry (fs.disk ((inodes sb fs (fs.inode ip).inum).addrs nDirect)) k := by
    simp [blockRef, Dinode.refs, hpos, hk]
  unfold bmapEntry
  by_cases hzero : entry (fs.disk ((inodes sb fs (fs.inode ip).inum).addrs nDirect)) k = 0
  · rcases balloc_extends hc with
      ⟨hnone, hfull⟩ | ⟨b, fs', hballoc, hb, hcore, -, hinodes, hrefs, hhead, hgrows⟩
    · exact ⟨0, fs, by simp [hzero, hnone], hc, Extends.refl sb fs, Keeps.refl _ fs,
        fun _ => hfull, fun h => absurd rfl h⟩
    · have hsame := hinodes _ hused.2.1
      -- the indirect block still reads as it did before the allocation
      have hstill := hrefs (fs.inode ip).inum (.entry k) hused
      rw [hslot, hzero, blockRef, hsame] at hstill
      have hassign := hcore.assignEntry hb ((hgrows.used _).mpr hused) (fun _ _ => id) hk
        (by rwa [hsame]) (by rw [hsame]; simpa [Dinode.refs, hpos, hk] using hstill)
      rw [hsame] at hassign
      obtain ⟨hsettled, hfill, hentry⟩ := hassign
      have hlow := (hc.range (hc.holds_addr hused hpos)).1
      have hstart := sb.bmapstart_lt_dataStart
      have hbelow := hc.wf.inodestart_lt
      exact ⟨b, _, by simp [hzero, hballoc, hb.pos], hsettled, hgrows.trans hfill,
        hhead.trans (keeps_front (by omega) _), fun h => absurd h hb.pos, fun _ => hentry⟩
  · exact ⟨_, fs, by simp [hzero], hc, Extends.refl sb fs, Keeps.refl _ fs,
      fun h => absurd h hzero, fun _ => hslot⟩

theorem bmap_spec {bn : Nat} (hbn : bn < maxFile) :
    ∃ b fs', bmap sb fs ip bn = .ok (b, fs') ∧ Settled sb fs' ∧ Extends sb fs fs' ∧
      Keeps sb.Front fs fs' ∧ (b = 0 → Full sb fs'.disk) ∧
      (b ≠ 0 → blockRef sb fs' (fs.inode ip).inum (fileSlot bn) = b) := by
  unfold bmap fileSlot
  by_cases hdirect : bn < nDirect
  · obtain ⟨b, fs', heq, h⟩ := bmapDirect_spec hc hlive (Nat.le_of_lt hdirect)
    rw [if_pos hdirect, if_pos hdirect, heq]
    exact ⟨b, fs', rfl, h⟩
  · have hk : bn - nDirect < nIndirect := by
      unfold maxFile at hbn
      omega
    obtain ⟨addr, fs', heq, hsettled, hgrows, hhead, hfull, haddr⟩ :=
      bmapDirect_spec hc hlive (Nat.le_refl nDirect)
    rw [if_neg hdirect, if_neg hdirect, if_pos hk, heq]
    by_cases hzero : addr = 0
    · exact ⟨0, fs', by simp [hzero], hsettled, hgrows, hhead, fun _ => hfull hzero,
        fun h => absurd rfl h⟩
    · have hlive' := hgrows.live hlive
      have hinum := (hgrows.inode ip).2.1
      have hindirect : (fs'.inode ip).d.addrs nDirect = addr := by
        rw [← hlive'.inodes hsettled.table, hinum]
        exact haddr hzero
      obtain ⟨b, fs'', hentry, hsettled', hgrows', hhead', hfull', hb⟩ :=
        bmapEntry_spec hsettled hlive' hk (by rwa [hindirect])
      rw [hindirect] at hentry
      rw [hinum] at hb
      exact ⟨b, fs'', by simp [hzero, hentry], hsettled', hgrows.trans hgrows',
        hhead.trans hhead', hfull', hb⟩

end Bmap

/-- From `fs` to `fs'` bytes `lo` to `hi` of file `i` were written, and blocks of zeros
may have been added to files. -/
structure Stores (sb : Superblock) (fs fs' : Store) (i lo hi : Nat) (data : Nat → UInt8) : Prop
    extends Grows sb fs fs' where
  fields : ∀ j, Used sb fs j →
    inodes sb fs' j = { inodes sb fs j with addrs := (inodes sb fs' j).addrs }
  bytes : ∀ j off, Used sb fs j → byteAt sb fs' j off =
    if j = i ∧ lo ≤ off ∧ off < hi then data off else byteAt sb fs j off

theorem Extends.stores (h : Extends sb fs fs') (i lo : Nat) (data : Nat → UInt8) :
    Stores sb fs fs' i lo lo data where
  toGrows := h.toGrows
  fields := h.fields
  bytes j off hj := by
    rw [if_neg (by omega)]
    exact h.bytes j off hj

theorem Stores.trans {i lo mid hi : Nat} {data : Nat → UInt8} (h : Stores sb fs fs' i lo mid data)
    (h' : Stores sb fs' fs'' i mid hi data) (hlo : lo ≤ mid) (hhi : mid ≤ hi) :
    Stores sb fs fs'' i lo hi data where
  toGrows := h.toGrows.trans h'.toGrows
  fields j hj := by
    rw [h'.fields j ((h.used j).mpr hj), h.fields j hj]
  bytes j off hj := by
    rw [h'.bytes j off ((h.used j).mpr hj), h.bytes j off hj]
    by_cases hji : j = i
    · by_cases hmid : off < mid
      · have hnot : ¬mid ≤ off := by omega
        have hlt : off < hi := by omega
        simp only [hji, hnot, hmid, hlt, and_false, if_false, and_true]
      · by_cases hlt : off < hi
        · have hle : lo ≤ off := by omega
          have hge : mid ≤ off := by omega
          simp only [hji, hge, hlt, hle, and_self, if_true]
        · simp only [hmid, hlt, and_false, if_false]
    · simp only [hji, false_and, if_false]

theorem Core.setFileData {i bn b : Nat} (hc : Settled sb fs) (hi : Used sb fs i)
    (hslot : blockRef sb fs i (fileSlot bn) = b) (hb : b ≠ 0) (data : Block) :
    Settled sb (fs.setBlock b data) ∧ Grows sb fs (fs.setBlock b data) ∧
      Keeps sb.Front fs (fs.setBlock b data) ∧
      (∀ j, Used sb fs j → inodes sb (fs.setBlock b data) j = inodes sb fs j) ∧
      (∀ j slot, Used sb fs j →
        blockRef sb (fs.setBlock b data) j slot = blockRef sb fs j slot) ∧
      ∀ j off, Used sb fs j → byteAt sb (fs.setBlock b data) j off =
        if j = i ∧ off / bsize = bn then data.get (off % bsize) else byteAt sb fs j off := by
  have hholds : Holds sb fs (fun _ _ => False) (i, fileSlot bn) b := ⟨hi, hslot, hb, id⟩
  have hlow := (hc.range hholds).1
  have hstart := sb.bmapstart_lt_dataStart
  have hle : sb.bmapstart ≤ b := by omega
  have hindirect : ∀ j, Used sb fs j → (inodes sb fs j).addrs nDirect ≠ b := by
    intro j hj
    rw [← hslot]
    exact Core.data_ne_indirect hc hi (fun _ => id) (by rwa [hslot]) hj
  have hinodes : ∀ j, Used sb fs j → inodes sb (fs.setBlock b data) j = inodes sb fs j :=
    fun j hj => inodes_setBlock hc.wf hle _ hj.2.1
  have hrefs : ∀ j slot, Used sb fs j →
      blockRef sb (fs.setBlock b data) j slot = blockRef sb fs j slot :=
    fun j slot hj => blockRef_setBlock hc.wf hle hj.2.1 (hindirect j hj) slot
  have hbelow := hc.wf.inodestart_lt
  refine ⟨hc.setData data hlow hindirect, ⟨fun _ => ⟨rfl, rfl, rfl⟩, used_setBlock hc.wf hle,
    fun j hj => by rw [hinodes j hj], fun j slot hj _ => hrefs j slot hj⟩,
    keeps_front (by omega) _, hinodes, hrefs, fun j off hj => ?_⟩
  by_cases hhere : j = i ∧ off / bsize = bn
  · rw [if_pos hhere]
    unfold byteAt
    rw [hrefs j _ hj, hhere.1, hhere.2, hslot, if_neg hb]
    simp [Store.setBlock]
  · rw [if_neg hhere]
    refine byteAt_congr (hrefs j _ hj) fun hpos => Function.update_of_ne (fun heq => hhere ?_) ..
    -- the block is in one slot only, and block numbers have slots of their own
    have hother : Holds sb fs (fun _ _ => False) (j, fileSlot (off / bsize)) b :=
      ⟨hj, heq, hb, id⟩
    obtain ⟨rfl, hsame⟩ := Prod.mk.inj (hc.owns.unique _ _ _ hother hholds)
    exact ⟨rfl, fileSlot_injective hsame⟩

def MappedBelow (sb : Superblock) (fs : Store) (i off : Nat) : Prop :=
  ∀ bn, bn * bsize < off → blockRef sb fs i (fileSlot bn) ≠ 0

theorem MappedBelow.grows {i off : Nat} (h : MappedBelow sb fs i off) (hi : Used sb fs i)
    (hgrows : Grows sb fs fs') : MappedBelow sb fs' i off := by
  intro bn hbn
  rw [hgrows.refs i _ hi (h bn hbn)]
  exact h bn hbn

theorem MappedBelow.extend {i off m : Nat} (h : MappedBelow sb fs i off)
    (hslot : blockRef sb fs i (fileSlot (off / bsize)) ≠ 0) (hm : m ≤ bsize - off % bsize) :
    MappedBelow sb fs i (off + m) := by
  intro bn hbn
  by_cases hlt : bn * bsize < off
  · exact h bn hlt
  · have hbn : bn = off / bsize := by
      unfold bsize at *
      omega
    rwa [hbn]

theorem div_bsize_eq {off k o : Nat} (hfit : k ≤ bsize - off % bsize) (hlo : off ≤ o)
    (hhi : o < off + k) : o / bsize = off / bsize := by
  unfold bsize at *
  omega

/-- The block of `off` is written with `k` new bytes from `off` on. -/
theorem Stores.chunk {i off k addr : Nat} {data : Block} {value : Nat → UInt8}
    (hc : Settled sb fs) (hi : Used sb fs i)
    (hslot : blockRef sb fs i (fileSlot (off / bsize)) = addr) (hzero : addr ≠ 0)
    (hfit : k ≤ bsize - off % bsize)
    (hdata : ∀ o, data.get o = if off % bsize ≤ o ∧ o < off % bsize + k
      then value (off + (o - off % bsize)) else (fs.disk addr).get o) :
    Stores sb fs (fs.setBlock addr data) i off (off + k) value := by
  obtain ⟨-, hgrows, -, hinodes, -, hbytes⟩ := Core.setFileData hc hi hslot hzero data
  refine ⟨hgrows, fun j hj => by rw [hinodes j hj], fun j o hj => ?_⟩
  rw [hbytes j o hj]
  by_cases hhere : j = i ∧ o / bsize = off / bsize
  · obtain ⟨rfl, hblock⟩ := hhere
    have hold : byteAt sb fs j o = (fs.disk addr).get (o % bsize) := by
      unfold byteAt
      rw [hblock, hslot, if_neg hzero]
    rw [if_pos ⟨rfl, hblock⟩, hdata, hold]
    have ho := Nat.div_add_mod' o bsize
    have hoff := Nat.div_add_mod' off bsize
    rw [hblock] at ho
    by_cases hin : off ≤ o ∧ o < off + k
    · have hindex : off + (o % bsize - off % bsize) = o := by omega
      rw [if_pos (by omega), if_pos ⟨rfl, hin⟩, hindex]
    · rw [if_neg (by omega), if_neg fun h => hin h.2]
  · rw [if_neg hhere, if_neg]
    rintro ⟨rfl, hlo, hhi⟩
    exact hhere ⟨rfl, div_bsize_eq hfit hlo hhi⟩

section NoBlock

def FullBut (sb : Superblock) (disk : Disk) (b : Nat) : Prop :=
  ∀ x, x < sb.size → x ≠ b → marked sb disk x = true

/-- There is no block for slot `bn` of a file: the disk is full, or the indirect block would
have to be allocated as well and there is but one left. -/
def NoBlock (sb : Superblock) (fs : Store) (i bn : Nat) : Prop :=
  blockRef sb fs i (fileSlot bn) = 0 ∧ (Full sb fs.disk ∨
    nDirect ≤ bn ∧ blockRef sb fs i (.addr nDirect) = 0 ∧ ∃ b, FullBut sb fs.disk b)

theorem exists_snd_eq {α β : Type} {r : α × β} {a : α} : (∃ b, r = (a, b)) ↔ r.1 = a :=
  ⟨fun ⟨_, h⟩ => by rw [h], fun h => ⟨r.2, Prod.ext h rfl⟩⟩

theorem balloc_of_full (hfull : Full sb fs.disk) : balloc sb fs = (0, fs) := by
  rcases ballocScan_cases sb fs.disk with ⟨b, hb, hfree, -⟩ | hnone
  · rw [hfull b hb] at hfree
    cases hfree
  · rw [balloc, hnone]

variable (hc : Settled sb fs) (hlive : Live fs ip)
include hc

theorem full_of_balloc_zero (hzero : (balloc sb fs).1 = 0) : Full sb fs.disk := by
  rcases balloc_extends hc with ⟨-, hfull⟩ | ⟨b, fs', heq, hb, -⟩
  · exact hfull
  · rw [heq] at hzero
    exact absurd hzero hb.pos

theorem bmapDirect_zero_iff {k : Nat} (hempty : (fs.inode ip).d.addrs k = 0) :
    (bmapDirect sb fs ip k).1 = 0 ↔ Full sb fs.disk := by
  rw [bmapDirect, if_pos hempty]
  constructor
  · intro hzero
    refine full_of_balloc_zero hc ?_
    by_contra hne
    simp [hne] at hzero
  · intro hfull
    simp [balloc_of_full hfull]

theorem bmapEntry_zero_iff {addr k : Nat} (hempty : entry (fs.disk addr) k = 0) :
    (bmapEntry sb fs addr k).1 = 0 ↔ Full sb fs.disk := by
  rw [bmapEntry, if_pos hempty]
  constructor
  · intro hzero
    refine full_of_balloc_zero hc ?_
    by_contra hne
    simp [hne] at hzero
  · intro hfull
    simp [balloc_of_full hfull]

/-- A second block can be had after a first one, unless that was the last. -/
theorem full_balloc_iff : Full sb (balloc sb fs).2.disk ↔ ∃ b, FullBut sb fs.disk b := by
  rcases ballocScan_cases sb fs.disk with ⟨b, hb, hfree, hscan⟩ | hnone
  · have hlow : sb.dataStart ≤ b := by
      by_contra hlt
      have := hc.reserved b (Nat.not_le.mp hlt)
      simp [hfree] at this
    have hblock : sb.bblock (b / bpb * bpb) = sb.bblock b := by
      unfold Superblock.bblock
      rw [Nat.mul_div_cancel _ (by decide : 0 < bpb)]
    have hmarked : ∀ x, x < sb.size →
        marked sb (balloc sb fs).2.disk x = (decide (x = b) || marked sb fs.disk x) := by
      intro x hx
      simp only [balloc, hscan, Nat.div_add_mod', hblock]
      rw [marked_setBlock (Or.inr hlow) _ hx, marked_markBit]
    constructor
    · intro hfull
      refine ⟨b, fun x hx hne => ?_⟩
      have := hfull x hx
      rwa [hmarked x hx, decide_eq_false hne, Bool.false_or] at this
    · rintro ⟨b', hbut⟩ x hx
      rw [hmarked x hx]
      by_cases hxb : x = b
      · simp [hxb]
      · -- the block that was free is the one
        have heq : b = b' := by
          by_contra hne
          rw [hbut b hb hne] at hfree
          cases hfree
        rw [hbut x hx (heq ▸ hxb), Bool.or_true]
  · have hfull := full_of_ballocScan hnone
    rw [balloc_of_full hfull]
    exact iff_of_true hfull ⟨0, fun x hx _ => hfull x hx⟩

include hlive

theorem bmap_of_mapped {bn : Nat} (hbn : bn < maxFile)
    (hslot : blockRef sb fs (fs.inode ip).inum (fileSlot bn) ≠ 0) :
    bmap sb fs ip bn = .ok (blockRef sb fs (fs.inode ip).inum (fileSlot bn), fs) := by
  have hinode := hlive.inodes hc.table
  unfold bmap
  unfold fileSlot blockRef at *
  rw [hinode] at hslot ⊢
  by_cases hdirect : bn < nDirect
  · rw [if_pos hdirect] at hslot ⊢
    rw [if_pos hdirect]
    simp only [Dinode.refs] at hslot ⊢
    rw [bmapDirect, if_neg hslot]
  · have hk : bn - nDirect < nIndirect := by
      unfold maxFile at hbn
      omega
    rw [if_neg hdirect] at hslot ⊢
    rw [if_neg hdirect, if_pos hk]
    simp only [Dinode.refs, Nat.not_le.mpr hk, or_false] at hslot ⊢
    by_cases hzero : (fs.inode ip).d.addrs nDirect = 0
    · exact absurd (if_pos hzero) hslot
    · rw [if_neg hzero] at hslot ⊢
      rw [bmapDirect, if_neg hzero]
      simp only [hzero, if_false]
      rw [bmapEntry, if_neg hslot]

theorem bmap_zero_iff {bn : Nat} (hbn : bn < maxFile) :
    (∃ fs', bmap sb fs ip bn = .ok (0, fs')) ↔ NoBlock sb fs (fs.inode ip).inum bn := by
  have hempty : (∃ fs', bmap sb fs ip bn = .ok (0, fs')) →
      blockRef sb fs (fs.inode ip).inum (fileSlot bn) = 0 := by
    rintro ⟨fs', hbmap⟩
    by_contra hne
    rw [bmap_of_mapped hc hlive hbn hne] at hbmap
    exact hne (Prod.ext_iff.mp (Except.ok.inj hbmap)).1
  refine (and_iff_right_of_imp hempty).symm.trans (and_congr_right fun hslot => ?_)
  have hinode := hlive.inodes hc.table
  unfold blockRef at hslot ⊢
  rw [hinode] at hslot ⊢
  unfold bmap
  unfold fileSlot at hslot
  by_cases hdirect : bn < nDirect
  · rw [if_pos hdirect, Dinode.refs] at hslot
    simp only [hdirect, if_true, Except.ok.injEq, exists_snd_eq, bmapDirect_zero_iff hc hslot,
      Nat.not_le.mpr hdirect, false_and, or_false]
  · have hk : bn - nDirect < nIndirect := by
      unfold maxFile at hbn
      omega
    simp only [hdirect, if_false, Dinode.refs, Nat.not_le.mpr hk, or_false] at hslot
    simp only [hdirect, if_false, hk, if_true, Nat.not_lt.mp hdirect, true_and, Dinode.refs]
    by_cases hnone : (fs.inode ip).d.addrs nDirect = 0
    · obtain ⟨addr, mid, heq, hsettled, -⟩ := bmapDirect_spec hc hlive (Nat.le_refl nDirect)
      have hfirst := bmapDirect_zero_iff hc hnone
      rw [heq] at hfirst
      simp only [heq, hnone, true_and]
      by_cases haddr : addr = 0
      · exact iff_of_true ⟨mid, if_pos haddr⟩ (Or.inl (hfirst.mp haddr))
      · have hdisk : mid.disk = (balloc sb fs).2.disk ∧ addr = (balloc sb fs).1 := by
          rw [bmapDirect, if_pos hnone] at heq
          dsimp only at heq
          split at heq
          · exact absurd (Prod.ext_iff.mp heq).1.symm haddr
          · cases heq
            exact ⟨rfl, rfl⟩
        -- the new indirect block has no entries
        have hentry : entry (mid.disk addr) (bn - nDirect) = 0 := by
          rcases balloc_extends hc with ⟨hzero, -⟩ | ⟨b, fs', hballoc, hb, -⟩
          · rw [hdisk.2, hzero] at haddr
            exact absurd rfl haddr
          · rw [hdisk.1, hdisk.2, hballoc, hb.zero, entry_zero]
        simp only [haddr, if_false, Except.ok.injEq, exists_snd_eq,
          bmapEntry_zero_iff hsettled hentry, hdisk.1, full_balloc_iff hc]
        exact (or_iff_right fun hfull => haddr (hfirst.mpr hfull)).symm
    · rw [if_neg hnone] at hslot
      have hfound : bmapDirect sb fs ip nDirect = ((fs.inode ip).d.addrs nDirect, fs) := by
        rw [bmapDirect, if_neg hnone]
      simp only [hfound, hnone, if_false, Except.ok.injEq, exists_snd_eq,
        bmapEntry_zero_iff hc hslot, false_and, or_false]

end NoBlock

section Writei

variable {src : Source} {n : Nat}

theorem eitherCopyin_spec (m : Nat) : ∀ {block : Block} {offset start : Nat}, offset + m ≤ bsize →
    ∃ k data, eitherCopyin src block offset start m = (data, decide (k = m)) ∧ k ≤ m ∧
      (∀ t, t < k → src (start + t) ≠ none) ∧ (k < m → src (start + k) = none) ∧
      ∀ o, data.get o = if offset ≤ o ∧ o < offset + k then (src (start + (o - offset))).getD 0
        else block.get o := by
  induction m with
  | zero =>
    intro block offset start _
    refine ⟨0, block, rfl, Nat.le_refl 0, fun t ht => absurd ht (Nat.not_lt_zero t),
      fun h => absurd h (Nat.lt_irrefl 0), fun o => ?_⟩
    rw [if_neg (by omega)]
  | succ m ih =>
    intro block offset start hfit
    rw [eitherCopyin]
    cases hsrc : src start with
    | none =>
      refine ⟨0, block, by simp, Nat.zero_le _, fun t ht => absurd ht (Nat.not_lt_zero t),
        fun _ => hsrc, fun o => ?_⟩
      rw [if_neg (by omega)]
    | some byte =>
      obtain ⟨k, data, heq, hk, hread, hstop, hdata⟩ :=
        @ih (block.set offset byte) (offset + 1) (start + 1) (by omega)
      refine ⟨k + 1, data, by simpa using heq, by omega, fun t ht => ?_, fun h => ?_, fun o => ?_⟩
      · cases t with
        | zero => simp [hsrc]
        | succ t =>
          rw [Nat.add_comm t 1, ← Nat.add_assoc]
          exact hread t (by omega)
      · rw [Nat.add_comm k 1, ← Nat.add_assoc]
        exact hstop (by omega)
      · rw [hdata o]
        by_cases hfirst : o = offset
        · rw [if_neg (by omega), if_pos (by omega), hfirst, Bytes.get_set_self _ _ (by omega),
            Nat.sub_self, Nat.add_zero, hsrc, Option.getD_some]
        · by_cases hin : offset ≤ o ∧ o < offset + (k + 1)
          · have hindex : start + 1 + (o - (offset + 1)) = start + (o - offset) := by omega
            rw [if_pos (by omega), if_pos hin, hindex]
          · rw [if_neg (by omega), if_neg hin, Bytes.get_set_of_ne _ _ hfirst]

/-- Why the loop of `writei` ended: after `tot` bytes, and `extra` bytes more that went
into the buffer of the next block before the source could not be read. A full disk is found
behind the blocks that the file has got. -/
structure Stops (sb : Superblock) (fs fs' : Store) (i : Nat) (src : Source)
    (n base start tot extra : Nat) : Prop where
  le : start ≤ tot ∧ tot + extra ≤ n
  readable : ∀ t, start ≤ t → t < tot + extra → src t ≠ none
  short : tot < n → src (tot + extra) = none ∧ tot + extra < n ∨
    extra = 0 ∧ Full sb fs'.disk ∧ ∀ size, MappedBelow sb fs i size → size ≤ base + tot
  block : (base + tot) / bsize = (base + tot + extra) / bsize
  chunk : tot < n → tot = start ∨ (base + tot) % bsize = 0

section Stops

variable {i base tot tot' extra : Nat} {mid : Store}

theorem Stops.nothing (hle : tot ≤ n) (hfull : tot < n → Full sb fs'.disk ∧
    ∀ size, MappedBelow sb fs i size → size ≤ base + tot) :
    Stops sb fs fs' i src n base tot tot 0 where
  le := ⟨Nat.le_refl _, hle⟩
  readable _ hlo hhi := absurd hlo (Nat.not_le.mpr hhi)
  short h := Or.inr ⟨rfl, hfull h⟩
  block := rfl
  chunk _ := Or.inl rfl

theorem Stops.after {k : Nat} (h : Stops sb mid fs' i src n base (tot + k) tot' extra)
    (hread : ∀ t, tot ≤ t → t < tot + k → src t ≠ none)
    (hmid : ∀ size, MappedBelow sb fs i size → MappedBelow sb mid i size)
    (hk : k = min (n - tot) (bsize - (base + tot) % bsize)) :
    Stops sb fs fs' i src n base tot tot' extra where
  le := ⟨Nat.le_trans (Nat.le_add_right _ _) h.le.1, h.le.2⟩
  readable t hlo hhi := by
    by_cases ht : t < tot + k
    · exact hread t hlo ht
    · exact h.readable t (Nat.not_lt.mp ht) hhi
  short hlt := (h.short hlt).imp_right fun ⟨hextra, hfull, hbelow⟩ =>
    ⟨hextra, hfull, fun size hsize => hbelow size (hmid size hsize)⟩
  block := h.block
  chunk hlt := by
    -- only the last chunk ends before its block does
    refine (h.chunk hlt).elim (fun hend => Or.inr ?_) Or.inr
    unfold bsize at *
    omega

end Stops

/-- The loop of `writei` replaces the bytes it has counted. It leaves everything below its
final `off` mapped. -/
theorem writeLoop_spec (base : Nat) (hmax : base + n ≤ maxFile * bsize) (fuel : Nat) :
    ∀ {tot : Nat} {fs : Store}, Settled sb fs → Live fs ip →
    MappedBelow sb fs (fs.inode ip).inum (base + tot) → tot ≤ n → n - tot ≤ fuel →
    ∃ tot' extra fs', writeLoop sb ip src n fuel tot (base + tot) fs =
        .ok (tot', base + tot', fs') ∧
      Settled sb fs' ∧ Keeps sb.Front fs fs' ∧
      MappedBelow sb fs' (fs.inode ip).inum (base + tot') ∧
      Stores sb fs fs' (fs.inode ip).inum (base + tot) (base + tot' + extra)
        (fun o => (src (o - base)).getD 0) ∧
      Stops sb fs fs' (fs.inode ip).inum src n base tot tot' extra := by
  induction fuel with
  | zero =>
    intro tot fs hc hlive hmapped hle hfuel
    exact ⟨tot, 0, fs, rfl, hc, Keeps.refl _ fs, hmapped, (Extends.refl sb fs).stores _ _ _,
      .nothing hle fun h => by omega⟩
  | succ fuel ih =>
    intro tot fs hc hlive hmapped hle hfuel
    rw [writeLoop]
    by_cases hmore : tot < n
    · have hbn : (base + tot) / bsize < maxFile := by
        rw [Nat.div_lt_iff_lt_mul (by decide)]
        omega
      obtain ⟨addr, fs', hbmap, hc', hextends, hhead, hfull, haddr⟩ := bmap_spec hc hlive hbn
      have hused := hlive.used hc.table
      have hmapped' := hmapped.grows hused hextends.toGrows
      have hfirst := hextends.stores (fs.inode ip).inum (base + tot)
        (fun o => (src (o - base)).getD 0)
      rw [if_pos hmore, hbmap]
      simp only [bind, Except.bind]
      by_cases hzero : addr = 0
      · refine ⟨tot, 0, fs', by rw [if_pos hzero]; rfl, hc', hhead, hmapped', hfirst,
          .nothing hle fun _ => ⟨hfull hzero, fun size hsize => ?_⟩⟩
        rw [hzero] at hbmap
        have hempty : ¬(base + tot) / bsize * bsize < size := by
          intro hlt
          rw [bmap_of_mapped hc hlive hbn (hsize _ hlt)] at hbmap
          exact hsize _ hlt (Prod.ext_iff.mp (Except.ok.inj hbmap)).1
        have := Nat.div_mul_le_self (base + tot) bsize
        omega
      · rw [if_neg hzero]
        have hmod : (base + tot) % bsize < bsize := Nat.mod_lt _ (by decide)
        obtain ⟨k, data, hcopy, hk, hread, hstop, hdata⟩ := @eitherCopyin_spec src
          (min (n - tot) (bsize - (base + tot) % bsize)) (fs'.disk addr) ((base + tot) % bsize) tot
          (by omega)
        rw [hcopy]
        generalize hm : min (n - tot) (bsize - (base + tot) % bsize) = m at hk hstop hcopy
        have hmle : m ≤ n - tot ∧ m ≤ bsize - (base + tot) % bsize := by omega
        have hused' := (hextends.used _).mpr hused
        obtain ⟨hsettled, hgrows, hhead', -, hrefs, -⟩ :=
          Core.setFileData hc' hused' (haddr hzero) hzero data
        have hslot : blockRef sb (fs'.setBlock addr data) (fs.inode ip).inum
            (fileSlot ((base + tot) / bsize)) ≠ 0 := by
          rw [hrefs _ _ hused', haddr hzero]
          exact hzero
        have hstores : Stores sb fs' (fs'.setBlock addr data) (fs.inode ip).inum (base + tot)
            (base + tot + k) (fun o => (src (o - base)).getD 0) := by
          refine .chunk hc' hused' (haddr hzero) hzero (Nat.le_trans hk hmle.2) fun o => ?_
          rw [hdata, Nat.add_assoc, Nat.add_sub_cancel_left]
        have hall := hfirst.trans hstores (Nat.le_refl _) (Nat.le_add_right _ _)
        have hheads := hhead.trans hhead'
        have hreadable : ∀ t, tot ≤ t → t < tot + k → src t ≠ none := by
          intro t hlo hhi
          have := hread (t - tot) (by omega)
          rwa [Nat.add_sub_of_le hlo] at this
        by_cases hdone : k = m
        · subst hdone
          simp only [decide_true, if_true]
          have hinum := (hall.inode ip).2.1
          have hmapped'' := (hmapped'.grows hused' hgrows).extend hslot hmle.2
          obtain ⟨tot', extra, last, heq, hc'', hhead'', hfinal, hrest, hstops⟩ :=
            @ih (tot + k) _ hsettled (hall.toGrows.live hlive)
              (by rw [hinum, ← Nat.add_assoc]; exact hmapped'') (by omega) (by omega)
          rw [hinum] at hfinal hrest hstops
          rw [← Nat.add_assoc] at hrest
          rw [Nat.add_assoc]
          refine ⟨tot', extra, last, heq, hc'', hheads.trans hhead'', hfinal,
            hall.trans hrest (Nat.le_add_right _ _) ?_, hstops.after hreadable
              (fun size hsize => hsize.grows hused hall.toGrows) hm.symm⟩
          have := hstops.le.1
          omega
        · simp only [hdone, decide_false, Bool.false_eq_true, if_false]
          refine ⟨tot, k, _, rfl, hsettled, hheads, hmapped'.grows hused' hgrows, hall,
            ⟨Nat.le_refl _, by omega⟩, hreadable, fun _ => Or.inl ⟨hstop (by omega), by omega⟩, ?_,
            fun _ => Or.inl rfl⟩
          have hnext : k + 1 ≤ bsize - (base + tot) % bsize := by omega
          exact (div_bsize_eq hnext (Nat.le_add_right _ _) (Nat.lt_succ_self _)).symm
    · exact ⟨tot, 0, fs, by rw [if_neg hmore]; rfl, hc, Keeps.refl _ fs, hmapped,
        (Extends.refl sb fs).stores _ _ _, .nothing hle fun h => absurd h hmore⟩

end Writei

section Writei

variable {src : Source} {n : Nat} (hc : Settled sb fs) (hm : Mapped sb fs) (hlive : Live fs ip)
include hc hm hlive

theorem Mapped.below {off : Nat} (hoff : off ≤ (fs.inode ip).d.size) :
    MappedBelow sb fs (fs.inode ip).inum off := by
  intro bn hbn
  refine (hm _ (hlive.used hc.table)).2 bn ?_
  rw [hlive.inodes hc.table]
  omega

theorem Mapped.setSize {size : Nat} (hmapped : MappedBelow sb fs (fs.inode ip).inum size)
    (hsize : size ≤ maxFile * bsize) :
    Settled sb (fs.setD ip { (fs.inode ip).d with size := size }) ∧
      Mapped sb (fs.setD ip { (fs.inode ip).d with size := size }) := by
  obtain ⟨hfits, htype⟩ := hc.table.valid ip hlive.ref hlive.valid
  have hlt : size < 2 ^ 32 := Nat.lt_of_le_of_lt hsize (by decide)
  obtain ⟨hsettled, hused, hrefs⟩ := hc.setMeta
    (d := { (fs.inode ip).d with size := size }) hlive ⟨hlt, hfits.addrs, hfits.rest⟩ htype rfl
  refine ⟨hsettled, fun i hi => ?_⟩
  simp only [hrefs]
  rw [inodes_setD hc.table.unique hlive.ref hlive.valid]
  by_cases hinum : i = (fs.inode ip).inum
  · subst hinum
    rw [Function.update_self]
    exact ⟨hsize, hmapped⟩
  · rw [Function.update_of_ne hinum]
    exact hm i ((hused i).mp hi)

theorem Mapped.setMeta {d : Dinode} (hfits : d.Fits) (htype : d.type ≠ 0)
    (haddrs : d.addrs = (fs.inode ip).d.addrs) (hsize : d.size = (fs.inode ip).d.size) :
    Mapped sb (fs.setD ip d) := by
  obtain ⟨-, hused, hrefs⟩ := hc.setMeta hlive hfits htype haddrs
  intro i hi
  have hsame : (inodes sb (fs.setD ip d) i).size = (inodes sb fs i).size := by
    rw [inodes_setD hc.table.unique hlive.ref hlive.valid]
    by_cases hinum : i = (fs.inode ip).inum
    · rw [hinum, Function.update_self, hlive.inodes hc.table, hsize]
    · rw [Function.update_of_ne hinum]
  rw [hsame]
  simp only [hrefs]
  exact hm i ((hused i).mp hi)

omit hm in
theorem Mapped.iupdate (hm : Mapped sb fs) : Mapped sb (iupdate sb fs ip) := by
  obtain ⟨-, hinodes, hrefs⟩ := iupdate_spec hc hlive
  intro i hi
  have hi : Used sb fs i := by
    unfold Used at hi
    rwa [hinodes] at hi
  simp only [hrefs i _ hi, hinodes]
  exact hm i hi

/-- From `fs` to `fs'` bytes of a file were written from `off` on. `tot` of them count for
the size; `extra` more are in the last block touched. -/
structure Overwrites (sb : Superblock) (fs fs' : Store) (ip : Ptr) (src : Source)
    (off tot extra : Nat) : Prop where
  inode : ∀ jp, (fs'.inode jp).ref = (fs.inode jp).ref ∧
    (fs'.inode jp).inum = (fs.inode jp).inum ∧ (fs'.inode jp).valid = (fs.inode jp).valid
  used : ∀ i, Used sb fs' i ↔ Used sb fs i
  fields : ∀ i, Used sb fs i → inodes sb fs' i = { inodes sb fs i with
    size := if i = (fs.inode ip).inum then max (inodes sb fs i).size (off + tot)
      else (inodes sb fs i).size
    addrs := (inodes sb fs' i).addrs }
  bytes : ∀ i o, Used sb fs i → byteAt sb fs' i o =
    if i = (fs.inode ip).inum ∧ off ≤ o ∧ o < off + tot + extra then (src (o - off)).getD 0
    else byteAt sb fs i o
  disk : ∀ i, i < sb.ninodes → diskInode sb fs'.disk i =
    if i = (fs.inode ip).inum then inodes sb fs' i else diskInode sb fs.disk i

omit hc hm in
theorem Stores.overwrites {mid : Store} {off tot extra : Nat}
    (h : Stores sb fs mid (fs.inode ip).inum off (off + tot + extra)
      (fun o => (src (o - off)).getD 0))
    (hmid : Settled sb mid) (hfront : Keeps sb.Front fs mid) {size : Nat}
    (hsize : size = max (mid.inode ip).d.size (off + tot)) (hmapped : Mapped sb mid)
    (hbelow : MappedBelow sb mid (mid.inode ip).inum size) (hmax : size ≤ maxFile * bsize) :
    let last := iupdate sb (mid.setD ip { (mid.inode ip).d with size := size }) ip
    Settled sb last ∧ Mapped sb last ∧ Overwrites sb fs last ip src off tot extra ∧
      (Full sb mid.disk → Full sb last.disk) := by
  intro last
  have hlive' := h.toGrows.live hlive
  have hinum := (h.inode ip).2.1
  obtain ⟨hfits, htype⟩ := hmid.table.valid ip hlive'.ref hlive'.valid
  have hlt : size < 2 ^ 32 := Nat.lt_of_le_of_lt hmax (by decide)
  obtain ⟨hsettled, hsized⟩ := Mapped.setSize hmid hmapped hlive' hbelow hmax
  obtain ⟨-, hused, hrefs⟩ := hmid.setMeta
    (d := { (mid.inode ip).d with size := size }) hlive' ⟨hlt, hfits.addrs, hfits.rest⟩ htype rfl
  have hlive'' : Live (mid.setD ip { (mid.inode ip).d with size := size }) ip :=
    ⟨by simpa [Store.setD, Store.setInode] using hlive'.ref,
      by simpa [Store.setD, Store.setInode] using hlive'.valid⟩
  obtain ⟨hlast, hinodes, -⟩ := iupdate_spec hsettled hlive''
  have huses : ∀ i, Used sb last i ↔ Used sb mid i := by
    intro i
    rw [← hused i]
    unfold Used
    rw [hinodes]
  have hnew : inodes sb last = Function.update (inodes sb mid) (mid.inode ip).inum
      { (mid.inode ip).d with size := size } :=
    hinodes.trans (inodes_setD hmid.table.unique hlive'.ref hlive'.valid _)
  refine ⟨hlast, Mapped.iupdate hsettled hlive'' hsized, ⟨fun jp => ?_,
    fun i => (huses i).trans (h.used i), fun i hi => ?_, fun i o hi => ?_, fun i hi => ?_⟩,
    fun hfull b hb => ?_⟩
  · rw [← (h.inode jp).1, ← (h.inode jp).2.1, ← (h.inode jp).2.2]
    by_cases hjp : jp = ip
    · subst hjp
      simp [last, iupdate, writeInode, Store.setBlock, Store.setD, Store.setInode]
    · simp [last, iupdate, writeInode, Store.setBlock, Store.setD, Store.setInode, hjp]
  · rw [hnew]
    by_cases hii : i = (fs.inode ip).inum
    · have hold : (mid.inode ip).d = inodes sb mid i := by
        rw [hii, ← hinum, hlive'.inodes hmid.table]
      rw [if_pos hii, hii, ← hinum, Function.update_self, hold, hsize, hold, hii, hinum,
        h.fields _ (hii ▸ hi)]
    · have hne : i ≠ (mid.inode ip).inum := by rwa [hinum]
      rw [if_neg hii, Function.update_of_ne hne]
      exact h.fields i hi
  · have hi' := (h.used i).mpr hi
    rw [← h.bytes i o hi]
    have hsame : byteAt sb (mid.setD ip { (mid.inode ip).d with size := size }) i o =
        byteAt sb mid i o := byteAt_congr (hrefs i _) fun _ => rfl
    rw [← hsame]
    refine Core.byteAt_writeInode hsettled (fun _ _ => id)
      (hsettled.table.used ip hlive''.ref).2.1 rfl ((hused i).mpr hi') (congrFun hinodes i) o
  · have hdisk : diskInode sb last.disk = Function.update (diskInode sb mid.disk)
        (mid.inode ip).inum { (mid.inode ip).d with size := size } := by
      refine (diskInode_iupdate (hsettled.table.valid ip hlive''.ref hlive''.valid).1).trans ?_
      simp [Store.setD, Store.setInode]
    rw [hdisk, hnew, hinum]
    by_cases hii : i = (fs.inode ip).inum
    · rw [if_pos hii, hii, Function.update_self, Function.update_self]
    · rw [if_neg hii, Function.update_of_ne hii]
      exact hfront.diskInode hmid.wf hi
  · exact (hsettled.marked_writeInode (hsettled.table.used ip hlive''.ref).2.1 rfl hb).trans
      (hfull b hb)

theorem writei_spec {off : Nat} (hoff : off < 2 ^ 32) (hn : n < 2 ^ 32) :
    ∃ r fs', writei sb fs ip src off n = .ok (r, fs') ∧ Settled sb fs' ∧ Mapped sb fs' ∧
      Keeps sb.Head fs fs' ∧
      ((off > (fs.inode ip).d.size ∨ 2 ^ 32 ≤ off + n ∨ maxFile * bsize < off + n) ∧
        r = -1 ∧ fs' = fs ∨
      (off ≤ (fs.inode ip).d.size ∧ off + n ≤ maxFile * bsize) ∧
        ∃ tot extra : Nat, r = tot ∧ Overwrites sb fs fs' ip src off tot extra ∧
          Stops sb fs fs' (fs.inode ip).inum src n off 0 tot extra) := by
  unfold writei
  by_cases hrange : off > (fs.inode ip).d.size ∨ (off + n) % 2 ^ 32 < off
  · exact ⟨-1, fs, if_pos hrange, hc, hm, Keeps.refl _ fs, Or.inl ⟨by omega, rfl, rfl⟩⟩
  by_cases hlarge : (off + n) % 2 ^ 32 > maxFile * bsize
  · exact ⟨-1, fs, (if_neg hrange).trans (if_pos hlarge), hc, hm, Keeps.refl _ fs,
      Or.inl ⟨by omega, rfl, rfl⟩⟩
  have hend : off + n ≤ maxFile * bsize := by omega
  obtain ⟨tot, extra, mid, hloop, hmid, hhead, hmapped, hstores, hstops⟩ :=
    @writeLoop_spec sb ip src n off hend n 0 fs hc hlive
      (Mapped.below hc hm hlive (by omega)) (Nat.zero_le n) (Nat.le_refl n)
  rw [Nat.add_zero] at hloop hstores
  have hm' := hstores.toGrows.mapped hm
  have hlive' := hstores.toGrows.live hlive
  rw [← (hstores.inode ip).2.1] at hmapped
  have hle := hstops.le
  simp only [hrange, hlarge, if_false, hloop, bind, Except.bind]
  have hpair : off ≤ (fs.inode ip).d.size ∧ off + n ≤ maxFile * bsize := ⟨by omega, hend⟩
  by_cases hgrown : off + tot > (mid.inode ip).d.size
  · obtain ⟨hsettled, hsized, hover, hfull⟩ := Stores.overwrites hlive hstores hmid hhead
      (Nat.max_eq_right (Nat.le_of_lt hgrown)).symm hm' hmapped (by omega)
    exact ⟨tot, _, by rw [if_pos hgrown]; rfl, hsettled, hsized,
      (hhead.head hc.wf).trans (keeps_iupdate sb _ ip), Or.inr ⟨hpair, tot, extra, rfl, hover, hle,
        hstops.readable, fun h => (hstops.short h).imp_right (And.imp_right (And.imp_left hfull)),
        hstops.block, hstops.chunk⟩⟩
  · have hsame : mid.setD ip { (mid.inode ip).d with size := (mid.inode ip).d.size } = mid := by
      simp [Store.setD, Store.setInode]
    obtain ⟨hsettled, hsized, hover, hfull⟩ := Stores.overwrites hlive hstores hmid hhead
      (Nat.max_eq_left (by omega)).symm hm' (Mapped.below hmid hm' hlive' (Nat.le_refl _))
      (by rw [← hlive'.inodes hmid.table]; exact (hm' _ (hlive'.used hmid.table)).1)
    rw [hsame] at hsettled hsized hover hfull
    exact ⟨tot, _, by rw [if_neg hgrown]; rfl, hsettled, hsized,
      (hhead.head hc.wf).trans (keeps_iupdate sb _ ip), Or.inr ⟨hpair, tot, extra, rfl, hover, hle,
        hstops.readable, fun h => (hstops.short h).imp_right (And.imp_right (And.imp_left hfull)),
        hstops.block, hstops.chunk⟩⟩

end Writei

section Readi

variable {sink : Sink} {n : Nat} (hc : Settled sb fs) (hlive : Live fs ip)
include hc hlive

omit hc hlive in
theorem eitherCopyout_spec (m : Nat) : ∀ {block : Block} {offset start : Nat},
    ∃ k, eitherCopyout sink block offset start m =
        ((List.range k).map fun t => block.get (offset + t), decide (k = m)) ∧ k ≤ m ∧
      (k < m → sink (start + k) = false) := by
  induction m with
  | zero =>
    intro block offset start
    exact ⟨0, rfl, Nat.le_refl 0, fun h => absurd h (Nat.lt_irrefl 0)⟩
  | succ m ih =>
    intro block offset start
    rw [eitherCopyout]
    cases hsink : sink start with
    | false => exact ⟨0, by simp, Nat.zero_le _, fun _ => hsink⟩
    | true =>
      obtain ⟨k, heq, hk, hstop⟩ := @ih block (offset + 1) (start + 1)
      refine ⟨k + 1, ?_, by omega, fun h => ?_⟩
      · simp only [heq, if_true, List.range_succ_eq_map, List.map_cons, List.map_map,
          Nat.add_right_cancel_iff]
        congr 2
        apply List.map_congr_left
        intro t _
        simp only [Function.comp]
        congr 1
        omega
      · rw [Nat.add_comm k 1, ← Nat.add_assoc]
        exact hstop (by omega)

/-- The loop of `readi` hands over the bytes of the file from `off` on, to the end unless
one cannot be stored. -/
theorem readLoop_spec (fuel : Nat) : ∀ {tot off : Nat}, tot ≤ n →
    MappedBelow sb fs (fs.inode ip).inum (off + (n - tot)) →
    off + (n - tot) ≤ maxFile * bsize → n - tot ≤ fuel →
    ∃ k r, readLoop sb ip sink n fuel tot off fs =
        .ok (r, (List.range k).map fun t => byteAt sb fs (fs.inode ip).inum (off + t), fs) ∧
      (k = n - tot ∧ r = n ∨ k < n - tot ∧ r = -1 ∧ sink (tot + k) = false) := by
  induction fuel with
  | zero =>
    intro tot off hle _ _ hfuel
    refine ⟨0, tot, rfl, Or.inl ⟨by omega, ?_⟩⟩
    congr 1
    omega
  | succ fuel ih =>
    intro tot off htot hmapped hmax hfuel
    rw [readLoop]
    by_cases hmore : tot < n
    · have hbn : off / bsize < maxFile := by
        rw [Nat.div_lt_iff_lt_mul (by decide)]
        omega
      have hslot : blockRef sb fs (fs.inode ip).inum (fileSlot (off / bsize)) ≠ 0 := by
        refine hmapped _ ?_
        have := Nat.div_mul_le_self off bsize
        omega
      rw [if_pos hmore, bmap_of_mapped hc hlive hbn hslot]
      simp only [bind, Except.bind, hslot, if_false]
      have hmod : off % bsize < bsize := Nat.mod_lt _ (by decide)
      generalize hm : min (n - tot) (bsize - off % bsize) = m
      have hmle : m ≤ n - tot ∧ m ≤ bsize - off % bsize := by omega
      have hpos : 0 < m := by omega
      obtain ⟨k, hcopy, hk, hstop⟩ := @eitherCopyout_spec sink m
        (fs.disk (blockRef sb fs (fs.inode ip).inum (fileSlot (off / bsize)))) (off % bsize) tot
      rw [hcopy]
      -- within the block, the bytes of the buffer are those of the file
      have hbytes : ((List.range k).map fun t =>
          (fs.disk (blockRef sb fs (fs.inode ip).inum (fileSlot (off / bsize)))).get
            (off % bsize + t)) =
          (List.range k).map fun t => byteAt sb fs (fs.inode ip).inum (off + t) := by
        refine List.map_congr_left fun t ht => ?_
        have ht := List.mem_range.mp ht
        have hdecomp := Nat.div_add_mod' off bsize
        have hdiv : (off + t) / bsize = off / bsize :=
          div_bsize_eq (Nat.le_trans hk hmle.2) (Nat.le_add_right _ _) (Nat.add_lt_add_left ht _)
        have hmod' : (off + t) % bsize = off % bsize + t := by
          have := Nat.div_add_mod' (off + t) bsize
          rw [hdiv] at this
          omega
        unfold byteAt
        rw [hdiv, hmod', if_neg hslot]
      rw [hbytes]
      by_cases hdone : k = m
      · subst hdone
        have hsum : off + k + (n - (tot + k)) = off + (n - tot) := by omega
        obtain ⟨k', r, hrest, hend⟩ := @ih (tot + k) (off + k) (by omega) (by rwa [hsum])
          (by rwa [hsum]) (by omega)
        refine ⟨k + k', r, ?_, ?_⟩
        · simp only [decide_true, if_true, hrest, pure, Except.pure, List.range_add,
            List.map_append, List.map_map]
          congr 4
          apply List.map_congr_left
          intro t _
          simp only [Function.comp, Nat.add_assoc]
        · rcases hend with ⟨hk', hr⟩ | ⟨hk', hr, hsink⟩
          · exact Or.inl ⟨by omega, hr⟩
          · exact Or.inr ⟨by omega, hr, by rwa [← Nat.add_assoc]⟩
      · refine ⟨k, -1, ?_, Or.inr ⟨by omega, rfl, hstop (by omega)⟩⟩
        simp only [hdone, decide_false, Bool.false_eq_true, if_false, pure, Except.pure]
    · refine ⟨0, tot, by rw [if_neg hmore]; rfl, Or.inl ⟨by omega, ?_⟩⟩
      congr 1
      omega

theorem readi_spec {off : Nat} (hm : Mapped sb fs) (hoff : off < 2 ^ 32) (hn : n < 2 ^ 32) :
    ∃ r k, readi sb fs ip sink off n =
        .ok (r, (List.range k).map fun t => byteAt sb fs (fs.inode ip).inum (off + t), fs) ∧
      ((off > (fs.inode ip).d.size ∨ 2 ^ 32 ≤ off + n) ∧ r = 0 ∧ k = 0 ∨
       (off ≤ (fs.inode ip).d.size ∧ off + n < 2 ^ 32) ∧
        (k = min n ((fs.inode ip).d.size - off) ∧ r = k ∨
          k < min n ((fs.inode ip).d.size - off) ∧ r = -1 ∧ sink k = false)) := by
  have hsize : (fs.inode ip).d.size ≤ maxFile * bsize := by
    rw [← hlive.inodes hc.table]
    exact (hm _ (hlive.used hc.table)).1
  unfold readi
  by_cases hrange : off > (fs.inode ip).d.size ∨ (off + n) % 2 ^ 32 < off
  · exact ⟨0, 0, if_pos hrange, Or.inl ⟨by omega, rfl, rfl⟩⟩
  simp only [hrange, if_false]
  have hlen : (if (off + n) % 2 ^ 32 > (fs.inode ip).d.size then
      (fs.inode ip).d.size - off else n) =
      min n ((fs.inode ip).d.size - off) := by
    split <;> omega
  rw [hlen]
  have hbelow := Mapped.below hc hm hlive (Nat.le_refl _)
  obtain ⟨k, r, hloop, hend⟩ := @readLoop_spec sb fs ip sink (min n ((fs.inode ip).d.size - off))
    hc hlive (min n ((fs.inode ip).d.size - off)) 0 off (Nat.zero_le _)
    (fun bn hbn => hbelow bn (by omega)) (by omega) (by omega)
  refine ⟨r, k, hloop, Or.inr ⟨by omega, ?_⟩⟩
  rcases hend with ⟨hk, hr⟩ | ⟨hk, hr, hsink⟩
  · refine Or.inl ⟨by omega, ?_⟩
    rw [hr, hk, Nat.sub_zero]
  · exact Or.inr ⟨by omega, hr, by rwa [Nat.zero_add] at hsink⟩

end Readi

end Xv6.Fs
