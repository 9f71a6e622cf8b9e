import Xv6.Fs.Trunc

/-! The inode table: `iget`, `idup`, `ilock`, `ialloc` and `iput`. -/
namespace Xv6.Fs

open Lib

variable {sb : Superblock} {fs : Store} {ip : Ptr} {x : Inode}

theorem inodes_setInode_of_live (h : x.live = (fs.inode ip).live) :
    inodes sb (fs.setInode ip x) = inodes sb fs := by
  unfold inodes
  rw [live_setInode, h, Function.update_eq_self]
  rfl

theorem inodes_setInode_of_clean (hu : UniqueEntries fs)
    (hclean : ∀ e, (fs.inode ip).live = some e → e.2 = diskInode sb fs.disk e.1)
    (hnew : ∀ e, x.live = some e → e.2 = diskInode sb fs.disk e.1 ∧
      ∀ jp, jp ≠ ip → 0 < (fs.inode jp).ref → (fs.inode jp).inum ≠ e.1) :
    inodes sb (fs.setInode ip x) = inodes sb fs := by
  unfold inodes
  rw [live_setInode]
  refine Overlay.view_replace hu.live hclean fun e he => ⟨(hnew e he).1, fun jp f hjp hf => ?_⟩
  obtain ⟨href, -, rfl⟩ := live_eq_some.mp hf
  exact (hnew e he).2 jp hjp href

theorem Core.setInode (hc : Settled sb fs) (hm : Mapped sb fs)
    (hx : 0 < x.ref → EntryOk sb fs ip x)
    (hinodes : inodes sb (fs.setInode ip x) = inodes sb fs) :
    Settled sb (fs.setInode ip x) ∧ Mapped sb (fs.setInode ip x) := by
  have hused : ∀ i, Used sb (fs.setInode ip x) i ↔ Used sb fs i := by
    intro i
    unfold Used
    rw [hinodes]
  have hrefs : ∀ i slot, blockRef sb (fs.setInode ip x) i slot = blockRef sb fs i slot := by
    intro i slot
    unfold blockRef
    rw [hinodes]
    rfl
  refine ⟨Core.congr hc (hc.table.setInode hx) (fun _ _ => rfl)
    (holds_congr hused fun i slot _ => hrefs i slot) hc.entries, fun i hi => ?_⟩
  simp only [hrefs, hinodes]
  exact hm i ((hused i).mp hi)

theorem disk_iget {fs' : Store} {inum : Nat} (h : iget fs inum = .ok (ip, fs')) :
    fs'.disk = fs.disk := by
  unfold iget at h
  split at h
  · cases h
    rfl
  · split at h <;> cases h
    rfl

theorem disk_ilock {fs' : Store} (h : ilock sb fs ip = .ok fs') : fs'.disk = fs.disk := by
  unfold ilock at h
  dsimp only at h
  split at h
  · cases h
  · split at h
    · cases h
      rfl
    · split at h <;> cases h
      rfl

theorem keeps_of_disk {P : Nat → Prop} {fs' : Store} (h : fs'.disk = fs.disk) : Keeps P fs fs' :=
  fun b _ => congrFun h b

section Table

variable (hc : Settled sb fs) (hm : Mapped sb fs)
include hc hm

theorem idup_spec (href : 0 < (fs.inode ip).ref) :
    Settled sb (idup fs ip) ∧ Mapped sb (idup fs ip) := by
  have hok := hc.table.entryOk href
  refine Core.setInode hc hm (fun _ => ⟨hok.unique, hok.used, hok.valid⟩)
    (inodes_setInode_of_live ?_)
  have hmore : 0 < (fs.inode ip).ref + 1 := by omega
  simp [Inode.live, href, hmore]

theorem iget_spec {inum : Nat} (hlow : 1 ≤ inum) (hhigh : inum < sb.ninodes)
    (htype : (diskInode sb fs.disk inum).type ≠ 0) :
    iget fs inum = .error .igetNoInodes ∨
    ∃ ip fs', iget fs inum = .ok (ip, fs') ∧ Settled sb fs' ∧ Mapped sb fs' := by
  unfold iget
  cases hhit : (List.finRange ninode).find? fun ip => 0 < (fs.inode ip).ref ∧
      (fs.inode ip).inum = inum with
  | some ip =>
    have hfound := List.find?_some hhit
    simp only [decide_eq_true_eq] at hfound
    exact Or.inr ⟨ip, _, rfl, idup_spec hc hm hfound.1⟩
  | none =>
    cases hempty : (List.finRange ninode).find? fun ip => (fs.inode ip).ref = 0 with
    | none => exact Or.inl rfl
    | some ip =>
      have hzero := List.find?_some hempty
      simp only [decide_eq_true_eq] at hzero
      have hmiss : ∀ jp, 0 < (fs.inode jp).ref → (fs.inode jp).inum ≠ inum := by
        intro jp href heq
        have := List.find?_eq_none.mp hhit jp (List.mem_finRange jp)
        simp [href, heq] at this
      refine Or.inr ⟨ip, _, rfl, Core.setInode hc hm (fun _ => ⟨fun jp _ => hmiss jp,
        ⟨hlow, hhigh, htype⟩, fun h => by simp at h⟩) (inodes_setInode_of_live ?_)⟩
      simp [Inode.live, hzero]

theorem ilock_spec (href : 0 < (fs.inode ip).ref) :
    ∃ fs', ilock sb fs ip = .ok fs' ∧ Settled sb fs' ∧ Mapped sb fs' := by
  have hok := hc.table.entryOk href
  have hnotfree : ¬(fs.inode ip).ref < 1 := by omega
  unfold ilock
  cases hvalid : (fs.inode ip).valid with
  | true => exact ⟨fs, by simp [hnotfree, hvalid], hc, hm⟩
  | false =>
    refine ⟨_, by simp only [hnotfree, hvalid, if_false, hok.used.2.2, Bool.false_eq_true]; rfl, ?_⟩
    refine Core.setInode hc hm (fun _ => ⟨hok.unique, hok.used, fun _ =>
      ⟨fits_readDinode _ _, hok.used.2.2⟩⟩) (inodes_setInode_of_clean hc.table.unique ?_ ?_)
    · intro e he
      obtain ⟨-, hlive, -⟩ := live_eq_some.mp he
      rw [hvalid] at hlive
      cases hlive
    · intro e he
      obtain ⟨-, -, rfl⟩ := live_eq_some.mp he
      exact ⟨rfl, hok.unique⟩

omit hm in
theorem absent_of_free {inum : Nat} (hfree : (diskInode sb fs.disk inum).type = 0) (jp : Ptr)
    (href : 0 < (fs.inode jp).ref) : (fs.inode jp).inum ≠ inum := by
  intro heq
  exact (hc.table.used jp href).2.2 (by rw [heq]; exact hfree)

omit hm in
theorem inodes_writeInode {inum : Nat} {d : Dinode} (hd : d.Fits)
    (hfree : (diskInode sb fs.disk inum).type = 0) :
    inodes sb (writeInode sb fs inum d) = Function.update (inodes sb fs) inum d := by
  unfold inodes
  rw [diskInode_writeInode hd]
  refine Overlay.view_store_of_free (fun jp e he => ?_) _
  obtain ⟨href, -, rfl⟩ := live_eq_some.mp he
  exact absent_of_free hc hfree jp href

omit hc hm in
theorem fits_fresh (type : Int16) : (Dinode.fresh type).Fits :=
  ⟨Nat.two_pow_pos 32, fun _ => Nat.two_pow_pos 32, fun _ _ => rfl⟩

omit hm in
theorem unused_of_free {inum : Nat} (hfree : (diskInode sb fs.disk inum).type = 0) :
    ¬Used sb fs inum := by
  intro hused
  refine hused.2.2 ?_
  rcases Overlay.sees_view (fun jp => (fs.inode jp).live) (diskInode sb fs.disk) inum with
    ⟨jp, hjp⟩ | ⟨-, hview⟩
  · obtain ⟨href, -, heq⟩ := live_eq_some.mp hjp
    exact absurd (congrArg Prod.fst heq) (absent_of_free hc hfree jp href)
  · rw [inodes, ← hview, hfree]

theorem writeInode_spec {type : Int16} {inum : Nat}
    (hhigh : inum < sb.ninodes) (hfree : (diskInode sb fs.disk inum).type = 0) :
    Settled sb (writeInode sb fs inum (.fresh type)) ∧
      Mapped sb (writeInode sb fs inum (.fresh type)) ∧
      (diskInode sb (writeInode sb fs inum (.fresh type)).disk inum).type = type := by
  have hfits := fits_fresh type
  have hdisk : diskInode sb (writeInode sb fs inum (.fresh type)).disk =
      Function.update (diskInode sb fs.disk) inum (.fresh type) := diskInode_writeInode hfits
  have habsent := absent_of_free hc hfree
  have hinodes := inodes_writeInode hc hfits hfree
  have hunused := unused_of_free hc hfree
  have hused : ∀ i, i ≠ inum → (Used sb (writeInode sb fs inum (.fresh type)) i ↔
      Used sb fs i) := by
    intro i hi
    unfold Used
    rw [hinodes, Function.update_of_ne hi]
  have hrefs : ∀ i slot, i ≠ inum → Used sb fs i →
      blockRef sb (writeInode sb fs inum (.fresh type)) i slot = blockRef sb fs i slot := by
    intro i slot hi hold
    refine hc.blockRef_writeInode hhigh rfl hold ?_ slot
    rw [hinodes, Function.update_of_ne hi]
  have hempty : ∀ slot, blockRef sb (writeInode sb fs inum (.fresh type)) inum slot = 0 := by
    intro slot
    rw [blockRef, hinodes, Function.update_self]
    cases slot <;> simp [Dinode.refs, Dinode.fresh]
  refine ⟨Core.congr hc ⟨hc.table.unique, fun jp hjp => ?_, hc.table.valid⟩
    (fun x hx => hc.marked_writeInode hhigh rfl hx) ?_ hc.entries, fun i hi => ?_, ?_⟩
  · obtain ⟨hlow', hhigh', hold⟩ := hc.table.used jp hjp
    refine ⟨hlow', hhigh', ?_⟩
    show (diskInode sb (writeInode sb fs inum (.fresh type)).disk (fs.inode jp).inum).type ≠ 0
    rwa [hdisk, Function.update_of_ne (habsent jp hjp)]
  · rintro ⟨i, slot⟩ b
    unfold Holds
    by_cases hi : i = inum
    · subst hi
      constructor
      · rintro ⟨-, href, hb, -⟩
        exact absurd ((hempty slot).symm.trans href).symm hb
      · rintro ⟨hused, -⟩
        exact absurd hused hunused
    · dsimp only
      rw [hused i hi]
      refine and_congr_right fun hold => ?_
      rw [hrefs i slot hi hold]
  · by_cases hinum : i = inum
    · rw [hinodes, hinum, Function.update_self]
      exact ⟨Nat.zero_le _, fun bn hbn => absurd hbn (Nat.not_lt_zero _)⟩
    · have hold := (hused i hinum).mp hi
      simp only [hrefs i _ hinum hold]
      rw [hinodes, Function.update_of_ne hinum]
      exact hm i hold
  · rw [hdisk, Function.update_self]
    rfl

theorem ialloc_spec {type : Int16} (htype : type ≠ 0) :
    ialloc sb fs type = .error .igetNoInodes ∨
    ∃ r fs', ialloc sb fs type = .ok (r, fs') ∧ Settled sb fs' ∧ Mapped sb fs' ∧
      Keeps sb.Head fs fs' := by
  unfold ialloc
  cases hscan : (List.range' 1 (sb.ninodes - 1)).find? fun inum =>
      (diskInode sb fs.disk inum).type = 0 with
  | none => exact Or.inr ⟨none, fs, rfl, hc, hm, Keeps.refl _ fs⟩
  | some inum =>
    have hfree := List.find?_some hscan
    have hrange := List.mem_range'.mp (List.mem_of_find?_eq_some hscan)
    simp only [decide_eq_true_eq] at hfree
    have hlow : 1 ≤ inum := by omega
    have hhigh : inum < sb.ninodes := by omega
    have ⟨hsettled, hmapped, hdisk⟩ := @writeInode_spec sb fs hc hm type inum hhigh hfree
    rcases iget_spec hsettled hmapped hlow hhigh (by rwa [hdisk]) with hfull | ⟨ip, fs', heq, h⟩
    · exact Or.inl (by simp only [hfull, bind, Except.bind])
    · exact Or.inr ⟨some ip, fs', by simp only [heq, bind, Except.bind]; rfl, h.1, h.2,
        (keeps_writeInode sb fs inum _).trans (keeps_of_disk (disk_iget heq))⟩

omit hm in
theorem inodes_retire {fs' : Store} (hlive : Live fs ip) (hx : x.ref = 0)
    (hblocks : fs'.disk =
      (writeInode sb fs (fs.inode ip).inum { (fs.inode ip).d with type := 0 }).disk)
    (htable : fs'.inode = (fs.setInode ip x).inode) :
    inodes sb fs' = Function.update (inodes sb fs) (fs.inode ip).inum
      { (fs.inode ip).d with type := 0 } := by
  obtain ⟨hfits, -⟩ := hc.table.valid ip hlive.ref hlive.valid
  have hdisk : diskInode sb fs'.disk = Function.update (diskInode sb fs.disk)
      (fs.inode ip).inum { (fs.inode ip).d with type := 0 } := by
    rw [hblocks]
    exact diskInode_writeInode ⟨hfits.size, hfits.addrs, hfits.rest⟩
  have hnone : x.live = none := by simp [Inode.live, hx]
  unfold inodes
  rw [hdisk, htable, live_setInode, hnone]
  exact Overlay.view_retire hc.table.unique.live
    (live_eq_some.mpr ⟨hlive.ref, hlive.valid, rfl⟩) _

theorem retire_spec {fs' : Store} (hlive : Live fs ip) (hx : x.ref = 0)
    (hempty : (fs.inode ip).d.addrs = fun _ => 0)
    (hblocks : fs'.disk =
      (writeInode sb fs (fs.inode ip).inum { (fs.inode ip).d with type := 0 }).disk)
    (htable : fs'.inode = (fs.setInode ip x).inode) : Settled sb fs' ∧ Mapped sb fs' := by
  obtain ⟨hlow, hhigh, -⟩ := hc.table.used ip hlive.ref
  obtain ⟨hfits, -⟩ := hc.table.valid ip hlive.ref hlive.valid
  have hdisk : diskInode sb fs'.disk = Function.update (diskInode sb fs.disk)
      (fs.inode ip).inum { (fs.inode ip).d with type := 0 } := by
    rw [hblocks]
    exact diskInode_writeInode ⟨hfits.size, hfits.addrs, hfits.rest⟩
  have hinodes := inodes_retire hc hlive hx hblocks htable
  have hgone : ¬Used sb fs' (fs.inode ip).inum := by
    intro hused
    exact hused.2.2 (by rw [hinodes, Function.update_self])
  have hold : ∀ i, i ≠ (fs.inode ip).inum → inodes sb fs' i = inodes sb fs i := by
    intro i hi
    rw [hinodes, Function.update_of_ne hi]
  have hused : ∀ i, i ≠ (fs.inode ip).inum → (Used sb fs' i ↔ Used sb fs i) := by
    intro i hi
    unfold Used
    rw [hold i hi]
  have hrefs : ∀ i slot, i ≠ (fs.inode ip).inum → Used sb fs i →
      blockRef sb fs' i slot = blockRef sb fs i slot :=
    fun i slot hi h => hc.blockRef_writeInode hhigh hblocks h (hold i hi) slot
  have hnone : ∀ slot, blockRef sb fs (fs.inode ip).inum slot = 0 := by
    intro slot
    rw [blockRef, hlive.inodes hc.table]
    cases slot <;> simp [Dinode.refs, hempty]
  have hentry : ∀ jp, 0 < (fs'.inode jp).ref → jp ≠ ip ∧ fs'.inode jp = fs.inode jp := by
    intro jp href
    by_cases hjp : jp = ip
    · rw [htable, hjp] at href
      simp [Store.setInode, hx] at href
    · rw [htable]
      simp [Store.setInode, hjp]
  refine ⟨Core.congr hc ⟨fun jp kp hj hk heq => ?_, fun jp hj => ?_, fun jp hj => ?_⟩
    (fun y hy => hc.marked_writeInode hhigh hblocks hy) ?_ hc.entries, fun i hi => ?_⟩
  · have hsamej := (hentry jp hj).2
    have hsamek := (hentry kp hk).2
    rw [hsamej] at hj heq
    rw [hsamek] at hk heq
    exact hc.table.unique jp kp hj hk heq
  · obtain ⟨hne, hsame⟩ := hentry jp hj
    rw [hsame] at hj ⊢
    rw [hdisk, Function.update_of_ne fun heq => hne (hc.table.unique jp ip hj hlive.ref heq)]
    exact hc.table.used jp hj
  · have hsame := (hentry jp hj).2
    rw [hsame] at hj ⊢
    exact hc.table.valid jp hj
  · rintro ⟨i, slot⟩ b
    unfold Holds
    by_cases hi : i = (fs.inode ip).inum
    · subst hi
      constructor
      · rintro ⟨hused, -⟩
        exact absurd hused hgone
      · rintro ⟨-, href, hb, -⟩
        exact absurd ((hnone slot).symm.trans href).symm hb
    · dsimp only
      rw [hused i hi]
      refine and_congr_right fun h => ?_
      rw [hrefs i slot hi h]
  · have hne : i ≠ (fs.inode ip).inum := by
      rintro rfl
      exact hgone hi
    have h := (hused i hne).mp hi
    simp only [hrefs i _ hne h, hold i hne]
    exact hm i h

/-- The last reference to an inode without links goes: the inode is free, its
blocks are too, and nothing else has changed. -/
theorem iput_free_spec (hlive : Live fs ip) (hlast : (fs.inode ip).ref = 1)
    (hnlink : (fs.inode ip).d.nlink = 0) :
    ∃ fs', iput sb fs ip = .ok fs' ∧ Settled sb fs' ∧ Mapped sb fs' ∧
      (∃ x : Inode, x.ref = 0 ∧ fs'.inode = (fs.setInode ip x).inode) ∧
      (inodes sb fs' (fs.inode ip).inum).type = 0 ∧
      (∀ i, i < sb.ninodes → i ≠ (fs.inode ip).inum → inodes sb fs' i = inodes sb fs i) ∧
      Keeps (fun b => ¬sb.Bitmap b ∧ b ≠ sb.iblock (fs.inode ip).inum) fs fs' ∧
      ∀ i, i < sb.ninodes → i ≠ (fs.inode ip).inum →
        diskInode sb fs'.disk i = diskInode sb fs.disk i := by
  obtain ⟨mid, htrunc, hmid, hmapped, htable, hothers, hkeeps, hdisks⟩ := itrunc_spec hc hlive hm
  have hentry : mid.inode ip =
      { fs.inode ip with d := { (fs.inode ip).d with size := 0, addrs := fun _ => 0 } } := by
    rw [htable]
    simp [Store.setD, Store.setInode]
  have hinum : (mid.inode ip).inum = (fs.inode ip).inum := by rw [hentry]
  have hlive' : Live mid ip := ⟨by rw [hentry]; exact hlive.ref, by rw [hentry]; exact hlive.valid⟩
  let x : Inode := ⟨(mid.inode ip).inum, 0, false, { (mid.inode ip).d with type := 0 }⟩
  let last : Store := (writeInode sb mid (mid.inode ip).inum
    { (mid.inode ip).d with type := 0 }).setInode ip x
  have hiput : iput sb fs ip = .ok last := by
    unfold iput
    rw [if_pos ⟨hlast, hlive.valid, hnlink⟩, htrunc]
    simp [last, x, iupdate, writeInode, Store.setD, Store.setInode, Store.setBlock, bind,
      Except.bind, pure, Except.pure, hentry, hlast]
  have hempty : (mid.inode ip).d.addrs = fun _ => 0 := by rw [hentry]
  have hinodes : inodes sb last = _ := inodes_retire hmid hlive' (x := x) rfl rfl rfl
  have hdisk : last.disk = (writeInode sb mid (mid.inode ip).inum
      { (mid.inode ip).d with type := 0 }).disk := rfl
  obtain ⟨hsettled, hmapped'⟩ := retire_spec hmid hmapped hlive' (x := x) rfl hempty hdisk rfl
  rw [hinum] at hinodes
  refine ⟨last, hiput, hsettled, hmapped', ⟨x, rfl, ?_⟩, ?_, fun i hi hne => ?_, ?_,
    fun i hi hne => ?_⟩
  · show Function.update mid.inode ip x = Function.update fs.inode ip x
    rw [htable]
    simp [Store.setD, Store.setInode]
  · rw [hinodes, Function.update_self]
  · rw [hinodes, Function.update_of_ne hne, hothers i hi hne]
  · refine hkeeps.trans (keeps_setBlock (fun h => h.2 ?_) _)
    rw [hinum]
  · obtain ⟨hfits, -⟩ := hmid.table.valid ip hlive'.ref hlive'.valid
    have hfits : Dinode.Fits { (mid.inode ip).d with type := 0 } :=
      ⟨hfits.size, hfits.addrs, hfits.rest⟩
    rw [hdisk, diskInode_writeInode hfits, hinum, Function.update_of_ne hne, hdisks i hi,
      if_neg hne]

theorem iput_spec (href : 0 < (fs.inode ip).ref)
    (hclean : (fs.inode ip).ref = 1 → (fs.inode ip).valid = true → (fs.inode ip).d.nlink ≠ 0 →
      (fs.inode ip).d = diskInode sb fs.disk (fs.inode ip).inum) :
    ∃ fs', iput sb fs ip = .ok fs' ∧ Settled sb fs' ∧ Mapped sb fs' ∧ Keeps sb.Head fs fs' := by
  have hok := hc.table.entryOk href
  by_cases hfree : (fs.inode ip).ref = 1 ∧ (fs.inode ip).valid ∧ (fs.inode ip).d.nlink = 0
  · obtain ⟨fs', hiput, hsettled, hmapped, -, -, -, hkeeps, -⟩ :=
      iput_free_spec hc hm ⟨href, hfree.2.1⟩ hfree.1 hfree.2.2
    exact ⟨fs', hiput, hsettled, hmapped, hkeeps.mono hc.wf.outside⟩
  · unfold iput
    refine ⟨_, by simp only [hfree, if_false, bind, Except.bind, pure, Except.pure]; rfl, ?_⟩
    rw [← and_assoc]
    refine ⟨?_, Keeps.refl _ fs⟩
    by_cases hlast : (fs.inode ip).ref = 1
    · refine Core.setInode hc hm (fun h => ?_) (inodes_setInode_of_clean hc.table.unique ?_ ?_)
      · simp [hlast] at h
      · intro e he
        obtain ⟨-, hvalid, rfl⟩ := live_eq_some.mp he
        exact hclean hlast hvalid fun h => hfree ⟨hlast, hvalid, h⟩
      · intro e he
        obtain ⟨h, -, -⟩ := live_eq_some.mp he
        simp [hlast] at h
    · have hmore : 1 < (fs.inode ip).ref := by omega
      refine Core.setInode hc hm (fun _ => ⟨hok.unique, hok.used, hok.valid⟩)
        (inodes_setInode_of_live ?_)
      simp [Inode.live, hmore, href]

end Table

end Xv6.Fs
