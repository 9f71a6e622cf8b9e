import Xv6.Fs.Content

/-! The files behind the inodes: each allocated inode is a node with a type, its
links and its contents. What every call of the inode layer does to the nodes and
to the references, as long as nothing but the log stands between the inodes in
memory and those on disk. -/
namespace Xv6.Fs

open Lib

structure Node where
  type : Int16
  major : Int16
  minor : Int16
  nlink : Int16
  bytes : List UInt8
  deriving DecidableEq

variable {sb : Superblock} {fs fs' : Store} {ip : Ptr}

def nodeAt (sb : Superblock) (fs : Store) (i : Nat) : Node where
  type := (inodes sb fs i).type
  major := (inodes sb fs i).major
  minor := (inodes sb fs i).minor
  nlink := (inodes sb fs i).nlink
  bytes := fileBytes sb fs i

def nodes (sb : Superblock) (fs : Store) (i : Nat) : Option Node :=
  if 1 ≤ i ∧ i < sb.ninodes ∧ (inodes sb fs i).type ≠ 0 then some (nodeAt sb fs i) else none

theorem nodes_of_used {i : Nat} (h : Used sb fs i) :
    nodes sb fs i = some (nodeAt sb fs i) := if_pos h

theorem nodes_of_not_used {i : Nat} (h : ¬Used sb fs i) : nodes sb fs i = none := if_neg h

theorem used_of_nodes {i : Nat} (h : nodes sb fs i ≠ none) : Used sb fs i := by
  by_contra hnot
  exact h (nodes_of_not_used hnot)

theorem fileBytes_congr {i : Nat} (hsize : (inodes sb fs' i).size = (inodes sb fs i).size)
    (hbyte : ∀ o, byteAt sb fs' i o = byteAt sb fs i o) :
    fileBytes sb fs' i = fileBytes sb fs i := by
  unfold fileBytes
  rw [hsize]
  exact List.map_congr_left fun o _ => hbyte o

theorem nodes_congr {i : Nat} (hinode : inodes sb fs' i = inodes sb fs i)
    (hbyte : Used sb fs i → ∀ o, byteAt sb fs' i o = byteAt sb fs i o) :
    nodes sb fs' i = nodes sb fs i := by
  by_cases hused : Used sb fs i
  · have hused' : Used sb fs' i := by
      unfold Used at *
      rwa [hinode]
    rw [nodes_of_used hused, nodes_of_used hused']
    unfold nodeAt
    rw [hinode, fileBytes_congr (by rw [hinode]) (hbyte hused)]
  · have hnot : ¬Used sb fs' i := by
      unfold Used at *
      rwa [hinode]
    rw [nodes_of_not_used hused, nodes_of_not_used hnot]

theorem nodes_of_table (hinodes : inodes sb fs' = inodes sb fs) (hdisk : fs'.disk = fs.disk) :
    nodes sb fs' = nodes sb fs := by
  funext i
  refine nodes_congr (congrFun hinodes i) fun _ o => byteAt_congr ?_ fun _ => by rw [hdisk]
  unfold blockRef
  rw [hinodes, hdisk]

theorem nodes_update {i : Nat} {v : Option Node} (hself : nodes sb fs' i = v)
    (hother : ∀ j, j ≠ i → nodes sb fs' j = nodes sb fs j) :
    nodes sb fs' = Function.update (nodes sb fs) i v := by
  funext j
  by_cases hj : j = i
  · rw [hj, Function.update_self]
    exact hself
  · rw [Function.update_of_ne hj]
    exact hother j hj

/-- Between calls that update inodes: the copies in memory are those on disk. -/
structure Quiet (sb : Superblock) (fs : Store) : Prop where
  settled : Settled sb fs
  mapped : Mapped sb fs
  clean : ∀ i, i < sb.ninodes → inodes sb fs i = diskInode sb fs.disk i
  nonneg : ∀ ip, 0 ≤ (fs.inode ip).ref

/-- From `fs` to `fs'` entry `ip` gains `k` references. An entry in use stays with its
inode, and keeps what was read from the disk as long as it is in use. -/
structure Recount (fs fs' : Store) (ip : Ptr) (k : Int) : Prop where
  ref : ∀ jp, (fs'.inode jp).ref = if jp = ip then (fs.inode jp).ref + k else (fs.inode jp).ref
  inum : ∀ jp, 0 < (fs.inode jp).ref → 0 < (fs'.inode jp).ref →
    (fs'.inode jp).inum = (fs.inode jp).inum
  valid : ∀ jp, 0 < (fs.inode jp).ref → 0 < (fs'.inode jp).ref → (fs.inode jp).valid = true →
    (fs'.inode jp).valid = true

theorem Recount.setInode {x : Inode} {k : Int} (href : x.ref = (fs.inode ip).ref + k)
    (hinum : 0 < (fs.inode ip).ref → x.inum = (fs.inode ip).inum)
    (hvalid : 0 < (fs.inode ip).ref → (fs.inode ip).valid = true → x.valid = true) :
    Recount fs (fs.setInode ip x) ip k := by
  refine ⟨fun jp => ?_, fun jp hjp _ => ?_, fun jp hjp _ hv => ?_⟩ <;>
    by_cases h : jp = ip <;> simp_all [Store.setInode]

theorem Recount.same (h : ∀ jp, (fs'.inode jp).ref = (fs.inode jp).ref ∧
    (fs'.inode jp).inum = (fs.inode jp).inum ∧ (fs'.inode jp).valid = (fs.inode jp).valid)
    (ip : Ptr) : Recount fs fs' ip 0 where
  ref jp := by
    rw [(h jp).1]
    split <;> omega
  inum jp _ _ := (h jp).2.1
  valid jp _ _ hv := (h jp).2.2.trans hv

theorem Recount.nonneg {k : Int} (h : Recount fs fs' ip k) (hold : ∀ jp, 0 ≤ (fs.inode jp).ref)
    (hk : 0 ≤ (fs.inode ip).ref + k) (jp : Ptr) : 0 ≤ (fs'.inode jp).ref := by
  rw [h.ref jp]
  split
  · rename_i hjp
    rwa [hjp]
  · exact hold jp

section Frame

/-! The other entries of the table while a file is written. -/

theorem inode_balloc (sb : Superblock) (fs : Store) : (balloc sb fs).2.inode = fs.inode := by
  unfold balloc
  split <;> rfl

theorem inode_bmapEntry (sb : Superblock) (fs : Store) (addr bn : Nat) :
    (bmapEntry sb fs addr bn).2.inode = fs.inode := by
  have hballoc := inode_balloc sb fs
  unfold bmapEntry
  generalize balloc sb fs = alloc at *
  obtain ⟨b, mid⟩ := alloc
  dsimp only at *
  split
  · split <;> exact hballoc
  · rfl

variable {jp : Ptr} (hjp : jp ≠ ip)
include hjp

theorem inode_bmapDirect (bn : Nat) : (bmapDirect sb fs ip bn).2.inode jp = fs.inode jp := by
  have hballoc := congrFun (inode_balloc sb fs) jp
  unfold bmapDirect
  generalize balloc sb fs = alloc at *
  obtain ⟨b, mid⟩ := alloc
  dsimp only at *
  split
  · split
    · exact hballoc
    · simpa [Store.setD, Store.setInode, hjp] using hballoc
  · rfl

theorem inode_bmap {bn b : Nat} (h : bmap sb fs ip bn = .ok (b, fs')) :
    fs'.inode jp = fs.inode jp := by
  unfold bmap at h
  split at h
  · rw [← @inode_bmapDirect sb fs ip jp hjp bn, Except.ok.inj h]
  · split at h
    · have hdirect := @inode_bmapDirect sb fs ip jp hjp nDirect
      generalize bmapDirect sb fs ip nDirect = indirect at *
      obtain ⟨addr, mid⟩ := indirect
      dsimp only at *
      split at h
      · cases h
        exact hdirect
      · rw [← hdirect, ← inode_bmapEntry sb mid addr (bn - nDirect), Except.ok.inj h]
    · cases h

theorem inode_writeLoop {src : Source} {n : Nat} (fuel : Nat) : ∀ {tot off tot' off' : Nat}
    {fs fs' : Store}, writeLoop sb ip src n fuel tot off fs = .ok (tot', off', fs') →
    fs'.inode jp = fs.inode jp := by
  induction fuel with
  | zero =>
    intro tot off tot' off' fs fs' h
    cases h
    rfl
  | succ fuel ih =>
    intro tot off tot' off' fs fs' h
    rw [writeLoop] at h
    split at h
    · cases hbmap : bmap sb fs ip (off / bsize) with
      | error e =>
        rw [hbmap] at h
        cases h
      | ok result =>
        obtain ⟨addr, mid⟩ := result
        have hmid := inode_bmap hjp hbmap
        rw [hbmap] at h
        simp only [bind, Except.bind] at h
        split at h
        · cases h
          exact hmid
        · split at h
          · exact (ih h).trans hmid
          · cases h
            exact hmid
    · cases h
      rfl

theorem inode_writei {src : Source} {off n : Nat} {r : Int}
    (h : writei sb fs ip src off n = .ok (r, fs')) : fs'.inode jp = fs.inode jp := by
  unfold writei at h
  dsimp only at h
  split at h
  · cases h
    rfl
  · split at h
    · cases h
      rfl
    · cases hloop : writeLoop sb ip src n n 0 off fs with
      | error e =>
        rw [hloop] at h
        cases h
      | ok result =>
        obtain ⟨tot, off', mid⟩ := result
        have hmid := inode_writeLoop hjp n hloop
        rw [hloop] at h
        simp only [bind, Except.bind, pure, Except.pure, Except.ok.injEq, Prod.mk.injEq] at h
        rw [← h.2, ← hmid]
        show (ite _ _ _ : Store).inode jp = _
        split
        · simp [Store.setD, Store.setInode, hjp]
        · rfl

end Frame

theorem Overwrites.nodes {src : Source} {off tot : Nat} (h : Overwrites sb fs fs' ip src off tot 0)
    (hused : Used sb fs (fs.inode ip).inum)
    (hoff : off ≤ (inodes sb fs (fs.inode ip).inum).size) :
    Fs.nodes sb fs' = Function.update (Fs.nodes sb fs) (fs.inode ip).inum
      (some { nodeAt sb fs (fs.inode ip).inum with
        bytes := splice (Fs.fileBytes sb fs (fs.inode ip).inum) off (src.first tot) }) := by
  refine nodes_update ?_ fun j hj => ?_
  · rw [nodes_of_used ((h.used _).mpr hused), nodeAt, h.fileBytes hused hoff, h.fields _ hused]
    rfl
  · by_cases hused' : Used sb fs j
    · rw [nodes_of_used hused', nodes_of_used ((h.used j).mpr hused'), nodeAt,
        h.fileBytes_of_ne hused' hj, h.fields j hused']
      rfl
    · rw [nodes_of_not_used hused', nodes_of_not_used fun hnew => hused' ((h.used j).mp hnew)]

section Quiet

variable (hq : Quiet sb fs)
include hq

theorem Quiet.used (href : 0 < (fs.inode ip).ref) : Used sb fs (fs.inode ip).inum := by
  obtain ⟨hlow, hhigh, htype⟩ := hq.settled.table.used ip href
  exact ⟨hlow, hhigh, by rwa [hq.clean _ hhigh]⟩

theorem Quiet.node (hlive : Live fs ip) :
    nodes sb fs (fs.inode ip).inum = some ⟨(fs.inode ip).d.type, (fs.inode ip).d.major,
      (fs.inode ip).d.minor, (fs.inode ip).d.nlink, fileBytes sb fs (fs.inode ip).inum⟩ := by
  rw [nodes_of_used (hq.used hlive.ref), nodeAt, hlive.inodes hq.settled.table]

theorem Quiet.setInode {x : Inode} {k : Int}
    (hx : 0 < x.ref → EntryOk sb fs ip x) (hnonneg : 0 ≤ (fs.inode ip).ref + k)
    (hcount : Recount fs (fs.setInode ip x) ip k)
    (hinodes : inodes sb (fs.setInode ip x) = inodes sb fs) :
    Quiet sb (fs.setInode ip x) ∧ nodes sb (fs.setInode ip x) = nodes sb fs ∧
      Recount fs (fs.setInode ip x) ip k := by
  obtain ⟨hsettled, hmapped⟩ := Core.setInode hq.settled hq.mapped hx hinodes
  refine ⟨⟨hsettled, hmapped, fun i hi => ?_, hcount.nonneg hq.nonneg hnonneg⟩,
    nodes_of_table hinodes rfl, hcount⟩
  rw [hinodes]
  exact hq.clean i hi

theorem Quiet.idup (href : 0 < (fs.inode ip).ref) :
    Quiet sb (idup fs ip) ∧ nodes sb (idup fs ip) = nodes sb fs ∧ Recount fs (idup fs ip) ip 1 := by
  have hok := hq.settled.table.entryOk href
  refine hq.setInode (fun _ => ⟨hok.unique, hok.used, hok.valid⟩) (by omega)
    (Recount.setInode rfl (fun _ => rfl) fun _ h => h) (inodes_setInode_of_live ?_)
  have hmore : 0 < (fs.inode ip).ref + 1 := by omega
  simp [Inode.live, href, hmore]

theorem Quiet.iget {i : Nat} (hi : nodes sb fs i ≠ none) :
    iget fs i = .error .igetNoInodes ∧ (∀ ip, (fs.inode ip).ref ≠ 0) ∨
    ∃ ip fs', iget fs i = .ok (ip, fs') ∧ Quiet sb fs' ∧ nodes sb fs' = nodes sb fs ∧
      Recount fs fs' ip 1 ∧ (fs'.inode ip).inum = i := by
  obtain ⟨hlow, hhigh, htype⟩ := used_of_nodes hi
  rw [hq.clean i hhigh] at htype
  unfold Fs.iget
  cases hhit : (List.finRange ninode).find? fun ip => 0 < (fs.inode ip).ref ∧
      (fs.inode ip).inum = i with
  | some ip =>
    have hfound := List.find?_some hhit
    simp only [decide_eq_true_eq] at hfound
    obtain ⟨hquiet, hnodes, hcount⟩ := hq.idup hfound.1
    refine Or.inr ⟨ip, _, rfl, hquiet, hnodes, hcount, ?_⟩
    refine (hcount.inum ip hfound.1 ?_).trans hfound.2
    rw [hcount.ref ip, if_pos rfl]
    omega
  | none =>
    cases hempty : (List.finRange ninode).find? fun ip => (fs.inode ip).ref = 0 with
    | none =>
      refine Or.inl ⟨rfl, fun ip hzero => ?_⟩
      have := List.find?_eq_none.mp hempty ip (List.mem_finRange ip)
      simp [hzero] at this
    | some ip =>
      have hzero := List.find?_some hempty
      simp only [decide_eq_true_eq] at hzero
      have hmiss : ∀ jp, 0 < (fs.inode jp).ref → (fs.inode jp).inum ≠ i := by
        intro jp href heq
        have := List.find?_eq_none.mp hhit jp (List.mem_finRange jp)
        simp [href, heq] at this
      have hfree : ¬0 < (fs.inode ip).ref := by omega
      obtain ⟨hquiet, hnodes, hcount⟩ := @Quiet.setInode sb fs ip hq
        { fs.inode ip with inum := i, ref := 1, valid := false } 1
        (fun _ => ⟨fun jp _ => hmiss jp, ⟨hlow, hhigh, htype⟩, fun h => by simp at h⟩) (by omega)
        (Recount.setInode (by simp [hzero]) (fun h => absurd h hfree) fun h => absurd h hfree)
        (inodes_setInode_of_live (by simp [Inode.live, hzero]))
      exact Or.inr ⟨ip, _, rfl, hquiet, hnodes, hcount, by simp [Store.setInode]⟩

theorem Quiet.ilock (href : 0 < (fs.inode ip).ref) :
    ∃ fs', ilock sb fs ip = .ok fs' ∧ Quiet sb fs' ∧ nodes sb fs' = nodes sb fs ∧
      Recount fs fs' ip 0 ∧ (fs'.inode ip).valid = true := by
  have hok := hq.settled.table.entryOk href
  have hnotfree : ¬(fs.inode ip).ref < 1 := by omega
  unfold Fs.ilock
  cases hvalid : (fs.inode ip).valid with
  | true =>
    exact ⟨fs, by simp [hnotfree, hvalid], hq, rfl,
      Recount.same (fun _ => ⟨rfl, rfl, rfl⟩) ip, hvalid⟩
  | false =>
    have hunread : ¬(fs.inode ip).valid = true := by rw [hvalid]; decide
    let x : Inode := { fs.inode ip with
      d := diskInode sb fs.disk (fs.inode ip).inum, valid := true }
    obtain ⟨hquiet, hnodes, hcount⟩ := @Quiet.setInode sb fs ip hq x 0
      (fun _ => ⟨hok.unique, hok.used, fun _ => ⟨fits_readDinode _ _, hok.used.2.2⟩⟩) (by omega)
      (Recount.setInode (Int.add_zero _).symm (fun _ => rfl) fun _ _ => rfl)
      (inodes_setInode_of_clean hq.settled.table.unique
        (fun e he => absurd (live_eq_some.mp he).2.1 hunread) fun e he => by
          obtain ⟨-, -, rfl⟩ := live_eq_some.mp he
          exact ⟨rfl, hok.unique⟩)
    refine ⟨fs.setInode ip x, ?_, hquiet, hnodes, hcount, by simp [Store.setInode, x]⟩
    simp only [hnotfree, hvalid, if_false, hok.used.2.2, Bool.false_eq_true]
    rfl

theorem Quiet.iput (href : 0 < (fs.inode ip).ref)
    (hkeep : (fs.inode ip).ref = 1 → (fs.inode ip).valid = true → (fs.inode ip).d.nlink ≠ 0) :
    ∃ fs', iput sb fs ip = .ok fs' ∧ Quiet sb fs' ∧ nodes sb fs' = nodes sb fs ∧
      Recount fs fs' ip (-1) := by
  have hok := hq.settled.table.entryOk href
  have hnot : ¬((fs.inode ip).ref = 1 ∧ (fs.inode ip).valid ∧ (fs.inode ip).d.nlink = 0) :=
    fun h => hkeep h.1 h.2.1 h.2.2
  unfold Fs.iput
  refine ⟨_, by simp only [hnot, if_false, bind, Except.bind, pure, Except.pure]; rfl, ?_⟩
  have hcount : Recount fs (fs.setInode ip { fs.inode ip with ref := (fs.inode ip).ref - 1 }) ip
      (-1) := Recount.setInode rfl (fun _ => rfl) fun _ h => h
  by_cases hlast : (fs.inode ip).ref = 1
  · refine hq.setInode (fun h => by simp [hlast] at h) (by omega) hcount
      (inodes_setInode_of_clean hq.settled.table.unique (fun e he => ?_) fun e he => ?_)
    · obtain ⟨-, hvalid, rfl⟩ := live_eq_some.mp he
      rw [← hq.clean _ hok.used.2.1, Live.inodes ⟨href, hvalid⟩ hq.settled.table]
    · obtain ⟨h, -⟩ := live_eq_some.mp he
      simp [hlast] at h
  · have hmore : 1 < (fs.inode ip).ref := by omega
    refine hq.setInode (fun _ => ⟨hok.unique, hok.used, hok.valid⟩) (by omega) hcount
      (inodes_setInode_of_live ?_)
    simp [Inode.live, hmore, href]

theorem Quiet.nodes_of_data {i : Nat} (hinode : i < sb.ninodes → inodes sb fs' i = inodes sb fs i)
    (hdata : Keeps sb.Data fs fs') : nodes sb fs' i = nodes sb fs i := by
  by_cases hi : i < sb.ninodes
  · refine nodes_congr (hinode hi) fun hused o => byteAt_congr ?_ fun hpos => ?_
    · unfold blockRef
      rw [hinode hi]
      cases hslot : fileSlot (o / bsize) with
      | addr k => rfl
      | entry j =>
        unfold Dinode.refs
        by_cases hzero : (inodes sb fs i).addrs nDirect = 0
        · simp [hzero]
        · have hrange := hq.settled.range (hq.settled.holds_addr hused hzero)
          rw [hdata _ hrange.1]
    · have hholds : Holds sb fs (fun _ _ => False) (i, fileSlot (o / bsize)) _ :=
        ⟨hused, rfl, hpos, id⟩
      exact hdata _ (hq.settled.range hholds).1
  · have hnot : ∀ fs, ¬Used sb fs i := fun _ h => hi h.2.1
    rw [nodes_of_not_used (hnot fs'), nodes_of_not_used (hnot fs)]

theorem Quiet.iput_free (hlive : Live fs ip) (hlast : (fs.inode ip).ref = 1)
    (hnlink : (fs.inode ip).d.nlink = 0) :
    ∃ fs', Fs.iput sb fs ip = .ok fs' ∧ Quiet sb fs' ∧
      nodes sb fs' = Function.update (nodes sb fs) (fs.inode ip).inum none ∧
      Recount fs fs' ip (-1) := by
  obtain ⟨fs', hiput, hsettled, hmapped, ⟨x, hx, htable⟩, htype, hothers, hkeeps, hdisk⟩ :=
    iput_free_spec hq.settled hq.mapped hlive hlast hnlink
  obtain ⟨-, hhigh, -⟩ := hq.used hlive.ref
  have hentry : ∀ jp, jp ≠ ip → fs'.inode jp = fs.inode jp := by
    intro jp hjp
    rw [htable]
    simp [Store.setInode, hjp]
  have hself : fs'.inode ip = x := by
    rw [htable]
    simp [Store.setInode]
  have hcount : Recount fs fs' ip (-1) := by
    have hgone : ¬0 < (fs'.inode ip).ref := by
      rw [hself, hx]
      omega
    refine ⟨fun jp => ?_, fun jp _ hjp => ?_, fun jp _ hjp hv => ?_⟩
    · by_cases h : jp = ip
      · rw [if_pos h, h, hself, hlast, hx]
        rfl
      · rw [if_neg h, hentry jp h]
    · rw [hentry jp fun h => hgone (h ▸ hjp)]
    · rwa [hentry jp fun h => hgone (h ▸ hjp)]
  refine ⟨fs', hiput, ⟨hsettled, hmapped, fun i hi => ?_, hcount.nonneg hq.nonneg (by omega)⟩,
    nodes_update (nodes_of_not_used fun h => h.2.2 htype) fun j hj =>
      hq.nodes_of_data (fun hlt => hothers j hlt hj)
        (hkeeps.mono fun b hb => hq.settled.wf.outside_data hhigh hb), hcount⟩
  by_cases hii : i = (fs.inode ip).inum
  · -- no entry is left for the inode
    rcases Overlay.sees_view (fun jp => (fs'.inode jp).live) (diskInode sb fs'.disk) i with
      ⟨jp, hjp⟩ | ⟨-, hview⟩
    · obtain ⟨href, -, heq⟩ := live_eq_some.mp hjp
      have hne : jp ≠ ip := by
        rintro rfl
        rw [hself, hx] at href
        omega
      have hinum : (fs'.inode jp).inum = i := congrArg Prod.fst heq
      rw [hentry jp hne] at href hinum
      exact absurd (hq.settled.table.unique jp ip href hlive.ref (hinum.trans hii)) hne
    · exact hview.symm
  · rw [hothers i hi hii, hdisk i hi hii, hq.clean i hi]

def Node.fresh (type : Int16) : Node := ⟨type, 0, 0, 0, []⟩

theorem Quiet.writeInode {type : Int16} {i : Nat} (htype : type ≠ 0) (hlow : 1 ≤ i)
    (hhigh : i < sb.ninodes) (hfree : (diskInode sb fs.disk i).type = 0) :
    Quiet sb (writeInode sb fs i (.fresh type)) ∧
      nodes sb (writeInode sb fs i (.fresh type)) =
        Function.update (nodes sb fs) i (some (.fresh type)) := by
  have hfits := fits_fresh type
  have hinodes := inodes_writeInode hq.settled hfits hfree
  have hunused := unused_of_free hq.settled hfree
  obtain ⟨hsettled, hmapped, -⟩ := @writeInode_spec sb fs hq.settled hq.mapped type i hhigh hfree
  refine ⟨⟨hsettled, hmapped, fun j hj => ?_, hq.nonneg⟩, nodes_update ?_ fun j hj => ?_⟩
  · rw [hinodes, diskInode_writeInode hfits]
    by_cases hji : j = i
    · rw [hji, Function.update_self, Function.update_self]
    · rw [Function.update_of_ne hji, Function.update_of_ne hji]
      exact hq.clean j hj
  · have hself : inodes sb (Fs.writeInode sb fs i (.fresh type)) i = .fresh type := by
      rw [hinodes, Function.update_self]
    have hused : Used sb (Fs.writeInode sb fs i (.fresh type)) i :=
      ⟨hlow, hhigh, by rw [hself]; exact htype⟩
    rw [nodes_of_used hused, nodeAt, fileBytes, hself]
    rfl
  · have hsame : inodes sb (Fs.writeInode sb fs i (.fresh type)) j = inodes sb fs j := by
      rw [hinodes, Function.update_of_ne hj]
    exact nodes_congr hsame fun hused o =>
      hq.settled.byteAt_writeInode (fun _ _ => id) hhigh rfl hused hsame o

theorem Quiet.ialloc {type : Int16} (htype : type ≠ 0) :
    ialloc sb fs type = .error .igetNoInodes ∧ (∀ ip, (fs.inode ip).ref ≠ 0) ∨
    ialloc sb fs type = .ok (none, fs) ∨
    ∃ ip i fs', ialloc sb fs type = .ok (some ip, fs') ∧ (1 ≤ i ∧ i < sb.ninodes) ∧
      nodes sb fs i = none ∧ Quiet sb fs' ∧
      nodes sb fs' = Function.update (nodes sb fs) i (some (.fresh type)) ∧
      Recount fs fs' ip 1 ∧ (fs'.inode ip).inum = i := by
  unfold Fs.ialloc
  cases hscan : (List.range' 1 (sb.ninodes - 1)).find? fun inum =>
      (diskInode sb fs.disk inum).type = 0 with
  | none => exact Or.inr (Or.inl rfl)
  | some i =>
    have hfree := List.find?_some hscan
    have hrange := List.mem_range'.mp (List.mem_of_find?_eq_some hscan)
    simp only [decide_eq_true_eq] at hfree
    obtain ⟨hquiet, hnodes⟩ := hq.writeInode htype (by omega) (by omega) hfree
    have hnew : nodes sb (Fs.writeInode sb fs i (.fresh type)) i ≠ none := by
      rw [hnodes, Function.update_self]
      simp
    rcases hquiet.iget hnew with ⟨hfull, hrefs⟩ | ⟨ip, fs', heq, hquiet', hnodes', hcount, hinum⟩
    · exact Or.inl ⟨by simp only [hfull, bind, Except.bind], hrefs⟩
    · refine Or.inr (Or.inr ⟨ip, i, fs', by simp only [heq, bind, Except.bind]; rfl,
        ⟨by omega, by omega⟩, nodes_of_not_used (unused_of_free hq.settled hfree), hquiet',
        hnodes'.trans hnodes, ⟨hcount.ref, hcount.inum, hcount.valid⟩, hinum⟩)

theorem Quiet.clean_of_ne {src : Source} {off n i : Nat} {r : Int}
    (heq : Fs.writei sb fs ip src off n = .ok (r, fs')) (ht : Table sb fs')
    (hinum : (fs'.inode ip).inum = (fs.inode ip).inum) (hi : i < sb.ninodes)
    (hne : i ≠ (fs.inode ip).inum) (hdisk : diskInode sb fs'.disk i = diskInode sb fs.disk i) :
    inodes sb fs' i = diskInode sb fs'.disk i := by
  rcases Overlay.sees_view (fun jp => (fs'.inode jp).live) (diskInode sb fs'.disk) i with
    ⟨jp, hjp⟩ | ⟨-, hview⟩
  · obtain ⟨href, hvalid, hentry⟩ := live_eq_some.mp hjp
    have hkey : (fs'.inode jp).inum = i := congrArg Prod.fst hentry
    have hother : jp ≠ ip := by
      rintro rfl
      exact hne (hkey.symm.trans hinum)
    have hnew := Live.inodes ⟨href, hvalid⟩ ht
    rw [hkey] at hnew
    rw [inode_writei hother heq] at href hvalid hkey hnew
    have hold := Live.inodes ⟨href, hvalid⟩ hq.settled.table
    rw [hkey] at hold
    rw [hnew, ← hold, hq.clean i hi, hdisk]
  · exact hview.symm

section Locked

variable (hlive : Live fs ip)
include hlive

theorem Quiet.update {major minor nlink : Int16} :
    let fs' := iupdate sb (fs.setD ip
      { (fs.inode ip).d with major := major, minor := minor, nlink := nlink }) ip
    Quiet sb fs' ∧ nodes sb fs' = Function.update (nodes sb fs) (fs.inode ip).inum
        (some ⟨(fs.inode ip).d.type, major, minor, nlink, fileBytes sb fs (fs.inode ip).inum⟩) ∧
      Recount fs fs' ip 0 := by
  intro fs'
  obtain ⟨hfits, htype⟩ := hq.settled.table.valid ip hlive.ref hlive.valid
  obtain ⟨hlow, hhigh, -⟩ := hq.used hlive.ref
  let d : Dinode := { (fs.inode ip).d with major := major, minor := minor, nlink := nlink }
  have hd : d.Fits := ⟨hfits.size, hfits.addrs, hfits.rest⟩
  obtain ⟨hset, hused, hrefs⟩ := hq.settled.setMeta (d := d) hlive hd htype rfl
  have hmapped := Mapped.setMeta hq.settled hq.mapped hlive hd htype rfl rfl
  have hentry : (fs.setD ip d).inode ip = { fs.inode ip with d := d } := by
    simp [Store.setD, Store.setInode]
  have hlive' : Live (fs.setD ip d) ip :=
    ⟨by rw [hentry]; exact hlive.ref, by rw [hentry]; exact hlive.valid⟩
  obtain ⟨hsettled, hinodes, -⟩ := iupdate_spec hset hlive'
  have hnew : inodes sb fs' = Function.update (inodes sb fs) (fs.inode ip).inum d :=
    hinodes.trans (inodes_setD hq.settled.table.unique hlive.ref hlive.valid d)
  have hbyte : ∀ j, Used sb fs j → ∀ o, byteAt sb fs' j o = byteAt sb fs j o := by
    intro j hj o
    have hmid : byteAt sb (fs.setD ip d) j o = byteAt sb fs j o :=
      byteAt_congr (hrefs j _) fun _ => rfl
    rw [← hmid]
    refine hset.byteAt_writeInode (fun _ _ => id) ?_ rfl ((hused j).mpr hj) (congrFun hinodes j) o
    rw [hentry]
    exact hhigh
  refine ⟨⟨hsettled, Mapped.iupdate hset hlive' hmapped, fun j hj => ?_, fun jp => ?_⟩,
    nodes_update ?_ fun j hj => ?_, Recount.same (fun jp => ?_) ip⟩
  · rw [hnew, diskInode_iupdate (by rw [hentry]; exact hd), hentry]
    by_cases hji : j = (fs.inode ip).inum
    · rw [hji, Function.update_self, Function.update_self]
    · rw [Function.update_of_ne hji, Function.update_of_ne hji]
      exact hq.clean j hj
  · show 0 ≤ ((fs.setD ip d).inode jp).ref
    by_cases hjp : jp = ip
    · rw [hjp, hentry]
      exact hq.nonneg ip
    · simpa [Store.setD, Store.setInode, hjp] using hq.nonneg jp
  · have hself : inodes sb fs' (fs.inode ip).inum = d := by rw [hnew, Function.update_self]
    have hused' : Used sb fs' (fs.inode ip).inum := ⟨hlow, hhigh, by rw [hself]; exact htype⟩
    have hold := hlive.inodes hq.settled.table
    rw [nodes_of_used hused', nodeAt, hself,
      fileBytes_congr (by rw [hself, hold]) (hbyte _ (hq.used hlive.ref))]
  · have hsame : inodes sb fs' j = inodes sb fs j := by rw [hnew, Function.update_of_ne hj]
    exact nodes_congr hsame (hbyte j)
  · show ((fs.setD ip d).inode jp).ref = _ ∧ ((fs.setD ip d).inode jp).inum = _ ∧
      ((fs.setD ip d).inode jp).valid = _
    by_cases hjp : jp = ip
    · rw [hjp, hentry]
      exact ⟨rfl, rfl, rfl⟩
    · simp [Store.setD, Store.setInode, hjp]

theorem Quiet.size (i : Nat) (hi : i = (fs.inode ip).inum) :
    (fs.inode ip).d.size = (fileBytes sb fs i).length := by
  rw [length_fileBytes, hi, hlive.inodes hq.settled.table]

theorem Quiet.size_le : (fileBytes sb fs (fs.inode ip).inum).length ≤ maxFile * bsize := by
  rw [length_fileBytes]
  exact (hq.mapped _ (hq.used hlive.ref)).1

theorem Quiet.writei {bytes : List UInt8} {off : Nat} (hpos : 0 < bytes.length)
    (hoff : off ≤ (fileBytes sb fs (fs.inode ip).inum).length)
    (hfit : off % bsize + bytes.length ≤ bsize) :
    ∃ r fs', Fs.writei sb fs ip (fun t => bytes[t]?) off bytes.length = .ok (r, fs') ∧
      Quiet sb fs' ∧ Recount fs fs' ip 0 ∧
      (r = bytes.length ∧ nodes sb fs' = Function.update (nodes sb fs) (fs.inode ip).inum
          (some ⟨(fs.inode ip).d.type, (fs.inode ip).d.major, (fs.inode ip).d.minor,
            (fs.inode ip).d.nlink, splice (fileBytes sb fs (fs.inode ip).inum) off bytes⟩) ∨
        r ≠ bytes.length ∧ nodes sb fs' = nodes sb fs ∧
          (maxFile * bsize < off + bytes.length ∨
            (fileBytes sb fs (fs.inode ip).inum).length ≤ off ∧ Full sb fs'.disk)) := by
  have hsize := hq.size hlive _ rfl
  have hle := hq.size_le hlive
  have hsmall : maxFile * bsize < 2 ^ 31 := by decide
  have hblock : bsize < 2 ^ 31 := by decide
  by_cases hmax : maxFile * bsize < off + bytes.length
  · obtain ⟨r, fs', heq, -, -, -, hresult⟩ :=
      @writei_spec sb fs ip (fun t => bytes[t]?) bytes.length
      hq.settled hq.mapped hlive off (by omega) (by omega)
    rcases hresult with ⟨-, rfl, rfl⟩ | ⟨hrange, -⟩
    · exact ⟨-1, _, heq, hq, Recount.same (fun _ => ⟨rfl, rfl, rfl⟩) ip,
        Or.inr ⟨by omega, rfl, Or.inl hmax⟩⟩
    · omega
  · obtain ⟨b, mid, fs', hbmap, heq, hsettled, hmapped, hover, hfull⟩ :=
      @writei_block sb fs ip (fun t => bytes[t]?) bytes.length off hq.settled hq.mapped hlive hpos
        (fun t ht => by simp [ht]) (by omega) (by omega) hfit
    have hquiet : Quiet sb fs' := by
      refine ⟨hsettled, hmapped, fun i hi => ?_, fun jp => ?_⟩
      · have hdisk := hover.disk i hi
        by_cases hne : i = (fs.inode ip).inum
        · rw [hdisk, if_pos hne]
        · exact hq.clean_of_ne heq hsettled.table (hover.inode ip).2.1 hi hne
            (by rw [hdisk, if_neg hne])
      · rw [(hover.inode jp).1]
        exact hq.nonneg jp
    have hnodes := hover.nodes (hq.used hlive.ref) (by rw [← length_fileBytes]; exact hoff)
    rw [nodeAt, hlive.inodes hq.settled.table] at hnodes
    refine ⟨_, fs', heq, hquiet, Recount.same hover.inode ip, ?_⟩
    by_cases hzero : b = 0
    · have hend : (fileBytes sb fs (fs.inode ip).inum).length ≤ off := by
        by_contra hinside
        -- inside the file every block is mapped
        have hslot := Mapped.below hq.settled hq.mapped hlive (Nat.le_refl _) (off / bsize) (by
          rw [hsize]
          exact Nat.lt_of_le_of_lt (Nat.div_mul_le_self _ _) (by omega))
        have hbn : off / bsize < maxFile := by
          rw [Nat.div_lt_iff_lt_mul (by decide)]
          omega
        rw [bmap_of_mapped hq.settled hlive hbn hslot] at hbmap
        cases hbmap
        exact hslot hzero
      refine Or.inr ⟨by rw [if_pos hzero]; omega, ?_, Or.inr ⟨hend, hfull hzero⟩⟩
      rw [if_pos hzero, Source.first, List.range_zero, List.map_nil, splice_nil] at hnodes
      rw [hnodes, ← hq.node hlive, Function.update_eq_self]
    · refine Or.inl ⟨by rw [if_neg hzero], ?_⟩
      rw [if_neg hzero, Source.first_list] at hnodes
      exact hnodes

end Locked

end Quiet

end Xv6.Fs
