import Xv6.Fs.Node
import Xv6.Fs.Path

/-! Looking at directories: the loops over entries compute what the list of entries
says. -/
namespace Xv6.Fs.Names

open Lib

variable {P : Type} [DecidableEq P] {sb : Superblock} {p : P} {w : World P} {dp : Ptr} {α : Type}

@[simp] theorem run_perform (op : Op) : (Op.perform op).run (act sb p) w = act sb p w op :=
  Script.run_perform (I := Op.interface) op

@[simp] theorem run_pure (a : α) :
    (pure a : Kernel α).run (act sb p) w = .ok (a, w) := rfl

@[simp] theorem run_panicWith (e : Failure) :
    (panicWith e : Kernel α).run (act sb p) w = .error e := rfl

@[simp] theorem run_load (ip : Ptr) :
    (load ip).run (act sb p) w = .ok (w.fs.inode ip, w) := run_perform (.load ip)

theorem run_writei {bytes : List UInt8} {off : Nat} {r : Int} {fs : Store}
    (h : Fs.writei sb w.fs dp (fun t => bytes[t]?) off bytes.length = .ok (r, fs)) :
    (writei dp bytes off).run (act sb p) w = .ok (r, { w with fs := fs }) := by
  refine (run_perform (.writei dp bytes off)).trans ?_
  simp only [act, h]
  rfl

theorem run_iget (inum : Nat) :
    (iget inum).run (act sb p) w = w.onStore (Fs.iget w.fs inum) := run_perform (.iget inum)

theorem offsets_eq {size : Nat} (hsize : size % direntSize = 0) (k : Nat) :
    offsets (direntSize * k) size =
      (List.range' k (size / direntSize - k)).map (direntSize * ·) := by
  have hcount : (size - direntSize * k + direntSize - 1) / direntSize = size / direntSize - k := by
    unfold direntSize at *
    omega
  rw [offsets, hcount, List.range'_eq_map_range, List.map_map]
  refine List.map_congr_left fun j _ => ?_
  simp only [Function.comp, Nat.mul_add]

def content (sb : Superblock) (fs : Store) (dp : Ptr) : List UInt8 :=
  fileBytes sb fs (fs.inode dp).inum

theorem length_content {fs : Store} (hc : Settled sb fs) (hlive : Live fs dp) :
    (content sb fs dp).length = (fs.inode dp).d.size := by
  rw [content, length_fileBytes, hlive.inodes hc.table]

theorem length_content_le {fs : Store} (hc : Settled sb fs) (hm : Mapped sb fs)
    (hlive : Live fs dp) : (content sb fs dp).length ≤ maxFile * bsize := by
  rw [content, length_fileBytes]
  exact (hm _ (hlive.used hc.table)).1

theorem findIdx?_slots (bytes : List UInt8) (q : Dirent → Bool) :
    (slots bytes).findIdx? q =
      (List.range (bytes.length / direntSize)).find? fun k => q (slotAt bytes k) := by
  apply Option.ext
  intro k
  rw [List.findIdx?_eq_some_iff_getElem, List.find?_range_eq_some]
  simp only [slots, List.length_map, List.length_range, List.getElem_map, List.getElem_range,
    List.mem_range, Bool.not_eq_true, Bool.not_eq_eq_eq_not, Bool.not_true]
  constructor
  · rintro ⟨hk, hq, hfirst⟩
    exact ⟨hq, hk, hfirst⟩
  · rintro ⟨hq, hk, hfirst⟩
    exact ⟨hk, hq, hfirst⟩

theorem mem_drop_slots {bytes : List UInt8} {m : Nat} {de : Dirent} :
    de ∈ (slots bytes).drop m ↔ ∃ k, m + k < bytes.length / direntSize ∧
      de = slotAt bytes (m + k) := by
  rw [List.mem_iff_getElem?]
  refine exists_congr fun k => ?_
  rw [List.getElem?_drop, getElem?_slots]
  split
  · rename_i h
    simp [h, eq_comm]
  · rename_i h
    simp [h]

theorem findSome?_ite {β γ : Type} (q : β → Prop) [DecidablePred q] (g : β → γ) (l : List β) :
    (l.findSome? fun j => if q j then some (g j) else none) = (l.find? fun j => q j).map g := by
  induction l with
  | nil => rfl
  | cons j l ih => by_cases hj : q j <;> simp [hj, ih]

section References

variable {fs fs' : Store} {ip : Ptr}

def TableFull (fs : Store) (inum : Nat) : Prop :=
  ∀ ip, (fs.inode ip).ref ≠ 0 ∧ (0 < (fs.inode ip).ref → (fs.inode ip).inum ≠ inum)

structure TakesRef (fs fs' : Store) (ip : Ptr) (inum : Nat) : Prop where
  disk : fs'.disk = fs.disk
  other : ∀ jp, jp ≠ ip → fs'.inode jp = fs.inode jp
  ref : (fs'.inode ip).ref = (fs.inode ip).ref + 1
  names : (fs'.inode ip).inum = inum
  /-- An entry in use keeps its inode, one that was not in use is yet to be read. -/
  entry : 0 < (fs.inode ip).ref ∧ fs'.inode ip = { fs.inode ip with ref := (fs.inode ip).ref + 1 } ∨
    (fs.inode ip).ref = 0 ∧ (fs'.inode ip).valid = false

theorem iget_cases (fs : Store) (inum : Nat) :
    Fs.iget fs inum = .error .igetNoInodes ∧ TableFull fs inum ∨
    ∃ ip fs', Fs.iget fs inum = .ok (ip, fs') ∧ TakesRef fs fs' ip inum := by
  unfold Fs.iget
  cases hhit : (List.finRange ninode).find? fun ip => 0 < (fs.inode ip).ref ∧
      (fs.inode ip).inum = inum with
  | some ip =>
    have hfound := List.find?_some hhit
    simp only [decide_eq_true_eq] at hfound
    refine Or.inr ⟨ip, _, rfl, rfl, fun jp hjp => ?_, ?_, ?_, Or.inl ⟨hfound.1, ?_⟩⟩
    · simp [Store.setInode, hjp]
    · simp [Store.setInode]
    · simpa [Store.setInode] using hfound.2
    · simp [Store.setInode]
  | none =>
    cases hempty : (List.finRange ninode).find? fun ip => (fs.inode ip).ref = 0 with
    | none =>
      refine Or.inl ⟨rfl, fun ip => ⟨fun hzero => ?_, fun href heq => ?_⟩⟩
      · have := List.find?_eq_none.mp hempty ip (List.mem_finRange ip)
        simp [hzero] at this
      · have := List.find?_eq_none.mp hhit ip (List.mem_finRange ip)
        simp [href, heq] at this
    | some ip =>
      have hzero := List.find?_some hempty
      simp only [decide_eq_true_eq] at hzero
      refine Or.inr ⟨ip, _, rfl, rfl, fun jp hjp => ?_, ?_, ?_, Or.inr ⟨hzero, ?_⟩⟩
      · simp [Store.setInode, hjp]
      · simp [Store.setInode, hzero]
      · simp [Store.setInode]
      · simp [Store.setInode]

structure Restores (fs fs' : Store) : Prop where
  disk : fs'.disk = fs.disk
  ref : ∀ jp, (fs'.inode jp).ref = (fs.inode jp).ref
  entry : ∀ jp, 0 < (fs.inode jp).ref → fs'.inode jp = fs.inode jp

theorem Restores.inodes (h : Restores fs fs') : inodes sb fs' = inodes sb fs := by
  have hlive : (fun jp => (fs'.inode jp).live) = fun jp => (fs.inode jp).live := by
    funext jp
    by_cases href : 0 < (fs.inode jp).ref
    · rw [h.entry jp href]
    · simp [Inode.live, h.ref jp, href]
  unfold Fs.inodes
  rw [hlive, h.disk]

theorem Restores.wellFormed (h : Restores fs fs') (hwf : WellFormed sb fs) : WellFormed sb fs' := by
  have hinodes : Fs.inodes sb fs' = Fs.inodes sb fs := h.inodes
  have hentry : ∀ jp, 0 < (fs'.inode jp).ref → 0 < (fs.inode jp).ref ∧
      fs'.inode jp = fs.inode jp := by
    intro jp href
    rw [h.ref jp] at href
    exact ⟨href, h.entry jp href⟩
  have hrefs : ∀ i slot, blockRef sb fs' i slot = blockRef sb fs i slot := by
    intro i slot
    unfold blockRef
    rw [hinodes, h.disk]
  have hused : ∀ i, Used sb fs' i ↔ Used sb fs i := by
    intro i
    unfold Used
    rw [hinodes]
  refine wellFormed_of_settled (Core.congr hwf.settled ⟨fun jp kp hj hk heq => ?_, fun jp hj => ?_,
    fun jp hj => ?_⟩ (fun x _ => by rw [h.disk]) (holds_congr hused fun i slot _ => hrefs i slot)
    hwf.settled.entries) fun i hi => ?_
  · obtain ⟨hj, hsamej⟩ := hentry jp hj
    obtain ⟨hk, hsamek⟩ := hentry kp hk
    rw [hsamej, hsamek] at heq
    exact hwf.table.unique jp kp hj hk heq
  · obtain ⟨hj, hsame⟩ := hentry jp hj
    rw [hsame, h.disk]
    exact hwf.table.used jp hj
  · obtain ⟨hj, hsame⟩ := hentry jp hj
    rw [hsame]
    exact hwf.table.valid jp hj
  · simp only [hrefs, hinodes]
    exact hwf.mapped i ((hused i).mp hi)

theorem Restores.content (h : Restores fs fs') (href : 0 < (fs.inode dp).ref) :
    content sb fs' dp = content sb fs dp := by
  unfold Names.content
  rw [h.entry dp href]
  refine fileBytes_congr (by rw [h.inodes]) fun o => byteAt_congr ?_ fun _ => by rw [h.disk]
  unfold blockRef
  rw [h.inodes, h.disk]

theorem Restores.nodes (h : Restores fs fs') : nodes sb fs' = nodes sb fs :=
  nodes_of_table h.inodes h.disk

theorem Restores.quiet (h : Restores fs fs') (hq : Quiet sb fs) : Quiet sb fs' := by
  have hwf := h.wellFormed (wellFormed_of_settled hq.settled hq.mapped)
  refine ⟨hwf.settled, hwf.mapped, fun i hi => ?_, fun jp => ?_⟩
  · rw [h.inodes, h.disk]
    exact hq.clean i hi
  · rw [h.ref jp]
    exact hq.nonneg jp

theorem Restores.recount (h : Restores fs fs') (ip : Ptr) : Recount fs fs' ip 0 where
  ref jp := by
    rw [h.ref jp]
    split <;> omega
  inum jp hjp _ := by rw [h.entry jp hjp]
  valid jp hjp _ hv := by rwa [h.entry jp hjp]

theorem TakesRef.iput {inum : Nat} (h : TakesRef fs fs' ip inum) :
    ¬((fs'.inode ip).ref = 1 ∧ (fs'.inode ip).valid = true) ∧
    ∃ last, Fs.iput sb fs' ip = .ok last ∧ Restores fs last := by
  have hnot : ¬((fs'.inode ip).ref = 1 ∧ (fs'.inode ip).valid = true) := by
    rintro ⟨hone, hvalid⟩
    rcases h.entry with ⟨hpos, -⟩ | ⟨-, hunread⟩
    · have := h.ref
      omega
    · rw [hunread] at hvalid
      cases hvalid
  have hkeep : ¬((fs'.inode ip).ref = 1 ∧ (fs'.inode ip).valid ∧ (fs'.inode ip).d.nlink = 0) :=
    fun hfree => hnot ⟨hfree.1, hfree.2.1⟩
  refine ⟨hnot, fs'.setInode ip { fs'.inode ip with ref := (fs'.inode ip).ref - 1 }, ?_,
    h.disk, fun jp => ?_, fun jp hjp => ?_⟩
  · unfold Fs.iput
    simp only [hkeep, if_false, bind, Except.bind, pure, Except.pure]
  · by_cases heq : jp = ip
    · simp [Store.setInode, heq, h.ref]
    · simp [Store.setInode, heq, h.other jp heq]
  · by_cases heq : jp = ip
    · subst heq
      rcases h.entry with ⟨-, hsame⟩ | ⟨hzero, -⟩
      · simp [Store.setInode, hsame]
      · omega
    · simp [Store.setInode, heq, h.other jp heq]

end References

section Read

variable (hc : Settled sb w.fs) (hm : Mapped sb w.fs) (hlive : Live w.fs dp)
include hc hm hlive

theorem run_readi {off n : Nat} (hoff : off + n ≤ (content sb w.fs dp).length) :
    (readi dp off n).run (act sb p) w =
      .ok ((n, ((content sb w.fs dp).drop off).take n), w) := by
  have hle := length_content_le hc hm hlive
  have hsmall : maxFile * bsize < 2 ^ 32 := by decide
  have hlen : (((content sb w.fs dp).drop off).take n).length = n := by
    rw [List.length_take, List.length_drop]
    omega
  refine (run_perform (.readi dp off n)).trans ?_
  have hread := @readi_bytes sb w.fs dp n off hc hm hlive
      (by rw [content] at hoff; omega) (by omega)
  simp only [act, hread, Except.map, World.onStore]
  rw [content] at hlen
  rw [hlen]
  rfl

variable (hsize : (content sb w.fs dp).length % direntSize = 0)
include hsize

theorem run_scan {failure : Failure} {visit : Nat → Dirent → Option (Kernel α)}
    {otherwise : Kernel α} (n : Nat) : ∀ k,
    (0 < n → k + n ≤ (content sb w.fs dp).length / direntSize) →
    (scan dp failure visit otherwise ((List.range' k n).map (direntSize * ·))).run (act sb p) w =
      (((List.range' k n).findSome? fun j =>
        visit (direntSize * j) (slotAt (content sb w.fs dp) j)).getD otherwise).run
          (act sb p) w := by
  induction n with
  | zero =>
    intro k _
    rfl
  | succ n ih =>
    intro k hk
    have hk := hk (Nat.succ_pos n)
    have hoff : direntSize * k + direntSize ≤ (content sb w.fs dp).length := by
      unfold direntSize at *
      omega
    rw [List.range'_succ, List.map_cons, List.findSome?_cons, scan, Script.run_bind,
      run_readi hc hm hlive hoff]
    simp only [ne_eq, not_true_eq_false, if_false]
    have hread : Dirent.read (List.take direntSize (List.drop (direntSize * k)
        (content sb w.fs dp))) = slotAt (content sb w.fs dp) k := rfl
    rw [hread]
    cases visit (direntSize * k) (slotAt (content sb w.fs dp) k) with
    | some next => rfl
    | none => exact ih (k + 1) fun _ => by omega

theorem run_dirlookup (htype : (w.fs.inode dp).d.type = tDir) (name : CString) :
    (dirlookup dp name).run (act sb p) w =
      match binding (slots (content sb w.fs dp)) name with
      | none => .ok (none, w)
      | some (inum, off) => (do
          let ip ← iget inum
          pure (some (ip, off)) : Kernel _).run (act sb p) w := by
  have hoffsets := offsets_eq hsize 0
  rw [dirlookup, Script.run_bind, run_load]
  simp only [htype, ne_eq, not_true_eq_false, if_false]
  rw [← length_content hc hlive]
  rw [Nat.mul_zero, Nat.sub_zero] at hoffsets
  have hindex : ((List.range ((content sb w.fs dp).length / direntSize)).find? fun k =>
      decide ((slotAt (content sb w.fs dp) k).inum ≠ 0 ∧
        namecmp name (slotAt (content sb w.fs dp) k).name = 0)) =
      index name (slots (content sb w.fs dp)) :=
    (findIdx?_slots (content sb w.fs dp) fun de => de.Binds name).symm
  rw [hoffsets, run_scan hc hm hlive hsize _ 0 (fun _ => by omega), findSome?_ite,
    ← List.range_eq_range',
    hindex, binding]
  cases hfound : index name (slots (content sb w.fs dp)) with
  | none => rfl
  | some k =>
    obtain ⟨⟨de, hde, -⟩, -⟩ := index_eq_some.mp hfound
    have hlt := (List.getElem?_eq_some_iff.mp hde).1
    rw [length_slots] at hlt
    have hslot : (slots (content sb w.fs dp)).getD k ⟨0, []⟩ = slotAt (content sb w.fs dp) k := by
      rw [List.getD_eq_getElem?_getD, getElem?_slots, if_pos hlt]
      rfl
    simp only [Option.map_some, hslot]
    rfl

theorem run_firstFree {last : Nat} (hlast : last = (content sb w.fs dp).length / direntSize) :
    (scan dp .dirlinkRead (fun off de => if de.inum = 0 then some (pure off) else none)
      (pure (direntSize * last)) (offsets 0 (content sb w.fs dp).length)).run (act sb p) w =
      .ok (direntSize * freeIndex (slots (content sb w.fs dp)), w) := by
  have hoffsets := offsets_eq hsize 0
  rw [Nat.mul_zero, Nat.sub_zero] at hoffsets
  rw [hoffsets, run_scan hc hm hlive hsize _ 0 (fun _ => by omega), findSome?_ite,
    ← List.range_eq_range',
    freeIndex]
  have hfind := findIdx?_slots (content sb w.fs dp) fun de => de.inum = 0
  rw [← hfind]
  cases hfree : (slots (content sb w.fs dp)).findIdx? fun de => de.inum = 0 with
  | none =>
    have hall := List.findIdx?_eq_none_iff.mp hfree
    rw [List.findIdx_eq_length.mpr hall, length_slots, ← hlast]
    rfl
  | some k =>
    have hk := (List.findIdx?_eq_some_iff_findIdx_eq.mp hfree).2
    rw [hk]
    rfl

theorem run_dirlink (htype : (w.fs.inode dp).d.type = tDir) {name : CString} {inum : Nat}
    (hname : binding (slots (content sb w.fs dp)) name = none) :
    (dirlink dp name inum).run (act sb p) w = (do
      let r ← writei dp (direntBytes inum name)
        (direntSize * freeIndex (slots (content sb w.fs dp)))
      if r ≠ direntSize then pure (-1) else pure 0 : Kernel Int).run (act sb p) w := by
  have hcount : (offsets 0 (content sb w.fs dp).length).length =
      (content sb w.fs dp).length / direntSize := by
    have hoffsets := offsets_eq hsize 0
    rw [Nat.mul_zero, Nat.sub_zero] at hoffsets
    rw [hoffsets, List.length_map, List.length_range']
  rw [dirlink, Script.run_bind, run_dirlookup hc hm hlive hsize htype, hname]
  simp only
  rw [Script.run_bind, run_load]
  simp only [← length_content hc hlive]
  rw [Script.run_bind, run_firstFree hc hm hlive hsize hcount]

theorem run_isdirempty :
    (isdirempty dp).run (act sb p) w =
      .ok (decide (∀ de ∈ (slots (content sb w.fs dp)).drop 2, de.inum = 0), w) := by
  have hoffsets := offsets_eq hsize 2
  rw [Nat.mul_comm] at hoffsets
  rw [isdirempty, Script.run_bind, run_load]
  simp only [← length_content hc hlive]
  rw [hoffsets]
  rw [run_scan hc hm hlive hsize _ 2 (fun _ => by omega), findSome?_ite]
  cases hfind : (List.range' 2 ((content sb w.fs dp).length / direntSize - 2)).find? fun j =>
      decide ((slotAt (content sb w.fs dp) j).inum ≠ 0) with
  | none =>
    have hall := List.find?_eq_none.mp hfind
    have hempty : ∀ de ∈ (slots (content sb w.fs dp)).drop 2, de.inum = 0 := by
      intro de hde
      obtain ⟨k, hk, hslot⟩ := mem_drop_slots.mp hde
      have := hall (2 + k) (List.mem_range'.mpr ⟨k, by omega, by omega⟩)
      simpa [hslot] using this
    rw [decide_eq_true hempty]
    rfl
  | some j =>
    have hused := List.find?_some hfind
    obtain ⟨k, hk, hj⟩ := List.mem_range'.mp (List.mem_of_find?_eq_some hfind)
    have hnot : ¬∀ de ∈ (slots (content sb w.fs dp)).drop 2, de.inum = 0 := by
      intro hempty
      have := hempty (slotAt (content sb w.fs dp) (2 + k)) (mem_drop_slots.mpr ⟨k, by omega, rfl⟩)
      rw [hj, Nat.one_mul] at hused
      simp [this] at hused
    rw [decide_eq_false hnot]
    rfl

end Read

end Xv6.Fs.Names
