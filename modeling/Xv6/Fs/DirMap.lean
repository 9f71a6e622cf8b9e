import Xv6.Fs.Image
import Xv6.Fs.Lookup

/-! A directory is a finite map on names of at most `DIRSIZ` bytes: `dirlookup` reads
it, `dirlink` adds to it, and an entry of zeros takes a name away. -/
namespace Xv6.Fs.Names

open Lib

variable {P : Type} [DecidableEq P] {sb : Superblock} {p : P} {w : World P} {dp ip : Ptr}
  {fs fs' : Store}

/-- `dp` is a directory that its holder may work with, and no name is in it twice. -/
structure IsDir (sb : Superblock) (fs : Store) (dp : Ptr) : Prop where
  wellFormed : WellFormed sb fs
  live : Live fs dp
  type : (fs.inode dp).d.type = tDir
  size : (content sb fs dp).length % direntSize = 0
  unique : UniqueNames (slots (content sb fs dp))

/-- There is neither an unused entry nor space for another one: the directory is as large
as a file can be, or there is no block for it. -/
def NoRoom (sb : Superblock) (fs : Store) (dp : Ptr) : Prop :=
  (∀ de ∈ slots (content sb fs dp), de.inum ≠ 0) ∧
    (maxFile * bsize < (content sb fs dp).length + direntSize ∨
      NoBlock sb fs (fs.inode dp).inum ((content sb fs dp).length / bsize))

structure Rewrites (sb : Superblock) (fs fs' : Store) (dp : Ptr) (bytes : List UInt8) : Prop where
  wellFormed : WellFormed sb fs'
  live : Live fs' dp
  type : (fs'.inode dp).d.type = tDir
  holds : content sb fs' dp = bytes
  ref : ∀ jp, (fs'.inode jp).ref = (fs.inode jp).ref ∧ (fs'.inode jp).inum = (fs.inode jp).inum

theorem Rewrites.of_overwrites {src : Source} {off tot : Nat} (hc : Settled sb fs)
    (hlive : Live fs dp) (htype : (fs.inode dp).d.type = tDir)
    (hoff : off ≤ (content sb fs dp).length) (hover : Overwrites sb fs fs' dp src off tot 0)
    (hsettled : Settled sb fs') (hmapped : Mapped sb fs') :
    Rewrites sb fs fs' dp (splice (content sb fs dp) off (src.first tot)) := by
  have hused := hlive.used hc.table
  obtain ⟨href, hinum, hvalid⟩ := hover.inode dp
  have hlive' : Live fs' dp := ⟨by rw [href]; exact hlive.ref, by rw [hvalid]; exact hlive.valid⟩
  refine ⟨wellFormed_of_settled hsettled hmapped, hlive', ?_, ?_,
    fun jp => ⟨(hover.inode jp).1, (hover.inode jp).2.1⟩⟩
  · rw [← hlive'.inodes hsettled.table, hinum, hover.fields _ hused, hlive.inodes hc.table]
    exact htype
  · rw [Names.content, hinum]
    rw [Names.content, length_fileBytes] at hoff
    exact hover.fileBytes hused hoff

section Directory

variable (h : IsDir sb w.fs dp)
include h

theorem IsDir.dirlookup (t : CString) :
    (dirlookup dp t).run (act sb p) w =
      match binding (slots (content sb w.fs dp)) t with
      | none => .ok (none, w)
      | some (inum, off) => (do
          let ip ← iget inum
          pure (some (ip, off)) : Kernel _).run (act sb p) w :=
  run_dirlookup h.wellFormed.settled h.wellFormed.mapped h.live h.size h.type t

theorem IsDir.writei {bytes : List UInt8} (hbytes : bytes.length = direntSize) {k : Nat}
    (hk : k ≤ (content sb w.fs dp).length / direntSize) :
    ∃ r fs', (writei dp bytes (direntSize * k)).run (act sb p) w = .ok (r, { w with fs := fs' }) ∧
      (r = direntSize ∧
          Rewrites sb w.fs fs' dp (splice (content sb w.fs dp) (direntSize * k) bytes) ∨
        r ≠ direntSize ∧ Rewrites sb w.fs fs' dp (content sb w.fs dp)) ∧
      (r ≠ direntSize ↔ k = (content sb w.fs dp).length / direntSize ∧
        (maxFile * bsize < (content sb w.fs dp).length + direntSize ∨
          ∃ mid, bmap sb w.fs dp ((content sb w.fs dp).length / bsize) = .ok (0, mid))) := by
  have hc := h.wellFormed.settled
  have hm := h.wellFormed.mapped
  have hlen := length_content hc h.live
  have hle := length_content_le hc hm h.live
  have hsize := h.size
  have hdiv := Nat.div_add_mod (content sb w.fs dp).length direntSize
  have hoff : direntSize * k ≤ (content sb w.fs dp).length := by
    have := Nat.mul_le_mul_left direntSize hk
    omega
  have hsmall : maxFile * bsize < 2 ^ 31 ∧ maxFile * bsize % direntSize = 0 := by decide
  have hnone : Rewrites sb w.fs w.fs dp (content sb w.fs dp) :=
    ⟨h.wellFormed, h.live, h.type, rfl, fun _ => ⟨rfl, rfl⟩⟩
  by_cases hmax : maxFile * bsize < direntSize * k + direntSize
  · -- the directory cannot grow
    have hlast : k = (content sb w.fs dp).length / direntSize := by
      unfold direntSize at *
      omega
    obtain ⟨r, fs', heq, -, -, -, hresult⟩ := @writei_spec sb w.fs dp (fun t => bytes[t]?)
      bytes.length hc hm h.live (direntSize * k) (by omega) (by unfold direntSize at *; omega)
    rcases hresult with ⟨-, rfl, rfl⟩ | ⟨hrange, -⟩
    · refine ⟨-1, w.fs, run_writei heq, Or.inr ⟨by decide, hnone⟩,
        ⟨fun _ => ⟨hlast, Or.inl ?_⟩, fun _ => by decide⟩⟩
      unfold direntSize at *
      omega
    · omega
  · have hfit : direntSize * k % bsize + bytes.length ≤ bsize := by
      unfold direntSize bsize at *
      omega
    obtain ⟨b, mid, fs', hbmap, heq, hsettled, hmapped, hover, -⟩ :=
      @writei_block sb w.fs dp (fun t => bytes[t]?) bytes.length (direntSize * k) hc hm h.live
        (by rw [hbytes]; decide) (fun t ht => by simp [ht]) (by omega) (by omega) hfit
    have hrewrites := Rewrites.of_overwrites hc h.live h.type hoff hover hsettled hmapped
    refine ⟨_, fs', run_writei heq, ?_⟩
    by_cases hzero : b = 0
    · rw [if_pos hzero] at hrewrites ⊢
      rw [Source.first, List.range_zero, List.map_nil, splice_nil] at hrewrites
      refine ⟨Or.inr ⟨by decide, hrewrites⟩, ⟨fun _ => ?_, fun _ => by decide⟩⟩
      have hlast : k = (content sb w.fs dp).length / direntSize := by
        by_contra hne
        -- inside the directory every block is mapped
        have hinside : direntSize * k < (content sb w.fs dp).length := by
          unfold direntSize at *
          omega
        have hslot := Mapped.below hc hm h.live (Nat.le_refl _) (direntSize * k / bsize) (by
          rw [← hlen]
          exact Nat.lt_of_le_of_lt (Nat.div_mul_le_self _ _) hinside)
        have hbn : direntSize * k / bsize < maxFile := by
          rw [Nat.div_lt_iff_lt_mul (by decide)]
          omega
        rw [bmap_of_mapped hc h.live hbn hslot] at hbmap
        cases hbmap
        exact hslot hzero
      refine ⟨hlast, Or.inr ⟨mid, ?_⟩⟩
      have heqoff : direntSize * k = (content sb w.fs dp).length := by
        rw [hlast]
        omega
      rw [← heqoff, hbmap, hzero]
    · rw [if_neg hzero] at hrewrites ⊢
      rw [Source.first_list] at hrewrites
      refine ⟨Or.inl ⟨by rw [hbytes], hrewrites⟩, ⟨fun hne => absurd (by rw [hbytes]) hne, ?_⟩⟩
      rintro ⟨hlast, hfull⟩
      have heqoff : direntSize * k = (content sb w.fs dp).length := by
        rw [hlast]
        omega
      rcases hfull with hfull | ⟨mid', hfull⟩
      · omega
      · rw [heqoff, hfull] at hbmap
        cases hbmap
        exact absurd rfl hzero

theorem IsDir.dirlink_present {s : CString} {inum i off : Nat}
    (hs : binding (slots (content sb w.fs dp)) s = some (i, off)) :
    (dirlink dp s inum).run (act sb p) w = .error (.inode .igetNoInodes) ∧ TableFull w.fs i ∨
    ∃ fs', (dirlink dp s inum).run (act sb p) w = .ok (-1, { w with fs := fs' }) ∧
      Restores w.fs fs' ∧ ∃ ip mid, TakesRef w.fs mid ip i := by
  rw [dirlink, Script.run_bind, h.dirlookup, hs]
  dsimp only
  rw [Script.run_bind, run_iget]
  rcases iget_cases w.fs i with ⟨herror, hfull⟩ | ⟨ip, mid, heq, htakes⟩
  · exact Or.inl ⟨by rw [herror]; rfl, hfull⟩
  · obtain ⟨hkeep, last, hiput, hrestores⟩ := @TakesRef.iput sb w.fs mid ip i htakes
    refine Or.inr ⟨last, ?_, hrestores, ip, mid, htakes⟩
    have hnot : ¬((mid.inode ip).ref = 1 ∧ (mid.inode ip).valid ∧ (mid.inode ip).d.nlink = 0 ∧
        w.lock ip ≠ none) := fun hfree => hkeep ⟨hfree.1, hfree.2.1⟩
    have hrun : (iput ip).run (act sb p) { w with fs := mid } =
        .ok ((), { w with fs := last }) := by
      refine (run_perform (.iput ip)).trans ?_
      simp only [act, hnot, if_false, hiput, Except.map]
      rfl
    rw [heq]
    simp only [World.onStore, run_pure]
    rw [Script.run_bind, hrun]
    rfl

omit [DecidableEq P] in
theorem IsDir.noRoom_iff : NoRoom sb w.fs dp ↔ (∀ de ∈ slots (content sb w.fs dp), de.inum ≠ 0) ∧
    (maxFile * bsize < (content sb w.fs dp).length + direntSize ∨
      ∃ mid, bmap sb w.fs dp ((content sb w.fs dp).length / bsize) = .ok (0, mid)) := by
  refine and_congr_right fun _ => ?_
  by_cases hmax : maxFile * bsize < (content sb w.fs dp).length + direntSize
  · exact iff_of_true (Or.inl hmax) (Or.inl hmax)
  · refine or_congr_right (bmap_zero_iff h.wellFormed.settled h.live ?_).symm
    rw [Nat.div_lt_iff_lt_mul (by decide)]
    unfold direntSize at hmax
    omega

theorem IsDir.dirlink_absent {s : CString} {inum : Nat}
    (hs : binding (slots (content sb w.fs dp)) s = none) :
    ∃ r fs', (dirlink dp s inum).run (act sb p) w = .ok (r, { w with fs := fs' }) ∧
      (r = 0 ∧ ¬NoRoom sb w.fs dp ∧ Rewrites sb w.fs fs' dp (splice (content sb w.fs dp)
          (direntSize * freeIndex (slots (content sb w.fs dp))) (direntBytes inum s)) ∨
        r = -1 ∧ NoRoom sb w.fs dp ∧ Rewrites sb w.fs fs' dp (content sb w.fs dp)) := by
  have hc := h.wellFormed.settled
  have hm := h.wellFormed.mapped
  have hfree := freeIndex_le (slots (content sb w.fs dp))
  rw [length_slots] at hfree
  have hlast : freeIndex (slots (content sb w.fs dp)) = (content sb w.fs dp).length / direntSize ↔
      ∀ de ∈ slots (content sb w.fs dp), de.inum ≠ 0 := by
    rw [← length_slots, freeIndex, List.findIdx_eq_length]
    simp
  obtain ⟨r, fs', hwrite, hresult, hiff⟩ :=
    h.writei (p := p) (length_direntBytes inum s) hfree
  rw [run_dirlink hc hm h.live h.size h.type hs, Script.run_bind, hwrite]
  simp only
  rw [hlast, ← h.noRoom_iff] at hiff
  by_cases hr : r = direntSize
  · refine ⟨0, fs', by rw [if_neg (not_not.mpr hr)]; rfl,
      Or.inl ⟨rfl, fun hno => hiff.mpr hno hr, ?_⟩⟩
    exact (hresult.resolve_right fun hbad => hbad.1 hr).2
  · refine ⟨-1, fs', by rw [if_pos hr]; rfl, Or.inr ⟨rfl, hiff.mp hr, ?_⟩⟩
    exact (hresult.resolve_left fun hgood => hr hgood.1).2

end Directory

def names (sb : Superblock) (fs : Store) (dp : Ptr) : CString → Option (Nat × Nat) :=
  binding (slots (content sb fs dp))

theorem Rewrites.isDir {bytes : List UInt8} (h : Rewrites sb fs fs' dp bytes)
    (hsize : bytes.length % direntSize = 0) (hunique : UniqueNames (slots bytes)) :
    IsDir sb fs' dp where
  wellFormed := h.wellFormed
  live := h.live
  type := h.type
  size := by rwa [h.holds]
  unique := by rwa [h.holds]

theorem length_splice_mod {bytes new : List UInt8} {k : Nat}
    (hsize : bytes.length % direntSize = 0) (hnew : new.length = direntSize)
    (hk : k ≤ bytes.length / direntSize) :
    (splice bytes (direntSize * k) new).length % direntSize = 0 := by
  rw [length_splice (by unfold direntSize at *; omega), hnew]
  unfold direntSize at *
  omega

theorem IsDir.erase (h : IsDir sb w.fs dp) {t : CString} {i off : Nat}
    (ht : names sb w.fs dp t = some (i, off)) :
    ∃ fs', (Names.writei dp (List.replicate direntSize 0) off).run (act sb p) w =
        .ok (direntSize, { w with fs := fs' }) ∧ IsDir sb fs' dp ∧
      ∀ u, names sb fs' dp u = if u.key = t.key then none else names sb w.fs dp u := by
  obtain ⟨k, hindex, hpair⟩ := Option.map_eq_some_iff.mp ht
  obtain ⟨-, rfl⟩ := Prod.mk.inj hpair
  obtain ⟨⟨de, hde, -⟩, -⟩ := index_eq_some.mp hindex
  have hlt := (List.getElem?_eq_some_iff.mp hde).1
  rw [length_slots] at hlt
  have hzero : (List.replicate direntSize (0 : UInt8)).length = direntSize := List.length_replicate
  obtain ⟨r, fs', hrun, hresult, hiff⟩ := h.writei (p := p) hzero (Nat.le_of_lt hlt)
  have hr : r = direntSize := by
    by_contra hne
    have := (hiff.mp hne).1
    omega
  have hrewrites := (hresult.resolve_right fun hbad => hbad.1 hr).2
  have hslots := slots_splice h.size hzero (Nat.le_of_lt hlt)
  have hgone : (Dirent.read (List.replicate direntSize 0)).inum = 0 := by decide
  refine ⟨fs', by rw [hrun, hr], hrewrites.isDir
    (length_splice_mod h.size hzero (Nat.le_of_lt hlt)) ?_,
    fun u => ?_⟩
  · rw [hslots]
    exact h.unique.put (by rw [length_slots]; omega) fun hused => absurd hgone hused
  · rw [names, hrewrites.holds, hslots]
    exact binding_clear h.unique hindex hgone

structure Links (sb : Superblock) (fs fs' : Store) (dp : Ptr) (s : CString) (inum : Nat) (r : Int) :
    Prop where
  isDir : IsDir sb fs' dp
  result : r = 0 ∨ r = -1
  refused : r = -1 ↔ names sb fs dp s ≠ none ∨ NoRoom sb fs dp
  unchanged : r = -1 → names sb fs' dp = names sb fs dp
  added : r = 0 → (∃ off, names sb fs' dp s = some (inum, off)) ∧
    ∀ t : CString, t.key ≠ s.key → names sb fs' dp t = names sb fs dp t

theorem IsDir.dirlink (h : IsDir sb w.fs dp) (s : CString) {inum : Nat} (hlow : 1 ≤ inum)
    (hhigh : inum < 2 ^ 16) :
    (∃ i off, names sb w.fs dp s = some (i, off) ∧ TableFull w.fs i ∧
      (Names.dirlink dp s inum).run (act sb p) w = .error (.inode .igetNoInodes)) ∨
    ∃ r fs', (Names.dirlink dp s inum).run (act sb p) w = .ok (r, { w with fs := fs' }) ∧
      Links sb w.fs fs' dp s inum r := by
  cases hs : names sb w.fs dp s with
  | some found =>
    obtain ⟨i, off⟩ := found
    rcases @IsDir.dirlink_present P _ sb p w dp h s inum i off hs with
      ⟨hrun, hfull⟩ | ⟨fs', hrun, hrestores, -⟩
    · exact Or.inl ⟨i, off, rfl, hfull, hrun⟩
    · have hcontent : content sb fs' dp = content sb w.fs dp := hrestores.content h.live.ref
      have hentry := hrestores.entry dp h.live.ref
      refine Or.inr ⟨-1, fs', hrun, ⟨hrestores.wellFormed h.wellFormed, ⟨?_, ?_⟩, ?_, ?_, ?_⟩,
        Or.inr rfl, ⟨fun _ => Or.inl ?_, fun _ => rfl⟩, fun _ => ?_, fun hr => by omega⟩
      · rw [hentry]
        exact h.live.ref
      · rw [hentry]
        exact h.live.valid
      · rw [hentry]
        exact h.type
      · rw [hcontent]
        exact h.size
      · rw [hcontent]
        exact h.unique
      · rw [hs]
        exact Option.some_ne_none _
      · rw [names, names, hcontent]
  | none =>
    obtain ⟨r, fs', hrun, hresult⟩ := @IsDir.dirlink_absent P _ sb p w dp h s inum hs
    refine Or.inr ⟨r, fs', hrun, ?_⟩
    rcases hresult with ⟨rfl, hroom, hrewrites⟩ | ⟨rfl, hroom, hrewrites⟩
    · have hfree := freeIndex_le (slots (content sb w.fs dp))
      have hread := read_direntBytes hhigh s
      have hslots := slots_splice (k := freeIndex (slots (content sb w.fs dp))) h.size
        (length_direntBytes inum s) (by rwa [← length_slots])
      rw [hread] at hslots
      have habsent : index s (slots (content sb w.fs dp)) = none := binding_eq_none.mp hs
      have hpos : inum ≠ 0 := by omega
      have hkey : CString.key (strncpy s dirsiz) = s.key := key_strncpy s
      have hbinds : Dirent.Binds ⟨inum, strncpy s dirsiz⟩ s :=
        ⟨hpos, (namecmp_eq_zero _ _).mpr hkey.symm⟩
      have hunused : ∀ (d : Dirent), (slots (content sb w.fs dp))[freeIndex
          (slots (content sb w.fs dp))]? = some d → ∀ t, ¬d.Binds t :=
        fun d hd t hbinds' => hbinds'.1 (inum_freeIndex hd)
      refine ⟨hrewrites.isDir (length_splice_mod h.size (length_direntBytes inum s)
        (by rwa [← length_slots])) ?_, Or.inl rfl, ⟨fun hr => by omega, fun hr => ?_⟩,
        fun hr => by omega,
        fun _ => ⟨⟨direntSize * freeIndex (slots (content sb w.fs dp)), ?_⟩, fun t ht => ?_⟩⟩
      · rw [hslots]
        refine h.unique.put hfree fun _ j d _ hd hused hsame => ?_
        exact index_eq_none.mp habsent j d hd
          ⟨hused, (namecmp_eq_zero _ _).mpr (hkey.symm.trans hsame.symm)⟩
      · rcases hr with hr | hr
        · exact absurd hs hr
        · exact absurd hr hroom
      · rw [names, hrewrites.holds, hslots]
        exact binding_put_self hfree habsent hbinds
      · rw [names, hrewrites.holds, hslots]
        refine binding_put_of_not hfree (fun d hd => hunused d hd t) fun hbinds' => ht ?_
        exact hbinds'.key.trans hkey
    · have hcontent := hrewrites.holds
      refine ⟨hrewrites.isDir h.size h.unique, Or.inr rfl, ⟨fun _ => Or.inr hroom, fun _ => rfl⟩,
        fun _ => ?_, fun hr => by omega⟩
      rw [names, names, hcontent]

/-- A directory with unique names is a finite map. Looking a name up takes a reference to
its inode and changes nothing else; linking adds a name that is not there, if there is room;
an entry of zeros removes the name it is written over. A name that is there needs an entry
of the inode table, and where there is none the kernel panics. -/
theorem directory_is_map (h : IsDir sb w.fs dp) (s : CString) {inum : Nat} (hlow : 1 ≤ inum)
    (hhigh : inum < 2 ^ 16) :
    (∀ t, match names sb w.fs dp t with
      | none => (dirlookup dp t).run (act sb p) w = .ok (none, w)
      | some (i, off) =>
          TableFull w.fs i ∧
            (dirlookup dp t).run (act sb p) w = .error (.inode .igetNoInodes) ∨
          ∃ ip fs', (dirlookup dp t).run (act sb p) w = .ok (some (ip, off), { w with fs := fs' }) ∧
            TakesRef w.fs fs' ip i) ∧
    ((∃ i off, names sb w.fs dp s = some (i, off) ∧ TableFull w.fs i ∧
        (dirlink dp s inum).run (act sb p) w = .error (.inode .igetNoInodes)) ∨
      ∃ r fs', (dirlink dp s inum).run (act sb p) w = .ok (r, { w with fs := fs' }) ∧
        Links sb w.fs fs' dp s inum r) ∧
    ∀ t i off, names sb w.fs dp t = some (i, off) →
      ∃ fs', (writei dp (List.replicate direntSize 0) off).run (act sb p) w =
          .ok (direntSize, { w with fs := fs' }) ∧ IsDir sb fs' dp ∧
        ∀ u, names sb fs' dp u = if u.key = t.key then none else names sb w.fs dp u := by
  refine ⟨fun t => ?_, h.dirlink s hlow hhigh, fun t i off ht => h.erase ht⟩
  have hlookup := h.dirlookup (p := p) t
  rw [names]
  cases ht : binding (slots (content sb w.fs dp)) t with
  | none =>
    rw [ht] at hlookup
    exact hlookup
  | some found =>
    obtain ⟨i, off⟩ := found
    rw [ht] at hlookup
    simp only at hlookup ⊢
    rw [Script.run_bind, run_iget] at hlookup
    rcases iget_cases w.fs i with ⟨herror, hfull⟩ | ⟨ip, fs', heq, htakes⟩
    · rw [herror] at hlookup
      exact Or.inl ⟨hfull, hlookup⟩
    · rw [heq] at hlookup
      exact Or.inr ⟨ip, fs', hlookup, htakes⟩

section Sample

def crowdedFiles : List (Nat × Dinode) :=
  ((List.range 49).map fun k => (k + 2, ⟨2, 0, 0, 0, 0, fun _ => 0⟩)) ++
    [(51, ⟨2, 0, 0, 1, 0, fun _ => 0⟩), (1, rootDinode 64)]

def crowdedEntries : List UInt8 :=
  direntBytes 1 dot ++ direntBytes 1 dotdot ++ direntBytes 51 [102]

def crowdedStore : Store where
  disk := imageDisk crowdedFiles crowdedEntries
  inode ip := ⟨ip + 1, 1, decide (ip.val = 0), rootDinode 64⟩

def crowdedWorld : World Unit where
  fs := crowdedStore
  lock _ := none
  outstanding := 0
  cwd _ := firstEntry

theorem quiet_crowdedStore : Quiet imageSuperblock crowdedStore := by
  have hfits : ∀ f ∈ crowdedFiles, f.2.Fits := by
    intro f hf
    simp only [crowdedFiles, List.mem_append, List.mem_cons, List.mem_map, List.not_mem_nil,
      or_false] at hf
    rcases hf with ⟨k, -, rfl⟩ | rfl | rfl
    · exact ⟨Nat.two_pow_pos 32, fun _ => Nat.two_pow_pos 32, fun _ _ => rfl⟩
    · exact ⟨Nat.two_pow_pos 32, fun _ => Nat.two_pow_pos 32, fun _ _ => rfl⟩
    · exact fits_rootDinode (by decide)
  obtain ⟨hlt, htype⟩ : (∀ f ∈ crowdedFiles, f.1 < 64) ∧
      ∀ i < 51, 1 ≤ i → (imageInode crowdedFiles i).type ≠ 0 := by decide +kernel
  have hroot : imageInode crowdedFiles 1 = rootDinode 64 := by
    simp [imageInode, crowdedFiles]
  refine @IsImage.quiet _ _ 64 _ ⟨hlt, by decide, hroot, fun f hf hne => ?_⟩ hfits
    (fun ip jp _ _ heq => Fin.ext (by simpa using heq)) (fun _ => Int.one_nonneg) (fun ip _ => ?_)
    fun ip _ hvalid => ?_
  · simp only [crowdedFiles, List.mem_append, List.mem_cons, List.mem_map, List.not_mem_nil,
      or_false] at hf
    rcases hf with ⟨k, -, rfl⟩ | rfl | rfl
    · exact ⟨rfl, rfl⟩
    · exact ⟨rfl, rfl⟩
    · exact absurd rfl hne
  · have hip : ip.val < 50 := ip.isLt
    exact ⟨Nat.le_add_left 1 _, by show ip.val + 1 < 64; omega,
      htype (ip.val + 1) (by omega) (Nat.le_add_left 1 _)⟩
  · have hip : ip.val = 0 := of_decide_eq_true hvalid
    show rootDinode 64 = imageInode crowdedFiles (ip.val + 1)
    rw [hip]
    exact hroot.symm

theorem content_crowdedStore : content imageSuperblock crowdedStore firstEntry =
    crowdedEntries ++ List.replicate 16 0 := by
  decide +kernel

theorem isDir_crowdedStore : IsDir imageSuperblock crowdedStore firstEntry := by
  have hq := quiet_crowdedStore
  refine ⟨wellFormed_of_settled hq.settled hq.mapped, ⟨by decide, by decide⟩, by decide, ?_, ?_⟩
  · rw [content_crowdedStore]
    decide +kernel
  · rw [content_crowdedStore]
    exact uniqueNames_of_getD (by decide +kernel)

theorem names_crowdedStore : names imageSuperblock crowdedStore firstEntry [102] = some (51, 32) ∧
    names imageSuperblock crowdedStore firstEntry [103] = none := by
  rw [names, content_crowdedStore]
  decide +kernel

end Sample

/-- The name "g" is linked into a directory that has "f". -/
theorem directory_is_map_crowded :
    (∃ r fs', (dirlink firstEntry [103] 51).run (act imageSuperblock ()) crowdedWorld =
        .ok (r, { crowdedWorld with fs := fs' }) ∧
      Links imageSuperblock crowdedStore fs' firstEntry [103] 51 r) ∧
    names imageSuperblock crowdedStore firstEntry [102] = some (51, 32) := by
  have hnames := names_crowdedStore
  obtain ⟨-, hlink, -⟩ := @directory_is_map Unit _ imageSuperblock () crowdedWorld firstEntry
    isDir_crowdedStore [103] 51 (by decide) (by decide)
  rcases hlink with ⟨i, off, hpresent, -⟩ | hlink
  · exact absurd (hpresent.symm.trans hnames.2) (Option.some_ne_none _)
  · exact ⟨hlink, hnames.1⟩

/-- With all entries of the inode table in use, linking a name that is there already does
not return. -/
theorem dirlink_panics : IsDir imageSuperblock crowdedStore firstEntry ∧
    names imageSuperblock crowdedStore firstEntry [102] = some (51, 32) ∧
    (dirlink firstEntry [102] 51).run (act imageSuperblock ()) crowdedWorld =
      .error (.inode .igetNoInodes) := by
  have hnames := names_crowdedStore.1
  refine ⟨isDir_crowdedStore, hnames, ?_⟩
  rcases @IsDir.dirlink_present Unit _ imageSuperblock () crowdedWorld firstEntry isDir_crowdedStore
    [102] 51 51 32 hnames with ⟨hrun, -⟩ | ⟨-, -, -, ip, mid, htakes⟩
  · exact hrun
  · -- no entry stands for inode 51, and none is free
    rcases htakes.entry with ⟨-, hentry⟩ | ⟨hzero, -⟩
    · have hnum := htakes.names
      rw [hentry] at hnum
      have hnum : ip.val + 1 = 51 := hnum
      have hip : ip.val < 50 := ip.isLt
      omega
    · exact absurd hzero Int.one_ne_zero

end Xv6.Fs.Names
