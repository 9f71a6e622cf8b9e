import Xv6.Fs.Calls

/-! Files as sequences of bytes: what `readi` and `writei` do to them. -/
namespace Xv6.Fs

open Lib

variable {sb : Superblock} {fs fs' : Store} {ip : Ptr} {src : Source} {n off : Nat}

def fileBytes (sb : Superblock) (fs : Store) (i : Nat) : List UInt8 :=
  (List.range (inodes sb fs i).size).map (byteAt sb fs i)

def splice (old : List UInt8) (off : Nat) (new : List UInt8) : List UInt8 :=
  old.take off ++ new ++ old.drop (off + new.length)

def Source.first (src : Source) (tot : Nat) : List UInt8 :=
  (List.range tot).map fun t => (src t).getD 0

theorem Source.first_list (bytes : List UInt8) :
    Source.first (fun t => bytes[t]?) bytes.length = bytes := by
  apply List.ext_getElem?
  intro t
  by_cases ht : t < bytes.length
  · simp [Source.first, ht]
  · simp [Source.first, Nat.not_lt.mp ht]

theorem splice_nil (old : List UInt8) (off : Nat) : splice old off [] = old := by
  simp [splice]

theorem length_fileBytes (sb : Superblock) (fs : Store) (i : Nat) :
    (fileBytes sb fs i).length = (inodes sb fs i).size := by
  simp [fileBytes]

theorem getElem?_fileBytes (sb : Superblock) (fs : Store) (i o : Nat) :
    (fileBytes sb fs i)[o]? =
      if o < (inodes sb fs i).size then some (byteAt sb fs i o) else none := by
  simp only [fileBytes, List.getElem?_map]
  split <;> simp [*]

theorem getElem?_splice {old new : List UInt8} (hoff : off ≤ old.length) (o : Nat) :
    (splice old off new)[o]? =
      if off ≤ o ∧ o < off + new.length then new[o - off]? else old[o]? := by
  have hlen : (old.take off).length = off := by
    rw [List.length_take]
    omega
  unfold splice
  by_cases hlow : o < off
  · rw [if_neg (by omega), List.append_assoc, List.getElem?_append_left (by omega),
      List.getElem?_take_of_lt hlow]
  · by_cases hmid : o < off + new.length
    · rw [if_pos (by omega), List.append_assoc, List.getElem?_append_right (by omega), hlen,
        List.getElem?_append_left (by omega)]
    · have hsum : (old.take off ++ new).length = off + new.length := by
        rw [List.length_append, hlen]
      have hindex : off + new.length + (o - (off + new.length)) = o := by omega
      rw [if_neg (by omega), List.getElem?_append_right (by omega), hsum,
        List.getElem?_drop, hindex]

/-- The file has the new bytes in place of the old ones; those beyond that went into its last
block are not seen if they are the old ones too. -/
theorem Overwrites.fileBytes_iff {tot extra : Nat}
    (h : Overwrites sb fs fs' ip src off tot extra) (hused : Used sb fs (fs.inode ip).inum)
    (hoff : off ≤ (inodes sb fs (fs.inode ip).inum).size) :
    fileBytes sb fs' (fs.inode ip).inum =
      splice (fileBytes sb fs (fs.inode ip).inum) off (src.first tot) ↔
    ∀ t, tot ≤ t → t < tot + extra → off + t < (inodes sb fs (fs.inode ip).inum).size →
      (src t).getD 0 = byteAt sb fs (fs.inode ip).inum (off + t) := by
  have hsize : (inodes sb fs' (fs.inode ip).inum).size =
      max (inodes sb fs (fs.inode ip).inum).size (off + tot) := by
    rw [h.fields _ hused, if_pos rfl]
  have hbytes : ∀ o, (fileBytes sb fs' (fs.inode ip).inum)[o]? =
        (splice (fileBytes sb fs (fs.inode ip).inum) off (src.first tot))[o]? ↔
      (off + tot ≤ o → o < off + tot + extra → o < (inodes sb fs (fs.inode ip).inum).size →
        (src (o - off)).getD 0 = byteAt sb fs (fs.inode ip).inum o) := by
    intro o
    rw [getElem?_splice (by rwa [length_fileBytes])]
    simp only [getElem?_fileBytes, hsize, h.bytes _ o hused, true_and, Source.first,
      List.length_map, List.length_range, List.getElem?_map]
    by_cases hin : off ≤ o ∧ o < off + tot
    · have hlt : o < max (inodes sb fs (fs.inode ip).inum).size (off + tot) := by omega
      have hwide : off ≤ o ∧ o < off + tot + extra := by omega
      have hindex : o - off < tot := by omega
      simp [hin, hlt, hwide, List.getElem?_range hindex]
    · have hiff : o < max (inodes sb fs (fs.inode ip).inum).size (off + tot) ↔
          o < (inodes sb fs (fs.inode ip).inum).size := by omega
      simp only [hin, hiff, if_false]
      by_cases hlt : o < (inodes sb fs (fs.inode ip).inum).size
      · by_cases hwide : off ≤ o ∧ o < off + tot + extra
        · have hlow : off + tot ≤ o := by omega
          simp [hlt, hwide, hlow]
        · have hout : ¬(off + tot ≤ o ∧ o < off + tot + extra) := by omega
          simp only [hlt, hwide, if_true, if_false, true_iff]
          exact fun hlo hhi => absurd ⟨hlo, hhi⟩ hout
      · simp [hlt]
  constructor
  · intro heq t hlo hhi hlt
    have := (hbytes (off + t)).mp (by rw [heq]) (by omega) (by omega) hlt
    rwa [Nat.add_sub_cancel_left] at this
  · intro hsame
    refine List.ext_getElem? fun o => (hbytes o).mpr fun hlo hhi hlt => ?_
    have := hsame (o - off) (by omega) (by omega)
    rw [Nat.add_sub_of_le (by omega)] at this
    exact this hlt

theorem Overwrites.fileBytes {tot : Nat} (h : Overwrites sb fs fs' ip src off tot 0)
    (hused : Used sb fs (fs.inode ip).inum)
    (hoff : off ≤ (inodes sb fs (fs.inode ip).inum).size) :
    fileBytes sb fs' (fs.inode ip).inum =
      splice (fileBytes sb fs (fs.inode ip).inum) off (src.first tot) :=
  (h.fileBytes_iff hused hoff).mpr fun _ hlo hhi => absurd hhi (Nat.not_lt.mpr hlo)

theorem Overwrites.fileBytes_of_ne {tot extra i : Nat}
    (h : Overwrites sb fs fs' ip src off tot extra) (hi : Used sb fs i)
    (hne : i ≠ (fs.inode ip).inum) : Fs.fileBytes sb fs' i = Fs.fileBytes sb fs i := by
  apply List.ext_getElem?
  intro o
  have hbyte : byteAt sb fs' i o = byteAt sb fs i o := by
    rw [h.bytes i o hi, if_neg fun hin => hne hin.1]
  rw [getElem?_fileBytes, getElem?_fileBytes, h.fields i hi, hbyte, if_neg hne]

theorem slice_fileBytes (sb : Superblock) (fs : Store) (i off n : Nat) :
    (List.range (min n ((inodes sb fs i).size - off))).map (fun t => byteAt sb fs i (off + t)) =
      ((fileBytes sb fs i).drop off).take n := by
  apply List.ext_getElem?
  intro t
  rw [List.getElem?_map, List.getElem?_take, List.getElem?_drop, getElem?_fileBytes]
  by_cases ht : t < min n ((inodes sb fs i).size - off)
  · have hn : t < n := by omega
    have hsize : off + t < (inodes sb fs i).size := by omega
    simp [List.getElem?_range ht, hn, hsize]
  · rw [List.getElem?_eq_none (by rw [List.length_range]; omega)]
    split
    · rw [if_neg (by omega)]
      rfl
    · rfl

theorem readi_bytes (hc : Settled sb fs) (hm : Mapped sb fs) (hlive : Live fs ip)
    (hoff : off ≤ (fileBytes sb fs (fs.inode ip).inum).length) (hn : off + n < 2 ^ 32) :
    readi sb fs ip (fun _ => true) off n =
      .ok ((((fileBytes sb fs (fs.inode ip).inum).drop off).take n).length,
        ((fileBytes sb fs (fs.inode ip).inum).drop off).take n, fs) := by
  obtain ⟨r, k, heq, hresult⟩ := @readi_spec sb fs ip (fun _ => true) n hc hlive off hm
    (by omega) (by omega)
  have hsize : (fs.inode ip).d.size = (fileBytes sb fs (fs.inode ip).inum).length := by
    rw [length_fileBytes, hlive.inodes hc.table]
  rw [heq]
  rcases hresult with ⟨hnone, -, -⟩ | ⟨-, ⟨hk, rfl⟩ | ⟨-, -, hstop⟩⟩
  · omega
  · rw [hsize, length_fileBytes] at hk
    rw [hk, slice_fileBytes]
    have hlen : (((fileBytes sb fs (fs.inode ip).inum).drop off).take n).length =
        min n ((inodes sb fs (fs.inode ip).inum).size - off) := by
      rw [List.length_take, List.length_drop, length_fileBytes]
    rw [hlen]
  · cases hstop

/-- The loop of `writei`, for bytes that can be read and go to one block: it writes them
all, or none when there is no block to be had. -/
theorem writeLoop_block {b : Nat} {mid : Store} (hpos : 0 < n)
    (hbmap : bmap sb fs ip (off / bsize) = .ok (b, mid)) (hfit : off % bsize + n ≤ bsize)
    (hsrc : ∀ t, t < n → src t ≠ none) :
    ∃ off' fs', writeLoop sb ip src n n 0 off fs = .ok (if b = 0 then 0 else n, off', fs') := by
  obtain ⟨fuel, rfl⟩ : ∃ fuel, n = fuel + 1 := ⟨n - 1, by omega⟩
  rw [writeLoop, if_pos hpos, hbmap]
  simp only [bind, Except.bind]
  by_cases hzero : b = 0
  · exact ⟨off, mid, by simp [hzero, pure, Except.pure]⟩
  · have hm : min (fuel + 1 - 0) (bsize - off % bsize) = fuel + 1 := by omega
    obtain ⟨k, data, hcopy, hk, -, hstop, -⟩ :=
      @eitherCopyin_spec src (fuel + 1) (mid.disk b) (off % bsize) 0 hfit
    have hall : k = fuel + 1 := by
      by_contra hne
      exact hsrc _ (by omega) (hstop (by omega))
    have hdone : ¬0 + (fuel + 1) < fuel + 1 := by omega
    simp only [hzero, if_false, hm, hcopy, hall, decide_true, if_true]
    cases fuel with
    | zero => exact ⟨_, _, rfl⟩
    | succ fuel =>
      rw [writeLoop, if_neg hdone]
      exact ⟨_, _, by rw [Nat.zero_add]; rfl⟩

theorem writei_block (hc : Settled sb fs) (hm : Mapped sb fs) (hlive : Live fs ip) (hpos : 0 < n)
    (hsrc : ∀ t, t < n → src t ≠ none) (hoff : off ≤ (fs.inode ip).d.size)
    (hmax : off + n ≤ maxFile * bsize) (hfit : off % bsize + n ≤ bsize) :
    ∃ b mid fs', bmap sb fs ip (off / bsize) = .ok (b, mid) ∧
      writei sb fs ip src off n = .ok ((if b = 0 then 0 else n : Nat), fs') ∧
      Settled sb fs' ∧ Mapped sb fs' ∧
      Overwrites sb fs fs' ip src off (if b = 0 then 0 else n) 0 ∧ (b = 0 → Full sb fs'.disk) := by
  have hsmall : maxFile * bsize < 2 ^ 32 := by decide
  have hbn : off / bsize < maxFile := by
    rw [Nat.div_lt_iff_lt_mul (by decide)]
    omega
  obtain ⟨b, mid, hbmap, -⟩ := bmap_spec hc hlive hbn
  obtain ⟨r, fs', heq, hsettled, hmapped, -, hresult⟩ :=
    @writei_spec sb fs ip src n hc hm hlive off (by omega) (by omega)
  obtain ⟨off', last, hloop⟩ := writeLoop_block hpos hbmap hfit hsrc
  rcases hresult with ⟨hrefused, -, -⟩ | ⟨-, tot, extra, rfl, hover, hstops⟩
  · omega
  have htot : tot = if b = 0 then 0 else n := by
    have hrange : ¬(off > (fs.inode ip).d.size ∨ (off + n) % 2 ^ 32 < off) := by omega
    have hlarge : ¬(off + n) % 2 ^ 32 > maxFile * bsize := by omega
    unfold writei at heq
    simp only [hrange, hlarge, if_false, hloop, bind, Except.bind, pure, Except.pure] at heq
    injection heq with heq
    have hfst := congrArg Prod.fst heq
    exact Int.ofNat_inj.mp hfst.symm
  have hle := hstops.le
  have hshort : tot < n → extra = 0 ∧ Full sb fs'.disk := fun hlt =>
    ((hstops.short hlt).resolve_left fun hstop => hsrc _ hstop.2 hstop.1).imp_right And.left
  have hextra : extra = 0 := by
    by_cases hlt : tot < n
    · exact (hshort hlt).1
    · omega
  subst htot hextra
  refine ⟨b, mid, fs', hbmap, heq, hsettled, hmapped, hover, fun hzero => (hshort ?_).2⟩
  rw [if_pos hzero]
  exact hpos

structure WritesFile (sb : Superblock) (fs fs' : Store) (ip : Ptr) (src : Source) (off n : Nat)
    (r : Int) : Prop where
  wellFormed : WellFormed sb fs'
  refuses : (fs.inode ip).d.size < off ∨ 2 ^ 32 ≤ off + n ∨ maxFile * bsize < off + n →
    r = -1 ∧ fs' = fs
  writes : ¬((fs.inode ip).d.size < off ∨ 2 ^ 32 ≤ off + n ∨ maxFile * bsize < off + n) →
    ∃ tot : Nat, r = tot ∧ tot ≤ n ∧ (tot < n → Full sb fs'.disk) ∧
      fileBytes sb fs' (fs.inode ip).inum =
        splice (fileBytes sb fs (fs.inode ip).inum) off (src.first tot) ∧
      (inodes sb fs' (fs.inode ip).inum).size =
        max (inodes sb fs (fs.inode ip).inum).size (off + tot)
  used : ∀ i, Used sb fs' i ↔ Used sb fs i
  others : ∀ i, Used sb fs i → i ≠ (fs.inode ip).inum →
    fileBytes sb fs' i = fileBytes sb fs i ∧
      (inodes sb fs' i).size = (inodes sb fs i).size

/-- In any state of the disk in which every block has its one place, files are sequences
of bytes to `writei` and `readi`. -/
theorem files_are_bytes (h : WellFormed sb fs) (href : 0 < (fs.inode ip).ref)
    (hvalid : (fs.inode ip).valid = true) (hoff : off < 2 ^ 32) (hn : n < 2 ^ 32)
    (hsrc : ∀ t, t < n → src t ≠ none) {sink : Sink} (hsink : ∀ t, t < n → sink t = true) :
    (∃ r fs', writei sb fs ip src off n = .ok (r, fs') ∧ WritesFile sb fs fs' ip src off n r) ∧
    readi sb fs ip sink off n = .ok (
      if (fs.inode ip).d.size < off ∨ 2 ^ 32 ≤ off + n then (0, [], fs)
      else
        let bytes := ((fileBytes sb fs (fs.inode ip).inum).drop off).take n
        (bytes.length, bytes, fs)) := by
  have hlive : Live fs ip := ⟨href, hvalid⟩
  have hc := h.settled
  have hused := hlive.used hc.table
  have hinode := hlive.inodes hc.table
  constructor
  · obtain ⟨r, fs', heq, hsettled, hmapped, -, hresult⟩ :=
      @writei_spec sb fs ip src n hc h.mapped hlive off hoff hn
    refine ⟨r, fs', heq, ?_⟩
    rcases hresult with ⟨hrefused, rfl, rfl⟩ | ⟨hrange, tot, extra, rfl, hover, hstops⟩
    · exact ⟨h, fun _ => ⟨rfl, rfl⟩, fun hnot => absurd hrefused hnot, fun _ => Iff.rfl,
        fun _ _ _ => ⟨rfl, rfl⟩⟩
    · have hle := hstops.le
      -- a source that can be read stops the loop on a full disk only
      have hfull : tot < n → extra = 0 ∧ Full sb fs'.disk := fun hshort =>
        ((hstops.short hshort).resolve_left fun hstop => hsrc _ hstop.2 hstop.1).imp_right And.left
      have hextra : extra = 0 := by
        by_cases hshort : tot < n
        · exact (hfull hshort).1
        · omega
      subst hextra
      refine ⟨wellFormed_of_settled hsettled hmapped, fun hrefused => ?_, fun _ => ?_, hover.used,
        fun i hi hne => ⟨hover.fileBytes_of_ne hi hne, ?_⟩⟩
      · have : maxFile * bsize < 2 ^ 32 := by decide
        omega
      · refine ⟨tot, rfl, hle.2, fun hshort => (hfull hshort).2,
          hover.fileBytes hused (by rw [hinode]; exact hrange.1), ?_⟩
        rw [hover.fields _ hused, if_pos rfl]
      · rw [hover.fields i hi, if_neg hne]
  · obtain ⟨r, k, heq, hresult⟩ := @readi_spec sb fs ip sink n hc hlive off h.mapped hoff hn
    rw [heq]
    congr 1
    rcases hresult with ⟨hnone, rfl, rfl⟩ | ⟨hrange, ⟨hk, rfl⟩ | ⟨hk, -, hstop⟩⟩
    · rw [if_pos hnone]
      rfl
    · rw [if_neg (by omega), hk, ← hinode, slice_fileBytes]
      have hlen : (((fileBytes sb fs (fs.inode ip).inum).drop off).take n).length =
          min n ((inodes sb fs (fs.inode ip).inum).size - off) := by
        rw [List.length_take, List.length_drop, length_fileBytes]
      simp only [hlen]
    · rw [hsink k (by omega)] at hstop
      cases hstop

section Sample

/-- A disk of 37 blocks with room for 31 files of one block. -/
def crowdSuperblock : Superblock := ⟨37, 32, 0, 2, 2, 5⟩

def crowdFile (k : Nat) : Dinode :=
  ⟨2, 0, 0, 1, bsize, Function.update (fun _ => 0) 0 (6 + k)⟩

def crowdStore : Store where
  disk b :=
    if b = 5 then (List.range 37).foldl markBit (Bytes.zero bsize)
    else (List.range 31).foldl (fun block k =>
      if crowdSuperblock.iblock (k + 1) = b then
        writeDinode block ((k + 1) % ipb) (crowdFile k)
      else block) (Bytes.zero bsize)
  inode ip := if ip.val < 31 then ⟨ip + 1, 1, true, crowdFile ip⟩ else ⟨0, 0, false, .fresh 0⟩

theorem refs_crowdFile (k : Nat) (disk : Disk) (slot : RefSlot) :
    (crowdFile k).refs disk slot = if slot = .addr 0 then 6 + k else 0 := by
  cases slot with
  | addr i =>
    by_cases hi : i = 0
    · subst hi
      simp [Dinode.refs, crowdFile]
    · simp [Dinode.refs, crowdFile, hi]
  | entry j => simp [Dinode.refs, crowdFile, nDirect]

theorem inode_crowdStore {ip : Ptr} (h : 0 < (crowdStore.inode ip).ref) :
    ip.val < 31 ∧ crowdStore.inode ip = ⟨ip + 1, 1, true, crowdFile ip⟩ := by
  by_cases hip : ip.val < 31
  · exact ⟨hip, if_pos hip⟩
  · simp [crowdStore, hip] at h

theorem unique_crowdStore : UniqueEntries crowdStore := by
  intro ip jp hi hj heq
  rw [(inode_crowdStore hi).2, (inode_crowdStore hj).2] at heq
  exact Fin.ext (by simpa using heq)

theorem inodes_crowdStore {i : Nat} (hlow : 1 ≤ i) (hhigh : i < 32) :
    inodes crowdSuperblock crowdStore i = crowdFile (i - 1) := by
  let ip : Ptr := ⟨i - 1, Nat.lt_of_lt_of_le (by omega : i - 1 < 31) (by decide)⟩
  have hip : crowdStore.inode ip = ⟨ip + 1, 1, true, crowdFile ip⟩ :=
    if_pos (show i - 1 < 31 by omega)
  have h := @inodes_of_live crowdSuperblock crowdStore ip unique_crowdStore
    (by rw [hip]; exact Int.one_pos) (by rw [hip])
  rw [hip] at h
  have hi : ip.val + 1 = i := by
    show i - 1 + 1 = i
    omega
  rwa [hi] at h

theorem wellFormed_crowdStore : WellFormed crowdSuperblock crowdStore := by
  have hmarked : ∀ b < 37, marked crowdSuperblock crowdStore.disk b = true := by
    decide +kernel
  have htype : ∀ i < 32, 1 ≤ i → (diskInode crowdSuperblock crowdStore.disk i).type ≠ 0 := by
    decide +kernel
  have hfits : ∀ k, k < 31 → (crowdFile k).Fits := by
    intro k hk
    refine ⟨by simp [crowdFile, bsize], fun i => ?_, fun i hi => ?_⟩
    · by_cases hi : i = 0
      · simp only [crowdFile, hi, Function.update_self]
        omega
      · simp [crowdFile, hi]
    · have hne : i ≠ 0 := by omega
      simp [crowdFile, hne]
  have hslot : ∀ i slot, Used crowdSuperblock crowdStore i →
      blockRef crowdSuperblock crowdStore i slot = if slot = .addr 0 then 6 + (i - 1) else 0 := by
    intro i slot hi
    rw [blockRef, inodes_crowdStore hi.1 hi.2.1, refs_crowdFile]
  have hused : ∀ i, 1 ≤ i → i < 32 → Used crowdSuperblock crowdStore i := by
    intro i hlow hhigh
    refine ⟨hlow, hhigh, ?_⟩
    rw [inodes_crowdStore hlow hhigh]
    simp only [crowdFile]
    decide
  refine ⟨⟨by decide, by decide, by decide, by decide, by decide⟩,
    ⟨unique_crowdStore, fun ip hip => ?_, fun ip hip _ => ?_⟩, fun b hb => ?_,
    fun i j slot other hi hj hpos heq => ?_, fun i slot hi hpos => ?_, fun b hlow hhigh _ => ?_,
    fun i hi => ⟨?_, fun bn hbn => ?_⟩⟩
  · obtain ⟨hlt, heq⟩ := inode_crowdStore hip
    rw [heq]
    have hhigh : ip.val + 1 < 32 := by omega
    exact ⟨Nat.le_add_left 1 _, hhigh, htype _ hhigh (Nat.le_add_left 1 _)⟩
  · obtain ⟨hlt, heq⟩ := inode_crowdStore hip
    rw [heq]
    exact ⟨hfits _ hlt, by simp only [crowdFile]; decide⟩
  · have hb : b < 6 := hb
    exact hmarked b (by omega)
  · rw [hslot i slot hi] at hpos heq
    rw [hslot j other hj] at heq
    by_cases hs : slot = .addr 0 <;> by_cases ho : other = .addr 0
    · simp only [hs, ho, if_true] at heq
      have hlowi := hi.1
      have hlowj := hj.1
      exact ⟨by omega, hs.trans ho.symm⟩
    · simp only [hs, ho, if_true, if_false] at heq
      omega
    · simp [hs] at hpos
    · simp [hs] at hpos
  · rw [hslot i slot hi] at hpos ⊢
    by_cases hs : slot = .addr 0
    · have hlow := hi.1
      have hhigh : i < 32 := hi.2.1
      simp only [hs, if_true]
      have hlt : 6 + (i - 1) < 37 := by omega
      exact ⟨Nat.le_add_right 6 _, hlt, hmarked _ hlt⟩
    · simp [hs] at hpos
  · have hlow : 6 ≤ b := hlow
    have hhigh : b < 37 := hhigh
    have hi := hused (b - 5) (by omega) (by omega)
    refine ⟨b - 5, .addr 0, hi, ?_⟩
    rw [hslot _ _ hi, if_pos rfl]
    omega
  · rw [inodes_crowdStore hi.1 hi.2.1]
    simp only [crowdFile]
    decide
  · rw [inodes_crowdStore hi.1 hi.2.1] at hbn
    have hbn : bn * bsize < bsize := hbn
    have hzero : bn = 0 := by
      unfold bsize at hbn
      omega
    subst hzero
    rw [hslot i _ hi]
    simp [fileSlot, nDirect]

end Sample

/-- Two bytes in the middle of a file are written, and then the first four are read. -/
theorem files_are_bytes_middle :
    (∃ r fs', writei crowdSuperblock crowdStore firstEntry (fun _ => some 7) 3 2 = .ok (r, fs') ∧
      WritesFile crowdSuperblock crowdStore fs' firstEntry (fun _ => some 7) 3 2 r) ∧
    ∃ bytes, readi crowdSuperblock crowdStore firstEntry (fun _ => true) 0 4 =
      .ok (bytes.length, bytes, crowdStore) := by
  have h := fun off n hoff hn => @files_are_bytes crowdSuperblock crowdStore firstEntry
    (fun _ => some 7) n off wellFormed_crowdStore (by decide) (by decide) hoff hn
    (fun _ _ => by simp) (fun _ => true) (fun _ _ => rfl)
  have hread := (h 0 4 (by decide) (by decide)).2
  rw [if_neg (by decide)] at hread
  exact ⟨(h 3 2 (by decide) (by decide)).1, _, hread⟩

end Xv6.Fs
