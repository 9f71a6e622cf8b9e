import Xv6.Fs.Logged

/-! A source that cannot be read to the end. `writei` gives the buffer back without
logging it, and what was copied into it stays there until the buffer is evicted. Nothing
shows if and only if these bytes are those that the file had there. -/
namespace Xv6.Fs

open Lib

variable {sb : Superblock} {fs fs' : Store} {ip : Ptr} {src : Source} {n off b : Nat}

section Unlogged

theorem balloc_unlogged (h : b ∉ ballocLogs sb fs) : (balloc sb fs).2.disk b = fs.disk b := by
  unfold balloc
  unfold ballocLogs at h
  split
  · rename_i k bi hscan
    simp only [hscan, List.mem_cons, List.not_mem_nil, or_false, not_or] at h
    simp [Store.setBlock, h]
  · rfl

theorem bmapDirect_unlogged {k : Nat} (h : b ∉ bmapDirectLogs sb fs ip k) :
    (bmapDirect sb fs ip k).2.disk b = fs.disk b := by
  unfold bmapDirect
  unfold bmapDirectLogs at h
  by_cases hzero : (fs.inode ip).d.addrs k = 0
  · rw [if_pos hzero] at h ⊢
    dsimp only
    split <;> exact balloc_unlogged h
  · rw [if_neg hzero]

theorem bmapEntry_unlogged {addr k : Nat} (h : b ∉ bmapEntryLogs sb fs addr k) :
    (bmapEntry sb fs addr k).2.disk b = fs.disk b := by
  unfold bmapEntry
  unfold bmapEntryLogs at h
  split
  · rename_i hzero
    rw [if_pos hzero, List.mem_append, not_or] at h
    dsimp only
    split
    · exact balloc_unlogged h.1
    · rename_i hpos
      have hne : b ≠ addr := by
        have := h.2
        rwa [if_neg hpos, List.mem_singleton] at this
      exact (Function.update_of_ne hne ..).trans (balloc_unlogged h.1)
  · rfl

theorem bmap_unlogged {bn addr : Nat} (hmap : bmap sb fs ip bn = .ok (addr, fs'))
    (h : b ∉ bmapLogs sb fs ip bn) : fs'.disk b = fs.disk b := by
  unfold bmap at hmap
  unfold bmapLogs at h
  by_cases hdirect : bn < nDirect
  · rw [if_pos hdirect] at hmap h
    have := bmapDirect_unlogged h
    rwa [Except.ok.inj hmap] at this
  · rw [if_neg hdirect] at hmap h
    split at hmap
    · rw [List.mem_append, not_or] at h
      have hfirst := bmapDirect_unlogged h.1
      dsimp only at hmap
      split at hmap
      · cases hmap
        exact hfirst
      · rename_i hpos
        rw [if_neg hpos] at h
        have hsecond := bmapEntry_unlogged h.2
        rw [Except.ok.inj hmap] at hsecond
        exact hsecond.trans hfirst
    · cases hmap

theorem eitherCopyin_none {block : Block} {offset start m : Nat} (hm : 0 < m)
    (hnone : src start = none) : eitherCopyin src block offset start m = (block, false) := by
  obtain ⟨m, rfl⟩ : ∃ k, m = k + 1 := ⟨m - 1, by omega⟩
  rw [eitherCopyin, hnone]

theorem eitherCopyin_congr {src' : Source} {m : Nat} :
    ∀ {block : Block} {offset start : Nat}, (∀ t, start ≤ t → t < start + m → src' t = src t) →
    eitherCopyin src' block offset start m = eitherCopyin src block offset start m := by
  induction m with
  | zero =>
    intros
    rfl
  | succ m ih =>
    intro block offset start hsame
    rw [eitherCopyin, eitherCopyin, hsame start (Nat.le_refl _) (by omega)]
    cases src start with
    | none => rfl
    | some byte => exact ih fun t hlo hhi => hsame t (by omega) (by omega)

theorem chunk_pos {tot : Nat} (hmore : tot < n) (off : Nat) :
    0 < min (n - tot) (bsize - off % bsize) := by
  have : off % bsize < bsize := Nat.mod_lt _ (by decide)
  omega

theorem setBlock_self (fs : Store) (b : Nat) : fs.setBlock b (fs.disk b) = fs := by
  simp [Store.setBlock]

/-- A source that has nothing behind the bytes that count leaves no trace in a block that is
not logged. -/
theorem writeLoop_unlogged (fuel : Nat) :
    ∀ {tot off : Nat} {fs : Store} {r}, writeLoop sb ip src n fuel tot off fs = .ok r →
    (∀ t, r.1 ≤ t → src t = none) → b ∉ writeLoopLogs sb ip src n fuel tot off fs →
    r.2.2.disk b = fs.disk b := by
  induction fuel with
  | zero =>
    intro tot off fs r hloop _ _
    cases hloop
    rfl
  | succ fuel ih =>
    intro tot off fs r hloop hnone hb
    rw [writeLoop] at hloop
    rw [writeLoopLogs] at hb
    by_cases hmore : tot < n
    · rw [if_pos hmore] at hloop hb
      cases hbmap : bmap sb fs ip (off / bsize) with
      | error e =>
        rw [hbmap] at hloop
        cases hloop
      | ok found =>
        obtain ⟨addr, mid⟩ := found
        simp only [hbmap, bind, Except.bind, List.mem_append, not_or] at hloop hb
        have hmap := bmap_unlogged hbmap hb.1
        by_cases hzero : addr = 0
        · rw [if_pos hzero] at hloop
          cases hloop
          exact hmap
        rw [if_neg hzero] at hloop hb
        cases hcopy : eitherCopyin src (mid.disk addr) (off % bsize) tot
            (min (n - tot) (bsize - off % bsize)) with
        | mk data copied =>
          simp only [hcopy] at hloop hb
          cases copied with
          | true =>
            simp only [if_true, List.mem_cons, not_or] at hloop hb
            exact (ih hloop hnone hb.2.2).trans ((Function.update_of_ne hb.2.1 ..).trans hmap)
          | false =>
            simp only [Bool.false_eq_true, if_false, pure, Except.pure] at hloop
            cases hloop
            rw [eitherCopyin_none (chunk_pos hmore off) (hnone tot (Nat.le_refl _))] at hcopy
            cases hcopy
            rw [setBlock_self]
            exact hmap
    · rw [if_neg hmore] at hloop
      cases hloop
      rfl

theorem writei_unlogged (hc : Settled sb fs) (hm : Mapped sb fs) (hlive : Live fs ip)
    (hn : n < 2 ^ 32) {tot : Nat} (hwrite : writei sb fs ip src off n = .ok (tot, fs'))
    (hnone : ∀ t, tot ≤ t → src t = none)
    (h : b ∉ writeiLogs sb fs ip src off n) : fs'.disk b = fs.disk b := by
  unfold writei at hwrite
  unfold writeiLogs at h
  dsimp only at hwrite h
  by_cases hrange : off > (fs.inode ip).d.size ∨ (off + n) % 2 ^ 32 < off
  · rw [if_pos hrange] at hwrite
    cases hwrite
  by_cases hlarge : (off + n) % 2 ^ 32 > maxFile * bsize
  · rw [if_neg hrange, if_pos hlarge] at hwrite
    cases hwrite
  rw [if_neg hrange, if_neg hlarge] at hwrite h
  rw [List.mem_append, not_or, List.mem_singleton] at h
  have hsize : (fs.inode ip).d.size ≤ maxFile * bsize := by
    rw [← hlive.inodes hc.table]
    exact (hm _ (hlive.used hc.table)).1
  have hbound : maxFile * bsize < 2 ^ 32 := by decide
  obtain ⟨count, extra, mid, hloop, -, -, -, hstores, -⟩ := @writeLoop_spec sb ip src n off
    (by omega) n 0 fs hc hlive (Mapped.below hc hm hlive (by omega)) (Nat.zero_le n) (Nat.le_refl n)
  rw [Nat.add_zero] at hloop
  simp only [hloop, bind, Except.bind, pure, Except.pure, Except.ok.injEq, Prod.mk.injEq] at hwrite
  obtain ⟨hcount, rfl⟩ := hwrite
  obtain rfl : count = tot := Int.ofNat_inj.mp hcount
  have hmid : mid.disk b = fs.disk b := writeLoop_unlogged n hloop hnone h.1
  have hinum := (hstores.inode ip).2.1
  rw [← hmid]
  -- the rest writes the inode's block, which is logged
  rw [← hinum] at h
  split
  · exact Function.update_of_ne (by simpa [Store.setD, Store.setInode] using h.2) ..
  · exact Function.update_of_ne h.2 ..

end Unlogged

section Clean

def Source.upTo (src : Source) (k : Nat) : Source := fun t => if t < k then src t else none

theorem Source.upTo_of_lt {k t : Nat} (h : t < k) : src.upTo k t = src t := if_pos h

theorem Source.upTo_of_le {k t : Nat} (h : k ≤ t) : src.upTo k t = none :=
  if_neg (Nat.not_lt.mpr h)

theorem Source.first_upTo (src : Source) (k : Nat) : (src.upTo k).first k = src.first k := by
  unfold Source.first
  refine List.map_congr_left fun t ht => ?_
  rw [Source.upTo_of_lt (List.mem_range.mp ht)]

structure Differs (b : Nat) (fs fs' : Store) : Prop where
  inode : fs'.inode = fs.inode
  disk : ∀ x, x ≠ b → fs'.disk x = fs.disk x

theorem Differs.refl (fs : Store) : Differs b fs fs := ⟨rfl, fun _ _ => rfl⟩

/-- Without the bytes that do not count the loop goes the same way; it differs in the block
in which the source faults. -/
theorem writeLoop_upTo (fuel : Nat) : ∀ {tot off : Nat} {fs : Store} {r},
    writeLoop sb ip src n fuel tot off fs = .ok r → tot ≤ r.1 ∧ ∃ clean addr,
      writeLoop sb ip (src.upTo r.1) n fuel tot off fs = .ok (r.1, r.2.1, clean) ∧
      writeLoopLogs sb ip (src.upTo r.1) n fuel tot off fs =
        writeLoopLogs sb ip src n fuel tot off fs ∧
      Differs addr clean r.2.2 := by
  induction fuel with
  | zero =>
    intro tot off fs r hloop
    cases hloop
    exact ⟨Nat.le_refl _, fs, 0, rfl, rfl, .refl fs⟩
  | succ fuel ih =>
    intro tot off fs r hloop
    rw [writeLoop] at hloop
    simp only [writeLoop, writeLoopLogs]
    by_cases hmore : tot < n
    · rw [if_pos hmore] at hloop
      simp only [if_pos hmore]
      cases hbmap : bmap sb fs ip (off / bsize) with
      | error e =>
        rw [hbmap] at hloop
        cases hloop
      | ok found =>
        obtain ⟨addr, mid⟩ := found
        simp only [hbmap, bind, Except.bind] at hloop ⊢
        by_cases hzero : addr = 0
        · rw [if_pos hzero] at hloop
          cases hloop
          simp only [if_pos hzero]
          exact ⟨Nat.le_refl _, mid, 0, rfl, trivial, .refl mid⟩
        rw [if_neg hzero] at hloop
        simp only [if_neg hzero]
        cases hcopy : eitherCopyin src (mid.disk addr) (off % bsize) tot
            (min (n - tot) (bsize - off % bsize)) with
        | mk data copied =>
          simp only [hcopy] at hloop
          cases copied with
          | true =>
            obtain ⟨hle, clean, x, hclean, hlogs, hdiffers⟩ := ih hloop
            have hsame : eitherCopyin (src.upTo r.1) (mid.disk addr) (off % bsize) tot
                (min (n - tot) (bsize - off % bsize)) = (data, true) :=
              (eitherCopyin_congr fun t _ hhi => Source.upTo_of_lt (by omega)).trans hcopy
            simp only [hsame, if_true, hclean, hlogs]
            exact ⟨by omega, clean, x, rfl, trivial, hdiffers⟩
          | false =>
            simp only [Bool.false_eq_true, if_false, pure, Except.pure] at hloop
            cases hloop
            have hstop : src.upTo tot tot = none := Source.upTo_of_le (Nat.le_refl tot)
            simp only [eitherCopyin_none (chunk_pos hmore off) hstop, setBlock_self]
            exact ⟨Nat.le_refl _, mid, addr, rfl, rfl, rfl,
              fun x hx => Function.update_of_ne hx ..⟩
    · rw [if_neg hmore] at hloop
      cases hloop
      simp only [if_neg hmore]
      exact ⟨Nat.le_refl _, fs, 0, rfl, trivial, .refl fs⟩

theorem Differs.iupdate (h : Differs b fs fs') :
    Differs b (iupdate sb fs ip) (iupdate sb fs' ip) := by
  refine ⟨h.inode, fun x hx => ?_⟩
  unfold Fs.iupdate writeInode
  rw [h.inode]
  by_cases hxi : x = sb.iblock (fs.inode ip).inum
  · subst hxi
    simp only [Store.setBlock, Function.update_self, h.disk _ hx]
  · simp only [Store.setBlock, Function.update_of_ne hxi, h.disk _ hx]

theorem writei_upTo {tot : Nat} (hwrite : writei sb fs ip src off n = .ok (tot, fs')) :
    ∃ clean addr, writei sb fs ip (src.upTo tot) off n = .ok (tot, clean) ∧
      writeiLogs sb fs ip (src.upTo tot) off n = writeiLogs sb fs ip src off n ∧
      Differs addr clean fs' := by
  unfold writei at hwrite ⊢
  unfold writeiLogs
  dsimp only at hwrite ⊢
  by_cases hrange : off > (fs.inode ip).d.size ∨ (off + n) % 2 ^ 32 < off
  · rw [if_pos hrange] at hwrite
    cases hwrite
  by_cases hlarge : (off + n) % 2 ^ 32 > maxFile * bsize
  · rw [if_neg hrange, if_pos hlarge] at hwrite
    cases hwrite
  rw [if_neg hrange, if_neg hlarge] at hwrite
  simp only [if_neg hrange, if_neg hlarge]
  cases hloop : writeLoop sb ip src n n 0 off fs with
  | error e =>
    rw [hloop] at hwrite
    cases hwrite
  | ok r =>
    obtain ⟨count, last, mid⟩ := r
    simp only [hloop, bind, Except.bind, pure, Except.pure, Except.ok.injEq,
      Prod.mk.injEq] at hwrite
    obtain ⟨hcount, rfl⟩ := hwrite
    obtain rfl : count = tot := Int.ofNat_inj.mp hcount
    obtain ⟨-, clean, addr, hclean, hlogs, hdiffers⟩ := writeLoop_upTo n hloop
    simp only [hclean, hlogs, bind, Except.bind, pure, Except.pure]
    refine ⟨_, addr, rfl, trivial, ?_⟩
    have hinode : mid.inode = clean.inode := hdiffers.inode
    rw [hinode]
    split
    · exact Differs.iupdate ⟨by simp only [Store.setD, Store.setInode, hinode],
        hdiffers.disk⟩
    · exact hdiffers.iupdate

end Clean

/-- What is read back when the buffers of some blocks have been evicted: a block that was
not logged is read from the disk again, as it was before the write. -/
def evicted (fs fs' : Store) (logged : List Nat) (gone : Nat → Bool) : Store :=
  { fs' with disk := fun b => if gone b ∧ b ∉ logged then fs.disk b else fs'.disk b }

theorem evicted_none (fs fs' : Store) (logged : List Nat) :
    evicted fs fs' logged (fun _ => false) = fs' := by
  simp [evicted]

/-- Only the block in which the source has faulted is read back as another one. -/
theorem evicted_cases {clean : Store} {logged : List Nat} (h : Differs b clean fs')
    (hlogged : ∀ x, x ∉ logged → clean.disk x = fs.disk x) (gone : Nat → Bool) :
    evicted fs fs' logged gone = fs' ∨ evicted fs fs' logged gone = clean := by
  by_cases hb : gone b ∧ b ∉ logged
  · refine Or.inr ?_
    have hdisk : (evicted fs fs' logged gone).disk = clean.disk := by
      funext x
      unfold evicted
      dsimp only
      split
      · rename_i hx
        exact (hlogged x hx.2).symm
      · rename_i hx
        exact h.disk x fun heq => hx (heq ▸ hb)
    exact Store.ext hdisk h.inode
  · refine Or.inl ?_
    have hdisk : (evicted fs fs' logged gone).disk = fs'.disk := by
      funext x
      unfold evicted
      dsimp only
      split
      · rename_i hx
        rw [h.disk x fun heq => hb (heq ▸ hx), hlogged x hx.2]
      · rfl
    exact Store.ext hdisk rfl

def ShowsReported (sb : Superblock) (fs later : Store) (ip : Ptr) (src : Source) (off n : Nat)
    (r : Int) : Prop :=
  (r = -1 ∧ fileBytes sb later (fs.inode ip).inum = fileBytes sb fs (fs.inode ip).inum ∨
    ∃ tot : Nat, r = tot ∧ tot ≤ n ∧ fileBytes sb later (fs.inode ip).inum =
      splice (fileBytes sb fs (fs.inode ip).inum) off (src.first tot)) ∧
  ∀ i, Used sb fs i → i ≠ (fs.inode ip).inum → fileBytes sb later i = fileBytes sb fs i

/-- The bytes of the source in front of the first one that cannot be read, as far as they go
to the same block and below the end of the file, are those of the file. -/
def SameBeforeFault (sb : Superblock) (fs : Store) (i : Nat) (src : Source) (off n : Nat) : Prop :=
  ∀ u t, u < n → src u = none → (∀ t', t' < u → src t' ≠ none) → t < u →
    (off + t) / bsize = (off + u) / bsize → off + t < (inodes sb fs i).size →
    src t = some (byteAt sb fs i (off + t))

section Extra

variable {tot extra : Nat} {i : Nat}

def Unseen (sb : Superblock) (fs : Store) (i : Nat) (src : Source) (off tot extra : Nat) : Prop :=
  ∀ t, tot ≤ t → t < tot + extra → off + t < (inodes sb fs i).size →
    (src t).getD 0 = byteAt sb fs i (off + t)

theorem Stops.unseen_of_same (hstops : Stops sb fs fs' i src n off 0 tot extra)
    (hsame : SameBeforeFault sb fs i src off n) : Unseen sb fs i src off tot extra := by
  intro t hlo hhi hsize
  have hle := hstops.le
  rcases hstops.short (by omega) with ⟨hnone, hlt⟩ | ⟨hzero, -⟩
  · have hblock : (off + t) / bsize = (off + (tot + extra)) / bsize := by
      have hfirst := hstops.block
      have hup : (off + tot) / bsize ≤ (off + t) / bsize := Nat.div_le_div_right (by omega)
      have hdown : (off + t) / bsize ≤ (off + (tot + extra)) / bsize :=
        Nat.div_le_div_right (by omega)
      rw [← Nat.add_assoc] at hdown ⊢
      omega
    rw [hsame _ t hlt hnone (fun t' ht' => hstops.readable t' (Nat.zero_le _) ht') hhi hblock hsize]
    rfl
  · omega

theorem Stops.same_of_unseen (hstops : Stops sb fs fs' i src n off 0 tot extra)
    (hmapped : MappedBelow sb fs i (inodes sb fs i).size)
    (hunseen : Unseen sb fs i src off tot extra) : SameBeforeFault sb fs i src off n := by
  intro u t hu hnone hfirst htu hblock hsize
  have hle := hstops.le
  have hlow : tot + extra ≤ u := by
    by_contra hlt
    exact hstops.readable u (Nat.zero_le _) (by omega) hnone
  -- the block of the fault begins with the chunk
  have htot : tot ≤ t := by
    by_contra hlt
    have haligned := (hstops.chunk (by omega)).resolve_left (by omega)
    have hmid : (off + tot) / bsize = (off + t) / bsize := by
      have hup : (off + t) / bsize ≤ (off + tot) / bsize := Nat.div_le_div_right (by omega)
      have hdown : (off + tot) / bsize ≤ (off + u) / bsize := Nat.div_le_div_right (by omega)
      omega
    have hend := Nat.div_add_mod' (off + tot) bsize
    have hstart := Nat.div_mul_le_self (off + t) bsize
    rw [hmid] at hend
    omega
  rcases hstops.short (by omega) with ⟨hstop, -⟩ | ⟨-, -, hbelow⟩
  · have hfault : ¬tot + extra < u := fun hlt => hfirst _ hlt hstop
    have hbyte := hunseen t htot (by omega) hsize
    cases hsrc : src t with
    | none => exact absurd hsrc (hfirst t htu)
    | some byte =>
      rw [hsrc] at hbyte
      exact congrArg some hbyte
  · have := hbelow _ hmapped
    omega

end Extra

/-- Whatever buffers are evicted after a write, the file shows the bytes that it has reported
and no others, if and only if it is refused for its length or copies nothing new into the
block in which its source faults. -/
theorem faulting_write_contained (h : WellFormed sb fs) (href : 0 < (fs.inode ip).ref)
    (hvalid : (fs.inode ip).valid = true) (hoff : off < 2 ^ 32) (hn : n < 2 ^ 32) :
    (∃ r fs', writei sb fs ip src off n = .ok (r, fs') ∧ ∀ gone, ShowsReported sb fs
        (evicted fs fs' (writeiLogs sb fs ip src off n) gone) ip src off n r) ↔
      maxFile * bsize < off + n ∨ SameBeforeFault sb fs (fs.inode ip).inum src off n := by
  have hlive : Live fs ip := ⟨href, hvalid⟩
  have hc := h.settled
  have hinode := hlive.inodes hc.table
  have hused := hlive.used hc.table
  obtain ⟨r, fs', heq, -, -, -, hresult⟩ :=
    @writei_spec sb fs ip src n hc h.mapped hlive off hoff hn
  have hbound : maxFile * bsize < 2 ^ 32 := by decide
  rcases hresult with ⟨hrefused, rfl, rfl⟩ | ⟨hrange, tot, extra, rfl, hover, hstops⟩
  · -- a call that is refused changes nothing
    have hsame : ∀ gone, evicted fs' fs' (writeiLogs sb fs' ip src off n) gone = fs' := by
      intro gone
      simp [evicted]
    refine iff_of_true ⟨-1, fs', heq, fun gone => ?_⟩ ?_
    · rw [hsame]
      exact ⟨Or.inl ⟨rfl, rfl⟩, fun _ _ _ => rfl⟩
    · by_cases hlarge : maxFile * bsize < off + n
      · exact Or.inl hlarge
      · refine Or.inr fun u t _ _ _ _ _ hsize => ?_
        rw [hinode] at hsize
        omega
  · have hoffset : off ≤ (inodes sb fs (fs.inode ip).inum).size := by
      rw [hinode]
      exact hrange.1
    have hbytes := hover.fileBytes_iff hused hoffset
    have hmapped : MappedBelow sb fs (fs.inode ip).inum (inodes sb fs (fs.inode ip).inum).size :=
      (h.mapped _ hused).2
    have hothers : ∀ i, Used sb fs i → i ≠ (fs.inode ip).inum →
        fileBytes sb fs' i = fileBytes sb fs i := fun i hi hne => hover.fileBytes_of_ne hi hne
    constructor
    · rintro ⟨r, later, hwrite, hshows⟩
      cases heq.symm.trans hwrite
      refine Or.inr (hstops.same_of_unseen hmapped (hbytes.mp ?_))
      have hnow := (hshows fun _ => false).1
      rw [evicted_none] at hnow
      rcases hnow with ⟨hneg, -⟩ | ⟨count, hcount, -, hshown⟩
      · exact absurd hneg (by omega)
      · rwa [← Int.ofNat_inj.mp hcount] at hshown
    · intro hcond
      have hsame := hcond.resolve_left (Nat.not_lt.mpr hrange.2)
      have hle := hstops.le
      have hshown := hbytes.mpr (hstops.unseen_of_same hsame)
      -- without the bytes that are not reported the blocks that are not logged stay as they were
      obtain ⟨clean, addr, hclean, hlogs, hdiffers⟩ := writei_upTo heq
      have hunlogged : ∀ x, x ∉ writeiLogs sb fs ip src off n → clean.disk x = fs.disk x :=
        fun x hx => writei_unlogged hc h.mapped hlive hn hclean
          (fun t => Source.upTo_of_le) (by rwa [hlogs])
      refine ⟨tot, fs', heq, fun gone => ?_⟩
      rcases evicted_cases hdiffers hunlogged gone with hlater | hlater
      · rw [hlater]
        exact ⟨Or.inr ⟨tot, rfl, by omega, hshown⟩, hothers⟩
      · rw [hlater]
        obtain ⟨r, fs'', heq', -, -, -, hresult'⟩ :=
          @writei_spec sb fs ip (src.upTo tot) n hc h.mapped hlive off hoff hn
        cases heq'.symm.trans hclean
        rcases hresult' with ⟨-, hneg, -⟩ | ⟨-, count, extra', hcount, hover', hstops'⟩
        · exact absurd hneg (by omega)
        obtain rfl : tot = count := Int.ofNat_inj.mp hcount
        obtain rfl : extra' = 0 := by
          by_contra hne
          exact hstops'.readable tot (Nat.zero_le _) (by omega) (Source.upTo_of_le (Nat.le_refl _))
        refine ⟨Or.inr ⟨tot, rfl, by omega, ?_⟩, fun i hi hne => hover'.fileBytes_of_ne hi hne⟩
        rw [hover'.fileBytes hused hoffset, Source.first_upTo]

section Pages

def pageSource (page : Nat → Option UInt8) (va : Nat) : Source := fun t => page ((va + t) / 4096)

/-- If the source and the offset are congruent, a page that is not mapped begins with a block. -/
theorem sameBeforeFault_aligned {page : Nat → Option UInt8} {va i : Nat}
    (hva : va % bsize = off % bsize) : SameBeforeFault sb fs i (pageSource page va) off n := by
  intro u t _ hnone hread htu hblock _
  unfold pageSource at hnone hread
  have hprev := hread (u - 1) (by omega)
  have hpage : (va + (u - 1)) / 4096 ≠ (va + u) / 4096 := fun heq => hprev (by rwa [heq])
  unfold bsize at *
  omega

def onePage (p : Nat) : Option UInt8 := if p = 0 then some 7 else none

theorem halfBlock_written : (writei crowdSuperblock crowdStore firstEntry
    (pageSource onePage 3584) 0 1024).toOption.map (fun (r, fs') => (r, (inodes crowdSuperblock fs'
      1).size, byteAt crowdSuperblock fs' 1 0, byteAt crowdSuperblock crowdStore 1 0)) =
    some (0, 1024, 7, 0) := by
  decide +kernel

end Pages

/-- No byte is reported as written, and yet the file has changed. -/
theorem faulting_write_shows : ∃ fs', writei crowdSuperblock crowdStore firstEntry
      (pageSource onePage 3584) 0 1024 = .ok (0, fs') ∧
    (crowdStore.inode firstEntry).inum = 1 ∧
    fileBytes crowdSuperblock fs' 1 ≠ fileBytes crowdSuperblock crowdStore 1 := by
  have hobserved := halfBlock_written
  cases hwrite : writei crowdSuperblock crowdStore firstEntry (pageSource onePage 3584) 0 1024 with
  | error e =>
    rw [hwrite] at hobserved
    cases hobserved
  | ok result =>
    obtain ⟨r, fs'⟩ := result
    rw [hwrite] at hobserved
    simp only [Except.toOption, Option.map_some, Option.some.injEq, Prod.mk.injEq] at hobserved
    obtain ⟨rfl, hsize, hnew, hold⟩ := hobserved
    refine ⟨fs', rfl, by decide, fun heq => ?_⟩
    have hfirst := congrArg (fun bytes => bytes[0]?) heq
    simp only [getElem?_fileBytes, hsize, hnew, hold] at hfirst
    rw [if_pos (by decide)] at hfirst
    split at hfirst
    · exact absurd (Option.some.inj hfirst) (by decide)
    · cases hfirst

/-- From the middle of a page that is not mapped nothing is copied; in the write from above
the first byte is a new one. -/
theorem faulting_write_contained_start :
    (∃ r fs', writei crowdSuperblock crowdStore firstEntry (pageSource onePage 4196) 100 500 =
        .ok (r, fs') ∧ ∀ gone, ShowsReported crowdSuperblock crowdStore
          (evicted crowdStore fs' (writeiLogs crowdSuperblock crowdStore firstEntry
            (pageSource onePage 4196) 100 500) gone) firstEntry (pageSource onePage 4196) 100 500
          r) ∧
    ¬SameBeforeFault crowdSuperblock crowdStore 1 (pageSource onePage 3584) 0 1024 ∧
    ¬∃ r fs', writei crowdSuperblock crowdStore firstEntry (pageSource onePage 3584) 0 1024 =
        .ok (r, fs') ∧ ∀ gone, ShowsReported crowdSuperblock crowdStore
          (evicted crowdStore fs' (writeiLogs crowdSuperblock crowdStore firstEntry
            (pageSource onePage 3584) 0 1024) gone) firstEntry (pageSource onePage 3584) 0 1024
          r := by
  have hnot : ¬SameBeforeFault crowdSuperblock crowdStore 1 (pageSource onePage 3584) 0 1024 := by
    intro hsame
    have hread : ∀ t, t < 512 → pageSource onePage 3584 t ≠ none := by
      intro t ht
      have hpage : (3584 + t) / 4096 = 0 := by omega
      simp [pageSource, onePage, hpage]
    have hfirst := hsame 512 0 (by decide) (by decide) hread (by decide) (by decide)
      (by rw [inodes_crowdStore (by decide) (by decide)]; decide)
    exact absurd hfirst (by decide +kernel)
  refine ⟨(faulting_write_contained wellFormed_crowdStore (by decide) (by decide) (by decide)
    (by decide)).mpr (Or.inr (sameBeforeFault_aligned (by decide))), hnot, fun hshows => ?_⟩
  have hcond := (faulting_write_contained wellFormed_crowdStore (by decide) (by decide)
    (by decide) (by decide)).mp hshows
  exact hnot (hcond.resolve_left (by decide))

end Xv6.Fs
