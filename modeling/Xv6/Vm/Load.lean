import Xv6.Vm.Segments

/-! The loops of `kexec` that load a file, followed page by page to the image. -/
namespace Xv6.Vm

open Lib

section Specs

variable {img : Image} {P : Protocol sig} {h : Heap} {extra : Nat → Prop}
  {root sz tf : Nat} {mapped : UserPages}

def Loaded (img : Image) (pool : Cell → Prop) (root sz tf : Nat) (mapped : UserPages) (h : Heap) :
    Prop :=
  View img pool root sz tf (fun _ => False) mapped h ∧ Dense mapped sz

theorem flags2perm_lt (flags : Nat) : flags2perm flags < 1024 := by
  unfold flags2perm
  split <;> split <;> decide

theorem content_fresh {S S' : Space} {h' : Heap} {lo hi perm : Nat}
    (hg : S.Grows lo hi perm S') (hz : Zeroed S S' extra lo hi h h') (hperm : perm < 1024)
    (htop : hi ≤ userTop) : S'.content h' = fresh (perm ||| pteV) (S.content h) lo hi := by
  funext u
  unfold fresh
  split
  · rename_i hu
    obtain ⟨m, hm⟩ := hg.new u hu.1 hu.2
    have hlt : perm ||| pteV < 1024 := Nat.or_lt_two_pow (n := 10) hperm (by decide)
    have hflags : pteFlags (S'.leaf u) = perm ||| pteV := by
      rw [hm, pteFlags, entry_and_mask hperm m (by decide)]
      exact (Nat.and_two_pow_sub_one_eq_mod _ 10).trans (Nat.mod_eq_of_lt hlt)
    rw [Space.content_of_data (by omega) (hg.new_ne_zero hu.1 hu.2) (hz.new u hu.1 hu.2), hflags]
  · rename_i hu
    exact Space.content_eq (hg.old u hu) fun hut hne => hz.old _ (Or.inl ⟨u, hut, hne, rfl⟩)

theorem Space.of_content {S : Space} {v flags : Nat} {data : Data}
    (hpage : S.content h v = some (flags, data)) : v < userTop ∧ S.leaf v ≠ 0 ∧
      pteFlags (S.leaf v) = flags ∧ h (.page (pte2pa (S.leaf v))) = some data := by
  unfold Space.content at hpage
  split at hpage
  · rename_i hne
    obtain ⟨_, hdata, heq⟩ := Option.map_eq_some_iff.mp hpage
    cases heq
    exact ⟨hne.1, hne.2, rfl, hdata⟩
  · cases hpage

theorem Dense.fresh {lo hi flags newsz : Nat} (hdense : Dense mapped sz) (hlo : lo = npages sz)
    (hhi : npages newsz ≤ hi) (huser : flags &&& pteU ≠ 0) :
    Dense (fresh flags mapped lo hi) newsz := by
  intro u hu
  unfold Vm.fresh Usable
  by_cases hnew : lo ≤ u ∧ u < hi
  · exact ⟨flags, filled 0, if_pos hnew, huser, by simp⟩
  · obtain ⟨flags', data, hpage, huser', -⟩ := hdense u (by omega)
    exact ⟨flags', data, (if_neg hnew).trans hpage, huser', by simp⟩

theorem Dense.written (hdense : Dense mapped sz) (va : Nat) (bytes : List UInt8) :
    Dense (written mapped va bytes) sz := fun u hu => (usable_written u).mpr (hdense u hu)

variable (hmem : Manages img P.pool)
include hmem

theorem uvmalloc_loaded {newsz xperm : Nat} (hperm : xperm < 1024)
    (hload : Loaded img P.pool root sz tf mapped h) :
    wp machine P (uvmalloc img root sz newsz xperm) (fun r h' =>
      (r = 0 ∧ Loaded img P.pool root sz tf mapped h') ∨
      (r = max sz newsz ∧ Loaded img P.pool root r tf
        (fresh (pteR ||| pteU ||| xperm ||| pteV) mapped (npages sz) (npages r)) h')) h := by
  obtain ⟨⟨S, rfl, hlayout, hrep, rfl⟩, hdense⟩ := hload
  have hperm' : pteR ||| pteU ||| xperm < 1024 := Nat.or_lt_two_pow (n := 10) (by decide) hperm
  have hleaf : ∀ u, u < npages sz → S.leaf u ≠ 0 := by
    intro u hu hzero
    exact (hdense u hu).leaf.2 (by simp [hzero])
  refine wp_mono (uvmalloc_spec hmem hrep hperm hlayout.npages_le_userTop
    (fun u hu hlt => hlayout.leaf_eq_zero hu hlt) (Or.inr hleaf)) ?_
  rintro r h' ⟨S', hrep', ⟨rfl, htop, hg, hz⟩ | ⟨rfl, -, hback, hkept⟩⟩
  · refine Or.inr ⟨rfl, ⟨S', hg.root, hlayout.grows (Nat.le_max_left _ _) htop hg, hrep',
      content_fresh hg hz hperm' htop⟩, hdense.fresh rfl (Nat.le_refl _) ?_⟩
    rw [Nat.and_or_distrib_right, Nat.and_or_distrib_right, Nat.and_or_distrib_right]
    intro hzero
    have h₁ := (Nat.or_eq_zero_iff.mp hzero).1
    exact absurd (Nat.or_eq_zero_iff.mp (Nat.or_eq_zero_iff.mp h₁).1).2 (by decide)
  · exact Or.inl ⟨rfl, ⟨S', hback.root, hlayout.congr hback, hrep',
      Space.content_kept hback.leaf hkept⟩, hdense⟩

theorem Loaded.size_le (hload : Loaded img P.pool root sz tf mapped h) : sz ≤ 2 ^ 27 := by
  obtain ⟨⟨S, rfl, hlayout, hrep, rfl⟩, hdense⟩ := hload
  have hle := hrep.dense_le hmem hlayout.npages_le_userTop fun u hu hzero =>
    (hdense u hu).leaf.2 (by simp [hzero])
  exact Nat.le_trans (npages_le.mp hle) (by decide)

theorem walkaddr_mapped {va : Nat} {write : Bool} (hva : va < maxVa)
    (hview : View img P.pool root sz tf extra mapped h) (huse : Usable write mapped (vpn va)) :
    wp machine P (walkaddr root va) (fun r h' => ∃ pa, r = some pa ∧
      UserPage img P.pool root sz tf extra mapped (vpn va) pa h') h := by
  obtain ⟨S, rfl, hlayout, hrep, rfl⟩ := hview
  refine wp_mono (walkaddr_spec hmem hrep hlayout) ?_
  rintro r h' ⟨rfl, hr⟩
  cases r with
  | none => exact absurd (hr hva) huse.leaf.2
  | some pa =>
    have hlt : vpn va < userTop := hlayout.lt_userTop (hlayout.lt_npages_of_user hr.2.1)
    exact ⟨pa, rfl, S, rfl, hlayout, hrep, rfl, hlt, hr.2⟩

theorem loadLoop_loaded {va offset size k more : Nat} {file : List UInt8}
    (haligned : va % pgSize = 0) (hva : va + size ≤ sz) (hk : k + more = npages size)
    (hload : Loaded img P.pool root sz tf mapped h) :
    wp machine P (loadLoop root va file offset size more (k * pgSize)) (fun ok h' => ∃ mapped',
      Loaded img P.pool root sz tf mapped' h' ∧ (ok = true → offset + size < 2 ^ 32 →
        mapped' = written mapped (va + k * pgSize)
          ((file.drop (offset + k * pgSize)).take (size - k * pgSize)) ∧
        ((file.drop (offset + k * pgSize)).take (size - k * pgSize)).length =
          size - k * pgSize)) h := by
  induction more generalizing k h mapped with
  | zero =>
    refine ⟨mapped, hload, fun _ _ => ?_⟩
    have hend : size ≤ k * pgSize := npages_le.mp (Nat.le_of_eq (by omega))
    rw [Nat.sub_eq_zero_of_le hend, List.take_zero, written_nil]
    exact ⟨rfl, rfl⟩
  | succ more ih =>
    obtain ⟨hview, hdense⟩ := hload
    have hsize : k * pgSize < size := lt_npages.mp (by omega)
    have hmax : va + k * pgSize < maxVa := by
      obtain ⟨S, rfl, hlayout, -, -⟩ := hview
      exact Nat.lt_trans (Nat.lt_of_lt_of_le (show _ < sz by omega) hlayout.size) (by decide)
    have huse : Usable false mapped (vpn (va + k * pgSize)) :=
      hdense _ (lt_npages.mpr (Nat.lt_of_le_of_lt (Nat.div_mul_le_self _ _) (by omega)))
    have hround : pgRoundDown (va + k * pgSize) = va + k * pgSize := by
      unfold pgRoundDown pgSize at *
      omega
    rw [loadLoop]
    refine wp_seq (walkaddr_mapped hmem hmax hview huse) ?_
    rintro r h' ⟨pa, rfl, hpage⟩
    obtain ⟨flags, data, hmapped, -, hdata, hwrite⟩ := hpage.held
    dsimp only
    generalize hn : min (size - k * pgSize) pgSize = n
    generalize hbytes : readi file ((offset + k * pgSize) % 2 ^ 32) n = bytes
    have hlen : bytes.length ≤ n := by
      rw [← hbytes, readi]
      split
      · exact Nat.zero_le n
      · exact List.length_take_le _ _
    have hnow := hwrite (data.blit 0 bytes)
    have hpages : Function.update mapped (vpn (va + k * pgSize))
        (some (flags, data.blit 0 bytes)) = written mapped (va + k * pgSize) bytes := by
      rw [← update_eq_written hmapped (by omega), hround, Nat.sub_self]
    rw [hpages] at hnow
    refine wp_bind ⟨data, hdata, ?_⟩
    have hdense' := hdense.written (va + k * pgSize) bytes
    refine wp_pure ?_
    by_cases hshort : bytes.length ≠ n
    · rw [if_pos hshort]
      exact ⟨_, ⟨hnow, hdense'⟩, fun hok => by cases hok⟩
    rw [if_neg hshort]
    have hnext : k * pgSize + pgSize = (k + 1) * pgSize := by rw [Nat.add_mul, Nat.one_mul]
    rw [hnext]
    refine wp_mono (ih (by omega) ⟨hnow, hdense'⟩) ?_
    rintro ok h'' ⟨mapped', hload', hok⟩
    refine ⟨mapped', hload', fun htrue hfits => ?_⟩
    obtain ⟨rfl, hrest⟩ := hok htrue hfits
    -- the bytes of this page are those of the file, and the next page goes on from there
    have hlength := not_not.mp hshort
    have hmod : (offset + k * pgSize) % 2 ^ 32 = offset + k * pgSize := Nat.mod_eq_of_lt (by omega)
    have hthis : bytes = (file.drop (offset + k * pgSize)).take n := by
      rw [hmod, readi] at hbytes
      split at hbytes
      · rw [← hbytes, List.length_nil] at hlength
        unfold pgSize at hn hsize
        omega
      · exact hbytes.symm
    by_cases hlast : size - k * pgSize ≤ pgSize
    · have hnil : size - (k + 1) * pgSize = 0 := by omega
      rw [hnil, List.take_zero, written_nil, show size - k * pgSize = n by omega, ← hthis]
      exact ⟨rfl, hlength⟩
    · have hfull : n = pgSize := by omega
      have hsplit : (file.drop (offset + k * pgSize)).take (size - k * pgSize) =
          bytes ++ (file.drop (offset + (k + 1) * pgSize)).take (size - (k + 1) * pgSize) := by
        rw [show size - k * pgSize = n + (size - (k + 1) * pgSize) by omega, List.take_add,
          List.drop_drop, ← hthis, show offset + k * pgSize + n =
            offset + (k + 1) * pgSize by omega]
      rw [hsplit, ← written_append, hlength, hfull, Nat.add_assoc va, hnext, List.length_append,
        hrest]
      exact ⟨rfl, by omega⟩

theorem loadseg_loaded {va offset size : Nat} {file : List UInt8} (haligned : va % pgSize = 0)
    (hva : va + size ≤ sz) (hload : Loaded img P.pool root sz tf mapped h) :
    wp machine P (loadseg root va file offset size) (fun ok h' => ∃ mapped',
      Loaded img P.pool root sz tf mapped' h' ∧ (ok = true → offset + size < 2 ^ 32 →
        mapped' = written mapped va ((file.drop offset).take size) ∧
        ((file.drop offset).take size).length = size)) h := by
  have hloop : wp machine P (loadLoop root va file offset size (npages size) (0 * pgSize)) _ h :=
    loadLoop_loaded hmem haligned hva (Nat.zero_add _) hload
  simp only [Nat.zero_mul, Nat.add_zero, Nat.sub_zero] at hloop
  exact hloop

def Loads (file : List UInt8) (off : Nat) (image image' : UserPages × Nat) : Prop :=
  let ph := (file.drop off).take phSize
  if field ph 0 4 = 1 then
    (Segment.of ph).off < 2 ^ 31 → (Segment.of ph).Good file ∧
      image' = loadSegment file image (Segment.of ph)
  else image' = image

theorem loadProg_loaded {off : Nat} {file : List UInt8}
    (hload : Loaded img P.pool root sz tf mapped h) :
    wp machine P (loadProg img root file off sz) (fun r h' => ∃ mapped',
      Loaded img P.pool root r.2 tf mapped' h' ∧
      (r.1 = true → off + phSize < 2 ^ 32 → Loads file off (mapped, sz) (mapped', r.2))) h := by
  have hfail : ∃ mapped', Loaded img P.pool root sz tf mapped' h ∧
      (false = true → off + phSize < 2 ^ 32 → Loads file off (mapped, sz) (mapped', sz)) :=
    ⟨mapped, hload, by simp⟩
  unfold loadProg
  dsimp only
  generalize hph : readi file off phSize = ph
  by_cases hshort : ph.length ≠ phSize
  · rw [if_pos hshort]
    exact hfail
  have hread : off + phSize < 2 ^ 32 → (file.drop off).take phSize = ph := by
    intro hfits
    rw [readi] at hph
    split at hph
    · rw [← hph] at hshort
      exact absurd (by decide) hshort
    · exact hph
  rw [if_neg hshort]
  by_cases htype : field ph 0 4 ≠ 1
  · rw [if_pos htype]
    refine ⟨mapped, hload, fun _ hfits => ?_⟩
    unfold Loads
    rw [hread hfits]
    exact if_neg htype ▸ rfl
  rw [if_neg htype]
  by_cases hmemsz : field ph 40 8 < field ph 32 8
  · rw [if_pos hmemsz]
    exact hfail
  rw [if_neg hmemsz]
  by_cases hwrap : (field ph 16 8 + field ph 40 8) % 2 ^ 64 < field ph 16 8
  · rw [if_pos hwrap]
    exact hfail
  rw [if_neg hwrap]
  by_cases haligned : field ph 16 8 % pgSize ≠ 0
  · rw [if_pos haligned]
    exact hfail
  rw [if_neg haligned]
  refine wp_seq (uvmalloc_loaded hmem (flags2perm_lt _) hload) ?_
  rintro r h' (⟨rfl, hsame⟩ | ⟨hr, hload'⟩)
  · rw [if_pos rfl]
    exact ⟨mapped, hsame, by simp⟩
  by_cases hzero : r = 0
  · rw [if_pos hzero]
    have hsz : sz = 0 := by omega
    rw [hzero] at hload'
    rw [hsz]
    exact ⟨_, hload', by simp⟩
  rw [if_neg hzero]
  have hsize := hload'.size_le hmem
  have hfilesz : field ph 32 8 % 2 ^ 32 = field ph 32 8 := Nat.mod_eq_of_lt (by omega)
  rw [hfilesz]
  refine wp_seq (loadseg_loaded hmem (not_not.mp haligned) (by omega) hload') ?_
  rintro ok h'' ⟨mapped', hload'', hok⟩
  refine ⟨mapped', hload'', fun htrue hfits => ?_⟩
  unfold Loads
  rw [hread hfits]
  refine (if_pos (not_not.mp htype)).mpr fun hoff => ?_
  have hoff : field ph 8 8 < 2 ^ 31 := hoff
  have hmod : field ph 8 8 % 2 ^ 32 = field ph 8 8 := Nat.mod_eq_of_lt (by omega)
  rw [hmod] at hok
  obtain ⟨rfl, hlength⟩ := hok htrue (by omega)
  refine ⟨⟨Nat.not_lt.mp hmemsz, not_not.mp haligned, hlength⟩, ?_⟩
  rw [hr]
  rfl

theorem loadProgs_loaded {file : List UInt8} {n off : Nat}
    (hload : Loaded img P.pool root sz tf mapped h) :
    wp machine P (loadProgs img root file n off sz) (fun r h' => ∃ mapped',
      Loaded img P.pool root r.2 tf mapped' h' ∧
      (r.1 = true → off + phSize * n < 2 ^ 32 → (∀ g ∈ segmentsFrom file n off, g.off < 2 ^ 31) →
        (∀ g ∈ segmentsFrom file n off, g.Good file) ∧
        (mapped', r.2) = (segmentsFrom file n off).foldl (loadSegment file) (mapped, sz))) h := by
  induction n generalizing off sz h mapped with
  | zero => exact ⟨mapped, hload, fun _ _ _ => ⟨by simp [segmentsFrom], rfl⟩⟩
  | succ n ih =>
    refine wp_seq (loadProg_loaded hmem hload) ?_
    rintro ⟨ok, sz'⟩ h' ⟨mapped', hload', hok⟩
    cases ok with
    | false => exact ⟨mapped', hload', by simp⟩
    | true =>
      refine wp_mono (ih hload') ?_
      rintro r h'' ⟨mapped'', hload'', hrest⟩
      refine ⟨mapped'', hload'', fun htrue hfits hoffs => ?_⟩
      rw [Nat.mul_succ] at hfits
      have hmod : (off + phSize) % 2 ^ 32 = off + phSize := Nat.mod_eq_of_lt (by omega)
      have hthis := hok rfl (by omega)
      rw [hmod] at hrest
      unfold Loads at hthis
      unfold segmentsFrom at hoffs ⊢
      dsimp only at hthis hoffs ⊢
      by_cases hload : field ((file.drop off).take phSize) 0 4 = 1
      · rw [if_pos hload] at hthis hoffs ⊢
        obtain ⟨hgood, himage⟩ := hthis (hoffs _ (by simp))
        rw [List.foldl_cons, ← himage]
        obtain ⟨hgoods, hfold⟩ := hrest htrue (by omega) fun g hg => hoffs g (by simp [hg])
        exact ⟨List.forall_mem_cons.mpr ⟨hgood, hgoods⟩, hfold⟩
      · rw [if_neg hload] at hthis hoffs ⊢
        rw [← hthis]
        exact hrest htrue (by omega) hoffs

theorem uvmclear_view {v : Nat} {data : Data} (hv : v < npages sz)
    (hview : View img P.pool root sz tf extra mapped h)
    (hpage : mapped v = some (pteR ||| pteU ||| pteW ||| pteV, data)) :
    wp machine P (uvmclear root (v * pgSize)) (fun _ h' =>
      View img P.pool root sz tf extra
        (Function.update mapped v (some (pteR ||| pteW ||| pteV, data))) h') h := by
  obtain ⟨S, rfl, hlayout, hrep, rfl⟩ := hview
  have htop := hlayout.lt_userTop hv
  have hva : v * pgSize < maxVa := by
    have huser : userTop = 2 ^ 26 - 2 := rfl
    unfold pgSize maxVa
    omega
  obtain ⟨-, hne, hflags, hdata⟩ := Space.of_content hpage
  have hflags : pteFlags (S.leaf v) = 23 := hflags
  -- the entry is the page's number and the flags, of which one goes
  have hpte : S.leaf v = pte2pa (S.leaf v) * 1024 + 23 := by
    have hmod : S.leaf v % 1024 = 23 :=
      (Nat.and_two_pow_sub_one_eq_mod (S.leaf v) 10).symm.trans hflags
    unfold pte2pa
    rw [Nat.shiftRight_eq_div_pow]
    omega
  have hbit : S.leaf v &&& pteU = 16 := by
    rw [← and_mask_pteFlags _ (show 1023 &&& pteU = pteU by decide), hflags]
    decide
  generalize hn : pte2pa (S.leaf v) = n at *
  have hnew : S.leaf v - (S.leaf v &&& pteU) = pa2pte n ||| (pteR ||| pteW) ||| pteV := by
    rw [hbit, hpte, Nat.or_assoc]
    show _ = n <<< 10 ||| 7
    rw [← Nat.shiftLeft_add_eq_or_of_lt (by decide : 7 < 2 ^ 10), Nat.shiftLeft_eq]
    omega
  have hpage' : pte2pa (pa2pte n ||| (pteR ||| pteW) ||| pteV) = n := pte2pa_entry (by decide) n
  have hleaf : LeafWord (pa2pte n ||| (pteR ||| pteW) ||| pteV) := by
    refine leafWord_entry (by decide) ?_ (by decide)
    have hfits := (S.leafWord v hne).fits
    omega
  refine walk_load_spec hmem hrep hva (fun hzero => ?_) fun t ht => ?_
  · rw [vpn_mul] at hzero
    exact absurd hzero hne
  rw [vpn_mul] at ht ⊢
  rw [hnew]
  obtain ⟨table, htable, -⟩ := hrep.leaf ht
  obtain ⟨S', hmap, hrep'⟩ := hrep.reflag ht htable hne hleaf (by rw [hpage', hn])
  refine wp_store htable ⟨S', hmap.root, ?_, hrep', ?_⟩
  · refine hlayout.remaps hmap hlayout.size (fun u hu => Function.update_of_ne (by omega) ..) ?_
    intro u hu hne'
    by_cases huv : u = v
    · rwa [huv]
    · rw [Function.update_of_ne huv] at hne'
      by_contra hge
      exact hne' (hlayout.leaf_eq_zero (Nat.not_lt.mp hge) hu)
  · have hkept := hrep.kept_table ht
      (some (setWord table (v % 512) (pa2pte n ||| (pteR ||| pteW) |||
      pteV)))
    funext u
    by_cases huv : u = v
    · subst huv
      have hself : S'.leaf u = pa2pte n ||| (pteR ||| pteW) ||| pteV := by
        rw [hmap.leaf, Function.update_self]
      have hthere := (hkept n (Or.inl ⟨u, htop, hne, hn⟩)).trans hdata
      have hflags' : pteFlags (pa2pte n ||| (pteR ||| pteW) ||| pteV) = pteR ||| pteW ||| pteV := by
        rw [pteFlags, entry_and_mask (by decide) n (by decide)]
        decide
      have hwhere : pte2pa (S'.leaf u) = n := by rw [hself, hpage']
      have hne' : S'.leaf u ≠ 0 := fun hzero => hleaf.valid (by rw [← hself, hzero, Nat.zero_and])
      rw [Function.update_self, Space.content_of_data htop hne' (by rw [hwhere]; exact hthere),
        hself, hflags']
    · rw [Function.update_of_ne huv]
      refine Space.content_eq ?_ fun hut hne' => hkept _ (Or.inl ⟨u, hut, hne', rfl⟩)
      rw [hmap.leaf, Function.update_of_ne huv]

end Specs

end Xv6.Vm
