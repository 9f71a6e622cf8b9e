import Xv6.Vm.Strings

/-! Lazy allocation is transparent to `copyin` and `copyout`, not to `copyinstr`: it takes no
page faults, and fails where a string comes to a page that was reserved and not yet touched.
Two runs that allocate memory at other times agree on a string if and only if both come to
such a page or neither does. -/
namespace Xv6.Vm

open Lib

section Scan

structure Completes (present : UserPages) (lazy : Nat → Prop) (pages : UserPages) : Prop where
  reserved : ∀ v, lazy v → present v = none ∧ ∃ flags, pages v = some (flags, filled 0)
  same : ∀ v, ¬lazy v → present v = pages v

def ComesTo (present : UserPages) (lazy : Nat → Prop) (va max : Nat) : Prop :=
  ∃ k, k < max ∧ (∀ j, j < k → ∃ byte, byteAt present (va + j) = some byte ∧ byte ≠ 0) ∧
    lazy (vpn (va + k))

variable {present present' pages : UserPages} {lazy lazy' : Nat → Prop} {va max : Nat}

theorem comesTo_succ : ComesTo present lazy va (max + 1) ↔ lazy (vpn va) ∨
    (∃ byte, byteAt present va = some byte ∧ byte ≠ 0) ∧ ComesTo present lazy (va + 1) max := by
  have hshift : ∀ j, va + 1 + j = va + (j + 1) := fun j => by omega
  constructor
  · rintro ⟨k, hk, hbytes, hlazy⟩
    cases k with
    | zero => exact Or.inl hlazy
    | succ k =>
      refine Or.inr ⟨hbytes 0 (Nat.succ_pos k), k, Nat.lt_of_succ_lt_succ hk, fun j hj => ?_, ?_⟩
      · rw [hshift]
        exact hbytes (j + 1) (Nat.succ_lt_succ hj)
      · rwa [hshift]
  · rintro (hlazy | ⟨hfirst, k, hk, hbytes, hlazy⟩)
    · exact ⟨0, Nat.succ_pos max, fun j hj => absurd hj (Nat.not_lt_zero j), hlazy⟩
    · refine ⟨k + 1, Nat.succ_lt_succ hk, fun j hj => ?_, by rwa [← hshift]⟩
      cases j with
      | zero => exact hfirst
      | succ j =>
        rw [← hshift]
        exact hbytes j (Nat.lt_of_succ_lt_succ hj)

namespace Completes

variable (h : Completes present lazy pages)
include h

theorem byteAt_same (hlazy : ¬lazy (vpn va)) : byteAt present va = byteAt pages va := by
  rw [byteAt, byteAt, h.same _ hlazy]

theorem byteAt_reserved (hlazy : lazy (vpn va)) :
    byteAt present va = none ∧ byteAt pages va = some 0 := by
  obtain ⟨hnone, flags, hzero⟩ := h.reserved _ hlazy
  rw [byteAt, byteAt, hnone, hzero]
  simp [Bytes.get, filled]

theorem scan_of_not (hno : ¬ComesTo present lazy va max) :
    scan present max va = scan pages max va := by
  induction max generalizing va with
  | zero => rfl
  | succ max ih =>
    rw [comesTo_succ, not_or] at hno
    rw [scan, scan, h.byteAt_same hno.1]
    cases hbyte : byteAt pages va with
    | none => rfl
    | some byte =>
      dsimp only
      by_cases hzero : byte = 0
      · rw [if_pos hzero, if_pos hzero]
      · have hrest : ¬ComesTo present lazy (va + 1) max := fun hcomes =>
          hno.2 ⟨⟨byte, (h.byteAt_same hno.1).trans hbyte, hzero⟩, hcomes⟩
        rw [if_neg hzero, if_neg hzero, ih hrest]

theorem scan_of_comesTo (hcomes : ComesTo present lazy va max) :
    (scan present max va).1 = false ∧
      scan pages max va = (true, (scan present max va).2 ++ [0]) := by
  induction max generalizing va with
  | zero =>
    obtain ⟨k, hk, -⟩ := hcomes
    exact absurd hk (Nat.not_lt_zero k)
  | succ max ih =>
    rw [scan, scan]
    by_cases hlazy : lazy (vpn va)
    · obtain ⟨hnone, hzero⟩ := h.byteAt_reserved hlazy
      rw [hnone, hzero]
      exact ⟨rfl, rfl⟩
    · obtain ⟨⟨byte, hbyte, hne⟩, hrest⟩ := (comesTo_succ.mp hcomes).resolve_left hlazy
      obtain ⟨hfails, hends⟩ := ih hrest
      rw [← h.byteAt_same hlazy, hbyte]
      dsimp only
      rw [if_neg hne, if_neg hne, hends]
      exact ⟨hfails, rfl⟩

theorem scan_eq_iff (h' : Completes present' lazy' pages) :
    scan present max va = scan present' max va ↔
      (ComesTo present lazy va max ↔ ComesTo present' lazy' va max) := by
  by_cases hcomes : ComesTo present lazy va max
  · obtain ⟨hfails, hends⟩ := h.scan_of_comesTo hcomes
    by_cases hcomes' : ComesTo present' lazy' va max
    · obtain ⟨hfails', hends'⟩ := h'.scan_of_comesTo hcomes'
      refine iff_of_true (Prod.ext (hfails.trans hfails'.symm) ?_) (iff_of_true hcomes hcomes')
      rw [hends] at hends'
      exact List.append_cancel_right (Prod.ext_iff.mp hends').2
    · refine iff_of_false (fun heq => ?_) fun hiff => hcomes' (hiff.mp hcomes)
      rw [heq, h'.scan_of_not hcomes', hends] at hfails
      cases hfails
  · by_cases hcomes' : ComesTo present' lazy' va max
    · obtain ⟨hfails', hends'⟩ := h'.scan_of_comesTo hcomes'
      refine iff_of_false (fun heq => ?_) fun hiff => hcomes (hiff.mpr hcomes')
      rw [← heq, h.scan_of_not hcomes, hends'] at hfails'
      cases hfails'
    · refine iff_of_true ?_ (iff_of_false hcomes hcomes')
      rw [h.scan_of_not hcomes, h'.scan_of_not hcomes']

end Completes

end Scan

/-- A page below the size that has no valid entry: `sbrk` has reserved it, and nobody has
touched it since. -/
def Untouched (s : Alone sig) (mm : Mm) (root v : Nat) : Prop :=
  v < npages mm.sz ∧ entryIn s.mem root v &&& pteV = 0

/-- `copyinstr` comes to such a page before it comes to a null byte. -/
def MeetsUntouched (s : Alone sig) (mm : Mm) (srcva max : Nat) : Prop :=
  ∃ root, mm.pagetable = some root ∧
    ComesTo (userIn s.mem root) (Untouched s mm root) srcva max

def fetch (mm : Mm) (srcva max : Nat) : Code (Bool × List UInt8) :=
  deref mm.pagetable fun pagetable => copyinstr pagetable srcva max

section Runs

variable {img : Image} {s : Alone sig} {mm : Mm} {S : Space} {tf : Nat} {extra : Nat → Prop}
  {h : Heap}

theorem Layout.completes (hlayout : Layout img S mm.sz tf) (hrep : Rep (ram img) S extra h)
    (hmem : ∀ c x, h c = some x → s.mem c = x) :
    Completes (userIn s.mem S.root) (Untouched s mm S.root) (look (S.content h) mm.sz) := by
  have hentry : ∀ v, entryIn s.mem S.root v = S.leaf v := hrep.entryIn_eq hmem
  have hvalid : ∀ v, S.leaf v &&& pteV = 0 ↔ S.leaf v = 0 := fun v => not_iff_not.mp (S.valid_iff v)
  refine ⟨fun v hlazy => ?_, fun v hno => ?_⟩
  · obtain ⟨hv, hzero⟩ := hlazy
    rw [hentry, hvalid] at hzero
    have hnone : S.content h v = none := if_neg fun hne => hne.2 hzero
    refine ⟨if_neg fun hne => hne.2.1 (by rw [hentry, hzero, Nat.zero_and]), heapFlags, ?_⟩
    simp [look, hnone, hv]
  · by_cases hleaf : S.leaf v = 0
    · have hsz : ¬v < npages mm.sz := fun hv => hno ⟨hv, by rw [hentry, hleaf, Nat.zero_and]⟩
      have hnone : S.content h v = none := if_neg fun hne => hne.2 hleaf
      rw [look_of_unmapped hnone hsz]
      exact if_neg fun hne => hne.2.1 (by rw [hentry, hleaf, Nat.zero_and])
    · by_cases htop : v < userTop
      · obtain ⟨data, hdata⟩ := Option.ne_none_iff_exists'.mp
          (hrep.holds_ne_none (.user v) ⟨htop, hleaf, rfl⟩)
        have hcontent := Space.content_of_data htop hleaf hdata
        have hflags := and_mask_pteFlags (S.leaf v) (show 1023 &&& pteU = pteU by decide)
        by_cases huser : S.leaf v &&& pteU = 0
        · rw [look_of_not_user hcontent (hflags.trans huser)]
          exact if_neg fun hne => hne.2.2 (by rw [hentry, huser])
        · rw [look_of_mapped hcontent (by rwa [hflags]), userIn, hentry, hmem _ _ hdata]
          exact if_pos ⟨Nat.lt_trans htop (by decide), (S.valid_iff v).mpr hleaf, huser⟩
      · -- the trampoline and the trapframe are not for the user
        have huser : S.leaf v &&& pteU = 0 := by
          by_contra huser
          exact htop (hlayout.lt_userTop (hlayout.lt_npages_of_user huser))
        have hnone : S.content h v = none := if_neg fun hne => htop hne.1
        rw [look_of_unmapped hnone fun hv => htop (hlayout.lt_userTop hv)]
        exact if_neg fun hne => hne.2.2 (by rw [hentry, huser])

theorem Shows.fetch {pages : UserPages} (hs : s.Has (ram img) h)
    (hshow : Shows img (ram img) mm (fun _ => False) pages h) :
    ∃ present lazy, Completes present lazy pages ∧ ∀ srcva max,
      ((fetch mm srcva max).run machine s).1 = .ok (scan present max srcva) ∧
      (MeetsUntouched s mm srcva max ↔ ComesTo present lazy srcva max) := by
  obtain ⟨root, tf, mapped, hpt, htf, ⟨S, rfl, hlayout, hrep, rfl⟩, rfl⟩ := hshow
  have hram : InRam s.mem S.root := hrep.inRam (fun _ hc => hc) hlayout hs.mem
  refine ⟨_, _, hlayout.completes hrep hs.mem, fun srcva max => ⟨?_, ?_⟩⟩
  · simp only [Vm.fetch, hpt, deref, run_copyinstr hram]
  · refine ⟨?_, fun hcomes => ⟨S.root, hpt, hcomes⟩⟩
    rintro ⟨root, hroot, hcomes⟩
    cases hpt.symm.trans hroot
    exact hcomes

/-- Two runs of the calls of a process, one as it is and one in which memory is
allocated at other times. -/
theorem lazy_transparent {calls calls' : List Access} (hproc : Process img s mm)
    (hfits : ∀ a ∈ calls, a.Fits) (halike : List.Forall₂ Access.Alike calls calls')
    (hlong : ((performAll img calls mm).run machine s).2.short = false)
    (hlong' : ((performAll img calls' mm).run machine s).2.short = false) :
    ∃ mm₁ mm₂ outcomes, ((performAll img calls mm).run machine s).1 = .ok (mm₁, outcomes) ∧
      ((performAll img calls' mm).run machine s).1 = .ok (mm₂, outcomes) ∧ mm₁.sz = mm₂.sz ∧
      ∀ srcva max,
        ((fetch mm₁ srcva max).run machine ((performAll img calls mm).run machine s).2).1 =
          ((fetch mm₂ srcva max).run machine ((performAll img calls' mm).run machine s).2).1 ↔
        (MeetsUntouched ((performAll img calls mm).run machine s).2 mm₁ srcva max ↔
          MeetsUntouched ((performAll img calls' mm).run machine s).2 mm₂ srcva max) := by
  have hfits' := Access.Alike.fits halike hfits
  obtain ⟨h, hs, hmm⟩ := hproc
  obtain ⟨pages, hshow⟩ := hmm.shows
  obtain ⟨mm₁, outcomes, pages₁, h₁, hrun₁, heffect₁, hs₁, hshow₁⟩ :=
    performAll_run hfits hs hshow hlong
  obtain ⟨mm₂, outcomes', pages₂, h₂, hrun₂, heffect₂, hs₂, hshow₂⟩ :=
    performAll_run hfits' hs hshow hlong'
  rw [effectAll_alike halike, ← heffect₂] at heffect₁
  obtain ⟨rfl, hsz, rfl⟩ : outcomes = outcomes' ∧ mm₁.sz = mm₂.sz ∧ pages₁ = pages₂ := by
    simpa using heffect₁
  obtain ⟨present₁, lazy₁, hall₁, hfetch₁⟩ := hshow₁.fetch hs₁
  obtain ⟨present₂, lazy₂, hall₂, hfetch₂⟩ := hshow₂.fetch hs₂
  refine ⟨mm₁, mm₂, outcomes, hrun₁, hrun₂, hsz, fun srcva max => ?_⟩
  rw [(hfetch₁ srcva max).1, (hfetch₂ srcva max).1, (hfetch₁ srcva max).2, (hfetch₂ srcva max).2,
    Except.ok.injEq]
  exact hall₁.scan_eq_iff hall₂

end Runs

section Samples

def stringCalls (t : Int) : List Access :=
  [.sbrk 12288 t, .copyout 4094 [1, 2, 3, 4], .copyin 4090 10]

def stringCallsRun (t : Int) : Except Panic (Mm × List Outcome) × Alone sig :=
  (performAll sampleImage (stringCalls t) sampleMm).run machine sampleStart.2

def grownMm : Mm := { sampleMm with sz := 12288 }

theorem stringCallsRun_outcome : ∀ t ∈ [sbrkEager, 2],
    outcome (stringCallsRun t) = some (grownMm, [.returned 0, .copiedOut true,
      .copiedIn true [0, 0, 0, 0, 1, 2, 3, 4, 0, 0]]) ∧ (stringCallsRun t).2.short = false := by
  decide +kernel

theorem eager_touched (srcva max : Nat) :
    ¬MeetsUntouched (stringCallsRun sbrkEager).2 grownMm srcva max := by
  rintro ⟨root, hroot, k, -, -, hv, hentry⟩
  cases hroot
  have hmapped : ∀ v < 3, entryIn (stringCallsRun sbrkEager).2.mem 0x80101 v &&& pteV ≠ 0 := by
    decide +kernel
  exact hmapped _ hv hentry

theorem string_ends_before (max : Nat) : ¬MeetsUntouched (stringCallsRun 2).2 grownMm 4094 max := by
  rintro ⟨root, hroot, k, -, hbytes, hv, hentry⟩
  cases hroot
  have hmapped : ∀ v < 2, entryIn (stringCallsRun 2).2.mem 0x80101 v &&& pteV ≠ 0 := by
    decide +kernel
  have hnull : byteAt (userIn (stringCallsRun 2).2.mem 0x80101) 4098 = some 0 := by decide +kernel
  have hk : 4 < k := by
    by_contra hk
    refine hmapped _ ?_ hentry
    unfold vpn pgSize
    omega
  obtain ⟨byte, hbyte, hne⟩ := hbytes 4 hk
  rw [hnull] at hbyte
  exact hne (Option.some.inj hbyte).symm

theorem third_page_untouched : MeetsUntouched (stringCallsRun 2).2 grownMm 8192 16 :=
  ⟨0x80101, rfl, 0, by decide, fun j hj => absurd hj (Nat.not_lt_zero j), by decide,
    by decide +kernel⟩

/-- The string ends before the third page, which is untouched in the second run; at that
page the runs differ. -/
theorem lazy_transparent_strings :
    ((fetch grownMm 4094 9000).run machine (stringCallsRun sbrkEager).2).1 =
      ((fetch grownMm 4094 9000).run machine (stringCallsRun 2).2).1 ∧
    ((fetch grownMm 8192 16).run machine (stringCallsRun sbrkEager).2).1 ≠
      ((fetch grownMm 8192 16).run machine (stringCallsRun 2).2).1 := by
  have hfits : ∀ a ∈ stringCalls sbrkEager, a.Fits := by
    simp [stringCalls, Access.Fits]
  have halike : List.Forall₂ Access.Alike (stringCalls sbrkEager) (stringCalls 2) :=
    .cons (.sbrk ..) (.cons (.refl _) (.cons (.refl _) .nil))
  have heager := stringCallsRun_outcome sbrkEager (by simp)
  have hlazy := stringCallsRun_outcome 2 (by simp)
  obtain ⟨mm₁, mm₂, outcomes, hrun, hrun', -, hstring⟩ := lazy_transparent sampleProcess hfits
    halike heager.2 hlazy.2
  cases hrun.symm.trans (ok_of_outcome heager.1)
  cases hrun'.symm.trans (ok_of_outcome hlazy.1)
  refine ⟨(hstring 4094 9000).mpr (iff_of_false (eager_touched _ _) (string_ends_before _)),
    fun heq => eager_touched 8192 16 (((hstring 8192 16).mp heq).mpr third_page_untouched)⟩

def growAndFetch (t : Int) : Code (Bool × List UInt8) := do
  let (mm, _) ← sysSbrk sampleImage 4096 t sampleMm
  fetch mm 0 16

theorem copyinstr_fails_on_lazy_page :
    outcome ((growAndFetch sbrkEager).run machine sampleStart.2) = some (true, [0]) ∧
    outcome ((growAndFetch 2).run machine sampleStart.2) = some (false, []) ∧
    ((growAndFetch sbrkEager).run machine sampleStart.2).2.short = false ∧
    ((growAndFetch 2).run machine sampleStart.2).2.short = false := by
  decide +kernel

end Samples

end Xv6.Vm
