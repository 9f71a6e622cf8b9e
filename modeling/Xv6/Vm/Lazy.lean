import Xv6.Lib.Alone
import Xv6.Vm.Memory

/-! Lazy allocation. A process may grow with `SBRK_EAGER` or without: `copyin` and
`copyout` give the same results, since what they find depends on the size and
the contents of its memory only. -/
namespace Xv6.Vm

open Lib

inductive Access where
  | sbrk (n t : Int)
  | copyin (srcva len : Nat)
  | copyout (dstva : Nat) (src : List UInt8)

inductive Outcome where
  | returned (ret : Nat)
  | copiedIn (ok : Bool) (bytes : List UInt8)
  | copiedOut (ok : Bool)
  deriving DecidableEq

def Access.perform (img : Image) (mm : Mm) : Access → Code (Mm × Outcome)
  | .sbrk n t => do
      let (mm, ret) ← sysSbrk img n t mm
      return (mm, .returned ret)
  | .copyin srcva len =>
      deref mm.pagetable fun pagetable => do
        let (ok, bytes) ← Vm.copyin img mm pagetable srcva len
        return (mm, .copiedIn ok bytes)
  | .copyout dstva src =>
      deref mm.pagetable fun pagetable => do
        let ok ← Vm.copyout img mm pagetable dstva src
        return (mm, .copiedOut ok)

def performAll (img : Image) : List Access → Mm → Code (Mm × List Outcome)
  | [], mm => return (mm, [])
  | a :: rest, mm => do
      let (mm, outcome) ← a.perform img mm
      let (mm, outcomes) ← performAll img rest mm
      return (mm, outcome :: outcomes)

def Access.Fits : Access → Prop
  | .sbrk n _ => n < 2 ^ 31
  | .copyin _ _ | .copyout _ _ => True

/-- The same, but for the second argument of `sys_sbrk`. -/
inductive Access.Alike : Access → Access → Prop where
  | sbrk (n t t' : Int) : Alike (.sbrk n t) (.sbrk n t')
  | refl (a : Access) : Alike a a

section Effect

def Access.effect (sz : Nat) (pages : UserPages) : Access → Outcome × Nat × UserPages
  | .sbrk n _ =>
      let (ret, sz, pages) := sbrkPages sz pages n
      (.returned ret, sz, pages)
  | .copyin srcva len =>
      let (ok, bytes) := readPages pages len srcva len
      (.copiedIn ok bytes, sz, pages)
  | .copyout dstva src =>
      let (ok, pages) := writePages src.length pages dstva src
      (.copiedOut ok, sz, pages)

def effectAll : List Access → Nat → UserPages → List Outcome × Nat × UserPages
  | [], sz, pages => ([], sz, pages)
  | a :: rest, sz, pages =>
      let (outcome, sz, pages) := a.effect sz pages
      let (outcomes, sz, pages) := effectAll rest sz pages
      (outcome :: outcomes, sz, pages)

theorem Access.Alike.effect_eq {a b : Access} (h : a.Alike b) (sz : Nat) (pages : UserPages) :
    a.effect sz pages = b.effect sz pages := by
  cases h with
  | sbrk n t t' => rfl
  | refl => rfl

theorem Access.Alike.fits {calls calls' : List Access} (h : List.Forall₂ Access.Alike calls calls')
    (hfits : ∀ a ∈ calls, a.Fits) : ∀ a ∈ calls', a.Fits := by
  induction h with
  | nil => exact hfits
  | cons hfirst _ ih =>
    rw [List.forall_mem_cons] at hfits ⊢
    refine ⟨?_, ih hfits.2⟩
    cases hfirst with
    | sbrk n t t' => exact hfits.1
    | refl => exact hfits.1

theorem effectAll_alike {calls calls' : List Access} (h : List.Forall₂ Access.Alike calls calls')
    (sz : Nat) (pages : UserPages) : effectAll calls sz pages = effectAll calls' sz pages := by
  induction h generalizing sz pages with
  | nil => rfl
  | cons hfirst _ ih => simp only [effectAll, hfirst.effect_eq, ih]

end Effect

section Spec

variable {img : Image} {P : Protocol sig} {h : Heap} {mm : Mm}
  {extra : Nat → Prop} {pages : UserPages} (hmem : Manages img P.pool)
include hmem

theorem perform_spec {a : Access} (hfits : a.Fits) (hshow : Shows img P.pool mm extra pages h) :
    wp machine P (a.perform img mm) (fun r h' => ∃ pages', Shows img P.pool r.1 extra pages' h' ∧
      (P.exhausts ∨ (r.2, r.1.sz, pages') = a.effect mm.sz pages)) h := by
  cases a with
  | sbrk n t =>
    refine wp_seq (sysSbrk_spec hmem hshow hfits t) ?_
    rintro ⟨mm', ret⟩ h' ⟨pages', hshow', hdone⟩
    refine ⟨pages', hshow', hdone.imp id fun heq => ?_⟩
    simp only [Access.effect, ← heq]
  | copyin srcva len =>
    obtain ⟨root, tf, mapped, hpt, htf, hview, rfl⟩ := hshow
    simp only [Access.perform, hpt, deref]
    refine wp_seq (copyinLoop_spec hmem hpt (Nat.le_refl len) hview) ?_
    rintro r h' ⟨mapped', hview', hlook, hdone⟩
    refine ⟨_, ⟨root, tf, mapped', hpt, htf, hview', hlook⟩, hdone.imp id ?_⟩
    rintro rfl
    rfl
  | copyout dstva src =>
    obtain ⟨root, tf, mapped, hpt, htf, hview, rfl⟩ := hshow
    simp only [Access.perform, hpt, deref]
    refine wp_seq (copyoutLoop_spec hmem hpt (Nat.le_refl _) hview) ?_
    rintro ok h' ⟨mapped', hview', hdone⟩
    refine ⟨_, ⟨root, tf, mapped', hpt, htf, hview', rfl⟩, hdone.imp id fun heq => ?_⟩
    simp only [Access.effect, ← heq]

theorem performAll_spec {calls : List Access} (hfits : ∀ a ∈ calls, a.Fits)
    (hshow : Shows img P.pool mm extra pages h) :
    wp machine P (performAll img calls mm) (fun r h' => ∃ pages',
      Shows img P.pool r.1 extra pages' h' ∧
      (P.exhausts ∨ (r.2, r.1.sz, pages') = effectAll calls mm.sz pages)) h := by
  induction calls generalizing mm pages h with
  | nil => exact ⟨pages, hshow, Or.inr rfl⟩
  | cons a rest ih =>
    refine wp_seq (perform_spec hmem (hfits a List.mem_cons_self) hshow) ?_
    rintro ⟨mm₁, outcome⟩ h₁ ⟨pages₁, hshow₁, hdone₁⟩
    refine wp_seq (ih (fun b hb => hfits b (List.mem_cons_of_mem _ hb)) hshow₁) ?_
    rintro ⟨mm₂, outcomes⟩ h₂ ⟨pages₂, hshow₂, hdone₂⟩
    refine ⟨pages₂, hshow₂, ?_⟩
    rcases hdone₁ with hshort | hdone₁
    · exact Or.inl hshort
    · refine hdone₂.imp id fun hdone₂ => ?_
      simp only [effectAll, ← hdone₁, ← hdone₂]

end Spec

section Runs

def ram (img : Image) (c : Cell) : Prop := ∃ n, c = .page n ∧ img.managed n

def solo (img : Image) (exhausts : Prop) : Protocol sig where
  pool := ram img
  exhausts := exhausts
  accepted _ := False

def Process (img : Image) (s : Alone sig) (mm : Mm) : Prop :=
  ∃ h, s.Has (ram img) h ∧ MmOk img (ram img) mm (fun _ => False) h

variable {img : Image} {s : Alone sig} {mm : Mm} {h : Heap} {pages : UserPages}

theorem manages_ram {exhausts : Prop} : Manages img (solo img exhausts).pool := fun _ hc => hc

theorem run_spec {α : Type} {p : Code α} {post : α → Heap → Prop} {exhausts : Prop}
    (hs : s.Has (ram img) h) (hp : wp machine (solo img exhausts) p post h)
    (hlong : exhausts ∨ (p.run machine s).2.short = false) :
    ∃ a h', (p.run machine s).1 = .ok a ∧ post a h' ∧ (p.run machine s).2.Has (ram img) h' ∧
      s.Moves h (p.run machine s).2 h' := by
  rcases Alone.Has.run (P := solo img exhausts) hs hp hlong with
    ⟨e, -, hno⟩ | hdone
  · exact hno.elim
  · exact hdone

theorem performAll_run {calls : List Access} (hfits : ∀ a ∈ calls, a.Fits)
    (hs : s.Has (ram img) h) (hshow : Shows img (ram img) mm (fun _ => False) pages h)
    (hlong : ((performAll img calls mm).run machine s).2.short = false) :
    ∃ mm' outcomes pages' h', ((performAll img calls mm).run machine s).1 = .ok (mm', outcomes) ∧
      (outcomes, mm'.sz, pages') = effectAll calls mm.sz pages ∧
      ((performAll img calls mm).run machine s).2.Has (ram img) h' ∧
      Shows img (ram img) mm' (fun _ => False) pages' h' := by
  obtain ⟨⟨mm', outcomes⟩, h', hrun, ⟨pages', hshow', hdone⟩, hs', -⟩ :=
    run_spec hs (performAll_spec (P := solo img False) manages_ram hfits hshow) (Or.inr hlong)
  exact ⟨mm', outcomes, pages', h', hrun, hdone.resolve_left id, hs', hshow'⟩

end Runs

section Samples

def born (img : Image) : Code (Option Mm) := do
  match ← kalloc with
  | none => return none
  | some tf =>
      let pagetable ← procPagetable img tf
      return pagetable.map fun root => ⟨0, some root, some tf⟩

theorem born_spec {img : Image} {P : Protocol sig} (hmem : Manages img P.pool) :
    wp machine P (born img) (fun r h => ∀ mm, r = some mm →
      MmOk img P.pool mm (fun _ => False) h) Heaplet.empty := by
  refine wp_bind (wp_kalloc hmem (fun _ mm hnone => by cases hnone) fun tf hpool _ => ?_)
  refine wp_seq (wp_frame (procPagetable_spec hmem (hmem.fits hpool))
    (Heaplet.splits_empty _).symm) ?_
  rintro r h' ⟨own, hsplit, hown⟩ mm hmm
  cases r with
  | none => cases hmm
  | some root =>
    cases hmm
    obtain ⟨S, hroot, hlayout, hrep⟩ := hown
    refine ⟨root, tf, rfl, rfl, S, hroot, hlayout, ?_⟩
    exact (hrep.attach hsplit (Pages.single hpool _)).congr_extra fun n => by simp

def sampleImage : Image where
  firstPage := 0x80030
  trampolinePage := 0x80008
  text := by decide
  ram := by decide

def sampleMemory : Alone sig where
  free := (List.range 20).map fun k => .page (0x80100 + k)
  mem _ := filled 0
  short := false

def sampleStart : Except Panic (Option Mm) × Alone sig :=
  (born sampleImage).run machine sampleMemory

def sampleMm : Mm := ⟨0, some 0x80101, some 0x80100⟩

def outcome {α : Type} (r : Except Panic α × Alone sig) : Option α :=
  match r.1 with
  | .ok a => some a
  | .error _ => none

theorem sampleStart_mm : outcome sampleStart = some (some sampleMm) ∧
    sampleStart.2.short = false := by
  decide +kernel

theorem ok_of_outcome {α : Type} {r : Except Panic α × Alone sig} {a : α}
    (h : outcome r = some a) : r.1 = .ok a := by
  unfold outcome at h
  split at h
  · cases h
    assumption
  · cases h

theorem sampleMemory_has : sampleMemory.Has (ram sampleImage) Heaplet.empty := by
  refine ⟨by decide, fun c hc => ⟨?_, rfl⟩, fun c x hx => by cases hx⟩
  obtain ⟨k, hk, rfl⟩ := List.mem_map.mp hc
  have := List.mem_range.mp hk
  refine ⟨_, rfl, ?_, ?_⟩
  · exact Nat.le_trans (by decide) (Nat.le_add_right _ k)
  · exact Nat.lt_of_lt_of_le (Nat.add_lt_add_left this _) (by decide)

theorem sampleProcess : Process sampleImage sampleStart.2 sampleMm := by
  obtain ⟨r, h, hrun, hmm, hs', -⟩ := run_spec sampleMemory_has
    (born_spec (P := solo sampleImage False) manages_ram) (Or.inr sampleStart_mm.2)
  have hstart : sampleStart.1 = .ok (some sampleMm) := ok_of_outcome sampleStart_mm.1
  rw [show sampleStart.1 = .ok r from hrun] at hstart
  cases hstart
  exact ⟨h, hs', hmm _ rfl⟩

theorem sampleProcess_run {calls : List Access} {mm : Mm} {outcomes : List Outcome}
    (hfits : ∀ a ∈ calls, a.Fits)
    (hrun : outcome ((performAll sampleImage calls sampleMm).run machine sampleStart.2) =
      some (mm, outcomes) ∧
      ((performAll sampleImage calls sampleMm).run machine sampleStart.2).2.short = false) :
    Process sampleImage ((performAll sampleImage calls sampleMm).run machine sampleStart.2).2
      mm := by
  obtain ⟨h, hs, hmm⟩ := sampleProcess
  obtain ⟨pages, hshow⟩ := hmm.shows
  obtain ⟨mm', outcomes', pages', h', hres, -, hs', hshow'⟩ := performAll_run hfits hs hshow hrun.2
  have hend := ok_of_outcome hrun.1
  rw [hres] at hend
  cases hend
  exact ⟨h', hs', hshow'.ok⟩

end Samples

end Xv6.Vm
