import Xv6.Vm.Copy

/-! The memory image that an executable asks for: segment after segment, up to the largest
end. If the segments come in order and share no page, each is there as the file has it. -/
namespace Xv6.Vm

open Lib

structure Segment where
  vaddr : Nat
  memsz : Nat
  filesz : Nat
  off : Nat
  flags : Nat
  deriving DecidableEq

def Segment.of (ph : List UInt8) : Segment where
  vaddr := field ph 16 8
  memsz := field ph 40 8
  filesz := field ph 32 8
  off := field ph 8 8
  flags := field ph 4 4

def segmentsFrom (file : List UInt8) : Nat → Nat → List Segment
  | 0, _ => []
  | n + 1, off =>
      let ph := (file.drop off).take phSize
      if field ph 0 4 = 1 then Segment.of ph :: segmentsFrom file n (off + phSize)
      else segmentsFrom file n (off + phSize)

namespace Segment

variable (g : Segment)

def finish : Nat := g.vaddr + g.memsz

def bytes (file : List UInt8) : List UInt8 := (file.drop g.off).take g.filesz

def pageFlags : Nat := pteR ||| pteU ||| flags2perm g.flags ||| pteV

def Covers (v : Nat) : Prop := vpn g.vaddr ≤ v ∧ v < npages g.finish

structure Good (file : List UInt8) : Prop where
  fits : g.filesz ≤ g.memsz
  aligned : g.vaddr % pgSize = 0
  inFile : (g.bytes file).length = g.filesz

structure Present (file : List UInt8) (pages : UserPages) : Prop where
  bytes : ∀ j, j < g.filesz → ∃ b, file[g.off + j]? = some b ∧
    byteAt pages (g.vaddr + j) = some b
  zeros : ∀ a, g.Covers (vpn a) → g.vaddr + g.filesz ≤ a → byteAt pages a = some 0
  flags : ∀ v, g.Covers v → ∃ flags data, pages v = some (flags, data) ∧
    flags &&& pteR ≠ 0 ∧ flags &&& pteU ≠ 0 ∧ (flags &&& pteW ≠ 0 ↔ g.flags &&& 2 ≠ 0) ∧
    (flags &&& pteX ≠ 0 ↔ g.flags &&& 1 ≠ 0)

end Segment

def fresh (flags : Nat) (pages : UserPages) (lo hi : Nat) : UserPages := fun v =>
  if lo ≤ v ∧ v < hi then some (flags, filled 0) else pages v

def loadSegment (file : List UInt8) (image : UserPages × Nat) (g : Segment) : UserPages × Nat :=
  (written (fresh g.pageFlags image.1 (npages image.2) (npages (max image.2 g.finish))) g.vaddr
    (g.bytes file), max image.2 g.finish)

def Dense (pages : UserPages) (sz : Nat) : Prop :=
  ∀ u, u < npages sz → Usable false pages u

/-- The segments come in order, and no page has two of them. -/
def Apart (segs : List Segment) : Prop :=
  segs.Pairwise fun g g' => g.vaddr ≤ g'.vaddr ∧ ∀ v, g.Covers v → ¬g'.Covers v

def topOf (segs : List Segment) : Nat := segs.foldl (fun top g => max top g.finish) 0

section Lemmas

variable {file : List UInt8} {pages pages' : UserPages} {g : Segment} {segs : List Segment}
  {sz : Nat}

theorem topOf_append (segs : List Segment) (g : Segment) :
    topOf (segs ++ [g]) = max (topOf segs) g.finish := by
  unfold topOf
  rw [List.foldl_append]
  rfl

theorem finish_le_topOf (hg : g ∈ segs) : g.finish ≤ topOf segs := by
  induction segs using List.reverseRecOn with
  | nil => cases hg
  | append_singleton segs last ih =>
    rw [topOf_append]
    rcases List.mem_append.mp hg with hold | hlast
    · exact Nat.le_trans (ih hold) (Nat.le_max_left ..)
    · rw [List.mem_singleton.mp hlast]
      exact Nat.le_max_right ..

theorem topOf_reached (segs : List Segment) : topOf segs = 0 ∨ ∃ g ∈ segs,
    topOf segs = g.finish := by
  induction segs using List.reverseRecOn with
  | nil => exact Or.inl rfl
  | append_singleton segs last ih =>
    rw [topOf_append]
    rcases Nat.le_total last.finish (topOf segs) with hle | hle
    · rw [Nat.max_eq_left hle]
      exact ih.imp id fun ⟨g, hg, htop⟩ => ⟨g, List.mem_append_left _ hg, htop⟩
    · rw [Nat.max_eq_right hle]
      exact Or.inr ⟨last, by simp, rfl⟩

namespace Segment

theorem covers_vpn {j : Nat} (hj : j < g.memsz) : g.Covers (vpn (g.vaddr + j)) := by
  refine ⟨Nat.div_le_div_right (Nat.le_add_right _ _), lt_npages.mpr ?_⟩
  have hpage : vpn (g.vaddr + j) * pgSize ≤ g.vaddr + j := Nat.div_mul_le_self _ _
  unfold finish
  omega

theorem Good.covers_byte (hgood : g.Good file) {j : Nat} (hj : j < g.filesz) :
    g.Covers (vpn (g.vaddr + j)) := covers_vpn (Nat.lt_of_lt_of_le hj hgood.fits)

theorem Good.byte (hgood : g.Good file) {j : Nat} (hj : j < g.filesz) :
    ∃ b, file[g.off + j]? = some b ∧ (g.bytes file)[j]? = some b := by
  have hlt : j < (g.bytes file).length := by rwa [hgood.inFile]
  refine ⟨(g.bytes file)[j], ?_, List.getElem?_eq_getElem hlt⟩
  rw [← List.getElem?_eq_getElem hlt]
  unfold bytes
  rw [List.getElem?_take_of_lt hj, List.getElem?_drop]

theorem Present.congr (hthere : g.Present file pages) (hgood : g.Good file)
    (hsame : ∀ v, g.Covers v → pages' v = pages v) : g.Present file pages' := by
  have hbyte : ∀ a, g.Covers (vpn a) → byteAt pages' a = byteAt pages a := by
    intro a ha
    unfold byteAt
    rw [hsame _ ha]
  constructor
  · intro j hj
    rw [hbyte _ (hgood.covers_byte hj)]
    exact hthere.bytes j hj
  · intro a ha hle
    rw [hbyte a ha]
    exact hthere.zeros a ha hle
  · intro v hv
    rw [hsame v hv]
    exact hthere.flags v hv

theorem pageFlags_spec (g : Segment) : g.pageFlags &&& pteR ≠ 0 ∧ g.pageFlags &&& pteU ≠ 0 ∧
    (g.pageFlags &&& pteW ≠ 0 ↔ g.flags &&& 2 ≠ 0) ∧
    (g.pageFlags &&& pteX ≠ 0 ↔ g.flags &&& 1 ≠ 0) := by
  unfold pageFlags flags2perm
  split <;> split <;> rename_i hx hw
  · exact ⟨by decide, by decide, iff_of_true (by decide) hw, iff_of_true (by decide) hx⟩
  · exact ⟨by decide, by decide, iff_of_false (by decide) hw, iff_of_true (by decide) hx⟩
  · exact ⟨by decide, by decide, iff_of_true (by decide) hw, iff_of_false (by decide) hx⟩
  · exact ⟨by decide, by decide, iff_of_false (by decide) hw, iff_of_false (by decide) hx⟩

theorem le_vpn_of_covers {v : Nat} (hup : ∀ g' ∈ segs, g'.vaddr ≤ g.vaddr ∧
    ∀ v, g'.Covers v → ¬g.Covers v) (hv : g.Covers v) : npages (topOf segs) ≤ vpn g.vaddr := by
  rcases topOf_reached segs with hzero | ⟨g', hg', htop⟩
  · rw [hzero]
    exact Nat.zero_le _
  · rw [htop]
    obtain ⟨hle, hdisjoint⟩ := hup g' hg'
    by_contra hlt
    have hfirst : g'.Covers (vpn g.vaddr) := ⟨Nat.div_le_div_right hle, Nat.not_le.mp hlt⟩
    exact hdisjoint _ hfirst ⟨Nat.le_refl _, Nat.lt_of_le_of_lt hv.1 hv.2⟩

end Segment

theorem loadSegment_present (hgood : g.Good file)
    (hbelow : ∀ v, g.Covers v → npages sz ≤ vpn g.vaddr) :
    g.Present file (loadSegment file (pages, sz) g).1 := by
  unfold loadSegment
  dsimp only
  generalize hnew : fresh g.pageFlags pages (npages sz) (npages (max sz g.finish)) = zeros
  have hpage : ∀ v, g.Covers v → zeros v = some (g.pageFlags, filled 0) := by
    intro v hv
    rw [← hnew]
    refine if_pos ⟨Nat.le_trans (hbelow v hv) hv.1, Nat.lt_of_lt_of_le hv.2 ?_⟩
    exact npages_mono (Nat.le_max_right ..)
  constructor
  · intro j hj
    have hcovers := hgood.covers_byte hj
    have huse : Usable false zeros (vpn (g.vaddr + j)) :=
      ⟨_, _, hpage _ hcovers, g.pageFlags_spec.2.1, by simp⟩
    obtain ⟨b, hfile, hbyte⟩ := hgood.byte hj
    refine ⟨b, hfile, ?_⟩
    rw [byteAt_written huse (by rwa [hgood.inFile]), hbyte]
  · intro a ha hle
    rw [byteAt_written_above (by rwa [hgood.inFile])]
    unfold byteAt
    rw [hpage _ ha, Option.map_some, Bytes.get_of_lt _ (Nat.mod_lt _ (by decide))]
    rfl
  · intro v hv
    unfold written
    rw [hpage v hv]
    exact ⟨_, _, rfl, g.pageFlags_spec⟩

theorem loadSegment_same {v : Nat} (hgood : g.Good file) (hold : v < npages sz)
    (hnot : ¬g.Covers v) : (loadSegment file (pages, sz) g).1 v = pages v := by
  unfold loadSegment
  dsimp only
  rw [written_other fun j hj hv => ?_]
  · exact if_neg (by omega)
  · rw [hgood.inFile] at hj
    rw [← hv] at hnot
    exact hnot (hgood.covers_byte hj)

theorem image_present (hgood : ∀ g ∈ segs, g.Good file) (hapart : Apart segs) :
    (segs.foldl (loadSegment file) (fun _ => none, 0)).2 = topOf segs ∧
    ∀ g ∈ segs, g.Present file (segs.foldl (loadSegment file) (fun _ => none, 0)).1 := by
  induction segs using List.reverseRecOn with
  | nil => exact ⟨rfl, by simp⟩
  | append_singleton segs last ih =>
    obtain ⟨hbefore, -, hup⟩ := List.pairwise_append.mp hapart
    have hup : ∀ g ∈ segs, g.vaddr ≤ last.vaddr ∧ ∀ v, g.Covers v → ¬last.Covers v :=
      fun g hg => hup g hg last (by simp)
    obtain ⟨hsize, hpresent⟩ := ih (fun g hg => hgood g (List.mem_append_left _ hg)) hbefore
    rw [List.foldl_append, List.foldl_cons, List.foldl_nil]
    generalize segs.foldl (loadSegment file) (fun _ => none, 0) = image at *
    obtain ⟨pages, sz⟩ := image
    dsimp only at hsize hpresent
    subst hsize
    have hlast : last.Good file := hgood last (by simp)
    refine ⟨(topOf_append segs last).symm, fun g hg => ?_⟩
    rcases List.mem_append.mp hg with hold | hnew
    · have hg' := hgood g hg
      refine (hpresent g hold).congr hg' fun v hv => loadSegment_same hlast ?_ ((hup g hold).2 v hv)
      exact Nat.lt_of_lt_of_le hv.2 (npages_mono (finish_le_topOf hold))
    · rw [List.mem_singleton.mp hnew]
      exact loadSegment_present hlast fun v hv => Segment.le_vpn_of_covers hup hv

end Lemmas

end Xv6.Vm
