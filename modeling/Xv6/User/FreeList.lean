import Mathlib.Order.Interval.Finset.Nat
import Xv6.User.Malloc

/-! The free list and the blocks in use make up the memory from `sbrk`, and every call keeps
them so. -/
namespace Xv6.User.Malloc

open Lib

structure Ok (limit base : Nat) (h : Heap) (F L : Finset Nat) : Prop where
  arena : Arena (ptr h.mem) (len h.mem) base F L h.obtained
  merged : Merged (ptr h.mem) (len h.mem) F
  zero : size h.mem base = 0
  rover : h.freep ∈ insert base F
  low : ∀ x ∈ h.obtained, base + 16 ≤ x ∧ x < h.top
  high : base + 16 ≤ h.top ∧ h.top < 2 ^ 64
  few : h.total ≤ limit

def Kept (L : Finset Nat) (mem mem' : Mem) : Prop :=
  ∀ a ∈ L, size mem' a = size mem a ∧
    ∀ x, a + 16 ≤ x → x < a + 16 * size mem a → mem'.get x = mem.get x

theorem Kept.trans {L : Finset Nat} {mem₁ mem₂ mem₃ : Mem} (h : Kept L mem₁ mem₂)
    (h' : Kept L mem₂ mem₃) : Kept L mem₁ mem₃ := by
  intro a ha
  refine ⟨(h' a ha).1.trans (h a ha).1, fun x hx hlt => ?_⟩
  rw [(h' a ha).2 x hx ((h a ha).1 ▸ hlt), (h a ha).2 x hx hlt]

theorem obtained_cons {h h' : Heap} {addr n : Nat}
    (hregions : h'.regions = (addr, n) :: h.regions) :
    h'.obtained = {y | addr ≤ y ∧ y < addr + n ∨ y ∈ h.obtained} := by
  ext y
  simp [Heap.obtained, hregions]

theorem card_le_total {S : Finset Nat} {regions : List (Nat × Nat)}
    (h : ∀ y ∈ S, ∃ r ∈ regions, r.1 ≤ y ∧ y < r.1 + r.2) :
    S.card ≤ (regions.map Prod.snd).sum := by
  induction regions generalizing S with
  | nil =>
    have hempty : S = ∅ := Finset.eq_empty_of_forall_notMem fun y hy => by simpa using h y hy
    rw [hempty]
    rfl
  | cons r regions ih =>
    rw [← Finset.card_filter_add_card_filter_not (fun y => r.1 ≤ y ∧ y < r.1 + r.2),
      List.map_cons, List.sum_cons]
    apply Nat.add_le_add
    · calc (S.filter fun y => r.1 ≤ y ∧ y < r.1 + r.2).card
          ≤ (Finset.Ico r.1 (r.1 + r.2)).card := by
            apply Finset.card_le_card
            intro y hy
            exact Finset.mem_Ico.mpr (Finset.mem_filter.mp hy).2
        _ = r.2 := by rw [Nat.card_Ico, Nat.add_sub_cancel_left]
    · apply ih
      intro y hy
      obtain ⟨hy, hnot⟩ := Finset.mem_filter.mp hy
      obtain ⟨r', hr', hin⟩ := h y hy
      rcases List.mem_cons.mp hr' with rfl | hr'
      · exact absurd hin hnot
      · exact ⟨r', hr', hin⟩

theorem le_total {h : Heap} {a m : Nat} (hm : ∀ y, a ≤ y → y < a + m → y ∈ h.obtained) :
    m ≤ h.total := by
  have hin : ∀ y ∈ Finset.Ico a (a + m), ∃ r ∈ h.regions, r.1 ≤ y ∧ y < r.1 + r.2 :=
    fun y hy => hm y (Finset.mem_Ico.mp hy).1 (Finset.mem_Ico.mp hy).2
  have hcard := card_le_total hin
  rwa [Nat.card_Ico, Nat.add_sub_cancel_left] at hcard

structure Got (limit base nunits : Nat) (h : Heap) (L : Finset Nat) (a : Nat) (h' : Heap) :
    Prop where
  ok : ∃ F, Ok limit base h' F (insert a L)
  new : a ∉ L
  size : size h'.mem a = nunits
  kept : Kept L h.mem h'.mem
  requests : h'.requests = h.requests ∨
    h'.requests = ((asked nunits * 16 : Nat) : Int) :: h.requests

namespace Ok

theorem of_headers {limit base : Nat} {h : Heap} {F L : Finset Nat} {next len' : Nat → Nat}
    (harena : Arena next len' base F L h.obtained) (hmerged : Merged next len' F)
    (hptr : ∀ a ∈ insert base F, ptr h.mem a = next a)
    (hlen : ∀ a ∈ insert base (F ∪ L), len h.mem a = len' a) (hzero : len' base = 0)
    (hrover : h.freep ∈ insert base F) (hlow : ∀ x ∈ h.obtained, base + 16 ≤ x ∧ x < h.top)
    (hhigh : base + 16 ≤ h.top ∧ h.top < 2 ^ 64) (hfew : h.total ≤ limit) :
    Ok limit base h F L where
  arena := harena.congr hptr fun a ha => hlen a (Finset.mem_insert_of_mem ha)
  merged := hmerged.congr (fun a ha => hptr a (Finset.mem_insert_of_mem ha)) fun a ha =>
    hlen a (by grind)
  zero := by
    have := hlen base (Finset.mem_insert_self _ _)
    unfold len at this
    omega
  rover := hrover
  low := hlow
  high := hhigh
  few := hfew

variable {limit base : Nat} {h : Heap} {F L : Finset Nat} (hok : Ok limit base h F L)
  {a b p x : Nat}
include hok

theorem len_base : len h.mem base = 0 := by rw [len, hok.zero]

theorem block (ha : a ∈ F ∪ L) : base + 16 ≤ a ∧ 0 < size h.mem a ∧
    a + 16 * size h.mem a ≤ h.top := by
  have hpos := hok.arena.tiles.pos a ha
  have hlow := hok.low a (hok.arena.tiles.mem ha)
  have hlast := hok.low (a + len h.mem a - 1) ((hok.arena.tiles.cover _).mpr ⟨a, ha, by omega⟩)
  unfold len at *
  omega

theorem clear (ha : a ∈ F ∪ L) (hb : b ∈ insert base (F ∪ L)) (hne : a ≠ b) :
    a + 16 * size h.mem a ≤ b ∨ b + 16 ≤ a := by
  have := hok.block ha
  rcases Finset.mem_insert.mp hb with rfl | hblock
  · omega
  · have := hok.block hblock
    have := hok.arena.tiles.apart a ha b hblock
    have := hok.arena.tiles.apart b hblock a ha
    unfold len at *
    omega

theorem apart (ha : a ∈ insert base (F ∪ L)) (hb : b ∈ insert base (F ∪ L)) (hne : a ≠ b) :
    a + 16 ≤ b ∨ b + 16 ≤ a := by
  rcases Finset.mem_insert.mp ha with rfl | hblock
  · have := hok.block (Finset.mem_of_mem_insert_of_ne hb hne.symm)
    omega
  · have := hok.block hblock
    have := hok.clear hblock hb hne
    omega

omit hok in
theorem node (ha : a ∈ insert base F) : a ∈ insert base (F ∪ L) :=
  Finset.insert_subset_insert _ Finset.subset_union_left ha

theorem room (ha : a ∈ insert base (F ∪ L)) : a + 16 < 2 ^ 64 := by
  have := hok.high
  rcases Finset.mem_insert.mp ha with rfl | ha
  · omega
  · have := hok.block ha
    omega

theorem bound : ∀ a ∈ insert base F, a < 2 ^ 64 := by
  intro a ha
  have := hok.room (node ha)
  omega

theorem live_ne (ha : a ∈ L) (hp : p ∈ insert base F) : a ≠ p := by
  have := hok.block (Finset.mem_union_right F ha)
  have := hok.arena.disjoint a
  grind

theorem clear_live (ha : a ∈ L) (hp : p ∈ insert base F) :
    a + 16 * size h.mem a ≤ p ∨ p + 16 ≤ a :=
  hok.clear (Finset.mem_union_right F ha) (node hp) (hok.live_ne ha hp)

theorem kept {L' : Finset Nat} {q r : Nat} {mem : Mem} (honly : Only q r h.mem mem)
    (hq : ∀ a ∈ L', a + 16 * size h.mem a ≤ q ∨ q + 16 ≤ a)
    (hr : ∀ a ∈ L', a + 16 * size h.mem a ≤ r ∨ r + 16 ≤ a) (hsub : L' ⊆ L) :
    Kept L' h.mem mem := by
  intro a ha
  have := hok.block (Finset.mem_union_right F (hsub ha))
  have := hq a ha
  have := hr a ha
  exact ⟨(honly.header (by omega) (by omega)).2, fun x hx hlt => honly x (by omega) (by omega)⟩

theorem freeLoop (hx : x ∈ L) {fuel : Nat} (hfuel : 2 ^ 65 < fuel) : ∃ p ∈ insert base F,
    Malloc.freeLoop h.mem x fuel h.freep = some p ∧ p < x ∧
      (ptr h.mem p = base ∨ x < ptr h.mem p) := by
  have hring := hok.arena.ring
  have hbase : base < x := by
    have := hok.block (Finset.mem_union_right F hx)
    omega
  have hnew : x ∉ F := fun hxF => hok.arena.disjoint x hxF hx
  obtain ⟨b, hb, hbx, hplace⟩ := hring.exists_place hbase hnew
  have hstop : ∀ p ∈ insert base F, (p < x ∧ (ptr h.mem p = base ∨ x < ptr h.mem p) ↔
      (x > p ∧ x < ptr h.mem p) ∨ p ≥ ptr h.mem p ∧ (x > p ∨ x < ptr h.mem p)) := by
    intro p hp
    have := hring.base_le hp
    rcases hring.follows p hp with ⟨-, hlt, -⟩ | ⟨heq, -⟩
    · have := hring.base_le (hring.next_mem hp)
      omega
    · omega
  obtain ⟨n, hn, hfound, hearlier⟩ := hring.first hok.bound hok.rover hb
    (Q := fun p => p < x ∧ (ptr h.mem p = base ∨ x < ptr h.mem p)) ⟨hbx, hplace⟩
  obtain ⟨left, rfl⟩ : ∃ left, fuel = left + 1 + n := ⟨fuel - 1 - n, by omega⟩
  have hp := hring.iterate_mem hok.rover n
  have hstep : ∀ j < n, ∀ fuel, Malloc.freeLoop h.mem x (fuel + 1) ((ptr h.mem)^[j] h.freep) =
      Malloc.freeLoop h.mem x fuel ((ptr h.mem)^[j + 1] h.freep) := by
    intro j hj fuel
    have hnot := hearlier j hj
    rw [hstop _ (hring.iterate_mem hok.rover j), not_or] at hnot
    rw [Malloc.freeLoop, if_neg hnot.1, if_neg hnot.2, Function.iterate_succ_apply']
  refine ⟨_, hp, (loop_iterate hstep).trans ?_, hfound⟩
  rw [Malloc.freeLoop]
  rcases (hstop _ hp).mp hfound with hcond | hcond
  · rw [if_pos hcond]
  · rw [if_pos hcond, ite_self]

section Link

variable (hlimit : limit < 2 ^ 36) (hx : x ∈ L) (hp : p ∈ insert base F) (hpx : p < x)
  (hbelow : ptr h.mem p = base ∨ x < ptr h.mem p)
include hlimit hx hp hpx hbelow

theorem link {n z : Nat} (hjoin : Fused (ptr h.mem) (len h.mem) p x n z) :
    Linked (len h.mem) (ptr (Malloc.link h.mem p x)) (len (Malloc.link h.mem p x)) p x n z := by
  have hxB : x ∈ F ∪ L := Finset.mem_union_right F hx
  have := hok.apart (node hp) (Finset.mem_insert_of_mem hxB) (Nat.ne_of_lt hpx)
  have := hok.block hxB
  have := hok.high
  have hpend : p + len h.mem p < 2 ^ 64 := by
    unfold len
    rcases Finset.mem_insert.mp hp with rfl | hpF
    · rw [hok.zero]
      omega
    · have := hok.block (Finset.mem_union_left L hpF)
      omega
  -- the new block is a part of the memory, which has less than `2 ^ 36` bytes
  have hfree := hok.arena.release_right hx hp hpx hbelow hjoin
  have hfew := hok.few
  apply link_spec (by omega) (by omega) (by unfold len; omega) hjoin _ hpend
  · intro hleft
    have hpF : p ∈ F := by grind [hok.zero, len]
    have := le_total (h := h) (a := p) (m := len h.mem p + n) fun y hy hlt =>
      (hfree.tiles.cover y).mpr (by
        by_cases hyx : y < x
        · exact ⟨p, by grind, hy, by grind⟩
        · exact ⟨x, by grind, by omega, by grind⟩)
    omega
  · have := le_total (h := h) (a := x) (m := n) fun y hy hlt =>
      (hfree.tiles.cover y).mpr ⟨x, by grind, hy, by grind⟩
    omega

end Link

theorem free (hlimit : limit < 2 ^ 36) (hx : x ∈ L) {fuel : Nat} (hfuel : 2 ^ 65 < fuel) :
    ∃ h' F', Malloc.free fuel h (x + 16) = some h' ∧ Ok limit base h' F' (L.erase x) ∧
      Kept (L.erase x) h.mem h'.mem ∧ ∃ a ∈ F', size h.mem x ≤ size h'.mem a := by
  obtain ⟨p, hp, hloop, hpx, hbelow⟩ := hok.freeLoop hx hfuel
  obtain ⟨n, z, hjoin⟩ := exists_fused (ptr h.mem) (len h.mem) p x
  have hlink := hok.link hlimit hx hp hpx hbelow hjoin
  have hxN : x ∈ insert base (F ∪ L) := Finset.mem_insert_of_mem (Finset.mem_union_right F hx)
  have hpN : p ∈ insert base (F ∪ L) := node hp
  have honly : Only p x h.mem (Malloc.link h.mem p x) := link_only
  have hsame : ∀ a ∈ insert base (F ∪ L), a ≠ x → a ≠ p →
      ptr (Malloc.link h.mem p x) a = ptr h.mem a ∧
        len (Malloc.link h.mem p x) a = len h.mem a := by
    intro a ha hax hap
    obtain ⟨hptr, hsize⟩ := honly.header (hok.apart ha hpN hap) (hok.apart ha hxN hax)
    exact ⟨hptr, congrArg (16 * ·) hsize⟩
  obtain ⟨F', harena, hmerged, hpF', a, ha, hsize⟩ := hok.arena.release hx hp hpx hbelow hjoin
    hok.merged hok.len_base hsame hlink
  refine ⟨{ h with mem := Malloc.link h.mem p x, freep := p }, F', ?_, ?_, ?_, a, ha, ?_⟩
  · rw [Malloc.free, Nat.add_sub_cancel, hloop]
    rfl
  · refine ⟨harena, hmerged, ?_, hpF', hok.low, hok.high, hok.few⟩
    have hbase := hok.arena.ring.base_le hp
    have hlen : len (Malloc.link h.mem p x) base = len h.mem base := by
      by_cases hpbase : base = p
      · subst hpbase
        rw [Linked, if_neg (by rw [hok.len_base]; omega)] at hlink
        exact hlink.2.1
      · exact (hsame base (Finset.mem_insert_self _ _) (by omega) hpbase).2
    rw [hok.len_base, len] at hlen
    show size (Malloc.link h.mem p x) base = 0
    omega
  · apply hok.kept honly _ _ (L.erase_subset x)
    · exact fun a ha => hok.clear_live (Finset.mem_of_mem_erase ha) hp
    · exact fun a ha => hok.clear (Finset.mem_union_right F (Finset.mem_of_mem_erase ha)) hxN
        (Finset.ne_of_mem_erase ha)
  · unfold len at hsize
    exact Nat.le_of_mul_le_mul_left hsize (by decide)

section Take

variable {nunits : Nat} (hpos : 0 < nunits) (hp : p ∈ insert base F)
include hpos hp

theorem fit_mem (hfit : nunits ≤ size h.mem (ptr h.mem p)) : ptr h.mem p ∈ F := by
  apply Finset.mem_of_mem_insert_of_ne (hok.arena.ring.next_mem hp)
  intro heq
  rw [heq, hok.zero] at hfit
  omega

theorem take_all (hfit : size h.mem (ptr h.mem p) = nunits) {mem : Mem}
    (hmem : mem = setPtr h.mem p (ptr h.mem (ptr h.mem p))) :
    Ok limit base { h with mem := mem, freep := p } (F.erase (ptr h.mem p))
        (insert (ptr h.mem p) L) ∧
      size mem (ptr h.mem p) = nunits ∧ Only p p h.mem mem := by
  have hb : ptr h.mem p ∈ F := hok.fit_mem hpos hp (Nat.le_of_eq hfit.symm)
  have hpN := node (L := L) hp
  have hsize : ∀ a ∈ insert base (F ∪ L), size mem a = size h.mem a := by
    intro a ha
    have := hok.apart ha hpN
    rw [hmem, size_setPtr (by omega)]
  have hptr : ∀ a ∈ insert base (F ∪ L), ptr mem a =
      Function.update (ptr h.mem) p (ptr h.mem (ptr h.mem p)) a := by
    intro a ha
    have := hok.apart ha hpN
    have := hok.room hpN
    rw [hmem]
    by_cases hap : a = p
    · rw [hap, Function.update_self, ptr_setPtr_self (by omega) ptr_lt]
    · rw [Function.update_of_ne hap, ptr_setPtr_of_ne (by omega)]
  refine ⟨of_headers (hok.arena.take hp hb) (hok.arena.merged_take hok.merged hp hb) ?_ ?_
    hok.len_base ?_ hok.low hok.high hok.few, ?_, ?_⟩
  · exact fun a ha => hptr a (by grind)
  · exact fun a ha => congrArg (16 * ·) (hsize a (by grind))
  · have := hok.arena.ring.follows p hp
    grind [Follows]
  · exact (hsize _ (by grind)).trans hfit
  · intro x hx _
    rw [hmem, setPtr, Bytes.get_setLE_of_disjoint _ _ _ _ _ (by omega)]

theorem take_end (hfit : nunits < size h.mem (ptr h.mem p)) {a : Nat} {mem : Mem}
    (ha : a = ptr h.mem p + 16 * (size h.mem (ptr h.mem p) - nunits))
    (hmem : mem = setSize (setSize h.mem (ptr h.mem p) (size h.mem (ptr h.mem p) - nunits)) a
      nunits) :
    Ok limit base { h with mem := mem, freep := p } F (insert a L) ∧ a ∉ L ∧
      size mem a = nunits ∧ Only (ptr h.mem p) a h.mem mem := by
  have hb : ptr h.mem p ∈ F := hok.fit_mem hpos hp (Nat.le_of_lt hfit)
  generalize ptr h.mem p = b at *
  have hbB : b ∈ F ∪ L := Finset.mem_union_left L hb
  have hblock := hok.block hbB
  have hhigh := hok.high
  have hlt : size h.mem b < 2 ^ 32 := size_lt
  have hk : len h.mem b = 16 * (size h.mem b - nunits) + 16 * nunits := by
    unfold len
    omega
  have hnew : a ∉ insert base (F ∪ L) := by
    intro haN
    have := hok.clear hbB haN
    omega
  have hptr : ∀ c ∈ insert base (F ∪ L), ptr mem c = ptr h.mem c := by
    intro c hc
    have := hok.clear hbB hc
    rw [hmem, ptr_setSize (by omega), ptr_setSize (by omega)]
  have hsize : ∀ c ∈ insert base (F ∪ insert a L), size mem c =
      Function.update (Function.update (size h.mem) b (size h.mem b - nunits)) a nunits c := by
    intro c hc
    rw [hmem]
    by_cases hca : c = a
    · rw [hca, Function.update_self, size_setSize_self (by omega), Nat.mod_eq_of_lt (by omega)]
    · rw [Function.update_of_ne hca]
      by_cases hcb : c = b
      · rw [hcb, Function.update_self, size_setSize_of_ne (by omega), size_setSize_self (by omega),
          Nat.mod_eq_of_lt (by omega)]
      · have := hok.clear hbB (b := c) (by grind)
        rw [Function.update_of_ne hcb, size_setSize_of_ne (by omega), size_setSize_of_ne (by omega)]
  have hlen : ∀ c ∈ insert base (F ∪ insert a L), len mem c = Function.update (Function.update
      (len h.mem) b (16 * (size h.mem b - nunits))) a (16 * nunits) c := by
    intro c hc
    have := hsize c hc
    grind [len]
  have hm : 0 < 16 * (size h.mem b - nunits) := by omega
  have harena := hok.arena.split hb hm (by omega) hk
  have hmerged := hok.arena.merged_split hok.merged hb hm (by omega) hk
  rw [← ha] at harena hmerged
  refine ⟨of_headers harena hmerged (fun c hc => hptr c (node hc)) hlen ?_ hp hok.low hok.high
    hok.few, ?_, ?_, ?_⟩
  · have := hok.len_base
    grind
  · grind
  · have := hsize a (by grind)
    grind
  · intro x hx hx'
    rw [hmem, setSize, setSize, Bytes.get_setLE_of_disjoint _ _ _ _ _ (by omega),
      Bytes.get_setLE_of_disjoint _ _ _ _ _ (by omega)]

theorem taken (hfit : nunits ≤ size h.mem (ptr h.mem p)) : ∃ a h',
    (if size h.mem (ptr h.mem p) = nunits then
        some (ptr h.mem p + 16,
          { h with mem := setPtr h.mem p (ptr h.mem (ptr h.mem p)), freep := p })
      else
        let mem := setSize h.mem (ptr h.mem p) (size h.mem (ptr h.mem p) - nunits)
        let p' := plus (ptr h.mem p) (size mem (ptr h.mem p))
        some (p' + 16, { h with mem := setSize mem p' nunits, freep := p })) =
      some (a + 16, h') ∧ Got limit base nunits h L a h' ∧ h'.requests = h.requests := by
  have hb := hok.fit_mem hpos hp hfit
  have hbB : ptr h.mem p ∈ F ∪ L := Finset.mem_union_left L hb
  have hblock := hok.block hbB
  have hhigh := hok.high
  split
  · rename_i hall
    obtain ⟨hok', hsize, honly⟩ := hok.take_all hpos hp hall rfl
    exact ⟨_, _, rfl, ⟨⟨_, hok'⟩, hok.arena.disjoint _ hb, hsize,
      hok.kept honly (fun a ha => hok.clear_live ha hp) (fun a ha => hok.clear_live ha hp)
        subset_rfl, Or.inl rfl⟩, rfl⟩
  · rename_i hmore
    have hsize : size (setSize h.mem (ptr h.mem p) (size h.mem (ptr h.mem p) - nunits))
        (ptr h.mem p) = size h.mem (ptr h.mem p) - nunits := by
      have : size h.mem (ptr h.mem p) < 2 ^ 32 := size_lt
      rw [size_setSize_self (by omega), Nat.mod_eq_of_lt (by omega)]
    dsimp only
    rw [hsize, plus_eq (by omega)]
    obtain ⟨hok', hnew, hsize', honly⟩ := hok.take_end hpos hp (by omega) rfl rfl
    refine ⟨_, _, rfl, ⟨⟨_, hok'⟩, hnew, hsize', hok.kept honly ?_ ?_ subset_rfl, Or.inl rfl⟩, rfl⟩
    · exact fun a ha => hok.clear_live ha (Finset.mem_insert_of_mem hb)
    · intro a ha
      have := hok.clear_live ha (Finset.mem_insert_of_mem hb)
      have := hok.clear hbB (Finset.mem_insert_of_mem (Finset.mem_union_right F ha))
        (hok.live_ne ha (Finset.mem_insert_of_mem hb)).symm
      omega

end Take

section Loop

variable {nunits : Nat}

omit hok in
theorem loop_pass {n fuel : Nat}
    (hpass : ∀ j < n, ¬nunits ≤ size h.mem ((ptr h.mem)^[j] (ptr h.mem h.freep)) ∧
      (ptr h.mem)^[j] (ptr h.mem h.freep) ≠ h.freep) :
    mallocLoop limit nunits (fuel + n) h h.freep =
      mallocLoop limit nunits fuel h ((ptr h.mem)^[n] h.freep) := by
  apply loop_iterate (f := fun fuel p => mallocLoop limit nunits fuel h p)
  intro j hj fuel
  have hj := hpass j hj
  rw [← Function.iterate_succ_apply, Function.iterate_succ_apply'] at hj
  rw [mallocLoop, if_neg hj.1, if_neg hj.2, Function.iterate_succ_apply']

variable (hpos : 0 < nunits) {fuel : Nat} (hfuel : 2 ^ 65 < fuel)
include hpos hfuel

theorem loop_fit (hfit : ∃ a ∈ F, nunits ≤ size h.mem a) :
    ∃ a h', mallocLoop limit nunits fuel h h.freep = some (a + 16, h') ∧
      Got limit base nunits h L a h' ∧ h'.requests = h.requests := by
  have hring := hok.arena.ring
  obtain ⟨b, hb, hsize⟩ := hfit
  obtain ⟨n, hn, hfound, hearlier⟩ := hring.first hok.bound (hring.next_mem hok.rover)
    (Finset.mem_insert_of_mem hb) (Q := fun p => nunits ≤ size h.mem p) hsize
  obtain ⟨left, rfl⟩ : ∃ left, fuel = left + 1 + n := ⟨fuel - 1 - n, by omega⟩
  -- one turn brings it to the first such block
  have hturn : ∀ j < n, (ptr h.mem)^[j] (ptr h.mem h.freep) ≠ h.freep := by
    intro j hj heq
    apply hearlier (n - (j + 1)) (by omega)
    rw [show n = n - (j + 1) + 1 + j by omega, Function.iterate_add_apply, heq,
      Function.iterate_succ_apply] at hfound
    exact hfound
  rw [loop_pass fun j hj => ⟨hearlier j hj, hturn j hj⟩]
  rw [← Function.iterate_succ_apply, Function.iterate_succ_apply'] at hfound
  rw [mallocLoop, if_pos hfound]
  exact hok.taken hpos (hring.iterate_mem hok.rover n) hfound

theorem loop_none (hnone : ∀ a ∈ F, size h.mem a < nunits) :
    ∃ left, fuel ≤ left + 2 ^ 65 + 1 ∧ mallocLoop limit nunits fuel h h.freep =
      (morecore limit left h nunits).bind fun r =>
        match r with
        | (none, h') => some (0, h')
        | (some p, h') => mallocLoop limit nunits left h' p := by
  have hring := hok.arena.ring
  have hfirst := hring.next_mem hok.rover
  obtain ⟨n, hn, hfound, hearlier⟩ := hring.first hok.bound hfirst hok.rover
    (Q := fun p => p = h.freep) rfl
  obtain ⟨left, rfl⟩ : ∃ left, fuel = left + 1 + n := ⟨fuel - 1 - n, by omega⟩
  have hunfit : ∀ j, ¬nunits ≤ size h.mem ((ptr h.mem)^[j] (ptr h.mem h.freep)) := by
    intro j
    rcases Finset.mem_insert.mp (hring.iterate_mem hfirst j) with heq | hmem
    · rw [heq, hok.zero]
      omega
    · exact Nat.not_le.mpr (hnone _ hmem)
  have hlast := hunfit n
  rw [loop_pass fun j hj => ⟨hunfit j, hearlier j hj⟩]
  rw [← Function.iterate_succ_apply, Function.iterate_succ_apply'] at hfound hlast
  rw [mallocLoop, if_neg hlast, if_pos hfound]
  refine ⟨left, by omega, ?_⟩
  cases morecore limit left h nunits with
  | none => rfl
  | some r =>
    obtain ⟨p, h'⟩ := r
    cases p with
    | none => rfl
    | some p => rfl

end Loop

section More

variable {nu addr : Nat}

theorem grow (h' : Heap) (hnu : 0 < nu) (hlt : nu < 2 ^ 32) (haddr : h.top ≤ addr)
    (hroom : addr + nu * 16 < 2 ^ 64) (hfew : h.total + nu * 16 ≤ limit)
    (hmem : h'.mem = setSize h.mem addr nu) (hfreep : h'.freep = h.freep)
    (hregions : h'.regions = (addr, nu * 16) :: h.regions) (htop : h'.top = addr + nu * 16) :
    Ok limit base h' F (insert addr L) ∧ addr ∉ L ∧ size h'.mem addr = nu ∧
      Kept L h.mem h'.mem := by
  have hhigh := hok.high
  have hbelow : ∀ c ∈ insert base (F ∪ L), c + 16 ≤ addr := by
    intro c hc
    rcases Finset.mem_insert.mp hc with rfl | hc
    · omega
    · have := hok.block hc
      omega
  have hnew : addr ∉ L := fun haddr => by
    have := hbelow addr (by grind)
    omega
  have hptr : ∀ c ∈ insert base (F ∪ L), ptr h'.mem c = ptr h.mem c := by
    intro c hc
    have := hbelow c hc
    rw [hmem, ptr_setSize (by omega)]
  have hsize : ∀ c ∈ insert base (F ∪ L), size h'.mem c = size h.mem c := by
    intro c hc
    have := hbelow c hc
    rw [hmem, size_setSize_of_ne (by omega)]
  have hself : size h'.mem addr = nu := by
    rw [hmem, size_setSize_self (by omega), Nat.mod_eq_of_lt hlt]
  have hobtained := obtained_cons hregions
  have harena := hok.arena.grow (x := addr) (n := nu * 16)
    (fun y hy => Nat.lt_of_lt_of_le (hok.low y hy).2 haddr) (by omega)
  rw [← hobtained] at harena
  have hmerged : Merged (ptr h.mem) (Function.update (len h.mem) addr (nu * 16)) F :=
    hok.merged.congr (fun _ _ => rfl) fun c hc => Function.update_of_ne (by grind) ..
  refine ⟨of_headers harena hmerged (fun c hc => hptr c (node hc)) ?_ ?_ ?_ ?_ ?_ ?_,
    hnew, hself, ?_⟩
  · intro c hc
    have := hsize c
    grind [len]
  · rw [Function.update_of_ne (by omega), hok.len_base]
  · rw [hfreep]
    exact hok.rover
  · intro y hy
    rw [hobtained] at hy
    rcases hy with hy | hy
    · omega
    · have := hok.low y hy
      omega
  · omega
  · unfold Heap.total at *
    rw [hregions, List.map_cons, List.sum_cons, Nat.add_comm]
    exact hfew
  · have hclear : ∀ a ∈ L, a + 16 * size h.mem a ≤ addr ∨ addr + 16 ≤ a := by
      intro a ha
      have := hok.block (Finset.mem_union_right F ha)
      omega
    apply hok.kept (q := addr) (r := addr) _ hclear hclear subset_rfl
    intro x hx _
    rw [hmem, setSize, Bytes.get_setLE_of_disjoint _ _ _ _ _ (by omega)]

variable (hlimit : limit < 2 ^ 36) (hnu : nu * 16 < 2 ^ 31) {fuel : Nat} (hfuel : 2 ^ 65 < fuel)
include hlimit hnu hfuel

theorem morecore :
    ((sbrk limit h (asked nu * 16 : Nat)).1 = none ∧ Malloc.morecore limit fuel h nu =
      some (none, h.called (asked nu * 16 : Nat))) ∨
    ∃ h' F', Malloc.morecore limit fuel h nu = some (some h'.freep, h') ∧
      Ok limit base h' F' L ∧ Kept L h.mem h'.mem ∧ ∃ a ∈ F', nu ≤ size h'.mem a := by
  obtain ⟨hle, hpos, hlt⟩ := le_asked nu
  rw [Malloc.morecore]
  generalize asked nu = m at *
  rw [toInt_eq (by omega)]
  rcases sbrk_cases limit h (n := m * 16) (by omega) with hfail | ⟨addr, haddr, hroom, hfew, hsbrk⟩
  · rw [hfail]
    exact Or.inl ⟨rfl, rfl⟩
  · rw [hsbrk, addCore]
    obtain ⟨hok', hnew, hsize, hkept⟩ := hok.grow
      { h.called (m * 16 : Nat) with
        mem := setSize h.mem addr m
        regions := (addr, m * 16) :: h.regions
        top := addr + m * 16 }
      hpos (by omega) haddr hroom hfew rfl rfl rfl rfl
    obtain ⟨h', F', hfree, hok'', hkept', a, ha, hlarge⟩ := hok'.free hlimit
      (Finset.mem_insert_self addr L) hfuel
    rw [Finset.erase_insert hnew] at hok'' hkept'
    refine Or.inr ⟨h', F', ?_, hok'', hkept.trans hkept', a, ha, ?_⟩
    · exact congrArg (Option.map fun h => (some h.freep, h)) hfree
    · rw [hsize] at hlarge
      omega

end More

section Malloc

variable (hlimit : limit < 2 ^ 36)
include hlimit

theorem malloc {nunits : Nat} (hpos : 0 < nunits)
    (hfits : nunits * 16 < 2 ^ 31 ∨ ∃ a ∈ F, nunits ≤ size h.mem a) :
    ((sbrk limit h (asked nunits * 16 : Nat)).1 = none ∧
      mallocLoop limit nunits enough h h.freep = some (0, h.called (asked nunits * 16 : Nat))) ∨
    ∃ a h', mallocLoop limit nunits enough h h.freep = some (a + 16, h') ∧
      Got limit base nunits h L a h' := by
  have henough : 2 ^ 65 + 2 ^ 65 + 1 < enough := by
    unfold enough
    omega
  have hfuel : 2 ^ 65 < enough := by omega
  by_cases hfit : ∃ a ∈ F, nunits ≤ size h.mem a
  · obtain ⟨a, h', hloop, hgot, -⟩ := hok.loop_fit hpos hfuel hfit
    exact Or.inr ⟨a, h', hloop, hgot⟩
  · have hsmall := hfits.resolve_right hfit
    push Not at hfit
    obtain ⟨left, hleft, hloop⟩ := hok.loop_none hpos hfuel hfit
    have hfuel : 2 ^ 65 < left := by omega
    rw [hloop]
    rcases hok.morecore hlimit hsmall hfuel with
      ⟨hsbrk, hmore⟩ | ⟨h₁, F₁, hmore, hok₁, hkept₁, hlarge⟩
    · rw [hmore]
      exact Or.inl ⟨hsbrk, rfl⟩
    · obtain ⟨a, h', hagain, hgot, hrequests⟩ := hok₁.loop_fit hpos hfuel hlarge
      have hasked := morecore_requests hmore
      rw [toInt_eq (by have := le_asked nunits; omega)] at hasked
      rw [hmore]
      exact Or.inr ⟨a, h', hagain, { hgot with
        kept := hkept₁.trans hgot.kept
        requests := Or.inr (hrequests.trans hasked) }⟩

end Malloc

theorem serves_iff {nunits : Nat} (hpos : 0 < nunits) :
    Serves base h nunits ↔ ∃ a ∈ F, nunits ≤ size h.mem a := by
  have hring := hok.arena.ring
  have hbase : base ∈ insert base F := Finset.mem_insert_self _ _
  constructor
  · rintro ⟨n, hn⟩
    rcases Finset.mem_insert.mp (hring.iterate_mem hbase n) with heq | hmem
    · rw [heq, hok.zero] at hn
      omega
    · exact ⟨_, hmem, hn⟩
  · rintro ⟨a, ha, hsize⟩
    obtain ⟨n, -, hn, -⟩ := hring.first hok.bound hbase (Finset.mem_insert_of_mem ha)
      (Q := fun p => nunits ≤ size h.mem p) hsize
    exact ⟨n, hn⟩

theorem asks {nunits ap : Nat} {h' : Heap} (hpos : 0 < nunits)
    (hnone : ¬∃ a ∈ F, nunits ≤ size h.mem a)
    (hloop : mallocLoop limit nunits enough h h.freep = some (ap, h')) :
    (toInt (asked nunits * 16) :: h.requests) <:+ h'.requests := by
  push Not at hnone
  have hfuel : 2 ^ 65 < enough := by
    unfold enough
    omega
  obtain ⟨left, -, heq⟩ := hok.loop_none hpos hfuel hnone
  rw [heq] at hloop
  obtain ⟨⟨p, h₁⟩, hmore, hrest⟩ := Option.bind_eq_some_iff.mp hloop
  rw [← morecore_requests hmore]
  cases p with
  | none =>
    cases hrest
    exact List.suffix_rfl
  | some p => exact mallocLoop_requests hrest

theorem store (ha : a ∈ L) (hx : a + 16 ≤ x) (hlt : x < a + 16 * size h.mem a) (byte : UInt8) :
    Ok limit base { h with mem := h.mem.set x byte } F L := by
  have hsame : ∀ c ∈ insert base (F ∪ L), ptr (h.mem.set x byte) c = ptr h.mem c ∧
      size (h.mem.set x byte) c = size h.mem c := by
    intro c hc
    have hout : ∀ y, c ≤ y → y < c + 16 → (h.mem.set x byte).get y = h.mem.get y := by
      intro y hy hlt'
      apply Bytes.get_set_of_ne
      by_cases hca : a = c
      · omega
      · have := hok.clear (Finset.mem_union_right F ha) hc hca
        omega
    exact header_congr hout
  exact of_headers hok.arena hok.merged (fun c hc => (hsame c (node hc)).1)
    (fun c hc => congrArg (16 * ·) (hsame c hc).2) hok.len_base hok.rover hok.low hok.high hok.few

end Ok

end Xv6.User.Malloc
