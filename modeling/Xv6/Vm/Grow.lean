import Mathlib.Data.Finset.Card
import Mathlib.Data.Fintype.EquivFin
import Mathlib.Order.Interval.Finset.Nat
import Xv6.Vm.Map

/-! `uvmcreate` and `uvmalloc`. A process can only be given memory that exists:
the pages below its size are all different pages of RAM. -/
namespace Xv6.Vm

open Lib

variable {img : Image} {P : Protocol sig} {h : Heap} {S S' S'' : Space}
  {extra : Nat → Prop}

theorem Rep.dense_le {pool : Cell → Prop} (hmem : Manages img pool) (hrep : Rep pool S extra h)
    {v : Nat} (hv : v ≤ userTop) (hdense : ∀ u, u < v → S.leaf u ≠ 0) :
    v ≤ physTop / pgSize - kernBase / pgSize := by
  have huser : ∀ u, u < v → S.holds extra (.user u) (pte2pa (S.leaf u)) :=
    fun u hu => ⟨by omega, hdense u hu, rfl⟩
  have hcard := Finset.card_le_card_of_injOn (s := Finset.range v)
    (t := Finset.Ico (kernBase / pgSize) (physTop / pgSize)) (fun u => pte2pa (S.leaf u)) ?_ ?_
  · rwa [Finset.card_range, Nat.card_Ico] at hcard
  · intro u hu
    obtain ⟨n, heq, hn⟩ := hmem _ (hrep.inPool _ (huser u (Finset.mem_range.mp hu)))
    cases heq
    have hfirst : kernBase / pgSize ≤ pte2pa (S.leaf u) :=
      Nat.le_trans img.text.1 (Nat.le_of_lt (Nat.lt_of_lt_of_le img.text.2 hn.1))
    exact Finset.mem_coe.mpr (Finset.mem_Ico.mpr ⟨hfirst, hn.2⟩)
  · intro u hu u' hu' heq
    have hu := huser u (Finset.mem_range.mp hu)
    have hu' := huser u' (Finset.mem_range.mp hu')
    rw [← show pte2pa (S.leaf u) = pte2pa (S.leaf u') from heq] at hu'
    exact Role.user.inj (hrep.role_eq _ _ hu hu')

theorem Rep.dense_lt {pool : Cell → Prop} (hmem : Manages img pool) (hrep : Rep pool S extra h)
    {v : Nat} (hdense : ∀ u, u < v → S.leaf u ≠ 0) : v < userTop := by
  by_contra hge
  have hle := hrep.dense_le hmem (Nat.le_refl userTop) fun u hu => hdense u (by omega)
  exact absurd hle (by decide)

structure Space.Grows (S : Space) (lo hi perm : Nat) (S' : Space) : Prop where
  root : S'.root = S.root
  table : ∀ l k n, S.table l k = some n → S'.table l k = some n
  new : ∀ u, lo ≤ u → u < hi → ∃ m, S'.leaf u = pa2pte m ||| perm ||| pteV
  old : ∀ u, ¬(lo ≤ u ∧ u < hi) → S'.leaf u = S.leaf u

namespace Space.Grows

variable {lo hi perm : Nat}

theorem refl (S : Space) (lo perm : Nat) : S.Grows lo lo perm S :=
  ⟨rfl, fun _ _ _ => id, fun u hlo hhi => by omega, fun _ _ => rfl⟩

theorem step (hg : S.Grows lo hi perm S') (hle : lo ≤ hi) {m : Nat}
    (hmap : S'.Remaps (Function.update S'.leaf hi (pa2pte m ||| perm ||| pteV)) S'') :
    S.Grows lo (hi + 1) perm S'' where
  root := hmap.root.trans hg.root
  table l k n hn := hmap.table l k n (hg.table l k n hn)
  new u hlo hhi := by
    rw [hmap.leaf]
    by_cases hu : u = hi
    · exact ⟨m, by rw [hu, Function.update_self]⟩
    · rw [Function.update_of_ne hu]
      exact hg.new u hlo (by omega)
  old u hu := by
    rw [hmap.leaf, Function.update_of_ne (by omega)]
    exact hg.old u (by omega)

theorem new_ne_zero (hg : S.Grows lo hi perm S') {u : Nat} (hlo : lo ≤ u) (hhi : u < hi) :
    S'.leaf u ≠ 0 := by
  obtain ⟨m, hm⟩ := hg.new u hlo hhi
  rw [hm]
  exact fun h => absurd (Nat.or_eq_zero_iff.mp h).2 (by decide)

theorem undo (hg : S.Grows lo hi perm S') (hzero : ∀ u, lo ≤ u → u < hi → S.leaf u = 0)
    (hclear : S'.Unmaps (cleared S'.leaf lo hi) S'') : S.Remaps S.leaf S'' where
  root := hclear.root.trans hg.root
  leaf := by
    rw [hclear.leaf]
    funext u
    unfold cleared
    split
    · rename_i hu
      rw [hzero u hu.1 hu.2]
    · rename_i hu
      exact hg.old u hu
  table l k n hn := hclear.table l k n (hg.table l k n hn)

end Space.Grows

structure Zeroed (S S' : Space) (extra : Nat → Prop) (lo hi : Nat) (h h' : Heap) : Prop where
  new : ∀ u, lo ≤ u → u < hi → h' (.page (pte2pa (S'.leaf u))) = some (filled 0)
  old : Kept S extra h h'

section Zeroed

variable {lo hi v mem perm : Nat} {h₀ h' : Heap} {pool : Cell → Prop}

theorem Zeroed.refl : Zeroed S S extra lo lo h h :=
  ⟨fun u hlo hhi => by omega, Kept.refl⟩

theorem Space.Grows.dataPage (hg : S.Grows lo v perm S')
    (hzero : ∀ u, lo ≤ u → u < userTop → S.leaf u = 0) {n : Nat} (hn : S.dataPage extra n) :
    S'.dataPage extra n := by
  rcases hn with ⟨u, hu, hne, hpage⟩ | hn
  · have hout : ¬(lo ≤ u ∧ u < v) := fun hin => hne (hzero u hin.1 hu)
    rw [← hg.old u hout] at hne hpage
    exact Or.inl ⟨u, hu, hne, hpage⟩
  · exact Or.inr hn

theorem Zeroed.step (hz : Zeroed S S' extra lo v h₀ h) (hg : S.Grows lo v perm S')
    (hzero : ∀ u, lo ≤ u → u < userTop → S.leaf u = 0) (hrep : Rep pool S' extra h)
    (hv : v < userTop) (hperm : perm < 1024) (hfree : h (.page mem) = none)
    (hmap : S'.Remaps (Function.update S'.leaf v (pa2pte mem ||| perm ||| pteV)) S'')
    (hkept : Kept S' (fun m => extra m ∨ m = mem)
      (Function.update (Function.update h (.page mem) (some (filled 5))) (.page mem)
        (some (filled 0))) h') :
    Zeroed S S'' extra lo (v + 1) h₀ h' := by
  rw [Function.update_idem] at hkept
  have hsame : ∀ n, S'.dataPage extra n → h' (.page n) = h (.page n) := by
    intro n hn
    rw [hkept n (hn.imp id Or.inl)]
    exact hrep.kept_free hfree _ n hn
  refine ⟨fun u hlo hu => ?_, fun n hn => ?_⟩
  · by_cases huv : u = v
    · subst huv
      rw [hmap.leaf, Function.update_self, pte2pa_entry hperm mem, hkept mem (Or.inr (Or.inr rfl)),
        Function.update_self]
    · rw [hmap.leaf, Function.update_of_ne huv]
      have huser : S'.dataPage extra (pte2pa (S'.leaf u)) :=
        Or.inl ⟨u, by omega, hg.new_ne_zero hlo (by omega), rfl⟩
      rw [hsame _ huser]
      exact hz.new u hlo (by omega)
  · rw [hsame n (hg.dataPage hzero hn)]
    exact hz.old n hn

end Zeroed

section Alloc

variable {lo hi xperm : Nat}

theorem Space.Grows.le_userTop {pool : Cell → Prop} {v perm : Nat}
    (hfit : hi ≤ userTop ∨ ∀ u, u < lo → S.leaf u ≠ 0) (hmem : Manages img pool)
    (hg : S.Grows lo v perm S') (hrep : Rep pool S' extra h) (hv : v ≤ hi) :
    v ≤ userTop ∧ (v < hi → v < userTop) := by
  rcases hfit with hfit | hdense
  · omega
  · have := hrep.dense_lt hmem (v := v) fun u hu => by
      by_cases hlo : lo ≤ u
      · exact hg.new_ne_zero hlo hu
      · rw [hg.old u (by omega)]
        exact hdense u (by omega)
    omega

theorem undo_spec {v perm : Nat} {h₀ : Heap} (hmem : Manages img P.pool)
    (hg : S.Grows lo v perm S') (hrep : Rep P.pool S' extra h) (hv : v ≤ userTop)
    (hzero : ∀ u, lo ≤ u → u < userTop → S.leaf u = 0) (hkept : Kept S extra h₀ h) :
    wp machine P (do
      let _ ← uvmdealloc img S.root (v * pgSize) (lo * pgSize)
      return false) (fun ok h' => ok = false ∧ ∃ S', S.Remaps S.leaf S' ∧
        Rep P.pool S' extra h' ∧ Kept S extra h₀ h') h := by
  rw [← hg.root]
  refine wp_seq (uvmdealloc_spec hmem hrep (by rwa [npages_mul])) ?_
  rintro - h' ⟨-, S'', hclear, hrep', hkept'⟩
  rw [npages_mul, npages_mul] at hclear
  have hback := hg.undo (fun u hlo hhi => hzero u hlo (by omega)) hclear
  refine ⟨rfl, S'', hback, hrep', hkept.trans (hkept'.mono fun n hn => ?_)⟩
  rwa [Space.dataPage_congr hback.leaf]

def Allocated (P : Protocol sig) (S : Space) (extra : Nat → Prop) (lo hi perm : Nat)
    (h₀ : Heap) (ok : Bool) (h' : Heap) : Prop :=
  ∃ S', if ok then S.Grows lo hi perm S' ∧ hi ≤ userTop ∧ Rep P.pool S' extra h' ∧
      Zeroed S S' extra lo hi h₀ h'
    else P.exhausts ∧ S.Remaps S.leaf S' ∧ Rep P.pool S' extra h' ∧ Kept S extra h₀ h'

theorem allocLoop_spec {n v : Nat} {h₀ : Heap} (hmem : Manages img P.pool) (hperm : xperm < 1024)
    (hzero : ∀ u, lo ≤ u → u < userTop → S.leaf u = 0)
    (hfit : hi ≤ userTop ∨ ∀ u, u < lo → S.leaf u ≠ 0) (hlo : lo ≤ v) (hhi : v + n = hi)
    (hg : S.Grows lo v (pteR ||| pteU ||| xperm) S') (hrep : Rep P.pool S' extra h)
    (hz : Zeroed S S' extra lo v h₀ h) :
    wp machine P (allocLoop img S.root (lo * pgSize) xperm n (v * pgSize))
      (Allocated P S extra lo hi (pteR ||| pteU ||| xperm) h₀) h := by
  have hperm' : pteR ||| pteU ||| xperm < 1024 := Nat.or_lt_two_pow (n := 10) (by decide) hperm
  have hleaf : (pteR ||| pteU ||| xperm) &&& leafBits ≠ 0 := by
    rw [Nat.and_or_distrib_right]
    exact fun h => absurd (Nat.or_eq_zero_iff.mp h).1 (by decide)
  induction n generalizing v S' h with
  | zero =>
    obtain rfl : v = hi := hhi
    exact ⟨S', hg, (hg.le_userTop hfit hmem hrep (Nat.le_refl v)).1, hrep, hz⟩
  | succ n ih =>
    obtain ⟨hle, hlt⟩ := hg.le_userTop hfit hmem hrep (v := v) (by omega)
    have hv : v < userTop := hlt (by omega)
    have hundo : ∀ {h'' : Heap} {S'' : Space}, P.exhausts →
        S.Grows lo v (pteR ||| pteU ||| xperm) S'' → Rep P.pool S'' extra h'' →
        Kept S extra h₀ h'' → wp machine P (do
          let _ ← uvmdealloc img S.root (v * pgSize) (lo * pgSize)
          return false) (Allocated P S extra lo hi (pteR ||| pteU ||| xperm) h₀) h'' := by
      intro h'' S'' hshort hg' hrep' hkept
      refine wp_mono (undo_spec hmem hg' hrep' hle hzero hkept) ?_
      rintro ok h₃ ⟨rfl, S₃, hback⟩
      exact ⟨S₃, hshort, hback⟩
    refine wp_bind (wp_kalloc hmem (fun hshort => ?_) fun mem hpool hfree => ?_)
    · exact hundo hshort hg hrep hz.old
    have hfresh := (hrep.acquire hpool hfree (filled 5)).setExtra (n := mem) (Or.inr rfl) (filled 0)
    have hunmapped : S'.leaf v = 0 := by
      rw [hg.old v (by omega)]
      exact hzero v hlo hv
    refine wp_bind (wp_memset (by simp) ?_)
    rw [← hg.root]
    refine wp_seq (mappages_spec hmem (fun _ => id) hfresh
      (Nat.lt_trans hv (by decide)) hunmapped hperm' hleaf
      (hmem.fits hpool) fun _ => Or.inr rfl) ?_
    rintro ok h' ⟨S'', hkept, hmap⟩
    cases ok with
    | true =>
      obtain ⟨hmap, hrep'⟩ := hmap
      rw [show v * pgSize + pgSize = (v + 1) * pgSize by rw [Nat.add_mul, Nat.one_mul], hg.root]
      refine ih (by omega) (by omega) (hg.step hlo hmap) (hrep'.congr_extra fun m => ?_)
        (hz.step hg hzero hrep hv hperm' hfree hmap hkept)
      simpa [hv] using hrep.extra_iff hfree m
    | false =>
      obtain ⟨hshort, hsame, hrep'⟩ := hmap
      have hmine : S''.holds (fun m => extra m ∨ m = mem) .extra mem := Or.inr rfl
      refine wp_bind (wp_kfree hmem hpool (hrep'.holds_ne_none _ hmine) ?_)
      have hg' : S.Grows lo v (pteR ||| pteU ||| xperm) S'' := by
        refine ⟨hsame.root.trans hg.root, fun l k n hn => hsame.table l k n (hg.table l k n hn),
          fun u hu hu' => ?_, fun u hu => ?_⟩
        · rw [hsame.leaf]
          exact hg.new u hu hu'
        · rw [hsame.leaf]
          exact hg.old u hu
      rw [hg.root]
      refine hundo hshort hg' ((hrep'.release hmine).congr_extra (hrep.extra_iff hfree)) ?_
      rw [Function.update_idem] at hkept
      intro n hn
      have hpage := hg.dataPage hzero hn
      have hne : Cell.page n ≠ .page mem := by
        intro heq
        rw [← heq] at hfree
        exact hrep.dataPage_ne_none hpage hfree
      rw [Function.update_of_ne hne, hkept n (hpage.imp id Or.inl), Function.update_of_ne hne]
      exact hz.old n hn

end Alloc

theorem uvmalloc_spec {oldsz newsz xperm : Nat} (hmem : Manages img P.pool)
    (hrep : Rep P.pool S extra h) (hperm : xperm < 1024) (hold : npages oldsz ≤ userTop)
    (hzero : ∀ u, npages oldsz ≤ u → u < userTop → S.leaf u = 0)
    (hfit : npages newsz ≤ userTop ∨ ∀ u, u < npages oldsz → S.leaf u ≠ 0) :
    wp machine P (uvmalloc img S.root oldsz newsz xperm) (fun r h' => ∃ S', Rep P.pool S' extra h' ∧
      (r = max oldsz newsz ∧ npages r ≤ userTop ∧
          S.Grows (npages oldsz) (npages r) (pteR ||| pteU ||| xperm) S' ∧
          Zeroed S S' extra (npages oldsz) (npages r) h h' ∨
        r = 0 ∧ P.exhausts ∧ S.Remaps S.leaf S' ∧ Kept S extra h h')) h := by
  unfold uvmalloc
  by_cases hlt : newsz < oldsz
  · rw [if_pos hlt]
    exact ⟨S, hrep, Or.inl ⟨(Nat.max_eq_left (Nat.le_of_lt hlt)).symm, hold,
      Space.Grows.refl S _ _, Zeroed.refl⟩⟩
  · have hsmall : oldsz + pgSize ≤ 2 ^ 64 := by
      have htop : userTop = 2 ^ 26 - 2 := rfl
      have := npages_le.mp hold
      unfold pgSize at *
      omega
    have hcount : npages oldsz + (newsz - npages oldsz * pgSize + pgSize - 1) / pgSize =
        npages newsz := by
      have := npages_mono (Nat.not_lt.mp hlt)
      unfold npages pgSize at *
      omega
    simp only [if_neg hlt, pgRoundUp_npages hsmall]
    refine wp_seq (allocLoop_spec hmem hperm hzero hfit (Nat.le_refl _) hcount
      (Space.Grows.refl S _ _) hrep Zeroed.refl) ?_
    rintro ok h' ⟨S', hdone⟩
    cases ok with
    | true =>
      obtain ⟨hg, htop, hrep', hz⟩ := hdone
      exact ⟨S', hrep', Or.inl ⟨(Nat.max_eq_right (Nat.not_lt.mp hlt)).symm, htop, hg, hz⟩⟩
    | false =>
      obtain ⟨hshort, hsame, hrep', hkept⟩ := hdone
      exact ⟨S', hrep', Or.inr ⟨rfl, hshort, hsame, hkept⟩⟩

section Create

def Space.new (root : Nat) : Space where
  root := root
  table l k := if l = 2 ∧ k = 0 then some root else none
  leaf _ := 0
  table_root k := by simp
  table_top l k hl := by simp [show l ≠ 2 by omega]
  parent l k hl h := by simp [show l ≠ 2 by omega] at h
  lower v h := absurd rfl h
  leafWord v h := absurd rfl h

theorem Space.table_new {root l k n : Nat} :
    (Space.new root).table l k = some n ↔ (l = 2 ∧ k = 0) ∧ n = root := by
  simp only [Space.new, Option.ite_none_right_eq_some, Option.some.injEq, eq_comm]

theorem Space.holds_new {root n : Nat} {role : Role} :
    (Space.new root).holds (fun _ => False) role n ↔ role = .table 2 0 ∧ n = root := by
  cases role with
  | table l k => simp [Space.holds, Space.table_new]
  | user v => simp [Space.holds, Space.new]
  | extra => simp [Space.holds]

theorem uvmcreate_spec (hmem : Manages img P.pool) :
    wp machine P uvmcreate (fun r h' =>
      match r with
      | none => h' = Heaplet.empty
      | some root => ∃ S, S.root = root ∧ S.leaf = (fun _ => 0) ∧
          Rep P.pool S (fun _ => False) h') Heaplet.empty := by
  refine wp_bind (wp_kalloc hmem (fun _ => rfl) fun root hpool _ =>
    wp_bind (wp_memset (by simp) ?_))
  have honly : ∀ c, Function.update (Function.update Heaplet.empty (Cell.page root)
      (some (filled 5))) (Cell.page root) (some (filled 0)) c ≠ none ↔ c = .page root := by
    intro c
    by_cases hc : c = .page root
    · simp [hc]
    · simp [hc, Heaplet.empty]
  refine ⟨Space.new root, rfl, rfl, fun l k n hn => ?_,
    ⟨fun role role' n hn hn' => ?_, fun n => ?_⟩,
    fun c hc => ?_⟩
  · obtain ⟨⟨rfl, rfl⟩, rfl⟩ := Space.table_new.mp hn
    exact ⟨filled 0, by simp, fun x _ => Or.inl (word_filled_zero x)⟩
  · rw [(Space.holds_new.mp hn).1, (Space.holds_new.mp hn').1]
  · simp only [honly, Space.holds_new, Cell.page.injEq, exists_eq_left]
  · exact ⟨root, (honly c).mp hc, (honly c).mp hc ▸ hpool⟩

end Create

end Xv6.Vm
