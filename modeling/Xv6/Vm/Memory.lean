import Xv6.Vm.Process
import Xv6.Vm.User

/-! The memory of a process from `proc_pagetable` to `proc_freepagetable`. -/
namespace Xv6.Vm

open Lib

variable {img : Image} {P : Protocol sig} {h : Heap} {S S' : Space}
  {extra : Nat → Prop} {sz tf root : Nat}

theorem Rep.attach {pool : Cell → Prop} {left right : Heap} {aside : Nat → Prop}
    (hs : Heaplet.Splits h left right) (hrep : Rep pool S extra left)
    (hpages : Pages pool aside right) : Rep pool S (fun n => extra n ∨ aside n) h where
  tables l k n hn := by
    obtain ⟨data, hdata, hwords⟩ := hrep.tables l k n hn
    exact ⟨data, hs.of_left hdata, hwords⟩
  owns := by
    have haside : ∀ n, aside n → right (.page n) ≠ none :=
      fun n hn => (hpages.iff _).mpr ⟨n, rfl, hn⟩
    have hapart : ∀ role n, S.holds extra role n → aside n → False := by
      intro role n hrole hn
      exact hrep.holds_ne_none role hrole (hs.left_none (haside n hn))
    refine ⟨fun role role' n hn hn' => ?_, fun n => ?_⟩
    · have hsplit : ∀ role, S.holds (fun m => extra m ∨ aside m) role n →
          S.holds extra role n ∨ role = .extra ∧ aside n := by
        rintro (_ | _ | _) hrole
        · exact Or.inl hrole
        · exact Or.inl hrole
        · exact hrole.imp id fun hn => ⟨rfl, hn⟩
      rcases hsplit role hn with hn | ⟨rfl, haside⟩
      · rcases hsplit role' hn' with hn' | ⟨rfl, haside⟩
        · exact hrep.role_eq role role' hn hn'
        · exact (hapart role n hn haside).elim
      · rcases hsplit role' hn' with hn' | ⟨rfl, -⟩
        · exact (hapart role' n hn' haside).elim
        · rfl
    · rw [hs.ne_none, hrep.owns.taken_iff, hpages.iff]
      constructor
      · rintro (⟨role, hrole⟩ | ⟨m, heq, hm⟩)
        · refine ⟨role, ?_⟩
          cases role with
          | extra => exact Or.inl hrole
          | _ => exact hrole
        · cases heq
          exact ⟨.extra, Or.inr hm⟩
      · rintro ⟨role, hrole⟩
        cases role with
        | extra => exact hrole.imp (fun hn => ⟨.extra, hn⟩) fun hn => ⟨n, rfl, hn⟩
        | table l k => exact Or.inl ⟨.table l k, hrole⟩
        | user v => exact Or.inl ⟨.user v, hrole⟩
  pages c hc := by
    rcases hs.ne_none.mp hc with hc | hc
    · exact hrep.pages c hc
    · obtain ⟨n, rfl, hn⟩ := (hpages.iff c).mp hc
      exact ⟨n, rfl, hpages.pool n hn⟩

theorem Image.trampolinePage_lt (img : Image) : img.trampolinePage < 2 ^ 54 :=
  Nat.lt_trans (Nat.lt_of_lt_of_le img.text.2 img.ram) (by decide)

theorem trampoline_eq : trampoline = (userTop + 1) * pgSize := by decide

theorem trapframe_eq : trapframe = userTop * pgSize := by decide

section Create

variable (hmem : Manages img P.pool)
include hmem

theorem uvmfree_nothing (hrep : Rep P.pool S (fun _ => False) h) (hleaf : ∀ v, S.leaf v = 0) :
    wp machine P (do
      uvmfree img S.root 0
      return (none : Option Nat)) (fun r h' =>
        match r with
        | none => h' = Heaplet.empty
        | some root => At img P.pool root 0 tf (fun _ => False) h') h := by
  refine wp_seq (uvmfree_spec hmem hrep (by decide) fun v hne => absurd (hleaf v) hne) ?_
  exact fun _ h' hpages => hpages.eq_empty

theorem procPagetable_spec (htf : tf < 2 ^ 54) :
    wp machine P (procPagetable img tf) (fun r h' =>
      match r with
      | none => h' = Heaplet.empty
      | some root => At img P.pool root 0 tf (fun _ => False) h') Heaplet.empty := by
  have htop : userTop = 2 ^ 26 - 2 := rfl
  refine wp_seq (uvmcreate_spec hmem) ?_
  rintro r h' hr
  cases r with
  | none => exact hr
  | some pagetable =>
    obtain ⟨S, rfl, hleaf, hrep⟩ := hr
    have hzero : ∀ v, S.leaf v = 0 := fun v => by rw [hleaf]
    rw [trampoline_eq, trapframe_eq]
    refine wp_seq (mappages_spec hmem (fun _ => id) hrep (v := userTop + 1) (by omega)
      (hzero _) (by decide)
      (by decide) img.trampolinePage_lt fun hlt => absurd hlt (by omega)) ?_
    rintro ok h₁ ⟨S₁, -, hmap⟩
    cases ok with
    | false =>
      obtain ⟨-, hsame, hrep₁⟩ := hmap
      rw [← hsame.root]
      exact uvmfree_nothing hmem hrep₁ fun v => by rw [hsame.leaf, hzero]
    | true =>
      obtain ⟨hmap, hrep₁⟩ := hmap
      have hrep₁ : Rep P.pool S₁ (fun _ => False) h₁ := hrep₁.congr_extra fun m => by simp
      have hfree : S₁.leaf userTop = 0 := by
        rw [hmap.leaf, Function.update_of_ne (by omega), hzero]
      rw [← hmap.root]
      refine wp_seq (mappages_spec hmem (fun _ => id) hrep₁ (by omega) hfree (by decide)
        (by decide) htf
        fun hlt => absurd hlt (by omega)) ?_
      rintro ok h₂ ⟨S₂, -, hmap₂⟩
      cases ok with
      | false =>
        obtain ⟨-, hsame, hrep₂⟩ := hmap₂
        rw [← hsame.root]
        refine wp_seq (uvmunmap_spec hmem hrep₂ (by omega) (Nat.le_succ _)) ?_
        rintro - h₃ ⟨S₃, hclear, hrep₃, -⟩
        rw [← hclear.root]
        refine uvmfree_nothing hmem hrep₃ fun v => ?_
        rw [hclear.leaf, cleared, hsame.leaf, hmap.leaf]
        split
        · rfl
        · rw [Function.update_of_ne (by omega), hzero]
      | true =>
        obtain ⟨hmap₂, hrep₂⟩ := hmap₂
        have hleaf₂ := hmap₂.leaf
        rw [hmap.leaf] at hleaf₂
        refine ⟨S₂, hmap₂.root, ⟨Nat.zero_le _, ?_, ?_, fun v hne => ?_⟩,
          hrep₂.congr_extra fun m => by simp⟩
        · rw [hleaf₂, Function.update_of_ne (by decide)]
          exact Function.update_self ..
        · rw [hleaf₂]
          exact Function.update_self ..
        · right
          by_contra hnot
          rw [not_or] at hnot
          rw [hleaf₂, Function.update_of_ne (show v ≠ userTop from hnot.1),
            Function.update_of_ne (show v ≠ userTop + 1 from hnot.2), hzero] at hne
          exact hne rfl

theorem procFreepagetable_spec (hat : At img P.pool root sz tf extra h) :
    wp machine P (procFreepagetable img root sz) (fun _ h' => Pages P.pool extra h') h := by
  have htop : userTop = 2 ^ 26 - 2 := rfl
  obtain ⟨S, rfl, hlayout, hrep⟩ := hat
  unfold procFreepagetable
  rw [trampoline_eq, trapframe_eq]
  refine wp_seq (uvmunmap_spec hmem hrep (by omega) (Nat.le_succ _)) ?_
  rintro - h₁ ⟨S₁, hclear₁, hrep₁, -⟩
  rw [← hclear₁.root]
  refine wp_seq (uvmunmap_spec hmem hrep₁ (by omega) (Nat.le_refl _)) ?_
  rintro - h₂ ⟨S₂, hclear₂, hrep₂, -⟩
  rw [← hclear₂.root]
  refine uvmfree_spec hmem hrep₂ hlayout.npages_le_userTop fun v hne => ?_
  rw [hclear₂.leaf, cleared, hclear₁.leaf, cleared] at hne
  split at hne
  · exact absurd rfl hne
  · split at hne
    · exact absurd rfl hne
    · have htf : vpn trapframe = userTop := rfl
      have htr : vpn trampoline = userTop + 1 := by decide
      rcases hlayout.user v hne with h | h | h
      · exact h
      · omega
      · omega

end Create

/-- The heap of one who has the memory of a process to itself, and `extra` pages. -/
def MmOk (img : Image) (pool : Cell → Prop) (mm : Mm) (extra : Nat → Prop) (h : Heap) : Prop :=
  ∃ root tf, mm.pagetable = some root ∧ mm.trapframe = some tf ∧
    At img pool root mm.sz tf (fun n => n = tf ∨ extra n) h

section Resize

variable (hlayout : Layout img S sz tf) {sz' : Nat}
include hlayout

theorem Layout.grows {perm : Nat} (hsz : sz ≤ sz') (htop : npages sz' ≤ userTop)
    (hg : S.Grows (npages sz) (npages sz') perm S') : Layout img S' sz' tf := by
  refine hlayout.remaps ⟨hg.root, rfl, hg.table⟩ (npages_le.mp htop) (fun u hu => ?_)
    fun u hu hne => ?_
  · exact hg.old u (by omega)
  · by_contra hge
    have := npages_mono hsz
    rw [hg.old u (by omega)] at hne
    exact hne (hlayout.leaf_eq_zero (by omega) hu)

theorem Layout.shrinks (hc : S.Unmaps (cleared S.leaf (npages sz') (npages sz)) S') :
    Layout img S' (min sz sz') tf := by
  have hle := hlayout.npages_le_userTop
  have hmin : npages (min sz sz') = min (npages sz) (npages sz') := by
    rcases Nat.le_total sz sz' with h | h
    · rw [Nat.min_eq_left h, Nat.min_eq_left (npages_mono h)]
    · rw [Nat.min_eq_right h, Nat.min_eq_right (npages_mono h)]
  refine hlayout.remaps hc.toRemaps (Nat.le_trans (Nat.min_le_left _ _) hlayout.size)
    (fun u hu => ?_)
    fun u hu hne => ?_
  · rw [cleared, if_neg (by omega)]
  · by_contra hge
    rw [hmin] at hge
    unfold cleared at hne
    split at hne
    · exact hne rfl
    · exact hne (hlayout.leaf_eq_zero (by omega) hu)

theorem Layout.reserve (hsz : sz ≤ sz') (htop : sz' ≤ Vm.trapframe) :
    Layout img S sz' tf where
  size := htop
  trampoline := hlayout.trampoline
  trapframe := hlayout.trapframe
  user v hv := (hlayout.user v hv).imp (fun h => Nat.lt_of_lt_of_le h (npages_mono hsz)) id

end Resize

def Shows (img : Image) (pool : Cell → Prop) (mm : Mm) (extra : Nat → Prop) (pages : UserPages)
    (h : Heap) : Prop :=
  ∃ root tf mapped, mm.pagetable = some root ∧ mm.trapframe = some tf ∧
    View img pool root mm.sz tf (fun n => n = tf ∨ extra n) mapped h ∧ look mapped mm.sz = pages

theorem Shows.ok {pool : Cell → Prop} {mm : Mm} {pages : UserPages}
    (hshow : Shows img pool mm extra pages h) : MmOk img pool mm extra h := by
  obtain ⟨root, tf, mapped, hpt, htf, hview, -⟩ := hshow
  exact ⟨root, tf, hpt, htf, hview.at⟩

theorem MmOk.shows {pool : Cell → Prop} {mm : Mm} (hmm : MmOk img pool mm extra h) :
    ∃ pages, Shows img pool mm extra pages h := by
  obtain ⟨root, tf, hpt, htf, hat⟩ := hmm
  obtain ⟨mapped, hview⟩ := hat.view
  exact ⟨_, root, tf, mapped, hpt, htf, hview, rfl⟩

section Content

variable {h' : Heap} {lo hi : Nat}

theorem content_grown {perm : Nat} (hg : S.Grows lo hi perm S') (hz : Zeroed S S' extra lo hi h h')
    (hperm : perm < 1024) (hflags : (perm ||| pteV) &&& 1023 = heapFlags) (htop : hi ≤ userTop) :
    S'.content h' = grown (S.content h) lo hi := by
  funext u
  unfold grown
  split
  · rename_i hu
    obtain ⟨m, hm⟩ := hg.new u hu.1 hu.2
    have hflags' : pteFlags (S'.leaf u) = heapFlags := by
      rw [hm, pteFlags, entry_and_mask hperm m (by decide), hflags]
    rw [Space.content_of_data (by omega) (hg.new_ne_zero hu.1 hu.2) (hz.new u hu.1 hu.2), hflags']
  · rename_i hu
    exact Space.content_eq (hg.old u hu) fun hut hne => hz.old _ (Or.inl ⟨u, hut, hne, rfl⟩)

theorem content_cleared (hc : S.Unmaps (cleared S.leaf lo hi) S') (hkept : Kept S' extra h h') :
    S'.content h' = shrunk (S.content h) lo hi := by
  funext u
  unfold shrunk
  split
  · rename_i hu
    exact Space.content_of_zero (by rw [hc.leaf, cleared, if_pos hu])
  · rename_i hu
    have hleaf : S'.leaf u = S.leaf u := by rw [hc.leaf, cleared, if_neg hu]
    refine Space.content_eq hleaf fun hut hne => ?_
    rw [← hleaf] at hne ⊢
    exact hkept _ (Or.inl ⟨u, hut, hne, rfl⟩)

end Content

section Sbrk

/-- What `sys_sbrk` returns, and the size and the pages after it. Its second
argument does not matter. -/
def sbrkPages (sz : Nat) (pages : UserPages) (n : Int) : Nat × Nat × UserPages :=
  let newsz := addInt sz n
  if n < 0 then (sz, min sz newsz, shrunk pages (npages newsz) (npages sz))
  else if newsz > trapframe then (minusOne, sz, pages)
  else (sz, newsz, grown pages (npages sz) (npages newsz))

theorem addInt_of_nonneg {n : Int} (hsz : sz ≤ trapframe) (hpos : 0 ≤ n) (hn : n < 2 ^ 31) :
    addInt sz n = sz + n.toNat := by
  have htop : trapframe = 2 ^ 38 - 8192 := by decide
  unfold addInt
  rw [Int.emod_eq_of_lt (by omega) (by omega)]
  omega

variable {mm : Mm} {pages : UserPages} (hmem : Manages img P.pool)
  (hshow : Shows img P.pool mm extra pages h)
include hmem hshow

theorem growproc_spec {n : Int} (hn : n < 2 ^ 31) : wp machine P (growproc img mm n)
    (fun r h' => ∃ pages', Shows img P.pool r.2 extra pages' h' ∧ (P.exhausts ∨
      (if r.1 then mm.sz else minusOne, r.2.sz, pages') = sbrkPages mm.sz pages n)) h := by
  have hsame := hshow
  obtain ⟨root, tf, mapped, hpt, htf, hview, rfl⟩ := hshow
  have hunmapped : ∀ u, npages mm.sz ≤ u → mapped u = none := fun u => hview.unmapped
  obtain ⟨S, rfl, hlayout, hrep, rfl⟩ := hview
  simp only [growproc, sbrkPages, hpt, deref]
  by_cases hpos : n > 0
  · have hsum := addInt_of_nonneg hlayout.size (Int.le_of_lt hpos) hn
    have hle : mm.sz ≤ addInt mm.sz n := by omega
    rw [if_pos hpos, if_neg (show ¬n < 0 by omega)]
    by_cases htop : addInt mm.sz n > trapframe
    · rw [if_pos htop, if_pos htop]
      exact ⟨_, hsame, Or.inr rfl⟩
    rw [if_neg htop, if_neg htop]
    refine wp_seq (uvmalloc_spec hmem hrep (by decide) hlayout.npages_le_userTop
      (fun u hu hlt => hlayout.leaf_eq_zero hu hlt)
      (Or.inl (npages_le.mpr (Nat.not_lt.mp htop)))) ?_
    rw [Nat.max_eq_right hle]
    rintro r h' ⟨S', hrep', ⟨rfl, htop', hg, hz⟩ | ⟨rfl, hshort, hback, -⟩⟩
    · rw [if_neg (by omega)]
      refine ⟨_, ⟨S.root, tf, _, rfl, htf,
        ⟨S', hg.root, hlayout.grows hle htop' hg, hrep', rfl⟩, rfl⟩, Or.inr ?_⟩
      rw [content_grown hg hz (by decide) (by decide) htop', look_grown hunmapped hle]
      rfl
    · rw [if_pos rfl]
      have hview' : View img P.pool S.root mm.sz tf _ (S'.content h') h' :=
        ⟨S', hback.root, hlayout.congr hback, hrep', rfl⟩
      exact ⟨_, ⟨S.root, tf, _, hpt, htf, hview', rfl⟩, Or.inl hshort⟩
  · rw [if_neg hpos]
    by_cases hneg : n < 0
    · rw [if_pos hneg, if_pos hneg]
      refine wp_seq (uvmdealloc_spec hmem hrep hlayout.npages_le_userTop) ?_
      rintro r h' ⟨rfl, S', hclear, hrep', hkept⟩
      refine ⟨_, ⟨S.root, tf, _, rfl, htf,
        ⟨S', hclear.root, hlayout.shrinks hclear, hrep', rfl⟩, rfl⟩,
        Or.inr ?_⟩
      rw [content_cleared hclear hkept]
      refine Prod.ext rfl (Prod.ext rfl ?_)
      show look _ (min mm.sz (addInt mm.sz n)) = _
      rcases Nat.le_total (addInt mm.sz n) mm.sz with hle | hle
      · rw [Nat.min_eq_right hle]
        exact look_shrunk hle
      · -- the size has wrapped around: nothing is freed
        have hmono := npages_mono hle
        rw [Nat.min_eq_left hle, shrunk_self hmono, shrunk_self hmono]
    · obtain rfl : n = 0 := by omega
      have hsum := addInt_of_nonneg hlayout.size (Int.le_refl 0) hn
      rw [if_neg hneg, if_neg hneg, show addInt mm.sz 0 = mm.sz by omega,
        if_neg (Nat.not_lt.mpr hlayout.size), grown_self]
      exact ⟨_, hsame, Or.inr rfl⟩

theorem sysSbrk_spec {n : Int} (hn : n < 2 ^ 31) (t : Int) : wp machine P (sysSbrk img n t mm)
    (fun r h' => ∃ pages', Shows img P.pool r.1 extra pages' h' ∧ (P.exhausts ∨
      (r.2, r.1.sz, pages') = sbrkPages mm.sz pages n)) h := by
  unfold sysSbrk
  simp only
  split
  · refine wp_seq (growproc_spec hmem hshow hn) ?_
    rintro ⟨ok, mm'⟩ h' hdone
    exact hdone
  · rename_i hlazy
    have hpos : 0 ≤ n := by omega
    obtain ⟨root, tf, mapped, hpt, htf, hview, rfl⟩ := hshow
    have hunmapped : ∀ u, npages mm.sz ≤ u → mapped u = none := fun u => hview.unmapped
    have hsame := hview
    obtain ⟨S, rfl, hlayout, hrep, rfl⟩ := hview
    have hsum := addInt_of_nonneg hlayout.size hpos hn
    have hle : mm.sz ≤ addInt mm.sz n := by omega
    simp only [sbrkPages, if_neg (Nat.not_lt.mpr hle), if_neg (show ¬n < 0 by omega)]
    split
    · exact ⟨_, ⟨S.root, tf, _, hpt, htf, hsame, rfl⟩, Or.inr rfl⟩
    · rename_i htop
      refine ⟨_, ⟨S.root, tf, S.content h, hpt, htf,
        ⟨S, rfl, hlayout.reserve hle (Nat.not_lt.mp htop), hrep, rfl⟩, rfl⟩, Or.inr ?_⟩
      rw [look_reserve hunmapped hle]

end Sbrk

end Xv6.Vm
