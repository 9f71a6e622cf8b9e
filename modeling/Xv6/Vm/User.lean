import Xv6.Vm.Free
import Xv6.Vm.Pages

/-! User memory: `walkaddr`, `vmfault`, and what the kernel copies in and out. The
address space of a process keeps its layout. -/
namespace Xv6.Vm

open Lib

variable {img : Image} {P : Protocol sig} {h : Heap} {S S' : Space}
  {extra : Nat → Prop} {sz tf root : Nat}

/-- What a process has mapped: the trampoline, its trapframe, and some pages
below its size. -/
structure Layout (img : Image) (S : Space) (sz tf : Nat) : Prop where
  size : sz ≤ trapframe
  trampoline : S.leaf (vpn trampoline) = pa2pte img.trampolinePage ||| (pteR ||| pteX) ||| pteV
  trapframe : S.leaf (vpn trapframe) = pa2pte tf ||| (pteR ||| pteW) ||| pteV
  user : ∀ v, S.leaf v ≠ 0 → v < npages sz ∨ v = vpn Vm.trapframe ∨ v = vpn Vm.trampoline

namespace Layout

variable (hlayout : Layout img S sz tf)
include hlayout

theorem npages_le_userTop : npages sz ≤ userTop := npages_le.mpr hlayout.size

theorem lt_userTop {v : Nat} (hv : v < npages sz) : v < userTop :=
  Nat.lt_of_lt_of_le hv hlayout.npages_le_userTop

theorem lt_npages_of_user {v : Nat} (hv : S.leaf v &&& pteU ≠ 0) : v < npages sz := by
  have hne : S.leaf v ≠ 0 := fun h => hv (by simp [h])
  rcases hlayout.user v hne with hlt | rfl | rfl
  · exact hlt
  · rw [hlayout.trapframe, entry_and_mask (by decide) tf (by decide)] at hv
    exact absurd rfl hv
  · rw [hlayout.trampoline, entry_and_mask (by decide) _ (by decide)] at hv
    exact absurd rfl hv

theorem leaf_eq_zero {v : Nat} (hle : npages sz ≤ v) (hlt : v < userTop) : S.leaf v = 0 := by
  by_contra hne
  have htop : vpn Vm.trapframe = userTop := rfl
  have htop' : vpn Vm.trampoline = userTop + 1 := by decide
  rcases hlayout.user v hne with h | h | h
  · omega
  · omega
  · omega

theorem remaps {leaf : Nat → Nat} (hmap : S.Remaps leaf S') {sz' : Nat}
    (hsz : sz' ≤ Vm.trapframe) (hsame : ∀ u, userTop ≤ u → leaf u = S.leaf u)
    (huser : ∀ u, u < userTop → leaf u ≠ 0 → u < npages sz') : Layout img S' sz' tf where
  size := hsz
  trampoline := by
    rw [hmap.leaf, hsame _ (by decide)]
    exact hlayout.trampoline
  trapframe := by
    rw [hmap.leaf, hsame (vpn Vm.trapframe) (Nat.le_refl _)]
    exact hlayout.trapframe
  user v hv := by
    rw [hmap.leaf] at hv
    by_cases hlt : v < userTop
    · exact Or.inl (huser v hlt hv)
    · rw [hsame v (Nat.not_lt.mp hlt)] at hv
      rcases hlayout.user v hv with h | h
      · exact absurd (hlayout.lt_userTop h) hlt
      · exact Or.inr h

theorem congr (hsame : S.Remaps S.leaf S') : Layout img S' sz tf :=
  hlayout.remaps hsame hlayout.size (fun _ _ => rfl) fun u hu hne => by
    by_contra hge
    exact hne (hlayout.leaf_eq_zero (Nat.not_lt.mp hge) hu)

end Layout

theorem Image.managed_ne_zero {n : Nat} (hn : img.managed n) : n ≠ 0 := by
  have hlow : kernBase / pgSize = 0x80000 := by decide
  have := img.text
  have := hn.1
  omega

theorem Layout.userManaged {pool : Cell → Prop} {v : Nat} (hlayout : Layout img S sz tf)
    (hmem : Manages img pool) (hrep : Rep pool S extra h) (huser : S.leaf v &&& pteU ≠ 0) :
    img.managed (pte2pa (S.leaf v)) := by
  have hne : S.leaf v ≠ 0 := fun h => huser (by simp [h])
  have hrole : S.holds extra (.user v) (pte2pa (S.leaf v)) :=
    ⟨hlayout.lt_userTop (hlayout.lt_npages_of_user huser), hne, rfl⟩
  obtain ⟨n, heq, hn⟩ := hmem _ (hrep.inPool _ hrole)
  rwa [Cell.page.inj heq]

theorem Layout.page_ne_zero {pool : Cell → Prop} {v : Nat} (hlayout : Layout img S sz tf)
    (hmem : Manages img pool) (hrep : Rep pool S extra h) (huser : S.leaf v &&& pteU ≠ 0) :
    pte2pa (S.leaf v) ≠ 0 :=
  Image.managed_ne_zero (hlayout.userManaged hmem hrep huser)

def At (img : Image) (pool : Cell → Prop) (root sz tf : Nat) (extra : Nat → Prop)
    (h : Heap) : Prop :=
  ∃ S, S.root = root ∧ Layout img S sz tf ∧ Rep pool S extra h

section Lookup

variable {va : Nat} (hmem : Manages img P.pool)
include hmem

theorem walk_load_frame {own other : Heap} {α : Type} {absent : Code α}
    {found : Nat → Nat → Nat → Code α} {post : α → Heap → Prop} (hrep : Rep P.pool S extra own)
    (hs : Heaplet.Splits h own other) (hva : va < maxVa)
    (habsent : S.leaf (vpn va) = 0 → wp machine P absent post h)
    (hfound : ∀ n, S.table 0 (vpn va / 512) = some n →
      wp machine P (found n (vpn va % 512) (S.leaf (vpn va))) post h) :
    wp machine P (do
      match ← walk S.root va false with
      | none => absent
      | some (n, x) =>
          let pte ← load n x
          found n x pte) post h := by
  refine wp_seq (wp_frame (walk_spec hmem (fun _ => id) hrep false hva) hs) ?_
  rintro r h' ⟨own', hs', S', -, -, rfl, hno, -⟩
  obtain ⟨rfl, rfl⟩ := hno rfl
  obtain rfl := hs.unique hs'
  cases hn : S'.table 0 (vpn va / 512) with
  | none =>
    refine habsent ?_
    by_contra hne
    exact S'.lower _ hne hn
  | some n =>
    obtain ⟨data, hdata, hword⟩ := hrep.leaf hn
    refine wp_bind (wp_load (hs.of_left hdata) ?_)
    rw [hword.eq]
    exact hfound n hn

variable (hrep : Rep P.pool S extra h)
include hrep

theorem walk_load_spec {α : Type} {absent : Code α} {found : Nat → Nat → Nat → Code α}
    {post : α → Heap → Prop} (hva : va < maxVa)
    (habsent : S.leaf (vpn va) = 0 → wp machine P absent post h)
    (hfound : ∀ n, S.table 0 (vpn va / 512) = some n →
      wp machine P (found n (vpn va % 512) (S.leaf (vpn va))) post h) :
    wp machine P (do
      match ← walk S.root va false with
      | none => absent
      | some (n, x) =>
          let pte ← load n x
          found n x pte) post h :=
  walk_load_frame hmem hrep (Heaplet.splits_empty h) hva habsent hfound

theorem walkaddr_spec (hlayout : Layout img S sz tf) :
    wp machine P (walkaddr S.root va) (fun r h' => h' = h ∧
    match r with
    | none => va < maxVa → S.leaf (vpn va) &&& pteU = 0
    | some pa => va < maxVa ∧ S.leaf (vpn va) &&& pteU ≠ 0 ∧ pa = pte2pa (S.leaf (vpn va))) h := by
  unfold walkaddr
  by_cases hva : va ≥ maxVa
  · rw [if_pos hva]
    exact ⟨rfl, fun hlt => absurd hlt (by omega)⟩
  · rw [if_neg hva]
    refine walk_load_spec hmem hrep (by omega) (fun hzero => ⟨rfl, fun _ => by simp [hzero]⟩) ?_
    intro n hn
    split
    · rename_i hvalid
      exact ⟨rfl, fun _ => by simp [S.leaf_eq_zero hvalid]⟩
    · split
      · rename_i huser
        exact ⟨rfl, fun _ => huser⟩
      · rename_i huser
        rw [if_neg (hlayout.page_ne_zero hmem hrep huser)]
        exact ⟨rfl, by omega, huser, rfl⟩

theorem ismapped_spec (hva : va < maxVa) : wp machine P (ismapped S.root va)
    (fun r h' => h' = h ∧ (r = false ↔ S.leaf (vpn va) = 0)) h := by
  refine walk_load_spec hmem hrep hva (fun hzero => ⟨rfl, fun _ => hzero, fun _ => rfl⟩) ?_
  intro n hn
  refine ⟨rfl, fun hr => S.leaf_eq_zero ?_, fun hzero => ?_⟩
  · simpa using hr
  · simp [hzero]

end Lookup

section Content

variable {h' : Heap} {v : Nat}

def Space.content (S : Space) (h : Heap) : UserPages := fun v =>
  if v < userTop ∧ S.leaf v ≠ 0 then
    (h (.page (pte2pa (S.leaf v)))).map fun data => (pteFlags (S.leaf v), data)
  else none

theorem Space.content_eq (hleaf : S'.leaf v = S.leaf v) (hsame : v < userTop → S.leaf v ≠ 0 →
    h' (.page (pte2pa (S.leaf v))) = h (.page (pte2pa (S.leaf v)))) :
    S'.content h' v = S.content h v := by
  unfold content
  rw [hleaf]
  split
  · rename_i hmapped
    rw [hsame hmapped.1 hmapped.2]
  · rfl

theorem Space.content_of_zero (hzero : S.leaf v = 0) : S.content h v = none := by
  simp [content, hzero]

theorem Space.content_of_data {data : Data} (hv : v < userTop) (hne : S.leaf v ≠ 0)
    (hdata : h (.page (pte2pa (S.leaf v))) = some data) :
    S.content h v = some (pteFlags (S.leaf v), data) := by
  simp [content, hv, hne, hdata]

theorem Space.content_kept (hleaf : S'.leaf = S.leaf) (hkept : Kept S extra h h') :
    S'.content h' = S.content h :=
  funext fun v => content_eq (by rw [hleaf]) fun hv hne => hkept _ (Or.inl ⟨v, hv, hne, rfl⟩)

end Content

/-- The heap of one who has an address space with this root, in which `mapped` are
the pages of the user, and `extra` pages. -/
def View (img : Image) (pool : Cell → Prop) (root sz tf : Nat) (extra : Nat → Prop)
    (mapped : UserPages) (h : Heap) : Prop :=
  ∃ S, S.root = root ∧ Layout img S sz tf ∧ Rep pool S extra h ∧ S.content h = mapped

def UserPage (img : Image) (pool : Cell → Prop) (root sz tf : Nat) (extra : Nat → Prop)
    (mapped : UserPages) (v pa : Nat) (h : Heap) : Prop :=
  ∃ S, S.root = root ∧ Layout img S sz tf ∧ Rep pool S extra h ∧ S.content h = mapped ∧
    v < userTop ∧ S.leaf v &&& pteU ≠ 0 ∧ pa = pte2pa (S.leaf v)

variable {mapped : UserPages}

theorem View.at {pool : Cell → Prop} (hview : View img pool root sz tf extra mapped h) :
    At img pool root sz tf extra h := by
  obtain ⟨S, hroot, hlayout, hrep, -⟩ := hview
  exact ⟨S, hroot, hlayout, hrep⟩

theorem At.view {pool : Cell → Prop} (hat : At img pool root sz tf extra h) :
    ∃ mapped, View img pool root sz tf extra mapped h := by
  obtain ⟨S, hroot, hlayout, hrep⟩ := hat
  exact ⟨_, S, hroot, hlayout, hrep, rfl⟩

theorem View.unmapped {pool : Cell → Prop}
    (hview : View img pool root sz tf extra mapped h) {v : Nat}
    (hv : npages sz ≤ v) : mapped v = none := by
  obtain ⟨S, -, hlayout, -, rfl⟩ := hview
  by_cases htop : v < userTop
  · exact Space.content_of_zero (hlayout.leaf_eq_zero hv htop)
  · simp [Space.content, htop]

theorem UserPage.view {pool : Cell → Prop} {v pa : Nat}
    (hpage : UserPage img pool root sz tf extra mapped v pa h) :
    View img pool root sz tf extra mapped h := by
  obtain ⟨S, hroot, hlayout, hrep, hcontent, -⟩ := hpage
  exact ⟨S, hroot, hlayout, hrep, hcontent⟩

theorem Space.leaf_of_content {pool : Cell → Prop} {v : Nat} (hrep : Rep pool S extra h)
    (hv : v < userTop) (hnone : S.content h v = none) : S.leaf v = 0 := by
  by_contra hne
  obtain ⟨data, hdata⟩ := Option.ne_none_iff_exists'.mp
    (hrep.holds_ne_none (.user v) ⟨hv, hne, rfl⟩)
  simp [Space.content_of_data hv hne hdata] at hnone

theorem mapPage_spec {v mem perm : Nat} (hmem : Manages img P.pool)
    (hview : View img P.pool root sz tf extra mapped h) (hv : v < npages sz)
      (hnone : mapped v = none)
    (hpool : P.pool (.page mem)) (hfree : h (.page mem) = none) (hperm : perm < 1024)
    (hleaf : perm &&& leafBits ≠ 0) (data : Data) :
    wp machine P (mappages root (v * pgSize) pgSize mem perm) (fun ok h' =>
      if ok then ∃ S, S.root = root ∧ Layout img S sz tf ∧ Rep P.pool S extra h' ∧
        S.content h' = Function.update mapped v (some (perm ||| pteV, data)) ∧
        S.leaf v = pa2pte mem ||| perm ||| pteV
      else P.exhausts ∧ h' (.page mem) ≠ none ∧
        View img P.pool root sz tf extra mapped (Function.update h' (.page mem) none))
      (Function.update h (.page mem) (some data)) := by
  obtain ⟨S, rfl, hlayout, hrep, rfl⟩ := hview
  have huser := hlayout.lt_userTop hv
  refine wp_mono (mappages_spec hmem (fun _ => id) (hrep.acquire hpool hfree data)
    (Nat.lt_trans huser (by decide)) (Space.leaf_of_content hrep huser hnone) hperm hleaf
    (hmem.fits hpool) fun _ => Or.inr rfl) ?_
  rintro ok h' ⟨S', hkept, hmap⟩
  have hkept' : Kept S extra h h' := fun n hn =>
    (hkept n (hn.imp id Or.inl)).trans (hrep.kept_free hfree _ n hn)
  cases ok with
  | true =>
    obtain ⟨hmap, hrep'⟩ := hmap
    have hentry : S'.leaf v = pa2pte mem ||| perm ||| pteV := by
      rw [hmap.leaf, Function.update_self]
    have hthere : h' (.page (pte2pa (S'.leaf v))) = some data := by
      rw [hentry, pte2pa_entry hperm, hkept mem (Or.inr (Or.inr rfl)), Function.update_self]
    have hflags : pteFlags (S'.leaf v) = perm ||| pteV := by
      rw [hentry, pteFlags, entry_and_mask hperm mem (by decide), ← pteFlags, pteFlags_eq_mod]
      exact Nat.mod_eq_of_lt (Nat.or_lt_two_pow (n := 10) hperm (by decide))
    have hne : S'.leaf v ≠ 0 := by
      rw [hentry]
      exact fun h => absurd (Nat.or_eq_zero_iff.mp h).2 (by decide)
    refine ⟨S', hmap.root, hlayout.remaps hmap hlayout.size
      (fun u hu => Function.update_of_ne (by omega) ..) fun u hu hne' => ?_,
      hrep'.congr_extra fun m => by simpa [huser] using hrep.extra_iff hfree m, funext fun u => ?_,
      hentry⟩
    · by_contra hge
      rw [Function.update_of_ne (by omega)] at hne'
      exact hne' (hlayout.leaf_eq_zero (Nat.not_lt.mp hge) hu)
    · by_cases huv : u = v
      · rw [huv, Function.update_self, Space.content_of_data huser hne hthere, hflags]
      · rw [Function.update_of_ne huv]
        exact Space.content_eq (by rw [hmap.leaf, Function.update_of_ne huv]) fun hu hne =>
          hkept' _ (Or.inl ⟨u, hu, hne, rfl⟩)
  | false =>
    obtain ⟨hshort, hsame, hrep'⟩ := hmap
    have hmine : S'.holds (fun m => extra m ∨ m = mem) .extra mem := Or.inr rfl
    refine ⟨hshort, hrep'.holds_ne_none _ hmine, S', hsame.root, hlayout.congr hsame,
      (hrep'.release hmine).congr_extra (hrep.extra_iff hfree), ?_⟩
    refine Space.content_kept hsame.leaf fun n hn =>
      (Function.update_of_ne ?_ ..).trans (hkept' n hn)
    intro heq
    rw [← heq] at hfree
    exact hrep.dataPage_ne_none hn hfree

theorem Usable.leaf {S : Space} {h : Heap} {write : Bool} {v : Nat}
    (huse : Usable write (S.content h) v) : v * pgSize < maxVa ∧ S.leaf v &&& pteU ≠ 0 := by
  obtain ⟨flags, data, hcontent, huser, -⟩ := huse
  by_cases hv : v < userTop ∧ S.leaf v ≠ 0
  · have hflags : pteFlags (S.leaf v) = flags := by
      simp only [Space.content, if_pos hv, Option.map_eq_some_iff, Prod.mk.injEq] at hcontent
      obtain ⟨_, -, heq, -⟩ := hcontent
      exact heq
    rw [← hflags, and_mask_pteFlags _ (by decide)] at huser
    refine ⟨?_, huser⟩
    have htop : userTop = 2 ^ 26 - 2 := rfl
    unfold pgSize maxVa
    omega
  · simp only [Space.content, if_neg hv] at hcontent
    cases hcontent

section Fault

variable {mm : Mm} {v : Nat} (hmem : Manages img P.pool) (hpt : mm.pagetable = some root)
  (hview : View img P.pool root mm.sz tf extra mapped h)
include hmem hpt hview

theorem vmfault_spec : wp machine P (vmfault img mm root (v * pgSize)) (fun r h' =>
    match r with
    | none => View img P.pool root mm.sz tf extra mapped h' ∧
        (P.exhausts ∨ ¬v < npages mm.sz ∨ mapped v ≠ none)
    | some pa => v < npages mm.sz ∧ mapped v = none ∧ UserPage img P.pool root mm.sz tf extra
        (Function.update mapped v (some (heapFlags, filled 0))) v pa h') h := by
  have hsame := hview
  obtain ⟨S, rfl, hlayout, hrep, rfl⟩ := hview
  unfold vmfault
  by_cases hva : v * pgSize ≥ mm.sz
  · rw [if_pos hva]
    exact ⟨hsame, Or.inr (Or.inl fun hv => by have := lt_npages.mp hv; omega)⟩
  rw [if_neg hva]
  have hround : pgRoundDown (v * pgSize) = v * pgSize := by
    rw [pgRoundDown, Nat.mul_div_cancel _ (by decide)]
  have hv : v < npages mm.sz := lt_npages.mpr (Nat.not_le.mp hva)
  have huser := hlayout.lt_userTop hv
  have hmax : v * pgSize < maxVa := Nat.lt_trans
      (Nat.lt_of_lt_of_le (Nat.not_le.mp hva) hlayout.size)
    (by decide)
  simp only [hround]
  refine wp_seq (ismapped_spec hmem hrep hmax) ?_
  rintro found h' ⟨rfl, hzero⟩
  rw [vpn_mul] at hzero
  cases found with
  | true =>
    refine ⟨hsame, Or.inr (Or.inr ?_)⟩
    have hne : S.leaf v ≠ 0 := fun h => by simpa using hzero.mpr h
    obtain ⟨data, hdata⟩ := Option.ne_none_iff_exists'.mp
      (hrep.holds_ne_none (.user v) ⟨huser, hne, rfl⟩)
    rw [Space.content_of_data huser hne hdata]
    simp
  | false =>
    have hzero : S.leaf v = 0 := hzero.mp rfl
    have hnone := Space.content_of_zero (h := h') hzero
    refine wp_bind (wp_kalloc hmem (fun hshort => ⟨hsame, Or.inl hshort⟩) fun mem hpool hfree => ?_)
    refine wp_bind (wp_memset (by simp) ?_)
    simp only [hpt]
    rw [Function.update_idem]
    refine wp_seq (mapPage_spec hmem hsame hv hnone hpool hfree (by decide) (by decide)
      (filled 0)) ?_
    rintro ok h'' hok
    cases ok with
    | true =>
      obtain ⟨S', hroot, hlayout', hrep', hcontent, hleaf⟩ := hok
      refine ⟨hv, hnone, S', hroot, hlayout', hrep', hcontent, huser, ?_, ?_⟩
      · rw [hleaf, entry_and_mask (by decide) mem (by decide)]
        decide
      · rw [hleaf, pte2pa_entry (by decide) mem]
    | false =>
      obtain ⟨hshort, hthere, hview'⟩ := hok
      exact wp_bind (wp_kfree hmem hpool hthere ⟨hview', Or.inl hshort⟩)

/-- Where `copyin` and `copyout` find a page: it is mapped for the user, or it comes by a
page fault. -/
theorem userPage_spec : wp machine P (userPage img mm root (v * pgSize)) (fun r h' =>
    match r with
    | none => View img P.pool root mm.sz tf extra mapped h' ∧ ¬Usable false mapped v ∧
        (P.exhausts ∨ look mapped mm.sz v = none)
    | some pa => ∃ mapped', Faults mm.sz (· = v) mapped mapped' ∧
        UserPage img P.pool root mm.sz tf extra mapped' v pa h') h := by
  have hsame := hview
  obtain ⟨S, rfl, hlayout, hrep, rfl⟩ := hview
  refine wp_seq (walkaddr_spec hmem hrep hlayout) ?_
  rintro r h' ⟨rfl, hr⟩
  rw [vpn_mul] at hr
  cases r with
  | some pa =>
    have huser : v < userTop := hlayout.lt_userTop (hlayout.lt_npages_of_user hr.2.1)
    exact ⟨_, Faults.refl, S, rfl, hlayout, hrep, rfl, huser, hr.2⟩
  | none =>
    refine wp_mono (vmfault_spec hmem hpt hsame) ?_
    rintro r h'' hr'
    cases r with
    | some pa =>
      obtain ⟨hv, hnone, hpage⟩ := hr'
      refine ⟨_, fun u => ?_, hpage⟩
      by_cases huv : u = v
      · subst huv
        exact Or.inr ⟨rfl, hv, hnone, Function.update_self ..⟩
      · exact Or.inl (Function.update_of_ne huv ..)
    | none =>
      have hnot : ¬Usable false (S.content h') v := fun huse => huse.leaf.2 (hr huse.leaf.1)
      exact ⟨hr'.1, hnot, hr'.2.imp id (look_of_not_usable hnot)⟩

end Fault

section Copy

variable {mm : Mm} {v pa : Nat}

theorem Layout.userData {pool : Cell → Prop} {v : Nat} (hlayout : Layout img S sz tf)
    (hrep : Rep pool S extra h) (huser : S.leaf v &&& pteU ≠ 0) :
    h (.page (pte2pa (S.leaf v))) ≠ none ∧ ∀ data, Rep pool S extra
      (Function.update h (.page (pte2pa (S.leaf v))) (some data)) := by
  have hne : S.leaf v ≠ 0 := fun h => huser (by simp [h])
  have hrole : S.holds extra (.user v) (pte2pa (S.leaf v)) :=
    ⟨hlayout.lt_userTop (hlayout.lt_npages_of_user huser), hne, rfl⟩
  have hthere := hrep.holds_ne_none _ hrole
  refine ⟨hthere, fun data => hrep.setData hthere (fun l k heq => ?_) data⟩
  cases hrep.role_eq (.table l k) (.user _) heq hrole

theorem UserPage.held {pool : Cell → Prop}
    (hpage : UserPage img pool root sz tf extra mapped v pa h) :
    ∃ flags data, mapped v = some (flags, data) ∧ flags &&& pteU ≠ 0 ∧ h (.page pa) = some data ∧
      ∀ data', View img pool root sz tf extra (Function.update mapped v (some (flags, data')))
        (Function.update h (.page pa) (some data')) := by
  obtain ⟨S, rfl, hlayout, hrep, rfl, hv, huser, rfl⟩ := hpage
  have hne : S.leaf v ≠ 0 := fun h => huser (by simp [h])
  obtain ⟨hthere, hwrite⟩ := hlayout.userData hrep huser
  obtain ⟨data, hdata⟩ := Option.ne_none_iff_exists'.mp hthere
  refine ⟨_, data, Space.content_of_data hv hne hdata, ?_, hdata, fun data' =>
    ⟨S, rfl, hlayout, hwrite data', ?_⟩⟩
  · rwa [and_mask_pteFlags _ (by decide)]
  · funext u
    by_cases huv : u = v
    · subst huv
      rw [Function.update_self]
      exact Space.content_of_data hv hne (Function.update_self ..)
    · rw [Function.update_of_ne huv]
      refine Space.content_eq rfl fun hu hune => Function.update_of_ne ?_ ..
      intro heq
      cases hrep.role_eq (.user u) (.user v) ⟨hu, hune, Cell.page.inj heq⟩ ⟨hv, hne, rfl⟩
      exact huv rfl

theorem sub_pgRoundDown_lt (va : Nat) : va - pgRoundDown va < pgSize := by
  unfold pgRoundDown pgSize
  omega

theorem pgRoundDown_eq (va : Nat) : pgRoundDown va = vpn va * pgSize := rfl

theorem vpn_pgRoundDown (va : Nat) : vpn (pgRoundDown va) = vpn va := vpn_mul _

variable (hmem : Manages img P.pool)
include hmem

theorem UserPage.storeUser {va : Nat}
    (hpage : UserPage img P.pool root sz tf extra mapped (vpn va) pa h)
    (hmax : pgRoundDown va < maxVa) (change : Data → Data) :
    wp machine P (storeUser root (pgRoundDown va) pa change) (fun ok h' => ∃ flags data,
      mapped (vpn va) = some (flags, data) ∧ flags &&& pteU ≠ 0 ∧
      (ok = false ∧ flags &&& pteW = 0 ∧ View img P.pool root sz tf extra mapped h' ∨
        ok = true ∧ flags &&& pteW ≠ 0 ∧ View img P.pool root sz tf extra
          (Function.update mapped (vpn va) (some (flags, change data))) h')) h := by
  have hview := hpage.view
  obtain ⟨flags, data, hmapped, hflags, hdata, hwrite⟩ := hpage.held
  obtain ⟨S, rfl, hlayout, hrep, rfl, hv, huser, rfl⟩ := hpage
  have hne : S.leaf (vpn va) ≠ 0 := fun h => huser (by simp [h])
  have hleaf : pteFlags (S.leaf (vpn va)) = flags := by
    rw [Space.content_of_data hv hne hdata] at hmapped
    exact (Prod.mk.inj (Option.some.inj hmapped)).1
  refine walk_load_spec hmem hrep hmax (fun hzero => ?_) ?_
  · rw [vpn_pgRoundDown] at hzero
    exact absurd hzero hne
  intro n _
  rw [vpn_pgRoundDown, ← and_mask_pteFlags _ (show 1023 &&& pteW = pteW by decide), hleaf]
  by_cases hread : flags &&& pteW = 0
  · rw [if_pos hread]
    exact ⟨flags, data, hmapped, hflags, Or.inl ⟨rfl, hread, hview⟩⟩
  · rw [if_neg hread]
    exact wp_bind ⟨data, hdata, flags, data, hmapped, hflags, Or.inr ⟨rfl, hread, hwrite _⟩⟩

theorem copyoutLoop_spec {more dstva : Nat} {src : List UInt8} (hpt : mm.pagetable = some root)
    (hmore : src.length ≤ more) (hview : View img P.pool root mm.sz tf extra mapped h) :
    wp machine P (copyoutLoop img mm root more dstva src) (fun ok h' =>
      ∃ mapped', View img P.pool root mm.sz tf extra mapped' h' ∧ (P.exhausts ∨
        (ok, look mapped' mm.sz) = writePages more (look mapped mm.sz) dstva src)) h := by
  induction more generalizing dstva src h mapped with
  | zero =>
    rw [copyoutLoop, if_pos (List.length_eq_zero_iff.mp (Nat.le_zero.mp hmore))]
    exact ⟨mapped, hview, Or.inr rfl⟩
  | succ more ih =>
    rw [copyoutLoop, writePages]
    split
    · exact ⟨mapped, hview, Or.inr rfl⟩
    rename_i hsrc
    have hpos := List.length_pos_iff.mpr hsrc
    by_cases hmax : pgRoundDown dstva ≥ maxVa
    · have hnone : look mapped mm.sz (vpn dstva) = none := by
        obtain ⟨S, rfl, hlayout, -, rfl⟩ := hview
        have hv : ¬vpn dstva < userTop := by
          have htop : userTop = 2 ^ 26 - 2 := rfl
          unfold pgRoundDown pgSize maxVa at hmax
          unfold vpn pgSize
          omega
        have := hlayout.npages_le_userTop
        exact look_of_unmapped (by simp [Space.content, hv]) (by omega)
      simp only [if_pos hmax, hnone]
      exact ⟨mapped, hview, Or.inr rfl⟩
    simp only [if_neg hmax]
    refine wp_seq (userPage_spec hmem hpt hview (v := vpn dstva)) ?_
    rintro r h' hr
    cases r with
    | none =>
      refine ⟨mapped, hr.1, hr.2.2.imp id fun hnone => ?_⟩
      rw [hnone]
    | some pa0 =>
      obtain ⟨mapped', hfault, hr⟩ := hr
      refine wp_seq (hr.storeUser hmem (Nat.not_le.mp hmax) _) ?_
      rintro ok h' ⟨flags, data, hmapped, hflags, ⟨rfl, hread, hview'⟩ | ⟨rfl, hread, hnow⟩⟩
      · rw [← hfault.look, look_of_mapped hmapped hflags]
        simp only [if_pos hread]
        exact ⟨_, hview', Or.inr rfl⟩
      · rw [← hfault.look, look_of_mapped hmapped hflags, if_pos rfl]
        simp only [if_neg hread]
        rw [← look_write _ hflags]
        refine ih ?_ hnow
        have := sub_pgRoundDown_lt dstva
        rw [List.length_drop]
        omega

theorem copyinLoop_spec {more srcva len : Nat} (hpt : mm.pagetable = some root)
    (hmore : len ≤ more) (hview : View img P.pool root mm.sz tf extra mapped h) :
    wp machine P (copyinLoop img mm root more srcva len) (fun r h' =>
      ∃ mapped', View img P.pool root mm.sz tf extra mapped' h' ∧
        look mapped' mm.sz = look mapped mm.sz ∧
        (P.exhausts ∨ r = readPages (look mapped mm.sz) more srcva len)) h := by
  induction more generalizing srcva len h mapped with
  | zero =>
    rw [copyinLoop, if_pos (Nat.le_zero.mp hmore)]
    exact ⟨mapped, hview, rfl, Or.inr rfl⟩
  | succ more ih =>
    rw [copyinLoop, readPages]
    split
    · exact ⟨mapped, hview, rfl, Or.inr rfl⟩
    rename_i hlen
    refine wp_seq (userPage_spec hmem hpt hview (v := vpn srcva)) ?_
    rintro r h' hr
    cases r with
    | none =>
      refine ⟨mapped, hr.1, rfl, hr.2.2.imp id fun hnone => ?_⟩
      rw [hnone]
    | some pa0 =>
      obtain ⟨mapped', hfault, hr⟩ := hr
      rw [← hfault.look]
      obtain ⟨flags, data, hmapped, hflags, hdata, -⟩ := hr.held
      rw [look_of_mapped hmapped hflags]
      refine wp_bind ⟨data, hdata, wp_seq (ih ?_ hr.view) ?_⟩
      · have := sub_pgRoundDown_lt srcva
        omega
      · rintro r h'' ⟨mapped'', hview'', hlook'', hr⟩
        refine ⟨mapped'', hview'', hlook'', hr.imp id ?_⟩
        rintro rfl
        rfl

end Copy

end Xv6.Vm
