import Xv6.Vm.Space

/-! `walk`, and what can be done with the entry it finds. -/
namespace Xv6.Vm

open Lib

variable {img : Image} {P : Protocol sig} {h : Heap} {n x : Nat} {data : Data}

section Primitives

variable {α : Type}

theorem wp_load {post : Nat → Heap → Prop} (hdata : h (.page n) = some data)
    (hpost : post (word data x) h) : wp machine P (load n x) post h :=
  ⟨data, hdata, hpost⟩

theorem wp_store {post : Unit → Heap → Prop} {value : Nat} (hdata : h (.page n) = some data)
    (hpost : post () (Function.update h (.page n) (some (setWord data x value)))) :
    wp machine P (store n x value) post h :=
  ⟨data, hdata, hpost⟩

theorem wp_memset {post : Unit → Heap → Prop} {byte : UInt8} (hn : h (.page n) ≠ none)
    (hpost : post () (Function.update h (.page n) (some (filled byte)))) :
    wp machine P (memset n byte) post h := by
  obtain ⟨data, hdata⟩ := Option.ne_none_iff_exists'.mp hn
  exact ⟨data, hdata, hpost⟩

theorem wp_kalloc {post : Option Nat → Heap → Prop} (hmem : Manages img P.pool)
    (hnone : P.exhausts → post none h)
    (hsome : ∀ n, P.pool (.page n) → h (.page n) = none →
      post (some n) (Function.update h (.page n) (some (filled 5)))) :
    wp machine P kalloc post h := by
  refine ⟨hnone, fun c hc hfree => ?_⟩
  obtain ⟨n, rfl, -⟩ := hmem c hc
  exact hsome n hc hfree

theorem wp_kfree {post : Unit → Heap → Prop} (hmem : Manages img P.pool) (hpool : P.pool (.page n))
    (hn : h (.page n) ≠ none) (hpost : post () (Function.update h (.page n) none)) :
    wp machine P (kfree img n) post h := by
  obtain ⟨m, heq, hm⟩ := hmem _ hpool
  cases heq
  rw [kfree, if_pos hm]
  exact ⟨hpool, hn, hpost⟩

end Primitives

theorem Manages.fits {pool : Cell → Prop} (hmem : Manages img pool) (hpool : pool (.page n)) :
    n < 2 ^ 54 := by
  obtain ⟨m, heq, hm⟩ := hmem _ hpool
  cases heq
  have : n < physTop / pgSize := hm.2
  exact Nat.lt_trans this (by decide)

structure Space.Extends (S S' : Space) : Prop where
  root : S'.root = S.root
  leaf : S'.leaf = S.leaf
  table : ∀ l k n, S.table l k = some n → S'.table l k = some n

theorem Space.Extends.refl (S : Space) : S.Extends S := ⟨rfl, rfl, fun _ _ _ => id⟩

theorem Space.Extends.trans {S S' S'' : Space} (h : S.Extends S') (h' : S'.Extends S'') :
    S.Extends S'' :=
  ⟨h'.root.trans h.root, h'.leaf.trans h.leaf, fun l k n hn => h'.table l k n (h.table l k n hn)⟩

variable {S : Space} {extra : Nat → Prop}

theorem RepBy.congr_extra {loose : Prop} {pool : Cell → Prop} {extra' : Nat → Prop}
    (hrep : RepBy loose pool S extra h)
    (heq : ∀ n, extra' n ↔ extra n) : RepBy loose pool S extra' h := by
  have : extra' = extra := funext fun n => propext (heq n)
  rwa [this]

theorem RepBy.extra_iff {loose : Prop} {pool : Cell → Prop} {q : Nat}
    (hrep : RepBy loose pool S extra h)
    (hfree : h (.page q) = none) (m : Nat) : extra m ↔ (extra m ∨ m = q) ∧ m ≠ q :=
  ⟨fun hm => ⟨Or.inl hm, fun heq => hrep.holds_ne_none .extra (heq ▸ hm) hfree⟩,
    fun hm => hm.1.resolve_right hm.2⟩

section Kept

variable {loose : Prop} {pool : Cell → Prop} {S' : Space} {extra' : Nat → Prop} {h' h'' : Heap}

theorem Kept.refl : Kept S extra h h := fun _ _ => rfl

theorem Kept.trans (hk : Kept S extra h h') (hk' : Kept S extra h' h'') : Kept S extra h h'' :=
  fun n hn => (hk' n hn).trans (hk n hn)

theorem Kept.mono (hk : Kept S extra h h') (hsub : ∀ n, S'.dataPage extra' n → S.dataPage extra n) :
    Kept S' extra' h h' :=
  fun n hn => hk n (hsub n hn)

theorem Space.dataPage_congr (hleaf : S'.leaf = S.leaf) : S'.dataPage extra = S.dataPage extra := by
  funext n
  simp only [dataPage, holds, hleaf]

theorem Space.Extends.kept (hext : S.Extends S') (hk : Kept S extra h h') : Kept S' extra h h' :=
  hk.mono fun n hn => by rwa [← Space.dataPage_congr hext.leaf]

theorem RepBy.dataPage_ne_none (hrep : RepBy loose pool S extra h) (hn : S.dataPage extra n) :
    h (.page n) ≠ none := by
  rcases hn with ⟨v, hv⟩ | hn
  · exact hrep.holds_ne_none _ hv
  · exact hrep.holds_ne_none .extra hn

theorem RepBy.dataPage_ne_table (hrep : RepBy loose pool S extra h)
    (hn : S.dataPage extra n) {l k m : Nat}
    (hm : S.table l k = some m) : n ≠ m := by
  rintro rfl
  rcases hn with ⟨v, hv⟩ | hn
  · cases hrep.role_eq (.table l k) (.user v) hm hv
  · cases hrep.role_eq (.table l k) .extra hm hn

theorem RepBy.kept_table (hrep : RepBy loose pool S extra h) {l k m : Nat}
    (hm : S.table l k = some m)
    (content : Option Data) : Kept S extra h (Function.update h (.page m) content) :=
  fun _ hn => Function.update_of_ne (by simpa using hrep.dataPage_ne_table hn hm) ..

theorem RepBy.kept_free (hrep : RepBy loose pool S extra h) {q : Nat} (hfree : h (.page q) = none)
    (content : Option Data) : Kept S extra h (Function.update h (.page q) content) := by
  intro n hn
  refine Function.update_of_ne ?_ ..
  intro heq
  rw [← heq] at hfree
  exact hrep.dataPage_ne_none hn hfree

end Kept

section Walk

-- an address space may have pages that are not the allocator's
variable {loose : Prop} {pool : Cell → Prop} (hmem : Manages img P.pool)
  (hsub : ∀ c, P.pool c → pool c) (hrep : RepBy loose pool S extra h)
include hmem hsub hrep

theorem walkLevel_spec {l k : Nat} (alloc : Bool) (hl : l < 2) (hn : S.table (l + 1) k = some n)
    (hx : x < 512) :
    wp machine P (walkLevel n x alloc) (fun r h' =>
      ∃ S', RepBy loose pool S' extra h' ∧ S.Extends S' ∧
      r = S'.table l (k * 512 + x) ∧ (alloc = false → S' = S ∧ h' = h) ∧ Kept S' extra h h' ∧
      (alloc = true → r = none → P.exhausts)) h := by
  obtain ⟨data, hdata, hwords⟩ := hrep.stored hn
  have hword : Loosely (word data x) (tableEntry (S.table l (k * 512 + x))) := hwords x hx
  refine wp_bind (wp_load hdata ?_)
  rw [hword.valid]
  cases hchild : S.table l (k * 512 + x) with
  | some q =>
    rw [hchild] at hword
    rw [if_pos (by simp [tableEntry_valid]), hword.page (by simp [tableEntry_valid]),
      pte2pa_tableEntry]
    exact ⟨S, hrep, Space.Extends.refl S, hchild.symm, fun _ => ⟨rfl, rfl⟩, Kept.refl,
      by simp⟩
  | none =>
    rw [if_neg (by simp [tableEntry])]
    cases alloc with
    | false =>
      exact ⟨S, hrep, Space.Extends.refl S, hchild.symm, fun _ => ⟨rfl, rfl⟩, Kept.refl,
        by simp⟩
    | true =>
      refine wp_bind (wp_kalloc hmem (fun hshort => ?_) fun q hpool hfree => ?_)
      · exact ⟨S, hrep, Space.Extends.refl S, hchild.symm, by simp, Kept.refl,
          fun _ _ => hshort⟩
      · have hnq : (Cell.page n) ≠ .page q := by
          intro heq
          rw [← heq, hdata] at hfree
          cases hfree
        have hfresh := hrep.acquire (hsub _ hpool) hfree (filled 5)
        have hzero := hfresh.setExtra (n := q) (Or.inr rfl) (filled 0)
        have hstill : Function.update (Function.update h (.page q) (some (filled 5))) (.page q)
            (some (filled 0)) (.page n) = some data := by simpa [hnq] using hdata
        refine wp_bind (wp_memset (by simp) (wp_bind (wp_store hstill ?_)))
        · have hparent : S.table (l + 1) ((k * 512 + x) / 512) ≠ none := by
            rw [show (k * 512 + x) / 512 = k by omega, hn]
            simp
          refine ⟨S.addTable l (k * 512 + x) q hl hparent, ?_, ⟨rfl, rfl, ?_⟩, ?_, by simp,
            ?_, by simp⟩
          · exact (hzero.addTable hl hn hstill hx hchild (Or.inr rfl) (by simp) (hmem.fits hpool)
              hparent).congr_extra (hrep.extra_iff hfree)
          · intro l' k' m hm
            by_cases hl' : l' = l
            · subst hl'
              have hk' : k' ≠ k * 512 + x := by
                rintro rfl
                rw [hchild] at hm
                cases hm
              simpa [Space.addTable, hk'] using hm
            · simpa [Space.addTable, hl'] using hm
          · simp [Space.addTable]
          · rw [Function.update_idem, Function.update_comm hnq.symm]
            have hkept := hrep.kept_table hn (some (setWord data x (tableEntry (some q))))
            refine hkept.trans fun m hm => Function.update_of_ne ?_ ..
            intro heq
            rw [← heq] at hfree
            exact hrep.dataPage_ne_none hm hfree

theorem walk_spec {va : Nat} (alloc : Bool) (hva : va < maxVa) :
    wp machine P (walk S.root va alloc) (fun r h' =>
      ∃ S', RepBy loose pool S' extra h' ∧ S.Extends S' ∧
      r = (S'.table 0 (vpn va / 512)).map (fun n => (n, vpn va % 512)) ∧
      (alloc = false → S' = S ∧ h' = h) ∧ Kept S' extra h h' ∧
      (alloc = true → r = none → P.exhausts)) h := by
  have hpx0 : px 0 va = vpn va % 512 := by simpa using px_eq 0 va
  have hkey1 : 0 * 512 + px 2 va = vpn va / 512 ^ 2 := by
    have hlt := vpn_lt hva
    rw [px_eq, Nat.zero_mul, Nat.zero_add, Nat.mod_eq_of_lt]
    omega
  have hkey0 : vpn va / 512 ^ 2 * 512 + px 1 va = vpn va / 512 := by simpa using vpn_px 1 va
  unfold walk
  rw [if_neg (by omega)]
  refine wp_seq (walkLevel_spec hmem hsub hrep alloc (l := 1) (k := 0) (by decide) ?_
    (px_lt 2 va)) ?_
  · rw [S.table_root, if_pos rfl]
  rintro r h' ⟨S', hrep', hext, rfl, hsame, hkept, hshort⟩
  rw [hkey1] at hshort ⊢
  cases hmiddle : S'.table 1 (vpn va / 512 ^ 2) with
  | none =>
    refine ⟨S', hrep', hext, ?_, hsame, hkept, fun halloc _ => hshort halloc hmiddle⟩
    cases hlower : S'.table 0 (vpn va / 512) with
    | none => rfl
    | some n =>
      have := S'.parent 0 (vpn va / 512) (by decide) (by simp [hlower])
      rw [Nat.div_div_eq_div_mul] at this
      exact absurd hmiddle this
  | some middle =>
    refine wp_seq (walkLevel_spec hmem hsub hrep' alloc (l := 0) (by decide) hmiddle
      (px_lt 1 va)) ?_
    rintro r h'' ⟨S'', hrep'', hext', rfl, hsame', hkept', hshort'⟩
    rw [hkey0] at hshort' ⊢
    rw [hpx0]
    have hkept'' : Kept S'' extra h h'' := (hext'.kept hkept).trans hkept'
    have hboth : alloc = false → S'' = S ∧ h'' = h := by
      intro hno
      obtain ⟨rfl, rfl⟩ := hsame hno
      exact hsame' hno
    cases hlower : S''.table 0 (vpn va / 512) with
    | none =>
      exact ⟨S'', hrep'', hext.trans hext', by simp [hlower], hboth, hkept'',
        fun halloc _ => hshort' halloc hlower⟩
    | some lower =>
      exact ⟨S'', hrep'', hext.trans hext', by simp [hlower], hboth, hkept'', by simp⟩

end Walk

end Xv6.Vm
