import Xv6.Vm.Walk

/-! Mapping and unmapping: `mappages` for a page, `uvmunmap`, `uvmalloc` and
`uvmdealloc`. Below `userTop` a mapped page belongs to the address space. -/
namespace Xv6.Vm

open Lib

variable {img : Image} {loose : Prop} {pool : Cell → Prop} {P : Protocol sig}
  {h : Heap} {S S' S'' : Space}
  {extra : Nat → Prop}

/-- From `S` to `S'` exactly the entries of some pages changed. -/
structure Space.Remaps (S : Space) (leaf : Nat → Nat) (S' : Space) : Prop where
  root : S'.root = S.root
  leaf : S'.leaf = leaf
  table : ∀ l k n, S.table l k = some n → S'.table l k = some n

theorem Space.Extends.remaps (h : S.Extends S') : S.Remaps S.leaf S' := ⟨h.root, h.leaf, h.table⟩

theorem Space.Remaps.refl (S : Space) : S.Remaps S.leaf S := ⟨rfl, rfl, fun _ _ _ => id⟩

theorem Space.Remaps.trans {leaf leaf' : Nat → Nat} (h : S.Remaps leaf S')
    (h' : S'.Remaps leaf' S'') : S.Remaps leaf' S'' :=
  ⟨h'.root.trans h.root, h'.leaf, fun l k n hn => h'.table l k n (h.table l k n hn)⟩

structure Space.Unmaps (S : Space) (leaf : Nat → Nat) (S' : Space) : Prop
    extends S.Remaps leaf S' where
  same : S'.table = S.table

theorem Space.Unmaps.refl (S : Space) : S.Unmaps S.leaf S := ⟨Space.Remaps.refl S, rfl⟩

theorem Space.Unmaps.trans {leaf leaf' : Nat → Nat} (h : S.Unmaps leaf S')
    (h' : S'.Unmaps leaf' S'') : S.Unmaps leaf' S'' :=
  ⟨h.toRemaps.trans h'.toRemaps, h'.same.trans h.same⟩

theorem Space.leaf_eq_zero (S : Space) {v : Nat} (h : S.leaf v &&& pteV = 0) : S.leaf v = 0 := by
  by_contra hne
  exact (S.leafWord v hne).valid h

theorem RepBy.leaf (hrep : RepBy loose pool S extra h) {v n : Nat}
    (hn : S.table 0 (v / 512) = some n) :
    ∃ data, h (.page n) = some data ∧ Encodes loose (word data (v % 512)) (S.leaf v) := by
  obtain ⟨data, hdata, hwords⟩ := hrep.tables 0 _ n hn
  have hword := hwords _ (Nat.mod_lt v (by decide))
  rw [Nat.div_add_mod'] at hword
  exact ⟨data, hdata, hword⟩

theorem Space.word_eq (S : Space) {v w : Nat} (hw : Encodes loose w (S.leaf v))
    (hne : S.leaf v ≠ 0) : w = S.leaf v := hw.loosely.leaf (S.leafWord v hne).leaf

section SetLeaf

variable {v n pte : Nat} {data : Data} (hrep : RepBy loose pool S extra h)
  (hn : S.table 0 (v / 512) = some n) (hdata : h (.page n) = some data)
include hrep hn hdata

theorem RepBy.map (hzero : S.leaf v = 0) (hpte : LeafWord pte)
    (hextra : v < userTop → extra (pte2pa pte)) :
    ∃ S', S.Remaps (Function.update S.leaf v pte) S' ∧
      RepBy loose pool S' (fun m => extra m ∧ ¬(v < userTop ∧ m = pte2pa pte))
        (Function.update h (.page n) (some (setWord data (v % 512) pte))) := by
  refine ⟨S.setLeaf v pte (by simp [hn]) fun _ => hpte, ⟨rfl, rfl, fun _ _ _ => id⟩,
    hrep.setLeaf hn hdata (fun _ => hpte) ?_⟩
  have hne : pte ≠ 0 := fun h => hpte.valid (by simp [h])
  by_cases hv : v < userTop
  · refine hrep.owns.transfer (i := .extra) (.user v) (hextra hv) (fun role m => ?_)
      fun _ => Iff.rfl
    cases role with
    | table l k =>
      refine ⟨fun hm => Or.inl ⟨hm, ?_⟩, fun hm => ?_⟩
      · rintro rfl
        cases hrep.role_eq (.table l k) .extra hm (hextra hv)
      · rcases hm with ⟨hm, -⟩ | ⟨hm, -⟩
        · exact hm
        · cases hm
    | user u =>
      by_cases huv : u = v
      · subst huv
        simp [Space.holds, Space.setLeaf, hzero, hv, hne, eq_comm]
      · simp only [Space.holds, Space.setLeaf, Function.update_of_ne huv, Role.user.injEq, huv,
          false_and, or_false]
        refine ⟨fun hm => ⟨hm, ?_⟩, fun hm => hm.1⟩
        rintro rfl
        cases hrep.role_eq (.user u) .extra hm (hextra hv)
    | extra => simp [Space.holds, hv]
  · refine hrep.owns.congr (fun role m => ?_) fun _ => Iff.rfl
    cases role with
    | table l k => exact Iff.rfl
    | user u =>
      by_cases huv : u = v
      · simp [Space.holds, huv, hv]
      · simp [Space.holds, Space.setLeaf, huv]
    | extra => simp [Space.holds, hv]

theorem RepBy.unmap (hne : S.leaf v ≠ 0) :
    ∃ S', S.Unmaps (Function.update S.leaf v 0) S' ∧
      RepBy loose pool S' (fun m => extra m ∨ v < userTop ∧ m = pte2pa (S.leaf v))
        (Function.update h (.page n) (some (setWord data (v % 512) 0))) := by
  refine ⟨S.setLeaf v 0 (by simp [hn]) fun h => absurd rfl h, ⟨⟨rfl, rfl, fun _ _ _ => id⟩, rfl⟩,
    hrep.setLeaf hn hdata (fun h => absurd rfl h) ?_⟩
  by_cases hv : v < userTop
  · have huser : S.holds extra (.user v) (pte2pa (S.leaf v)) := ⟨hv, hne, rfl⟩
    refine hrep.owns.transfer (i := .user v) .extra huser (fun role m => ?_) fun _ => Iff.rfl
    cases role with
    | table l k =>
      refine ⟨fun hm => Or.inl ⟨hm, ?_⟩, fun hm => ?_⟩
      · rintro rfl
        cases hrep.role_eq (.table l k) (.user v) hm huser
      · rcases hm with ⟨hm, -⟩ | ⟨hm, -⟩
        · exact hm
        · cases hm
    | user u =>
      by_cases huv : u = v
      · subst huv
        simp [Space.holds, Space.setLeaf, hne]
        tauto
      · simp only [Space.holds, Space.setLeaf, Function.update_of_ne huv, reduceCtorEq, false_and,
          or_false]
        refine ⟨fun hm => ⟨hm, ?_⟩, fun hm => hm.1⟩
        rintro rfl
        cases hrep.role_eq (.user u) (.user v) hm huser
        exact huv rfl
    | extra =>
      simp only [Space.holds, hv, true_and]
      refine ⟨fun hm => ?_, fun hm => ?_⟩
      · by_cases hmv : m = pte2pa (S.leaf v)
        · exact Or.inr hmv
        · exact Or.inl ⟨hm.resolve_right hmv, hmv⟩
      · exact hm.imp And.left id
  · refine hrep.owns.congr (fun role m => ?_) fun _ => Iff.rfl
    cases role with
    | table l k => exact Iff.rfl
    | user u =>
      by_cases huv : u = v
      · simp [Space.holds, huv, hv]
      · simp [Space.holds, Space.setLeaf, huv]
    | extra => simp [Space.holds, hv]

theorem RepBy.reflag (hne : S.leaf v ≠ 0) (hpte : LeafWord pte)
    (hpage : pte2pa pte = pte2pa (S.leaf v)) :
    ∃ S', S.Remaps (Function.update S.leaf v pte) S' ∧
      RepBy loose pool S' extra (Function.update h (.page n)
        (some (setWord data (v % 512) pte))) := by
  refine ⟨S.setLeaf v pte (by simp [hn]) fun _ => hpte, ⟨rfl, rfl, fun _ _ _ => id⟩,
    hrep.setLeaf hn hdata (fun _ => hpte) ?_⟩
  have hne' : pte ≠ 0 := fun h => hpte.valid (by simp [h])
  refine hrep.owns.congr (fun role m => ?_) fun _ => Iff.rfl
  cases role with
  | table l k => exact Iff.rfl
  | user u =>
    by_cases huv : u = v
    · simp [Space.holds, Space.setLeaf, huv, hne, hne', hpage]
    · simp [Space.holds, Space.setLeaf, huv]
  | extra => exact Iff.rfl

end SetLeaf

section Entry

variable {pa perm : Nat} (hperm : perm < 1024)
include hperm

theorem pte2pa_entry (pa : Nat) : pte2pa (pa2pte pa ||| perm ||| pteV) = pa := by
  rw [Nat.or_assoc]
  exact pte2pa_or pa (Nat.or_lt_two_pow (n := 10) hperm (by decide))

theorem entry_and_mask (pa : Nat) {mask : Nat} (hmask : 1023 &&& mask = mask) :
    (pa2pte pa ||| perm ||| pteV) &&& mask = (perm ||| pteV) &&& mask := by
  rw [Nat.or_assoc]
  exact or_and_mask pa (Nat.or_lt_two_pow (n := 10) hperm (by decide)) hmask

theorem leafWord_entry (hpa : pa < 2 ^ 54) (hleaf : perm &&& leafBits ≠ 0) :
    LeafWord (pa2pte pa ||| perm ||| pteV) where
  fits := by
    rw [Nat.or_assoc]
    exact pa2pte_or_lt hpa (Nat.or_lt_two_pow (n := 10) hperm (by decide))
  valid := by
    rw [entry_and_mask hperm pa (by decide), Nat.and_or_distrib_right]
    exact fun h => absurd (Nat.or_eq_zero_iff.mp h).2 (by decide)
  leaf := by
    rw [entry_and_mask hperm pa (by decide), Nat.and_or_distrib_right]
    exact fun h => hleaf (Nat.or_eq_zero_iff.mp h).1

end Entry

section Map

variable (hmem : Manages img P.pool) (hsub : ∀ c, P.pool c → pool c)
  (hrep : RepBy loose pool S extra h)
include hmem hsub hrep

theorem mappages_word {v pa perm : Nat} (hv : v < 2 ^ 26) (hzero : S.leaf v = 0) :
    wp machine P (mappages S.root (v * pgSize) pgSize pa perm) (fun ok h' => ∃ S' h₁,
      S.Extends S' ∧ RepBy loose pool S' extra h₁ ∧ Kept S extra h h₁ ∧
      if ok then ∃ n data, S'.table 0 (v / 512) = some n ∧ h₁ (.page n) = some data ∧
        h' = Function.update h₁ (.page n)
          (some (setWord data (v % 512) (pa2pte pa ||| perm ||| pteV)))
      else P.exhausts ∧ h' = h₁) h := by
  have hva : v * pgSize < maxVa := by
    unfold pgSize maxVa
    omega
  rw [mappages, if_neg (by simp), if_neg (by decide)]
  simp only [Nat.div_self (show 0 < pgSize by decide), Nat.sub_self, mapLoop]
  refine wp_seq (walk_spec hmem hsub hrep true hva) ?_
  rintro r h' ⟨S', hrep', hext, rfl, -, hkept, hshort⟩
  rw [vpn_mul] at hshort ⊢
  have hkept : Kept S extra h h' := hkept.mono fun n hn => by rwa [Space.dataPage_congr hext.leaf]
  cases hn : S'.table 0 (v / 512) with
  | none => exact ⟨S', h', hext, hrep', hkept, hshort rfl (by rw [hn]; rfl), rfl⟩
  | some n =>
    obtain ⟨data, hdata, hword⟩ := hrep'.leaf hn
    have hzero' : S'.leaf v = 0 := by rw [hext.leaf, hzero]
    refine wp_bind (wp_load hdata ?_)
    rw [hword.loosely.valid, hzero', if_neg (by simp)]
    exact wp_bind (wp_store hdata ⟨S', h', hext, hrep', hkept, n, data, hn, hdata, rfl⟩)

theorem mappages_spec {v pa perm : Nat} (hv : v < 2 ^ 26) (hzero : S.leaf v = 0)
    (hperm : perm < 1024) (hleaf : perm &&& leafBits ≠ 0) (hpa : pa < 2 ^ 54)
    (hextra : v < userTop → extra pa) :
    wp machine P (mappages S.root (v * pgSize) pgSize pa perm) (fun ok h' => ∃ S',
      Kept S extra h h' ∧
      if ok then S.Remaps (Function.update S.leaf v (pa2pte pa ||| perm ||| pteV)) S' ∧
        RepBy loose pool S' (fun m => extra m ∧ ¬(v < userTop ∧ m = pa)) h'
      else P.exhausts ∧ S.Remaps S.leaf S' ∧ RepBy loose pool S' extra h') h := by
  refine wp_mono (mappages_word hmem hsub hrep hv hzero) ?_
  rintro ok h' ⟨S', h₁, hext, hrep', hkept, hdone⟩
  cases ok with
  | false =>
    obtain ⟨hshort, rfl⟩ := hdone
    exact ⟨S', hkept, hshort, hext.remaps, hrep'⟩
  | true =>
    obtain ⟨n, data, hn, hdata, rfl⟩ := hdone
    have hzero' : S'.leaf v = 0 := by rw [hext.leaf, hzero]
    rw [← pte2pa_entry hperm pa] at hextra
    obtain ⟨S'', hmap, hrep''⟩ :=
      hrep'.map hn hdata hzero' (leafWord_entry hperm hpa hleaf) hextra
    rw [pte2pa_entry hperm pa] at hrep''
    refine ⟨S'', hkept.trans ?_, ?_, hrep''⟩
    · refine (hrep'.kept_table hn _).mono fun n hn => ?_
      rwa [Space.dataPage_congr hext.leaf]
    rw [hext.leaf] at hmap
    exact hext.remaps.trans hmap

end Map

def cleared (leaf : Nat → Nat) (lo hi : Nat) (u : Nat) : Nat :=
  if lo ≤ u ∧ u < hi then 0 else leaf u

theorem cleared_self {leaf : Nat → Nat} {lo hi : Nat} (h : hi ≤ lo) :
    cleared leaf lo hi = leaf := by
  funext u
  rw [cleared, if_neg (by omega)]

theorem cleared_update (leaf : Nat → Nat) {lo hi : Nat} (h : lo < hi) :
    cleared (Function.update leaf lo 0) (lo + 1) hi = cleared leaf lo hi := by
  funext u
  unfold cleared
  by_cases hu : u = lo
  · subst hu
    simp [h]
  · rw [Function.update_of_ne hu]
    have : (lo + 1 ≤ u ∧ u < hi) ↔ (lo ≤ u ∧ u < hi) := by omega
    simp only [this]

theorem Space.Remaps.dataPage_of_le {leaf : Nat → Nat} (hmap : S.Remaps leaf S')
    (hle : ∀ u, leaf u ≠ 0 → leaf u = S.leaf u) {n : Nat} (hn : S'.dataPage extra n) :
    S.dataPage extra n := by
  rcases hn with ⟨u, hu, hne, hpage⟩ | hn
  · rw [hmap.leaf] at hne hpage
    refine Or.inl ⟨u, hu, ?_, ?_⟩
    · rwa [← hle u hne]
    · rwa [← hle u hne]
  · exact Or.inr hn

theorem cleared_le {leaf : Nat → Nat} {lo hi : Nat} (u : Nat) (hne : cleared leaf lo hi u ≠ 0) :
    cleared leaf lo hi u = leaf u := by
  unfold cleared at *
  split at hne
  · exact absurd rfl hne
  · rename_i hu
    rw [if_neg hu]

section Detach

def Space.detached (S : Space) (extra : Nat → Prop) (v : Nat) (doFree : Bool) (m : Nat) : Prop :=
  (extra m ∨ S.leaf v ≠ 0 ∧ v < userTop ∧ m = pte2pa (S.leaf v)) ∧
    ¬(doFree = true ∧ S.leaf v ≠ 0 ∧ m = pte2pa (S.leaf v))

theorem Space.detached_unmapped {v : Nat} (hzero : S.leaf v = 0) (doFree : Bool) :
    S.detached extra v doFree = extra := by
  funext m
  simp [Space.detached, hzero]

variable (hmem : Manages img P.pool) (hsub : ∀ c, P.pool c → pool c)
  (hrep : RepBy loose pool S extra h)
  {doFree : Bool}
include hmem hsub hrep

theorem unmapPage_wide {v : Nat} (hv : v < 2 ^ 26)
    (hfree : doFree = true → S.leaf v ≠ 0 → P.pool (.page (pte2pa (S.leaf v))) ∧
      (v < userTop ∨ extra (pte2pa (S.leaf v)))) :
    wp machine P (unmapPage img S.root (v * pgSize) doFree) (fun _ h' => ∃ S',
      S.Unmaps (Function.update S.leaf v 0) S' ∧
        RepBy loose pool S' (S.detached extra v doFree) h' ∧
      Kept S' (S.detached extra v doFree) h h') h := by
  have hva : v * pgSize < maxVa := by
    unfold pgSize maxVa
    omega
  have hsame : S.leaf v = 0 → ∃ S', S.Unmaps (Function.update S.leaf v 0) S' ∧
      RepBy loose pool S' (S.detached extra v doFree) h ∧
        Kept S' (S.detached extra v doFree) h h := by
    intro hzero
    refine ⟨S, ?_, ?_, Kept.refl⟩
    · rw [← hzero, Function.update_eq_self]
      exact Space.Unmaps.refl S
    · rwa [Space.detached_unmapped hzero]
  refine wp_seq (walk_spec hmem hsub hrep false hva) ?_
  rintro r h' ⟨S', -, -, rfl, hno, -⟩
  obtain ⟨rfl, rfl⟩ := hno rfl
  rw [vpn_mul]
  cases hn : S'.table 0 (v / 512) with
  | none =>
    refine hsame ?_
    by_contra hne
    exact S'.lower v hne hn
  | some n =>
    obtain ⟨data, hdata, hword⟩ := hrep.leaf hn
    refine wp_bind (wp_load hdata ?_)
    rw [hword.loosely.valid]
    by_cases hvalid : S'.leaf v &&& pteV = 0
    · rw [if_pos hvalid]
      exact hsame (S'.leaf_eq_zero hvalid)
    · have hne : S'.leaf v ≠ 0 := fun h => hvalid (by simp [h])
      rw [S'.word_eq hword hne]
      obtain ⟨S'', hunmap, hrep'⟩ := hrep.unmap hn hdata hne
      -- pages that have a role afterwards are not the table that was written to
      have hdata' : ∀ m, S''.dataPage (fun m => extra m ∨ v < userTop ∧ m = pte2pa (S'.leaf v)) m →
          Function.update h' (.page n) (some (setWord data (v % 512) 0)) (.page m) =
            h' (.page m) := by
        intro m hm
        have htab : S''.table 0 (v / 512) = some n := by rw [hunmap.same, hn]
        exact Function.update_of_ne (by simpa using hrep'.dataPage_ne_table hm htab) ..
      rw [if_neg hvalid]
      cases doFree with
      | false =>
        have hextra : ∀ m, S'.detached extra v false m ↔
            extra m ∨ v < userTop ∧ m = pte2pa (S'.leaf v) := by
          intro m
          simp [Space.detached, hne]
        refine wp_store hdata ⟨S'', hunmap, hrep'.congr_extra hextra, fun m hm => hdata' m ?_⟩
        exact hm.imp id (hextra m).mp
      | true =>
        obtain ⟨hpool, hplace⟩ := hfree rfl hne
        obtain ⟨role, hrole, hnot⟩ : ∃ role, S'.holds extra role (pte2pa (S'.leaf v)) ∧
            ∀ l k, role ≠ .table l k := by
          rcases hplace with hlt | hat
          · exact ⟨.user v, ⟨hlt, hne, rfl⟩, by simp⟩
          · exact ⟨.extra, hat, by simp⟩
        have hother : (Cell.page n) ≠ .page (pte2pa (S'.leaf v)) := by
          intro heq
          cases heq
          exact hnot _ _ (hrep.role_eq role (.table 0 (v / 512)) hrole hn)
        have hstill : Function.update h' (.page (pte2pa (S'.leaf v))) none (.page n) = some data :=
          (Function.update_of_ne hother ..).trans hdata
        have hextra : ∀ m, S'.detached extra v true m ↔
            (extra m ∨ v < userTop ∧ m = pte2pa (S'.leaf v)) ∧ m ≠ pte2pa (S'.leaf v) := by
          intro m
          simp [Space.detached, hne]
        refine wp_bind (wp_kfree hmem hpool (hrep.holds_ne_none _ hrole) ?_)
        refine wp_store hstill ⟨S'', hunmap, ?_, fun m hm => ?_⟩
        · rw [Function.update_comm hother.symm]
          exact (hrep'.release (hplace.symm.imp id fun hlt => ⟨hlt, rfl⟩)).congr_extra hextra
        · rw [Function.update_comm hother.symm, Function.update_of_ne]
          · exact hdata' m (hm.imp id fun h => ((hextra m).mp h).1)
          -- the freed page has no other role
          rintro ⟨rfl⟩
          rcases hm with ⟨u, hut, hune, hupage⟩ | hm
          · have huv : u ≠ v := by
              rintro rfl
              rw [hunmap.leaf, Function.update_self] at hune
              exact hune rfl
            rw [hunmap.leaf, Function.update_of_ne huv] at hune hupage
            rcases hplace with hlt | hat
            · cases hrep.role_eq (.user u) (.user v) ⟨hut, hune, hupage⟩ ⟨hlt, hne, rfl⟩
              exact huv rfl
            · cases hrep.role_eq (.user u) .extra ⟨hut, hune, hupage⟩ hat
          · exact ((hextra _).mp hm).2 rfl

end Detach

section Unmap

variable (hmem : Manages img P.pool) (hrep : Rep P.pool S extra h) {doFree : Bool}
include hmem hrep

theorem unmapPage_spec {v : Nat} (hv : v < 2 ^ 26)
    (hfree : if doFree then v < userTop else userTop ≤ v) :
    wp machine P (unmapPage img S.root (v * pgSize) doFree) (fun _ h' => ∃ S',
      S.Unmaps (Function.update S.leaf v 0) S' ∧ Rep P.pool S' extra h' ∧
      Kept S' extra h h') h := by
  have hsame : S.detached extra v doFree = extra := by
    funext m
    by_cases hzero : S.leaf v = 0
    · rw [Space.detached_unmapped hzero]
    cases doFree with
    | false =>
      have : ¬v < userTop := Nat.not_lt.mpr hfree
      simp [Space.detached, this]
    | true =>
      have huser : S.holds extra (.user v) (pte2pa (S.leaf v)) := ⟨hfree, hzero, rfl⟩
      have hnot : ¬extra (pte2pa (S.leaf v)) := by
        intro hm
        cases hrep.role_eq .extra (.user v) hm huser
      simp only [Space.detached, ne_eq, hzero, not_false_eq_true, true_and, eq_iff_iff]
      constructor
      · rintro ⟨hm | ⟨-, hm⟩, hne⟩
        · exact hm
        · exact absurd hm hne
      · intro hm
        refine ⟨Or.inl hm, ?_⟩
        rintro rfl
        exact hnot hm
  have hplace : doFree = true → S.leaf v ≠ 0 → P.pool (.page (pte2pa (S.leaf v))) ∧
      (v < userTop ∨ extra (pte2pa (S.leaf v))) := by
    intro hdo hne
    rw [hdo, if_pos rfl] at hfree
    exact ⟨hrep.inPool (.user v) ⟨hfree, hne, rfl⟩, Or.inl hfree⟩
  have hwide := unmapPage_wide hmem (fun _ => id) hrep hv hplace
  rwa [hsame] at hwide

omit hrep in
theorem unmapLoop_spec {n v : Nat} (hrep : Rep P.pool S extra h) (hv : v + n ≤ 2 ^ 26)
    (hfree : if doFree then v + n ≤ userTop else userTop ≤ v) :
    wp machine P (unmapLoop img S.root doFree n (v * pgSize)) (fun _ h' => ∃ S',
      S.Unmaps (cleared S.leaf v (v + n)) S' ∧ Rep P.pool S' extra h' ∧ Kept S' extra h h') h := by
  induction n generalizing S h v with
  | zero =>
    refine ⟨S, ?_, hrep, Kept.refl⟩
    rw [cleared_self (by omega)]
    exact Space.Unmaps.refl S
  | succ n ih =>
    refine wp_seq (unmapPage_spec hmem hrep (v := v) (by omega) ?_) ?_
    · cases doFree with
      | true => exact Nat.lt_of_lt_of_le (by omega) hfree
      | false => exact hfree
    rintro - h' ⟨S', hunmap, hrep', hkept⟩
    rw [← hunmap.root, show v * pgSize + pgSize = (v + 1) * pgSize by rw [Nat.add_mul, Nat.one_mul]]
    refine wp_mono (ih hrep' (v := v + 1) (by omega) ?_) ?_
    · cases doFree with
      | true => exact (show v + 1 + n = v + (n + 1) by omega) ▸ hfree
      | false => exact Nat.le_succ_of_le hfree
    rintro - h'' ⟨S'', hrest, hrep'', hkept'⟩
    refine ⟨S'', ?_, hrep'', (hkept.mono fun m => hrest.dataPage_of_le cleared_le).trans
      hkept'⟩
    rw [hunmap.leaf, show v + 1 + n = v + (n + 1) by omega, cleared_update _ (by omega)] at hrest
    exact hunmap.trans hrest

theorem uvmunmap_spec {n v : Nat} (hv : v + n ≤ 2 ^ 26)
    (hfree : if doFree then v + n ≤ userTop else userTop ≤ v) :
    wp machine P (uvmunmap img S.root (v * pgSize) n doFree) (fun _ h' => ∃ S',
      S.Unmaps (cleared S.leaf v (v + n)) S' ∧ Rep P.pool S' extra h' ∧ Kept S' extra h h') h := by
  rw [uvmunmap, if_neg (by simp)]
  exact unmapLoop_spec hmem hrep hv hfree

theorem uvmdealloc_spec {oldsz newsz : Nat} (hold : npages oldsz ≤ userTop) :
    wp machine P (uvmdealloc img S.root oldsz newsz) (fun r h' => r = min oldsz newsz ∧ ∃ S',
      S.Unmaps (cleared S.leaf (npages newsz) (npages oldsz)) S' ∧ Rep P.pool S' extra h' ∧
      Kept S' extra h h') h := by
  have htop : userTop = 2 ^ 26 - 2 := rfl
  unfold uvmdealloc
  by_cases hge : newsz ≥ oldsz
  · rw [if_pos hge]
    refine ⟨(Nat.min_eq_left hge).symm, S, ?_, hrep, Kept.refl⟩
    rw [cleared_self (npages_mono hge)]
    exact Space.Unmaps.refl S
  · have hsmall : oldsz + pgSize ≤ 2 ^ 64 := by
      have := npages_le.mp hold
      unfold pgSize at *
      omega
    have hmono := npages_mono (Nat.le_of_not_le hge)
    have hmin : newsz = min oldsz newsz := (Nat.min_eq_right (Nat.le_of_not_le hge)).symm
    rw [if_neg hge, pgRoundUp_npages hsmall, pgRoundUp_npages (by omega)]
    split
    · rw [← Nat.sub_mul, Nat.mul_div_cancel _ (by decide)]
      have hrange : npages newsz + (npages oldsz - npages newsz) = npages oldsz := by omega
      refine wp_seq (uvmunmap_spec hmem hrep (by omega) (by simpa [hrange] using hold)) ?_
      rintro - h' ⟨S', hunmap, hrep'⟩
      rw [hrange] at hunmap
      exact ⟨hmin, S', hunmap, hrep'⟩
    · rename_i hsame
      refine ⟨hmin, S, ?_, hrep, Kept.refl⟩
      rw [cleared_self (Nat.le_of_mul_le_mul_right (Nat.not_lt.mp hsame) (by decide))]
      exact Space.Unmaps.refl S

end Unmap

end Xv6.Vm
