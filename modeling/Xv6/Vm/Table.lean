import Xv6.Vm.Free
import Xv6.Vm.Observe

/-! A page table is a finite map. The tables in memory form a tree of distinct pages; the
map takes a virtual page to its valid entry, and `walk`, `mappages`, `uvmunmap` and
`freewalk` are lookup, insertion, deletion and disposal. -/
namespace Xv6.Vm

open Lib

variable {img : Image} {P : Protocol sig} {loose : Prop} {pool : Cell → Prop}
  {h : Heap} {S S' : Space} {extra : Nat → Prop} {s s' : Alone sig} {root : Nat}
  {mem : Cell → Data}

def leafMap (mem : Cell → Data) (root v : Nat) : Option Nat :=
  if entryIn mem root v &&& pteV = 0 then none else some (entryIn mem root v)

/-- A page table in memory, with the pages it maps. Words that are not valid may hold
anything, and those of the upper tables may have any flags but those of a leaf. -/
structure PageTable (img : Image) (s : Alone sig) (root : Nat) : Prop where
  allocator : s.Has (ram img) Heaplet.empty
  distinct : ∀ d k d' k' n, d ≤ 2 → d' ≤ 2 → tableIn s.mem root d k = some n →
    tableIn s.mem root d' k' = some n → d = d' ∧ k = k'
  tables : ∀ d k n, d ≤ 2 → tableIn s.mem root d k = some n → img.managed n ∧ .page n ∉ s.free
  inner : ∀ d k n x, d < 2 → tableIn s.mem root d k = some n → x < 512 →
    word (s.mem (.page n)) x &&& pteV ≠ 0 → word (s.mem (.page n)) x &&& leafBits = 0
  leaves : ∀ v pte, leafMap s.mem root v = some pte → pte &&& leafBits ≠ 0
  injective : ∀ v v' pte pte', leafMap s.mem root v = some pte →
    leafMap s.mem root v' = some pte' → pte2pa pte = pte2pa pte' → v = v'
  apart : ∀ v pte d k, leafMap s.mem root v = some pte → d ≤ 2 →
    tableIn s.mem root d k ≠ some (pte2pa pte)
  held : ∀ v pte, leafMap s.mem root v = some pte → .page (pte2pa pte) ∉ s.free

structure Outside (s : Alone sig) (root n : Nat) : Prop where
  free : .page n ∉ s.free
  tables : ∀ d k, d ≤ 2 → tableIn s.mem root d k ≠ some n
  leaves : ∀ v pte, leafMap s.mem root v = some pte → pte2pa pte ≠ n

def Space.map (S : Space) (v : Nat) : Option Nat := if S.leaf v = 0 then none else some (S.leaf v)

theorem Space.map_of_encodes (S : Space) {v w : Nat} (hw : Encodes loose w (S.leaf v)) :
    (if w &&& pteV = 0 then none else some w) = S.map v := by
  unfold Space.map
  by_cases hzero : S.leaf v = 0
  · rw [hw.loosely.valid, if_pos (by simp [hzero]), if_pos hzero]
  · rw [S.word_eq hw hzero, if_neg ((S.valid_iff v).mpr hzero), if_neg hzero]

theorem RepBy.leafMap_eq (hrep : RepBy loose pool S extra h)
    (hmem : ∀ c x, h c = some x → mem c = x) : leafMap mem S.root = S.map :=
  funext fun v => S.map_of_encodes (hrep.entryIn_encodes hmem v)

theorem RepBy.leafMap_store (hrep : RepBy loose pool S extra h) {v n pte : Nat} {data : Data}
    (hn : S.table 0 (v / 512) = some n) (hdata : h (.page n) = some data) (hfits : pte < 2 ^ 64)
    (hvalid : pte &&& pteV ≠ 0) (hmem : ∀ c x, Function.update h (.page n)
      (some (setWord data (v % 512) pte)) c = some x → mem c = x) :
    leafMap mem S.root = Function.update S.map v (some pte) := by
  have hwritten : mem (.page n) = setWord data (v % 512) pte := hmem _ _ (Function.update_self ..)
  have hother : ∀ {m x}, m ≠ n → h (.page m) = some x → mem (.page m) = x := by
    intro m x hne hx
    exact hmem _ _ ((Function.update_of_ne (by simpa using hne) ..).trans hx)
  -- the tables above are not the one that was written to
  have htable : ∀ k, tableIn mem S.root 2 k = S.table 0 k := by
    refine S.tableIn_eq (fun l k m x hm hx => ?_) (Nat.le_refl 2)
    have hne : m ≠ n := by
      rintro rfl
      cases hrep.role_eq (.table (l + 1) k) (.table 0 (v / 512)) hm hn
    obtain ⟨above, habove, hwords⟩ := hrep.stored hm
    rw [hother hne habove]
    exact hwords x hx
  have hentry : ∀ {u m}, S.table 0 (u / 512) = some m →
      entryIn mem S.root u = word (mem (.page m)) (u % 512) := by
    intro u m hm
    unfold entryIn
    rw [htable, hm]
  funext u
  by_cases huv : u = v
  · subst huv
    have hself : entryIn mem S.root u = pte := by
      rw [hentry hn, hwritten, word_setWord_self _ (Nat.mod_lt u (by decide)) hfits]
    rw [Function.update_self, leafMap, hself, if_neg hvalid]
  rw [Function.update_of_ne huv]
  have hword : Encodes loose (entryIn mem S.root u) (S.leaf u) := by
    cases hm : S.table 0 (u / 512) with
    | none =>
      have hzero : S.leaf u = 0 := by
        by_contra hne
        exact S.lower u hne hm
      have hnothing : entryIn mem S.root u = 0 := by
        unfold entryIn
        rw [htable, hm]
      rw [hzero, hnothing]
      exact Encodes.refl 0
    | some m =>
      obtain ⟨lower, hlower, hword⟩ := hrep.leaf hm
      rw [hentry hm]
      by_cases hmn : m = n
      · subst hmn
        obtain ⟨-, hkey⟩ := Role.table.inj (hrep.role_eq (.table 0 _) (.table 0 _) hm hn)
        obtain rfl : lower = data := Option.some.inj (hlower.symm.trans hdata)
        rw [hwritten, word_setWord_of_ne _ _ (by omega)]
        exact hword
      · rw [hother hmn hlower]
        exact hword
  exact S.map_of_encodes hword

section Represent

def anyPage (c : Cell) : Prop := ∃ n, c = .page n

def Space.high (S : Space) (n : Nat) : Prop :=
  ∃ v, userTop ≤ v ∧ S.leaf v ≠ 0 ∧ n = pte2pa (S.leaf v)

theorem tableIn_parent {d k : Nat} (h : tableIn mem root (d + 1) k ≠ none) :
    tableIn mem root d (k / 512) ≠ none := by
  intro hnone
  rw [tableIn, hnone] at h
  exact h rfl

theorem leafMap_getD_ne_zero {v : Nat} (hne : (leafMap mem root v).getD 0 ≠ 0) :
    leafMap mem root v = some ((leafMap mem root v).getD 0) := by
  cases hv : leafMap mem root v with
  | none => simp [hv] at hne
  | some pte => rfl

theorem entryIn_lt (v : Nat) : entryIn mem root v < 2 ^ 64 := by
  unfold entryIn
  split
  · decide
  · exact Bytes.getLE_lt _ _ 8

theorem leafMap_some {v pte : Nat} (hv : leafMap mem root v = some pte) :
    entryIn mem root v = pte ∧ pte &&& pteV ≠ 0 ∧ pte < 2 ^ 64 := by
  unfold leafMap at hv
  split at hv
  · cases hv
  · rename_i hvalid
    cases hv
    exact ⟨rfl, hvalid, entryIn_lt v⟩

def PageTable.space (hpt : PageTable img s root) : Space where
  root := root
  table l k := if l ≤ 2 then tableIn s.mem root (2 - l) k else none
  leaf v := (leafMap s.mem root v).getD 0
  table_root k := by
    rw [if_pos (Nat.le_refl 2)]
    rfl
  table_top l k hl := if_neg (by omega)
  parent l k hl h := by
    rw [if_pos (by omega), show 2 - l = 2 - (l + 1) + 1 by omega] at h
    rw [if_pos (by omega)]
    exact tableIn_parent h
  lower v h := by
    obtain ⟨heq, hvalid, -⟩ := leafMap_some (leafMap_getD_ne_zero h)
    rw [if_pos (Nat.zero_le 2)]
    intro hnone
    rw [← heq, entryIn, hnone] at hvalid
    exact hvalid (Nat.zero_and pteV)
  leafWord v h := by
    have hsome := leafMap_getD_ne_zero h
    obtain ⟨-, hvalid, hfits⟩ := leafMap_some hsome
    exact ⟨hfits, hvalid, hpt.leaves v _ hsome⟩

open Classical in
noncomputable def PageTable.heap (hpt : PageTable img s root) (also : Nat → Prop) : Heap
  | .page n =>
      if (∃ l k, hpt.space.table l k = some n) ∨
          (∃ v, hpt.space.leaf v ≠ 0 ∧ n = pte2pa (hpt.space.leaf v)) ∨ also n then
        some (s.mem (.page n))
      else none

variable (hpt : PageTable img s root) {also : Nat → Prop}

theorem PageTable.space_table {l k n : Nat} (hn : hpt.space.table l k = some n) :
    l ≤ 2 ∧ tableIn s.mem root (2 - l) k = some n := by
  have hl : l ≤ 2 := hpt.space.level_le hn
  have hif : (if l ≤ 2 then tableIn s.mem root (2 - l) k else none) = some n := hn
  rw [if_pos hl] at hif
  exact ⟨hl, hif⟩

theorem PageTable.space_leaf {v : Nat} (hne : hpt.space.leaf v ≠ 0) :
    leafMap s.mem root v = some (hpt.space.leaf v) := leafMap_getD_ne_zero hne

theorem PageTable.space_map : hpt.space.map = leafMap s.mem root := by
  funext v
  unfold Space.map
  by_cases hzero : hpt.space.leaf v = 0
  · rw [if_pos hzero]
    cases hv : leafMap s.mem root v with
    | none => rfl
    | some pte =>
      have hpte : hpt.space.leaf v = pte := congrArg (Option.getD · 0) hv
      obtain ⟨-, hvalid, -⟩ := leafMap_some hv
      rw [← hpte, hzero] at hvalid
      exact absurd rfl hvalid
  · rw [if_neg hzero, hpt.space_leaf hzero]

theorem PageTable.space_leaf_of {v pte : Nat} (hv : leafMap s.mem root v = some pte) :
    hpt.space.leaf v = pte ∧ hpt.space.leaf v ≠ 0 := by
  have hpte : hpt.space.leaf v = pte := congrArg (Option.getD · 0) hv
  refine ⟨hpte, fun hzero => ?_⟩
  obtain ⟨-, hvalid, -⟩ := leafMap_some hv
  rw [← hpte, hzero] at hvalid
  exact hvalid rfl

theorem PageTable.space_leaf_none {v : Nat} (hv : leafMap s.mem root v = none) :
    hpt.space.leaf v = 0 := congrArg (Option.getD · 0) hv

theorem PageTable.space_injective {v v' : Nat} (hne : hpt.space.leaf v ≠ 0)
    (hne' : hpt.space.leaf v' ≠ 0)
    (heq : pte2pa (hpt.space.leaf v) = pte2pa (hpt.space.leaf v')) : v = v' :=
  hpt.injective v v' _ _ (hpt.space_leaf hne) (hpt.space_leaf hne') heq

theorem PageTable.heap_page (n : Nat) : hpt.heap also (.page n) ≠ none ↔
    (∃ l k, hpt.space.table l k = some n) ∨
      (∃ v, hpt.space.leaf v ≠ 0 ∧ n = pte2pa (hpt.space.leaf v)) ∨ also n := by
  simp only [heap, ne_eq, ite_eq_right_iff, reduceCtorEq, imp_false, not_not]

theorem PageTable.heap_mem {c : Cell} {x : Data} (hx : hpt.heap also c = some x) :
    s.mem c = x := by
  cases c with
  | page n =>
    simp only [heap] at hx
    split at hx
    · exact Option.some.inj hx
    · cases hx

variable (halso : ∀ n, also n → Outside s root n)
include halso

theorem PageTable.has : s.Has (ram img) (hpt.heap also) where
  nodup := hpt.allocator.nodup
  listed c hc := by
    obtain ⟨hram, -⟩ := hpt.allocator.listed c hc
    refine ⟨hram, ?_⟩
    by_contra hne
    obtain ⟨n, rfl, -⟩ := hram
    rcases (hpt.heap_page n).mp hne with ⟨l, k, hn⟩ | ⟨v, hv, rfl⟩ | hn
    · exact (hpt.tables _ k n (Nat.sub_le 2 l) (hpt.space_table hn).2).2 hc
    · exact hpt.held v _ (hpt.space_leaf hv) hc
    · exact (halso n hn).free hc
  mem c x hx := hpt.heap_mem hx

theorem PageTable.owns : Owns (hpt.space.holds fun n => also n ∨ hpt.space.high n)
    fun n => hpt.heap also (.page n) ≠ none := by
  -- a page with a role is a table, the page of an entry, or one of the others
  have hcases : ∀ {role n}, hpt.space.holds (fun n => also n ∨ hpt.space.high n) role n →
      (∃ l k, role = .table l k ∧ tableIn s.mem root (2 - l) k = some n ∧ l ≤ 2) ∨
      (∃ v, (role = .user v ∧ v < userTop ∨ role = .extra ∧ userTop ≤ v) ∧
        hpt.space.leaf v ≠ 0 ∧ n = pte2pa (hpt.space.leaf v)) ∨
      role = .extra ∧ also n := by
    intro role n hrole
    cases role with
    | table l k => exact Or.inl ⟨l, k, rfl, (hpt.space_table hrole).symm⟩
    | user v =>
      obtain ⟨hv, hne, hpage⟩ := hrole
      exact Or.inr (Or.inl ⟨v, Or.inl ⟨rfl, hv⟩, hne, hpage.symm⟩)
    | extra =>
      rcases hrole with hn | ⟨v, hv, hne, hpage⟩
      · exact Or.inr (Or.inr ⟨rfl, hn⟩)
      · exact Or.inr (Or.inl ⟨v, Or.inr ⟨rfl, hv⟩, hne, hpage⟩)
  refine ⟨fun role role' n hn hn' => ?_, fun n => ?_⟩
  · rcases hcases hn with ⟨l, k, rfl, ht, hl⟩ | ⟨v, hv, hne, rfl⟩ | ⟨rfl, hother⟩
    · rcases hcases hn' with ⟨l', k', rfl, ht', hl'⟩ | ⟨v', -, hne', rfl⟩ | ⟨rfl, hother⟩
      · obtain ⟨hdepth, rfl⟩ := hpt.distinct _ _ _ _ _ (Nat.sub_le 2 l) (Nat.sub_le 2 l') ht ht'
        rw [show l = l' by omega]
      · exact absurd ht (hpt.apart v' _ _ _ (hpt.space_leaf hne') (Nat.sub_le 2 l))
      · exact absurd ht ((halso n hother).tables _ _ (Nat.sub_le 2 l))
    · rcases hcases hn' with ⟨l', k', rfl, ht', hl'⟩ | ⟨v', hv', hne', heq⟩ | ⟨rfl, hother⟩
      · exact absurd ht' (hpt.apart v _ _ _ (hpt.space_leaf hne) (Nat.sub_le 2 l'))
      · obtain rfl := hpt.space_injective hne hne' heq
        rcases hv with ⟨rfl, hlt⟩ | ⟨rfl, hge⟩
        · rcases hv' with ⟨rfl, -⟩ | ⟨rfl, hge⟩
          · rfl
          · omega
        · rcases hv' with ⟨rfl, hlt⟩ | ⟨rfl, -⟩
          · omega
          · rfl
      · exact absurd rfl ((halso _ hother).leaves v _ (hpt.space_leaf hne))
    · rcases hcases hn' with ⟨l', k', rfl, ht', hl'⟩ | ⟨v', -, hne', rfl⟩ | ⟨rfl, -⟩
      · exact absurd ht' ((halso n hother).tables _ _ (Nat.sub_le 2 l'))
      · exact absurd rfl ((halso _ hother).leaves v' _ (hpt.space_leaf hne'))
      · rfl
  · rw [hpt.heap_page]
    constructor
    · rintro (⟨l, k, hn⟩ | ⟨v, hne, rfl⟩ | hn)
      · exact ⟨.table l k, hn⟩
      · by_cases hv : v < userTop
        · exact ⟨.user v, hv, hne, rfl⟩
        · exact ⟨.extra, Or.inr ⟨v, Nat.not_lt.mp hv, hne, rfl⟩⟩
      · exact ⟨.extra, Or.inl hn⟩
    · rintro ⟨role, hrole⟩
      cases role with
      | table l k => exact Or.inl ⟨l, k, hrole⟩
      | user v => exact Or.inr (Or.inl ⟨v, hrole.2.1, hrole.2.2.symm⟩)
      | extra =>
        rcases hrole with hn | ⟨v, -, hne, hn⟩
        · exact Or.inr (Or.inr hn)
        · exact Or.inr (Or.inl ⟨v, hne, hn⟩)

theorem PageTable.rep : RepBy True anyPage hpt.space (fun n => also n ∨ hpt.space.high n)
    (hpt.heap also) where
  tables l k n hn := by
    obtain ⟨hl, hn'⟩ := hpt.space_table hn
    have hheld : hpt.heap also (.page n) ≠ none := (hpt.heap_page n).mpr (Or.inl ⟨l, k, hn⟩)
    obtain ⟨data, hdata⟩ := Option.ne_none_iff_exists'.mp hheld
    refine ⟨data, hdata, fun x hx => Or.inr ⟨trivial, ?_⟩⟩
    rw [← hpt.heap_mem hdata]
    have hkey : (k * 512 + x) / 512 = k := by omega
    have hindex : (k * 512 + x) % 512 = x := by omega
    cases l with
    | zero =>
      have hentry : entryIn s.mem root (k * 512 + x) = word (s.mem (.page n)) x := by
        unfold entryIn
        rw [hkey, hindex, show (2 : Nat) = 2 - 0 from rfl, hn']
      show Loosely _ ((leafMap s.mem root (k * 512 + x)).getD 0)
      unfold leafMap
      rw [hentry]
      by_cases hvalid : word (s.mem (.page n)) x &&& pteV = 0
      · rw [if_pos hvalid]
        exact ⟨hvalid.trans (by simp), by simp, by simp, by simp⟩
      · rw [if_neg hvalid]
        exact Loosely.refl _
    | succ l =>
      show Loosely _ (tableEntry (if l ≤ 2 then tableIn s.mem root (2 - l) (k * 512 + x) else none))
      rw [if_pos (by omega), show 2 - l = 2 - (l + 1) + 1 by omega, tableIn, hkey, hindex, hn',
        Option.bind_some]
      dsimp only
      by_cases hvalid : word (s.mem (.page n)) x &&& pteV = 0
      · rw [if_pos hvalid]
        exact ⟨hvalid.trans (by simp [tableEntry]), by simp [tableEntry], by simp [tableEntry],
          by simp [tableEntry]⟩
      · have hinner := hpt.inner _ k n x (by omega) hn' hx hvalid
        have hone : word (s.mem (.page n)) x &&& pteV = 1 := by
          unfold pteV at hvalid ⊢
          rw [Nat.and_one_is_mod] at hvalid ⊢
          omega
        rw [if_neg hvalid]
        refine ⟨?_, fun _ => ?_, fun _ => ?_, fun hleaf => ?_⟩
        · rw [tableEntry_valid, hone]
        · rw [pte2pa_tableEntry]
        · rw [hinner]
          exact (tableEntry_inner _).symm
        · exact absurd (tableEntry_inner _) hleaf
  owns := hpt.owns halso
  pages c hc := by
    cases c with
    | page n => exact ⟨n, rfl, n, rfl⟩

omit halso in
theorem PageTable.of_rep (hs : s.Has (ram img) h) (hrep : RepBy loose pool S extra h)
    (hinj : ∀ v v', S.leaf v ≠ 0 → S.leaf v' ≠ 0 → pte2pa (S.leaf v) = pte2pa (S.leaf v') → v = v')
    (hhigh : ∀ v, userTop ≤ v → S.leaf v ≠ 0 → extra (pte2pa (S.leaf v)))
    (hmanaged : ∀ l k n, S.table l k = some n → img.managed n) : PageTable img s S.root := by
  have hfree : ∀ {n}, h (.page n) ≠ none → Cell.page n ∉ s.free :=
    fun hn hmem => hn (hs.listed _ hmem).2
  have hleaf : ∀ {v pte}, leafMap s.mem S.root v = some pte → S.leaf v = pte ∧ S.leaf v ≠ 0 := by
    intro v pte hv
    rw [hrep.leafMap_eq hs.mem] at hv
    unfold Space.map at hv
    split at hv
    · cases hv
    · rename_i hne
      exact ⟨Option.some.inj hv, hne⟩
  -- the page of an entry is there, and no table
  have hrole : ∀ v, S.leaf v ≠ 0 → ∃ role, S.holds extra role (pte2pa (S.leaf v)) ∧
      ∀ l k, role ≠ .table l k := by
    intro v hne
    by_cases hv : v < userTop
    · exact ⟨.user v, ⟨hv, hne, rfl⟩, by simp⟩
    · exact ⟨.extra, hhigh v (Nat.not_lt.mp hv) hne, by simp⟩
  refine ⟨⟨hs.nodup, fun c hc => ⟨(hs.listed c hc).1, rfl⟩, fun c x hx => by cases hx⟩, ?_, ?_, ?_,
    ?_, ?_, ?_, ?_⟩
  · intro d k d' k' n hd hd' hn hn'
    rw [hrep.tableIn_eq hs.mem hd] at hn
    rw [hrep.tableIn_eq hs.mem hd'] at hn'
    obtain ⟨hlevel, hkey⟩ := Role.table.inj (hrep.role_eq (.table _ k) (.table _ k') hn hn')
    exact ⟨by omega, hkey⟩
  · intro d k n hd hn
    rw [hrep.tableIn_eq hs.mem hd] at hn
    exact ⟨hmanaged _ k n hn, hfree (hrep.holds_ne_none (.table _ k) hn)⟩
  · intro d k n x hd hn hx hvalid
    rw [hrep.tableIn_eq hs.mem (Nat.le_of_lt hd), show 2 - d = 1 - d + 1 by omega] at hn
    obtain ⟨data, hdata, hwords⟩ := hrep.stored hn
    have hword : Loosely (word data x) (tableEntry (S.table (1 - d) (k * 512 + x))) := hwords x hx
    rw [hs.mem _ _ hdata] at hvalid ⊢
    rw [hword.valid] at hvalid
    rw [hword.kind hvalid]
    cases S.table (1 - d) (k * 512 + x) with
    | none => simp [tableEntry]
    | some m => exact tableEntry_inner m
  · intro v pte hv
    obtain ⟨rfl, hne⟩ := hleaf hv
    exact (S.leafWord v hne).leaf
  · intro v v' pte pte' hv hv' heq
    obtain ⟨rfl, hne⟩ := hleaf hv
    obtain ⟨rfl, hne'⟩ := hleaf hv'
    exact hinj v v' hne hne' heq
  · intro v pte d k hv hd hn
    obtain ⟨rfl, hne⟩ := hleaf hv
    rw [hrep.tableIn_eq hs.mem hd] at hn
    obtain ⟨role, hholds, hnot⟩ := hrole v hne
    exact hnot _ _ (hrep.role_eq role (.table _ k) hholds hn)
  · intro v pte hv
    obtain ⟨rfl, hne⟩ := hleaf hv
    obtain ⟨role, hholds, -⟩ := hrole v hne
    exact hfree (hrep.holds_ne_none role hholds)

omit halso in
/-- New tables come from the allocator: a page that was mapped or at hand has not become one. -/
theorem PageTable.managed_tables {h' : Heap} (hrep : RepBy loose pool S' extra h')
    (hmoves : s.Moves (hpt.heap also) s' h')
    (hstill : ∀ n, (∃ v, hpt.space.leaf v ≠ 0 ∧ n = pte2pa (hpt.space.leaf v)) ∨ also n →
      ∃ role, S'.holds extra role n ∧ ∀ l k, role ≠ .table l k) (l k n : Nat)
    (hn : S'.table l k = some n) : img.managed n := by
  rcases (hmoves.cells _).mp (Or.inr (hrep.holds_ne_none (.table l k) hn)) with hfree | hheld
  · obtain ⟨⟨m, heq, hm⟩, -⟩ := hpt.allocator.listed _ hfree
    cases heq
    exact hm
  · rcases (hpt.heap_page n).mp hheld with ⟨l', k', ht⟩ | hother
    · exact (hpt.tables _ k' n (Nat.sub_le 2 l') (hpt.space_table ht).2).1
    · obtain ⟨role, hrole, hnot⟩ := hstill n hother
      exact absurd (hrep.role_eq role (.table l k) hrole hn) (hnot l k)

end Represent

section Loop

def Space.detachedRange (S : Space) (extra : Nat → Prop) (lo hi : Nat) (doFree : Bool) (m : Nat) :
    Prop :=
  (extra m ∨ ∃ v, lo ≤ v ∧ v < hi ∧ S.leaf v ≠ 0 ∧ v < userTop ∧ m = pte2pa (S.leaf v)) ∧
    ¬(doFree = true ∧ ∃ v, lo ≤ v ∧ v < hi ∧ S.leaf v ≠ 0 ∧ m = pte2pa (S.leaf v))

def Space.Injective (S : Space) : Prop :=
  ∀ v v', S.leaf v ≠ 0 → S.leaf v' ≠ 0 → pte2pa (S.leaf v) = pte2pa (S.leaf v') → v = v'

theorem Space.detachedRange_step {lo hi : Nat} (doFree : Bool) (hlt : lo < hi)
    (hinj : S.Injective) (hleaf : S'.leaf = Function.update S.leaf lo 0) (m : Nat) :
    S.detachedRange extra lo hi doFree m ↔
      S'.detachedRange (S.detached extra lo doFree) (lo + 1) hi doFree m := by
  have hrest : ∀ {Q : Nat → Prop}, (∃ v, lo + 1 ≤ v ∧ v < hi ∧ S'.leaf v ≠ 0 ∧ Q v ∧
      m = pte2pa (S'.leaf v)) ↔ ∃ v, lo + 1 ≤ v ∧ v < hi ∧ S.leaf v ≠ 0 ∧ Q v ∧
      m = pte2pa (S.leaf v) := by
    intro Q
    refine exists_congr fun v => and_congr_right fun hv => ?_
    rw [hleaf, Function.update_of_ne (by omega)]
  have hsplit : ∀ {Q : Nat → Prop}, (∃ v, lo ≤ v ∧ v < hi ∧ S.leaf v ≠ 0 ∧ Q v ∧
      m = pte2pa (S.leaf v)) ↔ (S.leaf lo ≠ 0 ∧ Q lo ∧ m = pte2pa (S.leaf lo)) ∨
      ∃ v, lo + 1 ≤ v ∧ v < hi ∧ S.leaf v ≠ 0 ∧ Q v ∧ m = pte2pa (S.leaf v) := by
    intro Q
    constructor
    · rintro ⟨v, hv, hhi, hrest⟩
      rcases Nat.eq_or_lt_of_le hv with rfl | hv
      · exact Or.inl hrest
      · exact Or.inr ⟨v, hv, hhi, hrest⟩
    · rintro (hrest | ⟨v, hv, hhi, hrest⟩)
      · exact ⟨lo, Nat.le_refl lo, hlt, hrest⟩
      · exact ⟨v, by omega, hhi, hrest⟩
  -- a page of the rest is not the first one
  have hapart : (∃ v, lo + 1 ≤ v ∧ v < hi ∧ S.leaf v ≠ 0 ∧ v < userTop ∧ m = pte2pa (S.leaf v)) →
      ¬(S.leaf lo ≠ 0 ∧ m = pte2pa (S.leaf lo)) := by
    rintro ⟨v, hv, -, hne, -, hm⟩ ⟨hne', hm'⟩
    have := hinj v lo hne hne' (hm.symm.trans hm')
    omega
  have husers := hsplit (Q := fun v => v < userTop)
  have hall := hsplit (Q := fun _ => True)
  have husers' := hrest (Q := fun v => v < userTop)
  have hall' := hrest (Q := fun _ => True)
  simp only [true_and] at hall hall'
  unfold Space.detachedRange Space.detached
  rw [husers, hall, husers', hall']
  constructor
  · rintro ⟨hin, hnot⟩
    refine ⟨?_, fun hfreed => hnot ⟨hfreed.1, Or.inr hfreed.2⟩⟩
    rcases hin with hold | hfirst | hlater
    · exact Or.inl ⟨Or.inl hold, fun hfreed => hnot ⟨hfreed.1, Or.inl hfreed.2⟩⟩
    · exact Or.inl ⟨Or.inr hfirst, fun hfreed => hnot ⟨hfreed.1, Or.inl hfreed.2⟩⟩
    · exact Or.inr hlater
  · rintro ⟨⟨hin, hnot⟩ | hlater, hnot'⟩
    · refine ⟨hin.imp id Or.inl, ?_⟩
      rintro ⟨hdo, hfreed | hfreed⟩
      · exact hnot ⟨hdo, hfreed⟩
      · exact hnot' ⟨hdo, hfreed⟩
    · refine ⟨Or.inr (Or.inr hlater), ?_⟩
      rintro ⟨hdo, hfreed | hfreed⟩
      · exact hapart hlater hfreed
      · exact hnot' ⟨hdo, hfreed⟩

variable (hmem : Manages img P.pool) (hsub : ∀ c, P.pool c → pool c) {doFree : Bool}
include hmem hsub

theorem unmapLoop_wide {n v : Nat} (hrep : RepBy loose pool S extra h) (hinj : S.Injective)
    (hv : v + n ≤ 2 ^ 26)
    (hfree : ∀ u, v ≤ u → u < v + n → doFree = true → S.leaf u ≠ 0 →
      P.pool (.page (pte2pa (S.leaf u))) ∧ (u < userTop ∨ extra (pte2pa (S.leaf u)))) :
    wp machine P (unmapLoop img S.root doFree n (v * pgSize)) (fun _ h' => ∃ S',
      S.Unmaps (cleared S.leaf v (v + n)) S' ∧
      RepBy loose pool S' (S.detachedRange extra v (v + n) doFree) h') h := by
  induction n generalizing S extra h v with
  | zero =>
    refine ⟨S, ?_, hrep.congr_extra fun m => ?_⟩
    · rw [cleared_self (by omega)]
      exact Space.Unmaps.refl S
    · have hnone : ∀ u, ¬(v ≤ u ∧ u < v + 0) := by
        intro u hu
        omega
      simp only [Space.detachedRange, ← and_assoc, hnone, false_and, exists_false, or_false,
        and_false, not_false_eq_true, and_true]
  | succ n ih =>
    refine wp_seq (unmapPage_wide hmem hsub hrep (v := v) (by omega)
      (hfree v (Nat.le_refl v) (by omega))) ?_
    rintro - h' ⟨S', hunmap, hrep', -⟩
    have hzero : S'.leaf v = 0 := by rw [hunmap.leaf, Function.update_self]
    have hsame : ∀ u, S'.leaf u ≠ 0 → u ≠ v ∧ S'.leaf u = S.leaf u := by
      intro u hne
      have huv : u ≠ v := by
        rintro rfl
        exact hne hzero
      rw [hunmap.leaf, Function.update_of_ne huv]
      exact ⟨huv, rfl⟩
    rw [← hunmap.root, show v * pgSize + pgSize = (v + 1) * pgSize by rw [Nat.add_mul, Nat.one_mul]]
    refine wp_mono (ih hrep' (v := v + 1) ?_ (by omega) ?_) ?_
    · intro u u' hne hne' heq
      obtain ⟨-, hu⟩ := hsame u hne
      obtain ⟨-, hu'⟩ := hsame u' hne'
      rw [hu] at hne heq
      rw [hu'] at hne' heq
      exact hinj u u' hne hne' heq
    · intro u hu hhi hdo hne
      obtain ⟨huv, heq⟩ := hsame u hne
      rw [heq] at hne ⊢
      obtain ⟨hpool, hplace⟩ := hfree u (by omega) (by omega) hdo hne
      refine ⟨hpool, hplace.imp id fun hat => ⟨Or.inl hat, ?_⟩⟩
      -- what was freed is another page
      rintro ⟨-, hne', hpage⟩
      exact huv (hinj u v hne hne' hpage)
    rintro - h'' ⟨S'', hrest, hrep''⟩
    rw [hunmap.leaf, show v + 1 + n = v + (n + 1) by omega, cleared_update _ (by omega)] at hrest
    rw [show v + 1 + n = v + (n + 1) by omega] at hrep''
    exact ⟨S'', hunmap.trans hrest, hrep''.congr_extra
      (Space.detachedRange_step doFree (by omega) hinj hunmap.leaf)⟩

theorem uvmunmap_wide {n v : Nat} (hrep : RepBy loose pool S extra h) (hinj : S.Injective)
    (hv : v + n ≤ 2 ^ 26)
    (hfree : ∀ u, v ≤ u → u < v + n → doFree = true → S.leaf u ≠ 0 →
      P.pool (.page (pte2pa (S.leaf u))) ∧ (u < userTop ∨ extra (pte2pa (S.leaf u)))) :
    wp machine P (uvmunmap img S.root (v * pgSize) n doFree) (fun _ h' => ∃ S',
      S.Unmaps (cleared S.leaf v (v + n)) S' ∧
      RepBy loose pool S' (S.detachedRange extra v (v + n) doFree) h') h := by
  rw [uvmunmap, if_neg (by simp)]
  exact unmapLoop_wide hmem hsub hrep hinj hv hfree

end Loop

section Operations

theorem run_walk_mapped {v pte : Nat} (hv : v < 2 ^ 26) (hpte : leafMap s.mem root v = some pte) :
    ∃ n x, (walk root (v * pgSize) false).run machine s = (.ok (some (n, x)), s) ∧
      word (s.mem (.page n)) x = pte := by
  have hva : v * pgSize < maxVa := by
    unfold pgSize maxVa
    omega
  obtain ⟨hentry, hvalid, -⟩ := leafMap_some hpte
  unfold entryIn at hentry
  rw [run_walk hva, vpn_mul]
  cases hn : tableIn s.mem root 2 (v / 512) with
  | none =>
    rw [hn] at hentry
    rw [← hentry] at hvalid
    exact absurd (Nat.zero_and pteV) hvalid
  | some n =>
    rw [hn] at hentry
    exact ⟨n, v % 512, rfl, hentry⟩

variable (hpt : PageTable img s root)
include hpt

theorem PageTable.slots_differ {v v' : Nat} {slot : Nat × Nat} (hv : v < 2 ^ 26) (hv' : v' < 2 ^ 26)
    (hrun : ((walk root (v * pgSize) false).run machine s).1 = .ok (some slot))
    (hrun' : ((walk root (v' * pgSize) false).run machine s).1 = .ok (some slot)) : v = v' := by
  have hslot : ∀ {u}, u < 2 ^ 26 →
      ((walk root (u * pgSize) false).run machine s).1 = .ok (some slot) →
      tableIn s.mem root 2 (u / 512) = some slot.1 ∧ slot.2 = u % 512 := by
    intro u hu hrun
    have hva : u * pgSize < maxVa := by
      unfold pgSize maxVa
      omega
    rw [run_walk hva, vpn_mul] at hrun
    obtain ⟨n, hn, rfl⟩ := Option.map_eq_some_iff.mp (Except.ok.inj hrun)
    exact ⟨hn, rfl⟩
  obtain ⟨htable, hindex⟩ := hslot hv hrun
  obtain ⟨htable', hindex'⟩ := hslot hv' hrun'
  obtain ⟨-, hkey⟩ := hpt.distinct 2 _ 2 _ _ (Nat.le_refl 2) (Nat.le_refl 2) htable htable'
  omega

section Insert

variable {v pa perm : Nat} (hv : v < 2 ^ 26) (hnone : leafMap s.mem root v = none)
include hv hnone

theorem PageTable.run_mappages (hpa : pa < 2 ^ 54) (hperm : perm < 2 ^ 64) :
    ∃ ok s', (mappages root (v * pgSize) pgSize pa perm).run machine s = (.ok ok, s') ∧
      if ok then leafMap s'.mem root =
        Function.update (leafMap s.mem root) v (some (pa2pte pa ||| perm ||| pteV))
      else s'.short = true ∧ leafMap s'.mem root = leafMap s.mem root ∧ PageTable img s' root := by
  have hhas : s.Has (ram img) (hpt.heap fun _ => False) := hpt.has fun _ => False.elim
  have hspec : wp machine (solo img
      (((mappages root (v * pgSize) pgSize pa perm).run machine s).2.short = true))
      (mappages root (v * pgSize) pgSize pa perm) _ _ :=
    mappages_word manages_ram (fun _ ⟨n, hn, _⟩ => ⟨n, hn⟩) (hpt.rep fun _ => False.elim) hv
      (hpt.space_leaf_none hnone)
  obtain ⟨ok, h', hres, ⟨S', h₁, hext, hrep, -, hdone⟩, hs', hmoves⟩ :=
    run_spec hhas hspec (Bool.eq_false_or_eq_true _)
  have hroot : S'.root = root := hext.root
  have hmap : S'.map = leafMap s.mem root := by
    rw [← hpt.space_map]
    unfold Space.map
    rw [hext.leaf]
  refine ⟨ok, _, Prod.ext hres rfl, ?_⟩
  cases ok with
  | true =>
    obtain ⟨n, data, hn, hdata, rfl⟩ := hdone
    have hfits : pa2pte pa ||| perm ||| pteV < 2 ^ 64 := by
      refine Nat.or_lt_two_pow (Nat.or_lt_two_pow ?_ hperm) (by decide)
      unfold pa2pte
      rw [Nat.shiftLeft_eq]
      omega
    have hvalid : (pa2pte pa ||| perm ||| pteV) &&& pteV ≠ 0 := by
      rw [Nat.and_or_distrib_right]
      exact fun h => absurd (Nat.or_eq_zero_iff.mp h).2 (by decide)
    have hstored := hrep.leafMap_store hn hdata hfits hvalid hs'.mem
    rw [hroot, hmap] at hstored
    exact hstored
  | false =>
    obtain ⟨hshort, rfl⟩ := hdone
    have hsame := hrep.leafMap_eq hs'.mem
    rw [hroot, hmap] at hsame
    refine ⟨hshort, hsame, ?_⟩
    have hagain := PageTable.of_rep hs' hrep ?_ ?_ (hpt.managed_tables hrep hmoves ?_)
    · rwa [hroot] at hagain
    · rw [hext.leaf]
      exact fun u u' => hpt.space_injective
    · intro u hu hne
      rw [hext.leaf] at hne ⊢
      exact Or.inr ⟨u, hu, hne, rfl⟩
    · rintro n (⟨u, hne, rfl⟩ | hn)
      · by_cases hu : u < userTop
        · refine ⟨.user u, ⟨hu, ?_, ?_⟩, by simp⟩
          · rwa [hext.leaf]
          · rw [hext.leaf]
        · exact ⟨.extra, Or.inr ⟨u, Nat.not_lt.mp hu, hne, rfl⟩, by simp⟩
      · exact hn.elim

theorem PageTable.mappages_keeps (hout : Outside s root pa) (hpa : pa < 2 ^ 54)
    (hperm : perm < 1024) (hleaf : perm &&& leafBits ≠ 0)
    (hok : ((mappages root (v * pgSize) pgSize pa perm).run machine s).1 = .ok true) :
    PageTable img ((mappages root (v * pgSize) pgSize pa perm).run machine s).2 root := by
  have hothers : ∀ n, n = pa → Outside s root n := by
    rintro n rfl
    exact hout
  have hspec : wp machine (solo img True) (mappages root (v * pgSize) pgSize pa perm) _ _ :=
    mappages_spec manages_ram (fun _ ⟨n, hn, _⟩ => ⟨n, hn⟩) (hpt.rep hothers) hv
      (hpt.space_leaf_none hnone) hperm hleaf hpa fun _ => Or.inl rfl
  obtain ⟨ok, h', hres, ⟨S', -, hdone⟩, hs', hmoves⟩ :=
    run_spec (hpt.has hothers) hspec (Or.inl trivial)
  have htrue : ok = true := Except.ok.inj (hres.symm.trans hok)
  subst htrue
  obtain ⟨hmap, hrep⟩ := hdone
  have hself : S'.leaf v = pa2pte pa ||| perm ||| pteV := by rw [hmap.leaf, Function.update_self]
  have hpage : pte2pa (S'.leaf v) = pa := by rw [hself, pte2pa_entry hperm]
  have hne : S'.leaf v ≠ 0 := fun h =>
    (leafWord_entry hperm hpa hleaf).valid (by rw [← hself, h, Nat.zero_and])
  have hother : ∀ {u}, u ≠ v → S'.leaf u = hpt.space.leaf u := by
    intro u huv
    rw [hmap.leaf, Function.update_of_ne huv]
  -- no other page is the one that has just been mapped
  have hapart : ∀ {u}, hpt.space.leaf u ≠ 0 → pte2pa (hpt.space.leaf u) ≠ pa :=
    fun hu => hout.leaves _ _ (hpt.space_leaf hu)
  have hzero := hpt.space_leaf_none hnone
  have hroot : S'.root = root := hmap.root
  have hagain := PageTable.of_rep hs' hrep ?_ ?_ (hpt.managed_tables hrep hmoves ?_)
  · rwa [hroot] at hagain
  · intro u u' hu hu' heq
    by_cases huv : u = v
    · by_cases huv' : u' = v
      · rw [huv, huv']
      · rw [huv, hpage, hother huv'] at heq
        rw [hother huv'] at hu'
        exact absurd heq.symm (hapart hu')
    · rw [hother huv] at hu heq
      by_cases huv' : u' = v
      · rw [huv', hpage] at heq
        exact absurd heq (hapart hu)
      · rw [hother huv'] at hu' heq
        exact hpt.space_injective hu hu' heq
  · intro u hu hleaf'
    by_cases huv : u = v
    · subst huv
      exact ⟨Or.inl hpage, fun h => absurd h.1 (Nat.not_lt.mpr hu)⟩
    · rw [hother huv] at hleaf' ⊢
      exact ⟨Or.inr ⟨u, hu, hleaf', rfl⟩, fun h => hapart hleaf' h.2⟩
  · rintro n (⟨u, hu, rfl⟩ | rfl)
    · have huv : u ≠ v := by
        rintro rfl
        exact hu hzero
      by_cases hlt : u < userTop
      · refine ⟨.user u, ⟨hlt, ?_, ?_⟩, by simp⟩
        · rwa [hother huv]
        · rw [hother huv]
      · exact ⟨.extra, ⟨Or.inr ⟨u, Nat.not_lt.mp hlt, hu, rfl⟩, fun h => hapart hu h.2⟩, by simp⟩
    · by_cases hlt : v < userTop
      · exact ⟨.user v, ⟨hlt, hne, hpage⟩, by simp⟩
      · exact ⟨.extra, ⟨Or.inl rfl, fun h => hlt h.1⟩, by simp⟩

end Insert

omit hpt in
/-- After a range has been unmapped the pages are those from before, without the freed ones. -/
theorem Space.Unmaps.range_ne_none (hpt : PageTable img s root) {v n : Nat} {doFree : Bool}
    {h' : Heap} (hunmap : hpt.space.Unmaps (cleared hpt.space.leaf v (v + n)) S')
    (hrep : RepBy loose pool S' (hpt.space.detachedRange
      (fun m => False ∨ hpt.space.high m) v (v + n) doFree) h') (m : Nat) :
    h' (.page m) ≠ none ↔ hpt.heap (fun _ => False) (.page m) ≠ none ∧
      ¬(doFree = true ∧ ∃ u, v ≤ u ∧ u < v + n ∧ hpt.space.leaf u ≠ 0 ∧
        m = pte2pa (hpt.space.leaf u)) := by
  rw [hrep.owns.taken_iff, hpt.heap_page]
  constructor
  · rintro ⟨role, hrole⟩
    cases role with
    | table l k =>
      have hm : hpt.space.table l k = some m := by
        rw [← hunmap.same]
        exact hrole
      refine ⟨Or.inl ⟨l, k, hm⟩, ?_⟩
      rintro ⟨-, u, -, -, hne, rfl⟩
      exact hpt.apart u _ _ k (hpt.space_leaf hne) (Nat.sub_le 2 l) (hpt.space_table hm).2
    | user u =>
      obtain ⟨-, hne, rfl⟩ := hrole
      rw [hunmap.leaf] at hne ⊢
      unfold cleared at hne ⊢
      split at hne
      · exact absurd rfl hne
      · rename_i hrange
        rw [if_neg hrange]
        refine ⟨Or.inr (Or.inl ⟨u, hne, rfl⟩), ?_⟩
        rintro ⟨-, w, hlo, hhi, hne', heq⟩
        obtain rfl := hpt.space_injective hne hne' heq
        exact hrange ⟨hlo, hhi⟩
    | extra =>
      obtain ⟨(hno | ⟨u, -, hne, hm⟩) | ⟨u, -, -, hne, -, hm⟩, hnot⟩ := hrole
      · exact hno.elim
      · exact ⟨Or.inr (Or.inl ⟨u, hne, hm⟩), hnot⟩
      · exact ⟨Or.inr (Or.inl ⟨u, hne, hm⟩), hnot⟩
  · rintro ⟨⟨l, k, hm⟩ | ⟨u, hne, hm⟩ | hno, hnot⟩
    · refine ⟨.table l k, ?_⟩
      show S'.table l k = some m
      rw [hunmap.same, hm]
    · by_cases hlt : u < userTop
      · by_cases hrange : v ≤ u ∧ u < v + n
        · exact ⟨.extra, Or.inr ⟨u, hrange.1, hrange.2, hne, hlt, hm⟩, hnot⟩
        · have hleaf : S'.leaf u = hpt.space.leaf u := by
            rw [hunmap.leaf, cleared, if_neg hrange]
          refine ⟨.user u, hlt, ?_, ?_⟩
          · rwa [hleaf]
          · rw [hleaf, hm]
      · exact ⟨.extra, Or.inl (Or.inr ⟨u, Nat.not_lt.mp hlt, hne, hm⟩), hnot⟩
    · exact hno.elim

theorem PageTable.run_uvmunmap {v n : Nat} {doFree : Bool} (hv : v + n ≤ 2 ^ 26)
    (hfree : doFree = true → ∀ u pte, v ≤ u → u < v + n → leafMap s.mem root u = some pte →
      img.managed (pte2pa pte)) :
    ∃ s', (uvmunmap img root (v * pgSize) n doFree).run machine s = (.ok (), s') ∧
      leafMap s'.mem root = (fun u => if v ≤ u ∧ u < v + n then none else leafMap s.mem root u) ∧
      PageTable img s' root ∧ ∀ c, c ∈ s'.free ↔ c ∈ s.free ∨ doFree = true ∧
        ∃ u pte, v ≤ u ∧ u < v + n ∧ leafMap s.mem root u = some pte ∧ c = .page (pte2pa pte) := by
  have hplace : ∀ u, v ≤ u → u < v + n → doFree = true → hpt.space.leaf u ≠ 0 →
      ram img (.page (pte2pa (hpt.space.leaf u))) ∧
        (u < userTop ∨ False ∨ hpt.space.high (pte2pa (hpt.space.leaf u))) := by
    intro u hu hhi hdo hne
    refine ⟨⟨_, rfl, hfree hdo u _ hu hhi (hpt.space_leaf hne)⟩, ?_⟩
    by_cases hlt : u < userTop
    · exact Or.inl hlt
    · exact Or.inr (Or.inr ⟨u, Nat.not_lt.mp hlt, hne, rfl⟩)
  have hhas := hpt.has fun _ => False.elim
  have hspec : wp machine (solo img True) (uvmunmap img root (v * pgSize) n doFree) _ _ :=
    uvmunmap_wide manages_ram (fun _ ⟨n, hn, _⟩ => ⟨n, hn⟩) (hpt.rep fun _ => False.elim)
      (fun u u' => hpt.space_injective) hv hplace
  obtain ⟨⟨⟩, h', hres, ⟨S', hunmap, hrep⟩, hs', hmoves⟩ := run_spec hhas hspec (Or.inl trivial)
  have hroot : S'.root = root := hunmap.root
  have hout : ∀ {u}, S'.leaf u ≠ 0 → ¬(v ≤ u ∧ u < v + n) ∧ S'.leaf u = hpt.space.leaf u := by
    intro u hne
    rw [hunmap.leaf] at hne ⊢
    unfold cleared at hne ⊢
    split at hne
    · exact absurd rfl hne
    · rename_i hu
      exact ⟨hu, if_neg hu⟩
  refine ⟨_, Prod.ext hres rfl, ?_, ?_, ?_⟩
  · have hmapped := hrep.leafMap_eq hs'.mem
    rw [hroot] at hmapped
    rw [hmapped, ← hpt.space_map]
    funext u
    unfold Space.map
    rw [hunmap.leaf]
    unfold cleared
    by_cases hu : v ≤ u ∧ u < v + n
    · rw [if_pos hu, if_pos hu, if_pos rfl]
    · rw [if_neg hu, if_neg hu]
  · have hagain := PageTable.of_rep hs' hrep ?_ ?_ ?_
    · rwa [hroot] at hagain
    · intro u u' hne hne' heq
      obtain ⟨-, hu⟩ := hout hne
      obtain ⟨-, hu'⟩ := hout hne'
      rw [hu] at hne heq
      rw [hu'] at hne' heq
      exact hpt.space_injective hne hne' heq
    · intro u hge hne
      obtain ⟨hrange, hu⟩ := hout hne
      rw [hu] at hne ⊢
      refine ⟨Or.inl (Or.inr ⟨u, hge, hne, rfl⟩), ?_⟩
      rintro ⟨-, w, hlo, hhi, hne', heq⟩
      obtain rfl := hpt.space_injective hne hne' heq
      exact hrange ⟨hlo, hhi⟩
    · intro l k m hm
      rw [hunmap.same] at hm
      exact (hpt.tables _ k m (Nat.sub_le 2 l) (hpt.space_table hm).2).1
  · intro c
    have hpages := hunmap.range_ne_none hpt hrep
    rw [hmoves.mem_free_iff hs']
    constructor
    · rintro ⟨hc | hc, hnone⟩
      · exact Or.inl hc
      · obtain ⟨m, rfl, -⟩ := (hpt.rep fun _ => False.elim).pages c hc
        have hfreed : doFree = true ∧ ∃ u, v ≤ u ∧ u < v + n ∧ hpt.space.leaf u ≠ 0 ∧
            m = pte2pa (hpt.space.leaf u) := by
          by_contra hnot
          exact (hpages m).mpr ⟨hc, hnot⟩ hnone
        obtain ⟨hdo, u, hlo, hhi, hne, rfl⟩ := hfreed
        exact Or.inr ⟨hdo, u, _, hlo, hhi, hpt.space_leaf hne, rfl⟩
    · rintro (hc | ⟨hdo, u, pte, hlo, hhi, hpte, rfl⟩)
      · obtain ⟨⟨m, rfl, -⟩, hnone⟩ := hhas.listed c hc
        refine ⟨Or.inl hc, ?_⟩
        by_contra hne
        exact ((hpages m).mp hne).1 hnone
      · obtain ⟨rfl, hne⟩ := hpt.space_leaf_of hpte
        refine ⟨Or.inr ((hpt.heap_page _).mpr (Or.inr (Or.inl ⟨u, hne, rfl⟩))), ?_⟩
        by_contra hstill
        exact ((hpages _).mp hstill).2 ⟨hdo, u, hlo, hhi, hne, rfl⟩

theorem PageTable.run_freewalk (hempty : ∀ v, leafMap s.mem root v = none) :
    ∃ s', (freewalk img 3 root).run machine s = (.ok (), s') ∧ s'.Has (ram img) Heaplet.empty ∧
      ∀ c, c ∈ s'.free ↔ c ∈ s.free ∨ ∃ d k n, d ≤ 2 ∧ tableIn s.mem root d k = some n ∧
        c = .page n := by
  have hleaf : ∀ v, hpt.space.leaf v = 0 := fun v => hpt.space_leaf_none (hempty v)
  have hhas := hpt.has fun _ => False.elim
  have hrep := hpt.rep fun _ => False.elim
  have hpool : ∀ l k n, hpt.space.table l k = some n → ram img (.page n) := fun l k n hn =>
    ⟨n, rfl, (hpt.tables _ k n (Nat.sub_le 2 l) (hpt.space_table hn).2).1⟩
  have hroot : hpt.space.table 2 0 = some root := by rw [hpt.space.table_root, if_pos rfl]; rfl
  obtain ⟨⟨⟩, h', hres, rfl, hs', hmoves⟩ := run_spec hhas
    (freewalk_spec (P := solo img True) manages_ram hrep.distinct hleaf hpool (Nat.le_refl 2) hroot
      fun l k m hm _ => hrep.stored hm) (Or.inl trivial)
  -- nothing is left: every page that was held is a table
  have hnothing : erase (hpt.space.Under 2 0) (hpt.heap fun _ => False) = Heaplet.empty := by
    funext c
    cases c with
    | page n =>
      by_cases hunder : hpt.space.Under 2 0 n
      · exact erase_page_of hunder
      · rw [erase_page_of_not hunder]
        by_contra hne
        rcases (hpt.heap_page n).mp hne with htable | ⟨v, hv, -⟩ | hno
        · exact hunder (Space.under_root.mpr htable)
        · exact hv (hleaf v)
        · exact hno
  rw [hnothing] at hs' hmoves
  refine ⟨_, Prod.ext hres rfl, hs', fun c => ?_⟩
  rw [hmoves.mem_free_iff hs']
  refine (and_iff_left (show Heaplet.empty c = none from rfl)).trans (or_congr_right ?_)
  constructor
  · intro hc
    obtain ⟨m, rfl, -⟩ := hrep.pages c hc
    rcases (hpt.heap_page m).mp hc with ⟨l, k, hn⟩ | ⟨v, hv, -⟩ | hno
    · exact ⟨2 - l, k, m, Nat.sub_le 2 l, (hpt.space_table hn).2, rfl⟩
    · exact absurd (hleaf v) hv
    · exact hno.elim
  · rintro ⟨d, k, n, hd, hn, rfl⟩
    refine (hpt.heap_page n).mpr (Or.inl ⟨2 - d, k, ?_⟩)
    show (if 2 - d ≤ 2 then tableIn s.mem root (2 - (2 - d)) k else none) = some n
    rw [if_pos (Nat.sub_le 2 d), show 2 - (2 - d) = d by omega]
    exact hn

/-- The page table as a map from virtual pages to entries. -/
theorem pagetable_is_map :
    (∀ v pte, v < 2 ^ 26 → leafMap s.mem root v = some pte →
      ∃ n x, (walk root (v * pgSize) false).run machine s = (.ok (some (n, x)), s) ∧
        word (s.mem (.page n)) x = pte) ∧
    (∀ v v' slot, v < 2 ^ 26 → v' < 2 ^ 26 →
      ((walk root (v * pgSize) false).run machine s).1 = .ok (some slot) →
      ((walk root (v' * pgSize) false).run machine s).1 = .ok (some slot) → v = v') ∧
    (∀ v pa perm, v < 2 ^ 26 → leafMap s.mem root v = none → pa < 2 ^ 54 → perm < 2 ^ 64 →
      ∃ ok s', (mappages root (v * pgSize) pgSize pa perm).run machine s = (.ok ok, s') ∧
        if ok then
          leafMap s'.mem root =
            Function.update (leafMap s.mem root) v (some (pa2pte pa ||| perm ||| pteV)) ∧
          (Outside s root pa → perm < 1024 → perm &&& leafBits ≠ 0 → PageTable img s' root)
        else s'.short = true ∧ leafMap s'.mem root = leafMap s.mem root ∧
          PageTable img s' root) ∧
    (∀ v n doFree, v + n ≤ 2 ^ 26 →
      (doFree = true → ∀ u pte, v ≤ u → u < v + n → leafMap s.mem root u = some pte →
        img.managed (pte2pa pte)) →
      ∃ s', (uvmunmap img root (v * pgSize) n doFree).run machine s = (.ok (), s') ∧
        leafMap s'.mem root =
          (fun u => if v ≤ u ∧ u < v + n then none else leafMap s.mem root u) ∧
        PageTable img s' root ∧ ∀ c, c ∈ s'.free ↔ c ∈ s.free ∨ doFree = true ∧
          ∃ u pte, v ≤ u ∧ u < v + n ∧ leafMap s.mem root u = some pte ∧
            c = .page (pte2pa pte)) ∧
    ((∀ v, leafMap s.mem root v = none) →
      ∃ s', (freewalk img 3 root).run machine s = (.ok (), s') ∧
        s'.Has (ram img) Heaplet.empty ∧
        ∀ c, c ∈ s'.free ↔ c ∈ s.free ∨ ∃ d k n, d ≤ 2 ∧ tableIn s.mem root d k = some n ∧
          c = .page n) := by
  refine ⟨fun v pte hv hpte => run_walk_mapped hv hpte, fun v v' slot => hpt.slots_differ, ?_,
    fun v n doFree => hpt.run_uvmunmap, hpt.run_freewalk⟩
  intro v pa perm hv hnone hpa hperm
  obtain ⟨ok, s', hrun, hdone⟩ := hpt.run_mappages hv hnone hpa hperm
  refine ⟨ok, s', hrun, ?_⟩
  cases ok with
  | false => exact hdone
  | true =>
    refine ⟨hdone, fun hout hflags hleaf => ?_⟩
    have hkept := hpt.mappages_keeps hv hnone hout hpa hflags hleaf (by rw [hrun])
    rwa [hrun] at hkept

end Operations

section Sample

theorem emptyTable_leafMap (v : Nat) : leafMap sampleMemory.mem 0x80120 v = none := by
  have hentry : entryIn sampleMemory.mem 0x80120 v = 0 := by
    unfold entryIn
    split
    · rfl
    · exact word_filled_zero _
  rw [leafMap, hentry, Nat.zero_and, if_pos rfl]

theorem emptyTable_tables {d k n : Nat} (hn : tableIn sampleMemory.mem 0x80120 d k = some n) :
    d = 0 ∧ k = 0 ∧ n = 0x80120 := by
  cases d with
  | zero =>
    unfold tableIn at hn
    split at hn
    · rename_i hk
      exact ⟨rfl, hk, (Option.some.inj hn).symm⟩
    · cases hn
  | succ d =>
    rw [tableIn] at hn
    obtain ⟨m, -, hm⟩ := Option.bind_eq_some_iff.mp hn
    have hzero : ∀ x, word (sampleMemory.mem (.page m)) x = 0 := word_filled_zero
    simp [hzero] at hm

theorem emptyTable_pageTable : PageTable sampleImage sampleMemory 0x80120 := by
  have hnone := emptyTable_leafMap
  refine ⟨sampleMemory_has, ?_, ?_, ?_, ?_, ?_, ?_, ?_⟩
  · intro d k d' k' n _ _ hn hn'
    obtain ⟨rfl, rfl, -⟩ := emptyTable_tables hn
    obtain ⟨rfl, rfl, -⟩ := emptyTable_tables hn'
    exact ⟨rfl, rfl⟩
  · intro d k n _ hn
    obtain ⟨-, -, rfl⟩ := emptyTable_tables hn
    exact ⟨by decide, by decide⟩
  · intro d k n x _ _ _ hvalid
    have hzero : word (sampleMemory.mem (.page n)) x = 0 := word_filled_zero x
    rw [hzero] at hvalid
    exact absurd (Nat.zero_and pteV) hvalid
  · intro v pte hv
    rw [hnone] at hv
    cases hv
  · intro v v' pte pte' hv
    rw [hnone] at hv
    cases hv
  · intro v pte d k hv
    rw [hnone] at hv
    cases hv
  · intro v pte hv
    rw [hnone] at hv
    cases hv

def oneMapped (pa : Nat) : Except Panic Bool × Alone sig :=
  (mappages 0x80120 (7 * pgSize) pgSize pa (pteR ||| pteU)).run machine sampleMemory

theorem oneMapped_outcome : outcome (oneMapped 0x80121) = some true ∧
    outcome (oneMapped sampleImage.trampolinePage) = some true := by
  decide +kernel

theorem emptyTable_outside {n : Nat} (hfree : .page n ∉ sampleMemory.free) (hroot : n ≠ 0x80120) :
    Outside sampleMemory 0x80120 n where
  free := hfree
  tables d k _ hn := hroot (emptyTable_tables hn).2.2
  leaves v pte hv := by
    rw [emptyTable_leafMap] at hv
    cases hv

theorem oneMapped_pageTable {pa : Nat} (hok : outcome (oneMapped pa) = some true)
    (hpa : pa < 2 ^ 54) (hfree : .page pa ∉ sampleMemory.free) (hroot : pa ≠ 0x80120) :
    PageTable sampleImage (oneMapped pa).2 0x80120 ∧ leafMap (oneMapped pa).2.mem 0x80120 =
      Function.update (fun _ => none) 7 (some (pa2pte pa ||| (pteR ||| pteU) ||| pteV)) := by
  refine ⟨emptyTable_pageTable.mappages_keeps (by decide) (emptyTable_leafMap 7)
    (emptyTable_outside hfree hroot) hpa (by decide) (by decide) (ok_of_outcome hok), ?_⟩
  obtain ⟨ok, s', hrun, hdone⟩ := emptyTable_pageTable.run_mappages (v := 7) (by decide)
    (emptyTable_leafMap 7) hpa (by decide : pteR ||| pteU < 2 ^ 64)
  have htrue := ok_of_outcome hok
  rw [oneMapped, hrun] at htrue
  cases htrue
  rw [oneMapped, hrun]
  exact hdone.trans (by rw [show leafMap sampleMemory.mem 0x80120 = fun _ => none from
    funext emptyTable_leafMap])

/-- With a page mapped: it is found, another one is mapped beside it, the page is unmapped
and freed; and the table without pages is disposed of. -/
theorem pagetable_is_map_mapped : PageTable sampleImage (oneMapped 0x80121).2 0x80120 ∧
    leafMap (oneMapped 0x80121).2.mem 0x80120 7 =
      some (pa2pte 0x80121 ||| (pteR ||| pteU) ||| pteV) ∧
    (∃ n x, (walk 0x80120 (7 * pgSize) false).run machine (oneMapped 0x80121).2 =
      (.ok (some (n, x)), (oneMapped 0x80121).2)) ∧
    (∃ s', (mappages 0x80120 (9 * pgSize) pgSize 0x80122 pteR).run machine
        (oneMapped 0x80121).2 = (.ok true, s') ∧
      leafMap s'.mem 0x80120 7 ≠ none ∧ leafMap s'.mem 0x80120 9 ≠ none) ∧
    (∃ s', (uvmunmap sampleImage 0x80120 (6 * pgSize) 3 true).run machine
        (oneMapped 0x80121).2 = (.ok (), s') ∧ leafMap s'.mem 0x80120 7 = none ∧
      .page 0x80121 ∈ s'.free) ∧
    ∃ s', (freewalk sampleImage 3 0x80120).run machine sampleMemory = (.ok (), s') ∧
      .page 0x80120 ∈ s'.free := by
  obtain ⟨hpt, hmap⟩ := oneMapped_pageTable oneMapped_outcome.1 (by decide) (by decide)
    (by decide)
  have hseven : leafMap (oneMapped 0x80121).2.mem 0x80120 7 =
      some (pa2pte 0x80121 ||| (pteR ||| pteU) ||| pteV) := by
    rw [hmap, Function.update_self]
  have hnine : leafMap (oneMapped 0x80121).2.mem 0x80120 9 = none := by
    rw [hmap]
    rfl
  obtain ⟨hfind, -, hinsert, hremove, -⟩ := pagetable_is_map hpt
  refine ⟨hpt, hseven, ?_, ?_, ?_, ?_⟩
  · obtain ⟨n, x, hrun, -⟩ := hfind 7 _ (by decide) hseven
    exact ⟨n, x, hrun⟩
  · have hok : outcome ((mappages 0x80120 (9 * pgSize) pgSize 0x80122 pteR).run machine
        (oneMapped 0x80121).2) = some true := by decide +kernel
    obtain ⟨ok, s', hrun, hdone⟩ := hinsert 9 0x80122 pteR (by decide) hnine (by decide)
      (by decide)
    rw [hrun] at hok
    cases hok
    obtain ⟨hleaf, -⟩ := hdone
    refine ⟨s', hrun, ?_, ?_⟩
    · rw [hleaf, Function.update_of_ne (by decide), hseven]
      exact Option.some_ne_none _
    · rw [hleaf, Function.update_self]
      exact Option.some_ne_none _
  · have hmanaged : ∀ u pte, leafMap (oneMapped 0x80121).2.mem 0x80120 u = some pte →
        sampleImage.managed (pte2pa pte) := by
      intro u pte hu
      by_cases hu7 : u = 7
      · rw [hu7, hseven] at hu
        cases hu
        decide
      · rw [hmap, Function.update_of_ne hu7] at hu
        cases hu
    obtain ⟨s', hrun, hleaf, -, hfree⟩ := hremove 6 3 true (by decide)
      fun _ u pte _ _ => hmanaged u pte
    refine ⟨s', hrun, ?_, (hfree _).mpr (Or.inr ⟨rfl, 7, _, by decide, by decide, hseven, ?_⟩)⟩
    · rw [hleaf]
      rfl
    · decide
  · obtain ⟨s', hrun, -, hfree⟩ := (pagetable_is_map emptyTable_pageTable).2.2.2.2
      emptyTable_leafMap
    exact ⟨s', hrun, (hfree _).mpr (Or.inr ⟨0, 0, 0x80120, by decide, rfl, rfl⟩)⟩

/-- Beyond `MAXVA` the loop of `uvmunmap` panics in `walk`; a mapped page of the kernel's own
text, as the trampoline is, makes `kfree` panic. -/
theorem uvmunmap_panics : PageTable sampleImage sampleMemory 0x80120 ∧
    ((uvmunmap sampleImage 0x80120 (maxVa - pgSize) 2 false).run machine sampleMemory).1 =
      .error .walk ∧
    PageTable sampleImage (oneMapped sampleImage.trampolinePage).2 0x80120 ∧
    ((uvmunmap sampleImage 0x80120 (7 * pgSize) 1 true).run machine
      (oneMapped sampleImage.trampolinePage).2).1 = .error .kfree := by
  refine ⟨emptyTable_pageTable, rfl, (oneMapped_pageTable oneMapped_outcome.2 (by decide)
    (by decide) (by decide)).1, by decide +kernel⟩

end Sample

end Xv6.Vm
