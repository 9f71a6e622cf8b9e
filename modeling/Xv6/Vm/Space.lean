import Xv6.Lib.Ownership
import Xv6.Vm.Code

/-! Page tables as trees. A table of level `l` is found by its key: the number
of a virtual page divided by `512 ^ (l + 1)`. Its entry `x` is about the key
`k * 512 + x` one level below, so that tables of all levels are read alike. -/
namespace Xv6.Vm

open Lib

def userTop : Nat := vpn trapframe

def leafBits : Nat := pteR ||| pteW ||| pteX

structure LeafWord (pte : Nat) : Prop where
  fits : pte < 2 ^ 64
  valid : pte &&& pteV ≠ 0
  leaf : pte &&& leafBits ≠ 0

structure Space where
  root : Nat
  /-- the page of a table, by level and key -/
  table : Nat → Nat → Option Nat
  /-- the entry of a virtual page, 0 when it is not mapped -/
  leaf : Nat → Nat
  table_root : ∀ k, table 2 k = if k = 0 then some root else none
  table_top : ∀ l k, 2 < l → table l k = none
  parent : ∀ l k, l < 2 → table l k ≠ none → table (l + 1) (k / 512) ≠ none
  lower : ∀ v, leaf v ≠ 0 → table 0 (v / 512) ≠ none
  leafWord : ∀ v, leaf v ≠ 0 → LeafWord (leaf v)

/-- What a page of an address space is for; `extra` are pages at hand that are
not in it. -/
inductive Role where
  | table (l k : Nat)
  | user (v : Nat)
  | extra
  deriving DecidableEq

namespace Space

variable (S : Space)

/-- What the tables of level `l` say about a key one level below. -/
def entry : Nat → Nat → Nat
  | 0, v => S.leaf v
  | l + 1, k => tableEntry (S.table l k)

def holds (extra : Nat → Prop) : Role → Nat → Prop
  | .table l k, n => S.table l k = some n
  | .user v, n => v < userTop ∧ S.leaf v ≠ 0 ∧ pte2pa (S.leaf v) = n
  | .extra, n => extra n

def addTable (l k n : Nat) (hl : l < 2) (hparent : S.table (l + 1) (k / 512) ≠ none) : Space where
  root := S.root
  table := Function.update S.table l (Function.update (S.table l) k (some n))
  leaf := S.leaf
  table_root j := by
    rw [Function.update_of_ne (by omega)]
    exact S.table_root j
  table_top m j hm := by
    rw [Function.update_of_ne (by omega)]
    exact S.table_top m j hm
  parent m j hm hj := by
    by_cases hml : m + 1 = l
    · subst hml
      rw [Function.update_self]
      rw [Function.update_of_ne (by omega)] at hj
      by_cases hkey : j / 512 = k
      · simp [hkey]
      · rw [Function.update_of_ne hkey]
        exact S.parent m j hm hj
    · rw [Function.update_of_ne hml]
      by_cases hme : m = l
      · subst hme
        rw [Function.update_self] at hj
        by_cases hkey : j = k
        · rwa [hkey]
        · rw [Function.update_of_ne hkey] at hj
          exact S.parent m j hm hj
      · rw [Function.update_of_ne hme] at hj
        exact S.parent m j hm hj
  lower v hv := by
    by_cases h0 : (0 : Nat) = l
    · subst h0
      rw [Function.update_self]
      by_cases hkey : v / 512 = k
      · simp [hkey]
      · rw [Function.update_of_ne hkey]
        exact S.lower v hv
    · rw [Function.update_of_ne h0]
      exact S.lower v hv
  leafWord := S.leafWord

def setLeaf (v pte : Nat) (hlower : S.table 0 (v / 512) ≠ none) (hpte : pte ≠ 0 → LeafWord pte) :
    Space where
  root := S.root
  table := S.table
  leaf := Function.update S.leaf v pte
  table_root := S.table_root
  table_top := S.table_top
  parent := S.parent
  lower u hu := by
    by_cases huv : u = v
    · rwa [huv]
    · rw [Function.update_of_ne huv] at hu
      exact S.lower u hu
  leafWord u hu := by
    by_cases huv : u = v
    · subst huv
      rw [Function.update_self] at hu ⊢
      exact hpte hu
    · rw [Function.update_of_ne huv] at hu ⊢
      exact S.leafWord u hu

theorem entry_of_missing {l k x : Nat} (hl : l < 2) (hx : x < 512) (h : S.table l k = none) :
    S.entry l (k * 512 + x) = 0 := by
  have hkey : (k * 512 + x) / 512 = k := by omega
  cases l with
  | zero =>
    by_contra hne
    exact S.lower _ hne (by rwa [hkey])
  | succ l =>
    show tableEntry (S.table l _) = 0
    cases hchild : S.table l (k * 512 + x) with
    | none => rfl
    | some n =>
      exact absurd h (hkey ▸ S.parent l (k * 512 + x) (by omega) (by simp [hchild]))

theorem level_le {l k n : Nat} (h : S.table l k = some n) : l ≤ 2 := by
  by_contra hl
  rw [S.table_top l k (by omega)] at h
  cases h

end Space

/-- A word shows an entry loosely: what is not valid may hold anything, and what leads
to a table may have flags that no one looks at. -/
structure Loosely (w e : Nat) : Prop where
  valid : w &&& pteV = e &&& pteV
  page : e &&& pteV ≠ 0 → pte2pa w = pte2pa e
  kind : e &&& pteV ≠ 0 → w &&& leafBits = e &&& leafBits
  leaf : e &&& leafBits ≠ 0 → w = e

theorem Loosely.refl (e : Nat) : Loosely e e := ⟨rfl, fun _ => rfl, fun _ => rfl, fun _ => rfl⟩

def Encodes (loose : Prop) (w e : Nat) : Prop := w = e ∨ loose ∧ Loosely w e

theorem Encodes.refl {loose : Prop} (e : Nat) : Encodes loose e e := Or.inl rfl

theorem Encodes.loosely {loose : Prop} {w e : Nat} (h : Encodes loose w e) : Loosely w e := by
  rcases h with rfl | ⟨-, h⟩
  · exact Loosely.refl w
  · exact h

theorem Encodes.eq {w e : Nat} (h : Encodes False w e) : w = e := h.resolve_right And.left

/-- The heap of one who has an address space to itself, and `extra` pages. -/
structure RepBy (loose : Prop) (pool : Cell → Prop) (S : Space) (extra : Nat → Prop) (h : Heap) :
    Prop where
  tables : ∀ l k n, S.table l k = some n → ∃ data, h (.page n) = some data ∧
    ∀ x, x < 512 → Encodes loose (word data x) (S.entry l (k * 512 + x))
  owns : Owns (S.holds extra) fun n => h (.page n) ≠ none
  pages : ∀ c, h c ≠ none → ∃ n, c = .page n ∧ pool c

/-- The kernel's own address spaces: the tables hold the entries as they are. -/
abbrev Rep : (Cell → Prop) → Space → (Nat → Prop) → Heap → Prop := RepBy False

def Space.dataPage (S : Space) (extra : Nat → Prop) (n : Nat) : Prop :=
  (∃ v, S.holds extra (.user v) n) ∨ extra n

def Kept (S : Space) (extra : Nat → Prop) (h h' : Heap) : Prop :=
  ∀ n, S.dataPage extra n → h' (.page n) = h (.page n)

def Manages (img : Image) (pool : Cell → Prop) : Prop :=
  ∀ c, pool c → ∃ n, c = .page n ∧ img.managed n

namespace RepBy

variable {loose : Prop} {pool : Cell → Prop} {S : Space} {extra : Nat → Prop} {h : Heap} {n : Nat}
  (hrep : RepBy loose pool S extra h)
include hrep

theorem holds_ne_none (role : Role) (hn : S.holds extra role n) : h (.page n) ≠ none :=
  hrep.owns.taken_of_holds hn

theorem inPool (role : Role) (hn : S.holds extra role n) : pool (.page n) := by
  obtain ⟨m, heq, hm⟩ := hrep.pages _ (hrep.holds_ne_none role hn)
  exact hm

theorem role_eq (role role' : Role) (hn : S.holds extra role n) (hn' : S.holds extra role' n) :
    role = role' := hrep.owns.unique _ _ n hn hn'

theorem stored {l k : Nat} (hn : S.table l k = some n) : ∃ data, h (.page n) = some data ∧
    ∀ x, x < 512 → Loosely (word data x) (S.entry l (k * 512 + x)) := by
  obtain ⟨data, hdata, hwords⟩ := hrep.tables l k n hn
  exact ⟨data, hdata, fun x hx => (hwords x hx).loosely⟩

theorem tables_update {data : Option Data} (hn : ∀ l k, S.table l k ≠ some n) {l k m : Nat}
    (hm : S.table l k = some m) :
    ∃ content, Function.update h (.page n) data (.page m) = some content ∧
      ∀ x, x < 512 → Encodes loose (word content x) (S.entry l (k * 512 + x)) := by
  have hne : (Cell.page m) ≠ .page n := by
    intro heq
    cases heq
    exact hn l k hm
  rw [Function.update_of_ne hne]
  exact hrep.tables l k m hm

theorem acquire (hpool : pool (.page n)) (hfree : h (.page n) = none) (data : Data) :
    RepBy loose pool S (fun m => extra m ∨ m = n) (Function.update h (.page n) (some data)) where
  tables l k m hm := hrep.tables_update (fun l' k' heq =>
    hrep.holds_ne_none (.table l' k') heq hfree) hm
  owns := by
    refine hrep.owns.acquire (i := .extra) (r := n) (fun h => h hfree) (fun role x => ?_)
      fun x => ?_
    · cases role <;> simp [Space.holds]
    · by_cases hx : x = n
      · simp [hx]
      · simp [hx]
  pages c hc := by
    by_cases hcn : c = .page n
    · exact ⟨n, hcn, hcn ▸ hpool⟩
    · rw [Function.update_of_ne hcn] at hc
      exact hrep.pages c hc

theorem release (hn : extra n) :
    RepBy loose pool S (fun m => extra m ∧ m ≠ n) (Function.update h (.page n) none) where
  tables l k m hm := hrep.tables_update (fun l' k' heq => by
    cases hrep.role_eq (.table l' k') .extra heq hn) hm
  owns := by
    refine hrep.owns.release (i := .extra) (r := n) hn (fun role x => ?_) fun x => ?_
    · cases role with
      | table l k => simp [Space.holds]
      | user v => simp [Space.holds]
      | extra => simp [Space.holds]
    · by_cases hx : x = n
      · simp [hx]
      · simp [hx]
  pages c hc := by
    by_cases hcn : c = .page n
    · simp [hcn] at hc
    · rw [Function.update_of_ne hcn] at hc
      exact hrep.pages c hc

theorem setData (hn : h (.page n) ≠ none) (hnot : ∀ l k, S.table l k ≠ some n) (data : Data) :
    RepBy loose pool S extra (Function.update h (.page n) (some data)) where
  tables l k m hm := hrep.tables_update hnot hm
  owns := by
    refine hrep.owns.congr (fun _ _ => Iff.rfl) fun x => ?_
    by_cases hx : x = n
    · simp [hx, hn]
    · simp [hx]
  pages c hc := by
    by_cases hcn : c = .page n
    · exact hrep.pages c (hcn ▸ hn)
    · rw [Function.update_of_ne hcn] at hc
      exact hrep.pages c hc

theorem setExtra (hn : extra n) (data : Data) :
    RepBy loose pool S extra (Function.update h (.page n) (some data)) :=
  hrep.setData (hrep.holds_ne_none .extra hn) (fun l k heq => by
    cases hrep.role_eq (.table l k) .extra heq hn) data

/-- An entry of a table is written. The new space differs in this entry, in who
holds what, and perhaps in a table that was empty. -/
theorem store (S' : Space) {extra' : Nat → Prop} {l k x : Nat} {data : Data}
    (hn : S.table l k = some n) (hdata : h (.page n) = some data) (hx : x < 512)
    (hfits : S'.entry l (k * 512 + x) < 2 ^ 64)
    (hentry : ∀ l' k' x' m, S.table l' k' = some m → x' < 512 → ¬(l' = l ∧ k' = k ∧ x' = x) →
      S'.entry l' (k' * 512 + x') = S.entry l' (k' * 512 + x'))
    (hnew : ∀ l' k' m, S'.table l' k' = some m → S.table l' k' ≠ some m →
      m ≠ n ∧ ∃ content, h (.page m) = some content ∧
        ∀ x', x' < 512 → Encodes loose (word content x') (S'.entry l' (k' * 512 + x')))
    (howns : Owns (S'.holds extra') fun m => h (.page m) ≠ none) :
    RepBy loose pool S' extra'
      (Function.update h (.page n) (some (setWord data x (S'.entry l (k * 512 + x))))) where
  tables l' k' m hm := by
    by_cases hold : S.table l' k' = some m
    · obtain ⟨content, hcontent, hwords⟩ := hrep.tables l' k' m hold
      by_cases hmn : m = n
      · -- the table that was written to
        subst hmn
        have hsame := hrep.role_eq (.table l' k') (.table l k) hold hn
        obtain ⟨rfl, rfl⟩ := Role.table.inj hsame
        rw [hcontent] at hdata
        cases hdata
        refine ⟨_, Function.update_self .., fun x' hx' => ?_⟩
        by_cases hxx : x' = x
        · rw [hxx, word_setWord_self _ hx hfits]
          exact Encodes.refl _
        · rw [word_setWord_of_ne _ _ hxx, hentry l' k' x' m hold hx' fun h => hxx h.2.2]
          exact hwords x' hx'
      · refine ⟨content, by rw [Function.update_of_ne (by simpa using hmn), hcontent],
          fun x' hx' => ?_⟩
        rw [hentry l' k' x' m hold hx']
        · exact hwords x' hx'
        rintro ⟨rfl, rfl, -⟩
        exact hmn (Option.some.inj (hold.symm.trans hn))
    · obtain ⟨hmn, content, hcontent, hwords⟩ := hnew l' k' m hm hold
      exact ⟨content, by rw [Function.update_of_ne (by simpa using hmn), hcontent], hwords⟩
  owns := by
    refine howns.congr (fun _ _ => Iff.rfl) fun m => ?_
    by_cases hmn : m = n
    · simp [hmn, hdata]
    · simp [hmn]
  pages c hc := by
    by_cases hcn : c = .page n
    · exact hrep.pages c (by simp [hcn, hdata])
    · rw [Function.update_of_ne hcn] at hc
      exact hrep.pages c hc

end RepBy

namespace RepBy

variable {loose : Prop} {pool : Cell → Prop} {S : Space} {extra : Nat → Prop} {h : Heap} {n : Nat}
  {data : Data} (hrep : RepBy loose pool S extra h)
include hrep

theorem addTable {l k x q : Nat} (hl : l < 2) (hn : S.table (l + 1) k = some n)
    (hdata : h (.page n) = some data) (hx : x < 512) (hnone : S.table l (k * 512 + x) = none)
    (hq : extra q) (hzero : h (.page q) = some (filled 0)) (hfits : q < 2 ^ 54)
    (hparent : S.table (l + 1) ((k * 512 + x) / 512) ≠ none) :
    RepBy loose pool (S.addTable l (k * 512 + x) q hl hparent) (fun m => extra m ∧ m ≠ q)
      (Function.update h (.page n) (some (setWord data x (tableEntry (some q))))) := by
  have htable : ∀ l' k', (S.addTable l (k * 512 + x) q hl hparent).table l' k' =
      if l' = l ∧ k' = k * 512 + x then some q else S.table l' k' := by
    intro l' k'
    by_cases hl' : l' = l
    · subst hl'
      by_cases hk' : k' = k * 512 + x
      · simp [Space.addTable, hk']
      · simp [Space.addTable, hk']
    · simp [Space.addTable, hl']
  have hself : (S.addTable l (k * 512 + x) q hl hparent).entry (l + 1) (k * 512 + x) =
      tableEntry (some q) := by
    show tableEntry (Space.table _ l _) = _
    rw [htable, if_pos ⟨rfl, rfl⟩]
  have hother : ∀ l' k', ¬(l' = l + 1 ∧ k' = k * 512 + x) →
      (S.addTable l (k * 512 + x) q hl hparent).entry l' k' = S.entry l' k' := by
    intro l' k' hne
    cases l' with
    | zero => rfl
    | succ l' =>
      show tableEntry (Space.table _ l' k') = _
      rw [htable, if_neg fun heq => hne ⟨by rw [heq.1], heq.2⟩]
      rfl
  rw [← hself]
  refine hrep.store _ hn hdata hx (by rw [hself]; exact tableEntry_lt hfits) ?_ ?_ ?_
  · intro l' k' x' m _ hx' hne
    refine hother l' _ fun heq => hne ?_
    have : k' = k ∧ x' = x := by omega
    exact ⟨heq.1, this⟩
  · intro l' k' m hm hold
    rw [htable] at hm
    split at hm
    · rename_i hnew
      cases hm
      refine ⟨fun heq => ?_, filled 0, hzero, fun x' hx' => ?_⟩
      · subst heq
        cases hrep.role_eq (.table (l + 1) k) .extra hn hq
      · rw [word_filled_zero, hother _ _ (fun h => by omega), hnew.1, hnew.2,
          S.entry_of_missing hl hx' hnone]
        exact Encodes.refl 0
    · exact absurd hm hold
  · refine hrep.owns.transfer (i := .extra) (r := q) (.table l (k * 512 + x)) hq
      (fun role m => ?_) fun _ => Iff.rfl
    cases role with
    | table l' k' =>
      show Space.table _ l' k' = some m ↔ _
      rw [htable]
      by_cases hnew : l' = l ∧ k' = k * 512 + x
      · rw [if_pos hnew]
        simp [Space.holds, hnew.1, hnew.2, hnone, eq_comm]
      · rw [if_neg hnew]
        refine ⟨fun hm => Or.inl ⟨hm, ?_⟩, fun hm => ?_⟩
        · rintro rfl
          cases hrep.role_eq (.table l' k') .extra hm hq
        · rcases hm with ⟨hm, -⟩ | ⟨hm, -⟩
          · exact hm
          · exact absurd (Role.table.inj hm) hnew
    | user v =>
      refine ⟨fun hm => Or.inl ⟨hm, ?_⟩, fun hm => ?_⟩
      · rintro rfl
        cases hrep.role_eq (.user v) .extra hm hq
      · rcases hm with ⟨hm, -⟩ | ⟨hm, -⟩
        · exact hm
        · cases hm
    | extra => simp [Space.holds]

theorem setLeaf {v pte : Nat} {extra' : Nat → Prop} (hn : S.table 0 (v / 512) = some n)
    (hdata : h (.page n) = some data) (hpte : pte ≠ 0 → LeafWord pte)
    (howns : Owns ((S.setLeaf v pte (by simp [hn]) hpte).holds extra')
      fun m => h (.page m) ≠ none) :
    RepBy loose pool (S.setLeaf v pte (by simp [hn]) hpte) extra'
      (Function.update h (.page n) (some (setWord data (v % 512) pte))) := by
  have hv : v / 512 * 512 + v % 512 = v := Nat.div_add_mod' v 512
  have hself : (S.setLeaf v pte (by simp [hn]) hpte).entry 0 (v / 512 * 512 + v % 512) = pte := by
    rw [hv]
    exact Function.update_self ..
  have hstore := hrep.store (S.setLeaf v pte (by simp [hn]) hpte) hn hdata
    (Nat.mod_lt v (by decide)) ?_ ?_
    (fun l' k' m hm hold => absurd hm hold) howns
  · rwa [hself] at hstore
  · rw [hself]
    by_cases hzero : pte = 0
    · rw [hzero]
      decide
    · exact (hpte hzero).fits
  · intro l' k' x' m _ hx' hne
    cases l' with
    | zero =>
      refine Function.update_of_ne (fun heq => hne ⟨rfl, ?_⟩) ..
      omega
    | succ l' => rfl

end RepBy

end Xv6.Vm
