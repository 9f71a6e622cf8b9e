import Xv6.Vm.Lazy

/-! Page tables as they stand in memory. A table is found from the root by its key, and
what the tables say about a page is read off the bytes; where memory holds an address
space, that is the space. -/
namespace Xv6.Vm

open Lib

section Tables

variable (mem : Cell → Data) (root : Nat)

def tableIn : Nat → Nat → Option Nat
  | 0, k => if k = 0 then some root else none
  | depth + 1, k =>
      (tableIn depth (k / 512)).bind fun n =>
        let pte := word (mem (.page n)) (k % 512)
        if pte &&& pteV = 0 then none else some (pte2pa pte)

def entryIn (v : Nat) : Nat :=
  match tableIn mem root 2 (v / 512) with
  | none => 0
  | some n => word (mem (.page n)) (v % 512)

def memoryIn : UserPages := fun v =>
  if v < userTop ∧ entryIn mem root v &&& pteV ≠ 0 then
    some (pteFlags (entryIn mem root v), mem (.page (pte2pa (entryIn mem root v))))
  else none

end Tables

theorem Space.valid_iff (S : Space) (v : Nat) : S.leaf v &&& pteV ≠ 0 ↔ S.leaf v ≠ 0 :=
  ⟨fun h heq => h (by simp [heq]), fun hne => (S.leafWord v hne).valid⟩

theorem Space.tableIn_eq (S : Space) {mem : Cell → Data}
    (hwords : ∀ l k n x, S.table (l + 1) k = some n → x < 512 →
      Loosely (word (mem (.page n)) x) (tableEntry (S.table l (k * 512 + x))))
    {depth : Nat} (hdepth : depth ≤ 2) (k : Nat) :
    tableIn mem S.root depth k = S.table (2 - depth) k := by
  induction depth generalizing k with
  | zero => exact (S.table_root k).symm
  | succ depth ih =>
    have hlevel : 2 - depth = 2 - (depth + 1) + 1 := by omega
    rw [tableIn, ih (by omega), hlevel]
    cases hparent : S.table (2 - (depth + 1) + 1) (k / 512) with
    | none =>
      by_contra hne
      exact S.parent _ k (by omega) (fun h => hne h.symm) hparent
    | some n =>
      have hword := hwords _ _ n (k % 512) hparent (Nat.mod_lt k (by decide))
      rw [Nat.div_add_mod'] at hword
      rw [Option.bind_some]
      dsimp only
      rw [hword.valid]
      cases hchild : S.table (2 - (depth + 1)) k with
      | none => rfl
      | some m =>
        rw [hchild] at hword
        have hvalid : tableEntry (some m) &&& pteV ≠ 0 := by
          rw [tableEntry_valid]
          decide
        rw [if_neg hvalid, hword.page hvalid, pte2pa_tableEntry]

section Tables

variable {loose : Prop} {pool : Cell → Prop} {S : Space} {extra : Nat → Prop} {h : Heap}
  {mem : Cell → Data} (hmem : ∀ c x, h c = some x → mem c = x)
  (hrep : RepBy loose pool S extra h)
include hmem hrep

theorem RepBy.tableIn_eq {depth : Nat} (hdepth : depth ≤ 2) (k : Nat) :
    tableIn mem S.root depth k = S.table (2 - depth) k := by
  refine S.tableIn_eq (fun l k n x hn hx => ?_) hdepth k
  obtain ⟨data, hdata, hwords⟩ := hrep.stored hn
  rw [hmem _ _ hdata]
  exact hwords x hx

theorem RepBy.entryIn_encodes (v : Nat) : Encodes loose (entryIn mem S.root v) (S.leaf v) := by
  unfold entryIn
  rw [hrep.tableIn_eq hmem (Nat.le_refl 2)]
  cases hn : S.table (2 - 2) (v / 512) with
  | none =>
    refine Or.inl ?_
    by_contra hne
    exact S.lower v (fun h => hne h.symm) hn
  | some n =>
    obtain ⟨data, hdata, hword⟩ := hrep.leaf hn
    simp only [hmem _ _ hdata]
    exact hword

end Tables

section Rep

variable {pool : Cell → Prop} {S : Space} {extra : Nat → Prop} {h : Heap} {mem : Cell → Data}
  (hmem : ∀ c x, h c = some x → mem c = x) (hrep : Rep pool S extra h)
include hmem hrep

theorem Rep.entryIn_eq (v : Nat) : entryIn mem S.root v = S.leaf v :=
  (hrep.entryIn_encodes hmem v).eq

theorem Rep.memoryIn_eq : memoryIn mem S.root = S.content h := by
  funext v
  unfold memoryIn Space.content
  simp only [hrep.entryIn_eq hmem, S.valid_iff]
  split
  · rename_i hv
    obtain ⟨data, hdata⟩ := Option.ne_none_iff_exists'.mp
      (hrep.holds_ne_none (.user v) ⟨hv.1, hv.2, rfl⟩)
    rw [hdata, hmem _ _ hdata]
    rfl
  · rfl

theorem Rep.memoryIn_ne_none (v : Nat) :
    memoryIn mem S.root v ≠ none ↔ v < userTop ∧ S.leaf v ≠ 0 := by
  unfold memoryIn
  simp only [hrep.entryIn_eq hmem, S.valid_iff]
  by_cases hv : v < userTop ∧ S.leaf v ≠ 0
  · simp [hv]
  · rw [if_neg hv]
    exact iff_of_false (fun h => h rfl) hv

end Rep

def UsesPage (mem : Cell → Data) (root n : Nat) : Prop :=
  (∃ depth k, depth ≤ 2 ∧ tableIn mem root depth k = some n) ∨
    ∃ v, v < userTop ∧ entryIn mem root v &&& pteV ≠ 0 ∧ n = pte2pa (entryIn mem root v)

theorem Rep.usesPage_iff {pool : Cell → Prop} {S : Space} {extra : Nat → Prop} {h : Heap}
    {mem : Cell → Data} (hrep : Rep pool S extra h) (hmem : ∀ c x, h c = some x → mem c = x)
    (n : Nat) : UsesPage mem S.root n ↔ h (.page n) ≠ none ∧ ¬extra n := by
  rw [hrep.owns.taken_iff]
  constructor
  · intro huses
    obtain ⟨role, hne, hrole⟩ : ∃ role, role ≠ .extra ∧ S.holds extra role n := by
      rcases huses with ⟨depth, k, hdepth, hn⟩ | ⟨v, hv, hvalid, hn⟩
      · rw [hrep.tableIn_eq hmem hdepth] at hn
        exact ⟨.table (2 - depth) k, by simp, hn⟩
      · rw [hrep.entryIn_eq hmem] at hvalid hn
        exact ⟨.user v, by simp, hv, (S.valid_iff v).mp hvalid, hn.symm⟩
    exact ⟨⟨role, hrole⟩, fun hextra => hne (hrep.role_eq role .extra hrole hextra)⟩
  · rintro ⟨⟨role, hrole⟩, hno⟩
    cases role with
    | table l k =>
      refine Or.inl ⟨2 - l, k, Nat.sub_le 2 l, ?_⟩
      rw [hrep.tableIn_eq hmem (Nat.sub_le 2 l), show 2 - (2 - l) = l by
        have := S.level_le hrole
        omega]
      exact hrole
    | user v =>
      refine Or.inr ⟨v, hrole.1, ?_, ?_⟩
      · rw [hrep.entryIn_eq hmem]
        exact (S.valid_iff v).mpr hrole.2.1
      · rw [hrep.entryIn_eq hmem]
        exact hrole.2.2.symm
    | extra => exact absurd hrole hno

theorem Rep.rest {pool : Cell → Prop} {S : Space} {extra : Nat → Prop} {h h' : Heap}
    {s s' : Alone sig} (hrep : Rep pool S extra h) (hs : s.Has pool h) (hs' : s'.Has pool h')
    (hmoves : s.Moves h s' h') (hextra : ∀ n, extra n → h' (.page n) = h (.page n)) {c : Cell}
    (hfree : c ∉ s.free) (hother : ∀ n, c = .page n → ¬UsesPage s.mem S.root n) :
    s'.mem c = s.mem c := by
  cases hc : h c with
  | none => exact hmoves.rest c hfree hc
  | some data =>
    obtain ⟨n, rfl, -⟩ := hrep.pages c (by simp [hc])
    have hn : extra n := by
      by_contra hno
      exact hother n rfl ((hrep.usesPage_iff hs.mem n).mpr ⟨by simp [hc], hno⟩)
    rw [hs.mem _ _ hc, hs'.mem _ _ ((hextra n hn).trans hc)]

section Process

variable {img : Image} {s s' : Alone sig} {mm : Mm} {h h' : Heap} {S S' : Space} {tf : Nat}

theorem Process.space (hproc : Process img s mm) : ∃ h S tf, s.Has (ram img) h ∧
    mm.pagetable = some S.root ∧ mm.trapframe = some tf ∧ Layout img S mm.sz tf ∧
    Rep (ram img) S (fun m => m = tf ∨ False) h := by
  obtain ⟨h, hs, root, tf, hpt, htf, S, rfl, hlayout, hrep⟩ := hproc
  exact ⟨h, S, tf, hs, hpt, htf, hlayout, hrep⟩

structure Owned (img : Image) (s : Alone sig) (mm : Mm) (S : Space) (tf : Nat) (h : Heap) :
    Prop where
  has : s.Has (ram img) h
  pagetable : mm.pagetable = some S.root
  trapframe : mm.trapframe = some tf
  layout : Layout img S mm.sz tf
  rep : Rep (ram img) S (fun _ => False) h
  apart : ram img (.page tf) ∧ .page tf ∉ s.free ∧ h (.page tf) = none

theorem Process.owned (hproc : Process img s mm) : ∃ S tf h, Owned img s mm S tf h := by
  obtain ⟨h, S, tf, hs, hpt, htf, hlayout, hrep⟩ := hproc.space
  have hthere : h (.page tf) ≠ none := hrep.holds_ne_none .extra (Or.inl rfl)
  refine ⟨S, tf, Function.update h (.page tf) none,
    ⟨hs.nodup, fun c hc => ?_, fun c x hx => ?_⟩, hpt,
    htf, hlayout, (hrep.release (Or.inl rfl)).congr_extra fun m => by simp,
      hrep.inPool .extra (Or.inl rfl),
    fun hfree => hthere (hs.listed _ hfree).2, Function.update_self ..⟩
  · obtain ⟨hpool, hnone⟩ := hs.listed c hc
    have hne : c ≠ .page tf := fun heq => hthere (heq ▸ hnone)
    exact ⟨hpool, by rw [Function.update_of_ne hne, hnone]⟩
  · by_cases hne : c = .page tf
    · rw [hne, Function.update_self] at hx
      cases hx
    · rw [Function.update_of_ne hne] at hx
      exact hs.mem c x hx

theorem Owned.rest (hown : Owned img s mm S tf h) (hmoves : s.Moves h s' h') {c : Cell}
    (hfree : c ∉ s.free) (hother : ∀ m, c = .page m → ¬UsesPage s.mem S.root m) :
    s'.mem c = s.mem c := by
  refine hmoves.rest c hfree ?_
  by_contra hc
  obtain ⟨m, rfl, -⟩ := hown.rep.pages c hc
  exact hother m rfl ((hown.rep.usesPage_iff hown.has.mem m).mpr ⟨hc, id⟩)

theorem Owned.process {mm' : Mm} (hown : Owned img s mm S tf h) (hmoves : s.Moves h s' h')
    (hs' : s'.Has (ram img) h') (hpt : mm'.pagetable = some S'.root) (htf : mm'.trapframe = some tf)
    (hlayout : Layout img S' mm'.sz tf) (hrep : Rep (ram img) S' (fun _ => False) h') :
    Process img s' mm' := by
  obtain ⟨hpool, hfree, hnone⟩ := hown.apart
  have hout : ¬(.page tf ∈ s'.free ∨ h' (.page tf) ≠ none) := by
    rw [hmoves.cells, not_or, not_not]
    exact ⟨hfree, hnone⟩
  rw [not_or, not_not] at hout
  refine ⟨Function.update h' (.page tf) (some (s'.mem (.page tf))),
    ⟨hs'.nodup, fun c hc => ?_, fun c x hx => ?_⟩, S'.root, tf, hpt, htf, S', rfl, hlayout,
    (hrep.acquire hpool hout.2 _).congr_extra fun m => ?_⟩
  · obtain ⟨hpool, hnone⟩ := hs'.listed c hc
    have hne : c ≠ .page tf := fun heq => hout.1 (heq ▸ hc)
    exact ⟨hpool, by rw [Function.update_of_ne hne, hnone]⟩
  · by_cases hne : c = .page tf
    · rw [hne, Function.update_self] at hx
      rw [hne]
      exact Option.some.inj hx
    · rw [Function.update_of_ne hne] at hx
      exact hs'.mem c x hx
  · simp

end Process

structure InRam (mem : Cell → Data) (root : Nat) : Prop where
  tables : ∀ depth k n, depth ≤ 2 → tableIn mem root depth k = some n →
    kernBase / pgSize ≤ n ∧ n < physTop / pgSize
  pages : ∀ v, entryIn mem root v &&& pteV ≠ 0 → entryIn mem root v &&& pteU ≠ 0 →
    kernBase / pgSize ≤ pte2pa (entryIn mem root v) ∧ pte2pa (entryIn mem root v) < physTop / pgSize

theorem Image.managed_ram {img : Image} {n : Nat} (hn : img.managed n) :
    kernBase / pgSize ≤ n ∧ n < physTop / pgSize := by
  have := img.text
  have := hn.1
  exact ⟨by omega, hn.2⟩

theorem Rep.inRam {img : Image} {pool : Cell → Prop} {S : Space} {extra : Nat → Prop} {h : Heap}
    {mem : Cell → Data} {sz tf : Nat} (hrep : Rep pool S extra h) (hpool : Manages img pool)
    (hlayout : Layout img S sz tf) (hmem : ∀ c x, h c = some x → mem c = x) :
    InRam mem S.root where
  tables depth k n hdepth hn := by
    rw [hrep.tableIn_eq hmem hdepth] at hn
    obtain ⟨m, heq, hm⟩ := hpool _ (hrep.inPool (.table (2 - depth) k) hn)
    rw [Cell.page.inj heq]
    exact Image.managed_ram hm
  pages v _ huser := by
    rw [hrep.entryIn_eq hmem] at huser ⊢
    exact Image.managed_ram (hlayout.userManaged hpool hrep huser)

section Reading

variable {s s' : Alone sig} {root va : Nat}

theorem run_seq {α β : Type} {p : Code α} {f : α → Code β} {a : α}
    (hp : p.run machine s = (.ok a, s')) :
    (p >>= f).run machine s = (f a).run machine s' := by
  rw [Prog.run_bind (S := sig), hp]

theorem run_load (n x : Nat) : (load n x).run machine s = (.ok (word (s.mem (.page n)) x), s) :=
  rfl

theorem run_walkLevel (n x : Nat) : (walkLevel n x false).run machine s =
    (.ok (if word (s.mem (.page n)) x &&& pteV = 0 then none
      else some (pte2pa (word (s.mem (.page n)) x))), s) := by
  refine (run_seq (run_load n x)).trans ?_
  by_cases hvalid : word (s.mem (.page n)) x &&& pteV = 0
  · simp [hvalid, pure, Prog.run]
  · simp [hvalid, pure, Prog.run]

theorem run_walk (hva : va < maxVa) : (walk root va false).run machine s =
    (.ok ((tableIn s.mem root 2 (vpn va / 512)).map fun n => (n, vpn va % 512)), s) := by
  have hpx0 : px 0 va = vpn va % 512 := by simpa using px_eq 0 va
  have hpx1 : px 1 va = vpn va / 512 % 512 := by simpa using px_eq 1 va
  have hpx2 : px 2 va = vpn va / 512 / 512 % 512 := by
    rw [px_eq, Nat.div_div_eq_div_mul]
    rfl
  have htop : vpn va / 512 / 512 / 512 = 0 := by
    have := vpn_lt hva
    omega
  unfold walk
  rw [if_neg (by omega), hpx0, hpx1, hpx2]
  refine (run_seq (run_walkLevel root _)).trans ?_
  simp only [tableIn, htop, if_true, Option.bind_some]
  by_cases hmiddle : word (s.mem (.page root)) (vpn va / 512 / 512 % 512) &&& pteV = 0
  · simp [hmiddle, pure, Prog.run]
  · simp only [hmiddle, if_false, Option.bind_some]
    refine (run_seq (run_walkLevel _ _)).trans ?_
    generalize word _ (vpn va / 512 % 512) = pte
    by_cases hlower : pte &&& pteV = 0
    · simp [hlower, pure, Prog.run]
    · simp [hlower, pure, Prog.run]

theorem run_walkaddr : (walkaddr root va).run machine s =
    (.ok (if va < maxVa ∧ entryIn s.mem root (vpn va) &&& pteV ≠ 0 ∧
        entryIn s.mem root (vpn va) &&& pteU ≠ 0 ∧ pte2pa (entryIn s.mem root (vpn va)) ≠ 0 then
      some (pte2pa (entryIn s.mem root (vpn va))) else none), s) := by
  unfold walkaddr
  by_cases hva : va < maxVa
  · rw [if_neg (by omega)]
    refine (run_seq (run_walk hva)).trans ?_
    unfold entryIn
    cases tableIn s.mem root 2 (vpn va / 512) with
    | none => simp [Prog.run, pure]
    | some n =>
      refine (run_seq (run_load n _)).trans ?_
      by_cases hvalid : word (s.mem (.page n)) (vpn va % 512) &&& pteV = 0
      · simp [hvalid, Prog.run, pure]
      · by_cases huser : word (s.mem (.page n)) (vpn va % 512) &&& pteU = 0
        · simp [hvalid, huser, Prog.run, pure]
        · by_cases hzero : pte2pa (word (s.mem (.page n)) (vpn va % 512)) = 0
          · simp [hvalid, huser, hzero, Prog.run, pure]
          · simp [hva, hvalid, huser, hzero, Prog.run, pure]
  · rw [if_pos (by omega)]
    simp [hva, Prog.run, pure]

end Reading

end Xv6.Vm
