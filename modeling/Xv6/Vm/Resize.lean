import Xv6.Vm.Observe

/-! `growproc`, exactly. When it fails the process has what it had, and all that can be
missing from the allocator are tables that map nothing; when it shrinks a process, the
allocator has got back the pages above the new size and no others. -/
namespace Xv6.Vm

open Lib

variable {img : Image} {P : Protocol sig} {pool : Cell → Prop} {h h' : Heap}
  {S S' : Space} {extra : Nat → Prop} {sz tf root : Nat} {mm : Mm} {n : Int}

inductive Resized (S : Space) (extra : Nat → Prop) (mm : Mm) (n : Int) (h : Heap) :
    Bool × Mm → Space → Heap → Prop where
  | failed {S' : Space} {h' : Heap} : 0 < n → S.Remaps S.leaf S' → Kept S extra h h' →
      Resized S extra mm n h (false, mm) S' h'
  | grown {S' : Space} {h' : Heap} {newsz : Nat} : 0 < n → newsz = mm.sz + n →
      npages newsz ≤ userTop →
      S.Grows (npages mm.sz) (npages newsz) (pteR ||| pteU ||| pteW) S' →
      Zeroed S S' extra (npages mm.sz) (npages newsz) h h' →
      Resized S extra mm n h (true, { mm with sz := newsz }) S' h'
  | shrunk {S' : Space} {h' : Heap} : n < 0 →
      S.Unmaps (cleared S.leaf (npages (addInt mm.sz n)) (npages mm.sz)) S' → Kept S' extra h h' →
      Resized S extra mm n h (true, { mm with sz := min mm.sz (addInt mm.sz n) }) S' h'
  | same : n = 0 → Resized S extra mm n h (true, mm) S h

theorem growproc_resizes (hmem : Manages img P.pool) (hpt : mm.pagetable = some S.root)
    (hlayout : Layout img S mm.sz tf) (hrep : Rep P.pool S extra h) (hn : n < 2 ^ 31) :
    wp machine P (growproc img mm n) (fun r h' => ∃ S', S'.root = S.root ∧
      Layout img S' r.2.sz tf ∧ Rep P.pool S' extra h' ∧ Resized S extra mm n h r S' h') h := by
  simp only [growproc, hpt, deref]
  by_cases hpos : n > 0
  · have hsum := addInt_of_nonneg hlayout.size (Int.le_of_lt hpos) hn
    have hle : mm.sz ≤ addInt mm.sz n := by omega
    rw [if_pos hpos]
    by_cases htop : addInt mm.sz n > trapframe
    · rw [if_pos htop]
      exact ⟨S, rfl, hlayout, hrep, .failed hpos (Space.Remaps.refl S) Kept.refl⟩
    rw [if_neg htop]
    refine wp_seq (uvmalloc_spec hmem hrep (by decide) hlayout.npages_le_userTop
      (fun u hu hlt => hlayout.leaf_eq_zero hu hlt)
      (Or.inl (npages_le.mpr (Nat.not_lt.mp htop)))) ?_
    rw [Nat.max_eq_right hle]
    rintro r h' ⟨S', hrep', ⟨rfl, htop', hg, hz⟩ | ⟨rfl, -, hback, hkept⟩⟩
    · rw [if_neg (by omega)]
      refine ⟨S', hg.root, hlayout.grows hle htop' hg, hrep', ?_⟩
      rw [← hpt]
      exact .grown hpos (by omega) htop' hg hz
    · rw [if_pos rfl]
      exact ⟨S', hback.root, hlayout.congr hback, hrep', .failed hpos hback hkept⟩
  · rw [if_neg hpos]
    by_cases hneg : n < 0
    · rw [if_pos hneg]
      refine wp_seq (uvmdealloc_spec hmem hrep hlayout.npages_le_userTop) ?_
      rintro r h' ⟨rfl, S', hclear, hrep', hkept⟩
      refine ⟨S', hclear.root, hlayout.shrinks hclear, hrep', ?_⟩
      rw [← hpt]
      exact .shrunk hneg hclear hkept
    · rw [if_neg hneg]
      exact ⟨S, rfl, hlayout, hrep, .same (by omega)⟩

section Tables

theorem Space.table_of_leaf {v l : Nat} (hne : S.leaf v ≠ 0) (hl : l ≤ 2) :
    S.table l (v / 512 ^ (l + 1)) ≠ none := by
  induction l with
  | zero => simpa using S.lower v hne
  | succ l ih =>
    have hparent := S.parent l _ (by omega) (ih (by omega))
    rwa [Nat.div_div_eq_div_mul, ← Nat.pow_succ] at hparent

/-- A page that only the space with more tables has is a table, and nothing is mapped below it. -/
theorem Space.Remaps.new_table (hrep : Rep pool S extra h) (hrep' : Rep pool S' extra h')
    (hmap : S.Remaps S.leaf S') {m : Nat} (hold : h (.page m) = none) (hnew : h' (.page m) ≠ none) :
    ∃ l k, l ≤ 2 ∧ S'.table l k = some m ∧ ∀ v, v / 512 ^ (l + 1) = k → S'.leaf v = 0 := by
  obtain ⟨role, hrole⟩ := (hrep'.owns.taken_iff m).mp hnew
  cases role with
  | table l k =>
    refine ⟨l, k, S'.level_le hrole, hrole, fun v hv => ?_⟩
    by_contra hne
    rw [hmap.leaf] at hne
    obtain ⟨m', hm'⟩ := Option.ne_none_iff_exists'.mp (S.table_of_leaf hne (S'.level_le hrole))
    rw [hv] at hm'
    have heq : m' = m := Option.some.inj ((hmap.table l k m' hm').symm.trans hrole)
    exact hrep.holds_ne_none (.table l k) (heq ▸ hm') hold
  | user v =>
    obtain ⟨hv, hne, hpage⟩ := hrole
    rw [hmap.leaf] at hne hpage
    exact absurd hold (hrep.holds_ne_none (.user v) ⟨hv, hne, hpage⟩)
  | extra => exact absurd hold (hrep.holds_ne_none .extra hrole)

theorem Space.Unmaps.holds_of_holds {lo hi m : Nat} {role : Role}
    (hun : S.Unmaps (cleared S.leaf lo hi) S') (hrole : S'.holds extra role m) :
    S.holds extra role m := by
  cases role with
  | table l k =>
    have htable : S'.table l k = some m := hrole
    rw [hun.same] at htable
    exact htable
  | user u =>
    obtain ⟨hu, hne, hpage⟩ := hrole
    have hleaf : S'.leaf u = S.leaf u := by
      rw [hun.leaf] at hne ⊢
      exact cleared_le u hne
    rw [hleaf] at hne hpage
    exact ⟨hu, hne, hpage⟩
  | extra => exact hrole

theorem Space.Unmaps.freed {lo hi : Nat} (hrep : Rep pool S extra h) (hrep' : Rep pool S' extra h')
    (hun : S.Unmaps (cleared S.leaf lo hi) S') (hhi : hi ≤ userTop) {m : Nat} :
    h (.page m) ≠ none ∧ h' (.page m) = none ↔
      ∃ v, lo ≤ v ∧ v < hi ∧ S.leaf v ≠ 0 ∧ m = pte2pa (S.leaf v) := by
  constructor
  · rintro ⟨hold, hnew⟩
    obtain ⟨role, hrole⟩ := (hrep.owns.taken_iff m).mp hold
    cases role with
    | table l k =>
      have htable : S'.table l k = some m := by
        rw [hun.same]
        exact hrole
      exact absurd hnew (hrep'.holds_ne_none (.table l k) htable)
    | user v =>
      obtain ⟨hv, hne, hpage⟩ := hrole
      by_contra hno
      have hleaf : S'.leaf v = S.leaf v := by
        rw [hun.leaf, cleared, if_neg]
        exact fun hrange => hno ⟨v, hrange.1, hrange.2, hne, hpage.symm⟩
      rw [← hleaf] at hne hpage
      exact hrep'.holds_ne_none (.user v) ⟨hv, hne, hpage⟩ hnew
    | extra => exact absurd hnew (hrep'.holds_ne_none .extra hrole)
  · rintro ⟨v, hlo, hlt, hne, rfl⟩
    have huser : S.holds extra (.user v) (pte2pa (S.leaf v)) :=
      ⟨Nat.lt_of_lt_of_le hlt hhi, hne, rfl⟩
    refine ⟨hrep.holds_ne_none _ huser, ?_⟩
    by_contra hnew
    obtain ⟨role, hrole⟩ := (hrep'.owns.taken_iff _).mp hnew
    have hsame := hrep.role_eq role (.user v) (hun.holds_of_holds hrole) huser
    subst hsame
    have hzero : S'.leaf v = 0 := by rw [hun.leaf, cleared, if_pos ⟨hlo, hlt⟩]
    exact hrole.2.1 hzero

theorem Space.Unmaps.mem_free {s s' : Alone sig} {lo hi : Nat} {c : Cell}
    (hrep : Rep pool S extra h) (hrep' : Rep pool S' extra h')
    (hun : S.Unmaps (cleared S.leaf lo hi) S') (hhi : hi ≤ userTop) (hs : s.Has pool h)
    (hs' : s'.Has pool h') (hmoves : s.Moves h s' h') : c ∈ s'.free ↔
      c ∈ s.free ∨ ∃ v, lo ≤ v ∧ v < hi ∧ S.leaf v ≠ 0 ∧ c = .page (pte2pa (S.leaf v)) := by
  rw [hmoves.mem_free_iff hs']
  constructor
  · rintro ⟨hfree | hold, hnone⟩
    · exact Or.inl hfree
    · obtain ⟨m, rfl, -⟩ := hrep.pages c hold
      obtain ⟨v, hlo, hlt, hne, rfl⟩ := (hun.freed hrep hrep' hhi).mp ⟨hold, hnone⟩
      exact Or.inr ⟨v, hlo, hlt, hne, rfl⟩
  · rintro (hfree | ⟨v, hlo, hlt, hne, rfl⟩)
    · refine ⟨Or.inl hfree, ?_⟩
      by_contra hnew
      obtain ⟨m, rfl, -⟩ := hrep'.pages c hnew
      obtain ⟨role, hrole⟩ := (hrep'.owns.taken_iff m).mp hnew
      exact hrep.holds_ne_none role (hun.holds_of_holds hrole) (hs.listed _ hfree).2
    · obtain ⟨hold, hnone⟩ := (hun.freed hrep hrep' hhi).mpr ⟨v, hlo, hlt, hne, rfl⟩
      exact ⟨Or.inr hold, hnone⟩

end Tables

def EmptyTable (mem : Cell → Data) (root : Nat) (c : Cell) : Prop :=
  ∃ depth k m, c = .page m ∧ depth ≤ 2 ∧ tableIn mem root depth k = some m ∧
    ∀ v, v / 512 ^ (3 - depth) = k → entryIn mem root v = 0

section Run

variable {s : Alone sig}

theorem addInt_wraps (hsz : sz ≤ trapframe) (hneg : n < 0) (hn : -2 ^ 31 ≤ n) (hlt : sz < -n) :
    sz ≤ addInt sz n := by
  have htop : trapframe = 2 ^ 38 - 8192 := by decide
  have hmod : ((sz : Int) + n) % 2 ^ 64 = sz + n + 2 ^ 64 := by
    rw [← Int.add_emod_right, Int.emod_eq_of_lt (by omega) (by omega)]
  unfold addInt
  rw [hmod]
  omega

theorem addInt_shrinks (hsz : sz ≤ trapframe) (hneg : n < 0) (hle : -n ≤ sz) :
    (addInt sz n : Int) = sz + n := by
  have htop : trapframe = 2 ^ 38 - 8192 := by decide
  unfold addInt
  rw [Int.emod_eq_of_lt (by omega) (by omega)]
  omega

theorem growproc_nothing (hpt : mm.pagetable = some root) (hneg : n < 0)
    (hle : mm.sz ≤ addInt mm.sz n) : (growproc img mm n).run machine s = (.ok (true, mm), s) := by
  have hmm : mm = { mm with sz := mm.sz, pagetable := some root } := by rw [← hpt]
  simp only [growproc, hpt, deref, if_neg (show ¬n > 0 by omega), if_pos hneg]
  unfold uvmdealloc
  rw [if_pos hle]
  exact congrArg (fun x => (Except.ok (true, x), s)) hmm.symm

/-- `growproc` on a process: it fails and only empty tables are missing, or it does
exactly what it was asked to. -/
theorem growproc_exact (hproc : Process img s mm) (hn : -2 ^ 31 ≤ n ∧ n < 2 ^ 31) :
    ∃ root ok mm' s', mm.pagetable = some root ∧
      (growproc img mm n).run machine s = (.ok (ok, mm'), s') ∧
      mm' = { mm with sz := mm'.sz } ∧ Process img s' mm' ∧
      (∀ v, npages mm.sz ≤ v → memoryIn s.mem root v = none) ∧
      (0 < n → (ok = false ∧ mm'.sz = mm.sz ∧ memoryIn s'.mem root = memoryIn s.mem root ∧
          ∀ c, c ∈ s.free → c ∈ s'.free ∨ EmptyTable s'.mem root c) ∨
        (ok = true ∧ mm'.sz = mm.sz + n ∧
          memoryIn s'.mem root = grown (memoryIn s.mem root) (npages mm.sz) (npages mm'.sz))) ∧
      (n < 0 → -n ≤ mm.sz → ok = true ∧ mm'.sz = mm.sz + n ∧
        memoryIn s'.mem root = shrunk (memoryIn s.mem root) (npages mm'.sz) (npages mm.sz) ∧
        ∀ c, c ∈ s'.free ↔ c ∈ s.free ∨ ∃ v, npages mm'.sz ≤ v ∧ memoryIn s.mem root v ≠ none ∧
          c = .page (pte2pa (entryIn s.mem root v))) ∧
      (n < 0 → mm.sz < -n → mm' = mm ∧ s' = s) ∧
      ∀ c, c ∉ s.free → (∀ m, c = .page m → ¬UsesPage s.mem root m) → s'.mem c = s.mem c := by
  obtain ⟨h, S, tf, hs, hpt, htf, hlayout, hrep⟩ := hproc.space
  obtain ⟨⟨ok, mm'⟩, h', hrun, ⟨S', hroot, hlayout', hrep', hdone⟩, hs', hmoves⟩ :=
    run_spec hs (growproc_resizes (P := solo img True) manages_ram hpt hlayout hrep hn.2)
      (Or.inl trivial)
  generalize hs₁ : ((growproc img mm n).run machine s).2 = s' at hs' hmoves
  have hrun' : (growproc img mm n).run machine s = (.ok (ok, mm'), s') := Prod.ext hrun hs₁
  have hmemory : memoryIn s.mem S.root = S.content h := hrep.memoryIn_eq hs.mem
  have hmemory' : memoryIn s'.mem S.root = S'.content h' := hroot ▸ hrep'.memoryIn_eq hs'.mem
  have hbound := hlayout.npages_le_userTop
  have hfields : mm' = { mm with sz := mm'.sz } := by
    cases hdone with
    | failed => rfl
    | grown => rfl
    | shrunk => rfl
    | same => rfl
  have hextra : ∀ m, (m = tf ∨ False) → h' (.page m) = h (.page m) := by
    cases hdone with
    | failed _ _ hkept => exact fun m hm => hkept m (Or.inr hm)
    | grown _ _ _ _ hz => exact fun m hm => hz.old m (Or.inr hm)
    | shrunk _ _ hkept => exact fun m hm => hkept m (Or.inr hm)
    | same => exact fun m _ => rfl
  refine ⟨S.root, ok, mm', s', hpt, hrun', hfields,
    ⟨h', hs', S.root, tf, ?_, ?_, S', hroot, hlayout',
    hrep'⟩, fun v hv => ?_, fun hpos => ?_, fun hneg hle => ?_, fun hneg hlt => ?_,
    fun c hfree hother => hrep.rest hs hs' hmoves hextra hfree hother⟩
  · rw [hfields]
    exact hpt
  · rw [hfields]
    exact htf
  · rw [hmemory]
    by_cases htop : v < userTop
    · exact Space.content_of_zero (hlayout.leaf_eq_zero hv htop)
    · simp [Space.content, htop]
  · cases hdone with
    | failed _ hback hkept =>
      refine Or.inl ⟨rfl, rfl, ?_, fun c hc => ?_⟩
      · rw [hmemory, hmemory', Space.content_kept hback.leaf hkept]
      · rcases (hmoves.cells c).mpr (Or.inl hc) with hfree | hnew
        · exact Or.inl hfree
        obtain ⟨m, rfl, -⟩ := hrep'.pages c hnew
        obtain ⟨l, k, hl, htable, hempty⟩ :=
          hback.new_table hrep hrep' (hs.listed _ hc).2 hnew
        refine Or.inr ⟨2 - l, k, m, rfl, Nat.sub_le 2 l, ?_, fun v hv => ?_⟩
        · rw [← hroot, hrep'.tableIn_eq hs'.mem (Nat.sub_le 2 l), show 2 - (2 - l) = l by omega,
            htable]
        · rw [← hroot, hrep'.entryIn_eq hs'.mem]
          refine hempty v ?_
          rwa [show 3 - (2 - l) = l + 1 by omega] at hv
    | grown _ hsz htop hg hz =>
      refine Or.inr ⟨rfl, hsz, ?_⟩
      rw [hmemory, hmemory', content_grown hg hz (by decide) (by decide) htop]
    | shrunk hneg => omega
    | same hzero => omega
  · cases hdone with
    | failed hpos => omega
    | grown hpos => omega
    | same hzero => omega
    | shrunk _ hclear hkept =>
      have hsum := addInt_shrinks hlayout.size hneg hle
      have hmin : min mm.sz (addInt mm.sz n) = addInt mm.sz n := Nat.min_eq_right (by omega)
      refine ⟨rfl, ?_, ?_, fun c => ?_⟩
      · show ((min mm.sz (addInt mm.sz n) : Nat) : Int) = _
        rw [hmin, hsum]
      · rw [hmemory, hmemory', content_cleared hclear hkept]
        show _ = shrunk _ (npages (min mm.sz (addInt mm.sz n))) _
        rw [hmin]
      · show _ ↔ _ ∨ ∃ v, npages (min mm.sz (addInt mm.sz n)) ≤ v ∧ _
        rw [hmin, hclear.mem_free hrep hrep' hbound hs hs' hmoves]
        refine or_congr_right (exists_congr fun v => and_congr_right fun hv => ?_)
        rw [hrep.entryIn_eq hs.mem, hrep.memoryIn_ne_none hs.mem]
        constructor
        · rintro ⟨hlt, hne, rfl⟩
          exact ⟨⟨Nat.lt_of_lt_of_le hlt hbound, hne⟩, rfl⟩
        · rintro ⟨⟨htop, hne⟩, rfl⟩
          refine ⟨?_, hne, rfl⟩
          by_contra hge
          exact hne (hlayout.leaf_eq_zero (Nat.not_lt.mp hge) htop)
  · have hwraps := addInt_wraps hlayout.size hneg hn.1 hlt
    rw [growproc_nothing hpt hneg hwraps] at hrun'
    cases hrun'
    exact ⟨rfl, rfl⟩

end Run

theorem growproc_exact_first : Process sampleImage sampleStart.2 sampleMm ∧
    ∃ s', (growproc sampleImage sampleMm 4097).run machine sampleStart.2 =
      (.ok (true, { sampleMm with sz := 4097 }), s') ∧
      memoryIn s'.mem 0x80101 1 = some (heapFlags, filled 0) := by
  have houtcome : outcome ((growproc sampleImage sampleMm 4097).run machine sampleStart.2) =
      some (true, { sampleMm with sz := 4097 }) := by decide +kernel
  obtain ⟨root, ok, mm', s', hpt, hrun, -, -, -, hgrow, -⟩ :=
    growproc_exact sampleProcess (n := 4097) (by decide)
  cases hpt
  rw [hrun] at houtcome
  cases houtcome
  refine ⟨sampleProcess, s', hrun, ?_⟩
  rcases hgrow (by decide) with ⟨hfail, -⟩ | ⟨-, -, hmemory⟩
  · cases hfail
  · rw [hmemory, grown, if_pos (by decide)]

end Xv6.Vm
