import Xv6.Vm.Args

/-! `uvmcopy` and what `kfork` does with memory: a new address space is filled from an old
one that stays as it is, or everything is given back. -/
namespace Xv6.Vm

open Lib

section Code

variable (img : Image)

def copyLoop (old new : Nat) : Nat → Nat → Code (Option Nat)
  | 0, _ => return none
  | n + 1, i => do
      match ← walk old i false with
      | none => copyLoop old new n (i + pgSize)
      | some (page, k) =>
          let pte ← load page k
          if pte &&& pteV = 0 then copyLoop old new n (i + pgSize)
          else
            match ← kalloc with
            | none => return some i
            | some mem =>
                let data ← .read (.page (pte2pa pte)) .ret
                .modify (.page mem) (fun _ => data) (.ret ())
                if ← mappages new i pgSize mem (pteFlags pte) then
                  copyLoop old new n (i + pgSize)
                else
                  kfree img mem
                  return some i

def uvmcopy (old new sz : Nat) : Code Bool := do
  match ← copyLoop img old new (npages sz) 0 with
  | none => return true
  | some i =>
      uvmunmap img new 0 (i / pgSize) true
      return false

/-- `freeproc`, the memory only. -/
def freeprocMm (mm : Mm) : Code Unit := do
  match mm.trapframe with
  | none => pure ()
  | some tf => kfree img tf
  match mm.pagetable with
  | none => pure ()
  | some pagetable => procFreepagetable img pagetable mm.sz

/-- `allocproc` with a slot that has no memory. -/
def allocprocMm : Code (Option Mm) := do
  match ← kalloc with
  | none =>
      freeprocMm img Mm.none
      return none
  | some tf =>
      match ← procPagetable img tf with
      | none =>
          freeprocMm img ⟨0, none, some tf⟩
          return none
      | some pagetable => return some ⟨0, some pagetable, some tf⟩

def copyWords (frame data : Data) : Nat → Data
  | 0 => frame
  | n + 1 => setWord (copyWords frame data n) n (word data n)

/-- `kfork` up to the open files; the memory of the child, if there is enough for it. -/
def kforkMm (mm : Mm) : Code (Option Mm) := do
  match ← allocprocMm img with
  | none => return none
  | some np =>
      deref mm.pagetable fun old => deref np.pagetable fun new => do
        if ← uvmcopy img old new mm.sz then
          deref mm.trapframe fun tf => deref np.trapframe fun ntf => do
            let data ← .read (.page tf) .ret
            .modify (.page ntf) (fun frame => copyWords frame data 36) (.ret ())
            store ntf tfA0 0
            return some { np with sz := mm.sz }
        else
          freeprocMm img np
          return none

end Code

variable {img : Image} {P : Protocol sig} {h old new : Heap} {S : Space}
  {extra extraOld : Nat → Prop} {oldRoot root sz tf ntf v : Nat} {mapped pages : UserPages}

theorem or_pteV : ∀ flags < 1024, flags &&& pteV ≠ 0 → flags ||| pteV = flags := by
  decide +kernel

section Copy

variable (hmem : Manages img P.pool)
include hmem

def Filled (img : Image) (pool : Cell → Prop) (old : Heap) (pages : UserPages) (root sz ntf : Nat)
    (extra : Nat → Prop) (v : Nat) (h : Heap) : Prop :=
  ∃ new, Heaplet.Splits h old new ∧
    View img pool root sz ntf extra (shrunk pages v (npages sz)) new

variable (hold : View img P.pool oldRoot sz tf extraOld pages old)
include hold

theorem copyLoop_spec {n : Nat} (hn : v + n = npages sz)
    (hfill : Filled img P.pool old pages root sz ntf extra v h) :
    wp machine P (copyLoop img oldRoot root n (v * pgSize)) (fun r h' => ∃ u ≤ npages sz,
      r = (if u < npages sz then some (u * pgSize) else none) ∧
      Filled img P.pool old pages root sz ntf extra u h') h := by
  obtain ⟨So, rfl, hlayout, hrep, rfl⟩ := hold
  -- on the number of pages left
  induction n generalizing v h with
  | zero => exact ⟨v, by omega, (if_neg (by omega)).symm, hfill⟩
  | succ n ih =>
    have hv : v < npages sz := by omega
    have huser := hlayout.lt_userTop hv
    have hva : v * pgSize < maxVa := by
      have htop : userTop = 2 ^ 26 - 2 := rfl
      unfold pgSize maxVa
      omega
    obtain ⟨new, hs, hview⟩ := id hfill
    have hnone : shrunk (So.content old) v (npages sz) v = none := if_pos ⟨Nat.le_refl v, hv⟩
    have hnext : shrunk (So.content old) (v + 1) (npages sz) =
        Function.update (shrunk (So.content old) v (npages sz)) v (So.content old v) := by
      funext u
      by_cases huv : u = v
      · rw [huv, Function.update_self]
        exact if_neg (by omega)
      · rw [Function.update_of_ne huv, shrunk, shrunk]
        exact if_congr (by omega) rfl rfl
    have hstep := fun h' => ih (h := h') (v := v + 1) (by omega)
    rw [Nat.add_mul, Nat.one_mul] at hstep
    have hskip : So.leaf v = 0 → Filled img P.pool old _ root sz ntf extra (v + 1) h := fun hzero =>
      ⟨new, hs, by rwa [hnext, Space.content_of_zero hzero, ← hnone, Function.update_eq_self]⟩
    rw [copyLoop]
    refine walk_load_frame hmem hrep hs hva (fun hzero => hstep h (hskip ?_)) fun page _ => ?_
    · rwa [vpn_mul] at hzero
    rw [vpn_mul]
    split
    · rename_i hinvalid
      exact hstep h (hskip (So.leaf_eq_zero hinvalid))
    rename_i hvalid
    have hne : So.leaf v ≠ 0 := fun h => hvalid (by simp [h])
    obtain ⟨data, hdata⟩ := Option.ne_none_iff_exists'.mp
      (hrep.holds_ne_none (.user v) ⟨huser, hne, rfl⟩)
    refine wp_bind (wp_kalloc hmem (fun _ => ⟨v, by omega, (if_pos hv).symm, hfill⟩)
      fun mem hpool hfree => ?_)
    obtain ⟨holdfree, hnewfree⟩ := hs.eq_none.mp hfree
    -- the new page is not the one that is copied, which `old` has
    have hpage : (Cell.page (pte2pa (So.leaf v))) ≠ .page mem := by
      intro heq
      rw [← heq, hdata] at holdfree
      cases holdfree
    have hs₁ := hs.symm.update_left holdfree (some data)
    refine wp_bind ⟨data, ?_, wp_bind ⟨filled 5, by simp, ?_⟩⟩
    · rw [Function.update_of_ne hpage]
      exact hs.of_left hdata
    have hlt : pteFlags (So.leaf v) < 1024 := by
      rw [pteFlags_eq_mod]
      exact Nat.mod_lt _ (by decide)
    rw [Function.update_idem]
    refine wp_seq (wp_frame (mapPage_spec hmem hview hv hnone hpool hnewfree hlt
      (by rw [and_mask_pteFlags _ (by decide)]; exact (So.leafWord v hne).leaf) data) hs₁) ?_
    rintro ok h' ⟨new', hs₂, hok⟩
    cases ok with
    | true =>
      obtain ⟨S, hroot, hlayout', hrep', hcontent, -⟩ := hok
      refine hstep h' ⟨new', hs₂.symm, S, hroot, hlayout', hrep', ?_⟩
      -- `mappages` adds `PTE_V`, which is among the flags already
      rw [hnext, Space.content_of_data huser hne hdata, hcontent,
        or_pteV _ hlt (by rwa [and_mask_pteFlags _ (by decide)])]
    | false =>
      obtain ⟨-, hthere, hview'⟩ := hok
      refine wp_bind (wp_kfree hmem hpool (hs₂.ne_none.mpr (Or.inl hthere)) ?_)
      exact ⟨v, by omega, (if_pos hv).symm, _,
        (hs₂.update_left (hs₂.right_none hthere) none).symm, hview'⟩

theorem uvmcopy_spec (hs : Heaplet.Splits h old new) (hat : At img P.pool root 0 ntf extra new) :
    wp machine P (uvmcopy img oldRoot root sz) (fun ok h' => ∃ new', Heaplet.Splits h' old new' ∧
      if ok then View img P.pool root sz ntf extra pages new'
      else At img P.pool root 0 ntf extra new') h := by
  have hsize : sz ≤ trapframe := hold.at.elim fun _ hS => hS.2.1.size
  have htop : npages sz ≤ userTop := npages_le.mpr hsize
  have hafter : ∀ u w, u ≤ w → shrunk pages u (npages sz) w = none := by
    intro u w hle
    rw [shrunk]
    split
    · rfl
    · exact hold.unmapped (by omega)
  have hnothing : Filled img P.pool old pages root sz ntf extra 0 h := by
    obtain ⟨S, hroot, hlayout, hrep⟩ := hat
    refine ⟨new, hs, S, hroot, hlayout.reserve (Nat.zero_le sz) hsize, hrep, funext fun u => ?_⟩
    have hempty : View img P.pool S.root 0 ntf extra _ new := ⟨S, rfl, hlayout, hrep, rfl⟩
    rw [hempty.unmapped (Nat.zero_le u), hafter 0 u (Nat.zero_le u)]
  have hcopy := copyLoop_spec hmem hold (Nat.zero_add (npages sz)) hnothing
  rw [Nat.zero_mul] at hcopy
  refine wp_seq hcopy ?_
  rintro r h' ⟨u, hu, rfl, new', hs', hview⟩
  by_cases hend : u < npages sz
  · rw [if_pos hend]
    obtain ⟨S, rfl, hlayout, hrep, hcontent⟩ := hview
    have hcount : u * pgSize / pgSize = u := Nat.mul_div_cancel _ (by decide)
    have hle : 0 + u * pgSize / pgSize ≤ userTop := by omega
    have hunmap : wp machine P (uvmunmap img S.root (0 * pgSize) (u * pgSize / pgSize) true) _
      new' := uvmunmap_spec hmem hrep (hle.trans (by decide)) hle
    rw [Nat.zero_mul] at hunmap
    refine wp_seq (wp_frame hunmap hs'.symm) ?_
    rintro - h'' ⟨new'', hs'', S', hclear, hrep', -⟩
    rw [hcount] at hclear
    refine ⟨new'', hs''.symm, S', hclear.root, hlayout.remaps hclear.toRemaps (Nat.zero_le _)
      (fun w hw => if_neg (by omega)) fun w hw hne => ?_, hrep'⟩
    -- what was mapped is below `u`, and nothing of it is left
    unfold cleared at hne
    split at hne
    · exact absurd rfl hne
    · refine absurd (Space.leaf_of_content hrep hw ?_) hne
      rw [hcontent, hafter u w (by omega)]
  · rw [if_neg hend]
    rw [shrunk_self (Nat.not_lt.mp hend)] at hview
    exact ⟨new', hs', hview⟩

end Copy

section Fork

variable {mm np : Mm} (hmem : Manages img P.pool)
include hmem

theorem freeprocMm_spec (hnp : MmOk img P.pool np (fun _ => False) h) :
    wp machine P (freeprocMm img np) (fun _ h' => h' = Heaplet.empty) h := by
  obtain ⟨root, tf, hpt, htf, S, rfl, hlayout, hrep⟩ := hnp
  have hmine : S.holds (fun n => n = tf ∨ False) .extra tf := Or.inl rfl
  unfold freeprocMm
  rw [hpt, htf]
  refine wp_bind (wp_kfree hmem (hrep.inPool _ hmine) (hrep.holds_ne_none _ hmine) ?_)
  have hrest : Rep P.pool S (fun _ => False) _ := (hrep.release hmine).congr_extra fun n => by simp
  exact wp_mono (procFreepagetable_spec hmem ⟨S, rfl, hlayout, hrest⟩) fun _ _ hpages =>
    hpages.eq_empty

theorem allocprocMm_spec : wp machine P (allocprocMm img) (fun r h' =>
    match r with
    | none => h' = Heaplet.empty
    | some np => np.sz = 0 ∧ MmOk img P.pool np (fun _ => False) h') Heaplet.empty := by
  refine wp_bind (wp_kalloc hmem (fun _ => wp_bind (wp_pure (wp_pure rfl))) fun tf hpool _ => ?_)
  refine wp_seq (wp_frame (procPagetable_spec hmem (hmem.fits hpool))
    (Heaplet.splits_empty _).symm) ?_
  rintro r h' ⟨own, hsplit, hown⟩
  cases r with
  | none =>
    obtain rfl : own = Heaplet.empty := hown
    obtain rfl := hsplit.symm.eq_of_right_empty
    refine wp_bind (wp_bind (wp_kfree hmem hpool (by simp) (wp_pure (wp_pure ?_))))
    simp only [Function.update_idem]
    exact Function.update_eq_self_iff.mpr rfl
  | some root =>
    obtain ⟨S, hroot, hlayout, hrep⟩ := hown
    refine ⟨rfl, root, tf, rfl, rfl, S, hroot, hlayout, ?_⟩
    exact (hrep.attach hsplit (Pages.single hpool _)).congr_extra fun n => by simp

theorem kforkMm_spec (hpt : mm.pagetable = some oldRoot) (htf : mm.trapframe = some tf)
    (hold : View img P.pool oldRoot mm.sz tf (fun n => n = tf ∨ extra n) pages h) :
    wp machine P (kforkMm img mm) (fun r h' =>
      match r with
      | none => h' = h
      | some np => ∃ new root ntf frame data, Heaplet.Splits h' h new ∧
          np = ⟨mm.sz, some root, some ntf⟩ ∧
          View img P.pool root mm.sz ntf (fun n => n = ntf ∨ False) pages new ∧
          h (.page tf) = some data ∧
          new (.page ntf) = some (setWord (copyWords frame data 36) tfA0 0)) h := by
  refine wp_seq (wp_frame (allocprocMm_spec hmem) (Heaplet.splits_empty h).symm) ?_
  rintro r h₁ ⟨new, hs₁, hr⟩
  cases r with
  | none =>
    obtain rfl : new = Heaplet.empty := hr
    exact hs₁.symm.eq_of_right_empty
  | some np =>
    obtain ⟨hsz, root, ntf, hnpt, hntf, hat⟩ := hr
    dsimp only
    rw [hpt, hnpt]
    refine wp_seq (uvmcopy_spec hmem hold hs₁.symm (by rwa [hsz] at hat)) ?_
    rintro ok h₂ ⟨new', hs₂, hok⟩
    cases ok with
    | false =>
      have hnp : MmOk img P.pool np (fun _ => False) new' := ⟨root, ntf, hnpt, hntf, by rwa [hsz]⟩
      refine wp_seq (wp_frame (freeprocMm_spec hmem hnp) hs₂.symm) ?_
      rintro - h₃ ⟨own, hs₃, rfl⟩
      exact hs₃.symm.eq_of_right_empty
    | true =>
      obtain ⟨S, hroot, hlayout, hrep, hcontent⟩ := hok
      obtain ⟨So, -, -, holdRep, -⟩ := hold
      have hmine : S.holds (fun n => n = ntf ∨ False) .extra ntf := Or.inl rfl
      obtain ⟨data, hdata⟩ := Option.ne_none_iff_exists'.mp
        (holdRep.holds_ne_none .extra (Or.inl rfl))
      obtain ⟨frame, hframe⟩ := Option.ne_none_iff_exists'.mp (hrep.holds_ne_none _ hmine)
      have hnone : h (.page ntf) = none := hs₂.left_none (by simp [hframe])
      rw [if_pos rfl, htf, hntf]
      refine wp_bind ⟨data, hs₂.of_left hdata, wp_bind ⟨frame, hs₂.of_right hframe,
        wp_bind ⟨_, Function.update_self .., wp_pure ?_⟩⟩⟩
      refine ⟨_, root, ntf, frame, data, ((hs₂.symm.update_left hnone _).update_left hnone _).symm,
        rfl, ⟨S, hroot, hlayout, (hrep.setExtra hmine _).setExtra hmine _, ?_⟩, hdata,
        Function.update_self ..⟩
      rw [← hcontent]
      refine funext fun u => Space.content_eq rfl fun hu hne => ?_
      have hother : Cell.page (pte2pa (S.leaf u)) ≠ .page ntf := by
        intro heq
        cases hrep.role_eq (.user u) .extra ⟨hu, hne, Cell.page.inj heq⟩ hmine
      rw [Function.update_of_ne hother, Function.update_of_ne hother]

end Fork

theorem word_copyWords (frame data : Data) {k n : Nat} (hk : k < n) (hn : n ≤ 512) :
    word (copyWords frame data n) k = word data k := by
  induction n with
  | zero => omega
  | succ n ih =>
    rw [copyWords]
    by_cases hkn : k = n
    · rw [hkn]
      exact word_setWord_self _ (by omega) (Bytes.getLE_lt ..)
    · rw [word_setWord_of_ne _ _ hkn, ih (by omega) (by omega)]

section Run

variable {s : Alone sig} {mm : Mm}

/-- Whatever memory there is, `kfork` gives the child the parent's pages, with the same flags and
bytes, in pages that were free, or else gives back all it has taken. -/
theorem kfork_copies (hproc : Process img s mm) :
    ∃ r s', (kforkMm img mm).run machine s = (.ok r, s') ∧
      (∀ c, c ∉ s.free → s'.mem c = s.mem c) ∧
      match r with
      | none => ∀ c, c ∈ s'.free ↔ c ∈ s.free
      | some np => ∃ root tf nroot ntf, mm.pagetable = some root ∧ mm.trapframe = some tf ∧
          np = ⟨mm.sz, some nroot, some ntf⟩ ∧ Process img s' np ∧
          memoryIn s'.mem nroot = memoryIn s.mem root ∧
          (∀ k, k < 36 → word (s'.mem (.page ntf)) k =
            if k = tfA0 then 0 else word (s.mem (.page tf)) k) ∧
          (∀ n, UsesPage s'.mem nroot n ∨ n = ntf → .page n ∈ s.free) ∧
          ∀ n, .page n ∈ s'.free ↔ .page n ∈ s.free ∧ ¬(UsesPage s'.mem nroot n ∨ n = ntf) := by
  obtain ⟨h, S, tf, hs, hpt, htf, hlayout, hrep⟩ := hproc.space
  obtain ⟨r, h', hrun, hpost, hs', hmoves⟩ := run_spec hs
    (kforkMm_spec (P := solo img True) manages_ram hpt htf ⟨S, rfl, hlayout, hrep, rfl⟩)
    (Or.inl trivial)
  generalize hend : (kforkMm img mm).run machine s = res at *
  obtain ⟨_, s'⟩ := res
  cases hrun
  refine ⟨r, s', rfl, ?_⟩
  cases r with
  | none =>
    obtain rfl : h' = h := hpost
    obtain ⟨hsame, -, hfree⟩ := hmoves.split hs hs' (Heaplet.splits_empty h')
    refine ⟨hsame, fun c => ?_⟩
    rw [hfree c]
    exact and_iff_left rfl
  | some np =>
    obtain ⟨new, _, ntf, frame, data, hsplit, rfl, ⟨S', rfl, hlayout', hrep', hcontent⟩, hdata,
      hframe⟩ := hpost
    obtain ⟨hsame, htaken, hfree⟩ := hmoves.split hs hs' hsplit
    have hmem' : ∀ c x, new c = some x → s'.mem c = x :=
      fun c x hx => hs'.mem c x (hsplit.of_right hx)
    have hnew : ∀ n, new (.page n) ≠ none ↔ UsesPage s'.mem S'.root n ∨ n = ntf := by
      intro n
      rw [hrep'.usesPage_iff hmem']
      by_cases hn : n = ntf
      · simp [hn, hframe]
      · simp [hn]
    have hchild : Process img s' ⟨mm.sz, some S'.root, some ntf⟩ :=
      ⟨new, ⟨hs'.nodup, fun c hc =>
        ⟨(hs'.listed c hc).1, (hsplit.eq_none.mp (hs'.listed c hc).2).2⟩, hmem'⟩,
        S'.root, ntf, rfl, rfl, S', rfl, hlayout', hrep'⟩
    refine ⟨hsame, S.root, tf, S'.root, ntf, hpt, htf, rfl, hchild, ?_, fun k hk => ?_,
      fun n hn => ?_, fun n => ?_⟩
    · rw [hrep'.memoryIn_eq hmem', hrep.memoryIn_eq hs.mem, hcontent]
    · rw [hmem' _ _ hframe, hs.mem _ _ hdata]
      split
      · rename_i heq
        rw [heq]
        exact word_setWord_self _ (by decide) (by decide)
      · rename_i hne
        rw [word_setWord_of_ne _ _ hne, word_copyWords _ _ hk (by decide)]
    · exact htaken _ ((hnew n).mpr hn)
    · rw [hfree, ← hnew n, not_not]

end Run

section Sample

def stackRun : Except Panic (Mm × List Outcome) × Alone sig :=
  (performAll sampleImage [.sbrk 8192 sbrkEager] sampleMm).run machine sampleStart.2

def stackMm : Mm := { sampleMm with sz := 8192 }

theorem stackRun_outcome : outcome stackRun = some (stackMm, [.returned 0]) ∧
    stackRun.2.short = false := by
  decide +kernel

theorem stackProcess : Process sampleImage stackRun.2 stackMm := by
  have hfits : ∀ a ∈ [Access.sbrk 8192 sbrkEager], a.Fits := by simp [Access.Fits]
  exact sampleProcess_run hfits stackRun_outcome

end Sample

theorem kfork_copies_stack : Process sampleImage stackRun.2 stackMm ∧
    ∃ np s' nroot, (kforkMm sampleImage stackMm).run machine stackRun.2 = (.ok (some np), s') ∧
      np.pagetable = some nroot ∧ memoryIn s'.mem nroot = memoryIn stackRun.2.mem 0x80101 := by
  have houtcome : outcome ((kforkMm sampleImage stackMm).run machine stackRun.2) =
      some (some ⟨8192, some 0x80109, some 0x80108⟩) := by decide +kernel
  obtain ⟨r, s', hrun, -, hr⟩ := kfork_copies stackProcess
  rw [hrun] at houtcome
  cases houtcome
  obtain ⟨root, tf, nroot, ntf, hpt, -, hnp, -, hmemory, -⟩ := hr
  cases hpt
  exact ⟨stackProcess, _, s', nroot, hrun, by rw [hnp], hmemory⟩

end Xv6.Vm
