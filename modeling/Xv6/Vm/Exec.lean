import Xv6.Vm.Args
import Xv6.Vm.Load

/-! `kexec`: the new image is built beside the old one, which is given up only when
nothing can fail any more. -/
namespace Xv6.Vm

open Lib

variable {img : Image} {P : Protocol sig} {h new rest : Heap}
  {root sz tf : Nat} {mapped : UserPages} {mm : Mm} {argv : List Nat}
  {strings : List (List UInt8)}

theorem Loaded.round {pool : Cell → Prop} (hload : Loaded img pool root sz tf mapped h) :
    Loaded img pool root (npages sz * pgSize) tf mapped h := by
  have hsame := npages_mul (npages sz)
  obtain ⟨⟨S, hroot, hlayout, hrep, hcontent⟩, hdense⟩ := hload
  refine ⟨⟨S, hroot, ⟨?_, hlayout.trampoline, hlayout.trapframe, ?_⟩, hrep, hcontent⟩, ?_⟩
  · exact Nat.le_trans (Nat.mul_le_mul_right _ hlayout.npages_le_userTop) (by decide)
  · rw [hsame]
    exact hlayout.user
  · intro u hu
    rw [hsame] at hu
    exact hdense u hu

theorem Loaded.start {pool : Cell → Prop} (hat : At img pool root 0 tf (fun _ => False) h) :
    Loaded img pool root 0 tf (fun _ => none) h := by
  obtain ⟨S, hroot, hlayout, hrep⟩ := hat
  refine ⟨⟨S, hroot, hlayout, hrep, funext fun v => ?_⟩, fun u hu => absurd hu (Nat.not_lt_zero u)⟩
  unfold Space.content
  split
  · rename_i hv
    exact absurd (hlayout.leaf_eq_zero (Nat.zero_le v) hv.1) hv.2
  · rfl

structure Finished (mapped : UserPages) (sz : Nat) (strings : List (List UInt8))
    (mapped' : UserPages) (sz' : Nat) : Prop where
  size : sz' = (npages sz + 2) * pgSize
  below : ∀ u, u < npages sz → mapped' u = mapped u
  guard : mapped' (npages sz) = some (pteR ||| pteW ||| pteV, filled 0)
  stack : Usable true mapped' (npages sz + 1)
  args : ∃ sp addrs, ArgStack mapped' (sz' - pgSize) sz' strings sp addrs

def segments (file : List UInt8) : List Segment :=
  segmentsFrom file (field (file.take elfSize) 56 2) (field (file.take elfSize) 32 8)

def phoff (file : List UInt8) : Nat := field (file.take elfSize) 32 8

theorem ofBytes_lt (bytes : List UInt8) : ofBytes bytes < 256 ^ bytes.length := by
  induction bytes with
  | nil => decide
  | cons byte rest ih =>
    have hbyte : byte.toNat < 256 := UInt8.toNat_lt byte
    rw [ofBytes, List.length_cons, Nat.pow_succ]
    omega

theorem field_lt (bytes : List UInt8) (offset width : Nat) :
    field bytes offset width < 256 ^ width :=
  Nat.lt_of_lt_of_le (ofBytes_lt _) (Nat.pow_le_pow_right (by decide) (List.length_take_le _ _))

section Specs

variable (hmem : Manages img P.pool)
include hmem

theorem execBad_spec (hs : Heaplet.Splits h new rest)
    (hat : At img P.pool root sz tf (fun _ => False) new) :
    wp machine P (execBad img root sz mm) (fun r h' => r = (mm, minusOne) ∧ h' = rest) h := by
  refine wp_seq (wp_frame (procFreepagetable_spec hmem hat) hs) ?_
  rintro - h' ⟨new', hs', hpages⟩
  refine ⟨rfl, ?_⟩
  rw [hpages.eq_empty] at hs'
  exact ((Heaplet.splits_empty rest).symm.unique hs')

theorem procFreepagetable_beside {extra : Nat → Prop} {n : Nat} {data : Data}
    (hat : At img P.pool root sz tf extra h) (hn : extra n) (hdata : h (.page n) = some data) :
    wp machine P (procFreepagetable img root sz)
      (fun _ h' => Pages P.pool extra h' ∧ h' (.page n) = some data) h := by
  obtain ⟨S, hroot, hlayout, hrep⟩ := hat
  have hsplit := Heaplet.splits_single h (.page n)
  rw [hdata] at hsplit
  refine wp_mono (wp_frame (procFreepagetable_spec hmem ⟨S, hroot, hlayout, hrep.release hn⟩)
    hsplit) ?_
  rintro - h' ⟨own, hs, hpages⟩
  refine ⟨⟨fun c => ?_, fun m hm => hrep.inPool .extra hm⟩, hs.of_right (Function.update_self ..)⟩
  rw [hs.ne_none, hpages.iff c]
  by_cases hc : c = .page n
  · subst hc
    simp [hn]
  · rw [Function.update_of_ne hc]
    constructor
    · rintro (⟨m, rfl, hm, -⟩ | hne)
      · exact ⟨m, rfl, hm⟩
      · exact absurd rfl hne
    · rintro ⟨m, rfl, hm⟩
      exact Or.inl ⟨m, rfl, hm, fun heq => hc (by rw [heq])⟩

def StartsAt (sp : Nat) (trapframe : Option Data) : Prop :=
  ∃ data, trapframe = some data ∧ word data tfA1 = sp ∧ word data tfSp = sp

theorem execCommit_spec {entry sp argc : Nat} (hs : Heaplet.Splits h new rest)
    (htf : mm.trapframe = some tf) (hsp : sp < 2 ^ 64)
    (hmm : MmOk img P.pool mm (fun n => n ∈ argv) rest) :
    wp machine P (execCommit img mm tf root sz sp entry argc) (fun r h' =>
      r = ({ mm with pagetable := some root, sz := sz }, argc) ∧ ∃ rest',
        Heaplet.Splits h' new rest' ∧ Pages P.pool (fun n => n = tf ∨ n ∈ argv) rest' ∧
        StartsAt sp (rest' (.page tf))) h := by
  obtain ⟨old, tf', hpt, htf', S, hroot, hlayout, hrep⟩ := hmm
  cases htf.symm.trans htf'
  obtain ⟨data, hdata⟩ := Option.ne_none_iff_exists'.mp (hrep.holds_ne_none .extra (Or.inl rfl))
  -- three words of the trapframe are written
  have hstore : ∀ {h : Heap} {data : Data}, Rep P.pool S (fun n => n = tf ∨ n ∈ argv) h →
      h (.page tf) = some data → ∀ x value, wp machine P (store tf x value) (fun _ h' =>
        Rep P.pool S (fun n => n = tf ∨ n ∈ argv) h' ∧
        h' (.page tf) = some (setWord data x value)) h :=
    fun hrep hdata x value =>
      wp_store hdata ⟨hrep.setExtra (Or.inl rfl) _, Function.update_self ..⟩
  unfold execCommit deref
  rw [hpt]
  refine wp_seq (wp_frame (hstore hrep hdata _ _) hs.symm) ?_
  rintro - h₁ ⟨rest₁, hs₁, hrep₁, hdata₁⟩
  refine wp_seq (wp_frame (hstore hrep₁ hdata₁ _ _) hs₁) ?_
  rintro - h₂ ⟨rest₂, hs₂, hrep₂, hdata₂⟩
  refine wp_seq (wp_frame (hstore hrep₂ hdata₂ _ _) hs₂) ?_
  rintro - h₃ ⟨rest₃, hs₃, hrep₃, hdata₃⟩
  refine wp_seq (wp_frame (procFreepagetable_beside hmem ⟨S, hroot, hlayout, hrep₃⟩ (Or.inl rfl)
    hdata₃) hs₃) ?_
  rintro - h₄ ⟨rest₄, hs₄, hpages, hdata₄⟩
  refine ⟨rfl, rest₄, hs₄.symm, hpages, _, hdata₄, ?_, word_setWord_self _ (by decide) hsp⟩
  rw [word_setWord_of_ne _ _ (by decide), word_setWord_of_ne _ _ (by decide),
    word_setWord_self _ (by decide) hsp]

theorem execArgs_spec {base entry : Nat} (hs : Heaplet.Splits h new rest)
    (hview : View img P.pool root sz tf (fun _ => False) mapped new)
    (htf : mm.trapframe = some tf) (hmm : MmOk img P.pool mm (fun n => n ∈ argv) rest)
    (hargs : List.Forall₂ (fun a s => ∃ data, rest (.page a) = some data ∧ cstring data = s)
      argv strings)
    (hlens : ∀ s ∈ strings, s.length < pgSize) (hcount : strings.length < maxArg)
    (hsz : sz = base + pgSize) (haligned : base % pgSize = 0) (hpage : pgSize ≤ base)
    (hfits : sz < 2 ^ 64) (huse : Usable true mapped (vpn base)) :
    wp machine P (execArgs img mm tf root sz entry argv) (fun r h' =>
      (r = (mm, minusOne) ∧ h' = rest ∧ ¬Fits base sz strings) ∨ ∃ mapped' new' rest' sp addrs,
        r = ({ mm with pagetable := some root, sz := sz }, strings.length) ∧
        Heaplet.Splits h' new' rest' ∧
        View img P.pool root sz tf (fun _ => False) mapped' new' ∧
        Pages P.pool (fun n => n = tf ∨ n ∈ argv) rest' ∧ StartsAt sp (rest' (.page tf)) ∧
        Fits base sz strings ∧ ArgStack mapped' base sz strings sp addrs ∧
        Usable true mapped' (vpn base) ∧ ∀ u, u ≠ vpn base → mapped' u = mapped u) h := by
  unfold execArgs
  refine wp_seq (buildStack_spec hmem hs hview hargs hlens hcount hsz haligned hpage hfits huse) ?_
  rintro r h₁ ⟨new₁, mapped₁, hs₁, hview₁, huse₁, hother, hnone, hsome⟩
  cases r with
  | none =>
    refine wp_mono (execBad_spec hmem hs₁ hview₁.at) ?_
    rintro r h' ⟨rfl, rfl⟩
    exact Or.inl ⟨rfl, rfl, hnone rfl⟩
  | some result =>
    obtain ⟨sp, argc⟩ := result
    obtain ⟨hfit, rfl, addrs, hstack⟩ := hsome sp argc rfl
    have hsp : sp < 2 ^ 64 := by
      have := hstack.array_le
      omega
    refine wp_mono (execCommit_spec hmem hs₁ htf hsp hmm) ?_
    rintro r h₂ ⟨rfl, rest₂, hs₂, hpages, hstarts⟩
    exact Or.inr ⟨mapped₁, new₁, rest₂, sp, addrs, rfl, hs₂, hview₁, hpages, hstarts, hfit, hstack,
      huse₁, hother⟩

theorem execStack_spec {entry : Nat} (hs : Heaplet.Splits h new rest)
    (hload : Loaded img P.pool root sz tf mapped new) (htf : mm.trapframe = some tf)
    (hmm : MmOk img P.pool mm (fun n => n ∈ argv) rest)
    (hargs : List.Forall₂ (fun a s => ∃ data, rest (.page a) = some data ∧ cstring data = s)
      argv strings)
    (hlens : ∀ s ∈ strings, s.length < pgSize) (hcount : strings.length < maxArg) :
    wp machine P (execStack img mm tf root sz entry argv) (fun r h' =>
      (r = (mm, minusOne) ∧ h' = rest) ∨ ∃ sz' mapped' new' rest',
        r = ({ mm with pagetable := some root, sz := sz' }, strings.length) ∧
        Heaplet.Splits h' new' rest' ∧
        View img P.pool root sz' tf (fun _ => False) mapped' new' ∧
        Pages P.pool (fun n => n = tf ∨ n ∈ argv) rest' ∧
        Finished mapped sz strings mapped' sz') h := by
  have hsize := hload.size_le hmem
  have hround := hload.round
  have hpages : npages (npages sz * pgSize + 2 * pgSize) = npages sz + 2 := by
    rw [← Nat.add_mul, npages_mul]
  have hpages' := npages_mul (npages sz)
  unfold execStack
  dsimp only
  rw [pgRoundUp_npages (by unfold pgSize; omega)]
  refine wp_seq (wp_frame (uvmalloc_loaded hmem (by decide) hround) hs) ?_
  rintro r h₁ ⟨new₁, hs₁, ⟨rfl, hload₁⟩ | ⟨rfl, hload₁⟩⟩
  · rw [if_pos rfl]
    refine wp_mono (execBad_spec hmem hs₁ hload₁.1.at) fun r h' hr => Or.inl hr
  have hmax : max (npages sz * pgSize) (npages sz * pgSize + 2 * pgSize) =
      npages sz * pgSize + 2 * pgSize := Nat.max_eq_right (Nat.le_add_right _ _)
  rw [hmax, hpages, hpages'] at hload₁
  rw [hmax]
  have hpos : ¬npages sz * pgSize + 2 * pgSize = 0 := by
    unfold pgSize
    omega
  rw [if_neg hpos, Nat.add_sub_cancel]
  obtain ⟨hview₁, hdense₁⟩ := hload₁
  have hguard : fresh (pteR ||| pteU ||| pteW ||| pteV) mapped (npages sz) (npages sz + 2)
      (npages sz) = some (pteR ||| pteU ||| pteW ||| pteV, filled 0) :=
    if_pos ⟨Nat.le_refl _, by omega⟩
  refine wp_seq (wp_frame (uvmclear_view hmem (by omega) hview₁ hguard) hs₁) ?_
  rintro - h₂ ⟨new₂, hs₂, hview₂⟩
  generalize hstack : Function.update (fresh (pteR ||| pteU ||| pteW ||| pteV) mapped (npages sz)
    (npages sz + 2)) (npages sz) (some (pteR ||| pteW ||| pteV, filled 0)) = mapped₂ at hview₂
  have huse : Usable true mapped₂ (npages sz + 1) := by
    refine ⟨pteR ||| pteU ||| pteW ||| pteV, filled 0, ?_, by decide, fun _ => by decide⟩
    rw [← hstack, Function.update_of_ne (by omega)]
    exact if_pos ⟨Nat.le_succ _, by omega⟩
  have hbase : vpn (npages sz * pgSize + pgSize) = npages sz + 1 := by
    rw [← Nat.succ_mul, vpn_mul]
  have htop : npages sz * pgSize + 2 * pgSize < 2 ^ 64 := by
    have hfew : npages sz ≤ 2 ^ 15 := npages_le.mpr (by unfold pgSize; omega)
    unfold pgSize
    omega
  have htwo : npages sz * pgSize + 2 * pgSize = npages sz * pgSize + pgSize + pgSize := by omega
  refine wp_mono (execArgs_spec hmem hs₂ hview₂ htf hmm hargs hlens hcount htwo ?_
    (Nat.le_add_left _ _) htop (by rwa [hbase])) ?_
  · rw [← Nat.succ_mul, Nat.mul_mod_left]
  rintro r h₃ (⟨hbad, hsame, -⟩ | ⟨mapped₃, new₃, rest₃, sp, addrs, hr, hs₃, hview₃, hpages₃, -, -,
    hargstack, huse₃, hother⟩)
  · exact Or.inl ⟨hbad, hsame⟩
  refine Or.inr ⟨_, mapped₃, new₃, rest₃, hr, hs₃, hview₃, hpages₃, ?_⟩
  rw [hbase] at huse₃ hother
  refine ⟨by rw [Nat.add_mul], fun u hu => ?_, ?_, huse₃, sp, addrs, ?_⟩
  · rw [hother u (by omega), ← hstack, Function.update_of_ne (by omega)]
    exact if_neg (by omega)
  · rw [hother _ (by omega), ← hstack, Function.update_self]
  · rwa [show npages sz * pgSize + 2 * pgSize - pgSize = npages sz * pgSize + pgSize by omega]

theorem kexec_spec {file : Option (List UInt8)} (hmm : MmOk img P.pool mm (fun n => n ∈ argv) h)
    (hargs : List.Forall₂ (fun a s => ∃ data, h (.page a) = some data ∧ cstring data = s)
      argv strings)
    (hlens : ∀ s ∈ strings, s.length < pgSize) (hcount : strings.length < maxArg) :
    wp machine P (kexec img file argv mm) (fun r h' =>
      (r = (mm, minusOne) ∧ h' = h) ∨ ∃ bytes root tf sz mapped sz' mapped' new rest,
        file = some bytes ∧ mm.trapframe = some tf ∧
        r = ({ mm with pagetable := some root, sz := sz' }, strings.length) ∧
        Heaplet.Splits h' new rest ∧
        View img P.pool root sz' tf (fun _ => False) mapped' new ∧
        Pages P.pool (fun n => n = tf ∨ n ∈ argv) rest ∧
        Finished mapped sz strings mapped' sz' ∧
        Dense mapped sz ∧
        (phoff bytes < 2 ^ 31 → (∀ g ∈ segments bytes, g.off < 2 ^ 31) →
          (∀ g ∈ segments bytes, g.Good bytes) ∧
          (mapped, sz) = (segments bytes).foldl (loadSegment bytes) (fun _ => none, 0))) h := by
  have hsame : ((mm, minusOne) = (mm, minusOne) ∧ h = h) := ⟨rfl, rfl⟩
  unfold kexec
  cases file with
  | none => exact Or.inl hsame
  | some bytes =>
    dsimp only
    generalize helf : readi bytes 0 elfSize = elf
    by_cases hshort : elf.length ≠ elfSize
    · rw [if_pos hshort]
      exact Or.inl hsame
    have helf' : bytes.take elfSize = elf := by
      rw [readi, if_neg (by simp)] at helf
      exact helf
    rw [if_neg hshort]
    by_cases hmagic : field elf 0 4 ≠ elfMagic
    · rw [if_pos hmagic]
      exact Or.inl hsame
    rw [if_neg hmagic]
    obtain ⟨old, tf, hpt, htf, hat⟩ := hmm
    have htf54 : tf < 2 ^ 54 := by
      obtain ⟨S, -, -, hrep⟩ := hat
      exact hmem.fits (hrep.inPool .extra (Or.inl rfl))
    unfold deref
    rw [htf]
    refine wp_seq (wp_frame (procPagetable_spec hmem htf54) (Heaplet.splits_empty h).symm) ?_
    rintro r h₁ ⟨new₁, hs₁, hr⟩
    cases r with
    | none =>
      rw [show new₁ = Heaplet.empty from hr] at hs₁
      exact Or.inl ⟨rfl, (Heaplet.splits_empty h).symm.unique hs₁⟩
    | some root =>
      have hload : Loaded img P.pool root 0 tf (fun _ => none) new₁ := .start hr
      refine wp_seq (wp_frame (loadProgs_loaded hmem hload) hs₁) ?_
      rintro ⟨ok, sz⟩ h₂ ⟨new₂, hs₂, mapped, hload₂, hok⟩
      cases ok with
      | false =>
        exact wp_mono (execBad_spec hmem hs₂ hload₂.1.at) fun r h' hr => Or.inl hr
      | true =>
        refine wp_mono (execStack_spec hmem hs₂ hload₂ htf ⟨old, tf, hpt, htf, hat⟩ hargs hlens
          hcount) ?_
        rintro r h₃ (hbad | ⟨sz', mapped', new₃, rest₃, hres, hs₃, hview, hpages, hfinished⟩)
        · exact Or.inl hbad
        rw [htf] at hres
        refine Or.inr ⟨bytes, root, tf, sz, mapped, sz', mapped', new₃, rest₃, rfl, rfl, hres, hs₃,
          hview, hpages, hfinished, hload₂.2, fun hphoff hoffs => ?_⟩
        unfold phoff at hphoff
        unfold segments at hoffs ⊢
        rw [helf'] at hphoff hoffs ⊢
        have hmod : field elf 32 8 % 2 ^ 32 = field elf 32 8 := Nat.mod_eq_of_lt (by omega)
        have hphnum := field_lt elf 56 2
        rw [hmod] at hok
        exact hok rfl (by unfold phSize; omega) hoffs

end Specs

section Run

variable {s s' : Alone sig} {mm' : Mm} {ret : Nat} {file : List UInt8}

def Calling (img : Image) (s : Alone sig) (mm : Mm) (argv : List Nat) : Prop :=
  ∃ h, s.Has (ram img) h ∧ MmOk img (ram img) mm (fun n => n ∈ argv) h

theorem MmOk.holds_args {h : Heap} (hmm : MmOk img (ram img) mm (fun n => n ∈ argv) h)
    (hmem : ∀ c x, h c = some x → s.mem c = x) :
    ∀ a ∈ argv, h (.page a) = some (s.mem (.page a)) := by
  intro a ha
  obtain ⟨old, tf, -, -, S, -, -, hrep⟩ := hmm
  obtain ⟨data, hdata⟩ := Option.ne_none_iff_exists'.mp (hrep.holds_ne_none .extra (Or.inr ha))
  rw [hmem _ _ hdata, hdata]

/-- A process that calls `kexec`, with the pages of its arguments, and beside it the page table
of the new program. -/
def Starting (img : Image) (s : Alone sig) (mm : Mm) (root sz tf : Nat) (argv : List Nat) : Prop :=
  ∃ S h own rest, Heaplet.Splits h own rest ∧ s.Has (ram img) h ∧ S.root = root ∧
    Layout img S sz tf ∧ Rep (ram img) S (fun _ => False) own ∧ mm.trapframe = some tf ∧
    MmOk img (ram img) mm (fun n => n ∈ argv) rest

/-- The stack of the new program is built if it fits, and the program finds it by `a1` and `sp`;
the code's stack pointer never wraps. -/
theorem execArgs_exact (hstart : Starting img s mm root sz tf argv) (haligned : sz % pgSize = 0)
    (htwo : 2 * pgSize ≤ sz) (huse : Usable true (memoryIn s.mem root) (vpn (sz - pgSize)))
    (hcount : argv.length ≤ maxArg - 1)
    (hnul : ∀ a ∈ argv, (cstring (s.mem (.page a))).length ≤ pgSize - 1) (entry : Nat) :
    (∃ mm' ret s', (execArgs img mm tf root sz entry argv).run machine s = (.ok (mm', ret), s') ∧
      ((ret = minusOne ∧ mm' = mm ∧ ¬Fits (sz - pgSize) sz (argStrings s argv)) ∨
      Fits (sz - pgSize) sz (argStrings s argv) ∧ ret = argv.length ∧
        mm' = { mm with pagetable := some root, sz := sz } ∧
        word (s'.mem (.page tf)) tfSp = word (s'.mem (.page tf)) tfA1 ∧
        ∃ addrs, ArgStack (memoryIn s'.mem root) (sz - pgSize) sz (argStrings s argv)
          (word (s'.mem (.page tf)) tfA1) addrs)) ∧
    (∀ before string after, argStrings s argv = before ++ string :: after →
      sz - pgSize ≤ pushedAll sz before → string.length + 1 ≤ pushedAll sz before) ∧
    (sz - pgSize ≤ pushedAll sz (argStrings s argv) →
      8 * (argv.length + 1) ≤ pushedAll sz (argStrings s argv)) := by
  refine ⟨?_, push_no_wrap htwo hcount hnul⟩
  obtain ⟨S, h, own, rest, hsplit, hs, rfl, hlayout, hrep, htf, hmm⟩ := hstart
  have hown : ∀ c x, own c = some x → s.mem c = x := fun c x hx => hs.mem c x (hsplit.of_left hx)
  have hview : View img (ram img) S.root sz tf (fun _ => False) (memoryIn s.mem S.root) own :=
    ⟨S, rfl, hlayout, hrep, (hrep.memoryIn_eq hown).symm⟩
  have hlength : (argStrings s argv).length = argv.length := List.length_map ..
  have hargc : (argStrings s argv).length < maxArg := by
    rw [hlength]
    exact Nat.lt_of_le_of_lt hcount (by decide)
  have hsize : sz < 2 ^ 64 := Nat.lt_of_le_of_lt hlayout.size (by decide)
  have hspec : wp machine (solo img True) (execArgs img mm tf S.root sz entry argv) _ h :=
    execArgs_spec manages_ram hsplit hview htf hmm
      (argStrings_held (hmm.holds_args fun c x hx => hs.mem c x (hsplit.of_right hx)))
      (argStrings_short hnul) hargc (by omega) (by unfold pgSize at *; omega) (by omega) hsize huse
  obtain ⟨⟨mm', ret⟩, h', hres, hpost, hs', -⟩ := run_spec hs hspec (Or.inl trivial)
  refine ⟨mm', ret, _, Prod.ext hres rfl, ?_⟩
  rcases hpost with ⟨hbad, -, hfit⟩ | ⟨mapped', own', rest', sp, addrs, hr, hsplit',
    ⟨S', hroot, -, hrep', rfl⟩, -, ⟨data, hdata, hsp, hsp'⟩, hfit, hstack, -⟩
  · cases hbad
    exact Or.inl ⟨rfl, rfl, hfit⟩
  · cases hr
    have hmemory := hrep'.memoryIn_eq fun c x hx => hs'.mem c x (hsplit'.of_left hx)
    have htrapframe := hs'.mem _ _ (hsplit'.of_right hdata)
    rw [hroot] at hmemory
    rw [htrapframe, hsp, hsp', hmemory]
    exact Or.inr ⟨hfit, hlength, rfl, rfl, addrs, hstack⟩

/-- `kexec` that succeeds has loaded every segment; all its memory is mapped, of which the page
below the stack is not for the user. -/
theorem kexec_loads (hcall : Calling img s mm argv) (hcount : argv.length ≤ maxArg - 1)
    (hnul : ∀ a ∈ argv, (cstring (s.mem (.page a))).length ≤ pgSize - 1)
    (hphoff : phoff file < 2 ^ 31) (hoffs : ∀ g ∈ segments file, g.off < 2 ^ 31)
    (hapart : Apart (segments file))
    (hrun : (kexec img (some file) argv mm).run machine s = (.ok (mm', ret), s'))
    (hret : ret ≠ minusOne) :
    ∃ root, mm'.pagetable = some root ∧
      (∀ g ∈ segments file, g.Present file (memoryIn s'.mem root)) ∧
      (∀ v, v < npages mm'.sz → memoryIn s'.mem root v ≠ none) ∧
      (∃ flags data, memoryIn s'.mem root (npages mm'.sz - 2) = some (flags, data) ∧
        flags &&& pteU = 0) ∧
      mm'.sz = (npages (topOf (segments file)) + 2) * pgSize := by
  obtain ⟨h, hs, hmm⟩ := hcall
  have hpages := hmm.holds_args hs.mem
  have hargc : (argStrings s argv).length < maxArg := by
    rw [argStrings, List.length_map]
    exact Nat.lt_of_le_of_lt hcount (by decide)
  have hspec : wp machine (solo img True) (kexec img (some file) argv mm) _ h :=
    kexec_spec manages_ram hmm (argStrings_held hpages) (argStrings_short hnul) hargc
  obtain ⟨r, h', hres, hpost, hs', -⟩ := run_spec hs hspec (Or.inl trivial)
  rw [hrun] at hres hs'
  cases hres
  rcases hpost with ⟨hbad, -⟩ | ⟨bytes, root, tf, sz, mapped, sz', mapped', new, rest, hfile, -, hr,
    hsplit, hview, -, hfinished, hdense, hloads⟩
  · cases hbad
    exact absurd rfl hret
  cases hfile
  cases hr
  obtain ⟨hgood, himage⟩ := hloads hphoff hoffs
  obtain ⟨hsize, hpresent⟩ := image_present hgood hapart
  rw [← himage] at hsize hpresent
  subst hsize
  obtain ⟨S, rfl, hlayout, hrep, rfl⟩ := hview
  have hmemory : memoryIn s'.mem S.root = S.content new :=
    hrep.memoryIn_eq fun c x hx => hs'.mem c x (hsplit.of_left hx)
  have hcount' : npages ((npages (topOf (segments file)) + 2) * pgSize) =
      npages (topOf (segments file)) + 2 := npages_mul _
  have hsz := hfinished.size
  refine ⟨S.root, rfl, ?_⟩
  rw [hmemory]
  refine ⟨fun g hg => ?_, fun v hv => ?_, ?_, hsz⟩
  · refine (hpresent g hg).congr (hgood g hg) fun v hv => hfinished.below v ?_
    exact Nat.lt_of_lt_of_le hv.2 (npages_mono (finish_le_topOf hg))
  · dsimp only at hv
    rw [hsz, hcount'] at hv
    by_cases hbelow : v < npages (topOf (segments file))
    · obtain ⟨flags, data, hpage, -⟩ := hdense v hbelow
      rw [hfinished.below v hbelow, hpage]
      exact Option.some_ne_none _
    · by_cases hguard : v = npages (topOf (segments file))
      · rw [hguard, hfinished.guard]
        exact Option.some_ne_none _
      · obtain ⟨flags, data, hpage, -⟩ := hfinished.stack
        rw [show v = npages (topOf (segments file)) + 1 by omega, hpage]
        exact Option.some_ne_none _
  · dsimp only
    rw [hsz, hcount', Nat.add_sub_cancel]
    exact ⟨_, _, hfinished.guard, by decide⟩

/-- Whatever the file, and wherever memory comes to an end: `kexec` fails and leaves everything as
it was, or it has freed the pages of the old image and taken those of the new one. -/
theorem kexec_all_or_nothing (hcall : Calling img s mm argv) (hcount : argv.length ≤ maxArg - 1)
    (hnul : ∀ a ∈ argv, (cstring (s.mem (.page a))).length ≤ pgSize - 1)
    (file : Option (List UInt8)) :
    ∃ mm' ret s', (kexec img file argv mm).run machine s = (.ok (mm', ret), s') ∧
      Calling img s' mm' argv ∧
      ((ret = minusOne ∧ mm' = mm ∧ (∀ c, c ∈ s'.free ↔ c ∈ s.free) ∧
        ∀ c, c ∉ s.free → s'.mem c = s.mem c) ∨
      ret = argv.length ∧ mm'.trapframe = mm.trapframe ∧
        ∃ old new, mm.pagetable = some old ∧ mm'.pagetable = some new ∧ ∀ n, .page n ∈ s'.free ↔
          (.page n ∈ s.free ∨ UsesPage s.mem old n) ∧ ¬UsesPage s'.mem new n) := by
  obtain ⟨h, hs, hmm⟩ := hcall
  have hpages := hmm.holds_args hs.mem
  have hargc : (argStrings s argv).length < maxArg := by
    rw [argStrings, List.length_map]
    exact Nat.lt_of_le_of_lt hcount (by decide)
  have hspec : wp machine (solo img True) (kexec img file argv mm) _ h :=
    kexec_spec manages_ram hmm (argStrings_held hpages) (argStrings_short hnul) hargc
  obtain ⟨⟨mm', ret⟩, h', hrun, hpost, hs', hmoves⟩ := run_spec hs hspec (Or.inl trivial)
  generalize (kexec img file argv mm).run machine s = res at *
  obtain ⟨_, s'⟩ := res
  cases hrun
  refine ⟨mm', ret, s', rfl, ?_⟩
  rcases hpost with ⟨hbad, rfl⟩ | ⟨bytes, root, tf, sz, mapped, sz', mapped', new, rest, -, htf, hr,
    hsplit, ⟨S, rfl, hlayout, hrep, -⟩, hrest, -⟩
  · cases hbad
    obtain ⟨hsame, -, hfree⟩ := hmoves.split hs hs' (Heaplet.splits_empty h')
    refine ⟨⟨h', hs', hmm⟩, Or.inl ⟨rfl, rfl, fun c => ?_, hsame⟩⟩
    rw [hfree c]
    exact and_iff_left rfl
  · cases hr
    obtain ⟨old, tf', hpt, htf', So, rfl, -, hold⟩ := hmm
    obtain rfl : tf' = tf := Option.some.inj (htf'.symm.trans htf)
    refine ⟨⟨h', hs', S.root, tf', rfl, htf, S, rfl, hlayout, ?_⟩, Or.inr ⟨?_, rfl, So.root, S.root,
      hpt, rfl, fun n => ?_⟩⟩
    · exact (hrep.attach hsplit hrest).congr_extra fun n => by simp
    · exact List.length_map ..
    · rw [hmoves.mem_free_iff hs', hsplit.eq_none, hold.usesPage_iff hs.mem,
        hrep.usesPage_iff fun c x hx => hs'.mem c x (hsplit.of_left hx)]
      have hkept := hrest.iff (.page n)
      simp only [Cell.page.injEq, exists_eq_left'] at hkept
      by_cases hn : n = tf' ∨ n ∈ argv
      · have hmine : h (.page n) ≠ none := hold.holds_ne_none .extra hn
        have hfree : .page n ∉ s.free := fun hfree => hmine (hs.listed _ hfree).2
        simp [hn, hfree, hkept.mpr hn]
      · simp [hn, not_not.mp (mt hkept.mp hn)]

end Run

section Sample

def elfHeader (phnum : Nat) : List UInt8 :=
  toBytes 4 elfMagic ++ toBytes 20 0 ++ toBytes 8 0 ++ toBytes 8 64 ++ toBytes 16 0 ++
    toBytes 2 phnum ++ toBytes 6 0

def progHeader (flags off vaddr filesz memsz : Nat) : List UInt8 :=
  toBytes 4 1 ++ toBytes 4 flags ++ toBytes 8 off ++ toBytes 8 vaddr ++ toBytes 8 0 ++
    toBytes 8 filesz ++ toBytes 8 memsz ++ toBytes 8 4096

def textAndData : List UInt8 :=
  elfHeader 2 ++ progHeader 5 0 0 3 8 ++ progHeader 6 0 4096 0 5

def emptyInside : List UInt8 :=
  elfHeader 2 ++ progHeader 5 0 0 3 8192 ++ progHeader 5 0 4096 0 0

section Stages

variable {α β : Type} {p : Code β} {q : β → Code α} {s : Alone sig} {a : α}

theorem run_rest (hrun : ((p >>= q).run machine s).1 = .ok a) :
    ∃ b s', ((q b).run machine s').1 = .ok a := by
  rw [Prog.run_bind (S := sig)] at hrun
  split at hrun
  · exact ⟨_, _, hrun⟩
  · cases hrun

theorem execCommit_returns {r : Mm × Nat} {sp entry argc : Nat}
    (hrun : ((execCommit img mm tf root sz sp entry argc).run machine s).1 = .ok r) :
    r = ({ mm with pagetable := some root, sz := sz }, argc) := by
  unfold execCommit deref at hrun
  cases hpt : mm.pagetable with
  | none =>
    rw [hpt] at hrun
    cases hrun
  | some old =>
    rw [hpt] at hrun
    obtain ⟨_, _, hrun⟩ := run_rest hrun
    obtain ⟨_, _, hrun⟩ := run_rest hrun
    obtain ⟨_, _, hrun⟩ := run_rest hrun
    obtain ⟨_, _, hrun⟩ := run_rest hrun
    cases hrun
    rfl

end Stages

def tableRun : Except Panic (Option Nat) × Alone sig :=
  (procPagetable sampleImage 0x80100).run machine sampleStart.2

def loadRun (file : List UInt8) : Except Panic (Bool × Nat) × Alone sig :=
  (loadProgs sampleImage 0x80104 file 2 64 0).run machine tableRun.2

def growRun (file : List UInt8) : Except Panic Nat × Alone sig :=
  (uvmalloc sampleImage 0x80104 8192 16384 pteW).run machine (loadRun file).2

def clearRun (file : List UInt8) : Except Panic Unit × Alone sig :=
  (uvmclear 0x80104 8192).run machine (growRun file).2

def stackedRun (file : List UInt8) : Except Panic (Option (Nat × Nat)) × Alone sig :=
  (buildStack sampleImage sampleMm 0x80104 16384 []).run machine (clearRun file).2

@[mk_iff]
structure Staged (file : List UInt8) (size : Nat) (g g' : Segment) : Prop where
  elf : readi file 0 elfSize = elfHeader 2
  table : outcome tableRun = some (some 0x80104)
  load : outcome (loadRun file) = some (true, size)
  grow : outcome (growRun file) = some 16384
  clear : outcome (clearRun file) = some ()
  stacked : outcome (stackedRun file) = some (some (16368, 0))
  phoff : phoff file < 2 ^ 31
  segments : segments file = [g, g']

theorem textAndData_staged :
    Staged textAndData 4101 ⟨0, 8, 3, 0, 5⟩ ⟨4096, 5, 0, 0, 6⟩ := by
  rw [staged_iff]
  decide +kernel

theorem emptyInside_staged :
    Staged emptyInside 8192 ⟨0, 8192, 3, 0, 5⟩ ⟨4096, 0, 0, 0, 5⟩ := by
  rw [staged_iff]
  decide +kernel

def execMm : Mm := ⟨16384, some 0x80104, some 0x80100⟩

theorem elfHeader_fields : (elfHeader 2).length = elfSize ∧ field (elfHeader 2) 0 4 = elfMagic ∧
    field (elfHeader 2) 56 2 = 2 ∧ field (elfHeader 2) 32 8 % 2 ^ 32 = 64 := by decide +kernel

theorem sample_calling : Calling sampleImage sampleStart.2 sampleMm [] := by
  obtain ⟨h, hs, hmm⟩ := sampleProcess
  refine ⟨h, hs, ?_⟩
  simpa using hmm

theorem apart_pair {g g' : Segment} (hle : g.vaddr ≤ g'.vaddr)
    (hpages : npages g.finish ≤ vpn g'.vaddr ∨ npages g'.finish ≤ vpn g'.vaddr) :
    Apart [g, g'] := by
  refine List.pairwise_pair.mpr ⟨hle, fun v hv hv' => ?_⟩
  have hlt := hv.2
  have hlt' := hv'.2
  have hge := hv'.1
  omega

theorem Staged.run {file : List UInt8} {size : Nat} {g g' : Segment}
    (hstaged : Staged file size g g') (hround : pgRoundUp size = 8192) :
    ∃ s', (kexec sampleImage (some file) [] sampleMm).run machine sampleStart.2 =
      (.ok (execMm, 0), s') := by
  obtain ⟨hlength, hmagic, hphnum, hphoff⟩ := elfHeader_fields
  obtain ⟨h, hs, hmm⟩ := sample_calling
  have hspec : wp machine (solo sampleImage True) (kexec sampleImage (some file) [] sampleMm) _ h
      := kexec_spec manages_ram hmm List.Forall₂.nil (by simp) (by decide)
  obtain ⟨r, h', hres, -⟩ := run_spec hs hspec (Or.inl trivial)
  refine ⟨_, Prod.ext (hres.trans (congrArg _ ?_)) rfl⟩
  have htable : (procPagetable sampleImage 0x80100).run machine sampleStart.2 =
      (.ok (some 0x80104), tableRun.2) := Prod.ext (ok_of_outcome hstaged.table) rfl
  have hload : (loadProgs sampleImage 0x80104 file 2 64 0).run machine tableRun.2 =
      (.ok (true, size), (loadRun file).2) := Prod.ext (ok_of_outcome hstaged.load) rfl
  have hgrow : (uvmalloc sampleImage 0x80104 8192 (8192 + 2 * pgSize) pteW).run machine
      (loadRun file).2 = (.ok 16384, (growRun file).2) := Prod.ext (ok_of_outcome hstaged.grow) rfl
  have hclear : (uvmclear 0x80104 (16384 - 2 * pgSize)).run machine (growRun file).2 =
      (.ok (), (clearRun file).2) := Prod.ext (ok_of_outcome hstaged.clear) rfl
  have hbuild : (buildStack sampleImage sampleMm 0x80104 16384 []).run machine (clearRun file).2 =
      (.ok (some (16368, 0)), (stackedRun file).2) := Prod.ext (ok_of_outcome hstaged.stacked) rfl
  unfold kexec deref at hres
  dsimp only at hres
  rw [hstaged.elf, if_neg (not_not.mpr hlength), if_neg (not_not.mpr hmagic), hphnum, hphoff,
    show sampleMm.trapframe = some 0x80100 from rfl] at hres
  dsimp only at hres
  rw [run_seq htable] at hres
  dsimp only at hres
  rw [run_seq hload] at hres
  unfold execStack execArgs at hres
  dsimp only at hres
  rw [if_pos rfl, hround, run_seq hgrow, if_neg (by decide), run_seq hclear, run_seq hbuild] at hres
  exact execCommit_returns hres

end Sample

section Arguments

def argPage : Code (Option Nat) := do
  match ← kalloc with
  | none => return none
  | some page =>
      .modify (.page page) (fun data => data.blit 0 [104, 105, 0]) (.ret ())
      return some page

theorem argPage_spec {img : Image} {P : Protocol sig} {h : Heap}
    (hmem : Manages img P.pool) : wp machine P argPage (fun r h' => ∀ page, r = some page →
      ∃ data, P.pool (.page page) ∧ h (.page page) = none ∧
        h' = Function.update h (.page page) (some data)) h := by
  refine wp_bind (wp_kalloc hmem (fun _ => by simp [wp, pure]) fun q hpool hfree => ?_)
  refine wp_bind ⟨filled 5, Function.update_self .., ?_⟩
  intro page hpage
  cases hpage
  exact ⟨_, hpool, hfree, Function.update_idem ..⟩

def startProgram : Code (Option (Nat × Nat)) := do
  match ← argPage with
  | none => return none
  | some page =>
      match ← procPagetable sampleImage 0x80100 with
      | none => return none
      | some root =>
          if (← uvmalloc sampleImage root 0 8192 pteW) = 0 then return none
          else return some (page, root)

def startRun : Except Panic (Option (Nat × Nat)) × Alone sig :=
  startProgram.run machine sampleStart.2

theorem startRun_outcome : outcome startRun = some (some (0x80104, 0x80105)) := by decide +kernel

theorem startProgram_spec (hmem : Manages sampleImage P.pool)
    (hmm : MmOk sampleImage P.pool sampleMm (fun _ => False) h) :
    wp machine P startProgram (fun r h' => ∀ page root, r = some (page, root) →
      ∃ own rest, Heaplet.Splits h' own rest ∧
        At sampleImage P.pool root 8192 0x80100 (fun _ => False) own ∧
        MmOk sampleImage P.pool sampleMm (fun n => n ∈ [page]) rest) h := by
  unfold startProgram
  refine wp_seq (argPage_spec hmem) ?_
  rintro r h₁ hpage
  cases r with
  | none => exact fun _ _ h => nomatch h
  | some page =>
    obtain ⟨data, hpool, hnone, rfl⟩ := hpage page rfl
    have hcalling : MmOk sampleImage P.pool sampleMm (fun n => n ∈ [page])
        (Function.update h (.page page) (some data)) := by
      obtain ⟨root, tf, hpt, htf, S, hroot, hlayout, hrep⟩ := hmm
      refine ⟨root, tf, hpt, htf, S, hroot, hlayout, ?_⟩
      exact (hrep.acquire hpool hnone data).congr_extra fun n => by simp
    refine wp_seq (wp_frame (procPagetable_spec hmem (by decide)) (Heaplet.splits_empty _).symm) ?_
    rintro r h₂ ⟨own₂, hs₂, hr⟩
    cases r with
    | none => exact fun _ _ h => nomatch h
    | some root =>
      have hload : Loaded sampleImage P.pool root 0 0x80100 (fun _ => none) own₂ := .start hr
      refine wp_seq (wp_frame (uvmalloc_loaded hmem (by decide) hload) hs₂) ?_
      rintro r h₃ ⟨own₃, hs₃, ⟨rfl, -⟩ | ⟨rfl, hload₃⟩⟩
      · exact fun _ _ h => nomatch h
      · rintro _ _ ⟨⟩
        exact ⟨own₃, _, hs₃, hload₃.1.at, hcalling⟩

theorem startRun_starting :
    Starting sampleImage startRun.2 sampleMm 0x80105 8192 0x80100 [0x80104] := by
  obtain ⟨h, hs, hmm⟩ := sampleProcess
  have hspec : wp machine (solo sampleImage True) startProgram _ h :=
    startProgram_spec manages_ram hmm
  obtain ⟨r, h', hres, hpost, hs', -⟩ := run_spec hs hspec (Or.inl trivial)
  have hend : startRun.1 = .ok (some (0x80104, 0x80105)) := ok_of_outcome startRun_outcome
  rw [show startRun.1 = .ok r from hres] at hend
  cases hend
  obtain ⟨own, rest, hsplit, ⟨S, hroot, hlayout, hrep⟩, hcalling⟩ := hpost _ _ rfl
  exact ⟨S, h', own, rest, hsplit, hs', hroot, hlayout, hrep, rfl, hcalling⟩

end Arguments

theorem execArgs_exact_hi :
    Starting sampleImage startRun.2 sampleMm 0x80105 8192 0x80100 [0x80104] ∧
    ∃ mm' s' addrs, (execArgs sampleImage sampleMm 0x80100 0x80105 8192 0 [0x80104]).run machine
        startRun.2 = (.ok (mm', 1), s') ∧
      ArgStack (memoryIn s'.mem 0x80105) 4096 8192 [[104, 105]]
        (word (s'.mem (.page 0x80100)) tfA1) addrs := by
  have hstrings : argStrings startRun.2 [0x80104] = [[104, 105]] := by decide +kernel
  have huse : Usable true (memoryIn startRun.2.mem 0x80105) (vpn (8192 - pgSize)) := by
    obtain ⟨⟨flags, data⟩, hpage⟩ := Option.isSome_iff_exists.mp
      (show (memoryIn startRun.2.mem 0x80105 (vpn (8192 - pgSize))).isSome = true by decide +kernel)
    have hflags : (memoryIn startRun.2.mem 0x80105 (vpn (8192 - pgSize))).map Prod.fst =
        some 23 := by
      decide +kernel
    rw [hpage] at hflags
    cases hflags
    exact ⟨23, data, hpage, by decide, fun _ => by decide⟩
  have hnul : ∀ a ∈ [0x80104], (cstring (startRun.2.mem (.page a))).length ≤ pgSize - 1 := by
    decide +kernel
  obtain ⟨⟨mm', ret, s', hrun, hcases⟩, -⟩ := execArgs_exact startRun_starting (by decide)
    (by decide) huse (by decide) hnul 0
  rw [hstrings] at hcases
  rcases hcases with ⟨-, -, hno⟩ | ⟨-, rfl, -, -, addrs, hstack⟩
  · exact absurd (by unfold Fits; decide) hno
  · exact ⟨startRun_starting, mm', s', addrs, hrun, hstack⟩

theorem kexec_loads_textAndData : Calling sampleImage sampleStart.2 sampleMm [] ∧
    ∃ s', (kexec sampleImage (some textAndData) [] sampleMm).run machine sampleStart.2 =
        (.ok (execMm, 0), s') ∧
      ∀ g ∈ segments textAndData, g.Present textAndData (memoryIn s'.mem 0x80104) := by
  have hstaged := textAndData_staged
  have hoffs : ∀ g ∈ segments textAndData, g.off < 2 ^ 31 := by
    rw [hstaged.segments]
    decide
  have hapart : Apart (segments textAndData) := by
    rw [hstaged.segments]
    exact apart_pair (by decide) (by decide)
  obtain ⟨s', hend⟩ := hstaged.run (by decide)
  obtain ⟨root, hroot, hpresent, -⟩ := kexec_loads sample_calling (by decide) (by simp)
    hstaged.phoff hoffs hapart hend (by decide)
  cases hroot
  exact ⟨sample_calling, _, hend, hpresent⟩

/-- The end of the last header says nothing if it has no memory. -/
theorem kexec_last_end : Calling sampleImage sampleStart.2 sampleMm [] ∧
    phoff emptyInside < 2 ^ 31 ∧ (∀ g ∈ segments emptyInside, g.off < 2 ^ 31) ∧
    (∀ g ∈ segments emptyInside, g.vaddr % pgSize = 0) ∧ Apart (segments emptyInside) ∧
    ∃ s' last, (kexec sampleImage (some emptyInside) [] sampleMm).run machine sampleStart.2 =
        (.ok (execMm, 0), s') ∧
      (segments emptyInside).getLast? = some last ∧
      execMm.sz ≠ (npages last.finish + 2) * pgSize := by
  have hstaged := emptyInside_staged
  obtain ⟨s', hend⟩ := hstaged.run (by decide)
  rw [hstaged.segments]
  refine ⟨sample_calling, hstaged.phoff, by decide, by decide, ?_, _, _, hend, rfl, by decide⟩
  exact apart_pair (by decide) (by decide)

theorem kexec_all_or_nothing_textAndData : Calling sampleImage sampleStart.2 sampleMm [] ∧
    ∃ s' new, (kexec sampleImage (some textAndData) [] sampleMm).run machine sampleStart.2 =
      (.ok (execMm, 0), s') ∧ execMm.pagetable = some new ∧ ∀ n, .page n ∈ s'.free ↔
        (.page n ∈ sampleStart.2.free ∨ UsesPage sampleStart.2.mem 0x80101 n) ∧
          ¬UsesPage s'.mem new n := by
  obtain ⟨s', hend⟩ := textAndData_staged.run (by decide)
  obtain ⟨mm', ret, s'', hrun, -, hcases⟩ := kexec_all_or_nothing sample_calling
    (by decide) (by simp) (some textAndData)
  rw [hend] at hrun
  cases hrun
  rcases hcases with ⟨hbad, -⟩ | ⟨-, -, old, new, hold, hnew, hfree⟩
  · cases hbad
  · cases hold
    exact ⟨sample_calling, s', new, hend, hnew, hfree⟩

end Xv6.Vm
