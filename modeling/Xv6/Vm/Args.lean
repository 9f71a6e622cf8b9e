import Xv6.Vm.Copy

/-! The stack of a new program: `kexec` copies the argument strings to its top, one below
the other, and below them an array of pointers to them. -/
namespace Xv6.Vm

open Lib

section Placement

def place (sp : Int) (len : Nat) : Int := (sp - len) / 16 * 16

def placeAll (sp : Int) (strings : List (List UInt8)) : Int :=
  strings.foldl (fun sp s => place sp (s.length + 1)) sp

def Fits (base top : Nat) (strings : List (List UInt8)) : Prop :=
  (base : Int) ≤ place (placeAll top strings) (8 * (strings.length + 1))

def pushedAll (sp : Nat) (strings : List (List UInt8)) : Nat :=
  strings.foldl (fun sp s => pushed sp (s.length + 1)) sp

variable {sp len : Nat}

theorem place_le (sp : Int) (len : Nat) : place sp len ≤ sp - len := by
  unfold place
  omega

theorem placeAll_le (sp : Int) (strings : List (List UInt8)) : placeAll sp strings ≤ sp := by
  induction strings generalizing sp with
  | nil => exact Int.le_refl sp
  | cons s strings ih =>
    have hfirst := place_le sp (s.length + 1)
    have hrest : placeAll sp (s :: strings) ≤ place sp (s.length + 1) := ih _
    omega

theorem addInt_sub (hlen : len ≤ sp) (hsp : sp < 2 ^ 64) : addInt sp (-len) = sp - len := by
  unfold addInt
  rw [show ((sp : Int) + -len) = ((sp - len : Nat) : Int) by omega]
  rw [Int.emod_eq_of_lt (Int.natCast_nonneg _) (by omega), Int.toNat_natCast]

theorem pushed_eq (hlen : len ≤ sp) (hsp : sp < 2 ^ 64) : pushed sp len = (sp - len) / 16 * 16 := by
  unfold pushed
  dsimp only
  rw [addInt_sub hlen hsp, addInt_sub (Nat.mod_le _ _) (by omega)]
  omega

theorem pushed_place (hlen : len ≤ sp) (hsp : sp < 2 ^ 64) :
    (pushed sp len : Int) = place sp len := by
  rw [pushed_eq hlen hsp]
  unfold place
  omega

end Placement

section Mapped

variable {img : Image} {P : Protocol sig} {h : Heap} {extra : Nat → Prop}
  {mm : Mm} {root sz tf : Nat} {mapped : UserPages} (hmem : Manages img P.pool)
include hmem

theorem userPage_mapped {v : Nat} {write : Bool}
    (hview : View img P.pool root sz tf extra mapped h) (huse : Usable write mapped v) :
    wp machine P (userPage img mm root (v * pgSize)) (fun r h' => ∃ pa, r = some pa ∧
      UserPage img P.pool root sz tf extra mapped v pa h') h := by
  obtain ⟨S, rfl, hlayout, hrep, rfl⟩ := hview
  obtain ⟨hva, huser⟩ := huse.leaf
  refine wp_seq (walkaddr_spec hmem hrep hlayout) ?_
  rintro r h' ⟨rfl, hr⟩
  rw [vpn_mul] at hr
  cases r with
  | none => exact absurd (hr hva) huser
  | some pa =>
    have hlt : v < userTop := hlayout.lt_userTop (hlayout.lt_npages_of_user hr.2.1)
    exact ⟨pa, rfl, S, rfl, hlayout, hrep, rfl, hlt, hr.2⟩

theorem copyoutLoop_mapped {more dstva : Nat} {src : List UInt8} (hmore : src.length ≤ more)
    (hview : View img P.pool root sz tf extra mapped h)
    (huse : ∀ v, Overlaps dstva src.length v → Usable true mapped v) :
    wp machine P (copyoutLoop img mm root more dstva src) (fun ok h' => ok = true ∧
      View img P.pool root sz tf extra (written mapped dstva src) h') h := by
  induction more generalizing dstva src h mapped with
  | zero =>
    obtain rfl := List.length_eq_zero_iff.mp (Nat.le_zero.mp hmore)
    rw [copyoutLoop, if_pos rfl]
    exact ⟨rfl, by rwa [written_nil]⟩
  | succ more ih =>
    rw [copyoutLoop]
    by_cases hsrc : src = []
    · subst hsrc
      rw [if_pos rfl]
      exact ⟨rfl, by rwa [written_nil]⟩
    have hpos := List.length_pos_iff.mpr hsrc
    have hhere : Usable true mapped (vpn dstva) := huse _ (.first hpos)
    have hmax : pgRoundDown dstva < maxVa := by
      obtain ⟨S, rfl, -, -, rfl⟩ := hview
      rw [pgRoundDown_eq]
      exact hhere.leaf.1
    rw [if_neg hsrc]
    dsimp only
    rw [if_neg (Nat.not_le.mpr hmax)]
    refine wp_seq (userPage_mapped hmem hview hhere (v := vpn dstva)) ?_
    rintro r h' ⟨pa, rfl, hr⟩
    refine wp_seq (hr.storeUser hmem hmax _) ?_
    rintro ok h' ⟨flags, data, hmapped, -, ⟨-, hread, -⟩ | ⟨rfl, -, hnow⟩⟩
    · obtain ⟨flags', data', hpage, -, hw⟩ := hhere
      rw [hmapped] at hpage
      cases hpage
      exact absurd hread (hw rfl)
    rw [if_pos rfl]
    have hoffset := sub_pgRoundDown_lt dstva
    generalize hn : min (pgSize - (dstva - pgRoundDown dstva)) src.length = n
    have htake : (src.take n).length = n := List.length_take_of_le (by omega)
    rw [hn, update_eq_written hmapped (by omega)] at hnow
    refine wp_mono (ih (by rw [List.length_drop]; omega) hnow fun v hv => ?_) ?_
    · rw [usable_written]
      rw [List.length_drop] at hv
      exact huse v (hv.rest hn)
    rintro ok h'' ⟨rfl, hview'⟩
    rw [written_rest hn (by rw [List.length_drop]), List.take_append_drop] at hview'
    exact ⟨rfl, hview'⟩

theorem copyout_mapped {dstva : Nat} {src : List UInt8}
    (hview : View img P.pool root sz tf extra mapped h)
    (huse : ∀ v, Overlaps dstva src.length v → Usable true mapped v) :
    wp machine P (copyout img mm root dstva src) (fun ok h' => ok = true ∧
      View img P.pool root sz tf extra (written mapped dstva src) h') h :=
  copyoutLoop_mapped hmem (Nat.le_refl _) hview huse

end Mapped

section Stack

def numberAt (pages : UserPages) : Nat → Nat → Option Nat
  | 0, _ => some 0
  | width + 1, a => do
      let byte ← byteAt pages a
      let rest ← numberAt pages width (a + 1)
      return byte.toNat + 256 * rest

inductive Placed (pages : UserPages) (base : Nat) :
    Nat → List (List UInt8) → List Nat → Nat → Prop where
  | nil (sp : Nat) : Placed pages base sp [] [] sp
  | cons {sp a low : Nat} {s : List UInt8} {strings : List (List UInt8)} {addrs : List Nat}
      (haligned : a % 16 = 0) (hbase : base ≤ a) (hroom : a + (s.length + 1) ≤ sp)
      (hbytes : ∀ j, j < s.length + 1 → byteAt pages (a + j) = (s ++ [0])[j]?)
      (rest : Placed pages base a strings addrs low) :
      Placed pages base sp (s :: strings) (a :: addrs) low

variable {pages pages' : UserPages} {base sp low : Nat} {strings : List (List UInt8)}
  {addrs : List Nat}

theorem length_toBytes (width value : Nat) : (toBytes width value).length = width := by
  induction width generalizing value with
  | zero => rfl
  | succ width ih => rw [toBytes, List.length_cons, ih]

theorem numberAt_toBytes {width a value : Nat} (hvalue : value < 256 ^ width)
    (hbytes : ∀ j, j < width → byteAt pages (a + j) = (toBytes width value)[j]?) :
    numberAt pages width a = some value := by
  induction width generalizing a value with
  | zero =>
    rw [Nat.pow_zero] at hvalue
    rw [numberAt, show value = 0 by omega]
  | succ width ih =>
    have hfirst : byteAt pages a = some (UInt8.ofNat value) := hbytes 0 (Nat.succ_pos width)
    have hrest : numberAt pages width (a + 1) = some (value / 256) := by
      refine ih ?_ fun j hj => ?_
      · rw [Nat.pow_succ] at hvalue
        exact Nat.div_lt_of_lt_mul (by omega)
      · rw [Nat.add_right_comm a 1 j, Nat.add_assoc]
        exact hbytes (j + 1) (by omega)
    have hsum : (UInt8.ofNat value).toNat + 256 * (value / 256) = value := by
      rw [UInt8.toNat_ofNat']
      omega
    simp only [numberAt, hfirst, hrest, Option.bind_eq_bind, Option.bind_some, hsum]
    rfl

theorem length_words (values : List Nat) :
    (values.flatMap (toBytes 8)).length = 8 * values.length := by
  induction values with
  | nil => rfl
  | cons value values ih =>
    rw [List.flatMap_cons, List.length_append, length_toBytes, ih, List.length_cons]
    omega

theorem getElem?_words {values : List Nat} {k value j : Nat} (hk : values[k]? = some value)
    (hj : j < 8) : (values.flatMap (toBytes 8))[8 * k + j]? = (toBytes 8 value)[j]? := by
  induction values generalizing k with
  | nil => simp at hk
  | cons first values ih =>
    rw [List.flatMap_cons]
    cases k with
    | zero =>
      simp only [List.getElem?_cons_zero, Option.some.injEq] at hk
      subst hk
      rw [Nat.mul_zero, Nat.zero_add, List.getElem?_append_left (by rwa [length_toBytes])]
    | succ k =>
      rw [List.getElem?_append_right (by rw [length_toBytes]; omega), length_toBytes,
        show 8 * (k + 1) + j - 8 = 8 * k + j by omega]
      exact ih hk

namespace Placed

theorem low_le (h : Placed pages base sp strings addrs low) : low ≤ sp := by
  induction h with
  | nil sp => exact Nat.le_refl sp
  | cons _ _ hroom _ _ ih => omega

theorem length_eq (h : Placed pages base sp strings addrs low) : addrs.length = strings.length := by
  induction h with
  | nil sp => rfl
  | cons _ _ _ _ _ ih => rw [List.length_cons, List.length_cons, ih]

theorem congr (h : Placed pages base sp strings addrs low)
    (hsame : ∀ a, low ≤ a → byteAt pages' a = byteAt pages a) :
    Placed pages' base sp strings addrs low := by
  induction h with
  | nil sp => exact .nil sp
  | cons haligned hbase hroom hbytes rest ih =>
    have hlow := rest.low_le
    refine .cons haligned hbase hroom (fun j hj => ?_) (ih hsame)
    rw [hsame _ (by omega)]
    exact hbytes j hj

theorem get (h : Placed pages base sp strings addrs low) {k a : Nat} {s : List UInt8}
    (hs : strings[k]? = some s) (ha : addrs[k]? = some a) :
    a % 16 = 0 ∧ base ≤ a ∧ low ≤ a ∧ a + (s.length + 1) ≤ sp ∧
      ∀ j, j < s.length + 1 → byteAt pages (a + j) = (s ++ [0])[j]? := by
  induction h generalizing k with
  | nil sp => simp at hs
  | cons haligned hbase hroom hbytes rest ih =>
    cases k with
    | zero =>
      simp only [List.getElem?_cons_zero, Option.some.injEq] at hs ha
      subst hs ha
      exact ⟨haligned, hbase, rest.low_le, hroom, hbytes⟩
    | succ k =>
      simp only [List.getElem?_cons_succ] at hs ha
      obtain ⟨h16, hat, hlow, htop, hall⟩ := ih hs ha
      exact ⟨h16, hat, hlow, by omega, hall⟩

theorem apart (h : Placed pages base sp strings addrs low) {k k' a a' : Nat} {s' : List UInt8}
    (hlt : k < k') (ha : addrs[k]? = some a) (hs' : strings[k']? = some s')
    (ha' : addrs[k']? = some a') : a' + (s'.length + 1) ≤ a := by
  induction h generalizing k k' with
  | nil sp => simp at ha
  | cons _ _ _ _ rest ih =>
    cases k' with
    | zero => omega
    | succ k' =>
      simp only [List.getElem?_cons_succ] at hs' ha'
      cases k with
      | zero =>
        simp only [List.getElem?_cons_zero, Option.some.injEq] at ha
        subst ha
        exact (rest.get hs' ha').2.2.2.1
      | succ k =>
        simp only [List.getElem?_cons_succ] at ha
        exact ih (by omega) ha hs' ha'

end Placed

/-- The stack that a program starts with: an array of pointers at `sp`, and above it the
strings they point to. -/
structure ArgStack (pages : UserPages) (base top : Nat) (strings : List (List UInt8)) (sp : Nat)
    (addrs : List Nat) : Prop where
  count : addrs.length = strings.length
  aligned : sp % 16 = 0
  base_le : base ≤ sp
  array_le : sp + 8 * (strings.length + 1) ≤ top
  pointers : ∀ (k a : Nat), (addrs ++ [0])[k]? = some a → numberAt pages 8 (sp + 8 * k) = some a
  copies : ∀ (k : Nat) s a, strings[k]? = some s → addrs[k]? = some a → a % 16 = 0 ∧ base ≤ a ∧
    a + (s.length + 1) ≤ top ∧ ∀ j, j < s.length + 1 → byteAt pages (a + j) = (s ++ [0])[j]?
  above : ∀ (k : Nat) a, addrs[k]? = some a → sp + 8 * (strings.length + 1) ≤ a
  apart : ∀ (k k' : Nat) a a' s', k < k' → addrs[k]? = some a → strings[k']? = some s' →
    addrs[k']? = some a' → a' + (s'.length + 1) ≤ a

theorem vpn_of_within {a : Nat} (hbase : base % pgSize = 0) (hle : base ≤ a)
    (hlt : a < base + pgSize) : vpn a = vpn base := by
  unfold vpn pgSize at *
  omega

variable {img : Image} {P : Protocol sig} {h own args : Heap}
  {extra : Nat → Prop} {mm : Mm} {root sz tf : Nat} {mapped : UserPages}
  (hmem : Manages img P.pool)
include hmem

theorem copyout_stack {dst : Nat} {bytes : List UInt8} (hs : Heaplet.Splits h own args)
    (hview : View img P.pool root sz tf extra mapped own) (huse : Usable true mapped (vpn base))
    (haligned : base % pgSize = 0) (hlow : base ≤ dst)
    (hroom : dst + bytes.length ≤ base + pgSize) :
    wp machine P (copyout img mm root dst bytes) (fun ok h' => ok = true ∧ ∃ own',
      Heaplet.Splits h' own' args ∧
      View img P.pool root sz tf extra (written mapped dst bytes) own') h := by
  refine wp_mono (wp_frame (copyout_mapped hmem hview fun v hv => ?_) hs) ?_
  · obtain ⟨j, hj, rfl⟩ := hv
    rwa [vpn_of_within haligned (by omega) (by omega)]
  · rintro ok h' ⟨own', hs', hok, hview'⟩
    exact ⟨hok, own', hs', hview'⟩

theorem pushArgs_spec {argv ustack : List Nat} (hs : Heaplet.Splits h own args)
    (hview : View img P.pool root sz tf extra mapped own)
    (hargs : List.Forall₂ (fun a s => ∃ data, args (.page a) = some data ∧ cstring data = s)
      argv strings)
    (hlens : ∀ s ∈ strings, s.length < pgSize)
    (hcount : ustack.length + strings.length < maxArg) (haligned : base % pgSize = 0)
    (hpage : pgSize ≤ base) (hfits : base + pgSize < 2 ^ 64) (hsp : base ≤ sp)
    (htop : sp ≤ base + pgSize) (huse : Usable true mapped (vpn base)) :
    wp machine P (pushArgs img mm root base argv sp ustack) (fun r h' => ∃ own' mapped',
      Heaplet.Splits h' own' args ∧ View img P.pool root sz tf extra mapped' own' ∧
      Usable true mapped' (vpn base) ∧ (∀ u, u ≠ vpn base → mapped' u = mapped u) ∧
      (r = none → placeAll sp strings < base) ∧
      ∀ sp' ustack', r = some (sp', ustack') → ∃ addrs, ustack' = ustack ++ addrs ∧ base ≤ sp' ∧
        (sp' : Int) = placeAll sp strings ∧ Placed mapped' base sp strings addrs sp' ∧
        ∀ a, sp ≤ a → byteAt mapped' a = byteAt mapped a) h := by
  induction hargs generalizing sp ustack h own mapped with
  | nil =>
    refine ⟨own, mapped, hs, hview, huse, fun _ _ => rfl, by simp, fun sp' ustack' hr => ?_⟩
    cases hr
    exact ⟨[], by simp, hsp, rfl, .nil sp, fun _ _ => rfl⟩
  | @cons arg s argv strings harg hrest ih =>
    obtain ⟨data, hdata, hcstring⟩ := harg
    have hlen : s.length < pgSize := hlens s (by simp)
    have hstring : (s ++ [0]).length = s.length + 1 := by simp
    -- there is a page below the stack, so that nothing wraps
    have hplace := pushed_place (show s.length + 1 ≤ sp by omega) (by omega)
    have hbelow := place_le sp (s.length + 1)
    have hall : placeAll sp (s :: strings) = placeAll (pushed sp (s.length + 1)) strings := by
      rw [hplace]
      rfl
    have hmultiple : pushed sp (s.length + 1) % 16 = 0 := by
      unfold place at hplace
      omega
    rw [List.length_cons] at hcount
    rw [pushArgs, if_neg (by omega)]
    refine wp_bind ⟨data, hs.of_right hdata, ?_⟩
    refine wp_pure ?_
    dsimp only
    rw [hcstring, hstring]
    split
    · rename_i hlow
      refine ⟨own, mapped, hs, hview, huse, fun _ _ => rfl, fun _ => ?_, by simp⟩
      have hrestle := placeAll_le (pushed sp (s.length + 1)) strings
      rw [hall]
      omega
    rename_i hlow
    refine wp_seq (copyout_stack hmem hs hview huse haligned (by omega) (by rw [hstring]; omega)) ?_
    rintro ok h' ⟨rfl, own', hs', hview'⟩
    rw [if_pos rfl]
    refine wp_mono (ih hs' hview' (fun u hu => hlens u (by simp [hu]))
      (by rw [List.length_append, List.length_singleton]; omega) (by omega) (by omega)
      ((usable_written _).mpr huse)) ?_
    rintro r h'' ⟨own'', mapped', hs'', hview'', huse', hother, hnone, hsome⟩
    refine ⟨own'', mapped', hs'', hview'', huse', fun u hu => ?_, ?_, fun sp' ustack' hr => ?_⟩
    · rw [hother u hu, written_other fun j hj => ?_]
      rw [hstring] at hj
      rw [vpn_of_within haligned (by omega) (by omega)]
      exact hu.symm
    · rwa [hall]
    obtain ⟨addrs, rfl, hat, heq, hplaced, hsame⟩ := hsome sp' ustack' hr
    refine ⟨pushed sp (s.length + 1) :: addrs, by simp, hat, ?_, ?_, fun a ha => ?_⟩
    · rw [hall, heq]
    · refine .cons hmultiple (by omega) (by omega) (fun j hj => ?_) hplaced
      have hthere : Usable true mapped (vpn (pushed sp (s.length + 1) + j)) := by
        rwa [vpn_of_within haligned (by omega) (by omega)]
      rw [hsame _ (by omega)]
      exact byteAt_written hthere (by rwa [hstring])
    · rw [hsame a (by omega), byteAt_written_above (by rw [hstring]; omega)]

theorem buildStack_spec {argv : List Nat} (hs : Heaplet.Splits h own args)
    (hview : View img P.pool root sz tf extra mapped own)
    (hargs : List.Forall₂ (fun a s => ∃ data, args (.page a) = some data ∧ cstring data = s)
      argv strings)
    (hlens : ∀ s ∈ strings, s.length < pgSize) (hcount : strings.length < maxArg)
    (hsz : sz = base + pgSize) (haligned : base % pgSize = 0) (hpage : pgSize ≤ base)
    (hfits : sz < 2 ^ 64)
    (huse : Usable true mapped (vpn base)) :
    wp machine P (buildStack img mm root sz argv) (fun r h' => ∃ own' mapped',
      Heaplet.Splits h' own' args ∧ View img P.pool root sz tf extra mapped' own' ∧
      Usable true mapped' (vpn base) ∧ (∀ u, u ≠ vpn base → mapped' u = mapped u) ∧
      (r = none → ¬Fits base sz strings) ∧
      ∀ sp argc, r = some (sp, argc) → Fits base sz strings ∧ argc = strings.length ∧
        ∃ addrs, ArgStack mapped' base sz strings sp addrs) h := by
  have hbase : addInt sz (-pgSize) = base := by
    rw [addInt_sub (by omega) hfits]
    omega
  have hsmall : 8 * (strings.length + 1) ≤ pgSize := by
    unfold maxArg at hcount
    unfold pgSize
    omega
  unfold buildStack
  dsimp only
  rw [hbase]
  refine wp_seq (pushArgs_spec hmem hs hview hargs hlens (by simpa using hcount) haligned (by omega)
    (by omega) (by omega) (by omega) huse) ?_
  rintro r h' ⟨own', mapped', hs', hview', huse', hother, hnone, hsome⟩
  cases r with
  | none =>
    refine ⟨own', mapped', hs', hview', huse', hother, fun _ hfit => ?_, by simp⟩
    have hlow := hnone rfl
    have hle := place_le (placeAll sz strings) (8 * (strings.length + 1))
    unfold Fits at hfit
    omega
  | some result =>
    obtain ⟨sp, addrs⟩ := result
    obtain ⟨_, rfl, hat, heq, hplaced, -⟩ := hsome sp addrs rfl
    have hlow := hplaced.low_le
    have hlength := hplaced.length_eq
    dsimp only
    rw [hlength, if_neg (by omega)]
    have hplace := pushed_place (show 8 * (strings.length + 1) ≤ sp by omega) (by omega)
    have hbelow := place_le sp (8 * (strings.length + 1))
    have hmultiple : pushed sp (8 * (strings.length + 1)) % 16 = 0 := by
      unfold place at hplace
      omega
    have hfit : Fits base sz strings ↔
        base ≤ pushed sp (8 * (strings.length + 1)) := by
      unfold Fits
      rw [← heq, ← hplace]
      omega
    have hwords : ((addrs ++ [0]).flatMap (toBytes 8)).length = 8 * (strings.length + 1) := by
      rw [length_words, List.length_append, hlength, List.length_singleton]
    by_cases hge : pushed sp (8 * (strings.length + 1)) < base
    · rw [if_pos hge]
      refine ⟨own', mapped', hs', hview', huse', hother, fun _ => ?_, by simp⟩
      rw [hfit]
      omega
    rw [if_neg hge]
    refine wp_seq (copyout_stack hmem hs' hview' huse' haligned (by omega)
      (by rw [hwords]; omega)) ?_
    rintro ok h'' ⟨rfl, own'', hs'', hview''⟩
    rw [if_pos rfl]
    refine ⟨own'', _, hs'', hview'', (usable_written _).mpr huse', fun u hu => ?_, by simp,
      fun sp' argc hr => ?_⟩
    · rw [written_other fun j hj => ?_, hother u hu]
      rw [hwords] at hj
      rw [vpn_of_within haligned (by omega) (by omega)]
      exact hu.symm
    cases hr
    refine ⟨hfit.mpr (Nat.not_lt.mp hge), rfl, addrs, ?_⟩
    -- the array is below the last string, which is as it was
    have hstill : Placed (written mapped' (pushed sp (8 * (strings.length + 1)))
        ((addrs ++ [0]).flatMap (toBytes 8))) base sz strings addrs sp :=
      hplaced.congr fun a ha => byteAt_written_above (by rw [hwords]; omega)
    have hat_of : ∀ {k a : Nat}, addrs[k]? = some a → ∃ s, strings[k]? = some s := by
      intro k a ha
      obtain ⟨hk, -⟩ := List.getElem?_eq_some_iff.mp ha
      exact ⟨_, List.getElem?_eq_getElem (hlength ▸ hk)⟩
    refine ⟨hlength, hmultiple, Nat.not_lt.mp hge, by omega, fun k a ha => ?_,
      fun k s a hk ha => ?_, fun k a ha => ?_, fun k k' a a' s' hlt ha hs' ha' =>
        hstill.apart hlt ha hs' ha'⟩
    · have hk : k < strings.length + 1 := by
        obtain ⟨hk, -⟩ := List.getElem?_eq_some_iff.mp ha
        rwa [List.length_append, hlength, List.length_singleton] at hk
      have hvalue : a < 2 ^ 64 := by
        by_cases hlast : k < addrs.length
        · rw [List.getElem?_append_left hlast] at ha
          obtain ⟨s, hs⟩ := hat_of ha
          have := (hplaced.get hs ha).2.2.2.1
          omega
        · rw [List.getElem?_append_right (Nat.not_lt.mp hlast), List.getElem?_singleton] at ha
          split at ha
          · cases ha
            decide
          · cases ha
      refine numberAt_toBytes hvalue fun j hj => ?_
      have hthere : Usable true mapped'
          (vpn (pushed sp (8 * (strings.length + 1)) + (8 * k + j))) := by
        rwa [vpn_of_within haligned (by omega) (by omega)]
      rw [Nat.add_assoc, byteAt_written hthere (by rw [hwords]; omega), getElem?_words ha hj]
    · obtain ⟨h16, hbase', -, htop, hbytes⟩ := hstill.get hk ha
      exact ⟨h16, hbase', htop, hbytes⟩
    · obtain ⟨s, hs⟩ := hat_of ha
      have := (hplaced.get hs ha).2.2.1
      omega

end Stack

section Run

variable {s : Alone sig} {sz : Nat} {argv : List Nat}

def argStrings (s : Alone sig) (argv : List Nat) : List (List UInt8) :=
  argv.map fun a => cstring (s.mem (.page a))

theorem argStrings_held {h : Heap} (hheld : ∀ a ∈ argv, h (.page a) = some (s.mem (.page a))) :
    List.Forall₂ (fun a s => ∃ data, h (.page a) = some data ∧ cstring data = s) argv
      (argStrings s argv) := by
  refine List.forall₂_map_right_iff.mpr (List.forall₂_same.mpr fun a ha => ?_)
  exact ⟨_, hheld a ha, rfl⟩

theorem argStrings_short (hnul : ∀ a ∈ argv, (cstring (s.mem (.page a))).length ≤ pgSize - 1) :
    ∀ string ∈ argStrings s argv, string.length < pgSize := by
  intro string hstring
  obtain ⟨a, ha, rfl⟩ := List.mem_map.mp hstring
  exact Nat.lt_of_le_of_lt (hnul a ha) (by decide)

/-- The code's stack pointer does not wrap: as long as it is in the stack, what is subtracted
from it next is less. -/
theorem push_no_wrap (htwo : 2 * pgSize ≤ sz) (hcount : argv.length ≤ maxArg - 1)
    (hnul : ∀ a ∈ argv, (cstring (s.mem (.page a))).length ≤ pgSize - 1) :
    (∀ before string after, argStrings s argv = before ++ string :: after →
      sz - pgSize ≤ pushedAll sz before → string.length + 1 ≤ pushedAll sz before) ∧
    (sz - pgSize ≤ pushedAll sz (argStrings s argv) →
      8 * (argv.length + 1) ≤ pushedAll sz (argStrings s argv)) := by
  refine ⟨fun before string after hsplit hge => ?_, fun hge => ?_⟩
  · have hlen := argStrings_short hnul string (by rw [hsplit]; simp)
    omega
  · have hsmall : 8 * (argv.length + 1) ≤ pgSize := by
      unfold maxArg at hcount
      unfold pgSize
      omega
    omega

end Run

end Xv6.Vm
