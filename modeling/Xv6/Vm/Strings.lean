import Xv6.Vm.Observe

/-! Strings from user memory: `copyinstr`, and `fetchstr` and `argstr` on top of it. They
read memory only, so what they return is said of any memory and any page table. -/
namespace Xv6.Vm

open Lib

/-- The pages that `walkaddr` finds, with flags and contents. -/
def userIn (mem : Cell → Data) (root : Nat) : UserPages := fun v =>
  if v < vpn maxVa ∧ entryIn mem root v &&& pteV ≠ 0 ∧ entryIn mem root v &&& pteU ≠ 0 then
    some (pteFlags (entryIn mem root v), mem (.page (pte2pa (entryIn mem root v))))
  else none

def byteAt (pages : UserPages) (a : Nat) : Option UInt8 :=
  (pages (vpn a)).map fun page => page.2.get (a % pgSize)

section Scan

variable {pages : UserPages}

/-- Byte by byte up to a null byte, or to the end of the mapped pages. -/
def scan (pages : UserPages) : Nat → Nat → Bool × List UInt8
  | 0, _ => (false, [])
  | max + 1, va =>
      match byteAt pages va with
      | none => (false, [])
      | some byte =>
          if byte = 0 then (true, [0])
          else
            let (ok, rest) := scan pages max (va + 1)
            (ok, byte :: rest)

theorem scan_append {bytes : List UInt8} {max va : Nat}
    (hbytes : ∀ j, j < bytes.length → byteAt pages (va + j) = bytes[j]?) :
    scan pages (bytes.length + max) va =
      if 0 ∈ bytes then (true, bytes.takeWhile (· ≠ 0) ++ [0])
      else ((scan pages max (va + bytes.length)).1,
        bytes ++ (scan pages max (va + bytes.length)).2) := by
  induction bytes generalizing va with
  | nil => simp
  | cons byte rest ih =>
    have hfirst : byteAt pages va = some byte := by simpa using hbytes 0 (by simp)
    have hrest : ∀ j, j < rest.length → byteAt pages (va + 1 + j) = rest[j]? := by
      intro j hj
      have := hbytes (j + 1) (by simpa using hj)
      rwa [show va + (j + 1) = va + 1 + j by omega, List.getElem?_cons_succ] at this
    rw [List.length_cons, show rest.length + 1 + max = rest.length + max + 1 by omega, scan, hfirst]
    dsimp only
    by_cases hzero : byte = 0
    · simp [hzero]
    · rw [if_neg hzero, ih hrest, show va + 1 + rest.length = va + (rest.length + 1) by omega]
      by_cases hmem : 0 ∈ rest
      · simp [hmem, hzero]
      · simp [hmem, Ne.symm hzero]

theorem byteAt_slice {flags va n : Nat} {data : Data} (hpage : pages (vpn va) = some (flags, data))
    (hn : n ≤ pgSize - (va - pgRoundDown va)) {j : Nat} (hj : j < n) :
    byteAt pages (va + j) = (data.slice (va - pgRoundDown va) n)[j]? := by
  have hoffset : va - pgRoundDown va = va % pgSize := by
    have := Nat.div_add_mod' va pgSize
    unfold pgRoundDown
    omega
  have hvpn : vpn (va + j) = vpn va := by
    rw [hoffset] at hn
    unfold vpn pgSize at *
    omega
  have hmod : (va + j) % pgSize = va % pgSize + j := by
    rw [hoffset] at hn
    unfold pgSize at *
    omega
  rw [byteAt, hvpn, hpage, hmod, hoffset]
  simp [Bytes.slice, hj]

theorem readString_eq_scan {more max va : Nat} (hmore : max ≤ more) :
    readString pages more va max = scan pages max va := by
  induction more generalizing max va with
  | zero =>
    obtain rfl : max = 0 := Nat.le_zero.mp hmore
    rfl
  | succ more ih =>
    cases max with
    | zero => rfl
    | succ max =>
      rw [readString, if_neg (Nat.succ_ne_zero max)]
      cases hpage : pages (vpn va) with
      | none =>
        have hnone : byteAt pages va = none := by rw [byteAt, hpage, Option.map_none]
        rw [scan, hnone]
      | some page =>
        obtain ⟨flags, data⟩ := page
        dsimp only
        have hpos := sub_pgRoundDown_lt va
        generalize hn : min (pgSize - (va - pgRoundDown va)) (max + 1) = n
        have hlen : (data.slice (va - pgRoundDown va) n).length = n := by simp [Bytes.slice]
        have hsum : max + 1 = (data.slice (va - pgRoundDown va) n).length + (max + 1 - n) := by
          omega
        rw [hsum, scan_append fun j hj => byteAt_slice hpage (by omega) (by omega), hlen,
          Nat.add_sub_cancel_left]
        by_cases hnull : 0 ∈ data.slice (va - pgRoundDown va) n
        · rw [if_pos hnull, if_pos hnull]
        · rw [if_neg hnull, if_neg hnull, ih (by omega)]
          -- after a whole page the next page begins; otherwise nothing is left
          by_cases hpage : n = pgSize - (va - pgRoundDown va)
          · have hle : pgRoundDown va ≤ va := Nat.div_mul_le_self va pgSize
            rw [show pgRoundDown va + pgSize = va + n by omega]
          · rw [show max + 1 - n = 0 by omega]
            rfl

structure IsString (pages : UserPages) (va k : Nat) : Prop where
  mapped : ∀ j, j ≤ k → byteAt pages (va + j) ≠ none
  null : byteAt pages (va + k) = some 0
  first : ∀ j, j < k → byteAt pages (va + j) ≠ some 0

theorem IsString.unique {va k k' : Nat} (h : IsString pages va k) (h' : IsString pages va k') :
    k = k' := by
  rcases Nat.lt_trichotomy k k' with hlt | heq | hgt
  · exact absurd h.null (h'.first k hlt)
  · exact heq
  · exact absurd h'.null (h.first k' hgt)

theorem IsString.zero {va : Nat} (h : byteAt pages va = some 0) : IsString pages va 0 where
  mapped j hj := by
    rw [Nat.le_zero.mp hj, Nat.add_zero, h]
    simp
  null := h
  first j hj := absurd hj (Nat.not_lt_zero j)

theorem isString_succ {va k : Nat} : IsString pages va (k + 1) ↔
    byteAt pages va ≠ none ∧ byteAt pages va ≠ some 0 ∧ IsString pages (va + 1) k := by
  have hshift : ∀ j, va + 1 + j = va + (j + 1) := fun j => by omega
  constructor
  · intro h
    refine ⟨h.mapped 0 (Nat.zero_le _), h.first 0 (Nat.succ_pos k), fun j hj => ?_, ?_,
      fun j hj => ?_⟩
    · rw [hshift]
      exact h.mapped (j + 1) (by omega)
    · rw [hshift]
      exact h.null
    · rw [hshift]
      exact h.first (j + 1) (by omega)
  · rintro ⟨hthere, hnot, h⟩
    refine ⟨fun j hj => ?_, ?_, fun j hj => ?_⟩
    · cases j with
      | zero => exact hthere
      | succ j =>
        rw [← hshift]
        exact h.mapped j (by omega)
    · rw [← hshift]
      exact h.null
    · cases j with
      | zero => exact hnot
      | succ j =>
        rw [← hshift]
        exact h.first j (by omega)

theorem scan_bytes (max va : Nat) : (scan pages max va).2.length ≤ max ∧
    ∀ j, j < (scan pages max va).2.length → byteAt pages (va + j) = (scan pages max va).2[j]? := by
  induction max generalizing va with
  | zero => exact ⟨Nat.le_refl 0, fun j hj => absurd hj (Nat.not_lt_zero j)⟩
  | succ max ih =>
    rw [scan]
    cases hbyte : byteAt pages va with
    | none => exact ⟨Nat.zero_le _, fun j hj => absurd hj (Nat.not_lt_zero j)⟩
    | some byte =>
      dsimp only
      by_cases hzero : byte = 0
      · rw [if_pos hzero]
        refine ⟨by simp, fun j hj => ?_⟩
        obtain rfl : j = 0 := by simpa using hj
        simpa [hzero] using hbyte
      · rw [if_neg hzero]
        obtain ⟨hlen, hrest⟩ := ih (va + 1)
        refine ⟨Nat.succ_le_succ hlen, fun j hj => ?_⟩
        cases j with
        | zero => simpa using hbyte
        | succ j =>
          have := hrest j (by simpa using hj)
          rw [show va + (j + 1) = va + 1 + j by omega, this, List.getElem?_cons_succ]

theorem scan_ok (max va : Nat) : ((scan pages max va).1 = true ↔ ∃ k, k < max ∧
    IsString pages va k) ∧
    ∀ k, k < max → IsString pages va k → (scan pages max va).2.length = k + 1 := by
  induction max generalizing va with
  | zero => simp [scan]
  | succ max ih =>
    rw [scan]
    cases hbyte : byteAt pages va with
    | none =>
      have hno : ∀ k, ¬IsString pages va k := fun k h => h.mapped 0 (Nat.zero_le k) hbyte
      simp [hno]
    | some byte =>
      dsimp only
      by_cases hzero : byte = 0
      · have hstring : IsString pages va 0 := .zero (hzero ▸ hbyte)
        rw [if_pos hzero]
        refine ⟨iff_of_true rfl ⟨0, Nat.succ_pos max, hstring⟩, fun k _ hk => ?_⟩
        rw [hk.unique hstring]
        rfl
      · rw [if_neg hzero]
        obtain ⟨hok, hlen⟩ := ih (va + 1)
        have hnot : byteAt pages va ≠ some 0 := by simpa [hbyte] using hzero
        have hthere : byteAt pages va ≠ none := by simp [hbyte]
        have hsucc : ∀ k, IsString pages va k → ∃ k', k = k' + 1 ∧ IsString pages (va + 1) k' := by
          intro k hk
          cases k with
          | zero => exact absurd hk.null hnot
          | succ k => exact ⟨k, rfl, (isString_succ.mp hk).2.2⟩
        constructor
        · refine hok.trans ⟨?_, ?_⟩
          · rintro ⟨k, hk, hstring⟩
            exact ⟨k + 1, Nat.succ_lt_succ hk, isString_succ.mpr ⟨hthere, hnot, hstring⟩⟩
          · rintro ⟨k, hk, hstring⟩
            obtain ⟨k', rfl, hstring'⟩ := hsucc k hstring
            exact ⟨k', Nat.lt_of_succ_lt_succ hk, hstring'⟩
        · intro k hk hstring
          obtain ⟨k', rfl, hstring'⟩ := hsucc k hstring
          rw [List.length_cons, hlen k' (Nat.lt_of_succ_lt_succ hk) hstring']

end Scan

section Fetch

def storedIn (buf bytes : List UInt8) : List UInt8 := bytes ++ buf.drop bytes.length

def strlen (buf : List UInt8) : Nat := (buf.takeWhile (· ≠ 0)).length

def fetchstr (mm : Mm) (addr : Nat) (buf : List UInt8) (max : Nat) : Code (Int × List UInt8) :=
  deref mm.pagetable fun pagetable => do
    let (ok, bytes) ← copyinstr pagetable addr max
    let buf := storedIn buf bytes
    if ok then return (strlen buf, buf) else return (-1, buf)

def argraw (mm : Mm) (n : Fin 6) : Code Nat :=
  deref mm.trapframe fun tf => load tf (tfA0 + n)

def argstr (mm : Mm) (n : Fin 6) (buf : List UInt8) (max : Nat) : Code (Int × List UInt8) := do
  let addr ← argraw mm n
  fetchstr mm addr buf max

theorem strlen_eq {buf : List UInt8} {k : Nat} (hnull : buf[k]? = some 0)
    (hfirst : ∀ j, j < k → buf[j]? ≠ some 0) : strlen buf = k := by
  induction buf generalizing k with
  | nil => simp at hnull
  | cons byte rest ih =>
    unfold strlen
    cases k with
    | zero =>
      obtain rfl : byte = 0 := by simpa using hnull
      simp
    | succ k =>
      have hbyte : byte ≠ 0 := by simpa using hfirst 0 (Nat.succ_pos k)
      have hrest := @ih k (by simpa using hnull) fun j hj => by
        simpa using hfirst (j + 1) (Nat.succ_lt_succ hj)
      unfold strlen at hrest
      rw [List.takeWhile_cons, if_pos (by simpa using hbyte), List.length_cons, hrest]

def Fetched (pages : UserPages) (srcva max : Nat) (r : Int) : Prop :=
  (∀ k, k < max → IsString pages srcva k → r = k) ∧
    ((∀ k, k < max → ¬IsString pages srcva k) → r = -1)

end Fetch

section Run

variable {s : Alone sig} {root srcva max : Nat}

theorem run_copyinstrLoop {more : Nat} (hram : InRam s.mem root) (hmore : max ≤ more) :
    (copyinstrLoop root more srcva max).run machine s =
      (.ok (readString (userIn s.mem root) more srcva max), s) := by
  induction more generalizing srcva max with
  | zero =>
    rw [copyinstrLoop, if_pos (Nat.le_zero.mp hmore)]
    rfl
  | succ more ih =>
    rw [copyinstrLoop, readString]
    by_cases hmax : max = 0
    · rw [if_pos hmax, if_pos hmax]
      rfl
    rw [if_neg hmax, if_neg hmax]
    refine (run_seq run_walkaddr).trans ?_
    have hva : pgRoundDown srcva < maxVa ↔ vpn srcva < vpn maxVa := by
      unfold pgRoundDown vpn maxVa pgSize
      omega
    have hpage : ∀ v, (vpn srcva < vpn maxVa ∧ entryIn s.mem root v &&& pteV ≠ 0 ∧
        entryIn s.mem root v &&& pteU ≠ 0 ∧ pte2pa (entryIn s.mem root v) ≠ 0) ↔
        vpn srcva < vpn maxVa ∧ entryIn s.mem root v &&& pteV ≠ 0 ∧
        entryIn s.mem root v &&& pteU ≠ 0 := by
      intro v
      refine ⟨fun h => ⟨h.1, h.2.1, h.2.2.1⟩, fun h => ⟨h.1, h.2.1, h.2.2, fun hzero => ?_⟩⟩
      have hlow := (hram.pages v h.2.1 h.2.2).1
      rw [hzero] at hlow
      exact absurd hlow (by decide)
    rw [vpn_pgRoundDown]
    unfold userIn
    simp only [hva, hpage]
    by_cases hfound : vpn srcva < vpn maxVa ∧ entryIn s.mem root (vpn srcva) &&& pteV ≠ 0 ∧
        entryIn s.mem root (vpn srcva) &&& pteU ≠ 0
    · simp only [if_pos hfound]
      refine (run_seq (a := s.mem (.page (pte2pa (entryIn s.mem root (vpn srcva))))) rfl).trans ?_
      generalize hbytes : Bytes.slice _ _ _ = bytes
      by_cases hnull : 0 ∈ bytes
      · simp only [if_pos hnull]
        rfl
      · simp only [if_neg hnull]
        refine (run_seq (ih ?_)).trans rfl
        have := sub_pgRoundDown_lt srcva
        omega
    · simp only [if_neg hfound]
      rfl

theorem run_copyinstr (hram : InRam s.mem root) : (copyinstr root srcva max).run machine s =
    (.ok (scan (userIn s.mem root) max srcva), s) := by
  rw [← readString_eq_scan (Nat.le_refl max)]
  exact run_copyinstrLoop hram (Nat.le_refl max)

theorem scan_string {pages : UserPages} {k : Nat} (hk : k < max)
    (hstring : IsString pages srcva k) :
    (scan pages max srcva).2.length = k + 1 ∧
      ∀ j, j ≤ k → (scan pages max srcva).2[j]? = byteAt pages (srcva + j) := by
  have hlen := (scan_ok max srcva).2 k hk hstring
  refine ⟨hlen, fun j hj => ((scan_bytes max srcva).2 j ?_).symm⟩
  rw [hlen]
  exact Nat.lt_succ_of_le hj

theorem run_fetchstr {mm : Mm} {buf : List UInt8} (hram : InRam s.mem root)
    (hpt : mm.pagetable = some root) (hbuf : buf.length = max) :
    ∃ r buf', (fetchstr mm srcva buf max).run machine s = (.ok (r, buf'), s) ∧
      buf'.length = max ∧ Fetched (userIn s.mem root) srcva max r := by
  obtain ⟨hle, -⟩ := @scan_bytes (userIn s.mem root) max srcva
  have hok := (@scan_ok (userIn s.mem root) max srcva).1
  have hlen : (storedIn buf (scan (userIn s.mem root) max srcva).2).length = max := by
    rw [storedIn, List.length_append, List.length_drop]
    omega
  have hrun : (fetchstr mm srcva buf max).run machine s =
      (.ok (if (scan (userIn s.mem root) max srcva).1 then
          (strlen (storedIn buf (scan (userIn s.mem root) max srcva).2) : Int) else -1,
        storedIn buf (scan (userIn s.mem root) max srcva).2), s) := by
    simp only [fetchstr, hpt, deref]
    refine (run_seq (run_copyinstr hram)).trans ?_
    dsimp only
    split
    · rfl
    · rfl
  refine ⟨_, _, hrun, hlen, fun k hk hstring => ?_, fun hno => ?_⟩
  · rw [if_pos (hok.mpr ⟨k, hk, hstring⟩)]
    obtain ⟨hcount, hbytes⟩ := scan_string hk hstring
    have hstart : ∀ j, j ≤ k → (storedIn buf (scan (userIn s.mem root) max srcva).2)[j]? =
        byteAt (userIn s.mem root) (srcva + j) := by
      intro j hj
      rw [storedIn, List.getElem?_append_left (by omega), hbytes j hj]
    rw [strlen_eq (k := k)]
    · rw [hstart k (Nat.le_refl k), hstring.null]
    · intro j hj
      rw [hstart j (Nat.le_of_lt hj)]
      exact hstring.first j hj
  · rw [if_neg]
    intro htrue
    obtain ⟨k, hk, hstring⟩ := hok.mp htrue
    exact hno k hk hstring

end Run

/-- `copyinstr` reads a string that ends within `max` bytes or fails, and stores at most
`max` bytes; `fetchstr` and `argstr` return its length. -/
theorem copyinstr_exact (s : Alone sig) {root : Nat} (hram : InRam s.mem root)
    (srcva max : Nat) :
    (∃ ok bytes, (copyinstr root srcva max).run machine s = (.ok (ok, bytes), s) ∧
      bytes.length ≤ max ∧
      (ok = true ↔ ∃ k, k < max ∧ IsString (userIn s.mem root) srcva k) ∧
      ∀ k, k < max → IsString (userIn s.mem root) srcva k → bytes.length = k + 1 ∧
        ∀ j, j ≤ k → bytes[j]? = byteAt (userIn s.mem root) (srcva + j)) ∧
    ∀ mm buf, mm.pagetable = some root → buf.length = max →
      (∃ r buf', (fetchstr mm srcva buf max).run machine s = (.ok (r, buf'), s) ∧
        buf'.length = max ∧ Fetched (userIn s.mem root) srcva max r) ∧
      ∀ (n : Fin 6) tf, mm.trapframe = some tf → word (s.mem (.page tf)) (tfA0 + n) = srcva →
        ∃ r buf', (argstr mm n buf max).run machine s = (.ok (r, buf'), s) ∧
          buf'.length = max ∧ Fetched (userIn s.mem root) srcva max r := by
  refine ⟨⟨_, _, run_copyinstr hram, (scan_bytes max srcva).1, (scan_ok max srcva).1,
    fun k hk hstring => scan_string hk hstring⟩, fun mm buf hpt hbuf => ?_⟩
  have hfetch := @run_fetchstr s root srcva max mm buf hram hpt hbuf
  refine ⟨hfetch, fun n tf htf hreg => ?_⟩
  have harg : (argstr mm n buf max).run machine s = (fetchstr mm srcva buf max).run machine s := by
    unfold argstr argraw
    rw [htf, ← hreg]
    exact run_seq (run_load tf _)
  rw [harg]
  exact hfetch

section Sample

def stringRun : Except Panic (Mm × List Outcome) × Alone sig :=
  (performAll sampleImage [.sbrk 4096 sbrkEager, .copyout 0 [104, 105, 0]] sampleMm).run machine
    sampleStart.2

theorem stringRun_outcome : outcome stringRun =
    some ({ sampleMm with sz := 4096 }, [.returned 0, .copiedOut true]) ∧
    stringRun.2.short = false := by
  decide +kernel

theorem stringRun_inRam : InRam stringRun.2.mem 0x80101 := by
  have hfits : ∀ a ∈ [Access.sbrk 4096 sbrkEager, .copyout 0 [104, 105, 0]], a.Fits := by
    simp [Access.Fits]
  obtain ⟨h, hs, hmm⟩ := sampleProcess
  obtain ⟨pages, hshow⟩ := hmm.shows
  obtain ⟨mm, outcomes, pages', h', hrun, -, hs', root, tf, mapped, hpt, -, hview, -⟩ :=
    performAll_run hfits hs hshow stringRun_outcome.2
  have hend : stringRun.1 = .ok ({ sampleMm with sz := 4096 }, _) :=
    ok_of_outcome stringRun_outcome.1
  rw [show stringRun.1 = .ok (mm, outcomes) from hrun] at hend
  cases hend
  cases hpt
  obtain ⟨S, hroot, hlayout, hrep, -⟩ := hview
  rw [show (0x80101 : Nat) = S.root from hroot.symm]
  exact hrep.inRam (fun _ hc => hc) hlayout hs'.mem

end Sample

theorem copyinstr_exact_hi : InRam stringRun.2.mem 0x80101 ∧
    IsString (userIn stringRun.2.mem 0x80101) 0 2 ∧
    ∃ bytes, (copyinstr 0x80101 0 16).run machine stringRun.2 = (.ok (true, bytes), stringRun.2) ∧
      bytes.length = 3 := by
  have hstring : IsString (userIn stringRun.2.mem 0x80101) 0 2 :=
    ⟨by decide +kernel, by decide +kernel, by decide +kernel⟩
  obtain ⟨⟨ok, bytes, hrun, -, hok, hbytes⟩, -⟩ := copyinstr_exact stringRun.2 stringRun_inRam 0 16
  refine ⟨stringRun_inRam, hstring, bytes, ?_, (hbytes 2 (by decide) hstring).1⟩
  rw [hrun, hok.mpr ⟨2, by decide, hstring⟩]

end Xv6.Vm
