import Xv6.Vm.Kernel

/-! `kalloc.c` and `vm.c`. A pointer to a page is its number, and `none` where
it is null; a pointer to an entry is a page and an index. A `for` loop is a
recursion on the number of iterations left. -/
namespace Xv6.Vm

open Lib

/-- What the linker decided: the pages that hold the end of the kernel and the
trampoline code. -/
structure Image where
  /-- `PGROUNDUP(end)`, the first page that `kinit` frees -/
  firstPage : Nat
  trampolinePage : Nat
  text : kernBase / pgSize ≤ trampolinePage ∧ trampolinePage < firstPage
  ram : firstPage ≤ physTop / pgSize

def Image.managed (img : Image) (n : Nat) : Prop := img.firstPage ≤ n ∧ n < physTop / pgSize

instance (img : Image) (n : Nat) : Decidable (img.managed n) := inferInstanceAs (Decidable (_ ∧ _))

section Memory

def load (n i : Nat) : Code Nat := .read (.page n) fun data => .ret (word data i)

def store (n i value : Nat) : Code Unit :=
  .modify (.page n) (fun data => setWord data i value) (.ret ())

def memset (n : Nat) (byte : UInt8) : Code Unit :=
  .modify (.page n) (fun _ => filled byte) (.ret ())

def kalloc : Code (Option Nat) :=
  .alloc fun
    | some (.page n) => .ret (some n)
    | _ => .ret none

def kfree (img : Image) (n : Nat) : Code Unit :=
  if img.managed n then .free (.page n) (.ret ()) else .panic .kfree

end Memory

def walkLevel (pagetable i : Nat) (alloc : Bool) : Code (Option Nat) := do
  let pte ← load pagetable i
  if pte &&& pteV ≠ 0 then return some (pte2pa pte)
  else if alloc then
    match ← kalloc with
    | none => return none
    | some next =>
        memset next 0
        store pagetable i (pa2pte next ||| pteV)
        return some next
  else return none

def walk (pagetable va : Nat) (alloc : Bool) : Code (Option (Nat × Nat)) := do
  if va ≥ maxVa then .panic .walk
  else
    match ← walkLevel pagetable (px 2 va) alloc with
    | none => return none
    | some middle =>
        match ← walkLevel middle (px 1 va) alloc with
        | none => return none
        | some lower => return some (lower, px 0 va)

def walkaddr (pagetable va : Nat) : Code (Option Nat) := do
  if va ≥ maxVa then return none
  else
    match ← walk pagetable va false with
    | none => return none
    | some (n, i) =>
        let pte ← load n i
        if pte &&& pteV = 0 then return none
        else if pte &&& pteU = 0 then return none
        -- the address of page 0 is the null pointer
        else if pte2pa pte = 0 then return none
        else return some (pte2pa pte)

def mapLoop (pagetable perm : Nat) : Nat → Nat → Nat → Code Bool
  | more, a, pa => do
      match ← walk pagetable a true with
      | none => return false
      | some (n, i) =>
          let pte ← load n i
          if pte &&& pteV ≠ 0 then .panic .mappagesRemap
          else
            store n i (pa2pte pa ||| perm ||| pteV)
            match more with
            | 0 => return true
            | more + 1 => mapLoop pagetable perm more (a + pgSize) (pa + 1)

def mappages (pagetable va size pa perm : Nat) : Code Bool :=
  if va % pgSize ≠ 0 then .panic .mappagesVa
  else if size % pgSize ≠ 0 ∨ size = 0 then .panic .mappagesSize
  else mapLoop pagetable perm (size / pgSize - 1) va pa

def uvmcreate : Code (Option Nat) := do
  match ← kalloc with
  | none => return none
  | some pagetable =>
      memset pagetable 0
      return some pagetable

variable (img : Image)

def unmapPage (pagetable a : Nat) (doFree : Bool) : Code Unit := do
  match ← walk pagetable a false with
  | none => return ()
  | some (n, i) =>
      let pte ← load n i
      if pte &&& pteV = 0 then return ()
      else
        if doFree then kfree img (pte2pa pte)
        store n i 0

def unmapLoop (pagetable : Nat) (doFree : Bool) : Nat → Nat → Code Unit
  | 0, _ => return ()
  | n + 1, a => do
      unmapPage img pagetable a doFree
      unmapLoop pagetable doFree n (a + pgSize)

def uvmunmap (pagetable va npages : Nat) (doFree : Bool) : Code Unit :=
  if va % pgSize ≠ 0 then .panic .uvmunmapNotAligned
  else unmapLoop img pagetable doFree npages va

def uvmdealloc (pagetable oldsz newsz : Nat) : Code Nat := do
  if newsz ≥ oldsz then return oldsz
  else
    if pgRoundUp newsz < pgRoundUp oldsz then
      uvmunmap img pagetable (pgRoundUp newsz) ((pgRoundUp oldsz - pgRoundUp newsz) / pgSize) true
    return newsz

def allocLoop (pagetable oldsz xperm : Nat) : Nat → Nat → Code Bool
  | 0, _ => return true
  | n + 1, a => do
      match ← kalloc with
      | none =>
          let _ ← uvmdealloc img pagetable a oldsz
          return false
      | some mem =>
          memset mem 0
          if ← mappages pagetable a pgSize mem (pteR ||| pteU ||| xperm) then
            allocLoop pagetable oldsz xperm n (a + pgSize)
          else
            kfree img mem
            let _ ← uvmdealloc img pagetable a oldsz
            return false

def uvmalloc (pagetable oldsz newsz xperm : Nat) : Code Nat := do
  if newsz < oldsz then return oldsz
  else
    let oldsz := pgRoundUp oldsz
    if ← allocLoop img pagetable oldsz xperm ((newsz - oldsz + pgSize - 1) / pgSize) oldsz then
      return newsz
    else return 0

def forRange : Nat → (Nat → Code Unit) → Code Unit
  | 0, _ => return ()
  | n + 1, body => do
      forRange n body
      body n

theorem forRange_zero (body : Nat → Code Unit) : forRange 0 body = pure () := rfl

theorem forRange_succ (n : Nat) (body : Nat → Code Unit) :
    forRange (n + 1) body = (do forRange n body; body n) := rfl

-- or the loop of `freewalk` would be unrolled whenever it is looked at
attribute [irreducible] forRange

def freeEntry (freewalk : Nat → Code Unit) (pagetable i : Nat) : Code Unit := do
  let pte ← load pagetable i
  if pte &&& pteV ≠ 0 ∧ pte &&& (pteR ||| pteW ||| pteX) = 0 then
    freewalk (pte2pa pte)
    store pagetable i 0
  else if pte &&& pteV ≠ 0 then .panic .freewalkLeaf
  else return ()

/-- `freewalk`, to a depth that no page table exceeds. -/
def freewalk : Nat → Nat → Code Unit
  | 0, _ => .panic .endless
  | depth + 1, pagetable => do
      forRange 512 (freeEntry (freewalk depth) pagetable)
      kfree img pagetable

def uvmfree (pagetable sz : Nat) : Code Unit := do
  if sz > 0 then uvmunmap img pagetable 0 (pgRoundUp sz / pgSize) true
  freewalk img 3 pagetable

def uvmclear (pagetable va : Nat) : Code Unit := do
  match ← walk pagetable va false with
  | none => .panic .uvmclear
  | some (n, i) =>
      let pte ← load n i
      store n i (pte - (pte &&& pteU))

def ismapped (pagetable va : Nat) : Code Bool := do
  match ← walk pagetable va false with
  | none => return false
  | some (n, i) =>
      let pte ← load n i
      return pte &&& pteV ≠ 0

/-- `vmfault`, called by the process whose memory is `mm`. -/
def vmfault (mm : Mm) (pagetable va : Nat) : Code (Option Nat) := do
  if va ≥ mm.sz then return none
  else
    let va := pgRoundDown va
    if ← ismapped pagetable va then return none
    else
      match ← kalloc with
      | none => return none
      | some mem =>
          memset mem 0
          match mm.pagetable with
          | none => .panic .nullPointer
          | some own =>
              if ← mappages own va pgSize mem (pteW ||| pteU ||| pteR) then return some mem
              else
                kfree img mem
                return none

/-- Where `copyin` and `copyout` find the page of a user address. -/
def userPage (mm : Mm) (pagetable va0 : Nat) : Code (Option Nat) := do
  match ← walkaddr pagetable va0 with
  | some pa0 => return some pa0
  | none => vmfault img mm pagetable va0

/-- `copyout` at one page: whether the page may be written, and so has been. -/
def storeUser (pagetable va0 pa0 : Nat) (change : Data → Data) : Code Bool := do
  match ← walk pagetable va0 false with
  | none => .panic .nullPointer
  | some (page, i) =>
      let pte ← load page i
      if pte &&& pteW = 0 then return false
      else
        .modify (.page pa0) change (.ret ())
        return true

/-- The loop of `copyout`; whether it got to its end. Each iteration copies at
least a byte, so there are at most as many as bytes. -/
def copyoutLoop (mm : Mm) (pagetable : Nat) : Nat → Nat → List UInt8 → Code Bool
  | 0, _, src => if src = [] then return true else .panic .endless
  | more + 1, dstva, src => do
      if src = [] then return true
      else
        let va0 := pgRoundDown dstva
        if va0 ≥ maxVa then return false
        else
          match ← userPage img mm pagetable va0 with
          | none => return false
          | some pa0 =>
              let n := min (pgSize - (dstva - va0)) src.length
              if ← storeUser pagetable va0 pa0 (·.blit (dstva - va0) (src.take n)) then
                copyoutLoop mm pagetable more (va0 + pgSize) (src.drop n)
              else return false

def copyout (mm : Mm) (pagetable dstva : Nat) (src : List UInt8) : Code Bool :=
  copyoutLoop img mm pagetable src.length dstva src

/-- The loop of `copyin`: whether it got to its end, and the bytes it has copied. -/
def copyinLoop (mm : Mm) (pagetable : Nat) : Nat → Nat → Nat → Code (Bool × List UInt8)
  | 0, _, len => if len = 0 then return (true, []) else .panic .endless
  | more + 1, srcva, len => do
      if len = 0 then return (true, [])
      else
        let va0 := pgRoundDown srcva
        match ← userPage img mm pagetable va0 with
        | none => return (false, [])
        | some pa0 =>
            let n := min (pgSize - (srcva - va0)) len
            let data ← .read (.page pa0) .ret
            let (ok, rest) ← copyinLoop mm pagetable more (va0 + pgSize) (len - n)
            return (ok, data.slice (srcva - va0) n ++ rest)

def copyin (mm : Mm) (pagetable srcva len : Nat) : Code (Bool × List UInt8) :=
  copyinLoop img mm pagetable len srcva len

/-- The loop of `copyinstr`: `got_null`, and the bytes it has copied. -/
def copyinstrLoop (pagetable : Nat) : Nat → Nat → Nat → Code (Bool × List UInt8)
  | 0, _, max => if max = 0 then return (false, []) else .panic .endless
  | more + 1, srcva, max => do
      if max = 0 then return (false, [])
      else
        let va0 := pgRoundDown srcva
        match ← walkaddr pagetable va0 with
        | none => return (false, [])
        | some pa0 =>
            let n := min (pgSize - (srcva - va0)) max
            let data ← .read (.page pa0) .ret
            let bytes := data.slice (srcva - va0) n
            if 0 ∈ bytes then return (true, bytes.takeWhile (· ≠ 0) ++ [0])
            else
              let (ok, rest) ← copyinstrLoop pagetable more (va0 + pgSize) (max - n)
              return (ok, bytes ++ rest)

def copyinstr (pagetable srcva max : Nat) : Code (Bool × List UInt8) :=
  copyinstrLoop pagetable max srcva max

end Xv6.Vm
