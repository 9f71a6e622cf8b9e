import Mathlib.Data.List.FinRange
import Xv6.Vm.Code

/-! Processes and their memory: `proc.c`, `exec.c` and the system calls that use them.
Arguments of a system call are what the user left in registers. -/
namespace Xv6.Vm

open Lib

def addInt (x : Nat) (n : Int) : Nat := ((x + n) % 2 ^ 64).toNat

def minusOne : Nat := 2 ^ 64 - 1

def toBytes : Nat → Nat → List UInt8
  | 0, _ => []
  | width + 1, value => UInt8.ofNat value :: toBytes width (value / 256)

def ofBytes : List UInt8 → Nat
  | [] => 0
  | byte :: rest => byte.toNat + 256 * ofBytes rest

def field (bytes : List UInt8) (offset width : Nat) : Nat :=
  ofBytes ((bytes.drop offset).take width)

def cstring (data : Data) : List UInt8 := (data.slice 0 pgSize).takeWhile (· ≠ 0)

def deref {α : Type} (p : Option Nat) (k : Nat → Code α) : Code α :=
  match p with
  | none => .panic .nullPointer
  | some n => k n

section Trapframe

/-- Indices of the words of `struct trapframe`, 36 of them. -/
def tfEpc : Nat := 3
def tfSp : Nat := 6
def tfA0 : Nat := 14
def tfA1 : Nat := 15

end Trapframe

variable (img : Image)

def procPagetable (tf : Nat) : Code (Option Nat) := do
  match ← uvmcreate with
  | none => return none
  | some pagetable =>
      if ← mappages pagetable trampoline pgSize img.trampolinePage (pteR ||| pteX) then
        if ← mappages pagetable trapframe pgSize tf (pteR ||| pteW) then return some pagetable
        else
          uvmunmap img pagetable trampoline 1 false
          uvmfree img pagetable 0
          return none
      else
        uvmfree img pagetable 0
        return none

def procFreepagetable (pagetable sz : Nat) : Code Unit := do
  uvmunmap img pagetable trampoline 1 false
  uvmunmap img pagetable trapframe 1 false
  uvmfree img pagetable sz

def growproc (mm : Mm) (n : Int) : Code (Bool × Mm) :=
  deref mm.pagetable fun pagetable => do
    if n > 0 then
      if addInt mm.sz n > trapframe then return (false, mm)
      else
        let sz ← uvmalloc img pagetable mm.sz (addInt mm.sz n) pteW
        if sz = 0 then return (false, mm) else return (true, { mm with sz := sz })
    else if n < 0 then
      let sz ← uvmdealloc img pagetable mm.sz (addInt mm.sz n)
      return (true, { mm with sz := sz })
    else return (true, mm)

def sbrkEager : Int := 1

def sysSbrk (n t : Int) (mm : Mm) : Code (Mm × Nat) := do
  let addr := mm.sz
  if t = sbrkEager ∨ n < 0 then
    let (ok, mm) ← growproc img mm n
    return (mm, if ok then addr else minusOne)
  else if addInt addr n < addr then return (mm, minusOne)
  else if addInt addr n > trapframe then return (mm, minusOne)
  else return ({ mm with sz := addInt addr n }, addr)

section Exec

/-- `readi` into the kernel: the bytes read of a file with these contents. -/
def readi (file : List UInt8) (off n : Nat) : List UInt8 :=
  if off > file.length ∨ (off + n) % 2 ^ 32 < off then [] else (file.drop off).take n

def flags2perm (flags : Nat) : Nat :=
  (if flags &&& 1 ≠ 0 then pteX else 0) ||| (if flags &&& 2 ≠ 0 then pteW else 0)

def loadLoop (pagetable va : Nat) (file : List UInt8) (offset sz : Nat) : Nat → Nat → Code Bool
  | 0, _ => return true
  | more + 1, i => do
      match ← walkaddr pagetable (va + i) with
      | none => .panic .loadseg
      | some pa =>
          let n := min (sz - i) pgSize
          let bytes := readi file ((offset + i) % 2 ^ 32) n
          .modify (.page pa) (fun data => data.blit 0 bytes) (.ret ())
          if bytes.length ≠ n then return false
          else loadLoop pagetable va file offset sz more (i + pgSize)

def loadseg (pagetable va : Nat) (file : List UInt8) (offset sz : Nat) : Code Bool :=
  loadLoop pagetable va file offset sz (npages sz) 0

def phSize : Nat := 56

def elfSize : Nat := 64

def elfMagic : Nat := 0x464C457F

/-- One iteration of the loop of `kexec` over the program headers: whether to go
on, and `sz`. -/
def loadProg (pagetable : Nat) (file : List UInt8) (off sz : Nat) : Code (Bool × Nat) := do
  let ph := readi file off phSize
  let vaddr := field ph 16 8
  let filesz := field ph 32 8
  let memsz := field ph 40 8
  if ph.length ≠ phSize then return (false, sz)
  else if field ph 0 4 ≠ 1 then return (true, sz)
  else if memsz < filesz then return (false, sz)
  else if (vaddr + memsz) % 2 ^ 64 < vaddr then return (false, sz)
  else if vaddr % pgSize ≠ 0 then return (false, sz)
  else
    let sz1 ← uvmalloc img pagetable sz (vaddr + memsz) (flags2perm (field ph 4 4))
    if sz1 = 0 then return (false, sz)
    else
      let ok ← loadseg pagetable vaddr file (field ph 8 8 % 2 ^ 32) (filesz % 2 ^ 32)
      return (ok, sz1)

def loadProgs (pagetable : Nat) (file : List UInt8) : Nat → Nat → Nat → Code (Bool × Nat)
  | 0, _, sz => return (true, sz)
  | n + 1, off, sz => do
      let (ok, sz) ← loadProg img pagetable file off sz
      if ok then loadProgs pagetable file n ((off + phSize) % 2 ^ 32) sz else return (false, sz)

def maxArg : Nat := 32

def pushed (sp len : Nat) : Nat :=
  let sp := addInt sp (-len)
  addInt sp (-(sp % 16 : Nat))

/-- The loop of `kexec` that pushes the argument strings: the stack pointer and
`ustack` after it. -/
def pushArgs (mm : Mm) (pagetable stackbase : Nat) :
    List Nat → Nat → List Nat → Code (Option (Nat × List Nat))
  | [], sp, ustack => return some (sp, ustack)
  | arg :: argv, sp, ustack => do
      if ustack.length ≥ maxArg then return none
      else
        let data ← .read (.page arg) .ret
        let string := cstring data ++ [0]
        let sp := pushed sp string.length
        if sp < stackbase then return none
        else if ← copyout img mm pagetable sp string then
          pushArgs mm pagetable stackbase argv sp (ustack ++ [sp])
        else return none

def buildStack (mm : Mm) (pagetable sz : Nat) (argv : List Nat) : Code (Option (Nat × Nat)) := do
  let stackbase := addInt sz (-pgSize)
  match ← pushArgs img mm pagetable stackbase argv sz [] with
  | none => return none
  | some (sp, ustack) =>
      -- `ustack[argc] = 0;`
      if ustack.length ≥ maxArg then .panic .ustack
      else
        let sp := pushed sp (8 * (ustack.length + 1))
        if sp < stackbase then return none
        else if ← copyout img mm pagetable sp ((ustack ++ [0]).flatMap (toBytes 8)) then
          return some (sp, ustack.length)
        else return none

def execBad (pagetable sz : Nat) (mm : Mm) : Code (Mm × Nat) := do
  procFreepagetable img pagetable sz
  return (mm, minusOne)

/-- `kexec` from the commit to the new image on. -/
def execCommit (mm : Mm) (tf pagetable sz sp entry argc : Nat) : Code (Mm × Nat) :=
  deref mm.pagetable fun oldpagetable => do
    store tf tfA1 sp
    store tf tfEpc entry
    store tf tfSp sp
    procFreepagetable img oldpagetable mm.sz
    return ({ mm with pagetable := some pagetable, sz := sz }, argc)

/-- `kexec` from `sp = sz` on. -/
def execArgs (mm : Mm) (tf pagetable sz entry : Nat) (argv : List Nat) : Code (Mm × Nat) := do
  match ← buildStack img mm pagetable sz argv with
  | none => execBad img pagetable sz mm
  | some (sp, argc) => execCommit img mm tf pagetable sz sp entry argc

def execStack (mm : Mm) (tf pagetable sz entry : Nat) (argv : List Nat) : Code (Mm × Nat) := do
  let sz := pgRoundUp sz
  let sz1 ← uvmalloc img pagetable sz (sz + 2 * pgSize) pteW
  if sz1 = 0 then execBad img pagetable sz mm
  else
    uvmclear pagetable (sz1 - 2 * pgSize)
    execArgs img mm tf pagetable sz1 entry argv

/-- `kexec` of a file with these contents, if there is one; the argument
strings are in pages. -/
def kexec (file : Option (List UInt8)) (argv : List Nat) (mm : Mm) : Code (Mm × Nat) := do
  match file with
  | none => return (mm, minusOne)
  | some file =>
      let elf := readi file 0 elfSize
      if elf.length ≠ elfSize then return (mm, minusOne)
      else if field elf 0 4 ≠ elfMagic then return (mm, minusOne)
      else
        deref mm.trapframe fun tf => do
          match ← procPagetable img tf with
          | none => return (mm, minusOne)
          | some pagetable =>
              let (ok, sz) ← loadProgs img pagetable file (field elf 56 2)
                  (field elf 32 8 % 2 ^ 32) 0
              if ok then execStack img mm tf pagetable sz (field elf 24 8) argv
              else execBad img pagetable sz mm

end Exec

end Xv6.Vm
