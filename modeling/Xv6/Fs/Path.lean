import Xv6.Fs.Dirent
import Xv6.Fs.World

/-! Directories and paths of `fs.c`, and the system calls of `sysfile.c` that work
on them. A `char*` argument of a system call is `none` where `argstr` fails. -/
namespace Xv6.Fs.Names

open Lib

def tDir : Int16 := 1

def tFile : Int16 := 2

def tDevice : Int16 := 3

def rootIno : Nat := 1

section Calls

def beginOp : Kernel Unit := Op.perform .beginOp
def endOp : Kernel Unit := Op.perform .endOp
def iget (inum : Nat) : Kernel Ptr := Op.perform (.iget inum)
def idup (ip : Ptr) : Kernel Unit := Op.perform (.idup ip)
def ilock (ip : Ptr) : Kernel Unit := Op.perform (.ilock ip)
def iunlock (ip : Ptr) : Kernel Unit := Op.perform (.iunlock ip)
def iput (ip : Ptr) : Kernel Unit := Op.perform (.iput ip)
def ialloc (type : Int16) : Kernel (Option Ptr) := Op.perform (.ialloc type)
def load (ip : Ptr) : Kernel Inode := Op.perform (.load ip)
def update (ip : Ptr) (major minor nlink : Int16) : Kernel Unit :=
  Op.perform (.update ip major minor nlink)
def readi (ip : Ptr) (off n : Nat) : Kernel (Int × List UInt8) := Op.perform (.readi ip off n)
def writei (ip : Ptr) (bytes : List UInt8) (off : Nat) : Kernel Int :=
  Op.perform (.writei ip bytes off)
def myCwd : Kernel Ptr := Op.perform .cwd

def panicWith {α : Type} (e : Failure) : Kernel α := Script.fail e

end Calls

def iunlockput (ip : Ptr) : Kernel Unit := do
  iunlock ip
  iput ip

/-- The loops over the entries of a directory: read the one at each offset, until there is
something to do about one. -/
def scan {α : Type} (dp : Ptr) (failure : Failure) (visit : Nat → Dirent → Option (Kernel α))
    (otherwise : Kernel α) : List Nat → Kernel α
  | [] => otherwise
  | off :: rest => do
      let (r, bytes) ← readi dp off direntSize
      if r ≠ direntSize then panicWith failure
      else
        match visit off (.read bytes) with
        | some next => next
        | none => scan dp failure visit otherwise rest

def dirlookup (dp : Ptr) (name : CString) : Kernel (Option (Ptr × Nat)) := do
  let x ← load dp
  if x.d.type ≠ tDir then panicWith .dirlookupNotDir
  else
    scan dp .dirlookupRead (fun off de =>
      if de.inum ≠ 0 ∧ namecmp name de.name = 0 then some do
        let ip ← iget de.inum
        pure (some (ip, off))
      else none) (pure none) (offsets 0 x.d.size)

def dirlink (dp : Ptr) (name : CString) (inum : Nat) : Kernel Int := do
  match ← dirlookup dp name with
  | some (ip, _) => do
      iput ip
      pure (-1)
  | none => do
      let x ← load dp
      let entries := offsets 0 x.d.size
      -- an empty entry, or where the loop ends without one
      let off ← scan dp .dirlinkRead (fun off de => if de.inum = 0 then some (pure off) else none)
        (pure (direntSize * entries.length)) entries
      let r ← writei dp (direntBytes inum name) off
      if r ≠ direntSize then pure (-1) else pure 0

def slash : UInt8 := 47

/-- The next element of a path, as far as it fits in `name`, and what follows it;
a path has no 0 in it. -/
def skipelem (path : CString) : Option (CString × CString) :=
  let path := List.dropWhile (· = slash) path
  if path = [] then none
  else
    let elem := path.takeWhile (· ≠ slash)
    some (elem.take dirsiz, (path.drop elem.length).dropWhile (· = slash))

def elements : Nat → CString → List CString
  | 0, _ => []
  | fuel + 1, path =>
      match skipelem path with
      | some (name, rest) => name :: elements fuel rest
      | none => []

/-- The loop of `namex`, over the elements to come. What follows the last of them is
the empty path. -/
def namexFrom (parent : Bool) : List CString → CString → Ptr → Kernel (Option (Ptr × CString))
  | [], name, ip =>
      if parent then do
        iput ip
        pure none
      else pure (some (ip, name))
  | name :: rest, _, ip => do
      ilock ip
      let x ← load ip
      if x.d.type ≠ tDir then do
        iunlockput ip
        pure none
      else if parent ∧ rest = [] then do
        -- stop one level early
        iunlock ip
        pure (some (ip, name))
      else
        match ← dirlookup ip name with
        | none => do
            iunlockput ip
            pure none
        | some (next, _) => do
            iunlockput ip
            namexFrom parent rest name next

def namex (path : CString) (parent : Bool) : Kernel (Option (Ptr × CString)) := do
  let ip ←
    if path.head = slash then iget rootIno
    else do
      let ip ← myCwd
      idup ip
      pure ip
  namexFrom parent (elements path.length path) [] ip

def namei (path : CString) : Kernel (Option Ptr) := do
  let found ← namex path false
  pure (found.map (·.1))

def nameiparent (path : CString) : Kernel (Option (Ptr × CString)) := namex path true

/-- From the call of `nameiparent` in `sys_link` to the entry; whether it was made. -/
def linkName (ip : Ptr) (new : CString) : Kernel Bool := do
  match ← nameiparent new with
  | none => pure false
  | some (dp, name) => do
      ilock dp
      let x ← load ip
      let r ← dirlink dp name x.inum
      iunlockput dp
      pure (decide (0 ≤ r))

def sysLink : Option CString → Option CString → Kernel Int
  | some old, some new => do
      beginOp
      match ← namei old with
      | none => do
          endOp
          pure (-1)
      | some ip => do
          ilock ip
          let x ← load ip
          if x.d.type = tDir then do
            iunlockput ip
            endOp
            pure (-1)
          else do
            update ip x.d.major x.d.minor (x.d.nlink + 1)
            iunlock ip
            if ← linkName ip new then do
              iput ip
              endOp
              pure 0
            else do
              ilock ip
              let x ← load ip
              update ip x.d.major x.d.minor (x.d.nlink - 1)
              iunlockput ip
              endOp
              pure (-1)
  | _, _ => pure (-1)

def isdirempty (dp : Ptr) : Kernel Bool := do
  let x ← load dp
  scan dp .isdiremptyReadi (fun _ de => if de.inum ≠ 0 then some (pure false) else none)
    (pure true) (offsets (2 * direntSize) x.d.size)

def dot : CString := [46]

def dotdot : CString := [46, 46]

/-- The end of `sys_unlink`, when the entry is gone. -/
def unlinkPut (dp ip : Ptr) : Kernel Bool := do
  iunlockput dp
  let x ← load ip
  update ip x.d.major x.d.minor (x.d.nlink - 1)
  iunlockput ip
  pure true

/-- `sys_unlink` from its `memset` on; `type` is the type of `ip`. -/
def unlinkEntry (dp ip : Ptr) (type : Int16) (off : Nat) : Kernel Bool := do
  let r ← writei dp (List.replicate direntSize 0) off
  if r ≠ direntSize then panicWith .unlinkWritei
  else do
    if type = tDir then do
      -- for ".."
      let y ← load dp
      update dp y.d.major y.d.minor (y.d.nlink - 1)
    unlinkPut dp ip

/-- `sys_unlink` once the name is found in `dp`. -/
def unlinkFound (dp ip : Ptr) (off : Nat) : Kernel Bool := do
  ilock ip
  let x ← load ip
  if x.d.nlink < 1 then panicWith .unlinkNlink
  else do
    let empty ← if x.d.type = tDir then isdirempty ip else pure true
    if !empty then do
      iunlockput ip
      pure false
    else unlinkEntry dp ip x.d.type off

/-- `sys_unlink` with `dp` locked; `dp` is given back unless the name is bad. -/
def unlinkName (dp : Ptr) (name : CString) : Kernel Bool := do
  if namecmp name dot = 0 ∨ namecmp name dotdot = 0 then pure false
  else
    match ← dirlookup dp name with
    | none => pure false
    | some (ip, off) => unlinkFound dp ip off

def sysUnlink : Option CString → Kernel Int
  | some path => do
      beginOp
      match ← nameiparent path with
      | none => do
          endOp
          pure (-1)
      | some (dp, name) => do
          ilock dp
          if ← unlinkName dp name then do
            endOp
            pure 0
          else do
            iunlockput dp
            endOp
            pure (-1)
  | none => pure (-1)

def createEntries (dp ip : Ptr) (name : CString) (type : Int16) : Kernel Bool := do
  let x ← load ip
  let y ← load dp
  let dots ←
    if type = tDir then do
      if (← dirlink ip dot x.inum) < 0 then pure false
      else do
        let r ← dirlink ip dotdot y.inum
        pure (decide (0 ≤ r))
    else pure true
  if !dots then pure false
  else do
    let r ← dirlink dp name x.inum
    pure (decide (0 ≤ r))

/-- `create` once `ialloc` has returned the inode `ip`. -/
def createNew (dp ip : Ptr) (name : CString) (type major minor : Int16) :
    Kernel (Option Ptr) := do
  ilock ip
  update ip major minor 1
  if ← createEntries dp ip name type then do
    if type = tDir then do
      -- for ".."
      let y ← load dp
      update dp y.d.major y.d.minor (y.d.nlink + 1)
    iunlockput dp
    pure (some ip)
  else do
    let x ← load ip
    update ip x.d.major x.d.minor 0
    iunlockput ip
    iunlockput dp
    pure none

def create (path : CString) (type major minor : Int16) : Kernel (Option Ptr) := do
  match ← nameiparent path with
  | none => pure none
  | some (dp, name) => do
      ilock dp
      match ← dirlookup dp name with
      | some (ip, _) => do
          iunlockput dp
          ilock ip
          let x ← load ip
          if type = tFile ∧ (x.d.type = tFile ∨ x.d.type = tDevice) then pure (some ip)
          else do
            iunlockput ip
            pure none
      | none =>
          match ← ialloc type with
          | none => do
              iunlockput dp
              pure none
          | some ip => createNew dp ip name type major minor

/-- `sys_mkdir` and `sys_mknod`, which differ in what they create. -/
def makeNode (path : Option CString) (type major minor : Int16) : Kernel Int := do
  beginOp
  let made ←
    match path with
    | some path => create path type major minor
    | none => pure none
  match made with
  | none => do
      endOp
      pure (-1)
  | some ip => do
      iunlockput ip
      endOp
      pure 0

def sysMkdir (path : Option CString) : Kernel Int := makeNode path tDir 0 0

def sysMknod (path : Option CString) (major minor : Int16) : Kernel Int :=
  makeNode path tDevice major minor

end Xv6.Fs.Names
