import Xv6.Fs.Inode
import Xv6.Lib.Script

/-! What the code that works with names is written against: the inode layer with
its sleep-locks, the log's count of open transactions and the current directories. A call
of a process happens at once. -/
namespace Xv6.Fs

open Lib

structure World (P : Type) where
  fs : Store
  /-- who holds an inode's sleep-lock -/
  lock : Ptr → Option P
  /-- `log.outstanding` -/
  outstanding : Int
  cwd : P → Ptr

inductive Failure where
  /-- a panic of the inode layer -/
  | inode (e : Panic)
  | iunlock
  | dirlookupNotDir
  | dirlookupRead
  | dirlinkRead
  | isdiremptyReadi
  | unlinkNlink
  | unlinkWritei
  /-- not a panic: the process waits for a lock that nobody will release -/
  | deadlock
  deriving DecidableEq

inductive Op where
  | beginOp
  | endOp
  | iget (inum : Nat)
  | idup (ip : Ptr)
  | ilock (ip : Ptr)
  | iunlock (ip : Ptr)
  | iput (ip : Ptr)
  | ialloc (type : Int16)
  /-- read `*ip` -/
  | load (ip : Ptr)
  /-- assign to `ip->major`, `ip->minor` and `ip->nlink`, then `iupdate` -/
  | update (ip : Ptr) (major minor nlink : Int16)
  /-- to memory of the kernel -/
  | readi (ip : Ptr) (off n : Nat)
  /-- from memory of the kernel -/
  | writei (ip : Ptr) (bytes : List UInt8) (off : Nat)
  | cwd

def Op.Result : Op → Type
  | beginOp | endOp | idup _ | ilock _ | iunlock _ | iput _ | update .. => Unit
  | iget _ | cwd => Ptr
  | ialloc _ => Option Ptr
  | load _ => Inode
  | readi .. => Int × List UInt8
  | writei .. => Int

abbrev Op.interface : Interface where
  Call := Op
  Result := Op.Result
  Failure := Failure

abbrev Kernel := Script Op.interface

def Op.perform (op : Op) : Kernel op.Result := Script.perform (I := Op.interface) op

variable {P : Type} [DecidableEq P]

def World.onStore (w : World P) {α : Type} : Except Panic (α × Store) → Except Failure (α × World P)
  | .ok (a, fs) => .ok (a, { w with fs := fs })
  | .error e => .error (.inode e)

def World.setLock (w : World P) (ip : Ptr) (holder : Option P) : World P :=
  { w with lock := Function.update w.lock ip holder }

/-- What the calls of process `p` do when no other process is in the kernel: nobody is
there to release a lock that is taken. -/
def act (sb : Superblock) (p : P) : Handler Op.interface (World P)
  | w, .beginOp => .ok ((), { w with outstanding := w.outstanding + 1 })
  | w, .endOp => .ok ((), { w with outstanding := w.outstanding - 1 })
  | w, .iget inum => w.onStore (Fs.iget w.fs inum)
  | w, .idup ip => .ok ((), { w with fs := Fs.idup w.fs ip })
  | w, .ilock ip =>
      if (w.fs.inode ip).ref < 1 then .error (.inode .ilock)
      else if w.lock ip ≠ none then .error .deadlock
      else (w.setLock ip (some p)).onStore ((Fs.ilock sb w.fs ip).map fun fs => ((), fs))
  | w, .iunlock ip =>
      if w.lock ip ≠ some p ∨ (w.fs.inode ip).ref < 1 then .error .iunlock
      else .ok ((), w.setLock ip none)
  | w, .iput ip =>
      let x := w.fs.inode ip
      -- the lock is taken to free the inode
      if x.ref = 1 ∧ x.valid ∧ x.d.nlink = 0 ∧ w.lock ip ≠ none then .error .deadlock
      else w.onStore ((Fs.iput sb w.fs ip).map fun fs => ((), fs))
  | w, .ialloc type => w.onStore (Fs.ialloc sb w.fs type)
  | w, .load ip => .ok (w.fs.inode ip, w)
  | w, .update ip major minor nlink =>
      let d := { (w.fs.inode ip).d with major := major, minor := minor, nlink := nlink }
      .ok ((), { w with fs := iupdate sb (w.fs.setD ip d) ip })
  | w, .readi ip off n =>
      w.onStore ((Fs.readi sb w.fs ip (fun _ => true) off n).map fun (r, bytes, fs) =>
        ((r, bytes), fs))
  | w, .writei ip bytes off =>
      w.onStore (Fs.writei sb w.fs ip (fun t => bytes[t]?) off bytes.length)
  | w, .cwd => .ok (w.cwd p, w)

end Xv6.Fs
