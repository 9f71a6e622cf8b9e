import Mathlib.Data.Fintype.Basic
import Mathlib.Algebra.Order.Ring.Int
import Mathlib.Tactic.Common

/-! The process table. Each function is what one critical section of `proc.c`
does to the slot whose `p->lock` it holds. -/
namespace Xv6.Sched

def nproc : Nat := 64

abbrev Slot := Fin nproc

instance : NeZero nproc := ⟨by decide⟩

instance oneHart : NeZero 1 := ⟨by decide⟩

inductive ProcState where
  | unused
  | used
  | sleeping
  | runnable
  | running
  | zombie
  deriving DecidableEq

/-- The fields of `struct proc` that scheduling, waiting and signalling read.
`chan` is an address, 0 when the process waits for nothing. -/
structure Proc where
  state : ProcState
  chan : Nat
  killed : Bool
  xstate : Int
  pid : Int
  parent : Option Slot
  priority : Int
  runs : Nat
  deriving DecidableEq

def Proc.empty : Proc := ⟨.unused, 0, false, 0, 0, none, 0, 0⟩

def Proc.found (p : Proc) (pid : Int) : Proc :=
  { p with pid := pid, priority := 10, runs := 0, state := .used }

def freeproc (p : Proc) : Proc :=
  { p with pid := 0, parent := none, chan := 0, killed := false, xstate := 0, state := .unused }

/-- The scheduler's switch to a process, up to the process's own `release`:
a process that was asleep clears `chan` on its way. -/
def Proc.dispatch (p : Proc) : Proc :=
  { p with state := .running, runs := (p.runs + 1) % 2 ^ 64, chan := 0 }

def Proc.wakeup (p : Proc) (chan : Nat) : Proc :=
  if p.state = .sleeping ∧ p.chan = chan then { p with state := .runnable } else p

def Proc.kill (p : Proc) (pid : Int) : Proc :=
  if p.pid = pid then
    { p with killed := true, state := if p.state = .sleeping then .runnable else p.state }
  else p

/-- One iteration of `set_priority`, whose argument has passed its check. -/
def Proc.setPriority (p : Proc) (pid priority : Int) : Proc :=
  if p.pid = pid then { p with priority := priority } else p

def validPriority (priority : Int) : Prop := ¬(priority < 0 ∨ priority > 19)

instance (value : Int) : Decidable (validPriority value) := inferInstanceAs (Decidable (¬_))

end Xv6.Sched
