import Xv6.Sched.Table
import Xv6.Lib.System

/-! The life of processes: `allocproc`, `kfork`, `kexit` and `kwait` of any number
of processes, interleaved at the acquisitions and releases of `wait_lock`,
`pid_lock` and every `p->lock`, among schedulers, sleepers, wakers and killers. -/
namespace Xv6.Life

open Lib
open Sched (Slot ProcState nproc)

def nofile : Nat := 16

inductive Chan where
  | none
  | proc (q : Slot)
  | other (n : Nat)
  deriving DecidableEq

/-- `struct proc` as far as these functions use it; pointers are 0 when null.
`serial` numbers the processes that ever were, and `origin` is the serial number
of the one that forked this one; no code reads the two. -/
structure Proc where
  state : ProcState
  chan : Chan
  killed : Bool
  xstate : Int
  pid : Int
  parent : Option Slot
  sz : Nat
  pagetable : Nat
  trapframe : Nat
  ofile : Fin nofile → Nat
  cwd : Nat
  serial : Nat
  origin : Nat

def Proc.empty : Proc := ⟨.unused, .none, false, 0, 0, none, 0, 0, 0, fun _ => 0, 0, 0, 0⟩

def freeproc (p : Proc) : Proc :=
  { p with
    trapframe := 0, pagetable := 0, sz := 0, pid := 0, parent := none, chan := .none,
    killed := false, xstate := 0, state := .unused }

def Proc.dupFiles (p np : Proc) : Proc :=
  { np with ofile := fun fd => if p.ofile fd ≠ 0 then p.ofile fd else np.ofile fd, cwd := p.cwd }

def Proc.wakeup (p : Proc) (chan : Chan) : Proc :=
  if p.state = .sleeping ∧ p.chan = chan then { p with state := .runnable } else p

def Proc.kill (p : Proc) (pid : Int) : Proc :=
  if p.pid = pid then
    { p with killed := true, state := if p.state = .sleeping then .runnable else p.state }
  else p

def succPid (pid : Int) : Int := if pid + 1 < 2 ^ 31 then pid + 1 else pid + 1 - 2 ^ 32

inductive Pc where
  /-- No thread: a free slot, one in preparation, or a zombie. -/
  | dead
  /-- In user space or another system call; `ret` is what the last call returned. -/
  | user (ret : Int)
  /-- `allocproc`: `acquire` of slot `i` is next. -/
  | forkScan (i : Nat)
  /-- `allocpid` is next. The lock of `q` is held from here to `forkRelease`. -/
  | forkFound (q : Slot)
  /-- `p->state = USED` is next. -/
  | forkUsed (q : Slot)
  | forkTrapframe (q : Slot)
  | forkPagetable (q : Slot)
  /-- `uvmcopy` is next. -/
  | forkCopy (q : Slot)
  | forkFiles (q : Slot)
  | forkRelease (q : Slot)
  /-- `acquire(&wait_lock)` is next. -/
  | forkWait (q : Slot)
  /-- `np->parent = p` is next. -/
  | forkParent (q : Slot)
  /-- `np->state = RUNNABLE` is next. -/
  | forkReady (q : Slot)
  /-- `kexit`: descriptor `fd` is next. -/
  | exitFiles (status : Int) (fd : Nat)
  /-- `acquire(&wait_lock)` is next. -/
  | exitWait (status : Int)
  /-- `reparent`, at slot `i`. -/
  | reparent (status : Int) (i : Nat)
  /-- `wakeup(initproc)` at slot `j`, for the child in slot `i`. -/
  | wakeInit (status : Int) (i j : Nat)
  /-- `wakeup(p->parent)` at slot `j`. -/
  | wakeParent (status : Int) (chan : Chan) (j : Nat)
  /-- `acquire(&p->lock)` is next. -/
  | exitLock (status : Int)
  /-- ZOMBIE; `release(&wait_lock)` is next. -/
  | exitRelease
  /-- `sched()` is next. -/
  | exitSched
  /-- `kwait`: `acquire(&wait_lock)` is next. -/
  | waitAcquire
  | waitScan (i : Nat) (havekids : Bool)
  /-- The scan holds the lock of zombie `q`; `copyout` is next. -/
  | waitFound (q : Slot)
  /-- `release(&wait_lock)` is next. -/
  | waitReturn (ret : Int)
  /-- `killed(p)` is next. -/
  | waitKilled
  /-- `sleep`: `acquire(&p->lock)` is next. -/
  | waitSleep
  /-- `release(&wait_lock)` is next. -/
  | waitRelease
  /-- `p->state = SLEEPING` and `sched()` are next. -/
  | waitMark
  /-- Off the CPU. -/
  | waitOff
  /-- Back from `sched()`; `p->chan = 0` and `release(&p->lock)` are next. -/
  | waitTidy
  deriving DecidableEq

structure Exit where
  serial : Nat
  pid : Int
  status : Int
  deriving DecidableEq

/-- A call of `kwait` in slot `waiter` has freed a process; `owner` is the parent it
had then, and `caller` the serial number of the process that waited. -/
structure Reap where
  serial : Nat
  ret : Int
  status : Int
  waiter : Slot
  owner : Option Slot
  caller : Nat
  origin : Nat
  deriving DecidableEq

/-- `given`, `exits` and `reaps` are records of the past. -/
structure State where
  proc : Slot → Proc
  pc : Slot → Pc
  plock : Slot → Option Slot
  waitLock : Option Slot
  nextpid : Int
  given : List Int
  nextSerial : Nat
  exits : List Exit
  reaps : List Reap

/-- What a step leaves open: the page that `kalloc` or `proc_pagetable` gives (0 for
none), and whether `uvmcopy` or `copyout` succeeds. -/
structure Choice where
  page : Nat
  ok : Bool

inductive Action where
  | fork (p : Slot)
  | exit (p : Slot) (status : Int)
  | wait (p : Slot)
  | step (p : Slot) (x : Choice)
  | dispatch (p : Slot)
  | yield (p : Slot)
  /-- `sleep` elsewhere in the kernel. -/
  | sleep (p : Slot) (n : Nat)
  /-- An iteration of a `wakeup` elsewhere in the kernel. -/
  | wakeup (q : Slot) (n : Nat)
  | kkill (q : Slot) (pid : Int)
  /-- Other system calls of a process change its memory, files or directory. -/
  | use (p : Slot) (sz pagetable cwd : Nat) (ofile : Fin nofile → Nat)

inductive Panic where
  | initExiting
  deriving DecidableEq

def initproc : Slot := 0

namespace State

def setProc (s : State) (q : Slot) (p : Proc) : State :=
  { s with proc := Function.update s.proc q p }

def setPc (s : State) (p : Slot) (pc : Pc) : State :=
  { s with pc := Function.update s.pc p pc }

def lock (s : State) (p q : Slot) : State :=
  { s with plock := Function.update s.plock q (some p) }

def unlock (s : State) (q : Slot) : State :=
  { s with plock := Function.update s.plock q none }

def recordExit (s : State) (p : Slot) (status : Int) : State :=
  { s with exits := s.exits ++ [⟨(s.proc p).serial, (s.proc p).pid, status⟩] }

def recordReap (s : State) (p q : Slot) : State :=
  { s with
    reaps := s.reaps ++ [⟨(s.proc q).serial, (s.proc q).pid, (s.proc q).xstate, p,
      (s.proc q).parent, (s.proc p).serial, (s.proc q).origin⟩] }

/-- `freeproc(np)` and `release(&np->lock)` on a failure of `kfork`. -/
def forkFail (s : State) (p q : Slot) : State :=
  ((s.setProc q (freeproc (s.proc q))).unlock q).setPc p (.user (-1))

end State

def Pc.preemptible : Pc → Bool
  | .user _ | .forkScan _ | .forkWait _ | .forkReady _ | .exitFiles _ _ | .exitWait _
  | .waitAcquire => true
  | _ => false

def Pc.sleepy : Pc → Bool
  | .user _ | .exitFiles _ _ => true
  | _ => false

def slot? (i : Nat) : Option Slot := if h : i < nproc then some ⟨i, h⟩ else none

def chanOf : Option Slot → Chan
  | some q => .proc q
  | none => .none

def wakeStep (s : State) (p j : Slot) (chan : Chan) : Option State :=
  if j = p then some s
  else if s.plock j = none then some (s.setProc j ((s.proc j).wakeup chan)) else none

def forkStep (s : State) (p : Slot) (x : Choice) : Pc → Option State
  | .forkScan i =>
      match slot? i with
      | some q =>
          if s.plock q = none then
            if (s.proc q).state = .unused then some ((s.lock p q).setPc p (.forkFound q))
            else some (s.setPc p (.forkScan (i + 1)))
          else none
      | none => some (s.setPc p (.user (-1)))
  | .forkFound q =>
      some ({ s.setProc q { s.proc q with pid := s.nextpid } with
        nextpid := succPid s.nextpid, given := s.given ++ [s.nextpid] }.setPc p (.forkUsed q))
  | .forkUsed q =>
      some ({ s.setProc q { s.proc q with state := .used, serial := s.nextSerial } with
        nextSerial := s.nextSerial + 1 }.setPc p (.forkTrapframe q))
  | .forkTrapframe q =>
      if x.page = 0 then some (s.forkFail p q)
      else some ((s.setProc q { s.proc q with trapframe := x.page }).setPc p (.forkPagetable q))
  | .forkPagetable q =>
      if x.page = 0 then some (s.forkFail p q)
      else some ((s.setProc q { s.proc q with pagetable := x.page }).setPc p (.forkCopy q))
  | .forkCopy q =>
      if x.ok = true then
        some ((s.setProc q { s.proc q with sz := (s.proc p).sz }).setPc p (.forkFiles q))
      else some (s.forkFail p q)
  | .forkFiles q =>
      some ((s.setProc q ((s.proc p).dupFiles (s.proc q))).setPc p (.forkRelease q))
  | .forkRelease q => some ((s.unlock q).setPc p (.forkWait q))
  | .forkWait q =>
      if s.waitLock = none then some ({ s with waitLock := some p }.setPc p (.forkParent q))
      else none
  | .forkParent q =>
      some ({ s.setProc q { s.proc q with parent := some p, origin := (s.proc p).serial } with
        waitLock := none }.setPc p (.forkReady q))
  | .forkReady q =>
      if s.plock q = none then
        some (((s.setProc q { s.proc q with state := .runnable }).setPc q (.user 0)).setPc p
          (.user (s.proc q).pid))
      else none
  | _ => none

def exitStep (s : State) (p : Slot) : Pc → Option State
  | .exitFiles status fd =>
      if h : fd < nofile then
        some ((s.setProc p { s.proc p with ofile := Function.update (s.proc p).ofile ⟨fd, h⟩ 0
          }).setPc p (.exitFiles status (fd + 1)))
      else some ((s.setProc p { s.proc p with cwd := 0 }).setPc p (.exitWait status))
  | .exitWait status =>
      if s.waitLock = none then some ({ s with waitLock := some p }.setPc p (.reparent status 0))
      else none
  | .reparent status i =>
      match slot? i with
      | some q =>
          if (s.proc q).parent = some p then
            some ((s.setProc q { s.proc q with parent := some initproc }).setPc p
              (.wakeInit status i 0))
          else some (s.setPc p (.reparent status (i + 1)))
      | none => some (s.setPc p (.wakeParent status (chanOf (s.proc p).parent) 0))
  | .wakeInit status i j =>
      match slot? j with
      | some q => (wakeStep s p q (.proc initproc)).map (·.setPc p (.wakeInit status i (j + 1)))
      | none => some (s.setPc p (.reparent status (i + 1)))
  | .wakeParent status chan j =>
      match slot? j with
      | some q => (wakeStep s p q chan).map (·.setPc p (.wakeParent status chan (j + 1)))
      | none => some (s.setPc p (.exitLock status))
  | .exitLock status =>
      if s.plock p = none then
        some ((((s.recordExit p status).setProc p { s.proc p with
          xstate := status, state := .zombie }).lock p p).setPc p .exitRelease)
      else none
  | .exitRelease => some ({ s with waitLock := none }.setPc p .exitSched)
  | .exitSched => some ((s.unlock p).setPc p .dead)
  | _ => none

def waitStep (s : State) (p : Slot) (x : Choice) : Pc → Option State
  | .waitAcquire =>
      if s.waitLock = none then some ({ s with waitLock := some p }.setPc p (.waitScan 0 false))
      else none
  | .waitScan i havekids =>
      match slot? i with
      | some q =>
          if (s.proc q).parent = some p then
            if s.plock q = none then
              if (s.proc q).state = .zombie then some ((s.lock p q).setPc p (.waitFound q))
              else some (s.setPc p (.waitScan (i + 1) true))
            else none
          else some (s.setPc p (.waitScan (i + 1) havekids))
      | none => some (s.setPc p (if havekids then .waitKilled else .waitReturn (-1)))
  | .waitFound q =>
      if x.ok = true then
        some ((((s.recordReap p q).setProc q (freeproc (s.proc q))).unlock q).setPc p
          (.waitReturn (s.proc q).pid))
      else some ((s.unlock q).setPc p (.waitReturn (-1)))
  | .waitReturn ret => some ({ s with waitLock := none }.setPc p (.user ret))
  | .waitKilled =>
      if s.plock p = none then
        some (s.setPc p (if (s.proc p).killed then .waitReturn (-1) else .waitSleep))
      else none
  | .waitSleep =>
      if s.plock p = none then some ((s.lock p p).setPc p .waitRelease) else none
  | .waitRelease => some ({ s with waitLock := none }.setPc p .waitMark)
  | .waitMark =>
      some (((s.setProc p { s.proc p with chan := .proc p, state := .sleeping }).unlock p).setPc p
        .waitOff)
  | .waitTidy =>
      some (((s.setProc p { s.proc p with chan := .none }).unlock p).setPc p .waitAcquire)
  | _ => none

/-- The thread of the slot can take its next step. Past ZOMBIE it still has its CPU. -/
def Runs (s : State) (p : Slot) : Prop :=
  (s.proc p).state = .running ∨ s.pc p = .exitRelease ∨ s.pc p = .exitSched

instance (s : State) (p : Slot) : Decidable (Runs s p) := inferInstanceAs (Decidable (_ ∨ _))

def act (s : State) : Action → Option State
  | .fork p =>
      match s.pc p with
      | .user _ =>
          if (s.proc p).state = .running then some (s.setPc p (.forkScan 0)) else none
      | _ => none
  | .exit p status =>
      match s.pc p with
      | .user _ =>
          if (s.proc p).state = .running then some (s.setPc p (.exitFiles status 0)) else none
      | _ => none
  | .wait p =>
      match s.pc p with
      | .user _ => if (s.proc p).state = .running then some (s.setPc p .waitAcquire) else none
      | _ => none
  | .step p x =>
      if Runs s p then
        (forkStep s p x (s.pc p)).or ((exitStep s p (s.pc p)).or (waitStep s p x (s.pc p)))
      else none
  | .dispatch p =>
      if (s.proc p).state = .runnable ∧ s.plock p = none then
        if s.pc p = .waitOff then
          some (((s.setProc p { s.proc p with state := .running }).lock p p).setPc p .waitTidy)
        else some (s.setProc p { s.proc p with state := .running, chan := .none })
      else none
  | .yield p =>
      if (s.proc p).state = .running ∧ s.plock p = none ∧ (s.pc p).preemptible = true then
        some (s.setProc p { s.proc p with state := .runnable })
      else none
  | .sleep p n =>
      if (s.proc p).state = .running ∧ s.plock p = none ∧ (s.pc p).sleepy = true then
        some (s.setProc p { s.proc p with state := .sleeping, chan := .other n })
      else none
  | .wakeup q n =>
      if s.plock q = none then some (s.setProc q ((s.proc q).wakeup (.other n))) else none
  | .kkill q pid =>
      if s.plock q = none then some (s.setProc q ((s.proc q).kill pid)) else none
  | .use p sz pagetable cwd ofile =>
      match s.pc p with
      | .user _ =>
          if (s.proc p).state = .running then
            some (s.setProc p { s.proc p with
              sz := sz, pagetable := pagetable, cwd := cwd, ofile := ofile })
          else none
      | _ => none

def exec (s : State) (a : Action) : Except Panic State :=
  match a with
  | .exit p _ => if p = initproc then .error .initExiting else .ok ((act s a).getD s)
  | _ => .ok ((act s a).getD s)

structure Start (s : State) : Prop where
  init : (s.proc initproc).state = .runnable ∧ (s.proc initproc).pid = 1 ∧
    (s.proc initproc).parent = none ∧ (s.proc initproc).serial = 0
  free : ∀ q, q ≠ initproc → s.proc q = Proc.empty
  pc : ∀ q, s.pc q = if q = initproc then .user 0 else .dead
  plock : ∀ q, s.plock q = none
  waitLock : s.waitLock = none
  nextpid : s.nextpid = 2
  given : s.given = [1]
  nextSerial : s.nextSerial = 1
  exits : s.exits = []
  reaps : s.reaps = []

def boot : State where
  proc q := if q = initproc then { Proc.empty with state := .runnable, pid := 1 } else Proc.empty
  pc q := if q = initproc then .user 0 else .dead
  plock _ := none
  waitLock := none
  nextpid := 2
  given := [1]
  nextSerial := 1
  exits := []
  reaps := []

theorem boot_start : Start boot where
  init := ⟨rfl, rfl, rfl, rfl⟩
  free _ hq := if_neg hq
  pc _ := rfl
  plock _ := rfl
  waitLock := rfl
  nextpid := rfl
  given := rfl
  nextSerial := rfl
  exits := rfl
  reaps := rfl

def system : System State Panic Action where
  init := Start
  enabled s a := (act s a).isSome = true
  exec := exec

instance (s : State) (a : Action) : Decidable (system.enabled s a) :=
  inferInstanceAs (Decidable (_ = true))

end Xv6.Life
