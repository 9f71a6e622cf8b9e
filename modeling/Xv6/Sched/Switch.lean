import Xv6.Sched.Scheduler

/-! `swtch`, step by step: the schedulers of any number of CPUs and the kernel
threads of the processes, with every `acquire` and `release` of a `p->lock`, each
write of `p->state` and `c->proc`, and both halves of every `swtch` a step of its
own. A lock belongs to a CPU; a thread takes it on one side of a `swtch` and
another releases it on the other. -/
namespace Xv6.Sched.Switch

open Lib

inductive Resume where
  | forkret
  /-- After `sched()` in `yield`. -/
  | yield
  | sleep
  /-- After `sched()` in `kexit`: `panic("zombie exit")`. -/
  | exit
  deriving DecidableEq

/-- What a critical section on a `p->lock` does, scheduler and `sched` apart. -/
inductive Op where
  | wakeup (chan : Nat)
  | kkill (pid : Int)
  | setPriority (pid priority : Int)
  /-- An iteration of `allocproc` and, if the slot is free, the rest of `kfork` up to
  its `release`; `ok` is whether all allocations succeed. -/
  | alloc (ok : Bool)
  /-- `np->state = RUNNABLE` at the end of `kfork`. -/
  | forkDone
  | reap
  deriving DecidableEq

inductive Spot where
  /-- About to acquire slot `i` in the first pass of `scheduler()`. -/
  | firstPass (i : Nat) (highest : Int)
  | secondPass (i : Nat) (highest : Int)
  /-- In the kernel thread, or the user code, of this process. -/
  | body (p : Slot)
  deriving DecidableEq

inductive Point where
  | idle (spot : Spot)
  | firstTest (i : Slot) (highest : Int)
  | firstRelease (i : Slot) (highest : Int)
  | secondTest (i : Slot) (highest : Int)
  /-- `p->state = RUNNING; p->runs++` -/
  | setState (i : Slot) (highest : Int)
  /-- `c->proc = p` -/
  | setProc (i : Slot) (highest : Int)
  /-- `swtch(&c->context, &p->context)`: the first store. -/
  | save (i : Slot) (highest : Int)
  /-- The last store. -/
  | saved (i : Slot) (highest : Int)
  /-- The loads. -/
  | load (i : Slot)
  /-- `c->proc = 0` -/
  | clearProc (i : Slot) (highest : Int)
  | secondRelease (i : Slot) (highest : Int)
  /-- Back from `sched()`, or in `forkret`: `release(&p->lock)`. -/
  | tail (p : Slot) (resume : Resume)
  | yieldAcquire (p : Slot)
  /-- `p->state = RUNNABLE` -/
  | yieldSet (p : Slot)
  | sleepAcquire (p : Slot) (chan : Nat)
  /-- `p->chan = chan; p->state = SLEEPING` -/
  | sleepSet (p : Slot) (chan : Nat)
  | exitAcquire (p : Slot) (status : Int)
  /-- `p->xstate = status; p->state = ZOMBIE` -/
  | exitSet (p : Slot) (status : Int)
  /-- `sched()`: its checks, and the first store of `swtch(&p->context, &c->context)`. -/
  | sched (p : Slot) (resume : Resume)
  /-- The last store. -/
  | saving (p : Slot) (resume : Resume)
  /-- The loads. -/
  | leave (p : Slot)
  | opAcquire (op : Op) (q : Slot) (back : Spot)
  | opAct (op : Op) (q : Slot) (back : Spot)
  | opRelease (q : Slot) (back : Spot)
  deriving DecidableEq

/-- A context is `none` while it is being stored. `child p` is the slot that a
`kfork` of `p` is preparing. -/
structure State (C : Type) where
  proc : Slot → Proc
  lock : Slot → Option C
  context : Slot → Option Resume
  child : Slot → Option Slot
  nextpid : Int
  cproc : C → Option Slot
  ccontext : C → Option (Slot × Int)
  point : C → Point

inductive Action (C : Type) where
  | step (c : C)
  | yield (c : C)
  | sleep (c : C) (chan : Nat)
  | exit (c : C) (status : Int)
  /-- The process on the CPU, or an interrupt, enters a critical section. -/
  | call (c : C) (op : Op) (q : Slot)

inductive Fault where
  /-- A context is loaded that is not completely stored. -/
  | torn
  | zombieExit
  /-- `myproc()` is not the process whose thread asks. -/
  | myproc
  | acquire
  | release
  | schedLock
  | schedRunning
  | initExiting
  deriving DecidableEq

variable {C : Type} [DecidableEq C]

namespace State

def goto (s : State C) (c : C) (point : Point) : State C :=
  { s with point := Function.update s.point c point }

def put (s : State C) (q : Slot) (p : Proc) : State C :=
  { s with proc := Function.update s.proc q p }

def setLock (s : State C) (q : Slot) (holder : Option C) : State C :=
  { s with lock := Function.update s.lock q holder }

def setContext (s : State C) (p : Slot) (context : Option Resume) : State C :=
  { s with context := Function.update s.context p context }

def setCproc (s : State C) (c : C) (p : Option Slot) : State C :=
  { s with cproc := Function.update s.cproc c p }

def setCcontext (s : State C) (c : C) (context : Option (Slot × Int)) : State C :=
  { s with ccontext := Function.update s.ccontext c context }

end State

def acquire (s : State C) (c : C) (q : Slot) (next : Point) : Option (Except Fault (State C)) :=
  match s.lock q with
  | none => some (.ok ((s.setLock q (some c)).goto c next))
  | some c' => if c' = c then some (.error .acquire) else none

def release (s : State C) (c : C) (q : Slot) (next : Point) : Except Fault (State C) :=
  if s.lock q = some c then .ok ((s.setLock q none).goto c next) else .error .release

def Op.apply (op : Op) (pid : Int) (p : Proc) : Proc :=
  match op with
  | .wakeup chan => p.wakeup chan
  | .kkill pid => p.kill pid
  | .setPriority pid priority => p.setPriority pid priority
  | .alloc ok =>
      if p.state = .unused then if ok then p.found pid else freeproc (p.found pid) else p
  | .forkDone => { p with state := .runnable }
  | .reap => if p.state = .zombie then freeproc p else p

def Op.child (op : Op) (q : Slot) (p : Proc) (back : Spot) (child : Slot → Option Slot) :
    Slot → Option Slot :=
  match op, back with
  | .alloc true, .body me => if p.state = .unused then Function.update child me (some q) else child
  | .forkDone, .body me => Function.update child me none
  | _, _ => child

/-- The body of a critical section, entered from `back`. -/
def runOp (s : State C) (op : Op) (q : Slot) (back : Spot) : State C :=
  let p := s.proc q
  { s with
    proc := Function.update s.proc q (op.apply s.nextpid p)
    nextpid := if (op = .alloc true ∨ op = .alloc false) ∧ p.state = .unused then s.nextpid + 1
      else s.nextpid
    context := if op = .alloc true ∧ p.state = .unused then
      Function.update s.context q (some .forkret) else s.context
    child := op.child q p back s.child }

def step (s : State C) (c : C) : Option (Except Fault (State C)) :=
  match s.point c with
  | .idle (.firstPass i highest) =>
      if h : i < nproc then acquire s c ⟨i, h⟩ (.firstTest ⟨i, h⟩ highest)
      else some (.ok (s.goto c (.idle (.secondPass 0 highest))))
  | .firstTest i highest =>
      let p := s.proc i
      some (.ok (s.goto c (.firstRelease i
        (if p.state = .runnable ∧ p.priority < highest then p.priority else highest))))
  | .firstRelease i highest => some (release s c i (.idle (.firstPass (i + 1) highest)))
  | .idle (.secondPass i highest) =>
      if h : i < nproc then acquire s c ⟨i, h⟩ (.secondTest ⟨i, h⟩ highest)
      else some (.ok (s.goto c (.idle (.firstPass 0 noPriority))))
  | .secondTest i highest =>
      let p := s.proc i
      some (.ok (s.goto c (if p.state = .runnable ∧ p.priority = highest then .setState i highest
        else .secondRelease i highest)))
  | .setState i highest =>
      let p := s.proc i
      some (.ok ((s.put i { p with state := .running, runs := (p.runs + 1) % 2 ^ 64 }).goto c
        (.setProc i highest)))
  | .setProc i highest => some (.ok ((s.setCproc c (some i)).goto c (.save i highest)))
  | .save i highest => some (.ok ((s.setCcontext c none).goto c (.saved i highest)))
  | .saved i highest => some (.ok ((s.setCcontext c (some (i, highest))).goto c (.load i)))
  | .load i =>
      match s.context i with
      | none => some (.error .torn)
      | some .exit => some (.error .zombieExit)
      | some resume => some (.ok (s.goto c (.tail i resume)))
  | .clearProc i highest => some (.ok ((s.setCproc c none).goto c (.secondRelease i highest)))
  | .secondRelease i highest => some (release s c i (.idle (.secondPass (i + 1) highest)))
  | .tail p resume =>
      let t := if resume = .sleep then s.put p { s.proc p with chan := 0 } else s
      some (release t c p (.idle (.body p)))
  | .yieldAcquire p => acquire s c p (.yieldSet p)
  | .yieldSet p =>
      some (.ok ((s.put p { s.proc p with state := .runnable }).goto c (.sched p .yield)))
  | .sleepAcquire p chan => acquire s c p (.sleepSet p chan)
  | .sleepSet p chan =>
      some (.ok ((s.put p { s.proc p with chan := chan, state := .sleeping }).goto c
        (.sched p .sleep)))
  | .exitAcquire p status => acquire s c p (.exitSet p status)
  | .exitSet p status =>
      some (.ok ((s.put p { s.proc p with xstate := status, state := .zombie }).goto c
        (.sched p .exit)))
  | .sched p resume =>
      if s.lock p ≠ some c then some (.error .schedLock)
      else if (s.proc p).state = .running then some (.error .schedRunning)
      else some (.ok ((s.setContext p none).goto c (.saving p resume)))
  | .saving p resume => some (.ok ((s.setContext p (some resume)).goto c (.leave p)))
  | .leave _ =>
      match s.ccontext c with
      | none => some (.error .torn)
      | some (i, highest) => some (.ok (s.goto c (.clearProc i highest)))
  | .opAcquire op q back => acquire s c q (.opAct op q back)
  | .opAct op q back => some (.ok ((runOp s op q back).goto c (.opRelease q back)))
  | .opRelease q back => some (release s c q (.idle back))
  | .idle (.body _) => none

/-- `p = myproc()` at the head of a function called by the thread of `p`. -/
def withMyproc (s : State C) (c : C) (p : Slot) (next : Point) : Except Fault (State C) :=
  if s.cproc c = some p then .ok (s.goto c next) else .error .myproc

/-- Who may enter which section from where. Interrupts wake processes; `wakeup`
passes over `myproc()`; inside `kfork` only its end is left. -/
def Op.allowed (s : State C) (c : C) (op : Op) (q : Slot) : Spot → Bool
  | .body p =>
      match op with
      | .wakeup _ => s.cproc c ≠ some q
      | .forkDone => s.child p = some q
      | _ => s.child p = none
  | .firstPass _ _ | .secondPass _ _ =>
      match op with
      | .wakeup _ => s.cproc c ≠ some q
      | _ => false

def act (s : State C) : Action C → Option (Except Fault (State C))
  | .step c => step s c
  | .yield c =>
      match s.point c with
      | .idle (.body p) => some (withMyproc s c p (.yieldAcquire p))
      | _ => none
  | .sleep c chan =>
      match s.point c with
      | .idle (.body p) =>
          if s.child p = none then some (withMyproc s c p (.sleepAcquire p chan)) else none
      | _ => none
  | .exit c status =>
      match s.point c with
      | .idle (.body p) =>
          if s.child p = none then
            if p = initproc then some (.error .initExiting)
            else some (withMyproc s c p (.exitAcquire p status))
          else none
      | _ => none
  | .call c op q =>
      match s.point c with
      | .idle back =>
          if op.allowed s c q back then some (.ok (s.goto c (.opAcquire op q back))) else none
      | _ => none

def exec (s : State C) (a : Action C) : Except Fault (State C) := (act s a).getD (.ok s)

omit [DecidableEq C] in
def initial : State C where
  proc q := if q = initproc then { Proc.empty.found 1 with state := .runnable } else Proc.empty
  lock _ := none
  context q := if q = initproc then some .forkret else none
  child _ := none
  nextpid := 2
  cproc _ := none
  ccontext _ := none
  point _ := .idle (.firstPass 0 noPriority)

def system (C : Type) [DecidableEq C] : System (State C) Fault (Action C) where
  init s := s = initial
  enabled s a := (act s a).isSome = true
  exec := exec

instance (s : State C) (a : Action C) : Decidable ((system C).enabled s a) :=
  inferInstanceAs (Decidable (_ = true))

section Moves

inductive Hop (s : State C) (c : C) : Point → Point → Prop where
  | firstDone {i : Nat} {highest : Int} :
      Hop s c (.idle (.firstPass i highest)) (.idle (.secondPass 0 highest))
  | secondDone {i : Nat} {highest : Int} :
      Hop s c (.idle (.secondPass i highest)) (.idle (.firstPass 0 noPriority))
  | firstTest {i : Slot} {highest highest' : Int} :
      Hop s c (.firstTest i highest) (.firstRelease i highest')
  | found {i : Slot} {highest : Int} : (s.proc i).state = .runnable →
      Hop s c (.secondTest i highest) (.setState i highest)
  | skip {i : Slot} {highest : Int} : Hop s c (.secondTest i highest) (.secondRelease i highest)
  | load {i : Slot} {resume : Resume} : Hop s c (.load i) (.tail i resume)
  | leave {p : Slot} {highest : Int} : Hop s c (.leave p) (.clearProc p highest)
  | yield {p : Slot} : Hop s c (.idle (.body p)) (.yieldAcquire p)
  | sleep {p : Slot} {chan : Nat} : Hop s c (.idle (.body p)) (.sleepAcquire p chan)
  | exit {p : Slot} {status : Int} : Hop s c (.idle (.body p)) (.exitAcquire p status)
  | call {op : Op} {q : Slot} {back : Spot} : op.allowed s c q back = true →
      Hop s c (.idle back) (.opAcquire op q back)

inductive Take : Slot → Point → Point → Prop where
  | first {i : Slot} {highest : Int} :
      Take i (.idle (.firstPass i highest)) (.firstTest i highest)
  | second {i : Slot} {highest : Int} :
      Take i (.idle (.secondPass i highest)) (.secondTest i highest)
  | yield {p : Slot} : Take p (.yieldAcquire p) (.yieldSet p)
  | sleep {p : Slot} {chan : Nat} : Take p (.sleepAcquire p chan) (.sleepSet p chan)
  | exit {p : Slot} {status : Int} : Take p (.exitAcquire p status) (.exitSet p status)
  | op {op : Op} {q : Slot} {back : Spot} : Take q (.opAcquire op q back) (.opAct op q back)

inductive Drop : Slot → Point → Point → Prop where
  | first {i : Slot} {highest : Int} :
      Drop i (.firstRelease i highest) (.idle (.firstPass (i + 1) highest))
  | second {i : Slot} {highest : Int} :
      Drop i (.secondRelease i highest) (.idle (.secondPass (i + 1) highest))
  | tail {p : Slot} {resume : Resume} : Drop p (.tail p resume) (.idle (.body p))
  | op {q : Slot} {back : Spot} : Drop q (.opRelease q back) (.idle back)

inductive Quit (p : Slot) : Point → ProcState → Resume → Prop where
  | yield : Quit p (.yieldSet p) .runnable .yield
  | sleep {chan : Nat} : Quit p (.sleepSet p chan) .sleeping .sleep
  | exit {status : Int} : Quit p (.exitSet p status) .zombie .exit

/-- Everything a step can be, when nothing is wrong. -/
inductive Move (s : State C) (c : C) : State C → Prop where
  | hop {next : Point} : Hop s c (s.point c) next → Move s c (s.goto c next)
  | take {q : Slot} {next : Point} : s.lock q = none → Take q (s.point c) next →
      Move s c ((s.setLock q (some c)).goto c next)
  | drop {q : Slot} {next : Point} {p : Proc} : s.lock q = some c →
      Drop q (s.point c) next → p.state = (s.proc q).state →
      Move s c (((s.put q p).setLock q none).goto c next)
  | setState {i : Slot} {highest : Int} {p : Proc} : s.point c = .setState i highest →
      p.state = .running → Move s c ((s.put i p).goto c (.setProc i highest))
  | setProc {i : Slot} {highest : Int} : s.point c = .setProc i highest →
      Move s c ((s.setCproc c (some i)).goto c (.save i highest))
  | save {i : Slot} {highest : Int} : s.point c = .save i highest →
      Move s c ((s.setCcontext c none).goto c (.saved i highest))
  | saved {i : Slot} {highest : Int} : s.point c = .saved i highest →
      Move s c ((s.setCcontext c (some (i, highest))).goto c (.load i))
  | clearProc {i : Slot} {highest : Int} : s.point c = .clearProc i highest →
      Move s c ((s.setCproc c none).goto c (.secondRelease i highest))
  | quit {p : Slot} {proc' : Proc} {state : ProcState} {resume : Resume} :
      Quit p (s.point c) state resume → proc'.state = state →
      Move s c ((s.put p proc').goto c (.sched p resume))
  | sched {p : Slot} {resume : Resume} : s.point c = .sched p resume →
      Move s c ((s.setContext p none).goto c (.saving p resume))
  | saving {p : Slot} {resume : Resume} : s.point c = .saving p resume →
      Move s c ((s.setContext p (some resume)).goto c (.leave p))
  | op {op : Op} {q : Slot} {back : Spot} : s.point c = .opAct op q back →
      Move s c ((runOp s op q back).goto c (.opRelease q back))

end Moves

end Xv6.Sched.Switch
