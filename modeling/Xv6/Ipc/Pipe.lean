import Xv6.Sched.Wakeup

/-! `pipe.c`: `pipewrite`, `piperead` and `pipeclose` under `pi->lock`. -/
namespace Xv6.Ipc

open Lib Sched Sched.Monitor

def pipesize : Nat := 512

/-- `struct pipe`. `appended` and `consumed` record the bytes that went in and out;
no code reads them. -/
structure Pipe where
  data : Fin pipesize → UInt8
  nread : UInt32
  nwrite : UInt32
  readopen : Bool
  writeopen : Bool
  appended : List UInt8
  consumed : List UInt8

namespace Pipe

def index (i : UInt32) : Fin pipesize := ⟨i.toNat % pipesize, Nat.mod_lt _ (by decide)⟩

def full (d : Pipe) : Bool := d.nwrite == d.nread + UInt32.ofNat pipesize

def empty (d : Pipe) : Bool := d.nread == d.nwrite

def append (d : Pipe) (ch : UInt8) : Pipe :=
  { d with
    data := Function.update d.data (index d.nwrite) ch
    nwrite := d.nwrite + 1
    appended := d.appended ++ [ch] }

def consume (d : Pipe) (ch : UInt8) : Pipe :=
  { d with nread := d.nread + 1, consumed := d.consumed ++ [ch] }

end Pipe

/-- Where a call is. `moved` counts the bytes that this call appended or consumed,
and `fresh` says that it appended one since it last woke the readers; no code
reads the two. -/
inductive PipeLocal where
  /-- `while(i < n)` in `pipewrite` -/
  | write (n i : Int) (fresh : Bool) (moved : Nat)
  /-- The reader is there and the writer not killed. -/
  | room (n i : Int) (fresh : Bool) (moved : Nat)
  /-- `killed(pr)` was true. -/
  | giveUp (fresh : Bool) (moved : Nat)
  /-- `sleep(&pi->nwrite, &pi->lock)` -/
  | writeSleep (n i : Int) (moved : Nat)
  /-- `while(pi->nread == pi->nwrite && pi->writeopen)` in `piperead` -/
  | read (n : Int)
  | readKilled
  /-- `sleep(&pi->nread, &pi->lock)` -/
  | readSleep (n : Int)
  /-- `for(i = 0; i < n; i++)` -/
  | copy (n i : Int) (moved : Nat)
  /-- `copyout` of `ch` -/
  | copyout (n i : Int) (ch : UInt8) (moved : Nat)
  /-- `wakeup(&pi->nwrite)` -/
  | copied (i : Int) (moved : Nat)
  | close (writable : Bool)
  | closing (writable : Bool)
  /-- `release(&pi->lock)`, with this result. -/
  | returning (ret : Int) (moved : Nat)
  | returned (ret : Int) (moved : Nat)
  deriving DecidableEq

/-- The outcome of `copyin` or `copyout` of one byte; `ch` is the byte that `copyin` gives. -/
structure Copy where
  ok : Bool
  ch : UInt8

def nreadChan (pi : Nat) : Nat := pi + 536

def nwriteChan (pi : Nat) : Nat := pi + 540

/-- `pipewrite`, `piperead` and `pipeclose`, from one point to the next. -/
def pipeNext (pi : Nat) (d : Pipe) (x : Copy) : PipeLocal → Cmd Pipe PipeLocal
  | .write n i fresh moved =>
      if i < n then
        if d.readopen = false then .release (.returned (-1) moved)
        else .killed fun k => if k then .giveUp fresh moved else .room n i fresh moved
      else .wakeup (nreadChan pi) (.returning i moved)
  | .room n i _ moved =>
      if d.full = true then .wakeup (nreadChan pi) (.writeSleep n i moved)
      else if x.ok = true then .step (d.append x.ch) (.write n (i + 1) true (moved + 1))
      else .wakeup (nreadChan pi) (.returning i moved)
  | .giveUp _ moved => .release (.returned (-1) moved)
  | .writeSleep n i moved => .sleep (nwriteChan pi) (.write n i false moved)
  | .read n =>
      if d.empty = true ∧ d.writeopen = true then
        .killed fun k => if k then .readKilled else .readSleep n
      else .step d (.copy n 0 0)
  | .readKilled => .release (.returned (-1) 0)
  | .readSleep n => .sleep (nreadChan pi) (.read n)
  | .copy n i moved =>
      if i < n ∧ d.empty = false then
        .step d (.copyout n i (d.data (Pipe.index d.nread)) moved)
      else .step d (.copied i moved)
  | .copyout n i ch moved =>
      if x.ok = true then .step (d.consume ch) (.copy n (i + 1) (moved + 1))
      else .step d (.copied (if i = 0 then -1 else i) moved)
  | .copied i moved => .wakeup (nwriteChan pi) (.returning i moved)
  | .close writable =>
      if writable then .step { d with writeopen := false } (.closing true)
      else .step { d with readopen := false } (.closing false)
  | .closing writable =>
      .wakeup (if writable then nreadChan pi else nwriteChan pi) (.returning 0 0)
  | .returning ret moved | .returned ret moved => .release (.returned ret moved)

def pipe (pi : Nat) : Code Pipe PipeLocal Copy where
  start d := d.nread = 0 ∧ d.nwrite = 0 ∧ d.readopen = true ∧ d.writeopen = true ∧
    d.appended = [] ∧ d.consumed = []
  entry _ l := match l with
    | .write _ i fresh moved => i == 0 && !fresh && moved == 0
    | .read _ | .close _ => true
    | _ => false
  handler _ := false
  next l d x := pipeNext pi d x l
  own chan := chan == nreadChan pi || chan == nwriteChan pi

inductive PipeMove (pi : Nat) (d : Pipe) (x : Copy) : PipeLocal → Cmd Pipe PipeLocal → Prop where
  | noReader {n i fresh moved} : i < n → d.readopen = false →
      PipeMove pi d x (.write n i fresh moved) (.release (.returned (-1) moved))
  | testWriter {n i fresh moved} : i < n → d.readopen = true →
      PipeMove pi d x (.write n i fresh moved)
        (.killed fun k => if k then .giveUp fresh moved else .room n i fresh moved)
  | writeEnd {n i fresh moved} : n ≤ i →
      PipeMove pi d x (.write n i fresh moved) (.wakeup (nreadChan pi) (.returning i moved))
  | full {n i fresh moved} : d.full = true →
      PipeMove pi d x (.room n i fresh moved) (.wakeup (nreadChan pi) (.writeSleep n i moved))
  | append {n i fresh moved} : d.full = false → x.ok = true →
      PipeMove pi d x (.room n i fresh moved)
        (.step (d.append x.ch) (.write n (i + 1) true (moved + 1)))
  | copyinFail {n i fresh moved} : d.full = false → x.ok = false →
      PipeMove pi d x (.room n i fresh moved) (.wakeup (nreadChan pi) (.returning i moved))
  | giveUp {fresh moved} :
      PipeMove pi d x (.giveUp fresh moved) (.release (.returned (-1) moved))
  | writeSleep {n i moved} :
      PipeMove pi d x (.writeSleep n i moved) (.sleep (nwriteChan pi) (.write n i false moved))
  | testReader {n} : d.empty = true → d.writeopen = true →
      PipeMove pi d x (.read n) (.killed fun k => if k then .readKilled else .readSleep n)
  | readStart {n} : ¬(d.empty = true ∧ d.writeopen = true) →
      PipeMove pi d x (.read n) (.step d (.copy n 0 0))
  | readKilled : PipeMove pi d x .readKilled (.release (.returned (-1) 0))
  | readSleep {n} : PipeMove pi d x (.readSleep n) (.sleep (nreadChan pi) (.read n))
  | copy {n i moved} : i < n → d.empty = false →
      PipeMove pi d x (.copy n i moved)
        (.step d (.copyout n i (d.data (Pipe.index d.nread)) moved))
  | copyEnd {n i moved} : PipeMove pi d x (.copy n i moved) (.step d (.copied i moved))
  | consume {n i ch moved} : x.ok = true →
      PipeMove pi d x (.copyout n i ch moved)
        (.step (d.consume ch) (.copy n (i + 1) (moved + 1)))
  | copyoutFail {n i ch moved} : x.ok = false →
      PipeMove pi d x (.copyout n i ch moved)
        (.step d (.copied (if i = 0 then -1 else i) moved))
  | copied {i moved} :
      PipeMove pi d x (.copied i moved) (.wakeup (nwriteChan pi) (.returning i moved))
  | closeWrite :
      PipeMove pi d x (.close true) (.step { d with writeopen := false } (.closing true))
  | closeRead :
      PipeMove pi d x (.close false) (.step { d with readopen := false } (.closing false))
  | closingWrite :
      PipeMove pi d x (.closing true) (.wakeup (nreadChan pi) (.returning 0 0))
  | closingRead :
      PipeMove pi d x (.closing false) (.wakeup (nwriteChan pi) (.returning 0 0))
  | returning {ret moved} :
      PipeMove pi d x (.returning ret moved) (.release (.returned ret moved))
  | returned {ret moved} :
      PipeMove pi d x (.returned ret moved) (.release (.returned ret moved))

theorem pipe_move {pi : Nat} {d : Pipe} {x : Copy} {l : PipeLocal} {cmd : Cmd Pipe PipeLocal}
    (h : (pipe pi).next l d x = cmd) : PipeMove pi d x l cmd := by
  subst h
  show PipeMove pi d x l (pipeNext pi d x l)
  cases l with
  | write n i fresh moved =>
    simp only [pipeNext]
    split
    · split
      · exact .noReader ‹_› ‹_›
      · exact .testWriter ‹_› (by simpa using ‹¬d.readopen = false›)
    · exact .writeEnd (by omega)
  | room n i fresh moved =>
    simp only [pipeNext]
    split
    · exact .full ‹_›
    · split
      · exact .append (by simpa using ‹¬d.full = true›) ‹_›
      · exact .copyinFail (by simpa using ‹¬d.full = true›) (by simpa using ‹¬x.ok = true›)
  | giveUp fresh moved => exact .giveUp
  | writeSleep n i moved => exact .writeSleep
  | read n =>
    simp only [pipeNext]
    split
    · rename_i hwait
      exact .testReader hwait.1 hwait.2
    · exact .readStart ‹_›
  | readKilled => exact .readKilled
  | readSleep n => exact .readSleep
  | copy n i moved =>
    simp only [pipeNext]
    split
    · rename_i hcopy
      exact .copy hcopy.1 hcopy.2
    · exact .copyEnd
  | copyout n i ch moved =>
    simp only [pipeNext]
    split
    · exact .consume ‹_›
    · exact .copyoutFail (by simpa using ‹¬x.ok = true›)
  | copied i moved => exact .copied
  | close writable =>
    cases writable
    · exact .closeRead
    · exact .closeWrite
  | closing writable =>
    cases writable
    · exact .closingRead
    · exact .closingWrite
  | returning ret moved => exact .returning
  | returned ret moved => exact .returned

end Xv6.Ipc
