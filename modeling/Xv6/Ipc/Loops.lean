import Xv6.Sched.Kill

/-! Two more loops that test `killed` and sleep: `consoleread` under `cons.lock` and
`sys_pause` under `tickslock`, each with the code that wakes it. -/
namespace Xv6.Ipc

open Lib Sched Sched.Monitor

section Console

def inputBufSize : Nat := 128

structure Console where
  buf : Fin inputBufSize → UInt8
  r : UInt32
  w : UInt32
  e : UInt32

def Console.index (i : UInt32) : Fin inputBufSize :=
  ⟨i.toNat % inputBufSize, Nat.mod_lt _ (by decide)⟩

def control (letter : UInt8) : UInt8 := letter - 64

def newline : UInt8 := 10

inductive ConsoleLocal where
  /-- The loops of `consoleread`, with `n` bytes still wanted. -/
  | read (n target : UInt32)
  | readKilled
  /-- `sleep(&cons.r, &cons.lock)` -/
  | readSleep (n target : UInt32)
  /-- `c` has been taken from the buffer. -/
  | got (n target : UInt32) (c : UInt8)
  | readEnd (n target : UInt32)
  | intr (c : UInt8)
  /-- The loop of control-U. -/
  | killLine
  /-- `wakeup(&cons.r)` -/
  | intrWake
  | intrEnd
  | returned (ret : UInt32)
  deriving DecidableEq

def Console.used (d : Console) : UInt32 := d.e - d.r

def Console.store (d : Console) (c : UInt8) : Console :=
  { d with buf := Function.update d.buf (Console.index d.e) c, e := d.e + 1 }

/-- `consoleread` and `consoleintr`. `copied` says whether `either_copyout` succeeds.
A negative `n` is one that is not less than 2^31. -/
def consoleNext (chan : Nat) (d : Console) (copied : Bool) : ConsoleLocal → Cmd Console ConsoleLocal
  | .read n target =>
      if 0 < n.toNat ∧ n.toNat < 2 ^ 31 then
        if d.r = d.w then .killed fun k => if k then .readKilled else .readSleep n target
        else .step { d with r := d.r + 1 } (.got n target (d.buf (Console.index d.r)))
      else .release (.returned (target - n))
  | .readKilled => .release (.returned (-1))
  | .readSleep n target => .sleep chan (.read n target)
  | .got n target c =>
      if c = control 68 then
        if n < target then .step { d with r := d.r - 1 } (.readEnd n target)
        else .step d (.readEnd n target)
      else if copied = true then
        if c = newline then .step d (.readEnd (n - 1) target) else .step d (.read (n - 1) target)
      else .step d (.readEnd n target)
  | .readEnd n target => .release (.returned (target - n))
  | .intr c =>
      if c = control 80 then .step d .intrEnd
      else if c = control 85 then .step d .killLine
      else if c = control 72 ∨ c = 127 then
        .step (if d.e ≠ d.w then { d with e := d.e - 1 } else d) .intrEnd
      else if c ≠ 0 ∧ d.used < UInt32.ofNat inputBufSize then
        let c := if c = 13 then newline else c
        let d := d.store c
        if c = newline ∨ c = control 68 ∨ d.used = UInt32.ofNat inputBufSize then
          .step { d with w := d.e } .intrWake
        else .step d .intrEnd
      else .step d .intrEnd
  | .killLine =>
      if d.e ≠ d.w ∧ d.buf (Console.index (d.e - 1)) ≠ newline then
        .step { d with e := d.e - 1 } .killLine
      else .step d .intrEnd
  | .intrWake => .wakeup chan .intrEnd
  | .intrEnd => .release (.returned 0)
  | .returned ret => .release (.returned ret)

/-- `chan` is `&cons.r`. -/
def console (chan : Nat) : Code Console ConsoleLocal Bool where
  start d := d.r = 0 ∧ d.w = 0 ∧ d.e = 0
  entry _ l := match l with
    | .read n target => n == target
    | _ => false
  handler l := match l with
    | .intr _ => true
    | _ => false
  next l d x := consoleNext chan d x l
  own c := c == chan

end Console

section Pause

inductive PauseLocal where
  /-- `ticks0 = ticks` -/
  | begin (n : UInt32)
  /-- `while(ticks - ticks0 < n)` -/
  | loop (n ticks0 : UInt32)
  | pauseKilled
  /-- `sleep(&ticks, &tickslock)` -/
  | pauseSleep (n ticks0 : UInt32)
  | tick
  | tickWake
  | uptime
  | returning (ret : UInt32)
  | returned (ret : UInt32)
  deriving DecidableEq

/-- `sys_pause`, `clockintr` and `sys_uptime`; the data are `ticks`. -/
def pauseNext (chan : Nat) (ticks : UInt32) : PauseLocal → Cmd UInt32 PauseLocal
  | .begin n => .step ticks (.loop n ticks)
  | .loop n ticks0 =>
      if ticks - ticks0 < n then
        .killed fun k => if k then .pauseKilled else .pauseSleep n ticks0
      else .release (.returned 0)
  | .pauseKilled => .release (.returned (-1))
  | .pauseSleep n ticks0 => .sleep chan (.loop n ticks0)
  | .tick => .step (ticks + 1) .tickWake
  | .tickWake => .wakeup chan (.returning 0)
  | .uptime => .step ticks (.returning ticks)
  | .returning ret | .returned ret => .release (.returned ret)

/-- `chan` is `&ticks`. A negative argument of `sys_pause` has become 0. -/
def sysPause (chan : Nat) : Code UInt32 PauseLocal Unit where
  start ticks := ticks = 0
  entry _ l := match l with
    | .begin n => n.toNat < 2 ^ 31
    | .uptime => true
    | _ => false
  handler l := l = .tick
  next l d _ := pauseNext chan d l
  own c := c == chan

end Pause

end Xv6.Ipc
