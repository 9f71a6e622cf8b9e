import Xv6.Ipc.Loops
import Xv6.Ipc.Sleepers
import Xv6.Life.Kill

/-! Kills and the five interruptible waits. A `kkill` that falls between a loop's
test of `killed` and its `acquire(&p->lock)` in `sleep` is not seen; no other is lost. -/
namespace Xv6.Ipc

open Lib Sched Sched.Monitor

/-- `pipewrite` goes to sleep only when the pipe is full. -/
def PipeLocal.tested : PipeLocal → Pipe → Prop
  | .room _ _ _ _, d => d.full = true
  | .writeSleep _ _ _, _ | .readSleep _, _ => True
  | _, _ => False

instance (l : PipeLocal) (d : Pipe) : Decidable (l.tested d) :=
  match l with
  | .room _ _ _ _ => inferInstanceAs (Decidable (d.full = true))
  | .writeSleep _ _ _ | .readSleep _ => .isTrue trivial
  | .write _ _ _ _ | .giveUp _ _ | .read _ | .readKilled | .copy _ _ _ | .copyout _ _ _ _
  | .copied _ _ | .close _ | .closing _ | .returning _ _ | .returned _ _ => .isFalse id

def ConsoleLocal.tested : ConsoleLocal → Console → Prop
  | .readSleep _ _, _ => True
  | _, _ => False

def PauseLocal.tested : PauseLocal → UInt32 → Prop
  | .pauseSleep _ _, _ => True
  | _, _ => False

theorem pipe_tests (pi : Nat) : TestsKilled (pipe pi) PipeLocal.tested where
  entry := by
    intro p l hentry
    cases l <;> simp_all [pipe, PipeLocal.tested]
  next := by
    intro l d x
    generalize hnext : (pipe pi).next l d x = cmd
    cases pipe_move hnext with
    | full hfull => exact fun _ => hfull
    | _ => simp [Cmd.Tests, PipeLocal.tested]

theorem console_tests (chan : Nat) : TestsKilled (console chan) ConsoleLocal.tested where
  entry := by
    intro p l hentry
    cases l <;> simp_all [console, ConsoleLocal.tested]
  next := by
    intro l d x
    cases l <;> simp only [console, consoleNext]
    all_goals repeat' split
    all_goals simp [Cmd.Tests, ConsoleLocal.tested]

theorem pause_tests (chan : Nat) : TestsKilled (sysPause chan) PauseLocal.tested where
  entry := by
    intro p l hentry
    cases l with
    | pauseSleep n ticks0 => exact absurd hentry Bool.false_ne_true
    | _ => exact fun _ => id
  next := by
    intro l d x
    change (pauseNext chan d l).Tests PauseLocal.tested l d
    cases l <;> simp only [pauseNext]
    all_goals repeat' split
    all_goals simp [Cmd.Tests, PauseLocal.tested]

variable {K : Type} [DecidableEq K] [Fintype K]

/-- While no `kkill` hits a process between a `killed` that has answered no and the
`acquire(&p->lock)` of the `sleep` that follows, nobody sleeps in `pipewrite`, `piperead`,
`consoleread`, `sys_pause` or `kwait` that is killed. -/
theorem kill_not_lost (pi consChan ticksChan : Nat) :
    (∀ s : State Pipe PipeLocal K,
      (system (pipe pi) K).Reach (NoKillInWindow PipeLocal.tested) (.ok s) → NoKilledSleeper s) ∧
    (∀ s : State Console ConsoleLocal K,
      (system (console consChan) K).Reach (NoKillInWindow ConsoleLocal.tested) (.ok s) →
        NoKilledSleeper s) ∧
    (∀ s : State UInt32 PauseLocal K,
      (system (sysPause ticksChan) K).Reach (NoKillInWindow PauseLocal.tested) (.ok s) →
        NoKilledSleeper s) ∧
    (∀ s : Life.State, Life.system.Reach Life.NoKillBeforeSleep (.ok s) → Life.NoKilledWaiter s) :=
  ⟨fun _ => (pipe_tests pi).reach, fun _ => (console_tests consChan).reach,
    fun _ => (pause_tests ticksChan).reach, fun _ => .reach⟩

section Sample

/-- Slot 1 reads from an empty pipe and is killed just after its test of `killed`. -/
def lostKill : List (Action PipeLocal Copy Empty) :=
  [.enter 1 (.read 1), .acquire (.inl 1), .run (.inl 1) ⟨true, 0⟩, .kkill 1 2,
    .run (.inl 1) ⟨true, 0⟩, .sleep 1, .sleep 1, .sleep 1, .sleep 1, .sleep 1]

def observeSleeper (s : State Pipe PipeLocal Empty) : ProcState × Bool × Bool :=
  ((s.proc 1).state, (s.proc 1).killed,
    match s.pos (.inl 1) with
    | .sleeping _ _ _ => true
    | _ => false)

theorem lostKill_observed : (system (pipe 0) Empty).observed (fun _ _ => True)
    observeSleeper quietPipe lostKill = some (.sleeping, true, true) := by
  decide +kernel

/-- The same kill, once slot 1 is asleep. -/
def seenKill : List (Action PipeLocal Copy Empty) :=
  [.enter 1 (.read 1), .acquire (.inl 1), .run (.inl 1) ⟨true, 0⟩, .run (.inl 1) ⟨true, 0⟩,
    .sleep 1, .sleep 1, .sleep 1, .sleep 1, .sleep 1, .kkill 1 2]

theorem seenKill_observed : (system (pipe 0) Empty).observed (NoKillInWindow PipeLocal.tested)
    observeSleeper quietPipe seenKill = some (.runnable, true, true) := by
  decide +kernel

/-- Slot 1 writes to a pipe with room and is killed just after its test of `killed`. It sees the
kill before its second byte. -/
def writerKill : List (Action PipeLocal Copy Empty) :=
  [.enter 1 (.write 2 0 false 0), .acquire (.inl 1), .run (.inl 1) ⟨true, 0⟩, .kkill 1 2,
    .run (.inl 1) ⟨true, 65⟩, .run (.inl 1) ⟨true, 0⟩, .run (.inl 1) ⟨true, 0⟩]

theorem writerKill_observed : (system (pipe 0) Empty).observed (NoKillInWindow PipeLocal.tested)
    observeSleeper quietPipe writerKill = some (.running, true, false) := by
  decide +kernel

instance (s : Life.State) (a : Life.Action) : Decidable (Life.NoKillBeforeSleep s a) :=
  match a with
  | .kkill q pid => inferInstanceAs (Decidable (s.pc q = .waitSleep → (s.proc q).pid ≠ pid))
  | .fork _ | .exit _ _ | .wait _ | .step _ _ | .dispatch _ | .yield _ | .sleep _ _
  | .wakeup _ _ | .use _ _ _ _ _ => .isTrue trivial

/-- `init` forks, waits for the child and is killed in its sleep. -/
def waiterKill : List Life.Action :=
  [.dispatch 0, .fork 0] ++ List.replicate 12 (.step 0 ⟨7, true⟩) ++ [.wait 0] ++
    List.replicate 70 (.step 0 ⟨0, true⟩) ++ [.kkill 0 1]

theorem waiterKill_observed : Life.system.observed Life.NoKillBeforeSleep
    (fun s => (s.pc 0, (s.proc 0).state, (s.proc 0).killed)) Life.boot waiterKill =
      some (.waitOff, .runnable, true) := by
  decide +kernel

end Sample

theorem kill_not_lost_seen :
    (∃ s : State Pipe PipeLocal Empty,
      (system (pipe 0) Empty).Reach (NoKillInWindow PipeLocal.tested) (.ok s) ∧
      (s.proc 1).killed = true ∧ (s.proc 1).state = .runnable ∧ NoKilledSleeper s) ∧
    (∃ s : State Pipe PipeLocal Empty,
      (system (pipe 0) Empty).Reach (NoKillInWindow PipeLocal.tested) (.ok s) ∧
      (s.proc 1).killed = true ∧ (s.proc 1).state = .running ∧ NoKilledSleeper s) ∧
    ∃ s, Life.system.Reach Life.NoKillBeforeSleep (.ok s) ∧ s.pc 0 = .waitOff ∧
      (s.proc 0).killed = true ∧ Life.NoKilledWaiter s := by
  obtain ⟨s, hreach, hs⟩ := System.Reach.of_observed (quietPipe_reach 0 _) seenKill_observed
  obtain ⟨t, hreach', ht⟩ := System.Reach.of_observed (quietPipe_reach 0 _) writerKill_observed
  obtain ⟨u, hreach'', hu⟩ :=
    System.Reach.of_observed (.init Life.boot_start) waiterKill_observed
  simp only [observeSleeper, Prod.mk.injEq] at hs ht hu
  obtain ⟨hpipe, -, -, hwait⟩ := @kill_not_lost Empty _ _ 0 0 0
  exact ⟨⟨s, hreach, hs.2.1, hs.1, hpipe s hreach⟩, ⟨t, hreach', ht.2.1, ht.1, hpipe t hreach'⟩,
    u, hreach'', hu.1, hu.2.2, hwait u hreach''⟩

/-- A kill that falls into the window leaves its victim asleep. -/
theorem kill_lost : ∃ (s : State Pipe PipeLocal Empty) (chan : Nat) (stage : SleepStage)
    (l : PipeLocal), (system (pipe 0) Empty).Reachable (.ok s) ∧
    s.pos (.inl 1) = .sleeping chan stage l ∧ (s.proc 1).state = .sleeping ∧
    (s.proc 1).killed = true := by
  obtain ⟨s, hreach, hobserved⟩ := System.Reach.of_observed (quietPipe_reach 0 _) lostKill_observed
  simp only [observeSleeper, Prod.mk.injEq] at hobserved
  obtain ⟨hstate, hkilled, hpos⟩ := hobserved
  split at hpos
  · rename_i chan stage l hpos'
    exact ⟨s, chan, stage, l, hreach, hpos', hstate, hkilled⟩
  · cases hpos

end Xv6.Ipc
