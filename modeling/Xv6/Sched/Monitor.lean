import Xv6.Sched.Table
import Xv6.Lib.System

/-! Code that works under one spinlock `lk` and waits with `sleep(chan, lk)`:
any processes and any interrupt handlers, with `sleep`, `wakeup`, `kkill` and
`killed` taken apart into their lock acquisitions, lock releases and changes of
a process's state. What the code does between those points is a parameter. -/
namespace Xv6.Sched.Monitor

open Lib

/-- What code that holds `lk` does next. `l` is where it goes on. -/
inductive Cmd (D L : Type) where
  /-- Change the data that `lk` protects. -/
  | step (d : D) (l : L)
  /-- `killed(myproc())` -/
  | killed (l : Bool → L)
  | wakeup (chan : Nat) (l : L)
  /-- `sleep(chan, lk)` -/
  | sleep (chan : Nat) (l : L)
  /-- `release(lk)` and return. -/
  | release (l : L)

/-- The code under one lock: `D` is the data, `L` the local states of a call,
`X` what a step leaves open, such as the result of `copyin`. -/
structure Code (D L X : Type) where
  start : D → Prop
  /-- How a process may call. -/
  entry : Slot → L → Bool
  handler : L → Bool
  next : L → D → X → Cmd D L
  /-- The channels that no other code sleeps on. -/
  own : Nat → Bool

inductive WakeStage where
  | acquire
  | test
  | release
  deriving DecidableEq

inductive SleepStage where
  /-- `acquire(&p->lock)` is next. -/
  | acquire
  /-- `release(lk)` is next. -/
  | release
  /-- `p->chan = chan` is next. -/
  | chan
  /-- `p->state = SLEEPING` is next. -/
  | state
  /-- `sched()` is next. -/
  | sched
  /-- Off the CPU; the scheduler has released `p->lock`. -/
  | off
  /-- Back from `sched()`, with `p->lock` held; `p->chan = 0` is next. -/
  | tidy
  /-- `release(&p->lock)` is next, then `acquire(lk)`. -/
  | unlock
  deriving DecidableEq

inductive Pos (L : Type) where
  /-- Not in this code; `last` is how the last call ended. -/
  | outside (last : Option L)
  | entering (l : L)
  | inside (l : L)
  | waking (chan i : Nat) (stage : WakeStage) (l : L)
  | sleeping (chan : Nat) (stage : SleepStage) (l : L)

/-- Whoever can hold a lock: a process, or a handler. -/
abbrev Ctx (K : Type) := Slot ⊕ K

/-- `on k` is the process that handler `k` interrupted, its `myproc()`. -/
structure State (D L K : Type) where
  data : D
  lk : Option (Ctx K)
  plock : Slot → Option (Ctx K)
  proc : Slot → Proc
  pos : Ctx K → Pos L
  on : K → Option Slot

inductive Action (L X K : Type) where
  | enter (p : Slot) (l : L)
  | interrupt (k : K) (on : Option Slot) (l : L)
  | acquire (c : Ctx K)
  | run (c : Ctx K) (x : X)
  | wake (c : Ctx K)
  | sleep (p : Slot)
  /-- A scheduler switches to the process. -/
  | dispatch (p : Slot)
  | yield (p : Slot)
  /-- The iteration of `kkill` that looks at this slot. -/
  | kkill (q : Slot) (pid : Int)
  /-- A process outside this code changes, or a slot is freed or taken. -/
  | elsewhere (p : Slot) (proc : Proc)

variable {D L X K : Type} [DecidableEq K]

namespace State

def setPos (s : State D L K) (c : Ctx K) (pos : Pos L) : State D L K :=
  { s with pos := Function.update s.pos c pos }

def setProc (s : State D L K) (q : Slot) (p : Proc) : State D L K :=
  { s with proc := Function.update s.proc q p }

def setPlock (s : State D L K) (q : Slot) (holder : Option (Ctx K)) : State D L K :=
  { s with plock := Function.update s.plock q holder }

omit [DecidableEq K] in
def myproc (s : State D L K) : Ctx K → Option Slot
  | .inl p => some p
  | .inr k => s.on k

/-- The process executes: it is RUNNING, and no handler has interrupted it. -/
def Runs [Fintype K] (s : State D L K) (p : Slot) : Prop :=
  (s.proc p).state = .running ∧ ∀ k, s.on k ≠ some p

instance [Fintype K] (s : State D L K) (p : Slot) : Decidable (s.Runs p) :=
  inferInstanceAs (Decidable (_ ∧ _))

def Active [Fintype K] (s : State D L K) : Ctx K → Prop
  | .inl p => s.Runs p
  | .inr _ => True

instance [Fintype K] (s : State D L K) (c : Ctx K) : Decidable (s.Active c) :=
  match c with
  | .inl p => inferInstanceAs (Decidable (s.Runs p))
  | .inr _ => .isTrue trivial

end State

/-- The process holds no spinlock of this code, so that it can be interrupted. -/
def Pos.interruptible : Pos L → Bool
  | .outside _ | .entering _ => true
  | _ => false

variable [Fintype K] (code : Code D L X)

def runCmd (s : State D L K) (c : Ctx K) : Cmd D L → Option (State D L K)
  | .step d l => some ({ s with data := d }.setPos c (.inside l))
  | .killed l =>
      match c with
      | .inl p =>
          if s.plock p = none then some (s.setPos c (.inside (l (s.proc p).killed))) else none
      | .inr _ => none
  | .wakeup chan l => some (s.setPos c (.waking chan 0 .acquire l))
  | .sleep chan l =>
      match c with
      | .inl _ => some (s.setPos c (.sleeping chan .acquire l))
      | .inr _ => none
  | .release l =>
      let s := { s with lk := none }.setPos c (.outside (some l))
      match c with
      | .inl _ => some s
      | .inr k => some { s with on := Function.update s.on k none }

def wakeStep (s : State D L K) (c : Ctx K) (chan i : Nat) (stage : WakeStage) (l : L) :
    Option (State D L K) :=
  if h : i < nproc then
    let q : Slot := ⟨i, h⟩
    match stage with
    | .acquire =>
        if s.myproc c = some q then some (s.setPos c (.waking chan (i + 1) .acquire l))
        else if s.plock q = none then
          some ((s.setPlock q (some c)).setPos c (.waking chan i .test l))
        else none
    | .test => some ((s.setProc q ((s.proc q).wakeup chan)).setPos c (.waking chan i .release l))
    | .release => some ((s.setPlock q none).setPos c (.waking chan (i + 1) .acquire l))
  else some (s.setPos c (.inside l))

def sleepStep (s : State D L K) (p : Slot) (chan : Nat) (stage : SleepStage) (l : L) :
    Option (State D L K) :=
  match stage with
  | .acquire =>
      if s.plock p = none then
        some ((s.setPlock p (some (.inl p))).setPos (.inl p) (.sleeping chan .release l))
      else none
  | .release => some ({ s with lk := none }.setPos (.inl p) (.sleeping chan .chan l))
  | .chan =>
      some ((s.setProc p { s.proc p with chan := chan }).setPos (.inl p) (.sleeping chan .state l))
  | .state =>
      some ((s.setProc p { s.proc p with state := .sleeping }).setPos (.inl p)
        (.sleeping chan .sched l))
  | .sched => some ((s.setPlock p none).setPos (.inl p) (.sleeping chan .off l))
  | .off => none
  | .tidy =>
      some ((s.setProc p { s.proc p with chan := 0 }).setPos (.inl p) (.sleeping chan .unlock l))
  | .unlock => some ((s.setPlock p none).setPos (.inl p) (.entering l))

def resume (p : Proc) : Proc := { p with state := .running, runs := (p.runs + 1) % 2 ^ 64 }

def step (s : State D L K) : Action L X K → Option (State D L K)
  | .enter p l =>
      match s.pos (.inl p) with
      | .outside _ =>
          if s.Runs p ∧ code.entry p l = true then some (s.setPos (.inl p) (.entering l)) else none
      | _ => none
  | .interrupt k on l =>
      match s.pos (.inr k) with
      | .outside _ =>
          if code.handler l = true ∧
              (∀ p ∈ on, s.Runs p ∧ (s.pos (.inl p)).interruptible = true) then
            some ({ s with on := Function.update s.on k on }.setPos (.inr k) (.entering l))
          else none
      | _ => none
  | .acquire c =>
      match s.pos c with
      | .entering l =>
          if s.Active c ∧ s.lk = none then some ({ s with lk := some c }.setPos c (.inside l))
          else none
      | _ => none
  | .run c x =>
      match s.pos c with
      | .inside l => runCmd s c (code.next l s.data x)
      | _ => none
  | .wake c =>
      match s.pos c with
      | .waking chan i stage l => wakeStep s c chan i stage l
      | _ => none
  | .sleep p =>
      match s.pos (.inl p) with
      | .sleeping chan stage l => sleepStep s p chan stage l
      | _ => none
  | .dispatch p =>
      if (s.proc p).state = .runnable ∧ s.plock p = none then
        match s.pos (.inl p) with
        | .sleeping chan .off l =>
            some (((s.setPlock p (some (.inl p))).setProc p (resume (s.proc p))).setPos (.inl p)
              (.sleeping chan .tidy l))
        | _ => some (s.setProc p (resume (s.proc p)))
      else none
  | .yield p =>
      if s.Runs p ∧ s.plock p = none ∧ (s.pos (.inl p)).interruptible = true then
        some (s.setProc p { s.proc p with state := .runnable })
      else none
  | .kkill q pid =>
      if s.plock q = none then some (s.setProc q ((s.proc q).kill pid)) else none
  | .elsewhere p proc =>
      match s.pos (.inl p) with
      | .outside _ =>
          if s.plock p = none ∧ (∀ k, s.on k ≠ some p) ∧
              (proc.state = .sleeping → code.own proc.chan = false) then
            some (s.setProc p proc)
          else none
      | _ => none

/-- Nobody is in the code, and nobody sleeps on its channels. -/
structure Start (s : State D L K) : Prop where
  data : code.start s.data
  lk : s.lk = none
  plock : ∀ q, s.plock q = none
  pos : ∀ c, s.pos c = .outside none
  on : ∀ k, s.on k = none
  proc : ∀ p, (s.proc p).state = .sleeping → code.own (s.proc p).chan = false

def State.quiet (d : D) (proc : Slot → Proc) : State D L K :=
  ⟨d, none, fun _ => none, proc, fun _ => .outside none, fun _ => none⟩

omit [DecidableEq K] [Fintype K] in
theorem State.quiet_start {d : D} {proc : Slot → Proc} (hd : code.start d)
    (hproc : ∀ p, (proc p).state ≠ .sleeping) : Start code (State.quiet d proc : State D L K) where
  data := hd
  lk := rfl
  plock _ := rfl
  pos _ := rfl
  on _ := rfl
  proc p h := absurd h (hproc p)

def system (K : Type) [DecidableEq K] [Fintype K] :
    System (State D L K) Empty (Action L X K) where
  init := Start code
  enabled s a := (step code s a).isSome = true
  exec s a := .ok ((step code s a).getD s)

instance (s : State D L K) (a : Action L X K) : Decidable ((system code K).enabled s a) :=
  inferInstanceAs (Decidable (_ = true))

inductive Move (s : State D L K) : Action L X K → State D L K → Prop where
  | enter {p : Slot} {l : L} {last : Option L} : s.pos (.inl p) = .outside last → s.Runs p →
      code.entry p l = true → Move s (.enter p l) (s.setPos (.inl p) (.entering l))
  | interrupt {k : K} {on : Option Slot} {l : L} {last : Option L} :
      s.pos (.inr k) = .outside last → code.handler l = true →
      (∀ p ∈ on, s.Runs p ∧ (s.pos (.inl p)).interruptible = true) →
      Move s (.interrupt k on l)
        ({ s with on := Function.update s.on k on }.setPos (.inr k) (.entering l))
  | acquire {c : Ctx K} {l : L} : s.pos c = .entering l → s.Active c → s.lk = none →
      Move s (.acquire c) ({ s with lk := some c }.setPos c (.inside l))
  | data {c : Ctx K} {x : X} {l l' : L} {d : D} : s.pos c = .inside l →
      code.next l s.data x = .step d l' →
      Move s (.run c x) ({ s with data := d }.setPos c (.inside l'))
  | killed {p : Slot} {x : X} {l : L} {l' : Bool → L} : s.pos (.inl p) = .inside l →
      code.next l s.data x = .killed l' → s.plock p = none →
      Move s (.run (.inl p) x) (s.setPos (.inl p) (.inside (l' (s.proc p).killed)))
  | wakeup {c : Ctx K} {x : X} {l l' : L} {chan : Nat} : s.pos c = .inside l →
      code.next l s.data x = .wakeup chan l' →
      Move s (.run c x) (s.setPos c (.waking chan 0 .acquire l'))
  | sleep {p : Slot} {x : X} {l l' : L} {chan : Nat} : s.pos (.inl p) = .inside l →
      code.next l s.data x = .sleep chan l' →
      Move s (.run (.inl p) x) (s.setPos (.inl p) (.sleeping chan .acquire l'))
  | release {p : Slot} {x : X} {l l' : L} : s.pos (.inl p) = .inside l →
      code.next l s.data x = .release l' →
      Move s (.run (.inl p) x) ({ s with lk := none }.setPos (.inl p) (.outside (some l')))
  | handled {k : K} {x : X} {l l' : L} : s.pos (.inr k) = .inside l →
      code.next l s.data x = .release l' →
      Move s (.run (.inr k) x)
        ({ s with lk := none, on := Function.update s.on k none }.setPos (.inr k)
          (.outside (some l')))
  | wakeSkip {c : Ctx K} {chan : Nat} {q : Slot} {l : L} : s.pos c = .waking chan q .acquire l →
      s.myproc c = some q → Move s (.wake c) (s.setPos c (.waking chan (q + 1) .acquire l))
  | wakeAcquire {c : Ctx K} {chan : Nat} {q : Slot} {l : L} :
      s.pos c = .waking chan q .acquire l → s.myproc c ≠ some q → s.plock q = none →
      Move s (.wake c) ((s.setPlock q (some c)).setPos c (.waking chan q .test l))
  | wakeTest {c : Ctx K} {chan : Nat} {q : Slot} {l : L} : s.pos c = .waking chan q .test l →
      Move s (.wake c)
        ((s.setProc q ((s.proc q).wakeup chan)).setPos c (.waking chan q .release l))
  | wakeRelease {c : Ctx K} {chan : Nat} {q : Slot} {l : L} :
      s.pos c = .waking chan q .release l →
      Move s (.wake c) ((s.setPlock q none).setPos c (.waking chan (q + 1) .acquire l))
  | wakeDone {c : Ctx K} {chan i : Nat} {stage : WakeStage} {l : L} :
      s.pos c = .waking chan i stage l → nproc ≤ i → Move s (.wake c) (s.setPos c (.inside l))
  | sleepAcquire {p : Slot} {chan : Nat} {l : L} : s.pos (.inl p) = .sleeping chan .acquire l →
      s.plock p = none → Move s (.sleep p)
        ((s.setPlock p (some (.inl p))).setPos (.inl p) (.sleeping chan .release l))
  | sleepRelease {p : Slot} {chan : Nat} {l : L} : s.pos (.inl p) = .sleeping chan .release l →
      Move s (.sleep p) ({ s with lk := none }.setPos (.inl p) (.sleeping chan .chan l))
  | sleepChan {p : Slot} {chan : Nat} {l : L} : s.pos (.inl p) = .sleeping chan .chan l →
      Move s (.sleep p)
        ((s.setProc p { s.proc p with chan := chan }).setPos (.inl p) (.sleeping chan .state l))
  | sleepState {p : Slot} {chan : Nat} {l : L} : s.pos (.inl p) = .sleeping chan .state l →
      Move s (.sleep p)
        ((s.setProc p { s.proc p with state := .sleeping }).setPos (.inl p)
          (.sleeping chan .sched l))
  | sleepSched {p : Slot} {chan : Nat} {l : L} : s.pos (.inl p) = .sleeping chan .sched l →
      Move s (.sleep p) ((s.setPlock p none).setPos (.inl p) (.sleeping chan .off l))
  | sleepTidy {p : Slot} {chan : Nat} {l : L} : s.pos (.inl p) = .sleeping chan .tidy l →
      Move s (.sleep p)
        ((s.setProc p { s.proc p with chan := 0 }).setPos (.inl p) (.sleeping chan .unlock l))
  | sleepUnlock {p : Slot} {chan : Nat} {l : L} : s.pos (.inl p) = .sleeping chan .unlock l →
      Move s (.sleep p) ((s.setPlock p none).setPos (.inl p) (.entering l))
  | resume {p : Slot} {chan : Nat} {l : L} : s.pos (.inl p) = .sleeping chan .off l →
      (s.proc p).state = .runnable → s.plock p = none → Move s (.dispatch p)
        (((s.setPlock p (some (.inl p))).setProc p (resume (s.proc p))).setPos (.inl p)
          (.sleeping chan .tidy l))
  | dispatch {p : Slot} : (∀ chan l, s.pos (.inl p) ≠ .sleeping chan .off l) →
      (s.proc p).state = .runnable → s.plock p = none →
      Move s (.dispatch p) (s.setProc p (Monitor.resume (s.proc p)))
  | yield {p : Slot} : s.Runs p → s.plock p = none → (s.pos (.inl p)).interruptible = true →
      Move s (.yield p) (s.setProc p { s.proc p with state := .runnable })
  | kkill {q : Slot} {pid : Int} : s.plock q = none →
      Move s (.kkill q pid) (s.setProc q ((s.proc q).kill pid))
  | elsewhere {p : Slot} {proc : Proc} {last : Option L} : s.pos (.inl p) = .outside last →
      s.plock p = none → (∀ k, s.on k ≠ some p) →
      (proc.state = .sleeping → code.own proc.chan = false) →
      Move s (.elsewhere p proc) (s.setProc p proc)

variable {code} {s t : State D L K}

theorem move_run {c : Ctx K} {x : X} (h : step code s (.run c x) = some t) :
    Move code s (.run c x) t := by
  simp only [step] at h
  split at h
  · rename_i l hpos
    cases hnext : code.next l s.data x with
    | step d l' =>
      rw [hnext] at h
      cases h
      exact .data hpos hnext
    | killed l' =>
      rw [hnext] at h
      cases c with
      | inl p =>
        simp only [runCmd] at h
        split at h <;> cases h
        exact .killed hpos hnext ‹_›
      | inr k => cases h
    | wakeup chan l' =>
      rw [hnext] at h
      cases h
      exact .wakeup hpos hnext
    | sleep chan l' =>
      rw [hnext] at h
      cases c with
      | inl p =>
        cases h
        exact .sleep hpos hnext
      | inr k => cases h
    | release l' =>
      rw [hnext] at h
      cases c with
      | inl p =>
        cases h
        exact .release hpos hnext
      | inr k =>
        cases h
        exact .handled hpos hnext
  · cases h

theorem move_wake {c : Ctx K} (h : step code s (.wake c : Action L X K) = some t) :
    Move code s (.wake c) t := by
  simp only [step] at h
  split at h
  · rename_i chan i stage l hpos
    by_cases hi : i < nproc
    · obtain ⟨q, rfl⟩ : ∃ q : Slot, i = q := ⟨⟨i, hi⟩, rfl⟩
      simp only [wakeStep, dif_pos hi] at h
      cases stage with
      | acquire =>
        simp only at h
        split at h
        · cases h
          exact .wakeSkip hpos ‹_›
        · split at h <;> cases h
          exact .wakeAcquire hpos ‹_› ‹_›
      | test =>
        cases h
        exact .wakeTest hpos
      | release =>
        cases h
        exact .wakeRelease hpos
    · simp only [wakeStep, dif_neg hi] at h
      cases h
      exact .wakeDone hpos (Nat.le_of_not_lt hi)
  · cases h

theorem move_sleep {p : Slot} (h : step code s (.sleep p : Action L X K) = some t) :
    Move code s (.sleep p) t := by
  simp only [step] at h
  split at h
  · rename_i chan stage l hpos
    cases stage with
    | acquire =>
      simp only [sleepStep] at h
      split at h <;> cases h
      exact .sleepAcquire hpos ‹_›
    | release =>
      cases h
      exact .sleepRelease hpos
    | chan =>
      cases h
      exact .sleepChan hpos
    | state =>
      cases h
      exact .sleepState hpos
    | sched =>
      cases h
      exact .sleepSched hpos
    | off => cases h
    | tidy =>
      cases h
      exact .sleepTidy hpos
    | unlock =>
      cases h
      exact .sleepUnlock hpos
  · cases h

theorem move_dispatch {p : Slot} (h : step code s (.dispatch p : Action L X K) = some t) :
    Move code s (.dispatch p) t := by
  simp only [step] at h
  split at h
  · rename_i hready
    split at h
    · rename_i chan l hpos
      cases h
      exact .resume hpos hready.1 hready.2
    · rename_i hpos
      cases h
      exact .dispatch hpos hready.1 hready.2
  · cases h

theorem move_of_step {a : Action L X K} (h : step code s a = some t) : Move code s a t := by
  cases a with
  | enter p l =>
    simp only [step] at h
    split at h
    · split at h <;> cases h
      rename_i hpos hready
      exact .enter hpos hready.1 hready.2
    · cases h
  | interrupt k on l =>
    simp only [step] at h
    split at h
    · split at h <;> cases h
      rename_i hpos hready
      exact .interrupt hpos hready.1 hready.2
    · cases h
  | acquire c =>
    simp only [step] at h
    split at h
    · split at h <;> cases h
      rename_i hpos hready
      exact .acquire hpos hready.1 hready.2
    · cases h
  | run c x => exact move_run h
  | wake c => exact move_wake h
  | sleep p => exact move_sleep h
  | dispatch p => exact move_dispatch h
  | yield p =>
    simp only [step] at h
    split at h <;> cases h
    rename_i hready
    exact .yield hready.1 hready.2.1 hready.2.2
  | kkill q pid =>
    simp only [step] at h
    split at h <;> cases h
    exact .kkill ‹_›
  | elsewhere p proc =>
    simp only [step] at h
    split at h
    · split at h <;> cases h
      rename_i hpos hready
      exact .elsewhere hpos hready.1 hready.2.1 hready.2.2
    · cases h

theorem reach_invariant {allowed : State D L K → Action L X K → Prop} (Inv : State D L K → Prop)
    (hinit : ∀ s, Start code s → Inv s)
    (hmove : ∀ s a t, (system code K).Reach allowed (.ok s) → Inv s → allowed s a →
      Move code s a t → Inv t)
    (h : (system code K).Reach allowed (.ok s)) : Inv s := by
  refine h.invariant_reach Inv hinit fun s a t hreach hs henabled hallowed hexec => ?_
  obtain ⟨u, hu⟩ := Option.isSome_iff_exists.mp henabled
  simp only [system, hu, Option.getD_some, Except.ok.injEq] at hexec
  exact hexec ▸ hmove s a u hreach hs hallowed (move_of_step hu)

end Xv6.Sched.Monitor
