import Xv6.Sched.Table
import Xv6.Lib.System

/-! `scheduler()` on any number of CPUs, and the processes it runs. A step is one
critical section on a `p->lock`; control moves between the scheduler and a
process inside such a section, so a CPU is either scanning the table or running
one process. -/
namespace Xv6.Sched

open Lib

/-- Where a CPU is. `highest` is the local variable of `scheduler()`. -/
inductive Cpu where
  /-- About to look at slot `i` in the first pass. -/
  | firstPass (i : Nat) (highest : Int)
  /-- About to look at slot `i` in the second pass. -/
  | secondPass (i : Nat) (highest : Int)
  /-- Slot `i` is `c->proc`; the second pass goes on after it. -/
  | running (i : Slot) (highest : Int)
  deriving DecidableEq

structure Forking where
  child : Slot
  parented : Bool
  deriving DecidableEq

/-- `raised c q` records that slot `q` became RUNNABLE, or got a smaller priority
number while RUNNABLE, after the first pass of `c` last looked at it. -/
structure State (C : Type) where
  proc : Slot → Proc
  nextpid : Int
  cpu : C → Cpu
  forking : Slot → Option Forking
  raised : C → Slot → Bool

inductive Action (C : Type) where
  /-- The next section of `scheduler()` on a CPU that runs no process. -/
  | schedule (c : C)
  | yield (c : C)
  | sleep (c : C) (chan : Nat)
  | exit (c : C) (status : Int)
  /-- One iteration of a `wakeup` loop, of a process or of an interrupt. -/
  | wakeup (q : Slot) (chan : Nat)
  | kkill (c : C) (q : Slot) (pid : Int)
  | setPriority (c : C) (q : Slot) (pid priority : Int)
  /-- `allocproc` in `kfork` finds this slot. -/
  | allocproc (c : C) (q : Slot)
  | forkFail (c : C)
  /-- `np->parent = p` -/
  | forkParent (c : C)
  /-- `np->state = RUNNABLE` -/
  | forkDone (c : C)
  /-- `kwait` frees this child. -/
  | reap (c : C) (q : Slot)

inductive Panic where
  | initExiting
  deriving DecidableEq

def initproc : Slot := ⟨0, by decide⟩

def noPriority : Int := 9999

variable {C : Type}

def Cpu.proc? : Cpu → Option Slot
  | .running i _ => some i
  | _ => none

def Free (s : State C) (c : C) : Prop :=
  ∃ i ∈ (s.cpu c).proc?, s.forking i = none

def enabled (s : State C) : Action C → Prop
  | .schedule c => (s.cpu c).proc? = none
  | .yield c => (s.cpu c).proc? ≠ none
  | .sleep c _ => Free s c
  | .exit c _ => Free s c
  | .wakeup _ _ => True
  | .kkill c _ _ => Free s c
  | .setPriority c _ _ priority => Free s c ∧ validPriority priority
  | .allocproc c q => Free s c ∧ (s.proc q).state = .unused
  | .forkFail c => ∃ i ∈ (s.cpu c).proc?, ∃ f ∈ s.forking i, f.parented = false
  | .forkParent c => ∃ i ∈ (s.cpu c).proc?, ∃ f ∈ s.forking i, f.parented = false
  | .forkDone c => ∃ i ∈ (s.cpu c).proc?, ∃ f ∈ s.forking i, f.parented = true
  | .reap c q =>
      Free s c ∧ (s.proc q).state = .zombie ∧ ∃ i ∈ (s.cpu c).proc?, (s.proc q).parent = some i

section Decidable

instance (s : State C) (c : C) : Decidable (Free s c) :=
  inferInstanceAs (Decidable (∃ i ∈ (s.cpu c).proc?, s.forking i = none))

instance (s : State C) (a : Action C) : Decidable (enabled s a) :=
  match a with
  | .schedule c => inferInstanceAs (Decidable ((s.cpu c).proc? = none))
  | .yield c => inferInstanceAs (Decidable ((s.cpu c).proc? ≠ none))
  | .sleep c _ | .exit c _ | .kkill c _ _ => inferInstanceAs (Decidable (Free s c))
  | .wakeup _ _ => .isTrue trivial
  | .setPriority c _ _ _ => inferInstanceAs (Decidable (Free s c ∧ _))
  | .allocproc c _ => inferInstanceAs (Decidable (Free s c ∧ _))
  | .forkFail c | .forkParent c =>
      inferInstanceAs (Decidable (∃ i ∈ (s.cpu c).proc?, ∃ f ∈ s.forking i, f.parented = false))
  | .forkDone c =>
      inferInstanceAs (Decidable (∃ i ∈ (s.cpu c).proc?, ∃ f ∈ s.forking i, f.parented = true))
  | .reap c q =>
      inferInstanceAs (Decidable (Free s c ∧ (s.proc q).state = .zombie ∧
        ∃ i ∈ (s.cpu c).proc?, (s.proc q).parent = some i))

end Decidable

section Exec

variable [DecidableEq C]

def State.setProc (s : State C) (q : Slot) (p : Proc) : State C :=
  { s with proc := Function.update s.proc q p }

def State.setCpu (s : State C) (c : C) (cpu : Cpu) : State C :=
  { s with cpu := Function.update s.cpu c cpu }

theorem State.cpu_setCpu (s : State C) (c : C) (cpu : Cpu) : (s.setCpu c cpu).cpu c = cpu :=
  Function.update_self _ _ _

def State.sched (s : State C) (c : C) (i : Slot) (highest : Int) (p : Proc) : State C :=
  (s.setProc i p).setCpu c (.secondPass (i + 1) highest)

def schedule (s : State C) (c : C) : State C :=
  match s.cpu c with
  | .firstPass i highest =>
      if h : i < nproc then
        let p := s.proc ⟨i, h⟩
        s.setCpu c (.firstPass (i + 1)
          (if p.state = .runnable ∧ p.priority < highest then p.priority else highest))
      else s.setCpu c (.secondPass 0 highest)
  | .secondPass i highest =>
      if h : i < nproc then
        let p := s.proc ⟨i, h⟩
        if p.state = .runnable ∧ p.priority = highest then
          (s.setProc ⟨i, h⟩ p.dispatch).setCpu c (.running ⟨i, h⟩ highest)
        else s.setCpu c (.secondPass (i + 1) highest)
      else s.setCpu c (.firstPass 0 noPriority)
  | .running _ _ => s

def State.child? (s : State C) (c : C) : Option (Slot × Forking) := do
  let i ← (s.cpu c).proc?
  let f ← s.forking i
  pure (i, f)

def State.setForking (s : State C) (i : Slot) (forking : Option Forking) : State C :=
  { s with forking := Function.update s.forking i forking }

def State.reparent (s : State C) (i : Slot) : State C :=
  { s with
    proc := fun q =>
      let p := s.proc q
      if p.parent = some i then { p with parent := some initproc } else p }

def act (s : State C) : Action C → Except Panic (State C)
  | .schedule c => .ok (schedule s c)
  | .yield c =>
      match s.cpu c with
      | .running i highest => .ok (s.sched c i highest { s.proc i with state := .runnable })
      | _ => .ok s
  | .sleep c chan =>
      match s.cpu c with
      | .running i highest =>
          .ok (s.sched c i highest { s.proc i with state := .sleeping, chan := chan })
      | _ => .ok s
  | .exit c status =>
      match s.cpu c with
      | .running i highest =>
          if i = initproc then .error .initExiting
          else
            let s := s.reparent i
            .ok (s.sched c i highest { s.proc i with state := .zombie, xstate := status })
      | _ => .ok s
  | .wakeup q chan => .ok (s.setProc q ((s.proc q).wakeup chan))
  | .kkill _ q pid => .ok (s.setProc q ((s.proc q).kill pid))
  | .setPriority _ q pid priority => .ok (s.setProc q ((s.proc q).setPriority pid priority))
  | .allocproc c q =>
      match (s.cpu c).proc? with
      | some i =>
          let s := s.setProc q ((s.proc q).found s.nextpid)
          .ok ({ s with nextpid := s.nextpid + 1 }.setForking i (some ⟨q, false⟩))
      | none => .ok s
  | .forkFail c =>
      match s.child? c with
      | some (i, f) => .ok ((s.setProc f.child (freeproc (s.proc f.child))).setForking i none)
      | none => .ok s
  | .forkParent c =>
      match s.child? c with
      | some (i, f) =>
          .ok ((s.setProc f.child { s.proc f.child with parent := some i }).setForking i
            (some { f with parented := true }))
      | none => .ok s
  | .forkDone c =>
      match s.child? c with
      | some (i, f) =>
          .ok ((s.setProc f.child { s.proc f.child with state := .runnable }).setForking i none)
      | none => .ok s
  | .reap _ q => .ok (s.setProc q (freeproc (s.proc q)))

def raises (before after : Proc) : Bool :=
  after.state = .runnable && (before.state ≠ .runnable || decide (after.priority < before.priority))

def examines (s : State C) (a : Action C) (c : C) (q : Slot) : Bool :=
  match a with
  | .schedule c' =>
      match s.cpu c with
      | .firstPass i _ => c' = c && i = q
      | _ => false
  | _ => false

def exec (s : State C) (a : Action C) : Except Panic (State C) := do
  let s' ← act s a
  pure { s' with
    raised := fun c q =>
      if examines s a c q then false else s.raised c q || raises (s.proc q) (s'.proc q) }

section Moves

/-- What a step does to the system itself, with everything that holds when it does. -/
inductive Move (s : State C) : Action C → State C → Prop where
  | look {c : C} {i : Nat} {highest : Int} (hi : i < nproc) : s.cpu c = .firstPass i highest →
      Move s (.schedule c) (s.setCpu c (.firstPass (i + 1)
        (if (s.proc ⟨i, hi⟩).state = .runnable ∧ (s.proc ⟨i, hi⟩).priority < highest
          then (s.proc ⟨i, hi⟩).priority else highest)))
  | chosen {c : C} {i : Nat} {highest : Int} : nproc ≤ i → s.cpu c = .firstPass i highest →
      Move s (.schedule c) (s.setCpu c (.secondPass 0 highest))
  | dispatch {c : C} {i : Slot} {highest : Int} : s.cpu c = .secondPass i highest →
      (s.proc i).state = .runnable → (s.proc i).priority = highest →
      Move s (.schedule c) ((s.setProc i (s.proc i).dispatch).setCpu c (.running i highest))
  | skip {c : C} {i : Nat} {highest : Int} (hi : i < nproc) : s.cpu c = .secondPass i highest →
      ¬((s.proc ⟨i, hi⟩).state = .runnable ∧ (s.proc ⟨i, hi⟩).priority = highest) →
      Move s (.schedule c) (s.setCpu c (.secondPass (i + 1) highest))
  | done {c : C} {i : Nat} {highest : Int} : nproc ≤ i → s.cpu c = .secondPass i highest →
      Move s (.schedule c) (s.setCpu c (.firstPass 0 noPriority))
  | yield {c : C} {i : Slot} {highest : Int} : s.cpu c = .running i highest →
      Move s (.yield c) (s.sched c i highest { s.proc i with state := .runnable })
  | sleep {c : C} {i : Slot} {highest : Int} {chan : Nat} : s.cpu c = .running i highest →
      Move s (.sleep c chan) (s.sched c i highest
        { s.proc i with state := .sleeping, chan := chan })
  | exit {c : C} {i : Slot} {highest status : Int} : s.cpu c = .running i highest →
      Move s (.exit c status) ((s.reparent i).sched c i highest
        { (s.reparent i).proc i with state := .zombie, xstate := status })
  | wakeup {q : Slot} {chan : Nat} :
      Move s (.wakeup q chan) (s.setProc q ((s.proc q).wakeup chan))
  | kkill {c : C} {i q : Slot} {highest pid : Int} : s.cpu c = .running i highest →
      Move s (.kkill c q pid) (s.setProc q ((s.proc q).kill pid))
  | setPriority {c : C} {i q : Slot} {highest pid priority : Int} :
      s.cpu c = .running i highest → validPriority priority →
      Move s (.setPriority c q pid priority) (s.setProc q ((s.proc q).setPriority pid priority))
  | allocproc {c : C} {i q : Slot} {highest : Int} : s.cpu c = .running i highest →
      s.forking i = none → (s.proc q).state = .unused →
      Move s (.allocproc c q)
        ({ s.setProc q ((s.proc q).found s.nextpid) with nextpid := s.nextpid + 1 }.setForking i
          (some ⟨q, false⟩))
  | forkFail {c : C} {i : Slot} {f : Forking} {highest : Int} : s.cpu c = .running i highest →
      s.forking i = some f →
      Move s (.forkFail c) ((s.setProc f.child (freeproc (s.proc f.child))).setForking i none)
  | forkParent {c : C} {i : Slot} {f : Forking} {highest : Int} : s.cpu c = .running i highest →
      s.forking i = some f →
      Move s (.forkParent c) ((s.setProc f.child
        { s.proc f.child with parent := some i }).setForking i (some { f with parented := true }))
  | forkDone {c : C} {i : Slot} {f : Forking} {highest : Int} : s.cpu c = .running i highest →
      s.forking i = some f →
      Move s (.forkDone c)
        ((s.setProc f.child { s.proc f.child with state := .runnable }).setForking i none)
  | reap {c : C} {i q : Slot} {highest : Int} : s.cpu c = .running i highest →
      (s.proc q).state = .zombie → Move s (.reap c q) (s.setProc q (freeproc (s.proc q)))

variable {s t : State C} {a : Action C}

omit [DecidableEq C] in
theorem running_of_mem {c : C} {i : Slot} (h : i ∈ (s.cpu c).proc?) :
    ∃ highest, s.cpu c = .running i highest := by
  cases hcpu : s.cpu c with
  | firstPass j highest | secondPass j highest =>
    rw [hcpu] at h
    cases h
  | running j highest =>
    rw [hcpu] at h
    cases h
    exact ⟨highest, rfl⟩

omit [DecidableEq C] in
theorem running_of_free {c : C} (h : Free s c) :
    ∃ i highest, s.cpu c = .running i highest ∧ s.forking i = none := by
  obtain ⟨i, hi, hforking⟩ := h
  obtain ⟨highest, hcpu⟩ := running_of_mem hi
  exact ⟨i, highest, hcpu, hforking⟩

theorem move_schedule {c : C} (h : (s.cpu c).proc? = none) :
    Move s (.schedule c) (schedule s c) := by
  unfold schedule
  cases hcpu : s.cpu c with
  | firstPass i highest =>
    dsimp only
    split
    · rename_i hi
      exact .look hi hcpu
    · rename_i hi
      exact .chosen (Nat.le_of_not_lt hi) hcpu
  | secondPass i highest =>
    dsimp only
    split
    · rename_i hi
      split
      · rename_i hp
        exact .dispatch hcpu hp.1 hp.2
      · rename_i hp
        exact .skip hi hcpu hp
    · rename_i hi
      exact .done (Nat.le_of_not_lt hi) hcpu
  | running i highest =>
    rw [hcpu] at h
    cases h

theorem move_of_act (ha : enabled s a) (h : act s a = .ok t) : Move s a t := by
  cases a with
  | schedule c =>
    cases h
    exact move_schedule ha
  | yield c =>
    obtain ⟨i, hi⟩ := Option.ne_none_iff_exists'.mp ha
    obtain ⟨highest, hcpu⟩ := running_of_mem hi
    simp only [act, hcpu, Except.ok.injEq] at h
    exact h ▸ .yield hcpu
  | sleep c chan =>
    obtain ⟨i, highest, hcpu, -⟩ := running_of_free ha
    simp only [act, hcpu, Except.ok.injEq] at h
    exact h ▸ .sleep hcpu
  | exit c status =>
    obtain ⟨i, highest, hcpu, -⟩ := running_of_free ha
    simp only [act, hcpu] at h
    split at h
    · cases h
    · exact Except.ok.inj h ▸ .exit hcpu
  | wakeup q chan =>
    cases h
    exact .wakeup
  | kkill c q pid =>
    obtain ⟨i, highest, hcpu, -⟩ := running_of_free ha
    cases h
    exact .kkill hcpu
  | setPriority c q pid priority =>
    obtain ⟨i, highest, hcpu, -⟩ := running_of_free ha.1
    cases h
    exact .setPriority hcpu ha.2
  | allocproc c q =>
    obtain ⟨i, highest, hcpu, hforking⟩ := running_of_free ha.1
    simp only [act, hcpu, Cpu.proc?, Except.ok.injEq] at h
    exact h ▸ .allocproc hcpu hforking ha.2
  | forkFail c =>
    obtain ⟨i, hi, f, hf, -⟩ := ha
    obtain ⟨highest, hcpu⟩ := running_of_mem hi
    rw [Option.mem_def] at hf
    simp only [act, State.child?, hcpu, Cpu.proc?, hf, Option.bind_eq_bind, Option.bind_some, pure,
      Except.ok.injEq] at h
    exact h ▸ .forkFail hcpu hf
  | forkParent c =>
    obtain ⟨i, hi, f, hf, -⟩ := ha
    obtain ⟨highest, hcpu⟩ := running_of_mem hi
    rw [Option.mem_def] at hf
    simp only [act, State.child?, hcpu, Cpu.proc?, hf, Option.bind_eq_bind, Option.bind_some, pure,
      Except.ok.injEq] at h
    exact h ▸ .forkParent hcpu hf
  | forkDone c =>
    obtain ⟨i, hi, f, hf, -⟩ := ha
    obtain ⟨highest, hcpu⟩ := running_of_mem hi
    rw [Option.mem_def] at hf
    simp only [act, State.child?, hcpu, Cpu.proc?, hf, Option.bind_eq_bind, Option.bind_some, pure,
      Except.ok.injEq] at h
    exact h ▸ .forkDone hcpu hf
  | reap c q =>
    obtain ⟨i, highest, hcpu, -⟩ := running_of_free ha.1
    cases h
    exact .reap hcpu ha.2.1

def raisedAfter (s t : State C) (a : Action C) (c : C) (q : Slot) : Bool :=
  if examines s a c q then false else s.raised c q || raises (s.proc q) (t.proc q)

theorem move_of_exec (ha : enabled s a) (h : exec s a = .ok t) :
    ∃ u, Move s a u ∧ t = { u with raised := raisedAfter s u a } := by
  unfold exec at h
  cases hact : act s a with
  | error e => simp [hact, bind, Except.bind] at h
  | ok u =>
    simp only [hact, bind, Except.bind, pure, Except.pure, Except.ok.injEq] at h
    exact ⟨u, move_of_act ha hact, h.symm⟩

end Moves

end Exec

def initial : State C where
  proc := fun q =>
    if q = initproc then { Proc.empty.found 1 with state := .runnable } else Proc.empty
  nextpid := 2
  cpu := fun _ => .firstPass 0 noPriority
  forking := fun _ => none
  raised := fun _ _ => false

def system (C : Type) [DecidableEq C] : System (State C) Panic (Action C) where
  init s := s = initial
  enabled := enabled
  exec := exec

instance [DecidableEq C] (s : State C) (a : Action C) : Decidable ((system C).enabled s a) :=
  inferInstanceAs (Decidable (enabled s a))

end Xv6.Sched
