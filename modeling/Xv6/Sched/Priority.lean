import Xv6.Sched.Scheduler

/-! What the two passes of `scheduler()` guarantee. The first pass computes the
best priority it sees, slot by slot; the second runs every ready process with
that priority. A process passed over is therefore one that became ready, or
more urgent, after the first pass had looked at it. -/
namespace Xv6.Sched

open Lib

variable {C : Type}

def Cpu.highest : Cpu → Int
  | .firstPass _ highest | .secondPass _ highest | .running _ highest => highest

/-- The slots whose priorities `highest` accounts for. -/
def Cpu.scanned : Cpu → Slot → Prop
  | .firstPass i _, q => q.val < i
  | _, _ => True

/-- `highest` is a lower bound for every scanned process that has not become
ready or more urgent since. -/
def Bounds (s : State C) : Prop :=
  ∀ c q, (s.cpu c).scanned q → (s.proc q).state = .runnable → s.raised c q = false →
    (s.cpu c).highest ≤ (s.proc q).priority

/-- The second pass of this CPU stands at slot `i` and finds it RUNNABLE with the cached
priority; `dispatches_iff` says that its next step then moves the slot to RUNNING. -/
def Dispatches (s : State C) (c : C) (i : Slot) : Prop :=
  ∃ highest, s.cpu c = .secondPass i highest ∧ (s.proc i).state = .runnable ∧
    (s.proc i).priority = highest

theorem not_raises {before after : Proc} (h : raises before after = false)
    (hafter : after.state = .runnable) :
    before.state = .runnable ∧ before.priority ≤ after.priority := by
  simpa [raises, hafter] using h

variable [DecidableEq C]

def Retains (s t : State C) (a : Action C) (c : C) (q : Slot) : Prop :=
  examines s a c q = false ∧ (t.cpu c).highest ≤ (s.cpu c).highest ∧ (s.cpu c).scanned q

def Accounts (s t : State C) (c : C) (q : Slot) : Prop :=
  t.proc = s.proc ∧ ((s.proc q).state = .runnable → (t.cpu c).highest ≤ (s.proc q).priority)

theorem Retains.of_cpu {s t : State C} {a : Action C} {c : C} {q : Slot}
    (hexamines : examines s a c q = false) (hcpu : t.cpu c = s.cpu c)
    (hscanned : (t.cpu c).scanned q) : Retains s t a c q :=
  ⟨hexamines, by rw [hcpu], hcpu ▸ hscanned⟩

theorem examines_of_ne {s : State C} {c c' : C} (hc : c ≠ c') (q : Slot) :
    examines s (.schedule c') c q = false := by
  simp only [examines, Ne.symm hc, decide_false, Bool.false_and]
  split <;> rfl

theorem Retains.sched {s s' : State C} {a : Action C} {c c' : C} {i q : Slot} {highest : Int}
    {p : Proc} (hexamines : examines s a c q = false) (hcpu : s.cpu c' = .running i highest)
    (hsame : s'.cpu = s.cpu) (hscanned : ((s'.sched c' i highest p).cpu c).scanned q) :
    Retains s (s'.sched c' i highest p) a c q := by
  by_cases hc : c = c'
  · subst hc
    refine ⟨hexamines, ?_, by rw [hcpu]; trivial⟩
    simp [State.sched, State.setCpu, hcpu, Cpu.highest]
  · refine .of_cpu hexamines ?_ hscanned
    simp [State.sched, State.setCpu, State.setProc, hc, hsame]

theorem scan_look {s : State C} {c : C} {i : Nat} {highest : Int} (hi : i < nproc)
    (hcpu : s.cpu c = .firstPass i highest) {q : Slot} (hq : q.val < i + 1) {next : State C}
    (hnext : next = s.setCpu c (.firstPass (i + 1)
      (if (s.proc ⟨i, hi⟩).state = .runnable ∧ (s.proc ⟨i, hi⟩).priority < highest
        then (s.proc ⟨i, hi⟩).priority else highest))) :
    Retains s next (.schedule c) c q ∨ Accounts s next c q := by
  have hhighest : (next.cpu c).highest =
      if (s.proc ⟨i, hi⟩).state = .runnable ∧ (s.proc ⟨i, hi⟩).priority < highest
        then (s.proc ⟨i, hi⟩).priority else highest := by
    simp [hnext, State.setCpu, Cpu.highest]
  by_cases hqi : q = ⟨i, hi⟩
  · subst hqi
    refine Or.inr ⟨by rw [hnext]; rfl, fun hrunnable => ?_⟩
    simp only [hhighest, hrunnable, true_and]
    split <;> omega
  · have hne : q.val ≠ i := fun h => hqi (Fin.ext h)
    refine Or.inl ⟨?_, ?_, ?_⟩
    · simp [examines, hcpu, Ne.symm hne]
    · rw [hhighest, hcpu, Cpu.highest]
      split <;> omega
    · rw [hcpu]
      exact Nat.lt_of_le_of_ne (Nat.le_of_lt_succ hq) hne

theorem Move.scan {s t : State C} {a : Action C} (h : Move s a t) {c : C} {q : Slot}
    (hscanned : (t.cpu c).scanned q) : Retains s t a c q ∨ Accounts s t c q := by
  have hother : ∀ {c' : C} {cpu : Cpu} {u : State C}, c ≠ c' → u.cpu = s.cpu →
      (((u.setCpu c' cpu).cpu c).scanned q) → Retains s (u.setCpu c' cpu) (.schedule c') c q :=
    fun hc hu hq => .of_cpu (examines_of_ne hc q) (by simp [State.setCpu, hc, hu]) hq
  cases h with
  | @look c' i highest hi hcpu =>
    by_cases hc : c = c'
    · subst hc
      refine scan_look hi hcpu ?_ rfl
      simpa [State.setCpu, Cpu.scanned] using hscanned
    · exact Or.inl (hother hc rfl hscanned)
  | @chosen c' i highest hi hcpu =>
    by_cases hc : c = c'
    · -- the pass is over, and has looked at every slot
      subst hc
      have hq : q.val < i := Nat.lt_of_lt_of_le q.isLt hi
      refine Or.inl ⟨?_, ?_, by rw [hcpu]; exact hq⟩
      · simp only [examines, hcpu, decide_true, Bool.true_and, decide_eq_false_iff_not]
        omega
      · simp [State.setCpu, hcpu, Cpu.highest]
    · exact Or.inl (hother hc rfl hscanned)
  | @dispatch c' i highest hcpu | @skip c' i highest _ hcpu =>
    by_cases hc : c = c'
    · subst hc
      refine Or.inl ⟨by simp [examines, hcpu], ?_, by rw [hcpu]; trivial⟩
      simp [State.setCpu, hcpu, Cpu.highest]
    · exact Or.inl (hother hc rfl hscanned)
  | @done c' i highest hi hcpu =>
    by_cases hc : c = c'
    · subst hc
      simp [State.setCpu, Cpu.scanned] at hscanned
    · exact Or.inl (hother hc rfl hscanned)
  | yield hcpu | sleep hcpu | exit hcpu => exact Or.inl (.sched rfl hcpu rfl hscanned)
  | wakeup | kkill | setPriority | allocproc | forkFail | forkParent | forkDone | reap =>
    exact Or.inl (.of_cpu rfl rfl hscanned)

theorem bounds_step {s t : State C} {a : Action C} (hs : Bounds s) (ha : enabled s a)
    (h : exec s a = .ok t) : Bounds t := by
  obtain ⟨t, hmove, rfl⟩ := move_of_exec ha h
  intro c q hscanned hrunnable hraised
  rcases hmove.scan hscanned with ⟨hexamines, hhighest, hbefore⟩ | ⟨hproc, hle⟩
  · simp only [raisedAfter, hexamines, Bool.false_eq_true, if_false,
      Bool.or_eq_false_iff] at hraised
    obtain ⟨hwas, hpriority⟩ := not_raises hraised.2 hrunnable
    exact (hhighest.trans (hs c q hbefore hwas hraised.1)).trans hpriority
  · simp only [hproc] at hrunnable ⊢
    exact hle hrunnable

omit [DecidableEq C] in
theorem bounds_initial : Bounds (initial : State C) := by
  intro c q hscanned
  simp [initial, Cpu.scanned] at hscanned

theorem Dispatches.running {s : State C} {c : C} {i : Slot} (h : Dispatches s c i) :
    ((schedule s c).proc i).state = .running := by
  obtain ⟨highest, hcpu, hrunnable, hpriority⟩ := h
  simp [schedule, hcpu, hrunnable, hpriority, State.setCpu, State.setProc, Proc.dispatch]

theorem dispatches_iff {s : State C} {c : C} (hidle : (s.cpu c).proc? = none) {i : Slot} :
    Dispatches s c i ↔
      (s.proc i).state = .runnable ∧ ((schedule s c).proc i).state = .running := by
  refine ⟨fun h => ⟨?_, h.running⟩, ?_⟩
  · obtain ⟨_, _, hrunnable, _⟩ := h
    exact hrunnable
  · rintro ⟨hrunnable, hrunning⟩
    -- only the move that dispatches changes a slot
    have hmove := move_schedule hidle
    generalize schedule s c = t at hmove hrunning
    cases hmove with
    | look | chosen | skip | done =>
      rw [State.setCpu, hrunnable] at hrunning
      cases hrunning
    | @dispatch _ j highest hcpu hstate hpriority =>
      by_cases hij : i = j
      · subst hij
        exact ⟨highest, hcpu, hstate, hpriority⟩
      · simp only [State.setCpu, State.setProc, Function.update_of_ne hij, hrunnable] at hrunning
        cases hrunning

/-- The priority law of the two passes. At every dispatch, the chosen process
has the CPU's cached priority, and every ready process with a smaller number
became ready, or got that number while ready, after the first pass of this
round looked at its slot. -/
theorem dispatch_priority {s : State C} (h : (system C).Reachable (.ok s)) {c : C} {i : Slot}
    (hi : Dispatches s c i) :
    ((schedule s c).proc i).state = .running ∧
      ∀ q, (s.proc q).state = .runnable → (s.proc q).priority < (s.proc i).priority →
        s.raised c q = true := by
  have hs : Bounds s := h.invariant_ok Bounds (fun _ h => h ▸ bounds_initial)
    fun _ _ _ hs ha _ hexec => bounds_step hs ha hexec
  refine ⟨hi.running, fun q hq hlt => ?_⟩
  obtain ⟨highest, hcpu, -, hpriority⟩ := hi
  by_contra hraised
  have := hs c q (by simp [hcpu, Cpu.scanned]) hq (by simpa using hraised)
  rw [hcpu, Cpu.highest] at this
  omega

section Sample

def slotA : Slot := ⟨1, by decide⟩
def slotB : Slot := ⟨2, by decide⟩

def lowRun : List (Action (Fin 1)) :=
  List.replicate 66 (.schedule 0) ++
    [.allocproc 0 slotA, .forkParent 0, .forkDone 0, .allocproc 0 slotB, .forkParent 0,
      .forkDone 0, .setPriority 0 slotB 3 0, .yield 0]

def observe (s : State (Fin 1)) : Cpu × ProcState × Int × ProcState × Int :=
  (s.cpu 0, (s.proc slotA).state, (s.proc slotA).priority, (s.proc slotB).state,
    (s.proc slotB).priority)

def outcome (actions : List (Action (Fin 1))) : Option (Cpu × ProcState × Int × ProcState × Int) :=
  match (system (Fin 1)).runActions (fun _ _ => True) initial actions with
  | some (.ok s) => some (observe s)
  | _ => none

theorem reachable_of_outcome {actions : List (Action (Fin 1))}
    {x : Cpu × ProcState × Int × ProcState × Int} (h : outcome actions = some x) :
    ∃ s, (system (Fin 1)).Reachable (.ok s) ∧ observe s = x := by
  unfold outcome at h
  split at h
  · rename_i s hrun
    cases h
    exact ⟨s, System.Reach.of_runActions (.init rfl) hrun, rfl⟩
  · cases h

theorem lowRun_outcome : outcome lowRun = some (.secondPass 1 10, .runnable, 10, .runnable, 0) := by
  decide +kernel

end Sample

/-- The second pass goes on with its cached priority 10 although a ready process
has priority 0. -/
theorem dispatches_lower_priority : ∃ s : State (Fin 1), (system (Fin 1)).Reachable (.ok s) ∧
    Dispatches s 0 slotA ∧ ((schedule s 0).proc slotA).state = .running ∧
    (s.proc slotB).state = .runnable ∧ (s.proc slotB).priority < (s.proc slotA).priority := by
  obtain ⟨s, hreach, hobserve⟩ := reachable_of_outcome lowRun_outcome
  simp only [observe, Prod.mk.injEq] at hobserve
  obtain ⟨hcpu, hstateA, hpriorityA, hstateB, hpriorityB⟩ := hobserve
  have hdispatch : Dispatches s 0 slotA := ⟨10, hcpu, hstateA, hpriorityA⟩
  exact ⟨s, hreach, hdispatch, hdispatch.running, hstateB, by omega⟩

theorem dispatch_priority_raised : ∃ s : State (Fin 1), (system (Fin 1)).Reachable (.ok s) ∧
    Dispatches s 0 slotA ∧ (s.proc slotB).priority < (s.proc slotA).priority ∧
    s.raised 0 slotB = true := by
  obtain ⟨s, hreach, hobserve⟩ := reachable_of_outcome lowRun_outcome
  simp only [observe, Prod.mk.injEq] at hobserve
  obtain ⟨hcpu, hstateA, hpriorityA, hstateB, hpriorityB⟩ := hobserve
  have hdispatch : Dispatches s 0 slotA := ⟨10, hcpu, hstateA, hpriorityA⟩
  have hlt : (s.proc slotB).priority < (s.proc slotA).priority := by omega
  exact ⟨s, hreach, hdispatch, hlt, (dispatch_priority hreach hdispatch).2 slotB hstateB hlt⟩

end Xv6.Sched
