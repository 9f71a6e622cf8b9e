import Xv6.Sched.Priority

/-! Whether a new process starts out killed. `allocproc` takes `killed` as it
finds it, so this rests on free slots being clear of it; `kkill` searches by
pid alone, and a free slot has pid 0. -/
namespace Xv6.Sched

open Lib

variable {C : Type}

inductive Identity (nextpid : Int) (a : Action C) (q : Slot) (p : Proc) : Proc → Prop where
  | freed : Identity nextpid a q p (freeproc p)
  | found : p.state = .unused → Identity nextpid a q p (p.found nextpid)
  | killed {p' : Proc} (c : C) : a = .kkill c q p.pid → p'.pid = p.pid →
      (p'.state = .unused → p.state = .unused) → Identity nextpid a q p p'
  | kept {p' : Proc} : p'.pid = p.pid → p'.killed = p.killed →
      (p'.state = .unused → p.state = .unused) → Identity nextpid a q p p'

namespace Identity

variable {nextpid : Int} {a : Action C} {q : Slot} {p : Proc}

theorem refl : Identity nextpid a q p p := .kept rfl rfl id

theorem of_state {p' : Proc} (hpid : p'.pid = p.pid) (hkilled : p'.killed = p.killed)
    (hstate : p'.state ≠ .unused) : Identity nextpid a q p p' :=
  .kept hpid hkilled fun h => absurd h hstate

theorem wakeup (chan : Nat) : Identity nextpid a q p (p.wakeup chan) := by
  unfold Proc.wakeup
  split
  · exact of_state rfl rfl nofun
  · exact refl

theorem setPriority (pid value : Int) : Identity nextpid a q p (p.setPriority pid value) := by
  unfold Proc.setPriority
  split
  · exact .kept rfl rfl id
  · exact refl

theorem kill (c : C) (pid : Int) : Identity nextpid (.kkill c q pid) q p (p.kill pid) := by
  unfold Proc.kill
  split
  · rename_i hpid
    refine .killed c (by rw [hpid]) rfl ?_
    dsimp only
    split
    · exact nofun
    · exact id
  · exact refl

theorem update {proc : Slot → Proc} {i : Slot} {p' : Proc}
    (hi : Identity nextpid a i (proc i) p') (q : Slot) :
    Identity nextpid a q (proc q) (Function.update proc i p' q) := by
  by_cases hq : q = i
  · subst hq
    rwa [Function.update_self]
  · rw [Function.update_of_ne hq]
    exact refl

theorem reparent (s : State C) (i : Slot) :
    Identity nextpid a q (s.proc q) ((s.reparent i).proc q) := by
  simp only [State.reparent]
  split
  · exact .kept rfl rfl id
  · exact refl

end Identity

variable [DecidableEq C]

theorem Move.identity {s t : State C} {a : Action C} (h : Move s a t) (q : Slot) :
    Identity s.nextpid a q (s.proc q) (t.proc q) := by
  cases h with
  | look | chosen | skip | done => exact .refl
  | dispatch | yield | sleep =>
    refine .update ?_ q
    exact .of_state rfl rfl (by simp [Proc.dispatch])
  | @exit c i =>
    -- the exiting process itself may be among those given a new parent
    by_cases hq : q = i
    · subst hq
      have hself : ((s.reparent q).proc q).pid = (s.proc q).pid ∧
          ((s.reparent q).proc q).killed = (s.proc q).killed := by
        simp only [State.reparent]
        split <;> exact ⟨rfl, rfl⟩
      refine .of_state ?_ ?_ ?_ <;> simp [State.sched, State.setCpu, State.setProc, hself]
    · simp only [State.sched, State.setCpu, State.setProc, Function.update_of_ne hq]
      exact .reparent s i
  | wakeup => exact .update (.wakeup _) q
  | kkill => exact .update (.kill _ _) q
  | setPriority => exact .update (.setPriority _ _) q
  | allocproc _ _ hunused => exact .update (.found hunused) q
  | forkFail | reap => exact .update .freed q
  | forkParent =>
    refine .update ?_ q
    exact .kept rfl rfl id
  | forkDone =>
    refine .update ?_ q
    exact .of_state rfl rfl (by simp)

theorem identity_exec {s t : State C} {a : Action C} (h : exec s a = .ok t) (ha : enabled s a)
    (q : Slot) : Identity s.nextpid a q (s.proc q) (t.proc q) := by
  obtain ⟨u, hmove, rfl⟩ := move_of_exec ha h
  exact hmove.identity q

def NoKillZero (_ : State C) (a : Action C) : Prop := ∀ c q, a ≠ .kkill c q 0

def Clear (s : State C) : Prop :=
  ∀ q, (s.proc q).state = .unused → (s.proc q).pid = 0 ∧ (s.proc q).killed = false

omit [DecidableEq C] in
theorem clear_initial : Clear (initial : State C) := by
  intro q hq
  simp only [initial] at hq ⊢
  split at hq
  · cases hq
  · rename_i hinit
    simp [hinit, Proc.empty]

theorem Clear.step {s t : State C} {a : Action C} (hs : Clear s) (ha : enabled s a)
    (hallowed : NoKillZero s a) (h : exec s a = .ok t) : Clear t := by
  intro q hq
  have hidentity := identity_exec h ha q
  generalize t.proc q = p' at hidentity hq
  cases hidentity with
  | freed => exact ⟨rfl, rfl⟩
  | found => cases hq
  | killed c hkill _ hunused =>
    rw [(hs q (hunused hq)).1] at hkill
    exact absurd hkill (hallowed c q)
  | kept hpid hkilled hunused =>
    rw [hpid, hkilled]
    exact hs q (hunused hq)

/-- From `allocproc` until the slot is freed, only `kkill` with its pid marks a process. -/
def Unmarked (q : Slot) (pid : Int) (s : State C) : Prop :=
  (s.proc q).killed = false ∧ ((s.proc q).state ≠ .unused → (s.proc q).pid = pid)

theorem Unmarked.step {s t : State C} {a : Action C} {q : Slot} {pid : Int}
    (hs : Unmarked q pid s) (hused : (s.proc q).state ≠ .unused) (hkill : ∀ c, a ≠ .kkill c q pid)
    (ha : enabled s a) (h : exec s a = .ok t) : Unmarked q pid t := by
  have hpid := hs.2 hused
  have hidentity := identity_exec h ha q
  unfold Unmarked
  generalize t.proc q = p' at hidentity
  cases hidentity with
  | freed => exact ⟨rfl, fun h => absurd rfl h⟩
  | found hunused => exact absurd hunused hused
  | killed c hk => exact absurd (hpid ▸ hk) (hkill c)
  | kept hpid' hkilled _ => exact ⟨hkilled.trans hs.1, fun _ => hpid'.trans hpid⟩

/-- While nobody kills pid 0, free slots are not killed; so a process is not
killed when `allocproc` makes it, nor later unless `kkill` names its pid. -/
theorem new_process_unkilled {s : State C} (h : (system C).Reach NoKillZero (.ok s)) :
    (∀ q, (s.proc q).state = .unused → (s.proc q).killed = false) ∧
    ∀ c q t, enabled s (.allocproc c q) → exec s (.allocproc c q) = .ok t →
      (t.proc q).killed = false ∧
      ∀ steps u, (system C).Path NoKillZero t steps u →
        (∀ x ∈ steps, (x.1.proc q).state ≠ .unused) → (u.proc q).killed = true →
        ∃ x ∈ steps, ∃ c, x.2 = .kkill c q (t.proc q).pid := by
  have hclear : Clear s := h.invariant_ok Clear (fun _ h => h ▸ clear_initial)
    fun _ _ _ hs ha hallowed hexec => hs.step ha hallowed hexec
  refine ⟨fun q hq => (hclear q hq).2, fun c q t ha hexec => ?_⟩
  have hnew : (t.proc q).killed = false := by
    have hunused : (s.proc q).state = .unused := ha.2
    have hidentity := identity_exec hexec ha q
    generalize t.proc q = p' at hidentity
    cases hidentity with
    | freed => rfl
    | found => exact (hclear q hunused).2
    | killed _ hkill => cases hkill
    | kept _ hkilled _ => exact hkilled.trans (hclear q hunused).2
  refine ⟨hnew, fun steps u hpath hused hkilled => ?_⟩
  by_contra hno
  push Not at hno
  have hu := hpath.invariant (Unmarked q (t.proc q).pid) ⟨hnew, fun _ => rfl⟩
    (fun x => (x.1.proc q).state ≠ .unused ∧ ∀ c, x.2 ≠ .kkill c q (t.proc q).pid)
    (fun _ _ _ hs hP ha _ hexec => hs.step hP.1 hP.2 ha hexec)
    fun x hx => ⟨hused x hx, hno x hx⟩
  rw [hu.1] at hkilled
  cases hkilled

section Sample

instance (s : State C) (a : Action C) : Decidable (NoKillZero s a) :=
  match a with
  | .kkill c q pid =>
      if h : pid = 0 then .isFalse fun hno => hno c q (by rw [h])
      else .isTrue fun _ _ heq => h (by cases heq; rfl)
  | .schedule _ | .yield _ | .sleep _ _ | .exit _ _ | .wakeup _ _ | .setPriority _ _ _ _
  | .allocproc _ _ | .forkFail _ | .forkParent _ | .forkDone _ | .reap _ _ => .isTrue nofun

def startRun : List (Action (Fin 1)) := List.replicate 66 (.schedule 0)

def observeKilled (s : State (Fin 1)) : Option Slot × Option Forking × ProcState × Bool :=
  ((s.cpu 0).proc?, s.forking initproc, (s.proc slotA).state, (s.proc slotA).killed)

theorem killZero_observed : (system (Fin 1)).observed (fun _ _ => True) observeKilled initial
    (startRun ++ [.kkill 0 initproc 0, .kkill 0 slotA 0]) =
      some (some initproc, none, .unused, true) := by
  decide +kernel

def observeMarked (s : State (Fin 1)) : Bool × Option Bool :=
  (decide (enabled s (.allocproc 0 slotA)),
    match exec s (.allocproc 0 slotA) with
    | .ok t =>
        (system (Fin 1)).observedPath NoKillZero
          (fun steps u => decide ((∀ x ∈ steps, (x.1.proc slotA).state ≠ .unused) ∧
            (u.proc slotA).killed = true)) t
          [.forkParent 0, .forkDone 0, .kkill 0 initproc 2, .kkill 0 slotA 2]
    | .error _ => none)

theorem marked_observed : (system (Fin 1)).observed NoKillZero observeMarked initial
    (startRun ++ [.kkill 0 initproc 2, .kkill 0 slotA 2]) = some (true, some true) := by
  decide +kernel

theorem enabled_allocproc_sample {s : State (Fin 1)} (hcpu : (s.cpu 0).proc? = some initproc)
    (hforking : s.forking initproc = none) (hunused : (s.proc slotA).state = .unused) :
    enabled s (.allocproc 0 slotA) :=
  ⟨⟨initproc, hcpu, hforking⟩, hunused⟩

end Sample

/-- A free slot can be marked, and the next child made in it starts out killed. -/
theorem kill_zero_marks_child : ∃ s t : State (Fin 1), (system (Fin 1)).Reachable (.ok s) ∧
    (s.proc slotA).state = .unused ∧ (s.proc slotA).killed = true ∧
    enabled s (.allocproc 0 slotA) ∧ exec s (.allocproc 0 slotA) = .ok t ∧
    (t.proc slotA).state = .used ∧ (t.proc slotA).killed = true := by
  obtain ⟨s, hreach, hobserve⟩ := System.Reach.of_observed (.init rfl) killZero_observed
  simp only [observeKilled, Prod.mk.injEq] at hobserve
  obtain ⟨hcpu, hforking, hunused, hkilled⟩ := hobserve
  have hexec : ∃ t, exec s (.allocproc 0 slotA) = .ok t ∧
      t.proc slotA = (s.proc slotA).found s.nextpid := by
    simp [exec, act, hcpu, bind, Except.bind, pure, Except.pure, State.setForking, State.setProc]
  obtain ⟨t, hexec, ht⟩ := hexec
  refine ⟨s, t, hreach, hunused, hkilled, enabled_allocproc_sample hcpu hforking hunused, hexec, ?_⟩
  rw [ht]
  exact ⟨rfl, hkilled⟩

theorem new_process_unkilled_start : ∃ (s t : State (Fin 1)) (steps : _) (u : State (Fin 1)),
    (system (Fin 1)).Reach NoKillZero (.ok s) ∧ exec s (.allocproc 0 slotA) = .ok t ∧
    (t.proc slotA).killed = false ∧ (system (Fin 1)).Path NoKillZero t steps u ∧
    (u.proc slotA).killed = true ∧ ∃ x ∈ steps, ∃ c, x.2 = .kkill c slotA (t.proc slotA).pid := by
  obtain ⟨s, hreach, hobserved⟩ := System.Reach.of_observed (.init rfl) marked_observed
  simp only [observeMarked, Prod.mk.injEq, decide_eq_true_eq] at hobserved
  obtain ⟨henabled, hpath⟩ := hobserved
  split at hpath
  · rename_i t hexec
    obtain ⟨steps, u, hpath, hmarked⟩ := System.Path.of_observedPath hpath
    obtain ⟨hused, hkilled⟩ := of_decide_eq_true hmarked
    obtain ⟨hnew, hlater⟩ := (new_process_unkilled hreach).2 0 slotA t henabled hexec
    exact ⟨s, t, steps, u, hreach, hexec, hnew, hpath, hkilled, hlater steps u hpath hused hkilled⟩
  · cases hpath

end Xv6.Sched
