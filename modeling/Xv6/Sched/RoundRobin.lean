import Xv6.Sched.Priority
import Mathlib.Data.List.Nodup

/-! Turns on one CPU. The second pass visits the slots in order and never goes
back, so a slot behind the cursor waits for the next round and a slot ahead of
it is dispatched in this one; the order of two slots of equal priority
therefore alternates. -/
namespace Xv6.Sched

open Lib

/-- The slot that a step of `scheduler()` moves from RUNNABLE to RUNNING. -/
def dispatched : State (Fin 1) × Action (Fin 1) → Option Slot
  | (s, .schedule _) =>
      match s.cpu 0 with
      | .secondPass i highest =>
          if h : i < nproc then
            let p := s.proc ⟨i, h⟩
            if p.state = .runnable ∧ p.priority = highest then some ⟨i, h⟩ else none
          else none
      | _ => none
  | _ => none

def dispatches (steps : List (State (Fin 1) × Action (Fin 1))) : List Slot :=
  steps.filterMap dispatched

def Sees : State (Fin 1) × Action (Fin 1) → Prop
  | (s, .schedule _) =>
      match s.cpu 0 with
      | .firstPass i _ => ∃ h : i < nproc, (s.proc ⟨i, h⟩).state = .runnable
      | _ => False
  | _ => False

/-- The outer loop of `scheduler()` goes on to its next iteration. -/
def Ends : State (Fin 1) × Action (Fin 1) → Prop
  | (s, .schedule _) =>
      match s.cpu 0 with
      | .secondPass i _ => nproc ≤ i
      | _ => False
  | _ => False

/-- RUNNABLE, except while it is dispatched. -/
def Waits (s : State (Fin 1)) (q : Slot) : Prop :=
  (s.proc q).state = .runnable ∨ (s.cpu 0).proc? = some q

inductive Turn (s t : State (Fin 1)) : Action (Fin 1) → Prop where
  | look {i : Nat} {highest : Int} (hi : i < nproc) : s.cpu 0 = .firstPass i highest →
      t.proc = s.proc →
      t.cpu 0 = .firstPass (i + 1)
        (if (s.proc ⟨i, hi⟩).state = .runnable ∧ (s.proc ⟨i, hi⟩).priority < highest
          then (s.proc ⟨i, hi⟩).priority else highest) →
      Turn s t (.schedule 0)
  | chosen {i : Nat} {highest : Int} : nproc ≤ i → s.cpu 0 = .firstPass i highest →
      t.proc = s.proc → t.cpu 0 = .secondPass 0 highest → Turn s t (.schedule 0)
  | dispatch {i : Slot} {highest : Int} : s.cpu 0 = .secondPass i highest →
      (s.proc i).state = .runnable → (s.proc i).priority = highest →
      t.cpu 0 = .running i highest → Turn s t (.schedule 0)
  | skip {i : Nat} {highest : Int} (hi : i < nproc) : s.cpu 0 = .secondPass i highest →
      ¬((s.proc ⟨i, hi⟩).state = .runnable ∧ (s.proc ⟨i, hi⟩).priority = highest) →
      t.proc = s.proc → t.cpu 0 = .secondPass (i + 1) highest → Turn s t (.schedule 0)
  | done {i : Nat} {highest : Int} : nproc ≤ i → s.cpu 0 = .secondPass i highest →
      t.cpu 0 = .firstPass 0 noPriority → Turn s t (.schedule 0)
  | leave {a : Action (Fin 1)} {i : Slot} {highest : Int} : a ≠ .schedule 0 →
      s.cpu 0 = .running i highest → t.cpu 0 = .secondPass (i + 1) highest → Turn s t a
  | work {a : Action (Fin 1)} {i : Slot} {highest : Int} : a ≠ .schedule 0 →
      s.cpu 0 = .running i highest → t.cpu 0 = .running i highest → Turn s t a
  | wakeup {q : Slot} {chan : Nat} : t.cpu 0 = s.cpu 0 →
      t.proc = Function.update s.proc q ((s.proc q).wakeup chan) → Turn s t (.wakeup q chan)

theorem Move.turn {s t u : State (Fin 1)} {a : Action (Fin 1)} (h : Move s a u)
    (hproc : t.proc = u.proc) (hnext : t.cpu 0 = u.cpu 0) : Turn s t a := by
  have hone : ∀ c : Fin 1, c = 0 := fun c => Subsingleton.elim c 0
  cases h with
  | @look c i highest hi hcpu =>
    cases hone c
    exact .look hi hcpu hproc (hnext.trans (State.cpu_setCpu _ _ _))
  | @chosen c i highest hi hcpu =>
    cases hone c
    exact .chosen hi hcpu hproc (hnext.trans (State.cpu_setCpu _ _ _))
  | @dispatch c i highest hcpu hstate hpriority =>
    cases hone c
    exact .dispatch hcpu hstate hpriority (hnext.trans (State.cpu_setCpu _ _ _))
  | @skip c i highest hi hcpu hp =>
    cases hone c
    exact .skip hi hcpu hp hproc (hnext.trans (State.cpu_setCpu _ _ _))
  | @done c i highest hi hcpu =>
    cases hone c
    exact .done hi hcpu (hnext.trans (State.cpu_setCpu _ _ _))
  | @yield c i highest hcpu | @sleep c i highest _ hcpu | @exit c i highest _ hcpu =>
    cases hone c
    exact .leave nofun hcpu (hnext.trans (State.cpu_setCpu _ _ _))
  | wakeup => exact .wakeup hnext hproc
  | @kkill c _ _ _ _ hcpu | @setPriority c _ _ _ _ _ hcpu | @allocproc c _ _ _ hcpu
  | @forkFail c _ _ _ hcpu | @forkParent c _ _ _ hcpu | @forkDone c _ _ _ hcpu
  | @reap c _ _ _ hcpu =>
    cases hone c
    exact .work nofun hcpu (hnext.trans hcpu)

theorem turn_exec {s t : State (Fin 1)} {a : Action (Fin 1)} (ha : enabled s a)
    (h : exec s a = .ok t) : Turn s t a := by
  obtain ⟨u, hmove, rfl⟩ := move_of_exec ha h
  exact hmove.turn rfl rfl

theorem dispatched_eq_some {s : State (Fin 1)} {a : Action (Fin 1)} {q : Slot} :
    dispatched (s, a) = some q ↔ (∃ c, a = .schedule c) ∧ Dispatches s 0 q := by
  constructor
  · intro h
    unfold dispatched at h
    split at h
    · rename_i s' c hx
      cases hx
      refine ⟨⟨c, rfl⟩, ?_⟩
      split at h
      · rename_i i highest hcpu
        split at h
        · dsimp only at h
          split at h
          · rename_i hp
            cases h
            exact ⟨highest, hcpu, hp⟩
          · cases h
        · cases h
      · cases h
    · cases h
  · rintro ⟨⟨c, rfl⟩, highest, hcpu, hstate, hpriority⟩
    simp [dispatched, hcpu, hstate, hpriority]

theorem dispatches_snoc (steps : List (State (Fin 1) × Action (Fin 1)))
    (x : State (Fin 1) × Action (Fin 1)) :
    dispatches (steps ++ [x]) = dispatches steps ++ (dispatched x).toList := by
  cases hx : dispatched x <;> simp [dispatches, List.filterMap_append, hx]

theorem Turn.running {s t : State (Fin 1)} {a : Action (Fin 1)} (h : Turn s t a) {q : Slot}
    (hq : dispatched (s, a) = some q) : t.cpu 0 = .running q (s.proc q).priority := by
  obtain ⟨-, highest, hat, hstate, hpriority⟩ := dispatched_eq_some.mp hq
  cases h with
  | look _ hcpu | chosen _ hcpu | leave _ hcpu | work _ hcpu =>
    rw [hat] at hcpu
    cases hcpu
  | @dispatch i _ hcpu _ _ hnext =>
    rw [hat] at hcpu
    injection hcpu with hi hhighest
    rw [hnext, ← hhighest, ← hpriority, Fin.ext hi]
  | skip hi hcpu hp =>
    rw [hat] at hcpu
    injection hcpu with hi hhighest
    subst hi hhighest
    exact absurd ⟨hstate, hpriority⟩ hp
  | done hi hcpu =>
    rw [hat] at hcpu
    injection hcpu with hq
    omega
  | wakeup => cases hq

section Iteration

def Cpu.reached (q : Slot) : Cpu → Prop
  | .firstPass _ _ => False
  | .secondPass i _ => q.val < i
  | .running i _ => q ≤ i

theorem Turn.reached {s t : State (Fin 1)} {a : Action (Fin 1)} (h : Turn s t a)
    (hends : ¬Ends (s, a)) {q : Slot} (hq : (s.cpu 0).reached q) :
    (t.cpu 0).reached q ∧ (t.cpu 0).highest = (s.cpu 0).highest := by
  cases h with
  | look hi hcpu _ hnext | chosen hi hcpu _ hnext =>
    rw [hcpu] at hq
    exact hq.elim
  | dispatch hcpu _ _ hnext =>
    rw [hcpu] at hq ⊢
    rw [hnext]
    exact ⟨Nat.le_of_lt hq, rfl⟩
  | skip hi hcpu _ _ hnext =>
    rw [hcpu] at hq ⊢
    rw [hnext]
    exact ⟨Nat.lt_succ_of_lt hq, rfl⟩
  | done hi hcpu hnext => exact absurd (by simpa [Ends, hcpu] using hi) hends
  | leave _ hcpu hnext =>
    rw [hcpu] at hq ⊢
    rw [hnext]
    exact ⟨Nat.lt_succ_of_le hq, rfl⟩
  | work _ hcpu hnext =>
    rw [hcpu] at hq ⊢
    rw [hnext]
    exact ⟨hq, rfl⟩
  | wakeup hnext _ =>
    rw [hnext]
    exact ⟨hq, rfl⟩

theorem Turn.ends {s t : State (Fin 1)} {a : Action (Fin 1)} (h : Turn s t a)
    (hends : Ends (s, a)) (q : Slot) : (s.cpu 0).reached q ∧ ¬(t.cpu 0).reached q := by
  unfold Ends at hends
  split at hends
  · rename_i s' c hx
    cases hx
    split at hends
    · rename_i i highest hat
      cases h with
      | look _ hcpu | chosen _ hcpu | leave _ hcpu | work _ hcpu =>
        rw [hat] at hcpu
        cases hcpu
      | @dispatch j _ hcpu =>
        rw [hat] at hcpu
        injection hcpu with hj
        omega
      | skip hj hcpu =>
        rw [hat] at hcpu
        injection hcpu with hj
        omega
      | done _ _ hnext =>
        rw [hat, hnext]
        exact ⟨Nat.lt_of_lt_of_le q.isLt hends, id⟩
    · exact hends.elim
  · exact hends.elim

theorem Dispatches.not_reached {s : State (Fin 1)} {q : Slot} (h : Dispatches s 0 q) :
    ¬(s.cpu 0).reached q := by
  obtain ⟨highest, hcpu, -⟩ := h
  rw [hcpu]
  exact Nat.lt_irrefl _

theorem dispatches_nodup {s t : State (Fin 1)} {steps : List (State (Fin 1) × Action (Fin 1))}
    (h : (system (Fin 1)).Path (fun _ _ => True) s steps t) (hends : ∀ x ∈ steps, ¬Ends x) :
    (dispatches steps).Nodup ∧ ∀ q ∈ dispatches steps, (t.cpu 0).reached q := by
  refine h.invariant_steps
    (fun steps t => (dispatches steps).Nodup ∧ ∀ q ∈ dispatches steps, (t.cpu 0).reached q)
    ⟨List.nodup_nil, nofun⟩ (fun x => ¬Ends x) ?_ hends
  intro steps t a u ⟨hnodup, hreached⟩ hends ha _ hexec
  have hturn := turn_exec ha hexec
  rw [dispatches_snoc]
  cases hq : dispatched (t, a) with
  | none =>
    rw [Option.toList_none, List.append_nil]
    exact ⟨hnodup, fun q hq => (hturn.reached hends (hreached q hq)).1⟩
  | some q =>
    rw [Option.toList_some]
    constructor
    · have hnew : q ∉ dispatches steps := fun hmem =>
        (dispatched_eq_some.mp hq).2.not_reached (hreached q hmem)
      exact List.nodup_append.mpr ⟨hnodup, List.nodup_singleton q, by
        rintro x hx y hy rfl
        exact hnew (List.mem_singleton.mp hy ▸ hx)⟩
    · intro x hx
      rcases List.mem_append.mp hx with hx | hx
      · exact (hturn.reached hends (hreached x hx)).1
      · rw [List.mem_singleton.mp hx, hturn.running hq]
        exact le_refl q

def Ranged (s : State (Fin 1)) : Prop := ∀ q, validPriority (s.proc q).priority

theorem Ranged.setProc {s : State (Fin 1)} (hs : Ranged s) {i : Slot} {p : Proc}
    (hp : validPriority p.priority) : Ranged (s.setProc i p) := by
  intro q
  by_cases hq : q = i
  · subst hq
    simpa [State.setProc] using hp
  · simpa [State.setProc, Function.update_of_ne hq] using hs q

theorem Ranged.move {s t : State (Fin 1)} {a : Action (Fin 1)} (hs : Ranged s) (h : Move s a t) :
    Ranged t := by
  cases h with
  | look | chosen | skip | done => exact hs
  | dispatch | yield | sleep | forkFail | forkParent | forkDone | reap => exact hs.setProc (hs _)
  | exit =>
    have hreparent : ∀ i, Ranged (s.reparent i) := by
      intro i q
      simp only [State.reparent]
      split <;> exact hs q
    exact (hreparent _).setProc (hreparent _ _)
  | @wakeup q chan =>
    refine hs.setProc ?_
    unfold Proc.wakeup
    split <;> exact hs q
  | @kkill _ _ q =>
    refine hs.setProc ?_
    unfold Proc.kill
    split <;> exact hs q
  | @setPriority _ _ q _ _ _ _ hvalid =>
    refine hs.setProc ?_
    unfold Proc.setPriority
    split
    · exact hvalid
    · exact hs q
  | allocproc => exact hs.setProc (by simp [Proc.found, validPriority])

theorem Ranged.reach {s : State (Fin 1)} (h : (system (Fin 1)).Reachable (.ok s)) : Ranged s := by
  refine h.invariant_ok Ranged ?_ fun s a t hs ha _ hexec => ?_
  · rintro s rfl q
    simp only [initial]
    split <;> simp [Proc.found, Proc.empty, validPriority]
  · obtain ⟨u, hmove, rfl⟩ := move_of_exec ha hexec
    have hu : Ranged u := hs.move hmove
    exact hu

def Candidate (s : State (Fin 1)) (highest : Int) (P : Slot → Prop) : Prop :=
  ∃ q, P q ∧ (s.proc q).state = .runnable ∧ (s.proc q).priority = highest

theorem Candidate.imp {s : State (Fin 1)} {highest : Int} {P P' : Slot → Prop}
    (h : Candidate s highest P)
    (himp : ∀ q, P q → (s.proc q).state = .runnable → (s.proc q).priority = highest → P' q) :
    Candidate s highest P' := by
  obtain ⟨q, hq, hstate, hpriority⟩ := h
  exact ⟨q, himp q hq hstate hpriority, hstate, hpriority⟩

theorem Candidate.of_proc {s t : State (Fin 1)} (hproc : t.proc = s.proc) {highest : Int}
    {P : Slot → Prop} (h : Candidate s highest P) : Candidate t highest P := by
  unfold Candidate
  rwa [hproc]

theorem Candidate.wakeup {s t : State (Fin 1)} {i : Slot} {chan : Nat}
    (hproc : t.proc = Function.update s.proc i ((s.proc i).wakeup chan)) {highest : Int}
    {P : Slot → Prop} (h : Candidate s highest P) : Candidate t highest P := by
  obtain ⟨q, hq, hstate, hpriority⟩ := h
  have hsame : t.proc q = s.proc q := by
    rw [hproc]
    by_cases hqi : q = i
    · subst hqi
      simp [Proc.wakeup, hstate]
    · exact Function.update_of_ne hqi _ _
  exact ⟨q, hq, by rw [hsame, hstate], by rw [hsame, hpriority]⟩

/-- Before the first dispatch of an iteration, if the first pass has seen a
RUNNABLE process, then one with priority `highest` is still to be visited. -/
def Pending (seen : Prop) (s : State (Fin 1)) : Prop :=
  match s.cpu 0 with
  | .firstPass i highest =>
      (highest = noPriority ∧ ¬seen) ∨ Candidate s highest fun q => q.val < i
  | .secondPass i highest => ¬seen ∨ Candidate s highest fun q => i ≤ q.val
  | .running _ _ => False

theorem Pending.look {s t : State (Fin 1)} {seen : Prop} {i : Nat} {highest : Int}
    (hs : Pending seen s) (hrange : Ranged s) (hi : i < nproc)
      (hcpu : s.cpu 0 = .firstPass i highest)
    (hproc : t.proc = s.proc)
    (hnext : t.cpu 0 = .firstPass (i + 1)
      (if (s.proc ⟨i, hi⟩).state = .runnable ∧ (s.proc ⟨i, hi⟩).priority < highest
        then (s.proc ⟨i, hi⟩).priority else highest)) :
    Pending (seen ∨ Sees (s, .schedule 0)) t := by
  simp only [Pending, hcpu] at hs
  simp only [Pending, hnext]
  by_cases hrunnable : (s.proc ⟨i, hi⟩).state = .runnable
  · by_cases hlt : (s.proc ⟨i, hi⟩).priority < highest
    · rw [if_pos ⟨hrunnable, hlt⟩]
      exact Or.inr (.of_proc hproc ⟨⟨i, hi⟩, Nat.lt_succ_self i, hrunnable, rfl⟩)
    · rw [if_neg fun h => hlt h.2]
      rcases hs with ⟨hnone, -⟩ | hs
      · -- no priority reaches the start value
        have hvalid := hrange ⟨i, hi⟩
        simp only [validPriority, noPriority] at hvalid hnone
        omega
      · exact Or.inr (.of_proc hproc (hs.imp fun q hq _ _ => Nat.lt_succ_of_lt hq))
  · rw [if_neg fun h => hrunnable h.1]
    refine hs.imp (And.imp_right fun hseen => ?_)
      fun hs => .of_proc hproc (hs.imp fun q hq _ _ => Nat.lt_succ_of_lt hq)
    rintro (h | h)
    · exact hseen h
    · simp only [Sees, hcpu] at h
      exact hrunnable h.2

theorem Pending.turn {s t : State (Fin 1)} {a : Action (Fin 1)} {seen : Prop} (h : Turn s t a)
    (hs : Pending seen s) (hrange : Ranged s) (hends : ¬Ends (s, a))
    (hnone : dispatched (s, a) = none) : Pending (seen ∨ Sees (s, a)) t := by
  cases h with
  | look hi hcpu hproc hnext => exact hs.look hrange hi hcpu hproc hnext
  | chosen hi hcpu hproc hnext =>
    simp only [Pending, hcpu] at hs
    have hsees : ¬Sees (s, .schedule 0) := by
      simp only [Sees, hcpu]
      rintro ⟨hlt, -⟩
      omega
    simp only [Pending, hnext, or_iff_left hsees]
    exact hs.imp And.right fun hs => .of_proc hproc (hs.imp fun q _ _ _ => Nat.zero_le _)
  | dispatch hcpu hstate hpriority _ =>
    rw [dispatched_eq_some.mpr ⟨⟨0, rfl⟩, _, hcpu, hstate, hpriority⟩] at hnone
    cases hnone
  | @skip i highest hi hcpu hp hproc hnext =>
    simp only [Pending, hcpu] at hs
    have hsees : ¬Sees (s, .schedule 0) := by simp [Sees, hcpu]
    simp only [Pending, hnext, or_iff_left hsees]
    refine hs.imp_right fun hs => .of_proc hproc (hs.imp fun q hq hstate hpriority => ?_)
    have hne : i ≠ q.val := by
      rintro rfl
      exact hp ⟨hstate, hpriority⟩
    omega
  | done hi hcpu _ => exact absurd (by simpa [Ends, hcpu] using hi) hends
  | leave _ hcpu _ | work _ hcpu _ =>
    simp only [Pending, hcpu] at hs
  | wakeup hnext hproc =>
    have hsees : ∀ q chan, ¬Sees (s, .wakeup q chan) := fun _ _ h => h
    simp only [or_iff_left (hsees _ _)]
    cases hcpu : s.cpu 0 with
    | firstPass i highest | secondPass i highest =>
      simp only [Pending, hnext, hcpu] at hs ⊢
      exact hs.imp_right (Candidate.wakeup hproc)
    | running i highest => simp only [Pending, hcpu] at hs

theorem pending_iteration {s : State (Fin 1)} (hreach : (system (Fin 1)).Reachable (.ok s))
    (hs : s.cpu 0 = .firstPass 0 noPriority) {steps : List (State (Fin 1) × Action (Fin 1))}
    {t : State (Fin 1)} (h : (system (Fin 1)).Path (fun _ _ => True) s steps t)
    (hends : ∀ x ∈ steps, ¬Ends x) :
    dispatches steps = [] → Pending (∃ x ∈ steps, Sees x) t := by
  refine (h.invariant_steps (fun steps t => (system (Fin 1)).Reachable (.ok t) ∧
    (dispatches steps = [] → Pending (∃ x ∈ steps, Sees x) t)) ⟨hreach, fun _ => ?_⟩
    (fun x => ¬Ends x) ?_ hends).2
  · simp [Pending, hs]
  · intro steps t a u ⟨ht, ih⟩ hends ha _ hexec
    refine ⟨hexec ▸ System.Reach.step ht ha trivial, fun hnone => ?_⟩
    rw [dispatches_snoc, List.append_eq_nil_iff, Option.toList_eq_nil_iff] at hnone
    have hstep := Pending.turn (turn_exec ha hexec) (ih hnone.1) (.reach ht) hends hnone.2
    simpa [or_and_right, exists_or] using hstep

end Iteration

section Interval

def Cpu.past (pr : Int) (q : Slot) (cpu : Cpu) : Prop := cpu.highest = pr ∧ cpu.reached q

theorem Turn.past_from {s t : State (Fin 1)} {a : Action (Fin 1)} (h : Turn s t a) {pr : Int}
    {q : Slot} (hpriority : (s.proc q).priority = pr) (hwaits : Waits s q)
    (hq : (t.cpu 0).past pr q) : (s.cpu 0).past pr q ∨ dispatched (s, a) = some q := by
  obtain ⟨hround, hreached⟩ := hq
  cases h with
  | look hi hcpu _ hnext | done hi hcpu hnext =>
    rw [hnext] at hreached
    exact hreached.elim
  | chosen hi hcpu _ hnext =>
    rw [hnext] at hreached
    exact absurd hreached (Nat.not_lt_zero _)
  | @dispatch i highest hcpu hstate hpr hnext =>
    rw [hnext] at hround hreached
    rcases lt_or_eq_of_le hreached with hlt | rfl
    · rw [hcpu]
      exact Or.inl ⟨hround, hlt⟩
    · exact Or.inr (dispatched_eq_some.mpr ⟨⟨0, rfl⟩, highest, hcpu, hstate, hpr⟩)
  | @skip i highest hi hcpu hp _ hnext =>
    rw [hnext] at hround hreached
    rw [hcpu]
    refine Or.inl ⟨hround, lt_of_le_of_ne (Nat.le_of_lt_succ hreached) ?_⟩
    rintro rfl
    rcases hwaits with hstate | hrunning
    · exact hp ⟨hstate, hpriority.trans hround.symm⟩
    · rw [hcpu] at hrunning
      cases hrunning
  | leave _ hcpu hnext =>
    rw [hnext] at hround hreached
    rw [hcpu]
    exact Or.inl ⟨hround, Nat.le_of_lt_succ hreached⟩
  | work _ hcpu hnext =>
    rw [hnext] at hround hreached
    rw [hcpu]
    exact Or.inl ⟨hround, hreached⟩
  | wakeup hnext _ =>
    rw [hnext] at hround hreached
    exact Or.inl ⟨hround, hreached⟩

theorem Turn.past_to {s t : State (Fin 1)} {a : Action (Fin 1)} (h : Turn s t a) {pr : Int}
    {q : Slot} (hq : (s.cpu 0).past pr q) :
    (t.cpu 0).past pr q ∨ ∀ x, (s.cpu 0).past pr x ∧ ¬(t.cpu 0).past pr x := by
  by_cases hends : Ends (s, a)
  · exact Or.inr fun x => ⟨⟨hq.1, (h.ends hends x).1⟩, fun hx => (h.ends hends x).2 hx.2⟩
  · obtain ⟨hreached, hhighest⟩ := h.reached hends hq.2
    exact Or.inl ⟨hhighest.trans hq.1, hreached⟩

theorem Dispatches.past_iff {s : State (Fin 1)} {p : Slot} (h : Dispatches s 0 p) {pr : Int}
    (hpriority : (s.proc p).priority = pr) (q : Slot) : (s.cpu 0).past pr q ↔ q < p := by
  obtain ⟨highest, hcpu, -, rfl⟩ := h
  rw [hcpu]
  exact and_iff_right hpriority

theorem Turn.past_iff {s t : State (Fin 1)} {a : Action (Fin 1)} (h : Turn s t a) {p : Slot}
    (hp : dispatched (s, a) = some p) {pr : Int} (hpriority : (s.proc p).priority = pr) (q : Slot) :
    (t.cpu 0).past pr q ↔ q ≤ p := by
  rw [h.running hp]
  exact and_iff_right hpriority

def Peer (pr : Int) (q : Slot) (s : State (Fin 1)) : Prop := (s.proc q).priority = pr ∧ Waits s q

theorem count_dispatches_snoc (steps : List (State (Fin 1) × Action (Fin 1)))
    (x : State (Fin 1) × Action (Fin 1)) (q : Slot) :
    (dispatches (steps ++ [x])).count q =
      (dispatches steps).count q + if dispatched x = some q then 1 else 0 := by
  rw [dispatches_snoc, List.count_append]
  cases dispatched x with
  | none => simp
  | some y => simp [List.count_singleton]

variable {p q : Slot} {pr : Int} {s t : State (Fin 1)}
  {steps : List (State (Fin 1) × Action (Fin 1))}

theorem owed_ahead (h : (system (Fin 1)).Path (fun _ _ => True) s steps t)
    (hp : (s.cpu 0).past pr p) (hq : ¬(s.cpu 0).past pr q)
    (hpeer : ∀ x ∈ steps, Peer pr q x.1) :
    (dispatches steps).count q = 0 → (t.cpu 0).past pr p ∧ ¬(t.cpu 0).past pr q := by
  refine h.invariant_steps (fun steps t => (dispatches steps).count q = 0 →
    (t.cpu 0).past pr p ∧ ¬(t.cpu 0).past pr q) (fun _ => ⟨hp, hq⟩) (fun x =>
      Peer pr q x.1) ?_ hpeer
  intro steps t a u ih hpeer ha _ hexec hcount
  have hturn := turn_exec ha hexec
  rw [count_dispatches_snoc, Nat.add_eq_zero_iff] at hcount
  obtain ⟨hp, hq⟩ := ih hcount.1
  have hnot : dispatched (t, a) ≠ some q := by simpa using hcount.2
  constructor
  · rcases hturn.past_to hp with h | h
    · exact h
    · exact absurd (h q).1 hq
  · intro h
    exact (hturn.past_from hpeer.1 hpeer.2 h).elim hq hnot

theorem owed_behind (h : (system (Fin 1)).Path (fun _ _ => True) s steps t)
    (hp : (s.cpu 0).past pr p) (hpeer : ∀ x ∈ steps, Peer pr q x.1) :
    (dispatches steps).count q = 0 → (t.cpu 0).past pr q → (t.cpu 0).past pr p := by
  refine h.invariant_steps (fun steps t => (dispatches steps).count q = 0 →
    (t.cpu 0).past pr q → (t.cpu 0).past pr p) (fun _ _ => hp) (fun x => Peer pr q x.1) ?_ hpeer
  intro steps t a u ih hpeer ha _ hexec hcount hq
  have hturn := turn_exec ha hexec
  rw [count_dispatches_snoc, Nat.add_eq_zero_iff] at hcount
  have hnot : dispatched (t, a) ≠ some q := by simpa using hcount.2
  have hbefore := (hturn.past_from hpeer.1 hpeer.2 hq).resolve_right hnot
  rcases hturn.past_to (ih hcount.1 hbefore) with h | h
  · exact h
  · exact absurd hq (h q).2

def Yields (pr : Int) (p q : Slot) (x : State (Fin 1) × Action (Fin 1)) : Prop :=
  (x.1.proc q).priority = pr ∧ Peer pr p x.1 ∧ dispatched x ≠ some p

theorem once_ahead (h : (system (Fin 1)).Path (fun _ _ => True) s steps t) (hpq : p < q)
    (hstep : ∀ x ∈ steps, Yields pr p q x) :
    (dispatches steps).count q = 0 ∨
      (dispatches steps).count q = 1 ∧ ((t.cpu 0).past pr p → (t.cpu 0).past pr q) := by
  refine h.invariant_steps (fun steps t => (dispatches steps).count q = 0 ∨
    (dispatches steps).count q = 1 ∧ ((t.cpu 0).past pr p → (t.cpu 0).past pr q))
    (Or.inl rfl) (Yields pr p q) ?_ hstep
  intro steps t a u ih ⟨hpriority, hpeer, hnot⟩ ha _ hexec
  have hturn := turn_exec ha hexec
  rw [count_dispatches_snoc]
  by_cases hq : dispatched (t, a) = some q
  · rw [if_pos hq]
    rcases ih with hcount | ⟨-, hafter⟩
    · exact Or.inr ⟨by omega, fun _ => (hturn.past_iff hq hpriority q).mpr (le_refl q)⟩
    · -- the pass stands at `q`, with `p` behind it
      have hat := (dispatched_eq_some.mp hq).2.past_iff hpriority
      exact absurd ((hat q).mp (hafter ((hat p).mpr hpq))) (lt_irrefl q)
  · rw [if_neg hq, Nat.add_zero]
    refine ih.imp_right (And.imp_right fun hafter hp => ?_)
    have hbefore := (hturn.past_from hpeer.1 hpeer.2 hp).resolve_right hnot
    rcases hturn.past_to (hafter hbefore) with h | h
    · exact h
    · exact absurd hp (h p).2

theorem once_behind (h : (system (Fin 1)).Path (fun _ _ => True) s steps t) (hqp : q < p)
    (hstep : ∀ x ∈ steps, Yields pr p q x) :
    (dispatches steps).count q = 0 ∨
      (dispatches steps).count q = 1 ∧ (t.cpu 0).past pr q ∧ ¬(t.cpu 0).past pr p := by
  refine h.invariant_steps (fun steps t => (dispatches steps).count q = 0 ∨
    (dispatches steps).count q = 1 ∧ (t.cpu 0).past pr q ∧ ¬(t.cpu 0).past pr p)
    (Or.inl rfl) (Yields pr p q) ?_ hstep
  intro steps t a u ih ⟨hpriority, hpeer, hnot⟩ ha _ hexec
  have hturn := turn_exec ha hexec
  rw [count_dispatches_snoc]
  by_cases hq : dispatched (t, a) = some q
  · rw [if_pos hq]
    rcases ih with hcount | ⟨-, hafter, -⟩
    · have hpast := hturn.past_iff hq hpriority
      exact Or.inr ⟨by omega, (hpast q).mpr (le_refl q), fun h => absurd ((hpast p).mp h)
        (not_le_of_gt hqp)⟩
    · have hat := (dispatched_eq_some.mp hq).2.past_iff hpriority
      exact absurd ((hat q).mp hafter) (lt_irrefl q)
  · rw [if_neg hq, Nat.add_zero]
    refine ih.imp_right (And.imp_right fun hafter => ⟨?_, fun hp => ?_⟩)
    · rcases hturn.past_to hafter.1 with h | h
      · exact h
      · exact absurd (h p).1 hafter.2
    · exact (hturn.past_from hpeer.1 hpeer.2 hp).elim hafter.2 hnot

end Interval

/-- One iteration of the outer loop of `scheduler()`, up to the state `t`. -/
structure Iteration (s : State (Fin 1)) (steps : List (State (Fin 1) × Action (Fin 1)))
    (t : State (Fin 1)) : Prop where
  start : s.cpu 0 = .firstPass 0 noPriority
  path : (system (Fin 1)).Path (fun _ _ => True) s steps t
  within : ∀ x ∈ steps, ¬Ends x

/-- Consecutive dispatches of slot `p`: one in `s`, the next in `t`, with `steps` between. -/
structure Interval (p : Slot) (s : State (Fin 1)) (steps : List (State (Fin 1) × Action (Fin 1)))
    (t : State (Fin 1)) : Prop where
  first : Dispatches s 0 p
  path : ∃ u, exec s (.schedule 0) = .ok u ∧ (system (Fin 1)).Path (fun _ _ => True) u steps t
  next : Dispatches t 0 p
  between : p ∉ dispatches steps

def Throughout (P : State (Fin 1) → Prop) (s : State (Fin 1))
    (steps : List (State (Fin 1) × Action (Fin 1))) (t : State (Fin 1)) : Prop :=
  P s ∧ (∀ x ∈ steps, P x.1) ∧ P t

theorem Iteration.dispatches_ne_nil {s t : State (Fin 1)}
    {steps : List (State (Fin 1) × Action (Fin 1))} (h : Iteration s steps t)
    (hreach : (system (Fin 1)).Reachable (.ok s)) (hends : Ends (t, .schedule 0))
    (hsees : ∃ x ∈ steps, Sees x) : dispatches steps ≠ [] := by
  intro hnil
  have hpending := pending_iteration hreach h.start h.path h.within hnil
  cases hcpu : t.cpu 0 with
  | secondPass i highest =>
    simp only [Pending, hcpu] at hpending
    simp only [Ends, hcpu] at hends
    rcases hpending with hnone | ⟨q, hq, -⟩
    · exact hnone hsees
    · omega
  | firstPass i highest | running i highest => simp [Ends, hcpu] at hends

section

variable {p q : Slot} {pr : Int} {s t : State (Fin 1)}
  {steps : List (State (Fin 1) × Action (Fin 1))}

theorem Interval.past (h : Interval p s steps t) (hp : (s.proc p).priority = pr) :
    ∃ u, (system (Fin 1)).Path (fun _ _ => True) u steps t ∧
      ∀ x, (u.cpu 0).past pr x ↔ x ≤ p := by
  obtain ⟨u, hexec, hpath⟩ := h.path
  obtain ⟨highest, hcpu, hp'⟩ := h.first
  have ha : enabled s (.schedule 0) := by simp [enabled, hcpu, Cpu.proc?]
  exact ⟨u, hpath, (turn_exec ha hexec).past_iff
    (dispatched_eq_some.mpr ⟨⟨0, rfl⟩, highest, hcpu, hp'⟩) hp⟩

theorem Interval.dispatched_ne (h : Interval p s steps t) :
    ∀ x ∈ steps, dispatched x ≠ some p :=
  fun x hx hp => h.between (List.mem_filterMap.mpr ⟨x, hx, hp⟩)

theorem Interval.one_le (h : Interval p s steps t) (hqp : q ≠ p)
    (hp : Throughout (fun x => (x.proc p).priority = pr) s steps t)
    (hq : Throughout (Peer pr q) s steps t) : 1 ≤ (dispatches steps).count q := by
  obtain ⟨u, hpath, hu⟩ := h.past hp.1
  have ht := h.next.past_iff hp.2.2
  by_contra hcount
  have hzero : (dispatches steps).count q = 0 := by omega
  rcases lt_or_gt_of_ne hqp with hlt | hlt
  · have := owed_behind hpath ((hu p).mpr (le_refl p)) hq.2.1 hzero ((ht q).mpr hlt)
    exact lt_irrefl p ((ht p).mp this)
  · have hnot : ¬(u.cpu 0).past pr q := fun hq => not_le_of_gt hlt ((hu q).mp hq)
    have := owed_ahead hpath ((hu p).mpr (le_refl p)) hnot hq.2.1 hzero
    exact lt_irrefl p ((ht p).mp this.1)

theorem Interval.eq_one (h : Interval p s steps t) (hqp : q ≠ p)
    (hp : Throughout (Peer pr p) s steps t)
    (hq : Throughout (Peer pr q) s steps t) : (dispatches steps).count q = 1 := by
  have hone := h.one_le hqp ⟨hp.1.1, fun x hx => (hp.2.1 x hx).1, hp.2.2.1⟩ hq
  obtain ⟨u, hpath, -⟩ := h.past hp.1.1
  have hyields : ∀ x ∈ steps, Yields pr p q x :=
    fun x hx => ⟨(hq.2.1 x hx).1, hp.2.1 x hx, h.dispatched_ne x hx⟩
  rcases lt_or_gt_of_ne hqp with hlt | hlt
  · rcases once_behind hpath hlt hyields with h | h <;> omega
  · rcases once_ahead hpath hlt hyields with h | h <;> omega

end

/-- Turns on one CPU. An iteration of the outer loop dispatches no slot twice, and
when it ends it has dispatched some process if its first pass saw a RUNNABLE
one. Between two consecutive dispatches of `p` at an unchanged priority, every
process that waits at that priority is dispatched, and exactly once if `p` waits too. -/
theorem round_robin {s : State (Fin 1)} (hreach : (system (Fin 1)).Reachable (.ok s)) :
    (∀ steps t, Iteration s steps t → (dispatches steps).Nodup ∧
      (Ends (t, .schedule 0) → (∃ x ∈ steps, Sees x) → dispatches steps ≠ [])) ∧
    ∀ p q steps t pr, Interval p s steps t → q ≠ p →
      Throughout (fun x => (x.proc p).priority = pr) s steps t →
      Throughout (fun x => (x.proc q).priority = pr ∧ Waits x q) s steps t →
      1 ≤ (dispatches steps).count q ∧
        (Throughout (fun x => Waits x p) s steps t → (dispatches steps).count q = 1) := by
  constructor
  · intro steps t h
    exact ⟨(dispatches_nodup h.path h.within).1, h.dispatches_ne_nil hreach⟩
  · intro p q steps t pr h hqp hp hq
    exact ⟨h.one_le hqp hp hq, fun hwaits => h.eq_one hqp
      ⟨⟨hp.1, hwaits.1⟩, fun x hx => ⟨hp.2.1 x hx, hwaits.2.1 x hx⟩, hp.2.2, hwaits.2.2⟩ hq⟩

section Sample

instance (s : State (Fin 1)) (q : Slot) : Decidable (Waits s q) :=
  inferInstanceAs (Decidable (_ ∨ _))

instance (pr : Int) (q : Slot) (s : State (Fin 1)) : Decidable (Peer pr q s) :=
  inferInstanceAs (Decidable (_ ∧ _))

/-- `init` forks a child, and each of them uses up a time slice. The second pass
of the next iteration then starts. -/
def firstRound : List (Action (Fin 1)) :=
  List.replicate 66 (.schedule 0) ++
    [.allocproc 0 slotA, .forkParent 0, .forkDone 0, .yield 0, .schedule 0, .yield 0] ++
    List.replicate 128 (.schedule 0)

def secondRound : List (Action (Fin 1)) :=
  [.yield 0, .schedule 0, .yield 0] ++ List.replicate 128 (.schedule 0)

def InitNext (s : State (Fin 1)) : Prop :=
  s.cpu 0 = .secondPass 0 10 ∧ (s.proc initproc).state = .runnable ∧
    Peer 10 initproc s ∧ Peer 10 slotA s

def BothWait (steps : List (State (Fin 1) × Action (Fin 1))) (t : State (Fin 1)) : Prop :=
  (∀ x ∈ steps, Peer 10 initproc x.1 ∧ Peer 10 slotA x.1) ∧ initproc ∉ dispatches steps ∧
    InitNext t

instance (s : State (Fin 1)) : Decidable (InitNext s) :=
  inferInstanceAs (Decidable (_ ∧ _ ∧ _ ∧ _))

instance (steps : List (State (Fin 1) × Action (Fin 1))) (t : State (Fin 1)) :
    Decidable (BothWait steps t) :=
  inferInstanceAs (Decidable (_ ∧ _ ∧ _))

def observeRounds (s : State (Fin 1)) : Bool × Option Bool :=
  (decide (InitNext s),
    match exec s (.schedule 0) with
    | .ok u =>
        (system (Fin 1)).observedPath (fun _ _ => True) (fun steps t => decide (BothWait steps t)) u
          secondRound
    | .error _ => none)

theorem rounds_observed :
    (system (Fin 1)).observed (fun _ _ => True) observeRounds initial firstRound =
      some (true, some true) := by
  decide +kernel

theorem InitNext.dispatches {s : State (Fin 1)} (h : InitNext s) : Dispatches s 0 initproc :=
  ⟨10, h.1, h.2.1, h.2.2.1.1⟩

end Sample

theorem round_robin_alternate : ∃ s steps t, (system (Fin 1)).Reachable (.ok s) ∧
    Interval initproc s steps t ∧ (dispatches steps).count slotA = 1 := by
  obtain ⟨s, hreach, hobserved⟩ := System.Reach.of_observed (.init rfl) rounds_observed
  simp only [observeRounds, Prod.mk.injEq, decide_eq_true_eq] at hobserved
  obtain ⟨hs, hpath⟩ := hobserved
  split at hpath
  · rename_i u hexec
    obtain ⟨steps, t, hpath, hboth⟩ := System.Path.of_observedPath hpath
    obtain ⟨hsteps, hbetween, ht⟩ := of_decide_eq_true hboth
    have hinterval : Interval initproc s steps t :=
      ⟨hs.dispatches, ⟨u, hexec, hpath⟩, ht.dispatches, hbetween⟩
    refine ⟨s, steps, t, hreach, hinterval, ?_⟩
    refine ((round_robin hreach).2 initproc slotA steps t 10 hinterval (by decide) ?_ ?_).2 ?_
    · exact ⟨hs.2.2.1.1, fun x hx => (hsteps x hx).1.1, ht.2.2.1.1⟩
    · exact ⟨hs.2.2.2, fun x hx => (hsteps x hx).2, ht.2.2.2⟩
    · exact ⟨hs.2.2.1.2, fun x hx => (hsteps x hx).1.2, ht.2.2.1.2⟩
  · cases hpath

end Xv6.Sched
