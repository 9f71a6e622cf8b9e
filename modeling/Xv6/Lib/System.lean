import Mathlib.Algebra.Order.Ring.Int
import Mathlib.Tactic.Common

/-! Systems that move by actions. An action may be unavailable, and executing
one may end in an error, after which nothing more happens. An invariant kept
by every allowed action therefore does two things at once: it holds in every
state reached, and it excludes the errors. -/
namespace Xv6.Lib

structure System (σ : Type u) (ε : Type v) (ι : Type w) where
  init : σ → Prop
  enabled : σ → ι → Prop
  exec : σ → ι → Except ε σ

namespace System

variable {σ : Type u} {ε : Type v} {ι : Type w} (M : System σ ε ι)

/-- Outcomes of runs in which every action is allowed in the state it is taken. -/
inductive Reach (allowed : σ → ι → Prop) : Except ε σ → Prop where
  | init {s : σ} : M.init s → Reach allowed (.ok s)
  | step {s : σ} {a : ι} : Reach allowed (.ok s) → M.enabled s a → allowed s a →
      Reach allowed (M.exec s a)

def Reachable : Except ε σ → Prop := M.Reach fun _ _ => True

/-- Runs from a given state. Each action is listed with the state it was taken in. -/
inductive Path (allowed : σ → ι → Prop) (s : σ) : List (σ × ι) → σ → Prop where
  | nil : Path allowed s [] s
  | snoc {steps : List (σ × ι)} {t u : σ} {a : ι} : Path allowed s steps t → M.enabled t a →
      allowed t a → M.exec t a = .ok u → Path allowed s (steps ++ [(t, a)]) u

variable {M} {allowed : σ → ι → Prop}

/-- The invariant rule between two points of a run, about the steps taken and the
state they lead to. The steps may be restricted. -/
theorem Path.invariant_steps {s : σ} (Inv : List (σ × ι) → σ → Prop) (hs : Inv [] s)
    (P : σ × ι → Prop)
    (hstep : ∀ steps t a u, Inv steps t → P (t, a) → M.enabled t a → allowed t a →
      M.exec t a = .ok u → Inv (steps ++ [(t, a)]) u)
    {steps : List (σ × ι)} {t : σ} (h : M.Path allowed s steps t) (hP : ∀ x ∈ steps, P x) :
    Inv steps t := by
  induction h with
  | nil => exact hs
  | snoc _ henabled hallowed hexec ih =>
    simp only [List.mem_append, List.mem_singleton, or_imp, forall_and, forall_eq] at hP
    exact hstep _ _ _ _ (ih hP.1) hP.2 henabled hallowed hexec

theorem Path.invariant {s : σ} (Inv : σ → Prop) (hs : Inv s) (P : σ × ι → Prop)
    (hstep : ∀ t a u, Inv t → P (t, a) → M.enabled t a → allowed t a → M.exec t a = .ok u → Inv u)
    {steps : List (σ × ι)} {t : σ} (h : M.Path allowed s steps t) (hP : ∀ x ∈ steps, P x) :
    Inv t :=
  h.invariant_steps (fun _ => Inv) hs P (fun _ => hstep) hP

theorem Path.cons {s t u : σ} {a : ι} {steps : List (σ × ι)} (henabled : M.enabled s a)
    (hallowed : allowed s a) (hexec : M.exec s a = .ok t) (h : M.Path allowed t steps u) :
    M.Path allowed s ((s, a) :: steps) u := by
  induction h with
  | nil => exact .snoc .nil henabled hallowed hexec
  | snoc _ henabled' hallowed' hexec' ih => exact .snoc ih henabled' hallowed' hexec'

theorem Reach.mono {allowed' : σ → ι → Prop} (hle : ∀ s a, allowed s a → allowed' s a)
    {r : Except ε σ} (h : M.Reach allowed r) : M.Reach allowed' r := by
  induction h with
  | init hs => exact .init hs
  | step _ henabled hallowed ih => exact .step ih henabled (hle _ _ hallowed)

/-- The invariant rule when some errors are accepted: they are the only ones. -/
theorem Reach.invariant_or (Inv : σ → Prop) (Err : ε → Prop) (hinit : ∀ s, M.init s → Inv s)
    (hstep : ∀ s a, Inv s → M.enabled s a → allowed s a →
      (∃ e, M.exec s a = .error e ∧ Err e) ∨ ∃ s', M.exec s a = .ok s' ∧ Inv s')
    {r : Except ε σ} (h : M.Reach allowed r) :
    (∃ e, r = .error e ∧ Err e) ∨ ∃ s, r = .ok s ∧ Inv s := by
  induction h with
  | init hs => exact Or.inr ⟨_, rfl, hinit _ hs⟩
  | step _ henabled hallowed ih =>
    rcases ih with ⟨e, herr, -⟩ | ⟨s, hok, hinv⟩
    · cases herr
    · cases hok
      exact hstep _ _ hinv henabled hallowed

/-- One initial case and one step case prove a property of every run. -/
theorem Reach.invariant (Inv : σ → Prop) (hinit : ∀ s, M.init s → Inv s)
    (hstep : ∀ s a, Inv s → M.enabled s a → allowed s a → ∃ s', M.exec s a = .ok s' ∧ Inv s')
    {r : Except ε σ} (h : M.Reach allowed r) : ∃ s, r = .ok s ∧ Inv s := by
  rcases h.invariant_or Inv (fun _ => False) hinit
    fun s a hs henabled hallowed => Or.inr (hstep s a hs henabled hallowed) with ⟨_, -, h⟩ | h
  · exact h.elim
  · exact h

/-- The invariant rule for systems in which errors are possible. What is already
known of the states reached can be used in the step. -/
theorem Reach.invariant_reach (Inv : σ → Prop) (hinit : ∀ s, M.init s → Inv s)
    (hstep : ∀ s a s', M.Reach allowed (.ok s) → Inv s → M.enabled s a → allowed s a →
      M.exec s a = .ok s' → Inv s')
    {s : σ} (h : M.Reach allowed (.ok s)) : Inv s := by
  generalize hr : (Except.ok s : Except ε σ) = r at h
  induction h generalizing s with
  | init hs =>
    cases hr
    exact hinit _ hs
  | step hreach henabled hallowed ih =>
    exact hstep _ _ _ hreach (ih rfl) henabled hallowed hr.symm

theorem Reach.invariant_ok (Inv : σ → Prop) (hinit : ∀ s, M.init s → Inv s)
    (hstep : ∀ s a s', Inv s → M.enabled s a → allowed s a → M.exec s a = .ok s' → Inv s')
    {s : σ} (h : M.Reach allowed (.ok s)) : Inv s :=
  h.invariant_reach Inv hinit fun s a s' _ => hstep s a s'

section Trace

variable (M allowed) [∀ s a, Decidable (M.enabled s a)] [∀ s a, Decidable (allowed s a)]

/-- Perform actions in order; `none` when one of them is not enabled or not allowed. -/
def runActions (s : σ) : List ι → Option (Except ε σ)
  | [] => some (.ok s)
  | a :: rest =>
      if M.enabled s a ∧ allowed s a then
        match M.exec s a with
        | .ok s' => runActions s' rest
        | .error e => if rest.isEmpty then some (.error e) else none
      else none

variable {M allowed}

theorem Reach.of_runActions {s : σ} (hs : M.Reach allowed (.ok s)) {actions : List ι}
    {r : Except ε σ} (h : M.runActions allowed s actions = some r) : M.Reach allowed r := by
  induction actions generalizing s with
  | nil =>
    cases h
    exact hs
  | cons a rest ih =>
    rw [runActions] at h
    split at h
    · rename_i ha
      have hstep : M.Reach allowed (M.exec s a) := Reach.step hs ha.1 ha.2
      split at h
      · rename_i s' hexec
        exact ih (hexec ▸ hstep) h
      · rename_i e hexec
        split at h
        · cases h
          exact hexec ▸ hstep
        · cases h
    · cases h

variable (M allowed) {τ : Type x}

def observed (f : σ → τ) (s : σ) (actions : List ι) : Option τ :=
  match M.runActions allowed s actions with
  | some (.ok t) => some (f t)
  | _ => none

variable {M allowed}

theorem Reach.of_observed {s : σ} (hs : M.Reach allowed (.ok s)) {f : σ → τ} {actions : List ι}
    {value : τ} (h : M.observed allowed f s actions = some value) :
    ∃ t, M.Reach allowed (.ok t) ∧ f t = value := by
  unfold observed at h
  split at h
  · rename_i t hrun
    cases h
    exact ⟨t, hs.of_runActions hrun, rfl⟩
  · cases h

variable (M allowed)

def observedPath (f : List (σ × ι) → σ → τ) (s : σ) : List ι → Option τ
  | [] => some (f [] s)
  | a :: rest =>
      if M.enabled s a ∧ allowed s a then
        match M.exec s a with
        | .ok s' => observedPath (fun steps => f ((s, a) :: steps)) s' rest
        | .error _ => none
      else none

variable {M allowed}

theorem Path.of_observedPath {s : σ} {f : List (σ × ι) → σ → τ} {actions : List ι} {value : τ}
    (h : M.observedPath allowed f s actions = some value) :
    ∃ steps t, M.Path allowed s steps t ∧ f steps t = value := by
  induction actions generalizing s f with
  | nil => exact ⟨[], s, .nil, Option.some.inj h⟩
  | cons a rest ih =>
    rw [observedPath] at h
    split at h
    · rename_i ha
      split at h
      · rename_i s' hexec
        obtain ⟨steps, t, hpath, hvalue⟩ := ih h
        exact ⟨(s, a) :: steps, t, .cons ha.1 ha.2 hexec hpath, hvalue⟩
      · cases h
    · cases h

end Trace

end System

end Xv6.Lib
