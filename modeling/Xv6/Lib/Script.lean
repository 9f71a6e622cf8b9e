import Mathlib.Tactic.Common

/-! Programs as sequences of calls. A handler gives the calls their meaning on a
state, one after the other; what a program must find in order to end well is
computed from it. -/
namespace Xv6.Lib

structure Interface where
  Call : Type
  Result : Call → Type
  Failure : Type

inductive Script (I : Interface) (α : Type) : Type where
  | ret (a : α)
  | fail (e : I.Failure)
  | call (c : I.Call) (k : I.Result c → Script I α)

abbrev Handler (I : Interface) (σ : Type) :=
  σ → (c : I.Call) → Except I.Failure (I.Result c × σ)

namespace Script

variable {I : Interface} {α β σ : Type}

def bind : Script I α → (α → Script I β) → Script I β
  | ret a, f => f a
  | fail e, _ => fail e
  | call c k, f => call c fun r => (k r).bind f

instance : Monad (Script I) where
  pure := ret
  bind := bind

def perform (c : I.Call) : Script I (I.Result c) := call c ret

def run (act : Handler I σ) : Script I α → σ → Except I.Failure (α × σ)
  | ret a, s => .ok (a, s)
  | fail e, _ => .error e
  | call c k, s =>
      match act s c with
      | .ok (r, s') => (k r).run act s'
      | .error e => .error e

def Wp (act : Handler I σ) (accepted : I.Failure → Prop) (p : Script I α)
    (post : α → σ → Prop) (s : σ) : Prop :=
  match p.run act s with
  | .ok (a, s') => post a s'
  | .error e => accepted e

variable {act : Handler I σ} {accepted : I.Failure → Prop} {p : Script I α} {f : α → Script I β}
  {post post' : α → σ → Prop} {s : σ}

theorem run_perform (c : I.Call) : (perform c).run act s = act s c := by
  unfold perform run
  cases act s c <;> rfl

theorem run_bind : (p >>= f).run act s =
    match p.run act s with
    | .ok (a, s') => (f a).run act s'
    | .error e => .error e := by
  show (p.bind f).run act s = _
  induction p generalizing s with
  | ret a => rfl
  | fail e => rfl
  | call c k ih =>
    simp only [bind, run]
    cases act s c with
    | ok r => exact ih r.1
    | error e => rfl

theorem Wp.fail {e : I.Failure} (h : accepted e) : Wp act accepted (Script.fail e) post s := h

theorem Wp.mono (h : Wp act accepted p post s) (himp : ∀ a s', post a s' → post' a s') :
    Wp act accepted p post' s := by
  unfold Wp at *
  cases hrun : p.run act s with
  | ok r =>
    rw [hrun] at h
    exact himp _ _ h
  | error e =>
    rw [hrun] at h
    exact h

theorem Wp.bind {post : β → σ → Prop}
    (h : Wp act accepted p (fun a s' => Wp act accepted (f a) post s') s) :
    Wp act accepted (p >>= f) post s := by
  unfold Wp at *
  rw [run_bind]
  cases hrun : p.run act s with
  | ok r =>
    rw [hrun] at h
    exact h
  | error e =>
    rw [hrun] at h
    exact h

theorem Wp.seq {Q : α → σ → Prop} {post : β → σ → Prop} (h : Wp act accepted p Q s)
    (hf : ∀ a s', Q a s' → Wp act accepted (f a) post s') :
    Wp act accepted (p >>= f) post s :=
  Wp.bind (h.mono hf)

theorem Wp.perform {c : I.Call} {post : I.Result c → σ → Prop} {r : I.Result c} {s' : σ}
    (hact : act s c = .ok (r, s')) (h : post r s') : Wp act accepted (perform c) post s := by
  unfold Wp
  rw [run_perform, hact]
  exact h

theorem Wp.perform_error {c : I.Call} {post : I.Result c → σ → Prop} {e : I.Failure}
    (hact : act s c = .error e) (h : accepted e) : Wp act accepted (Script.perform c) post s := by
  unfold Wp
  rw [run_perform, hact]
  exact h

theorem Wp.congr {q : Script I α} (hrun : p.run act s = q.run act s)
    (h : Wp act accepted q post s) : Wp act accepted p post s := by
  unfold Wp at *
  rwa [hrun]

/-- Where every failure is accepted, programs meet what says nothing. -/
theorem Wp.trivial (haccept : ∀ e, accepted e) (hpost : ∀ a s', post a s') :
    Wp act accepted p post s := by
  unfold Wp
  cases p.run act s with
  | ok r => exact hpost _ _
  | error e => exact haccept e

theorem Wp.of_ok (h : Wp act accepted p post s) {a : α} {s' : σ}
    (hrun : p.run act s = .ok (a, s')) :
    post a s' := by
  unfold Wp at h
  rwa [hrun] at h

end Script

end Xv6.Lib
