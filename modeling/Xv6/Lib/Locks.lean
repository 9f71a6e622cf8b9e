import Mathlib.Logic.Function.Basic
import Mathlib.Algebra.Order.Ring.Int
import Mathlib.Tactic.Common

/-! Spinlocks and the points of the programs that use them. A lock records its
holder; the programs are such that each point determines the locks held there.
The two agree, and stay in agreement when a party moves, takes a lock that is
free, or drops one that it holds. -/
namespace Xv6.Lib

variable {Q : Type u} {C : Type v} {P : Type w}

/-- `Holds c q p`: party `c`, when at `p`, holds lock `q`. -/
def Agree (Holds : C → Q → P → Prop) (lock : Q → Option C) (pos : C → P) : Prop :=
  ∀ q c, lock q = some c ↔ Holds c q (pos c)

namespace Agree

variable {Holds : C → Q → P → Prop} {lock : Q → Option C} {pos : C → P}

theorem held (h : Agree Holds lock pos) {q : Q} {c : C} (hc : Holds c q (pos c)) :
    lock q = some c := (h q c).mpr hc

theorem not_holds (h : Agree Holds lock pos) {q : Q} (hfree : lock q = none) (c : C) :
    ¬Holds c q (pos c) := by
  intro hc
  rw [h.held hc] at hfree
  cases hfree

theorem eq_of_holds (h : Agree Holds lock pos) {q : Q} {c c' : C} (hc : Holds c q (pos c))
    (hc' : Holds c' q (pos c')) : c = c' :=
  Option.some.inj ((h.held hc).symm.trans (h.held hc'))

variable [DecidableEq C] {c : C} {p : P}

theorem move (h : Agree Holds lock pos) (hp : ∀ q, Holds c q p ↔ Holds c q (pos c)) :
    Agree Holds lock (Function.update pos c p) := by
  intro q c'
  by_cases hc : c' = c
  · subst hc
    rw [Function.update_self, hp, h q c']
  · rw [Function.update_of_ne hc, h q c']

variable [DecidableEq Q] {q : Q}

theorem take (h : Agree Holds lock pos) (hfree : lock q = none)
    (hp : ∀ q', Holds c q' p ↔ q' = q ∨ Holds c q' (pos c)) :
    Agree Holds (Function.update lock q (some c)) (Function.update pos c p) := by
  intro q' c'
  by_cases hq : q' = q
  · subst hq
    by_cases hc : c' = c
    · subst hc
      simp [hp]
    · rw [Function.update_self, Function.update_of_ne hc]
      exact ⟨fun heq => absurd (Option.some.inj heq).symm hc,
        fun hc' => absurd hc' (h.not_holds hfree c')⟩
  · rw [Function.update_of_ne hq]
    by_cases hc : c' = c
    · subst hc
      rw [Function.update_self, hp, h q' c']
      simp [hq]
    · rw [Function.update_of_ne hc, h q' c']

theorem drop (h : Agree Holds lock pos) (hq : Holds c q (pos c))
    (hp : ∀ q', Holds c q' p ↔ q' ≠ q ∧ Holds c q' (pos c)) :
    Agree Holds (Function.update lock q none) (Function.update pos c p) := by
  intro q' c'
  by_cases hq' : q' = q
  · subst hq'
    rw [Function.update_self]
    refine ⟨nofun, fun hc' => ?_⟩
    by_cases hc : c' = c
    · subst hc
      rw [Function.update_self, hp] at hc'
      exact absurd rfl hc'.1
    · rw [Function.update_of_ne hc] at hc'
      exact absurd (h.eq_of_holds hc' hq) hc
  · rw [Function.update_of_ne hq']
    by_cases hc : c' = c
    · subst hc
      rw [Function.update_self, hp, h q' c']
      simp [hq']
    · rw [Function.update_of_ne hc, h q' c']

section Single

variable {Holds : C → Unit → P → Prop} {lock : Option C}

omit [DecidableEq C] in
theorem update_unit (lock x : Option C) :
    Function.update (fun _ : Unit => lock) () x = fun _ => x := by
  funext _
  exact Function.update_self _ _ _

theorem take_single (h : Agree Holds (fun _ => lock) pos) (hfree : lock = none)
    (hp : Holds c () p) : Agree Holds (fun _ => some c) (Function.update pos c p) :=
  update_unit lock (some c) ▸ h.take hfree fun _ => by simp [hp]

theorem drop_single (h : Agree Holds (fun _ => lock) pos) (hc : Holds c () (pos c))
    (hp : ¬Holds c () p) : Agree Holds (fun _ => none) (Function.update pos c p) :=
  update_unit lock none ▸ h.drop hc fun _ => by simp [hp]

end Single

end Agree

end Xv6.Lib
