import Mathlib.Data.List.FinRange
import Mathlib.Logic.Function.Basic
import Mathlib.Algebra.Order.Ring.Int
import Mathlib.Tactic.Common

/-! Finitely many slots in front of a store. A live slot shadows the store at
its key; the overlay is what a reader sees through the slots. -/
namespace Xv6.Lib.Overlay

variable {n : Nat} {β : Type u} {α : Type v}

def Unique (live : Fin n → Option (β × α)) : Prop :=
  ∀ i j e f, live i = some e → live j = some f → e.1 = f.1 → i = j

/-- The two ways a key gets its value. -/
def Sees (live : Fin n → Option (β × α)) (store : β → α) (b : β) (a : α) : Prop :=
  (∃ i, live i = some (b, a)) ∨ (∀ i e, live i = some e → e.1 ≠ b) ∧ store b = a

variable [DecidableEq β]

def view (live : Fin n → Option (β × α)) (store : β → α) (b : β) : α :=
  match (List.finRange n).findSome? fun i => (live i).filter fun e => e.1 = b with
  | some e => e.2
  | none => store b

variable {live : Fin n → Option (β × α)} {store : β → α} {i : Fin n} {b : β} {a : α}

theorem sees_view (live : Fin n → Option (β × α)) (store : β → α) (b : β) :
    Sees live store b (view live store b) := by
  unfold view
  split
  · rename_i e hfind
    obtain ⟨i, -, hi⟩ := List.exists_of_findSome?_eq_some hfind
    obtain ⟨hlive, hkey⟩ := Option.filter_eq_some_iff.mp hi
    have hkey : e.1 = b := by simpa using hkey
    exact Or.inl ⟨i, hkey ▸ hlive⟩
  · rename_i hfind
    refine Or.inr ⟨fun i e hi hkey => ?_, rfl⟩
    have := List.findSome?_eq_none_iff.mp hfind i (List.mem_finRange i)
    simp [hi, hkey] at this

theorem view_eq (hu : Unique live) (h : Sees live store b a) : view live store b = a := by
  rcases sees_view live store b with ⟨i, hi⟩ | ⟨hnone, hstore⟩
  · rcases h with ⟨j, hj⟩ | ⟨hnone, -⟩
    · have hij := hu i j _ _ hi hj rfl
      rw [hij, hj] at hi
      cases hi
      rfl
    · exact absurd rfl (hnone i _ hi)
  · rcases h with ⟨j, hj⟩ | ⟨-, hother⟩
    · exact absurd rfl (hnone j _ hj)
    · exact hstore.symm.trans hother

theorem view_of_live (hu : Unique live) (h : live i = some (b, a)) : view live store b = a :=
  view_eq hu (Or.inl ⟨i, h⟩)

omit [DecidableEq β] in
/-- A slot may take any key that the other slots do not have. -/
theorem Unique.update (hu : Unique live) {new : Option (β × α)}
    (hnew : ∀ e, new = some e → ∀ j f, j ≠ i → live j = some f → f.1 ≠ e.1) :
    Unique (Function.update live i new) := by
  intro j k e f hj hk hkey
  by_cases hji : j = i <;> by_cases hki : k = i
  · rw [hji, hki]
  · subst hji
    rw [Function.update_self] at hj
    rw [Function.update_of_ne hki] at hk
    exact absurd hkey.symm (hnew e hj k f hki hk)
  · subst hki
    rw [Function.update_self] at hk
    rw [Function.update_of_ne hji] at hj
    exact absurd hkey (hnew f hk j e hji hj)
  · rw [Function.update_of_ne hji] at hj
    rw [Function.update_of_ne hki] at hk
    exact hu j k e f hj hk hkey

omit [DecidableEq β] in
theorem Unique.other (hu : Unique live) (h : live i = some (b, a)) {j : Fin n} {f : β × α}
    (hji : j ≠ i) (hj : live j = some f) : f.1 ≠ b :=
  fun hkey => hji (hu j i f (b, a) hj h hkey)

theorem view_set (hu : Unique live) (h : live i = some (b, a)) (x : α) :
    view (Function.update live i (some (b, x))) store =
      Function.update (view live store) b x := by
  have hu' : Unique (Function.update live i (some (b, x))) :=
    hu.update fun e he j f hji hj => by
      cases he
      exact hu.other h hji hj
  funext b'
  apply view_eq hu'
  by_cases hb : b' = b
  · subst hb
    exact Or.inl ⟨i, by simp⟩
  · rw [Function.update_of_ne hb]
    rcases sees_view live store b' with ⟨j, hj⟩ | ⟨hnone, hstore⟩
    · have hji : j ≠ i := by
        rintro rfl
        rw [h] at hj
        cases hj
        exact hb rfl
      exact Or.inl ⟨j, by rwa [Function.update_of_ne hji]⟩
    · refine Or.inr ⟨fun j e hj => ?_, hstore⟩
      by_cases hji : j = i
      · subst hji
        rw [Function.update_self] at hj
        cases hj
        exact Ne.symm hb
      · rw [Function.update_of_ne hji] at hj
        exact hnone j e hj

/-- A slot that agrees with the store may be given up, or taken by another key. -/
theorem view_replace (hu : Unique live) {new : Option (β × α)}
    (hclean : ∀ e, live i = some e → e.2 = store e.1)
    (hnew : ∀ e, new = some e → e.2 = store e.1 ∧
      ∀ j f, j ≠ i → live j = some f → f.1 ≠ e.1) :
    view (Function.update live i new) store = view live store := by
  have hu' : Unique (Function.update live i new) := hu.update fun e he => (hnew e he).2
  have hold : ∀ b, (∀ j e, j ≠ i → live j = some e → e.1 ≠ b) →
      Sees (Function.update live i new) store b (store b) := by
    intro b hnone
    by_cases hb : ∃ e, new = some e ∧ e.1 = b
    · obtain ⟨⟨key, value⟩, he, rfl⟩ := hb
      refine Or.inl ⟨i, ?_⟩
      rw [Function.update_self, he, ← (hnew _ he).1]
    · refine Or.inr ⟨fun j e hj => ?_, rfl⟩
      by_cases hji : j = i
      · subst hji
        rw [Function.update_self] at hj
        exact fun hkey => hb ⟨e, hj, hkey⟩
      · rw [Function.update_of_ne hji] at hj
        exact hnone j e hji hj
  funext b
  apply view_eq hu'
  rcases sees_view live store b with ⟨j, hj⟩ | ⟨hnone, hstore⟩
  · by_cases hji : j = i
    · subst hji
      have hvalue := hclean _ hj
      dsimp only at hvalue
      rw [hvalue]
      exact hold b fun k e hkj hk => hu.other hj hkj hk
    · exact Or.inl ⟨j, by rwa [Function.update_of_ne hji]⟩
  · rw [← hstore]
    exact hold b fun j e _ hj => hnone j e hj

/-- What is stored behind a live slot does not show. -/
theorem view_store_of_live (hu : Unique live) (h : live i = some (b, a)) (x : α) :
    view live (Function.update store b x) = view live store := by
  funext b'
  apply view_eq hu
  rcases sees_view live store b' with hlive | ⟨hnone, hstore⟩
  · exact Or.inl hlive
  · refine Or.inr ⟨hnone, ?_⟩
    rw [Function.update_of_ne (Ne.symm (hnone i _ h)), hstore]

theorem view_congr_store {store' : β → α} (h : store' b = store b) :
    view live store' b = view live store b := by
  unfold view
  rw [h]

theorem view_store_of_free (hfree : ∀ i e, live i = some e → e.1 ≠ b) (x : α) :
    view live (Function.update store b x) = Function.update (view live store) b x := by
  have hnone : (List.finRange n).findSome? (fun i => (live i).filter fun e => e.1 = b) = none := by
    rw [List.findSome?_eq_none_iff]
    intro i _
    rw [Option.filter_eq_none_iff]
    intro e he
    simpa using hfree i e he
  funext b'
  by_cases hb : b' = b
  · subst hb
    rw [Function.update_self]
    unfold view
    rw [hnone]
    exact Function.update_self ..
  · rw [Function.update_of_ne hb]
    exact view_congr_store (Function.update_of_ne hb ..)

theorem view_retire (hu : Unique live) (h : live i = some (b, a)) (x : α) :
    view (Function.update live i none) (Function.update store b x) =
      Function.update (view live store) b x := by
  have hu' : Unique (Function.update live i (some (b, x))) :=
    hu.update fun e he j f hji hj => by
      cases he
      exact hu.other h hji hj
  have hself : Function.update live i (some (b, x)) i = some (b, x) := Function.update_self ..
  have hgive : view (Function.update (Function.update live i (some (b, x))) i none)
      (Function.update store b x) =
        view (Function.update live i (some (b, x))) (Function.update store b x) := by
    refine view_replace hu' (fun e he => ?_) fun e he => by cases he
    rw [hself] at he
    cases he
    simp
  rw [Function.update_idem] at hgive
  rw [hgive, view_store_of_live hu' hself, view_set hu h]

end Xv6.Lib.Overlay
