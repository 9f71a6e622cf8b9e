import Mathlib.Data.List.Nodup
import Mathlib.Logic.Function.Basic
import Mathlib.Algebra.Order.Ring.Int
import Mathlib.Tactic.Common

/-! Circular doubly linked lists with a head that is no element. A node is `none`
for the head, or an element; the assignments of the operations are made one after
the other, so that a pointer may be read after another was written. -/
namespace Xv6.Lib

variable {α : Type u}

structure Links (α : Type u) where
  next : Option α → Option α
  prev : Option α → Option α

namespace Links

def flip (l : Links α) : Links α := ⟨l.prev, l.next⟩

def Seg (l : Links α) (a : Option α) : List α → Option α → Prop
  | [], b => l.next a = b ∧ l.prev b = a
  | x :: xs, b => l.next a = some x ∧ l.prev (some x) = a ∧ Seg l (some x) xs b

variable {l l' : Links α} {a b : Option α} {x y : α} {xs ys : List α}

theorem seg_append : Seg l a (xs ++ x :: ys) b ↔ Seg l a xs (some x) ∧ Seg l (some x) ys b := by
  induction xs generalizing a with
  | nil => simp [Seg, and_assoc]
  | cons z xs ih => simp [Seg, ih, and_assoc]

theorem seg_flip : Seg l.flip b xs.reverse a ↔ Seg l a xs b := by
  induction xs generalizing a with
  | nil => exact and_comm
  | cons x xs ih =>
    rw [List.reverse_cons, seg_append, ih, Seg, Seg]
    simp only [flip]
    exact ⟨fun h => ⟨h.2.2, h.2.1, h.1⟩, fun h => ⟨h.2.2, h.2.1, h.1⟩⟩

theorem Seg.congr (h : Seg l a xs b) (hnext : ∀ n, n = a ∨ (∃ x ∈ xs, n = some x) →
    l'.next n = l.next n)
    (hprev : ∀ n, n = b ∨ (∃ x ∈ xs, n = some x) → l'.prev n = l.prev n) : Seg l' a xs b := by
  induction xs generalizing a with
  | nil => exact ⟨(hnext a (Or.inl rfl)).trans h.1, (hprev b (Or.inl rfl)).trans h.2⟩
  | cons x xs ih =>
    refine ⟨(hnext a (Or.inl rfl)).trans h.1,
      (hprev _ (Or.inr ⟨x, List.mem_cons_self, rfl⟩)).trans h.2.1, ih h.2.2 ?_ ?_⟩
    · rintro n (rfl | ⟨y, hy, rfl⟩)
      · exact hnext _ (Or.inr ⟨x, List.mem_cons_self, rfl⟩)
      · exact hnext _ (Or.inr ⟨y, List.mem_cons_of_mem x hy, rfl⟩)
    · rintro n (rfl | ⟨y, hy, rfl⟩)
      · exact hprev _ (Or.inl rfl)
      · exact hprev _ (Or.inr ⟨y, List.mem_cons_of_mem x hy, rfl⟩)

theorem Seg.next_cases (h : Seg l a xs b) : l.next a = b ∨ ∃ x ∈ xs, l.next a = some x := by
  cases xs with
  | nil => exact Or.inl h.1
  | cons x xs => exact Or.inr ⟨x, List.mem_cons_self, h.1⟩

theorem Seg.prev_cases (h : Seg l a xs b) : l.prev b = a ∨ ∃ x ∈ xs, l.prev b = some x := by
  rcases (seg_flip.mpr h).next_cases with heq | ⟨x, hx, heq⟩
  · exact Or.inl heq
  · exact Or.inr ⟨x, List.mem_reverse.mp hx, heq⟩

theorem Seg.prev_next (h : Seg l a xs b) {n : Option α} (hn : n = a ∨ ∃ x ∈ xs, n = some x) :
    l.prev (l.next n) = n := by
  induction xs generalizing a with
  | nil =>
    obtain rfl : n = a := by simpa using hn
    rw [h.1, h.2]
  | cons x xs ih =>
    rcases hn with rfl | ⟨y, hy, rfl⟩
    · rw [h.1, h.2.1]
    · refine ih h.2.2 ?_
      rcases List.mem_cons.mp hy with rfl | hy
      · exact Or.inl rfl
      · exact Or.inr ⟨y, hy, rfl⟩

structure Circle (l : Links α) (xs : List α) : Prop where
  nodup : xs.Nodup
  seg : Seg l none xs none

theorem Circle.flip (h : Circle l xs) : Circle l.flip xs.reverse :=
  ⟨List.nodup_reverse.mpr h.nodup, seg_flip.mpr h.seg⟩

theorem Circle.inverse (h : Circle l xs) (hall : ∀ x, x ∈ xs) (n : Option α) :
    l.prev (l.next n) = n ∧ l.next (l.prev n) = n := by
  have hn : n = none ∨ ∃ x ∈ xs, n = some x := by
    cases n with
    | none => exact Or.inl rfl
    | some x => exact Or.inr ⟨x, hall x, rfl⟩
  refine ⟨h.seg.prev_next hn, h.flip.seg.prev_next (n := n) ?_⟩
  exact hn.imp id fun ⟨x, hx, heq⟩ => ⟨x, List.mem_reverse.mpr hx, heq⟩

section Scan

/-- A loop from node to node until the head or an element that passes the test;
`none` if it has not ended after so many nodes. -/
def scan (step : Option α → Option α) (test : α → Bool) : Nat → Option α → Option (Option α)
  | 0, _ => none
  | _ + 1, none => some none
  | n + 1, some x => if test x = true then some (some x) else scan step test n (step (some x))

theorem Seg.scan_next (h : Seg l a xs none) (test : α → Bool) {n : Nat} (hn : xs.length < n) :
    scan l.next test n (l.next a) = some (xs.find? test) := by
  induction xs generalizing a n with
  | nil =>
    obtain ⟨m, rfl⟩ := Nat.exists_eq_add_of_lt hn
    rw [h.1]
    rfl
  | cons x xs ih =>
    obtain ⟨m, rfl⟩ : ∃ m, n = m + 1 := ⟨n - 1, by omega⟩
    rw [h.1, scan, List.find?_cons]
    cases htest : test x with
    | true => rfl
    | false => exact ih h.2.2 (by simpa using hn)

theorem Circle.scan_next (h : Circle l xs) (test : α → Bool) {n : Nat} (hn : xs.length < n) :
    scan l.next test n (l.next none) = some (xs.find? test) := h.seg.scan_next test hn

theorem Circle.scan_prev (h : Circle l xs) (test : α → Bool) {n : Nat} (hn : xs.length < n) :
    scan l.prev test n (l.prev none) = some (xs.reverse.find? test) :=
  h.flip.scan_next test (by rwa [List.length_reverse])

end Scan

variable [DecidableEq α]

def clear (l : Links α) : Links α :=
  ⟨Function.update l.next none none, Function.update l.prev none none⟩

/-- `x->next = head.next; x->prev = &head; head.next->prev = x; head.next = x` -/
def insertFront (l : Links α) (x : α) : Links α :=
  let l : Links α := { l with next := Function.update l.next (some x) (l.next none) }
  let l : Links α := { l with prev := Function.update l.prev (some x) none }
  let l : Links α := { l with prev := Function.update l.prev (l.next none) (some x) }
  { l with next := Function.update l.next none (some x) }

/-- `x->next->prev = x->prev; x->prev->next = x->next` -/
def unlink (l : Links α) (x : α) : Links α :=
  let l : Links α := { l with prev := Function.update l.prev (l.next (some x)) (l.prev (some x)) }
  { l with next := Function.update l.next (l.prev (some x)) (l.next (some x)) }

theorem circle_clear (l : Links α) : Circle l.clear [] :=
  ⟨List.nodup_nil, by simp [Seg, clear]⟩

theorem Circle.insertFront (h : Circle l xs) (hx : x ∉ xs) :
    Circle (l.insertFront x) (x :: xs) := by
  refine ⟨List.nodup_cons.mpr ⟨hx, h.nodup⟩, ?_⟩
  have hnext : (l.insertFront x).next = Function.update
      (Function.update l.next (some x) (l.next none))
      none (some x) := rfl
  have hprev : (l.insertFront x).prev = Function.update (Function.update l.prev (some x) none)
      (l.next none) (some x) := by
    simp [Links.insertFront]
  cases xs with
  | nil =>
    have hhead : l.next none = none := h.seg.1
    rw [hhead] at hprev hnext
    refine ⟨?_, ?_, ?_, ?_⟩ <;> simp [hnext, hprev]
  | cons y ys =>
    obtain ⟨hhead, -, hrest⟩ := h.seg
    rw [hhead] at hprev hnext
    have hxy : x ≠ y := fun heq => hx (heq ▸ List.mem_cons_self)
    have hy : y ∉ ys := (List.nodup_cons.mp h.nodup).1
    refine ⟨by simp [hnext], by simp [hprev, hxy], by simp [hnext], by simp [hprev], ?_⟩
    refine hrest.congr ?_ ?_
    · rintro n (rfl | ⟨z, hz, rfl⟩)
      · simp [hnext, hxy.symm]
      · have hzx : z ≠ x := fun heq => hx (heq ▸ List.mem_cons_of_mem y hz)
        simp [hnext, hzx]
    · rintro n (rfl | ⟨z, hz, rfl⟩)
      · simp [hprev]
      · have hzx : z ≠ x := fun heq => hx (heq ▸ List.mem_cons_of_mem y hz)
        have hzy : z ≠ y := fun heq => hy (heq ▸ hz)
        simp [hprev, hzx, hzy]

theorem Seg.unlink (hfront : Seg l a xs (some x)) (hback : Seg l (some x) ys b)
    (hnodup : (xs ++ x :: ys).Nodup) (ha : ∀ z ∈ xs ++ x :: ys, a ≠ some z)
    (hb : ∀ z ∈ xs ++ x :: ys, b ≠ some z) : Seg (l.unlink x) a (xs ++ ys) b := by
  have hxys : x ∉ ys := by
    have := (List.nodup_append.mp hnodup).2.1
    exact (List.nodup_cons.mp this).1
  have hne : l.next (some x) ≠ some x := by
    rcases hback.next_cases with heq | ⟨y, hy, heq⟩
    · rw [heq]
      exact hb x (by simp)
    · rw [heq]
      exact fun h => hxys (Option.some.inj h ▸ hy)
  have hprev : (l.unlink x).prev = Function.update l.prev (l.next (some x)) (l.prev (some x)) := rfl
  have hnext : (l.unlink x).next = Function.update l.next (l.prev (some x)) (l.next (some x)) := by
    simp [Links.unlink, Function.update_of_ne hne.symm]
  induction xs generalizing a with
  | nil =>
    obtain ⟨-, hpx⟩ := hfront
    rw [hpx] at hprev hnext
    cases ys with
    | nil =>
      obtain ⟨hnx, -⟩ := hback
      rw [hnx] at hprev hnext
      exact ⟨by simp [hnext], by simp [hprev]⟩
    | cons y ys =>
      obtain ⟨hnx, -, hrest⟩ := hback
      rw [hnx] at hprev hnext
      have hyys : y ∉ ys := (List.nodup_cons.mp (List.nodup_cons.mp hnodup).2).1
      refine ⟨by simp [hnext], by simp [hprev], hrest.congr ?_ ?_⟩
      · rintro n (rfl | ⟨z, hz, rfl⟩)
        · rw [hnext, Function.update_of_ne (ha y (by simp)).symm]
        · rw [hnext, Function.update_of_ne (ha z (by simp [hz])).symm]
      · rintro n (rfl | ⟨z, hz, rfl⟩)
        · rw [hprev, Function.update_of_ne (hb y (by simp))]
        · have hzy : z ≠ y := fun heq => hyys (heq ▸ hz)
          rw [hprev, Function.update_of_ne (by simpa using hzy)]
  | cons z zs ih =>
    obtain ⟨hna, hpz, hrest⟩ := hfront
    have hz : z ∉ zs ++ x :: ys := (List.nodup_cons.mp hnodup).1
    have hpx : l.prev (some x) ≠ a := by
      rcases hrest.prev_cases with heq | ⟨w, hw, heq⟩
      · rw [heq]
        exact (ha z (by simp)).symm
      · rw [heq]
        exact (ha w (by simp [hw])).symm
    have hnz : l.next (some x) ≠ some z := by
      rcases hback.next_cases with heq | ⟨w, hw, heq⟩
      · rw [heq]
        exact hb z (by simp)
      · rw [heq]
        exact fun h => hz (by simp [← Option.some.inj h, hw])
    refine ⟨?_, ?_, ih hrest (List.nodup_cons.mp hnodup).2 (fun w hw heq => ?_) fun w hw =>
      hb w (List.mem_cons_of_mem z hw)⟩
    · rw [hnext, Function.update_of_ne hpx.symm, hna]
    · rw [hprev, Function.update_of_ne hnz.symm, hpz]
    · exact hz (Option.some.inj heq ▸ hw)

theorem Circle.unlink (h : Circle l xs) (hx : x ∈ xs) : Circle (l.unlink x) (xs.erase x) := by
  obtain ⟨front, back, rfl⟩ := List.append_of_mem hx
  obtain ⟨hfront, hback⟩ := seg_append.mp h.seg
  have hnot : x ∉ front := fun hmem => by
    have := (List.nodup_append.mp h.nodup).2.2 x hmem x (by simp)
    exact this rfl
  refine ⟨h.nodup.erase x, ?_⟩
  rw [List.erase_append_right _ hnot, List.erase_cons_head]
  exact hfront.unlink hback h.nodup (fun _ _ => by simp) fun _ _ => by simp

theorem Circle.moveFront (h : Circle l xs) (hx : x ∈ xs) :
    Circle ((l.unlink x).insertFront x) (x :: xs.erase x) :=
  (h.unlink hx).insertFront (List.Nodup.not_mem_erase h.nodup)

end Links

end Xv6.Lib
