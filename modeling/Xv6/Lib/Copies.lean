import Mathlib.Data.List.Nodup
import Mathlib.Logic.Function.Basic

/-! Copies made one after the other. If no cell is written twice, and no cell is read after
it was written, then they do what one copy of everything at once would do. -/
namespace Xv6.Lib

variable {α β : Type} [DecidableEq α]

def copies (moves : List (α × α)) (mem : α → β) : α → β :=
  moves.foldl (fun mem move => Function.update mem move.1 (mem move.2)) mem

@[simp] theorem copies_nil (mem : α → β) : copies [] mem = mem := rfl

theorem copies_cons (move : α × α) (moves : List (α × α)) (mem : α → β) :
    copies (move :: moves) mem = copies moves (Function.update mem move.1 (mem move.2)) := rfl

theorem copies_append (moves moves' : List (α × α)) (mem : α → β) :
    copies (moves ++ moves') mem = copies moves' (copies moves mem) := List.foldl_append

theorem copies_other {moves : List (α × α)} {a : α} (ha : ∀ move ∈ moves, move.1 ≠ a)
    (mem : α → β) : copies moves mem a = mem a := by
  induction moves generalizing mem with
  | nil => rfl
  | cons move moves ih =>
    rw [copies_cons, ih (fun m hm => ha m (List.mem_cons_of_mem _ hm))]
    exact Function.update_of_ne (ha move List.mem_cons_self).symm ..

/-- No cell is written twice, and none is read after it was written. -/
structure InOrder (moves : List (α × α)) : Prop where
  once : moves.Pairwise fun move later => move.1 ≠ later.1
  ahead : moves.Pairwise fun move later => move.1 ≠ later.2

omit [DecidableEq α] in
theorem InOrder.tail {move : α × α} {moves : List (α × α)} (h : InOrder (move :: moves)) :
    InOrder moves := ⟨h.once.tail, h.ahead.tail⟩

theorem InOrder.copied {moves : List (α × α)} (h : InOrder moves) {target source : α}
    (hmove : (target, source) ∈ moves) (mem : α → β) : copies moves mem target = mem source := by
  induction moves generalizing mem with
  | nil => cases hmove
  | cons move moves ih =>
    rw [copies_cons]
    have honce := (List.pairwise_cons.mp h.once).1
    have hahead := (List.pairwise_cons.mp h.ahead).1
    rcases List.mem_cons.mp hmove with rfl | hlater
    · rw [copies_other fun m hm => (honce m hm).symm]
      exact Function.update_self ..
    · rw [ih h.tail hlater]
      exact Function.update_of_ne (hahead _ hlater).symm ..

end Xv6.Lib
