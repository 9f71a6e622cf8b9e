import Mathlib.Data.List.Basic

/-! A list cut at a separator: the pieces that end with one, and what comes after the last. -/
namespace Xv6.Lib

variable {α : Type} [DecidableEq α] (sep : α)

def lines : List α → List (List α) × List α
  | [] => ([], [])
  | a :: t =>
      if a = sep then ([] :: (lines t).1, (lines t).2)
      else
        match (lines t).1 with
        | [] => ([], a :: (lines t).2)
        | line :: rest => ((a :: line) :: rest, (lines t).2)

variable {sep} {line t : List α}

theorem lines_of_not_mem (h : sep ∉ t) : lines sep t = ([], t) := by
  induction t with
  | nil => rfl
  | cons a t ih =>
    rw [List.mem_cons, not_or] at h
    rw [lines, if_neg (Ne.symm h.1), ih h.2]

theorem lines_cons (h : sep ∉ line) (t : List α) :
    lines sep (line ++ sep :: t) = (line :: (lines sep t).1, (lines sep t).2) := by
  induction line with
  | nil => rw [List.nil_append, lines, if_pos rfl]
  | cons a line ih =>
    rw [List.mem_cons, not_or] at h
    rw [List.cons_append, lines, if_neg (Ne.symm h.1), ih h.2]

theorem rest_not_mem (t : List α) : sep ∉ (lines sep t).2 := by
  induction t with
  | nil => exact List.not_mem_nil
  | cons a t ih =>
    rw [lines]
    split
    · exact ih
    · rename_i ha
      split
      · exact List.not_mem_cons_of_ne_of_not_mem (Ne.symm ha) ih
      · exact ih

theorem length_lt_of_mem_lines (h : line ∈ (lines sep t).1) : line.length < t.length := by
  induction t generalizing line with
  | nil => cases h
  | cons a t ih =>
    rw [lines] at h
    rw [List.length_cons]
    split at h
    · rcases List.mem_cons.mp h with rfl | hrest
      · exact Nat.succ_pos _
      · exact Nat.lt_succ_of_lt (ih hrest)
    · split at h
      · cases h
      · rename_i first rest heq
        rcases List.mem_cons.mp h with rfl | hrest
        · exact Nat.succ_lt_succ (ih (by simp [heq]))
        · exact Nat.lt_succ_of_lt (ih (by simp [heq, hrest]))

theorem lines_append (s t : List α) : lines sep (s ++ t) =
    ((lines sep s).1 ++ (lines sep ((lines sep s).2 ++ t)).1,
      (lines sep ((lines sep s).2 ++ t)).2) := by
  induction s with
  | nil => rfl
  | cons a s ih =>
    rw [List.cons_append, lines, lines]
    by_cases ha : a = sep
    · rw [if_pos ha, if_pos ha, ih]
      rfl
    · rw [if_neg ha, if_neg ha, ih]
      cases (lines sep s).1 with
      | nil =>
        dsimp only [List.nil_append]
        rw [List.cons_append, lines, if_neg ha]
      | cons line rest => rfl

theorem eq_append_of_mem (h : sep ∈ t) : ∃ line rest, t = line ++ sep :: rest ∧ sep ∉ line := by
  induction t with
  | nil => cases h
  | cons a t ih =>
    by_cases ha : a = sep
    · exact ⟨[], t, by rw [ha, List.nil_append], List.not_mem_nil⟩
    · obtain ⟨line, rest, rfl, hline⟩ := ih ((List.mem_cons.mp h).resolve_left (Ne.symm ha))
      exact ⟨a :: line, rest, rfl, List.not_mem_cons_of_ne_of_not_mem (Ne.symm ha) hline⟩

end Xv6.Lib
