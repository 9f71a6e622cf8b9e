import Xv6.Lib.Chars
import Mathlib.Computability.Language

/-! The matcher of `grep` (grep.c), and the language that a pattern stands for. -/
namespace Xv6.User

open Lib

namespace Chr

def caret : Chr := ⟨94, by decide⟩
def dot : Chr := ⟨46, by decide⟩
def star : Chr := ⟨42, by decide⟩
def dollar : Chr := ⟨36, by decide⟩

end Chr

open Chr

/-- `matchstar(c, re, text)`, where `here` is `matchhere` of `re`. -/
def matchstar (c : Chr) (here : Text → Bool) : Text → Bool
  | [] => here []
  | t :: text => here (t :: text) || ((t = c || c = dot) && matchstar c here text)

def matchhere : Text → Text → Bool
  | [], _ => true
  | [r], text =>
      if r = dollar then text = []
      else
        match text with
        | [] => false
        | t :: _ => r = dot || r = t
  | r :: r' :: re, text =>
      if r' = star then matchstar r (matchhere re) text
      else
        match text with
        | [] => false
        | t :: text => (r = dot || r = t) && matchhere (r' :: re) text

def matchFrom (re : Text) : Text → Bool
  | [] => matchhere re []
  | t :: text => matchhere re (t :: text) || matchFrom re text

def grepMatch (re text : Text) : Bool :=
  match re with
  | [] => matchFrom [] text
  | r :: re => if r = caret then matchhere re text else matchFrom (r :: re) text

section Language

def Stands (c x : Chr) : Prop := c = dot ∨ c = x

def single (c : Chr) : Language Chr := {word | ∃ x, word = [x] ∧ Stands c x}

/-- The language of a pattern, and whether the text has to end after it. -/
def language : Text → Language Chr × Bool
  | [] => (1, false)
  | [r] => if r = dollar then (1, true) else (single r, false)
  | r :: r' :: re =>
      if r' = star then (KStar.kstar (single r) * (language re).1, (language re).2)
      else (single r * (language (r' :: re)).1, (language (r' :: re)).2)

def Begins (re text : Text) : Prop :=
  ∃ word rest, text = word ++ rest ∧ word ∈ (language re).1 ∧ ((language re).2 = true → rest = [])

/-- Some part of the text is a word of the language: the beginning if the pattern starts with
`^`, the end if it ends with `$`. -/
def Matches : Text → Text → Prop
  | [], text => ∃ before after, text = before ++ after ∧ Begins [] after
  | r :: re, text =>
      if r = caret then Begins re text
      else ∃ before after, text = before ++ after ∧ Begins (r :: re) after

theorem mem_kstar_single {c : Chr} {word : Text} :
    word ∈ KStar.kstar (single c) ↔ ∀ x ∈ word, Stands c x := by
  rw [Language.mem_kstar]
  constructor
  · rintro ⟨words, rfl, hwords⟩ x hx
    obtain ⟨part, hpart, hx⟩ := List.mem_flatten.mp hx
    obtain ⟨y, rfl, hy⟩ := hwords part hpart
    rw [List.mem_singleton.mp hx]
    exact hy
  · intro hword
    refine ⟨word.map fun x => [x], ?_, ?_⟩
    · induction word with
      | nil => rfl
      | cons x word ih =>
        rw [List.map_cons, List.flatten_cons, ← ih fun y hy => hword y (List.mem_cons_of_mem _ hy)]
        rfl
    · intro part hpart
      obtain ⟨x, hx, rfl⟩ := List.mem_map.mp hpart
      exact ⟨x, rfl, hword x hx⟩

end Language

section Correct

theorem matchstar_iff {c : Chr} {here : Text → Bool} (text : Text) :
    matchstar c here text = true ↔
      ∃ word rest, text = word ++ rest ∧ word ∈ KStar.kstar (single c) ∧ here rest = true := by
  simp only [mem_kstar_single]
  induction text with
  | nil =>
    rw [matchstar]
    constructor
    · intro hhere
      exact ⟨[], [], rfl, by simp, hhere⟩
    · rintro ⟨word, rest, hsplit, -, hhere⟩
      obtain ⟨rfl, rfl⟩ := List.append_eq_nil_iff.mp hsplit.symm
      exact hhere
  | cons t text ih =>
    have hstands : t = c ∨ c = dot ↔ Stands c t := or_comm.trans (or_congr_right eq_comm)
    rw [matchstar, Bool.or_eq_true, Bool.and_eq_true, Bool.or_eq_true, decide_eq_true_eq,
      decide_eq_true_eq, hstands, ih]
    constructor
    · rintro (hhere | ⟨ht, word, rest, rfl, hword, hhere⟩)
      · exact ⟨[], t :: text, rfl, by simp, hhere⟩
      · exact ⟨t :: word, rest, rfl, List.forall_mem_cons.mpr ⟨ht, hword⟩, hhere⟩
    · rintro ⟨word, rest, hsplit, hword, hhere⟩
      cases word with
      | nil =>
        rw [hsplit]
        exact Or.inl hhere
      | cons x word =>
        obtain ⟨rfl, rfl⟩ := List.cons.inj hsplit
        obtain ⟨ht, hword⟩ := List.forall_mem_cons.mp hword
        exact Or.inr ⟨ht, word, rest, rfl, hword, hhere⟩

theorem single_mul_iff {c : Chr} {l : Language Chr} {e : Bool} (text : Text) :
    (∃ word rest, text = word ++ rest ∧ word ∈ single c * l ∧ (e = true → rest = [])) ↔
      ∃ t text', text = t :: text' ∧ Stands c t ∧
        ∃ word rest, text' = word ++ rest ∧ word ∈ l ∧ (e = true → rest = []) := by
  constructor
  · rintro ⟨word, rest, rfl, hword, hend⟩
    obtain ⟨first, ⟨t, rfl, ht⟩, word, hl, rfl⟩ := Language.mem_mul.mp hword
    exact ⟨t, word ++ rest, rfl, ht, word, rest, rfl, hl, hend⟩
  · rintro ⟨t, text', rfl, ht, word, rest, rfl, hl, hend⟩
    exact ⟨t :: word, rest, rfl, Language.mem_mul.mpr ⟨[t], ⟨t, rfl, ht⟩, word, hl, rfl⟩, hend⟩

theorem matchhere_iff : ∀ re text : Text, matchhere re text = true ↔ Begins re text
  | [], text => by
    have hbegins : Begins [] text := ⟨[], text, rfl, Language.nil_mem_one, by simp [language]⟩
    simp [matchhere, hbegins]
  | [r], text => by
    unfold matchhere Begins language
    by_cases hend : r = dollar
    · simp only [if_pos hend, decide_eq_true_eq, forall_const]
      constructor
      · rintro rfl
        exact ⟨[], [], rfl, Language.nil_mem_one, rfl⟩
      · rintro ⟨word, rest, rfl, hword, rfl⟩
        rw [(Language.mem_one word).mp hword]
        rfl
    · simp only [if_neg hend]
      have hone := single_mul_iff (c := r) (l := 1) (e := false) text
      rw [mul_one] at hone
      rw [hone]
      cases text with
      | nil => simp
      | cons t text =>
        have hrest : ∃ word rest, text = word ++ rest ∧ word ∈ (1 : Language Chr) ∧
            (false = true → rest = []) := ⟨[], text, rfl, Language.nil_mem_one, by simp⟩
        rw [Bool.or_eq_true, decide_eq_true_eq, decide_eq_true_eq]
        constructor
        · intro hstands
          exact ⟨t, text, rfl, hstands, hrest⟩
        · rintro ⟨t', text', heq, hstands, -⟩
          cases heq
          exact hstands
  | r :: r' :: re, text => by
    have hrest := matchhere_iff re
    have hnext := matchhere_iff (r' :: re)
    unfold Begins at hrest hnext ⊢
    unfold matchhere language
    by_cases hstar : r' = star
    · simp only [if_pos hstar]
      rw [matchstar_iff]
      constructor
      · rintro ⟨word, after, rfl, hword, hhere⟩
        obtain ⟨word', rest, rfl, hword', hend⟩ := (hrest after).mp hhere
        refine ⟨word ++ word', rest, (List.append_assoc ..).symm, ?_, hend⟩
        exact Language.mem_mul.mpr ⟨word, hword, word', hword', rfl⟩
      · rintro ⟨both, rest, rfl, hboth, hend⟩
        obtain ⟨word, hword, word', hword', rfl⟩ := Language.mem_mul.mp hboth
        refine ⟨word, word' ++ rest, List.append_assoc .., hword, ?_⟩
        exact (hrest _).mpr ⟨word', rest, rfl, hword', hend⟩
    · simp only [if_neg hstar]
      rw [single_mul_iff]
      cases text with
      | nil => simp
      | cons t text =>
        dsimp only
        rw [Bool.and_eq_true, Bool.or_eq_true, decide_eq_true_eq, decide_eq_true_eq, hnext text]
        constructor
        · rintro ⟨hstands, hrest⟩
          exact ⟨t, text, rfl, hstands, hrest⟩
        · rintro ⟨t', text', heq, hstands, hrest⟩
          cases heq
          exact ⟨hstands, hrest⟩

theorem matchFrom_iff (re text : Text) : matchFrom re text = true ↔
    ∃ before after, text = before ++ after ∧ Begins re after := by
  induction text with
  | nil =>
    rw [matchFrom, matchhere_iff]
    constructor
    · intro hhere
      exact ⟨[], [], rfl, hhere⟩
    · rintro ⟨before, after, hsplit, hhere⟩
      obtain ⟨rfl, rfl⟩ := List.append_eq_nil_iff.mp hsplit.symm
      exact hhere
  | cons t text ih =>
    rw [matchFrom, Bool.or_eq_true, matchhere_iff, ih]
    constructor
    · rintro (hhere | ⟨before, after, rfl, hhere⟩)
      · exact ⟨[], t :: text, rfl, hhere⟩
      · exact ⟨t :: before, after, rfl, hhere⟩
    · rintro ⟨before, after, hsplit, hhere⟩
      cases before with
      | nil =>
        rw [hsplit]
        exact Or.inl hhere
      | cons x before =>
        obtain ⟨rfl, rfl⟩ := List.cons.inj hsplit
        exact Or.inr ⟨before, after, rfl, hhere⟩

/-- The matcher decides the language of its pattern. -/
theorem grepMatch_iff (re text : Text) : grepMatch re text = true ↔ Matches re text := by
  cases re with
  | nil => exact matchFrom_iff [] text
  | cons r re =>
    rw [grepMatch, Matches]
    by_cases hanchor : r = caret
    · rw [if_pos hanchor, if_pos hanchor]
      exact matchhere_iff re text
    · rw [if_neg hanchor, if_neg hanchor]
      exact matchFrom_iff (r :: re) text

end Correct

end Xv6.User
