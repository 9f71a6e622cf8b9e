import Xv6.Lib.Prog

/-! A program that runs alone. What the logic proves of its program is what a run
of the program does, as long as the allocator has cells. -/
namespace Xv6.Lib

structure Alone (S : Sig) where
  free : List S.Cell
  mem : S.Cell → S.Content
  short : Bool

variable {S : Sig} [DecidableEq S.Cell] {α : Type}

def Prog.run (M : Machine S) : Prog S α → Alone S → Except S.Panic α × Alone S
  | .ret a, s => (.ok a, s)
  | .panic e, s => (.error e, s)
  | .alloc k, s =>
      match s.free with
      | [] => (k none).run M { s with short := true }
      | c :: rest =>
          (k (some c)).run M { s with free := rest, mem := Function.update s.mem c M.fresh }
  | .free c k, s =>
      k.run M { s with free := c :: s.free, mem := Function.update s.mem c M.freed }
  | .read c k, s => (k (s.mem c)).run M s
  | .modify c f k, s => k.run M { s with mem := Function.update s.mem c (f (s.mem c)) }

/-- The program has the cells of `h`, and the allocator others. -/
structure Alone.Has (s : Alone S) (pool : S.Cell → Prop) (h : Heaplet S.Cell S.Content) :
    Prop where
  nodup : s.free.Nodup
  listed : ∀ c, c ∈ s.free → pool c ∧ h c = none
  mem : ∀ c x, h c = some x → s.mem c = x

/-- Cells have moved between the program and the allocator only, and all others hold what
they held. -/
structure Alone.Moves (s : Alone S) (h : Heaplet S.Cell S.Content) (s' : Alone S)
    (h' : Heaplet S.Cell S.Content) : Prop where
  cells : ∀ c, c ∈ s'.free ∨ h' c ≠ none ↔ c ∈ s.free ∨ h c ≠ none
  rest : ∀ c, c ∉ s.free → h c = none → s'.mem c = s.mem c

namespace Alone.Moves

variable {s s' s'' : Alone S} {h h' h'' : Heaplet S.Cell S.Content}

omit [DecidableEq S.Cell] in
theorem refl (s : Alone S) (h : Heaplet S.Cell S.Content) : s.Moves h s h :=
  ⟨fun _ => Iff.rfl, fun _ _ _ => rfl⟩

omit [DecidableEq S.Cell] in
theorem trans (hm : s.Moves h s' h') (hm' : s'.Moves h' s'' h'') : s.Moves h s'' h'' where
  cells c := (hm'.cells c).trans (hm.cells c)
  rest c hfree hnone := by
    have hout : ¬(c ∈ s'.free ∨ h' c ≠ none) := by
      rw [hm.cells c, not_or, not_not]
      exact ⟨hfree, hnone⟩
    rw [not_or, not_not] at hout
    exact (hm'.rest c hout.1 hout.2).trans (hm.rest c hfree hnone)

theorem update {c : S.Cell} {x : S.Content} {y : Option S.Content}
    (hfree : ∀ d, d ≠ c → (d ∈ s'.free ↔ d ∈ s.free)) (hc : c ∈ s.free ∨ h c ≠ none)
    (hc' : c ∈ s'.free ∨ y ≠ none) (hmem : s'.mem = Function.update s.mem c x) :
    s.Moves h s' (Function.update h c y) where
  cells d := by
    by_cases hd : d = c
    · subst hd
      rw [Function.update_self]
      exact iff_of_true hc' hc
    · rw [Function.update_of_ne hd, hfree d hd]
  rest d hd hnone := by
    have hne : d ≠ c := by
      rintro rfl
      exact hc.elim hd fun h => h hnone
    rw [hmem, Function.update_of_ne hne]

omit [DecidableEq S.Cell] in
theorem mem_free_iff {pool : S.Cell → Prop} (hm : s.Moves h s' h') (hs' : s'.Has pool h')
    {c : S.Cell} : c ∈ s'.free ↔ (c ∈ s.free ∨ h c ≠ none) ∧ h' c = none := by
  rw [← hm.cells c]
  constructor
  · intro hc
    exact ⟨Or.inl hc, (hs'.listed c hc).2⟩
  · rintro ⟨hc | hc, hnone⟩
    · exact hc
    · exact absurd hnone hc

omit [DecidableEq S.Cell] in
theorem split {pool : S.Cell → Prop} {new : Heaplet S.Cell S.Content} (hm : s.Moves h s' h')
    (hs : s.Has pool h) (hs' : s'.Has pool h') (hsplit : Heaplet.Splits h' h new) :
    (∀ c, c ∉ s.free → s'.mem c = s.mem c) ∧ (∀ c, new c ≠ none → c ∈ s.free) ∧
      ∀ c, c ∈ s'.free ↔ c ∈ s.free ∧ new c = none := by
  refine ⟨fun c hc => ?_, fun c hc => ?_, fun c => ?_⟩
  · cases hx : h c with
    | none => exact hm.rest c hc hx
    | some x => rw [hs.mem c x hx, hs'.mem c x (hsplit.of_left hx)]
  · refine ((hm.cells c).mp (Or.inr (hsplit.ne_none.mpr (Or.inr hc)))).resolve_right ?_
    exact not_not.mpr (hsplit.left_none hc)
  · rw [hm.mem_free_iff hs', hsplit.eq_none]
    constructor
    · rintro ⟨hc, hnone, hnew⟩
      exact ⟨hc.resolve_right (not_not.mpr hnone), hnew⟩
    · rintro ⟨hc, hnew⟩
      exact ⟨Or.inl hc, (hs.listed c hc).2, hnew⟩

end Alone.Moves

section Run

variable {M : Machine S} {P : Protocol S} {p : Prog S α} {s : Alone S}
  {post : α → Heaplet S.Cell S.Content → Prop} {h : Heaplet S.Cell S.Content}

theorem Prog.short_run (hshort : s.short = true) : (p.run M s).2.short = true := by
  induction p generalizing s with
  | ret a => exact hshort
  | panic e => exact hshort
  | alloc k ih =>
    rw [run]
    split
    · exact ih none rfl
    · exact ih _ hshort
  | free c k ih => exact ih hshort
  | read c k ih => exact ih _ hshort
  | modify c f k ih => exact ih hshort

theorem Prog.run_bind {β : Type} {f : α → Prog S β} :
    (p >>= f).run M s =
      match p.run M s with
      | (.ok a, s') => (f a).run M s'
      | (.error e, s') => (.error e, s') := by
  show (p.bind f).run M s = _
  induction p generalizing s with
  | ret a => rfl
  | panic e => rfl
  | alloc k ih =>
    simp only [bind, run]
    split
    · exact ih none
    · exact ih _
  | free c k ih => exact ih
  | read c k ih => exact ih _
  | modify c f k ih => exact ih

def Alone.Ended (P : Protocol S) (post : α → Heaplet S.Cell S.Content → Prop) (s : Alone S)
    (h : Heaplet S.Cell S.Content) (r : Except S.Panic α × Alone S) : Prop :=
  (∃ e, r.1 = .error e ∧ P.accepted e) ∨
    ∃ a h', r.1 = .ok a ∧ post a h' ∧ r.2.Has P.pool h' ∧ s.Moves h r.2 h'

omit [DecidableEq S.Cell] in
theorem Alone.Moves.ended {s' : Alone S} {h' : Heaplet S.Cell S.Content}
    {r : Except S.Panic α × Alone S} (hm : s.Moves h s' h') (hr : Alone.Ended P post s' h' r) :
    Alone.Ended P post s h r := by
  refine hr.imp id ?_
  rintro ⟨a, h'', hok, hpost, hhas, hm'⟩
  exact ⟨a, h'', hok, hpost, hhas, hm.trans hm'⟩

/-- A run ends as the logic says, if it is never short of cells or the logic
reckons with it. -/
theorem Alone.Has.run (hs : s.Has P.pool h)
    (hp : wp M P p post h) (hlong : P.exhausts ∨ (p.run M s).2.short = false) :
    Alone.Ended P post s h (p.run M s) := by
  induction p generalizing s h with
  | ret a => exact Or.inr ⟨a, h, rfl, hp, hs, .refl s h⟩
  | panic e => exact Or.inl ⟨e, rfl, hp⟩
  | alloc k ih =>
    rw [Prog.run] at hlong ⊢
    split at hlong
    · rename_i hfree
      have hshort : P.exhausts := hlong.resolve_right fun h => by
        rw [Prog.short_run rfl] at h
        cases h
      have hm : s.Moves h { s with short := true } h := ⟨fun _ => Iff.rfl, fun _ _ _ => rfl⟩
      exact hm.ended (ih none ⟨hs.nodup, hs.listed, hs.mem⟩ (hp.1 hshort) hlong)
    · rename_i c rest hfree
      have hnodup := hs.nodup
      rw [hfree, List.nodup_cons] at hnodup
      obtain ⟨hpool, hnone⟩ := hs.listed c (by simp [hfree])
      have hm : s.Moves h { s with free := rest, mem := Function.update s.mem c M.fresh }
          (Function.update h c (some M.fresh)) := by
        refine .update (fun d hd => ?_) (Or.inl ?_) (Or.inr (by simp)) rfl
        · simp [hfree, hd]
        · simp [hfree]
      refine hm.ended (ih (some c) ⟨hnodup.2, fun d hd => ?_, fun d x hx => ?_⟩
        (hp.2 c hpool hnone) hlong)
      · have hdc : d ≠ c := fun heq => hnodup.1 (heq ▸ hd)
        rw [Function.update_of_ne hdc]
        exact hs.listed d (by simp [hfree, hd])
      · by_cases hdc : d = c
        · subst hdc
          simpa using hx
        · rw [Function.update_of_ne hdc] at hx
          exact (Function.update_of_ne hdc ..).trans (hs.mem d x hx)
  | free c k ih =>
    obtain ⟨hpool, hown, hp⟩ := hp
    have hm : s.Moves h { s with free := c :: s.free, mem := Function.update s.mem c M.freed }
        (Function.update h c none) := by
      refine .update (fun d hd => ?_) (Or.inr hown) (Or.inl (by simp)) rfl
      simp [hd]
    refine hm.ended (ih ⟨List.nodup_cons.mpr ⟨fun hc => hown (hs.listed c hc).2, hs.nodup⟩,
      fun d hd => ?_, fun d x hx => ?_⟩ hp hlong)
    · rcases List.mem_cons.mp hd with rfl | hd
      · exact ⟨hpool, by simp⟩
      · obtain ⟨hpool', hnone⟩ := hs.listed d hd
        have hdc : d ≠ c := fun heq => hown (heq ▸ hnone)
        exact ⟨hpool', by rw [Function.update_of_ne hdc, hnone]⟩
    · by_cases hdc : d = c
      · subst hdc
        simp at hx
      · rw [Function.update_of_ne hdc] at hx
        exact (Function.update_of_ne hdc ..).trans (hs.mem d x hx)
  | read c k ih =>
    obtain ⟨x, hx, hp⟩ := hp
    rw [← hs.mem c x hx] at hp
    exact ih _ hs hp hlong
  | modify c f k ih =>
    obtain ⟨x, hx, hp⟩ := hp
    rw [← hs.mem c x hx] at hp
    have hm : s.Moves h { s with mem := Function.update s.mem c (f (s.mem c)) }
        (Function.update h c (some (f (s.mem c)))) :=
      .update (fun _ _ => Iff.rfl) (Or.inr (by simp [hx])) (Or.inr (by simp)) rfl
    refine hm.ended (ih ⟨hs.nodup, fun d hd => ?_, fun d y hy => ?_⟩ hp hlong)
    · obtain ⟨hpool, hnone⟩ := hs.listed d hd
      have hdc : d ≠ c := by
        rintro rfl
        rw [hx] at hnone
        cases hnone
      exact ⟨hpool, by rw [Function.update_of_ne hdc, hnone]⟩
    · by_cases hdc : d = c
      · subst hdc
        simpa using hy
      · rw [Function.update_of_ne hdc] at hy
        exact (Function.update_of_ne hdc ..).trans (hs.mem d y hy)

end Run

end Xv6.Lib
