import Xv6.Sched.Exclusive

/-! A process runs on at most one CPU: every step keeps the invariant. -/
namespace Xv6.Sched.Switch

open Lib

variable {C : Type} [DecidableEq C] {s t : State C}

section Points

variable {c : C} {q : Slot} {point next : Point}

section Hop

omit [DecidableEq C]

theorem Hop.held (h : Hop s c point next) : next.held = point.held := by cases h <;> rfl

theorem Hop.proc (h : Hop s c point next) : next.proc = point.proc := by cases h <;> rfl

theorem Hop.runs (h : Hop s c point next) : next.runs = point.runs := by cases h <;> rfl

theorem Hop.not_quit (h : Hop s c point next) {state : ProcState} {resume : Resume} :
    ¬Quit q point state resume := by
  cases h <;> nofun

theorem Hop.stores (h : Hop s c point next) : point.stores = none ∧ next.stores = none := by
  cases h <;> exact ⟨rfl, rfl⟩

theorem Hop.loads (h : Hop s c point next) {p : Slot} (hp : next.loads = some p) :
    (s.proc p).state = .runnable ∧ point.held = some p := by
  cases h <;> cases hp
  exact ⟨‹_›, rfl⟩

theorem Hop.inside (h : Hop s c point next) {p : Slot} (hp : next.inside = some p) :
    point.inside = some p := by
  cases h <;> first | exact hp | cases hp

theorem Hop.leaves (h : Hop s c point next) : next.leaves = point.leaves := by cases h <;> rfl

end Hop

theorem Take.held (h : Take q point next) : point.held = none ∧ next.held = some q := by
  cases h <;> exact ⟨rfl, rfl⟩

theorem Take.same (h : Take q point next) : next.proc = point.proc ∧ next.runs = point.runs ∧
    next.inside = point.inside ∧ next.op = point.op := by
  cases h <;> exact ⟨rfl, rfl, rfl, rfl⟩

theorem Take.not_quit (h : Take q point next) {p : Slot} {state : ProcState} {resume : Resume} :
    ¬Quit p point state resume := by
  cases h <;> nofun

theorem Take.fresh (h : Take q point next) :
    next.leaves = none ∧ next.loads = none ∧ next.stores = none ∧ point.stores = none := by
  cases h <;> exact ⟨rfl, rfl, rfl, rfl⟩

theorem Drop.held (h : Drop q point next) : point.held = some q ∧ next.held = none := by
  cases h <;> exact ⟨rfl, rfl⟩

theorem Drop.same (h : Drop q point next) : next.proc = point.proc ∧ next.runs = point.runs ∧
    next.inside = point.inside := by
  cases h <;> exact ⟨rfl, rfl, rfl⟩

theorem Drop.not_quit (h : Drop q point next) {p : Slot} {state : ProcState} {resume : Resume} :
    ¬Quit p point state resume := by
  cases h <;> nofun

theorem Drop.fresh (h : Drop q point next) : next.leaves = none ∧ next.loads = none ∧
    next.stores = none ∧ point.stores = none ∧ next.op = none := by
  cases h <;> exact ⟨rfl, rfl, rfl, rfl, rfl⟩

theorem Quit.running {state : ProcState} {resume : Resume} (h : Quit q point state resume) :
    point.held = some q ∧ point.proc = some q ∧ point.runs = some q ∧ point.inside = some q ∧
      point.stores = none := by
  cases h <;> exact ⟨rfl, rfl, rfl, rfl, rfl⟩

theorem Quit.state {state : ProcState} {resume : Resume} (h : Quit q point state resume) :
    state ≠ .running ∧ (resume = .exit → state = .zombie) := by
  cases h <;> exact ⟨nofun, by simp⟩

end Points

section Sections

variable {op : Op} {pid : Int} {p : Proc}

theorem Op.apply_running (h : p.state = .running) (hop : op ≠ .forkDone) :
    (op.apply pid p).state = .running := by
  cases op <;> simp_all [Op.apply, Proc.wakeup, Proc.kill, Proc.setPriority] <;> grind

theorem Op.apply_not_running (h : p.state ≠ .running) : (op.apply pid p).state ≠ .running := by
  cases op <;>
    simp [Op.apply, Proc.wakeup, Proc.kill, Proc.setPriority, Proc.found, freeproc] <;> grind

theorem Op.apply_used (h : p.state = .used) (hop : op ≠ .forkDone) :
    (op.apply pid p).state = .used := by
  cases op <;> simp_all [Op.apply, Proc.wakeup, Proc.kill, Proc.setPriority] <;> grind

theorem Op.apply_waits (h : Waits (op.apply pid p).state) (hop : op ≠ .forkDone) :
    Waits p.state ∨ (op = .alloc true ∧ p.state = .unused) := by
  cases op <;>
    simp [Waits, Op.apply, Proc.wakeup, Proc.kill, Proc.setPriority, Proc.found, freeproc] at * <;>
    grind

end Sections

variable {c : C}

theorem Inv.lock_move (hs : Inv s) (h : Move s c t) :
    Agree (fun _ q point => point.held = some q) t.lock t.point := by
  cases h with
  | hop h =>
    refine hs.lock.move fun q => ?_
    rw [h.held]
  | take hfree h =>
    refine hs.lock.take hfree fun q => ?_
    simp [h.held, eq_comm]
  | drop hheld h =>
    refine hs.lock.drop h.held.1 fun q => ?_
    simp [h.held, eq_comm]
  | quit h =>
    refine hs.lock.move fun q => ?_
    rw [h.running.1]
    rfl
  | setState hpoint | setProc hpoint | save hpoint | saved hpoint | clearProc hpoint | sched hpoint
  | saving hpoint | op hpoint =>
    refine hs.lock.move fun q => ?_
    rw [hpoint]
    rfl

theorem Move.others (h : Move s c t) {c' : C} (hc : c' ≠ c) :
    t.point c' = s.point c' ∧ t.cproc c' = s.cproc c' ∧ t.ccontext c' = s.ccontext c' := by
  cases h <;> simp [State.goto, State.setLock, State.put, State.setCproc, State.setCcontext,
    State.setContext, runOp, Function.update_of_ne hc]

theorem Inv.cproc_move (hs : Inv s) (h : Move s c t) (c' : C) : t.cproc c' = (t.point c').proc := by
  by_cases hc : c' = c
  · subst hc
    have hbefore := hs.cproc c'
    cases h with
    | hop h => simp [State.goto, hbefore, h.proc]
    | take _ h => simp [State.goto, State.setLock, hbefore, h.same]
    | drop _ h => simp [State.goto, State.setLock, State.put, hbefore, h.same]
    | setProc | clearProc => simp [State.goto, State.setCproc, Point.proc]
    | quit h =>
      rw [h.running.2.1] at hbefore
      simp [State.goto, State.put, hbefore, Point.proc]
    | setState hpoint | save hpoint | saved hpoint | sched hpoint | saving hpoint | op hpoint =>
      rw [hpoint] at hbefore
      simp [State.goto, State.put, State.setCcontext, State.setContext, runOp, hbefore, Point.proc]
  · rw [(h.others hc).1, (h.others hc).2.1]
    exact hs.cproc c'

theorem Inv.ccontext_move (hs : Inv s) (h : Move s c t) (c' : C) (p : Slot)
    (hinside : (t.point c').inside = some p) : ∃ highest, t.ccontext c' = some (p, highest) := by
  by_cases hc : c' = c
  · subst hc
    have hbefore := hs.ccontext c' p
    cases h with
    | hop h =>
      simp only [State.goto, Function.update_self] at hinside
      exact hbefore (h.inside hinside)
    | take _ h =>
      simp only [State.goto, Function.update_self, h.same] at hinside
      exact hbefore hinside
    | drop _ h =>
      simp only [State.goto, Function.update_self, h.same] at hinside
      exact hbefore hinside
    | saved =>
      simp only [State.goto, Function.update_self, Point.inside, Option.some.injEq] at hinside
      subst hinside
      exact ⟨_, Function.update_self ..⟩
    | quit h =>
      simp only [State.goto, Function.update_self, Point.inside] at hinside
      exact hbefore (h.running.2.2.2.1.trans hinside)
    | sched hpoint | saving hpoint | op hpoint =>
      simp only [State.goto, Function.update_self, Point.inside] at hinside
      rw [hpoint] at hbefore
      exact hbefore hinside
    | setState | setProc | save | clearProc =>
      simp [State.goto, Point.inside] at hinside
  · rw [(h.others hc).1] at hinside
    rw [(h.others hc).2.2]
    exact hs.ccontext c' p hinside

theorem Move.becomes_running (h : Move s c t) {p : Slot} (hrun : (t.proc p).state = .running) :
    (s.proc p).state = .running ∨ ∃ highest, s.point c = .setState p highest := by
  cases h with
  | hop | take | setProc | save | saved | clearProc | sched | saving => exact .inl hrun
  | @drop q next p' _ _ hstate =>
    refine .inl ?_
    by_cases hp : p = q
    · subst hp
      simpa [State.goto, State.setLock, State.put, hstate] using hrun
    · simpa [State.goto, State.setLock, State.put, Function.update_of_ne hp] using hrun
  | @setState i highest p' hpoint =>
    by_cases hp : p = i
    · exact .inr ⟨highest, hp ▸ hpoint⟩
    · exact .inl (by simpa [State.goto, State.put, Function.update_of_ne hp] using hrun)
  | @quit q p' state resume hquit hstate =>
    by_cases hp : p = q
    · subst hp
      simp [State.goto, State.put, hstate, hquit.state] at hrun
    · exact .inl (by simpa [State.goto, State.put, Function.update_of_ne hp] using hrun)
  | @op op q back hpoint =>
    by_cases hp : p = q
    · subst hp
      by_contra hnot
      push Not at hnot
      exact Op.apply_not_running hnot.1 (by simpa [State.goto, runOp] using hrun)
    · exact .inl (by simpa [State.goto, runOp, Function.update_of_ne hp] using hrun)

theorem Inv.stays_running (hs : Inv s) (h : Move s c t) {p : Slot}
    (hrun : (s.proc p).state = .running) :
    (t.proc p).state = .running ∨ ∃ state resume, Quit p (s.point c) state resume := by
  cases h with
  | hop | take | setProc | save | saved | clearProc | sched | saving => exact .inl hrun
  | @drop q next p' _ _ hstate =>
    refine .inl ?_
    by_cases hp : p = q
    · subst hp
      simpa [State.goto, State.setLock, State.put, hstate] using hrun
    · simpa [State.goto, State.setLock, State.put, Function.update_of_ne hp] using hrun
  | @setState i highest p' hpoint hstate =>
    refine .inl ?_
    by_cases hp : p = i
    · subst hp
      simpa [State.goto, State.put] using hstate
    · simpa [State.goto, State.put, Function.update_of_ne hp] using hrun
  | @quit q p' state resume hquit hstate =>
    by_cases hp : p = q
    · subst hp
      exact .inr ⟨state, resume, hquit⟩
    · exact .inl (by simpa [State.goto, State.put, Function.update_of_ne hp] using hrun)
  | @op op q back hpoint =>
    refine .inl ?_
    by_cases hp : p = q
    · subst hp
      have hop : op ≠ .forkDone := by
        rintro rfl
        obtain ⟨me, -, hchild⟩ := hs.done c p back (by rw [hpoint]; rfl)
        simp [hs.child_used me p hchild] at hrun
      simpa [State.goto, runOp] using Op.apply_running hrun hop
    · simpa [State.goto, runOp, Function.update_of_ne hp] using hrun

theorem Move.runs_from (h : Move s c t) {p : Slot} (hruns : (t.point c).runs = some p) :
    ((s.point c).runs = some p ∧ ∀ state resume, ¬Quit p (s.point c) state resume) ∨
      ∃ highest, s.point c = .setState p highest := by
  cases h with
  | hop h =>
    simp only [State.goto, Function.update_self, h.runs] at hruns
    exact .inl ⟨hruns, fun _ _ => h.not_quit⟩
  | take _ h =>
    simp only [State.goto, Function.update_self, h.same] at hruns
    exact .inl ⟨hruns, fun _ _ => h.not_quit⟩
  | drop _ h =>
    simp only [State.goto, Function.update_self, h.same] at hruns
    exact .inl ⟨hruns, fun _ _ => h.not_quit⟩
  | setState hpoint =>
    simp only [State.goto, Function.update_self, Point.runs, Option.some.injEq] at hruns
    exact .inr ⟨_, hruns ▸ hpoint⟩
  | setProc hpoint | save hpoint | saved hpoint | op hpoint =>
    simp only [State.goto, Function.update_self, Point.runs] at hruns
    rw [hpoint]
    exact .inl ⟨hruns, nofun⟩
  | clearProc | quit | sched | saving =>
    simp [State.goto, Point.runs] at hruns

theorem Move.runs_to (h : Move s c t) {p : Slot} (hruns : (s.point c).runs = some p) :
    (t.point c).runs = some p ∨ (t.proc p).state ≠ .running := by
  cases h with
  | hop h => exact .inl (by simp [State.goto, h.runs, hruns])
  | take _ h => exact .inl (by simp [State.goto, h.same, hruns])
  | drop _ h => exact .inl (by simp [State.goto, h.same, hruns])
  | quit h hstate =>
    rw [h.running.2.2.1] at hruns
    cases hruns
    refine .inr ?_
    simp [State.goto, State.put, hstate, h.state]
  | setProc hpoint | save hpoint | saved hpoint | op hpoint =>
    rw [hpoint] at hruns
    exact .inl (by simpa [State.goto, Point.runs] using hruns)
  | setState hpoint | clearProc hpoint | sched hpoint | saving hpoint =>
    rw [hpoint] at hruns
    cases hruns

theorem Move.setState_running (h : Move s c t) {p : Slot} {highest : Int}
    (hpoint : s.point c = .setState p highest) :
    (t.proc p).state = .running ∧ (t.point c).runs = some p := by
  cases h with
  | setState hpoint' hstate =>
    rw [hpoint] at hpoint'
    cases hpoint'
    exact ⟨by simpa [State.goto, State.put] using hstate, by simp [State.goto, Point.runs]⟩
  | hop h =>
    rw [hpoint] at h
    cases h
  | take _ h =>
    rw [hpoint] at h
    cases h
  | drop _ h =>
    rw [hpoint] at h
    cases h
  | quit h =>
    rw [hpoint] at h
    cases h
  | setProc hpoint' | save hpoint' | saved hpoint' | clearProc hpoint' | sched hpoint'
  | saving hpoint' | op hpoint' =>
    rw [hpoint] at hpoint'
    cases hpoint'

theorem Inv.runs_move (hs : Inv s) (h : Move s c t) (c' : C) (p : Slot)
    (hruns : (t.point c').runs = some p) : (t.proc p).state = .running := by
  by_cases hc : c' = c
  · subst hc
    rcases h.runs_from hruns with ⟨hbefore, hquit⟩ | ⟨highest, hpoint⟩
    · rcases hs.stays_running h (hs.runs c' p hbefore) with hrun | ⟨state, resume, hquit'⟩
      · exact hrun
      · exact absurd hquit' (hquit state resume)
    · exact (h.setState_running hpoint).1
  · rw [(h.others hc).1] at hruns
    rcases hs.stays_running h (hs.runs c' p hruns) with hrun | ⟨state, resume, hquit⟩
    · exact hrun
    · exact absurd (hs.unique c' c p hruns hquit.running.2.2.1) hc

theorem Inv.running_move (hs : Inv s) (h : Move s c t) (p : Slot)
    (hrun : (t.proc p).state = .running) : ∃ c, (t.point c).runs = some p := by
  rcases h.becomes_running hrun with hbefore | ⟨highest, hpoint⟩
  · obtain ⟨c', hruns⟩ := hs.running p hbefore
    by_cases hc : c' = c
    · subst hc
      exact ⟨c', (h.runs_to hruns).resolve_right (absurd hrun)⟩
    · exact ⟨c', by rw [(h.others hc).1, hruns]⟩
  · exact ⟨c, (h.setState_running hpoint).2⟩

theorem Inv.unique_move (hs : Inv s) (h : Move s c t) (c₁ c₂ : C) (p : Slot)
    (h₁ : (t.point c₁).runs = some p) (h₂ : (t.point c₂).runs = some p) : c₁ = c₂ := by
  -- A CPU that runs `p` after the step ran it before, or has just made it RUNNING.
  have hfrom : ∀ c', (t.point c').runs = some p → (s.point c').runs = some p ∨
      (c' = c ∧ (s.proc p).state = .runnable) := by
    intro c' hruns
    by_cases hc : c' = c
    · subst hc
      rcases h.runs_from hruns with ⟨hbefore, -⟩ | ⟨highest, hpoint⟩
      · exact .inl hbefore
      · exact .inr ⟨rfl, hs.ready c' p highest hpoint⟩
    · rw [(h.others hc).1] at hruns
      exact .inl hruns
  rcases hfrom c₁ h₁ with hb₁ | ⟨rfl, hready⟩ <;> rcases hfrom c₂ h₂ with hb₂ | ⟨rfl, hready'⟩
  · exact hs.unique c₁ c₂ p hb₁ hb₂
  · simp [hs.runs c₁ p hb₁] at hready'
  · simp [hs.runs c₂ p hb₂] at hready
  · rfl

theorem Inv.held_by_other (hs : Inv s) (h : Move s c t) {c' : C} (hc : c' ≠ c) {p : Slot}
    (hheld : (s.point c').held = some p) :
    t.proc p = s.proc p ∧ t.context p = s.context p := by
  have hne : ∀ q, (s.point c).held = some q → p ≠ q := by
    rintro q hq rfl
    exact hc (hs.lock.eq_of_holds hheld hq)
  cases h with
  | hop | take | setProc | save | saved | clearProc => exact ⟨rfl, rfl⟩
  | drop _ h => exact ⟨Function.update_of_ne (hne _ h.held.1) .., rfl⟩
  | quit h => exact ⟨Function.update_of_ne (hne _ h.running.1) .., rfl⟩
  | setState hpoint => exact ⟨Function.update_of_ne (hne _ (by rw [hpoint]; rfl)) .., rfl⟩
  | sched hpoint | saving hpoint =>
    exact ⟨rfl, Function.update_of_ne (hne _ (by rw [hpoint]; rfl)) ..⟩
  | op hpoint =>
    have hq := hne _ (by rw [hpoint]; rfl)
    refine ⟨Function.update_of_ne hq .., ?_⟩
    simp only [State.goto, runOp]
    split
    · exact Function.update_of_ne hq ..
    · rfl

theorem Point.leaves_held {point : Point} {p : Slot} (h : point.leaves = some p) :
    point.held = some p := by
  cases point <;> first | exact h | cases h

theorem Point.loads_held {point : Point} {p : Slot} (h : point.loads = some p) :
    point.held = some p := by
  cases point <;> first | exact h | cases h

theorem Point.stores_held {point : Point} {p : Slot} {resume : Resume}
    (h : point.stores = some (p, resume)) : point.held = some p := by
  cases point <;> cases h <;> rfl

theorem Inv.leaves_move (hs : Inv s) (h : Move s c t) (c' : C) (p : Slot)
    (hleaves : (t.point c').leaves = some p) : (t.proc p).state ≠ .running := by
  by_cases hc : c' = c
  · subst hc
    have hbefore := hs.leaves c' p
    cases h with
    | hop h =>
      simp only [State.goto, Function.update_self, h.leaves] at hleaves
      exact hbefore hleaves
    | quit h hstate =>
      simp only [State.goto, Function.update_self, Point.leaves, Option.some.injEq] at hleaves
      subst hleaves
      simp [State.goto, State.put, hstate, h.state]
    | sched hpoint | saving hpoint =>
      simp only [State.goto, Function.update_self, Point.leaves] at hleaves
      rw [hpoint] at hbefore
      exact hbefore hleaves
    | take _ h => simp [State.goto, h.fresh] at hleaves
    | drop _ h => simp [State.goto, h.fresh] at hleaves
    | setState | setProc | save | saved | clearProc | op =>
      simp [State.goto, Point.leaves] at hleaves
  · rw [(h.others hc).1] at hleaves
    rw [(hs.held_by_other h hc (Point.leaves_held hleaves)).1]
    exact hs.leaves c' p hleaves

theorem Inv.ready_move (hs : Inv s) (h : Move s c t) (c' : C) (i : Slot) (highest : Int)
    (hpoint : t.point c' = .setState i highest) : (t.proc i).state = .runnable := by
  by_cases hc : c' = c
  · subst hc
    cases h with
    | hop h =>
      simp only [State.goto, Function.update_self] at hpoint
      subst hpoint
      generalize s.point c' = point at h
      cases h with
      | found hrunnable => exact hrunnable
    | take _ h =>
      simp only [State.goto, Function.update_self] at hpoint
      subst hpoint
      exact absurd h.fresh.2.1 nofun
    | drop _ h =>
      simp only [State.goto, Function.update_self] at hpoint
      subst hpoint
      exact absurd h.fresh.2.1 nofun
    | _ =>
      simp [State.goto] at hpoint
  · rw [(h.others hc).1] at hpoint
    rw [(hs.held_by_other h hc (by rw [hpoint]; rfl)).1]
    exact hs.ready c' i highest hpoint

theorem Inv.loads_move (hs : Inv s) (h : Move s c t) (c' : C) (p : Slot)
    (hloads : (t.point c').loads = some p) : Good (t.context p) := by
  by_cases hc : c' = c
  · subst hc
    have hbefore := hs.loads c' p
    cases h with
    | hop h =>
      simp only [State.goto, Function.update_self] at hloads
      obtain ⟨hrunnable, hheld⟩ := h.loads hloads
      -- No other CPU can be storing the context: the lock is held here.
      refine hs.context p (.inr (.inl hrunnable)) fun c'' resume hstores => ?_
      have hc := hs.lock.eq_of_holds (c := c') hheld (Point.stores_held hstores)
      rw [← hc, h.stores.1] at hstores
      cases hstores
    | setState hpoint | setProc hpoint | save hpoint | saved hpoint =>
      simp only [State.goto, Function.update_self, Point.loads] at hloads
      rw [hpoint] at hbefore
      exact hbefore hloads
    | take _ h => simp [State.goto, h.fresh] at hloads
    | drop _ h => simp [State.goto, h.fresh] at hloads
    | clearProc | quit | sched | saving | op => simp [State.goto, Point.loads] at hloads
  · rw [(h.others hc).1] at hloads
    rw [(hs.held_by_other h hc (Point.loads_held hloads)).2]
    exact hs.loads c' p hloads

theorem Inv.stores_move (hs : Inv s) (h : Move s c t) (c' : C) (p : Slot)
    (hstores : (t.point c').stores = some (p, .exit)) : (t.proc p).state = .zombie := by
  by_cases hc : c' = c
  · subst hc
    have hbefore := hs.stores c' p
    cases h with
    | quit h hstate =>
      simp only [State.goto, Function.update_self, Point.stores, Option.some.injEq,
        Prod.mk.injEq] at hstores
      obtain ⟨rfl, rfl⟩ := hstores
      simp [State.goto, State.put, hstate, h.state]
    | sched hpoint =>
      simp only [State.goto, Function.update_self, Point.stores] at hstores
      rw [hpoint] at hbefore
      exact hbefore hstores
    | hop h => simp [State.goto, h.stores] at hstores
    | take _ h => simp [State.goto, h.fresh] at hstores
    | drop _ h => simp [State.goto, h.fresh] at hstores
    | setState | setProc | save | saved | clearProc | saving | op =>
      simp [State.goto, Point.stores] at hstores
  · rw [(h.others hc).1] at hstores
    rw [(hs.held_by_other h hc (Point.stores_held hstores)).1]
    exact hs.stores c' p hstores

theorem Move.stores_to (h : Move s c t) {p : Slot}
    (hnone : ∀ c' resume, (t.point c').stores ≠ some (p, resume)) :
    (∀ c' resume, (s.point c').stores ≠ some (p, resume)) ∨
      ∃ resume, s.point c = .saving p resume := by
  by_contra hcon
  push Not at hcon
  obtain ⟨⟨c', resume, hstores⟩, hsaving⟩ := hcon
  by_cases hc : c' = c
  · subst hc
    have hafter := hnone c'
    cases h with
    | sched hpoint =>
      rw [hpoint] at hstores
      exact hafter resume (by simpa [State.goto, Point.stores] using hstores)
    | saving hpoint =>
      rw [hpoint] at hstores
      cases hstores
      exact hsaving _ hpoint
    | hop h => simp [h.stores] at hstores
    | take _ h => simp [h.fresh] at hstores
    | drop _ h => simp [h.fresh] at hstores
    | quit h => simp [h.running] at hstores
    | setState hpoint | setProc hpoint | save hpoint | saved hpoint | clearProc hpoint
    | op hpoint =>
      simp [hpoint, Point.stores] at hstores
  · exact hnone c' resume (by rw [(h.others hc).1, hstores])

omit [DecidableEq C] in
theorem Inv.context_op (hs : Inv s) {op : Op} {q : Slot} {back : Spot}
    (hpoint : s.point c = .opAct op q back) {p : Slot}
    (hwaits : Waits ((runOp s op q back).proc p).state)
    (hbefore : Waits (s.proc p).state → Good (s.context p)) :
    Good ((runOp s op q back).context p) := by
  simp only [runOp] at hwaits ⊢
  by_cases hp : p = q
  · subst hp
    rw [Function.update_self] at hwaits
    split
    · rw [Function.update_self]
      exact ⟨.forkret, rfl, nofun⟩
    · rename_i halloc
      refine hbefore ?_
      by_cases hop : op = .forkDone
      · subst hop
        obtain ⟨me, -, hchild⟩ := hs.done c p back (by rw [hpoint]; rfl)
        exact .inl (hs.child_used me p hchild)
      · exact (Op.apply_waits hwaits hop).resolve_right halloc
  · rw [Function.update_of_ne hp] at hwaits
    split
    · rw [Function.update_of_ne hp]
      exact hbefore hwaits
    · exact hbefore hwaits

theorem Inv.context_move (hs : Inv s) (h : Move s c t) (p : Slot)
    (hwaits : Waits (t.proc p).state)
    (hnone : ∀ c' resume, (t.point c').stores ≠ some (p, resume)) : Good (t.context p) := by
  rcases h.stores_to hnone with hnone' | ⟨resume, hpoint⟩
  · have hbefore := fun hwaits => hs.context p hwaits hnone'
    cases h with
    | hop | take | setProc | save | saved | clearProc => exact hbefore hwaits
    | @drop q next p' _ _ hstate =>
      refine hbefore ?_
      by_cases hp : p = q
      · subst hp
        simpa [State.goto, State.setLock, State.put, hstate] using hwaits
      · simpa [State.goto, State.setLock, State.put, Function.update_of_ne hp] using hwaits
    | @setState i highest p' _ hstate =>
      refine hbefore ?_
      by_cases hp : p = i
      · subst hp
        simp [State.goto, State.put, hstate, Waits] at hwaits
      · simpa [State.goto, State.put, Function.update_of_ne hp] using hwaits
    | @quit q p' state resume _ _ =>
      refine hbefore ?_
      have hp : p ≠ q := by
        rintro rfl
        exact hnone c resume (by simp [State.goto, Point.stores])
      simpa [State.goto, State.put, Function.update_of_ne hp] using hwaits
    | @sched q resume _ =>
      have hp : p ≠ q := by
        rintro rfl
        exact hnone c resume (by simp [State.goto, Point.stores])
      simpa [State.goto, State.setContext, Function.update_of_ne hp] using hbefore hwaits
    | @saving q resume hpoint =>
      have hp : p ≠ q := by
        rintro rfl
        exact hnone' c resume (by rw [hpoint]; rfl)
      simpa [State.goto, State.setContext, Function.update_of_ne hp] using hbefore hwaits
    | op hpoint => exact hs.context_op hpoint hwaits hbefore
  · have hexit : resume = .exit → (s.proc p).state = .zombie := by
      rintro rfl
      exact hs.stores c p (by rw [hpoint]; rfl)
    cases h with
    | saving hpoint' =>
      rw [hpoint] at hpoint'
      cases hpoint'
      refine ⟨resume, Function.update_self .., fun h => ?_⟩
      have hstate : (s.proc p).state = .zombie := hexit h
      have hwaits : Waits (s.proc p).state := hwaits
      simp [hstate, Waits] at hwaits
    | hop h =>
      rw [hpoint] at h
      cases h
    | take _ h =>
      rw [hpoint] at h
      cases h
    | drop _ h =>
      rw [hpoint] at h
      cases h
    | quit h =>
      rw [hpoint] at h
      cases h
    | setState hpoint' | setProc hpoint' | save hpoint' | saved hpoint' | clearProc hpoint'
    | sched hpoint' | op hpoint' =>
      rw [hpoint] at hpoint'
      cases hpoint'

theorem Op.child_cases {op : Op} {q : Slot} {p : Proc} {back : Spot} {child : Slot → Option Slot}
    {r r' : Slot} (h : op.child q p back child r = some r') :
    (back = .body r ∧ op = .alloc true ∧ p.state = .unused ∧ r' = q) ∨
      (child r = some r' ∧ (op = .forkDone → back ≠ .body r)) := by
  unfold Op.child at h
  split at h
  · rename_i me
    split at h
    · by_cases hr : r = me
      · subst hr
        rw [Function.update_self] at h
        exact .inl ⟨rfl, rfl, ‹_›, (Option.some.inj h).symm⟩
      · rw [Function.update_of_ne hr] at h
        exact .inr ⟨h, nofun⟩
    · exact .inr ⟨h, nofun⟩
  · rename_i me
    by_cases hr : r = me
    · subst hr
      rw [Function.update_self] at h
      cases h
    · rw [Function.update_of_ne hr] at h
      exact .inr ⟨h, fun _ hback => hr (by cases hback; rfl)⟩
  · rename_i hop
    exact .inr ⟨h, fun h hback => hop r h hback⟩

theorem Op.child_other {op : Op} {q : Slot} {p : Proc} {back : Spot} {child : Slot → Option Slot}
    {r : Slot} (hback : back ≠ .body r) : op.child q p back child r = child r := by
  unfold Op.child
  split
  · rename_i me
    have hr : r ≠ me := fun h => hback (h ▸ rfl)
    split
    · exact Function.update_of_ne hr ..
    · rfl
  · rename_i me
    have hr : r ≠ me := fun h => hback (h ▸ rfl)
    exact Function.update_of_ne hr ..
  · rfl

theorem Inv.child_used_move (hs : Inv s) (h : Move s c t) (r r' : Slot)
    (hchild : t.child r = some r') : (t.proc r').state = .used := by
  cases h with
  | hop | take | setProc | save | saved | clearProc | sched | saving =>
    exact hs.child_used r r' hchild
  | @drop q next p' _ _ hstate =>
    have hused := hs.child_used r r' hchild
    by_cases hq : r' = q
    · subst hq
      simpa [State.goto, State.setLock, State.put, hstate] using hused
    · simpa [State.goto, State.setLock, State.put, Function.update_of_ne hq] using hused
  | @setState i highest p' hpoint =>
    have hused := hs.child_used r r' hchild
    have hi : r' ≠ i := by
      rintro rfl
      simp [hs.ready c r' highest hpoint] at hused
    simpa [State.goto, State.put, Function.update_of_ne hi] using hused
  | @quit q p' state resume h =>
    have hused := hs.child_used r r' hchild
    have hq : r' ≠ q := by
      rintro rfl
      simp [hs.runs c r' h.running.2.2.1] at hused
    simpa [State.goto, State.put, Function.update_of_ne hq] using hused
  | @op op q back hpoint =>
    simp only [State.goto, runOp] at hchild ⊢
    rcases Op.child_cases hchild with ⟨-, rfl, hunused, rfl⟩ | ⟨hbefore, hdone⟩
    · simp [Op.apply, hunused, Proc.found]
    · have hused := hs.child_used r r' hbefore
      by_cases hq : r' = q
      · subst hq
        have hop : op ≠ .forkDone := by
          rintro rfl
          obtain ⟨me, rfl, hme⟩ := hs.done c r' back (by rw [hpoint]; rfl)
          exact hdone rfl (by rw [hs.child_inj r me r' hbefore hme])
        simpa using Op.apply_used hused hop
      · simpa [Function.update_of_ne hq] using hused

theorem Inv.child_inj_move (hs : Inv s) (h : Move s c t) (r₁ r₂ q : Slot)
    (h₁ : t.child r₁ = some q) (h₂ : t.child r₂ = some q) : r₁ = r₂ := by
  cases h with
  | @op op q' back hpoint =>
    simp only [State.goto, runOp] at h₁ h₂
    rcases Op.child_cases h₁ with ⟨hb₁, -, hunused, rfl⟩ | ⟨hc₁, -⟩ <;>
      rcases Op.child_cases h₂ with ⟨hb₂, -, hunused', hq⟩ | ⟨hc₂, -⟩
    · rw [hb₁] at hb₂
      cases hb₂
      rfl
    · simp [hs.child_used r₂ q hc₂] at hunused
    · subst hq
      simp [hs.child_used r₁ q hc₁] at hunused'
    · exact hs.child_inj r₁ r₂ q hc₁ hc₂
  | _ =>
    exact hs.child_inj r₁ r₂ q h₁ h₂

theorem Inv.done_move (hs : Inv s) (h : Move s c t) (c' : C) (q : Slot) (back : Spot)
    (hop : (t.point c').op = some (.forkDone, q, back)) :
    ∃ p, back = .body p ∧ t.child p = some q := by
  by_cases hc : c' = c
  · subst hc
    have hbefore := hs.done c' q back
    cases h with
    | hop h =>
      simp only [State.goto, Function.update_self] at hop ⊢
      generalize s.point c' = point at h
      cases h <;> cases hop
      rename_i hallowed
      cases back with
      | body p => exact ⟨p, rfl, by simpa [Op.allowed] using hallowed⟩
      | firstPass | secondPass => simp [Op.allowed] at hallowed
    | take _ h =>
      simp only [State.goto, Function.update_self, h.same] at hop
      exact hbefore hop
    | drop _ h => simp [State.goto, h.fresh] at hop
    | _ =>
      simp [State.goto, Point.op] at hop
  · rw [(h.others hc).1] at hop
    obtain ⟨p, rfl, hchild⟩ := hs.done c' q back hop
    refine ⟨p, rfl, ?_⟩
    cases h with
    | @op op q' back hpoint =>
      -- The thread of `p` is here and nowhere else.
      have hback : back ≠ .body p := by
        rintro rfl
        have hruns : (s.point c').runs = some p := by
          cases hpoint' : s.point c' <;> rw [hpoint'] at hop <;> cases hop <;> rfl
        exact hc (hs.unique c' c p hruns (by rw [hpoint]; rfl))
      exact (Op.child_other hback).trans hchild
    | _ =>
      exact hchild

theorem Inv.move (hs : Inv s) (h : Move s c t) : Inv t where
  lock := hs.lock_move h
  cproc := hs.cproc_move h
  ccontext := hs.ccontext_move h
  runs := hs.runs_move h
  running := hs.running_move h
  unique := hs.unique_move h
  leaves := hs.leaves_move h
  ready := hs.ready_move h
  loads := hs.loads_move h
  stores := hs.stores_move h
  context := hs.context_move h
  child_used := hs.child_used_move h
  child_inj := hs.child_inj_move h
  done := hs.done_move h

omit [DecidableEq C] in
theorem initial_inv : Inv (initial : State C) where
  lock := by
    intro q c
    simp [initial, Point.held]
  cproc _ := rfl
  ccontext _ _ := nofun
  runs _ _ := nofun
  running := by
    intro p hrun
    simp only [initial] at hrun
    split at hrun <;> cases hrun
  unique _ _ _ := nofun
  leaves _ _ := nofun
  ready _ _ _ := nofun
  loads _ _ := nofun
  stores _ _ := nofun
  context := by
    intro p hwaits _
    simp only [initial] at hwaits ⊢
    split
    · exact ⟨.forkret, rfl, nofun⟩
    · rw [if_neg ‹_›] at hwaits
      simp [Waits, Proc.empty] at hwaits
  child_used _ _ := nofun
  child_inj _ _ _ := nofun
  done _ _ _ := nofun

structure OneCpu (s : State C) : Prop where
  /-- A process is the `c->proc` of at most one CPU. -/
  cproc : ∀ c c' p, s.cproc c = some p → s.cproc c' = some p → c = c'
  /-- A RUNNING process is the `c->proc` of exactly one CPU, or one is dispatching it and
  holds its lock. -/
  running : ∀ p, (s.proc p).state = .running → (∃! c, s.cproc c = some p) ∨
    ∃ c highest, s.lock p = some c ∧ s.point c = .setProc p highest
  /-- No CPU loads a context while another, having left RUNNING, has not stored it. -/
  swtch : ∀ c c' p, s.point c = .load p →
    (∀ resume, s.point c' ≠ .sched p resume) ∧ (∀ resume, s.point c' ≠ .saving p resume)

theorem Point.proc_cases {point : Point} {p : Slot} (h : point.proc = some p) :
    point.runs = some p ∨ point.leaves = some p := by
  cases point <;> first | exact .inl h | exact .inr h

theorem Point.runs_cases {point : Point} {p : Slot} (h : point.runs = some p) :
    point.proc = some p ∨ ∃ highest, point = .setProc p highest := by
  cases point with
  | setProc i highest =>
    cases h
    exact .inr ⟨highest, rfl⟩
  | _ => first | exact .inl h | cases h

omit [DecidableEq C] in
theorem Inv.oneCpu (hs : Inv s) : OneCpu s := by
  have hcproc : ∀ c c' p, s.cproc c = some p → s.cproc c' = some p → c = c' := by
    intro c c' p hc hc'
    rw [hs.cproc] at hc hc'
    rcases Point.proc_cases hc with hr | hl <;> rcases Point.proc_cases hc' with hr' | hl'
    · exact hs.unique c c' p hr hr'
    · exact absurd (hs.runs c p hr) (hs.leaves c' p hl')
    · exact absurd (hs.runs c' p hr') (hs.leaves c p hl)
    · exact hs.lock.eq_of_holds (Point.leaves_held hl) (Point.leaves_held hl')
  refine ⟨hcproc, fun p hrun => ?_, fun c c' p hload => ?_⟩
  · obtain ⟨c, hruns⟩ := hs.running p hrun
    by_cases hproc : s.cproc c = some p
    · exact .inl ⟨c, hproc, fun c' hc' => hcproc c' c p hc' hproc⟩
    · rw [hs.cproc] at hproc
      obtain ⟨highest, hpoint⟩ := (Point.runs_cases hruns).resolve_left hproc
      exact .inr ⟨c, highest, hs.lock.held (c := c) (by rw [hpoint]; rfl), hpoint⟩
  · have hload' : (s.point c).held = some p := by rw [hload]; rfl
    constructor <;> intro resume hstore
    · have hstore' : (s.point c').held = some p := by rw [hstore]; rfl
      have hc := hs.lock.eq_of_holds hload' hstore'
      rw [← hc, hload] at hstore
      cases hstore
    · have hstore' : (s.point c').held = some p := by rw [hstore]; rfl
      have hc := hs.lock.eq_of_holds hload' hstore'
      rw [← hc, hload] at hstore
      cases hstore

/-- In every run only an exit of `init` fails, and each state reached keeps every
process on at most one CPU. -/
theorem one_cpu_per_process {r : Except Fault (State C)} (h : (system C).Reachable r) :
    r = .error .initExiting ∨ ∃ s, r = .ok s ∧ OneCpu s := by
  have hinv := System.Reach.invariant_or Inv (fun e => e = .initExiting) (fun s hs => ?_)
    (fun s a hs henabled _ => ?_) h
  · rcases hinv with ⟨e, rfl, rfl⟩ | ⟨s, rfl, hs⟩
    · exact .inl rfl
    · exact .inr ⟨s, rfl, hs.oneCpu⟩
  · cases hs
    exact initial_inv
  · obtain ⟨r, hr⟩ := Option.isSome_iff_exists.mp henabled
    have hexec : (system C).exec s a = r := by simp [system, exec, hr]
    rcases hs.act_move hr with rfl | ⟨c, t, rfl, hmove⟩
    · exact .inl ⟨_, hexec, rfl⟩
    · exact .inr ⟨t, hexec, hs.move hmove⟩

instance twoHarts : NeZero 2 := ⟨by decide⟩

def dispatchTrace : List (Action (Fin 2)) := List.replicate 201 (.step 0)

theorem dispatchTrace_observed : (system (Fin 2)).observed (fun _ _ => True)
    (fun s => (s.point 0, s.cproc 0, s.cproc 1, (s.proc initproc).state)) initial dispatchTrace =
      some (.idle (.body initproc), some initproc, none, .running) := by
  decide +kernel

theorem one_cpu_per_process_dispatch : ∃ s : State (Fin 2),
    (system (Fin 2)).Reachable (.ok s) ∧ s.cproc 0 = some initproc ∧
    (s.proc initproc).state = .running ∧ OneCpu s := by
  obtain ⟨s, hreach, hs⟩ := System.Reach.of_observed (.init rfl) dispatchTrace_observed
  simp only [Prod.mk.injEq] at hs
  rcases one_cpu_per_process hreach with herr | ⟨t, hok, ht⟩
  · cases herr
  · cases hok
    exact ⟨s, hreach, hs.2.1, hs.2.2.2, ht⟩

end Xv6.Sched.Switch
