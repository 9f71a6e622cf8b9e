import Xv6.Life.Records

/-! The protocol of `kexit` and `kwait`: no wakeup of a waiting parent is lost, and
each process that exits is freed once, by the parent it has then. -/
namespace Xv6.Life

open Lib
open Sched (Slot ProcState nproc)

/-- The process has decided to sleep in `kwait`, and no `wakeup` has reached it. -/
def Asleep (s : State) (p : Slot) : Prop :=
  s.pc p = .waitMark ∨ (s.pc p = .waitOff ∧ (s.proc p).state = .sleeping)

def Pc.scanned (q : Slot) : Pc → Prop
  | .waitScan i _ => q < i
  | .waitKilled | .waitSleep | .waitRelease => True
  | _ => False

def Pc.passed (p : Slot) : Pc → Prop
  | .wakeParent _ _ j => p < j
  | .exitLock _ => True
  | _ => False

structure Rest (s : State) : Prop where
  scanned : ∀ p q, (s.pc p).scanned q → (s.proc q).parent = some p → (s.proc q).state ≠ .zombie
  chan : ∀ q status chan j, s.pc q = .wakeParent status chan j → chan = chanOf (s.proc q).parent
  passed : ∀ q p, (s.pc q).passed p → (s.proc q).parent = some p → ¬Asleep s p
  /-- Only `init` can sleep over a zombie, while it is being woken. -/
  due : ∀ p q, Asleep s p → (s.proc q).parent = some p → (s.proc q).state = .zombie →
    p = initproc ∧ ∃ r status i j, s.pc r = .wakeInit status i j ∧ j ≤ p.val

variable {s t : State} {a : Action}

theorem Base.wait_eq (hs : Base s) {p q : Slot} (hp : (s.pc p).holdsWait = true)
    (hq : (s.pc q).holdsWait = true) : p = q :=
  hs.wait.eq_of_holds (q := ()) hp hq

theorem Pc.scanned_holdsWait {pc : Pc} {q : Slot} (h : pc.scanned q) : pc.holdsWait = true := by
  cases pc <;> trivial

theorem Pc.passed_holdsWait {pc : Pc} {p : Slot} (h : pc.passed p) : pc.holdsWait = true := by
  cases pc <;> trivial

theorem Base.zombie_child (hs : Base s) (h : Move s a t) {p q : Slot}
    (hparent : (t.proc q).parent = some p) (hzombie : (t.proc q).state = .zombie) :
    ((s.proc q).parent = some p ∧ (s.proc q).state = .zombie) ∨
    ((s.proc q).parent = some p ∧ q = a.actor ∧ ∃ status, s.pc a.actor = .exitLock status) ∨
    (p = initproc ∧ ∃ status, s.pc a.actor = .reparent status q ∧
      t.pc a.actor = .wakeInit status q 0) := by
  have hother : ∀ q' proc', q ≠ q' → t.proc = Function.update s.proc q' proc' →
      (s.proc q).parent = some p ∧ (s.proc q).state = .zombie := by
    intro q' proc' hq ht
    rw [ht, Function.update_of_ne hq] at hparent hzombie
    exact ⟨hparent, hzombie⟩
  cases hs.event h with
  | kept hsame =>
    rw [(hsame q).parent] at hparent
    exact .inl ⟨hparent, (hsame q).zombie.mp hzombie⟩
  | @born q' _ ht | @ready q' _ ht | @failed q' _ ht | @reaped q' _ _ ht =>
    refine .inl (hother _ _ ?_ ht)
    rintro rfl
    rw [ht, Function.update_self] at hzombie
    cases hzombie
  | @parent q' hpc ht =>
    refine .inl (hother _ _ ?_ ht)
    rintro rfl
    rw [ht, Function.update_self] at hzombie
    have hused := hs.expects _ _ _ (congrArg Pc.expects hpc)
    rw [hused] at hzombie
    cases hzombie
  | @adopted q' status hpc hpc' _ ht =>
    by_cases hq : q = q'
    · subst hq
      rw [ht, Function.update_self] at hparent
      exact .inr (.inr ⟨(Option.some.inj hparent).symm, status, hpc, hpc'⟩)
    · exact .inl (hother _ _ hq ht)
  | @exited status hpc ht =>
    by_cases hq : q = a.actor
    · subst hq
      rw [ht, Function.update_self] at hparent
      exact .inr (.inl ⟨hparent, rfl, status, hpc⟩)
    · exact .inl (hother _ _ hq ht)

theorem state_update {q p : Slot} {proc' : Proc} {state : ProcState}
    (h : (Function.update s.proc q proc' p).state = state) :
    (s.proc p).state = state ∨ (p = q ∧ proc'.state = state) := by
  by_cases hp : p = q
  · subst hp
    rw [Function.update_self] at h
    exact .inr ⟨rfl, h⟩
  · rw [Function.update_of_ne hp] at h
    exact .inl h

theorem Move.slept (h : Move s a t) {p : Slot} (hsleep : (t.proc p).state = .sleeping) :
    (s.proc p).state = .sleeping ∨ (s.proc p).state = .running ∨ s.pc p = .waitMark := by
  cases h with
  | forkPid | forkTrapframe | forkPagetable | forkCopy | forkFiles | forkParent | exitFile | exitCwd
  | adopt | waitTidy | use =>
    rcases state_update hsleep with h | ⟨rfl, h⟩ <;> exact .inl h
  | forkUsed | forkFail | forkReady | exitLock | reap | resume | dispatch | yield =>
    exact .inl ((state_update hsleep).resolve_right nofun)
  | waitMark hpc =>
    rcases state_update hsleep with h | ⟨rfl, -⟩
    · exact .inl h
    · exact .inr (.inr hpc)
  | sleep hrun =>
    rcases state_update hsleep with h | ⟨rfl, -⟩
    · exact .inl h
    · exact .inr (.inl hrun)
  | wakeInit | wakeParent | wakeup =>
    rcases state_update hsleep with h | ⟨rfl, h⟩
    · exact .inl h
    · unfold Proc.wakeup at h
      split at h
      · cases h
      · exact .inl h
  | kkill =>
    rcases state_update hsleep with h | ⟨rfl, h⟩
    · exact .inl h
    · unfold Proc.kill at h
      split at h
      · by_cases hs : (s.proc p).state = .sleeping
        · exact .inl hs
        · simp [hs] at h
      · exact .inl h
  | _ => exact .inl hsleep

theorem Base.asleep_from (hs : Base s) (h : Move s a t) {p : Slot} (hasleep : Asleep t p) :
    Asleep s p ∨ s.pc p = .waitRelease := by
  by_cases hmoved : t.pc p = s.pc p
  · rcases hasleep with hmark | ⟨hoff, hsleep⟩
    · exact .inl (.inl (hmoved ▸ hmark))
    · rw [hmoved] at hoff
      rcases h.slept hsleep with hsleep' | hrun | hmark
      · exact .inl (.inr ⟨hoff, hsleep'⟩)
      · have hfits := hs.at hoff
        simp [Fits, hrun] at hfits
      · exact .inl (.inl hmark)
  · have huser : t.pc p ≠ .user 0 := by
      rcases hasleep with h | ⟨h, -⟩ <;> simp [h]
    obtain rfl := h.eq_actor hmoved huser
    cases h with
    | waitRelease hpc => exact .inr hpc
    | waitMark hpc => exact .inl (.inl hpc)
    | dispatch | yield | sleep | use | wakeup | kkill => exact absurd rfl hmoved
    | _ =>
      simp [Asleep, State.setPc, State.forkFail, Action.actor] at hasleep

theorem Base.not_asleep (hs : Base s) {p : Slot} (hfree : s.plock p = none)
    (hpc : t.pc p = s.pc p) (hproc : t.proc p = (s.proc p).wakeup (.proc p)) : ¬Asleep t p := by
  rintro (hmark | ⟨hoff, hsleep⟩)
  · rw [hpc] at hmark
    exact hs.plock.not_holds hfree p (by rw [hmark]; rfl)
  · rw [hpc] at hoff
    have hfits := hs.at hoff
    simp only [Fits] at hfits
    rw [hproc, Proc.wakeup] at hsleep
    rcases hfits with ⟨h | h, hchan⟩ <;> simp [h, hchan] at hsleep

theorem Move.scanned_actor (h : Move s a t) {q : Slot} (hscanned : (t.pc a.actor).scanned q) :
    (s.pc a.actor).scanned q ∨ (s.proc q).parent ≠ some a.actor ∨ (s.proc q).state ≠ .zombie := by
  cases h with
  | dispatch | yield | sleep | use | wakeup | kkill => exact .inl hscanned
  | @waitSkip p q' havekids x hpc hparent =>
    simp only [State.setPc, Action.actor, Function.update_self, Pc.scanned] at hscanned
    by_cases hq : q = q'
    · subst hq
      exact .inr (.inl hparent)
    · have := Fin.val_ne_of_ne hq
      refine .inl ?_
      simp only [Action.actor, hpc, Pc.scanned]
      omega
  | @waitAlive p q' havekids x hpc _ _ hstate =>
    simp only [State.setPc, Action.actor, Function.update_self, Pc.scanned] at hscanned
    by_cases hq : q = q'
    · subst hq
      exact .inr (.inr hstate)
    · have := Fin.val_ne_of_ne hq
      refine .inl ?_
      simp only [Action.actor, hpc, Pc.scanned]
      omega
  | waitKids hpc hi =>
    refine .inl ?_
    have := q.isLt
    simp only [Action.actor, hpc, Pc.scanned]
    omega
  | waitGoOn hpc | waitSleep hpc =>
    refine .inl ?_
    simp [Action.actor, hpc, Pc.scanned]
  | _ =>
    simp [State.setPc, State.forkFail, Action.actor, Pc.scanned] at hscanned

theorem Rest.scanned_move (hb : Base s) (ht : Tree s) (hs : Rest s) (h : Move s a t) (p q : Slot)
    (hscanned : (t.pc p).scanned q) (hparent : (t.proc q).parent = some p) :
    (t.proc q).state ≠ .zombie := by
  intro hzombie
  have hbefore : p ≠ a.actor → (s.pc p).scanned q := by
    intro hp
    rcases h.pc_of_ne hp with hsame | ⟨-, huser⟩
    · rwa [← hsame]
    · rw [huser] at hscanned
      cases hscanned
  rcases hb.zombie_child h hparent hzombie with
    ⟨hparent, hzombie⟩ | ⟨hparent, rfl, status, hpc⟩ | ⟨rfl, status, hpc, -⟩
  · by_cases hp : p = a.actor
    · subst hp
      rcases h.scanned_actor hscanned with hscanned | hne | hne
      · exact hs.scanned _ q hscanned hparent hzombie
      · exact hne hparent
      · exact hne hzombie
    · exact hs.scanned p q (hbefore hp) hparent hzombie
  -- The scan and the exit, or the adoption, both need `wait_lock`.
  · have hkeeps := ht.keeps _ p hparent
    have hp : p ≠ a.actor := by
      rintro rfl
      simp [hpc, Pc.keeps] at hkeeps
    exact hp (hb.wait_eq (Pc.scanned_holdsWait (hbefore hp)) (by rw [hpc]; rfl))
  · have hp := ht.actor_ne_init (p := a.actor) (by rw [hpc]; rfl)
    exact hp.symm (hb.wait_eq (Pc.scanned_holdsWait (hbefore hp.symm)) (by rw [hpc]; rfl))

theorem Base.parent_of_holdsWait (hb : Base s) (h : Move s a t) {q : Slot}
    (hmoved : t.pc q = s.pc q) (hholds : (s.pc q).holdsWait = true)
    (hq : ∀ status i, s.pc q ≠ .reparent status i) :
    (t.proc q).parent = (s.proc q).parent := by
  rcases (hb.event h).parent_cases q with ⟨hsame, -⟩ | ⟨hfree, -⟩ | ⟨hpc, -⟩ | ⟨⟨status, hpc⟩, -⟩
  · exact hsame
  · rw [← hmoved, ((hb.move h).fits q).dead (.inl hfree)] at hholds
    cases hholds
  · rw [hb.dead (congrArg Pc.expects hpc) (.inr rfl)] at hholds
    cases hholds
  · have hactor := hb.wait_eq hholds (q := a.actor) (by rw [hpc]; rfl)
    rw [← hactor] at hpc
    exact absurd hpc (hq _ _)

theorem Rest.chan_move (hb : Base s) (hs : Rest s) (h : Move s a t) (q : Slot) (status : Int)
    (chan : Chan) (j : Nat) (hpc : t.pc q = .wakeParent status chan j) :
    chan = chanOf (t.proc q).parent := by
  by_cases hmoved : t.pc q = s.pc q
  · rw [hmoved] at hpc
    rw [hb.parent_of_holdsWait h hmoved (by rw [hpc]; rfl) (by simp [hpc])]
    exact hs.chan q status chan j hpc
  · obtain rfl := h.eq_actor hmoved (by simp [hpc])
    cases h with
    | adoptDone =>
      simp only [State.setPc, Action.actor, Function.update_self] at hpc
      cases hpc
      rfl
    | @wakeParent p q' status' chan' x hpc' hne =>
      simp only [State.setPc, Action.actor, Function.update_self] at hpc
      cases hpc
      simp only [State.setPc, State.setProc, Action.actor, Function.update_of_ne hne.symm]
      exact hs.chan p _ _ _ hpc'
    | @wakeParentSelf p status' chan' x hpc' =>
      simp only [State.setPc, Action.actor, Function.update_self] at hpc
      cases hpc
      exact hs.chan p _ _ _ hpc'
    | dispatch | yield | sleep | use | wakeup | kkill => exact absurd rfl hmoved
    | _ =>
      simp [State.setPc, State.forkFail, Action.actor] at hpc

theorem Rest.passed_stays (hb : Base s) (hs : Rest s) (h : Move s a t) {q p : Slot}
    (hpassed : (s.pc q).passed p) (hparent : (s.proc q).parent = some p) : ¬Asleep t p := by
  intro hasleep
  rcases hb.asleep_from h hasleep with hasleep | hpc
  · exact hs.passed q p hpassed hparent hasleep
  · have hpq := hb.wait_eq (Pc.passed_holdsWait hpassed) (q := p) (by rw [hpc]; rfl)
    rw [hpq, hpc] at hpassed
    cases hpassed

theorem Rest.passed_move (hb : Base s) (hs : Rest s) (h : Move s a t) (q p : Slot)
    (hpassed : (t.pc q).passed p) (hparent : (t.proc q).parent = some p) : ¬Asleep t p := by
  have hstays := fun h' => hs.passed_stays hb h (q := q) (p := p) h'
  by_cases hmoved : t.pc q = s.pc q
  · rw [hmoved] at hpassed
    have hsame := hb.parent_of_holdsWait h hmoved (Pc.passed_holdsWait hpassed)
      fun _ _ hpc => by simp [hpc, Pc.passed] at hpassed
    exact hstays hpassed (hsame ▸ hparent)
  · have huser : t.pc q ≠ .user 0 := fun hpc => by simp [hpc, Pc.passed] at hpassed
    obtain rfl := h.eq_actor hmoved huser
    cases h with
    | adoptDone =>
      simp [State.setPc, Action.actor, Pc.passed] at hpassed
    | @wakeParent p' q' status chan x hpc hne hfree =>
      simp only [State.setPc, Action.actor, Function.update_self, Pc.passed] at hpassed
      simp only [State.setPc, State.setProc, Action.actor,
        Function.update_of_ne hne.symm] at hparent
      by_cases hp : p = q'
      · subst hp
        refine hb.not_asleep hfree (Function.update_of_ne hne ..) ?_
        have hchan : chan = .proc p := by rw [hs.chan p' _ _ _ hpc, hparent]; rfl
        rw [hchan]
        exact Function.update_self ..
      · have := Fin.val_ne_of_ne hp
        refine hstays ?_ hparent
        simp only [Action.actor, hpc, Pc.passed]
        omega
    | @wakeParentSelf p' status chan x hpc =>
      simp only [State.setPc, Action.actor, Function.update_self, Pc.passed] at hpassed
      by_cases hp : p = p'
      · subst hp
        simp [Asleep, State.setPc]
      · have := Fin.val_ne_of_ne hp
        refine hstays ?_ hparent
        simp only [Action.actor, hpc, Pc.passed]
        omega
    | wakeParentDone hpc hj =>
      refine hstays ?_ hparent
      have := p.isLt
      simp only [Action.actor, hpc, Pc.passed]
      omega
    | dispatch | yield | sleep | use | wakeup | kkill => exact absurd rfl hmoved
    | _ =>
      simp [State.setPc, State.forkFail, Action.actor, Pc.passed] at hpassed

theorem Base.wakeInit_move (hb : Base s) (ht : Tree s) (h : Move s a t) {r : Slot} {status : Int}
    {i j : Nat} (hpc : s.pc r = .wakeInit status i j) (hj : j ≤ initproc.val)
    (hasleep : Asleep t initproc) :
    ∃ r status i j, t.pc r = .wakeInit status i j ∧ j ≤ initproc.val := by
  have hinit : r ≠ initproc := ht.actor_ne_init (by rw [hpc]; rfl)
  by_cases hr : r = a.actor
  · subst hr
    cases h with
    | dispatch | yield | sleep | use | wakeup | kkill => exact ⟨_, _, _, _, hpc, hj⟩
    | @wakeInit p q status' i' x hpc' hne hfree =>
      rw [Action.actor, hpc'] at hpc
      cases hpc
      by_cases hq : q = initproc
      · subst hq
        refine absurd hasleep (hb.not_asleep hfree (Function.update_of_ne hne ..) ?_)
        simp [State.setPc, State.setProc]
      · have := Fin.val_ne_of_ne hq
        exact ⟨p, _, _, _, Function.update_self .., by omega⟩
    | @wakeInitSelf p status' i' x hpc' =>
      rw [Action.actor, hpc'] at hpc
      cases hpc
      have := Fin.val_ne_of_ne hinit
      simp only [Action.actor] at this
      exact ⟨p, _, _, _, Function.update_self .., by omega⟩
    | wakeInitDone hpc' hdone =>
      rw [Action.actor, hpc'] at hpc
      cases hpc
      have := initproc.isLt
      omega
    | forkFail hpc' => rcases hpc' with hpc' | hpc' | hpc' <;> simp [Action.actor, hpc'] at hpc
    | _ =>
      simp_all [Action.actor]
  · rcases h.pc_of_ne hr with hsame | ⟨hready, -⟩
    · exact ⟨r, status, i, j, hsame.trans hpc, hj⟩
    · simp [hb.dead (congrArg Pc.expects hready) (.inr rfl)] at hpc

theorem Rest.due_move (hb : Base s) (ht : Tree s) (hs : Rest s) (h : Move s a t) (p q : Slot)
    (hasleep : Asleep t p) (hparent : (t.proc q).parent = some p)
    (hzombie : (t.proc q).state = .zombie) :
    p = initproc ∧ ∃ r status i j, t.pc r = .wakeInit status i j ∧ j ≤ p.val := by
  rcases hb.zombie_child h hparent hzombie with
    ⟨hparent, hzombie⟩ | ⟨hparent, rfl, status, hpc⟩ | ⟨rfl, status, -, hpc⟩
  · rcases hb.asleep_from h hasleep with hbefore | hpc
    · obtain ⟨rfl, r, status, i, j, hpc, hj⟩ := hs.due p q hbefore hparent hzombie
      exact ⟨rfl, hb.wakeInit_move ht h hpc hj hasleep⟩
    · -- It falls asleep after a scan that found no zombie.
      exact absurd hzombie (hs.scanned p q (by rw [hpc]; trivial) hparent)
  · exact absurd hasleep (hs.passed_stays hb h (by rw [hpc]; trivial) hparent)
  · exact ⟨rfl, _, _, _, _, hpc, Nat.zero_le _⟩

theorem Rest.move (hb : Base s) (ht : Tree s) (hs : Rest s) (h : Move s a t) : Rest t where
  scanned := hs.scanned_move hb ht h
  chan := hs.chan_move hb h
  passed := hs.passed_move hb h
  due := hs.due_move hb ht h

theorem Start.rest (hs : Start s) : Rest s where
  scanned := by
    intro p q h
    rw [hs.pc] at h
    split at h <;> cases h
  chan := by
    intro q status chan j h
    rw [hs.pc] at h
    split at h <;> cases h
  passed := by
    intro q p h
    rw [hs.pc] at h
    split at h <;> cases h
  due := by
    rintro p q (h | ⟨h, -⟩) <;> rw [hs.pc] at h <;> split at h <;> cases h

theorem Rest.reach {allowed : State → Action → Prop} (h : system.Reach allowed (.ok s)) : Rest s :=
  reach_invariant Rest (fun _ => Start.rest)
    (fun _ _ _ hreach hs _ => hs.move (.reach hreach) (.reach hreach)) h

structure Lineage (s : State) : Prop where
  parent : ∀ q r, (s.proc q).parent = some r →
    (s.proc r).serial = (s.proc q).origin ∨ r = initproc
  reaped : ∀ x ∈ s.reaps, x.owner = some x.waiter ∧ (x.caller = x.origin ∨ x.waiter = initproc)

theorem Lineage.parent_move (hb : Base s) (ht : Tree s) (hs : Lineage s) (h : Move s a t)
    (q r : Slot) (hparent : (t.proc q).parent = some r) :
    (t.proc r).serial = (t.proc q).origin ∨ r = initproc := by
  rcases (hb.event h).parent_cases q with
    ⟨hsame, horigin⟩ | ⟨-, hnone⟩ | ⟨hpc, hactor, horigin⟩ | ⟨-, hinit⟩
  · rw [hsame] at hparent
    rw [horigin]
    rcases (hb.event h).serial r with hserial | hused
    · rw [hserial]
      exact hs.parent q r hparent
    · have hunused := hb.expects _ _ _ (congrArg Pc.expects hused)
      have halive := ht.parent_alive hb hparent
      simp [hunused] at halive
  · rw [hnone] at hparent
    cases hparent
  · rw [hactor] at hparent
    cases hparent
    rcases (hb.event h).serial a.actor with hserial | hused
    · exact .inl (hserial.trans horigin.symm)
    · rw [hpc] at hused
      cases hused
  · rw [hinit] at hparent
    exact .inr (Option.some.inj hparent).symm

theorem Lineage.reaped_move (hb : Base s) (ht : Tree s) (hs : Lineage s) (h : Move s a t) :
    ∀ x ∈ t.reaps, x.owner = some x.waiter ∧ (x.caller = x.origin ∨ x.waiter = initproc) := by
  intro x hx
  cases hb.event h with
  | kept _ _ hreaps | born _ _ _ hreaps | parent _ _ _ hreaps | ready _ _ _ hreaps
  | failed _ _ _ hreaps | adopted _ _ _ _ _ hreaps | exited _ _ _ hreaps =>
    rw [hreaps] at hx
    exact hs.reaped x hx
  | @reaped q hpc _ _ _ hreaps =>
    simp only [hreaps, State.recordReap, List.mem_append, List.mem_singleton] at hx
    rcases hx with hx | rfl
    · exact hs.reaped x hx
    · have hparent := ht.found _ q hpc
      exact ⟨hparent, hs.parent q _ hparent⟩

theorem Lineage.reach {allowed : State → Action → Prop} (h : system.Reach allowed (.ok s)) :
    Lineage s := by
  refine reach_invariant Lineage (fun s hs => ⟨?_, ?_⟩) (fun s a t hreach hs _ h => ?_) h
  · intro q r hparent
    rw [hs.parent] at hparent
    cases hparent
  · simp [hs.reaps]
  · exact ⟨hs.parent_move (.reach hreach) (.reach hreach) h,
      hs.reaped_move (.reach hreach) (.reach hreach) h⟩

structure ExitWait (s : State) : Prop where
  parent_alive : ∀ q r, (s.proc q).parent = some r →
    (s.proc r).state ≠ .unused ∧ (s.proc r).state ≠ .zombie
  exits_once : (s.exits.map Exit.serial).Nodup
  reaps_once : (s.reaps.map Reap.serial).Nodup
  /-- Whoever was freed had exited; the `kwait` was its parent's, and gave its pid and
  status. The parent was the process that forked it, or `init`. -/
  reaped : ∀ r ∈ s.reaps, ⟨r.serial, r.ret, r.status⟩ ∈ s.exits ∧ r.owner = some r.waiter ∧
    (r.caller = r.origin ∨ r.waiter = initproc)
  /-- Whoever has exited was freed by one `kwait`, or is a zombie that has a parent. -/
  exited : ∀ e ∈ s.exits, (∃! r, r ∈ s.reaps ∧ r.serial = e.serial) ∨
    ∃ q, (s.proc q).state = .zombie ∧ (s.proc q).exit = e ∧ (s.proc q).parent ≠ none
  no_lost_exit : s.waitLock = none → ∀ p q, s.pc p = .waitOff → (s.proc p).state = .sleeping →
    (s.proc q).parent = some p → (s.proc q).state ≠ .zombie

structure ReapStep (s : State) (a : Action) (t : State) : Prop where
  /-- The call that frees a process returns what is recorded. -/
  returns : t.reaps = s.reaps ∨ ∃ r, t.reaps = s.reaps ++ [r] ∧ t.pc r.waiter = .waitReturn r.ret
  /-- A failure of `copyout` leaves the zombie to its parent. -/
  copyout : ∀ p q x, a = .step p x → s.pc p = .waitFound q → x.ok = false →
    t.pc p = .waitReturn (-1) ∧ t.proc = s.proc ∧ t.reaps = s.reaps ∧
      (t.proc q).state = .zombie ∧ (t.proc q).parent = some p

theorem Tree.init_alive (hb : Base s) (hs : Tree s) : (s.proc initproc).state ≠ .zombie := by
  intro hzombie
  have hfits := hb.fits initproc
  have hinit := hs.init
  cases hpc : s.pc initproc <;> simp_all [Pc.stays, Fits]

theorem Records.reap_unique (hs : Records s) {e : Exit} (h : ∃ r ∈ s.reaps, r.serial = e.serial) :
    ∃! r, r ∈ s.reaps ∧ r.serial = e.serial := by
  obtain ⟨r, hr, hserial⟩ := h
  refine ⟨r, ⟨hr, hserial⟩, fun r' ⟨hr', hserial'⟩ => ?_⟩
  exact List.inj_on_of_nodup_map hs.reaps_nodup hr' hr (hserial'.trans hserial.symm)

theorem ExitWait.of_reach {allowed : State → Action → Prop} (h : system.Reach allowed (.ok s)) :
    ExitWait s := by
  have hb := Base.reach h
  have ht := Tree.reach h
  have hr := Records.reach h
  have hl := Lineage.reach h
  refine ⟨?_, hr.exits_nodup, hr.reaps_nodup, ?_, ?_, ?_⟩
  · intro q r hparent
    rcases ht.parent_alive hb hparent with h | h | h <;> simp [h]
  · exact fun r hmem => ⟨hr.reaped r hmem, hl.reaped r hmem⟩
  · intro e he
    rcases hr.exited e he with hreap | ⟨q, hzombie, hexit⟩
    · exact .inl (hr.reap_unique hreap)
    · have hinit : q ≠ initproc := by
        rintro rfl
        exact ht.init_alive hb hzombie
      exact .inr ⟨q, hzombie, hexit, ht.parented q hinit (by simp [hzombie]) (by simp [hzombie])⟩
  · intro hfree p q hpc hsleep hparent hzombie
    obtain ⟨-, r, status, i, j, hwake, -⟩ :=
      (Rest.reach h).due p q (.inr ⟨hpc, hsleep⟩) hparent hzombie
    have hheld := hb.wait.held (q := ()) (c := r) (by rw [hwake]; rfl)
    rw [hfree] at hheld
    cases hheld

theorem ReapStep.of_move (hb : Base s) (ht : Tree s) (h : Move s a t) : ReapStep s a t where
  returns := by
    cases hb.event h with
    | kept _ _ hreaps | born _ _ _ hreaps | parent _ _ _ hreaps | ready _ _ _ hreaps
    | failed _ _ _ hreaps | adopted _ _ _ _ _ hreaps | exited _ _ _ hreaps => exact .inl hreaps
    | reaped _ hpc' _ _ hreaps => exact .inr ⟨_, hreaps, hpc'⟩
  copyout := by
    rintro p q x rfl hpc hfail
    have hzombie := hb.expects p q _ (congrArg Pc.expects hpc)
    have hparent := ht.found p q hpc
    cases h with
    | copyoutFail hpc' =>
      rw [hpc] at hpc'
      cases hpc'
      exact ⟨Function.update_self .., rfl, rfl, hzombie, hparent⟩
    | reap _ hok => simp [hfail] at hok
    | forkFail hpc' => rcases hpc' with hpc' | hpc' | hpc' <;> simp [hpc'] at hpc
    | _ =>
      simp_all

theorem exit_wait_protocol (h : system.Reachable (.ok s)) :
    ExitWait s ∧ ∀ a t, system.enabled s a → system.exec s a = .ok t → ReapStep s a t :=
  ⟨.of_reach h, fun _ _ henabled hexec =>
    .of_move (.reach h) (.reach h) (move_of_exec henabled hexec)⟩

/-- `init` forks; the child exits with status 5; `init` waits for it. -/
def reapTrace : List Action :=
  [.dispatch 0, .fork 0] ++ List.replicate 12 (.step 0 ⟨7, true⟩) ++ [.dispatch 1, .exit 1 5] ++
    List.replicate 151 (.step 1 ⟨0, true⟩) ++ [.wait 0] ++ List.replicate 5 (.step 0 ⟨0, true⟩)

theorem reapTrace_observed : system.observed (fun _ _ => True)
    (fun s => (s.pc 0, s.exits, s.reaps)) boot reapTrace =
      some (.user 2, [⟨1, 2, 5⟩], [⟨1, 2, 5, 0, some 0, 0, 0⟩]) := by
  decide +kernel

theorem exit_wait_protocol_reap : ∃ s, system.Reachable (.ok s) ∧ s.exits = [⟨1, 2, 5⟩] ∧
    s.reaps = [⟨1, 2, 5, 0, some 0, 0, 0⟩] ∧ ExitWait s ∧
    ∀ a t, system.enabled s a → system.exec s a = .ok t → ReapStep s a t := by
  obtain ⟨s, hreach, hs⟩ := System.Reach.of_observed (.init boot_start) reapTrace_observed
  simp only [Prod.mk.injEq] at hs
  exact ⟨s, hreach, hs.2.1, hs.2.2, exit_wait_protocol hreach⟩

end Xv6.Life
