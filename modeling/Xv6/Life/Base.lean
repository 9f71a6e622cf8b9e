import Xv6.Life.Moves
import Xv6.Lib.Locks

/-! The locks, the states of the processes and the slots in preparation: what ties
them to the points the threads are at. -/
namespace Xv6.Life

open Lib
open Sched (Slot ProcState nproc)

def Pc.holdsWait : Pc → Bool
  | .forkParent _ | .reparent _ _ | .wakeInit _ _ _ | .wakeParent _ _ _ | .exitLock _ | .exitRelease
  | .waitScan _ _ | .waitFound _ | .waitReturn _ | .waitKilled | .waitSleep | .waitRelease => true
  | _ => false

def Pc.Holds (p q : Slot) : Pc → Prop
  | .forkFound q' | .forkUsed q' | .forkTrapframe q' | .forkPagetable q' | .forkCopy q'
  | .forkFiles q' | .forkRelease q' | .waitFound q' => q = q'
  | .exitRelease | .exitSched | .waitRelease | .waitMark | .waitTidy => q = p
  | _ => False

/-- The slot without a thread that the thread at this point works on, and the state
it counts on there: a `kfork` on the slot it prepares, a `kwait` on the zombie. -/
def Pc.expects : Pc → Option (Slot × ProcState)
  | .forkFound q | .forkUsed q => some (q, .unused)
  | .forkTrapframe q | .forkPagetable q | .forkCopy q | .forkFiles q | .forkRelease q
  | .forkWait q | .forkParent q | .forkReady q => some (q, .used)
  | .waitFound q => some (q, .zombie)
  | _ => none

def Fits (p : Slot) (proc : Proc) : Pc → Prop
  | .dead => proc.state = .unused ∨ proc.state = .used ∨ proc.state = .zombie
  | .user _ | .exitFiles _ _ => proc.state = .runnable ∨ proc.state = .running ∨
      (proc.state = .sleeping ∧ ∃ n, proc.chan = .other n)
  | .forkScan _ | .forkWait _ | .forkReady _ | .exitWait _ | .waitAcquire =>
      proc.state = .runnable ∨ proc.state = .running
  | .waitOff => (proc.state = .sleeping ∨ proc.state = .runnable) ∧ proc.chan = .proc p
  | .exitRelease | .exitSched => proc.state = .zombie
  | _ => proc.state = .running

structure Base (s : State) : Prop where
  wait : Agree (fun _ (_ : Unit) pc => pc.holdsWait = true) (fun _ => s.waitLock) s.pc
  plock : Agree Pc.Holds s.plock s.pc
  fits : ∀ p, Fits p (s.proc p) (s.pc p)
  expects : ∀ p q state, (s.pc p).expects = some (q, state) → (s.proc q).state = state
  owner : ∀ p p' q state state', (s.pc p).expects = some (q, state) →
    (s.pc p').expects = some (q, state') → p = p'

attribute [local grind =] Pc.expects Pc.holdsWait Fits Pc.Holds

section Each

/-! A relation between each process and the point of its thread, or its lock, after
changes to one slot of the table, to the point of one thread, or both. -/

variable {A : Type} {R : Slot → Proc → A → Prop} {proc : Slot → Proc} {pc : Slot → A}
  {p q : Slot} {proc' : Proc} {pc' : A}

theorem each_pc (hs : ∀ p, R p (proc p) (pc p)) (h : R p (proc p) pc') (r : Slot) :
    R r (proc r) (Function.update pc p pc' r) :=
  (Function.forall_update_iff pc fun r pc => R r (proc r) pc).2 ⟨h, fun r _ => hs r⟩ r

theorem each_proc (hs : ∀ p, R p (proc p) (pc p)) (h : R q proc' (pc q)) (r : Slot) :
    R r (Function.update proc q proc' r) (pc r) :=
  (Function.forall_update_iff proc fun r proc => R r proc (pc r)).2 ⟨h, fun r _ => hs r⟩ r

theorem each_self (hs : ∀ p, R p (proc p) (pc p)) (h : R p proc' pc') (r : Slot) :
    R r (Function.update proc p proc' r) (Function.update pc p pc' r) := by
  by_cases hr : r = p
  · subst hr
    rwa [Function.update_self, Function.update_self]
  · rw [Function.update_of_ne hr, Function.update_of_ne hr]
    exact hs r

theorem each_other (hs : ∀ p, R p (proc p) (pc p)) (hne : p ≠ q) (hq : R q proc' (pc q))
    (hp : R p (proc p) pc') (r : Slot) :
    R r (Function.update proc q proc' r) (Function.update pc p pc' r) :=
  each_pc (each_proc hs hq) (by rwa [Function.update_of_ne hne]) r

end Each

namespace Fits

variable {p : Slot} {proc proc' : Proc} {pc : Pc}

theorem congr (h : Fits p proc pc) (hstate : proc'.state = proc.state)
    (hchan : proc'.chan = proc.chan) : Fits p proc' pc := by
  cases pc <;> simp_all [Fits]

theorem dead (h : Fits p proc pc) (hstate : proc.state = .unused ∨ proc.state = .used) :
    pc = .dead := by
  cases pc <;> simp only [Fits] at h <;> grind

theorem woken (h : Fits p proc pc) (hsleep : proc.state = .sleeping)
    (hstate : proc'.state = .runnable) (hchan : proc'.chan = proc.chan) : Fits p proc' pc := by
  cases pc <;> simp_all [Fits]

theorem wakeup (h : Fits p proc pc) (chan : Chan) : Fits p (proc.wakeup chan) pc := by
  unfold Proc.wakeup
  split
  · exact h.woken (‹_ ∧ _›).1 rfl rfl
  · exact h

theorem kill (h : Fits p proc pc) (pid : Int) : Fits p (proc.kill pid) pc := by
  unfold Proc.kill
  split
  · by_cases hsleep : proc.state = .sleeping
    · exact h.woken hsleep (by simp [hsleep]) rfl
    · exact h.congr (by simp [hsleep]) rfl
  · exact h

end Fits

variable {s t : State} {a : Action}

theorem Base.at (hs : Base s) {p : Slot} {pc : Pc} (hpc : s.pc p = pc) : Fits p (s.proc p) pc :=
  hpc ▸ hs.fits p

theorem Fits.zombie {p : Slot} {proc : Proc} {pc : Pc} (h : Fits p proc pc)
    (hstate : proc.state = .zombie) : pc = .dead ∨ pc.Holds p p := by
  cases pc <;> simp_all [Fits, Pc.Holds]

theorem Base.dead (hs : Base s) {p q : Slot} {state : ProcState}
    (h : (s.pc p).expects = some (q, state)) (hstate : state = .unused ∨ state = .used) :
    s.pc q = .dead := by
  have hq := hs.expects p q state h
  exact (hs.fits q).dead (by rwa [hq])

theorem Base.ne_of_expects (hs : Base s) {p q : Slot} {state : ProcState}
    (h : (s.pc p).expects = some (q, state)) : p ≠ q := by
  rintro rfl
  have hp := hs.fits p
  have hq := hs.expects p p state h
  cases hpc : s.pc p <;> rw [hpc] at h hp <;> cases h <;> simp [Fits, hq] at hp

theorem Base.dead_of_found (hs : Base s) {p q : Slot} (hpc : s.pc p = .waitFound q) :
    s.pc q = .dead := by
  have hexpects : (s.pc p).expects = some (q, .zombie) := by rw [hpc]; rfl
  rcases (hs.fits q).zombie (hs.expects p q _ hexpects) with hdead | hholds
  · exact hdead
  · have hp : (s.pc p).Holds p q := by simp [hpc, Pc.Holds]
    exact absurd (hs.plock.eq_of_holds hp hholds) (hs.ne_of_expects hexpects)

theorem Base.fits_move (hs : Base s) (h : Move s a t) (r : Slot) : Fits r (t.proc r) (t.pc r) := by
  cases h with
  | fork _ hrun | exit _ _ hrun | wait _ hrun =>
    refine each_pc hs.fits ?_ r
    simp [Fits, hrun]
  | forkSkip hpc hrun | forkTake hpc hrun | forkNone hpc hrun | forkWait hpc hrun
  | exitWait hpc hrun | waitAcquire hpc hrun =>
    refine each_pc hs.fits ?_ r
    simp_all [Fits, Runs]
  | forkRelease hpc | adoptSkip hpc | adoptDone hpc | wakeInitSelf hpc | wakeInitDone hpc
  | wakeParentSelf hpc | wakeParentDone hpc | exitRelease hpc | waitSkip hpc | waitAlive hpc
  | waitFound hpc | waitKids hpc | waitNone hpc | copyoutFail hpc | waitReturn hpc
  | waitKilled hpc | waitGoOn hpc | waitSleep hpc | waitRelease hpc =>
    refine each_pc hs.fits ?_ r
    have hp := hs.at hpc
    simp_all [Fits]
  | exitSched hpc =>
    refine each_pc hs.fits ?_ r
    exact .inr (.inr (hs.at hpc))
  | exitFile hpc hrun | exitCwd hpc hrun =>
    refine each_self hs.fits ?_ r
    simp_all [Fits, Runs]
  | exitLock hpc | waitMark hpc | resume hpc =>
    refine each_self hs.fits ?_ r
    simp [Fits]
  | waitTidy hpc =>
    refine each_self hs.fits ?_ r
    have hp := hs.at hpc
    simp_all [Fits]
  | forkPid hpc =>
    refine each_other hs.fits (hs.ne_of_expects (congrArg Pc.expects hpc)) ?_ ?_ r
    · exact (hs.fits _).congr rfl rfl
    · have hp := hs.at hpc
      exact hp
  | forkUsed hpc =>
    have hexpects := congrArg Pc.expects hpc
    refine each_other hs.fits (hs.ne_of_expects hexpects) ?_ ?_ r
    · rw [hs.dead hexpects (.inl rfl)]
      exact .inr (.inl rfl)
    · have hp := hs.at hpc
      exact hp
  | forkTrapframe hpc | forkPagetable hpc | forkCopy hpc | forkFiles hpc =>
    refine each_other hs.fits (hs.ne_of_expects (congrArg Pc.expects hpc)) ?_ ?_ r
    · exact (hs.fits _).congr rfl rfl
    · have hp := hs.at hpc
      exact hp
  | forkParent hpc =>
    refine each_other hs.fits (hs.ne_of_expects (congrArg Pc.expects hpc)) ?_ ?_ r
    · exact (hs.fits _).congr rfl rfl
    · exact .inr (hs.at hpc)
  | @forkFail p q x hpc =>
    have hexpects : (s.pc p).expects = some (q, .used) := by
      rcases hpc with h | h | h <;> simp [h, Pc.expects]
    have hrun : (s.proc p).state = .running := by rcases hpc with h | h | h <;> exact hs.at h
    refine each_other hs.fits (hs.ne_of_expects hexpects) ?_ ?_ r
    · rw [hs.dead hexpects (.inr rfl)]
      exact .inl rfl
    · exact .inr (.inl hrun)
  | @forkReady p q x hpc hrun =>
    have hne : p ≠ q := hs.ne_of_expects (congrArg Pc.expects hpc)
    refine each_pc (each_self hs.fits ?_) ?_ r
    · simp [Fits]
    · rw [Function.update_of_ne hne]
      simp_all [Fits, Runs]
  | @adopt p q status x hpc hparent =>
    have hq : Fits q { s.proc q with parent := some initproc } (s.pc q) :=
      (hs.fits q).congr rfl rfl
    have hadopted := each_proc hs.fits hq
    refine each_pc hadopted ?_ r
    have hp := hadopted p
    rwa [hpc] at hp
  | wakeInit hpc hne | wakeParent hpc hne =>
    refine each_other hs.fits hne.symm ?_ ?_ r
    · exact (hs.fits _).wakeup _
    · have hp := hs.at hpc
      exact hp
  | @reap p q x hpc =>
    refine each_other hs.fits (hs.ne_of_expects (congrArg Pc.expects hpc)) ?_ ?_ r
    · rw [hs.dead_of_found hpc]
      exact .inl rfl
    · have hp := hs.at hpc
      exact hp
  | @dispatch p hpc hrunnable =>
    refine each_proc hs.fits ?_ r
    have hp := hs.fits p
    cases hpc' : s.pc p <;> simp_all [Fits]
  | @yield p hrun _ hpc =>
    refine each_proc hs.fits ?_ r
    cases hpc' : s.pc p <;> simp_all [Fits, Pc.preemptible]
  | @sleep p n hrun _ hpc =>
    refine each_proc hs.fits ?_ r
    cases hpc' : s.pc p <;> simp_all [Fits, Pc.sleepy]
  | wakeup => exact each_proc hs.fits ((hs.fits _).wakeup _) r
  | kkill => exact each_proc hs.fits ((hs.fits _).kill _) r
  | use hpc hrun =>
    refine each_proc hs.fits ?_ r
    exact (hs.fits _).congr rfl rfl

theorem Base.wait_move (hs : Base s) (h : Move s a t) :
    Agree (fun _ (_ : Unit) pc => pc.holdsWait = true) (fun _ => t.waitLock) t.pc := by
  cases h with
  | forkWait hpc _ hfree | exitWait hpc _ hfree | waitAcquire hpc _ hfree =>
    exact hs.wait.take_single hfree rfl
  | forkParent hpc | exitRelease hpc | waitReturn hpc | waitRelease hpc =>
    exact hs.wait.drop_single (by rw [hpc]; rfl) nofun
  | dispatch | yield | sleep | wakeup | kkill | use => exact hs.wait
  | @forkReady p q x hpc =>
    have hexpects := congrArg Pc.expects hpc
    have hdead := hs.dead hexpects (.inr rfl)
    refine (hs.wait.move fun _ => ?_).move fun _ => ?_
    · simp [hdead, Pc.holdsWait]
    · rw [Function.update_of_ne (hs.ne_of_expects hexpects)]
      simp [hpc, Pc.holdsWait]
  | forkFail hpc =>
    refine hs.wait.move fun _ => ?_
    rcases hpc with hpc | hpc | hpc <;> simp [hpc, Pc.holdsWait]
  | _ =>
    refine hs.wait.move fun _ => ?_
    simp [*, Pc.holdsWait]

theorem Base.plock_move (hs : Base s) (h : Move s a t) : Agree Pc.Holds t.plock t.pc := by
  cases h with
  | forkTake hpc _ hfree | exitLock hpc hfree | waitFound hpc _ hfree | waitSleep hpc hfree
  | resume hpc _ hfree =>
    refine hs.plock.take hfree fun _ => ?_
    simp [hpc, Pc.Holds]
  | forkRelease hpc | exitSched hpc | reap hpc | copyoutFail hpc | waitMark hpc | waitTidy hpc =>
    refine hs.plock.drop ?_ fun _ => ?_
    · simp [hpc, Pc.Holds]
    · simp [hpc, Pc.Holds]
  | forkFail hpc =>
    refine hs.plock.drop ?_ fun _ => ?_
    · rcases hpc with hpc | hpc | hpc <;> simp [hpc, Pc.Holds]
    · rcases hpc with hpc | hpc | hpc <;> simp [hpc, Pc.Holds]
  | dispatch | yield | sleep | wakeup | kkill | use => exact hs.plock
  | @forkReady p q x hpc =>
    have hexpects := congrArg Pc.expects hpc
    have hdead := hs.dead hexpects (.inr rfl)
    refine (hs.plock.move fun _ => ?_).move fun _ => ?_
    · simp [hdead, Pc.Holds]
    · rw [Function.update_of_ne (hs.ne_of_expects hexpects)]
      simp [hpc, Pc.Holds]
  | _ =>
    refine hs.plock.move fun _ => ?_
    simp [*, Pc.Holds]

def Action.actor : Action → Slot
  | .fork p | .exit p _ | .wait p | .step p _ | .dispatch p | .yield p | .sleep p _ | .wakeup p _
  | .kkill p _ | .use p _ _ _ _ => p

theorem Move.pc_of_ne (h : Move s a t) {r : Slot} (hr : r ≠ a.actor) :
    t.pc r = s.pc r ∨ (s.pc a.actor = .forkReady r ∧ t.pc r = .user 0) := by
  cases h with
  | dispatch | yield | sleep | use | wakeup | kkill => exact .inl rfl
  | @forkReady p q x hpc =>
    have hp : r ≠ p := hr
    simp only [State.setPc, State.setProc, Function.update_of_ne hp]
    by_cases hq : r = q
    · subst hq
      exact .inr ⟨hpc, Function.update_self ..⟩
    · exact .inl (Function.update_of_ne hq ..)
  | _ => exact .inl (Function.update_of_ne hr ..)

theorem Base.not_expected (hs : Base s) {q : Slot} (hlive : (s.proc q).state = .runnable ∨
    (s.proc q).state = .running ∨ (s.proc q).state = .sleeping) (r : Slot) (state : ProcState) :
    (s.pc r).expects ≠ some (q, state) := by
  intro h
  have hq := hs.expects r q state h
  cases hpc : s.pc r <;> rw [hpc] at h <;> cases h <;> simp [hq] at hlive

inductive Outside (s : State) (p q : Slot) : Proc → Prop where
  | same : Outside s p q (s.proc q)
  | killed : Outside s p q { s.proc q with killed := true }
  | adopted {status : Int} : s.pc p = .reparent status q → (s.proc q).parent = some p →
      Outside s p q { s.proc q with parent := some initproc }

theorem Outside.update {p q q' : Slot} {proc' : Proc} (h : q = q' → Outside s p q proc') :
    Outside s p q (Function.update s.proc q' proc' q) := by
  by_cases hq : q = q'
  · subst hq
    rw [Function.update_self]
    exact h rfl
  · rw [Function.update_of_ne hq]
    exact .same

theorem Outside.wakeup {p q : Slot} (hstate : (s.proc q).state ≠ .sleeping) (chan : Chan) :
    Outside s p q ((s.proc q).wakeup chan) := by
  rw [Proc.wakeup, if_neg (fun h => hstate h.1)]
  exact .same

theorem Outside.kill {p q : Slot} (hstate : (s.proc q).state ≠ .sleeping) (pid : Int) :
    Outside s p q ((s.proc q).kill pid) := by
  rw [Proc.kill, if_neg hstate]
  split
  · exact .killed
  · exact .same

theorem Base.frame_self (hs : Base s) (h : Move s a t) {q : Slot} {state : ProcState}
    (hsame : t.pc a.actor = s.pc a.actor) (hexpects : (s.pc a.actor).expects = some (q, state)) :
    t.proc q = s.proc q := by
  have hne := (hs.ne_of_expects hexpects).symm
  cases h with
  | dispatch | yield | sleep | use | wakeup | kkill => exact Function.update_of_ne hne ..
  | forkFail hpc =>
    simp only [State.forkFail, State.setPc, Action.actor, Function.update_self] at hsame
    rcases hpc with hpc | hpc | hpc <;> simp [hpc] at hsame
  | forkPid hpc | forkUsed hpc | forkTrapframe hpc | forkPagetable hpc | forkCopy hpc
  | forkFiles hpc | forkRelease hpc | forkWait hpc | forkParent hpc | forkReady hpc | reap hpc
  | copyoutFail hpc =>
    simp [State.setPc, Action.actor, hpc] at hsame
  | _ =>
    simp_all [Action.actor, Pc.expects]

theorem Base.frame_other (hs : Base s) (h : Move s a t) {r q : Slot} {state : ProcState}
    (hr : r ≠ a.actor) (hexpects : (s.pc r).expects = some (q, state)) :
    Outside s a.actor q (t.proc q) := by
  have howned : ∀ q' state', (s.pc a.actor).expects = some (q', state') → q ≠ q' := by
    rintro q' state' h rfl
    exact hr (hs.owner _ _ _ _ _ hexpects h)
  have hdead := fun hlive => hs.not_expected (q := q) hlive r state hexpects
  cases h with
  | forkPid hpc | forkUsed hpc | forkTrapframe hpc | forkPagetable hpc | forkCopy hpc
  | forkFiles hpc | forkParent hpc | forkReady hpc | reap hpc =>
    exact .update fun h => absurd h (howned _ _ (congrArg Pc.expects hpc))
  | @forkFail p q' x hpc =>
    have hp : (s.pc p).expects = some (q', .used) := by
      rcases hpc with h | h | h <;> simp [h, Pc.expects]
    exact .update fun h => absurd h (howned _ _ hp)
  | exitFile hpc hrun | exitCwd hpc hrun =>
    refine .update fun h => (hdead ?_).elim
    subst h
    exact .inr (.inl (by simpa [Runs, hpc] using hrun))
  | exitLock hpc | waitMark hpc | waitTidy hpc =>
    refine .update fun h => (hdead ?_).elim
    subst h
    exact .inr (.inl (hs.at hpc))
  | resume _ hrunnable | dispatch _ hrunnable =>
    refine .update fun h => (hdead ?_).elim
    subst h
    exact .inl hrunnable
  | yield hrun | sleep hrun | use _ hrun =>
    refine .update fun h => (hdead ?_).elim
    subst h
    exact .inr (.inl hrun)
  | adopt hpc hparent =>
    refine .update fun h => ?_
    subst h
    exact .adopted hpc hparent
  | wakeInit | wakeParent | wakeup =>
    refine .update fun h => ?_
    subst h
    exact .wakeup (fun hsleep => hdead (.inr (.inr hsleep))) _
  | kkill =>
    refine .update fun h => ?_
    subst h
    exact .kill (fun hsleep => hdead (.inr (.inr hsleep))) _
  | _ => exact .same

theorem Base.frame (hs : Base s) (h : Move s a t) {r q : Slot} {state : ProcState}
    (hsame : t.pc r = s.pc r) (hexpects : (s.pc r).expects = some (q, state)) :
    Outside s a.actor q (t.proc q) := by
  by_cases hr : r = a.actor
  · subst hr
    rw [hs.frame_self h hsame hexpects]
    exact .same
  · exact hs.frame_other h hr hexpects

theorem Move.expects_from (h : Move s a t) {q : Slot} {state : ProcState}
    (hexpects : (t.pc a.actor).expects = some (q, state)) :
    (∃ state', (s.pc a.actor).expects = some (q, state')) ∨
      (s.plock q = none ∧ (s.proc q).state = state ∧ state ≠ .used) := by
  cases h with
  | forkTake _ _ hfree hstate | waitFound _ _ hfree hstate =>
    simp only [State.setPc, Action.actor, Function.update_self, Pc.expects] at hexpects
    cases hexpects
    exact .inr ⟨hfree, hstate, nofun⟩
  | forkPid hpc | forkUsed hpc | forkTrapframe hpc | forkPagetable hpc | forkCopy hpc
  | forkFiles hpc | forkRelease hpc | forkWait hpc | forkParent hpc =>
    simp only [State.setPc, Action.actor, Function.update_self, Pc.expects] at hexpects
    cases hexpects
    exact .inl ⟨_, congrArg Pc.expects hpc⟩
  | dispatch | yield | sleep | use | wakeup | kkill => exact .inl ⟨_, hexpects⟩
  | _ =>
    simp [State.setPc, State.forkFail, Action.actor, Pc.expects] at hexpects

theorem Move.expects_of_ne (h : Move s a t) {r q : Slot} {state : ProcState}
    (hr : r ≠ a.actor) (hexpects : (t.pc r).expects = some (q, state)) :
    (s.pc r).expects = some (q, state) := by
  rcases h.pc_of_ne hr with hsame | ⟨-, huser⟩
  · rwa [← hsame]
  · rw [huser] at hexpects
    cases hexpects

theorem Base.expects_actor (hs : Base s) (h : Move s a t) {q : Slot} {state : ProcState}
    (hmoved : t.pc a.actor ≠ s.pc a.actor)
    (hexpects : (t.pc a.actor).expects = some (q, state)) : (t.proc q).state = state := by
  cases h with
  | forkTake _ _ _ hstate | waitFound _ _ _ hstate =>
    simp only [State.setPc, Action.actor, Function.update_self, Pc.expects] at hexpects
    cases hexpects
    exact hstate
  | forkPid hpc | forkUsed hpc | forkTrapframe hpc | forkPagetable hpc | forkCopy hpc
  | forkFiles hpc | forkParent hpc =>
    simp only [State.setPc, Action.actor, Function.update_self, Pc.expects] at hexpects
    cases hexpects
    have hq := hs.expects _ _ _ (congrArg Pc.expects hpc)
    simp [State.setPc, State.setProc, Proc.dupFiles, hq]
  | forkRelease hpc | forkWait hpc =>
    simp only [State.setPc, Action.actor, Function.update_self, Pc.expects] at hexpects
    cases hexpects
    exact hs.expects _ _ _ (congrArg Pc.expects hpc)
  | dispatch | yield | sleep | use | wakeup | kkill => exact absurd rfl hmoved
  | _ =>
    simp [State.setPc, State.forkFail, Action.actor, Pc.expects] at hexpects

theorem Move.eq_actor (h : Move s a t) {r : Slot} (hmoved : t.pc r ≠ s.pc r)
    (huser : t.pc r ≠ .user 0) : r = a.actor := by
  by_contra hr
  rcases h.pc_of_ne hr with hsame | ⟨-, hstart⟩
  · exact hmoved hsame
  · exact huser hstart

theorem Base.expects_move (hs : Base s) (h : Move s a t) (r q : Slot) (state : ProcState)
    (hexpects : (t.pc r).expects = some (q, state)) : (t.proc q).state = state := by
  by_cases hmoved : t.pc r = s.pc r
  · rw [hmoved] at hexpects
    have hstate := hs.expects r q state hexpects
    have houtside := hs.frame h hmoved hexpects
    generalize t.proc q = proc' at houtside
    cases houtside <;> exact hstate
  · have huser : t.pc r ≠ .user 0 := fun h => by simp [h, Pc.expects] at hexpects
    obtain rfl := h.eq_actor hmoved huser
    exact hs.expects_actor h hmoved hexpects

theorem Base.expects_free (hs : Base s) {q : Slot} (hfree : s.plock q = none) {r : Slot}
    {state : ProcState} (hr : (s.pc r).expects = some (q, state)) : state = .used := by
  have hholds := hs.plock.not_holds hfree r
  cases hpc : s.pc r <;> rw [hpc] at hr hholds <;> cases hr <;> simp_all [Pc.Holds]

theorem Base.owner_actor (hs : Base s) (h : Move s a t) {r q : Slot} {state state' : ProcState}
    (hactor : (t.pc a.actor).expects = some (q, state))
    (hr : (t.pc r).expects = some (q, state')) : r = a.actor := by
  by_contra hne
  have hbefore := h.expects_of_ne hne hr
  rcases h.expects_from hactor with ⟨state'', hactor'⟩ | ⟨hfree, hstate, hused⟩
  · exact hne (hs.owner _ _ _ _ _ hbefore hactor')
  · have := hs.expects_free hfree hbefore
    exact hused (by rw [← hstate, hs.expects _ _ _ hbefore, this])

theorem Base.owner_move (hs : Base s) (h : Move s a t) (r r' q : Slot) (state state' : ProcState)
    (hr : (t.pc r).expects = some (q, state)) (hr' : (t.pc r').expects = some (q, state')) :
    r = r' := by
  by_cases hactor : r = a.actor
  · subst hactor
    exact (hs.owner_actor h hr hr').symm
  · by_cases hactor' : r' = a.actor
    · subst hactor'
      exact hs.owner_actor h hr' hr
    · exact hs.owner r r' q _ _ (h.expects_of_ne hactor hr) (h.expects_of_ne hactor' hr')

theorem Base.move (hs : Base s) (h : Move s a t) : Base t where
  wait := hs.wait_move h
  plock := hs.plock_move h
  fits := hs.fits_move h
  expects := hs.expects_move h
  owner := hs.owner_move h

theorem Start.base (hs : Start s) : Base s where
  wait := by
    intro _ p
    simp only [hs.waitLock, hs.pc, reduceCtorEq, false_iff]
    split <;> simp [Pc.holdsWait]
  plock := by
    intro q p
    simp only [hs.plock, hs.pc, reduceCtorEq, false_iff]
    split <;> simp [Pc.Holds]
  fits := by
    intro p
    rw [hs.pc]
    split
    · subst p
      exact .inl hs.init.1
    · rw [hs.free p ‹_›]
      exact .inl rfl
  expects := by
    intro p q state h
    rw [hs.pc] at h
    split at h <;> cases h
  owner := by
    intro p p' q state state' h
    rw [hs.pc] at h
    split at h <;> cases h

theorem Base.reach {allowed : State → Action → Prop} (h : system.Reach allowed (.ok s)) : Base s :=
  reach_invariant Base (fun _ => Start.base) (fun _ _ _ _ hs _ => hs.move) h

end Xv6.Life
