import Xv6.Life.Base

/-! Parents and children: what each step means for the family of processes, the
tree that the `parent` pointers form, and the records of exits and reaps. -/
namespace Xv6.Life

open Lib
open Sched (Slot ProcState nproc)

structure Same (p p' : Proc) : Prop where
  parent : p'.parent = p.parent
  origin : p'.origin = p.origin
  serial : p'.serial = p.serial
  xstate : p'.xstate = p.xstate
  unused : p'.state = .unused ↔ p.state = .unused
  used : p'.state = .used ↔ p.state = .used
  zombie : p'.state = .zombie ↔ p.state = .zombie
  pid : p.state ≠ .unused → p'.pid = p.pid

theorem Same.refl (p : Proc) : Same p p := ⟨rfl, rfl, rfl, rfl, .rfl, .rfl, .rfl, fun _ => rfl⟩

theorem Same.wakeup (p : Proc) (chan : Chan) : Same p (p.wakeup chan) := by
  unfold Proc.wakeup
  split
  · rename_i hsleep
    refine ⟨rfl, rfl, rfl, rfl, ?_, ?_, ?_, fun _ => rfl⟩ <;> simp [hsleep.1]
  · exact .refl p

theorem Same.kill (p : Proc) (pid : Int) : Same p (p.kill pid) := by
  unfold Proc.kill
  split
  · refine ⟨rfl, rfl, rfl, rfl, ?_, ?_, ?_, fun _ => rfl⟩ <;>
      by_cases hsleep : p.state = .sleeping <;> simp [hsleep]
  · exact .refl p

inductive Event (s : State) (a : Action) (t : State) : Prop where
  | kept : (∀ q, Same (s.proc q) (t.proc q)) → t.exits = s.exits → t.reaps = s.reaps →
      t.nextSerial = s.nextSerial → Event s a t
  | born {q : Slot} : s.pc a.actor = .forkUsed q →
      t.proc = Function.update s.proc q
        { s.proc q with state := .used, serial := s.nextSerial } →
      t.exits = s.exits → t.reaps = s.reaps → t.nextSerial = s.nextSerial + 1 → Event s a t
  | parent {q : Slot} : s.pc a.actor = .forkParent q →
      t.proc = Function.update s.proc q
        { s.proc q with parent := some a.actor, origin := (s.proc a.actor).serial } →
      t.exits = s.exits → t.reaps = s.reaps → t.nextSerial = s.nextSerial → Event s a t
  | ready {q : Slot} : s.pc a.actor = .forkReady q →
      t.proc = Function.update s.proc q { s.proc q with state := .runnable } →
      t.exits = s.exits → t.reaps = s.reaps → t.nextSerial = s.nextSerial → Event s a t
  | failed {q : Slot} : (s.pc a.actor).expects = some (q, .used) →
      t.proc = Function.update s.proc q (freeproc (s.proc q)) →
      t.exits = s.exits → t.reaps = s.reaps → t.nextSerial = s.nextSerial → Event s a t
  | adopted {q : Slot} {status : Int} : s.pc a.actor = .reparent status q →
      t.pc a.actor = .wakeInit status q 0 → (s.proc q).parent = some a.actor →
      t.proc = Function.update s.proc q { s.proc q with parent := some initproc } →
      t.exits = s.exits → t.reaps = s.reaps → t.nextSerial = s.nextSerial → Event s a t
  | exited {status : Int} : s.pc a.actor = .exitLock status →
      t.proc = Function.update s.proc a.actor
        { s.proc a.actor with xstate := status, state := .zombie } →
      t.exits = (s.recordExit a.actor status).exits → t.reaps = s.reaps →
      t.nextSerial = s.nextSerial → Event s a t
  | reaped {q : Slot} : s.pc a.actor = .waitFound q →
      t.pc a.actor = .waitReturn (s.proc q).pid →
      t.proc = Function.update s.proc q (freeproc (s.proc q)) → t.exits = s.exits →
      t.reaps = (s.recordReap a.actor q).reaps → t.nextSerial = s.nextSerial → Event s a t

variable {s t : State} {a : Action}

theorem same_update {q : Slot} {proc' : Proc} (h : Same (s.proc q) proc') (r : Slot) :
    Same (s.proc r) (Function.update s.proc q proc' r) := by
  by_cases hr : r = q
  · subst hr
    rwa [Function.update_self]
  · rw [Function.update_of_ne hr]
    exact .refl _

theorem Same.alive {p p' : Proc} (h : p.state = .running ∨ p.state = .runnable)
    (h' : p'.state = .running ∨ p'.state = .runnable ∨ p'.state = .sleeping)
    (hparent : p'.parent = p.parent) (horigin : p'.origin = p.origin)
    (hserial : p'.serial = p.serial) (hxstate : p'.xstate = p.xstate) (hpid : p'.pid = p.pid) :
    Same p p' := by
  refine ⟨hparent, horigin, hserial, hxstate, ?_, ?_, ?_, fun _ => hpid⟩ <;>
    rcases h with h | h <;> rcases h' with h' | h' | h' <;> simp [h, h']

theorem Base.event (hs : Base s) (h : Move s a t) : Event s a t := by
  cases h with
  | forkUsed hpc => exact .born hpc rfl rfl rfl rfl
  | forkParent hpc => exact .parent hpc rfl rfl rfl rfl
  | adopt hpc hparent => exact .adopted hpc (Function.update_self ..) hparent rfl rfl rfl rfl
  | exitLock hpc => exact .exited hpc rfl rfl rfl rfl
  | reap hpc => exact .reaped hpc (Function.update_self ..) rfl rfl rfl rfl
  | forkFail hpc =>
    refine .failed ?_ rfl rfl rfl rfl
    rcases hpc with h | h | h <;> exact congrArg Pc.expects h
  | @forkPid p q x hpc =>
    have hq := hs.expects p q _ (congrArg Pc.expects hpc)
    refine .kept (same_update ?_) rfl rfl rfl
    exact ⟨rfl, rfl, rfl, rfl, .rfl, .rfl, .rfl, fun h => absurd hq h⟩
  | forkTrapframe | forkPagetable | forkCopy | forkFiles | exitFile | exitCwd | waitTidy | use =>
    refine .kept (same_update ?_) rfl rfl rfl
    exact ⟨rfl, rfl, rfl, rfl, .rfl, .rfl, .rfl, fun _ => rfl⟩
  | forkReady hpc => exact .ready hpc rfl rfl rfl rfl
  | waitMark hpc =>
    have hp := hs.at hpc
    refine .kept (same_update ?_) rfl rfl rfl
    exact .alive (.inl hp) (by simp) rfl rfl rfl rfl rfl
  | resume _ hlive | dispatch _ hlive | yield hlive | sleep hlive =>
    refine .kept (same_update ?_) rfl rfl rfl
    exact .alive (by simp [hlive]) (by simp) rfl rfl rfl rfl rfl
  | wakeInit | wakeParent | wakeup =>
    exact .kept (same_update (.wakeup _ _)) rfl rfl rfl
  | kkill => exact .kept (same_update (.kill _ _)) rfl rfl rfl
  | _ =>
    exact .kept (fun _ => .refl _) rfl rfl rfl

def Pc.keeps (q : Slot) : Pc → Prop
  | .dead | .wakeParent _ _ _ | .exitLock _ | .exitRelease | .exitSched => False
  | .reparent _ i => i ≤ q
  | .wakeInit _ i _ => i < q
  | _ => True

def Pc.stays : Pc → Bool
  | .dead | .exitFiles _ _ | .exitWait _ | .reparent _ _ | .wakeInit _ _ _ | .wakeParent _ _ _
  | .exitLock _ | .exitRelease | .exitSched => false
  | _ => true

theorem Pc.stays_keeps {pc : Pc} (h : pc.stays = true) (q : Slot) : pc.keeps q := by
  cases pc <;> trivial

structure Tree (s : State) : Prop where
  init : (s.pc initproc).stays = true
  keeps : ∀ q r, (s.proc q).parent = some r → (s.pc r).keeps q
  found : ∀ p q, s.pc p = .waitFound q → (s.proc q).parent = some p
  ready : ∀ p q, s.pc p = .forkReady q → (s.proc q).parent ≠ none
  parented : ∀ q, q ≠ initproc → (s.proc q).state ≠ .unused → (s.proc q).state ≠ .used →
    (s.proc q).parent ≠ none

theorem Event.parent_cases (h : Event s a t) (q : Slot) :
    ((t.proc q).parent = (s.proc q).parent ∧ (t.proc q).origin = (s.proc q).origin) ∨
    ((t.proc q).state = .unused ∧ (t.proc q).parent = none) ∨
    (s.pc a.actor = .forkParent q ∧ (t.proc q).parent = some a.actor ∧
      (t.proc q).origin = (s.proc a.actor).serial) ∨
    ((∃ status, s.pc a.actor = .reparent status q) ∧ (t.proc q).parent = some initproc) := by
  have hother : ∀ q' proc', q ≠ q' → t.proc = Function.update s.proc q' proc' →
      (t.proc q).parent = (s.proc q).parent ∧ (t.proc q).origin = (s.proc q).origin := by
    intro q' proc' hq ht
    rw [ht, Function.update_of_ne hq]
    exact ⟨rfl, rfl⟩
  cases h with
  | kept hsame => exact .inl ⟨(hsame q).parent, (hsame q).origin⟩
  | @born q' _ ht | @ready q' _ ht | @exited status _ ht =>
    refine .inl ?_
    rw [ht, Function.update_apply]
    split
    · subst q
      exact ⟨rfl, rfl⟩
    · exact ⟨rfl, rfl⟩
  | @parent q' hpc ht =>
    by_cases hq : q = q'
    · subst hq
      refine .inr (.inr (.inl ⟨hpc, ?_⟩))
      rw [ht, Function.update_self]
      exact ⟨rfl, rfl⟩
    · exact .inl (hother _ _ hq ht)
  | @failed q' _ ht | @reaped q' _ _ ht =>
    by_cases hq : q = q'
    · subst hq
      refine .inr (.inl ?_)
      rw [ht, Function.update_self]
      exact ⟨rfl, rfl⟩
    · exact .inl (hother _ _ hq ht)
  | @adopted q' status hpc _ _ ht =>
    by_cases hq : q = q'
    · subst hq
      exact .inr (.inr (.inr ⟨⟨status, hpc⟩, by rw [ht, Function.update_self]⟩))
    · exact .inl (hother _ _ hq ht)

theorem Event.serial (h : Event s a t) (q : Slot) :
    (t.proc q).serial = (s.proc q).serial ∨ s.pc a.actor = .forkUsed q := by
  cases h with
  | kept hsame => exact .inl (hsame q).serial
  | @born q' hpc ht =>
    by_cases hq : q = q'
    · exact .inr (hq ▸ hpc)
    · rw [ht, Function.update_of_ne hq]
      exact .inl rfl
  | @parent q' _ ht | @ready q' _ ht | @failed q' _ ht | @adopted q' _ _ _ _ ht | @exited _ _ ht
  | @reaped q' _ _ ht =>
    refine .inl ?_
    rw [ht, Function.update_apply]
    split
    · subst q
      rfl
    · rfl

theorem Move.stays_actor (h : Move s a t) (hstays : (s.pc a.actor).stays = true) :
    (t.pc a.actor).stays = true ∨ a.actor ≠ initproc := by
  cases h with
  | exit hinit => exact .inr hinit
  | dispatch | yield | sleep | use | wakeup | kkill => exact .inl hstays
  | exitFile hpc | exitCwd hpc | exitWait hpc | adopt hpc | adoptSkip hpc | adoptDone hpc
  | wakeInit hpc | wakeInitSelf hpc | wakeInitDone hpc | wakeParent hpc | wakeParentSelf hpc
  | wakeParentDone hpc | exitLock hpc | exitRelease hpc | exitSched hpc =>
    simp [Action.actor, hpc, Pc.stays] at hstays
  | _ =>
    refine .inl ?_
    simp [State.setPc, State.forkFail, Action.actor, Pc.stays]

theorem Tree.init_move (hs : Tree s) (h : Move s a t) : (t.pc initproc).stays = true := by
  by_cases hinit : initproc = a.actor
  · have hstays := hs.init
    rw [hinit] at hstays ⊢
    exact (h.stays_actor hstays).resolve_right (absurd hinit.symm)
  · rcases h.pc_of_ne hinit with hsame | ⟨-, huser⟩
    · rw [hsame]
      exact hs.init
    · rw [huser]
      rfl

theorem Move.keeps_actor (h : Move s a t) {q : Slot} (hkeeps : (s.pc a.actor).keeps q) :
    (t.pc a.actor).keeps q ∨ (∃ status, s.pc a.actor = .reparent status q) ∧
      ((t.proc q).parent = some initproc ∨ (t.proc q).parent ≠ some a.actor) := by
  cases h with
  | dispatch | yield | sleep | use | wakeup | kkill => exact .inl hkeeps
  | exitWait hpc => simp [State.setPc, Action.actor, Pc.keeps]
  | @adopt p q' status x hpc =>
    by_cases hq : q = q'
    · subst hq
      exact .inr ⟨⟨status, hpc⟩, .inl (by simp [State.setPc, State.setProc])⟩
    · have hle : q'.val ≤ q := by simpa [Action.actor, hpc, Pc.keeps] using hkeeps
      have := Fin.val_ne_of_ne hq
      refine .inl ?_
      simp only [State.setPc, Action.actor, Function.update_self, Pc.keeps]
      omega
  | @adoptSkip p q' status x hpc hparent =>
    by_cases hq : q = q'
    · subst hq
      exact .inr ⟨⟨status, hpc⟩, .inr hparent⟩
    · have hle : q'.val ≤ q := by simpa [Action.actor, hpc, Pc.keeps] using hkeeps
      have := Fin.val_ne_of_ne hq
      refine .inl ?_
      simp only [State.setPc, Action.actor, Function.update_self, Pc.keeps]
      omega
  | adoptDone hpc hi =>
    simp only [Action.actor, hpc, Pc.keeps] at hkeeps
    have := q.isLt
    omega
  | wakeInit hpc | wakeInitSelf hpc | wakeInitDone hpc =>
    simp only [Action.actor, hpc, Pc.keeps] at hkeeps
    refine .inl ?_
    simp only [State.setPc, Action.actor, Function.update_self, Pc.keeps]
    omega
  | wakeParent hpc | wakeParentSelf hpc | wakeParentDone hpc | exitLock hpc | exitRelease hpc
  | exitSched hpc =>
    simp [Action.actor, hpc, Pc.keeps] at hkeeps
  | _ =>
    refine .inl ?_
    simp [State.setPc, State.forkFail, Action.actor, Pc.keeps]

theorem Tree.actor_ne_init (hs : Tree s) {p : Slot} (hp : (s.pc p).stays = false) :
    p ≠ initproc := by
  rintro rfl
  rw [hs.init] at hp
  cases hp

theorem Tree.keeps_move (hb : Base s) (hs : Tree s) (h : Move s a t) (q r : Slot)
    (hparent : (t.proc q).parent = some r) : (t.pc r).keeps q := by
  -- A parent that was one before, or becomes one now, keeps the slot in the step.
  have hstep : (s.pc r).keeps q → (r = a.actor → r ≠ initproc ∨ ∀ status,
      s.pc a.actor ≠ .reparent status q) → (t.pc r).keeps q := by
    intro hkeeps hactor
    by_cases hr : r = a.actor
    · subst hr
      rcases h.keeps_actor hkeeps with hkept | ⟨⟨status, hpc⟩, hgone⟩
      · exact hkept
      · rcases hactor rfl with hinit | hpc'
        · rw [hparent] at hgone
          simp [hinit] at hgone
        · exact absurd hpc (hpc' status)
    · rcases h.pc_of_ne hr with hsame | ⟨-, huser⟩
      · rwa [hsame]
      · rw [huser]
        trivial
  rcases (hb.event h).parent_cases q with
    ⟨hsame, -⟩ | ⟨-, hnone⟩ | ⟨hpc, hp, -⟩ | ⟨⟨status, hpc⟩, hp⟩
  · refine hstep (hs.keeps q r (hsame ▸ hparent)) fun hr => ?_
    by_cases hrep : ∃ status, s.pc a.actor = .reparent status q
    · obtain ⟨status, hpc⟩ := hrep
      exact .inl (hs.actor_ne_init (by rw [hr, hpc]; rfl))
    · exact .inr fun status hpc => hrep ⟨status, hpc⟩
  · rw [hnone] at hparent
    cases hparent
  · rw [hp] at hparent
    cases hparent
    refine hstep ?_ fun _ => .inr ?_ <;> simp [hpc, Pc.keeps]
  · rw [hp] at hparent
    cases hparent
    exact Pc.stays_keeps (hs.init_move h) q

theorem Tree.found_move (hb : Base s) (hs : Tree s) (h : Move s a t) (r q : Slot)
    (hfound : t.pc r = .waitFound q) : (t.proc q).parent = some r := by
  by_cases hmoved : t.pc r = s.pc r
  · rw [hmoved] at hfound
    have hq := hs.found r q hfound
    have houtside := hb.frame h hmoved (congrArg Pc.expects hfound)
    generalize t.proc q = proc' at houtside
    cases houtside with
    | same | killed => exact hq
    | adopted hpc hparent =>
      rw [hq] at hparent
      cases hparent
      simp [hfound] at hpc
  · obtain rfl := h.eq_actor hmoved (by simp [hfound])
    cases h with
    | waitFound _ hparent =>
      simp only [State.setPc, Action.actor, Function.update_self] at hfound
      cases hfound
      exact hparent
    | dispatch | yield | sleep | use | wakeup | kkill => exact absurd rfl hmoved
    | _ =>
      simp [State.setPc, State.forkFail, Action.actor] at hfound

theorem Tree.ready_move (hb : Base s) (hs : Tree s) (h : Move s a t) (r q : Slot)
    (hready : t.pc r = .forkReady q) : (t.proc q).parent ≠ none := by
  by_cases hmoved : t.pc r = s.pc r
  · rw [hmoved] at hready
    have hq := hs.ready r q hready
    have houtside := hb.frame h hmoved (congrArg Pc.expects hready)
    generalize t.proc q = proc' at houtside
    cases houtside with
    | same | killed => exact hq
    | adopted => nofun
  · obtain rfl := h.eq_actor hmoved (by simp [hready])
    cases h with
    | forkParent =>
      simp only [State.setPc, Action.actor, Function.update_self] at hready
      cases hready
      simp [State.setPc, State.setProc]
    | dispatch | yield | sleep | use | wakeup | kkill => exact absurd rfl hmoved
    | _ =>
      simp [State.setPc, State.forkFail, Action.actor] at hready

theorem Base.started (hs : Base s) (h : Move s a t) {q : Slot}
    (hunused : (t.proc q).state ≠ .unused)
    (hused : (t.proc q).state ≠ .used) :
    ((s.proc q).state ≠ .unused ∧ (s.proc q).state ≠ .used) ∨ s.pc a.actor = .forkReady q := by
  cases hs.event h with
  | kept hsame =>
    exact .inl ⟨mt (hsame q).unused.mpr hunused, mt (hsame q).used.mpr hused⟩
  | @born q' _ ht | @failed q' _ ht | @reaped q' _ _ ht =>
    rw [ht, Function.update_apply] at hunused hused
    split at hused <;> simp_all [freeproc]
  | @parent q' _ ht | @adopted q' _ _ _ _ ht =>
    rw [ht, Function.update_apply] at hunused hused
    split at hused <;> simp_all
  | @ready q' hpc ht =>
    by_cases hq : q = q'
    · exact .inr (hq ▸ hpc)
    · rw [ht, Function.update_of_ne hq] at hunused hused
      exact .inl ⟨hunused, hused⟩
  | @exited status hpc ht =>
    by_cases hq : q = a.actor
    · have hrun : (s.proc a.actor).state = .running := hs.at hpc
      rw [hq, hrun]
      exact .inl ⟨nofun, nofun⟩
    · rw [ht, Function.update_of_ne hq] at hunused hused
      exact .inl ⟨hunused, hused⟩

theorem Tree.parented_move (hb : Base s) (hs : Tree s) (h : Move s a t) (q : Slot)
    (hinit : q ≠ initproc) (hunused : (t.proc q).state ≠ .unused)
    (hused : (t.proc q).state ≠ .used) : (t.proc q).parent ≠ none := by
  have hbefore : (s.proc q).parent ≠ none := by
    rcases hb.started h hunused hused with ⟨hunused', hused'⟩ | hpc
    · exact hs.parented q hinit hunused' hused'
    · exact hs.ready _ q hpc
  rcases (hb.event h).parent_cases q with ⟨hsame, -⟩ | ⟨hfree, -⟩ | ⟨-, hp, -⟩ | ⟨-, hp⟩
  · rwa [hsame]
  · exact absurd hfree hunused
  · simp [hp]
  · simp [hp]

theorem Tree.move (hb : Base s) (hs : Tree s) (h : Move s a t) : Tree t where
  init := hs.init_move h
  keeps := hs.keeps_move hb h
  found := hs.found_move hb h
  ready := hs.ready_move hb h
  parented := hs.parented_move hb h

theorem Start.parent (hs : Start s) (q : Slot) : (s.proc q).parent = none := by
  by_cases hq : q = initproc
  · rw [hq]
    exact hs.init.2.2.1
  · rw [hs.free q hq]
    rfl

theorem Start.tree (hs : Start s) : Tree s where
  init := by simp [hs.pc, Pc.stays]
  keeps := by
    intro q r h
    rw [hs.parent] at h
    cases h
  found := by
    intro p q h
    rw [hs.pc] at h
    split at h <;> cases h
  ready := by
    intro p q h
    rw [hs.pc] at h
    split at h <;> cases h
  parented := by
    intro q hq hunused
    simp [hs.free q hq, Proc.empty] at hunused

theorem Tree.reach {allowed : State → Action → Prop} (h : system.Reach allowed (.ok s)) : Tree s :=
  reach_invariant Tree (fun _ => Start.tree) (fun _ _ _ hreach hs _ => hs.move (.reach hreach)) h

theorem Tree.parent_alive (hb : Base s) (hs : Tree s) {q r : Slot}
    (hparent : (s.proc q).parent = some r) :
    (s.proc r).state = .runnable ∨ (s.proc r).state = .running ∨ (s.proc r).state = .sleeping := by
  have hkeeps := hs.keeps q r hparent
  have hfits := hb.fits r
  cases hpc : s.pc r <;> simp_all [Pc.keeps, Fits] <;> grind

end Xv6.Life
