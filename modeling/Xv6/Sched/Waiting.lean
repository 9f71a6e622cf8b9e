import Xv6.Sched.Monitor
import Xv6.Lib.Locks

/-! What holds of the locks and of the process states around `sleep` and
`wakeup`, whatever the code under the lock is. -/
namespace Xv6.Sched.Monitor

open Lib

variable {D L X K : Type}

def Pos.holdsLk : Pos L → Bool
  | .inside _ | .waking _ _ _ _ | .sleeping _ .acquire _ | .sleeping _ .release _ => true
  | _ => false

def Pos.Holds (c : Ctx K) (q : Slot) : Pos L → Prop
  | .waking _ i .test _ | .waking _ i .release _ => i = q
  | .sleeping _ .acquire _ | .sleeping _ .off _ => False
  | .sleeping _ _ _ => c = .inl q
  | _ => False

def Fits (own : Nat → Bool) (p : Proc) : Pos L → Prop
  | .outside _ => p.state = .sleeping → own p.chan = false
  | .sleeping chan .state _ => p.state ≠ .sleeping ∧ p.chan = chan
  | .sleeping chan .sched _ => p.state = .sleeping ∧ p.chan = chan
  | .sleeping chan .off _ => p.chan = chan
  | _ => p.state ≠ .sleeping

structure Wf (code : Code D L X) (s : State D L K) : Prop where
  lk : Agree (fun _ (_ : Unit) pos => pos.holdsLk = true) (fun _ => s.lk) s.pos
  plock : Agree Pos.Holds s.plock s.pos
  on : ∀ k p, s.on k = some p → (s.pos (.inl p)).interruptible = true
  fits : ∀ p, Fits code.own (s.proc p) (s.pos (.inl p))

variable {code : Code D L X} {s t : State D L K} {a : Action L X K}

theorem Start.wf (hs : Start code s) : Wf code s where
  lk := by
    intro _ c
    simp [hs.lk, hs.pos c, Pos.holdsLk]
  plock := by
    intro q c
    simp [hs.plock q, hs.pos c, Pos.Holds]
  on := by
    intro k p hk
    rw [hs.on k] at hk
    cases hk
  fits := by
    intro p
    rw [hs.pos]
    exact hs.proc p

variable [DecidableEq K] [Fintype K]

theorem Wf.lk_move (hs : Wf code s) (h : Move code s a t) :
    Agree (fun _ (_ : Unit) pos => pos.holdsLk = true) (fun _ => t.lk) t.pos := by
  cases h with
  | acquire hpos _ hfree => exact hs.lk.take_single hfree rfl
  | release hpos _ | handled hpos _ | sleepRelease hpos =>
    exact hs.lk.drop_single (by rw [hpos]; rfl) nofun
  | dispatch | yield | kkill | elsewhere => exact hs.lk
  | enter hpos | interrupt hpos | data hpos | killed hpos | wakeup hpos | sleep hpos
  | wakeSkip hpos | wakeAcquire hpos | wakeTest hpos | wakeRelease hpos | wakeDone hpos
  | sleepAcquire hpos | sleepChan hpos | sleepState hpos | sleepSched hpos | sleepTidy hpos
  | sleepUnlock hpos | resume hpos =>
    refine hs.lk.move (fun _ => ?_)
    simp [hpos, Pos.holdsLk]

theorem Wf.plock_move (hs : Wf code s) (h : Move code s a t) : Agree Pos.Holds t.plock t.pos := by
  cases h with
  | wakeAcquire hpos _ hfree | sleepAcquire hpos hfree | resume hpos _ hfree =>
    refine hs.plock.take hfree (fun _ => ?_)
    simp [hpos, Pos.Holds, Fin.ext_iff, eq_comm]
  | wakeRelease hpos | sleepSched hpos | sleepUnlock hpos =>
    refine hs.plock.drop ?_ (fun _ => ?_)
    · simp [hpos, Pos.Holds]
    · simp [hpos, Pos.Holds, Fin.ext_iff, eq_comm]
  | dispatch | yield | kkill | elsewhere => exact hs.plock
  | @wakeDone c chan i stage l hpos hi =>
    refine hs.plock.move (fun q => ?_)
    have hq : i ≠ q := by have := q.isLt; omega
    cases stage <;> simp [hpos, Pos.Holds, hq]
  | enter hpos | interrupt hpos | data hpos | killed hpos | wakeup hpos | sleep hpos
  | wakeSkip hpos | acquire hpos | wakeTest hpos | release hpos | handled hpos | sleepRelease hpos
  | sleepChan hpos | sleepState hpos | sleepTidy hpos =>
    refine hs.plock.move (fun _ => ?_)
    simp [hpos, Pos.Holds]

theorem Wf.on_move (hs : Wf code s) (h : Move code s a t) (k : K) (p : Slot)
    (hk : t.on k = some p) : (t.pos (.inl p)).interruptible = true := by
  have hon := hs.on
  cases h <;> simp only [State.setPos, State.setPlock, State.setProc, Function.update_apply] at hk ⊢
  all_goals grind [Pos.interruptible, State.Active, State.Runs]

theorem Proc.wakeup_chan (p : Proc) (chan : Nat) : (p.wakeup chan).chan = p.chan := by
  unfold Proc.wakeup
  split <;> rfl

theorem Proc.wakeup_sleeping {p : Proc} {chan : Nat} (h : (p.wakeup chan).state = .sleeping) :
    p.state = .sleeping := by
  unfold Proc.wakeup at h
  split at h
  · cases h
  · exact h

theorem Proc.kill_chan (p : Proc) (pid : Int) : (p.kill pid).chan = p.chan := by
  unfold Proc.kill
  split <;> rfl

theorem Proc.kill_sleeping {p : Proc} {pid : Int} (h : (p.kill pid).state = .sleeping) :
    p.state = .sleeping := by
  unfold Proc.kill at h
  split at h
  · dsimp only at h
    split at h
    · cases h
    · exact h
  · exact h

omit [DecidableEq K] [Fintype K] in
theorem Wf.not_sched (hs : Wf code s) {q : Slot} (hfree : s.plock q = none) (chan : Nat) (l : L) :
    s.pos (.inl q) ≠ .sleeping chan .sched l := by
  intro hpos
  refine hs.plock.not_holds hfree (.inl q) ?_
  simp [hpos, Pos.Holds]

section Each

/-! A relation between the state of each process and where it is, after one of the
two changes, or both. -/

variable (R : Proc → Pos L → Prop) {proc : Slot → Proc} {pos : Ctx K → Pos L}

omit [Fintype K] in
theorem each_pos (hs : ∀ p, R (proc p) (pos (.inl p))) {c : Ctx K} {pos' : Pos L}
    (h : ∀ p, c = .inl p → R (proc p) pos') (p : Slot) :
    R (proc p) (Function.update pos c pos' (.inl p)) := by
  by_cases hc : (.inl p : Ctx K) = c
  · rw [hc, Function.update_self]
    exact h p hc.symm
  · rw [Function.update_of_ne hc]
    exact hs p

omit [DecidableEq K] [Fintype K] in
theorem each_proc (hs : ∀ p, R (proc p) (pos (.inl p))) {q : Slot} {proc' : Proc}
    (h : R proc' (pos (.inl q))) (p : Slot) :
    R (Function.update proc q proc' p) (pos (.inl p)) := by
  by_cases hq : p = q
  · subst hq
    rwa [Function.update_self]
  · rw [Function.update_of_ne hq]
    exact hs p

omit [Fintype K] in
theorem each_both (hs : ∀ p, R (proc p) (pos (.inl p))) {q : Slot} {proc' : Proc}
    {pos' : Pos L} (h : R proc' pos') (p : Slot) :
    R (Function.update proc q proc' p) (Function.update pos (.inl q) pos' (.inl p)) := by
  by_cases hq : p = q
  · subst hq
    rwa [Function.update_self, Function.update_self]
  · rw [Function.update_of_ne hq, Function.update_of_ne (by simpa using hq)]
    exact hs p

end Each

theorem Fits.of_runnable {own : Nat → Bool} {p p' : Proc} {at' : Pos L} (h : Fits own p at')
    (hsched : ∀ chan l, at' ≠ .sleeping chan .sched l) (hchan : p'.chan = p.chan)
    (hstate : p'.state = .sleeping → p.state = .sleeping) : Fits own p' at' := by
  unfold Fits at h ⊢
  grind

theorem Wf.fits_move (hs : Wf code s) (h : Move code s a t) (p : Slot) :
    Fits code.own (t.proc p) (t.pos (.inl p)) := by
  cases h with
  | enter hpos hruns =>
    refine each_pos (Fits code.own) hs.fits (fun q hq => ?_) p
    cases hq
    simp [Fits, hruns.1]
  | interrupt | handled => exact hs.fits p
  | acquire hpos | data hpos | killed hpos | wakeup hpos | sleep hpos | release hpos
  | wakeSkip hpos | wakeAcquire hpos | wakeRelease hpos | wakeDone hpos | sleepAcquire hpos
  | sleepRelease hpos | sleepSched hpos | sleepUnlock hpos =>
    refine each_pos (Fits code.own) hs.fits (fun q hq => ?_) p
    have hfits := hs.fits q
    rw [← hq, hpos] at hfits
    simp_all [Fits]
  | @wakeTest c chan q l hpos =>
    have hheld : s.plock q = some c := hs.plock.held (by simp [hpos, Pos.Holds])
    have hsched : ∀ chan l, s.pos (.inl q) ≠ .sleeping chan .sched l := by
      intro chan' l' hsched
      have hown : s.plock q = some (.inl q) := hs.plock.held (by simp [hsched, Pos.Holds])
      rw [Option.some.inj (hheld.symm.trans hown), hsched] at hpos
      cases hpos
    have hwoken := each_proc (Fits code.own) hs.fits ((hs.fits q).of_runnable hsched
      (Proc.wakeup_chan _ chan) Proc.wakeup_sleeping)
    refine each_pos (Fits code.own) hwoken (fun r hr => ?_) p
    have hfits := hwoken r
    rwa [← hr, hpos] at hfits
  | @sleepChan q chan l hpos | @sleepState q chan l hpos | @sleepTidy q chan l hpos
  | @resume q chan l hpos =>
    have hfits := hs.fits q
    rw [hpos] at hfits
    refine each_both (Fits code.own) hs.fits ?_ p
    simp_all [Fits, Monitor.resume]
  | dispatch hoff hrunnable hfree =>
    refine each_proc (Fits code.own) hs.fits ?_ p
    exact (hs.fits _).of_runnable (hs.not_sched hfree) rfl nofun
  | yield hruns hfree hpos =>
    refine each_proc (Fits code.own) hs.fits ?_ p
    exact (hs.fits _).of_runnable (hs.not_sched hfree) rfl nofun
  | kkill hfree =>
    exact each_proc (Fits code.own) hs.fits ((hs.fits _).of_runnable (hs.not_sched hfree)
      (Proc.kill_chan _ _) Proc.kill_sleeping) p
  | elsewhere hpos _ _ hown =>
    refine each_proc (Fits code.own) hs.fits ?_ p
    rw [hpos]
    exact hown

theorem Wf.move (hs : Wf code s) (h : Move code s a t) : Wf code t :=
  ⟨hs.lk_move h, hs.plock_move h, hs.on_move h, hs.fits_move h⟩

theorem Wf.reach {allowed : State D L K → Action L X K → Prop}
    (h : (system code K).Reach allowed (.ok s)) : Wf code s :=
  reach_invariant (Wf code) (fun _ => Start.wf) (fun _ _ _ _ hs _ => hs.move) h

end Xv6.Sched.Monitor
