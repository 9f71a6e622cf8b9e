import Xv6.Sched.Wakeup

/-! Kills and interruptible waits. A loop that tests `killed` and then sleeps is
safe once it holds its own `p->lock`; `kkill` takes that lock but not `lk`, so
it can come between the test and the lock. -/
namespace Xv6.Sched.Monitor

open Lib

variable {D L X K : Type}

/-- `tested` marks the points between a `killed` that has answered no and the `sleep` that
follows it. Whether one follows can depend on the data. -/
def Cmd.Tests (tested : L → D → Prop) (l : L) (d : D) : Cmd D L → Prop
  | .step d' l' => tested l' d' → tested l d
  | .wakeup _ l' => tested l' d → tested l d
  | .killed l' => ¬tested (l' true) d
  | .sleep _ l' => tested l d ∧ ∀ d', ¬tested l' d'
  | .release _ => True

structure TestsKilled (code : Code D L X) (tested : L → D → Prop) : Prop where
  entry : ∀ {p l}, code.entry p l = true → ∀ d, ¬tested l d
  next : ∀ l d x, (code.next l d x).Tests tested l d

theorem TestsKilled.at {code : Code D L X} {tested : L → D → Prop} (ht : TestsKilled code tested)
    {l : L} {d : D} {x : X} {cmd : Cmd D L} (hnext : code.next l d x = cmd) :
    cmd.Tests tested l d :=
  hnext ▸ ht.next l d x

/-- The process has been told that it is not killed and is on its way to `sleep`, but does not
hold `p->lock` yet. -/
def Exposed (tested : L → D → Prop) (d : D) : Pos L → Prop
  | .inside l | .waking _ _ _ l => tested l d
  | .sleeping _ .acquire _ => True
  | _ => False

def NoKillInWindow (tested : L → D → Prop) (s : State D L K) : Action L X K → Prop
  | .kkill q pid => Exposed tested s.data (s.pos (.inl q)) → (s.proc q).pid ≠ pid
  | _ => True

instance (tested : L → D → Prop) [∀ l d, Decidable (tested l d)] (d : D) (pos : Pos L) :
    Decidable (Exposed tested d pos) :=
  match pos with
  | .inside l | .waking _ _ _ l => inferInstanceAs (Decidable (tested l d))
  | .sleeping _ .acquire _ => .isTrue trivial
  | .outside _ | .entering _ | .sleeping _ .release _ | .sleeping _ .chan _ | .sleeping _ .state _
  | .sleeping _ .sched _ | .sleeping _ .off _ | .sleeping _ .tidy _ | .sleeping _ .unlock _ =>
      .isFalse id

instance (tested : L → D → Prop) [∀ l d, Decidable (tested l d)] (s : State D L K)
    (a : Action L X K) : Decidable (NoKillInWindow tested s a) :=
  match a with
  | .kkill q _ => inferInstanceAs (Decidable (Exposed tested s.data (s.pos (.inl q)) → _))
  | .enter _ _ | .interrupt _ _ _ | .acquire _ | .run _ _ | .wake _ | .sleep _ | .dispatch _
  | .yield _ | .elsewhere _ _ => .isTrue trivial

def NoKilledSleeper (s : State D L K) : Prop :=
  ∀ p chan stage l, s.pos (.inl p) = .sleeping chan stage l → (s.proc p).state = .sleeping →
    (s.proc p).killed = false

def Unkilled (tested : L → D → Prop) (d : D) (p : Proc) : Pos L → Prop
  | .outside _ => True
  | .entering l => ∀ d', ¬tested l d'
  | .inside l | .waking _ _ _ l => tested l d → p.killed = false
  | .sleeping _ .off l => (∀ d', ¬tested l d') ∧ (p.state = .sleeping → p.killed = false)
  | .sleeping _ .tidy l | .sleeping _ .unlock l => ∀ d', ¬tested l d'
  | .sleeping _ _ l => (∀ d', ¬tested l d') ∧ p.killed = false

section Kill

variable [DecidableEq K] [Fintype K] {code : Code D L X} {tested : L → D → Prop} {d d' : D}
  {s t : State D L K} {a : Action L X K}

theorem Unkilled.of_eq {p p' : Proc} {pos : Pos L} (h : Unkilled tested d p pos)
    (hkilled : p'.killed = p.killed) (hstate : p'.state = .sleeping → p.state = .sleeping) :
    Unkilled tested d p' pos := by
  unfold Unkilled at h ⊢
  split at h <;> simp_all

omit [DecidableEq K] [Fintype K] in
theorem Unkilled.kill {p p' : Proc} {q : Slot} {pos : Pos L} (h : Unkilled tested d p pos)
    (hfree : ¬pos.Holds (.inl q : Ctx K) q) (hexposed : ¬Exposed tested d pos)
    (hstate : p'.state ≠ .sleeping) : Unkilled tested d p' pos := by
  cases pos with
  | sleeping chan stage l => cases stage <;> simp_all [Unkilled, Exposed, Pos.Holds]
  | _ => simp_all [Unkilled, Exposed]

theorem Unkilled.data {p : Proc} {pos : Pos L} (h : Unkilled tested d p pos)
    (hfree : pos.holdsLk = false) (d' : D) : Unkilled tested d' p pos := by
  cases pos with
  | inside | waking => cases hfree
  | outside | entering => exact h
  | sleeping chan stage l => cases stage <;> exact h

theorem Proc.wakeup_killed (p : Proc) (chan : Nat) : (p.wakeup chan).killed = p.killed := by
  unfold Proc.wakeup
  split <;> rfl

theorem Proc.kill_awake {p : Proc} {pid : Int} (h : p.pid = pid) :
    (p.kill pid).state ≠ .sleeping := by
  rw [Proc.kill, if_pos h]
  dsimp only
  split
  · exact nofun
  · assumption

theorem unkilled_move (ht : TestsKilled code tested) (hwf : Wf code s)
    (hs : ∀ p, Unkilled tested s.data (s.proc p) (s.pos (.inl p)))
      (hallowed : NoKillInWindow tested s a)
    (h : Move code s a t) (p : Slot) : Unkilled tested t.data (t.proc p) (t.pos (.inl p)) := by
  cases h with
  | enter hpos _ hentry =>
    refine each_pos (Unkilled tested s.data) hs (fun q hq => ?_) p
    exact ht.entry hentry
  | interrupt | handled => exact hs p
  | acquire hpos =>
    refine each_pos (Unkilled tested s.data) hs (fun q hq => ?_) p
    have hq' := hs q
    rw [← hq, hpos] at hq'
    exact fun h => absurd h (hq' _)
  | @data c x l l' d hpos hnext =>
    by_cases hc : .inl p = c
    · have hp := hs p
      subst hc
      rw [hpos] at hp
      simp only [State.setPos, Function.update_self]
      exact fun h => hp (ht.at hnext h)
    · -- `c` holds `lk`, so nobody else does
      have hfree : (s.pos (.inl p)).holdsLk = false := by
        by_contra hp
        rw [Bool.not_eq_false] at hp
        exact hc (hwf.lk.eq_of_holds (q := ()) hp (by rw [hpos]; rfl))
      simp only [State.setPos, Function.update_of_ne hc]
      exact (hs p).data hfree d
  | @killed q x l l' hpos hnext _ =>
    refine each_pos (Unkilled tested s.data) hs (fun r hr => ?_) p
    cases hr
    intro htested
    by_contra hkilled
    rw [Bool.not_eq_false] at hkilled
    rw [hkilled] at htested
    exact ht.at hnext htested
  | wakeup hpos hnext =>
    refine each_pos (Unkilled tested s.data) hs (fun q hq => ?_) p
    have hq' := hs q
    rw [← hq, hpos] at hq'
    exact fun h => hq' (ht.at hnext h)
  | sleep hpos hnext =>
    refine each_pos (Unkilled tested s.data) hs (fun q hq => ?_) p
    have hq' := hs q
    rw [← hq, hpos] at hq'
    obtain ⟨htested, hafter⟩ := ht.at hnext
    exact ⟨hafter, hq' htested⟩
  | release =>
    refine each_pos (Unkilled tested s.data) hs (fun _ _ => ?_) p
    trivial
  | wakeSkip hpos | wakeAcquire hpos | wakeRelease hpos | wakeDone hpos | sleepAcquire hpos
  | sleepRelease hpos | sleepSched hpos | sleepUnlock hpos =>
    refine each_pos (Unkilled tested s.data) hs (fun q hq => ?_) p
    have hq' := hs q
    rw [← hq, hpos] at hq'
    simp_all [Unkilled]
  | @wakeTest c chan q l hpos =>
    have hwoken := each_proc (Unkilled tested s.data) hs
      ((hs q).of_eq (Proc.wakeup_killed _ chan) Proc.wakeup_sleeping)
    refine each_pos (Unkilled tested s.data) hwoken (fun r hr => ?_) p
    have hr' := hwoken r
    rwa [← hr, hpos] at hr'
  | @sleepChan q _ _ hpos | @sleepState q _ _ hpos | @sleepTidy q _ _ hpos | @resume q _ _ hpos =>
    have hq' := hs q
    rw [hpos] at hq'
    refine each_both (Unkilled tested s.data) hs ?_ p
    simp_all [Unkilled]
  | dispatch | yield =>
    refine each_proc (Unkilled tested s.data) hs ?_ p
    refine (hs _).of_eq rfl (fun hsleep => ?_)
    cases hsleep
  | @kkill q pid hfree =>
    refine each_proc (Unkilled tested s.data) hs ?_ p
    by_cases hpid : (s.proc q).pid = pid
    · exact (hs q).kill (hwf.plock.not_holds hfree _) (fun h => hallowed h hpid)
        (Proc.kill_awake hpid)
    · rw [Proc.kill, if_neg hpid]
      exact hs q
  | elsewhere hpos =>
    refine each_proc (Unkilled tested s.data) hs ?_ p
    rw [hpos]
    trivial

theorem TestsKilled.reach (ht : TestsKilled code tested)
    (h : (system code K).Reach (NoKillInWindow tested) (.ok s)) : NoKilledSleeper s := by
  have hs : ∀ p, Unkilled tested s.data (s.proc p) (s.pos (.inl p)) := reach_invariant
    (fun s => ∀ p, Unkilled tested s.data (s.proc p) (s.pos (.inl p)))
    (fun s hs p => by rw [hs.pos]; trivial)
    (fun s a t hreach hs hallowed hmove => unkilled_move ht (.reach hreach) hs hallowed hmove) h
  intro p chan stage l hpos hsleep
  have hp := hs p
  have hfits := (Wf.reach h).fits p
  rw [hpos] at hp hfits
  -- the stages after `sched()` are entered only by a process that runs
  cases stage with
  | tidy | unlock => exact absurd hsleep hfits
  | off => exact hp.2 hsleep
  | acquire | release | chan | state | sched => exact hp.2

end Kill

end Xv6.Sched.Monitor
