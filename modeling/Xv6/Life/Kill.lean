import Xv6.Life.Base

/-! Kills and `kwait`. The loop of `kwait` tests `killed` and then sleeps; a `kkill`
that comes between the two, before `sleep` takes `p->lock`, is not seen. -/
namespace Xv6.Life

open Lib
open Sched (Slot ProcState nproc)

/-- No `kkill` hits a process that `killed` has answered no, before its
`acquire(&p->lock)` in `sleep`. -/
def NoKillBeforeSleep (s : State) : Action → Prop
  | .kkill q pid => s.pc q = .waitSleep → (s.proc q).pid ≠ pid
  | _ => True

def NoKilledWaiter (s : State) : Prop :=
  ∀ p, s.pc p = .waitOff → (s.proc p).state = .sleeping → (s.proc p).killed = false

def Unkilled (proc : Proc) : Pc → Prop
  | .waitSleep | .waitRelease | .waitMark => proc.killed = false
  | .waitOff => proc.state = .sleeping → proc.killed = false
  | _ => True

namespace Unkilled

variable {proc proc' : Proc} {pc : Pc}

theorem of_eq (h : Unkilled proc pc) (hkilled : proc'.killed = proc.killed)
    (hstate : proc'.state = .sleeping → proc.state = .sleeping) : Unkilled proc' pc := by
  cases pc <;> simp_all [Unkilled]

theorem wakeup (h : Unkilled proc pc) (chan : Chan) : Unkilled (proc.wakeup chan) pc := by
  unfold Proc.wakeup
  split
  · exact h.of_eq rfl nofun
  · exact h

theorem kill (h : Unkilled proc pc) {q : Slot} {pid : Int} (hfree : ¬pc.Holds q q)
    (hwindow : pc = .waitSleep → proc.pid ≠ pid) : Unkilled (proc.kill pid) pc := by
  unfold Proc.kill
  split
  · -- whoever is SLEEPING is made RUNNABLE
    rename_i hpid
    cases pc <;> simp_all [Unkilled, Pc.Holds]
    split <;> simp_all
  · exact h

end Unkilled

variable {s t : State} {a : Action}

theorem unkilled_move (hbase : Base s) (hs : ∀ p, Unkilled (s.proc p) (s.pc p))
    (hallowed : NoKillBeforeSleep s a) (h : Move s a t) (r : Slot) :
    Unkilled (t.proc r) (t.pc r) := by
  have hat : ∀ {p pc}, s.pc p = pc → Unkilled (s.proc p) pc := fun {p _} hpc => hpc ▸ hs p
  cases h with
  | waitGoOn _ hkilled =>
    refine each_pc (R := fun _ => Unkilled) hs ?_ r
    exact hkilled
  | waitSleep hpc | waitRelease hpc =>
    refine each_pc (R := fun _ => Unkilled) hs ?_ r
    have hp := hat hpc
    exact hp
  | waitMark hpc =>
    refine each_self (R := fun _ => Unkilled) hs ?_ r
    exact fun _ => hat hpc
  | exitFile | exitCwd | exitLock | waitTidy | resume =>
    refine each_self (R := fun _ => Unkilled) hs ?_ r
    trivial
  | forkPid | forkTrapframe | forkPagetable | forkCopy | forkFiles | forkParent | adopt =>
    refine each_pc (R := fun _ => Unkilled) (each_proc (R := fun _ => Unkilled) hs ?_) ?_ r
    · exact (hs _).of_eq rfl id
    · trivial
  | forkUsed =>
    refine each_pc (R := fun _ => Unkilled) (each_proc (R := fun _ => Unkilled) hs ?_) ?_ r
    · exact (hs _).of_eq rfl nofun
    · trivial
  | forkFail | reap =>
    refine each_pc (R := fun _ => Unkilled) (each_proc (R := fun _ => Unkilled) hs ?_) ?_ r
    · unfold Unkilled
      split <;> simp [freeproc]
    · trivial
  | forkReady =>
    refine each_pc (R := fun _ => Unkilled) (each_self (R := fun _ => Unkilled) hs ?_) ?_ r
    · trivial
    · trivial
  | wakeInit | wakeParent =>
    refine each_pc (R := fun _ => Unkilled) (each_proc (R := fun _ => Unkilled) hs ?_) ?_ r
    · exact (hs _).wakeup _
    · trivial
  | dispatch | yield =>
    refine each_proc (R := fun _ => Unkilled) hs ?_ r
    exact (hs _).of_eq rfl nofun
  | @sleep p n _ _ hsleepy =>
    refine each_proc (R := fun _ => Unkilled) hs ?_ r
    cases hpc : s.pc p <;> simp_all [Unkilled, Pc.sleepy]
  | wakeup =>
    refine each_proc (R := fun _ => Unkilled) hs ?_ r
    exact (hs _).wakeup _
  | kkill hfree =>
    refine each_proc (R := fun _ => Unkilled) hs ?_ r
    exact (hs _).kill (hbase.plock.not_holds hfree _) hallowed
  | use =>
    refine each_proc (R := fun _ => Unkilled) hs ?_ r
    exact (hs _).of_eq rfl id
  | _ =>
    refine each_pc (R := fun _ => Unkilled) hs ?_ r
    trivial

theorem NoKilledWaiter.reach (h : system.Reach NoKillBeforeSleep (.ok s)) : NoKilledWaiter s := by
  have hs : ∀ p, Unkilled (s.proc p) (s.pc p) := reach_invariant
    (fun s => ∀ p, Unkilled (s.proc p) (s.pc p))
    (fun s hs p => by
      rw [hs.pc]
      split <;> trivial)
    (fun s a t hreach hs hallowed hmove => unkilled_move (.reach hreach) hs hallowed hmove) h
  intro p hpc hsleep
  have hp := hs p
  rw [hpc] at hp
  exact hp hsleep

end Xv6.Life
