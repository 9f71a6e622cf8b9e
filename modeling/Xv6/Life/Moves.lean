import Xv6.Life.Code

/-! Everything a step of the process system can be. -/
namespace Xv6.Life

open Lib
open Sched (Slot ProcState nproc)

inductive Move (s : State) : Action → State → Prop where
  | fork {p : Slot} {ret : Int} : s.pc p = .user ret → (s.proc p).state = .running →
      Move s (.fork p) (s.setPc p (.forkScan 0))
  | exit {p : Slot} {ret status : Int} : p ≠ initproc → s.pc p = .user ret →
      (s.proc p).state = .running → Move s (.exit p status) (s.setPc p (.exitFiles status 0))
  | wait {p : Slot} {ret : Int} : s.pc p = .user ret → (s.proc p).state = .running →
      Move s (.wait p) (s.setPc p .waitAcquire)
  | forkSkip {p q : Slot} {x : Choice} : s.pc p = .forkScan q → Runs s p → s.plock q = none →
      (s.proc q).state ≠ .unused → Move s (.step p x) (s.setPc p (.forkScan (q + 1)))
  | forkTake {p q : Slot} {x : Choice} : s.pc p = .forkScan q → Runs s p → s.plock q = none →
      (s.proc q).state = .unused → Move s (.step p x) ((s.lock p q).setPc p (.forkFound q))
  | forkNone {p : Slot} {i : Nat} {x : Choice} : s.pc p = .forkScan i → Runs s p → nproc ≤ i →
      Move s (.step p x) (s.setPc p (.user (-1)))
  | forkPid {p q : Slot} {x : Choice} : s.pc p = .forkFound q →
      Move s (.step p x) ({ s.setProc q { s.proc q with pid := s.nextpid } with
        nextpid := succPid s.nextpid, given := s.given ++ [s.nextpid] }.setPc p (.forkUsed q))
  | forkUsed {p q : Slot} {x : Choice} : s.pc p = .forkUsed q →
      Move s (.step p x)
        ({ s.setProc q { s.proc q with state := .used, serial := s.nextSerial } with
          nextSerial := s.nextSerial + 1 }.setPc p (.forkTrapframe q))
  | forkTrapframe {p q : Slot} {x : Choice} : s.pc p = .forkTrapframe q → x.page ≠ 0 →
      Move s (.step p x)
        ((s.setProc q { s.proc q with trapframe := x.page }).setPc p (.forkPagetable q))
  | forkPagetable {p q : Slot} {x : Choice} : s.pc p = .forkPagetable q → x.page ≠ 0 →
      Move s (.step p x)
        ((s.setProc q { s.proc q with pagetable := x.page }).setPc p (.forkCopy q))
  | forkCopy {p q : Slot} {x : Choice} : s.pc p = .forkCopy q →
      Move s (.step p x)
        ((s.setProc q { s.proc q with sz := (s.proc p).sz }).setPc p (.forkFiles q))
  | forkFail {p q : Slot} {x : Choice} :
      s.pc p = .forkTrapframe q ∨ s.pc p = .forkPagetable q ∨ s.pc p = .forkCopy q →
      Move s (.step p x) (s.forkFail p q)
  | forkFiles {p q : Slot} {x : Choice} : s.pc p = .forkFiles q →
      Move s (.step p x)
        ((s.setProc q ((s.proc p).dupFiles (s.proc q))).setPc p (.forkRelease q))
  | forkRelease {p q : Slot} {x : Choice} : s.pc p = .forkRelease q →
      Move s (.step p x) ((s.unlock q).setPc p (.forkWait q))
  | forkWait {p q : Slot} {x : Choice} : s.pc p = .forkWait q → Runs s p → s.waitLock = none →
      Move s (.step p x) ({ s with waitLock := some p }.setPc p (.forkParent q))
  | forkParent {p q : Slot} {x : Choice} : s.pc p = .forkParent q →
      Move s (.step p x)
        ({ s.setProc q { s.proc q with parent := some p, origin := (s.proc p).serial } with
          waitLock := none }.setPc p (.forkReady q))
  | forkReady {p q : Slot} {x : Choice} : s.pc p = .forkReady q → Runs s p → s.plock q = none →
      Move s (.step p x)
        (((s.setProc q { s.proc q with state := .runnable }).setPc q (.user 0)).setPc p
          (.user (s.proc q).pid))
  | exitFile {p : Slot} {status : Int} {fd : Fin nofile} {x : Choice} :
      s.pc p = .exitFiles status fd → Runs s p →
      Move s (.step p x)
        ((s.setProc p { s.proc p with ofile := Function.update (s.proc p).ofile fd 0 }).setPc p
          (.exitFiles status (fd + 1)))
  | exitCwd {p : Slot} {status : Int} {fd : Nat} {x : Choice} : s.pc p = .exitFiles status fd →
      Runs s p → nofile ≤ fd →
      Move s (.step p x) ((s.setProc p { s.proc p with cwd := 0 }).setPc p (.exitWait status))
  | exitWait {p : Slot} {status : Int} {x : Choice} : s.pc p = .exitWait status → Runs s p →
      s.waitLock = none →
      Move s (.step p x) ({ s with waitLock := some p }.setPc p (.reparent status 0))
  | adopt {p q : Slot} {status : Int} {x : Choice} : s.pc p = .reparent status q →
      (s.proc q).parent = some p →
      Move s (.step p x) ((s.setProc q { s.proc q with parent := some initproc }).setPc p
        (.wakeInit status q 0))
  | adoptSkip {p q : Slot} {status : Int} {x : Choice} : s.pc p = .reparent status q →
      (s.proc q).parent ≠ some p → Move s (.step p x) (s.setPc p (.reparent status (q + 1)))
  | adoptDone {p : Slot} {status : Int} {i : Nat} {x : Choice} : s.pc p = .reparent status i →
      nproc ≤ i →
      Move s (.step p x) (s.setPc p (.wakeParent status (chanOf (s.proc p).parent) 0))
  | wakeInit {p q : Slot} {status : Int} {i : Nat} {x : Choice} :
      s.pc p = .wakeInit status i q → q ≠ p → s.plock q = none →
      Move s (.step p x) ((s.setProc q ((s.proc q).wakeup (.proc initproc))).setPc p
        (.wakeInit status i (q + 1)))
  | wakeInitSelf {p : Slot} {status : Int} {i : Nat} {x : Choice} :
      s.pc p = .wakeInit status i p → Move s (.step p x) (s.setPc p (.wakeInit status i (p + 1)))
  | wakeInitDone {p : Slot} {status : Int} {i j : Nat} {x : Choice} :
      s.pc p = .wakeInit status i j → nproc ≤ j →
      Move s (.step p x) (s.setPc p (.reparent status (i + 1)))
  | wakeParent {p q : Slot} {status : Int} {chan : Chan} {x : Choice} :
      s.pc p = .wakeParent status chan q → q ≠ p → s.plock q = none →
      Move s (.step p x) ((s.setProc q ((s.proc q).wakeup chan)).setPc p
        (.wakeParent status chan (q + 1)))
  | wakeParentSelf {p : Slot} {status : Int} {chan : Chan} {x : Choice} :
      s.pc p = .wakeParent status chan p →
      Move s (.step p x) (s.setPc p (.wakeParent status chan (p + 1)))
  | wakeParentDone {p : Slot} {status : Int} {chan : Chan} {j : Nat} {x : Choice} :
      s.pc p = .wakeParent status chan j → nproc ≤ j →
      Move s (.step p x) (s.setPc p (.exitLock status))
  | exitLock {p : Slot} {status : Int} {x : Choice} : s.pc p = .exitLock status →
      s.plock p = none →
      Move s (.step p x) ((((s.recordExit p status).setProc p { s.proc p with
        xstate := status, state := .zombie }).lock p p).setPc p .exitRelease)
  | exitRelease {p : Slot} {x : Choice} : s.pc p = .exitRelease →
      Move s (.step p x) ({ s with waitLock := none }.setPc p .exitSched)
  | exitSched {p : Slot} {x : Choice} : s.pc p = .exitSched →
      Move s (.step p x) ((s.unlock p).setPc p .dead)
  | waitAcquire {p : Slot} {x : Choice} : s.pc p = .waitAcquire → Runs s p → s.waitLock = none →
      Move s (.step p x) ({ s with waitLock := some p }.setPc p (.waitScan 0 false))
  | waitSkip {p q : Slot} {havekids : Bool} {x : Choice} : s.pc p = .waitScan q havekids →
      (s.proc q).parent ≠ some p → Move s (.step p x) (s.setPc p (.waitScan (q + 1) havekids))
  | waitAlive {p q : Slot} {havekids : Bool} {x : Choice} : s.pc p = .waitScan q havekids →
      (s.proc q).parent = some p → s.plock q = none → (s.proc q).state ≠ .zombie →
      Move s (.step p x) (s.setPc p (.waitScan (q + 1) true))
  | waitFound {p q : Slot} {havekids : Bool} {x : Choice} : s.pc p = .waitScan q havekids →
      (s.proc q).parent = some p → s.plock q = none → (s.proc q).state = .zombie →
      Move s (.step p x) ((s.lock p q).setPc p (.waitFound q))
  | waitKids {p : Slot} {i : Nat} {x : Choice} : s.pc p = .waitScan i true → nproc ≤ i →
      Move s (.step p x) (s.setPc p .waitKilled)
  | waitNone {p : Slot} {i : Nat} {x : Choice} : s.pc p = .waitScan i false → nproc ≤ i →
      Move s (.step p x) (s.setPc p (.waitReturn (-1)))
  | reap {p q : Slot} {x : Choice} : s.pc p = .waitFound q → x.ok = true →
      Move s (.step p x) ((((s.recordReap p q).setProc q (freeproc (s.proc q))).unlock q).setPc p
        (.waitReturn (s.proc q).pid))
  | copyoutFail {p q : Slot} {x : Choice} : s.pc p = .waitFound q → x.ok = false →
      Move s (.step p x) ((s.unlock q).setPc p (.waitReturn (-1)))
  | waitReturn {p : Slot} {ret : Int} {x : Choice} : s.pc p = .waitReturn ret →
      Move s (.step p x) ({ s with waitLock := none }.setPc p (.user ret))
  | waitKilled {p : Slot} {x : Choice} : s.pc p = .waitKilled → (s.proc p).killed = true →
      Move s (.step p x) (s.setPc p (.waitReturn (-1)))
  | waitGoOn {p : Slot} {x : Choice} : s.pc p = .waitKilled → (s.proc p).killed = false →
      Move s (.step p x) (s.setPc p .waitSleep)
  | waitSleep {p : Slot} {x : Choice} : s.pc p = .waitSleep → s.plock p = none →
      Move s (.step p x) ((s.lock p p).setPc p .waitRelease)
  | waitRelease {p : Slot} {x : Choice} : s.pc p = .waitRelease →
      Move s (.step p x) ({ s with waitLock := none }.setPc p .waitMark)
  | waitMark {p : Slot} {x : Choice} : s.pc p = .waitMark →
      Move s (.step p x) (((s.setProc p
        { s.proc p with chan := .proc p, state := .sleeping }).unlock p).setPc p .waitOff)
  | waitTidy {p : Slot} {x : Choice} : s.pc p = .waitTidy →
      Move s (.step p x) (((s.setProc p { s.proc p with chan := .none }).unlock p).setPc p
        .waitAcquire)
  | resume {p : Slot} : s.pc p = .waitOff → (s.proc p).state = .runnable → s.plock p = none →
      Move s (.dispatch p)
        (((s.setProc p { s.proc p with state := .running }).lock p p).setPc p .waitTidy)
  | dispatch {p : Slot} : s.pc p ≠ .waitOff → (s.proc p).state = .runnable → s.plock p = none →
      Move s (.dispatch p) (s.setProc p { s.proc p with state := .running, chan := .none })
  | yield {p : Slot} : (s.proc p).state = .running → s.plock p = none →
      (s.pc p).preemptible = true →
      Move s (.yield p) (s.setProc p { s.proc p with state := .runnable })
  | sleep {p : Slot} {n : Nat} : (s.proc p).state = .running → s.plock p = none →
      (s.pc p).sleepy = true →
      Move s (.sleep p n) (s.setProc p { s.proc p with state := .sleeping, chan := .other n })
  | wakeup {q : Slot} {n : Nat} : s.plock q = none →
      Move s (.wakeup q n) (s.setProc q ((s.proc q).wakeup (.other n)))
  | kkill {q : Slot} {pid : Int} : s.plock q = none →
      Move s (.kkill q pid) (s.setProc q ((s.proc q).kill pid))
  | use {p : Slot} {ret : Int} {sz pagetable cwd : Nat} {ofile : Fin nofile → Nat} :
      s.pc p = .user ret → (s.proc p).state = .running →
      Move s (.use p sz pagetable cwd ofile) (s.setProc p { s.proc p with
        sz := sz, pagetable := pagetable, cwd := cwd, ofile := ofile })

theorem slot?_eq_some {i : Nat} {q : Slot} (h : slot? i = some q) : i = q := by
  unfold slot? at h
  split at h <;> cases h
  rfl

theorem slot?_eq_none {i : Nat} (h : slot? i = none) : nproc ≤ i := by
  unfold slot? at h
  split at h
  · cases h
  · omega

variable {s t : State} {p : Slot} {x : Choice}

theorem move_fork (hrun : Runs s p) (h : forkStep s p x (s.pc p) = some t) :
    Move s (.step p x) t := by
  cases hpc : s.pc p <;> rw [hpc] at h
  case forkScan i =>
    simp only [forkStep] at h
    split at h
    · rename_i q hq
      obtain rfl := slot?_eq_some hq
      split at h
      · split at h <;> cases h
        · exact .forkTake hpc hrun ‹_› ‹_›
        · exact .forkSkip hpc hrun ‹_› ‹_›
      · cases h
    · cases h
      exact .forkNone hpc hrun (slot?_eq_none ‹_›)
  case forkFound q => cases h; exact .forkPid hpc
  case forkUsed q => cases h; exact .forkUsed hpc
  case forkTrapframe q =>
    simp only [forkStep] at h
    split at h <;> cases h
    · exact .forkFail (.inl hpc)
    · exact .forkTrapframe hpc ‹_›
  case forkPagetable q =>
    simp only [forkStep] at h
    split at h <;> cases h
    · exact .forkFail (.inr (.inl hpc))
    · exact .forkPagetable hpc ‹_›
  case forkCopy q =>
    simp only [forkStep] at h
    split at h <;> cases h
    · exact .forkCopy hpc
    · exact .forkFail (.inr (.inr hpc))
  case forkFiles q => cases h; exact .forkFiles hpc
  case forkRelease q => cases h; exact .forkRelease hpc
  case forkWait q =>
    simp only [forkStep] at h
    split at h <;> cases h
    exact .forkWait hpc hrun ‹_›
  case forkParent q => cases h; exact .forkParent hpc
  case forkReady q =>
    simp only [forkStep] at h
    split at h <;> cases h
    exact .forkReady hpc hrun ‹_›
  all_goals cases h

theorem move_exit (hrun : Runs s p) (h : exitStep s p (s.pc p) = some t) :
    Move s (.step p x) t := by
  cases hpc : s.pc p <;> rw [hpc] at h
  case exitFiles status fd =>
    simp only [exitStep] at h
    split at h <;> cases h
    · rename_i hfd
      exact @Move.exitFile s p status ⟨fd, hfd⟩ x hpc hrun
    · exact .exitCwd hpc hrun (by omega)
  case exitWait status =>
    simp only [exitStep] at h
    split at h <;> cases h
    exact .exitWait hpc hrun ‹_›
  case reparent status i =>
    simp only [exitStep] at h
    split at h
    · rename_i q hq
      obtain rfl := slot?_eq_some hq
      split at h <;> cases h
      · exact .adopt hpc ‹_›
      · exact .adoptSkip hpc ‹_›
    · cases h
      exact .adoptDone hpc (slot?_eq_none ‹_›)
  case wakeInit status i j =>
    simp only [exitStep] at h
    split at h
    · rename_i q hq
      obtain rfl := slot?_eq_some hq
      unfold wakeStep at h
      split at h
      · cases h
        subst q
        exact .wakeInitSelf hpc
      · split at h <;> cases h
        exact .wakeInit hpc ‹_› ‹_›
    · cases h
      exact .wakeInitDone hpc (slot?_eq_none ‹_›)
  case wakeParent status chan j =>
    simp only [exitStep] at h
    split at h
    · rename_i q hq
      obtain rfl := slot?_eq_some hq
      unfold wakeStep at h
      split at h
      · cases h
        subst q
        exact .wakeParentSelf hpc
      · split at h <;> cases h
        exact .wakeParent hpc ‹_› ‹_›
    · cases h
      exact .wakeParentDone hpc (slot?_eq_none ‹_›)
  case exitLock status =>
    simp only [exitStep] at h
    split at h <;> cases h
    exact .exitLock hpc ‹_›
  case exitRelease => cases h; exact .exitRelease hpc
  case exitSched => cases h; exact .exitSched hpc
  all_goals cases h

theorem move_wait (hrun : Runs s p) (h : waitStep s p x (s.pc p) = some t) :
    Move s (.step p x) t := by
  cases hpc : s.pc p <;> rw [hpc] at h
  case waitAcquire =>
    simp only [waitStep] at h
    split at h <;> cases h
    exact .waitAcquire hpc hrun ‹_›
  case waitScan i havekids =>
    simp only [waitStep] at h
    split at h
    · rename_i q hq
      obtain rfl := slot?_eq_some hq
      split at h
      · split at h
        · split at h <;> cases h
          · exact .waitFound hpc ‹_› ‹_› ‹_›
          · exact .waitAlive hpc ‹_› ‹_› ‹_›
        · cases h
      · cases h
        exact .waitSkip hpc ‹_›
    · cases h
      cases havekids
      · exact .waitNone hpc (slot?_eq_none ‹_›)
      · exact .waitKids hpc (slot?_eq_none ‹_›)
  case waitFound q =>
    simp only [waitStep] at h
    split at h <;> cases h
    · exact .reap hpc ‹_›
    · exact .copyoutFail hpc (by simpa using ‹¬x.ok = true›)
  case waitReturn ret => cases h; exact .waitReturn hpc
  case waitKilled =>
    simp only [waitStep] at h
    split at h <;> cases h
    cases hkilled : (s.proc p).killed
    · exact .waitGoOn hpc hkilled
    · exact .waitKilled hpc hkilled
  case waitSleep =>
    simp only [waitStep] at h
    split at h <;> cases h
    exact .waitSleep hpc ‹_›
  case waitRelease => cases h; exact .waitRelease hpc
  case waitMark => cases h; exact .waitMark hpc
  case waitTidy => cases h; exact .waitTidy hpc
  all_goals cases h

theorem move_of_act {a : Action} (h : act s a = some t)
    (hinit : ∀ status, a ≠ .exit initproc status) : Move s a t := by
  cases a with
  | fork p =>
    simp only [act] at h
    split at h
    · split at h <;> cases h
      exact .fork ‹_› ‹_›
    · cases h
  | exit p status =>
    have hp : p ≠ initproc := by
      rintro rfl
      exact hinit status rfl
    simp only [act] at h
    split at h
    · split at h <;> cases h
      exact .exit hp ‹_› ‹_›
    · cases h
  | wait p =>
    simp only [act] at h
    split at h
    · split at h <;> cases h
      exact .wait ‹_› ‹_›
    · cases h
  | step p x =>
    simp only [act] at h
    split at h
    · rcases Option.or_eq_some_iff.mp h with h | ⟨-, h⟩
      · exact move_fork ‹_› h
      · rcases Option.or_eq_some_iff.mp h with h | ⟨-, h⟩
        · exact move_exit ‹_› h
        · exact move_wait ‹_› h
    · cases h
  | dispatch p =>
    simp only [act] at h
    split at h
    · rename_i hready
      split at h <;> cases h
      · exact .resume ‹_› hready.1 hready.2
      · exact .dispatch ‹_› hready.1 hready.2
    · cases h
  | yield p =>
    simp only [act] at h
    split at h <;> cases h
    rename_i hready
    exact .yield hready.1 hready.2.1 hready.2.2
  | sleep p n =>
    simp only [act] at h
    split at h <;> cases h
    rename_i hready
    exact .sleep hready.1 hready.2.1 hready.2.2
  | wakeup q n =>
    simp only [act] at h
    split at h <;> cases h
    exact .wakeup ‹_›
  | kkill q pid =>
    simp only [act] at h
    split at h <;> cases h
    exact .kkill ‹_›
  | use p sz pagetable cwd ofile =>
    simp only [act] at h
    split at h
    · split at h <;> cases h
      exact .use ‹_› ‹_›
    · cases h

theorem move_of_exec {a : Action} (henabled : system.enabled s a) (hexec : exec s a = .ok t) :
    Move s a t := by
  obtain ⟨u, hu⟩ := Option.isSome_iff_exists.mp henabled
  have hok : (∀ status, a ≠ .exit initproc status) ∧ u = t := by
    simp only [exec, hu, Option.getD_some] at hexec
    split at hexec
    · split at hexec
      · cases hexec
      · rename_i hp
        cases hexec
        exact ⟨fun _ h => hp (by cases h; rfl), rfl⟩
    · rename_i hne
      cases hexec
      exact ⟨fun status => hne _ _, rfl⟩
  exact hok.2 ▸ move_of_act hu hok.1

theorem reach_invariant {allowed : State → Action → Prop} (Inv : State → Prop)
    (hinit : ∀ s, Start s → Inv s)
    (hmove : ∀ s a t, system.Reach allowed (.ok s) → Inv s → allowed s a → Move s a t → Inv t)
    (h : system.Reach allowed (.ok s)) : Inv s :=
  h.invariant_reach Inv hinit fun s a t hreach hs henabled hallowed hexec =>
    hmove s a t hreach hs hallowed (move_of_exec henabled hexec)

end Xv6.Life
