import Xv6.Sched.Switch
import Xv6.Lib.Locks

/-! What the point of a CPU says about locks, `c->proc`, states and contexts; and
that, where all this holds, no step fails. -/
namespace Xv6.Sched.Switch

open Lib

def Point.held : Point → Option Slot
  | .firstTest i _ | .firstRelease i _ | .secondTest i _ | .setState i _ | .setProc i _ | .save i _
  | .saved i _ | .load i | .clearProc i _ | .secondRelease i _ | .tail i _ | .yieldSet i
  | .sleepSet i _ | .exitSet i _ | .sched i _ | .saving i _ | .leave i | .opAct _ i _
  | .opRelease i _ => some i
  | .idle _ | .yieldAcquire _ | .sleepAcquire _ _ | .exitAcquire _ _ | .opAcquire _ _ _ => none

def Spot.proc : Spot → Option Slot
  | .body p => some p
  | .firstPass _ _ | .secondPass _ _ => none

def Point.proc : Point → Option Slot
  | .idle spot | .opAcquire _ _ spot | .opAct _ _ spot | .opRelease _ spot => spot.proc
  | .save i _ | .saved i _ | .load i | .clearProc i _ | .tail i _ | .yieldAcquire i | .yieldSet i
  | .sleepAcquire i _ | .sleepSet i _ | .exitAcquire i _ | .exitSet i _ | .sched i _ | .saving i _
  | .leave i => some i
  | .firstTest _ _ | .firstRelease _ _ | .secondTest _ _ | .setState _ _ | .setProc _ _
  | .secondRelease _ _ => none

def Point.runs : Point → Option Slot
  | .idle spot | .opAcquire _ _ spot | .opAct _ _ spot | .opRelease _ spot => spot.proc
  | .setProc i _ | .save i _ | .saved i _ | .load i | .tail i _ | .yieldAcquire i | .yieldSet i
  | .sleepAcquire i _ | .sleepSet i _ | .exitAcquire i _ | .exitSet i _ => some i
  | _ => none

def Point.leaves : Point → Option Slot
  | .sched p _ | .saving p _ | .leave p | .clearProc p _ => some p
  | _ => none

def Point.loads : Point → Option Slot
  | .setState i _ | .setProc i _ | .save i _ | .saved i _ | .load i => some i
  | _ => none

def Point.inside : Point → Option Slot
  | .idle spot | .opAcquire _ _ spot | .opAct _ _ spot | .opRelease _ spot => spot.proc
  | .load i | .tail i _ | .yieldAcquire i | .yieldSet i | .sleepAcquire i _ | .sleepSet i _
  | .exitAcquire i _ | .exitSet i _ | .sched i _ | .saving i _ | .leave i => some i
  | _ => none

def Point.stores : Point → Option (Slot × Resume)
  | .sched p resume | .saving p resume => some (p, resume)
  | _ => none

def Point.op : Point → Option (Op × Slot × Spot)
  | .opAcquire op q back | .opAct op q back => some (op, q, back)
  | _ => none

def Good (context : Option Resume) : Prop := ∃ resume, context = some resume ∧ resume ≠ .exit

def Waits (state : ProcState) : Prop := state = .used ∨ state = .runnable ∨ state = .sleeping

variable {C : Type}

structure Inv (s : State C) : Prop where
  lock : Agree (fun _ q point => point.held = some q) s.lock s.point
  cproc : ∀ c, s.cproc c = (s.point c).proc
  ccontext : ∀ c p, (s.point c).inside = some p → ∃ highest, s.ccontext c = some (p, highest)
  runs : ∀ c p, (s.point c).runs = some p → (s.proc p).state = .running
  running : ∀ p, (s.proc p).state = .running → ∃ c, (s.point c).runs = some p
  unique : ∀ c c' p, (s.point c).runs = some p → (s.point c').runs = some p → c = c'
  leaves : ∀ c p, (s.point c).leaves = some p → (s.proc p).state ≠ .running
  ready : ∀ c i highest, s.point c = .setState i highest → (s.proc i).state = .runnable
  loads : ∀ c p, (s.point c).loads = some p → Good (s.context p)
  stores : ∀ c p, (s.point c).stores = some (p, .exit) → (s.proc p).state = .zombie
  context : ∀ p, Waits (s.proc p).state →
    (∀ c resume, (s.point c).stores ≠ some (p, resume)) → Good (s.context p)
  child_used : ∀ p q, s.child p = some q → (s.proc q).state = .used
  child_inj : ∀ p p' q, s.child p = some q → s.child p' = some q → p = p'
  done : ∀ c q back, (s.point c).op = some (.forkDone, q, back) →
    ∃ p, back = .body p ∧ s.child p = some q

variable [DecidableEq C] {s t : State C}

theorem Inv.acquire_ok (hs : Inv s) {c : C} {q : Slot} {next : Point}
    {r : Except Fault (State C)} (hheld : (s.point c).held = none)
    (h : acquire s c q next = some r) :
    s.lock q = none ∧ r = .ok ((s.setLock q (some c)).goto c next) := by
  unfold acquire at h
  split at h
  · cases h
    exact ⟨‹_›, rfl⟩
  · rename_i c' hlock
    split at h
    · subst c'
      rw [(hs.lock q c).mp hlock] at hheld
      cases hheld
    · cases h

theorem Inv.release_ok (hs : Inv s) {c : C} {q : Slot} {next : Point}
    (hheld : (s.point c).held = some q) (hlock : t.lock = s.lock) :
    s.lock q = some c ∧ release t c q next = .ok ((t.setLock q none).goto c next) := by
  have hq : s.lock q = some c := (hs.lock q c).mpr hheld
  exact ⟨hq, if_pos (by rw [hlock, hq])⟩

theorem Inv.step_move (hs : Inv s) {c : C} {r : Except Fault (State C)} (h : step s c = some r) :
    ∃ t, r = .ok t ∧ Move s c t := by
  have take : ∀ q next, (s.point c).held = none → Take q (s.point c) next →
      acquire s c q next = some r → ∃ t, r = .ok t ∧ Move s c t := by
    intro q next hheld htake h
    obtain ⟨hfree, rfl⟩ := hs.acquire_ok hheld h
    exact ⟨_, rfl, .take hfree htake⟩
  have drop : ∀ q next p, (s.point c).held = some q → Drop q (s.point c) next →
      p.state = (s.proc q).state → release (s.put q p) c q next = r →
      ∃ t, r = .ok t ∧ Move s c t := by
    rintro q next p hheld hdrop hstate rfl
    obtain ⟨hlock, hok⟩ := @Inv.release_ok C _ s (s.put q p) hs c q next hheld rfl
    exact ⟨_, hok, .drop hlock hdrop hstate⟩
  have hput : ∀ q, s.put q (s.proc q) = s := fun q => by simp [State.put]
  cases hpoint : s.point c with
  | idle spot =>
    cases spot with
    | firstPass i highest =>
      simp only [step, hpoint] at h
      split at h
      · refine take _ _ (by rw [hpoint]; rfl) ?_ h
        rw [hpoint]
        exact .first
      · cases h
        exact ⟨_, rfl, .hop (by rw [hpoint]; exact .firstDone)⟩
    | secondPass i highest =>
      simp only [step, hpoint] at h
      split at h
      · refine take _ _ (by rw [hpoint]; rfl) ?_ h
        rw [hpoint]
        exact .second
      · cases h
        exact ⟨_, rfl, .hop (by rw [hpoint]; exact .secondDone)⟩
    | body p => simp [step, hpoint] at h
  | firstTest i highest =>
    simp only [step, hpoint, Option.some.injEq] at h
    exact ⟨_, h.symm, .hop (by rw [hpoint]; exact .firstTest)⟩
  | firstRelease i highest =>
    simp only [step, hpoint, Option.some.injEq] at h
    refine drop i _ (s.proc i) (by rw [hpoint]; rfl) (by rw [hpoint]; exact .first) rfl ?_
    rw [hput, h]
  | secondTest i highest =>
    simp only [step, hpoint, Option.some.injEq] at h
    refine ⟨_, h.symm, .hop ?_⟩
    rw [hpoint]
    split
    · exact .found (‹_ ∧ _›).1
    · exact .skip
  | setState i highest =>
    simp only [step, hpoint, Option.some.injEq] at h
    exact ⟨_, h.symm, .setState hpoint rfl⟩
  | setProc i highest =>
    simp only [step, hpoint, Option.some.injEq] at h
    exact ⟨_, h.symm, .setProc hpoint⟩
  | save i highest =>
    simp only [step, hpoint, Option.some.injEq] at h
    exact ⟨_, h.symm, .save hpoint⟩
  | saved i highest =>
    simp only [step, hpoint, Option.some.injEq] at h
    exact ⟨_, h.symm, .saved hpoint⟩
  | load i =>
    obtain ⟨resume, hcontext, hexit⟩ := hs.loads c i (by rw [hpoint]; rfl)
    simp only [step, hpoint, hcontext] at h
    cases resume <;> first
      | exact absurd rfl hexit
      | (cases h; exact ⟨_, rfl, .hop (by rw [hpoint]; exact .load)⟩)
  | clearProc i highest =>
    simp only [step, hpoint, Option.some.injEq] at h
    exact ⟨_, h.symm, .clearProc hpoint⟩
  | secondRelease i highest =>
    simp only [step, hpoint, Option.some.injEq] at h
    refine drop i _ (s.proc i) (by rw [hpoint]; rfl) (by rw [hpoint]; exact .second) rfl ?_
    rw [hput, h]
  | tail p resume =>
    simp only [step, hpoint, Option.some.injEq] at h
    split at h
    · refine drop p _ _ (by rw [hpoint]; rfl) (by rw [hpoint]; exact .tail) ?_ h
      rfl
    · refine drop p _ (s.proc p) (by rw [hpoint]; rfl) (by rw [hpoint]; exact .tail) rfl ?_
      rw [hput, h]
  | yieldAcquire p =>
    simp only [step, hpoint] at h
    exact take _ _ (by rw [hpoint]; rfl) (by rw [hpoint]; exact .yield) h
  | sleepAcquire p chan =>
    simp only [step, hpoint] at h
    exact take _ _ (by rw [hpoint]; rfl) (by rw [hpoint]; exact .sleep) h
  | exitAcquire p status =>
    simp only [step, hpoint] at h
    exact take _ _ (by rw [hpoint]; rfl) (by rw [hpoint]; exact .exit) h
  | yieldSet p =>
    simp only [step, hpoint, Option.some.injEq] at h
    exact ⟨_, h.symm, .quit (by rw [hpoint]; exact .yield) rfl⟩
  | sleepSet p chan =>
    simp only [step, hpoint, Option.some.injEq] at h
    exact ⟨_, h.symm, .quit (by rw [hpoint]; exact .sleep) rfl⟩
  | exitSet p status =>
    simp only [step, hpoint, Option.some.injEq] at h
    exact ⟨_, h.symm, .quit (by rw [hpoint]; exact .exit) rfl⟩
  | sched p resume =>
    have hlock : s.lock p = some c := (hs.lock p c).mpr (by rw [hpoint]; rfl)
    have hstate := hs.leaves c p (by rw [hpoint]; rfl)
    simp only [step, hpoint, hlock, ne_eq, not_true_eq_false, if_false, if_neg hstate,
      Option.some.injEq] at h
    exact ⟨_, h.symm, .sched hpoint⟩
  | saving p resume =>
    simp only [step, hpoint, Option.some.injEq] at h
    exact ⟨_, h.symm, .saving hpoint⟩
  | leave p =>
    obtain ⟨highest, hccontext⟩ := hs.ccontext c p (by rw [hpoint]; rfl)
    simp only [step, hpoint, hccontext, Option.some.injEq] at h
    exact ⟨_, h.symm, .hop (by rw [hpoint]; exact .leave)⟩
  | opAcquire op q back =>
    simp only [step, hpoint] at h
    exact take _ _ (by rw [hpoint]; rfl) (by rw [hpoint]; exact .op) h
  | opAct op q back =>
    simp only [step, hpoint, Option.some.injEq] at h
    exact ⟨_, h.symm, .op hpoint⟩
  | opRelease q back =>
    simp only [step, hpoint, Option.some.injEq] at h
    refine drop q _ (s.proc q) (by rw [hpoint]; rfl) (by rw [hpoint]; exact .op) rfl ?_
    rw [hput, h]

theorem Inv.act_move (hs : Inv s) {a : Action C} {r : Except Fault (State C)}
    (h : act s a = some r) : r = .error .initExiting ∨ ∃ c t, r = .ok t ∧ Move s c t := by
  have myproc : ∀ c p next, s.point c = .idle (.body p) → Hop s c (.idle (.body p)) next →
      withMyproc s c p next = r → ∃ c t, r = .ok t ∧ Move s c t := by
    rintro c p next hpoint hhop rfl
    have hcproc : s.cproc c = some p := by rw [hs.cproc, hpoint]; rfl
    exact ⟨c, _, if_pos hcproc, .hop (by rwa [hpoint])⟩
  cases a with
  | step c => exact .inr ⟨c, hs.step_move h⟩
  | yield c =>
    simp only [act] at h
    split at h
    · exact .inr (myproc c _ _ ‹_› .yield (Option.some.inj h))
    · cases h
  | sleep c chan =>
    simp only [act] at h
    split at h
    · split at h
      · exact .inr (myproc c _ _ ‹_› .sleep (Option.some.inj h))
      · cases h
    · cases h
  | exit c status =>
    simp only [act] at h
    split at h
    · split at h
      · split at h
        · cases h
          exact .inl rfl
        · exact .inr (myproc c _ _ ‹_› .exit (Option.some.inj h))
      · cases h
    · cases h
  | call c op q =>
    simp only [act] at h
    split at h
    · rename_i back hpoint
      split at h
      · cases h
        exact .inr ⟨c, _, rfl, .hop (by rw [hpoint]; exact .call ‹_›)⟩
      · cases h
    · cases h

end Xv6.Sched.Switch
