import Xv6.Sched.History

/-! Mutual exclusion by sleep-locks. A process holds the lock from when it sets `locked` in
`acquiresleep` until it clears it in `releasesleep`. -/
namespace Xv6.Sched.Monitor

open Lib

section Locals

variable {D L X K : Type} [DecidableEq K] [Fintype K] {code : Code D L X} {s t : State D L K}
  {a : Action L X K}

def Cmd.Goes (d d' : D) (l : L) : Cmd D L → Prop
  | .step d₁ l₁ => d' = d₁ ∧ l = l₁
  | .killed l₁ => d' = d ∧ ∃ b, l = l₁ b
  | .wakeup _ l₁ | .sleep _ l₁ | .release l₁ => d' = d ∧ l = l₁

def Only (s : State D L K) (c : Ctx K) (l : L) (t : State D L K) : Prop :=
  (t.pos c).locals = some l ∧ ∀ c', c' ≠ c → (t.pos c').locals = (s.pos c').locals

theorem locals_of_move (h : Move code s a t) :
    (t.data = s.data ∧ ∀ c, (t.pos c).locals = (s.pos c).locals) ∨
    (∃ p l, a = .enter p l ∧ code.entry p l = true ∧ t.data = s.data ∧ Only s (.inl p) l t) ∨
    (∃ k l, code.handler l = true ∧ t.data = s.data ∧ Only s (.inr k) l t) ∨
    ∃ c x l l', s.pos c = .inside l ∧ (code.next l s.data x).Goes s.data t.data l' ∧
      Only s c l' t := by
  have honly : ∀ {c pos l}, pos.locals = some l → t.pos = Function.update s.pos c pos →
      Only s c l t := by
    intro c pos l hpos ht
    rw [Only, ht, Function.update_self]
    exact ⟨hpos, fun c' hc' => by rw [Function.update_of_ne hc']⟩
  have hsame : ∀ {c pos}, pos.locals = (s.pos c).locals → t.pos = Function.update s.pos c pos →
      ∀ c, (t.pos c).locals = (s.pos c).locals := by
    intro c pos hpos ht c'
    rw [ht, Function.update_apply]
    split
    · rename_i heq
      rw [hpos, heq]
    · rfl
  cases h with
  | enter hpos _ hentry => exact Or.inr (Or.inl ⟨_, _, rfl, hentry, rfl, honly rfl rfl⟩)
  | interrupt hpos hhandler => exact Or.inr (Or.inr (Or.inl ⟨_, _, hhandler, rfl, honly rfl rfl⟩))
  | data hpos hnext | wakeup hpos hnext | sleep hpos hnext | release hpos hnext
  | handled hpos hnext =>
    exact Or.inr (Or.inr (Or.inr ⟨_, _, _, _, hpos, by rw [hnext]; exact ⟨rfl, rfl⟩,
      honly rfl rfl⟩))
  | killed hpos hnext =>
    exact Or.inr (Or.inr (Or.inr ⟨_, _, _, _, hpos, by rw [hnext]; exact ⟨rfl, _, rfl⟩,
      honly rfl rfl⟩))
  | acquire hpos | wakeSkip hpos | wakeAcquire hpos | wakeTest hpos | wakeRelease hpos
  | wakeDone hpos | sleepAcquire hpos | sleepRelease hpos | sleepChan hpos | sleepState hpos
  | sleepSched hpos | sleepTidy hpos | sleepUnlock hpos | resume hpos =>
    exact Or.inl ⟨rfl, hsame (by rw [hpos]; rfl) rfl⟩
  | dispatch | yield | kkill | elsewhere => exact Or.inl ⟨rfl, fun _ => rfl⟩

end Locals

variable {s t : State Sleeplock SleeplockLocal Empty} {a : Action SleeplockLocal Unit Empty}
  {chan : Nat}

def Holding (s : State Sleeplock SleeplockLocal Empty) (p : Slot) : Prop :=
  (s.pos (.inl p)).locals = some .taken ∨ (s.pos (.inl p)).locals = some .clear

instance (s : State Sleeplock SleeplockLocal Empty) (p : Slot) : Decidable (Holding s p) :=
  inferInstanceAs (Decidable (_ ∨ _))

def Paired (s : State Sleeplock SleeplockLocal Empty) : Action SleeplockLocal Unit Empty → Prop
  | .enter p l => Holding s p ↔ l = .clear
  | _ => True

instance (s : State Sleeplock SleeplockLocal Empty) (a : Action SleeplockLocal Unit Empty) :
    Decidable (Paired s a) := by
  unfold Paired
  split <;> infer_instance

structure Guarded (s : State Sleeplock SleeplockLocal Empty) : Prop where
  unique : ∀ p q, Holding s p → Holding s q → p = q
  locked : s.data.locked = true ↔ ∃ p, Holding s p

theorem Guarded.same (hs : Guarded s) (hdata : t.data = s.data)
    (hsame : ∀ p, Holding t p ↔ Holding s p) : Guarded t := by
  refine ⟨fun p q hp hq => hs.unique p q ((hsame p).mp hp) ((hsame q).mp hq), ?_⟩
  simp only [hdata, hsame]
  exact hs.locked

theorem goes_cases {d d' : Sleeplock} {l l' : SleeplockLocal}
    (h : ((sleeplock chan).next l d ()).Goes d d' l') :
    (d' = d ∧ (l' = .taken ∨ l' = .clear ↔ l = .taken ∨ l = .clear)) ∨
    (d.locked = false ∧ d'.locked = true ∧ l' = .taken) ∨
    (l = .clear ∧ d'.locked = false ∧ l' = .wake) := by
  cases l with
  | test pid =>
    simp only [sleeplock] at h
    split at h
    · simp_all [Cmd.Goes]
    · simp_all [Cmd.Goes]
  | _ => simp_all [sleeplock, Cmd.Goes]

theorem Guarded.move (hs : Guarded s) (hok : Paired s a) (h : Move (sleeplock chan) s a t) :
    Guarded t := by
  rcases locals_of_move h with ⟨hdata, hsame⟩ | ⟨p, l, rfl, hentry, hdata, hp, hother⟩ |
    ⟨k, -⟩ | ⟨p | k, x, l, l', hpos, hgoes, hp, hother⟩
  · exact hs.same hdata fun p => by rw [Holding, Holding, hsame]
  · refine hs.same hdata fun q => ?_
    by_cases hq : q = p
    · have hsame : Holding s p ↔ l = .clear := hok
      rw [hq, hsame, Holding, hp]
      cases l <;> simp_all [sleeplock]
    · rw [Holding, Holding, hother _ (by simpa using hq)]
  · exact k.elim
  · have hrest : ∀ q, q ≠ p → (Holding t q ↔ Holding s q) := fun q hq => by
      rw [Holding, Holding, hother _ (by simpa using hq)]
    have hold : Holding s p ↔ l = .taken ∨ l = .clear := by simp [Holding, hpos, Pos.locals]
    have hnew : Holding t p ↔ l' = .taken ∨ l' = .clear := by simp [Holding, hp]
    rcases goes_cases hgoes with ⟨hdata, hl⟩ | ⟨hfree, htaken, rfl⟩ | ⟨rfl, hfree, rfl⟩
    · refine hs.same hdata fun q => ?_
      by_cases hq : q = p
      · rw [hq, hold, hnew, hl]
      · exact hrest q hq
    · -- `locked` was clear, so that nobody held the lock
      have hnobody : ∀ q, ¬Holding s q := fun q hq => by simp [hs.locked.mpr ⟨q, hq⟩] at hfree
      have honly : ∀ q, Holding t q → q = p := fun q hq => by
        by_contra hne
        exact hnobody q ((hrest q hne).mp hq)
      exact ⟨fun q r hq hr => (honly q hq).trans (honly r hr).symm,
        iff_of_true htaken ⟨p, hnew.mpr (Or.inl rfl)⟩⟩
    · have hnobody : ∀ q, ¬Holding t q := fun q hq => by
        by_cases hqp : q = p
        · simp [hqp, hnew] at hq
        · exact hqp (hs.unique q p ((hrest q hqp).mp hq) (hold.mpr (Or.inr rfl)))
      exact ⟨fun q _ hq => absurd hq (hnobody q), by simp [hfree, hnobody]⟩
  · exact k.elim

/-- At most one process holds a sleep-lock; the lock says whether one does, and whoever sleeps
on it waits for one that does. -/
theorem sleeplock_exclusive (h : (system (sleeplock chan) Empty).Reach Paired (.ok s)) :
    (∀ p q, Holding s p → Holding s q → p = q) ∧
    (s.data.locked = true ↔ ∃ p, Holding s p) ∧
    ∀ p, s.lk = none → (s.proc p).state = .sleeping → (s.proc p).chan = chan →
      ∃ q, Holding s q := by
  have hs : Guarded s := by
    refine reach_invariant Guarded (fun s hstart => ?_)
      (fun _ _ _ _ hs hok hmove => hs.move hok hmove) h
    have hnone : ∀ p, ¬Holding s p := fun p => by simp [Holding, hstart.pos, Pos.locals]
    have hdata : s.data = ⟨false, 0⟩ := hstart.data
    exact ⟨fun p _ hp => absurd hp (hnone p), by simp [hdata, hnone]⟩
  refine ⟨hs.unique, hs.locked, fun p hlk hsleep hchan => ?_⟩
  have hreach : (system (sleeplock chan) Empty).Reach (Permits fun _ _ _ => True) (.ok s) :=
    h.mono fun s a _ => by cases a <;> simp [Permits]
  obtain ⟨_, _, -, hlocked⟩ := (sleeplock_disciplined chan).reach (Outline.trivial _)
    (by simp [sleeplock]) hreach hlk hsleep hchan
  exact hs.locked.mp (by simpa using hlocked)

def contend : List (Action SleeplockLocal Unit Empty) :=
  [.enter 1 (.test 2), .acquire (.inl 1), .run (.inl 1) (), .run (.inl 1) (), .enter 2 (.test 3),
    .acquire (.inl 2), .run (.inl 2) (), .sleep 2, .sleep 2, .sleep 2, .sleep 2, .sleep 2]

theorem contend_observed : (system (sleeplock 7) Empty).observed Paired
    (fun s => (s.lk.isNone, (s.proc 2).state, (s.proc 2).chan)) busy contend =
      some (true, .sleeping, 7) := by
  decide +kernel

theorem sleeplock_exclusive_contend : ∃ s, (system (sleeplock 7) Empty).Reach Paired (.ok s) ∧
    s.lk = none ∧ (s.proc 2).state = .sleeping ∧ (s.proc 2).chan = 7 ∧
    ∃ q, Holding s q := by
  have hstart : (system (sleeplock 7) Empty).Reach Paired (.ok busy) :=
    .init (State.quiet_start _ rfl fun _ => nofun)
  obtain ⟨s, hreach, hobserved⟩ := System.Reach.of_observed hstart contend_observed
  simp only [Prod.mk.injEq, Option.isNone_iff_eq_none] at hobserved
  obtain ⟨hlk, hstate, hchan⟩ := hobserved
  exact ⟨s, hreach, hlk, hstate, hchan, (sleeplock_exclusive hreach).2.2 2 hlk hstate hchan⟩

end Xv6.Sched.Monitor
