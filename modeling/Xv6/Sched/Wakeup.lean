import Xv6.Sched.Waiting

/-! No wakeup is lost. A waiter gives up `lk` only when it holds its own
`p->lock`, and keeps that until it is SLEEPING; a waker holds `lk` from before
it makes the condition true until `wakeup` has passed every slot. -/
namespace Xv6.Sched.Monitor

open Lib

variable {D L X K : Type}

def Permits (ok : L → D → X → Prop) (s : State D L K) : Action L X K → Prop
  | .run c x => ∀ l, s.pos c = .inside l → ok l s.data x
  | _ => True

instance [DecidableEq K] (ok : L → D → X → Prop) [∀ l d x, Decidable (ok l d x)]
    (s : State D L K) (a : Action L X K) : Decidable (Permits ok s a) :=
  match a with
  | .run c x =>
      match h : s.pos c with
      | .inside l =>
          decidable_of_iff (ok l s.data x)
            ⟨fun hok l' hpos => by cases h.symm.trans hpos; exact hok, fun hall => hall l h⟩
      | .outside _ | .entering _ | .waking _ _ _ _ | .sleeping _ _ _ =>
          .isTrue fun l hpos => by cases h.symm.trans hpos
  | .enter _ _ | .interrupt _ _ _ | .acquire _ | .wake _ | .sleep _ | .dispatch _ | .yield _
  | .kkill _ _ | .elsewhere _ _ => .isTrue trivial

/-- A proof outline: `I` holds of the data at all times, `note l` whenever the
code is at `l` with `lk` held. -/
structure Outline (code : Code D L X) (ok : L → D → X → Prop) (I : D → Prop)
    (note : L → D → Prop) : Prop where
  start : ∀ {d}, code.start d → I d
  entry : ∀ {p l d}, code.entry p l = true → I d → note l d
  handler : ∀ {l d}, code.handler l = true → I d → note l d
  step : ∀ {l d x d' l'}, ok l d x → I d → note l d → code.next l d x = .step d' l' →
    I d' ∧ note l' d'
  killed : ∀ {l d x l'}, ok l d x → I d → note l d → code.next l d x = .killed l' →
    ∀ b, note (l' b) d
  wakeup : ∀ {l d x chan l'}, ok l d x → I d → note l d → code.next l d x = .wakeup chan l' →
    note l' d
  sleep : ∀ {l d x chan l'}, ok l d x → I d → note l d → code.next l d x = .sleep chan l' →
    ∀ {d'}, I d' → note l' d'
  release : ∀ {l d x l'}, ok l d x → I d → note l d → code.next l d x = .release l' →
    ∀ {d'}, I d' → note l' d'

theorem Outline.mono {code : Code D L X} {ok ok' : L → D → X → Prop} {I : D → Prop}
    {note : L → D → Prop} (h : Outline code ok I note) (hle : ∀ {l d x}, ok' l d x → ok l d x) :
    Outline code ok' I note where
  start := h.start
  entry := h.entry
  handler := h.handler
  step hok := h.step (hle hok)
  killed hok := h.killed (hle hok)
  wakeup hok := h.wakeup (hle hok)
  sleep hok := h.sleep (hle hok)
  release hok := h.release (hle hok)

/-- The outline at one context. Without `lk` it must hold whatever the data become. -/
def Noted (I : D → Prop) (note : L → D → Prop) (d : D) : Pos L → Prop
  | .outside none => True
  | .outside (some l) | .entering l | .sleeping _ _ l => ∀ d, I d → note l d
  | .inside l | .waking _ _ _ l => note l d

section Outline

variable [DecidableEq K] [Fintype K] {code : Code D L X} {ok : L → D → X → Prop} {I : D → Prop}
  {note : L → D → Prop} {s t : State D L K} {a : Action L X K}

omit [Fintype K] in
theorem noted_update {d : D} (h : ∀ c, Noted I note d (s.pos c)) {c : Ctx K} {pos : Pos L}
    (hpos : Noted I note d pos) (c' : Ctx K) : Noted I note d (Function.update s.pos c pos c') :=
  (Function.forall_update_iff s.pos fun _ => Noted I note d).2 ⟨hpos, fun c _ => h c⟩ c'

theorem permits_of_reachable (h : (system code K).Reachable (.ok s)) :
    (system code K).Reach (Permits fun _ _ _ => True) (.ok s) :=
  h.mono fun s a _ => by cases a <;> simp [Permits]

omit [DecidableEq K] [Fintype K] in
theorem Noted.of_not_holds {pos : Pos L} {d d' : D} (h : Noted I note d pos)
    (hlk : pos.holdsLk ≠ true) : Noted I note d' pos := by
  unfold Noted at h ⊢
  split <;> simp_all [Pos.holdsLk]

theorem Outline.move (ho : Outline code ok I note) (hwf : Wf code s) (hI : I s.data)
    (hs : ∀ c, Noted I note s.data (s.pos c)) (hok : Permits ok s a) (h : Move code s a t) :
    I t.data ∧ ∀ c, Noted I note t.data (t.pos c) := by
  have hat : ∀ {c pos}, s.pos c = pos → Noted I note s.data pos := fun hpos => hpos ▸ hs _
  cases h with
  | enter _ _ hentry => exact ⟨hI, noted_update hs fun d => ho.entry hentry⟩
  | interrupt _ hhandler => exact ⟨hI, noted_update hs fun d => ho.handler hhandler⟩
  | acquire hpos => exact ⟨hI, noted_update hs (hat hpos _ hI)⟩
  | @data c x l l' d hpos hnext =>
    obtain ⟨hI', hnote⟩ := ho.step (hok l hpos) hI (hat hpos) hnext
    refine ⟨hI', (Function.forall_update_iff s.pos fun _ => Noted I note d).2 ⟨hnote, ?_⟩⟩
    intro c' hc'
    refine (hs c').of_not_holds fun hholds => hc' ?_
    exact hwf.lk.eq_of_holds (q := ()) hholds (by simp [hpos, Pos.holdsLk])
  | killed hpos hnext =>
    exact ⟨hI, noted_update hs (ho.killed (hok _ hpos) hI (hat hpos) hnext _)⟩
  | wakeup hpos hnext =>
    exact ⟨hI, noted_update hs (ho.wakeup (hok _ hpos) hI (hat hpos) hnext)⟩
  | sleep hpos hnext =>
    exact ⟨hI, noted_update hs fun _ => ho.sleep (hok _ hpos) hI (hat hpos) hnext⟩
  | release hpos hnext | handled hpos hnext =>
    exact ⟨hI, noted_update hs fun _ => ho.release (hok _ hpos) hI (hat hpos) hnext⟩
  | wakeSkip hpos | wakeAcquire hpos | wakeTest hpos | wakeRelease hpos | wakeDone hpos
  | sleepAcquire hpos | sleepRelease hpos | sleepChan hpos | sleepState hpos | sleepSched hpos
  | sleepTidy hpos | sleepUnlock hpos | resume hpos =>
    refine ⟨hI, noted_update hs ?_⟩
    have hnote := hat hpos
    exact hnote
  | dispatch | yield | kkill | elsewhere => exact ⟨hI, hs⟩

theorem Outline.reach (ho : Outline code ok I note)
    (h : (system code K).Reach (Permits ok) (.ok s)) :
    I s.data ∧ ∀ c, Noted I note s.data (s.pos c) :=
  reach_invariant (fun s => I s.data ∧ ∀ c, Noted I note s.data (s.pos c))
    (fun s hs => ⟨ho.start hs.data, fun c => by rw [hs.pos c]; trivial⟩)
    (fun s a t hreach hs hok hmove => ho.move (.reach hreach) hs.1 hs.2 hok hmove) h

theorem Outline.inside (ho : Outline code ok I note)
    (h : (system code K).Reach (Permits ok) (.ok s)) {c : Ctx K} {l : L}
    (hpos : s.pos c = .inside l) : note l s.data := by
  have hnoted := (ho.reach h).2 c
  rwa [hpos] at hnoted

end Outline

/-- The rules for waiting on `chan`. A waiter with locals `w` waits for `C w`, and
sleeps only while it is false. Whoever makes a condition true is at a point that
`owes` a `wakeup(chan)` until it has called it, which it does before it gives up `lk`. -/
structure Disciplined (code : Code D L X) (ok : L → D → X → Prop) (note : L → D → Prop)
    (C : L → D → Prop) (chan : Nat) (owes : L → Prop) : Prop where
  step : ∀ {l d x d' l'}, ok l d x → note l d → code.next l d x = .step d' l' →
    (owes l ∨ ∃ w, C w d' ∧ ¬C w d) → owes l'
  killed : ∀ {l d x l'}, ok l d x → note l d → code.next l d x = .killed l' → owes l →
    ∀ b, owes (l' b)
  wakeup : ∀ {l d x chan' l'}, ok l d x → note l d → code.next l d x = .wakeup chan' l' →
    chan' ≠ chan → owes l → owes l'
  sleep : ∀ {l d x chan' l'}, ok l d x → note l d → code.next l d x = .sleep chan' l' →
    ¬owes l ∧ (chan' = chan → ¬C l' d)
  release : ∀ {l d x l'}, ok l d x → note l d → code.next l d x = .release l' → ¬owes l

/-- Process `p` with locals `l` is SLEEPING on `chan`, or cannot be stopped from it
by a waker: it has its `p->lock` and has given up `lk`. -/
def Asleep (chan : Nat) (s : State D L K) (p : Slot) (l : L) : Prop :=
  ∃ stage, s.pos (.inl p) = .sleeping chan stage l ∧
    (stage = .chan ∨ stage = .state ∨ stage = .sched ∨
      (stage = .off ∧ (s.proc p).state = .sleeping))

def Due (chan : Nat) (owes : L → Prop) (p : Slot) : Pos L → Prop
  | .inside l => owes l
  | .waking chan' i stage l =>
      owes l ∨ (chan' = chan ∧ (i < p.val ∨ (i = p.val ∧ stage ≠ .release)))
  | _ => False

structure Answered (C : L → D → Prop) (chan : Nat) (owes : L → Prop) (s : State D L K) : Prop where
  /-- A waiter that still holds `lk` has just seen its condition false. -/
  waits : ∀ p l stage, s.pos (.inl p) = .sleeping chan stage l →
    stage = .acquire ∨ stage = .release → ¬C l s.data
  due : ∀ p l, Asleep chan s p l → C l s.data → ∃ c, s.lk = some c ∧ Due chan owes p (s.pos c)

section Wakeup

variable [DecidableEq K] [Fintype K] {code : Code D L X} {ok : L → D → X → Prop}
  {note C : L → D → Prop} {chan : Nat} {owes : L → Prop} {s t : State D L K} {a : Action L X K}

theorem asleep_move (h : Move code s a t) {p : Slot} {l : L} (hp : Asleep chan t p l) :
    Asleep chan s p l ∨ s.pos (.inl p) = .sleeping chan .release l := by
  obtain ⟨stage, hpos, hstage⟩ := hp
  cases h <;>
    simp only [State.setPos, State.setPlock, State.setProc, Function.update_apply] at hpos hstage
  all_goals grind [Asleep, Proc.wakeup_sleeping, Proc.kill_sleeping, Monitor.resume]

omit [DecidableEq K] [Fintype K] in
theorem Asleep.sleeping {p : Slot} {l : L} (hp : Asleep chan s p l) :
    ∃ stage, s.pos (.inl p) = .sleeping chan stage l := ⟨_, hp.choose_spec.1⟩

omit [DecidableEq K] [Fintype K] in
/-- A waker never skips a sleeping process: it is neither the waker nor interrupted by it. -/
theorem Asleep.not_myproc (hwf : Wf code s) {p : Slot} {l : L} (hp : Asleep chan s p l)
    {c : Ctx K} {chan' i : Nat} {stage : WakeStage} {l' : L}
    (hpos : s.pos c = .waking chan' i stage l') : s.myproc c ≠ some p := by
  obtain ⟨stage', hsleep⟩ := hp.sleeping
  intro hc
  cases c with
  | inl q =>
    cases hc
    rw [hsleep] at hpos
    cases hpos
  | inr k =>
    have hon := hwf.on k p hc
    rw [hsleep] at hon
    cases hon

omit [DecidableEq K] [Fintype K] in
theorem Asleep.off (hwf : Wf code s) {p : Slot} {l : L} (hp : Asleep chan s p l) {c : Ctx K}
    {chan' : Nat} {l' : L} (hpos : s.pos c = .waking chan' p .test l') :
    s.pos (.inl p) = .sleeping chan .off l ∧ (s.proc p).state = .sleeping ∧
      (s.proc p).chan = chan := by
  obtain ⟨stage, hsleep, hstage⟩ := hp
  have hheld : s.plock p = some c := hwf.plock.held (by simp [hpos, Pos.Holds])
  have hc : c ≠ .inl p := by
    rintro rfl
    rw [hsleep] at hpos
    cases hpos
  have hfits := hwf.fits p
  have hnot : ¬(s.pos (.inl p)).Holds (.inl p : Ctx K) p := fun h =>
    hc (Option.some.inj (hheld.symm.trans (hwf.plock.held h)))
  rw [hsleep] at hfits hnot
  rcases hstage with rfl | rfl | rfl | ⟨rfl, hstate⟩
  · exact absurd rfl hnot
  · exact absurd rfl hnot
  · exact absurd rfl hnot
  · exact ⟨hsleep, hstate, hfits⟩

omit [Fintype K] in
theorem due_update {p : Slot} {c c' : Ctx K} {pos pos' : Pos L} (hpos : s.pos c' = pos)
    (hdue : Due chan owes p (s.pos c)) (h : Due chan owes p pos → Due chan owes p pos') :
    Due chan owes p (Function.update s.pos c' pos' c) := by
  by_cases hc : c = c'
  · subst hc
    rw [Function.update_self]
    exact h (hpos ▸ hdue)
  · rwa [Function.update_of_ne hc]

omit [DecidableEq K] [Fintype K] in
theorem Wf.due_at (hwf : Wf code s) {p : Slot} {c c' : Ctx K} (hlk : s.lk = some c)
    (hdue : Due chan owes p (s.pos c)) {pos : Pos L} (hpos : s.pos c' = pos)
    (hholds : pos.holdsLk = true) : Due chan owes p pos := by
  have hc' : s.lk = some c' := hwf.lk.held (q := ()) (by rw [hpos]; exact hholds)
  rwa [Option.some.inj (hlk.symm.trans hc'), hpos] at hdue

theorem Due.move (hd : Disciplined code ok note C chan owes) (hwf : Wf code s)
    (hnote : ∀ c l, s.pos c = .inside l → note l s.data) (hok : Permits ok s a)
    (h : Move code s a t) {p : Slot} {l : L} (hp : Asleep chan s p l) (hp' : Asleep chan t p l)
    {c : Ctx K} (hlk : s.lk = some c) (hdue : Due chan owes p (s.pos c)) :
    t.lk = some c ∧ Due chan owes p (t.pos c) := by
  cases h with
  | enter hpos | interrupt hpos | sleepAcquire hpos | sleepChan hpos | sleepState hpos
  | sleepSched hpos | sleepTidy hpos | sleepUnlock hpos | resume hpos =>
    exact ⟨hlk, due_update hpos hdue False.elim⟩
  | dispatch | yield | kkill | elsewhere => exact ⟨hlk, hdue⟩
  | acquire _ _ hfree =>
    rw [hfree] at hlk
    cases hlk
  | data hpos hnext =>
    refine ⟨hlk, due_update hpos hdue fun h => ?_⟩
    exact hd.step (hok _ hpos) (hnote _ _ hpos) hnext (.inl h)
  | killed hpos hnext =>
    refine ⟨hlk, due_update hpos hdue fun h => ?_⟩
    exact hd.killed (hok _ hpos) (hnote _ _ hpos) hnext h _
  | @wakeup c' x l₀ l' chan' hpos hnext =>
    refine ⟨hlk, due_update hpos hdue fun h => ?_⟩
    by_cases hchan : chan' = chan
    · -- the scan starts at slot 0, so `p` is ahead of it
      refine Or.inr ⟨hchan, ?_⟩
      rcases Nat.eq_zero_or_pos p.val with h0 | h0
      · exact .inr ⟨h0.symm, nofun⟩
      · exact .inl h0
    · exact .inl (hd.wakeup (hok _ hpos) (hnote _ _ hpos) hnext hchan h)
  | sleep hpos hnext =>
    exact absurd (hwf.due_at hlk hdue hpos rfl) (hd.sleep (hok _ hpos) (hnote _ _ hpos) hnext).1
  | release hpos hnext | handled hpos hnext =>
    exact absurd (hwf.due_at hlk hdue hpos rfl) (hd.release (hok _ hpos) (hnote _ _ hpos) hnext)
  | sleepRelease hpos => exact (hwf.due_at hlk hdue hpos rfl).elim
  | @wakeSkip c' chan' q l' hpos hskip =>
    refine ⟨hlk, due_update hpos hdue fun h => ?_⟩
    have hne : q ≠ p := by
      rintro rfl
      exact hp.not_myproc hwf hpos hskip
    rcases h with h | ⟨hchan, h⟩
    · exact .inl h
    · exact .inr ⟨hchan, by have := Fin.val_ne_of_ne hne; grind⟩
  | wakeAcquire hpos =>
    refine ⟨hlk, due_update hpos hdue fun h => ?_⟩
    rcases h with h | ⟨hchan, h⟩
    · exact .inl h
    · exact .inr ⟨hchan, h.imp id fun h => ⟨h.1, nofun⟩⟩
  | @wakeTest c' chan' q l' hpos =>
    refine ⟨hlk, due_update hpos hdue fun h => ?_⟩
    rcases h with h | ⟨rfl, h | ⟨hq, -⟩⟩
    · exact .inl h
    · exact .inr ⟨rfl, .inl h⟩
    · -- the process looked at was SLEEPING on the channel, and no longer is
      obtain rfl := Fin.val_injective hq
      obtain ⟨hoff, hstate, hchan⟩ := hp.off hwf hpos
      obtain ⟨stage, hsleep, hstage⟩ := hp'
      have hne : (.inl q : Ctx K) ≠ c' := by
        rintro rfl
        simp [State.setPos] at hsleep
      have hstage' : SleepStage.off = stage := by
        simpa [State.setPos, State.setProc, Function.update_of_ne hne, hoff] using hsleep
      subst hstage'
      simp [State.setPos, State.setProc, Proc.wakeup, hstate, hchan] at hstage
  | @wakeRelease c' chan' q l' hpos =>
    refine ⟨hlk, due_update hpos hdue fun h => ?_⟩
    rcases h with h | ⟨hchan, h⟩
    · exact .inl h
    · exact .inr ⟨hchan, by grind⟩
  | @wakeDone c' chan' i stage l' hpos hi =>
    refine ⟨hlk, due_update hpos hdue fun h => ?_⟩
    rcases h with h | ⟨-, h⟩
    · exact h
    · have := p.isLt
      omega

theorem data_move (h : Move code s a t) : t.data = s.data ∨
    ∃ c x l l', a = .run c x ∧ s.pos c = .inside l ∧ code.next l s.data x = .step t.data l' ∧
      t.lk = s.lk ∧ t.pos = Function.update s.pos c (.inside l') := by
  cases h with
  | data hpos hnext => exact .inr ⟨_, _, _, _, rfl, hpos, hnext, rfl, rfl⟩
  | _ => exact .inl rfl

theorem waits_cases (h : Move code s a t) {p : Slot} {l : L} {stage : SleepStage}
    (hpos : t.pos (.inl p) = .sleeping chan stage l)
    (hstage : stage = .acquire ∨ stage = .release) :
    s.pos (.inl p) = .sleeping chan .acquire l ∨ s.pos (.inl p) = .sleeping chan .release l ∨
    ∃ x l₀, a = .run (.inl p) x ∧ s.pos (.inl p) = .inside l₀ ∧
      code.next l₀ s.data x = .sleep chan l ∧ t.data = s.data := by
  cases h <;>
    simp only [State.setPos, State.setPlock, State.setProc, Function.update_apply] at hpos ⊢
  all_goals grind

theorem Answered.waits_move (hd : Disciplined code ok note C chan owes) (hwf : Wf code s)
    (hnote : ∀ c l, s.pos c = .inside l → note l s.data) (hok : Permits ok s a)
    (hs : Answered C chan owes s) (h : Move code s a t) (p : Slot) (l : L) (stage : SleepStage)
    (hpos : t.pos (.inl p) = .sleeping chan stage l)
    (hstage : stage = .acquire ∨ stage = .release) :
    ¬C l t.data := by
  have hdata : (s.pos (.inl p)).holdsLk = true → (∀ l, s.pos (.inl p) ≠ .inside l) →
      t.data = s.data := by
    intro hholds hinside
    rcases data_move h with hdata | ⟨c, x, l, l', -, hc, -⟩
    · exact hdata
    · have hp : .inl p = c := hwf.lk.eq_of_holds (q := ()) hholds (by simp [hc, Pos.holdsLk])
      exact absurd (hp ▸ hc) (hinside l)
  rcases waits_cases h hpos hstage with hp | hp | ⟨x, l₀, rfl, hp, hnext, hsame⟩
  · rw [hdata (by rw [hp]; rfl) (by simp [hp])]
    exact hs.waits p l _ hp (.inl rfl)
  · rw [hdata (by rw [hp]; rfl) (by simp [hp])]
    exact hs.waits p l _ hp (.inr rfl)
  · rw [hsame]
    exact (hd.sleep (hok _ hp) (hnote _ _ hp) hnext).2 rfl

theorem Answered.move (hd : Disciplined code ok note C chan owes) (hwf : Wf code s)
    (hnote : ∀ c l, s.pos c = .inside l → note l s.data) (hok : Permits ok s a)
    (hs : Answered C chan owes s) (h : Move code s a t) : Answered C chan owes t := by
  refine ⟨hs.waits_move hd hwf hnote hok h, fun p l hp' hC => ?_⟩
  by_cases hbefore : C l s.data
  · rcases asleep_move h hp' with hp | hrelease
    · obtain ⟨c, hlk, hdue⟩ := hs.due p l hp hbefore
      exact ⟨c, hdue.move hd hwf hnote hok h hp hp' hlk⟩
    · exact absurd hbefore (hs.waits p l _ hrelease (.inr rfl))
  · -- the condition has become true, by a step of the holder of `lk`
    rcases data_move h with hdata | ⟨c, x, l₀, l', rfl, hc, hnext, hlk, hpos⟩
    · exact absurd (hdata ▸ hC) hbefore
    · refine ⟨c, ?_, ?_⟩
      · rw [hlk]
        exact hwf.lk.held (q := ()) (by simp [hc, Pos.holdsLk])
      · rw [hpos, Function.update_self]
        exact hd.step (hok _ hc) (hnote _ _ hc) hnext (.inr ⟨l, hC, hbefore⟩)

variable {I : D → Prop}

omit [DecidableEq K] [Fintype K] in
theorem Start.answered (hs : Start code s) : Answered C chan owes s where
  waits := by
    intro p l stage hpos
    rw [hs.pos] at hpos
    cases hpos
  due := by
    intro p l hp
    obtain ⟨stage, hpos⟩ := hp.sleeping
    rw [hs.pos] at hpos
    cases hpos

omit [DecidableEq K] [Fintype K] in
theorem Wf.asleep (hwf : Wf code s) (hown : code.own chan = true) {p : Slot}
    (hsleep : (s.proc p).state = .sleeping) (hchan : (s.proc p).chan = chan) :
    ∃ l, Asleep chan s p l := by
  have hfits := hwf.fits p
  subst hchan
  cases hpos : s.pos (.inl p) with
  | outside last =>
    rw [hpos] at hfits
    rw [hfits hsleep] at hown
    cases hown
  | entering l | inside l | waking chan i stage l =>
    rw [hpos] at hfits
    exact absurd hsleep hfits
  | sleeping chan stage l =>
    rw [hpos] at hfits
    cases stage with
    | acquire | release | chan | tidy | unlock => exact absurd hsleep hfits
    | state => exact absurd hsleep hfits.1
    | sched => exact ⟨l, .sched, by rw [hpos, hfits.2], .inr (.inr (.inl rfl))⟩
    | off => exact ⟨l, .off, by rw [hpos, hfits], .inr (.inr (.inr ⟨rfl, hsleep⟩))⟩

theorem Disciplined.reach (hd : Disciplined code ok note C chan owes)
    (ho : Outline code ok I note) (hown : code.own chan = true)
    (h : (system code K).Reach (Permits ok) (.ok s)) (hfree : s.lk = none) {p : Slot}
    (hsleep : (s.proc p).state = .sleeping) (hchan : (s.proc p).chan = chan) :
    ∃ stage l, s.pos (.inl p) = .sleeping chan stage l ∧ ¬C l s.data := by
  have hanswered : Answered C chan owes s := reach_invariant _ (fun _ => Start.answered)
    (fun s a t hreach hs hok hmove =>
      hs.move hd (.reach hreach) (fun _ _ => ho.inside hreach) hok hmove) h
  obtain ⟨l, hp⟩ := (Wf.reach h).asleep hown hsleep hchan
  obtain ⟨stage, hpos⟩ := hp.sleeping
  refine ⟨stage, l, hpos, fun hC => ?_⟩
  obtain ⟨c, hlk, -⟩ := hanswered.due p l hp hC
  rw [hfree] at hlk
  cases hlk

end Wakeup

section Sleeplock

structure Sleeplock where
  locked : Bool
  pid : Int

inductive SleeplockLocal where
  /-- `while (lk->locked)` in `acquiresleep`, for a process with this pid. -/
  | test (pid : Int)
  | taken
  /-- `lk->locked = 0` in `releasesleep`. -/
  | clear
  | wake
  | cleared
  deriving DecidableEq

/-- `acquiresleep(lk)` and `releasesleep(lk)`, where `chan` is the address of `lk`. -/
def sleeplock (chan : Nat) : Code Sleeplock SleeplockLocal Unit where
  start d := d = ⟨false, 0⟩
  entry _ l := match l with
    | .test _ | .clear => true
    | _ => false
  handler _ := false
  next l d _ := match l with
    | .test pid => if d.locked = true then .sleep chan (.test pid) else .step ⟨true, pid⟩ .taken
    | .taken => .release .taken
    | .clear => .step ⟨false, 0⟩ .wake
    | .wake => .wakeup chan .cleared
    | .cleared => .release .cleared
  own c := c = chan

theorem sleeplock_disciplined (chan : Nat) : Disciplined (sleeplock chan) (fun _ _ _ => True)
    (fun _ _ => True) (fun _ d => d.locked = false) chan (· = .wake) where
  step := by
    intro l d x d' l' _ _ hnext howes
    cases l <;> grind [sleeplock]
  killed := by
    intro l d x l' _ _ hnext
    cases l <;> grind [sleeplock]
  wakeup := by
    intro l d x chan' l' _ _ hnext
    cases l <;> grind [sleeplock]
  sleep := by
    intro l d x chan' l' _ _ hnext
    cases l <;> grind [sleeplock]
  release := by
    intro l d x l' _ _ hnext
    cases l <;> grind [sleeplock]

theorem Outline.trivial (code : Code D L X) :
    Outline code (fun _ _ _ => True) (fun _ => True) (fun _ _ => True) := by
  constructor <;> simp

/-- Slot 1 takes the lock, slot 2 goes to sleep on it, and slot 1 releases it. -/
def handover : List (Action SleeplockLocal Unit Empty) :=
  [.enter 1 (.test 11), .acquire (.inl 1), .run (.inl 1) (), .run (.inl 1) (),
    .enter 2 (.test 12), .acquire (.inl 2), .run (.inl 2) ()] ++ List.replicate 5 (.sleep 2) ++
    [.enter 1 .clear, .acquire (.inl 1), .run (.inl 1) (), .run (.inl 1) ()] ++
    List.replicate 191 (.wake (.inl 1)) ++ [.run (.inl 1) ()]

def busy : State Sleeplock SleeplockLocal Empty :=
  .quiet ⟨false, 0⟩ fun _ => { Proc.empty with state := .running }

theorem busy_reachable : (system (sleeplock 7) Empty).Reachable (.ok busy) :=
  .init (State.quiet_start _ rfl fun _ => nofun)

theorem handover_observed : (system (sleeplock 7) Empty).observed (fun _ _ => True)
    (fun s => (s.lk.isNone, s.data.locked, (s.proc 2).state, (s.proc 2).chan)) busy handover =
      some (true, false, .runnable, 7) := by
  decide +kernel

end Sleeplock

section Waiting

variable [DecidableEq K] [Fintype K] {code : Code D L X} {note : L → D → Prop} {I : D → Prop}
  {chan : Nat} {owes : L → Prop} {s : State D L K}

/-- No lost wakeup, for any code that obeys the rules. When the lock is free and the
condition holds, nobody is SLEEPING on the channel. -/
theorem no_lost_wakeup {condition : D → Prop}
    (hd : Disciplined code (fun _ _ _ => True) note (fun _ => condition) chan owes)
    (ho : Outline code (fun _ _ _ => True) I note) (hown : code.own chan = true)
    (h : (system code K).Reachable (.ok s)) (hfree : s.lk = none) (hC : condition s.data)
    (p : Slot) : ¬((s.proc p).state = .sleeping ∧ (s.proc p).chan = chan) := by
  rintro ⟨hsleep, hchan⟩
  obtain ⟨_, _, -, hfalse⟩ := hd.reach ho hown (permits_of_reachable h) hfree hsleep hchan
  exact hfalse hC

end Waiting

theorem no_lost_wakeup_handover : ∃ s, (system (sleeplock 7) Empty).Reachable (.ok s) ∧
    s.lk = none ∧ s.data.locked = false ∧ (s.proc 2).chan = 7 ∧ (s.proc 2).state = .runnable ∧
    ∀ p, ¬((s.proc p).state = .sleeping ∧ (s.proc p).chan = 7) := by
  obtain ⟨s, hreach, hobserved⟩ := System.Reach.of_observed busy_reachable handover_observed
  simp only [Prod.mk.injEq, Option.isNone_iff_eq_none] at hobserved
  obtain ⟨hfree, hlocked, hstate, hchan⟩ := hobserved
  exact ⟨s, hreach, hfree, hlocked, hchan, hstate, no_lost_wakeup (sleeplock_disciplined 7)
    (Outline.trivial _) (by decide) hreach hfree hlocked⟩

end Xv6.Sched.Monitor
