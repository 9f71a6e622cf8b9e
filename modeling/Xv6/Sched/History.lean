import Xv6.Sched.Wakeup

/-! Proofs about code under one lock together with the history of a run. What a
run has done so far is summed up by a value that each step of the code adds to;
an invariant relates it to the data whenever `lk` is free, and at each point of
the code while it is held. -/
namespace Xv6.Sched.Monitor

open Lib

variable {D L X K G H : Type}

section Shared

def recorded (record : L → D → X → G → G) (g : G) : State D L K × Action L X K → G
  | (s, .run c x) =>
      match s.pos c with
      | .inside l => record l s.data x g
      | _ => g
  | _ => g

def history (record : L → D → X → G → G) (g : G) (steps : List (State D L K × Action L X K)) : G :=
  steps.foldl (recorded record) g

/-- A proof outline in which `J` need not hold while somebody has `lk`. -/
structure Session (code : Code D L X) (ok : L → D → X → Prop) (record : L → D → X → G → G)
    (g₀ : G) (J : G → D → Prop) (note : L → G → D → Prop) : Prop where
  start : ∀ {d}, code.start d → J g₀ d
  entry : ∀ {p l g d}, code.entry p l = true → J g d → note l g d
  handler : ∀ {l g d}, code.handler l = true → J g d → note l g d
  step : ∀ {l g d x d' l'}, ok l d x → note l g d → code.next l d x = .step d' l' →
    note l' (record l d x g) d'
  killed : ∀ {l g d x l'}, ok l d x → note l g d → code.next l d x = .killed l' →
    ∀ b, note (l' b) (record l d x g) d
  wakeup : ∀ {l g d x chan l'}, ok l d x → note l g d → code.next l d x = .wakeup chan l' →
    note l' (record l d x g) d
  sleep : ∀ {l g d x chan l'}, ok l d x → note l g d → code.next l d x = .sleep chan l' →
    J (record l d x g) d ∧ ∀ {g' d'}, J g' d' → note l' g' d'
  release : ∀ {l g d x l'}, ok l d x → note l g d → code.next l d x = .release l' →
    J (record l d x g) d

def Annotated (J : G → D → Prop) (note : L → G → D → Prop) (g : G) (d : D) : Pos L → Prop
  | .outside _ => True
  | .entering l => ∀ g d, J g d → note l g d
  | .inside l | .waking _ _ _ l => note l g d
  | .sleeping _ .acquire l | .sleeping _ .release l => J g d ∧ ∀ g d, J g d → note l g d
  | .sleeping _ _ l => ∀ g d, J g d → note l g d

structure Kept (code : Code D L X) (J : G → D → Prop) (note : L → G → D → Prop) (g : G)
    (s : State D L K) : Prop where
  wf : Wf code s
  free : s.lk = none → J g s.data
  pos : ∀ c, Annotated J note g s.data (s.pos c)

variable {code : Code D L X} {ok : L → D → X → Prop} {record : L → D → X → G → G} {g₀ g : G}
  {J : G → D → Prop} {note : L → G → D → Prop} {s t : State D L K} {a : Action L X K}

theorem Annotated.of_not_holds {pos : Pos L} {g g' : G} {d d' : D} (h : Annotated J note g d pos)
    (hlk : pos.holdsLk ≠ true) : Annotated J note g' d' pos := by
  unfold Annotated at h ⊢
  split <;> simp_all [Pos.holdsLk]

variable [DecidableEq K]

theorem annotated_update {pos : Ctx K → Pos L} {d : D} (h : ∀ c, Annotated J note g d (pos c))
    {c : Ctx K} {pos' : Pos L} (hpos : Annotated J note g d pos') (c' : Ctx K) :
    Annotated J note g d (Function.update pos c pos' c') :=
  (Function.forall_update_iff pos fun _ => Annotated J note g d).2 ⟨hpos, fun c _ => h c⟩ c'

theorem Kept.holder (hs : Kept code J note g s) {c : Ctx K} (hlk : (s.pos c).holdsLk = true)
    {g' : G} {d' : D} {pos' : Pos L} (hpos : Annotated J note g' d' pos') (c' : Ctx K) :
    Annotated J note g' d' (Function.update s.pos c pos' c') := by
  refine (Function.forall_update_iff s.pos fun _ => Annotated J note g' d').2 ⟨hpos, ?_⟩ c'
  intro c' hc'
  refine (hs.pos c').of_not_holds fun hholds => hc' ?_
  exact hs.wf.lk.eq_of_holds (q := ()) hholds hlk

omit [DecidableEq K] in
theorem Kept.held (hs : Kept code J note g s) {c : Ctx K} (hlk : (s.pos c).holdsLk = true)
    {P : Prop} (hfree : s.lk = none) : P := by
  rw [hs.wf.lk.held (q := ()) hlk] at hfree
  cases hfree

variable [Fintype K]

theorem Session.move (h : Session code ok record g₀ J note) (hs : Kept code J note g s)
    (hok : Permits ok s a) (hmove : Move code s a t) :
    Kept code J note (recorded record g (s, a)) t := by
  have hat : ∀ {c pos}, s.pos c = pos → Annotated J note g s.data pos := fun hpos => hpos ▸ hs.pos _
  have hrun : ∀ {c x l}, s.pos c = .inside l →
      recorded record g (s, .run c x) = record l s.data x g := by
    intro c x l hpos
    simp only [recorded, hpos]
  have hin : ∀ {c l}, s.pos c = .inside l → (s.pos c).holdsLk = true := by
    intro c l hpos
    rw [hpos]
    rfl
  refine ⟨hs.wf.move hmove, ?_, ?_⟩
  · cases hmove with
    | acquire => intro hfree; cases hfree
    | data hpos | killed hpos | wakeup hpos | sleep hpos => exact hs.held (hin hpos)
    | release hpos hnext | handled hpos hnext =>
      intro _
      rw [hrun hpos]
      exact h.release (hok _ hpos) (hat hpos) hnext
    | sleepRelease hpos => exact fun _ => (hat hpos).1
    | _ => exact hs.free
  · cases hmove with
    | enter _ _ hentry => exact annotated_update hs.pos fun _ _ => h.entry hentry
    | interrupt _ hhandler => exact annotated_update hs.pos fun _ _ => h.handler hhandler
    | acquire hpos _ hfree => exact annotated_update hs.pos (hat hpos _ _ (hs.free hfree))
    | data hpos hnext =>
      rw [hrun hpos]
      exact hs.holder (hin hpos) (h.step (hok _ hpos) (hat hpos) hnext)
    | killed hpos hnext =>
      rw [hrun hpos]
      exact hs.holder (hin hpos) (h.killed (hok _ hpos) (hat hpos) hnext _)
    | wakeup hpos hnext =>
      rw [hrun hpos]
      exact hs.holder (hin hpos) (h.wakeup (hok _ hpos) (hat hpos) hnext)
    | sleep hpos hnext =>
      rw [hrun hpos]
      obtain ⟨hJ, hback⟩ := h.sleep (hok _ hpos) (hat hpos) hnext
      exact hs.holder (hin hpos) ⟨hJ, fun _ _ => hback⟩
    | release hpos | handled hpos =>
      rw [hrun hpos]
      exact hs.holder (hin hpos) trivial
    | sleepRelease hpos => exact annotated_update hs.pos (hat hpos).2
    | wakeSkip hpos | wakeAcquire hpos | wakeTest hpos | wakeRelease hpos | wakeDone hpos
    | sleepAcquire hpos | sleepChan hpos | sleepState hpos | sleepSched hpos | sleepTidy hpos
    | sleepUnlock hpos | resume hpos =>
      refine annotated_update hs.pos ?_
      have hnote := hat hpos
      exact hnote
    | dispatch | yield | kkill | elsewhere => exact hs.pos

theorem Session.path (h : Session code ok record g₀ J note) (hs : Start code s)
    {steps : List (State D L K × Action L X K)}
      (hpath : (system code K).Path (Permits ok) s steps t) :
    Kept code J note (history record g₀ steps) t := by
  refine hpath.invariant_steps (fun steps t => Kept code J note (history record g₀ steps) t)
    ⟨hs.wf, fun _ => h.start hs.data, fun c => by rw [hs.pos c]; trivial⟩ (fun _ => True) ?_
    fun _ _ => trivial
  intro steps t a u hkept _ henabled hok hexec
  obtain ⟨u', hu⟩ := Option.isSome_iff_exists.mp henabled
  simp only [system, hu, Option.getD_some, Except.ok.injEq] at hexec
  rw [history, List.foldl_append]
  exact hexec ▸ h.move hkept hok (move_of_step hu)

end Shared

section Own

def Pos.locals : Pos L → Option L
  | .outside last => last
  | .entering l | .inside l | .waking _ _ _ l | .sleeping _ _ l => some l

variable [DecidableEq K]

def ownRecorded (begin : H) (record : L → D → X → H → H) (c : Ctx K) (h : H) :
    State D L K × Action L X K → H
  | (_, .enter p _) => if .inl p = c then begin else h
  | (_, .interrupt k _ _) => if .inr k = c then begin else h
  | (s, .run c' x) => if c' = c then recorded record h (s, .run c' x) else h
  | _ => h

def ownHistory (begin : H) (record : L → D → X → H → H) (c : Ctx K)
    (steps : List (State D L K × Action L X K)) : H :=
  steps.foldl (ownRecorded begin record c) begin

def Cmd.Leads (P : L → Prop) : Cmd D L → Prop
  | .step _ l | .wakeup _ l | .sleep _ l | .release l => P l
  | .killed l => ∀ b, P (l b)

/-- A proof outline about the locals of a call and what the call has done. -/
structure OwnSession (code : Code D L X) (begin : H) (record : L → D → X → H → H)
    (fact : L → H → Prop) : Prop where
  entry : ∀ {p l}, code.entry p l = true → fact l begin
  handler : ∀ {l}, code.handler l = true → fact l begin
  next : ∀ {l d x h}, fact l h → (code.next l d x).Leads fun l' => fact l' (record l d x h)

variable [Fintype K] {code : Code D L X} {begin : H} {record : L → D → X → H → H}
  {fact : L → H → Prop} {s t : State D L K} {a : Action L X K} {c : Ctx K}

theorem OwnSession.move (hc : OwnSession code begin record fact) {h : H}
    (hs : ∀ l ∈ (s.pos c).locals, fact l h) (hmove : Move code s a t) :
    ∀ l ∈ (t.pos c).locals, fact l (ownRecorded begin record c h (s, a)) := by
  -- a step of another context, or one that keeps the locals
  have hother : ∀ {c' pos'}, (c' = c → pos'.locals = (s.pos c).locals) →
      ∀ l ∈ (Function.update s.pos c' pos' c).locals, fact l h := by
    intro c' pos' hpos'
    by_cases heq : c = c'
    · subst heq
      rw [Function.update_self, hpos' rfl]
      exact hs
    · rw [Function.update_of_ne heq]
      exact hs
  have hown : ∀ {c' x l pos'}, s.pos c' = .inside l →
      ((code.next l s.data x).Leads (fun l' => fact l' (record l s.data x h)) →
        ∀ l' ∈ pos'.locals, fact l' (record l s.data x h)) →
      ∀ l' ∈ (Function.update s.pos c' pos' c).locals,
        fact l' (ownRecorded begin record c h (s, .run c' x)) := by
    intro c' x l pos' hpos hleads
    by_cases heq : c' = c
    · subst heq
      simp only [Function.update_self, ownRecorded, if_true, recorded, hpos]
      exact hleads (hc.next (hs l (by rw [hpos]; rfl)))
    · rw [Function.update_of_ne (Ne.symm heq)]
      simpa only [ownRecorded, if_neg heq] using hs
  cases hmove with
  | @enter p l _ hpos _ hentry =>
    by_cases heq : (.inl p : Ctx K) = c
    · subst heq
      simpa [State.setPos, Pos.locals, ownRecorded] using hc.entry hentry
    · simp only [ownRecorded, if_neg heq]
      exact hother fun h => absurd h heq
  | @interrupt k on l _ hpos hhandler =>
    by_cases heq : (.inr k : Ctx K) = c
    · subst heq
      simpa [State.setPos, Pos.locals, ownRecorded] using hc.handler hhandler
    · simp only [ownRecorded, if_neg heq]
      exact hother fun h => absurd h heq
  | data hpos hnext | wakeup hpos hnext | sleep hpos hnext | release hpos hnext
  | handled hpos hnext =>
    refine hown hpos fun hleads => ?_
    rw [hnext] at hleads
    simpa [Pos.locals, Cmd.Leads] using hleads
  | killed hpos hnext =>
    refine hown hpos fun hleads => ?_
    rw [hnext] at hleads
    simpa [Pos.locals, Cmd.Leads] using hleads _
  | acquire hpos | wakeSkip hpos | wakeAcquire hpos | wakeTest hpos | wakeRelease hpos
  | wakeDone hpos | sleepAcquire hpos | sleepRelease hpos | sleepChan hpos | sleepState hpos
  | sleepSched hpos | sleepTidy hpos | sleepUnlock hpos | resume hpos =>
    refine hother ?_
    rintro rfl
    rw [hpos]
    rfl
  | dispatch | yield | kkill | elsewhere => exact hs

theorem OwnSession.path (hc : OwnSession code begin record fact) (hs : Start code s)
    {allowed : State D L K → Action L X K → Prop}
    {steps : List (State D L K × Action L X K)} (hpath : (system code K).Path allowed s steps t) :
    ∀ l ∈ (t.pos c).locals, fact l (ownHistory begin record c steps) := by
  refine hpath.invariant_steps
    (fun steps t => ∀ l ∈ (t.pos c).locals, fact l (ownHistory begin record c steps))
    (by rw [hs.pos c]; intro l hl; cases hl) (fun _ => True) ?_ fun _ _ => trivial
  intro steps t a u hfact _ henabled _ hexec
  obtain ⟨u', hu⟩ := Option.isSome_iff_exists.mp henabled
  simp only [system, hu, Option.getD_some, Except.ok.injEq] at hexec
  rw [ownHistory, List.foldl_append]
  exact hexec ▸ hc.move hfact (move_of_step hu)

end Own

end Xv6.Sched.Monitor
