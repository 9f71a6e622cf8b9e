import Xv6.Life.Base

/-! The process table: the numbers of the processes, and what a free slot holds. -/
namespace Xv6.Life

open Lib
open Sched (Slot ProcState nproc)

def Pc.allocates : Pc → Bool
  | .forkFound _ => true
  | _ => false

def NoWrap (s : State) : Action → Prop
  | .step p _ => (s.pc p).allocates = true → s.nextpid + 1 < 2 ^ 31
  | _ => True

instance (s : State) (a : Action) : Decidable (NoWrap s a) :=
  match a with
  | .step _ _ => inferInstanceAs (Decidable (_ → _))
  | .fork _ | .exit _ _ | .wait _ | .dispatch _ | .yield _ | .sleep _ _ | .wakeup _ _ | .kkill _ _
  | .use _ _ _ _ _ => inferInstanceAs (Decidable True)

variable {s t : State} {a : Action}

inductive Numbering (s : State) (a : Action) (t : State) : Prop where
  | kept : t.nextpid = s.nextpid → t.given = s.given →
      (∀ q, (t.proc q).pid = (s.proc q).pid ∨ (t.proc q).pid = 0) → Numbering s a t
  | given {p q : Slot} {x : Choice} : a = .step p x → s.pc p = .forkFound q →
      t.nextpid = succPid s.nextpid → t.given = s.given ++ [s.nextpid] →
      t.proc = Function.update s.proc q { s.proc q with pid := s.nextpid } → Numbering s a t

theorem pid_update {q : Slot} {proc' : Proc}
    (h : proc'.pid = (s.proc q).pid ∨ proc'.pid = 0) (r : Slot) :
    (Function.update s.proc q proc' r).pid = (s.proc r).pid ∨
      (Function.update s.proc q proc' r).pid = 0 := by
  by_cases hr : r = q
  · subst hr
    rwa [Function.update_self]
  · rw [Function.update_of_ne hr]
    exact .inl rfl

theorem Proc.wakeup_pid (p : Proc) (chan : Chan) : (p.wakeup chan).pid = p.pid := by
  unfold Proc.wakeup
  split <;> rfl

theorem Proc.kill_pid (p : Proc) (pid : Int) : (p.kill pid).pid = p.pid := by
  unfold Proc.kill
  split <;> rfl

theorem Move.numbering (h : Move s a t) : Numbering s a t := by
  cases h with
  | forkPid hpc => exact .given rfl hpc rfl rfl rfl
  | forkFail | reap => exact .kept rfl rfl (pid_update (.inr rfl))
  | wakeInit | wakeParent | wakeup =>
    exact .kept rfl rfl (pid_update (.inl (Proc.wakeup_pid _ _)))
  | kkill => exact .kept rfl rfl (pid_update (.inl (Proc.kill_pid _ _)))
  | forkUsed | forkTrapframe | forkPagetable | forkCopy | forkFiles | forkParent | forkReady
  | exitFile | exitCwd | adopt | exitLock | waitMark | waitTidy | resume | dispatch | yield | sleep
  | use =>
    exact .kept rfl rfl (pid_update (.inl rfl))
  | _ =>
    exact .kept rfl rfl fun _ => .inl rfl

/-- The numbers given so far are below the next, and no two slots share one. -/
structure Numbers (s : State) : Prop where
  positive : 0 < s.nextpid
  recorded : ∀ n ∈ s.given, n < s.nextpid
  nodup : s.given.Nodup
  range : ∀ q, (s.proc q).pid ≠ 0 → 0 < (s.proc q).pid ∧ (s.proc q).pid < s.nextpid
  distinct : ∀ q q', (s.proc q).pid ≠ 0 → (s.proc q).pid = (s.proc q').pid → q = q'

theorem Numbers.kept (hs : Numbers s) (hnextpid : t.nextpid = s.nextpid)
    (hgiven : t.given = s.given)
    (hpid : ∀ q, (t.proc q).pid = (s.proc q).pid ∨ (t.proc q).pid = 0) : Numbers t where
  positive := hnextpid ▸ hs.positive
  recorded := hnextpid ▸ hgiven ▸ hs.recorded
  nodup := hgiven ▸ hs.nodup
  range := by
    intro q hq
    have heq := (hpid q).resolve_right hq
    rw [heq] at hq ⊢
    exact hnextpid ▸ hs.range q hq
  distinct := by
    intro q q' hq heq
    have hq' : (t.proc q').pid ≠ 0 := heq ▸ hq
    rw [(hpid q).resolve_right hq, (hpid q').resolve_right hq'] at heq
    rw [(hpid q).resolve_right hq] at hq
    exact hs.distinct q q' hq heq

theorem Numbers.give (hs : Numbers s) {q : Slot} (hnextpid : t.nextpid = s.nextpid + 1)
    (hgiven : t.given = s.given ++ [s.nextpid])
    (hproc : t.proc = Function.update s.proc q { s.proc q with pid := s.nextpid }) :
    Numbers t := by
  have hpid : ∀ r, (t.proc r).pid = if r = q then s.nextpid else (s.proc r).pid := by
    intro r
    rw [hproc, Function.update_apply]
    split <;> rfl
  -- The number given is above all others.
  have hbelow : ∀ r, (s.proc r).pid < s.nextpid := by
    intro r
    by_cases hr : (s.proc r).pid = 0
    · exact hr ▸ hs.positive
    · exact (hs.range r hr).2
  refine ⟨?_, ?_, ?_, ?_, ?_⟩
  · have := hs.positive
    omega
  · rw [hgiven, hnextpid]
    intro n hn
    rcases List.mem_append.mp hn with hn | hn
    · have := hs.recorded n hn
      omega
    · rw [List.mem_singleton.mp hn]
      omega
  · rw [hgiven, List.nodup_append]
    refine ⟨hs.nodup, List.nodup_singleton _, fun n hn m hm => ?_⟩
    rw [List.mem_singleton.mp hm]
    exact (hs.recorded n hn).ne
  · intro r hr
    have hpos := hs.positive
    rw [hpid] at hr ⊢
    rw [hnextpid]
    by_cases hrq : r = q
    · rw [if_pos hrq]
      omega
    · rw [if_neg hrq] at hr ⊢
      have := hs.range r hr
      omega
  · intro r r' hr heq
    rw [hpid, hpid] at heq
    rw [hpid] at hr
    have hb := hbelow r
    have hb' := hbelow r'
    split at heq <;> split at heq
    · rw [‹r = q›, ‹r' = q›]
    · omega
    · omega
    · rw [if_neg ‹_›] at hr
      exact hs.distinct r r' hr heq

theorem Numbers.move (hs : Numbers s) (hwrap : NoWrap s a) (h : Move s a t) : Numbers t := by
  cases h.numbering with
  | kept hnextpid hgiven hpid => exact hs.kept hnextpid hgiven hpid
  | given ha hpc hnextpid hgiven hproc =>
    subst ha
    refine hs.give (hnextpid.trans ?_) hgiven hproc
    exact if_pos (hwrap (congrArg Pc.allocates hpc))

theorem Start.numbers (hs : Start s) : Numbers s := by
  have hpid : ∀ q, (s.proc q).pid ≠ 0 → q = initproc := by
    intro q hq
    by_contra hne
    rw [hs.free q hne] at hq
    exact hq rfl
  have hinit := hs.init.2.1
  refine ⟨by simp [hs.nextpid], by simp [hs.given, hs.nextpid], by simp [hs.given], ?_, ?_⟩
  · intro q hq
    rw [hpid q hq, hinit, hs.nextpid]
    decide
  · intro q q' hq heq
    rw [hpid q hq, hpid q' (heq ▸ hq)]

def Proc.Freed (p : Proc) : Prop :=
  p.trapframe = 0 ∧ p.pagetable = 0 ∧ p.sz = 0 ∧ p.parent = none

def Proc.Closed (p : Proc) : Prop := p.cwd = 0 ∧ ∀ fd, p.ofile fd = 0

def Leaving (proc : Proc) : Pc → Prop
  | .exitFiles _ n => ∀ fd : Fin nofile, fd < n → proc.ofile fd = 0
  | .exitWait _ | .reparent _ _ | .wakeInit _ _ _ | .wakeParent _ _ _ | .exitLock _ | .exitRelease
  | .exitSched => proc.Closed
  | _ => True

def Pc.fresh : Pc → Option Slot
  | .forkTrapframe q | .forkPagetable q | .forkCopy q | .forkFiles q => some q
  | _ => none

theorem Pc.fresh_expects {pc : Pc} {q : Slot} (h : pc.fresh = some q) :
    pc.expects = some (q, .used) := by
  cases pc <;> cases h <;> rfl

/-- A free slot whose lock is free has no number. -/
def Settled (proc : Proc) (lock : Option Slot) : Prop :=
  proc.state = .unused → lock = none → proc.pid = 0

structure Entry (p : Proc) : Prop where
  freed : p.state = .unused → p.Freed
  closed : p.state = .unused ∨ p.state = .zombie → p.Closed
  numbered : p.state ≠ .unused → p.pid ≠ 0

structure Tidy (s : State) : Prop where
  entry : ∀ q, Entry (s.proc q)
  leaving : ∀ p, Leaving (s.proc p) (s.pc p)
  fresh : ∀ p q, (s.pc p).fresh = some q → (s.proc q).Closed
  named : ∀ p q, s.pc p = .forkUsed q → (s.proc q).pid ≠ 0
  settled : ∀ q, Settled (s.proc q) (s.plock q)

theorem Entry.alive {p p' : Proc} (h : Entry p) (hstate : p.state ≠ .unused)
    (hunused : p'.state ≠ .unused) (hzombie : p'.state ≠ .zombie) (hpid : p'.pid = p.pid) :
    Entry p' :=
  ⟨fun h => absurd h hunused, fun h => (h.elim hunused hzombie).elim,
    fun _ => hpid ▸ h.numbered hstate⟩

theorem Entry.wakeup {p : Proc} (h : Entry p) (chan : Chan) : Entry (p.wakeup chan) := by
  unfold Proc.wakeup
  split
  · exact h.alive (by simp [‹p.state = _ ∧ _›.1]) nofun nofun rfl
  · exact h

theorem Entry.kill {p : Proc} (h : Entry p) (pid : Int) : Entry (p.kill pid) := by
  unfold Proc.kill
  split
  · by_cases hsleep : p.state = .sleeping
    · refine h.alive ?_ ?_ ?_ rfl <;> simp [hsleep]
    · simp only [if_neg hsleep]
      exact ⟨h.freed, h.closed, h.numbered⟩
  · exact h

theorem each_entry (hs : ∀ q, Entry (s.proc q)) {q : Slot} {proc' : Proc} (h : Entry proc')
    (r : Slot) : Entry (Function.update s.proc q proc' r) :=
  (Function.forall_update_iff s.proc fun _ => Entry).2 ⟨h, fun r _ => hs r⟩ r

theorem Tidy.entry_move (hb : Base s) (hs : Tidy s) (h : Move s a t) (r : Slot) :
    Entry (t.proc r) := by
  cases h with
  | @forkPid p q x hpc =>
    have hq := hb.expects p q _ (congrArg Pc.expects hpc)
    refine each_entry hs.entry ?_ r
    exact ⟨(hs.entry q).freed, (hs.entry q).closed, fun h => absurd hq h⟩
  | @forkUsed p q x hpc =>
    refine each_entry hs.entry ?_ r
    exact ⟨by simp, by simp, fun _ => hs.named p q hpc⟩
  | forkTrapframe hpc | forkPagetable hpc | forkCopy hpc | forkFiles hpc | forkParent hpc =>
    have hq := hb.expects _ _ _ (congrArg Pc.expects hpc)
    refine each_entry hs.entry ?_ r
    refine (hs.entry _).alive ?_ ?_ ?_ rfl <;> simp [Proc.dupFiles, hq]
  | forkReady hpc =>
    have hq := hb.expects _ _ _ (congrArg Pc.expects hpc)
    refine each_entry hs.entry ?_ r
    refine (hs.entry _).alive ?_ ?_ ?_ rfl <;> simp [hq]
  | @forkFail p q x hpc =>
    have hfresh : (s.pc p).fresh = some q := by rcases hpc with h | h | h <;> rw [h] <;> rfl
    refine each_entry hs.entry ?_ r
    exact ⟨fun _ => ⟨rfl, rfl, rfl, rfl⟩, fun _ => hs.fresh p q hfresh, fun h => absurd rfl h⟩
  | @reap p q x hpc =>
    have hq := hb.expects p q _ (congrArg Pc.expects hpc)
    refine each_entry hs.entry ?_ r
    exact ⟨fun _ => ⟨rfl, rfl, rfl, rfl⟩, fun _ => (hs.entry q).closed (.inr hq),
      fun h => absurd rfl h⟩
  | exitFile hpc hrun | exitCwd hpc hrun =>
    simp only [Runs, hpc, reduceCtorEq, or_false] at hrun
    refine each_entry hs.entry ?_ r
    refine (hs.entry _).alive ?_ ?_ ?_ rfl <;> simp [hrun]
  | @exitLock p status x hpc =>
    have hrun : (s.proc p).state = .running := hb.at hpc
    have hleaving := hs.leaving p
    rw [hpc] at hleaving
    refine each_entry hs.entry ?_ r
    exact ⟨by simp, fun _ => hleaving, fun _ => (hs.entry p).numbered (by simp [hrun])⟩
  | @adopt p q status x hpc hparent =>
    refine each_entry hs.entry ?_ r
    refine ⟨fun hunused => ?_, (hs.entry q).closed, (hs.entry q).numbered⟩
    have hnone := ((hs.entry q).freed hunused).2.2.2
    rw [hparent] at hnone
    cases hnone
  | waitMark hpc | waitTidy hpc =>
    have hrun := hb.at hpc
    simp only [Fits] at hrun
    refine each_entry hs.entry ?_ r
    refine (hs.entry _).alive ?_ ?_ ?_ rfl <;> simp [hrun]
  | resume _ hlive | dispatch _ hlive | yield hlive | sleep hlive | use _ hlive =>
    refine each_entry hs.entry ?_ r
    refine (hs.entry _).alive ?_ ?_ ?_ rfl <;> simp [hlive]
  | wakeInit | wakeParent | wakeup => exact each_entry hs.entry ((hs.entry _).wakeup _) r
  | kkill => exact each_entry hs.entry ((hs.entry _).kill _) r
  | _ => exact hs.entry r

theorem Leaving.congr {proc proc' : Proc} {pc : Pc} (h : Leaving proc pc)
    (hofile : proc'.ofile = proc.ofile) (hcwd : proc'.cwd = proc.cwd) : Leaving proc' pc := by
  cases pc <;> simp_all [Leaving, Proc.Closed]

theorem Leaving.wakeup {proc : Proc} {pc : Pc} (h : Leaving proc pc) (chan : Chan) :
    Leaving (proc.wakeup chan) pc := by
  unfold Proc.wakeup
  split
  · exact h.congr rfl rfl
  · exact h

theorem Leaving.kill {proc : Proc} {pc : Pc} (h : Leaving proc pc) (pid : Int) :
    Leaving (proc.kill pid) pc := by
  unfold Proc.kill
  split
  · exact h.congr rfl rfl
  · exact h

theorem Tidy.leaving_at (hs : Tidy s) {p : Slot} {pc : Pc} (hpc : s.pc p = pc) :
    Leaving (s.proc p) pc := hpc ▸ hs.leaving p

theorem Tidy.leaving_move (hb : Base s) (hs : Tidy s) (h : Move s a t) (r : Slot) :
    Leaving (t.proc r) (t.pc r) := by
  have each := hs.leaving
  cases h with
  | exit =>
    refine each_pc each ?_ r
    exact fun fd h => absurd h (Nat.not_lt_zero _)
  | exitWait hpc | adoptSkip hpc | adoptDone hpc | wakeInitSelf hpc | wakeInitDone hpc
  | wakeParentSelf hpc | wakeParentDone hpc | exitRelease hpc =>
    refine each_pc each ?_ r
    have hp := hs.leaving_at hpc
    exact hp
  | exitLock hpc =>
    refine each_self each ?_ r
    have hp := hs.leaving_at hpc
    exact hp
  | @exitFile p status fd x hpc =>
    refine each_self each ?_ r
    intro fd' hfd'
    by_cases hfd : fd' = fd
    · rw [hfd]
      exact Function.update_self ..
    · refine (Function.update_of_ne hfd ..).trans ?_
      refine hs.leaving_at hpc fd' ?_
      have := Fin.val_ne_of_ne hfd
      omega
  | @exitCwd p status n x hpc _ hn =>
    refine each_self each ?_ r
    exact ⟨rfl, fun fd => hs.leaving_at hpc fd (fd.isLt.trans_le hn)⟩
  | forkPid hpc | forkUsed hpc =>
    have hexpects := congrArg Pc.expects hpc
    refine each_other each (hb.ne_of_expects hexpects) ?_ ?_ r
    · rw [hb.dead hexpects (.inl rfl)]
      trivial
    · trivial
  | forkTrapframe hpc | forkPagetable hpc | forkCopy hpc | forkFiles hpc | forkParent hpc =>
    have hexpects := congrArg Pc.expects hpc
    refine each_other each (hb.ne_of_expects hexpects) ?_ ?_ r
    · rw [hb.dead hexpects (.inr rfl)]
      trivial
    · trivial
  | @forkFail p q x hpc =>
    have hexpects : (s.pc p).expects = some (q, .used) := by
      rcases hpc with h | h | h <;> rw [h] <;> rfl
    refine each_other each (hb.ne_of_expects hexpects) ?_ ?_ r
    · rw [hb.dead hexpects (.inr rfl)]
      trivial
    · trivial
  | reap hpc =>
    refine each_other each (hb.ne_of_expects (congrArg Pc.expects hpc)) ?_ ?_ r
    · rw [hb.dead_of_found hpc]
      trivial
    · trivial
  | forkReady hpc =>
    refine each_pc (each_self each ?_) ?_ r <;> trivial
  | @adopt p q status x hpc =>
    have hq : Leaving { s.proc q with parent := some initproc } (s.pc q) :=
      (each q).congr rfl rfl
    have hadopted := each_proc (R := fun _ => Leaving) each hq
    refine each_pc hadopted ?_ r
    have hp := hadopted p
    rwa [hpc] at hp
  | wakeInit hpc hne | wakeParent hpc hne =>
    refine each_other each hne.symm ((each _).wakeup _) ?_ r
    have hp := hs.leaving_at hpc
    exact hp
  | waitMark | waitTidy | resume =>
    refine each_self each ?_ r
    trivial
  | dispatch | yield | sleep =>
    refine each_proc each ?_ r
    exact (each _).congr rfl rfl
  | use hpc =>
    refine each_proc each ?_ r
    rw [hpc]
    trivial
  | wakeup => exact each_proc each ((each _).wakeup _) r
  | kkill => exact each_proc each ((each _).kill _) r
  | _ =>
    refine each_pc each ?_ r
    trivial

theorem Tidy.fresh_move (hb : Base s) (hs : Tidy s) (h : Move s a t) (r q : Slot)
    (hfresh : (t.pc r).fresh = some q) : (t.proc q).Closed := by
  by_cases hmoved : t.pc r = s.pc r
  · rw [hmoved] at hfresh
    have hq := hs.fresh r q hfresh
    have houtside := hb.frame h hmoved (Pc.fresh_expects hfresh)
    generalize t.proc q = proc' at houtside
    cases houtside <;> exact hq
  · obtain rfl := h.eq_actor hmoved fun h => by simp [h, Pc.fresh] at hfresh
    cases h with
    | forkUsed hpc =>
      simp only [State.setPc, Action.actor, Function.update_self, Pc.fresh] at hfresh
      cases hfresh
      have hq := hb.expects _ _ _ (congrArg Pc.expects hpc)
      simpa [State.setPc, State.setProc, Proc.Closed] using (hs.entry _).closed (.inl hq)
    | forkTrapframe hpc | forkPagetable hpc | forkCopy hpc =>
      simp only [State.setPc, Action.actor, Function.update_self, Pc.fresh] at hfresh
      cases hfresh
      simpa [State.setPc, State.setProc, Proc.Closed] using
        hs.fresh _ _ (congrArg Pc.fresh hpc)
    | dispatch | yield | sleep | use | wakeup | kkill => exact absurd rfl hmoved
    | _ =>
      simp [State.setPc, State.forkFail, Action.actor, Pc.fresh] at hfresh

theorem Tidy.named_move (hb : Base s) (hn : Numbers s) (hs : Tidy s) (h : Move s a t) (r q : Slot)
    (hused : t.pc r = .forkUsed q) : (t.proc q).pid ≠ 0 := by
  by_cases hmoved : t.pc r = s.pc r
  · rw [hmoved] at hused
    have hq := hs.named r q hused
    have houtside := hb.frame h hmoved (congrArg Pc.expects hused)
    generalize t.proc q = proc' at houtside
    cases houtside <;> exact hq
  · obtain rfl := h.eq_actor hmoved (by simp [hused])
    cases h with
    | forkPid hpc =>
      simp only [State.setPc, Action.actor, Function.update_self] at hused
      cases hused
      have := hn.positive
      simp only [State.setPc, State.setProc, Function.update_self]
      omega
    | dispatch | yield | sleep | use | wakeup | kkill => exact absurd rfl hmoved
    | _ =>
      simp [State.setPc, State.forkFail, Action.actor] at hused

theorem Settled.of_state {proc : Proc} {lock : Option Slot} (h : proc.state ≠ .unused) :
    Settled proc lock := fun hunused => absurd hunused h

theorem Settled.congr {proc proc' : Proc} {lock : Option Slot} (h : Settled proc lock)
    (hstate : proc'.state = proc.state) (hpid : proc'.pid = proc.pid) : Settled proc' lock :=
  fun hunused hlock => hpid.trans (h (hstate ▸ hunused) hlock)

theorem Settled.wakeup {proc : Proc} {lock : Option Slot} (h : Settled proc lock) (chan : Chan) :
    Settled (proc.wakeup chan) lock := by
  unfold Proc.wakeup
  split
  · exact .of_state nofun
  · exact h

theorem Settled.kill {proc : Proc} {lock : Option Slot} (h : Settled proc lock) (pid : Int) :
    Settled (proc.kill pid) lock := by
  unfold Proc.kill
  split
  · by_cases hsleep : proc.state = .sleeping
    · exact .of_state (by simp [hsleep])
    · exact h.congr (if_neg hsleep) rfl
  · exact h

theorem Tidy.settled_move (hb : Base s) (hs : Tidy s) (h : Move s a t) (r : Slot) :
    Settled (t.proc r) (t.plock r) := by
  have each := hs.settled
  cases h with
  | forkTake | waitFound | waitSleep =>
    refine each_pc each ?_ r
    exact fun _ h => (Option.some_ne_none _ h).elim
  | forkRelease hpc | copyoutFail hpc =>
    have hq := hb.expects _ _ _ (congrArg Pc.expects hpc)
    refine each_pc each (.of_state ?_) r
    simp [hq]
  | exitSched hpc =>
    have hp := hb.at hpc
    simp only [Fits] at hp
    refine each_pc each (.of_state ?_) r
    simp [hp]
  | exitLock | waitMark | resume =>
    refine each_self each (.of_state ?_) r
    simp
  | waitTidy hpc =>
    have hp := hb.at hpc
    simp only [Fits] at hp
    refine each_self each (.of_state ?_) r
    simp [hp]
  | forkFail | reap => exact each_self each (fun _ _ => rfl) r
  | forkPid hpc =>
    have hheld : s.plock _ = some _ := hb.plock.held (by rw [hpc]; rfl)
    refine each_proc each ?_ r
    intro _ hlock
    rw [hheld] at hlock
    cases hlock
  | forkTrapframe | forkPagetable | forkCopy | forkFiles | forkParent | exitFile | exitCwd | adopt
  | use =>
    refine each_proc each ?_ r
    exact (each _).congr rfl rfl
  | forkUsed | forkReady | dispatch | yield | sleep =>
    refine each_proc each (.of_state ?_) r
    simp
  | wakeInit | wakeParent | wakeup => exact each_proc each ((each _).wakeup _) r
  | kkill => exact each_proc each ((each _).kill _) r
  | _ =>
    exact each r

theorem Tidy.move (hb : Base s) (hn : Numbers s) (hs : Tidy s) (h : Move s a t) : Tidy t where
  entry := hs.entry_move hb h
  leaving := hs.leaving_move hb h
  fresh := hs.fresh_move hb h
  named := hs.named_move hb hn h
  settled := hs.settled_move hb h

theorem Start.tidy (hs : Start s) : Tidy s where
  entry := by
    intro q
    by_cases hq : q = initproc
    · have hinit := hs.init
      subst hq
      refine ⟨?_, ?_, ?_⟩ <;> simp [hinit.1, hinit.2.1]
    · rw [hs.free q hq]
      exact ⟨fun _ => ⟨rfl, rfl, rfl, rfl⟩, fun _ => ⟨rfl, fun _ => rfl⟩, fun h => absurd rfl h⟩
  leaving := by
    intro p
    rw [hs.pc]
    split <;> trivial
  fresh := by
    intro p q h
    rw [hs.pc] at h
    split at h <;> cases h
  named := by
    intro p q h
    rw [hs.pc] at h
    split at h <;> cases h
  settled := by
    intro q hunused _
    by_cases hq : q = initproc
    · rw [hq, hs.init.1] at hunused
      cases hunused
    · rw [hs.free q hq]
      rfl

theorem Numbers.reach (h : system.Reach NoWrap (.ok s)) : Numbers s :=
  reach_invariant Numbers (fun _ => Start.numbers) (fun _ _ _ _ hs hwrap => hs.move hwrap) h

theorem Tidy.reach (h : system.Reach NoWrap (.ok s)) : Tidy s :=
  reach_invariant Tidy (fun _ => Start.tidy)
    (fun _ _ _ hreach hs _ => hs.move (.reach hreach) (.reach hreach)) h

structure TableOk (s : State) : Prop where
  unused_iff : ∀ q, s.plock q = none → ((s.proc q).state = .unused ↔ (s.proc q).pid = 0)
  unused : ∀ q, s.plock q = none → (s.proc q).state = .unused →
    (s.proc q).trapframe = 0 ∧ (s.proc q).pagetable = 0 ∧ (s.proc q).sz = 0 ∧
      (s.proc q).parent = none ∧ (s.proc q).cwd = 0 ∧ ∀ fd, (s.proc q).ofile fd = 0
  positive : ∀ q, s.plock q = none → (s.proc q).state ≠ .unused → 0 < (s.proc q).pid
  distinct : ∀ q q', s.plock q = none → s.plock q' = none → (s.proc q).state ≠ .unused →
    (s.proc q').state ≠ .unused → q ≠ q' → (s.proc q).pid ≠ (s.proc q').pid

theorem process_table (h : system.Reach NoWrap (.ok s)) : TableOk s ∧ s.given.Nodup := by
  have hn := Numbers.reach h
  have hs := Tidy.reach h
  refine ⟨⟨?_, ?_, ?_, ?_⟩, hn.nodup⟩
  · intro q hlock
    refine ⟨fun hunused => hs.settled q hunused hlock, fun hpid => ?_⟩
    by_contra hstate
    exact (hs.entry q).numbered hstate hpid
  · intro q _ hunused
    obtain ⟨htrapframe, hpagetable, hsz, hparent⟩ := (hs.entry q).freed hunused
    obtain ⟨hcwd, hofile⟩ := (hs.entry q).closed (.inl hunused)
    exact ⟨htrapframe, hpagetable, hsz, hparent, hcwd, hofile⟩
  · exact fun q _ hstate => (hn.range q ((hs.entry q).numbered hstate)).1
  · intro q q' _ _ hstate _ hne heq
    exact hne (hn.distinct q q' ((hs.entry q).numbered hstate) heq)

def forkTrace : List Action :=
  [.dispatch 0, .fork 0] ++ List.replicate 12 (.step 0 ⟨7, true⟩)

theorem forkTrace_observed : system.observed NoWrap
    (fun s => (s.plock 1, (s.proc 0).pid, (s.proc 1).state, (s.proc 1).pid)) boot forkTrace =
      some (none, 1, .runnable, 2) := by
  decide +kernel

theorem process_table_fork : ∃ s, system.Reach NoWrap (.ok s) ∧ (s.proc 1).state = .runnable ∧
    (s.proc 0).pid = 1 ∧ (s.proc 1).pid = 2 ∧ TableOk s ∧ s.given.Nodup := by
  obtain ⟨s, hreach, hs⟩ :=
    System.Reach.of_observed (.init boot_start) forkTrace_observed
  simp only [Prod.mk.injEq] at hs
  exact ⟨s, hreach, hs.2.2.1, hs.2.1, hs.2.2.2, process_table hreach⟩

end Xv6.Life
