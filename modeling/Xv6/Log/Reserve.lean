import Xv6.Log.Admission
import Xv6.Lib.System

/-! Admission to the log is sufficient: processes interleave the critical
sections of `log.c` freely, each running
`begin_op; log_write(b1); ...; log_write(bk); end_op` over at most `MAXOPBLOCKS`
distinct blocks. -/
namespace Xv6.Log.Reserve

open Lib

/-- Where a process is: between its runs, in a run that has logged these
distinct blocks, inside `commit()`, or past it. -/
inductive Thread where
  | outside
  | inOp (logged : List Nat)
  | committing
  | committed
  deriving DecidableEq

inductive Action (P : Type) where
  | beginOp (p : P)
  | logWrite (p : P) (blockno : Nat)
  | endOp (p : P)
  | commit (p : P)
  | endCommit (p : P)

structure State (P : Type) where
  log : LogState
  thread : P → Thread

variable {P : Type} [DecidableEq P]

def State.set (s : State P) (log : LogState) (p : P) (thread : Thread) : State P :=
  ⟨log, Function.update s.thread p thread⟩

def initial : State P := ⟨⟨0, false, []⟩, fun _ => .outside⟩

def enabled (s : State P) : Action P → Prop
  | .beginOp p => s.thread p = .outside
  | .logWrite p blockno =>
      match s.thread p with
      | .inOp logged => (logged.insert blockno).length ≤ maxOpBlocks
      | _ => False
  | .endOp p =>
      match s.thread p with
      | .inOp _ => True
      | _ => False
  | .commit p => s.thread p = .committing
  | .endCommit p => s.thread p = .committed

instance (s : State P) (a : Action P) : Decidable (enabled s a) :=
  match a with
  | .beginOp p => inferInstanceAs (Decidable (s.thread p = .outside))
  | .logWrite p blockno =>
      match h : s.thread p with
      | .inOp logged =>
          decidable_of_iff ((logged.insert blockno).length ≤ maxOpBlocks) (by simp [enabled, h])
      | .outside | .committing | .committed => .isFalse (by simp [enabled, h])
  | .endOp p =>
      match h : s.thread p with
      | .inOp _ => .isTrue (by simp [enabled, h])
      | .outside | .committing | .committed => .isFalse (by simp [enabled, h])
  | .commit p => inferInstanceAs (Decidable (s.thread p = .committing))
  | .endCommit p => inferInstanceAs (Decidable (s.thread p = .committed))

/-- One critical section of process `p`, or its whole `commit()`, whose only
effect on `struct log` is `log.lh.n = 0`. -/
def exec (s : State P) : Action P → Except Panic (State P)
  | .beginOp p =>
      match beginOp s.log with
      | none => .ok s
      | some log => .ok (s.set log p (.inOp []))
  | .logWrite p blockno => do
      let log ← logWrite s.log blockno
      match s.thread p with
      | .inOp logged => pure (s.set log p (.inOp (logged.insert blockno)))
      | _ => pure s
  | .endOp p => do
      let (log, doCommit) ← endOp s.log
      pure (s.set log p (if doCommit then .committing else .outside))
  | .commit p => .ok (s.set { s.log with lh := [] } p .committed)
  | .endCommit p => .ok (s.set (endCommit s.log) p .outside)

def system (P : Type) [DecidableEq P] : System (State P) Panic (Action P) where
  init s := s = initial
  enabled := enabled
  exec := exec

instance (s : State P) (a : Action P) : Decidable ((system P).enabled s a) :=
  inferInstanceAs (Decidable (enabled s a))

def Thread.role : Thread → Role
  | .outside => .outside
  | .inOp _ => .inOp
  | .committing | .committed => .committing

def spare : Thread → Nat
  | .inOp logged => maxOpBlocks - logged.length
  | _ => 0

/-- The reservation: what is logged and what the open runs may still add fit
in the log together. -/
structure Inv [Fintype P] (s : State P) : Prop where
  admitted : Admitted s.log (Thread.role ∘ s.thread)
  budget : s.log.lh.length + total spare s.thread ≤ logBlocks
  nodup : s.log.lh.Nodup
  run : ∀ p logged, s.thread p = .inOp logged →
    logged.length ≤ maxOpBlocks ∧ ∀ b ∈ logged, b ∈ s.log.lh

/-- The step that goes wrong: a block already in the log is logged again while
the log is exactly full. -/
def relogsInFullLog (s : State P) : Action P → Prop
  | .logWrite _ blockno => blockno ∈ s.log.lh ∧ s.log.lh.length = logBlocks
  | _ => False

instance (s : State P) (a : Action P) : Decidable (relogsInFullLog s a) :=
  match a with
  | .logWrite _ blockno =>
      inferInstanceAs (Decidable (blockno ∈ s.log.lh ∧ s.log.lh.length = logBlocks))
  | .beginOp _ | .endOp _ | .commit _ | .endCommit _ => .isFalse id

@[simp] theorem State.log_set (s : State P) (log : LogState) (p : P) (thread : Thread) :
    (s.set log p thread).log = log := rfl

theorem State.thread_set (s : State P) (log : LogState) (p : P) (thread : Thread) :
    (s.set log p thread).thread = Function.update s.thread p thread := rfl

theorem exec_beginOp {s : State P} {log : LogState} (p : P) (h : beginOp s.log = some log) :
    exec s (.beginOp p) = .ok (s.set log p (.inOp [])) := by
  simp only [exec, h]

theorem exec_logWrite {s : State P} {log : LogState} {p : P} {blockno : Nat} {logged : List Nat}
    (hp : s.thread p = .inOp logged) (h : logWrite s.log blockno = .ok log) :
    exec s (.logWrite p blockno) = .ok (s.set log p (.inOp (logged.insert blockno))) := by
  simp only [exec, h, hp, bind, Except.bind, pure, Except.pure]

theorem exec_endOp {s : State P} {log : LogState} {doCommit : Bool} (p : P)
    (h : endOp s.log = .ok (log, doCommit)) :
    exec s (.endOp p) = .ok (s.set log p (if doCommit then .committing else .outside)) := by
  simp only [exec, h, bind, Except.bind, pure, Except.pure]

theorem spare_le (thread : Thread) : spare thread ≤ maxOpBlocks * openCount thread.role := by
  cases thread <;> simp [spare, openCount, Thread.role]

theorem State.role_set (s : State P) (log : LogState) (p : P) (thread : Thread) :
    Thread.role ∘ (s.set log p thread).thread =
      Function.update (Thread.role ∘ s.thread) p thread.role :=
  Function.comp_update _ _ _ _

section Steps

variable [Fintype P] {s : State P} (hs : Inv s) {p : P}
include hs

theorem Inv.run_set {log : LogState} {thread : Thread} (hsub : s.log.lh ⊆ log.lh)
    (hthread : ∀ logged, thread = .inOp logged →
      logged.length ≤ maxOpBlocks ∧ ∀ b ∈ logged, b ∈ log.lh) :
    ∀ q logged, (s.set log p thread).thread q = .inOp logged →
      logged.length ≤ maxOpBlocks ∧ ∀ b ∈ logged, b ∈ (s.set log p thread).log.lh := by
  intro q logged hq
  rw [State.thread_set] at hq
  by_cases hqp : q = p
  · subst hqp
    rw [Function.update_self] at hq
    exact hthread logged hq
  · rw [Function.update_of_ne hqp] at hq
    exact ⟨(hs.run q logged hq).1, fun b hb => hsub ((hs.run q logged hq).2 b hb)⟩

/-- A step that leaves the header alone and takes `p` out of its run, or into a
part of the code where it logs nothing. -/
theorem Inv.set_idle {log : LogState} {thread : Thread} (hlh : log.lh = s.log.lh)
    (hidle : ∀ logged, thread ≠ .inOp logged)
    (hadmitted : Admitted log (Function.update (Thread.role ∘ s.thread) p thread.role)) :
    Inv (s.set log p thread) := by
  have hspare := total_update spare s.thread p thread
  have hnone : spare thread = 0 := by
    cases thread with
    | inOp logged => exact absurd rfl (hidle logged)
    | _ => rfl
  have hbudget := hs.budget
  constructor
  case admitted =>
    rw [State.role_set]
    exact hadmitted
  case budget =>
    rw [State.log_set, State.thread_set, hlh]
    omega
  case nodup =>
    rw [State.log_set, hlh]
    exact hs.nodup
  case run => exact hs.run_set (fun _ hb => hlh ▸ hb) fun logged h => absurd h (hidle logged)

theorem inv_beginOp (hp : s.thread p = .outside) :
    ∃ s', exec s (.beginOp p) = .ok s' ∧ Inv s' := by
  cases hbegin : beginOp s.log with
  | none => exact ⟨s, by simp [exec, hbegin], hs⟩
  | some log =>
    obtain ⟨hidle, hroom, rfl⟩ := beginOp_eq_some hbegin
    refine ⟨_, exec_beginOp p hbegin, ?_⟩
    have hspare := total_update spare s.thread p (.inOp [])
    -- the admission test counts `MAXOPBLOCKS` for every open run
    have hbound : total spare s.thread ≤ maxOpBlocks * total openCount (Thread.role ∘ s.thread) :=
      total_le_mul spare (openCount ∘ Thread.role) maxOpBlocks spare_le s.thread
    have hout := hs.admitted.outstanding
    simp only [hp, spare, List.length_nil, maxOpBlocks, logBlocks_eq] at hspare hbound hroom
    constructor
    case admitted =>
      rw [State.role_set]
      exact hs.admitted.beginOp (by simp [hp, Thread.role]) hidle
    case budget =>
      rw [State.log_set, State.thread_set, logBlocks_eq]
      dsimp only
      omega
    case nodup => exact hs.nodup
    case run => exact hs.run_set (List.Subset.refl _) (by simp)

theorem inv_logWrite {logged : List Nat} {blockno : Nat} (hp : s.thread p = .inOp logged)
    (hdistinct : (logged.insert blockno).length ≤ maxOpBlocks)
    (hok : ¬relogsInFullLog s (.logWrite p blockno)) :
    ∃ s', exec s (.logWrite p blockno) = .ok s' ∧ Inv s' := by
  have hrole : (Thread.role ∘ s.thread) p = .inOp := by simp [hp, Thread.role]
  have hpos := hs.admitted.outstanding_pos hrole
  have hspare := total_update spare s.thread p (.inOp (logged.insert blockno))
  have hbudget := hs.budget
  have hle := le_total spare s.thread p
  simp only [hp, spare] at hspare hle
  -- a new block is paid for by this run's reservation, a known one by the hypothesis
  have hroom : s.log.lh.length < logBlocks := by
    by_cases hmem : blockno ∈ s.log.lh
    · have : s.log.lh.length ≠ logBlocks := fun h => hok ⟨hmem, h⟩
      omega
    · have hfresh : blockno ∉ logged := fun h => hmem ((hs.run p logged hp).2 _ h)
      rw [List.insert_of_not_mem hfresh, List.length_cons] at hdistinct
      omega
  refine ⟨_, exec_logWrite hp (logWrite_eq_ok hroom hpos blockno), ?_⟩
  constructor
  case admitted =>
    rw [State.role_set]
    exact hs.admitted.set_same hrole rfl rfl
  case budget =>
    rw [State.log_set, State.thread_set]
    dsimp only
    by_cases hmem : blockno ∈ s.log.lh
    · rw [absorb_of_mem hmem]
      have : logged.length ≤ (logged.insert blockno).length := List.length_le_length_insert
      omega
    · have hfresh : blockno ∉ logged := fun h => hmem ((hs.run p logged hp).2 _ h)
      rw [List.insert_of_not_mem hfresh] at hdistinct hspare ⊢
      rw [List.length_cons] at hdistinct hspare
      rw [absorb_of_notMem hmem, List.length_append, List.length_singleton]
      omega
  case nodup => exact nodup_absorb hs.nodup blockno
  case run =>
    refine hs.run_set (fun b hb => mem_absorb.mpr (Or.inl hb)) ?_
    rintro l ⟨⟩
    refine ⟨hdistinct, fun b hb => mem_absorb.mpr ?_⟩
    rcases List.mem_insert_iff.mp hb with rfl | hb
    · exact Or.inr rfl
    · exact Or.inl ((hs.run p logged hp).2 b hb)

theorem inv_endOp {logged : List Nat} (hp : s.thread p = .inOp logged) :
    ∃ s', exec s (.endOp p) = .ok s' ∧ Inv s' := by
  have hrole : (Thread.role ∘ s.thread) p = .inOp := by simp [hp, Thread.role]
  have hidle := hs.admitted.not_committing hrole
  by_cases hlast : s.log.outstanding = 1
  · -- the last open run starts the commit
    refine ⟨_, exec_endOp p (endOp_last hidle hlast), ?_⟩
    exact hs.set_idle rfl (by simp) (hs.admitted.endOp_last hrole hlast)
  · refine ⟨_, exec_endOp p (endOp_more hidle hlast), ?_⟩
    exact hs.set_idle rfl (by simp) (hs.admitted.endOp_more hrole)

omit [DecidableEq P] in
theorem Inv.no_open_run {q : P} (hp : (s.thread p).role = .committing) (logged : List Nat) :
    s.thread q ≠ .inOp logged := by
  intro hq
  refine hs.admitted.ne_inOp (p := p) (q := q) hp ?_
  simp [hq, Thread.role]

theorem inv_commit (hp : s.thread p = .committing) :
    ∃ s', exec s (.commit p) = .ok s' ∧ Inv s' := by
  have hrole : (Thread.role ∘ s.thread) p = .committing := by simp [hp, Thread.role]
  have hspare := total_update spare s.thread p .committed
  have hbudget := hs.budget
  refine ⟨_, rfl, ?_⟩
  constructor
  case admitted =>
    rw [State.role_set]
    exact hs.admitted.set_same hrole rfl rfl
  case budget =>
    simp only [hp, spare] at hspare
    simp only [State.log_set, State.thread_set, List.length_nil]
    omega
  case nodup => exact List.nodup_nil
  case run =>
    intro q logged hq
    rw [State.thread_set] at hq
    by_cases hqp : q = p
    · subst hqp
      simp at hq
    · rw [Function.update_of_ne hqp] at hq
      exact absurd hq (hs.no_open_run hrole logged)

theorem inv_endCommit (hp : s.thread p = .committed) :
    ∃ s', exec s (.endCommit p) = .ok s' ∧ Inv s' :=
  ⟨_, rfl, hs.set_idle rfl (by simp) (hs.admitted.endCommit (by simp [hp, Thread.role]))⟩

end Steps

omit [DecidableEq P] in
theorem inv_initial [Fintype P] : Inv (initial : State P) := by
  refine ⟨admitted_initial, ?_, List.nodup_nil, ?_⟩
  · simp [initial, total, spare]
  · simp [initial]

theorem inv_step [Fintype P] {s : State P} {a : Action P} (hs : Inv s) (ha : enabled s a)
    (hok : ¬relogsInFullLog s a) : ∃ s', exec s a = .ok s' ∧ Inv s' := by
  cases a with
  | beginOp p => exact inv_beginOp hs ha
  | logWrite p blockno =>
    cases hp : s.thread p with
    | inOp logged =>
      simp only [enabled, hp] at ha
      exact inv_logWrite hs hp ha hok
    | _ => simp [enabled, hp] at ha
  | endOp p =>
    cases hp : s.thread p with
    | inOp logged => exact inv_endOp hs hp
    | _ => simp [enabled, hp] at ha
  | commit p => exact inv_commit hs ha
  | endCommit p => exact inv_endCommit hs ha

/-- In every run in which no process logs a block again while the log is full
of `LOGBLOCKS` blocks, no panic is reached, the header stays within the log and
free of repetitions, and no run is open while `commit()` is running. -/
theorem reservation_sufficient [Fintype P] {r : Except Panic (State P)}
    (h : (system P).Reach (fun s a => ¬relogsInFullLog s a) r) :
    ∃ s, r = .ok s ∧ s.log.lh.length ≤ logBlocks ∧ s.log.lh.Nodup ∧
      ∀ p q logged, s.thread p = .committing → s.thread q ≠ .inOp logged := by
  obtain ⟨s, hok, hs⟩ := h.invariant Inv (fun _ h => h ▸ inv_initial)
    fun _ _ hs ha hok => inv_step hs ha hok
  refine ⟨s, hok, ?_, hs.nodup, ?_⟩
  · have := hs.budget
    omega
  · intro p q logged hp
    exact hs.no_open_run (p := p) (by simp [hp, Thread.role]) logged

def committingState : State (Fin 2) :=
  ((initial.set ⟨1, false, []⟩ 0 (.inOp [])).set ⟨1, false, [5]⟩ 0 (.inOp [5])).set
    ⟨0, true, [5]⟩ 0 .committing

theorem reservation_sufficient_committing :
    committingState.thread 0 = .committing ∧ committingState.log.lh.length ≤ logBlocks ∧
      ∀ logged, committingState.thread 1 ≠ .inOp logged := by
  have hrun : (system (Fin 2)).runActions (fun s a => ¬relogsInFullLog s a) initial
      [.beginOp 0, .logWrite 0 5, .endOp 0] = some (.ok committingState) := rfl
  obtain ⟨s, hok, hroom, -, halone⟩ :=
    reservation_sufficient (System.Reach.of_runActions (.init rfl) hrun)
  cases hok
  exact ⟨rfl, hroom, fun logged => halone 0 1 logged rfl⟩

/-- Three processes fill the log with ten blocks each, and the first logs its
first block once more. -/
def fullLogRun : List (Action (Fin 3)) :=
  [.beginOp 0, .beginOp 1, .beginOp 2] ++ (List.range 10).map (.logWrite 0) ++
    (List.range 10).map (fun i => .logWrite 1 (10 + i)) ++
    (List.range 10).map (fun i => .logWrite 2 (20 + i)) ++ [.logWrite 0 0]

theorem tooBigATransaction_reachable :
    (system (Fin 3)).Reachable (.error .tooBigATransaction) := by
  have hrun : (system (Fin 3)).runActions (fun _ _ => True) initial fullLogRun =
      some (.error .tooBigATransaction) := by
    rfl
  exact System.Reach.of_runActions (.init rfl) hrun

end Xv6.Log.Reserve
