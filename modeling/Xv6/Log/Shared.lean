import Xv6.Bio.Buffers
import Xv6.Log.Alone
import Xv6.Log.Admission
import Xv6.Lib.System

/-! File-system operations over the shared buffer cache and the log. A process
inside an operation reads blocks, changes their data, logs the change and gives
the buffer back; the process that ends the last open operation runs `commit`,
one buffer operation at a time, and takes its locks like everybody else. -/
namespace Xv6.Log.Shared

open Lib Bio

inductive Phase where
  | outside
  | inOp
  /-- Inside `commit`, with these calls still to make. -/
  | committing (calls : List Call)
  | committed
  deriving DecidableEq

inductive Panic where
  | bio (panic : Bio.Panic)
  | log (panic : Log.Panic)
  deriving DecidableEq

/-- `latest` remembers the data last stored to each block. -/
structure State (P : Type) where
  buffers : Buffers P
  log : LogState
  phase : P → Phase
  latest : Nat → Block

inductive Action (P : Type) where
  | beginOp (p : P)
  | bread (p : P) (blockno : Nat)
  | acquiresleep (p : P)
  | modify (p : P) (i : BufIndex) (data : Block)
  | logWrite (p : P) (i : BufIndex)
  | brelse (p : P) (i : BufIndex)
  | unref (p : P)
  | endOp (p : P)
  | commitCall (p : P)
  | commitReturn (p : P)
  | endCommit (p : P)

variable {P : Type}

def Editing (s : State P) (p : P) (i : BufIndex) : Prop :=
  s.phase p = .inOp ∧ s.buffers.pending p = .none ∧ (s.buffers.cache.buf i).lock = some p

def enabled (start : Nat) (s : State P) : Action P → Prop
  | .beginOp p => s.phase p = .outside
  | .bread p blockno =>
      s.phase p = .inOp ∧ s.buffers.pending p = .none ∧ IsHome start blockno ∧ blockno < 2 ^ 32
  | .acquiresleep p =>
      ∃ i, s.buffers.pending p = .acquiring i ∧ (s.buffers.cache.buf i).lock = none
  | .modify p i _ => Editing s p i
  | .logWrite p i => Editing s p i
  -- a buffer that was changed is logged before it is given back
  | .brelse p i => Editing s p i ∧ s.buffers.dirty i = false
  | .unref p => ∃ i, s.buffers.pending p = .releasing i
  | .endOp p =>
      s.phase p = .inOp ∧ s.buffers.pending p = .none ∧
        ∀ i, (s.buffers.cache.buf i).lock ≠ some p
  | .commitCall p =>
      s.buffers.pending p = .none ∧ ∃ call rest, s.phase p = .committing (call :: rest)
  | .commitReturn p => s.buffers.pending p = .none ∧ s.phase p = .committing []
  | .endCommit p => s.phase p = .committed

section Decidable

variable [DecidableEq P]

instance (start b : Nat) : Decidable (IsHome start b) := inferInstanceAs (Decidable (_ ∨ _))

instance (s : State P) (p : P) (i : BufIndex) : Decidable (Editing s p i) :=
  inferInstanceAs (Decidable (_ ∧ _ ∧ _))

instance (start : Nat) (s : State P) (a : Action P) : Decidable (enabled start s a) :=
  match a with
  | .beginOp p => inferInstanceAs (Decidable (s.phase p = .outside))
  | .bread _ _ => inferInstanceAs (Decidable (_ ∧ _ ∧ _ ∧ _))
  | .acquiresleep p =>
      inferInstanceAs (Decidable (∃ i, s.buffers.pending p = .acquiring i ∧
        (s.buffers.cache.buf i).lock = none))
  | .modify p i _ => inferInstanceAs (Decidable (Editing s p i))
  | .logWrite p i => inferInstanceAs (Decidable (Editing s p i))
  | .brelse p i => inferInstanceAs (Decidable (Editing s p i ∧ s.buffers.dirty i = false))
  | .unref p => inferInstanceAs (Decidable (∃ i, s.buffers.pending p = .releasing i))
  | .endOp p =>
      inferInstanceAs (Decidable (s.phase p = .inOp ∧ s.buffers.pending p = .none ∧
        ∀ i, (s.buffers.cache.buf i).lock ≠ some p))
  | .commitCall p =>
      match h : s.phase p with
      | .committing (_ :: _) =>
          decidable_of_iff (s.buffers.pending p = .none) (by simp [enabled, h])
      | .committing [] | .outside | .inOp | .committed => .isFalse (by simp [enabled, h])
  | .commitReturn _ => inferInstanceAs (Decidable (_ ∧ _))
  | .endCommit p => inferInstanceAs (Decidable (s.phase p = .committed))

end Decidable

section Exec

variable [DecidableEq P] (start : Nat)

def heldBuf (s : Buffers P) (p : P) (b : Nat) : Option BufIndex :=
  (List.finRange nbuf).find? fun i =>
    decide ((s.cache.buf i).lock = some p ∧ (s.cache.buf i).caches rootDev b)

def State.setPhase (s : State P) (p : P) (phase : Phase) : State P :=
  { s with phase := Function.update s.phase p phase }

def State.enter (s : State P) (p : P) (phase : Phase) (log : LogState) : State P :=
  { s with phase := Function.update s.phase p phase, log := log }

def execCall (s : State P) (p : P) : Call → Except Panic (State P)
  | .bread b =>
      match s.buffers.get p b with
      | .ok buffers => .ok { s with buffers := buffers }
      | .error e => .error (.bio e)
  | .memmove dst src =>
      match heldBuf s.buffers p dst, heldBuf s.buffers p src with
      | some i, some j =>
          .ok { s with buffers := s.buffers.store i (s.buffers.cache.buf j).data }
      | _, _ => .ok s
  | .fillHead =>
      match heldBuf s.buffers p start with
      | some i =>
          .ok { s with
            buffers := s.buffers.store i (fillHead (s.buffers.cache.buf i).data s.log.lh) }
      | none => .ok s
  | .bwrite b =>
      match heldBuf s.buffers p b with
      | some i => .ok { s with buffers := s.buffers.write i }
      | none => .error (.bio .bwrite)
  | .bunpin b =>
      match heldBuf s.buffers p b with
      | some i => .ok { s with buffers := s.buffers.unpin i }
      | none => .ok s
  | .brelse b =>
      match heldBuf s.buffers p b with
      | some i => .ok { s with buffers := s.buffers.release p i }
      | none => .error (.bio .brelse)
  | .resetHead => .ok { s with log := { s.log with lh := [] } }

def exec (s : State P) : Action P → Except Panic (State P)
  | .beginOp p =>
      match beginOp s.log with
      | none => .ok s
      | some log => .ok (s.enter p .inOp log)
  | .bread p blockno =>
      match s.buffers.get p blockno with
      | .ok buffers => .ok { s with buffers := buffers }
      | .error e => .error (.bio e)
  | .acquiresleep p =>
      match s.buffers.pending p with
      | .acquiring i => .ok { s with buffers := s.buffers.acquire p i }
      | _ => .ok s
  | .modify _ i data =>
      .ok { s with
        buffers := s.buffers.store i data
        latest := Function.update s.latest (s.buffers.cache.buf i).blockno data }
  | .logWrite _ i =>
      let blockno := (s.buffers.cache.buf i).blockno
      match logWrite s.log blockno with
      | .ok log =>
          -- the pin is taken only when the block was new to the log
          let buffers := if blockno ∈ s.log.lh then s.buffers else s.buffers.pin i
          .ok { s with buffers := buffers.settle i, log := log }
      | .error e => .error (.log e)
  | .brelse p i => .ok { s with buffers := s.buffers.release p i }
  | .unref p =>
      match s.buffers.pending p with
      | .releasing i => .ok { s with buffers := s.buffers.drop p i }
      | _ => .ok s
  | .endOp p =>
      match endOp s.log with
      | .ok (log, true) => .ok (s.enter p (.committing (commit start s.log.lh)) log)
      | .ok (log, false) => .ok (s.enter p .outside log)
      | .error e => .error (.log e)
  | .commitCall p =>
      match s.phase p with
      | .committing (call :: rest) =>
          execCall start (s.setPhase p (.committing rest)) p call
      | _ => .ok s
  | .commitReturn p => .ok (s.enter p .committed s.log)
  | .endCommit p => .ok (s.enter p .outside (endCommit s.log))

end Exec

structure Initial (s : State P) : Prop where
  wf : WellFormed s.buffers.cache
  unused : ∀ i, (s.buffers.cache.buf i).refcnt = 0 ∧ (s.buffers.cache.buf i).lock = none ∧
    s.buffers.pins i = 0 ∧ s.buffers.dirty i = false
  clean : ∀ i, (s.buffers.cache.buf i).dev = rootDev → (s.buffers.cache.buf i).valid = true →
    (s.buffers.cache.buf i).data = s.buffers.disk (s.buffers.cache.buf i).blockno
  idle : ∀ p, s.buffers.pending p = .none ∧ s.phase p = .outside
  log : s.log = ⟨0, false, []⟩
  latest : s.latest = s.buffers.disk

def system (P : Type) [DecidableEq P] (start : Nat) : System (State P) Panic (Action P) where
  init := Initial
  enabled := enabled start
  exec := exec start

instance [DecidableEq P] (start : Nat) (s : State P) (a : Action P) :
    Decidable ((system P start).enabled s a) :=
  inferInstanceAs (Decidable (enabled start s a))

end Xv6.Log.Shared
