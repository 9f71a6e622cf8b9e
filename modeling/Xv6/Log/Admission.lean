import Xv6.Log.Code
import Xv6.Lib.Sums

/-! The critical sections of `begin_op`, `log_write` and `end_op` on
`struct log`, and what they guarantee about who may be where: the counters
describe the processes' roles, and a commit excludes every open run. -/
namespace Xv6.Log

open Lib

inductive Panic where
  | tooBigATransaction
  | logWriteOutsideOfTrans
  | logCommitting
  deriving DecidableEq

/-- The fields of `struct log` that `log.lock` protects. -/
structure LogState where
  outstanding : Int
  committing : Bool
  lh : List Nat

/-- `none` when `begin_op` has to sleep. -/
def beginOp (log : LogState) : Option LogState :=
  if log.committing then none
  else if (log.lh.length : Int) + (log.outstanding + 1) * maxOpBlocks > logBlocks then none
  else some { log with outstanding := log.outstanding + 1 }

def logWrite (log : LogState) (blockno : Nat) : Except Panic LogState :=
  if log.lh.length ≥ logBlocks then .error .tooBigATransaction
  else if log.outstanding < 1 then .error .logWriteOutsideOfTrans
  else .ok { log with lh := absorb log.lh blockno }

/-- The first critical section of `end_op` and its `do_commit`. -/
def endOp (log : LogState) : Except Panic (LogState × Bool) :=
  let outstanding := log.outstanding - 1
  if log.committing then .error .logCommitting
  else if outstanding = 0 then
    .ok ({ log with outstanding := outstanding, committing := true }, true)
  else .ok ({ log with outstanding := outstanding }, false)

/-- The second critical section of `end_op`, after `commit` returned. -/
def endCommit (log : LogState) : LogState := { log with committing := false }

theorem beginOp_eq_some {log log' : LogState} (h : beginOp log = some log') :
    log.committing = false ∧
    (log.lh.length : Int) + (log.outstanding + 1) * maxOpBlocks ≤ logBlocks ∧
    log' = { log with outstanding := log.outstanding + 1 } := by
  unfold beginOp at h
  split at h
  · cases h
  · rename_i hcommitting
    split at h
    · cases h
    · rename_i hroom
      cases h
      exact ⟨by simpa using hcommitting, by omega, rfl⟩

theorem logWrite_eq_ok {log : LogState} (hroom : log.lh.length < logBlocks)
    (hopen : 1 ≤ log.outstanding) (blockno : Nat) :
    logWrite log blockno = .ok { log with lh := absorb log.lh blockno } := by
  unfold logWrite
  rw [if_neg (by omega), if_neg (by omega)]

theorem logWrite_ok {log log' : LogState} {blockno : Nat} (h : logWrite log blockno = .ok log') :
    log.lh.length < logBlocks ∧ log' = { log with lh := absorb log.lh blockno } := by
  unfold logWrite at h
  split at h
  · cases h
  · rename_i hroom
    split at h
    · cases h
    · cases h
      exact ⟨by omega, rfl⟩

theorem endOp_last {log : LogState} (hidle : log.committing = false)
    (hlast : log.outstanding = 1) :
    endOp log = .ok ({ log with outstanding := 0, committing := true }, true) := by
  simp [endOp, hidle, hlast]

theorem endOp_more {log : LogState} (hidle : log.committing = false)
    (hmore : log.outstanding ≠ 1) :
    endOp log = .ok ({ log with outstanding := log.outstanding - 1 }, false) := by
  have hne : log.outstanding - 1 ≠ 0 := by omega
  simp [endOp, hidle, hne]

inductive Role where
  | outside
  | inOp
  | committing
  deriving DecidableEq

def openCount : Role → Nat
  | .inOp => 1
  | _ => 0

def committingCount : Role → Nat
  | .committing => 1
  | _ => 0

variable {P : Type} [Fintype P]

structure Admitted (log : LogState) (role : P → Role) : Prop where
  outstanding : log.outstanding = total openCount role
  committing : total committingCount role = log.committing.toNat
  alone : log.committing = true → log.outstanding = 0

namespace Admitted

variable {log : LogState} {role : P → Role} (h : Admitted log role) {p q : P}
include h

theorem outstanding_pos (hp : role p = .inOp) : 1 ≤ log.outstanding := by
  have hle := le_total openCount role p
  rw [hp, openCount] at hle
  rw [h.outstanding]
  omega

theorem not_committing (hp : role p = .inOp) : log.committing = false := by
  have hpos := h.outstanding_pos hp
  by_contra hcommitting
  have := h.alone (by simpa using hcommitting)
  omega

theorem committing_of_role (hp : role p = .committing) : log.committing = true := by
  have hle := le_total committingCount role p
  rw [hp, committingCount, h.committing] at hle
  cases hc : log.committing
  · simp [hc] at hle
  · rfl

theorem ne_inOp (hp : role p = .committing) : role q ≠ .inOp := by
  intro hq
  have := h.not_committing hq
  rw [h.committing_of_role hp] at this
  cases this

theorem committing_unique [DecidableEq P] (hp : role p = .committing)
    (hq : role q = .committing) : p = q := by
  by_contra hne
  have hset := total_update committingCount role p .outside
  have hle := le_total committingCount (Function.update role p .outside) q
  have htotal : total committingCount role ≤ 1 := h.committing ▸ Bool.toNat_le _
  rw [Function.update_of_ne (Ne.symm hne), hq] at hle
  simp only [hp, committingCount] at hset hle
  omega

variable [DecidableEq P]

theorem ne_inOp_of_last (hp : role p = .inOp) (hlast : log.outstanding = 1) (hq : q ≠ p) :
    role q ≠ .inOp := by
  intro hopen
  have hset := total_update openCount role p .outside
  have hle := le_total openCount (Function.update role p .outside) q
  have hout := h.outstanding
  rw [Function.update_of_ne hq, hopen] at hle
  simp only [hp, openCount] at hset hle
  omega

theorem set_same {role' : Role} (hrole : role p = role') {log' : LogState}
    (hout : log'.outstanding = log.outstanding) (hcomm : log'.committing = log.committing) :
    Admitted log' (Function.update role p role') := by
  rw [← hrole, Function.update_eq_self]
  exact ⟨by rw [hout, h.outstanding], by rw [hcomm, h.committing],
    by rw [hout, hcomm]; exact h.alone⟩

theorem beginOp (hp : role p = .outside) (hidle : log.committing = false) :
    Admitted { log with outstanding := log.outstanding + 1 } (Function.update role p .inOp) := by
  have hopen := total_update openCount role p .inOp
  have hbusy := total_update committingCount role p .inOp
  have hout := h.outstanding
  have hcomm := h.committing
  simp only [hp, openCount, committingCount] at hopen hbusy
  refine ⟨?_, ?_, ?_⟩
  · dsimp only
    omega
  · dsimp only
    omega
  · intro hcommitting
    simp [hidle] at hcommitting

theorem endOp_last (hp : role p = .inOp) (hlast : log.outstanding = 1) :
    Admitted { log with outstanding := 0, committing := true }
      (Function.update role p .committing) := by
  have hopen := total_update openCount role p .committing
  have hbusy := total_update committingCount role p .committing
  have hout := h.outstanding
  have hcomm := h.committing
  rw [h.not_committing hp, Bool.toNat_false] at hcomm
  simp only [hp, openCount, committingCount] at hopen hbusy
  refine ⟨?_, ?_, fun _ => rfl⟩
  · dsimp only
    omega
  · simp only [Bool.toNat_true]
    omega

theorem endOp_more (hp : role p = .inOp) :
    Admitted { log with outstanding := log.outstanding - 1 } (Function.update role p .outside) := by
  have hopen := total_update openCount role p .outside
  have hbusy := total_update committingCount role p .outside
  have hout := h.outstanding
  have hcomm := h.committing
  have hidle := h.not_committing hp
  simp only [hp, openCount, committingCount] at hopen hbusy
  refine ⟨?_, ?_, ?_⟩
  · dsimp only
    omega
  · dsimp only
    omega
  · intro hcommitting
    simp [hidle] at hcommitting

theorem endCommit (hp : role p = .committing) :
    Admitted (Log.endCommit log) (Function.update role p .outside) := by
  have hopen := total_update openCount role p .outside
  have hbusy := total_update committingCount role p .outside
  have hout := h.outstanding
  have hcomm : total committingCount role ≤ 1 := h.committing ▸ Bool.toNat_le _
  simp only [hp, openCount, committingCount] at hopen hbusy
  refine ⟨?_, ?_, ?_⟩
  · simp only [Log.endCommit]
    omega
  · simp only [Log.endCommit, Bool.toNat_false]
    omega
  · intro hcommitting
    simp [Log.endCommit] at hcommitting

end Admitted

theorem admitted_initial : Admitted (⟨0, false, []⟩ : LogState) (fun _ : P => .outside) := by
  constructor <;> simp [total, openCount, committingCount]

end Xv6.Log
