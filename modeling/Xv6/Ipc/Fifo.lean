import Xv6.Ipc.Pipe
import Xv6.Lib.Ring

/-! A pipe is a loss-free FIFO. The counters run modulo 2^32 and the cells are
indexed modulo 512; since 512 divides 2^32, both follow the lengths of the
records of bytes appended and consumed. -/
namespace Xv6.Ipc

open Lib Sched Sched.Monitor

instance : NeZero pipesize := ⟨by decide⟩

structure Fifo (d : Pipe) : Prop where
  nread : d.nread.toNat = d.consumed.length % 2 ^ 32
  nwrite : d.nwrite.toNat = d.appended.length % 2 ^ 32
  taken : d.consumed <+: d.appended
  ring : Ring d.data d.appended d.consumed.length

theorem index_eq {i : UInt32} {n : Nat} (h : i.toNat = n % 2 ^ 32) :
    Pipe.index i = Fin.ofNat pipesize n := by
  apply Fin.ext
  show i.toNat % pipesize = n % pipesize
  rw [h]
  exact Nat.mod_mod_of_dvd n (by decide)

namespace Fifo

variable {d : Pipe}

theorem full_iff (h : Fifo d) :
    d.full = true ↔ d.appended.length = d.consumed.length + pipesize := by
  have hread := h.nread
  have hwrite := h.nwrite
  have hle := h.ring.le
  have hfits := h.ring.fits
  simp only [Pipe.full, beq_iff_eq, ← UInt32.toNat_inj, UInt32.toNat_add, pipesize] at *
  simp only [UInt32.toNat_ofNat', hread, hwrite]
  omega

theorem empty_iff (h : Fifo d) : d.empty = true ↔ d.consumed.length = d.appended.length := by
  have hread := h.nread
  have hwrite := h.nwrite
  have hle := h.ring.le
  have hfits := h.ring.fits
  simp only [Pipe.empty, beq_iff_eq, ← UInt32.toNat_inj, hread, hwrite, pipesize] at *
  omega

theorem append (h : Fifo d) (hfull : d.full = false) (ch : UInt8) : Fifo (d.append ch) where
  nread := h.nread
  nwrite := by
    have hwrite := h.nwrite
    simp only [Pipe.append, UInt32.toNat_add, hwrite, List.length_append, List.length_singleton,
      UInt32.toNat_one]
    omega
  taken := h.taken.trans (List.prefix_append _ _)
  ring := by
    have hroom : d.appended.length < d.consumed.length + pipesize := by
      have hne : ¬d.appended.length = d.consumed.length + pipesize := by
        simp [← h.full_iff, hfull]
      have := h.ring.fits
      omega
    simp only [Pipe.append, index_eq h.nwrite]
    exact h.ring.push hroom ch

theorem consume (h : Fifo d) (hempty : d.empty = false) :
    Fifo (d.consume (d.data (Pipe.index d.nread))) := by
  have hlt : d.consumed.length < d.appended.length := by
    have hne : ¬d.consumed.length = d.appended.length := by
      simp [← h.empty_iff, hempty]
    have := h.ring.le
    omega
  have hfront : d.data (Pipe.index d.nread) = d.appended[d.consumed.length] := by
    rw [index_eq h.nread]
    exact h.ring.front hlt
  refine ⟨?_, h.nwrite, ?_, ?_⟩
  · have hread := h.nread
    simp only [Pipe.consume, UInt32.toNat_add, hread, List.length_append, List.length_singleton,
      UInt32.toNat_one]
    omega
  · simp only [Pipe.consume, hfront]
    exact taken_next h.taken hlt
  · simp only [Pipe.consume, List.length_append, List.length_singleton]
    exact h.ring.pop hlt

theorem close (h : Fifo d) (readopen writeopen : Bool) :
    Fifo { d with readopen := readopen, writeopen := writeopen } :=
  ⟨h.nread, h.nwrite, h.taken, h.ring⟩

end Fifo

def PipeLocal.note : PipeLocal → Pipe → Prop
  | .write _ i _ moved, _ => i = moved
  | .room _ i _ moved, d => i = moved ∧ d.readopen = true
  | .writeSleep _ i moved, d => i = moved ∧ d.full = true ∧ d.readopen = true
  | .readSleep _, d => d.empty = true ∧ d.writeopen = true
  | .copy _ i moved, _ => i = moved
  | .copyout _ i ch moved, d => i = moved ∧ d.empty = false ∧ ch = d.data (Pipe.index d.nread)
  | .copied i moved, _ | .returning i moved, _ | .returned i moved, _ => 0 ≤ i → i = moved
  | _, _ => True

theorem pipe_outline (pi : Nat) :
    Outline (pipe pi) (fun _ _ _ => True) Fifo PipeLocal.note where
  start := by
    rintro d ⟨hread, hwrite, -, -, happended, hconsumed⟩
    refine ⟨?_, ?_, ?_, ?_, ?_, ?_⟩ <;> simp [hread, hwrite, happended, hconsumed]
  entry := by
    intro p l d hentry hI
    cases l <;> simp_all [pipe, PipeLocal.note]
  handler := by
    intro l d hhandler
    cases hhandler
  step := by
    intro l d x d' l' _ hI hnote hnext
    cases pipe_move hnext with
    | append hfull _ => exact ⟨hI.append hfull _, by simp_all [PipeLocal.note]⟩
    | consume _ =>
      obtain ⟨hi, hempty, rfl⟩ := hnote
      exact ⟨hI.consume hempty, by simp [PipeLocal.note, hi]⟩
    | copyoutFail _ =>
      refine ⟨hI, ?_⟩
      simp only [PipeLocal.note] at hnote ⊢
      split <;> omega
    | closeWrite => exact ⟨hI.close d.readopen false, trivial⟩
    | closeRead => exact ⟨hI.close false d.writeopen, trivial⟩
    | readStart | copy | copyEnd => simp_all [PipeLocal.note]
  killed := by
    intro l d x l' _ hI hnote hnext b
    cases pipe_move hnext <;> cases b <;> simp_all [PipeLocal.note]
  wakeup := by
    intro l d x chan l' _ hI hnote hnext
    cases pipe_move hnext <;> simp_all [PipeLocal.note]
  sleep := by
    intro l d x chan l' _ hI hnote hnext
    cases pipe_move hnext <;> simp_all [PipeLocal.note]
  release := by
    intro l d x l' _ hI hnote hnext
    cases pipe_move hnext <;> simp_all [PipeLocal.note]

section Run

variable {K : Type} [DecidableEq K] [Fintype K] {pi : Nat} {s : State Pipe PipeLocal K}

end Run

section Sample

def quietPipe : State Pipe PipeLocal Empty :=
  .quiet ⟨fun _ => 0, 0, 0, true, true, [], []⟩
    fun q => { Proc.empty with state := .running, pid := q + 1 }

theorem quietPipe_reach (pi : Nat)
    (allowed : State Pipe PipeLocal Empty → Action PipeLocal Copy Empty → Prop) :
    (system (pipe pi) Empty).Reach allowed (.ok quietPipe) :=
  .init (State.quiet_start _ ⟨rfl, rfl, rfl, rfl, rfl, rfl⟩ fun _ => nofun)

end Sample

end Xv6.Ipc
