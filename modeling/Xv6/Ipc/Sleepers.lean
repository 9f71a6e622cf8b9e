import Xv6.Ipc.Fifo

/-! Who sleeps on a pipe. `piperead` and `pipeclose` keep the rules for waiting;
`pipewrite` breaks them on the one way out that skips `wakeup(&pi->nread)`. -/
namespace Xv6.Ipc

open Lib Sched Sched.Monitor

def Pipe.readable (d : Pipe) : Prop := d.empty = false ∨ d.writeopen = false

def Pipe.writable (d : Pipe) : Prop := d.full = false ∨ d.readopen = false

def PipeLocal.owesReaders : PipeLocal → Prop
  | .write _ _ fresh _ | .room _ _ fresh _ | .giveUp fresh _ => fresh = true
  | .closing writable => writable = true
  | _ => False

def PipeLocal.owesWriters : PipeLocal → Prop
  | .copy _ _ moved | .copyout _ _ _ moved | .copied _ moved => 0 < moved
  | .closing writable => writable = false
  | _ => False

/-- `pipewrite` does not return -1 with a byte appended since it last woke the readers. -/
def NoForgottenByte : PipeLocal → Pipe → Copy → Prop
  | .write n i fresh _, d, _ => fresh = true → ¬(i < n ∧ d.readopen = false)
  | .giveUp fresh _, _, _ => fresh = false
  | _, _, _ => True

instance (l : PipeLocal) (d : Pipe) (x : Copy) : Decidable (NoForgottenByte l d x) :=
  match l with
  | .write n i fresh _ => inferInstanceAs (Decidable (fresh = true → ¬(i < n ∧ _)))
  | .giveUp fresh _ => inferInstanceAs (Decidable (fresh = false))
  | .room _ _ _ _ | .writeSleep _ _ _ | .read _ | .readKilled | .readSleep _ | .copy _ _ _
  | .copyout _ _ _ _ | .copied _ _ | .close _ | .closing _ | .returning _ _ | .returned _ _ =>
      .isTrue trivial

theorem chans_ne (pi : Nat) : nwriteChan pi ≠ nreadChan pi := by
  simp [nreadChan, nwriteChan]

theorem readers_disciplined (pi : Nat) : Disciplined (pipe pi) NoForgottenByte PipeLocal.note
    (fun _ => Pipe.readable) (nreadChan pi) PipeLocal.owesReaders where
  step := by
    intro l d x d' l' _ hnote hnext howes
    cases pipe_move hnext with
    | append | closeWrite => rfl
    | consume =>
      rcases howes with h | ⟨_, -, h⟩
      · exact h.elim
      · exact absurd (.inl hnote.2.1) h
    | closeRead =>
      rcases howes with h | ⟨_, h, h'⟩
      · exact h.elim
      · exact absurd h h'
    | readStart | copy | copyEnd | copyoutFail =>
      rcases howes with h | ⟨_, h, h'⟩
      · exact h
      · exact absurd h h'
  killed := by
    intro l d x l' _ _ hnext howes b
    cases pipe_move hnext with
    | testWriter => cases b <;> exact howes
    | testReader => exact howes.elim
  wakeup := by
    intro l d x chan l' _ _ hnext hchan howes
    cases pipe_move hnext with
    | writeEnd | full | copyinFail | closingWrite => exact absurd rfl hchan
    | copied => exact howes
    | closingRead => cases howes
  sleep := by
    intro l d x chan l' _ hnote hnext
    cases pipe_move hnext with
    | writeSleep => exact ⟨id, fun h => absurd h (chans_ne pi)⟩
    | readSleep => exact ⟨id, fun _ h => by simp_all [Pipe.readable, PipeLocal.note]⟩
  release := by
    intro l d x l' hok _ hnext howes
    cases pipe_move hnext with
    | noReader hi hreader => exact hok howes ⟨hi, hreader⟩
    | giveUp => simp_all [NoForgottenByte, PipeLocal.owesReaders]
    | readKilled | returning | returned => exact howes

theorem writers_disciplined (pi : Nat) : Disciplined (pipe pi) NoForgottenByte PipeLocal.note
    (fun _ => Pipe.writable) (nwriteChan pi) PipeLocal.owesWriters where
  step := by
    intro l d x d' l' _ hnote hnext howes
    cases pipe_move hnext with
    | append hfull =>
      rcases howes with h | ⟨_, -, h⟩
      · exact h.elim
      · exact absurd (.inl hfull) h
    | consume => exact Nat.succ_pos _
    | closeRead => rfl
    | closeWrite =>
      rcases howes with h | ⟨_, h, h'⟩
      · exact h.elim
      · exact absurd h h'
    | readStart =>
      rcases howes with h | ⟨_, h, h'⟩
      · exact h.elim
      · exact absurd h h'
    | copy | copyEnd | copyoutFail =>
      rcases howes with h | ⟨_, h, h'⟩
      · exact h
      · exact absurd h h'
  killed := by
    intro l d x l' _ _ hnext howes b
    cases pipe_move hnext <;> exact howes.elim
  wakeup := by
    intro l d x chan l' _ _ hnext hchan howes
    cases pipe_move hnext with
    | copied | closingRead => exact absurd rfl hchan
    | writeEnd | full | copyinFail => exact howes
    | closingWrite => cases howes
  sleep := by
    intro l d x chan l' _ hnote hnext
    cases pipe_move hnext with
    | readSleep => exact ⟨id, fun h => absurd h.symm (chans_ne pi)⟩
    | writeSleep => exact ⟨id, fun _ h => by simp_all [Pipe.writable, PipeLocal.note]⟩
  release := by
    intro l d x l' _ _ hnext howes
    cases pipe_move hnext <;> exact howes

variable {K : Type} [DecidableEq K] [Fintype K] {pi : Nat} {s : State Pipe PipeLocal K}

/-- While `pi->lock` is free, whoever sleeps on the pipe has reason to, provided no
`pipewrite` gave up on bytes that it had not announced. -/
theorem pipe_sleepers (h : (system (pipe pi) K).Reach (Permits NoForgottenByte) (.ok s))
    (hfree : s.lk = none) (p : Slot) (hsleep : (s.proc p).state = .sleeping) :
    ((s.proc p).chan = nreadChan pi → s.data.nread = s.data.nwrite ∧ s.data.writeopen = true) ∧
    ((s.proc p).chan = nwriteChan pi →
      s.data.nwrite = s.data.nread + UInt32.ofNat pipesize ∧ s.data.readopen = true) := by
  have houtline : Outline (pipe pi) NoForgottenByte Fifo PipeLocal.note :=
    (pipe_outline pi).mono fun _ => trivial
  refine ⟨fun hchan => ?_, fun hchan => ?_⟩
  · obtain ⟨_, _, -, hnot⟩ := (readers_disciplined pi).reach houtline (by simp [pipe]) h hfree
      hsleep hchan
    simpa [Pipe.readable, Pipe.empty] using hnot
  · obtain ⟨_, _, -, hnot⟩ := (writers_disciplined pi).reach houtline (by simp [pipe]) h hfree
      hsleep hchan
    simpa [Pipe.writable, Pipe.full] using hnot

section Sample

/-- Slot 1 sleeps on the empty pipe. Slot 2 appends the first of two bytes, is killed,
and gives up. -/
def forgetByte : List (Action PipeLocal Copy Empty) :=
  [.enter 1 (.read 1), .acquire (.inl 1), .run (.inl 1) ⟨true, 0⟩, .run (.inl 1) ⟨true, 0⟩,
    .sleep 1, .sleep 1, .sleep 1, .sleep 1, .sleep 1,
    .enter 2 (.write 2 0 false 0), .acquire (.inl 2), .run (.inl 2) ⟨true, 0⟩,
    .run (.inl 2) ⟨true, 65⟩, .kkill 2 3, .run (.inl 2) ⟨true, 0⟩, .run (.inl 2) ⟨true, 0⟩]

theorem forgetByte_observed : (system (pipe 0) Empty).observed (fun _ _ => True)
    (fun s => (s.lk.isNone, (s.proc 1).state, (s.proc 1).chan, s.data.nread, s.data.nwrite))
      quietPipe forgetByte = some (true, .sleeping, nreadChan 0, 0, 1) := by
  decide +kernel

/-- Slot 1 sleeps on the empty pipe and slot 2 writes a byte; slot 1 takes it, and sleeps on the
next call. -/
def readTwice : List (Action PipeLocal Copy Empty) :=
  forgetByte.take 9 ++
  [.enter 2 (.write 1 0 false 0), .acquire (.inl 2), .run (.inl 2) ⟨true, 0⟩,
    .run (.inl 2) ⟨true, 65⟩, .run (.inl 2) ⟨true, 0⟩] ++ List.replicate 191 (.wake (.inl 2)) ++
  [.run (.inl 2) ⟨true, 0⟩, .dispatch 1, .sleep 1, .sleep 1, .acquire (.inl 1)] ++
  List.replicate 5 (.run (.inl 1) ⟨true, 0⟩) ++ List.replicate 191 (.wake (.inl 1)) ++
  [.run (.inl 1) ⟨true, 0⟩] ++ forgetByte.take 9

theorem readTwice_observed : (system (pipe 0) Empty).observed (Permits NoForgottenByte)
    (fun s => (s.lk.isNone, (s.proc 1).state, (s.proc 1).chan, s.data.consumed)) quietPipe
      readTwice = some (true, .sleeping, nreadChan 0, [65]) := by
  decide +kernel

end Sample

theorem pipe_sleepers_reader : ∃ s : State Pipe PipeLocal Empty,
    (system (pipe 0) Empty).Reach (Permits NoForgottenByte) (.ok s) ∧ s.lk = none ∧
    (s.proc 1).state = .sleeping ∧ (s.proc 1).chan = nreadChan 0 ∧ s.data.consumed = [65] ∧
    s.data.nread = s.data.nwrite ∧ s.data.writeopen = true := by
  obtain ⟨s, hreach, hobserved⟩ := System.Reach.of_observed (quietPipe_reach 0 _)
    readTwice_observed
  simp only [Prod.mk.injEq, Option.isNone_iff_eq_none] at hobserved
  obtain ⟨hfree, hstate, hchan, hread⟩ := hobserved
  exact ⟨s, hreach, hfree, hstate, hchan, hread, (pipe_sleepers hreach hfree 1 hstate).1 hchan⟩

/-- A reader can sleep on a pipe that has a byte for it. -/
theorem pipe_reader_forgotten : ∃ s : State Pipe PipeLocal Empty,
    (system (pipe 0) Empty).Reachable (.ok s) ∧ s.lk = none ∧ (s.proc 1).state = .sleeping ∧
    (s.proc 1).chan = nreadChan 0 ∧ s.data.nread ≠ s.data.nwrite := by
  obtain ⟨s, hreach, hobserved⟩ := System.Reach.of_observed (quietPipe_reach 0 _)
    forgetByte_observed
  simp only [Prod.mk.injEq, Option.isNone_iff_eq_none] at hobserved
  obtain ⟨hfree, hstate, hchan, hread, hwrite⟩ := hobserved
  exact ⟨s, hreach, hfree, hstate, hchan, by rw [hread, hwrite]; decide⟩

end Xv6.Ipc
