import Xv6.Lib.System
import Mathlib.Data.List.Nodup

/-! `push_off` and `pop_off` (spinlock.c) under `sched` and `scheduler` (proc.c): `noff` and
`intena` belong to a CPU, while the nesting they count belongs to a kernel thread that may
go on on another CPU. Any number of CPUs, processes and spin locks; an interrupt may come
wherever interrupts are on, also between the first two statements of `push_off`. -/
namespace Xv6.Sched.Interrupts

open Lib

/-- `intr` is `SIE`; the rest is in `struct cpu`. -/
structure Cpu where
  intr : Bool
  noff : Int
  intena : Bool

inductive Frame (L : Type) where
  /-- In `push_off` after `old = intr_get()`, of `acquire(l)` if there is an `l`. -/
  | old (enabled : Bool) (l : Option L)
  /-- In `acquire(l)` after `push_off()`. -/
  | spin (l : L)
  /-- In a trap from kernel code that ran with interrupts on. -/
  | trap
  | sched (intena : Bool)
  deriving DecidableEq

/-- `held` has an entry for each `push_off` without its `pop_off`. No code reads `before`:
whether interrupts were on before the outermost of these. A scheduler is `lent` once it has
gone to a process that `p->lock` was acquired for. -/
structure Local (L : Type) where
  frames : List (Frame L)
  held : List (Option L)
  before : Bool
  lent : Bool

def Frame.idle {L : Type} : List (Frame L) → Bool
  | [] => true
  | .trap :: _ => true
  | _ => false

def Local.idle {L : Type} (x : Local L) : Bool := Frame.idle x.frames

inductive Place where
  | fresh
  | parked
  | running
  deriving DecidableEq

structure State (C T L : Type) where
  cpu : C → Cpu
  run : C → C ⊕ T
  loc : C ⊕ T → Local L
  place : T → Place
  lock : L → Option C

inductive Action (C T L : Type) where
  /-- `old = intr_get()` in `push_off`, of `acquire(l)` if there is an `l`. -/
  | pushOff (c : C) (l : Option L)
  /-- The rest of `push_off`: interrupts are off from here on. -/
  | off (c : C)
  /-- The rest of `acquire`. -/
  | take (c : C)
  /-- `pop_off`, of `release(l)` if there is an `l`. -/
  | popOff (c : C) (l : Option L)
  | intrOn (c : C)
  | intrOff (c : C)
  | trap (c : C)
  | sret (c : C)
  /-- `sched()` up to its `swtch`. -/
  | sched (c : C)
  /-- `swtch` in `scheduler()`. -/
  | swtch (c : C) (t : T)
  /-- `mycpu()->intena = intena` after the `swtch` in `sched()`. -/
  | restore (c : C)
  /-- The slot gets a new process. -/
  | alloc (t : T)

inductive Fault where
  | acquire
  | release
  | popInterruptible
  | popOff
  | schedLock
  | schedLocks
  | schedInterruptible
  deriving DecidableEq

variable {C T L : Type} [DecidableEq C] [DecidableEq T] [DecidableEq L]

namespace State

def here (s : State C T L) (c : C) : Local L := s.loc (s.run c)

def put (s : State C T L) (c : C) (cpu : Cpu) (x : Local L) : State C T L :=
  { s with cpu := Function.update s.cpu c cpu, loc := Function.update s.loc (s.run c) x }

def setLock (s : State C T L) (l : L) (holder : Option C) : State C T L :=
  { s with lock := Function.update s.lock l holder }

end State

def popOff (s : State C T L) (c : C) (l : Option L) : Except Fault (State C T L) :=
  let cpu := s.cpu c
  let x := s.here c
  if cpu.intr then .error .popInterruptible
  else if cpu.noff < 1 then .error .popOff
  else
    let noff := cpu.noff - 1
    .ok (s.put c { cpu with noff := noff, intr := decide (noff = 0) && cpu.intena }
      { x with held := x.held.erase l })

def exec (plock : T → L) (s : State C T L) : Action C T L → Except Fault (State C T L)
  | .pushOff c l =>
      let cpu := s.cpu c
      let x := s.here c
      .ok (s.put c cpu { x with frames := .old cpu.intr l :: x.frames })
  | .off c =>
      let cpu := s.cpu c
      let x := s.here c
      match x.frames with
      | .old enabled l :: rest =>
          .ok (s.put c
            { intr := false
              intena := if cpu.noff = 0 then enabled else cpu.intena
              noff := cpu.noff + 1 }
            { frames := match l with
                | none => rest
                | some l => .spin l :: rest
              held := l :: x.held
              before := if x.held = [] then enabled else x.before
              lent := if x.held = [] then false else x.lent })
      | _ => .ok s
  | .take c =>
      let x := s.here c
      match x.frames with
      | .spin l :: rest =>
          if s.lock l = some c then .error .acquire
          else .ok ((s.setLock l (some c)).put c (s.cpu c) { x with frames := rest })
      | _ => .ok s
  | .popOff c none => popOff s c none
  | .popOff c (some l) =>
      if s.lock l = some c then popOff (s.setLock l none) c (some l) else .error .release
  | .intrOn c => .ok (s.put c { s.cpu c with intr := true } (s.here c))
  | .intrOff c => .ok (s.put c { s.cpu c with intr := false } (s.here c))
  | .trap c =>
      let x := s.here c
      .ok (s.put c { s.cpu c with intr := false } { x with frames := .trap :: x.frames })
  | .sret c =>
      let x := s.here c
      .ok (s.put c { s.cpu c with intr := true } { x with frames := x.frames.tail })
  | .sched c =>
      match s.run c with
      | .inl _ => .ok s
      | .inr t =>
          let cpu := s.cpu c
          let x := s.here c
          if s.lock (plock t) ≠ some c then .error .schedLock
          else if cpu.noff ≠ 1 then .error .schedLocks
          else if cpu.intr then .error .schedInterruptible
          else
            let s := s.put c cpu { x with frames := .sched cpu.intena :: x.frames }
            .ok { s with
              run := Function.update s.run c (.inl c)
              place := Function.update s.place t .parked }
  | .swtch c t =>
      let x := s.here c
      let loc := Function.update s.loc (.inl c) { x with lent := true }
      .ok { s with
        run := Function.update s.run c (.inr t)
        place := Function.update s.place t .running
        loc := if s.place t = .fresh then
            -- `forkret` releases what the scheduler has acquired
            Function.update loc (.inr t) ⟨[], [some (plock t)], x.before, false⟩
          else loc }
  | .restore c =>
      let x := s.here c
      match x.frames with
      | .sched intena :: rest =>
          .ok (s.put c { s.cpu c with intena := intena } { x with frames := rest })
      | _ => .ok s
  | .alloc t => .ok { s with place := Function.update s.place t .fresh }

/-- What a thread may do: calls are nested properly, `sched()` is called with exactly
`p->lock` held, interrupts are turned on and off explicitly only outside of `push_off`. -/
def enabled (plock : T → L) (s : State C T L) : Action C T L → Prop
  | .pushOff c l => (s.here c).idle = true ∧ (l = none ∨ l ∉ (s.here c).held)
  | .off c => ∃ b l rest, (s.here c).frames = .old b l :: rest
  | .take c => ∃ l rest, (s.here c).frames = .spin l :: rest ∧
      (s.lock l = none ∨ s.lock l = some c)
  | .popOff c l => (s.here c).idle = true ∧ l ∈ (s.here c).held
  | .intrOn c => (s.here c).idle = true ∧ (s.here c).held = []
  | .intrOff c => (s.here c).idle = true ∧ (s.here c).held = []
  | .trap c => (s.cpu c).intr = true
  | .sret c => (s.here c).frames.head? = some .trap ∧ (s.here c).held = []
  | .sched c => (s.here c).idle = true ∧
      ∃ t, s.run c = .inr t ∧ (s.here c).held = [some (plock t)]
  | .swtch c t => s.run c = .inl c ∧ (s.here c).idle = true ∧
      (s.here c).held = [some (plock t)] ∧ (s.here c).lent = false ∧ s.place t ≠ .running
  | .restore c => ∃ b rest, (s.here c).frames = .sched b :: rest
  | .alloc t => s.place t ≠ .running

def init (s : State C T L) : Prop :=
  (∀ c, s.run c = .inl c ∧ (s.cpu c).intr = false ∧ (s.cpu c).noff = 0) ∧
  (∀ w, (s.loc w).frames = [] ∧ (s.loc w).held = []) ∧
  (∀ t, s.place t = .fresh) ∧ ∀ l, s.lock l = none

def system (plock : T → L) : System (State C T L) Fault (Action C T L) where
  init := init
  enabled := enabled plock
  exec := exec plock

section Invariant

def Nested : List (Frame L) → Prop
  | [] => True
  | .trap :: rest => (∀ b, rest.head? ≠ some (.sched b)) ∧ (∀ l, rest.head? ≠ some (.spin l)) ∧
      Nested rest
  | _ :: rest => Frame.idle rest = true ∧ Nested rest

structure Fits (cpu : Cpu) (x : Local L) : Prop where
  noff : cpu.noff = x.held.length
  off : x.held ≠ [] → cpu.intr = false
  kept : x.held ≠ [] → x.lent = false → (∀ b, x.frames.head? ≠ some (.sched b)) →
    cpu.intena = x.before
  pending : ∀ b, x.frames.head? = some (.sched b) → b = x.before ∧ x.held ≠ []
  spinning : ∀ l, x.frames.head? = some (.spin l) → some l ∈ x.held
  new : ∀ b l, x.frames.head? = some (.old b (some l)) → some l ∉ x.held
  once : ∀ l, x.held.count (some l) ≤ 1

def Owned (lock : L → Option C) (c : C) (x : Local L) : Prop :=
  ∀ l, lock l = some c ↔ some l ∈ x.held ∧ x.frames.head? ≠ some (.spin l)

structure Inv (plock : T → L) (s : State C T L) : Prop where
  own : ∀ c c', s.run c = .inl c' → c' = c
  once : ∀ c c' t, s.run c = .inr t → s.run c' = .inr t → c = c'
  running : ∀ c t, s.run c = .inr t → s.place t = .running ∧ (s.loc (.inr t)).lent = false
  fits : ∀ c, Fits (s.cpu c) (s.here c)
  owned : ∀ c, Owned s.lock c (s.here c)
  nested : ∀ w, Nested (s.loc w).frames
  lender : ∀ c t, s.run c = .inr t → (s.loc (.inl c)).held = [some (plock t)] ∧
    (s.loc (.inl c)).lent = true ∧ (s.loc (.inl c)).idle = true
  parked : ∀ t, s.place t = .parked → ∃ b rest,
    s.loc (.inr t) = ⟨.sched b :: rest, [some (plock t)], b, false⟩

variable {plock : T → L} {s : State C T L} {c : C}

omit [DecidableEq L] in
theorem idle_head {frames : List (Frame L)} (h : Frame.idle frames = true) :
    (∀ l, frames.head? ≠ some (.spin l)) ∧ (∀ b, frames.head? ≠ some (.sched b)) ∧
      ∀ b l, frames.head? ≠ some (.old b l) := by
  unfold Frame.idle at h
  split at h
  · simp
  · simp
  · cases h

omit [DecidableEq C] [DecidableEq T] in
theorem Inv.run_ne (h : Inv plock s) {c' : C} (hne : c' ≠ c) : s.run c' ≠ s.run c := by
  intro heq
  cases hrun : s.run c with
  | inl d =>
    rw [hrun] at heq
    exact hne ((h.own c' d heq).symm.trans (h.own c d hrun))
  | inr t =>
    rw [hrun] at heq
    exact hne (h.once c' c t heq hrun)

omit [DecidableEq T] in
theorem Inv.change (h : Inv plock s) {s' : State C T L}
    (hsame : ∀ c', c' ≠ c → s'.cpu c' = s.cpu c' ∧ s'.run c' = s.run c' ∧ s'.here c' = s.here c' ∧
      s'.loc (.inl c') = s.loc (.inl c') ∧ (∀ l, s'.lock l = some c' ↔ s.lock l = some c') ∧
      ∀ t, s.run c' = .inr t → s'.place t = .running ∧ s'.run c ≠ .inr t)
    (hown : ∀ c', s'.run c = .inl c' → c' = c) (hfits : Fits (s'.cpu c) (s'.here c))
    (howned : Owned s'.lock c (s'.here c)) (hnested : ∀ w, Nested (s'.loc w).frames)
    (hthread : ∀ t, s'.run c = .inr t → s'.place t = .running ∧ (s'.here c).lent = false ∧
      (s'.loc (.inl c)).held = [some (plock t)] ∧ (s'.loc (.inl c)).lent = true ∧
      (s'.loc (.inl c)).idle = true)
    (hparked : ∀ t, s'.place t = .parked → ∃ b rest,
      s'.loc (.inr t) = ⟨.sched b :: rest, [some (plock t)], b, false⟩) : Inv plock s' := by
  have hown' := h.own
  have honce := h.once
  have hrunning := h.running
  have hlender := h.lender
  unfold State.here at *
  refine ⟨?_, ?_, ?_, ?_, ?_, hnested, ?_, hparked⟩
  · grind
  · intro c₁ c₂ t h₁ h₂
    by_cases hc₁ : c₁ = c
    · grind
    · grind
  · intro c' t hrun
    by_cases hc : c' = c
    · grind
    · grind
  · intro c'
    by_cases hc : c' = c
    · rwa [hc]
    · rw [State.here, (hsame c' hc).1, (hsame c' hc).2.2.1]
      exact h.fits c'
  · intro c' l
    by_cases hc : c' = c
    · rw [hc]
      exact howned l
    · rw [State.here, (hsame c' hc).2.2.1, (hsame c' hc).2.2.2.2.1 l]
      exact h.owned c' l
  · intro c' t hrun
    by_cases hc : c' = c
    · grind
    · grind

theorem Inv.put (h : Inv plock s) {cpu : Cpu} {x : Local L} {lock : L → Option C}
    (hfits : Fits cpu x) (howned : Owned lock c x)
    (hnested : Nested x.frames) (hlent : (∃ t, s.run c = .inr t) → x.lent = false)
    (hothers : ∀ c' l, c' ≠ c → (lock l = some c' ↔ s.lock l = some c')) :
    Inv plock { s.put c cpu x with lock := lock } := by
  have hown := h.own
  have hrunning := h.running
  have hlender := h.lender
  have hparked := h.parked
  have hne : ∀ c', c' ≠ c → s.run c' ≠ s.run c := fun c' => h.run_ne
  have hnested' := h.nested
  apply h.change (c := c)
  all_goals simp only [State.here, State.put, Function.update_apply] at *
  · grind
  · grind
  · grind
  · grind
  · grind
  · grind
  · grind

omit [DecidableEq C] [DecidableEq T] in
theorem Inv.not_lent (h : Inv plock s) : (∃ t, s.run c = .inr t) → (s.here c).lent = false := by
  rintro ⟨t, ht⟩
  have hlent := (h.running c t ht).2
  rwa [← ht] at hlent

theorem Fits.of_idle {cpu : Cpu} {x : Local L} (hidle : Frame.idle x.frames = true)
    (hnoff : cpu.noff = x.held.length) (hoff : x.held ≠ [] → cpu.intr = false)
    (hkept : x.held ≠ [] → x.lent = false → cpu.intena = x.before)
    (honce : ∀ l, x.held.count (some l) ≤ 1) : Fits cpu x := by
  obtain ⟨hspin, hsched, hold⟩ := idle_head hidle
  exact ⟨hnoff, hoff, fun hheld hlent _ => hkept hheld hlent, fun b hb => absurd hb (hsched b),
    fun l hl => absurd hl (hspin l), fun b l hl => absurd hl (hold b (some l)), honce⟩

omit [DecidableEq C] [DecidableEq T] in
theorem Inv.owned_idle (h : Inv plock s) (hidle : (s.here c).idle = true) (l : L) :
    s.lock l = some c ↔ some l ∈ (s.here c).held := by
  rw [h.owned c l]
  exact and_iff_left ((idle_head hidle).1 l)

theorem Inv.pushOff (h : Inv plock s) {l : Option L} (hidle : (s.here c).idle = true)
    (hnew : l = none ∨ l ∉ (s.here c).held) :
    Inv plock (s.put c (s.cpu c)
      { s.here c with frames := .old (s.cpu c).intr l :: (s.here c).frames }) := by
  have hfits := h.fits c
  refine h.put ⟨hfits.noff, hfits.off, ?_, ?_, ?_, ?_, hfits.once⟩ ?_ ⟨hidle, h.nested _⟩
    h.not_lent fun _ _ _ => Iff.rfl
  · intro hheld hlent _
    exact hfits.kept hheld hlent (idle_head hidle).2.1
  · intro b hb
    cases hb
  · intro k hk
    cases hk
  · intro b k hk
    cases hk
    exact hnew.resolve_left (Option.some_ne_none k)
  · intro k
    rw [h.owned_idle hidle]
    exact (and_iff_left (by simp)).symm

theorem Inv.off (h : Inv plock s) {b : Bool} {l : Option L} {rest : List (Frame L)}
    (hframes : (s.here c).frames = .old b l :: rest) :
    ∃ s', exec plock s (.off c) = .ok s' ∧ Inv plock s' := by
  have hfits := h.fits c
  have hnested := h.nested (s.run c)
  rw [show (s.loc (s.run c)).frames = _ from hframes] at hnested
  obtain ⟨hidle, hbelow⟩ := hnested
  obtain ⟨hspin, hsched, hold⟩ := idle_head hidle
  have hkept : (s.here c).held ≠ [] → (s.here c).lent = false →
      (s.cpu c).intena = (s.here c).before :=
    fun hheld hlent => hfits.kept hheld hlent (by simp [hframes])
  have hzero : (s.cpu c).noff = 0 ↔ (s.here c).held = [] := by
    rw [hfits.noff, ← List.length_eq_zero_iff]
    exact Nat.cast_eq_zero
  rw [exec, hframes]
  refine ⟨_, rfl, h.put ⟨?_, fun _ => rfl, ?_, ?_, ?_, ?_, ?_⟩ ?_ ?_ ?_ fun _ _ _ => Iff.rfl⟩
  · rw [List.length_cons, hfits.noff]
    exact (Nat.cast_succ _).symm
  · intro _ hlent _
    dsimp only at hlent ⊢
    by_cases hempty : (s.here c).held = []
    · rw [if_pos (hzero.mpr hempty), if_pos hempty]
    · rw [if_neg hempty] at hlent
      rw [if_neg (fun h => hempty (hzero.mp h)), if_neg hempty]
      exact hkept hempty hlent
  · intro b' hb'
    cases l with
    | none => exact absurd hb' (hsched b')
    | some l => cases hb'
  · intro k hk
    cases l with
    | none => exact absurd hk (hspin k)
    | some l =>
      cases hk
      exact List.mem_cons_self
  · intro b' k hk
    cases l with
    | none => exact absurd hk (hold b' (some k))
    | some l => cases hk
  · intro k
    dsimp only
    rw [List.count_cons]
    by_cases hl : l = some k
    · have hnot := hfits.new b k (by rw [hframes, hl]; rfl)
      rw [List.count_eq_zero_of_not_mem hnot]
      split <;> omega
    · rw [if_neg (by simpa using hl)]
      exact hfits.once k
  · intro k
    rw [h.owned c k]
    dsimp only
    rw [List.mem_cons]
    cases l with
    | none => simp [hframes, hspin]
    | some l =>
      by_cases hkl : k = l
      · have hnot := hfits.new b k (by rw [hframes, hkl]; rfl)
        simp [hkl, hkl ▸ hnot]
      · simp [hframes, hkl, Ne.symm hkl]
  · cases l with
    | none => exact hbelow
    | some l => exact ⟨hidle, hbelow⟩
  · intro hthread
    dsimp only
    split
    · rfl
    · exact h.not_lent hthread

theorem Inv.take (h : Inv plock s) {l : L} {rest : List (Frame L)}
    (hframes : (s.here c).frames = .spin l :: rest) (hfree : s.lock l = none) :
    Inv plock ((s.setLock l (some c)).put c (s.cpu c) { s.here c with frames := rest }) := by
  have hfits := h.fits c
  have hnested := h.nested (s.run c)
  rw [show (s.loc (s.run c)).frames = _ from hframes] at hnested
  refine h.put (Fits.of_idle hnested.1 hfits.noff hfits.off ?_ hfits.once) ?_
    hnested.2 h.not_lent ?_
  · intro hheld hlent
    exact hfits.kept hheld hlent (by simp [hframes])
  · intro k
    show Function.update s.lock l (some c) k = some c ↔ _
    have hrest := (idle_head hnested.1).1 k
    by_cases hkl : k = l
    · rw [hkl, Function.update_self]
      exact iff_of_true rfl ⟨hfits.spinning l (by rw [hframes]; rfl), hkl ▸ hrest⟩
    · rw [Function.update_of_ne hkl, h.owned c k]
      refine and_congr_right fun _ => iff_of_true ?_ hrest
      rw [hframes]
      intro heq
      cases heq
      exact hkl rfl
  · intro c' k hc
    show Function.update s.lock l (some c) k = some c' ↔ _
    by_cases hkl : k = l
    · rw [hkl, Function.update_self, hfree]
      exact iff_of_false (fun heq => hc (Option.some.inj heq).symm) (by simp)
    · rw [Function.update_of_ne hkl]

theorem Inv.popOff (h : Inv plock s) {l : Option L} {lock : L → Option C}
    (hidle : (s.here c).idle = true) (hl : l ∈ (s.here c).held)
    (howned : ∀ k, lock k = some c ↔ some k ∈ (s.here c).held.erase l)
    (hothers : ∀ c' k, c' ≠ c → (lock k = some c' ↔ s.lock k = some c')) :
    ∃ s', Interrupts.popOff { s with lock := lock } c l = .ok s' ∧ Inv plock s' ∧
      (s'.loc (s.run c)).held = (s.here c).held.erase l ∧
      ((s.here c).held = [l] → (s'.cpu c).intr = (s.cpu c).intena) := by
  have hfits := h.fits c
  have hne : (s.here c).held ≠ [] := List.ne_nil_of_mem hl
  have hlength : ((s.here c).held.erase l).length + 1 = (s.here c).held.length := by
    rw [List.length_erase_of_mem hl]
    exact Nat.sub_add_cancel (List.length_pos_of_mem hl)
  have hnoff : (s.cpu c).noff - 1 = ((s.here c).held.erase l).length := by
    rw [hfits.noff]
    omega
  have hintr : ¬(s.cpu c).intr = true := by rw [hfits.off hne]; simp
  have hpos : ¬(s.cpu c).noff < 1 := by omega
  have hexec : Interrupts.popOff { s with lock := lock } c l = .ok { (s.put c
      { s.cpu c with noff := (s.cpu c).noff - 1,
                     intr := decide ((s.cpu c).noff - 1 = 0) && (s.cpu c).intena }
      { s.here c with held := (s.here c).held.erase l }) with lock := lock } := by
    show (if (s.cpu c).intr = true then _ else if (s.cpu c).noff < 1 then _ else _) = _
    rw [if_neg hintr, if_neg hpos]
    rfl
  refine ⟨_, hexec, h.put (Fits.of_idle hidle hnoff ?_ ?_ ?_) ?_ (h.nested _) h.not_lent hothers,
    ?_, ?_⟩
  · intro hheld
    have hnonzero : ¬(s.cpu c).noff - 1 = 0 := by
      rw [hnoff]
      exact_mod_cast fun hzero => hheld (List.length_eq_zero_iff.mp hzero)
    simp [hnonzero]
  · intro _ hlent
    exact hfits.kept hne hlent (idle_head hidle).2.1
  · intro k
    exact Nat.le_trans (List.erase_sublist.count_le _) (hfits.once k)
  · intro k
    rw [howned k]
    exact (and_iff_left ((idle_head hidle).1 k)).symm
  · show (Function.update s.loc (s.run c) _ (s.run c)).held = _
    rw [Function.update_self]
  · intro hsingle
    have hzero : (s.cpu c).noff - 1 = 0 := by
      rw [hnoff, hsingle]
      simp
    show (Function.update s.cpu c _ c).intr = _
    rw [Function.update_self]
    simp [hzero]

theorem Inv.intr (h : Inv plock s) (hidle : (s.here c).idle = true) (hheld : (s.here c).held = [])
    (on : Bool) : Inv plock (s.put c { s.cpu c with intr := on } (s.here c)) := by
  have hfits := h.fits c
  refine h.put (Fits.of_idle hidle hfits.noff ?_ ?_ hfits.once) (h.owned c) (h.nested _) h.not_lent
    fun _ _ _ => Iff.rfl
  · exact fun hne => absurd hheld hne
  · exact fun hne => absurd hheld hne

theorem Inv.trap (h : Inv plock s) (hon : (s.cpu c).intr = true) :
    Inv plock (s.put c { s.cpu c with intr := false }
      { s.here c with frames := .trap :: (s.here c).frames }) := by
  have hfits := h.fits c
  have hheld : (s.here c).held = [] := by
    by_contra hne
    rw [hfits.off hne] at hon
    cases hon
  have hsched : ∀ b, (s.here c).frames.head? ≠ some (.sched b) :=
    fun b hb => (hfits.pending b hb).2 hheld
  have hspin : ∀ l, (s.here c).frames.head? ≠ some (.spin l) :=
    fun l hl => List.ne_nil_of_mem (hfits.spinning l hl) hheld
  refine h.put (Fits.of_idle rfl hfits.noff ?_ ?_ hfits.once) ?_ ⟨hsched, hspin, h.nested _⟩
    h.not_lent fun _ _ _ => Iff.rfl
  · exact fun hne => absurd hheld hne
  · exact fun hne => absurd hheld hne
  · intro k
    rw [h.owned c k]
    exact and_congr_right fun _ => iff_of_true (hspin k) (by simp)

theorem Inv.sret (h : Inv plock s) {rest : List (Frame L)}
    (hframes : (s.here c).frames = .trap :: rest) (hheld : (s.here c).held = []) :
    Inv plock (s.put c { s.cpu c with intr := true } { s.here c with frames := rest }) := by
  have hfits := h.fits c
  have hnested := h.nested (s.run c)
  rw [show (s.loc (s.run c)).frames = _ from hframes] at hnested
  obtain ⟨hsched, hspin, hbelow⟩ := hnested
  refine h.put ⟨hfits.noff, ?_, ?_, ?_, ?_, ?_,
    hfits.once⟩ ?_ hbelow h.not_lent fun _ _ _ => Iff.rfl
  · exact fun hne => absurd hheld hne
  · exact fun hne => absurd hheld hne
  · exact fun b hb => absurd hb (hsched b)
  · exact fun l hl => absurd hl (hspin l)
  · intro b l _ hl
    rw [show (s.here c).held = [] from hheld] at hl
    cases hl
  · intro l
    rw [h.owned c l, hheld]
    simp

theorem Inv.restore (h : Inv plock s) {b : Bool} {rest : List (Frame L)}
    (hframes : (s.here c).frames = .sched b :: rest) :
    Inv plock (s.put c { s.cpu c with intena := b } { s.here c with frames := rest }) := by
  have hfits := h.fits c
  have hnested := h.nested (s.run c)
  rw [show (s.loc (s.run c)).frames = _ from hframes] at hnested
  refine h.put (Fits.of_idle hnested.1 hfits.noff hfits.off ?_ hfits.once) ?_ hnested.2 h.not_lent
    fun _ _ _ => Iff.rfl
  · exact fun _ _ => (hfits.pending b (by rw [hframes]; rfl)).1
  · intro k
    rw [h.owned c k]
    exact and_congr_right fun _ => iff_of_true (by simp [hframes]) ((idle_head hnested.1).1 k)

theorem count_one (a : Option L) (l : L) : [a].count (some l) ≤ 1 := by
  rw [List.count_singleton]
  split <;> omega

theorem Inv.sched (h : Inv plock s) {t : T} (hidle : (s.here c).idle = true)
    (hrun : s.run c = .inr t) (hheld : (s.here c).held = [some (plock t)]) :
    ∃ s', exec plock s (.sched c) = .ok s' ∧ Inv plock s' := by
  have hfits := h.fits c
  have hne : (s.here c).held ≠ [] := by simp [hheld]
  have hlocks : ∀ k, s.lock k = some c ↔ some k ∈ [some (plock t)] := by
    intro k
    rw [h.owned_idle hidle, hheld]
  have hlock : s.lock (plock t) = some c := (hlocks _).mpr (List.mem_singleton.mpr rfl)
  have hnoff : (s.cpu c).noff = 1 := by rw [hfits.noff, hheld]; rfl
  have hintr : ¬(s.cpu c).intr = true := by rw [hfits.off hne]; simp
  have hlent := h.not_lent ⟨t, hrun⟩
  have hintena : (s.cpu c).intena = (s.here c).before :=
    hfits.kept hne hlent (idle_head hidle).2.1
  have hhere : s.here c = s.loc (.inr t) := congrArg s.loc hrun
  rw [exec, hrun]
  dsimp only
  rw [if_neg (not_not.mpr hlock), if_neg (not_not.mpr hnoff), if_neg hintr]
  refine ⟨_, rfl, ?_⟩
  obtain ⟨hlender, hlenderLent, hlenderIdle⟩ := h.lender c t hrun
  have hne' : ∀ c', c' ≠ c → s.run c' ≠ .inr t := fun c' hc => hrun ▸ h.run_ne hc
  have hrunning := h.running
  apply h.change (c := c)
  all_goals simp only [State.here, State.put, hrun, Function.update_self]
  · intro c' hc
    rw [Function.update_of_ne hc, Function.update_of_ne hc, Function.update_of_ne (hne' c' hc),
      Function.update_of_ne Sum.inl_ne_inr]
    refine ⟨rfl, rfl, rfl, rfl, fun _ => trivial, fun t' ht' => ⟨?_, Sum.inl_ne_inr⟩⟩
    rw [Function.update_of_ne (by grind)]
    exact (hrunning c' t' ht').1
  · exact fun c' hc => (Sum.inl.inj hc).symm
  · rw [Function.update_of_ne Sum.inl_ne_inr]
    refine Fits.of_idle hlenderIdle ?_ (fun _ => by simpa using hintr) ?_ ?_
    · rw [hnoff, hlender]
      rfl
    · intro _ hnot
      rw [hlenderLent] at hnot
      cases hnot
    · rw [hlender]
      exact count_one _
  · rw [Function.update_of_ne Sum.inl_ne_inr]
    intro k
    rw [hlocks k, hlender]
    exact (and_iff_left ((idle_head hlenderIdle).1 k)).symm
  · intro w
    by_cases hw : w = .inr t
    · rw [hw, Function.update_self]
      exact ⟨hhere ▸ hidle, h.nested _⟩
    · rw [Function.update_of_ne hw]
      exact h.nested w
  · exact fun t' ht' => absurd ht' Sum.inl_ne_inr
  · intro t' hplace
    by_cases ht : t' = t
    · rw [ht, Function.update_self, ← hhere, hheld, hlent, ← hintena]
      exact ⟨_, _, rfl⟩
    · rw [Function.update_of_ne (fun heq => ht (Sum.inr.inj heq))]
      exact h.parked t' ((Function.update_of_ne ht ..).symm.trans hplace)

theorem Inv.swtch (h : Inv plock s) {t : T} (hrun : s.run c = .inl c)
    (hidle : (s.here c).idle = true) (hheld : (s.here c).held = [some (plock t)])
    (hlent : (s.here c).lent = false) (hplace : s.place t ≠ .running) :
    ∃ s', exec plock s (.swtch c t) = .ok s' ∧ Inv plock s' := by
  have hfits := h.fits c
  have hne : (s.here c).held ≠ [] := by simp [hheld]
  have hhere : s.here c = s.loc (.inl c) := congrArg s.loc hrun
  have hlocks : ∀ k, s.lock k = some c ↔ some k ∈ [some (plock t)] := by
    intro k
    rw [h.owned_idle hidle, hheld]
  have hlock : s.lock (plock t) = some c := (hlocks _).mpr (List.mem_singleton.mpr rfl)
  have hnoff : (s.cpu c).noff = 1 := by rw [hfits.noff, hheld]; rfl
  have hintr : (s.cpu c).intr = false := hfits.off hne
  have hintena := hfits.kept hne hlent (idle_head hidle).2.1
  generalize hx : ({ s.here c with lent := true } : Local L) = x
  -- the thread of `t` after the switch
  obtain ⟨y, loc, hloc, hy, hyheld, hylent, hyspin, hynested, hyfits⟩ : ∃ y loc,
      (if s.place t = .fresh then
        Function.update (Function.update s.loc (.inl c) x) (.inr t)
          ⟨[], [some (plock t)], (s.here c).before, false⟩
        else Function.update s.loc (.inl c) x) = loc ∧
      loc = Function.update (Function.update s.loc (.inl c) x) (.inr t) y ∧
      y.held = [some (plock t)] ∧ y.lent = false ∧ (∀ k, y.frames.head? ≠ some (.spin k)) ∧
      Nested y.frames ∧ Fits (s.cpu c) y := by
    cases hcase : s.place t with
    | running => exact absurd hcase hplace
    | fresh =>
      refine ⟨_, _, if_pos rfl, rfl, rfl, rfl, by simp, trivial, Fits.of_idle rfl hnoff
        (fun _ => hintr)
        (fun _ _ => hintena) (count_one _)⟩
    | parked =>
      obtain ⟨b, rest, hparked⟩ := h.parked t hcase
      refine ⟨s.loc (.inr t), _, if_neg (by simp), ?_, ?_, ?_, ?_, h.nested _, ?_⟩
      · funext w
        by_cases hw : w = .inr t
        · rw [hw, Function.update_self, Function.update_of_ne Sum.inr_ne_inl]
        · rw [Function.update_of_ne hw]
      · rw [hparked]
      · rw [hparked]
      · simp [hparked]
      · rw [hparked]
        refine ⟨hnoff, fun _ => hintr, ?_, ?_, ?_, ?_, count_one _⟩
        · exact fun _ _ hno => absurd rfl (hno b)
        · intro b' hb'
          cases hb'
          exact ⟨rfl, List.cons_ne_nil _ _⟩
        · intro l hl
          cases hl
        · intro b' l hl
          cases hl
  have hrunning : ∀ c' t', s.run c' = .inr t' → t' ≠ t := by
    rintro c' t' hrun' rfl
    exact hplace (h.running c' t' hrun').1
  have hown := h.own
  have hplaced := h.running
  rw [exec, hx, hloc]
  refine ⟨_, rfl, ?_⟩
  apply h.change (c := c)
  all_goals simp only [State.here, Function.update_self]
  · intro c' hc
    rw [Function.update_of_ne hc, hy]
    grind
  · exact fun c' hc => absurd hc Sum.inr_ne_inl
  · rwa [hy, Function.update_self]
  · rw [hy, Function.update_self]
    intro k
    rw [hlocks k, hyheld]
    exact (and_iff_left (hyspin k)).symm
  · intro w
    have hnested := h.nested
    rw [hy]
    grind
  · intro t' ht'
    cases ht'
    have hlender : loc (.inl c) = x := by
      rw [hy, Function.update_of_ne Sum.inl_ne_inr, Function.update_self]
    rw [hlender, hy, Function.update_self, Function.update_self, ← hx]
    exact ⟨rfl, hylent, hheld, rfl, hidle⟩
  · intro t' hplace'
    have ht : t' ≠ t := by
      rintro rfl
      cases (Function.update_self ..).symm.trans hplace'
    rw [hy, Function.update_of_ne (fun heq => ht (Sum.inr.inj heq)),
      Function.update_of_ne Sum.inr_ne_inl]
    exact h.parked t' ((Function.update_of_ne ht ..).symm.trans hplace')

omit [DecidableEq C] in
theorem Inv.alloc (h : Inv plock s) {t : T} (hplace : s.place t ≠ .running) :
    Inv plock { s with place := Function.update s.place t .fresh } := by
  refine ⟨h.own, h.once, ?_, h.fits, h.owned, h.nested, h.lender, ?_⟩
  · intro c t' hrun
    obtain ⟨hrunning, hlent⟩ := h.running c t' hrun
    have ht : t' ≠ t := by
      rintro rfl
      exact hplace hrunning
    exact ⟨(Function.update_of_ne ht ..).trans hrunning, hlent⟩
  · intro t' hparked
    have ht : t' ≠ t := by
      rintro rfl
      cases (Function.update_self ..).symm.trans hparked
    exact h.parked t' ((Function.update_of_ne ht ..).symm.trans hparked)

theorem Inv.release (h : Inv plock s) {l : Option L} (hidle : (s.here c).idle = true)
    (hl : l ∈ (s.here c).held) : ∃ s', exec plock s (.popOff c l) = .ok s' ∧ Inv plock s' ∧
      (s'.loc (s.run c)).held = (s.here c).held.erase l ∧
      ((s.here c).held = [l] → (s'.cpu c).intr = (s.cpu c).intena) := by
  cases l with
  | none =>
    refine h.popOff hidle hl (fun k => ?_) fun _ _ _ => Iff.rfl
    rw [h.owned_idle hidle]
    exact (List.mem_erase_of_ne (Option.some_ne_none k)).symm
  | some l =>
    have hlock := (h.owned_idle hidle l).mpr hl
    rw [exec, if_pos hlock]
    refine h.popOff hidle hl (fun k => ?_) fun c' k hc => ?_
    · show Function.update s.lock l none k = some c ↔ _
      by_cases hkl : k = l
      · -- the lock was held once, so it is not among the others
        rw [hkl, Function.update_self]
        refine iff_of_false (by simp) fun hagain => ?_
        have honce := (h.fits c).once l
        have hcount := List.count_erase_self (a := some l) (l := (s.here c).held)
        have hpos := List.count_pos_iff.mpr hagain
        omega
      · rw [Function.update_of_ne hkl, h.owned_idle hidle]
        exact (List.mem_erase_of_ne fun heq => hkl (Option.some.inj heq)).symm
    · show Function.update s.lock l none k = some c' ↔ _
      by_cases hkl : k = l
      · rw [hkl, Function.update_self, hlock]
        exact iff_of_false (by simp) fun heq => hc (Option.some.inj heq).symm
      · rw [Function.update_of_ne hkl]

theorem Inv.step (h : Inv plock s) {a : Action C T L} (ha : enabled plock s a) :
    ∃ s', exec plock s a = .ok s' ∧ Inv plock s' := by
  cases a with
  | pushOff c l => exact ⟨_, rfl, h.pushOff ha.1 ha.2⟩
  | off c =>
    obtain ⟨b, l, rest, hframes⟩ := ha
    exact h.off hframes
  | take c =>
    obtain ⟨l, rest, hframes, hfree⟩ := ha
    have hnot : ¬s.lock l = some c := fun hlock => ((h.owned c l).mp hlock).2 (by rw [hframes]; rfl)
    rw [exec, hframes]
    dsimp only
    rw [if_neg hnot]
    exact ⟨_, rfl, h.take hframes (hfree.resolve_right hnot)⟩
  | popOff c l =>
    obtain ⟨s', hexec, hinv, -⟩ := h.release ha.1 ha.2
    exact ⟨s', hexec, hinv⟩
  | intrOn c => exact ⟨_, rfl, h.intr ha.1 ha.2 true⟩
  | intrOff c => exact ⟨_, rfl, h.intr ha.1 ha.2 false⟩
  | trap c => exact ⟨_, rfl, h.trap ha⟩
  | sret c =>
    obtain ⟨rest, hframes⟩ := List.head?_eq_some_iff.mp ha.1
    refine ⟨_, rfl, ?_⟩
    rw [hframes]
    exact h.sret hframes ha.2
  | sched c =>
    obtain ⟨hidle, t, hrun, hheld⟩ := ha
    exact h.sched hidle hrun hheld
  | swtch c t =>
    obtain ⟨hrun, hidle, hheld, hlent, hplace⟩ := ha
    exact h.swtch hrun hidle hheld hlent hplace
  | restore c =>
    obtain ⟨b, rest, hframes⟩ := ha
    rw [exec, hframes]
    exact ⟨_, rfl, h.restore hframes⟩
  | alloc t => exact ⟨_, rfl, h.alloc ha⟩

omit [DecidableEq C] [DecidableEq T] in
theorem inv_init (h : init s) : Inv plock s := by
  obtain ⟨hcpu, hloc, hplace, hlock⟩ := h
  have hhere : ∀ c, s.here c = s.loc (.inl c) := fun c => congrArg s.loc (hcpu c).1
  have hno : ∀ c t, s.run c ≠ .inr t := fun c t heq => by cases (hcpu c).1.symm.trans heq
  refine ⟨fun c c' hrun => ?_, fun c _ t hrun => absurd hrun (hno c t),
    fun c t hrun => absurd hrun (hno c t), fun c => ?_, fun c l => ?_, fun w => ?_,
    fun c t hrun => absurd hrun (hno c t), fun t ht => ?_⟩
  · exact Sum.inl.inj (hrun.symm.trans (hcpu c).1)
  · rw [hhere]
    obtain ⟨hframes, hheld⟩ := hloc (.inl c)
    refine Fits.of_idle (by rw [hframes]; rfl) ?_ ?_ ?_ ?_
    · rw [(hcpu c).2.2, hheld]
      rfl
    · exact fun hne => absurd hheld hne
    · exact fun hne => absurd hheld hne
    · intro l
      rw [hheld]
      exact Nat.zero_le _
  · rw [hhere, hlock, (hloc _).2]
    simp
  · rw [(hloc w).1]
    trivial
  · rw [hplace] at ht
    cases ht

end Invariant

section Before

variable {plock : T → L} {s s' : State C T L} {c : C} {t : T}

/-- The thread begins an outermost `push_off`, whose `old` is the flag; or it is new, and
goes on with what the scheduler has begun. -/
def Begins (s : State C T L) (a : Action C T L) (t : T) (before : Bool) : Prop :=
  (∃ c l rest, a = .off c ∧ s.run c = .inr t ∧ (s.here c).held = [] ∧
    (s.here c).frames = .old before l :: rest) ∨
  ∃ c, a = .swtch c t ∧ s.place t = .fresh ∧ (s.here c).before = before

omit [DecidableEq L] in
theorem loc_put (cpu : Cpu) (x : Local L) : (s.put c cpu x).loc (s.run c) = x :=
  Function.update_self ..

omit [DecidableEq L] in
theorem before_put (cpu : Cpu) {x : Local L} (hx : x.before = (s.here c).before) (w : C ⊕ T) :
    ((s.put c cpu x).loc w).before = (s.loc w).before := by
  show (Function.update s.loc (s.run c) x w).before = _
  by_cases hw : w = s.run c
  · rw [hw, Function.update_self]
    exact hx
  · rw [Function.update_of_ne hw]

theorem before_popOff {l : Option L} (hexec : popOff s c l = .ok s') (w : C ⊕ T) :
    (s'.loc w).before = (s.loc w).before := by
  unfold popOff at hexec
  dsimp only at hexec
  split at hexec
  · cases hexec
  · split at hexec
    · cases hexec
    · cases hexec
      exact before_put _ (by rfl) w

theorem before_of_exec {a : Action C T L} (hexec : exec plock s a = .ok s') (t : T) :
    (s'.loc (.inr t)).before = (s.loc (.inr t)).before ∨
      Begins s a t (s'.loc (.inr t)).before := by
  cases a with
  | pushOff c l =>
    cases hexec
    exact Or.inl (before_put _ (by rfl) _)
  | off c =>
    rw [exec] at hexec
    split at hexec
    · rename_i b l rest hframes
      cases hexec
      by_cases hempty : (s.here c).held = []
      · by_cases ht : s.run c = .inr t
        · refine Or.inr (Or.inl ⟨c, l, rest, rfl, ht, hempty, ?_⟩)
          rw [← ht, loc_put]
          dsimp only
          rw [if_pos hempty]
          exact hframes
        · exact Or.inl (congrArg Local.before (Function.update_of_ne (Ne.symm ht) ..))
      · exact Or.inl (before_put _ (if_neg hempty) _)
    · cases hexec
      exact Or.inl rfl
  | take c =>
    rw [exec] at hexec
    split at hexec
    · split at hexec
      · cases hexec
      · cases hexec
        exact Or.inl (before_put (s := s.setLock _ _) _ (by rfl) _)
    · cases hexec
      exact Or.inl rfl
  | popOff c l =>
    cases l with
    | none => exact Or.inl (before_popOff hexec _)
    | some l =>
      rw [exec] at hexec
      split at hexec
      · exact Or.inl (before_popOff hexec _)
      · cases hexec
  | intrOn c =>
    cases hexec
    exact Or.inl (before_put _ (by rfl) _)
  | intrOff c =>
    cases hexec
    exact Or.inl (before_put _ (by rfl) _)
  | trap c =>
    cases hexec
    exact Or.inl (before_put _ (by rfl) _)
  | sret c =>
    cases hexec
    exact Or.inl (before_put _ (by rfl) _)
  | sched c =>
    rw [exec] at hexec
    split at hexec
    · cases hexec
      exact Or.inl rfl
    · dsimp only at hexec
      split at hexec
      · cases hexec
      · split at hexec
        · cases hexec
        · split at hexec
          · cases hexec
          · cases hexec
            exact Or.inl (before_put (s.cpu c) (by rfl) _)
  | swtch c t' =>
    cases hexec
    show ((if s.place t' = .fresh then _ else _ : C ⊕ T → Local L) (.inr t)).before = _ ∨
      Begins s _ t ((if s.place t' = .fresh then _ else _ : C ⊕ T → Local L) (.inr t)).before
    by_cases hfresh : s.place t' = .fresh
    · rw [if_pos hfresh]
      by_cases ht : t = t'
      · subst ht
        rw [Function.update_self]
        exact Or.inr (Or.inr ⟨c, rfl, hfresh, rfl⟩)
      · rw [Function.update_of_ne (fun heq => ht (Sum.inr.inj heq)),
          Function.update_of_ne Sum.inr_ne_inl]
        exact Or.inl rfl
    · rw [if_neg hfresh, Function.update_of_ne Sum.inr_ne_inl]
      exact Or.inl rfl
  | restore c =>
    rw [exec] at hexec
    split at hexec
    · cases hexec
      exact Or.inl (before_put _ (by rfl) _)
    · cases hexec
      exact Or.inl rfl
  | alloc t' =>
    cases hexec
    exact Or.inl rfl

end Before

/-- Interrupts are a matter of the kernel thread, wherever it runs: they are off inside of
`push_off`, and the outermost `pop_off` of a process leaves them as they were before the
outermost `push_off`. No run gets to a panic. -/
theorem interrupts_of_thread {plock : T → L} {r : Except Fault (State C T L)}
    (h : (system plock).Reachable r) : ∃ s, r = .ok s ∧
      (∀ c t, s.run c = .inr t → (s.loc (.inr t)).held ≠ [] → (s.cpu c).intr = false) ∧
      (∀ c t l, s.run c = .inr t → (s.loc (.inr t)).held = [l] → enabled plock s (.popOff c l) →
        ∃ s', exec plock s (.popOff c l) = .ok s' ∧ (s'.loc (.inr t)).held = [] ∧
          (s'.cpu c).intr = (s.loc (.inr t)).before) ∧
      ∀ a s' t, exec plock s a = .ok s' →
        (s'.loc (.inr t)).before = (s.loc (.inr t)).before ∨
          Begins s a t (s'.loc (.inr t)).before := by
  obtain ⟨s, rfl, hinv⟩ := System.Reach.invariant (Inv plock) (fun _ => inv_init)
    (fun s a hs ha _ => hs.step ha) h
  refine ⟨s, rfl, fun c t hrun hheld => ?_, fun c t l hrun hheld hpop => ?_,
    fun a s' t hexec => before_of_exec hexec t⟩
  · rw [← hrun] at hheld
    exact (hinv.fits c).off hheld
  · have hhere : s.here c = s.loc (.inr t) := congrArg s.loc hrun
    obtain ⟨hidle, hl⟩ := hpop
    obtain ⟨s', hexec, -, hleft, hlast⟩ := hinv.release hidle hl
    rw [hhere, hheld, hrun] at hleft
    rw [hhere] at hlast
    refine ⟨s', hexec, hleft.trans (List.erase_cons_head ..), (hlast hheld).trans ?_⟩
    have hne : (s.here c).held ≠ [] := List.ne_nil_of_mem hl
    rw [← hhere]
    exact (hinv.fits c).kept hne (hinv.not_lent ⟨t, hrun⟩) (idle_head hidle).2.1

/-- One CPU and one process: `forkret` releases what the scheduler acquired with
interrupts on. -/
theorem interrupts_of_thread_forkret : ∃ s s' : State Unit Unit Unit,
    (system fun _ : Unit => ()).Reachable (.ok s : Except Fault _) ∧
      exec (fun _ => ()) s (.popOff () (some ())) = .ok s' ∧
      (s.cpu ()).intr = false ∧ (s'.cpu ()).intr = true := by
  have hstart : (system fun _ : Unit => ()).Reachable (.ok ⟨fun _ => ⟨false, 0, false⟩,
      fun c => .inl c, fun _ => ⟨[], [], false, false⟩, fun _ => .fresh, fun _ => none⟩ :
        Except Fault (State Unit Unit Unit)) :=
    .init ⟨fun _ => ⟨rfl, rfl, rfl⟩, fun _ => ⟨rfl, rfl⟩, fun _ => rfl, fun _ => rfl⟩
  have hon := System.Reach.step (a := (Action.intrOn () : Action Unit Unit Unit)) hstart
    ⟨rfl, rfl⟩ trivial
  have hpush := System.Reach.step (a := (Action.pushOff () (some ()) : Action Unit Unit Unit)) hon
    ⟨rfl, Or.inr List.not_mem_nil⟩ trivial
  have hoff := System.Reach.step (a := (Action.off () : Action Unit Unit Unit)) hpush
    ⟨true, some (), [], rfl⟩ trivial
  have htake := System.Reach.step (a := (Action.take () : Action Unit Unit Unit)) hoff
    ⟨(), [], rfl, Or.inl rfl⟩ trivial
  have hswtch := System.Reach.step (a := (Action.swtch () () : Action Unit Unit Unit)) htake
    ⟨rfl, rfl, rfl, rfl, Place.noConfusion⟩ trivial
  obtain ⟨s, hs, hoffs, hpop, -⟩ := interrupts_of_thread hswtch
  cases hs
  obtain ⟨s', hexec, -, hbefore⟩ := hpop () () (some ()) rfl rfl ⟨rfl, List.mem_singleton_self _⟩
  exact ⟨_, s', hswtch, hexec, hoffs () () rfl (List.cons_ne_nil _ _), hbefore⟩

end Xv6.Sched.Interrupts
