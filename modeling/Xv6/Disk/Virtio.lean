import Xv6.Param
import Xv6.Lib.Locks
import Xv6.Lib.System
import Mathlib.Data.List.FinRange

/-! `virtio_disk.c` and the device it drives. Contexts are processes, which call
`virtio_disk_rw` with a buffer whose sleep-lock they hold, and interrupt handlers,
which call `virtio_disk_intr`. The device runs beside them, also while one of them
holds `vdisk_lock`; it does not look at a descriptor before the head of its chain
is in the avail ring, nor at `disk.free`, `disk.used_idx` or `b->disk`, so that
code which changes only those is one step. -/
namespace Xv6.Disk

open Lib

def num : Nat := 8

instance : NeZero num := ⟨by decide⟩

inductive Panic where
  | freeDesc1
  | freeDesc2
  | intrStatus
  /-- An index past the end of `disk.desc` or `disk.info`. -/
  | outOfBounds
  /-- `b->disk = 0` with a null `b`. -/
  | nullBuf
  /-- The loop of `free_chain` does not end. -/
  | endless
  /-- The device follows a chain that does not end in a status byte. -/
  | badChain
  deriving DecidableEq

variable {B C : Type}

section Descriptors

inductive Addr (B : Type) where
  | null
  /-- `&disk.ops[i]` -/
  | op (i : Fin num)
  /-- `b->data` -/
  | data (b : B)
  /-- `&disk.info[i].status` -/
  | status (i : Fin num)

structure Desc (B : Type) where
  addr : Addr B
  len : Nat
  flags : UInt16
  next : UInt16

def vringNext : UInt16 := 1

def vringWrite : UInt16 := 2

/-- `disk.desc` and `disk.free` -/
structure Descs (B : Type) where
  desc : Fin num → Desc B
  free : Fin num → Bool

structure Idx where
  head : Fin num
  data : Fin num
  status : Fin num
  deriving DecidableEq

def Idx.toList (idx : Idx) : List (Fin num) := [idx.head, idx.data, idx.status]

def allocDesc (d : Descs B) : Option (Fin num) × Descs B :=
  match (List.finRange num).find? fun i => d.free i with
  | some i => (some i, { d with free := Function.update d.free i false })
  | none => (none, d)

def freeDesc (d : Descs B) (i : Nat) : Except Panic (Descs B) :=
  if h : i < num then
    if d.free ⟨i, h⟩ = true then .error .freeDesc2
    else .ok ⟨Function.update d.desc ⟨i, h⟩ ⟨.null, 0, 0, 0⟩, Function.update d.free ⟨i, h⟩ true⟩
  else .error .freeDesc1

/-- `free_chain`; every iteration frees a descriptor, so that there are no more than
`NUM` and one that panics. -/
def freeChain (d : Descs B) : Nat → Nat → Except Panic (Descs B)
  | 0, _ => .error .endless
  | more + 1, i =>
      if h : i < num then
        let flag := (d.desc ⟨i, h⟩).flags
        let nxt := (d.desc ⟨i, h⟩).next
        match freeDesc d i with
        | .error e => .error e
        | .ok d => if flag &&& vringNext ≠ 0 then freeChain d more nxt.toNat else .ok d
      else .error .outOfBounds

def alloc3Desc (d : Descs B) : Except Panic (Option Idx × Descs B) :=
  match allocDesc d with
  | (none, d) => .ok (none, d)
  | (some i, d) =>
      match allocDesc d with
      | (none, d) => do
          let d ← freeDesc d i
          .ok (none, d)
      | (some j, d) =>
          match allocDesc d with
          | (none, d) => do
              let d ← freeDesc d i
              let d ← freeDesc d j
              .ok (none, d)
          | (some k, d) => .ok (some ⟨i, j, k⟩, d)

end Descriptors

section State

structure Info (B : Type) where
  b : Option B
  status : UInt8

structure BlkReq where
  write : Bool
  sector : Nat

/-- `struct disk` with the rings it points to. -/
structure Driver (B : Type) where
  descs : Descs B
  availIdx : UInt16
  availRing : Fin num → UInt16
  /-- `disk.used->idx` -/
  usedEnd : UInt16
  /-- `disk.used->ring[i].id` -/
  usedRing : Fin num → UInt32
  usedIdx : UInt16
  info : Fin num → Info B
  ops : Fin num → BlkReq

/-- An avail ring entry that the device has read: its number among all entries, and
the head that it holds. -/
abbrev Entry := Nat × UInt16

/-- The device reports an entry: it has written the status, then the used ring slot
(`written`), then the index. -/
structure Posting where
  entry : Entry
  written : Bool

structure Device where
  /-- How many entries of the avail ring it has consumed. -/
  consumed : Nat
  pending : List Entry
  posting : Option Posting
  /-- The entries reported, in order. -/
  reported : List Entry

inductive Pos (B : Type) where
  | idle
  /-- `acquire(&disk.vdisk_lock)` is next, at the start or after `sleep(&disk.free[0])`. -/
  | enter (b : B) (write : Bool)
  | alloc (b : B) (write : Bool)
  | format (b : B) (write : Bool) (idx : Idx)
  /-- `disk.avail->ring[disk.avail->idx % NUM] = idx[0]` is next. -/
  | ring (b : B) (idx : Idx)
  /-- `disk.avail->idx += 1` is next. -/
  | index (b : B) (idx : Idx)
  /-- `while(b->disk == 1)`; `k` is the number of the avail ring entry. -/
  | wait (b : B) (idx : Idx) (k : Nat)
  /-- `sleep(b, &disk.vdisk_lock)` -/
  | asleep (b : B) (idx : Idx) (k : Nat)
  /-- `disk.info[idx[0]].b = 0; free_chain(idx[0])` is next. -/
  | free (b : B) (idx : Idx) (k : Nat)
  | leave
  | intrEnter
  /-- `while(disk.used_idx != disk.used->idx)` -/
  | intrTest
  | intrFetch
  | intrCheck (id : UInt32)

/-- `busy b` is `b->disk`. `submitted` are the heads put into the avail ring, and
`handled` is how many used ring entries `virtio_disk_intr` is done with. -/
structure State (C B : Type) where
  disk : Driver B
  busy : B → Bool
  vdiskLock : Option C
  bufLock : B → Option C
  pos : C → Pos B
  dev : Device
  submitted : List (Fin num)
  handled : Nat

end State

section Steps

def slot (i : UInt16) : Fin num := ⟨i.toNat % num, Nat.mod_lt _ (by decide)⟩

def toId (i : Fin num) : UInt16 := UInt16.ofNat i

variable [DecidableEq B]

def Driver.format (d : Driver B) (b : B) (write : Bool) (sector : Nat) (idx : Idx) : Driver B :=
  let desc := Function.update d.descs.desc idx.head ⟨.op idx.head, 16, vringNext, toId idx.data⟩
  let flags := (if write then 0 else vringWrite) ||| vringNext
  let desc := Function.update desc idx.data ⟨.data b, bsize, flags, toId idx.status⟩
  let desc := Function.update desc idx.status ⟨.status idx.head, 1, vringWrite, 0⟩
  { d with
    ops := Function.update d.ops idx.head ⟨write, sector⟩
    descs := { d.descs with desc := desc }
    info := Function.update d.info idx.head ⟨some b, 0xff⟩ }

def Descs.statusOf (d : Descs B) (head : UInt16) : Option (Fin num) :=
  if h : head.toNat < num then
    let first := d.desc ⟨head.toNat, h⟩
    if h : first.next.toNat < num then
      let second := d.desc ⟨first.next.toNat, h⟩
      if h : second.next.toNat < num then
        match (d.desc ⟨second.next.toNat, h⟩).addr with
        | .status i => some i
        | _ => none
      else none
    else none
  else none

variable [DecidableEq C]

def State.setPos (s : State C B) (c : C) (pos : Pos B) : State C B :=
  { s with pos := Function.update s.pos c pos }

/-- The next step of context `c`. `sector b` is where the block of `b` is. -/
def runStep (sector : B → Nat) (s : State C B) (c : C) : Option (Except Panic (State C B)) :=
  match s.pos c with
  | .idle => none
  | .enter b write =>
      if s.vdiskLock = none then
        some (.ok ({ s with vdiskLock := some c }.setPos c (.alloc b write)))
      else none
  | .alloc b write =>
      match alloc3Desc s.disk.descs with
      | .error e => some (.error e)
      | .ok (none, descs) =>
          some (.ok ({ s with
            disk := { s.disk with descs := descs }, vdiskLock := none }.setPos c (.enter b write)))
      | .ok (some idx, descs) =>
          some (.ok ({ s with disk := { s.disk with descs := descs } }.setPos c
            (.format b write idx)))
  | .format b write idx =>
      some (.ok ({ s with
        disk := s.disk.format b write (sector b) idx
        busy := Function.update s.busy b true }.setPos c (.ring b idx)))
  | .ring b idx =>
      let availRing := Function.update s.disk.availRing (slot s.disk.availIdx) (toId idx.head)
      some (.ok ({ s with disk := { s.disk with availRing := availRing } }.setPos c (.index b idx)))
  | .index b idx =>
      some (.ok ({ s with
        disk := { s.disk with availIdx := s.disk.availIdx + 1 }
        submitted := s.submitted ++ [idx.head] }.setPos c (.wait b idx s.submitted.length)))
  | .wait b idx k =>
      if s.busy b = true then some (.ok ({ s with vdiskLock := none }.setPos c (.asleep b idx k)))
      else some (.ok (s.setPos c (.free b idx k)))
  | .asleep b idx k =>
      if s.vdiskLock = none then
        some (.ok ({ s with vdiskLock := some c }.setPos c (.wait b idx k)))
      else none
  | .free _ idx _ =>
      let info := Function.update s.disk.info idx.head { s.disk.info idx.head with b := none }
      match freeChain s.disk.descs (num + 1) idx.head with
      | .error e => some (.error e)
      | .ok descs =>
          some (.ok ({ s with disk :=
            { s.disk with descs := descs, info := info } }.setPos c .leave))
  | .leave => some (.ok ({ s with vdiskLock := none }.setPos c .idle))
  | .intrEnter =>
      if s.vdiskLock = none then some (.ok ({ s with vdiskLock := some c }.setPos c .intrTest))
      else none
  | .intrTest =>
      if s.disk.usedIdx ≠ s.disk.usedEnd then some (.ok (s.setPos c .intrFetch))
      else some (.ok ({ s with vdiskLock := none }.setPos c .idle))
  | .intrFetch => some (.ok (s.setPos c (.intrCheck (s.disk.usedRing (slot s.disk.usedIdx)))))
  | .intrCheck id =>
      if h : id.toNat < num then
        if (s.disk.info ⟨id.toNat, h⟩).status ≠ 0 then some (.error .intrStatus)
        else
          match (s.disk.info ⟨id.toNat, h⟩).b with
          | none => some (.error .nullBuf)
          | some b =>
              some (.ok ({ s with
                busy := Function.update s.busy b false
                disk := { s.disk with usedIdx := s.disk.usedIdx + 1 }
                handled := s.handled + 1 }.setPos c .intrTest))
      else some (.error .outOfBounds)

inductive Action (C B : Type) where
  /-- `acquiresleep(&b->lock)` and `releasesleep(&b->lock)` -/
  | lockBuf (c : C) (b : B)
  | unlockBuf (c : C) (b : B)
  /-- `virtio_disk_rw(b, write)` -/
  | call (c : C) (b : B) (write : Bool)
  /-- `virtio_disk_intr()` -/
  | interrupt (c : C)
  | run (c : C)
  /-- The device reads the next entry of the avail ring. -/
  | consume
  /-- It has carried out a request and writes 0 to its status byte. -/
  | complete (e : Entry)
  /-- It writes the used ring slot, and then the index. -/
  | post
  | publish

def deviceStep (s : State C B) : Action C B → Option (Except Panic (State C B))
  | .consume =>
      if s.disk.availIdx ≠ UInt16.ofNat s.dev.consumed then
        let head := s.disk.availRing (slot (UInt16.ofNat s.dev.consumed))
        some (.ok { s with dev := { s.dev with
          consumed := s.dev.consumed + 1
          pending := s.dev.pending ++ [(s.dev.consumed, head)] } })
      else none
  | .complete e =>
      if e ∈ s.dev.pending ∧ s.dev.posting.isNone then
        match s.disk.descs.statusOf e.2 with
        | none => some (.error .badChain)
        | some i =>
            let info := Function.update s.disk.info i { s.disk.info i with status := 0 }
            some (.ok { s with
              disk := { s.disk with info := info }
              dev := { s.dev with
                pending := s.dev.pending.erase e, posting := some ⟨e, false⟩ } })
      else none
  | .post =>
      match s.dev.posting with
      | some ⟨e, false⟩ =>
          let usedRing := Function.update s.disk.usedRing (slot s.disk.usedEnd) e.2.toUInt32
          some (.ok { s with
            disk := { s.disk with usedRing := usedRing }
            dev := { s.dev with posting := some ⟨e, true⟩ } })
      | _ => none
  | .publish =>
      match s.dev.posting with
      | some ⟨e, true⟩ =>
          some (.ok { s with
            disk := { s.disk with usedEnd := s.disk.usedEnd + 1 }
            dev := { s.dev with posting := none, reported := s.dev.reported ++ [e] } })
      | _ => none
  | _ => none

def act (sector : B → Nat) (s : State C B) : Action C B → Option (Except Panic (State C B))
  | .lockBuf c b =>
      match s.pos c with
      | .idle =>
          if s.bufLock b = none then
            some (.ok { s with bufLock := Function.update s.bufLock b (some c) })
          else none
      | _ => none
  | .unlockBuf c b =>
      match s.pos c with
      | .idle =>
          if s.bufLock b = some c then
            some (.ok { s with bufLock := Function.update s.bufLock b none })
          else none
      | _ => none
  | .call c b write =>
      match s.pos c with
      | .idle => if s.bufLock b = some c then some (.ok (s.setPos c (.enter b write))) else none
      | _ => none
  | .interrupt c =>
      match s.pos c with
      | .idle => some (.ok (s.setPos c .intrEnter))
      | _ => none
  | .run c => runStep sector s c
  | a => deviceStep s a

structure Start (s : State C B) : Prop where
  free : ∀ i, s.disk.descs.free i = true
  availIdx : s.disk.availIdx = 0
  usedEnd : s.disk.usedEnd = 0
  usedIdx : s.disk.usedIdx = 0
  vdiskLock : s.vdiskLock = none
  bufLock : ∀ b, s.bufLock b = none
  pos : ∀ c, s.pos c = .idle
  dev : s.dev = ⟨0, [], none, []⟩
  submitted : s.submitted = []
  handled : s.handled = 0

def system (C B : Type) [DecidableEq C] [DecidableEq B] (sector : B → Nat) :
    System (State C B) Panic (Action C B) where
  init := Start
  enabled s a := (act sector s a).isSome = true
  exec s a := (act sector s a).getD (.ok s)

instance (sector : B → Nat) (s : State C B) (a : Action C B) :
    Decidable ((system C B sector).enabled s a) :=
  inferInstanceAs (Decidable (_ = true))

inductive Turn (sector : B → Nat) (s : State C B) : Action C B →
    Except Panic (State C B) → Prop where
  | lockBuf {c : C} {b : B} : s.pos c = .idle → s.bufLock b = none →
      Turn sector s (.lockBuf c b) (.ok { s with bufLock := Function.update s.bufLock b (some c) })
  | unlockBuf {c : C} {b : B} : s.pos c = .idle → s.bufLock b = some c →
      Turn sector s (.unlockBuf c b) (.ok { s with bufLock := Function.update s.bufLock b none })
  | call {c : C} {b : B} {write : Bool} : s.pos c = .idle → s.bufLock b = some c →
      Turn sector s (.call c b write) (.ok (s.setPos c (.enter b write)))
  | interrupt {c : C} : s.pos c = .idle →
      Turn sector s (.interrupt c) (.ok (s.setPos c .intrEnter))
  | enter {c : C} {b : B} {write : Bool} : s.pos c = .enter b write → s.vdiskLock = none →
      Turn sector s (.run c) (.ok ({ s with vdiskLock := some c }.setPos c (.alloc b write)))
  | allocPanic {c : C} {b : B} {write : Bool} {e : Panic} : s.pos c = .alloc b write →
      alloc3Desc s.disk.descs = .error e → Turn sector s (.run c) (.error e)
  | noDesc {c : C} {b : B} {write : Bool} {descs : Descs B} : s.pos c = .alloc b write →
      alloc3Desc s.disk.descs = .ok (none, descs) →
      Turn sector s (.run c) (.ok ({ s with
        disk := { s.disk with descs := descs }, vdiskLock := none }.setPos c (.enter b write)))
  | alloc {c : C} {b : B} {write : Bool} {idx : Idx} {descs : Descs B} :
      s.pos c = .alloc b write → alloc3Desc s.disk.descs = .ok (some idx, descs) →
      Turn sector s (.run c) (.ok ({ s with disk := { s.disk with descs := descs } }.setPos c
        (.format b write idx)))
  | format {c : C} {b : B} {write : Bool} {idx : Idx} : s.pos c = .format b write idx →
      Turn sector s (.run c) (.ok ({ s with
        disk := s.disk.format b write (sector b) idx
        busy := Function.update s.busy b true }.setPos c (.ring b idx)))
  | ring {c : C} {b : B} {idx : Idx} : s.pos c = .ring b idx →
      Turn sector s (.run c) (.ok ({ s with disk := { s.disk with
        availRing := Function.update s.disk.availRing (slot s.disk.availIdx)
          (toId idx.head) } }.setPos c (.index b idx)))
  | index {c : C} {b : B} {idx : Idx} : s.pos c = .index b idx →
      Turn sector s (.run c) (.ok ({ s with
        disk := { s.disk with availIdx := s.disk.availIdx + 1 }
        submitted := s.submitted ++ [idx.head] }.setPos c (.wait b idx s.submitted.length)))
  | sleep {c : C} {b : B} {idx : Idx} {k : Nat} : s.pos c = .wait b idx k → s.busy b = true →
      Turn sector s (.run c) (.ok ({ s with vdiskLock := none }.setPos c (.asleep b idx k)))
  | done {c : C} {b : B} {idx : Idx} {k : Nat} : s.pos c = .wait b idx k → s.busy b = false →
      Turn sector s (.run c) (.ok (s.setPos c (.free b idx k)))
  | wake {c : C} {b : B} {idx : Idx} {k : Nat} : s.pos c = .asleep b idx k →
      s.vdiskLock = none →
      Turn sector s (.run c) (.ok ({ s with vdiskLock := some c }.setPos c (.wait b idx k)))
  | freePanic {c : C} {b : B} {idx : Idx} {k : Nat} {e : Panic} : s.pos c = .free b idx k →
      freeChain s.disk.descs (num + 1) idx.head = .error e → Turn sector s (.run c) (.error e)
  | free {c : C} {b : B} {idx : Idx} {k : Nat} {descs : Descs B} : s.pos c = .free b idx k →
      freeChain s.disk.descs (num + 1) idx.head = .ok descs →
      Turn sector s (.run c) (.ok ({ s with disk := { s.disk with
        descs := descs
        info := Function.update s.disk.info idx.head
          { s.disk.info idx.head with b := none } } }.setPos c .leave))
  | leave {c : C} : s.pos c = .leave →
      Turn sector s (.run c) (.ok ({ s with vdiskLock := none }.setPos c .idle))
  | intrEnter {c : C} : s.pos c = .intrEnter → s.vdiskLock = none →
      Turn sector s (.run c) (.ok ({ s with vdiskLock := some c }.setPos c .intrTest))
  | intrMore {c : C} : s.pos c = .intrTest → s.disk.usedIdx ≠ s.disk.usedEnd →
      Turn sector s (.run c) (.ok (s.setPos c .intrFetch))
  | intrEnd {c : C} : s.pos c = .intrTest → s.disk.usedIdx = s.disk.usedEnd →
      Turn sector s (.run c) (.ok ({ s with vdiskLock := none }.setPos c .idle))
  | intrFetch {c : C} : s.pos c = .intrFetch →
      Turn sector s (.run c)
        (.ok (s.setPos c (.intrCheck (s.disk.usedRing (slot s.disk.usedIdx)))))
  | intrBounds {c : C} {id : UInt32} : s.pos c = .intrCheck id → num ≤ id.toNat →
      Turn sector s (.run c) (.error .outOfBounds)
  | intrStatus {c : C} {id : UInt32} (h : id.toNat < num) : s.pos c = .intrCheck id →
      (s.disk.info ⟨id.toNat, h⟩).status ≠ 0 → Turn sector s (.run c) (.error .intrStatus)
  | intrNull {c : C} {id : UInt32} (h : id.toNat < num) : s.pos c = .intrCheck id →
      (s.disk.info ⟨id.toNat, h⟩).b = none → Turn sector s (.run c) (.error .nullBuf)
  | intrClear {c : C} {id : UInt32} {b : B} (h : id.toNat < num) : s.pos c = .intrCheck id →
      (s.disk.info ⟨id.toNat, h⟩).b = some b →
      Turn sector s (.run c) (.ok ({ s with
        busy := Function.update s.busy b false
        disk := { s.disk with usedIdx := s.disk.usedIdx + 1 }
        handled := s.handled + 1 }.setPos c .intrTest))
  | consume : s.disk.availIdx ≠ UInt16.ofNat s.dev.consumed →
      Turn sector s .consume (.ok { s with dev := { s.dev with
        consumed := s.dev.consumed + 1
        pending := s.dev.pending ++ [(s.dev.consumed,
          s.disk.availRing (slot (UInt16.ofNat s.dev.consumed)))] } })
  | badChain {e : Entry} : e ∈ s.dev.pending → s.disk.descs.statusOf e.2 = none →
      Turn sector s (.complete e) (.error .badChain)
  | complete {e : Entry} {i : Fin num} : e ∈ s.dev.pending → s.dev.posting = none →
      s.disk.descs.statusOf e.2 = some i →
      Turn sector s (.complete e) (.ok { s with
        disk := { s.disk with
          info := Function.update s.disk.info i { s.disk.info i with status := 0 } }
        dev := { s.dev with pending := s.dev.pending.erase e, posting := some ⟨e, false⟩ } })
  | post {e : Entry} : s.dev.posting = some ⟨e, false⟩ →
      Turn sector s .post (.ok { s with
        disk := { s.disk with
          usedRing := Function.update s.disk.usedRing (slot s.disk.usedEnd) e.2.toUInt32 }
        dev := { s.dev with posting := some ⟨e, true⟩ } })
  | publish {e : Entry} : s.dev.posting = some ⟨e, true⟩ →
      Turn sector s .publish (.ok { s with
        disk := { s.disk with usedEnd := s.disk.usedEnd + 1 }
        dev := { s.dev with posting := none, reported := s.dev.reported ++ [e] } })

variable {sector : B → Nat} {s : State C B}

theorem turn_of_runStep {c : C} {r : Except Panic (State C B)}
    (h : runStep sector s c = some r) : Turn sector s (.run c) r := by
  cases hpos : s.pos c <;> simp only [runStep, hpos] at h
  case idle => cases h
  case enter b write =>
    split at h <;> cases h
    exact .enter hpos ‹_›
  case alloc b write =>
    split at h <;> cases h
    · exact .allocPanic hpos ‹_›
    · exact .noDesc hpos ‹_›
    · exact .alloc hpos ‹_›
  case format b write idx =>
    cases h
    exact .format hpos
  case ring b idx =>
    cases h
    exact .ring hpos
  case index b idx =>
    cases h
    exact .index hpos
  case wait b idx k =>
    split at h <;> cases h
    · exact .sleep hpos ‹_›
    · exact .done hpos (by simpa using ‹¬s.busy b = true›)
  case asleep b idx k =>
    split at h <;> cases h
    exact .wake hpos ‹_›
  case free b idx k =>
    split at h <;> cases h
    · exact .freePanic hpos ‹_›
    · exact .free hpos ‹_›
  case leave =>
    cases h
    exact .leave hpos
  case intrEnter =>
    split at h <;> cases h
    exact .intrEnter hpos ‹_›
  case intrTest =>
    split at h <;> cases h
    · exact .intrMore hpos ‹_›
    · exact .intrEnd hpos (not_not.mp ‹_›)
  case intrFetch =>
    cases h
    exact .intrFetch hpos
  case intrCheck id =>
    split at h
    · rename_i hid
      split at h
      · cases h
        exact .intrStatus hid hpos ‹_›
      · split at h <;> cases h
        · exact .intrNull hid hpos ‹_›
        · exact .intrClear hid hpos ‹_›
    · cases h
      exact .intrBounds hpos (Nat.le_of_not_lt ‹_›)

theorem turn_of_act {a : Action C B} {r : Except Panic (State C B)}
    (h : act sector s a = some r) : Turn sector s a r := by
  cases a with
  | lockBuf c b =>
    simp only [act] at h
    split at h
    · split at h <;> cases h
      exact .lockBuf ‹_› ‹_›
    · cases h
  | unlockBuf c b =>
    simp only [act] at h
    split at h
    · split at h <;> cases h
      exact .unlockBuf ‹_› ‹_›
    · cases h
  | call c b write =>
    simp only [act] at h
    split at h
    · split at h <;> cases h
      exact .call ‹_› ‹_›
    · cases h
  | interrupt c =>
    simp only [act] at h
    split at h <;> cases h
    exact .interrupt ‹_›
  | run c => exact turn_of_runStep h
  | consume =>
    simp only [act, deviceStep] at h
    split at h <;> cases h
    exact .consume ‹_›
  | complete e =>
    simp only [act, deviceStep] at h
    split at h
    · rename_i he
      split at h <;> cases h
      · exact .badChain he.1 ‹_›
      · exact .complete he.1 (Option.isNone_iff_eq_none.mp he.2) ‹_›
    · cases h
  | post =>
    simp only [act, deviceStep] at h
    split at h <;> cases h
    exact .post ‹_›
  | publish =>
    simp only [act, deviceStep] at h
    split at h <;> cases h
    exact .publish ‹_›

end Steps

end Xv6.Disk
