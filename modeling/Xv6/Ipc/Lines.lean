import Xv6.Ipc.Loops
import Xv6.Sched.History
import Xv6.Lib.Ring

/-! The line discipline of the console. What an editor with a queue of committed
input and a current line makes of the characters typed is what the readers get,
whatever the order of interrupts and reads. -/
namespace Xv6.Ipc

open Lib Sched Sched.Monitor

def endOfFile : UInt8 := control 68

/-- All that was ever committed, the line being typed, and what the readers have
had of the first, with each end of file that a read returned 0 for. -/
structure Editor where
  committed : List UInt8
  line : List UInt8
  delivered : List UInt8

namespace Editor

def empty : Editor := ⟨[], [], []⟩

def held (g : Editor) : Nat := g.committed.length - g.delivered.length + g.line.length

def commit (g : Editor) : Editor := { g with committed := g.committed ++ g.line, line := [] }

def put (g : Editor) (c : UInt8) : Editor :=
  let g := { g with line := g.line ++ [c] }
  if c = newline ∨ c = endOfFile ∨ g.held = inputBufSize then g.commit else g

def type (g : Editor) (c : UInt8) : Editor :=
  if c = control 80 then g
  else if c = control 85 then { g with line := [] }
  else if c = control 72 ∨ c = 127 then { g with line := g.line.dropLast }
  else if c ≠ 0 ∧ g.held < inputBufSize then g.put (if c = 13 then newline else c)
  else g

def deliver (g : Editor) (bytes : List UInt8) : Editor :=
  { g with delivered := g.delivered ++ bytes }

end Editor

def ConsoleLocal.passes : ConsoleLocal → List UInt8
  | .got n target c => if c = endOfFile ∧ n < target then [] else [c]
  | _ => []

def ConsoleLocal.typed : ConsoleLocal → Option UInt8
  | .intr c => some c
  | _ => none

def Editor.record (l : ConsoleLocal) (_ : Console) (_ : Bool) (g : Editor) : Editor :=
  match l.typed with
  | some c => g.type c
  | none => g.deliver l.passes

section Moves

def Wanted (n : UInt32) : Prop := 0 < n.toNat ∧ n.toNat < 2 ^ 31

def Plain (c : UInt8) : Prop :=
  c ≠ control 80 ∧ c ≠ control 85 ∧ ¬(c = control 72 ∨ c = 127)

inductive ConsoleMove (chan : Nat) (d : Console) (x : Bool) :
    ConsoleLocal → Cmd Console ConsoleLocal → Prop where
  | wait {n target} : Wanted n → d.r = d.w → ConsoleMove chan d x (.read n target)
      (.killed fun k => if k then .readKilled else .readSleep n target)
  | take {n target} : Wanted n → d.r ≠ d.w → ConsoleMove chan d x (.read n target)
      (.step { d with r := d.r + 1 } (.got n target (d.buf (Console.index d.r))))
  | satisfied {n target} : ¬Wanted n →
      ConsoleMove chan d x (.read n target) (.release (.returned (target - n)))
  | readKilled : ConsoleMove chan d x .readKilled (.release (.returned (-1)))
  | readSleep {n target} :
      ConsoleMove chan d x (.readSleep n target) (.sleep chan (.read n target))
  | putBack {n target c} : c = endOfFile → n < target →
      ConsoleMove chan d x (.got n target c) (.step { d with r := d.r - 1 } (.readEnd n target))
  | eof {n target c} : c = endOfFile → ¬n < target →
      ConsoleMove chan d x (.got n target c) (.step d (.readEnd n target))
  | line {n target c} : c ≠ endOfFile → x = true → c = newline →
      ConsoleMove chan d x (.got n target c) (.step d (.readEnd (n - 1) target))
  | byte {n target c} : c ≠ endOfFile → x = true → c ≠ newline →
      ConsoleMove chan d x (.got n target c) (.step d (.read (n - 1) target))
  | copyoutFail {n target c} : c ≠ endOfFile → x ≠ true →
      ConsoleMove chan d x (.got n target c) (.step d (.readEnd n target))
  | readEnd {n target} :
      ConsoleMove chan d x (.readEnd n target) (.release (.returned (target - n)))
  | procdump {c} : c = control 80 → ConsoleMove chan d x (.intr c) (.step d .intrEnd)
  | kill {c} : c ≠ control 80 → c = control 85 →
      ConsoleMove chan d x (.intr c) (.step d .killLine)
  | erase {c} : c ≠ control 80 → c ≠ control 85 → (c = control 72 ∨ c = 127) →
      ConsoleMove chan d x (.intr c)
        (.step (if d.e ≠ d.w then { d with e := d.e - 1 } else d) .intrEnd)
  | commit {c c'} : Plain c → (c ≠ 0 ∧ d.used < UInt32.ofNat inputBufSize) →
      c' = (if c = 13 then newline else c) →
      (c' = newline ∨ c' = endOfFile ∨ (d.store c').used = UInt32.ofNat inputBufSize) →
      ConsoleMove chan d x (.intr c) (.step { d.store c' with w := (d.store c').e } .intrWake)
  | store {c c'} : Plain c → (c ≠ 0 ∧ d.used < UInt32.ofNat inputBufSize) →
      c' = (if c = 13 then newline else c) →
      ¬(c' = newline ∨ c' = endOfFile ∨ (d.store c').used = UInt32.ofNat inputBufSize) →
      ConsoleMove chan d x (.intr c) (.step (d.store c') .intrEnd)
  | refuse {c} : Plain c → ¬(c ≠ 0 ∧ d.used < UInt32.ofNat inputBufSize) →
      ConsoleMove chan d x (.intr c) (.step d .intrEnd)
  | killOne : (d.e ≠ d.w ∧ d.buf (Console.index (d.e - 1)) ≠ newline) →
      ConsoleMove chan d x .killLine (.step { d with e := d.e - 1 } .killLine)
  | killed : ¬(d.e ≠ d.w ∧ d.buf (Console.index (d.e - 1)) ≠ newline) →
      ConsoleMove chan d x .killLine (.step d .intrEnd)
  | intrWake : ConsoleMove chan d x .intrWake (.wakeup chan .intrEnd)
  | intrEnd : ConsoleMove chan d x .intrEnd (.release (.returned 0))
  | returned {ret} : ConsoleMove chan d x (.returned ret) (.release (.returned ret))

theorem console_move {chan : Nat} {d : Console} {x : Bool} {l : ConsoleLocal}
    {cmd : Cmd Console ConsoleLocal} (h : (console chan).next l d x = cmd) :
    ConsoleMove chan d x l cmd := by
  subst h
  show ConsoleMove chan d x l (consoleNext chan d x l)
  cases l with
  | read n target =>
    simp only [consoleNext]
    split
    · split
      · exact .wait ‹_› ‹_›
      · exact .take ‹_› ‹_›
    · exact .satisfied ‹_›
  | readKilled => exact .readKilled
  | readSleep n target => exact .readSleep
  | got n target c =>
    simp only [consoleNext]
    split
    · split
      · exact .putBack ‹_› ‹_›
      · exact .eof ‹_› ‹_›
    · split
      · split
        · exact .line ‹_› ‹_› ‹_›
        · exact .byte ‹_› ‹_› ‹_›
      · exact .copyoutFail ‹_› ‹_›
  | readEnd n target => exact .readEnd
  | intr c =>
    simp only [consoleNext]
    split
    · exact .procdump ‹_›
    split
    · exact .kill ‹_› ‹_›
    split
    · exact .erase ‹_› ‹_› ‹_›
    have hplain : Plain c := ⟨‹_›, ‹_›, ‹_›⟩
    split
    · generalize hc' : (if c = 13 then newline else c) = c'
      split
      · exact .commit hplain ‹_› hc'.symm ‹_›
      · exact .store hplain ‹_› hc'.symm ‹_›
    · exact .refuse hplain ‹_›
  | killLine =>
    simp only [consoleNext]
    split
    · exact .killOne ‹_›
    · exact .killed ‹_›
  | intrWake => exact .intrWake
  | intrEnd => exact .intrEnd
  | returned ret => exact .returned

end Moves

section Edits

instance : NeZero inputBufSize := ⟨by decide⟩

/-- The buffer holds what the editor keeps. A reader may have taken one byte that it
has not passed on, and control-U may have characters left to erase. -/
structure Edits (g : Editor) (unread : Nat) (erased : List UInt8) (d : Console) : Prop where
  r : d.r.toNat = (g.delivered.length + unread) % 2 ^ 32
  w : d.w.toNat = g.committed.length % 2 ^ 32
  e : d.e.toNat = (g.committed ++ g.line ++ erased).length % 2 ^ 32
  taken : g.delivered <+: g.committed
  ahead : g.delivered.length + unread ≤ g.committed.length
  ring : Ring d.buf (g.committed ++ g.line ++ erased) g.delivered.length
  clean : newline ∉ g.line ++ erased

theorem console_index_eq {i : UInt32} {n : Nat} (h : i.toNat = n % 2 ^ 32) :
    Console.index i = Fin.ofNat inputBufSize n := by
  apply Fin.ext
  show i.toNat % inputBufSize = n % inputBufSize
  rw [h]
  exact Nat.mod_mod_of_dvd n (by decide)

namespace Edits

variable {g : Editor} {unread : Nat} {erased : List UInt8} {d : Console}

theorem length_le (h : Edits g unread erased d) :
    g.committed.length + g.line.length + erased.length ≤ g.delivered.length + 128 := by
  have := h.ring.fits
  simp only [List.length_append, inputBufSize] at this
  omega

theorem sub_e (h : Edits g unread erased d) : (d.e - d.r).toNat =
    g.committed.length + g.line.length + erased.length - (g.delivered.length + unread) := by
  have hle := h.length_le
  have hahead := h.ahead
  rw [UInt32.toNat_sub, h.r, h.e]
  simp only [List.length_append]
  omega

theorem sub_w (h : Edits g unread erased d) :
    (d.w - d.r).toNat = g.committed.length - (g.delivered.length + unread) := by
  have hle := h.length_le
  have hahead := h.ahead
  rw [UInt32.toNat_sub, h.r, h.w]
  omega

theorem distances (h : Edits g unread erased d) :
    (d.w - d.r).toNat ≤ (d.e - d.r).toNat ∧ (d.e - d.r).toNat ≤ inputBufSize := by
  have hle := h.length_le
  rw [h.sub_w, h.sub_e, inputBufSize]
  omega

theorem used_eq (h : Edits g 0 [] d) : d.used.toNat = g.held := by
  have hahead := h.ahead
  rw [Console.used, h.sub_e, Editor.held]
  simp only [List.length_nil]
  omega

theorem r_eq_w (h : Edits g 0 erased d) : d.r = d.w ↔ g.delivered.length = g.committed.length := by
  have hle := h.length_le
  have hahead := h.ahead
  rw [← UInt32.toNat_inj, h.r, h.w]
  omega

theorem e_eq_w (h : Edits g unread erased d) : d.e = d.w ↔ g.line ++ erased = [] := by
  have hle := h.length_le
  have hahead := h.ahead
  rw [← UInt32.toNat_inj, h.e, h.w, ← List.length_eq_zero_iff]
  simp only [List.length_append]
  omega

theorem take (h : Edits g 0 [] d) (hne : d.r ≠ d.w) :
    Edits g 1 [] { d with r := d.r + 1 } ∧
      g.committed[g.delivered.length]? = some (d.buf (Console.index d.r)) := by
  have hlt : g.delivered.length < g.committed.length := by
    have hahead := h.ahead
    have := mt h.r_eq_w.mpr hne
    omega
  refine ⟨⟨?_, h.w, h.e, h.taken, hlt, h.ring, h.clean⟩, ?_⟩
  · simp only [UInt32.toNat_add, h.r, UInt32.toNat_one]
    omega
  · have hlog : g.delivered.length < (g.committed ++ g.line ++ []).length := by
      simp only [List.length_append]
      omega
    rw [console_index_eq h.r, Nat.add_zero, h.ring.front hlog, List.getElem?_eq_getElem hlt]
    simp [List.getElem_append_left hlt]

theorem putBack (h : Edits g 1 [] d) : Edits g 0 [] { d with r := d.r - 1 } := by
  refine ⟨?_, h.w, h.e, h.taken, by have := h.ahead; omega, h.ring, h.clean⟩
  have hr := h.r
  simp only [UInt32.toNat_sub, hr, UInt32.toNat_one]
  omega

theorem deliver (h : Edits g 1 [] d) {c : UInt8}
    (hc : g.committed[g.delivered.length]? = some c) : Edits (g.deliver [c]) 0 [] d := by
  obtain ⟨hlt, rfl⟩ := List.getElem?_eq_some_iff.mp hc
  refine ⟨?_, h.w, h.e, taken_next h.taken hlt, ?_, ?_, h.clean⟩
  · simpa [Editor.deliver] using h.r
  · simpa [Editor.deliver] using h.ahead
  · simp only [Editor.deliver, List.length_append, List.length_singleton]
    refine h.ring.pop ?_
    simp only [List.length_append]
    omega

theorem regroup (h : Edits g unread erased d) {line' erased' : List UInt8}
    (heq : g.line ++ erased = line' ++ erased') :
    Edits { g with line := line' } unread erased' d := by
  obtain ⟨hr, hw, he, htaken, hahead, hring, hclean⟩ := h
  simp only [List.append_assoc, heq] at he hring
  refine ⟨hr, hw, ?_, htaken, hahead, ?_, heq ▸ hclean⟩
  · simpa only [List.append_assoc] using he
  · simpa only [List.append_assoc] using hring

theorem eraseLast {c : UInt8} (h : Edits g 0 (erased ++ [c]) d) :
    Edits g 0 erased { d with e := d.e - 1 } := by
  have hahead := h.ahead
  have he := h.e
  refine ⟨h.r, h.w, ?_, h.taken, hahead, ?_, fun hmem => h.clean ?_⟩
  · simp only [List.length_append, List.length_singleton] at he ⊢
    simp only [UInt32.toNat_sub, he, UInt32.toNat_one]
    omega
  · have hring := h.ring
    rw [← List.append_assoc] at hring
    refine hring.takeBack ?_
    simp only [List.length_append]
    omega
  · rw [← List.append_assoc]
    exact List.mem_append_left _ hmem

theorem last_cell {c : UInt8} (h : Edits g unread (erased ++ [c]) d) :
    d.buf (Console.index (d.e - 1)) = c := by
  have hahead := h.ahead
  have he := h.e
  have hindex : (d.e - 1).toNat = (g.committed ++ g.line ++ erased).length % 2 ^ 32 := by
    simp only [List.length_append, List.length_singleton] at he ⊢
    simp only [UInt32.toNat_sub, he, UInt32.toNat_one]
    omega
  rw [console_index_eq hindex, h.ring.cell _ (by simp) (by simp only [List.length_append]; omega)]
  simp only [← List.append_assoc, List.getElem_concat_length]

theorem erase (h : Edits g 0 [] d) :
    Edits { g with line := g.line.dropLast } 0 []
      (if d.e ≠ d.w then { d with e := d.e - 1 } else d) := by
  by_cases hline : g.line = []
  · rw [if_neg (not_not.mpr (h.e_eq_w.mpr (by simp [hline])))]
    exact h.regroup (by simp [hline])
  · rw [if_pos (mt h.e_eq_w.mp (by simp [hline]))]
    refine eraseLast (c := g.line.getLast hline) (h.regroup ?_)
    simp [List.dropLast_append_getLast]

theorem store (h : Edits g 0 [] d) (hroom : g.held < inputBufSize) (c : UInt8) :
    (d.store c).e.toNat = (g.committed ++ (g.line ++ [c])).length % 2 ^ 32 ∧
      Ring (d.store c).buf (g.committed ++ (g.line ++ [c])) g.delivered.length := by
  have he := h.e
  have hring := h.ring
  rw [List.append_nil] at he hring
  constructor
  · simp only [Console.store, UInt32.toNat_add, he, UInt32.toNat_one, List.length_append,
      List.length_singleton]
    omega
  · rw [← List.append_assoc, Console.store, console_index_eq he]
    refine hring.push ?_ c
    have hahead := h.ahead
    rw [Editor.held] at hroom
    simp only [List.length_append]
    omega

theorem store_line (h : Edits g 0 [] d) (hroom : g.held < inputBufSize) {c : UInt8}
    (hc : c ≠ newline) : Edits { g with line := g.line ++ [c] } 0 [] (d.store c) := by
  obtain ⟨he, hring⟩ := h.store hroom c
  refine ⟨h.r, h.w, ?_, h.taken, h.ahead, ?_, ?_⟩
  · simpa using he
  · simpa using hring
  · have hclean := h.clean
    simp only [List.append_nil, List.mem_append, List.mem_singleton, not_or] at hclean ⊢
    exact ⟨hclean, hc.symm⟩

theorem store_commit (h : Edits g 0 [] d) (hroom : g.held < inputBufSize) (c : UInt8) :
    Edits (Editor.commit { g with line := g.line ++ [c] }) 0 []
      { d.store c with w := (d.store c).e } := by
  obtain ⟨he, hring⟩ := h.store hroom c
  have hahead := h.ahead
  refine ⟨h.r, he, ?_, h.taken.trans (List.prefix_append _ _), ?_, ?_, by simp [Editor.commit]⟩
  · simpa [Editor.commit] using he
  · simp only [Editor.commit, List.length_append]
    omega
  · simpa [Editor.commit] using hring

theorem store_used (h : Edits g 0 [] d) (hroom : g.held < inputBufSize) (c : UInt8) :
    (d.store c).used = UInt32.ofNat inputBufSize ↔
      ({ g with line := g.line ++ [c] } : Editor).held = inputBufSize := by
  obtain ⟨he, -⟩ := h.store hroom c
  have hr := h.r
  have hahead := h.ahead
  simp only [Editor.held, inputBufSize, List.length_append, List.length_singleton] at hroom he ⊢
  rw [← UInt32.toNat_inj, Console.used, UInt32.toNat_sub, he]
  simp only [Console.store, hr, UInt32.toNat_ofNat']
  omega

theorem room_iff (h : Edits g 0 [] d) :
    d.used < UInt32.ofNat inputBufSize ↔ g.held < inputBufSize := by
  rw [UInt32.lt_iff_toNat_lt, h.used_eq]
  rfl

end Edits

end Edits

section Outline

/-- Why a read that did not get all it wanted has ended: it returns 0 for an end of
file, it has just passed on a newline, or the next committed byte is an end of file. -/
def Ended (n target : UInt32) (g : Editor) : Prop :=
  (n = target ∧ g.delivered.getLast? = some endOfFile) ∨
  (n < target ∧ g.delivered.getLast? = some newline) ∨
  (n < target ∧ g.committed[g.delivered.length]? = some endOfFile)

def ConsoleLocal.note : ConsoleLocal → Editor → Console → Prop
  | .read n target, g, d | .readSleep n target, g, d => n ≤ target ∧ Edits g 0 [] d
  | .got n target c, g, d =>
      Wanted n ∧ n ≤ target ∧ Edits g 1 [] d ∧ g.committed[g.delivered.length]? = some c
  | .readEnd n target, g, d => Ended n target g ∧ Edits g 0 [] d
  | .killLine, g, d => g.line = [] ∧ ∃ erased, Edits g 0 erased d
  | _, g, d => Edits g 0 [] d

variable {g : Editor} {d : Console} {c c' : UInt8}

theorem Editor.deliver_nil (g : Editor) : g.deliver [] = g := by
  simp [Editor.deliver]

theorem Editor.record_quiet {l : ConsoleLocal} {x : Bool} (htyped : l.typed = none)
    (hpasses : l.passes = []) : Editor.record l d x g = g := by
  rw [Editor.record, htyped, hpasses]
  exact g.deliver_nil

theorem Editor.type_plain (hplain : Plain c) (hroom : c ≠ 0 ∧ g.held < inputBufSize)
    (hc' : c' = if c = 13 then newline else c) : g.type c = g.put c' := by
  obtain ⟨hdump, hkill, herase⟩ := hplain
  rw [Editor.type, if_neg hdump, if_neg hkill, if_neg herase, if_pos hroom, hc']

theorem Editor.type_refused (hplain : Plain c) (hroom : ¬(c ≠ 0 ∧ g.held < inputBufSize)) :
    g.type c = g := by
  obtain ⟨hdump, hkill, herase⟩ := hplain
  rw [Editor.type, if_neg hdump, if_neg hkill, if_neg herase, if_neg hroom]

theorem sub_one_lt {n target : UInt32} (hn : Wanted n) (hle : n ≤ target) : n - 1 < target := by
  have hpos := hn.1
  rw [UInt32.le_iff_toNat_le] at hle
  rw [UInt32.lt_iff_toNat_lt, UInt32.toNat_sub, UInt32.toNat_one]
  have := n.toNat_lt
  omega

theorem ConsoleLocal.note.edits {l : ConsoleLocal} (h : l.note g d) :
    ∃ unread erased, Edits g unread erased d := by
  cases l with
  | read | readSleep | readEnd => exact ⟨0, [], h.2⟩
  | got => exact ⟨1, [], h.2.2.1⟩
  | killLine => exact ⟨0, h.2⟩
  | readKilled | intr | intrWake | intrEnd | returned => exact ⟨0, [], h⟩

theorem note_got {n target : UInt32} {x : Bool} {d' : Console} {l' : ConsoleLocal} {chan : Nat}
    (hx : x = true) (hnote : (ConsoleLocal.got n target c).note g d)
    (hmove : ConsoleMove chan d x (.got n target c) (.step d' l')) :
    l'.note (g.deliver (ConsoleLocal.got n target c).passes) d' := by
  obtain ⟨hwanted, hle, hedits, hc⟩ := hnote
  cases hmove with
  | putBack heof hlt =>
    rw [ConsoleLocal.passes, if_pos ⟨heof, hlt⟩, Editor.deliver_nil]
    exact ⟨Or.inr (Or.inr ⟨hlt, heof ▸ hc⟩), hedits.putBack⟩
  | eof heof hlt =>
    rw [ConsoleLocal.passes, if_neg fun h => hlt h.2]
    refine ⟨Or.inl ⟨UInt32.le_antisymm hle (UInt32.not_lt.mp hlt), ?_⟩, hedits.deliver hc⟩
    simp [Editor.deliver, heof]
  | line hne _ hnl =>
    rw [ConsoleLocal.passes, if_neg fun h => hne h.1]
    refine ⟨Or.inr (Or.inl ⟨sub_one_lt hwanted hle, ?_⟩), hedits.deliver hc⟩
    simp [Editor.deliver, hnl]
  | byte hne _ _ =>
    rw [ConsoleLocal.passes, if_neg fun h => hne h.1]
    exact ⟨UInt32.le_of_lt (sub_one_lt hwanted hle), hedits.deliver hc⟩
  | copyoutFail _ hfail => exact absurd hx hfail

theorem note_intr {x : Bool} {d' : Console} {l' : ConsoleLocal} {chan : Nat}
    (hedits : Edits g 0 [] d) (hmove : ConsoleMove chan d x (.intr c) (.step d' l')) :
    l'.note (g.type c) d' := by
  cases hmove with
  | procdump hc =>
    rw [Editor.type, if_pos hc]
    exact hedits
  | kill hdump hc =>
    rw [Editor.type, if_neg hdump, if_pos hc]
    exact ⟨rfl, g.line, hedits.regroup (by simp)⟩
  | erase hdump hkill hc =>
    rw [Editor.type, if_neg hdump, if_neg hkill, if_pos hc]
    exact hedits.erase
  | commit hplain hroom hc' hfull =>
    rw [hedits.room_iff] at hroom
    rw [hedits.store_used hroom.2] at hfull
    rw [Editor.type_plain hplain hroom hc', Editor.put, if_pos hfull]
    exact hedits.store_commit hroom.2 _
  | store hplain hroom hc' hfull =>
    rw [hedits.room_iff] at hroom
    rw [hedits.store_used hroom.2] at hfull
    rw [Editor.type_plain hplain hroom hc', Editor.put, if_neg hfull]
    exact hedits.store_line hroom.2 fun hnl => hfull (Or.inl hnl)
  | refuse hplain hroom =>
    rw [hedits.room_iff] at hroom
    rw [Editor.type_refused hplain hroom]
    exact hedits

theorem note_killLine {x : Bool} {d' : Console} {l' : ConsoleLocal} {chan : Nat}
    (hnote : ConsoleLocal.killLine.note g d)
    (hmove : ConsoleMove chan d x .killLine (.step d' l')) : l'.note g d' := by
  obtain ⟨hline, erased, hedits⟩ := hnote
  cases hmove with
  | killOne hmore =>
    rcases List.eq_nil_or_concat erased with rfl | ⟨erased, c, rfl⟩
    · exact absurd (hedits.e_eq_w.mpr (by simp [hline])) hmore.1
    · rw [List.concat_eq_append] at hedits
      exact ⟨hline, erased, hedits.eraseLast⟩
  | killed hdone =>
    rcases List.eq_nil_or_concat erased with rfl | ⟨erased, c, rfl⟩
    · exact hedits
    -- the line holds no newline, so that the loop does not stop before its start
    · rw [List.concat_eq_append] at hedits
      refine absurd ⟨mt hedits.e_eq_w.mp (by simp), ?_⟩ hdone
      rw [hedits.last_cell]
      rintro rfl
      exact hedits.clean (by simp)

theorem console_session (chan : Nat) : Session (console chan) (fun _ _ x => x = true)
    Editor.record Editor.empty (fun g d => Edits g 0 [] d) ConsoleLocal.note where
  start := by
    rintro d ⟨hr, hw, he⟩
    refine ⟨?_, ?_, ?_, ?_, ?_, ⟨?_, ?_, ?_⟩, ?_⟩ <;> simp [Editor.empty, hr, hw, he]
  entry := by
    intro p l g d hentry hJ
    cases l with
    | read n target => exact ⟨eq_of_beq hentry ▸ UInt32.le_refl _, hJ⟩
    | _ => exact absurd hentry Bool.false_ne_true
  handler := by
    intro l g d hhandler hJ
    cases l with
    | intr c => exact hJ
    | _ => exact absurd hhandler Bool.false_ne_true
  step := by
    intro l g d x d' l' hx hnote hnext
    have hmove := console_move hnext
    cases l with
    | got n target c => exact note_got hx hnote hmove
    | intr c => exact note_intr hnote hmove
    | killLine =>
      rw [Editor.record_quiet rfl rfl]
      exact note_killLine hnote hmove
    | read n target =>
      cases hmove with
      | take hwanted hne =>
        obtain ⟨hedits, hc⟩ := hnote.2.take hne
        rw [Editor.record_quiet rfl rfl]
        exact ⟨hwanted, hnote.1, hedits, hc⟩
    | _ => cases hmove
  killed := by
    intro l g d x l' _ hnote hnext b
    cases console_move hnext with
    | wait =>
      rw [Editor.record_quiet rfl rfl]
      cases b
      · exact hnote
      · exact hnote.2
  wakeup := by
    intro l g d x chan' l' _ hnote hnext
    cases console_move hnext with
    | intrWake =>
      rw [Editor.record_quiet rfl rfl]
      exact hnote
  sleep := by
    intro l g d x chan' l' _ hnote hnext
    cases console_move hnext with
    | readSleep =>
      rw [Editor.record_quiet rfl rfl]
      exact ⟨hnote.2, fun hJ => ⟨hnote.1, hJ⟩⟩
  release := by
    intro l g d x l' _ hnote hnext
    cases console_move hnext with
    | satisfied | readEnd =>
      rw [Editor.record_quiet rfl rfl]
      exact hnote.2
    | readKilled | intrEnd | returned =>
      rw [Editor.record_quiet rfl rfl]
      exact hnote

end Outline

section Calls

def copiedOut (l : ConsoleLocal) (_ : Console) (x : Bool) (bytes : List UInt8) : List UInt8 :=
  match l with
  | .got _ _ c => if c ≠ endOfFile ∧ x = true then bytes ++ [c] else bytes
  | _ => bytes

def ConsoleLocal.counts : ConsoleLocal → List UInt8 → Prop
  | .read n target, bytes | .readSleep n target, bytes | .readEnd n target, bytes =>
      bytes.length + n.toNat = target.toNat
  | .got n target _, bytes => Wanted n ∧ bytes.length + n.toNat = target.toNat
  | .readKilled, _ => True
  | .returned ret, bytes => ret = -1 ∨ ret.toNat = bytes.length
  | .intr _, bytes | .killLine, bytes | .intrWake, bytes | .intrEnd, bytes => bytes = []

theorem counts_returned {n target : UInt32} {bytes : List UInt8}
    (h : bytes.length + n.toNat = target.toNat) : (target - n).toNat = bytes.length := by
  have := target.toNat_lt
  rw [UInt32.toNat_sub]
  omega

theorem counts_copied {n target : UInt32} {bytes : List UInt8} {c : UInt8} (hn : Wanted n)
    (h : bytes.length + n.toNat = target.toNat) :
    (bytes ++ [c]).length + (n - 1).toNat = target.toNat := by
  have := n.toNat_lt
  have hpos := hn.1
  rw [UInt32.toNat_sub, UInt32.toNat_one, List.length_append, List.length_singleton]
  omega

theorem console_counts (chan : Nat) :
    OwnSession (console chan) [] copiedOut ConsoleLocal.counts where
  entry := by
    intro p l hentry
    cases l <;> simp_all [console, ConsoleLocal.counts]
  handler := by
    intro l hhandler
    cases l <;> simp_all [console, ConsoleLocal.counts]
  next := by
    intro l d x bytes hcounts
    generalize hnext : (console chan).next l d x = cmd
    cases console_move hnext with
    | wait =>
      intro b
      cases b
      · exact hcounts
      · trivial
    | take hwanted => exact ⟨hwanted, hcounts⟩
    | satisfied | readEnd => exact Or.inr (counts_returned hcounts)
    | readKilled => exact Or.inl rfl
    | readSleep | returned => exact hcounts
    | putBack heof | eof heof =>
      simp only [copiedOut, heof, ne_eq, not_true_eq_false, false_and, if_false]
      exact hcounts.2
    | line hne hx | byte hne hx =>
      simp only [copiedOut, if_pos (And.intro hne hx)]
      exact counts_copied hcounts.1 hcounts.2
    | copyoutFail hne hx =>
      simp only [copiedOut, if_neg fun h : _ ∧ x = true => hx h.2]
      exact hcounts.2
    | intrEnd => exact Or.inr (congrArg List.length (Eq.symm hcounts))
    | _ =>
      exact hcounts

end Calls

section Run

variable {K : Type} [DecidableEq K] [Fintype K] {chan : Nat} {s t : State Console ConsoleLocal K}
  {steps : List (State Console ConsoleLocal K × Action ConsoleLocal Bool K)}

def editor (steps : List (State Console ConsoleLocal K × Action ConsoleLocal Bool K)) : Editor :=
  history Editor.record Editor.empty steps

def callBytes (steps : List (State Console ConsoleLocal K × Action ConsoleLocal Bool K))
    (c : Ctx K) : List UInt8 :=
  ownHistory [] copiedOut c steps

omit [DecidableEq K] [Fintype K] in
theorem edits_of_kept {g : Editor} (h : Kept (console chan) (fun g d => Edits g 0 [] d)
    ConsoleLocal.note g t) : ∃ unread erased, Edits g unread erased t.data := by
  cases hlk : t.lk with
  | none => exact ⟨0, [], h.free hlk⟩
  | some c =>
    have hholds := (h.wf.lk () c).mp hlk
    have hnote := h.pos c
    generalize t.pos c = pos at hholds hnote
    cases pos with
    | outside last | entering l => cases hholds
    | inside l | waking chan' i stage l => exact hnote.edits
    | sleeping chan' stage l =>
      cases stage with
      | acquire | release => exact ⟨0, [], hnote.1⟩
      | _ => cases hholds

/-- In any run of interrupts and reads whose copies succeed, the readers get a
beginning of what the editor commits. -/
theorem console_line_discipline (hs : Start (console chan) s)
    (hpath : (system (console chan) K).Path (Permits fun _ _ x => x = true) s steps t) :
    (t.data.w - t.data.r).toNat ≤ (t.data.e - t.data.r).toNat ∧
    (t.data.e - t.data.r).toNat ≤ inputBufSize ∧
    (editor steps).delivered <+: (editor steps).committed ∧
    (∀ c n target, t.pos c = .inside (.readEnd n target) → Ended n target (editor steps)) ∧
    ∀ c ret, t.pos c = .outside (some (.returned ret)) →
      ret = -1 ∨ ret.toNat = (callBytes steps c).length := by
  have hkept := (console_session chan).path hs hpath
  obtain ⟨unread, erased, hedits⟩ := edits_of_kept hkept
  refine ⟨hedits.distances.1, hedits.distances.2, hedits.taken, ?_, ?_⟩
  · intro c n target hpos
    have hnote := hkept.pos c
    rw [hpos] at hnote
    exact hnote.1
  · intro c ret hpos
    refine (console_counts chan).path hs hpath (.returned ret) ?_
    rw [hpos]
    rfl

end Run

section Sample

def quietConsole : State Console ConsoleLocal Unit :=
  .quiet ⟨fun _ => 0, 0, 0, 0⟩ fun q => { Proc.empty with state := .running, pid := q + 1 }

def typeChar (c : UInt8) (steps : Nat) : List (Action ConsoleLocal Bool Unit) :=
  [.interrupt () none (.intr c), .acquire (.inr ())] ++ List.replicate steps (.run (.inr ()) true)

/-- `a`, a backspace, `b` and a carriage return are typed; slot 1 reads. -/
def typeAndRead : List (Action ConsoleLocal Bool Unit) :=
  typeChar 97 2 ++ typeChar 127 2 ++ typeChar 98 2 ++ typeChar 13 2 ++
  List.replicate 193 (.wake (.inr ())) ++ [.run (.inr ()) true] ++
  [.enter 1 (.read 5 5), .acquire (.inl 1)] ++ List.replicate 5 (.run (.inl 1) true)

theorem typeAndRead_observed : (system (console 0) Unit).observedPath
    (Permits fun _ _ x => x = true)
    (fun steps _ => ((editor steps).committed, (editor steps).delivered, callBytes steps (.inl 1)))
    quietConsole typeAndRead = some ([98, 10], [98, 10], [98, 10]) := by
  decide +kernel

end Sample

theorem console_line_discipline_read :
    ∃ (steps : List (State Console ConsoleLocal Unit × Action ConsoleLocal Bool Unit))
      (t : State Console ConsoleLocal Unit),
      (system (console 0) Unit).Path (Permits fun _ _ x => x = true) quietConsole steps t ∧
      (editor steps).delivered = [98, 10] ∧ (t.data.e - t.data.r).toNat ≤ inputBufSize ∧
      (editor steps).delivered <+: (editor steps).committed := by
  obtain ⟨steps, t, hpath, hobserved⟩ := System.Path.of_observedPath typeAndRead_observed
  simp only [Prod.mk.injEq] at hobserved
  have hdiscipline := console_line_discipline
    (State.quiet_start _ ⟨rfl, rfl, rfl⟩ fun _ => by simp) hpath
  exact ⟨steps, t, hpath, hobserved.2.1, hdiscipline.2.1, hdiscipline.2.2.1⟩

end Xv6.Ipc
