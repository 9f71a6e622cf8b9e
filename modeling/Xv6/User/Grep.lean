import Xv6.Lib.Lines
import Xv6.User.Match
import Xv6.User.Memmove

/-! The loop of `grep` (grep.c): lines are put together in a buffer of 1024 bytes, from
pieces of the input of any size. -/
namespace Xv6.User

open Lib

def newline : Chr := ⟨10, by decide⟩

def bufSize : Nat := 1024

section Code

variable (buf : Addr)

def byteIn (mem : Memory) (i : Nat) : UInt8 := mem (buf + BitVec.ofNat 64 i)

def setIn (mem : Memory) (i : Nat) (b : UInt8) : Memory :=
  Function.update mem (buf + BitVec.ofNat 64 i) b

def fill (mem : Memory) (i : Nat) : Text → Memory
  | [] => mem
  | c :: piece => fill (setIn buf mem i c) (i + 1) piece

def strchr (mem : Memory) (c : UInt8) : Nat → Nat → Option Nat
  | 0, _ => none
  | more + 1, i =>
      if byteIn buf mem i = 0 then none
      else if byteIn buf mem i = c then some i
      else strchr mem c more (i + 1)

def stringAt (mem : Memory) : Nat → Nat → Text
  | 0, _ => []
  | more + 1, i =>
      if h : byteIn buf mem i = 0 then [] else ⟨byteIn buf mem i, h⟩ :: stringAt mem more (i + 1)

def bytesIn (mem : Memory) (p q : Nat) : List UInt8 := (List.range' p (q - p)).map (byteIn buf mem)

/-- The inner loop, over the lines in the buffer from `p` on: what it writes, and then the
beginning of the incomplete line, and the memory. -/
def lineLoop (pattern : Text) : Nat → Nat → Memory → List (List UInt8) × Nat × Memory
  | 0, p, mem => ([], p, mem)
  | more + 1, p, mem =>
      match strchr buf mem newline bufSize p with
      | none => ([], p, mem)
      | some q =>
          let mem := setIn buf mem q 0
          if grepMatch pattern (stringAt buf mem bufSize p) then
            let mem := setIn buf mem q newline
            let (writes, p', mem') := lineLoop pattern more (q + 1) mem
            (bytesIn buf mem p (q + 1) :: writes, p', mem')
          else lineLoop pattern more (q + 1) mem

def readPiece (want size : Nat) (input : Text) : Text × Text :=
  input.splitAt (min (max 1 want) size)

def grepLoop (pattern : Text) (pieces : Nat → Nat) :
    Nat → Nat → Nat → Memory → Text → List (List UInt8)
  | 0, _, _, _, _ => []
  | rounds + 1, k, m, mem, input =>
      let (piece, input) := readPiece (pieces k) (bufSize - m - 1) input
      if piece = [] then []
      else
        let mem := fill buf mem m piece
        let m := m + piece.length
        let mem := setIn buf mem m 0
        let (writes, p, mem) := lineLoop buf pattern bufSize 0 mem
        if m > 0 then
          let m := m - p
          let mem := (memmove buf (buf + BitVec.ofNat 64 p) (Int32.ofNat m) mem).2
          writes ++ grepLoop pattern pieces rounds (k + 1) m mem input
        else writes ++ grepLoop pattern pieces rounds (k + 1) m mem input

/-- `grep(pattern, fd)`: what it writes, if the `k`th `read` returns `pieces k` bytes, or fewer
if there is less room or input. No round is without input but the last. -/
def grep (pattern : Text) (pieces : Nat → Nat) (mem : Memory) (input : Text) :
    List (List UInt8) :=
  grepLoop buf pattern pieces (input.length + 1) 0 0 mem input

end Code

section Window

variable {buf : Addr} {mem : Memory} {i j p : Nat} {t : Text}

theorem byteIn_setIn_self (b : UInt8) : byteIn buf (setIn buf mem i b) i = b :=
  Function.update_self ..

theorem byteIn_setIn_of_ne (h : j ≠ i) (hi : i < 2 ^ 64) (hj : j < 2 ^ 64) (b : UInt8) :
    byteIn buf (setIn buf mem i b) j = byteIn buf mem j := by
  apply Function.update_of_ne
  bv_omega

def Holds (buf : Addr) (mem : Memory) (i : Nat) (t : Text) : Prop :=
  ∀ j (c : Chr), t[j]? = some c → byteIn buf mem (i + j) = c

theorem Holds.of_cons {c : Chr} (h : Holds buf mem i (c :: t)) :
    byteIn buf mem i = c ∧ Holds buf mem (i + 1) t := by
  refine ⟨h 0 c rfl, fun j d hd => ?_⟩
  rw [Nat.add_assoc, Nat.add_comm 1]
  exact h (j + 1) d hd

theorem Holds.of_append {t' : Text} (h : Holds buf mem i (t ++ t')) :
    Holds buf mem i t ∧ Holds buf mem (i + t.length) t' := by
  constructor
  · intro j c hc
    refine h j c ?_
    rw [List.getElem?_append_left (List.getElem?_eq_some_iff.mp hc).1, hc]
  · intro j c hc
    rw [Nat.add_assoc]
    refine h (t.length + j) c ?_
    rw [List.getElem?_append_right (Nat.le_add_right _ _), Nat.add_sub_cancel_left, hc]

theorem Holds.append {t' : Text} (h : Holds buf mem i t) (h' : Holds buf mem (i + t.length) t') :
    Holds buf mem i (t ++ t') := by
  intro j c hc
  by_cases hj : j < t.length
  · rw [List.getElem?_append_left hj] at hc
    exact h j c hc
  · rw [List.getElem?_append_right (Nat.not_lt.mp hj)] at hc
    have := h' _ c hc
    rwa [Nat.add_assoc, Nat.add_sub_cancel' (Nat.not_lt.mp hj)] at this

theorem Holds.congr {mem' : Memory} (h : Holds buf mem i t)
    (hsame : ∀ j, j < t.length → byteIn buf mem' (i + j) = byteIn buf mem (i + j)) :
    Holds buf mem' i t := by
  intro j c hc
  rw [hsame j (List.getElem?_eq_some_iff.mp hc).1]
  exact h j c hc

theorem byteIn_fill_of_lt (hj : j < i) (hi : i + t.length ≤ 2 ^ 64) :
    byteIn buf (fill buf mem i t) j = byteIn buf mem j := by
  induction t generalizing i mem with
  | nil => rfl
  | cons c t ih =>
    rw [List.length_cons] at hi
    rw [fill, ih (by omega) (by omega), byteIn_setIn_of_ne (by omega) (by omega) (by omega)]

theorem holds_fill (hi : i + t.length ≤ 2 ^ 64) : Holds buf (fill buf mem i t) i t := by
  induction t generalizing i mem with
  | nil => intro j c hc; cases hc
  | cons c t ih =>
    rw [List.length_cons] at hi
    intro j d hd
    cases j with
    | zero =>
      cases hd
      rw [fill, byteIn_fill_of_lt (i := i + 1) (by omega) (by omega), Nat.add_zero,
        byteIn_setIn_self]
    | succ j =>
      rw [fill, Nat.add_comm j, ← Nat.add_assoc]
      exact ih (by omega) j d hd

theorem strchr_line {line : Text} {more : Nat} (hholds : Holds buf mem p (line ++ newline :: t))
    (hline : newline ∉ line) (hmore : line.length < more) :
    strchr buf mem newline more p = some (p + line.length) := by
  induction line generalizing p more with
  | nil =>
    obtain ⟨hbyte, -⟩ := hholds.of_cons
    cases more with
    | zero => cases hmore
    | succ more =>
      rw [strchr, hbyte, if_neg newline.property, if_pos rfl]
      rfl
  | cons c line ih =>
    obtain ⟨hbyte, hrest⟩ := hholds.of_cons
    rw [List.mem_cons, not_or] at hline
    cases more with
    | zero => cases hmore
    | succ more =>
      have hne : ¬(c.val = newline.val) := fun h => hline.1 (Subtype.ext h.symm)
      rw [strchr, hbyte, if_neg c.property, if_neg hne,
        ih hrest hline.2 (Nat.lt_of_succ_lt_succ hmore), List.length_cons, Nat.add_assoc,
        Nat.add_comm 1]

theorem strchr_none {more : Nat} (hholds : Holds buf mem p t)
    (hnul : byteIn buf mem (p + t.length) = 0) (ht : newline ∉ t) :
    strchr buf mem newline more p = none := by
  induction t generalizing p more with
  | nil =>
    cases more with
    | zero => rfl
    | succ more =>
      rw [strchr]
      exact if_pos hnul
  | cons c t ih =>
    obtain ⟨hbyte, hrest⟩ := hholds.of_cons
    rw [List.mem_cons, not_or] at ht
    cases more with
    | zero => rfl
    | succ more =>
      have hne : ¬(c.val = newline.val) := fun h => ht.1 (Subtype.ext h.symm)
      rw [List.length_cons, Nat.add_comm t.length, ← Nat.add_assoc] at hnul
      rw [strchr, hbyte, if_neg c.property, if_neg hne, ih hrest hnul ht.2]

theorem stringAt_eq {more : Nat} (hholds : Holds buf mem p t)
    (hnul : byteIn buf mem (p + t.length) = 0) (hmore : t.length ≤ more) :
    stringAt buf mem more p = t := by
  induction t generalizing p more with
  | nil =>
    cases more with
    | zero => rfl
    | succ more =>
      rw [stringAt]
      exact dif_pos hnul
  | cons c t ih =>
    obtain ⟨hbyte, hrest⟩ := hholds.of_cons
    cases more with
    | zero => cases hmore
    | succ more =>
      rw [List.length_cons, Nat.add_comm t.length, ← Nat.add_assoc] at hnul
      have hne : ¬byteIn buf mem p = 0 := by
        rw [hbyte]
        exact c.property
      rw [stringAt, dif_neg hne, ih hrest hnul (Nat.le_of_succ_le_succ hmore)]
      exact congrArg (· :: t) (Subtype.ext hbyte)

theorem bytesIn_eq (hholds : Holds buf mem p t) :
    bytesIn buf mem p (p + t.length) = t.map Subtype.val := by
  unfold bytesIn
  rw [Nat.add_sub_cancel_left]
  induction t generalizing p with
  | nil => rfl
  | cons c t ih =>
    obtain ⟨hbyte, hrest⟩ := hholds.of_cons
    rw [List.length_cons, List.range'_succ, List.map_cons, List.map_cons, hbyte, ih hrest]

theorem Holds.set {q : Nat} (h : Holds buf mem i t) (hout : q < i ∨ i + t.length ≤ q)
    (hi : i + t.length ≤ 2 ^ 64) (hq : q < 2 ^ 64) (b : UInt8) :
    Holds buf (setIn buf mem q b) i t := by
  apply h.congr
  intro j hj
  exact byteIn_setIn_of_ne (by omega) hq (by omega) b

theorem holds_memmove (hbuf : buf.toNat + bufSize ≤ 2 ^ 64) (hp : p + t.length < bufSize)
    (h : Holds buf mem p t) :
    Holds buf (memmove buf (buf + BitVec.ofNat 64 p) (Int32.ofNat t.length) mem).2 0 t := by
  unfold bufSize at hbuf hp
  have hlen : (Int32.ofNat t.length).toInt = t.length := Int32.toInt_ofNat_of_lt (by omega)
  have hsrc : (buf + BitVec.ofNat 64 p).toNat + t.length ≤ 2 ^ 64 := by
    rw [toNat_offset (by omega)]
    omega
  have hdst : buf.toNat + t.length ≤ 2 ^ 64 := by omega
  obtain ⟨-, hmoved⟩ := memmove_moved hlen hdst hsrc mem
  intro j c hc
  rw [Nat.zero_add, byteIn, hmoved.copied j (List.getElem?_eq_some_iff.mp hc).1, BitVec.add_assoc,
    ← BitVec.ofNat_add]
  exact h j c hc

end Window

section Spec

variable {buf : Addr} {pattern : Text}

def printed (pattern : Text) (ls : List Text) : List (List UInt8) :=
  (ls.filter (grepMatch pattern)).map fun line => (line ++ [newline]).map Subtype.val

theorem printed_append (ls ls' : List Text) :
    printed pattern (ls ++ ls') = printed pattern ls ++ printed pattern ls' := by
  unfold printed
  rw [List.filter_append, List.map_append]

theorem lineLoop_spec {more p : Nat} {mem : Memory} {t : Text} (hholds : Holds buf mem p t)
    (hnul : byteIn buf mem (p + t.length) = 0) (hroom : p + t.length < bufSize)
    (hmore : t.length < more) :
    (lineLoop buf pattern more p mem).1 = printed pattern (lines newline t).1 ∧
      (lineLoop buf pattern more p mem).2.1 + (lines newline t).2.length = p + t.length ∧
      Holds buf (lineLoop buf pattern more p mem).2.2 (lineLoop buf pattern more p mem).2.1
        (lines newline t).2 := by
  induction more generalizing p mem t with
  | zero => cases hmore
  | succ more ih =>
    by_cases hmem : newline ∈ t
    · obtain ⟨line, rest, rfl, hline⟩ := eq_append_of_mem hmem
      rw [List.length_append, List.length_cons] at hnul hroom hmore
      rw [lineLoop, strchr_line hholds hline (by omega), lines_cons hline]
      generalize hq : p + line.length = q
      obtain ⟨hthis, hnext⟩ := hholds.of_append
      have hrest := hnext.of_cons.2
      rw [hq] at hrest
      have hbound : bufSize ≤ 2 ^ 64 := by decide
      have hwhole : p + (line ++ newline :: rest).length = q + 1 + rest.length := by
        rw [List.length_append, List.length_cons]
        omega
      -- the line is a string while the newline is NUL
      have hline₁ : Holds buf (setIn buf mem q 0) p line :=
        hthis.set (by omega) (by omega) (by omega) 0
      have hrest₁ : Holds buf (setIn buf mem q 0) (q + 1) rest :=
        hrest.set (by omega) (by omega) (by omega) 0
      have hnul₁ : byteIn buf (setIn buf mem q 0) (q + 1 + rest.length) = 0 := by
        rw [byteIn_setIn_of_ne (by omega) (by omega) (by omega), ← hwhole]
        rwa [List.length_append, List.length_cons]
      have hstring : stringAt buf (setIn buf mem q 0) bufSize p = line :=
        stringAt_eq hline₁ (by rw [hq]; exact byteIn_setIn_self 0) (by omega)
      dsimp only
      rw [hstring, hwhole, printed, List.filter_cons]
      by_cases hmatch : grepMatch pattern line = true
      · rw [if_pos hmatch, if_pos hmatch]
        generalize hmem₂ : setIn buf (setIn buf mem q 0) q newline = mem₂
        have hline₂ : Holds buf mem₂ p (line ++ [newline]) := by
          rw [← hmem₂]
          apply (hline₁.set (by omega) (by omega) (by omega) _).append
          intro j c hc
          rw [List.getElem?_singleton] at hc
          split at hc
          · rename_i hj
            cases hc
            rw [hj, Nat.add_zero, hq, byteIn_setIn_self]
          · cases hc
        have hrest₂ : Holds buf mem₂ (q + 1) rest := by
          rw [← hmem₂]
          exact hrest₁.set (by omega) (by omega) (by omega) _
        have hnul₂ : byteIn buf mem₂ (q + 1 + rest.length) = 0 := by
          rw [← hmem₂, byteIn_setIn_of_ne (by omega) (by omega) (by omega), hnul₁]
        obtain ⟨hwrites, hstop, hleft⟩ := ih hrest₂ hnul₂ (by omega) (by omega)
        have hbytes := bytesIn_eq hline₂
        rw [List.length_append, List.length_singleton, ← Nat.add_assoc, hq] at hbytes
        refine ⟨?_, hstop, hleft⟩
        rw [List.map_cons, hbytes]
        exact congrArg _ hwrites
      · rw [if_neg hmatch, if_neg hmatch]
        exact ih hrest₁ hnul₁ (by omega) (by omega)
    · rw [lineLoop, strchr_none hholds hnul hmem, lines_of_not_mem hmem]
      exact ⟨rfl, rfl, hholds⟩

/-- The buffer has room for the line, its newline and a NUL. -/
def short (line : Text) : Bool := decide (line.length + 2 ≤ bufSize)

theorem short_of_mem {line t : Text} (hline : line ∈ (lines newline t).1)
    (ht : t.length < bufSize) : short line = true := by
  have hlen := length_lt_of_mem_lines hline
  rw [short, decide_eq_true_iff]
  omega

theorem takeWhile_of_full {tail input : Text} (htail : newline ∉ tail)
    (hfull : bufSize ≤ tail.length + 1) :
    (lines newline (tail ++ input)).1.takeWhile short = [] := by
  by_cases hmem : newline ∈ input
  · obtain ⟨line, rest, rfl, hline⟩ := eq_append_of_mem hmem
    have hnot : newline ∉ tail ++ line := by
      rw [List.mem_append, not_or]
      exact ⟨htail, hline⟩
    have hlong : ¬short (tail ++ line) = true := by
      rw [short, decide_eq_true_iff, List.length_append]
      omega
    rw [← List.append_assoc, lines_cons hnot, List.takeWhile_cons_of_neg hlong]
  · have hnot : newline ∉ tail ++ input := by
      rw [List.mem_append, not_or]
      exact ⟨htail, hmem⟩
    rw [lines_of_not_mem hnot]
    rfl

theorem grepLoop_spec {pieces : Nat → Nat} {rounds k : Nat} {mem : Memory} {tail input : Text}
    (hbuf : buf.toNat + bufSize ≤ 2 ^ 64) (htail : newline ∉ tail) (hroom : tail.length < bufSize)
    (hholds : Holds buf mem 0 tail) (hrounds : input.length < rounds) :
    grepLoop buf pattern pieces rounds k tail.length mem input =
      printed pattern ((lines newline (tail ++ input)).1.takeWhile short) := by
  induction rounds generalizing k mem tail input with
  | zero => cases hrounds
  | succ rounds ih =>
    rw [grepLoop, readPiece, List.splitAt_eq]
    generalize hn : min (max 1 (pieces k)) (bufSize - tail.length - 1) = n
    dsimp only
    by_cases hnone : input.take n = []
    · rw [if_pos hnone]
      rcases List.take_eq_nil_iff.mp hnone with hzero | rfl
      · rw [takeWhile_of_full htail (by omega)]
        rfl
      · rw [List.append_nil, lines_of_not_mem htail]
        rfl
    rw [if_neg hnone]
    have hlen : (input.take n).length ≤ n := List.length_take_le _ _
    have hpos : 0 < (input.take n).length := List.length_pos_iff.mpr hnone
    have hinput : input = input.take n ++ input.drop n := (List.take_append_drop n input).symm
    generalize input.take n = piece at hlen hpos hinput ⊢
    generalize input.drop n = input' at hinput ⊢
    subst hinput
    rw [List.length_append] at hrounds
    have hfits : tail.length + piece.length < bufSize := by omega
    have hbound : bufSize ≤ 2 ^ 64 := by decide
    -- the buffer has the incomplete line and the new piece, and a NUL
    generalize hmem₁ : setIn buf (fill buf mem tail.length piece) (tail.length + piece.length) 0 =
      mem₁
    have hheld : Holds buf mem₁ 0 (tail ++ piece) := by
      have hfilled : Holds buf (fill buf mem tail.length piece) 0 (tail ++ piece) := by
        apply Holds.append
        · apply hholds.congr
          intro j hj
          exact byteIn_fill_of_lt (by omega) (by omega)
        · rw [Nat.zero_add]
          exact holds_fill (by omega)
      rw [← hmem₁]
      apply hfilled.set _ _ (by omega)
      · rw [List.length_append]
        omega
      · rw [List.length_append]
        omega
    have hnul : byteIn buf mem₁ (0 + (tail ++ piece).length) = 0 := by
      rw [← hmem₁, Nat.zero_add, List.length_append]
      exact byteIn_setIn_self 0
    have hsmall : (tail ++ piece).length < bufSize := by rwa [List.length_append]
    have hlines := @lineLoop_spec buf pattern bufSize 0 mem₁ _ hheld hnul (by omega) hsmall
    generalize lineLoop buf pattern bufSize 0 mem₁ = result at hlines ⊢
    obtain ⟨writes, p, mem₂⟩ := result
    dsimp only at hlines ⊢
    obtain ⟨hwrites, hstop, hleft⟩ := hlines
    rw [List.length_append, Nat.zero_add] at hstop
    rw [if_pos (by omega), ← List.append_assoc, lines_append (tail ++ piece),
      List.takeWhile_append_of_pos fun line hline => short_of_mem hline hsmall, printed_append,
      ← hwrites]
    generalize hrest : (lines newline (tail ++ piece)).2 = rest at *
    have hlength : tail.length + piece.length - p = rest.length := by omega
    rw [hlength]
    apply congrArg (writes ++ ·)
    apply ih
    · rw [← hrest]
      exact rest_not_mem _
    · omega
    · exact holds_memmove hbuf (by omega) hleft
    · omega

end Spec

def inputLines (input : Text) : List Text :=
  (lines newline input).1 ++
    if (lines newline input).2 = [] then [] else [(lines newline input).2]

/-- The lines that `grep` does not look at: those from the first one on that is too long for
the buffer, and a last one without a newline. -/
def skippedLines (input : Text) : List Text :=
  (lines newline input).1.dropWhile short ++
    if (lines newline input).2 = [] then [] else [(lines newline input).2]

theorem inputLines_eq (input : Text) :
    inputLines input = (lines newline input).1.takeWhile short ++ skippedLines input := by
  rw [inputLines, skippedLines, ← List.append_assoc, List.takeWhile_append_dropWhile]

theorem printed_eq_nil_iff {pattern : Text} {ls : List Text} :
    printed pattern ls = [] ↔ ∀ line ∈ ls, grepMatch pattern line = false := by
  rw [printed, List.map_eq_nil_iff, List.filter_eq_nil_iff]
  simp only [Bool.not_eq_true]

theorem grep_eq {buf : Addr} (hbuf : buf.toNat + bufSize ≤ 2 ^ 64) (pattern input : Text)
    (pieces : Nat → Nat) (mem : Memory) : grep buf pattern pieces mem input =
      printed pattern ((lines newline input).1.takeWhile short) := by
  have hnothing : Holds buf mem 0 [] := fun j c hc => by cases hc
  exact grepLoop_spec hbuf List.not_mem_nil (by decide) hnothing (Nat.lt_succ_self _)

/-- `grep` prints the lines that match, however its input comes, if and only if none of the
lines that it does not look at matches. -/
theorem grep_prints {buf : Addr} (hbuf : buf.toNat + bufSize ≤ 2 ^ 64) (pattern input : Text)
    (pieces : Nat → Nat) (mem : Memory) :
    grep buf pattern pieces mem input = printed pattern (inputLines input) ↔
      ∀ line ∈ skippedLines input, grepMatch pattern line = false := by
  rw [grep_eq hbuf, inputLines_eq, printed_append, List.self_eq_append_right, printed_eq_nil_iff]

section Sample

def letterA : Chr := ⟨97, by decide⟩

def letterB : Chr := ⟨98, by decide⟩

def longInput : Text := List.replicate 1023 letterA ++ [newline, letterB, newline]

end Sample

/-- Behind a line that is too long nothing is printed, which is right if nothing matches. -/
theorem grep_prints_long_line :
    grep 0 [letterA, letterB] (fun _ => 7) (fun _ => 0) longInput =
      printed [letterA, letterB] (inputLines longInput) ∧
    grep 0 [letterB] (fun _ => 7) (fun _ => 0) longInput ≠
      printed [letterB] (inputLines longInput) := by
  have hprints := fun pattern => @grep_prints 0 (by decide) pattern longInput
    (fun _ => 7) (fun _ => 0)
  refine ⟨(hprints _).mpr (by decide +kernel), fun heq => ?_⟩
  have hnot : ¬∀ line ∈ skippedLines longInput, grepMatch [letterB] line = false := by
    decide +kernel
  exact hnot ((hprints _).mp heq)

/-- A last line without a newline is not printed. -/
theorem grep_drops_last_line : inputLines [letterA] = [[letterA]] ∧
    grepMatch [letterA] [letterA] = true ∧
    grep 0 [letterA] (fun _ => 1) (fun _ => 0) [letterA] = [] := by
  exact ⟨rfl, by decide, grep_eq (by decide) _ _ _ _⟩

end Xv6.User
