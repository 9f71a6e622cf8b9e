import Mathlib.Data.List.GetD
import Mathlib.Data.Nat.Digits.Lemmas
import Mathlib.Tactic.Common

/-! `printint` of the kernel and of the user library (both in printf.c): the digits go into a
buffer of 20 characters, the last one first, and are printed from its end. -/
namespace Xv6.User

/-- `buf[i++] = c;` in `char buf[20]`, of which `buf` are the first `i` characters. -/
def store (buf : List Char) (c : Char) : Option (List Char) :=
  if buf.length < 20 then some (buf ++ [c]) else none

/-- `do { buf[i++] = digits[x % base]; } while((x /= base) != 0);` in so many rounds. There is
no result if the buffer is too small, or if that many rounds are not enough. -/
def digitLoop (digits : List Char) (base : BitVec 64) :
    Nat → BitVec 64 → List Char → Option (List Char)
  | 0, _, _ => none
  | rounds + 1, x, buf => do
      let buf ← store buf (digits.getD (x % base).toNat '?')
      if x / base ≠ 0 then digitLoop digits base rounds (x / base) buf else return buf

def emit (buf : List Char) : Nat → List Char
  | 0 => []
  | i + 1 => buf.getD i '?' :: emit buf i

def printDigits (digits : List Char) (x : BitVec 64) (base : Int32) (neg : Bool) :
    Option (List Char) := do
  let buf ← digitLoop digits (base.toBitVec.signExtend 64) 64 x []
  let buf ← if neg then store buf '-' else some buf
  return emit buf buf.length

def lowerDigits : List Char := "0123456789abcdef".toList

def upperDigits : List Char := "0123456789ABCDEF".toList

/-- `printint` of the kernel: what it hands to `consputc`. -/
def kprintint (xx : BitVec 64) (base sign : Int32) : Option (List Char) :=
  -- `if(sign && (sign = (xx < 0)))`
  let sign := if sign ≠ 0 then xx.slt 0 else false
  let x := if sign then -xx else xx
  printDigits lowerDigits x base sign

def printint (xx : BitVec 64) (base sgn : Int32) : Option (List Char) :=
  if sgn ≠ 0 ∧ xx.slt 0 then printDigits upperDigits (-xx) base true
  else printDigits upperDigits xx base false

/-- The digits of a number, the first one first, without leading zeros. -/
structure Numeral (base n : Nat) (digits : List Nat) : Prop where
  nonempty : digits ≠ []
  digit : ∀ d ∈ digits, d < base
  value : Nat.ofDigits base digits.reverse = n
  leading : digits.head? = some 0 → digits = [0]

def valueOf (xx : BitVec 64) (sgn : Int32) : Int := if sgn ≠ 0 then xx.toInt else xx.toNat

def rendered (digits : List Char) (v : Int) (numeral : List Nat) : List Char :=
  (if v < 0 then ['-'] else []) ++ numeral.map (digits.getD · '?')

section Digits

variable {digits : List Char} {b n : Nat}

def lowFirst (b n : Nat) : List Nat := if n = 0 then [0] else b.digits n

theorem lowFirst_eq (hb : 1 < b) (n : Nat) :
    lowFirst b n = n % b :: if n / b = 0 then [] else lowFirst b (n / b) := by
  unfold lowFirst
  by_cases hn : n = 0
  · simp [hn]
  · rw [if_neg hn, Nat.digits_def' hb (Nat.pos_of_ne_zero hn)]
    by_cases hq : n / b = 0
    · simp [hq]
    · simp only [if_neg hq]

theorem numeral_lowFirst (hb : 1 < b) (n : Nat) : Numeral b n (lowFirst b n).reverse := by
  unfold lowFirst
  split
  · rename_i hn
    exact ⟨by simp, by simp; omega, by simp [hn], by simp⟩
  · rename_i hn
    have hne : b.digits n ≠ [] := Nat.digits_ne_nil_iff_ne_zero.mpr hn
    refine ⟨by simpa using hne, ?_, ?_, ?_⟩
    · intro d hd
      exact Nat.digits_lt_base hb (List.mem_reverse.mp hd)
    · rw [List.reverse_reverse, Nat.ofDigits_digits]
    · intro hzero
      rw [List.head?_reverse, List.getLast?_eq_some_getLast hne] at hzero
      exact absurd (Option.some.inj hzero) (Nat.getLast_digit_ne_zero b hn)

theorem length_lowFirst_le {k : Nat} (hb : 1 < b) (hk : 0 < k) (hn : n < b ^ k) :
    (lowFirst b n).length ≤ k := by
  unfold lowFirst
  split
  · exact hk
  · exact (Nat.digits_length_le_iff hb n).mpr hn

theorem digitLoop_eq {base x : BitVec 64} {rounds : Nat} {buf : List Char} (hb : base.toNat = b)
    (hone : 1 < b) (hrounds : (lowFirst b x.toNat).length ≤ rounds)
    (hroom : buf.length + (lowFirst b x.toNat).length ≤ 20) :
    digitLoop digits base rounds x buf =
      some (buf ++ (lowFirst b x.toNat).map (digits.getD · '?')) := by
  induction rounds generalizing x buf with
  | zero =>
    rw [lowFirst_eq hone] at hrounds
    simp at hrounds
  | succ rounds ih =>
    have hquot : (x / base).toNat = x.toNat / b := by rw [BitVec.toNat_udiv, hb]
    have hrem : (x % base).toNat = x.toNat % b := by rw [BitVec.toNat_umod, hb]
    have hzero : x / base = 0 ↔ x.toNat / b = 0 := by
      rw [← hquot, BitVec.toNat_eq]
      rfl
    rw [lowFirst_eq hone] at hrounds hroom ⊢
    rw [List.length_cons] at hrounds hroom
    have hstore : store buf (digits.getD (x % base).toNat '?') =
        some (buf ++ [digits.getD (x.toNat % b) '?']) := by
      rw [store, if_pos (by omega), hrem]
    rw [digitLoop, hstore]
    simp only [Option.bind_eq_bind, Option.bind_some]
    by_cases hlast : x.toNat / b = 0
    · rw [if_neg (not_not.mpr (hzero.mpr hlast)), if_pos hlast]
      rfl
    · rw [if_neg hlast] at hrounds hroom
      rw [if_pos (fun h => hlast (hzero.mp h)), if_neg hlast, ih, hquot]
      · simp
      · rw [hquot]
        omega
      · rw [hquot, List.length_append, List.length_singleton]
        omega

theorem emit_eq (buf : List Char) : emit buf buf.length = buf.reverse := by
  have hstart : ∀ i, i ≤ buf.length → emit buf i = (buf.take i).reverse := by
    intro i hi
    induction i with
    | zero => simp [emit]
    | succ i ih =>
      rw [emit, ih (by omega), List.take_add_one, List.getElem?_eq_getElem (by omega),
        List.getD_eq_getElem _ _ (by omega), List.reverse_append]
      rfl
  rw [hstart _ (Nat.le_refl _), List.take_length]

theorem printDigits_eq {base : Int32} {x : BitVec 64} {neg : Bool}
    (hb : (base.toBitVec.signExtend 64).toNat = b) (hone : 1 < b)
    (hroom : (lowFirst b x.toNat).length + neg.toNat ≤ 20) :
    printDigits digits x base neg = some ((if neg then ['-'] else []) ++
      (lowFirst b x.toNat).reverse.map (digits.getD · '?')) := by
  rw [printDigits, digitLoop_eq hb hone (by omega) (by simp; omega), List.nil_append,
    List.map_reverse]
  generalize hbuf : (lowFirst b x.toNat).map (digits.getD · '?') = buf
  have hlength : buf.length = (lowFirst b x.toNat).length := by rw [← hbuf, List.length_map]
  cases neg with
  | false => exact congrArg some (emit_eq buf)
  | true =>
    have hstore : store buf '-' = some (buf ++ ['-']) := by
      rw [store, if_pos]
      rw [hlength]
      exact hroom
    show ((store buf '-').bind fun buf => some (emit buf buf.length)) = _
    rw [hstore, Option.bind_some, emit_eq, List.reverse_append]
    rfl

end Digits

section Values

variable {xx : BitVec 64} {sgn : Int32}

theorem valueOf_neg_iff : valueOf xx sgn < 0 ↔ sgn ≠ 0 ∧ xx.slt 0 = true := by
  have hslt : xx.slt 0 = true ↔ xx.toInt < 0 := by rw [BitVec.slt_iff_toInt_lt]; rfl
  rw [hslt, valueOf]
  split
  · rename_i hsgn
    exact ⟨fun h => ⟨hsgn, h⟩, And.right⟩
  · rename_i hsgn
    exact ⟨fun h => absurd h (by omega), fun h => absurd h.1 hsgn⟩

theorem toNat_neg_of_neg (h : valueOf xx sgn < 0) :
    (-xx).toNat = (valueOf xx sgn).natAbs ∧ (valueOf xx sgn).natAbs < 10 ^ 19 := by
  have hsgn := (valueOf_neg_iff.mp h).1
  rw [valueOf, if_pos hsgn, BitVec.toInt_eq_toNat_cond] at h ⊢
  have hlt := xx.isLt
  rw [BitVec.toNat_neg]
  split at h <;> omega

theorem toNat_of_nonneg (h : ¬valueOf xx sgn < 0) : xx.toNat = (valueOf xx sgn).natAbs := by
  rw [valueOf] at h ⊢
  split at h
  · rename_i hsgn
    rw [if_pos hsgn]
    rw [BitVec.toInt_eq_toNat_cond] at h ⊢
    have hlt := xx.isLt
    split at h <;> omega
  · rename_i hsgn
    rw [if_neg hsgn]
    rfl

theorem printDigits_rendered {digits : List Char} {base : Int32} {b : Nat}
    (hb : (base.toBitVec.signExtend 64).toNat = b) (hten : 10 ≤ b) :
    printDigits digits (if valueOf xx sgn < 0 then -xx else xx) base (valueOf xx sgn < 0) =
      some (rendered digits (valueOf xx sgn) (lowFirst b (valueOf xx sgn).natAbs).reverse) := by
  have hone : 1 < b := by omega
  unfold rendered
  by_cases hneg : valueOf xx sgn < 0
  · obtain ⟨habs, hlt⟩ := toNat_neg_of_neg hneg
    have hlen := length_lowFirst_le (k := 19) hone (by decide)
      (Nat.lt_of_lt_of_le hlt (Nat.pow_le_pow_left hten 19))
    rw [if_pos hneg, if_pos hneg, printDigits_eq hb hone, habs]
    · simp [hneg]
    · rw [habs]
      simp only [hneg, decide_true, Bool.toNat_true]
      omega
  · have habs := toNat_of_nonneg hneg
    have hlt : xx.toNat < 10 ^ 20 := Nat.lt_trans xx.isLt (by decide)
    have hlen := length_lowFirst_le (k := 20) hone (by decide)
      (Nat.lt_of_lt_of_le hlt (Nat.pow_le_pow_left hten 20))
    rw [if_neg hneg, if_neg hneg, printDigits_eq hb hone, habs]
    · simp [hneg]
    · simpa [hneg] using hlen

end Values

/-- Both versions print the numeral of the argument, and the buffer is large enough. -/
theorem printint_canonical (xx : BitVec 64) {base : Int32} (hbase : base = 10 ∨ base = 16)
    (sgn : Int32) : ∃ numeral, Numeral base.toInt.toNat (valueOf xx sgn).natAbs numeral ∧
      kprintint xx base sgn = some (rendered lowerDigits (valueOf xx sgn) numeral) ∧
      printint xx base sgn = some (rendered upperDigits (valueOf xx sgn) numeral) := by
  have hb : (base.toBitVec.signExtend 64).toNat = base.toInt.toNat ∧ 10 ≤ base.toInt.toNat := by
    rcases hbase with rfl | rfl <;> decide
  have hneg : valueOf xx sgn < 0 ↔ sgn ≠ 0 ∧ xx.slt 0 = true := valueOf_neg_iff
  refine ⟨_, numeral_lowFirst (by omega) _, ?_, ?_⟩
  · rw [← printDigits_rendered hb.1 hb.2, kprintint]
    by_cases hsgn : sgn ≠ 0
    · have hminus : decide (valueOf xx sgn < 0) = xx.slt 0 := by
        rw [Bool.eq_iff_iff, decide_eq_true_eq, hneg]
        exact and_iff_right hsgn
      rw [hminus]
      simp only [hneg, hsgn, true_and, ne_eq, not_false_eq_true, if_true]
    · have hnot : ¬valueOf xx sgn < 0 := fun h => hsgn (hneg.mp h).1
      simp [hsgn, hnot]
  · rw [← printDigits_rendered hb.1 hb.2, printint]
    by_cases hminus : valueOf xx sgn < 0
    · rw [if_pos (hneg.mp hminus), if_pos hminus, decide_eq_true hminus]
    · rw [if_neg (fun h => hminus (hneg.mpr h)), if_neg hminus, decide_eq_false hminus]

/-- The least number, whose negation is itself. -/
theorem printint_canonical_least : ∃ numeral, Numeral 10 (2 ^ 63) numeral ∧
    kprintint (BitVec.intMin 64) 10 1 = some (rendered lowerDigits (-2 ^ 63) numeral) ∧
    printint (BitVec.intMin 64) 10 1 = some (rendered upperDigits (-2 ^ 63) numeral) :=
  printint_canonical (BitVec.intMin 64) (Or.inl rfl) 1

example : kprintint (BitVec.allOnes 64) 10 0 = some "18446744073709551615".toList := by decide

end Xv6.User
