import Xv6.Sched.Table
import Xv6.Vm.Copy

/-! `getpinfo` fills a `struct pstat` on the kernel stack and copies it out. The
stack held something before: `safestrcpy` stops after the end of a name, so what
follows the name in its array goes out as it was. -/
namespace Xv6.Vm

open Lib
open Sched (Slot ProcState nproc)

section Code

def nameSize : Nat := 16

structure ProcInfo where
  state : ProcState
  pid : Int
  priority : Int
  runs : UInt64
  name : Bytes nameSize

def pstatSize : Nat := 2560
def inuseAt (i : Nat) : Nat := 4 * i
def pidAt (i : Nat) : Nat := 256 + 4 * i
def priorityAt (i : Nat) : Nat := 512 + 4 * i
def stateAt (i : Nat) : Nat := 768 + 4 * i
def runsAt (i : Nat) : Nat := 1024 + 8 * i
def nameAt (i : Nat) : Nat := 1536 + 16 * i

abbrev Pstat := Bytes pstatSize

def procstate : ProcState → Nat
  | .unused => 0
  | .used => 1
  | .sleeping => 2
  | .runnable => 3
  | .running => 4
  | .zombie => 5

def setInt (kps : Pstat) (offset : Nat) (value : Int) : Pstat :=
  kps.setLE offset 4 (value % 2 ^ 32).toNat

def safestrcpyLoop (kps : Pstat) (s : Nat) (t : Bytes nameSize) (k : Nat) : Nat → Pstat
  | 0 => kps.set (s + k) 0
  | n + 1 =>
      let kps := kps.set (s + k) (t.get k)
      if t.get k ≠ 0 then safestrcpyLoop kps s t (k + 1) n else kps.set (s + (k + 1)) 0

def safestrcpy (kps : Pstat) (s : Nat) (t : Bytes nameSize) (n : Nat) : Pstat :=
  if n = 0 then kps else safestrcpyLoop kps s t 0 (n - 1)

def fillSlot (p : ProcInfo) (kps : Pstat) (i : Nat) : Pstat :=
  let kps := setInt kps (inuseAt i) (if p.state ≠ .unused then 1 else 0)
  let kps := setInt kps (pidAt i) p.pid
  let kps := setInt kps (priorityAt i) p.priority
  let kps := setInt kps (stateAt i) (procstate p.state)
  let kps := kps.setLE (runsAt i) 8 p.runs.toNat
  safestrcpy kps (nameAt i) p.name nameSize

/-- The `kps` that goes out, from what the stack held in its place. -/
def pstat (proc : Slot → ProcInfo) (stack : Pstat) : Pstat :=
  (List.finRange nproc).foldl (fun kps i => fillSlot (proc i) kps i) stack

def getpinfo (img : Image) (proc : Slot → ProcInfo) (stack : Pstat) (mm : Mm) (ps : Nat) :
    Code Bool :=
  let kps := pstat proc stack
  deref mm.pagetable fun pagetable => copyout img mm pagetable ps (kps.slice 0 pstatSize)

end Code

section Names

def SameName (t t' : Bytes nameSize) : Prop :=
  ∀ k, (∀ j < k, t.get j ≠ 0) → t.get k = t'.get k

/-- The bytes of the array of a name that `safestrcpy` does not get to: it writes
the NUL that it finds, and one more. -/
def Residue (t : Bytes nameSize) (j : Nat) : Prop := j < nameSize ∧ ∃ k, k + 2 ≤ j ∧ t.get k = 0

theorem Residue.same {t t' : Bytes nameSize} {j : Nat} (h : Residue t j) (hname : SameName t t') :
    Residue t' j := by
  obtain ⟨hj, k, hk, hzero⟩ := h
  refine ⟨hj, ?_⟩
  -- the first NUL is in both names
  induction k using Nat.strong_induction_on with
  | _ k ih =>
    by_cases hfront : ∀ l < k, t.get l ≠ 0
    · exact ⟨k, hk, hname k hfront ▸ hzero⟩
    · push Not at hfront
      obtain ⟨l, hl, hl0⟩ := hfront
      exact ih l hl (by omega) hl0

structure SameInfo (p p' : ProcInfo) : Prop where
  state : p.state = p'.state
  pid : p.pid = p'.pid
  priority : p.priority = p'.priority
  runs : p.runs = p'.runs
  name : SameName p.name p'.name

variable {kps kps' : Pstat} {s m : Nat} {t t' : Bytes nameSize}

theorem get_set_agree {offset : Nat} {value : UInt8} (hm : m < pstatSize)
    (h : m ≠ offset → kps.get m = kps'.get m) :
    (kps.set offset value).get m = (kps'.set offset value).get m := by
  by_cases heq : m = offset
  · subst heq
    rw [Bytes.get_set_self _ _ hm, Bytes.get_set_self _ _ hm]
  · rw [Bytes.get_set_of_ne _ _ heq, Bytes.get_set_of_ne _ _ heq, h heq]

theorem get_setLE_agree {offset width value : Nat} (hm : m < pstatSize)
    (h : (m < offset ∨ offset + width ≤ m) → kps.get m = kps'.get m) :
    (kps.setLE offset width value).get m = (kps'.setLE offset width value).get m := by
  induction width generalizing kps kps' offset value with
  | zero => exact h (by omega)
  | succ width ih =>
    refine ih fun hout => get_set_agree hm fun hne => h ?_
    omega

theorem safestrcpyLoop_agree {k n : Nat} (hm : m < pstatSize) (hname : SameName t t')
    (hfront : ∀ j < k, t.get j ≠ 0)
    (hout : (m < s + k ∨ s + k + n < m) → kps.get m = kps'.get m)
    (hrest : ∀ q, k ≤ q → t.get q = 0 → s + q + 2 ≤ m → kps.get m = kps'.get m) :
    (safestrcpyLoop kps s t k n).get m = (safestrcpyLoop kps' s t' k n).get m := by
  induction n generalizing kps kps' k with
  | zero => exact get_set_agree hm fun hne => hout (by omega)
  | succ n ih =>
    have hbyte : t.get k = t'.get k := hname k hfront
    rw [safestrcpyLoop, safestrcpyLoop, ← hbyte]
    by_cases hnul : t.get k = 0
    · rw [if_neg (not_not.mpr hnul), if_neg (not_not.mpr hnul)]
      refine get_set_agree hm fun hne => get_set_agree hm fun hne' => ?_
      by_cases hpast : m < s + k
      · exact hout (Or.inl hpast)
      · exact hrest k (Nat.le_refl k) hnul (by omega)
    · rw [if_pos hnul, if_pos hnul]
      refine ih ?_ ?_ ?_
      · intro j hj
        rcases Nat.lt_succ_iff_lt_or_eq.mp hj with hlt | rfl
        · exact hfront j hlt
        · exact hnul
      · intro hside
        exact get_set_agree hm fun hne => hout (by omega)
      · intro q hq hzero hle
        exact get_set_agree hm fun hne => hrest q (by omega) hzero hle

theorem safestrcpyLoop_residue {k n q : Nat} (hq : k ≤ q) (hzero : t.get q = 0)
    (hm : s + q + 2 ≤ m) : (safestrcpyLoop kps s t k n).get m = kps.get m := by
  induction n generalizing kps k with
  | zero => exact Bytes.get_set_of_ne _ _ (by omega)
  | succ n ih =>
    rw [safestrcpyLoop]
    by_cases hnul : t.get k = 0
    · rw [if_neg (not_not.mpr hnul), Bytes.get_set_of_ne _ _ (by omega),
        Bytes.get_set_of_ne _ _ (by omega)]
    · have hlt : k ≠ q := fun heq => hnul (heq ▸ hzero)
      rw [if_pos hnul, ih (by omega), Bytes.get_set_of_ne _ _ (by omega)]

theorem safestrcpyLoop_outside {k n : Nat} (hm : m < s + k ∨ s + k + n < m) :
    (safestrcpyLoop kps s t k n).get m = kps.get m := by
  induction n generalizing kps k with
  | zero => exact Bytes.get_set_of_ne _ _ (by omega)
  | succ n ih =>
    rw [safestrcpyLoop]
    split
    · rw [ih (by omega), Bytes.get_set_of_ne _ _ (by omega)]
    · rw [Bytes.get_set_of_ne _ _ (by omega), Bytes.get_set_of_ne _ _ (by omega)]

end Names

section Slots

variable {kps kps' stack stack' : Pstat} {m : Nat} {p p' : ProcInfo} {proc proc' : Slot → ProcInfo}

def Field (i m : Nat) : Prop :=
  (inuseAt i ≤ m ∧ m < inuseAt i + 4) ∨ (pidAt i ≤ m ∧ m < pidAt i + 4) ∨
  (priorityAt i ≤ m ∧ m < priorityAt i + 4) ∨ (stateAt i ≤ m ∧ m < stateAt i + 4) ∨
  (runsAt i ≤ m ∧ m < runsAt i + 8) ∨ (nameAt i ≤ m ∧ m < nameAt i + nameSize)

def Stale (p : ProcInfo) (i m : Nat) : Prop := ∃ j, Residue p.name j ∧ m = nameAt i + j

theorem fillSlot_agree {i : Nat} (hm : m < pstatSize) (hsame : SameInfo p p')
    (hout : ¬ Field i m → kps.get m = kps'.get m) (hrest : Stale p i m → kps.get m = kps'.get m) :
    (fillSlot p kps i).get m = (fillSlot p' kps' i).get m := by
  obtain ⟨hstate, hpid, hpriority, hruns, hname⟩ := hsame
  simp only [fillSlot, ← hstate, ← hpid, ← hpriority, ← hruns, setInt]
  refine safestrcpyLoop_agree hm hname (fun j hj => by omega) (fun hside => ?_)
    fun q _ hzero hle => ?_
  · refine get_setLE_agree hm fun hruns => get_setLE_agree hm fun hstate =>
      get_setLE_agree hm fun hpriority => get_setLE_agree hm fun hpid =>
      get_setLE_agree hm fun hinuse => hout ?_
    have hsize : nameSize = 16 := rfl
    simp only [Field]
    omega
  · refine get_setLE_agree hm fun _ => get_setLE_agree hm fun _ => get_setLE_agree hm fun _ =>
      get_setLE_agree hm fun _ => get_setLE_agree hm fun hinuse => ?_
    by_cases hlt : m < nameAt i + nameSize
    · exact hrest ⟨m - nameAt i, ⟨by omega, q, by omega, hzero⟩, by omega⟩
    · refine hout ?_
      have hsize : nameSize = 16 := rfl
      simp only [Field, inuseAt, pidAt, priorityAt, stateAt, runsAt, nameAt] at *
      omega

theorem fillSlot_keeps {i : Slot} (hm : Stale p i m ∨ ¬ Field i m) :
    (fillSlot p kps i).get m = kps.get m := by
  have hsize : nameSize = 16 := rfl
  have hfields : (m < inuseAt i ∨ inuseAt i + 4 ≤ m) ∧ (m < pidAt i ∨ pidAt i + 4 ≤ m) ∧
      (m < priorityAt i ∨ priorityAt i + 4 ≤ m) ∧ (m < stateAt i ∨ stateAt i + 4 ≤ m) ∧
      (m < runsAt i ∨ runsAt i + 8 ≤ m) := by
    rcases hm with ⟨j, -, rfl⟩ | hout
    · have := i.isLt
      simp only [inuseAt, pidAt, priorityAt, stateAt, runsAt, nameAt, nproc] at *
      omega
    · simp only [Field] at hout
      omega
  obtain ⟨hinuse, hpid, hpriority, hstate, hruns⟩ := hfields
  have hname : (fillSlot p kps i).get m = (setInt (setInt (setInt (setInt kps (inuseAt i)
      (if p.state ≠ .unused then 1 else 0)) (pidAt i) p.pid) (priorityAt i) p.priority)
      (stateAt i) (procstate p.state) |>.setLE (runsAt i) 8 p.runs.toNat).get m := by
    rcases hm with ⟨j, ⟨-, q, hq, hzero⟩, rfl⟩ | hout
    · exact safestrcpyLoop_residue (Nat.zero_le q) hzero (by omega)
    · refine safestrcpyLoop_outside ?_
      simp only [Field] at hout
      omega
  rw [hname, Bytes.get_setLE_of_disjoint _ _ _ _ _ hruns, setInt,
    Bytes.get_setLE_of_disjoint _ _ _ _ _ hstate, setInt,
    Bytes.get_setLE_of_disjoint _ _ _ _ _ hpriority, setInt,
    Bytes.get_setLE_of_disjoint _ _ _ _ _ hpid, setInt,
    Bytes.get_setLE_of_disjoint _ _ _ _ _ hinuse]

theorem fill_agree {slots : List Slot} (hm : m < pstatSize)
    (hsame : ∀ i, SameInfo (proc i) (proc' i))
    (h : (∃ i ∈ slots, Field i m ∧ ¬ Stale (proc i) i m) ∨ kps.get m = kps'.get m) :
    (slots.foldl (fun kps i => fillSlot (proc i) kps i) kps).get m =
      (slots.foldl (fun kps i => fillSlot (proc' i) kps i) kps').get m := by
  induction slots generalizing kps kps' with
  | nil => simpa using h
  | cons i slots ih =>
    refine ih ?_
    rcases h with ⟨j, hj, hfield, hstale⟩ | heq
    · rcases List.mem_cons.mp hj with rfl | hj
      · exact Or.inr (fillSlot_agree hm (hsame j) (absurd hfield) fun h => absurd h hstale)
      · exact Or.inl ⟨j, hj, hfield, hstale⟩
    · exact Or.inr (fillSlot_agree hm (hsame i) (fun _ => heq) fun _ => heq)

theorem fill_keeps {slots : List Slot} (h : ∀ i ∈ slots, Stale (proc i) i m ∨ ¬ Field i m) :
    (slots.foldl (fun kps i => fillSlot (proc i) kps i) kps).get m = kps.get m := by
  induction slots generalizing kps with
  | nil => rfl
  | cons i slots ih =>
    rw [List.foldl_cons, ih fun j hj => h j (List.mem_cons_of_mem i hj),
      fillSlot_keeps (h i List.mem_cons_self)]

theorem exists_field (hm : m < pstatSize) : ∃ i : Slot, Field i m := by
  have hsize : pstatSize = 2560 := rfl
  have hslot : ∀ i, i < 64 → Field i m → ∃ i : Slot, Field i m := fun i hi h => ⟨⟨i, hi⟩, h⟩
  simp only [Field, inuseAt, pidAt, priorityAt, stateAt, runsAt, nameAt, nameSize] at *
  rcases Nat.lt_or_ge m 1024 with h | h
  · exact hslot (m % 256 / 4) (by omega) (by omega)
  · rcases Nat.lt_or_ge m 1536 with h' | h'
    · exact hslot ((m - 1024) / 8) (by omega) (by omega)
    · exact hslot ((m - 1536) / 16) (by omega) (by omega)

theorem Field.unique {i j : Slot} (hi : Field i m) (hj : Field j m) : i = j := by
  have hilt := i.isLt
  have hjlt := j.isLt
  refine Fin.ext ?_
  simp only [Field, inuseAt, pidAt, priorityAt, stateAt, runsAt, nameAt, nameSize, nproc] at *
  omega

theorem Stale.field {i : Nat} (h : Stale p i m) : Field i m := by
  obtain ⟨j, ⟨hj, -⟩, rfl⟩ := h
  simp only [Field]
  omega

theorem get_pstat_of_stale {i : Slot} (h : Stale (proc i) i m) :
    (pstat proc stack).get m = stack.get m := by
  refine fill_keeps fun k _ => ?_
  by_cases hk : k = i
  · exact Or.inl (hk ▸ h)
  · exact Or.inr fun hfield => hk (hfield.unique h.field)

theorem pstat_eq_iff (hsame : ∀ i, SameInfo (proc i) (proc' i)) :
    pstat proc stack = pstat proc' stack' ↔
      ∀ (i : Slot) j, Residue (proc i).name j →
        stack.get (nameAt i + j) = stack'.get (nameAt i + j) := by
  constructor
  · intro heq i j hj
    have hstale : Stale (proc i) i (nameAt i + j) := ⟨j, hj, rfl⟩
    have hstale' : Stale (proc' i) i (nameAt i + j) := ⟨j, hj.same (hsame i).name, rfl⟩
    rw [← get_pstat_of_stale hstale, heq, get_pstat_of_stale hstale']
  · intro hrest
    refine Bytes.ext fun m => ?_
    have hget : (pstat proc stack).get m = (pstat proc' stack').get m := by
      obtain ⟨i, hfield⟩ := exists_field m.isLt
      refine fill_agree m.isLt hsame ?_
      by_cases hstale : Stale (proc i) i m
      · obtain ⟨j, hj, hm⟩ := hstale
        exact Or.inr (hm ▸ hrest i j hj)
      · exact Or.inl ⟨i, List.mem_finRange i, hfield, hstale⟩
    simpa [Bytes.get] using hget

end Slots

section Disclosure

/-- In every kernel that shows the same table, whatever its stack held, the call succeeds as
well and writes the same bytes to user memory. -/
def DisclosesTable (img : Image) (proc : Slot → ProcInfo) (mm : Mm) (ps : Nat) (s : Alone sig) :
    Prop :=
  ∀ (proc' : Slot → ProcInfo) (stack stack' : Pstat), (∀ i, SameInfo (proc i) (proc' i)) →
    outcome ((getpinfo img proc stack mm ps).run machine s) = some true →
    outcome ((getpinfo img proc' stack' mm ps).run machine s) = some true ∧
    ∀ root, mm.pagetable = some root → ∀ m, m < pstatSize →
      byteAt (memoryIn ((getpinfo img proc stack mm ps).run machine s).2.mem root) (ps + m) =
        byteAt (memoryIn ((getpinfo img proc' stack' mm ps).run machine s).2.mem root) (ps + m)

variable {img : Image} {proc : Slot → ProcInfo} {mm : Mm} {ps : Nat} {s : Alone sig}

theorem SameInfo.refl (p : ProcInfo) : SameInfo p p := ⟨rfl, rfl, rfl, rfl, fun _ _ => rfl⟩

theorem getpinfo_bytes (hproc : Process img s mm) {root : Nat} (hpt : mm.pagetable = some root)
    {stack : Pstat} (hok : outcome ((getpinfo img proc stack mm ps).run machine s) = some true)
    {m : Nat} (hm : m < pstatSize) :
    byteAt (memoryIn ((getpinfo img proc stack mm ps).run machine s).2.mem root) (ps + m) =
      some ((pstat proc stack).get m) := by
  obtain ⟨S, tf, h, hown⟩ := hproc.owned
  obtain rfl : S.root = root := Option.some.inj (hown.pagetable.symm.trans hpt)
  obtain ⟨ok, s', hrun, -, ⟨-, hbytes, -⟩, -⟩ :=
    hown.copyout ps ((pstat proc stack).slice 0 pstatSize)
  have hcall : (getpinfo img proc stack mm ps).run machine s = (.ok ok, s') := by
    simp only [getpinfo, hpt, deref, hrun]
  rw [hcall] at hok ⊢
  cases hok
  rw [hbytes rfl m (by simpa [Bytes.slice] using hm)]
  simp [Bytes.slice, hm]

/-- A successful `getpinfo` shows nothing but the table exactly if `safestrcpy` reaches the end
of the array of every name. -/
theorem getpinfo_discloses_table (hproc : Process img s mm)
    (hok : ∃ stack, outcome ((getpinfo img proc stack mm ps).run machine s) = some true) :
    DisclosesTable img proc mm ps s ↔ ∀ (i : Slot) j, ¬Residue (proc i).name j := by
  constructor
  · intro h i j hj
    obtain ⟨stack, hok⟩ := hok
    obtain ⟨S, tf, _, hown⟩ := hproc.owned
    have hstale : Stale (proc i) i (nameAt i + j) := ⟨j, hj, rfl⟩
    have hm : nameAt i + j < pstatSize := by
      have hi := i.isLt
      have hj := hj.1
      simp only [nameAt, nameSize, pstatSize, nproc] at *
      omega
    -- another stack, with another byte behind the name
    let stack' := stack.set (nameAt i + j) (stack.get (nameAt i + j) + 1)
    obtain ⟨hok', hbytes⟩ := h proc stack stack' (fun i => .refl _) hok
    have hbyte := hbytes S.root hown.pagetable _ hm
    rw [getpinfo_bytes hproc hown.pagetable hok hm, getpinfo_bytes hproc hown.pagetable hok' hm,
      get_pstat_of_stale hstale, get_pstat_of_stale hstale, Bytes.get_set_self _ _ hm] at hbyte
    have hnext := congrArg UInt8.toNat (Option.some.inj hbyte)
    rw [UInt8.toNat_add, UInt8.toNat_one] at hnext
    omega
  · intro hnone proc' stack stack' hsame hok
    have hsame : pstat proc' stack' = pstat proc stack :=
      ((pstat_eq_iff hsame).mpr fun i j hj => absurd hj (hnone i j)).symm
    rw [getpinfo, hsame]
    exact ⟨hok, fun _ _ _ _ => rfl⟩

def onePage : Alone sig :=
  ((performAll sampleImage [.sbrk 4096 sbrkEager] sampleMm).run machine sampleStart.2).2

def onePageMm : Mm := { sampleMm with sz := 4096 }

theorem onePage_outcome :
    outcome ((performAll sampleImage [.sbrk 4096 sbrkEager] sampleMm).run machine sampleStart.2) =
      some (onePageMm, [.returned 0]) ∧ onePage.short = false := by
  decide +kernel

def namedTable : Slot → ProcInfo := fun i =>
  ⟨if i.val = 0 then .running else .unused, if i.val = 0 then 1 else 0, 0, 0,
    fun j => if j.val < 14 then 97 else 0⟩

def initTable : Slot → ProcInfo := fun i =>
  if i.val = 0 then ⟨.running, 1, 0, 0, (Bytes.zero nameSize).blit 0 [105, 110, 105, 116]⟩
  else ⟨.unused, 0, 0, 0, Bytes.zero nameSize⟩

def initInfo (stack : Pstat) : Except Panic Bool × Alone sig :=
  (getpinfo sampleImage initTable stack onePageMm 0).run machine onePage

theorem getpinfo_leaks_stack :
    outcome ((deref onePageMm.pagetable fun pagetable => walkaddr pagetable 0).run machine
      onePage) = some (some 0x80104) ∧
    outcome (initInfo fun _ => 0) = some true ∧ outcome (initInfo fun _ => 65) = some true ∧
    ((initInfo fun _ => 0).2.mem (.page 0x80104)).get (nameAt 0 + 6) = 0 ∧
    ((initInfo fun _ => 65).2.mem (.page 0x80104)).get (nameAt 0 + 6) = 65 := by
  decide +kernel

theorem onePageProcess : Process sampleImage onePage onePageMm := by
  have hfits : ∀ a ∈ [Access.sbrk 4096 sbrkEager], a.Fits := by simp [Access.Fits]
  exact sampleProcess_run hfits onePage_outcome

theorem getpinfo_discloses_table_named :
    DisclosesTable sampleImage namedTable onePageMm 0 onePage ∧
    ¬DisclosesTable sampleImage initTable onePageMm 0 onePage := by
  constructor
  · refine (getpinfo_discloses_table onePageProcess ⟨fun _ => 0, by decide +kernel⟩).mpr ?_
    rintro i j ⟨hj, k, hk, hzero⟩
    have hlt : k < 14 := by
      rw [nameSize] at hj
      omega
    simp [namedTable, Bytes.get, hlt, nameSize, Nat.lt_trans hlt] at hzero
  · intro h
    refine (getpinfo_discloses_table onePageProcess ⟨fun _ => 0, by decide +kernel⟩).mp h 0 6 ?_
    exact ⟨by decide, 4, by decide, by decide +kernel⟩

end Disclosure

end Xv6.Vm
