import Xv6.Lib.Arena
import Xv6.Lib.Bytes
import Xv6.Lib.System

/-! `malloc` and `free` (umalloc.c) over the bytes of a process, headers included. `sbrk` may
fail at every call, and the program may move the break up between two calls. -/
namespace Xv6.User.Malloc

open Lib

section Code

abbrev Mem := Bytes (2 ^ 64)

def ptr (mem : Mem) (p : Nat) : Nat := mem.getLE p 8

def size (mem : Mem) (p : Nat) : Nat := mem.getLE (p + 8) 4

def setPtr (mem : Mem) (p value : Nat) : Mem := mem.setLE p 8 value

def setSize (mem : Mem) (p value : Nat) : Mem := mem.setLE (p + 8) 4 value

def plus (p n : Nat) : Nat := (p + 16 * n) % 2 ^ 64

/-- A process: its bytes and `freep`, what it has got from `sbrk` (address and length), where
its memory ends. The next calls of `sbrk` go by `plan`: none, or so far above the end.
`requests` are the arguments of the calls before, the last one first. -/
structure Heap where
  mem : Mem
  freep : Nat
  regions : List (Nat × Nat)
  top : Nat
  plan : Nat → Option Nat
  requests : List Int

def Heap.called (h : Heap) (n : Int) : Heap :=
  { h with plan := fun i => h.plan (i + 1), requests := n :: h.requests }

def Heap.obtained (h : Heap) : Set Nat := {x | ∃ r ∈ h.regions, r.1 ≤ x ∧ x < r.1 + r.2}

def Heap.total (h : Heap) : Nat := (h.regions.map Prod.snd).sum

variable (limit base : Nat)

/-- `sbrk`; there are `limit` bytes of memory. -/
def sbrk (h : Heap) (n : Int) : Option Nat × Heap :=
  let after := h.called n
  if 0 < n then
    match h.plan 0 with
    | none => (none, after)
    | some gap =>
        let addr := h.top + gap
        if addr + n.toNat < 2 ^ 64 ∧ h.total + n.toNat ≤ limit then
          (some addr, { after with
            regions := (addr, n.toNat) :: h.regions
            top := addr + n.toNat })
        else (none, after)
  -- `growproc` leaves the size alone if it would get negative
  else (some h.top, { after with top := if 0 ≤ h.top + n then (h.top + n).toNat else h.top })

def freeLoop (mem : Mem) (bp : Nat) : Nat → Nat → Option Nat
  | 0, _ => none
  | fuel + 1, p =>
      if bp > p ∧ bp < ptr mem p then some p
      else if p ≥ ptr mem p ∧ (bp > p ∨ bp < ptr mem p) then some p
      else freeLoop mem bp fuel (ptr mem p)

/-- `free` with the block behind `bp`, once it has found `p`. -/
def linkNext (mem : Mem) (p bp : Nat) : Mem :=
  if plus bp (size mem bp) = ptr mem p then
    let mem := setSize mem bp (size mem bp + size mem (ptr mem p))
    setPtr mem bp (ptr mem (ptr mem p))
  else setPtr mem bp (ptr mem p)

/-- `free` once it has found `p`. -/
def link (mem : Mem) (p bp : Nat) : Mem :=
  let mem := linkNext mem p bp
  if plus p (size mem p) = bp then
    let mem := setSize mem p (size mem p + size mem bp)
    setPtr mem p (ptr mem bp)
  else setPtr mem p bp

def free (fuel : Nat) (h : Heap) (ap : Nat) : Option Heap :=
  let bp := ap - 16
  (freeLoop h.mem bp fuel h.freep).map fun p => { h with mem := link h.mem p bp, freep := p }

def toInt (n : Nat) : Int := Int.bmod n (2 ^ 32)

def asked (nu : Nat) : Nat := if nu < 4096 then 4096 else nu

def addCore (fuel nu : Nat) : Option Nat × Heap → Option (Option Nat × Heap)
  | (none, h) => some (none, h)
  | (some hp, h) =>
      (free fuel { h with mem := setSize h.mem hp nu } (hp + 16)).map fun h => (some h.freep, h)

def morecore (fuel : Nat) (h : Heap) (nu : Nat) : Option (Option Nat × Heap) :=
  addCore fuel (asked nu) (sbrk limit h (toInt (asked nu * 16)))

def mallocLoop (nunits : Nat) : Nat → Heap → Nat → Option (Nat × Heap)
  | 0, _, _ => none
  | fuel + 1, h, prevp =>
      let p := ptr h.mem prevp
      if size h.mem p ≥ nunits then
        if size h.mem p = nunits then
          some (p + 16, { h with mem := setPtr h.mem prevp (ptr h.mem p), freep := prevp })
        else
          let mem := setSize h.mem p (size h.mem p - nunits)
          let p := plus p (size mem p)
          some (p + 16, { h with mem := setSize mem p nunits, freep := prevp })
      else if p = h.freep then do
        let (p, h) ← morecore limit fuel h nunits
        match p with
        | none => some (0, h)
        | some p => mallocLoop nunits fuel h p
      else mallocLoop nunits fuel h p

def units (nbytes : UInt32) : Nat := (nbytes.toNat + 16 - 1) / 16 + 1

def start (h : Heap) : Heap :=
  if h.freep = 0 then { h with mem := setSize (setPtr h.mem base base) base 0, freep := base }
  else h

def malloc (fuel : Nat) (h : Heap) (nbytes : UInt32) : Option (Nat × Heap) :=
  let h := start base h
  mallocLoop limit (units nbytes) fuel h h.freep

end Code

section Program

/-- `live` are the headers of the blocks that the program has not freed. -/
structure State where
  heap : Heap
  live : Finset Nat

inductive Action where
  | malloc (nbytes : UInt32)
  | free (bp : Nat)
  | store (x : Nat) (byte : UInt8)

inductive Fault where
  | diverges
  deriving DecidableEq

/-- A loop over addresses that has taken more rounds than this does not end. -/
def enough : Nat := 2 ^ 67

def returned {α : Type} : Option α → Except Fault α
  | none => .error .diverges
  | some r => .ok r

variable (limit base : Nat)

def exec (s : State) : Action → Except Fault State
  | .malloc nbytes => (returned (malloc limit base enough s.heap nbytes)).map fun r =>
      ⟨r.2, if r.1 = 0 then s.live else insert (r.1 - 16) s.live⟩
  | .free bp => (returned (free enough s.heap (bp + 16))).map fun h => ⟨h, s.live.erase bp⟩
  | .store x byte => .ok { s with heap := { s.heap with mem := s.heap.mem.set x byte } }

def enabled (s : State) : Action → Prop
  | .malloc _ => True
  | .free bp => bp ∈ s.live
  | .store x _ => ∃ bp ∈ s.live, bp + 16 ≤ x ∧ x < bp + 16 * size s.heap.mem bp

def Small (nbytes : UInt32) : Prop := units nbytes * 16 < 2 ^ 31

def small (_ : State) : Action → Prop
  | .malloc nbytes => Small nbytes
  | _ => True

def Serves (h : Heap) (nunits : Nat) : Prop := ∃ n, nunits ≤ size h.mem ((ptr h.mem)^[n] base)

def Fits (h : Heap) (nbytes : UInt32) : Prop :=
  Small nbytes ∨ Serves base (start base h) (units nbytes)

def fits (s : State) : Action → Prop
  | .malloc nbytes => Fits base s.heap nbytes
  | _ => True

def system : System State Fault Action where
  init s := s.heap.freep = 0 ∧ s.heap.regions = [] ∧ s.live = ∅ ∧ 0 < base ∧
    base + 16 ≤ s.heap.top ∧ s.heap.top < 2 ^ 64
  enabled := enabled
  exec := exec limit base

end Program

section Headers

variable {mem mem' : Mem} {a b p x v : Nat}

@[simp] theorem ptr_setPtr_self (ha : a + 8 ≤ 2 ^ 64) (hv : v < 2 ^ 64) :
    ptr (setPtr mem a v) a = v :=
  Bytes.getLE_setLE_self _ _ _ _ ha hv

@[simp] theorem ptr_setPtr_of_ne (h : b + 8 ≤ a ∨ a + 8 ≤ b) : ptr (setPtr mem a v) b = ptr mem b :=
  Bytes.getLE_setLE_of_disjoint _ _ _ _ _ _ h

@[simp] theorem size_setPtr (h : b + 12 ≤ a ∨ a ≤ b) : size (setPtr mem a v) b = size mem b :=
  Bytes.getLE_setLE_of_disjoint _ _ _ _ _ _ (by omega)

@[simp] theorem ptr_setSize (h : b ≤ a ∨ a + 12 ≤ b) : ptr (setSize mem a v) b = ptr mem b :=
  Bytes.getLE_setLE_of_disjoint _ _ _ _ _ _ (by omega)

@[simp] theorem size_setSize_self (ha : a + 12 ≤ 2 ^ 64) : size (setSize mem a v) a = v % 2 ^ 32 :=
  Bytes.getLE_setLE_mod _ _ _ _ (by omega)

@[simp] theorem size_setSize_of_ne (h : b + 4 ≤ a ∨ a + 4 ≤ b) :
    size (setSize mem a v) b = size mem b :=
  Bytes.getLE_setLE_of_disjoint _ _ _ _ _ _ (by omega)

theorem ptr_lt : ptr mem a < 2 ^ 64 := Bytes.getLE_lt ..

theorem size_lt : size mem a < 2 ^ 32 := Bytes.getLE_lt ..

@[simp] theorem plus_eq {n : Nat} (h : a + 16 * n < 2 ^ 64) : plus a n = a + 16 * n :=
  Nat.mod_eq_of_lt h

def Only (a b : Nat) (mem mem' : Mem) : Prop :=
  ∀ x, (x < a ∨ a + 16 ≤ x) → (x < b ∨ b + 16 ≤ x) → mem'.get x = mem.get x

theorem link_only : Only p x mem (link mem p x) := by
  intro y hp hx
  unfold link linkNext setPtr setSize
  dsimp only
  split <;> split
  all_goals simp (disch := omega) only [Bytes.get_setLE_of_disjoint]

theorem getLE_congr {offset width : Nat}
    (h : ∀ x, offset ≤ x → x < offset + width → mem'.get x = mem.get x) :
    mem'.getLE offset width = mem.getLE offset width := by
  induction width generalizing offset with
  | zero => rfl
  | succ width ih =>
    rw [Bytes.getLE, Bytes.getLE, h offset (by omega) (by omega), ih fun x hx hlt =>
      h x (by omega) (by omega)]

theorem header_congr (h : ∀ y, x ≤ y → y < x + 16 → mem'.get y = mem.get y) :
    ptr mem' x = ptr mem x ∧ size mem' x = size mem x :=
  ⟨getLE_congr fun _ _ _ => h _ (by omega) (by omega),
    getLE_congr fun _ _ _ => h _ (by omega) (by omega)⟩

theorem Only.header (h : Only a b mem mem') (ha : x + 16 ≤ a ∨ a + 16 ≤ x)
    (hb : x + 16 ≤ b ∨ b + 16 ≤ x) : ptr mem' x = ptr mem x ∧ size mem' x = size mem x :=
  header_congr fun _ _ _ => h _ (by omega) (by omega)

attribute [irreducible] ptr size setPtr setSize plus

def len (mem : Mem) (a : Nat) : Nat := 16 * size mem a

section Link

variable {n z : Nat} (hpx : p + 16 ≤ x) (hx : x + 16 < 2 ^ 64) (hxend : x + len mem x < 2 ^ 64)
  (hjoin : Fused (ptr mem) (len mem) p x n z) (hn : n < 2 ^ 36)
include hpx hx hxend hjoin hn

theorem linkNext_spec : ptr (linkNext mem p x) x = z ∧ len (linkNext mem p x) x = n ∧
    len (linkNext mem p x) p = len mem p := by
  have hqlt : ptr mem p < 2 ^ 64 := ptr_lt
  have hzlt : ptr mem (ptr mem p) < 2 ^ 64 := ptr_lt
  unfold Fused at hjoin
  unfold len at *
  unfold linkNext
  rw [plus_eq hxend]
  split at hjoin
  · rename_i hright
    rw [if_pos hright]
    simp (disch := omega) [hjoin.2]
    omega
  · rename_i hright
    rw [if_neg hright]
    simp (disch := omega) [hjoin]

theorem link_spec (hpend : p + len mem p < 2 ^ 64)
    (hsum : p + len mem p = x → len mem p + n < 2 ^ 36) :
    Linked (len mem) (ptr (link mem p x)) (len (link mem p x)) p x n z := by
  obtain ⟨hptr, hlen, hp⟩ := linkNext_spec hpx hx hxend hjoin hn
  have hzlt : ptr (linkNext mem p x) x < 2 ^ 64 := ptr_lt
  unfold Linked link
  dsimp only
  rw [← hp] at hpend hsum ⊢
  unfold len at *
  rw [plus_eq hpend]
  split
  · rename_i hleft
    have := hsum hleft
    simp (disch := omega) [hptr]
    omega
  · simp (disch := omega) [hptr, hlen]

end Link

attribute [irreducible] linkNext Malloc.link

end Headers

section Sbrk

theorem sbrk_cases (limit : Nat) (h : Heap) {n : Nat} (hn : 0 < n) :
    sbrk limit h n = (none, h.called n) ∨
    ∃ addr, h.top ≤ addr ∧ addr + n < 2 ^ 64 ∧ h.total + n ≤ limit ∧
      sbrk limit h n = (some addr, { h.called n with
        regions := (addr, n) :: h.regions
        top := addr + n }) := by
  unfold sbrk
  dsimp only
  rw [if_pos (Int.natCast_pos.mpr hn)]
  split
  · exact Or.inl rfl
  · rw [Int.toNat_natCast]
    split
    · rename_i hroom
      exact Or.inr ⟨_, Nat.le_add_right _ _, hroom.1, hroom.2, rfl⟩
    · exact Or.inl rfl

theorem sbrk_requests (limit : Nat) (h : Heap) (n : Int) :
    (sbrk limit h n).2.requests = n :: h.requests := by
  unfold sbrk
  dsimp only
  split
  · split
    · rfl
    · split <;> rfl
  · rfl

theorem le_asked (nu : Nat) : nu ≤ asked nu ∧ 0 < asked nu ∧ asked nu < max 4097 (nu + 1) := by
  unfold asked
  split <;> omega

theorem toInt_eq {n : Nat} (hn : n < 2 ^ 31) : toInt n = n := by
  unfold toInt
  apply Int.bmod_eq_of_le <;> omega

theorem toInt_lt (n : Nat) : toInt n < 2 ^ 31 := Int.bmod_lt (by decide)

end Sbrk

section Requests

variable {limit fuel nunits : Nat} {h h' : Heap}

theorem free_requests {ap : Nat} (hfree : free fuel h ap = some h') :
    h'.requests = h.requests := by
  obtain ⟨p, -, rfl⟩ := Option.map_eq_some_iff.mp hfree
  rfl

theorem morecore_requests {p : Option Nat} (hmore : morecore limit fuel h nunits = some (p, h')) :
    h'.requests = toInt (asked nunits * 16) :: h.requests := by
  have hsbrk := sbrk_requests limit h (toInt (asked nunits * 16))
  unfold morecore at hmore
  generalize sbrk limit h (toInt (asked nunits * 16)) = r at hmore hsbrk
  obtain ⟨found, h₁⟩ := r
  cases found with
  | none =>
    cases hmore
    exact hsbrk
  | some hp =>
    obtain ⟨h₂, hfree, heq⟩ := Option.map_eq_some_iff.mp hmore
    cases heq
    exact (free_requests hfree).trans hsbrk

theorem mallocLoop_requests {prevp ap : Nat}
    (hloop : mallocLoop limit nunits fuel h prevp = some (ap, h')) :
    h.requests <:+ h'.requests := by
  induction fuel generalizing h prevp with
  | zero => cases hloop
  | succ fuel ih =>
    rw [mallocLoop] at hloop
    dsimp only at hloop
    split at hloop
    · split at hloop
      · cases hloop
        exact List.suffix_rfl
      · cases hloop
        exact List.suffix_rfl
    · split at hloop
      · obtain ⟨⟨p, h₁⟩, hmore, hrest⟩ := Option.bind_eq_some_iff.mp hloop
        have hgrows : h.requests <:+ h₁.requests := by
          rw [morecore_requests hmore]
          exact List.suffix_cons _ _
        cases p with
        | none =>
          cases hrest
          exact hgrows
        | some p => exact hgrows.trans (ih hrest)
      · exact ih hloop

end Requests

end Xv6.User.Malloc
