import Mathlib.Data.List.FinRange
import Xv6.Param

/-! The buffer cache. Each function is one `bcache.lock` critical section of
`bio.c`, or one transition of a buffer's sleep-lock; `P` is the type of
processes. The list runs from `bcache.head.next` (most recently released) to
`bcache.head.prev`. -/
namespace Xv6.Bio

abbrev BufIndex := Fin nbuf

/-- `refcnt` is unsigned in the source; an integer here, so that an underflow
would be visible as a negative count. -/
structure Buf (P : Type) where
  dev : Nat
  blockno : Nat
  valid : Bool
  refcnt : Int
  lock : Option P
  data : Block

structure Cache (P : Type) where
  buf : BufIndex → Buf P
  lru : List BufIndex

inductive Panic where
  | bgetNoBuffers
  | bwrite
  | brelse
  deriving DecidableEq

variable {P : Type}

def binit : Cache P where
  buf := fun _ => ⟨0, 0, false, 0, none, Lib.Bytes.zero bsize⟩
  lru := (List.finRange nbuf).reverse

def Buf.caches (b : Buf P) (dev blockno : Nat) : Prop := b.dev = dev ∧ b.blockno = blockno

instance (b : Buf P) (dev blockno : Nat) : Decidable (b.caches dev blockno) :=
  inferInstanceAs (Decidable (_ ∧ _))

def Cache.set (c : Cache P) (i : BufIndex) (b : Buf P) : Cache P :=
  { c with buf := Function.update c.buf i b }

def Cache.find (c : Cache P) (dev blockno : Nat) : Option BufIndex :=
  c.lru.find? fun i => decide ((c.buf i).caches dev blockno)

def Cache.findUnused (c : Cache P) : Option BufIndex :=
  c.lru.reverse.find? fun i => decide ((c.buf i).refcnt = 0)

/-- `bget` up to its `acquiresleep`. -/
def bget (c : Cache P) (dev blockno : Nat) : Except Panic (Cache P × BufIndex) :=
  match c.find dev blockno with
  | some i => .ok (c.set i { c.buf i with refcnt := (c.buf i).refcnt + 1 }, i)
  | none =>
    match c.findUnused with
    | some i =>
        .ok (c.set i { c.buf i with
          dev := dev, blockno := blockno, valid := false, refcnt := 1 }, i)
    | none => .error .bgetNoBuffers

/-- `acquiresleep` on a free lock, and the disk read that `bread` makes when the
buffer is not valid. -/
def lockAndRead (c : Cache P) (disk : Disk) (p : P) (i : BufIndex) : Cache P :=
  let b := c.buf i
  c.set i { b with
    lock := some p, valid := true, data := if b.valid then b.data else disk b.blockno }

def setData (c : Cache P) (i : BufIndex) (data : Block) : Cache P :=
  c.set i { c.buf i with data := data }

def releasesleep (c : Cache P) (i : BufIndex) : Cache P :=
  c.set i { c.buf i with lock := none }

/-- The second half of `brelse`: drop the reference, and move a buffer nobody
uses to the most recently used end. -/
def unref (c : Cache P) (i : BufIndex) : Cache P :=
  let c' := c.set i { c.buf i with refcnt := (c.buf i).refcnt - 1 }
  if (c'.buf i).refcnt = 0 then { c' with lru := i :: c'.lru.erase i } else c'

def bpin (c : Cache P) (i : BufIndex) : Cache P :=
  c.set i { c.buf i with refcnt := (c.buf i).refcnt + 1 }

def bunpin (c : Cache P) (i : BufIndex) : Cache P :=
  c.set i { c.buf i with refcnt := (c.buf i).refcnt - 1 }

@[simp] theorem Cache.lru_set (c : Cache P) (i : BufIndex) (b : Buf P) : (c.set i b).lru = c.lru :=
  rfl

@[simp] theorem Cache.buf_set_self (c : Cache P) (i : BufIndex) (b : Buf P) :
    (c.set i b).buf i = b := by
  simp [Cache.set]

theorem Cache.buf_set_of_ne (c : Cache P) {i j : BufIndex} (b : Buf P) (h : j ≠ i) :
    (c.set i b).buf j = c.buf j := by
  simp [Cache.set, h]

@[simp] theorem buf_unref (c : Cache P) (i : BufIndex) :
    (unref c i).buf = (c.set i { c.buf i with refcnt := (c.buf i).refcnt - 1 }).buf := by
  unfold unref
  dsimp only
  split <;> rfl

theorem mem_lru_unref {c : Cache P} {i j : BufIndex} (h : j ∈ c.lru) : j ∈ (unref c i).lru := by
  unfold unref
  dsimp only
  by_cases hji : j = i
  · subst hji
    split
    · simp
    · exact h
  · split
    · exact List.mem_cons_of_mem _ ((List.mem_erase_of_ne hji).mpr h)
    · exact h

theorem find_eq_some {c : Cache P} {dev blockno : Nat} {i : BufIndex}
    (h : c.find dev blockno = some i) : (c.buf i).caches dev blockno := by
  simpa using List.find?_some h

theorem find_eq_none {c : Cache P} {dev blockno : Nat} (hall : ∀ i, i ∈ c.lru)
    (h : c.find dev blockno = none) (i : BufIndex) : ¬(c.buf i).caches dev blockno := by
  have := List.find?_eq_none.mp h i (hall i)
  simpa using this

theorem findUnused_eq_some {c : Cache P} {i : BufIndex} (h : c.findUnused = some i) :
    (c.buf i).refcnt = 0 := by
  simpa using List.find?_some h

theorem bget_found {c c' : Cache P} {dev blockno : Nat} {i : BufIndex}
    (h : bget c dev blockno = .ok (c', i)) :
    (c.find dev blockno = some i ∧
      c' = c.set i { c.buf i with refcnt := (c.buf i).refcnt + 1 }) ∨
    (c.find dev blockno = none ∧ c.findUnused = some i ∧
      c' = c.set i
        { c.buf i with dev := dev, blockno := blockno, valid := false, refcnt := 1 }) := by
  unfold bget at h
  split at h
  · rename_i found hfound
    cases h
    exact Or.inl ⟨hfound, rfl⟩
  · rename_i hmiss
    split at h
    · rename_i unused hunused
      cases h
      exact Or.inr ⟨hmiss, hunused, rfl⟩
    · cases h

/-- What `bget` can do: count one more user of the cached buffer, or give an
unreferenced buffer to a block that no buffer holds. -/
theorem bget_cases {c c' : Cache P} {dev blockno : Nat} {i : BufIndex} (hall : ∀ i, i ∈ c.lru)
    (h : bget c dev blockno = .ok (c', i)) :
    ((c.buf i).caches dev blockno ∧
      c' = c.set i { c.buf i with refcnt := (c.buf i).refcnt + 1 }) ∨
    ((∀ j, ¬(c.buf j).caches dev blockno) ∧ (c.buf i).refcnt = 0 ∧
      c' = c.set i
        { c.buf i with dev := dev, blockno := blockno, valid := false, refcnt := 1 }) := by
  rcases bget_found h with ⟨hfound, hset⟩ | ⟨hmiss, hunused, hset⟩
  · exact Or.inl ⟨find_eq_some hfound, hset⟩
  · exact Or.inr ⟨find_eq_none hall hmiss, findUnused_eq_some hunused, hset⟩

end Xv6.Bio
