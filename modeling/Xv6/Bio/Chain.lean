import Mathlib.Data.Fintype.Card
import Xv6.Bio.Cache
import Xv6.Lib.Links

/-! `bcache` with the pointers of its list, as `bio.c` has it. The operations do to
the pointers what those of `Cache` do to the order of the buffers. -/
namespace Xv6.Bio

open Lib

variable {P : Type}

inductive Fault where
  | panic (message : Panic)
  /-- A loop along the list does not come back to the head. -/
  | endless
  deriving DecidableEq

/-- `bcache`: `none` is `&bcache.head`. -/
structure Bcache (P : Type) where
  buf : BufIndex → Buf P
  links : Links BufIndex

namespace Bcache

def set (c : Bcache P) (i : BufIndex) (b : Buf P) : Bcache P :=
  { c with buf := Function.update c.buf i b }

/-- `binit`, on memory that is zero but for the pointers. -/
def binit (links : Links BufIndex) : Bcache P where
  buf := fun _ => ⟨0, 0, false, 0, none, Bytes.zero bsize⟩
  links := (List.finRange nbuf).foldl Links.insertFront links.clear

def bget (c : Bcache P) (dev blockno : Nat) : Except Fault (Bcache P × BufIndex) :=
  let cached i := decide ((c.buf i).caches dev blockno)
  match Links.scan c.links.next cached (nbuf + 1) (c.links.next none) with
  | none => .error .endless
  | some (some i) => .ok (c.set i { c.buf i with refcnt := (c.buf i).refcnt + 1 }, i)
  | some none =>
    let unused i := decide ((c.buf i).refcnt = 0)
    match Links.scan c.links.prev unused (nbuf + 1) (c.links.prev none) with
    | none => .error .endless
    | some (some i) =>
        .ok (c.set i { c.buf i with
          dev := dev, blockno := blockno, valid := false, refcnt := 1 }, i)
    | some none => .error (.panic .bgetNoBuffers)

def acquiresleep (c : Bcache P) (p : P) (i : BufIndex) : Bcache P :=
  c.set i { c.buf i with lock := some p }

def releasesleep (c : Bcache P) (i : BufIndex) : Bcache P :=
  c.set i { c.buf i with lock := none }

/-- `brelse` under `bcache.lock`. -/
def unref (c : Bcache P) (i : BufIndex) : Bcache P :=
  let c := c.set i { c.buf i with refcnt := (c.buf i).refcnt - 1 }
  if (c.buf i).refcnt = 0 then { c with links := (c.links.unlink i).insertFront i } else c

def bpin (c : Bcache P) (i : BufIndex) : Bcache P :=
  c.set i { c.buf i with refcnt := (c.buf i).refcnt + 1 }

def bunpin (c : Bcache P) (i : BufIndex) : Bcache P :=
  c.set i { c.buf i with refcnt := (c.buf i).refcnt - 1 }

@[simp] theorem links_set (c : Bcache P) (i : BufIndex) (b : Buf P) : (c.set i b).links = c.links :=
  rfl

@[simp] theorem buf_set_self (c : Bcache P) (i : BufIndex) (b : Buf P) : (c.set i b).buf i = b :=
  Function.update_self ..

@[simp] theorem buf_unref (c : Bcache P) (i : BufIndex) :
    (c.unref i).buf = (c.set i { c.buf i with refcnt := (c.buf i).refcnt - 1 }).buf := by
  unfold unref
  dsimp only
  split <;> rfl

end Bcache

section Refinement

structure Shows (c : Bcache P) (abs : Cache P) : Prop where
  buf : c.buf = abs.buf
  circle : Links.Circle c.links abs.lru
  all : ∀ i, i ∈ abs.lru

variable {c : Bcache P} {abs : Cache P}

theorem circle_foldl {l : Links BufIndex} {xs more : List BufIndex} (h : Links.Circle l xs)
    (hnodup : more.Nodup) (hdisjoint : ∀ i ∈ more, i ∉ xs) :
    Links.Circle (more.foldl Links.insertFront l) (more.reverse ++ xs) := by
  induction more generalizing l xs with
  | nil => exact h
  | cons i more ih =>
    obtain ⟨hi, hnodup⟩ := List.nodup_cons.mp hnodup
    rw [List.foldl_cons, List.reverse_cons, List.append_assoc]
    refine ih (h.insertFront (hdisjoint i List.mem_cons_self)) hnodup fun j hj => ?_
    rw [List.singleton_append, List.mem_cons, not_or]
    exact ⟨fun heq => hi (heq ▸ hj), hdisjoint j (List.mem_cons_of_mem i hj)⟩

theorem shows_binit (links : Links BufIndex) : Shows (Bcache.binit (P := P) links) binit where
  buf := rfl
  circle := by
    have h := circle_foldl (Links.circle_clear links) (List.nodup_finRange nbuf) fun i _ => by simp
    rwa [List.append_nil] at h
  all i := List.mem_reverse.mpr (List.mem_finRange i)

theorem Shows.length_lt (h : Shows c abs) : abs.lru.length < nbuf + 1 := by
  have hle := List.Nodup.length_le_card h.circle.nodup
  rw [Fintype.card_fin] at hle
  omega

theorem Shows.set (h : Shows c abs) (i : BufIndex) (b : Buf P) :
    Shows (c.set i b) (abs.set i b) where
  buf := by
    simp only [Bcache.set, Cache.set, h.buf]
  circle := h.circle
  all := h.all

theorem Shows.bget (h : Shows c abs) (dev blockno : Nat) :
    (Bio.bget abs dev blockno = .error .bgetNoBuffers ∧
      c.bget dev blockno = .error (.panic .bgetNoBuffers)) ∨
    ∃ abs' c' i, Bio.bget abs dev blockno = .ok (abs', i) ∧ c.bget dev blockno = .ok (c', i) ∧
      Shows c' abs' := by
  have hnext : Links.scan c.links.next (fun i => decide ((c.buf i).caches dev blockno)) (nbuf + 1)
      (c.links.next none) = some (abs.find dev blockno) := by
    rw [h.circle.scan_next _ h.length_lt, h.buf]
    rfl
  have hprev : Links.scan c.links.prev (fun i => decide ((c.buf i).refcnt = 0)) (nbuf + 1)
      (c.links.prev none) = some abs.findUnused := by
    rw [h.circle.scan_prev _ h.length_lt, h.buf]
    rfl
  cases hfind : abs.find dev blockno with
  | some i =>
    refine Or.inr ⟨_, _, i, ?_, ?_, h.set i { abs.buf i with refcnt := (abs.buf i).refcnt + 1 }⟩
    · simp only [Bio.bget, hfind]
    · simp only [Bcache.bget, hnext, hfind]
      rw [h.buf]
  | none =>
    cases hunused : abs.findUnused with
    | some i =>
      refine Or.inr ⟨_, _, i, ?_, ?_, h.set i { abs.buf i with
        dev := dev, blockno := blockno, valid := false, refcnt := 1 }⟩
      · simp only [Bio.bget, hfind, hunused]
      · simp only [Bcache.bget, hnext, hfind, hprev, hunused]
        rw [h.buf]
    | none =>
      refine Or.inl ⟨?_, ?_⟩
      · simp only [Bio.bget, hfind, hunused]
      · simp only [Bcache.bget, hnext, hfind, hprev, hunused]

theorem Shows.bget_ok (h : Shows c abs) {dev blockno : Nat} {c' : Bcache P} {i : BufIndex}
    (hget : c.bget dev blockno = .ok (c', i)) :
    ∃ abs', Bio.bget abs dev blockno = .ok (abs', i) ∧ Shows c' abs' := by
  rcases h.bget dev blockno with ⟨-, herror⟩ | ⟨abs', c₁, i₁, habs, hget', hshows⟩
  · rw [herror] at hget
    cases hget
  · rw [hget'] at hget
    cases hget
    exact ⟨abs', habs, hshows⟩

theorem Shows.bget_error (h : Shows c abs) {dev blockno : Nat} {e : Fault}
    (hget : c.bget dev blockno = .error e) :
    Bio.bget abs dev blockno = .error .bgetNoBuffers ∧ e = .panic .bgetNoBuffers := by
  rcases h.bget dev blockno with ⟨habs, herror⟩ | ⟨abs', c₁, i₁, -, hget', -⟩
  · rw [herror] at hget
    cases hget
    exact ⟨habs, rfl⟩
  · rw [hget'] at hget
    cases hget

theorem Shows.unref (h : Shows c abs) (i : BufIndex) : Shows (c.unref i) (Bio.unref abs i) := by
  have hset := h.set i { abs.buf i with refcnt := (abs.buf i).refcnt - 1 }
  simp only [Bcache.unref, Bio.unref, h.buf]
  by_cases hzero : (abs.buf i).refcnt - 1 = 0
  · rw [if_pos (by simpa using hzero), if_pos (by simpa using hzero)]
    refine ⟨hset.buf, h.circle.moveFront (h.all i), fun j => ?_⟩
    by_cases hj : j = i
    · exact hj ▸ List.mem_cons_self
    · exact List.mem_cons_of_mem i ((List.mem_erase_of_ne hj).mpr (h.all j))
  · rw [if_neg (by simpa using hzero), if_neg (by simpa using hzero)]
    exact hset

end Refinement

end Xv6.Bio
