import Xv6.Lib.Heaplet

/-! Programs that take cells of memory from an allocator, work on the cells they own and
give them back, and a logic for them. -/
namespace Xv6.Lib

structure Sig where
  Cell : Type
  Content : Type
  Panic : Type

inductive Prog (S : Sig) (α : Type) : Type where
  | ret (a : α)
  | panic (e : S.Panic)
  | alloc (k : Option S.Cell → Prog S α)
  | free (c : S.Cell) (k : Prog S α)
  | read (c : S.Cell) (k : S.Content → Prog S α)
  | modify (c : S.Cell) (f : S.Content → S.Content) (k : Prog S α)

namespace Prog

variable {S : Sig} {α β : Type}

def bind : Prog S α → (α → Prog S β) → Prog S β
  | ret a, f => f a
  | panic e, _ => panic e
  | alloc k, f => alloc fun c => (k c).bind f
  | free c k, f => free c (k.bind f)
  | read c k, f => read c fun x => (k x).bind f
  | modify c g k, f => modify c g (k.bind f)

instance : Monad (Prog S) where
  pure := ret
  bind := bind

end Prog

structure Machine (S : Sig) where
  fresh : S.Content
  freed : S.Content

/-- What a program relies on: the allocator deals in the cells of `pool` and may have none
left if it `exhausts`, and only `accepted` panics may happen. -/
structure Protocol (S : Sig) where
  pool : S.Cell → Prop
  exhausts : Prop
  accepted : S.Panic → Prop

variable {S : Sig} [DecidableEq S.Cell] {α β : Type}

/-- Run with the cells of `h` to itself, the program touches only these and returns with
`post`. -/
def wp (M : Machine S) (P : Protocol S) : Prog S α →
    (α → Heaplet S.Cell S.Content → Prop) → Heaplet S.Cell S.Content → Prop
  | .ret a, post, h => post a h
  | .panic e, _, _ => P.accepted e
  | .alloc k, post, h => (P.exhausts → wp M P (k none) post h) ∧ ∀ c, P.pool c → h c = none →
      wp M P (k (some c)) post (Function.update h c (some M.fresh))
  | .free c k, post, h => P.pool c ∧ h c ≠ none ∧ wp M P k post (Function.update h c none)
  | .read c k, post, h => ∃ x, h c = some x ∧ wp M P (k x) post h
  | .modify c f k, post, h => ∃ x, h c = some x ∧
      wp M P k post (Function.update h c (some (f x)))

section Rules

variable {M : Machine S} {P : Protocol S} {p : Prog S α}
  {post post' : α → Heaplet S.Cell S.Content → Prop} {h : Heaplet S.Cell S.Content}

theorem wp_pure {a : α} (ha : post a h) : wp M P (pure a : Prog S α) post h := ha

theorem wp_mono (hp : wp M P p post h) (himp : ∀ a h', post a h' → post' a h') :
    wp M P p post' h := by
  induction p generalizing h with
  | ret a => exact himp a h hp
  | panic e => exact hp
  | alloc k ih => exact ⟨fun hx => ih none (hp.1 hx), fun c hc hfree =>
      ih (some c) (hp.2 c hc hfree)⟩
  | free c k ih => exact ⟨hp.1, hp.2.1, ih hp.2.2⟩
  | read c k ih =>
    obtain ⟨x, hx, hp⟩ := hp
    exact ⟨x, hx, ih x hp⟩
  | modify c f k ih =>
    obtain ⟨x, hx, hp⟩ := hp
    exact ⟨x, hx, ih hp⟩

theorem wp_bind {f : α → Prog S β} {post : β → Heaplet S.Cell S.Content → Prop}
    (hp : wp M P p (fun a h' => wp M P (f a) post h') h) : wp M P (p >>= f) post h := by
  show wp M P (p.bind f) post h
  induction p generalizing h with
  | ret a => exact hp
  | panic e => exact hp
  | alloc k ih => exact ⟨fun hx => ih none (hp.1 hx), fun c hc hfree =>
      ih (some c) (hp.2 c hc hfree)⟩
  | free c k ih => exact ⟨hp.1, hp.2.1, ih hp.2.2⟩
  | read c k ih =>
    obtain ⟨x, hx, hp⟩ := hp
    exact ⟨x, hx, ih x hp⟩
  | modify c f k ih =>
    obtain ⟨x, hx, hp⟩ := hp
    exact ⟨x, hx, ih hp⟩

theorem wp_seq {f : α → Prog S β} {post' : β → Heaplet S.Cell S.Content → Prop}
    (hp : wp M P p post h) (hf : ∀ a h', post a h' → wp M P (f a) post' h') :
    wp M P (p >>= f) post' h :=
  wp_bind (wp_mono hp hf)

/-- Cells that the program is not given stay as they are. -/
theorem wp_frame {own other : Heaplet S.Cell S.Content} (hp : wp M P p post own)
    (hs : Heaplet.Splits h own other) :
    wp M P p (fun a h' => ∃ own', Heaplet.Splits h' own' other ∧ post a own') h := by
  induction p generalizing h own with
  | ret a => exact ⟨own, hs, hp⟩
  | panic e => exact hp
  | alloc k ih =>
    refine ⟨fun hx => ih none (hp.1 hx) hs, fun c hc hfree => ?_⟩
    obtain ⟨hown, hother⟩ := hs.eq_none.mp hfree
    exact ih (some c) (hp.2 c hc hown) (hs.update_left hother _)
  | free c k ih =>
    obtain ⟨hpool, hown, hp⟩ := hp
    exact ⟨hpool, hs.ne_none.mpr (Or.inl hown), ih hp (hs.update_left (hs.right_none hown) _)⟩
  | read c k ih =>
    obtain ⟨x, hx, hp⟩ := hp
    exact ⟨x, hs.of_left hx, ih x hp hs⟩
  | modify c f k ih =>
    obtain ⟨x, hx, hp⟩ := hp
    have hown : own c ≠ none := by simp [hx]
    exact ⟨x, hs.of_left hx, ih hp (hs.update_left (hs.right_none hown) _)⟩

end Rules

end Xv6.Lib
