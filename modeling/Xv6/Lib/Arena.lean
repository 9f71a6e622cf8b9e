import Mathlib.Data.Finset.Max
import Mathlib.Data.Finset.Sort
import Mathlib.Logic.Function.Iterate
import Mathlib.Algebra.Order.Ring.Int
import Mathlib.Tactic.Common

/-! Memory that is divided into blocks, some of them free. The free blocks are in a circular
list, in the order of their addresses, with a base below all of them. -/
namespace Xv6.Lib

/-- Blocks without gaps between them or overlaps make up the memory `M`. -/
structure Tiles (len : Nat → Nat) (B : Finset Nat) (M : Set Nat) : Prop where
  pos : ∀ a ∈ B, 0 < len a
  apart : ∀ a ∈ B, ∀ b ∈ B, a < b → a + len a ≤ b
  cover : ∀ x, x ∈ M ↔ ∃ a ∈ B, a ≤ x ∧ x < a + len a

namespace Tiles

variable {len : Nat → Nat} {B : Finset Nat} {M : Set Nat} {a b : Nat}

theorem congr (h : Tiles len B M) {len' : Nat → Nat} (hlen : ∀ a ∈ B, len' a = len a) :
    Tiles len' B M := by
  have hpos := h.pos
  have hapart := h.apart
  have hcover := h.cover
  constructor
  · grind
  · grind
  · grind

theorem mem (h : Tiles len B M) (ha : a ∈ B) : a ∈ M :=
  (h.cover a).mpr ⟨a, ha, le_refl a, Nat.lt_add_of_pos_right (h.pos a ha)⟩

theorem merge (h : Tiles len B M) (ha : a ∈ B) (hb : b ∈ B) (hab : a + len a = b) :
    Tiles (Function.update len a (len a + len b)) (B.erase b) M := by
  have hpos := h.pos
  have hapart := h.apart
  constructor
  · grind
  · grind
  · intro x
    rw [h.cover]
    constructor
    · rintro ⟨c, hc, hx⟩
      by_cases hcb : c = b
      · exact ⟨a, by grind⟩
      · exact ⟨c, by grind⟩
    · rintro ⟨c, hc, hx⟩
      by_cases hca : c = a
      · by_cases hxb : x < b
        · exact ⟨a, by grind⟩
        · exact ⟨b, by grind⟩
      · exact ⟨c, by grind⟩

theorem split {m k : Nat} (h : Tiles len B M) (ha : a ∈ B) (hm : 0 < m) (hk : 0 < k)
    (hlen : len a = m + k) :
    Tiles (Function.update (Function.update len a m) (a + m) k) (insert (a + m) B) M := by
  have hpos := h.pos
  have hapart := h.apart
  have hnew : a + m ∉ B := by grind
  constructor
  · grind
  · grind
  · intro x
    rw [h.cover]
    constructor
    · rintro ⟨c, hc, hx⟩
      by_cases hx : c = a ∧ a + m ≤ x
      · exact ⟨a + m, by grind⟩
      · exact ⟨c, by grind⟩
    · rintro ⟨c, hc, hx⟩
      by_cases hca : c = a + m
      · exact ⟨a, by grind⟩
      · exact ⟨c, by grind⟩

theorem grow {n : Nat} (h : Tiles len B M) (ha : ∀ x ∈ M, x < a) (hn : 0 < n) :
    Tiles (Function.update len a n) (insert a B) {x | a ≤ x ∧ x < a + n ∨ x ∈ M} := by
  have hpos := h.pos
  have hapart := h.apart
  have hbelow : ∀ b ∈ B, b + len b ≤ a := by
    intro b hb
    have := ha (b + len b - 1) ((h.cover _).mpr ⟨b, hb, by grind⟩)
    grind
  constructor
  · grind
  · grind
  · intro x
    rw [Set.mem_ofPred_eq, h.cover]
    constructor
    · rintro (hx | ⟨c, hc, hx⟩)
      · exact ⟨a, by grind⟩
      · exact ⟨c, by grind⟩
    · rintro ⟨c, hc, hx⟩
      grind

end Tiles

def Follows (base : Nat) (F : Finset Nat) (a b : Nat) : Prop :=
  (b ∈ F ∧ a < b ∧ ∀ c ∈ F, a < c → b ≤ c) ∨ b = base ∧ ∀ c ∈ F, c ≤ a

theorem loop_iterate {β : Type} {f : Nat → Nat → β} {next : Nat → Nat} {a n fuel : Nat}
    (hstep : ∀ j < n, ∀ fuel, f (fuel + 1) (next^[j] a) = f fuel (next^[j + 1] a)) :
    f (fuel + n) a = f fuel (next^[n] a) := by
  induction n generalizing fuel with
  | zero => rfl
  | succ n ih =>
    rw [← hstep n (Nat.lt_succ_self n), ← ih fun j hj => hstep j (Nat.lt_succ_of_lt hj),
      Nat.add_assoc, Nat.add_comm 1]

structure Cyclic (next : Nat → Nat) (base : Nat) (F : Finset Nat) : Prop where
  above : ∀ a ∈ F, base < a
  follows : ∀ a ∈ insert base F, Follows base F a (next a)

namespace Cyclic

variable {next : Nat → Nat} {base : Nat} {F : Finset Nat} {a b p x : Nat}

theorem congr (h : Cyclic next base F) {next' : Nat → Nat}
    (hnext : ∀ a ∈ insert base F, next' a = next a) : Cyclic next' base F :=
  ⟨h.above, fun a ha => by rw [hnext a ha]; exact h.follows a ha⟩

theorem base_le (h : Cyclic next base F) (ha : a ∈ insert base F) : base ≤ a := by
  have := h.above
  grind

theorem next_mem (h : Cyclic next base F) (ha : a ∈ insert base F) : next a ∈ insert base F := by
  have := h.follows a ha
  grind [Follows]

theorem add (h : Cyclic next base F) (hp : p ∈ insert base F) (hlt : p < x)
    (hbelow : next p = base ∨ x < next p) :
    Cyclic (Function.update (Function.update next p x) x (next p)) base (insert x F) := by
  have habove := h.above
  have hfollows := h.follows
  have hp' := hfollows p hp
  constructor
  · grind
  · intro a ha
    have ha' := hfollows a
    unfold Follows at *
    by_cases hax : a = x
    · grind
    · by_cases hap : a = p
      · grind
      · grind

theorem remove (h : Cyclic next base F) (hp : p ∈ insert base F) (hq : next p ∈ F) :
    Cyclic (Function.update next p (next (next p))) base (F.erase (next p)) := by
  have habove := h.above
  have hfollows := h.follows
  have hp' := hfollows p hp
  have hq' := hfollows (next p) (by grind)
  constructor
  · grind
  · intro a ha
    have ha' := hfollows a
    unfold Follows at *
    by_cases hap : a = p
    · grind
    · grind

theorem iterate_mem (h : Cyclic next base F) (ha : a ∈ insert base F) (n : Nat) :
    next^[n] a ∈ insert base F := by
  induction n with
  | zero => exact ha
  | succ n ih =>
    rw [Function.iterate_succ_apply']
    exact h.next_mem ih

theorem reach_up (h : Cyclic next base F) (ha : a ∈ insert base F)
    (hb : b ∈ insert base F) (hab : a ≤ b) : ∃ n ≤ b - a, next^[n] a = b := by
  induction hd : b - a using Nat.strong_induction_on generalizing a with
  | h d ih =>
    by_cases heq : a = b
    · exact ⟨0, Nat.zero_le _, heq⟩
    · have hnext : next a ∈ insert base F ∧ a < next a ∧ next a ≤ b := by
        have := h.follows a ha
        have := h.above
        grind [Follows]
      obtain ⟨n, hn, hreach⟩ := ih (b - next a) (by omega) hnext.1 hnext.2.2 rfl
      exact ⟨n + 1, by omega, by rw [Function.iterate_succ_apply, hreach]⟩

theorem reach (h : Cyclic next base F) {N : Nat} (hN : ∀ a ∈ insert base F, a < N)
    (ha : a ∈ insert base F) (hb : b ∈ insert base F) :
    ∃ n ≤ 2 * N, next^[n] a = b := by
  obtain ⟨last, hmem, hmax⟩ := Finset.exists_max_image (insert base F) id ⟨base, by simp⟩
  have hbase : next last = base := by
    rcases h.follows last hmem with ⟨-, hlt, -⟩ | ⟨hbase, -⟩
    · exact absurd (hmax _ (h.next_mem hmem)) (Nat.not_le.mpr hlt)
    · exact hbase
  obtain ⟨m, hm, hup⟩ := h.reach_up ha hmem (hmax a ha)
  obtain ⟨n, hn, hdown⟩ := h.reach_up (Finset.mem_insert_self base F) hb (h.base_le hb)
  have := hN _ hmem
  have := hN _ hb
  refine ⟨n + (1 + m), by omega, ?_⟩
  rw [Function.iterate_add_apply, Function.iterate_add_apply, hup, Function.iterate_one, hbase,
    hdown]

theorem exists_place (h : Cyclic next base F) (hx : base < x) (hnew : x ∉ F) :
    ∃ p ∈ insert base F, p < x ∧ (next p = base ∨ x < next p) := by
  obtain ⟨p, hmem, hmax⟩ := Finset.exists_max_image ((insert base F).filter (· < x)) id
    ⟨base, by simp [hx]⟩
  obtain ⟨hp, hlt⟩ := Finset.mem_filter.mp hmem
  have hbelow : ∀ y ∈ insert base F, y < x → y ≤ p :=
    fun y hy hyx => hmax y (Finset.mem_filter.mpr ⟨hy, hyx⟩)
  have := h.follows p hp
  refine ⟨p, hp, hlt, ?_⟩
  grind [Follows]

theorem first (h : Cyclic next base F) {N : Nat} (hN : ∀ a ∈ insert base F, a < N) {Q : Nat → Prop}
    (ha : a ∈ insert base F) (hb : b ∈ insert base F) (hQ : Q b) :
    ∃ n ≤ 2 * N, Q (next^[n] a) ∧ ∀ j < n, ¬Q (next^[j] a) := by
  classical
  obtain ⟨n, hn, rfl⟩ := h.reach hN ha hb
  have hex : ∃ n, Q (next^[n] a) := ⟨n, hQ⟩
  exact ⟨Nat.find hex, (Nat.find_min' hex hQ).trans hn, Nat.find_spec hex,
    fun j => Nat.find_min hex⟩

theorem exists_list (h : Cyclic next base F) : ∃ l : List Nat, l.Pairwise (· < ·) ∧
    (∀ a, a ∈ l ↔ a ∈ F) ∧ (base :: l ++ [base]).IsChain (next · = ·) := by
  have hrest : ∀ (l : List Nat) a, a ∈ insert base F → l.Pairwise (· < ·) →
      (∀ b, b ∈ l ↔ b ∈ F ∧ a < b) → (a :: l ++ [base]).IsChain (next · = ·) := by
    intro l
    induction l with
    | nil =>
      intro a ha _ hl
      have := h.follows a ha
      simp
      grind [Follows]
    | cons b l ih =>
      intro a ha hsorted hl
      have := h.follows a ha
      rw [List.pairwise_cons] at hsorted
      rw [List.cons_append, List.cons_append, List.isChain_cons_cons]
      refine ⟨by grind [Follows], ih b (by grind) hsorted.2 fun c => ?_⟩
      grind
  refine ⟨F.sort, F.sortedLT_sort.pairwise, fun a => Finset.mem_sort .., ?_⟩
  apply hrest
  · exact Finset.mem_insert_self _ _
  · exact F.sortedLT_sort.pairwise
  · intro b
    rw [Finset.mem_sort, iff_self_and]
    exact h.above b

end Cyclic

/-- Blocks, of which those of `F` are free and those of `L` in use. -/
structure Arena (next len : Nat → Nat) (base : Nat) (F L : Finset Nat) (M : Set Nat) : Prop where
  ring : Cyclic next base F
  tiles : Tiles len (F ∪ L) M
  disjoint : ∀ a ∈ F, a ∉ L

def Merged (next len : Nat → Nat) (F : Finset Nat) : Prop := ∀ a ∈ F, a + len a ≠ next a

theorem Merged.congr {next len next' len' : Nat → Nat} {F : Finset Nat} (h : Merged next len F)
    (hnext : ∀ a ∈ F, next' a = next a) (hlen : ∀ a ∈ F, len' a = len a) :
    Merged next' len' F := by
  intro a ha
  rw [hnext a ha, hlen a ha]
  exact h a ha

/-- The block `x` behind `p` and the next one, as one block if they are next to each other: `n`
is its length, and `z` follows. -/
def Fused (next len : Nat → Nat) (p x n z : Nat) : Prop :=
  if x + len x = next p then n = len x + len (next p) ∧ z = next (next p)
  else n = len x ∧ z = next p

theorem exists_fused (next len : Nat → Nat) (p x : Nat) : ∃ n z, Fused next len p x n z := by
  unfold Fused
  split
  · exact ⟨_, _, rfl, rfl⟩
  · exact ⟨_, _, rfl, rfl⟩

def Linked (len next' len' : Nat → Nat) (p x n z : Nat) : Prop :=
  if p + len p = x then next' p = z ∧ len' p = len p + n
  else next' p = x ∧ len' p = len p ∧ next' x = z ∧ len' x = n

namespace Arena

open Function (update)

variable {next len : Nat → Nat} {base : Nat} {F L : Finset Nat} {M : Set Nat} {a b p x : Nat}

theorem congr (h : Arena next len base F L M) {next' len' : Nat → Nat}
    (hnext : ∀ a ∈ insert base F, next' a = next a) (hlen : ∀ a ∈ F ∪ L, len' a = len a) :
    Arena next' len' base F L M :=
  ⟨h.ring.congr hnext, h.tiles.congr hlen, h.disjoint⟩

theorem add (h : Arena next len base F L M) (hx : x ∈ L) (hp : p ∈ insert base F) (hlt : p < x)
    (hbelow : next p = base ∨ x < next p) :
    Arena (update (update next p x) x (next p)) len base (insert x F) (L.erase x) M where
  ring := h.ring.add hp hlt hbelow
  tiles := by
    rw [show insert x F ∪ L.erase x = F ∪ L by grind]
    exact h.tiles
  disjoint := by
    have := h.disjoint
    grind

theorem absorb (h : Arena next len base F L M) (ha : a ∈ F) (hb : next a ∈ F)
    (hab : a + len a = next a) :
    Arena (update next a (next (next a))) (update len a (len a + len (next a))) base
      (F.erase (next a)) L M where
  ring := h.ring.remove (Finset.mem_insert_of_mem ha) hb
  tiles := by
    have := h.disjoint
    rw [show F.erase (next a) ∪ L = (F ∪ L).erase (next a) by grind]
    exact h.tiles.merge (by grind) (by grind) hab
  disjoint := by
    have := h.disjoint
    grind

theorem take (h : Arena next len base F L M) (hp : p ∈ insert base F) (hb : next p ∈ F) :
    Arena (update next p (next (next p))) len base (F.erase (next p)) (insert (next p) L) M where
  ring := h.ring.remove hp hb
  tiles := by
    rw [show F.erase (next p) ∪ insert (next p) L = F ∪ L by grind]
    exact h.tiles
  disjoint := by
    have := h.disjoint
    grind

theorem next_cases (h : Arena next len base F L M) (ha : a ∈ F) :
    next a = base ∨ a + len a ≤ next a := by
  rcases h.ring.follows a (Finset.mem_insert_of_mem ha) with ⟨hnext, hlt, -⟩ | ⟨hbase, -⟩
  · exact Or.inr (h.tiles.apart a (by grind) _ (by grind) hlt)
  · exact Or.inl hbase

theorem merged_take (h : Arena next len base F L M) (hmerged : Merged next len F)
    (hp : p ∈ insert base F) (hb : next p ∈ F) :
    Merged (update next p (next (next p))) len (F.erase (next p)) := by
  intro a ha
  have := hmerged a
  have := h.next_cases hb
  have := h.next_cases (a := p)
  have := h.ring.above
  have := h.tiles.pos (next p) (by grind)
  grind

theorem split {m k : Nat} (h : Arena next len base F L M) (ha : a ∈ F) (hm : 0 < m) (hk : 0 < k)
    (hlen : len a = m + k) :
    Arena next (update (update len a m) (a + m) k) base F (insert (a + m) L) M where
  ring := h.ring
  tiles := by
    rw [Finset.union_insert]
    exact h.tiles.split (by grind) hm hk hlen
  disjoint := by
    intro b hb
    have := h.disjoint b hb
    have := h.tiles.apart a (by grind) b (by grind)
    grind

theorem merged_split {m k : Nat} (h : Arena next len base F L M) (hmerged : Merged next len F)
    (ha : a ∈ F) (hm : 0 < m) (hk : 0 < k) (hlen : len a = m + k) :
    Merged next (update (update len a m) (a + m) k) F := by
  intro b hb
  have := hmerged b hb
  have := h.next_cases ha
  have := h.ring.above a ha
  have := h.tiles.apart a (by grind) b (by grind)
  grind

/-- There is a new block in use, above all others. -/
theorem grow {n : Nat} (h : Arena next len base F L M) (hx : ∀ y ∈ M, y < x) (hn : 0 < n) :
    Arena next (update len x n) base F (insert x L) {y | x ≤ y ∧ y < x + n ∨ y ∈ M} where
  ring := h.ring
  tiles := by
    rw [Finset.union_insert]
    exact h.tiles.grow hx hn
  disjoint := by
    have := h.disjoint
    intro a ha
    have := hx a (h.tiles.mem (by grind))
    grind

section Release

variable (h : Arena next len base F L M) (hx : x ∈ L) (hp : p ∈ insert base F) (hlt : p < x)
  (hbelow : next p = base ∨ x < next p) {n z : Nat}
  (hjoin : Fused next len p x n z)
include h hx hp hlt hbelow hjoin

/-- A block becomes free behind `p` and is joined with the one behind it. -/
theorem release_right : Arena (update (update next p x) x z) (update len x n) base
    (if x + len x = next p then (insert x F).erase (next p) else insert x F) (L.erase x) M := by
  have hadd := h.add hx hp hlt hbelow
  unfold Fused at hjoin
  split at hjoin
  · rename_i hright
    obtain ⟨rfl, rfl⟩ := hjoin
    have hbase := h.ring.base_le hp
    have hq : next p ∈ F := by
      have := h.ring.next_mem hp
      grind
    rw [if_pos hright]
    have hjoined := hadd.absorb (a := x) (by grind) (by grind) (by grind)
    rw [Function.update_self, Function.update_idem, Function.update_of_ne (by grind),
      Function.update_of_ne (by grind)] at hjoined
    exact hjoined
  · rename_i hright
    obtain ⟨rfl, rfl⟩ := hjoin
    rw [if_neg hright, Function.update_eq_self]
    exact hadd

theorem release (hmerged : Merged next len F) (hzero : len base = 0) {next' len' : Nat → Nat}
    (hsame : ∀ a ∈ insert base (F ∪ L), a ≠ x → a ≠ p → next' a = next a ∧ len' a = len a)
    (hlink : Linked len next' len' p x n z) :
    ∃ F', Arena next' len' base F' (L.erase x) M ∧ Merged next' len' F' ∧ p ∈ insert base F' ∧
      ∃ a ∈ F', len x ≤ len' a := by
  have hright := release_right h hx hp hlt hbelow hjoin
  have hbase := h.ring.base_le hp
  have hnew : x ∉ F := fun hxF => h.disjoint x hxF hx
  have hq := h.ring.next_mem hp
  unfold Fused at hjoin
  unfold Linked at hlink
  unfold Merged at *
  -- the block behind `x` was merged with its own successor
  have hend : x + n ≠ z := by grind
  split at hlink
  · rename_i hleft
    have hpF : p ∈ F := by grind
    have hboth := hright.absorb (a := p) (by grind) (by grind) (by grind)
    rw [show update (update next p x) x z p = x by grind] at hboth
    refine ⟨_, hboth.congr ?_ ?_, ?_, ?_, p, ?_, ?_⟩
    · grind
    · grind
    · grind
    · grind
    · grind
    · grind
  · rename_i hleft
    refine ⟨_, hright.congr ?_ ?_, ?_, ?_, x, ?_, ?_⟩
    · grind
    · grind
    · grind
    · grind
    · grind
    · grind

end Release

end Arena

end Xv6.Lib
