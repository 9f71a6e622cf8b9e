import Xv6.Bio.Chain
import Xv6.Bio.Buffers
import Xv6.Lib.System

/-! Any processes at work on the buffer cache, at the granularity of `bcache.lock`
and of the buffers' sleep-locks. A process gives back only buffers that it holds,
and a pin is taken off only when there is one. -/
namespace Xv6.Bio

open Lib

/-- `pins i` counts the pins of a buffer. `moved i` is when it came to the head of the
list, and `clock` is the time; no code reads the three. -/
structure Lru (P : Type) where
  cache : Bcache P
  pending : P → Pending
  pins : BufIndex → Nat
  moved : BufIndex → Nat
  clock : Nat

namespace Lru

inductive Action (P : Type) where
  /-- `bget` up to its `acquiresleep` -/
  | bget (p : P) (dev blockno : Nat)
  /-- `acquiresleep` gets the lock. -/
  | acquire (p : P)
  /-- `brelse` up to `acquire(&bcache.lock)` -/
  | brelse (p : P) (i : BufIndex)
  /-- the rest of `brelse` -/
  | unref (p : P)
  | bpin (i : BufIndex)
  | bunpin (i : BufIndex)

variable {P : Type} [DecidableEq P]

def touch (s : Lru P) (i : BufIndex) : Lru P :=
  if (s.cache.buf i).refcnt = 0 then
    { s with moved := Function.update s.moved i s.clock, clock := s.clock + 1 }
  else s

omit [DecidableEq P] in
@[simp] theorem cache_touch (s : Lru P) (i : BufIndex) : (s.touch i).cache = s.cache := by
  unfold touch
  split <;> rfl

omit [DecidableEq P] in
@[simp] theorem pending_touch (s : Lru P) (i : BufIndex) : (s.touch i).pending = s.pending := by
  unfold touch
  split <;> rfl

omit [DecidableEq P] in
@[simp] theorem pins_touch (s : Lru P) (i : BufIndex) : (s.touch i).pins = s.pins := by
  unfold touch
  split <;> rfl

def act (s : Lru P) : Action P → Option (Except Fault (Lru P))
  | .bget p dev blockno =>
      if s.pending p = .none then
        match s.cache.bget dev blockno with
        | .error e => some (.error e)
        | .ok (cache, i) => some (.ok { s with
            cache := cache, pending := Function.update s.pending p (.acquiring i) })
      else none
  | .acquire p =>
      match s.pending p with
      | .acquiring i =>
          if (s.cache.buf i).lock = none then
            some (.ok { s with
              cache := s.cache.acquiresleep p i
              pending := Function.update s.pending p .none })
          else none
      | _ => none
  | .brelse p i =>
      if s.pending p = .none ∧ (s.cache.buf i).lock = some p then
        some (.ok { s with
          cache := s.cache.releasesleep i
          pending := Function.update s.pending p (.releasing i) })
      else none
  | .unref p =>
      match s.pending p with
      | .releasing i =>
          some (.ok ({ s with
            cache := s.cache.unref i
            pending := Function.update s.pending p .none }.touch i))
      | _ => none
  | .bpin i =>
      some (.ok { s with
        cache := s.cache.bpin i, pins := Function.update s.pins i (s.pins i + 1) })
  | .bunpin i =>
      if 0 < s.pins i then
        some (.ok { s with
          cache := s.cache.bunpin i, pins := Function.update s.pins i (s.pins i - 1) })
      else none

structure Start (s : Lru P) : Prop where
  cache : ∃ links, s.cache = Bcache.binit links
  pending : ∀ p, s.pending p = .none
  pins : ∀ i, s.pins i = 0
  moved : ∀ i, s.moved i = i
  clock : s.clock = nbuf

def system (P : Type) [DecidableEq P] : System (Lru P) Fault (Action P) where
  init := Start
  enabled s a := (act s a).isSome = true
  exec s a := (act s a).getD (.ok s)

instance (s : Lru P) (a : Action P) : Decidable ((system P).enabled s a) :=
  inferInstanceAs (Decidable (_ = true))

inductive Turn (s : Lru P) : Action P → Except Fault (Lru P) → Prop where
  | bgetFault {p : P} {dev blockno : Nat} {e : Fault} : s.pending p = .none →
      s.cache.bget dev blockno = .error e → Turn s (.bget p dev blockno) (.error e)
  | bget {p : P} {dev blockno : Nat} {cache : Bcache P} {i : BufIndex} : s.pending p = .none →
      s.cache.bget dev blockno = .ok (cache, i) →
      Turn s (.bget p dev blockno) (.ok { s with
        cache := cache, pending := Function.update s.pending p (.acquiring i) })
  | acquire {p : P} {i : BufIndex} : s.pending p = .acquiring i → (s.cache.buf i).lock = none →
      Turn s (.acquire p) (.ok { s with
        cache := s.cache.acquiresleep p i, pending := Function.update s.pending p .none })
  | brelse {p : P} {i : BufIndex} : s.pending p = .none → (s.cache.buf i).lock = some p →
      Turn s (.brelse p i) (.ok { s with
        cache := s.cache.releasesleep i, pending := Function.update s.pending p (.releasing i) })
  | unref {p : P} {i : BufIndex} : s.pending p = .releasing i →
      Turn s (.unref p) (.ok ({ s with
        cache := s.cache.unref i, pending := Function.update s.pending p .none }.touch i))
  | bpin {i : BufIndex} : Turn s (.bpin i) (.ok { s with
      cache := s.cache.bpin i, pins := Function.update s.pins i (s.pins i + 1) })
  | bunpin {i : BufIndex} : 0 < s.pins i → Turn s (.bunpin i) (.ok { s with
      cache := s.cache.bunpin i, pins := Function.update s.pins i (s.pins i - 1) })

variable {s t : Lru P} {a : Action P} {r : Except Fault (Lru P)}

theorem turn_of_act (h : act s a = some r) : Turn s a r := by
  cases a with
  | bget p dev blockno =>
    simp only [act] at h
    split at h
    · split at h <;> cases h
      · exact .bgetFault ‹_› ‹_›
      · exact .bget ‹_› ‹_›
    · cases h
  | acquire p =>
    simp only [act] at h
    split at h
    · split at h <;> cases h
      exact .acquire ‹_› ‹_›
    · cases h
  | brelse p i =>
    simp only [act] at h
    split at h <;> cases h
    rename_i hheld
    exact .brelse hheld.1 hheld.2
  | unref p =>
    simp only [act] at h
    split at h <;> cases h
    exact .unref ‹_›
  | bpin i =>
    cases h
    exact .bpin
  | bunpin i =>
    simp only [act] at h
    split at h <;> cases h
    exact .bunpin ‹_›

section Order

structure Ordered (lru : List BufIndex) (moved : BufIndex → Nat) (clock : Nat) : Prop where
  sorted : lru.Pairwise fun i j => moved j < moved i
  past : ∀ i, moved i < clock

theorem Ordered.moveFront {lru : List BufIndex} {moved : BufIndex → Nat} {clock : Nat}
    (h : Ordered lru moved clock) (hnodup : lru.Nodup) (i : BufIndex) :
    Ordered (i :: lru.erase i) (Function.update moved i clock) (clock + 1) where
  sorted := by
    refine List.pairwise_cons.mpr ⟨fun j hj => ?_, ?_⟩
    · have hne : j ≠ i := fun heq => hnodup.not_mem_erase (heq ▸ hj)
      rw [Function.update_self, Function.update_of_ne hne]
      exact h.past j
    · refine (h.sorted.sublist List.erase_sublist).imp_of_mem fun {j k} hj hk hlt => ?_
      have hji : j ≠ i := fun heq => hnodup.not_mem_erase (heq ▸ hj)
      have hki : k ≠ i := fun heq => hnodup.not_mem_erase (heq ▸ hk)
      rwa [Function.update_of_ne hji, Function.update_of_ne hki]
  past j := by
    by_cases hj : j = i
    · rw [hj, Function.update_self]
      exact Nat.lt_succ_self clock
    · rw [Function.update_of_ne hj]
      exact Nat.lt_succ_of_lt (h.past j)

omit [DecidableEq P] in
theorem Ordered.unref {abs : Cache P} (h : Ordered abs.lru s.moved s.clock)
    (hshows : Shows s.cache abs) (i : BufIndex) (pending : P → Pending) :
    Ordered (Bio.unref abs i).lru
      ({ s with cache := s.cache.unref i, pending := pending }.touch i).moved
      ({ s with cache := s.cache.unref i, pending := pending }.touch i).clock := by
  have hnodup : abs.lru.Nodup := hshows.circle.nodup
  by_cases hzero : (abs.buf i).refcnt - 1 = 0
  · have habs : (Bio.unref abs i).lru = i :: abs.lru.erase i := by
      simp [Bio.unref, hzero]
    have htouch : ((s.cache.unref i).buf i).refcnt = 0 := by
      simp [hshows.buf, hzero]
    rw [habs, touch, if_pos htouch]
    exact h.moveFront hnodup i
  · have habs : (Bio.unref abs i).lru = abs.lru := by
      simp [Bio.unref, hzero]
    have htouch : ¬((s.cache.unref i).buf i).refcnt = 0 := by
      simp [hshows.buf, hzero]
    rw [habs, touch, if_neg htouch]
    exact h

omit [DecidableEq P] in
theorem Ordered.findUnused {c : Cache P} {moved : BufIndex → Nat} {clock : Nat}
    (h : Ordered c.lru moved clock) (hall : ∀ i, i ∈ c.lru) {i j : BufIndex}
    (hi : c.findUnused = some i) (hj : (c.buf j).refcnt = 0) (hne : j ≠ i) : moved i < moved j := by
  obtain ⟨-, front, back, heq, hfront⟩ := List.find?_eq_some_iff_append.mp hi
  have hsorted : (front ++ i :: back).Pairwise fun i j => moved i < moved j := by
    rw [← heq]
    exact List.pairwise_reverse.mpr h.sorted
  have hmem : j ∈ front ++ i :: back := heq ▸ List.mem_reverse.mpr (hall j)
  rcases List.mem_append.mp hmem with hmem | hmem
  · have := hfront j hmem
    simp [hj] at this
  · rcases List.mem_cons.mp hmem with rfl | hmem
    · exact absurd rfl hne
    · exact (List.pairwise_cons.mp (List.pairwise_append.mp hsorted).2.1).1 j hmem

end Order

section Counts

variable [Fintype P]

def users (s : Lru P) (i : BufIndex) : Nat :=
  (s.cache.buf i).lock.isSome.toNat + total (Buffers.pendingCount i) s.pending

def Counted (s : Lru P) : Prop := ∀ i, (s.cache.buf i).refcnt = s.users i + s.pins i

omit [DecidableEq P] in
theorem Counted.change (hs : s.Counted) {i : BufIndex} {x : Buf P}
    (hbuf : t.cache.buf = Function.update s.cache.buf i x)
    (hpending : ∀ j, j ≠ i → total (Buffers.pendingCount j) t.pending =
      total (Buffers.pendingCount j) s.pending)
    (hpins : ∀ j, j ≠ i → t.pins j = s.pins j)
    (hhere : x.refcnt = x.lock.isSome.toNat + total (Buffers.pendingCount i) t.pending + t.pins i) :
    t.Counted := by
  intro j
  by_cases hj : j = i
  · subst hj
    simpa only [users, hbuf, Function.update_self, Nat.cast_add] using hhere
  · have hold := hs j
    simpa only [users, hbuf, Function.update_of_ne hj, hpending j hj, hpins j hj] using hold

theorem Counted.pend (hs : s.Counted) {p : P} {i : BufIndex} {x : Buf P} {new : Pending}
    (hbuf : t.cache.buf = Function.update s.cache.buf i x)
    (hpending : t.pending = Function.update s.pending p new) (hpins : t.pins = s.pins)
    (hother : ∀ j, j ≠ i →
      Buffers.pendingCount j (s.pending p) = Buffers.pendingCount j new)
    (hhere : x.refcnt + (s.cache.buf i).lock.isSome.toNat + Buffers.pendingCount i (s.pending p) =
      (s.cache.buf i).refcnt + x.lock.isSome.toNat + Buffers.pendingCount i new) : t.Counted := by
  refine hs.change hbuf (fun j hj => ?_) (fun j _ => by rw [hpins]) ?_
  · have htotal := total_update (Buffers.pendingCount j) s.pending p new
    rw [hpending]
    have := hother j hj
    omega
  · have htotal := total_update (Buffers.pendingCount i) s.pending p new
    have hold := hs i
    rw [hpending, hpins]
    simp only [users] at hold
    omega

theorem Counted.turn (hs : s.Counted) {abs : Cache P} (hshows : Shows s.cache abs)
    (ht : Turn s a (.ok t)) : t.Counted := by
  generalize hr : (Except.ok t : Except Fault (Lru P)) = r at ht
  cases ht with
  | bgetFault => cases hr
  | @bget p dev blockno cache i hp hget =>
    cases hr
    have hother : ∀ j, j ≠ i →
        Buffers.pendingCount j (s.pending p) = Buffers.pendingCount j (.acquiring i) := by
      intro j hj
      simp [hp, Buffers.pendingCount, Ne.symm hj]
    obtain ⟨abs', habs, hshows'⟩ := hshows.bget_ok hget
    have hbuf := hshows'.buf
    rcases bget_cases hshows.all habs with ⟨-, rfl⟩ | ⟨-, hzero, rfl⟩
    · rw [Cache.set, ← hshows.buf] at hbuf
      refine hs.pend hbuf rfl rfl hother ?_
      simp only [hp, Buffers.pendingCount]
      simp
      omega
    · rw [Cache.set, ← hshows.buf] at hbuf
      rw [← hshows.buf] at hzero
      refine hs.pend hbuf rfl rfl hother ?_
      simp only [hp, Buffers.pendingCount, hzero]
      simp
      omega
  | @acquire p i hp hfree =>
    cases hr
    refine hs.pend (i := i) rfl rfl rfl (fun j hj => ?_) ?_
    · simp [hp, Buffers.pendingCount, Ne.symm hj]
    · simp [hp, Buffers.pendingCount, hfree]
  | @brelse p i hp hheld =>
    cases hr
    refine hs.pend (i := i) rfl rfl rfl (fun j hj => ?_) ?_
    · simp [hp, Buffers.pendingCount, Ne.symm hj]
    · simp [hp, Buffers.pendingCount, hheld]
  | @unref p i hp =>
    cases hr
    refine hs.pend (p := p) (i := i)
      (by rw [cache_touch, Bcache.buf_unref]; rfl) (pending_touch ..) (pins_touch ..)
      (fun j hj => ?_) ?_
    · simp [hp, Buffers.pendingCount, Ne.symm hj]
    · simp [hp, Buffers.pendingCount]
      omega
  | @bpin i =>
    cases hr
    have hold := hs i
    refine hs.change (i := i) rfl (fun _ _ => rfl) (fun j hj => Function.update_of_ne hj ..) ?_
    simp only [users, Function.update_self] at hold ⊢
    omega
  | @bunpin i hpins =>
    cases hr
    have hold := hs i
    refine hs.change (i := i) rfl (fun _ _ => rfl) (fun j hj => Function.update_of_ne hj ..) ?_
    simp only [users, Function.update_self] at hold ⊢
    omega

end Counts

section Run

variable [Fintype P]

/-- For every device but 0 no block is in two buffers. -/
def Unique (buf : BufIndex → Buf P) : Prop :=
  ∀ i j dev blockno, dev ≠ 0 → (buf i).caches dev blockno → (buf j).caches dev blockno → i = j

omit [DecidableEq P] [Fintype P] in
theorem Unique.same {buf : BufIndex → Buf P} (h : Unique buf) {i : BufIndex} {x : Buf P}
    (hx : x.dev = (buf i).dev ∧ x.blockno = (buf i).blockno) :
    Unique (Function.update buf i x) := by
  have hsame : ∀ j dev blockno, (Function.update buf i x j).caches dev blockno ↔
      (buf j).caches dev blockno := by
    intro j dev blockno
    by_cases hj : j = i
    · subst hj
      simp [Buf.caches, hx]
    · rw [Function.update_of_ne hj]
  intro j k dev blockno hdev hj hk
  exact h j k dev blockno hdev ((hsame ..).mp hj) ((hsame ..).mp hk)

omit [DecidableEq P] [Fintype P] in
theorem Unique.recycle {buf : BufIndex → Buf P} (h : Unique buf) {i : BufIndex} {x : Buf P}
    (hmiss : ∀ j, ¬(buf j).caches x.dev x.blockno) : Unique (Function.update buf i x) := by
  intro j k dev blockno hdev hj hk
  by_cases hji : j = i <;> by_cases hki : k = i
  · rw [hji, hki]
  · rw [hji, Function.update_self] at hj
    rw [Function.update_of_ne hki, ← hj.1, ← hj.2] at hk
    exact absurd hk (hmiss k)
  · rw [hki, Function.update_self] at hk
    rw [Function.update_of_ne hji, ← hk.1, ← hk.2] at hj
    exact absurd hj (hmiss j)
  · rw [Function.update_of_ne hji] at hj
    rw [Function.update_of_ne hki] at hk
    exact h j k dev blockno hdev hj hk

structure Inv (s : Lru P) : Prop where
  listed : ∃ abs, Shows s.cache abs ∧ Ordered abs.lru s.moved s.clock
  counted : s.Counted
  unique : Unique s.cache.buf

theorem Inv.turn (hs : Inv s) (ht : Turn s a (.ok t)) : Inv t := by
  obtain ⟨abs, hshows, hordered⟩ := hs.listed
  have hcounted : t.Counted := hs.counted.turn hshows ht
  generalize hr : (Except.ok t : Except Fault (Lru P)) = r at ht
  cases ht with
  | bgetFault => cases hr
  | @bget p dev blockno cache i hp hget =>
    cases hr
    obtain ⟨abs', habs, hshows'⟩ := hshows.bget_ok hget
    have hbuf := hshows'.buf
    rcases bget_cases hshows.all habs with ⟨-, rfl⟩ | ⟨hmiss, -, rfl⟩
    · rw [Cache.set, ← hshows.buf] at hbuf
      exact ⟨⟨_, hshows', hordered⟩, hcounted, hbuf ▸ hs.unique.same ⟨rfl, rfl⟩⟩
    · rw [Cache.set, ← hshows.buf] at hbuf
      rw [← hshows.buf] at hmiss
      exact ⟨⟨_, hshows', hordered⟩, hcounted, hbuf ▸ hs.unique.recycle hmiss⟩
  | acquire | brelse | bpin | bunpin =>
    cases hr
    exact ⟨⟨_, hshows.set _ _, hordered⟩, hcounted, hs.unique.same ⟨rfl, rfl⟩⟩
  | @unref p i hp =>
    cases hr
    refine ⟨⟨Bio.unref abs i, ?_, ?_⟩, hcounted, ?_⟩
    · rw [cache_touch]
      exact hshows.unref i
    · exact hordered.unref hshows i _
    · rw [cache_touch, Bcache.buf_unref]
      exact hs.unique.same ⟨rfl, rfl⟩

omit [DecidableEq P] in
theorem Start.inv (hs : Start s) : Inv s := by
  obtain ⟨links, hcache⟩ := hs.cache
  refine ⟨⟨binit, hcache ▸ shows_binit links, ?_, ?_⟩, ?_, ?_⟩
  · refine List.pairwise_reverse.mpr ?_
    simp only [hs.moved]
    exact List.pairwise_lt_finRange nbuf
  · intro i
    rw [hs.moved, hs.clock]
    exact i.isLt
  · intro i
    have hpending : total (Buffers.pendingCount i) s.pending = 0 :=
      total_eq_zero.mpr fun p => by simp [hs.pending, Buffers.pendingCount]
    simp [users, hpending, hs.pins, hcache, Bcache.binit]
  · intro i j dev blockno hdev hi
    rw [hcache] at hi
    exact absurd hi.1.symm hdev

theorem Inv.exec (hs : Inv s) (henabled : (system P).enabled s a) :
    (∃ e, (system P).exec s a = .error e ∧ e = .panic .bgetNoBuffers) ∨
      ∃ t, (system P).exec s a = .ok t ∧ Inv t := by
  obtain ⟨r, hr⟩ := Option.isSome_iff_exists.mp henabled
  have hexec : (system P).exec s a = r := by simp [system, hr]
  have hturn := turn_of_act hr
  rw [hexec]
  cases r with
  | ok t => exact Or.inr ⟨t, rfl, hs.turn hturn⟩
  | error e =>
    obtain ⟨abs, hshows, -⟩ := hs.listed
    generalize hr : (Except.error e : Except Fault (Lru P)) = r at hturn
    cases hturn with
    | bgetFault hp hget =>
      cases hr
      exact Or.inl ⟨e, rfl, (hshows.bget_error hget).2⟩
    | bget | acquire | brelse | unref | bpin | bunpin => cases hr

theorem Inv.reach {r : Except Fault (Lru P)} (h : (system P).Reachable r) :
    (∃ e, r = .error e ∧ e = .panic .bgetNoBuffers) ∨ ∃ s, r = .ok s ∧ Inv s :=
  h.invariant_or Inv (fun e => e = .panic .bgetNoBuffers) (fun _ => Start.inv)
    fun _ _ hs henabled _ => hs.exec henabled

/-- A buffer is given to another block by `bget` only, when nobody uses it, and it is
the one of those that came to the head of the list first. -/
theorem Inv.reassigned (hs : Inv s) (ht : Turn s a (.ok t)) {i : BufIndex}
    (hi : ¬(t.cache.buf i).caches (s.cache.buf i).dev (s.cache.buf i).blockno) :
    (s.cache.buf i).refcnt = 0 ∧
      ∀ j, j ≠ i → (s.cache.buf j).refcnt = 0 → s.moved i < s.moved j := by
  obtain ⟨abs, hshows, hordered⟩ := hs.listed
  -- a step that keeps the block of the buffer it changes is no reassignment
  have hsame : ∀ {k : BufIndex} {x : Buf P}, t.cache.buf = Function.update s.cache.buf k x →
      x.dev = (s.cache.buf k).dev ∧ x.blockno = (s.cache.buf k).blockno →
      (t.cache.buf i).caches (s.cache.buf i).dev (s.cache.buf i).blockno := by
    intro k x hbuf hx
    rw [hbuf]
    by_cases hik : i = k
    · subst hik
      rw [Function.update_self]
      exact hx
    · rw [Function.update_of_ne hik]
      exact ⟨rfl, rfl⟩
  generalize hr : (Except.ok t : Except Fault (Lru P)) = r at ht
  cases ht with
  | bgetFault => cases hr
  | @bget p dev blockno cache k hp hget =>
    cases hr
    obtain ⟨abs', habs, hshows'⟩ := hshows.bget_ok hget
    have hbuf := hshows'.buf
    rcases bget_found habs with ⟨-, rfl⟩ | ⟨-, hunused, rfl⟩
    · rw [Cache.set, ← hshows.buf] at hbuf
      exact absurd (hsame hbuf ⟨rfl, rfl⟩) hi
    · rw [Cache.set, ← hshows.buf] at hbuf
      have hik : i = k := by
        by_contra hik
        refine hi ?_
        have hother : cache.buf i = s.cache.buf i := hbuf ▸ Function.update_of_ne hik ..
        rw [hother]
        exact ⟨rfl, rfl⟩
      subst hik
      rw [hshows.buf]
      exact ⟨findUnused_eq_some hunused,
        fun j hj hzero => hordered.findUnused hshows.all hunused hzero hj⟩
  | acquire | brelse | bpin | bunpin =>
    cases hr
    exact absurd (hsame rfl ⟨rfl, rfl⟩) hi
  | @unref p k hp =>
    cases hr
    have hbuf : ({ s with
        cache := s.cache.unref k
        pending := Function.update s.pending p .none }.touch k).cache.buf =
          Function.update s.cache.buf k
            { s.cache.buf k with refcnt := (s.cache.buf k).refcnt - 1 } := by
      rw [cache_touch, Bcache.buf_unref]
      rfl
    exact absurd (hsame hbuf ⟨rfl, rfl⟩) hi

structure Represented (s : Lru P) : Prop where
  /-- From the head the pointers lead through every buffer once and back, -/
  listed : ∃ lru, Links.Circle s.cache.links lru ∧ ∀ i, i ∈ lru
  /-- and the two directions agree. -/
  inverse : ∀ n, s.cache.links.prev (s.cache.links.next n) = n ∧
    s.cache.links.next (s.cache.links.prev n) = n
  unique : Unique s.cache.buf
  refcnt : ∀ i, (s.cache.buf i).refcnt = s.users i + s.pins i
  reassigned : ∀ a t, (system P).enabled s a → (system P).exec s a = .ok t → ∀ i,
    ¬(t.cache.buf i).caches (s.cache.buf i).dev (s.cache.buf i).blockno →
    (s.cache.buf i).refcnt = 0 ∧
      ∀ j, j ≠ i → (s.cache.buf j).refcnt = 0 → s.moved i < s.moved j

/-- In any run of processes on the cache, the list, the reference counts and the
choice of the buffer to reuse are as they should be; the only error is that all
buffers are in use. -/
theorem buffer_cache_represented {r : Except Fault (Lru P)} (h : (system P).Reachable r) :
    r = .error (.panic .bgetNoBuffers) ∨ ∃ s, r = .ok s ∧ Represented s := by
  rcases Inv.reach h with ⟨e, rfl, rfl⟩ | ⟨s, rfl, hs⟩
  · exact Or.inl rfl
  · obtain ⟨abs, hshows, -⟩ := hs.listed
    refine Or.inr ⟨s, rfl, ⟨abs.lru, hshows.circle, hshows.all⟩, fun n => ?_, hs.unique,
      hs.counted, fun a t henabled hexec i => ?_⟩
    · exact hshows.circle.inverse hshows.all n
    · obtain ⟨r, hr⟩ := Option.isSome_iff_exists.mp henabled
      simp only [system, hr, Option.getD_some] at hexec
      subst hexec
      exact hs.reassigned (turn_of_act hr)

end Run

section Sample

def fresh (P : Type) : Lru P where
  cache := Bcache.binit ⟨id, id⟩
  pending _ := .none
  pins _ := 0
  moved i := i
  clock := nbuf

theorem fresh_start (P : Type) : Start (fresh P) :=
  ⟨⟨_, rfl⟩, fun _ => rfl, fun _ => rfl, fun _ => rfl, rfl⟩

def firstBuf : BufIndex := ⟨0, by decide⟩

def readTwice : List (Action Bool) :=
  [.bget false 1 7, .acquire false, .bget true 1 7, .brelse false firstBuf, .unref false,
    .acquire true]

theorem readTwice_observed : (system Bool).observed (fun _ _ => True)
    (fun s => ((s.cache.buf firstBuf).refcnt, (s.cache.buf firstBuf).lock)) (fresh Bool) readTwice =
      some (1, some true) := by
  decide +kernel

end Sample

theorem buffer_cache_represented_shared : ∃ s : Lru Bool, (system Bool).Reachable (.ok s) ∧
    (s.cache.buf firstBuf).lock = some true ∧ Represented s := by
  obtain ⟨s, hreach, hobserved⟩ := System.Reach.of_observed (.init (fresh_start Bool))
    readTwice_observed
  rcases buffer_cache_represented hreach with herror | ⟨t, hok, ht⟩
  · cases herror
  · cases hok
    exact ⟨s, hreach, congrArg Prod.snd hobserved, ht⟩

section Spare

variable [Fintype P]

def references (s : Lru P) : Nat := ∑ i, (s.users i + s.pins i)

def Spare (s : Lru P) : Action P → Prop
  | .bget _ _ _ => s.references < nbuf
  | _ => True

instance (s : Lru P) : DecidablePred s.Spare
  | .bget _ _ _ => inferInstanceAs (Decidable (_ < _))
  | .acquire _ | .brelse _ _ | .unref _ | .bpin _ | .bunpin _ => inferInstanceAs (Decidable True)

omit [DecidableEq P] in
theorem exists_unused (hs : s.Counted) (hfew : s.references < nbuf) :
    ∃ i, (s.cache.buf i).refcnt = 0 := by
  by_contra hnone
  have hone : ∀ i : BufIndex, 1 ≤ s.users i + s.pins i := by
    intro i
    have hi : (s.cache.buf i).refcnt ≠ 0 := fun h => hnone ⟨i, h⟩
    have := hs i
    omega
  have hsum : ∑ _i : BufIndex, 1 ≤ s.references := Finset.sum_le_sum fun i _ => hone i
  rw [← Finset.card_eq_sum_ones, Finset.card_univ, Fintype.card_fin] at hsum
  omega

omit [DecidableEq P] in
theorem Inv.bget_ok (hs : Inv s) (hfew : s.references < nbuf) (dev blockno : Nat) :
    ∃ found, s.cache.bget dev blockno = .ok found := by
  obtain ⟨abs, hshows, -⟩ := hs.listed
  cases hget : s.cache.bget dev blockno with
  | ok found => exact ⟨found, rfl⟩
  | error e =>
    obtain ⟨i, hi⟩ := exists_unused hs.counted hfew
    have herror := (hshows.bget_error hget).1
    have hunused : abs.findUnused ≠ none := by
      intro hnone
      have := List.find?_eq_none.mp hnone i (List.mem_reverse.mpr (hshows.all i))
      rw [← hshows.buf] at this
      simp [hi] at this
    unfold bget at herror
    split at herror
    · cases herror
    · split at herror
      · cases herror
      · exact absurd ‹_› hunused

/-- While every `bget` leaves room for its own reference, none panics. -/
theorem buffers_suffice {r : Except Fault (Lru P)} (h : (system P).Reach Spare r) :
    ∃ s, r = .ok s ∧ (s.references < nbuf → ∃ i, (s.cache.buf i).refcnt = 0) := by
  have hinv : ∃ s, r = .ok s ∧ Inv s := by
    refine h.invariant Inv (fun _ => Start.inv) fun s a hs henabled hspare => ?_
    rcases hs.exec henabled with ⟨e, herror, -⟩ | hok
    · exfalso
      obtain ⟨r, hr⟩ := Option.isSome_iff_exists.mp henabled
      have hturn := turn_of_act hr
      simp only [system, hr, Option.getD_some] at herror
      subst herror
      cases hturn with
      | @bgetFault p dev blockno e hp hget =>
        obtain ⟨found, hfound⟩ := hs.bget_ok hspare dev blockno
        rw [hfound] at hget
        cases hget
    · exact hok
  obtain ⟨s, rfl, hs⟩ := hinv
  exact ⟨s, rfl, exists_unused hs.counted⟩

end Spare

theorem readTwice_spare : (system Bool).observed Spare
    (fun s => (s.cache.buf firstBuf).lock) (fresh Bool) readTwice = some (some true) := by
  decide +kernel

theorem buffers_suffice_shared : ∃ s : Lru Bool, (system Bool).Reach Spare (.ok s) ∧
    (s.cache.buf firstBuf).lock = some true ∧
    (s.references < nbuf → ∃ i, (s.cache.buf i).refcnt = 0) := by
  obtain ⟨s, hreach, hobserved⟩ := System.Reach.of_observed (.init (fresh_start Bool))
    readTwice_spare
  obtain ⟨t, hok, ht⟩ := buffers_suffice hreach
  cases hok
  exact ⟨s, hreach, hobserved, ht⟩

end Lru

end Xv6.Bio
