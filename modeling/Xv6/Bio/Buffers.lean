import Xv6.Bio.View
import Xv6.Lib.Sums

/-! The buffer cache shared by many processes. Next to the cache and the disk
the state records what the code keeps only in its control flow: which buffer a
process is waiting for or giving back, how often each buffer has been pinned,
and whether a locked buffer was changed and neither logged nor written yet. -/
namespace Xv6.Bio

open Lib

inductive Pending where
  | none
  /-- `bget` returned this buffer and `acquiresleep` has not. -/
  | acquiring (i : BufIndex)
  /-- `brelse` has released the lock and not yet dropped the reference. -/
  | releasing (i : BufIndex)
  deriving DecidableEq

structure Buffers (P : Type) where
  cache : Cache P
  disk : Disk
  pins : BufIndex → Nat
  dirty : BufIndex → Bool
  pending : P → Pending

namespace Buffers

variable {P : Type}

def view (s : Buffers P) : Nat → Block := Bio.view s.cache s.disk

def Uses (s : Buffers P) (p : P) (b : Nat) : Prop :=
  ∃ i, (s.cache.buf i).caches rootDev b ∧
    ((s.cache.buf i).lock = some p ∨ s.pending p = .acquiring i)

def pendingCount (i : BufIndex) (pending : Pending) : Nat :=
  if pending = .acquiring i ∨ pending = .releasing i then 1 else 0

/-- `pinned` are the blocks that the log has pinned. -/
structure Inv [Fintype P] (s : Buffers P) (pinned : Nat → Prop) : Prop where
  wf : WellFormed s.cache
  refcnt : ∀ i, (s.cache.buf i).refcnt =
    s.pins i + (s.cache.buf i).lock.isSome.toNat + total (pendingCount i) s.pending
  locked : ∀ i, (s.cache.buf i).lock ≠ none →
    (s.cache.buf i).dev = rootDev ∧ (s.cache.buf i).valid = true
  acquiring : ∀ p i, s.pending p = .acquiring i → (s.cache.buf i).dev = rootDev
  dirty : ∀ i, s.dirty i = true → (s.cache.buf i).lock ≠ none
  clean : ∀ i, (s.cache.buf i).dev = rootDev → (s.cache.buf i).valid = true →
    s.dirty i = false →
    (s.cache.buf i).data = s.disk (s.cache.buf i).blockno ∨ pinned (s.cache.buf i).blockno
  pins : ∀ i, s.pins i ≤ 1 ∧
    (s.pins i = 1 ↔ (s.cache.buf i).dev = rootDev ∧ pinned (s.cache.buf i).blockno)
  cached : ∀ b, pinned b → ∃ i, (s.cache.buf i).caches rootDev b ∧ (s.cache.buf i).valid = true

section Operations

variable [DecidableEq P] (s : Buffers P) (p : P)

/-- `bread` up to its `acquiresleep`. -/
def get (b : Nat) : Except Panic (Buffers P) :=
  match bget s.cache rootDev b with
  | .ok (cache, i) =>
      .ok { s with cache := cache, pending := Function.update s.pending p (.acquiring i) }
  | .error e => .error e

/-- The rest of `bread`. -/
def acquire (i : BufIndex) : Buffers P :=
  { s with
    cache := lockAndRead s.cache s.disk p i
    pending := Function.update s.pending p .none }

omit [DecidableEq P] in
def store (i : BufIndex) (data : Block) : Buffers P :=
  { s with cache := setData s.cache i data, dirty := Function.update s.dirty i true }

omit [DecidableEq P] in
def write (i : BufIndex) : Buffers P :=
  { s with disk := Function.update s.disk (s.cache.buf i).blockno (s.cache.buf i).data }

omit [DecidableEq P] in
def pin (i : BufIndex) : Buffers P :=
  { s with cache := bpin s.cache i, pins := Function.update s.pins i (s.pins i + 1) }

omit [DecidableEq P] in
def unpin (i : BufIndex) : Buffers P :=
  { s with cache := bunpin s.cache i, pins := Function.update s.pins i (s.pins i - 1) }

omit [DecidableEq P] in
def settle (i : BufIndex) : Buffers P := { s with dirty := Function.update s.dirty i false }

/-- The first half of `brelse`. -/
def release (i : BufIndex) : Buffers P :=
  { s with
    cache := releasesleep s.cache i
    dirty := Function.update s.dirty i false
    pending := Function.update s.pending p (.releasing i) }

/-- The second half of `brelse`. -/
def drop (i : BufIndex) : Buffers P :=
  { s with cache := unref s.cache i, pending := Function.update s.pending p .none }

end Operations

section Steps

variable [Fintype P] {s : Buffers P} {pinned : Nat → Prop} (hs : s.Inv pinned) {p : P}
  {i : BufIndex}
include hs

theorem Inv.change {x : Buf P} {pins : BufIndex → Nat} {dirty : BufIndex → Bool}
    {pending : P → Pending} {pinned' : Nat → Prop}
    (hkey : x.dev = (s.cache.buf i).dev ∧ x.blockno = (s.cache.buf i).blockno)
    (hpins : ∀ j, j ≠ i → pins j = s.pins j) (hdirty : ∀ j, j ≠ i → dirty j = s.dirty j)
    (hpending : ∀ j, j ≠ i → total (pendingCount j) pending = total (pendingCount j) s.pending)
    (hacquiring : ∀ q j, pending q = .acquiring j →
      s.pending q = .acquiring j ∨ j = i ∧ x.dev = rootDev)
    (hpinned : ∀ b, ¬(s.cache.buf i).caches rootDev b → (pinned' b ↔ pinned b))
    (hrefcnt : x.refcnt = pins i + x.lock.isSome.toNat + total (pendingCount i) pending)
    (hlocked : x.lock ≠ none → x.dev = rootDev ∧ x.valid = true)
    (hdirtyHere : dirty i = true → x.lock ≠ none)
    (hclean : x.dev = rootDev → x.valid = true → dirty i = false →
      x.data = s.disk x.blockno ∨ pinned' x.blockno)
    (hpinsHere : pins i ≤ 1 ∧ (pins i = 1 ↔ x.dev = rootDev ∧ pinned' x.blockno))
    (hvalid : ∀ b, x.caches rootDev b → pinned' b → x.valid = true) :
    Inv ⟨s.cache.set i x, s.disk, pins, dirty, pending⟩ pinned' where
  wf := hs.wf.set hkey
  refcnt := by
    intro j
    by_cases hji : j = i
    · subst hji
      simpa using hrefcnt
    · simpa only [Cache.buf_set_of_ne _ _ hji, hpins j hji, hpending j hji] using hs.refcnt j
  locked := by
    intro j hj
    by_cases hji : j = i
    · subst hji
      simp only [Cache.buf_set_self] at hj ⊢
      exact hlocked hj
    · simp only [Cache.buf_set_of_ne _ _ hji] at hj ⊢
      exact hs.locked j hj
  acquiring := by
    intro q j hq
    rcases hacquiring q j hq with hold | ⟨rfl, hdev⟩
    · by_cases hji : j = i
      · subst hji
        simpa [hkey.1] using hs.acquiring q j hold
      · simpa [Cache.buf_set_of_ne _ _ hji] using hs.acquiring q j hold
    · simpa using hdev
  dirty := by
    intro j hj
    by_cases hji : j = i
    · subst hji
      simpa using hdirtyHere hj
    · simp only [Cache.buf_set_of_ne _ _ hji, hdirty j hji] at hj ⊢
      exact hs.dirty j hj
  clean := by
    intro j hdev hjvalid hjdirty
    by_cases hji : j = i
    · subst hji
      simp only [Cache.buf_set_self] at hdev hjvalid ⊢
      exact hclean hdev hjvalid hjdirty
    · simp only [Cache.buf_set_of_ne _ _ hji, hdirty j hji] at hdev hjvalid hjdirty ⊢
      rw [hpinned]
      · exact hs.clean j hdev hjvalid hjdirty
      · exact fun hi => hji (hs.wf.unique j i _ ⟨hdev, rfl⟩ hi)
  pins := by
    intro j
    by_cases hji : j = i
    · subst hji
      simpa using hpinsHere
    · simp only [Cache.buf_set_of_ne _ _ hji, hpins j hji]
      refine ⟨(hs.pins j).1, (hs.pins j).2.trans ?_⟩
      refine and_congr_right fun hdev => (hpinned _ ?_).symm
      exact fun hi => hji (hs.wf.unique j i _ ⟨hdev, rfl⟩ hi)
  cached := by
    intro b hb
    by_cases hi : (s.cache.buf i).caches rootDev b
    · have hx : x.caches rootDev b := by rwa [Buf.caches, hkey.1, hkey.2]
      exact ⟨i, by simpa using hx, by simpa using hvalid b hx hb⟩
    · obtain ⟨j, hj, hjvalid⟩ := hs.cached b ((hpinned b hi).mp hb)
      have hji : j ≠ i := by
        rintro rfl
        exact hi hj
      refine ⟨j, ?_⟩
      simpa [Cache.buf_set_of_ne _ _ hji] using ⟨hj, hjvalid⟩

theorem Inv.congr {pinned' : Nat → Prop} (h : ∀ b, pinned b ↔ pinned' b) : s.Inv pinned' :=
  (funext fun b => propext (h b) : pinned = pinned') ▸ hs

theorem Inv.reorder {cache : Cache P} (hbuf : cache.buf = s.cache.buf) (hwf : WellFormed cache) :
    Inv { s with cache := cache } pinned where
  wf := hwf
  refcnt := by simpa only [hbuf] using hs.refcnt
  locked := by simpa only [hbuf] using hs.locked
  acquiring := by simpa only [hbuf] using hs.acquiring
  dirty := by simpa only [hbuf] using hs.dirty
  clean := by simpa only [hbuf] using hs.clean
  pins := by simpa only [hbuf] using hs.pins
  cached := by simpa only [hbuf] using hs.cached

theorem Inv.valid_of_pinned {b : Nat} (hi : (s.cache.buf i).caches rootDev b) (hb : pinned b) :
    (s.cache.buf i).valid = true := by
  obtain ⟨j, hj, hvalid⟩ := hs.cached b hb
  rwa [hs.wf.unique i j b hi hj]

theorem Inv.refcnt_pos_of_pinned {b : Nat} (hi : (s.cache.buf i).caches rootDev b)
    (hb : pinned b) : 0 < (s.cache.buf i).refcnt := by
  have hpin := (hs.pins i).2.mpr ⟨hi.1, by rwa [hi.2]⟩
  have := hs.refcnt i
  omega

variable [DecidableEq P]

omit hs in
theorem total_pending_of_ne {q : P} {new : Pending} {j : BufIndex}
    (hold : pendingCount j (s.pending q) = 0) (hnew : pendingCount j new = 0) :
    total (pendingCount j) (Function.update s.pending q new) =
      total (pendingCount j) s.pending := by
  have := total_update (pendingCount j) s.pending q new
  omega

theorem acquire_inv (hp : s.pending p = .acquiring i) (hfree : (s.cache.buf i).lock = none) :
    (s.acquire p i).Inv pinned := by
  have htotal := total_update (pendingCount i) s.pending p .none
  have hold := hs.refcnt i
  have hdev := hs.acquiring p i hp
  simp only [hp, pendingCount, hfree] at htotal hold
  apply hs.change
  case hkey => exact ⟨rfl, rfl⟩
  case hpins => exact fun _ _ => rfl
  case hdirty => exact fun _ _ => rfl
  case hpending =>
    intro j hji
    exact total_pending_of_ne (by simp [hp, pendingCount, Ne.symm hji]) (by simp [pendingCount])
  case hacquiring =>
    intro q j hq
    by_cases hqp : q = p
    · simp [hqp] at hq
    · exact Or.inl (by rwa [Function.update_of_ne hqp] at hq)
  case hpinned => exact fun _ _ => Iff.rfl
  case hrefcnt =>
    simp at htotal hold ⊢
    omega
  case hlocked => exact fun _ => ⟨hdev, rfl⟩
  case hdirtyHere => simp
  case hclean =>
    intro _ _ hdirty
    cases hvalid : (s.cache.buf i).valid with
    | true => simpa using hs.clean i hdev hvalid hdirty
    | false => simp
  case hpinsHere => exact hs.pins i
  case hvalid => simp

omit [DecidableEq P] in
theorem store_inv {data : Block} (hp : (s.cache.buf i).lock = some p) :
    (s.store i data).Inv pinned := by
  have hlocked := hs.locked i (by simp [hp])
  apply hs.change
  case hkey => exact ⟨rfl, rfl⟩
  case hpins => exact fun _ _ => rfl
  case hdirty => exact fun j hji => Function.update_of_ne hji _ _
  case hpending => exact fun _ _ => rfl
  case hacquiring => exact fun _ _ h => Or.inl h
  case hpinned => exact fun _ _ => Iff.rfl
  case hrefcnt => exact hs.refcnt i
  case hlocked => exact fun _ => hlocked
  case hdirtyHere => simp [hp]
  case hclean => simp
  case hpinsHere => exact hs.pins i
  case hvalid => exact fun _ _ _ => hlocked.2

omit [DecidableEq P] in
theorem settle_inv (hpin : pinned (s.cache.buf i).blockno) : (s.settle i).Inv pinned where
  wf := hs.wf
  refcnt := hs.refcnt
  locked := hs.locked
  acquiring := hs.acquiring
  dirty := by
    intro j hj
    by_cases hji : j = i
    · simp [settle, hji] at hj
    · simp only [settle, Function.update_of_ne hji] at hj
      exact hs.dirty j hj
  clean := by
    intro j hdev hvalid hdirty
    by_cases hji : j = i
    · exact Or.inr (hji ▸ hpin)
    · simp only [settle, Function.update_of_ne hji] at hdirty
      exact hs.clean j hdev hvalid hdirty
  pins := hs.pins
  cached := hs.cached

omit [DecidableEq P] in
theorem pin_inv (hp : (s.cache.buf i).lock = some p)
    (hnew : ¬pinned (s.cache.buf i).blockno) :
    (s.pin i).Inv fun b => pinned b ∨ b = (s.cache.buf i).blockno := by
  have hlocked := hs.locked i (by simp [hp])
  have hzero : s.pins i = 0 := by
    have := hs.pins i
    have : s.pins i ≠ 1 := fun h => hnew ((hs.pins i).2.mp h).2
    omega
  apply hs.change
  case hkey => exact ⟨rfl, rfl⟩
  case hpins => exact fun j hji => Function.update_of_ne hji _ _
  case hdirty => exact fun _ _ => rfl
  case hpending => exact fun _ _ => rfl
  case hacquiring => exact fun _ _ h => Or.inl h
  case hpinned =>
    intro b hb
    have : b ≠ (s.cache.buf i).blockno := fun h => hb ⟨hlocked.1, h.symm⟩
    simp [this]
  case hrefcnt =>
    have := hs.refcnt i
    simp only [Function.update_self]
    omega
  case hlocked => exact fun _ => hlocked
  case hdirtyHere => simp [hp]
  case hclean => simp
  case hpinsHere => simp [hzero, hlocked.1]
  case hvalid => exact fun _ _ _ => hlocked.2

omit [DecidableEq P] in
theorem unpin_inv (hp : (s.cache.buf i).lock = some p) (hpin : pinned (s.cache.buf i).blockno)
    (hclean : (s.cache.buf i).data = s.disk (s.cache.buf i).blockno) :
    (s.unpin i).Inv fun b => pinned b ∧ b ≠ (s.cache.buf i).blockno := by
  have hlocked := hs.locked i (by simp [hp])
  have hone : s.pins i = 1 := (hs.pins i).2.mpr ⟨hlocked.1, hpin⟩
  apply hs.change
  case hkey => exact ⟨rfl, rfl⟩
  case hpins => exact fun j hji => Function.update_of_ne hji _ _
  case hdirty => exact fun _ _ => rfl
  case hpending => exact fun _ _ => rfl
  case hacquiring => exact fun _ _ h => Or.inl h
  case hpinned =>
    intro b hb
    have : b ≠ (s.cache.buf i).blockno := fun h => hb ⟨hlocked.1, h.symm⟩
    simp [this]
  case hrefcnt =>
    have := hs.refcnt i
    simp only [Function.update_self, hone] at this ⊢
    omega
  case hlocked => exact fun _ => hlocked
  case hdirtyHere => simp [hp]
  case hclean => exact fun _ _ _ => Or.inl hclean
  case hpinsHere => simp [hone]
  case hvalid => exact fun _ _ _ => hlocked.2

omit [DecidableEq P] in
theorem write_inv (hp : (s.cache.buf i).lock = some p) : (s.write i).Inv pinned where
  wf := hs.wf
  refcnt := hs.refcnt
  locked := hs.locked
  acquiring := hs.acquiring
  dirty := hs.dirty
  clean := by
    intro j hdev hvalid hdirty
    have hi := hs.locked i (by simp [hp])
    simp only [write] at hdev hvalid hdirty ⊢
    by_cases hb : (s.cache.buf j).blockno = (s.cache.buf i).blockno
    · have hji : j = i := hs.wf.unique j i _ ⟨hdev, hb⟩ ⟨hi.1, rfl⟩
      simp [hji]
    · rw [Function.update_of_ne hb]
      exact hs.clean j hdev hvalid hdirty
  pins := hs.pins
  cached := hs.cached

theorem release_inv (hp : (s.cache.buf i).lock = some p) (hidle : s.pending p = .none)
    (hclean : (s.cache.buf i).data = s.disk (s.cache.buf i).blockno ∨
      pinned (s.cache.buf i).blockno) : (s.release p i).Inv pinned := by
  have htotal := total_update (pendingCount i) s.pending p (.releasing i)
  have hlocked := hs.locked i (by simp [hp])
  have hold := hs.refcnt i
  apply hs.change
  case hkey => exact ⟨rfl, rfl⟩
  case hpins => exact fun _ _ => rfl
  case hdirty => exact fun j hji => Function.update_of_ne hji _ _
  case hpending =>
    intro j hji
    exact total_pending_of_ne (by simp [hidle, pendingCount])
      (by simp [pendingCount, Ne.symm hji])
  case hacquiring =>
    intro q j hq
    by_cases hqp : q = p
    · simp [hqp] at hq
    · exact Or.inl (by rwa [Function.update_of_ne hqp] at hq)
  case hpinned => exact fun _ _ => Iff.rfl
  case hrefcnt =>
    simp [hidle, pendingCount, hp] at htotal hold ⊢
    omega
  case hlocked => simp
  case hdirtyHere => simp
  case hclean => exact fun _ _ _ => hclean
  case hpinsHere => exact hs.pins i
  case hvalid => exact fun _ _ _ => hlocked.2

theorem drop_inv (hp : s.pending p = .releasing i) : (s.drop p i).Inv pinned := by
  have htotal := total_update (pendingCount i) s.pending p .none
  have hold := hs.refcnt i
  have hset : Inv { s with
      cache := s.cache.set i { s.cache.buf i with refcnt := (s.cache.buf i).refcnt - 1 }
      pending := Function.update s.pending p .none } pinned := by
    apply hs.change
    case hkey => exact ⟨rfl, rfl⟩
    case hpins => exact fun _ _ => rfl
    case hdirty => exact fun _ _ => rfl
    case hpending =>
      intro j hji
      exact total_pending_of_ne (by simp [hp, pendingCount, Ne.symm hji]) (by simp [pendingCount])
    case hacquiring =>
      intro q j hq
      by_cases hqp : q = p
      · simp [hqp] at hq
      · exact Or.inl (by rwa [Function.update_of_ne hqp] at hq)
    case hpinned => exact fun _ _ => Iff.rfl
    case hrefcnt =>
      simp [hp, pendingCount] at htotal ⊢
      omega
    case hlocked => exact hs.locked i
    case hdirtyHere => exact hs.dirty i
    case hclean => exact hs.clean i
    case hpinsHere => exact hs.pins i
    case hvalid => exact fun _ hi hb => hs.valid_of_pinned hi hb
  exact hset.reorder (buf_unref s.cache i) (hs.wf.unref i)

theorem get_cases {b : Nat} {s' : Buffers P} (h : s.get p b = .ok s') :
    ∃ i x, s' = { s with
        cache := s.cache.set i x
        pending := Function.update s.pending p (.acquiring i) } ∧
      x.caches rootDev b ∧ x.lock = (s.cache.buf i).lock ∧
      (((s.cache.buf i).caches rootDev b ∧
          x = { s.cache.buf i with refcnt := (s.cache.buf i).refcnt + 1 }) ∨
        ((∀ j, ¬(s.cache.buf j).caches rootDev b) ∧ (s.cache.buf i).refcnt = 0 ∧
          x.refcnt = 1 ∧ x.valid = false)) := by
  unfold get at h
  split at h
  · rename_i cache i hget
    cases h
    rcases bget_cases hs.wf.lru hget with ⟨hi, rfl⟩ | ⟨hmiss, hzero, rfl⟩
    · exact ⟨i, _, rfl, hi, rfl, Or.inl ⟨hi, rfl⟩⟩
    · exact ⟨i, _, rfl, ⟨rfl, rfl⟩, rfl, Or.inr ⟨hmiss, hzero, rfl, rfl⟩⟩
  · cases h

omit [DecidableEq P] in
theorem Inv.unreferenced (hzero : (s.cache.buf i).refcnt = 0) :
    s.pins i = 0 ∧ (s.cache.buf i).lock = none ∧ total (pendingCount i) s.pending = 0 := by
  have hcount := hs.refcnt i
  have hlock : (s.cache.buf i).lock.isSome.toNat = 0 := by omega
  refine ⟨by omega, ?_, by omega⟩
  cases h : (s.cache.buf i).lock with
  | none => rfl
  | some q => simp [h] at hlock

theorem recycle_inv {b : Nat} {x : Buf P} (hidle : s.pending p = .none)
    (hmiss : ∀ j, ¬(s.cache.buf j).caches rootDev b) (hzero : (s.cache.buf i).refcnt = 0)
    (hkey : x.caches rootDev b) (hlock : x.lock = (s.cache.buf i).lock) (hone : x.refcnt = 1)
    (hvalid : x.valid = false) :
    Inv { s with
      cache := s.cache.set i x
      pending := Function.update s.pending p (.acquiring i) } pinned := by
  obtain ⟨hpins, hfree, hnobody⟩ := hs.unreferenced hzero
  have hcold : ¬pinned b := by
    intro hb
    obtain ⟨j, hj, -⟩ := hs.cached b hb
    exact hmiss j hj
  constructor
  case wf => exact hs.wf.recycle (by rwa [hkey.2])
  case refcnt =>
    intro j
    have htotal := total_update (pendingCount j) s.pending p (.acquiring i)
    by_cases hji : j = i
    · subst hji
      simp [hidle, pendingCount, hlock, hfree, hone, hpins] at htotal hnobody ⊢
      omega
    · simp [hidle, pendingCount, Ne.symm hji] at htotal
      simpa only [Cache.buf_set_of_ne _ _ hji, htotal] using hs.refcnt j
  case locked =>
    intro j hj
    by_cases hji : j = i
    · subst hji
      simp [hlock, hfree] at hj
    · simp only [Cache.buf_set_of_ne _ _ hji] at hj ⊢
      exact hs.locked j hj
  case acquiring =>
    intro q j hq
    by_cases hji : j = i
    · subst hji
      simpa using hkey.1
    · have hqp : q ≠ p := by
        rintro rfl
        simp only [Function.update_self, Pending.acquiring.injEq] at hq
        exact hji hq.symm
      simp only [Function.update_of_ne hqp, Cache.buf_set_of_ne _ _ hji] at hq ⊢
      exact hs.acquiring q j hq
  case dirty =>
    intro j hj
    have hji : j ≠ i := by
      rintro rfl
      exact hs.dirty j hj hfree
    simpa only [Cache.buf_set_of_ne _ _ hji] using hs.dirty j hj
  case clean =>
    intro j hdev hjvalid hjdirty
    by_cases hji : j = i
    · subst hji
      simp [hvalid] at hjvalid
    · simp only [Cache.buf_set_of_ne _ _ hji] at hdev hjvalid ⊢
      exact hs.clean j hdev hjvalid hjdirty
  case pins =>
    intro j
    by_cases hji : j = i
    · subst hji
      simp [hpins, hkey.2, hcold]
    · simpa only [Cache.buf_set_of_ne _ _ hji] using hs.pins j
  case cached =>
    intro b' hb'
    obtain ⟨j, hj, hjvalid⟩ := hs.cached b' hb'
    have hji : j ≠ i := by
      rintro rfl
      have := hs.refcnt_pos_of_pinned hj hb'
      omega
    refine ⟨j, ?_⟩
    simpa only [Cache.buf_set_of_ne _ _ hji] using ⟨hj, hjvalid⟩

theorem get_inv {b : Nat} {s' : Buffers P} (hidle : s.pending p = .none)
    (h : s.get p b = .ok s') : s'.Inv pinned := by
  obtain ⟨i, x, rfl, hx, hlock, ⟨hi, rfl⟩ | ⟨hmiss, hzero, hone, hvalid⟩⟩ := get_cases hs h
  · have htotal := total_update (pendingCount i) s.pending p (.acquiring i)
    have hold := hs.refcnt i
    apply hs.change
    case hkey => exact ⟨rfl, rfl⟩
    case hpins => exact fun _ _ => rfl
    case hdirty => exact fun _ _ => rfl
    case hpending =>
      intro j hji
      exact total_pending_of_ne (by simp [hidle, pendingCount])
        (by simp [pendingCount, Ne.symm hji])
    case hacquiring =>
      intro q j hq
      by_cases hqp : q = p
      · subst hqp
        simp only [Function.update_self, Pending.acquiring.injEq] at hq
        exact Or.inr ⟨hq.symm, hi.1⟩
      · exact Or.inl (by rwa [Function.update_of_ne hqp] at hq)
    case hpinned => exact fun _ _ => Iff.rfl
    case hrefcnt =>
      simp [hidle, pendingCount] at htotal ⊢
      omega
    case hlocked => exact hs.locked i
    case hdirtyHere => exact hs.dirty i
    case hclean => exact hs.clean i
    case hpinsHere => exact hs.pins i
    case hvalid => exact fun _ hi hb => hs.valid_of_pinned hi hb
  · exact recycle_inv hs hidle hmiss hzero hx hlock hone hvalid

theorem view_get {b : Nat} {s' : Buffers P} (h : s.get p b = .ok s') :
    s'.view = s.view ∧ s'.disk = s.disk := by
  obtain ⟨i, x, rfl, hx, hlock, ⟨hi, rfl⟩ | ⟨hmiss, hzero, hone, hvalid⟩⟩ := get_cases hs h
  · exact ⟨view_set s.disk rfl, rfl⟩
  · refine ⟨hs.wf.view_recycle s.disk hvalid fun hdev hvalid => ?_, rfl⟩
    obtain ⟨hpins, hfree, -⟩ := hs.unreferenced hzero
    have hsettled : s.dirty i = false := by
      by_contra h
      exact hs.dirty i (by simpa using h) hfree
    rcases hs.clean i hdev hvalid hsettled with hdata | hpin
    · exact hdata
    · have := (hs.pins i).2.mpr ⟨hdev, hpin⟩
      omega

theorem pending_get {b : Nat} {s' : Buffers P} (h : s.get p b = .ok s') {q : P} (hq : q ≠ p) :
    s'.pending q = s.pending q := by
  obtain ⟨i, x, rfl, -⟩ := get_cases hs h
  exact Function.update_of_ne hq _ _

theorem view_acquire : (s.acquire p i).view = s.view := hs.wf.view_lockAndRead s.disk p i

omit [DecidableEq P] in
theorem view_store {data : Block} (hp : (s.cache.buf i).lock = some p) :
    (s.store i data).view = Function.update s.view (s.cache.buf i).blockno data :=
  have hlocked := hs.locked i (by simp [hp])
  hs.wf.view_setData s.disk hlocked.1 hlocked.2 data

omit [DecidableEq P] in
theorem view_write (hp : (s.cache.buf i).lock = some p) : (s.write i).view = s.view :=
  have hlocked := hs.locked i (by simp [hp])
  hs.wf.view_bwrite s.disk hlocked.1 hlocked.2

omit [DecidableEq P] in
theorem Inv.data_eq_view (hp : (s.cache.buf i).lock = some p) :
    (s.cache.buf i).data = s.view (s.cache.buf i).blockno :=
  have hlocked := hs.locked i (by simp [hp])
  (hs.wf.view_of_valid s.disk hlocked.1 hlocked.2).symm

omit [DecidableEq P] in
theorem Inv.uses_of_lock (hp : (s.cache.buf i).lock = some p) :
    s.Uses p (s.cache.buf i).blockno :=
  ⟨i, ⟨(hs.locked i (by simp [hp])).1, rfl⟩, Or.inl hp⟩

theorem uses_get {b : Nat} {s' : Buffers P} (hidle : s.pending p = .none)
    (h : s.get p b = .ok s') (q : P) (b' : Nat) :
    s'.Uses q b' ↔ s.Uses q b' ∨ q = p ∧ b' = b := by
  obtain ⟨i, x, rfl, hx, hlock, hcase⟩ := get_cases hs h
  have hfree : ¬(s.cache.buf i).caches rootDev b →
      ∀ r, (s.cache.buf i).lock ≠ some r ∧ s.pending r ≠ .acquiring i := by
    intro hi r
    rcases hcase with ⟨hhit, -⟩ | ⟨-, hzero, -, -⟩
    · exact absurd hhit hi
    · obtain ⟨-, hlock, hnobody⟩ := hs.unreferenced hzero
      refine ⟨by simp [hlock], fun hr => ?_⟩
      have := le_total (pendingCount i) s.pending r
      simp [hr, pendingCount, hnobody] at this
  constructor
  · rintro ⟨j, hj, huse⟩
    by_cases hji : j = i
    · subst hji
      rw [s.cache.buf_set_self] at hj huse
      have hb : b' = b := hj.2.symm.trans hx.2
      by_cases hqp : q = p
      · exact Or.inr ⟨hqp, hb⟩
      · rw [hlock] at huse
        simp only [Function.update_of_ne hqp] at huse
        refine Or.inl ⟨j, ?_, huse⟩
        by_contra hmiss
        have := hfree (hb ▸ hmiss) q
        tauto
    · rw [s.cache.buf_set_of_ne _ hji] at hj huse
      refine Or.inl ⟨j, hj, ?_⟩
      by_cases hqp : q = p
      · subst hqp
        exact Or.inl (by simpa [Ne.symm hji] using huse)
      · simpa only [Function.update_of_ne hqp] using huse
  · rintro (⟨j, hj, huse⟩ | ⟨rfl, rfl⟩)
    · have hpq : s.pending q = .acquiring j → q ≠ p := by
        rintro hq rfl
        simp [hidle] at hq
      by_cases hji : j = i
      · subst hji
        have hhit : (s.cache.buf j).caches rootDev b := by
          by_contra hmiss
          have := hfree hmiss q
          tauto
        refine ⟨j, ?_, ?_⟩
        · rw [s.cache.buf_set_self, Buf.caches, hx.1, hx.2, ← hhit.2]
          exact ⟨rfl, hj.2⟩
        · rw [s.cache.buf_set_self, hlock]
          exact huse.imp_right fun hq => by simpa [hpq hq] using hq
      · refine ⟨j, ?_⟩
        rw [s.cache.buf_set_of_ne _ hji]
        exact ⟨hj, huse.imp_right fun hq => by simpa [hpq hq] using hq⟩
    · exact ⟨i, by simpa using hx, Or.inr (by simp)⟩

omit [Fintype P] hs in
theorem uses_acquire (hp : s.pending p = .acquiring i) (hfree : (s.cache.buf i).lock = none)
    (q : P) (b : Nat) : (s.acquire p i).Uses q b ↔ s.Uses q b := by
  unfold Uses acquire
  refine exists_congr fun j => ?_
  rw [caches_lockAndRead]
  refine and_congr_right fun _ => ?_
  by_cases hji : j = i <;> by_cases hqp : q = p
  · subst hji hqp
    simp [lockAndRead, hp]
  · subst hji
    simp [lockAndRead, Ne.symm hqp, hqp, hfree]
  · subst hqp
    simp [lockAndRead, Cache.buf_set_of_ne _ _ hji, hp, Ne.symm hji]
  · simp [lockAndRead, Cache.buf_set_of_ne _ _ hji, hqp]

theorem uses_release (hp : (s.cache.buf i).lock = some p) (hidle : s.pending p = .none) (q : P)
    (b : Nat) :
    (s.release p i).Uses q b ↔ s.Uses q b ∧ ¬(q = p ∧ b = (s.cache.buf i).blockno) := by
  have hdev := (hs.locked i (by simp [hp])).1
  unfold Uses release
  constructor
  · rintro ⟨j, hj, huse⟩
    rw [caches_releasesleep] at hj
    by_cases hji : j = i
    · subst hji
      by_cases hqp : q = p
      · simp [hqp, releasesleep] at huse
      · simp only [releasesleep, Cache.buf_set_self, reduceCtorEq, Function.update_of_ne hqp,
          false_or] at huse
        exact ⟨⟨j, hj, Or.inr huse⟩, fun h => hqp h.1⟩
    · rw [releasesleep, s.cache.buf_set_of_ne _ hji] at huse
      refine ⟨⟨j, hj, ?_⟩, fun h => hji (hs.wf.unique j i _ hj ⟨hdev, h.2.symm⟩)⟩
      by_cases hqp : q = p
      · subst hqp
        exact Or.inl (by simpa using huse)
      · simpa only [Function.update_of_ne hqp] using huse
  · rintro ⟨⟨j, hj, huse⟩, hother⟩
    refine ⟨j, caches_releasesleep.mpr hj, ?_⟩
    dsimp only [releasesleep]
    by_cases hqp : q = p
    · subst hqp
      have hji : j ≠ i := by
        rintro rfl
        exact hother ⟨rfl, hj.2.symm⟩
      rw [s.cache.buf_set_of_ne _ hji]
      simpa [hidle] using huse
    · by_cases hji : j = i
      · subst hji
        rw [hp, Option.some.injEq] at huse
        simpa [hqp, Ne.symm hqp] using huse
      · rw [s.cache.buf_set_of_ne _ hji]
        simpa [hqp] using huse

end Steps

theorem uses_congr {s s' : Buffers P}
    (hbuf : ∀ i, (s'.cache.buf i).dev = (s.cache.buf i).dev ∧
      (s'.cache.buf i).blockno = (s.cache.buf i).blockno ∧
      (s'.cache.buf i).lock = (s.cache.buf i).lock)
    (hpending : ∀ p i, s'.pending p = .acquiring i ↔ s.pending p = .acquiring i) (p : P) (b : Nat) :
    s'.Uses p b ↔ s.Uses p b := by
  unfold Uses
  refine exists_congr fun i => ?_
  obtain ⟨hdev, hblockno, hlock⟩ := hbuf i
  rw [Buf.caches, Buf.caches, hdev, hblockno, hlock, hpending]

section Frames

variable {s : Buffers P} {p : P} (i : BufIndex)

theorem view_pin : (s.pin i).view = s.view := view_set s.disk rfl

theorem view_unpin : (s.unpin i).view = s.view := view_set s.disk rfl

theorem view_release [DecidableEq P] (p : P) : (s.release p i).view = s.view :=
  view_set s.disk rfl

theorem uses_set {x : Buf P} {disk : Disk} {pins : BufIndex → Nat} {dirty : BufIndex → Bool}
    (hkey : x.dev = (s.cache.buf i).dev ∧ x.blockno = (s.cache.buf i).blockno ∧
      x.lock = (s.cache.buf i).lock) (q : P) (b : Nat) :
    Uses ⟨s.cache.set i x, disk, pins, dirty, s.pending⟩ q b ↔ s.Uses q b := by
  apply uses_congr
  · intro j
    by_cases hji : j = i
    · subst hji
      simpa using hkey
    · simp [Cache.buf_set_of_ne _ _ hji]
  · exact fun _ _ => Iff.rfl

theorem uses_store (data : Block) (q : P) (b : Nat) : (s.store i data).Uses q b ↔ s.Uses q b := by
  apply uses_set i
  exact ⟨rfl, rfl, rfl⟩

theorem uses_pin (q : P) (b : Nat) : (s.pin i).Uses q b ↔ s.Uses q b := by
  apply uses_set i
  exact ⟨rfl, rfl, rfl⟩

theorem uses_unpin (q : P) (b : Nat) : (s.unpin i).Uses q b ↔ s.Uses q b := by
  apply uses_set i
  exact ⟨rfl, rfl, rfl⟩

theorem uses_drop [DecidableEq P] {i : BufIndex} (hp : s.pending p = .releasing i) (q : P)
    (b : Nat) : (s.drop p i).Uses q b ↔ s.Uses q b := by
  apply uses_congr
  · intro j
    by_cases hji : j = i
    · simp [drop, hji]
    · simp [drop, Cache.buf_set_of_ne _ _ hji]
  · intro q j
    by_cases hqp : q = p
    · simp [drop, hqp, hp]
    · simp [drop, hqp]

end Frames

end Buffers

end Xv6.Bio
