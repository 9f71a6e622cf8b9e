import Xv6.Bio.Cache
import Xv6.Lib.Overlay

/-! What the buffer cache stands for: one content per block, the data of the
valid buffer that caches it and otherwise what is on the disk. Reads, evictions
of clean buffers and disk writes leave that content alone; only a change of a
buffer's data moves it. -/
namespace Xv6.Bio

/-- `ROOTDEV`; the buffers of a fresh cache name device 0. -/
def rootDev : Nat := 1

variable {P : Type}

structure WellFormed (c : Cache P) : Prop where
  lru : ∀ i, i ∈ c.lru
  unique : ∀ i j b, (c.buf i).caches rootDev b → (c.buf j).caches rootDev b → i = j

def Buf.live (x : Buf P) : Option (Nat × Block) :=
  if x.valid = true ∧ x.dev = rootDev then some (x.blockno, x.data) else none

def view (c : Cache P) (disk : Disk) : Nat → Block :=
  Lib.Overlay.view (fun i => (c.buf i).live) disk

theorem live_eq_some {x : Buf P} {e : Nat × Block} :
    x.live = some e ↔ x.valid = true ∧ x.dev = rootDev ∧ (x.blockno, x.data) = e := by
  unfold Buf.live
  split
  · rename_i h
    simp [h]
  · rename_i h
    simp only [reduceCtorEq, false_iff]
    tauto

theorem live_set (c : Cache P) (i : BufIndex) (x : Buf P) :
    (fun j => ((c.set i x).buf j).live) = Function.update (fun j => (c.buf j).live) i x.live := by
  funext j
  by_cases hji : j = i
  · subst hji
    simp
  · simp [c.buf_set_of_ne x hji, hji]

theorem WellFormed.unique_live {c : Cache P} (hc : WellFormed c) :
    Lib.Overlay.Unique fun i => (c.buf i).live := by
  intro i j e f hi hj hkey
  obtain ⟨-, hdevi, rfl⟩ := live_eq_some.mp hi
  obtain ⟨-, hdevj, rfl⟩ := live_eq_some.mp hj
  exact hc.unique i j _ ⟨hdevi, rfl⟩ ⟨hdevj, hkey.symm⟩

theorem sees_view (c : Cache P) (disk : Disk) (b : Nat) :
    (∃ i, (c.buf i).caches rootDev b ∧ (c.buf i).valid = true ∧
      (c.buf i).data = view c disk b) ∨ disk b = view c disk b := by
  rcases Lib.Overlay.sees_view (fun i => (c.buf i).live) disk b with ⟨i, hi⟩ | ⟨-, hdisk⟩
  · obtain ⟨hvalid, hdev, hentry⟩ := live_eq_some.mp hi
    simp only [Prod.mk.injEq] at hentry
    exact Or.inl ⟨i, ⟨hdev, hentry.1⟩, hvalid, hentry.2⟩
  · exact Or.inr hdisk

theorem WellFormed.view_of_valid {c : Cache P} (hc : WellFormed c) (disk : Disk) {i : BufIndex}
    (hdev : (c.buf i).dev = rootDev) (hvalid : (c.buf i).valid = true) :
    view c disk (c.buf i).blockno = (c.buf i).data :=
  Lib.Overlay.view_of_live hc.unique_live (live_eq_some.mpr ⟨hvalid, hdev, rfl⟩)

theorem caches_set {c : Cache P} {i j : BufIndex} {x : Buf P} {b : Nat}
    (h : x.dev = (c.buf i).dev ∧ x.blockno = (c.buf i).blockno) :
    ((c.set i x).buf j).caches rootDev b ↔ (c.buf j).caches rootDev b := by
  by_cases hji : j = i
  · subst hji
    simp [Buf.caches, h]
  · rw [c.buf_set_of_ne x hji]

theorem caches_lockAndRead {c : Cache P} {disk : Disk} {p : P} {i j : BufIndex} {b : Nat} :
    ((lockAndRead c disk p i).buf j).caches rootDev b ↔ (c.buf j).caches rootDev b :=
  caches_set ⟨rfl, rfl⟩

theorem caches_releasesleep {c : Cache P} {i j : BufIndex} {b : Nat} :
    ((releasesleep c i).buf j).caches rootDev b ↔ (c.buf j).caches rootDev b :=
  caches_set ⟨rfl, rfl⟩

theorem caches_unref {c : Cache P} {i j : BufIndex} {b : Nat} :
    ((unref c i).buf j).caches rootDev b ↔ (c.buf j).caches rootDev b := by
  rw [buf_unref]
  exact caches_set ⟨rfl, rfl⟩

theorem WellFormed.set {c : Cache P} (hc : WellFormed c) {i : BufIndex} {x : Buf P}
    (h : x.dev = (c.buf i).dev ∧ x.blockno = (c.buf i).blockno) : WellFormed (c.set i x) where
  lru := hc.lru
  unique := by
    intro j k b hj hk
    rw [caches_set h] at hj hk
    exact hc.unique j k b hj hk

theorem WellFormed.recycle {c : Cache P} (hc : WellFormed c) {i : BufIndex} {x : Buf P}
    (hmiss : ∀ j, ¬(c.buf j).caches rootDev x.blockno) : WellFormed (c.set i x) where
  lru := hc.lru
  unique := by
    intro j k b hj hk
    by_cases hji : j = i <;> by_cases hki : k = i
    · rw [hji, hki]
    · subst hji
      rw [c.buf_set_self] at hj
      rw [c.buf_set_of_ne x hki, ← hj.2] at hk
      exact absurd hk (hmiss k)
    · subst hki
      rw [c.buf_set_self] at hk
      rw [c.buf_set_of_ne x hji, ← hk.2] at hj
      exact absurd hj (hmiss j)
    · rw [c.buf_set_of_ne x hji] at hj
      rw [c.buf_set_of_ne x hki] at hk
      exact hc.unique j k b hj hk

theorem WellFormed.unref {c : Cache P} (hc : WellFormed c) (i : BufIndex) :
    WellFormed (unref c i) where
  lru j := mem_lru_unref (hc.lru j)
  unique j k b hj hk := by
    rw [caches_unref] at hj hk
    exact hc.unique j k b hj hk

theorem view_set {c : Cache P} (disk : Disk) {i : BufIndex} {x : Buf P}
    (h : x.live = (c.buf i).live) : view (c.set i x) disk = view c disk := by
  unfold view
  rw [live_set, h, Function.update_eq_self]

theorem view_unref (c : Cache P) (disk : Disk) (i : BufIndex) :
    view (unref c i) disk = view c disk := by
  unfold view
  rw [buf_unref]
  exact view_set disk rfl

theorem WellFormed.view_lockAndRead {c : Cache P} (hc : WellFormed c) (disk : Disk) (p : P)
    (i : BufIndex) : view (lockAndRead c disk p i) disk = view c disk := by
  cases hvalid : (c.buf i).valid with
  | true =>
    apply view_set
    simp [Buf.live, hvalid]
  | false =>
    unfold view lockAndRead
    rw [live_set]
    apply Lib.Overlay.view_replace hc.unique_live
    · intro e he
      simp [Buf.live, hvalid] at he
    · intro e he
      obtain ⟨-, hdev, rfl⟩ := live_eq_some.mp he
      refine ⟨by simp [hvalid], fun j f hji hj hkey => hji ?_⟩
      obtain ⟨-, hdevj, rfl⟩ := live_eq_some.mp hj
      exact hc.unique j i _ ⟨hdevj, hkey⟩ ⟨hdev, rfl⟩

theorem WellFormed.view_setData {c : Cache P} (hc : WellFormed c) (disk : Disk) {i : BufIndex}
    (hdev : (c.buf i).dev = rootDev) (hvalid : (c.buf i).valid = true) (data : Block) :
    view (setData c i data) disk = Function.update (view c disk) (c.buf i).blockno data := by
  have hlive : (c.buf i).live = some ((c.buf i).blockno, (c.buf i).data) :=
    live_eq_some.mpr ⟨hvalid, hdev, rfl⟩
  unfold view setData
  rw [live_set, ← Lib.Overlay.view_set hc.unique_live hlive data]
  simp [Buf.live, hvalid, hdev]

theorem WellFormed.view_recycle {c : Cache P} (hc : WellFormed c) (disk : Disk) {i : BufIndex}
    {x : Buf P} (hvalid : x.valid = false)
    (hclean : (c.buf i).dev = rootDev → (c.buf i).valid = true →
      (c.buf i).data = disk (c.buf i).blockno) :
    view (c.set i x) disk = view c disk := by
  unfold view
  rw [live_set]
  apply Lib.Overlay.view_replace hc.unique_live
  · intro e he
    obtain ⟨hvalid, hdev, rfl⟩ := live_eq_some.mp he
    exact hclean hdev hvalid
  · intro e he
    simp [Buf.live, hvalid] at he

theorem WellFormed.view_bwrite {c : Cache P} (hc : WellFormed c) (disk : Disk) {i : BufIndex}
    (hdev : (c.buf i).dev = rootDev) (hvalid : (c.buf i).valid = true) :
    view c (Function.update disk (c.buf i).blockno (c.buf i).data) = view c disk :=
  Lib.Overlay.view_store_of_live hc.unique_live (live_eq_some.mpr ⟨hvalid, hdev, rfl⟩) _

end Xv6.Bio
