import Mathlib.Data.Fintype.Card
import Xv6.Disk.Virtio
import Xv6.Lib.Ownership
import Xv6.Lib.Ring

/-! The requests in flight. Each has three descriptors of its own, and its buffer
is locked by the process that waits for it; so the heads of the entries that
`virtio_disk_intr` has not come to are different, there are fewer of them than
slots, and the rings never overtake themselves. -/
namespace Xv6.Disk

open Lib

variable {B C : Type}

section Descriptors

structure Took (d d' : Descs B) (taken : List (Fin num)) : Prop where
  nodup : taken.Nodup
  fresh : ∀ i ∈ taken, d.free i = true
  free : ∀ i, d'.free i = false ↔ d.free i = false ∨ i ∈ taken
  desc : ∀ i, d.free i = false → d'.desc i = d.desc i

theorem Took.refl (d : Descs B) : Took d d [] :=
  ⟨List.nodup_nil, by simp, by simp, fun _ _ => rfl⟩

variable {d d' : Descs B} {taken : List (Fin num)}

theorem Took.allocDesc (h : Took d d' taken) :
    allocDesc d' = (none, d') ∨
    ∃ i d'', allocDesc d' = (some i, d'') ∧ Took d d'' (taken ++ [i]) := by
  unfold Disk.allocDesc
  split
  · rename_i i hfind
    have hi : d'.free i = true := by simpa using List.find?_some hfind
    have hold : ¬(d.free i = false ∨ i ∈ taken) := by
      rw [← h.free i, hi]
      exact Bool.noConfusion
    rw [not_or] at hold
    refine Or.inr ⟨i, _, rfl, ?_, ?_, ?_, h.desc⟩
    · refine List.nodup_append.mpr ⟨h.nodup, List.nodup_singleton i, ?_⟩
      simp only [List.mem_singleton, forall_eq]
      rintro j hj rfl
      exact hold.2 hj
    · intro j hj
      rcases List.mem_append.mp hj with hj | hj
      · exact h.fresh j hj
      · rw [List.mem_singleton.mp hj]
        simpa using hold.1
    · intro j
      by_cases hj : j = i
      · simp [hj]
      · simp [h.free j, hj]
  · exact Or.inl rfl

def Descs.clear (d : Descs B) (i : Fin num) : Descs B :=
  ⟨Function.update d.desc i ⟨.null, 0, 0, 0⟩, Function.update d.free i true⟩

theorem Descs.clear_of_ne {i j : Fin num} (h : j ≠ i) :
    (d.clear i).desc j = d.desc j ∧ (d.clear i).free j = d.free j :=
  ⟨Function.update_of_ne h .., Function.update_of_ne h ..⟩

theorem freeDesc_of_taken {i : Fin num} (h : d.free i = false) :
    freeDesc d i = .ok (d.clear i) := by
  simp [freeDesc, h, Descs.clear]

theorem Took.freeDesc {i : Fin num} (h : Took d d' taken) (hi : i ∈ taken) :
    ∃ d'', freeDesc d' i = .ok d'' ∧ Took d d'' (taken.erase i) := by
  have hfresh := h.fresh i hi
  refine ⟨_, freeDesc_of_taken ((h.free i).mpr (Or.inr hi)), h.nodup.erase i, ?_, ?_, ?_⟩
  · exact fun j hj => h.fresh j (List.mem_of_mem_erase hj)
  · intro j
    rw [h.nodup.mem_erase_iff]
    by_cases hj : j = i
    · simp [Descs.clear, hj, hfresh]
    · simp [Descs.clear, h.free j, hj]
  · intro j hj
    have hne : j ≠ i := by
      rintro rfl
      rw [hfresh] at hj
      cases hj
    exact (Function.update_of_ne hne ..).trans (h.desc j hj)

theorem alloc3Desc_spec (d : Descs B) :
    (∃ d', alloc3Desc d = .ok (none, d') ∧ Took d d' []) ∨
    ∃ idx d', alloc3Desc d = .ok (some idx, d') ∧ Took d d' idx.toList := by
  unfold alloc3Desc
  rcases (Took.refl d).allocDesc with hnone | ⟨i, d₁, hsome, htook₁⟩
  · rw [hnone]
    exact Or.inl ⟨d, rfl, .refl d⟩
  rw [hsome]
  rcases htook₁.allocDesc with hnone | ⟨j, d₂, hsome, htook₂⟩
  · obtain ⟨d₃, hfree, htook₃⟩ := htook₁.freeDesc (i := i) (by simp)
    rw [List.nil_append, List.erase_cons_head] at htook₃
    exact Or.inl ⟨d₃, by simp [hnone, hfree, bind, Except.bind], htook₃⟩
  have hne : i ≠ j := by simpa using htook₂.nodup
  rcases htook₂.allocDesc with hnone | ⟨k, d₃, hsome', htook₃⟩
  · obtain ⟨d₃, hfree, htook₃⟩ := htook₂.freeDesc (i := i) (by simp)
    rw [List.nil_append, List.cons_append, List.erase_cons_head] at htook₃
    obtain ⟨d₄, hfree', htook₄⟩ := htook₃.freeDesc (i := j) (by simp)
    rw [List.nil_append, List.erase_cons_head] at htook₄
    exact Or.inl ⟨d₄, by simp [hsome, hnone, hfree, hfree', bind, Except.bind], htook₄⟩
  · exact Or.inr ⟨⟨i, j, k⟩, d₃, by simp [hsome, hsome'], htook₃⟩

theorem took_of_alloc3Desc {r : Option Idx} (h : alloc3Desc d = .ok (r, d')) :
    Took d d' (r.elim [] Idx.toList) := by
  rcases alloc3Desc_spec d with ⟨d₁, heq, htook⟩ | ⟨idx, d₁, heq, htook⟩
  · rw [h] at heq
    cases heq
    exact htook
  · rw [h] at heq
    cases heq
    exact htook

@[simp] theorem toNat_toId (i : Fin num) : (toId i).toNat = i := by
  have := i.isLt
  simp only [toId, UInt16.toNat_ofNat', num] at *
  omega

theorem vringNext_set : vringNext &&& vringNext ≠ 0 := by decide

theorem vringWrite_last : vringWrite &&& vringNext = 0 := by decide

theorem dataFlags_set (write : Bool) :
    ((if write = true then 0 else vringWrite) ||| vringNext) &&& vringNext ≠ 0 := by
  cases write <;> decide

structure Chained (d : Descs B) (b : B) (idx : Idx) : Prop where
  head : d.desc idx.head = ⟨.op idx.head, 16, vringNext, toId idx.data⟩
  data : ∃ flags, flags &&& vringNext ≠ 0 ∧
    d.desc idx.data = ⟨.data b, bsize, flags, toId idx.status⟩
  status : d.desc idx.status = ⟨.status idx.head, 1, vringWrite, 0⟩

variable {b : B} {idx : Idx}

theorem Chained.congr (h : Chained d b idx) (hdesc : ∀ i ∈ idx.toList, d'.desc i = d.desc i) :
    Chained d' b idx := by
  simp only [Idx.toList, List.forall_mem_cons, List.not_mem_nil, false_imp_iff, implies_true,
    and_true] at hdesc
  obtain ⟨flags, hflags, hdata⟩ := h.data
  exact ⟨hdesc.1.trans h.head, ⟨flags, hflags, hdesc.2.1.trans hdata⟩, hdesc.2.2.trans h.status⟩

theorem Chained.statusOf (h : Chained d b idx) : d.statusOf (toId idx.head) = some idx.head := by
  obtain ⟨flags, -, hdata⟩ := h.data
  simp [Descs.statusOf, h.head, hdata, h.status]

theorem freeChain_step {i j : Fin num} {more : Nat} (htaken : d.free i = false)
    (hflags : (d.desc i).flags &&& vringNext ≠ 0) (hnext : (d.desc i).next = toId j) :
    freeChain d (more + 1) i = freeChain (d.clear i) more j := by
  rw [freeChain, dif_pos i.isLt]
  simp only [Fin.eta]
  rw [freeDesc_of_taken htaken, hnext]
  simp only [if_pos hflags, toNat_toId]

theorem freeChain_last {i : Fin num} {more : Nat} (htaken : d.free i = false)
    (hflags : (d.desc i).flags &&& vringNext = 0) :
    freeChain d (more + 1) i = .ok (d.clear i) := by
  rw [freeChain, dif_pos i.isLt]
  simp only [Fin.eta]
  rw [freeDesc_of_taken htaken]
  simp only [hflags, ne_eq, not_true_eq_false, if_false]

theorem Chained.freeChain (h : Chained d b idx) (hnodup : idx.toList.Nodup)
    (htaken : ∀ i ∈ idx.toList, d.free i = false) :
    ∃ d', freeChain d (num + 1) idx.head = .ok d' ∧
      (∀ i, d'.free i = false ↔ d.free i = false ∧ i ∉ idx.toList) ∧
      ∀ i, i ∉ idx.toList → d'.desc i = d.desc i := by
  simp only [Idx.toList, List.forall_mem_cons, List.not_mem_nil, false_imp_iff, implies_true,
    and_true] at htaken
  obtain ⟨hhead, hdata, hstatus⟩ := htaken
  obtain ⟨hhd, hhs, hds⟩ : idx.head ≠ idx.data ∧ idx.head ≠ idx.status ∧ idx.data ≠ idx.status := by
    simpa [Idx.toList, and_assoc] using hnodup
  obtain ⟨flags, hflags, hdesc⟩ := h.data
  obtain ⟨hdesc₁, hdata₁⟩ := Descs.clear_of_ne (d := d) hhd.symm
  obtain ⟨hstatus₁, htaken₁⟩ := Descs.clear_of_ne (d := d) hhs.symm
  obtain ⟨hstatus₂, htaken₂⟩ := Descs.clear_of_ne (d := d.clear idx.head) hds.symm
  refine ⟨((d.clear idx.head).clear idx.data).clear idx.status, ?_, fun i => ?_, fun i hi => ?_⟩
  · change Disk.freeChain d 9 idx.head = _
    rw [freeChain_step hhead (j := idx.data) (by rw [h.head]; exact vringNext_set) (by rw [h.head]),
      freeChain_step (hdata₁.trans hdata) (j := idx.status) (by rwa [hdesc₁, hdesc])
        (by rw [hdesc₁, hdesc]),
      freeChain_last (htaken₂.trans (htaken₁.trans hstatus))
        (by rw [hstatus₂, hstatus₁, h.status]; exact vringWrite_last)]
  · simp only [Descs.clear, Function.update_apply, Idx.toList, List.mem_cons, List.not_mem_nil,
      or_false]
    by_cases hs : i = idx.status <;> by_cases hd : i = idx.data <;> by_cases hh : i = idx.head <;>
      simp [hs, hd, hh]
  · simp only [Idx.toList, List.mem_cons, List.not_mem_nil, or_false, not_or] at hi
    rw [(Descs.clear_of_ne hi.2.2).1, (Descs.clear_of_ne hi.2.1).1, (Descs.clear_of_ne hi.1).1]

end Descriptors

section Invariant

namespace Pos

def holdsLock : Pos B → Bool
  | .alloc _ _ | .format _ _ _ | .ring _ _ | .index _ _ | .wait _ _ _ | .free _ _ _ | .leave
  | .intrTest | .intrFetch | .intrCheck _ => true
  | .idle | .enter _ _ | .asleep _ _ _ | .intrEnter => false

def buffer : Pos B → Option B
  | .enter b _ | .alloc b _ | .format b _ _ | .ring b _ | .index b _ | .wait b _ _
  | .asleep b _ _ | .free b _ _ => some b
  | .idle | .leave | .intrEnter | .intrTest | .intrFetch | .intrCheck _ => none

def chain : Pos B → List (Fin num)
  | .format _ _ idx | .ring _ idx | .index _ idx | .wait _ idx _ | .asleep _ idx _
  | .free _ idx _ => idx.toList
  | .idle | .enter _ _ | .alloc _ _ | .leave | .intrEnter | .intrTest | .intrFetch
  | .intrCheck _ => []

def request : Pos B → Option (B × Idx × Nat)
  | .wait b idx k | .asleep b idx k | .free b idx k => some (b, idx, k)
  | _ => none

end Pos

namespace Device

def finished (d : Device) : List Entry := (d.posting.map Posting.entry).toList ++ d.reported

def entries (d : Device) : List Entry := d.pending ++ d.finished

end Device

namespace State

def handledKeys (s : State C B) : List Nat := (s.dev.reported.take s.handled).map Prod.fst

def Open (s : State C B) (k : Nat) : Prop := k < s.submitted.length ∧ k ∉ s.handledKeys

end State

structure Written (s : State C B) (b : B) (idx : Idx) : Prop where
  chained : Chained s.disk.descs b idx
  info : (s.disk.info idx.head).b = some b

/-- A request: its buffer is cleared once its own entry is handled, its status is
written once its own entry is finished. -/
structure Request (s : State C B) (b : B) (idx : Idx) (k : Nat) : Prop where
  written : Written s b idx
  head : s.submitted[k]? = some idx.head
  busy : s.busy b = false ↔ k ∈ s.handledKeys
  status : k ∈ s.dev.finished.map Prod.fst → (s.disk.info idx.head).status = 0

def Noted (s : State C B) : Pos B → Prop
  | .ring b idx => Written s b idx ∧ s.busy b = true
  | .index b idx => Written s b idx ∧ s.busy b = true ∧
      s.disk.availRing (slot s.disk.availIdx) = toId idx.head
  | .wait b idx k | .asleep b idx k => Request s b idx k
  | .free b idx k => Request s b idx k ∧ s.busy b = false
  | .intrFetch => s.handled < s.dev.reported.length
  | .intrCheck id => ∃ e, s.dev.reported[s.handled]? = some e ∧ id = e.2.toUInt32
  | _ => True

/-- The device's book-keeping: every entry it has consumed is in one place. -/
structure Entries (s : State C B) : Prop where
  le : s.dev.consumed ≤ s.submitted.length
  nodup : (s.dev.entries.map Prod.fst).Nodup
  mem : ∀ k, k ∈ s.dev.entries.map Prod.fst ↔ k < s.dev.consumed
  head : ∀ e ∈ s.dev.entries, ∃ i, s.submitted[e.1]? = some i ∧ e.2 = toId i

structure Rings (s : State C B) : Prop where
  availIdx : s.disk.availIdx.toNat = s.submitted.length % 2 ^ 16
  avail : Ring s.disk.availRing (s.submitted.map toId) s.dev.consumed
  usedEnd : s.disk.usedEnd.toNat = s.dev.reported.length % 2 ^ 16
  usedIdx : s.disk.usedIdx.toNat = s.handled % 2 ^ 16
  used : Ring s.disk.usedRing (s.dev.reported.map fun e => e.2.toUInt32) s.handled
  posted : ∀ e, s.dev.posting = some ⟨e, true⟩ →
    s.disk.usedRing (slot s.disk.usedEnd) = e.2.toUInt32

structure Inv (s : State C B) : Prop where
  lock : Agree (fun _ (_ : Unit) pos => pos.holdsLock = true) (fun _ => s.vdiskLock) s.pos
  bufs : ∀ c b, (s.pos c).buffer = some b → s.bufLock b = some c
  owns : Owns (fun c i => i ∈ (s.pos c).chain) (fun i => s.disk.descs.free i = false)
  nodup : ∀ c, (s.pos c).chain.Nodup
  noted : ∀ c, Noted s (s.pos c)
  served : ∀ k, s.Open k → ∃ c b idx, (s.pos c).request = some (b, idx, k)
  entries : Entries s
  rings : Rings s

end Invariant

section Facts

theorem slot_eq {i : UInt16} {n : Nat} (h : i.toNat = n % 2 ^ 16) : slot i = Fin.ofNat num n := by
  apply Fin.ext
  show i.toNat % num = n % num
  rw [h]
  exact Nat.mod_mod_of_dvd n (by decide)

variable {s : State C B} {c c' : C} {b : B} {idx : Idx} {k k' : Nat} {e : Entry}

theorem Pos.request_facts {pos : Pos B} (h : pos.request = some (b, idx, k)) :
    pos.buffer = some b ∧ pos.chain = idx.toList ∧ (Noted s pos → Request s b idx k) := by
  cases pos <;> cases h
  · exact ⟨rfl, rfl, id⟩
  · exact ⟨rfl, rfl, id⟩
  · exact ⟨rfl, rfl, And.left⟩

theorem Idx.head_mem (idx : Idx) : idx.head ∈ idx.toList := List.mem_cons_self

namespace Entries

variable (h : Entries s)
include h

theorem keys_nodup : (s.dev.pending.map Prod.fst ++ s.dev.finished.map Prod.fst).Nodup := by
  simpa only [Device.entries, List.map_append] using h.nodup

theorem reported_nodup : (s.dev.reported.map Prod.fst).Nodup := by
  refine h.keys_nodup.sublist ?_
  simp only [Device.finished, List.map_append]
  exact (List.sublist_append_right _ _).trans (List.sublist_append_right _ _)

theorem drop_not_handled (he : e ∈ s.dev.reported.drop s.handled) : e.1 ∉ s.handledKeys := by
  have hnodup := h.reported_nodup
  rw [← List.take_append_drop s.handled s.dev.reported, List.map_append] at hnodup
  exact fun hk => (List.nodup_append.mp hnodup).2.2 _ hk _ (List.mem_map_of_mem he) rfl

theorem pending_not_finished (he : e ∈ s.dev.pending) : e.1 ∉ s.dev.finished.map Prod.fst :=
  fun hk => (List.nodup_append.mp h.keys_nodup).2.2 _ (List.mem_map_of_mem he) _ hk rfl

omit h in
theorem handled_finished (hk : k ∈ s.handledKeys) : k ∈ s.dev.finished.map Prod.fst := by
  obtain ⟨e, he, rfl⟩ := List.mem_map.mp hk
  exact List.mem_map_of_mem (List.mem_append_right _ (List.mem_of_mem_take he))

omit h in
theorem finished_entries (hk : k ∈ s.dev.finished.map Prod.fst) :
    k ∈ s.dev.entries.map Prod.fst := by
  obtain ⟨e, he, rfl⟩ := List.mem_map.mp hk
  exact List.mem_map_of_mem (List.mem_append_right _ he)

theorem open_of_mem (he : e ∈ s.dev.entries) (hk : e.1 ∉ s.handledKeys) : s.Open e.1 :=
  ⟨Nat.lt_of_lt_of_le ((h.mem _).mp (List.mem_map_of_mem he)) h.le, hk⟩

theorem open_of_consumed_le (hk : s.dev.consumed ≤ k) (hlt : k < s.submitted.length) : s.Open k :=
  ⟨hlt, fun hmem => Nat.not_lt.mpr hk ((h.mem k).mp (finished_entries (handled_finished hmem)))⟩

theorem open_of_pending (he : e ∈ s.dev.pending) : s.Open e.1 :=
  h.open_of_mem (List.mem_append_left _ he)
    fun hk => h.pending_not_finished he (handled_finished hk)

end Entries

theorem mem_reported_drop {n : Nat} (he : s.dev.reported[n]? = some e) :
    e ∈ s.dev.reported.drop n := by
  obtain ⟨hlt, rfl⟩ := List.getElem?_eq_some_iff.mp he
  rw [List.drop_eq_getElem_cons hlt]
  exact List.mem_cons_self

theorem posting_mem {p : Posting} (h : s.dev.posting = some p) : p.entry ∈ s.dev.entries := by
  simp [Device.entries, Device.finished, h]

namespace Inv

variable (hs : Inv s)
include hs

theorem same_buffer (hb : (s.pos c).buffer = some b) (hb' : (s.pos c').buffer = some b) : c = c' :=
  Option.some.inj ((hs.bufs c b hb).symm.trans (hs.bufs c' b hb'))

theorem request (hreq : (s.pos c).request = some (b, idx, k)) : Request s b idx k :=
  (Pos.request_facts hreq).2.2 (hs.noted c)

theorem serve (hk : s.Open k) :
    ∃ c b idx, (s.pos c).request = some (b, idx, k) ∧ Request s b idx k := by
  obtain ⟨c, b, idx, hreq⟩ := hs.served k hk
  exact ⟨c, b, idx, hreq, hs.request hreq⟩

theorem same_context {i : Fin num} (hi : i ∈ (s.pos c).chain) (hi' : i ∈ (s.pos c').chain) :
    c = c' := hs.owns.unique c c' i hi hi'

theorem head_inj (hk : s.Open k) (hk' : s.Open k') (heq : s.submitted[k]? = s.submitted[k']?) :
    k = k' := by
  obtain ⟨c, b, idx, hreq, hrequest⟩ := hs.serve hk
  obtain ⟨c', b', idx', hreq', hrequest'⟩ := hs.serve hk'
  rw [hrequest.head, hrequest'.head, Option.some.injEq] at heq
  obtain rfl : c = c' := by
    refine hs.same_context (i := idx.head) ?_ ?_
    · rw [(Pos.request_facts (s := s) hreq).2.1]
      exact idx.head_mem
    · rw [(Pos.request_facts (s := s) hreq').2.1, heq]
      exact idx'.head_mem
  rw [hreq] at hreq'
  cases hreq'
  rfl

theorem heads_nodup {ks : List Nat} (hnodup : ks.Nodup) (hopen : ∀ k ∈ ks, s.Open k) :
    (ks.map fun k => (s.submitted[k]?).getD 0).Nodup := by
  refine hnodup.map_on fun k hk k' hk' heq => hs.head_inj (hopen k hk) (hopen k' hk') ?_
  rw [List.getElem?_eq_getElem (hopen k hk).1, List.getElem?_eq_getElem (hopen k' hk').1] at heq ⊢
  exact congrArg some heq

theorem open_le (ks : List Nat) (hnodup : ks.Nodup) (hopen : ∀ k ∈ ks, s.Open k) :
    ks.length ≤ num := by
  have hle := List.Nodup.length_le_card (hs.heads_nodup hnodup hopen)
  rwa [List.length_map, Fintype.card_fin] at hle

theorem open_lt (ks : List Nat) (hnodup : ks.Nodup) (hopen : ∀ k ∈ ks, s.Open k)
    {i : Fin num} (hi : i ∈ (s.pos c).chain) (hreq : (s.pos c).request = none) :
    ks.length < num := by
  have hfresh : i ∉ ks.map fun k => (s.submitted[k]?).getD 0 := by
    intro hmem
    obtain ⟨k, hk, heq⟩ := List.mem_map.mp hmem
    obtain ⟨c', b, idx, hreq', hrequest⟩ := hs.serve (hopen k hk)
    rw [hrequest.head, Option.getD_some] at heq
    obtain rfl : c = c' := by
      refine hs.same_context hi ?_
      rw [(Pos.request_facts (s := s) hreq').2.1, ← heq]
      exact idx.head_mem
    rw [hreq] at hreq'
    cases hreq'
  have hle := List.Nodup.length_le_card
    (List.nodup_cons.mpr ⟨hfresh, hs.heads_nodup hnodup hopen⟩)
  rw [List.length_cons, List.length_map, Fintype.card_fin] at hle
  exact hle

theorem avail_room {i : Fin num} (hi : i ∈ (s.pos c).chain) (hreq : (s.pos c).request = none) :
    s.submitted.length < s.dev.consumed + num := by
  have hlt := hs.open_lt (List.range' s.dev.consumed (s.submitted.length - s.dev.consumed))
    List.nodup_range' (fun k hk => ?_) hi hreq
  · rw [List.length_range'] at hlt
    omega
  · have hk := List.mem_range'_1.mp hk
    exact hs.entries.open_of_consumed_le hk.1 (by omega)

theorem used_room {p : Posting} (hp : s.dev.posting = some p) :
    s.dev.reported.length < s.handled + num := by
  have hnodup : ((p.entry :: s.dev.reported).map Prod.fst).Nodup := by
    refine hs.entries.keys_nodup.sublist ?_
    simp [Device.finished, hp]
  have hle := hs.open_le ((p.entry :: s.dev.reported.drop s.handled).map Prod.fst)
    (hnodup.sublist (((List.drop_sublist _ _).cons_cons _).map _)) (fun k hk => ?_)
  · simp only [List.length_map, List.length_cons, List.length_drop] at hle
    omega
  · obtain ⟨e, he, rfl⟩ := List.mem_map.mp hk
    rcases List.mem_cons.mp he with rfl | he
    · refine hs.entries.open_of_mem (posting_mem hp) fun hk => ?_
      rw [List.map_cons, List.nodup_cons] at hnodup
      obtain ⟨e', he', heq⟩ := List.mem_map.mp hk
      exact hnodup.1 (heq ▸ List.mem_map_of_mem (List.mem_of_mem_take he'))
    · refine hs.entries.open_of_mem ?_ (hs.entries.drop_not_handled he)
      exact List.mem_append_right _ (List.mem_append_right _ (List.mem_of_mem_drop he))

end Inv

end Facts

end Xv6.Disk
