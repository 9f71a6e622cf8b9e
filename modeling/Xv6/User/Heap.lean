import Xv6.User.FreeList

/-! All runs of a program with `malloc` and `free`. -/
namespace Xv6.User.Malloc

open Lib

section Invariant

variable {limit base : Nat} {s : State}

structure Inv (limit base : Nat) (s : State) : Prop where
  pos : 0 < base
  ok : ∃ F, Ok limit base (start base s.heap) F s.live
  unused : s.heap.freep = 0 → s.live = ∅ ∧ s.heap.regions = []

theorem start_of_ne {h : Heap} (hfreep : h.freep ≠ 0) : start base h = h := if_neg hfreep

theorem start_same (h : Heap) : (start base h).top = h.top ∧
    (start base h).regions = h.regions ∧ (start base h).requests = h.requests := by
  unfold start
  split <;> exact ⟨rfl, rfl, rfl⟩

theorem Ok.freep_ne {h : Heap} {F L : Finset Nat} (hok : Ok limit base h F L) (hbase : 0 < base) :
    h.freep ≠ 0 := by
  have := hok.arena.ring.base_le hok.rover
  omega

theorem Inv.of_ok {h : Heap} {F L : Finset Nat} (hok : Ok limit base h F L) (hbase : 0 < base) :
    Inv limit base ⟨h, L⟩ :=
  ⟨hbase, ⟨F, (start_of_ne (hok.freep_ne hbase)).symm ▸ hok⟩,
    fun hzero => absurd hzero (hok.freep_ne hbase)⟩

theorem inv_init (h : (system limit base).init s) : Inv limit base s := by
  obtain ⟨hfreep, hregions, hlive, hbase, hlow, hhigh⟩ := h
  refine ⟨hbase, ⟨∅, ?_⟩, fun _ => ⟨hlive, hregions⟩⟩
  have hobtained : (start base s.heap).obtained = ∅ := by
    unfold start Heap.obtained
    split <;> simp [hregions]
  have hptr : ptr (setSize (setPtr s.heap.mem base base) base 0) base = base := by
    simp (disch := omega)
  have hsize : size (setSize (setPtr s.heap.mem base base) base 0) base = 0 := by
    simp (disch := omega)
  rw [hlive]
  refine ⟨⟨⟨by simp, ?_⟩, ⟨by simp, by simp, by simp [hobtained]⟩, by simp⟩, by simp [Merged],
    ?_, ?_, by simp [hobtained], ?_, ?_⟩ <;> rw [start, if_pos hfreep]
  · intro a ha
    obtain rfl : a = base := by simpa using ha
    exact Or.inr ⟨hptr, by simp⟩
  · exact hsize
  · exact Finset.mem_insert_self _ _
  · exact ⟨hlow, hhigh⟩
  · simp [Heap.total, hregions]

theorem units_pos (nbytes : UInt32) : 0 < units nbytes := Nat.succ_pos _

theorem Inv.fits_iff (h : Inv limit base s) (nbytes : UInt32) : ∃ F,
    Ok limit base (start base s.heap) F s.live ∧ (Fits base s.heap nbytes ↔
      Small nbytes ∨ ∃ a ∈ F, units nbytes ≤ size (start base s.heap).mem a) := by
  obtain ⟨F, hok⟩ := h.ok
  exact ⟨F, hok, or_congr_right (hok.serves_iff (units_pos nbytes))⟩

theorem Inv.malloc (h : Inv limit base s) (hlimit : limit < 2 ^ 36) {nbytes : UInt32}
    (hfits : Fits base s.heap nbytes) :
    ∃ ap h', Malloc.malloc limit base enough s.heap nbytes = some (ap, h') ∧
      Inv limit base ⟨h', if ap = 0 then s.live else insert (ap - 16) s.live⟩ ∧
      Kept s.live s.heap.mem h'.mem ∧
      (h'.requests = s.heap.requests ∨
        h'.requests = ((asked (units nbytes) * 16 : Nat) : Int) :: s.heap.requests) ∧
      ((ap = 0 ∧ (sbrk limit (start base s.heap) (asked (units nbytes) * 16 : Nat)).1 = none ∧
        h' = (start base s.heap).called (asked (units nbytes) * 16 : Nat)) ∨
      ∃ a, ap = a + 16 ∧ a ∉ s.live ∧ nbytes.toNat ≤ 16 * (size h'.mem a - 1)) := by
  obtain ⟨F, hok, hiff⟩ := h.fits_iff nbytes
  have hrequests : (start base s.heap).requests = s.heap.requests := (start_same s.heap).2.2
  have hstart : ∀ {mem}, Kept s.live (start base s.heap).mem mem → Kept s.live s.heap.mem mem := by
    intro mem hkept
    by_cases hfreep : s.heap.freep = 0
    · rw [(h.unused hfreep).1]
      simp [Kept]
    · rwa [start_of_ne hfreep] at hkept
  rcases hok.malloc hlimit (units_pos nbytes) (hiff.mp hfits) with
    ⟨hsbrk, hloop⟩ | ⟨a, h', hloop, ⟨⟨F', hok'⟩, hnew, hsize, hkept, hasked⟩⟩
  · refine ⟨0, _, hloop, ?_, hstart fun _ _ => ⟨rfl, fun _ _ _ => rfl⟩,
      Or.inr (congrArg _ hrequests), Or.inl ⟨rfl, hsbrk, rfl⟩⟩
    rw [if_pos rfl]
    exact Inv.of_ok ⟨hok.arena, hok.merged, hok.zero, hok.rover, hok.low, hok.high, hok.few⟩ h.pos
  · rw [hrequests] at hasked
    refine ⟨a + 16, h', hloop, ?_, hstart hkept, hasked, Or.inr ⟨a, rfl, hnew, ?_⟩⟩
    · rw [if_neg (by omega), Nat.add_sub_cancel]
      exact Inv.of_ok hok' h.pos
    · unfold units at hsize
      omega

theorem Inv.ok_of_live (h : Inv limit base s) {a : Nat} (ha : a ∈ s.live) :
    ∃ F, Ok limit base s.heap F s.live := by
  obtain ⟨F, hok⟩ := h.ok
  have hfreep : s.heap.freep ≠ 0 := fun hzero => by
    rw [(h.unused hzero).1] at ha
    exact Finset.notMem_empty _ ha
  rw [start_of_ne hfreep] at hok
  exact ⟨F, hok⟩

theorem Inv.free (h : Inv limit base s) (hlimit : limit < 2 ^ 36) {bp : Nat} (hbp : bp ∈ s.live) :
    ∃ h', Malloc.free enough s.heap (bp + 16) = some h' ∧ Inv limit base ⟨h', s.live.erase bp⟩ ∧
      Kept (s.live.erase bp) s.heap.mem h'.mem := by
  obtain ⟨F, hok⟩ := h.ok_of_live hbp
  have hfuel : 2 ^ 65 < enough := by
    unfold enough
    omega
  obtain ⟨h', F', hfree, hok', hkept, -⟩ := hok.free hlimit hbp hfuel
  exact ⟨h', hfree, Inv.of_ok hok' h.pos, hkept⟩

theorem Inv.step (h : Inv limit base s) (hlimit : limit < 2 ^ 36) {a : Action}
    (henabled : enabled s a) (hfits : fits base s a) :
    ∃ s', exec limit base s a = .ok s' ∧ Inv limit base s' := by
  cases a with
  | malloc nbytes =>
    obtain ⟨ap, h', hmalloc, hinv, -⟩ := h.malloc hlimit hfits
    exact ⟨_, by rw [exec, hmalloc]; rfl, hinv⟩
  | free bp =>
    obtain ⟨h', hfree, hinv, -⟩ := h.free hlimit henabled
    exact ⟨_, by rw [exec, hfree]; rfl, hinv⟩
  | store x byte =>
    obtain ⟨bp, hbp, hx, hlt⟩ := henabled
    obtain ⟨F, hok⟩ := h.ok_of_live hbp
    exact ⟨_, rfl, Inv.of_ok (hok.store hbp hx hlt byte) h.pos⟩

end Invariant

section Results

variable {limit base : Nat}

structure Sound (base : Nat) (s : State) (free : List Nat) : Prop where
  circle : (base :: free ++ [base]).IsChain (ptr s.heap.mem · = ·)
  empty : size s.heap.mem base = 0
  sorted : (base :: free).Pairwise fun a b => a + len s.heap.mem a < b
  rover : s.heap.freep ∈ base :: free
  disjoint : ∀ a ∈ free, a ∉ s.live
  tiles : Tiles (len s.heap.mem) (free.toFinset ∪ s.live) s.heap.obtained

theorem Ok.sound {s : State} {F : Finset Nat} (hok : Ok limit base s.heap F s.live) :
    ∃ free, Sound base s free := by
  obtain ⟨free, hsorted, hmem, hcircle⟩ := hok.arena.ring.exists_list
  have hF : free.toFinset = F := by
    ext a
    rw [List.mem_toFinset, hmem]
  refine ⟨free, hcircle, hok.zero, List.pairwise_cons.mpr ⟨?_, ?_⟩, ?_, ?_, hF ▸ hok.arena.tiles⟩
  · intro a ha
    rw [len, hok.zero]
    exact hok.arena.ring.above a ((hmem a).mp ha)
  · refine hsorted.imp_of_mem fun {a b} ha hb hab => ?_
    rw [hmem] at ha hb
    have := hok.merged a ha
    have := hok.arena.next_cases ha
    have := hok.arena.ring.follows a (Finset.mem_insert_of_mem ha)
    have := hok.arena.ring.above
    grind [Follows]
  · have := hok.rover
    grind
  · exact fun a ha => hok.arena.disjoint a ((hmem a).mp ha)

theorem inv_of_reach (hlimit : limit < 2 ^ 36) {r : Except Fault State}
    (h : (system limit base).Reach (fits base) r) : ∃ s, r = .ok s ∧ Inv limit base s :=
  System.Reach.invariant (Inv limit base) (fun _ => inv_init)
    (fun _ _ hs henabled hfits => hs.step hlimit henabled hfits) h

theorem small_fits (s : State) (a : Action) (h : small s a) : fits base s a := by
  cases a with
  | malloc nbytes => exact Or.inl h
  | free bp => trivial
  | store x byte => trivial

/-- With less than `2 ^ 36` bytes of memory the blocks stay what they should be. -/
theorem heap_sound (hlimit : limit < 2 ^ 36) {r : Except Fault State}
    (h : (system limit base).Reach small r) : ∃ s, r = .ok s ∧
      ((s.heap.freep = 0 ∧ s.live = ∅ ∧ s.heap.regions = []) ∨ ∃ free, Sound base s free) ∧
      (∀ nbytes, Small nbytes → ∃ ap h', malloc limit base enough s.heap nbytes = some (ap, h') ∧
        Kept s.live s.heap.mem h'.mem ∧
        ((ap = 0 ∧ (sbrk limit (start base s.heap) (asked (units nbytes) * 16 : Nat)).1 = none) ∨
        ∃ a, ap = a + 16 ∧ a ∉ s.live ∧ nbytes.toNat ≤ 16 * (size h'.mem a - 1))) ∧
      ∀ bp ∈ s.live, ∃ h', free enough s.heap (bp + 16) = some h' ∧
        Kept (s.live.erase bp) s.heap.mem h'.mem := by
  obtain ⟨s, rfl, hinv⟩ := inv_of_reach hlimit (h.mono small_fits)
  refine ⟨s, rfl, ?_, fun nbytes hsmall => ?_, fun bp hbp => ?_⟩
  · by_cases hfreep : s.heap.freep = 0
    · exact Or.inl ⟨hfreep, hinv.unused hfreep⟩
    · obtain ⟨F, hok⟩ := hinv.ok
      rw [start_of_ne hfreep] at hok
      exact Or.inr hok.sound
  · obtain ⟨ap, h', hmalloc, -, hkept, -, hcases⟩ := hinv.malloc hlimit (Or.inl hsmall)
    exact ⟨ap, h', hmalloc, hkept, hcases.imp_left fun hfail => ⟨hfail.1, hfail.2.1⟩⟩
  · obtain ⟨h', hfree, -, hkept⟩ := hinv.free hlimit hbp
    exact ⟨h', hfree, hkept⟩

/-- What a call of `malloc` is to do. What it passes to `sbrk` is what it then records in the
header of the new block; it leaves everything as it is and returns 0, or it returns a block
with room for the request that is a part of the memory from `sbrk`. -/
def Safe (limit base : Nat) (h : Heap) (nbytes : UInt32) : Prop :=
  ∃ ap h', malloc limit base enough h nbytes = some (ap, h') ∧
    (∃ calls, h'.requests = calls ++ h.requests ∧
      ∀ n ∈ calls, 0 < n ∧ n = (asked (units nbytes) * 16 : Nat)) ∧
    ((ap = 0 ∧ h'.top = h.top ∧ h'.regions = h.regions ∧ h'.mem = (start base h).mem ∧
      h'.freep = (start base h).freep) ∨
    ∃ a, ap = a + 16 ∧ nbytes.toNat ≤ 16 * (size h'.mem a - 1) ∧
      ∀ x, a ≤ x → x < a + 16 * size h'.mem a → x ∈ h'.obtained)

theorem Inv.safe {s : State} (hinv : Inv limit base s) (hlimit : limit < 2 ^ 36) {nbytes : UInt32}
    (hfits : Fits base s.heap nbytes) : Safe limit base s.heap nbytes := by
  obtain ⟨-, hpos, -⟩ := le_asked (units nbytes)
  obtain ⟨ap, h', hmalloc, hinv', -, hrequests, hcases⟩ := hinv.malloc hlimit hfits
  refine ⟨ap, h', hmalloc, ?_, ?_⟩
  · rcases hrequests with hsame | hone
    · exact ⟨[], hsame, fun n hn => absurd hn List.not_mem_nil⟩
    · refine ⟨[_], hone, fun n hn => ?_⟩
      rw [List.mem_singleton.mp hn]
      exact ⟨by omega, rfl⟩
  · rcases hcases with ⟨rfl, -, rfl⟩ | ⟨a, rfl, -, hsize⟩
    · exact Or.inl ⟨rfl, (start_same s.heap).1, (start_same s.heap).2.1, rfl, rfl⟩
    · refine Or.inr ⟨a, rfl, hsize, fun x hx hlt => ?_⟩
      rw [if_neg (Nat.succ_ne_zero _), Nat.add_sub_cancel] at hinv'
      have ha : a ∈ insert a s.live := Finset.mem_insert_self _ _
      obtain ⟨F, hok⟩ := hinv'.ok_of_live ha
      exact (hok.arena.tiles.cover x).mpr ⟨a, Finset.mem_union_right F ha, hx, hlt⟩

theorem Inv.fits_of_safe {s : State} (hinv : Inv limit base s) {nbytes : UInt32}
    (hsafe : Safe limit base s.heap nbytes) : Fits base s.heap nbytes := by
  obtain ⟨ap, h', hmalloc, ⟨calls, hcalls, hright⟩, -⟩ := hsafe
  obtain ⟨F, hok, hiff⟩ := hinv.fits_iff nbytes
  by_contra hno
  rw [hiff, not_or] at hno
  -- `morecore` has passed on the unit count, as an `int`
  obtain ⟨later, hlater⟩ := hok.asks (units_pos nbytes) hno.2 hmalloc
  rw [(start_same s.heap).2.2, hcalls, List.append_cons, List.append_left_inj] at hlater
  have heq := (hright (toInt (asked (units nbytes) * 16)) (by simp [← hlater])).2
  have hlt := toInt_lt (asked (units nbytes) * 16)
  obtain ⟨hle, -⟩ := le_asked (units nbytes)
  have hlarge := hno.1
  unfold Small at hlarge
  omega

/-- After requests that fit, a call of `malloc` is safe if and only if its request fits. -/
theorem malloc_safe (hlimit : limit < 2 ^ 36) {s : State}
    (h : (system limit base).Reach (fits base) (.ok s)) (nbytes : UInt32) :
    Safe limit base s.heap nbytes ↔ Fits base s.heap nbytes := by
  obtain ⟨s', hs', hinv⟩ := inv_of_reach hlimit h
  cases hs'
  exact ⟨hinv.fits_of_safe, hinv.safe hlimit⟩

end Results

section Runs

instance (s : State) (a : Action) : Decidable ((system limit base).enabled s a) :=
  match a with
  | .malloc _ => inferInstanceAs (Decidable True)
  | .free bp => inferInstanceAs (Decidable (bp ∈ s.live))
  | .store x _ => inferInstanceAs
      (Decidable (∃ bp ∈ s.live, bp + 16 ≤ x ∧ x < bp + 16 * size s.heap.mem bp))

instance (s : State) (a : Action) : Decidable (small s a) :=
  match a with
  | .malloc nbytes => inferInstanceAs (Decidable (units nbytes * 16 < 2 ^ 31))
  | .free _ => inferInstanceAs (Decidable True)
  | .store _ _ => inferInstanceAs (Decidable True)

def onePage : State := ⟨⟨Bytes.zero _, 0, [], 4096, fun _ => some 0, []⟩, ∅⟩

theorem init_onePage (limit : Nat) : (system limit 16).init onePage :=
  ⟨rfl, rfl, rfl, by decide, by decide, by decide⟩

/-- Three blocks; the second is freed and serves the next request in part. -/
def blocks : List Action :=
  [.malloc 1, .malloc 40, .malloc 100, .store 69424 7, .free 69536, .malloc 20]

theorem heap_sound_blocks : ∃ s free, (system (2 ^ 27) 16).Reach small (.ok s) ∧
    s.live = {69408, 69552, 69600} ∧ Sound 16 s free ∧ s.heap.mem.get 69424 = 7 ∧
    ∃ h', Malloc.free enough s.heap (69600 + 16) = some h' ∧ h'.mem.get 69424 = 7 := by
  have hrun : (system (2 ^ 27) 16).observed small
      (fun s => decide (s.live = {69408, 69552, 69600} ∧ s.heap.freep = 4096 ∧
        s.heap.mem.get 69424 = 7 ∧ size s.heap.mem 69408 = 8)) onePage blocks = some true := by
    decide +kernel
  obtain ⟨s, hreach, hs⟩ := System.Reach.of_observed (.init (init_onePage _)) hrun
  obtain ⟨hlive, hfreep, hbyte, hsize⟩ := of_decide_eq_true hs
  obtain ⟨s', hs', hsound, -, hfree⟩ := heap_sound (by decide) hreach
  cases hs'
  rcases hsound with ⟨hzero, -⟩ | ⟨free, hsound⟩
  · rw [hzero] at hfreep
    cases hfreep
  · obtain ⟨h', hdone, hkept⟩ := hfree 69600 (by simp [hlive])
    refine ⟨s, free, hreach, hlive, hsound, hbyte, h', hdone, ?_⟩
    rw [(hkept 69408 (by simp [hlive])).2 69424 (by decide) (by rw [hsize]; decide), hbyte]

theorem iterate_ptr {mem : Mem} (hbase : ptr mem 16 = 4096) (hblock : ptr mem 4096 = 16) (n : Nat) :
    (ptr mem)^[n] 16 = 16 ∨ (ptr mem)^[n] 16 = 4096 := by
  induction n with
  | zero => exact Or.inl rfl
  | succ n ih =>
    rw [Function.iterate_succ_apply']
    rcases ih with ih | ih
    · rw [ih]
      exact Or.inr hbase
    · rw [ih]
      exact Or.inl hblock

/-- 33 blocks of almost 2 GiB, all freed again: the size of their union does not fit in a
`uint`, and its last byte is in no block. -/
theorem heap_leaks : ∃ s, (system (2 ^ 64) 16).Reach small (.ok s) ∧ s.live = ∅ ∧
    ∃ x ∈ s.heap.obtained, ∀ n, ¬((ptr s.heap.mem)^[n] 16 ≤ x ∧
      x < (ptr s.heap.mem)^[n] 16 + len s.heap.mem ((ptr s.heap.mem)^[n] 16)) := by
  have hrun : (system (2 ^ 64) 16).observed small
      (fun s => decide (s.live = ∅ ∧ (68719480320, 2147483632) ∈ s.heap.regions ∧
        ptr s.heap.mem 16 = 4096 ∧ ptr s.heap.mem 4096 = 16 ∧ size s.heap.mem 16 = 0 ∧
        size s.heap.mem 4096 = 134217695)) onePage
      (List.replicate 33 (.malloc 2147483616) ++
        (List.range 33).map fun i => .free (4096 + 2147483632 * i)) = some true := by
    decide +kernel
  obtain ⟨s, hreach, hs⟩ := System.Reach.of_observed (.init (init_onePage _)) hrun
  obtain ⟨hlive, hregion, hbase, hblock, hzero, hsize⟩ := of_decide_eq_true hs
  refine ⟨s, hreach, hlive, 70866963951, ⟨_, hregion, by decide, by decide⟩, fun n => ?_⟩
  unfold len
  rcases iterate_ptr hbase hblock n with hnode | hnode
  · rw [hnode, hzero]
    omega
  · rw [hnode, hsize]
    omega

/-- Two blocks of almost 2 GiB, freed again. Their union serves a request that does not fit
in an `int`, and not the largest one. -/
theorem malloc_safe_merged : ∃ s, (system (2 ^ 35) 16).Reach (fits 16) (.ok s) ∧
    ¬Small 0x80000000 ∧ Safe (2 ^ 35) 16 s.heap 0x80000000 ∧
    ¬Safe (2 ^ 35) 16 s.heap 0xffffffff := by
  have hrun : (system (2 ^ 35) 16).observed small
      (fun s => decide (s.heap.freep = 4096 ∧ ptr s.heap.mem 16 = 4096 ∧ ptr s.heap.mem 4096 = 16 ∧
        size s.heap.mem 16 = 0 ∧ size s.heap.mem 4096 = 268435454)) onePage
      [.malloc 2147483616, .malloc 2147483616, .free 4096, .free (4096 + 2147483632)] =
      some true := by
    decide +kernel
  obtain ⟨s, hreach, hs⟩ := System.Reach.of_observed (.init (init_onePage _)) hrun
  obtain ⟨hfreep, hbase, hblock, hzero, hsize⟩ := of_decide_eq_true hs
  have hreach : (system (2 ^ 35) 16).Reach (fits 16) (.ok s) := hreach.mono small_fits
  have hstart : start 16 s.heap = s.heap := start_of_ne (by rw [hfreep]; decide)
  have hsafe : ∀ nbytes, Safe (2 ^ 35) 16 s.heap nbytes ↔ Fits 16 s.heap nbytes :=
    malloc_safe (by decide) hreach
  refine ⟨s, hreach, by unfold Small; decide, (hsafe _).mpr (Or.inr ⟨1, ?_⟩), fun hlargest => ?_⟩
  · rw [hstart, Function.iterate_one, hbase, hsize]
    decide
  · rcases (hsafe _).mp hlargest with hsmall | ⟨n, hn⟩
    · unfold Small at hsmall
      exact absurd hsmall (by decide)
    · rw [hstart] at hn
      rcases iterate_ptr hbase hblock n with hnode | hnode
      · rw [hnode, hzero] at hn
        exact absurd hn (by decide)
      · rw [hnode, hsize] at hn
        exact absurd hn (by decide)

/-- For the largest request `morecore` calls `sbrk(16)`, and `malloc` returns a block that has
no memory; for a slightly smaller one it calls `sbrk(-16)`. -/
theorem malloc_overflows : (system (2 ^ 27) 16).init onePage ∧
    (∃ a h', malloc (2 ^ 27) 16 enough onePage.heap 0xffffffff = some (a + 16, h') ∧
      toInt (asked (units 0xffffffff) * 16) = 16 ∧ size h'.mem a = asked (units 0xffffffff) ∧
      ∃ x, a + 16 ≤ x ∧ x < a + 16 + 0xffffffff ∧ x ∉ h'.obtained) ∧
    ∃ ap h', malloc (2 ^ 27) 16 enough onePage.heap 0xffffffe0 = some (ap, h') ∧
      h'.top < onePage.heap.top := by
  have hrun : (malloc (2 ^ 27) 16 enough onePage.heap 0xffffffff).map
        (fun r => (r.1, size r.2.mem 4096, r.2.regions)) = some (4112, 268435457, [(4096, 16)]) ∧
      (malloc (2 ^ 27) 16 enough onePage.heap 0xffffffe0).map (fun r => r.2.top) = some 4080 := by
    decide +kernel
  obtain ⟨⟨ap, h'⟩, hlarge, heq⟩ := Option.map_eq_some_iff.mp hrun.1
  obtain ⟨⟨ap', h''⟩, hsmaller, htop⟩ := Option.map_eq_some_iff.mp hrun.2
  simp only [Prod.mk.injEq] at heq
  obtain ⟨rfl, hsize, hregions⟩ := heq
  refine ⟨init_onePage _, ⟨4096, h', hlarge, by decide, hsize, 4128, by decide, by decide, ?_⟩,
    ap', h'', hsmaller, ?_⟩
  · simp [Heap.obtained, hregions]
  · rw [htop]
    decide

end Runs

end Xv6.User.Malloc
