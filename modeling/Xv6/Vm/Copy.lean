import Xv6.Vm.Strings

/-! `copyout` and `copyin`, exactly: which pages have to be there, how far a copy gets that
does not get to its end, and that nothing else changes but for page faults. -/
namespace Xv6.Vm

open Lib

section Pages

def written (pages : UserPages) (va : Nat) (bytes : List UInt8) : UserPages := fun v =>
  (pages v).map fun page => (page.1, fun o =>
    if va ≤ v * pgSize + o then bytes.getD (v * pgSize + o - va) (page.2 o) else page.2 o)

def Overlaps (va len v : Nat) : Prop := ∃ j, j < len ∧ vpn (va + j) = v

variable {pages pages' pages'' : UserPages} {sz va len n m : Nat} {touched touched' : Nat → Prop}
  {write ok : Bool} {bytes : List UInt8}

theorem written_nil (pages : UserPages) (va : Nat) : written pages va [] = pages := by
  funext v
  unfold written
  cases pages v with
  | none => rfl
  | some page => simp

theorem written_append (pages : UserPages) (va : Nat) (bytes bytes' : List UInt8) :
    written (written pages va bytes) (va + bytes.length) bytes' =
      written pages va (bytes ++ bytes') := by
  funext v
  unfold written
  cases pages v with
  | none => rfl
  | some page =>
    simp only [Option.map_some]
    refine congrArg some (Prod.ext rfl (funext fun o => ?_))
    dsimp only
    generalize v * pgSize + o = a
    by_cases hfirst : a < va
    · rw [if_neg (by omega), if_neg (by omega), if_neg (by omega)]
    · rw [if_pos (Nat.not_lt.mp hfirst), if_pos (Nat.not_lt.mp hfirst)]
      by_cases hsecond : va + bytes.length ≤ a
      · rw [if_pos hsecond, List.getD_append_right _ _ _ _ (by omega), Nat.sub_sub,
          List.getD_eq_default bytes _ (by omega)]
      · rw [if_neg hsecond, List.getD_append _ _ _ _ (by omega)]

theorem update_eq_written {flags : Nat} {data : Data} (hpage : pages (vpn va) = some (flags, data))
    (hlen : bytes.length ≤ pgSize - (va - pgRoundDown va)) :
    Function.update pages (vpn va) (some (flags, data.blit (va - pgRoundDown va) bytes)) =
      written pages va bytes := by
  have hle : pgRoundDown va ≤ va := Nat.div_mul_le_self va pgSize
  have hoffset := sub_pgRoundDown_lt va
  funext v
  unfold written
  by_cases hv : v = vpn va
  · rw [hv, Function.update_self, hpage]
    simp only [Option.map_some]
    refine congrArg some (Prod.ext rfl (funext fun o => ?_))
    dsimp only
    have hget := Bytes.get_blit data (va - pgRoundDown va) bytes o o.isLt
    rw [Bytes.get_of_lt _ o.isLt, Bytes.get_of_lt _ o.isLt] at hget
    rw [hget, ← pgRoundDown_eq]
    by_cases ho : va - pgRoundDown va ≤ o
    · rw [if_pos ho, if_pos (by omega), show o - (va - pgRoundDown va) =
        pgRoundDown va + o - va by omega]
    · rw [if_neg ho, if_neg (by omega)]
  · rw [Function.update_of_ne hv]
    cases pages v with
    | none => rfl
    | some page =>
      obtain ⟨flags', data'⟩ := page
      simp only [Option.map_some]
      refine congrArg some (Prod.ext rfl (funext fun o => ?_))
      dsimp only
      have ho : o.val < pgSize := o.isLt
      split
      · rename_i hva
        rw [List.getD_eq_default]
        have : vpn va + 1 ≤ v := by
          unfold vpn pgSize at *
          omega
        have := Nat.mul_le_mul_right pgSize this
        rw [Nat.add_mul, ← pgRoundDown_eq] at this
        omega
      · rfl

theorem usable_written (v : Nat) : Usable write (written pages va bytes) v ↔
    Usable write pages v := by
  unfold Usable written
  cases pages v with
  | none => simp
  | some page =>
    obtain ⟨flags, data⟩ := page
    constructor
    · rintro ⟨flags', data', heq, huse⟩
      cases heq
      exact ⟨flags, data, rfl, huse⟩
    · rintro ⟨flags', data', heq, huse⟩
      cases heq
      exact ⟨flags, _, rfl, huse⟩

theorem Faults.of_written (h : Faults sz touched (written pages va bytes) pages')
    (hafter : ∀ v, touched v → va + bytes.length ≤ v * pgSize) :
    ∃ before, Faults sz touched pages before ∧ pages' = written before va bytes := by
  refine ⟨fun v => (pages v).or (pages' v), fun v => ?_, ?_⟩
  · rcases h v with heq | ⟨htouched, hv, hnone, hnew⟩
    · refine Or.inl ?_
      dsimp only
      rw [heq, written]
      cases pages v with
      | none => rfl
      | some page => rfl
    · have hnone' : pages v = none := Option.map_eq_none_iff.mp hnone
      refine Or.inr ⟨htouched, hv, hnone', ?_⟩
      dsimp only
      rw [hnone', hnew, Option.none_or]
  · funext v
    rcases h v with heq | ⟨htouched, -, hnone, hnew⟩
    · rw [heq]
      unfold written
      dsimp only
      rw [heq, written]
      cases pages v with
      | none => rfl
      | some page => rfl
    · have hnone' : pages v = none := Option.map_eq_none_iff.mp hnone
      have hlate := hafter v htouched
      unfold written
      dsimp only
      rw [hnone', hnew, Option.none_or, Option.map_some]
      refine congrArg some (Prod.ext rfl (funext fun o => ?_))
      dsimp only
      split
      · rw [List.getD_eq_default]
        omega
      · rfl

section Range

theorem vpn_add (hoffset : n < pgSize - (va - pgRoundDown va)) : vpn (va + n) = vpn va := by
  unfold pgRoundDown vpn pgSize at *
  omega

theorem vpn_next : vpn (pgRoundDown va + pgSize) = vpn va + 1 := by
  unfold pgRoundDown vpn pgSize
  omega

theorem Overlaps.first (hlen : 0 < len) : Overlaps va len (vpn va) := ⟨0, hlen, rfl⟩

theorem Overlaps.rest {v : Nat} (hn : min (pgSize - (va - pgRoundDown va)) len = n)
    (h : Overlaps (pgRoundDown va + pgSize) (len - n) v) : Overlaps va len v := by
  obtain ⟨j, hj, rfl⟩ := h
  have hle : pgRoundDown va ≤ va := Nat.div_mul_le_self va pgSize
  have hoffset := sub_pgRoundDown_lt va
  refine ⟨n + j, by omega, ?_⟩
  rw [show va + (n + j) = pgRoundDown va + pgSize + j by omega]

theorem Overlaps.later {v : Nat} (h : Overlaps (pgRoundDown va + pgSize) len v) :
    pgRoundDown va + pgSize ≤ v * pgSize := by
  obtain ⟨j, -, rfl⟩ := h
  have hnext : vpn va + 1 ≤ vpn (pgRoundDown va + pgSize + j) := by
    rw [← vpn_next]
    exact Nat.div_le_div_right (Nat.le_add_right _ _)
  have := Nat.mul_le_mul_right pgSize hnext
  rwa [Nat.succ_mul, ← pgRoundDown_eq] at this

theorem written_rest {src rest : List UInt8}
    (hn : min (pgSize - (va - pgRoundDown va)) src.length = n)
    (hrest : rest.length ≤ src.length - n) :
    written (written pages va (src.take n)) (pgRoundDown va + pgSize) rest =
      written pages va (src.take n ++ rest) := by
  have hle : pgRoundDown va ≤ va := Nat.div_mul_le_self va pgSize
  have hoffset := sub_pgRoundDown_lt va
  rw [← written_append, List.length_take_of_le (by omega)]
  by_cases hnil : rest = []
  · rw [hnil, written_nil, written_nil]
  · have := List.length_pos_iff.mpr hnil
    rw [show va + n = pgRoundDown va + pgSize by omega]

structure Stops (write : Bool) (pages : UserPages) (va len m : Nat) (ok : Bool) : Prop where
  le : m ≤ len
  good : ∀ v, Overlaps va m v → Usable write pages v
  done : ok = true → m = len
  stop : ok = false → m < len ∧ (m = 0 ∨ (va + m) % pgSize = 0) ∧ ¬Usable write pages (vpn (va + m))

theorem Stops.nothing : Stops write pages va 0 0 true where
  le := Nat.le_refl 0
  good v h := by
    obtain ⟨j, hj, -⟩ := h
    exact absurd hj (Nat.not_lt_zero j)
  done _ := rfl
  stop h := by cases h

theorem Stops.here (hlen : 0 < len) (h : ¬Usable write pages (vpn va)) :
    Stops write pages va len 0 false where
  le := Nat.zero_le len
  good v h := by
    obtain ⟨j, hj, -⟩ := h
    exact absurd hj (Nat.not_lt_zero j)
  done h := by cases h
  stop _ := ⟨hlen, Or.inl rfl, h⟩

theorem Stops.page (huse : Usable write pages (vpn va))
    (hn : n = min (pgSize - (va - pgRoundDown va)) len)
    (h : Stops write pages (pgRoundDown va + pgSize) (len - n) m ok) :
    Stops write pages va len (n + m) ok := by
  have hle : pgRoundDown va ≤ va := Nat.div_mul_le_self va pgSize
  have hoffset := sub_pgRoundDown_lt va
  -- the rest begins on the next page, unless there is no rest
  have hnext : m ≠ 0 ∨ ok = false → pgRoundDown va + pgSize = va + n := by
    intro hmore
    have : 0 < len - n := by
      rcases hmore with hm | hok
      · have := h.le
        omega
      · have := (h.stop hok).1
        omega
    omega
  refine ⟨by have := h.le; omega, ?_, fun hok => by have := h.done hok; omega, fun hok => ?_⟩
  · rintro v ⟨j, hj, rfl⟩
    by_cases hjn : j < n
    · rw [vpn_add (by omega)]
      exact huse
    · refine h.good _ ⟨j - n, by omega, ?_⟩
      rw [hnext (Or.inl (by omega)), show va + n + (j - n) = va + j by omega]
  · obtain ⟨hlt, hedge, hbad⟩ := h.stop hok
    rw [hnext (Or.inr hok), Nat.add_assoc] at hbad
    refine ⟨by omega, Or.inr ?_, hbad⟩
    rw [← Nat.add_assoc, ← hnext (Or.inr hok)]
    rcases hedge with rfl | hedge
    · rw [Nat.add_zero, pgRoundDown_eq, ← Nat.succ_mul, Nat.mul_mod_left]
    · exact hedge

theorem Stops.of_written {va' : Nat} (h : Stops write (written pages va' bytes) va len m ok) :
    Stops write pages va len m ok where
  le := h.le
  good v hv := (usable_written v).mp (h.good v hv)
  done := h.done
  stop hok := (h.stop hok).imp_right (And.imp_right (mt (usable_written _).mpr))

theorem Stops.ok_iff (h : Stops write pages va len m ok) :
    ok = true ↔ ∀ v, Overlaps va len v → Usable write pages v := by
  constructor
  · intro hok
    have := h.good
    rwa [h.done hok] at this
  · intro hall
    by_contra hno
    obtain ⟨hlt, -, hbad⟩ := h.stop (by simpa using hno)
    exact hbad (hall _ ⟨m, hlt, rfl⟩)

end Range

end Pages

section Loops

variable {img : Image} {P : Protocol sig} {h : Heap} {extra : Nat → Prop}
  {mm : Mm} {root tf : Nat} {mapped : UserPages} (hmem : Manages img P.pool)
  (hpt : mm.pagetable = some root)
include hmem hpt

theorem copyoutLoop_exact {more dstva : Nat} {src : List UInt8} (hmore : src.length ≤ more)
    (hview : View img P.pool root mm.sz tf extra mapped h) :
    wp machine P (copyoutLoop img mm root more dstva src) (fun ok h' => ∃ before m,
      Faults mm.sz (Overlaps dstva src.length) mapped before ∧
      Stops true before dstva src.length m ok ∧
      View img P.pool root mm.sz tf extra (written before dstva (src.take m)) h') h := by
  induction more generalizing dstva src h mapped with
  | zero =>
    obtain rfl := List.length_eq_zero_iff.mp (Nat.le_zero.mp hmore)
    rw [copyoutLoop, if_pos rfl]
    refine ⟨mapped, 0, Faults.refl, Stops.nothing, ?_⟩
    rwa [List.take_nil, written_nil]
  | succ more ih =>
    rw [copyoutLoop]
    by_cases hsrc : src = []
    · subst hsrc
      rw [if_pos rfl]
      refine ⟨mapped, 0, Faults.refl, Stops.nothing, ?_⟩
      rwa [List.take_nil, written_nil]
    rw [if_neg hsrc]
    have hpos := List.length_pos_iff.mpr hsrc
    by_cases hmax : pgRoundDown dstva ≥ maxVa
    · simp only [if_pos hmax]
      refine ⟨mapped, 0, Faults.refl, Stops.here hpos ?_, ?_⟩
      · rintro ⟨flags, data, hpage, -⟩
        obtain ⟨S, rfl, -, -, rfl⟩ := hview
        have hv : ¬vpn dstva < userTop := by
          have htop : userTop = 2 ^ 26 - 2 := rfl
          unfold pgRoundDown pgSize maxVa at hmax
          unfold vpn pgSize
          omega
        simp [Space.content, hv] at hpage
      · rwa [List.take_zero, written_nil]
    simp only [if_neg hmax]
    refine wp_seq (userPage_spec hmem hpt hview (v := vpn dstva)) ?_
    rintro r h' hr
    cases r with
    | none =>
      refine ⟨mapped, 0, Faults.refl, Stops.here hpos ?_, ?_⟩
      · rintro ⟨flags, data, hpage, huser, -⟩
        exact hr.2.1 ⟨flags, data, hpage, huser, by simp⟩
      · rw [List.take_zero, written_nil]
        exact hr.1
    | some pa0 =>
      obtain ⟨mapped', hfault, hr⟩ := hr
      have hfault : Faults mm.sz (Overlaps dstva src.length) mapped mapped' :=
        hfault.mono fun v hv => hv ▸ Overlaps.first hpos
      refine wp_seq (hr.storeUser hmem (Nat.not_le.mp hmax) _) ?_
      rintro ok h' ⟨flags, data, hmapped, hflags, ⟨rfl, hread, hview'⟩ | ⟨rfl, hread, hnow⟩⟩
      · refine ⟨_, 0, hfault, Stops.here hpos ?_, ?_⟩
        · rintro ⟨flags', data', hpage, -, hw⟩
          rw [hmapped] at hpage
          cases hpage
          exact hw rfl hread
        · rw [List.take_zero, written_nil]
          exact hview'
      · rw [if_pos rfl]
        have hoffset := sub_pgRoundDown_lt dstva
        have hle : pgRoundDown dstva ≤ dstva := Nat.div_mul_le_self dstva pgSize
        generalize hn : min (pgSize - (dstva - pgRoundDown dstva)) src.length = n
        have htake : (src.take n).length = n := List.length_take_of_le (by omega)
        rw [hn, update_eq_written hmapped (by omega)] at hnow
        refine wp_mono (ih (by rw [List.length_drop]; omega) hnow) ?_
        rintro ok h'' ⟨before, m, hfaults, hstops, hview''⟩
        rw [List.length_drop] at hfaults hstops
        -- the pages that come later are not the page just written
        obtain ⟨first, hfirst, rfl⟩ := hfaults.of_written fun v hv => by
          have := hv.later
          omega
        refine ⟨first, n + m, hfault.trans (hfirst.mono fun _ => Overlaps.rest hn),
          Stops.page ?_ hn.symm hstops.of_written, ?_⟩
        · exact ⟨flags, data, hfirst.kept hmapped, hflags, fun _ => hread⟩
        · rwa [List.take_add, ← written_rest hn (by simp)]

theorem copyinLoop_exact {more srcva len : Nat} (hmore : len ≤ more)
    (hview : View img P.pool root mm.sz tf extra mapped h) :
    wp machine P (copyinLoop img mm root more srcva len) (fun r h' => ∃ mapped',
      Faults mm.sz (Overlaps srcva len) mapped mapped' ∧
      Stops false mapped' srcva len r.2.length r.1 ∧
      (∀ j, j < r.2.length → byteAt mapped' (srcva + j) = r.2[j]?) ∧
      View img P.pool root mm.sz tf extra mapped' h') h := by
  have hnothing : ∀ {pages : UserPages} {va : Nat}, ∀ j, j < ([] : List UInt8).length →
      byteAt pages (va + j) = ([] : List UInt8)[j]? := fun j hj => absurd hj (Nat.not_lt_zero j)
  induction more generalizing srcva len h mapped with
  | zero =>
    obtain rfl := Nat.le_zero.mp hmore
    rw [copyinLoop, if_pos rfl]
    exact ⟨mapped, Faults.refl, Stops.nothing, hnothing, hview⟩
  | succ more ih =>
    rw [copyinLoop]
    by_cases hlen : len = 0
    · subst hlen
      rw [if_pos rfl]
      exact ⟨mapped, Faults.refl, Stops.nothing, hnothing, hview⟩
    rw [if_neg hlen]
    have hpos : 0 < len := Nat.pos_of_ne_zero hlen
    refine wp_seq (userPage_spec hmem hpt hview (v := vpn srcva)) ?_
    rintro r h' hr
    cases r with
    | none => exact ⟨mapped, Faults.refl, Stops.here hpos hr.2.1, hnothing, hr.1⟩
    | some pa0 =>
      obtain ⟨mapped', hfault, hr⟩ := hr
      obtain ⟨flags, data, hmapped, hflags, hdata, -⟩ := hr.held
      have hoffset := sub_pgRoundDown_lt srcva
      have hle : pgRoundDown srcva ≤ srcva := Nat.div_mul_le_self srcva pgSize
      generalize hn : min (pgSize - (srcva - pgRoundDown srcva)) len = n
      refine wp_bind ⟨data, hdata, wp_seq (ih (by omega) hr.view) ?_⟩
      rintro ⟨ok, rest⟩ h'' ⟨mapped'', hfaults, hstops, hbytes, hview''⟩
      have hslice : (data.slice (srcva - pgRoundDown srcva) n).length = n := by simp [Bytes.slice]
      have hkept := hfaults.kept hmapped
      refine ⟨mapped'', ?_, ?_, fun j hj => ?_, hview''⟩
      · exact (hfault.mono fun v hv => hv ▸ Overlaps.first hpos).trans
          (hfaults.mono fun _ => Overlaps.rest hn)
      · rw [List.length_append, hslice]
        exact Stops.page ⟨flags, data, hkept, hflags, by simp⟩ hn.symm hstops
      · rw [List.length_append, hslice] at hj
        by_cases hjn : j < n
        · rw [List.getElem?_append_left (by omega), byteAt_slice hkept (by omega) hjn]
        · have hrest : rest.length ≤ len - n := hstops.le
          have hj' : j - n < rest.length := by omega
          rw [List.getElem?_append_right (by omega), hslice, ← hbytes (j - n) hj',
            show srcva + j = pgRoundDown srcva + pgSize + (j - n) by omega]

end Loops

section Run

variable {img : Image} {s : Alone sig} {mm : Mm}

/-- A page that a copy can use: below `MAXVA`, and mapped with these permissions or taken
from the allocator by a page fault. -/
def Reached (write : Bool) (sz : Nat) (before after : UserPages) (v : Nat) : Prop :=
  v < vpn maxVa ∧ (Usable write before v ∨ before v = none ∧ v < npages sz ∧ after v ≠ none)

theorem Faults.reached {pages pages' : UserPages} {sz v : Nat} {write : Bool}
    {touched : Nat → Prop} (h : Faults sz touched pages pages')
    (hbound : ∀ v, pages' v ≠ none → v < vpn maxVa) :
    Usable write pages' v ↔ Reached write sz pages pages' v := by
  constructor
  · rintro ⟨flags, data, hpage, huse⟩
    refine ⟨hbound v (by simp [hpage]), ?_⟩
    rcases h v with heq | ⟨-, hv, hnone, hnew⟩
    · exact Or.inl ⟨flags, data, heq ▸ hpage, huse⟩
    · exact Or.inr ⟨hnone, hv, by simp [hpage]⟩
  · rintro ⟨-, ⟨flags, data, hpage, huse⟩ | ⟨hnone, -, hsome⟩⟩
    · rcases h v with heq | ⟨-, -, hnone, -⟩
      · exact ⟨flags, data, heq.trans hpage, huse⟩
      · rw [hpage] at hnone
        cases hnone
    · rcases h v with heq | ⟨-, -, -, hnew⟩
      · rw [heq] at hsome
        exact absurd hnone hsome
      · exact ⟨heapFlags, filled 0, hnew, by decide, fun _ => by decide⟩

theorem memoryIn_bound {mem : Cell → Data} {root v : Nat} (h : memoryIn mem root v ≠ none) :
    v < vpn maxVa := by
  have htop : userTop < vpn maxVa := by decide
  unfold memoryIn at h
  by_contra hge
  rw [if_neg (by omega)] at h
  exact h rfl

theorem written_eq_none {pages : UserPages} {va v : Nat} {bytes : List UInt8} :
    written pages va bytes v = none ↔ pages v = none := Option.map_eq_none_iff

theorem byteAt_written {pages : UserPages} {va j : Nat} {bytes : List UInt8} {write : Bool}
    (huse : Usable write pages (vpn (va + j))) (hj : j < bytes.length) :
    byteAt (written pages va bytes) (va + j) = bytes[j]? := by
  obtain ⟨flags, data, hpage, -⟩ := huse
  have hmod : (va + j) % pgSize < pgSize := Nat.mod_lt _ (by decide)
  have haddr : vpn (va + j) * pgSize + (va + j) % pgSize = va + j := Nat.div_add_mod' _ _
  rw [byteAt, written, hpage, Option.map_some, Option.map_some, Bytes.get_of_lt _ hmod]
  dsimp only
  rw [haddr, if_pos (Nat.le_add_right va j), Nat.add_sub_cancel_left, List.getElem?_eq_getElem hj,
    List.getD_eq_getElem _ _ hj]

theorem byteAt_written_above {pages : UserPages} {va a : Nat} {bytes : List UInt8}
    (h : va + bytes.length ≤ a) :
    byteAt (written pages va bytes) a = byteAt pages a := by
  have hmod : a % pgSize < pgSize := Nat.mod_lt _ (by decide)
  have haddr : vpn a * pgSize + a % pgSize = a := Nat.div_add_mod' _ _
  unfold byteAt written
  cases pages (vpn a) with
  | none => rfl
  | some page =>
    rw [Option.map_some, Option.map_some, Option.map_some, Bytes.get_of_lt _ hmod,
      Bytes.get_of_lt _ hmod]
    dsimp only
    rw [haddr, if_pos (by omega), List.getD_eq_default _ _ (by omega)]

theorem written_other {pages : UserPages} {va u : Nat} {bytes : List UInt8}
    (h : ∀ j, j < bytes.length → vpn (va + j) ≠ u) : written pages va bytes u = pages u := by
  unfold written
  cases hpage : pages u with
  | none => rfl
  | some page =>
    refine congrArg some (Prod.ext rfl (funext fun o => ?_))
    dsimp only
    split
    · rename_i hle
      refine List.getD_eq_default _ _ (Nat.not_lt.mp fun hlt => h _ hlt ?_)
      have ho := o.isLt
      unfold vpn
      rw [show va + (u * pgSize + o - va) = u * pgSize + o by omega, Nat.mul_comm,
        Nat.mul_add_div (by decide), Nat.div_eq_of_lt ho, Nat.add_zero]
    · rfl

/-- What `copyout` does to a process: with some new pages of zeros below the size, a prefix of
`src` is written, and all of it exactly if every page can be used. -/
def CopiesOut (mm : Mm) (before after : UserPages) (dstva : Nat) (src : List UInt8) (ok : Bool) :
    Prop :=
  (ok = true ↔ ∀ v, Overlaps dstva src.length v → Reached true mm.sz before after v) ∧
    (ok = true → ∀ j, j < src.length → byteAt after (dstva + j) = src[j]?) ∧
    ∃ pages m, Faults mm.sz (Overlaps dstva src.length) before pages ∧
      after = written pages dstva (src.take m) ∧
      (ok = false → m < src.length ∧ (m = 0 ∨ (dstva + m) % pgSize = 0))

def CopiesIn (mm : Mm) (before after : UserPages) (srcva len : Nat) (ok : Bool)
    (bytes : List UInt8) : Prop :=
  (ok = true ↔ ∀ v, Overlaps srcva len v → Reached false mm.sz before after v) ∧
    (ok = true → bytes.length = len) ∧
    (∀ j, j < bytes.length → byteAt after (srcva + j) = bytes[j]?) ∧
    Faults mm.sz (Overlaps srcva len) before after ∧
    (ok = false → bytes.length < len ∧ (bytes.length = 0 ∨ (srcva + bytes.length) % pgSize = 0))

variable {S : Space} {tf : Nat} {h : Heap}

theorem Owned.view (hown : Owned img s mm S tf h) :
    View img (ram img) S.root mm.sz tf (fun _ => False) (memoryIn s.mem S.root) h :=
  ⟨S, rfl, hown.layout, hown.rep, (hown.rep.memoryIn_eq hown.has.mem).symm⟩

theorem Owned.copyout (hown : Owned img s mm S tf h) (dstva : Nat) (src : List UInt8) :
    ∃ ok s', (copyout img mm S.root dstva src).run machine s = (.ok ok, s') ∧ Process img s' mm ∧
      CopiesOut mm (memoryIn s.mem S.root) (memoryIn s'.mem S.root) dstva src ok ∧
      ∀ c, c ∉ s.free → (∀ m, c = .page m → ¬UsesPage s.mem S.root m) → s'.mem c = s.mem c := by
  obtain ⟨ok, h', hrun, ⟨pages, m, hfaults, hstops, S', hroot, hlayout', hrep', hcontent⟩, hs',
    hmoves⟩ := run_spec (p := Vm.copyout img mm S.root dstva src) hown.has
      (copyoutLoop_exact (P := solo img True) manages_ram hown.pagetable (Nat.le_refl _) hown.view)
      (Or.inl trivial)
  generalize hs₁ : ((Vm.copyout img mm S.root dstva src).run machine s).2 = s' at hs' hmoves
  have hafter : memoryIn s'.mem S.root = written pages dstva (src.take m) := by
    rw [← hroot, hrep'.memoryIn_eq hs'.mem, hcontent]
  have hnone : ∀ v, memoryIn s'.mem S.root v = none ↔ pages v = none := by
    intro v
    rw [hafter, written_eq_none]
  have hreached : ∀ v, Usable true pages v ↔
      Reached true mm.sz (memoryIn s.mem S.root) (memoryIn s'.mem S.root) v := by
    intro v
    rw [hfaults.reached fun v hv => memoryIn_bound (mt (hnone v).mp hv)]
    simp only [Reached, ne_eq, hnone]
  refine ⟨ok, s', Prod.ext hrun hs₁, hown.process hmoves hs' (hroot ▸ hown.pagetable)
    hown.trapframe hlayout' hrep', ⟨?_, fun hok j hj => ?_, pages, m, hfaults, hafter,
      fun hok => ?_⟩,
    fun c hfree hother => hown.rest hmoves hfree hother⟩
  · rw [hstops.ok_iff]
    exact forall_congr' fun v => imp_congr_right fun _ => hreached v
  · rw [hafter, hstops.done hok, List.take_length]
    exact byteAt_written (hstops.ok_iff.mp hok _ ⟨j, hj, rfl⟩) hj
  · obtain ⟨hlt, hedge, -⟩ := hstops.stop hok
    exact ⟨hlt, hedge⟩

theorem Owned.copyin (hown : Owned img s mm S tf h) (srcva len : Nat) :
    ∃ ok bytes s', (copyin img mm S.root srcva len).run machine s = (.ok (ok, bytes), s') ∧
      Process img s' mm ∧
      CopiesIn mm (memoryIn s.mem S.root) (memoryIn s'.mem S.root) srcva len ok bytes ∧
      ∀ c, c ∉ s.free → (∀ m, c = .page m → ¬UsesPage s.mem S.root m) → s'.mem c = s.mem c := by
  obtain ⟨⟨ok, bytes⟩, h', hrun, ⟨pages, hfaults, hstops, hbytes, S', hroot, hlayout', hrep',
    hcontent⟩, hs', hmoves⟩ := run_spec (p := Vm.copyin img mm S.root srcva len) hown.has
      (copyinLoop_exact (P := solo img True) manages_ram hown.pagetable (Nat.le_refl _) hown.view)
      (Or.inl trivial)
  generalize hs₁ : ((Vm.copyin img mm S.root srcva len).run machine s).2 = s' at hs' hmoves
  have hafter : memoryIn s'.mem S.root = pages := by
    rw [← hroot, hrep'.memoryIn_eq hs'.mem, hcontent]
  rw [← hafter] at hfaults hstops hbytes
  refine ⟨ok, bytes, s', Prod.ext hrun hs₁, hown.process hmoves hs' (hroot ▸ hown.pagetable)
    hown.trapframe hlayout' hrep', ⟨?_, hstops.done, hbytes, hfaults, fun hok => ?_⟩,
    fun c hfree hother => hown.rest hmoves hfree hother⟩
  · rw [hstops.ok_iff]
    exact forall_congr' fun v => imp_congr_right fun _ =>
      hfaults.reached fun v hv => memoryIn_bound hv
  · obtain ⟨hlt, hedge, -⟩ := hstops.stop hok
    exact ⟨hlt, hedge⟩

/-- `copyout` and `copyin` with any addresses and lengths, whatever `kalloc` does. -/
theorem copies_exact (hproc : Process img s mm) : ∃ root, mm.pagetable = some root ∧
    (∀ dstva src, ∃ ok s', (copyout img mm root dstva src).run machine s = (.ok ok, s') ∧
      Process img s' mm ∧
      CopiesOut mm (memoryIn s.mem root) (memoryIn s'.mem root) dstva src ok ∧
      ∀ c, c ∉ s.free → (∀ m, c = .page m → ¬UsesPage s.mem root m) → s'.mem c = s.mem c) ∧
    ∀ srcva len, ∃ ok bytes s',
      (copyin img mm root srcva len).run machine s = (.ok (ok, bytes), s') ∧
      Process img s' mm ∧
      CopiesIn mm (memoryIn s.mem root) (memoryIn s'.mem root) srcva len ok bytes ∧
      ∀ c, c ∉ s.free → (∀ m, c = .page m → ¬UsesPage s.mem root m) → s'.mem c = s.mem c := by
  obtain ⟨S, tf, h, hown⟩ := hproc.owned
  exact ⟨S.root, hown.pagetable, hown.copyout, hown.copyin⟩

end Run

section Sample

def lazyRun : Except Panic (Mm × List Outcome) × Alone sig :=
  (performAll sampleImage [.sbrk 8192 2] sampleMm).run machine sampleStart.2

def lazyMm : Mm := { sampleMm with sz := 8192 }

theorem lazyRun_outcome : outcome lazyRun = some (lazyMm, [.returned 0]) ∧
    lazyRun.2.short = false := by
  decide +kernel

theorem lazyProcess : Process sampleImage lazyRun.2 lazyMm := by
  have hfits : ∀ a ∈ [Access.sbrk 8192 2], a.Fits := by simp [Access.Fits]
  exact sampleProcess_run hfits lazyRun_outcome

end Sample

theorem copies_exact_lazy : Process sampleImage lazyRun.2 lazyMm ∧
    ∃ s', (copyout sampleImage lazyMm 0x80101 4094 [1, 2, 3, 4]).run machine lazyRun.2 =
      (.ok true, s') ∧ byteAt (memoryIn s'.mem 0x80101) 4096 = some 3 := by
  have houtcome : outcome ((copyout sampleImage lazyMm 0x80101 4094 [1, 2, 3, 4]).run machine
      lazyRun.2) = some true := by decide +kernel
  obtain ⟨root, hpt, hout, -⟩ := copies_exact lazyProcess
  cases hpt
  obtain ⟨ok, s', hrun, -, ⟨-, hbytes, -⟩, -⟩ := hout 4094 [1, 2, 3, 4]
  rw [hrun] at houtcome
  cases houtcome
  exact ⟨lazyProcess, s', hrun, hbytes rfl 2 (by decide)⟩

end Xv6.Vm
