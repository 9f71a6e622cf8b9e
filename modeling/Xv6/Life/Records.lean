import Xv6.Life.Family

/-! The records of exits and reaps against the table: who has exited, who is still
there as a zombie, and who has been freed, by whom. -/
namespace Xv6.Life

open Lib
open Sched (Slot ProcState nproc)

def Proc.exit (p : Proc) : Exit := ⟨p.serial, p.pid, p.xstate⟩

structure Records (s : State) : Prop where
  serial_lt : ∀ q, (s.proc q).state ≠ .unused → (s.proc q).serial < s.nextSerial
  serial_inj : ∀ q q', (s.proc q).state ≠ .unused → (s.proc q').state ≠ .unused →
    (s.proc q).serial = (s.proc q').serial → q = q'
  exits_lt : ∀ e ∈ s.exits, e.serial < s.nextSerial
  exits_nodup : (s.exits.map Exit.serial).Nodup
  alive : ∀ q, (s.proc q).state ≠ .unused → (s.proc q).state ≠ .zombie →
    ∀ e ∈ s.exits, e.serial ≠ (s.proc q).serial
  zombie : ∀ q, (s.proc q).state = .zombie → (s.proc q).exit ∈ s.exits
  exited : ∀ e ∈ s.exits, (∃ r ∈ s.reaps, r.serial = e.serial) ∨
    ∃ q, (s.proc q).state = .zombie ∧ (s.proc q).exit = e
  unreaped : ∀ q, (s.proc q).state ≠ .unused → ∀ r ∈ s.reaps, r.serial ≠ (s.proc q).serial
  reaped : ∀ r ∈ s.reaps, ⟨r.serial, r.ret, r.status⟩ ∈ s.exits
  reaps_nodup : (s.reaps.map Reap.serial).Nodup

variable {s t : State} {a : Action}

structure Alike (p p' : Proc) : Prop where
  serial : p'.serial = p.serial
  unused : p'.state = .unused ↔ p.state = .unused
  zombie : p'.state = .zombie ↔ p.state = .zombie
  exit : p.state = .zombie → p'.exit = p.exit

theorem Alike.refl (p : Proc) : Alike p p := ⟨rfl, .rfl, .rfl, fun _ => rfl⟩

theorem Same.alike {p p' : Proc} (h : Same p p') : Alike p p' where
  serial := h.serial
  unused := h.unused
  zombie := h.zombie
  exit hzombie := by
    have hpid := h.pid (by simp [hzombie])
    simp [Proc.exit, h.serial, h.xstate, hpid]

theorem Records.kept (hs : Records s) (hproc : ∀ q, Alike (s.proc q) (t.proc q) ∨
      ((t.proc q).state = .unused ∧ (s.proc q).state ≠ .zombie))
    (hexits : t.exits = s.exits) (hreaps : t.reaps = s.reaps)
    (hnext : t.nextSerial = s.nextSerial) : Records t := by
  have halike : ∀ q, (t.proc q).state ≠ .unused → Alike (s.proc q) (t.proc q) := fun q hq =>
    (hproc q).resolve_right fun h => hq h.1
  have hbefore : ∀ q, (t.proc q).state ≠ .unused → (s.proc q).state ≠ .unused := fun q hq =>
    mt (halike q hq).unused.mpr hq
  refine ⟨?_, ?_, ?_, ?_, ?_, ?_, ?_, ?_, ?_, ?_⟩
  · intro q hq
    rw [(halike q hq).serial, hnext]
    exact hs.serial_lt q (hbefore q hq)
  · intro q q' hq hq' heq
    rw [(halike q hq).serial, (halike q' hq').serial] at heq
    exact hs.serial_inj q q' (hbefore q hq) (hbefore q' hq') heq
  · rw [hexits, hnext]
    exact hs.exits_lt
  · rw [hexits]
    exact hs.exits_nodup
  · intro q hq hzombie
    rw [(halike q hq).serial, hexits]
    exact hs.alive q (hbefore q hq) (mt (halike q hq).zombie.mpr hzombie)
  · intro q hzombie
    have hq := halike q (by simp [hzombie])
    rw [hq.exit (hq.zombie.mp hzombie), hexits]
    exact hs.zombie q (hq.zombie.mp hzombie)
  · rw [hexits, hreaps]
    intro e he
    refine (hs.exited e he).imp_right ?_
    rintro ⟨q, hzombie, heq⟩
    have hq := (hproc q).resolve_right fun h => h.2 hzombie
    exact ⟨q, hq.zombie.mpr hzombie, (hq.exit hzombie).trans heq⟩
  · intro q hq
    rw [(halike q hq).serial, hreaps]
    exact hs.unreaped q (hbefore q hq)
  · rw [hexits, hreaps]
    exact hs.reaped
  · rw [hreaps]
    exact hs.reaps_nodup

theorem Records.born (hs : Records s) {q : Slot} (hunused : (s.proc q).state = .unused)
    (ht : t.proc = Function.update s.proc q
      { s.proc q with state := .used, serial := s.nextSerial })
    (hexits : t.exits = s.exits) (hreaps : t.reaps = s.reaps)
    (hnext : t.nextSerial = s.nextSerial + 1) : Records t := by
  have hself : (t.proc q).state = .used ∧ (t.proc q).serial = s.nextSerial := by
    rw [ht, Function.update_self]
    exact ⟨rfl, rfl⟩
  have hother : ∀ r, r ≠ q → t.proc r = s.proc r := fun r hr => by
    rw [ht, Function.update_of_ne hr]
  have hreaps_lt : ∀ r ∈ s.reaps, r.serial < s.nextSerial := fun r hr =>
    hs.exits_lt _ (hs.reaped r hr)
  refine ⟨?_, ?_, ?_, ?_, ?_, ?_, ?_, ?_, ?_, ?_⟩
  · intro r hr
    rw [hnext]
    by_cases hrq : r = q
    · rw [hrq, hself.2]
      omega
    · rw [hother r hrq] at hr ⊢
      exact (hs.serial_lt r hr).trans (Nat.lt_succ_self _)
  · intro r r' hr hr' heq
    by_cases hrq : r = q <;> by_cases hrq' : r' = q
    · rw [hrq, hrq']
    · rw [hother r' hrq'] at hr' heq
      rw [hrq, hself.2] at heq
      exact absurd heq (hs.serial_lt r' hr').ne'
    · rw [hother r hrq] at hr heq
      rw [hrq', hself.2] at heq
      exact absurd heq (hs.serial_lt r hr).ne
    · rw [hother r hrq] at hr heq
      rw [hother r' hrq'] at hr' heq
      exact hs.serial_inj r r' hr hr' heq
  · rw [hexits, hnext]
    exact fun e he => (hs.exits_lt e he).trans (Nat.lt_succ_self _)
  · rw [hexits]
    exact hs.exits_nodup
  · intro r hr hzombie e he
    rw [hexits] at he
    by_cases hrq : r = q
    · rw [hrq, hself.2]
      exact (hs.exits_lt e he).ne
    · rw [hother r hrq] at hr hzombie ⊢
      exact hs.alive r hr hzombie e he
  · intro r hzombie
    rw [hexits]
    by_cases hrq : r = q
    · rw [hrq, hself.1] at hzombie
      cases hzombie
    · rw [hother r hrq] at hzombie ⊢
      exact hs.zombie r hzombie
  · rw [hexits, hreaps]
    intro e he
    refine (hs.exited e he).imp_right ?_
    rintro ⟨r, hzombie, heq⟩
    have hrq : r ≠ q := by
      rintro rfl
      rw [hunused] at hzombie
      cases hzombie
    exact ⟨r, by rwa [hother r hrq], by rwa [hother r hrq]⟩
  · intro r hr e he
    rw [hreaps] at he
    by_cases hrq : r = q
    · rw [hrq, hself.2]
      exact (hreaps_lt e he).ne
    · rw [hother r hrq] at hr ⊢
      exact hs.unreaped r hr e he
  · rw [hexits, hreaps]
    exact hs.reaped
  · rw [hreaps]
    exact hs.reaps_nodup

theorem Records.exit (hs : Records s) {p : Slot} {status : Int}
    (hrun : (s.proc p).state = .running)
    (ht : t.proc = Function.update s.proc p { s.proc p with xstate := status, state := .zombie })
    (hexits : t.exits = (s.recordExit p status).exits) (hreaps : t.reaps = s.reaps)
    (hnext : t.nextSerial = s.nextSerial) : Records t := by
  have hself : (t.proc p).state = .zombie ∧ (t.proc p).serial = (s.proc p).serial ∧
      (t.proc p).exit = ⟨(s.proc p).serial, (s.proc p).pid, status⟩ := by
    rw [ht, Function.update_self]
    exact ⟨rfl, rfl, rfl⟩
  have hother : ∀ r, r ≠ p → t.proc r = s.proc r := fun r hr => by
    rw [ht, Function.update_of_ne hr]
  have hp : (s.proc p).state ≠ .unused ∧ (s.proc p).state ≠ .zombie := by simp [hrun]
  have hserial : ∀ r, (t.proc r).serial = (s.proc r).serial := by
    intro r
    by_cases hr : r = p
    · rw [hr, hself.2.1]
    · rw [hother r hr]
  have hunused : ∀ r, (t.proc r).state ≠ .unused → (s.proc r).state ≠ .unused := by
    intro r hr
    by_cases hrp : r = p
    · rw [hrp]
      exact hp.1
    · rwa [← hother r hrp]
  have hmem : ∀ e, e ∈ t.exits ↔ e ∈ s.exits ∨ e = (t.proc p).exit := by
    intro e
    simp [hexits, State.recordExit, hself.2.2]
  refine ⟨?_, ?_, ?_, ?_, ?_, ?_, ?_, ?_, ?_, ?_⟩
  · intro r hr
    rw [hserial, hnext]
    exact hs.serial_lt r (hunused r hr)
  · intro r r' hr hr' heq
    rw [hserial, hserial] at heq
    exact hs.serial_inj r r' (hunused r hr) (hunused r' hr') heq
  · intro e he
    rw [hnext]
    rcases (hmem e).mp he with he | rfl
    · exact hs.exits_lt e he
    · rw [hself.2.2]
      exact hs.serial_lt p hp.1
  · rw [hexits]
    simp only [State.recordExit, List.map_append, List.map_cons, List.map_nil]
    refine List.nodup_append.mpr ⟨hs.exits_nodup, List.nodup_singleton _, ?_⟩
    intro n hn m hm
    obtain ⟨e, he, rfl⟩ := List.mem_map.mp hn
    rw [List.mem_singleton.mp hm]
    exact hs.alive p hp.1 hp.2 e he
  · intro r hr hzombie e he
    have hrp : r ≠ p := by
      rintro rfl
      exact hzombie hself.1
    rw [hserial]
    rcases (hmem e).mp he with he | rfl
    · exact hs.alive r (hunused r hr) (hother r hrp ▸ hzombie) e he
    · rw [hself.2.2]
      exact fun heq => hrp (hs.serial_inj p r hp.1 (hunused r hr) heq).symm
  · intro r hzombie
    rw [hmem]
    by_cases hrp : r = p
    · exact .inr (by rw [hrp])
    · rw [hother r hrp] at hzombie ⊢
      exact .inl (hs.zombie r hzombie)
  · intro e he
    rw [hreaps]
    rcases (hmem e).mp he with he | rfl
    · refine (hs.exited e he).imp_right ?_
      rintro ⟨r, hzombie, heq⟩
      have hrp : r ≠ p := by
        rintro rfl
        exact hp.2 hzombie
      exact ⟨r, by rwa [hother r hrp], by rwa [hother r hrp]⟩
    · exact .inr ⟨p, hself.1, rfl⟩
  · intro r hr
    rw [hserial, hreaps]
    exact hs.unreaped r (hunused r hr)
  · rw [hreaps]
    exact fun r hr => (hmem _).mpr (.inl (hs.reaped r hr))
  · rw [hreaps]
    exact hs.reaps_nodup

theorem Records.reap (hs : Records s) {p q : Slot} (hzombie : (s.proc q).state = .zombie)
    (ht : t.proc = Function.update s.proc q (freeproc (s.proc q))) (hexits : t.exits = s.exits)
    (hreaps : t.reaps = (s.recordReap p q).reaps) (hnext : t.nextSerial = s.nextSerial) :
    Records t := by
  have hself : (t.proc q).state = .unused := by
    rw [ht, Function.update_self]
    rfl
  have hother : ∀ r, r ≠ q → t.proc r = s.proc r := fun r hr => by
    rw [ht, Function.update_of_ne hr]
  have hne : ∀ r, (t.proc r).state ≠ .unused → r ≠ q := by
    rintro r hr rfl
    exact hr hself
  have hq : (s.proc q).state ≠ .unused := by simp [hzombie]
  refine ⟨?_, ?_, ?_, ?_, ?_, ?_, ?_, ?_, ?_, ?_⟩
  · intro r hr
    have hrq := hne r hr
    rw [hother r hrq] at hr ⊢
    exact hnext ▸ hs.serial_lt r hr
  · intro r r' hr hr' heq
    have hrq := hne r hr
    have hrq' := hne r' hr'
    rw [hother r hrq] at hr heq
    rw [hother r' hrq'] at hr' heq
    exact hs.serial_inj r r' hr hr' heq
  · rw [hexits, hnext]
    exact hs.exits_lt
  · rw [hexits]
    exact hs.exits_nodup
  · intro r hr hzombie
    have hrq := hne r hr
    rw [hother r hrq] at hr hzombie ⊢
    exact hexits ▸ hs.alive r hr hzombie
  · intro r hzombie
    have hrq := hne r (by simp [hzombie])
    rw [hother r hrq] at hzombie ⊢
    exact hexits ▸ hs.zombie r hzombie
  · rw [hexits, hreaps]
    intro e he
    simp only [State.recordReap, List.mem_append, List.mem_singleton]
    rcases hs.exited e he with ⟨r, hr, heq⟩ | ⟨r, hr, heq⟩
    · exact .inl ⟨r, .inl hr, heq⟩
    · by_cases hrq : r = q
      · subst hrq
        exact .inl ⟨_, .inr rfl, congrArg Exit.serial heq⟩
      · exact .inr ⟨r, by rwa [hother r hrq], by rwa [hother r hrq]⟩
  · intro r hr e he
    have hrq := hne r hr
    rw [hother r hrq] at hr ⊢
    simp only [hreaps, State.recordReap, List.mem_append, List.mem_singleton] at he
    rcases he with he | rfl
    · exact hs.unreaped r hr e he
    · exact fun heq => hrq (hs.serial_inj q r hq hr heq).symm
  · rw [hexits, hreaps]
    intro r hr
    simp only [State.recordReap, List.mem_append, List.mem_singleton] at hr
    rcases hr with hr | rfl
    · exact hs.reaped r hr
    · exact hs.zombie q hzombie
  · rw [hreaps]
    simp only [State.recordReap, List.map_append, List.map_cons, List.map_nil]
    refine List.nodup_append.mpr ⟨hs.reaps_nodup, List.nodup_singleton _, ?_⟩
    intro n hn m hm
    obtain ⟨r, hr, rfl⟩ := List.mem_map.mp hn
    rw [List.mem_singleton.mp hm]
    exact hs.unreaped q hq r hr

theorem alike_update {q : Slot} {proc' : Proc} (h : Alike (s.proc q) proc')
    (ht : t.proc = Function.update s.proc q proc') (r : Slot) :
    Alike (s.proc r) (t.proc r) := by
  rw [ht]
  by_cases hr : r = q
  · subst hr
    rwa [Function.update_self]
  · rw [Function.update_of_ne hr]
    exact .refl _

theorem Records.move (hb : Base s) (hs : Records s) (h : Move s a t) : Records t := by
  cases hb.event h with
  | kept hsame hexits hreaps hnext =>
    exact hs.kept (fun q => .inl (hsame q).alike) hexits hreaps hnext
  | born hpc ht hexits hreaps hnext =>
    exact hs.born (hb.expects _ _ _ (congrArg Pc.expects hpc)) ht hexits hreaps hnext
  | parent _ ht hexits hreaps hnext | adopted _ _ _ ht hexits hreaps hnext =>
    refine hs.kept (fun r => .inl (alike_update ?_ ht r)) hexits hreaps hnext
    exact ⟨rfl, .rfl, .rfl, fun _ => rfl⟩
  | ready hpc ht hexits hreaps hnext =>
    have hq := hb.expects _ _ _ (congrArg Pc.expects hpc)
    refine hs.kept (fun r => .inl (alike_update ?_ ht r)) hexits hreaps hnext
    refine ⟨rfl, ?_, ?_, ?_⟩ <;> simp [hq]
  | @failed q hexpects ht hexits hreaps hnext =>
    have hq := hb.expects _ _ _ hexpects
    refine hs.kept (fun r => ?_) hexits hreaps hnext
    by_cases hr : r = q
    · subst hr
      refine .inr ⟨?_, by simp [hq]⟩
      rw [ht, Function.update_self]
      rfl
    · refine .inl ?_
      rw [ht, Function.update_of_ne hr]
      exact .refl _
  | exited hpc ht hexits hreaps hnext => exact hs.exit (hb.at hpc) ht hexits hreaps hnext
  | reaped hpc _ ht hexits hreaps hnext =>
    exact hs.reap (hb.expects _ _ _ (congrArg Pc.expects hpc)) ht hexits hreaps hnext

theorem Start.records (hs : Start s) : Records s := by
  have hinit : ∀ q, (s.proc q).state ≠ .unused → q = initproc := by
    intro q hq
    by_contra hne
    rw [hs.free q hne] at hq
    exact hq rfl
  have hzombie : ∀ q, (s.proc q).state ≠ .zombie := by
    intro q hq
    rw [hinit q (by simp [hq]), hs.init.1] at hq
    cases hq
  refine ⟨?_, ?_, ?_, ?_, ?_, ?_, ?_, ?_, ?_, ?_⟩
  · intro q hq
    rw [hinit q hq, hs.init.2.2.2, hs.nextSerial]
    decide
  · intro q q' hq hq' _
    rw [hinit q hq, hinit q' hq']
  · simp [hs.exits]
  · simp [hs.exits]
  · simp [hs.exits]
  · exact fun q hq => absurd hq (hzombie q)
  · simp [hs.exits]
  · simp [hs.reaps]
  · simp [hs.reaps]
  · simp [hs.reaps]

theorem Records.reach {allowed : State → Action → Prop} (h : system.Reach allowed (.ok s)) :
    Records s :=
  reach_invariant Records (fun _ => Start.records) (fun _ _ _ hreach hs _ =>
    hs.move (.reach hreach))
    h

end Xv6.Life
