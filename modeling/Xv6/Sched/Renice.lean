import Xv6.Sched.Killed

/-! `set_priority` as a whole. Its loop stops at the first slot with the given pid and
does not look at the state of the slot, so what it does depends on which pids the slots
can have: live processes have different ones, and a free slot has pid 0. -/
namespace Xv6.Sched

open Lib

/-- The loop of `set_priority` over the slots that are left: what it returns, and the table
after it. -/
def setPriorityLoop (pid priority : Int) : List Slot → (Slot → Proc) → Int × (Slot → Proc)
  | [], proc => (-1, proc)
  | q :: rest, proc =>
      if (proc q).pid = pid then
        (0, Function.update proc q { proc q with priority := priority })
      else setPriorityLoop pid priority rest proc

def setPriority (proc : Slot → Proc) (pid priority : Int) : Int × (Slot → Proc) :=
  if priority < 0 ∨ priority > 19 then (-1, proc)
  else setPriorityLoop pid priority (List.finRange nproc) proc

def Alive (proc : Slot → Proc) (pid : Int) (q : Slot) : Prop :=
  (proc q).state ≠ .unused ∧ (proc q).pid = pid

/-- `set_priority` finds the one process with this pid: it succeeds when the priority is in
range and there is such a process, changes only the priority of that process, and otherwise
returns -1 and changes nothing. -/
structure AddressesLive (proc : Slot → Proc) (pid priority : Int) : Prop where
  returns : (setPriority proc pid priority).1 = 0 ↔
    (0 ≤ priority ∧ priority ≤ 19) ∧ ∃ q, Alive proc pid q
  changes : (setPriority proc pid priority).1 = 0 → ∃ q, Alive proc pid q ∧
    (∀ r, Alive proc pid r → r = q) ∧ (setPriority proc pid priority).2 =
      Function.update proc q { proc q with priority := priority }
  fails : (setPriority proc pid priority).1 ≠ 0 → setPriority proc pid priority = (-1, proc)

section Loop

variable {proc : Slot → Proc} {pid priority : Int}

theorem setPriorityLoop_cases (slots : List Slot) :
    (∃ q ∈ slots, (proc q).pid = pid ∧ setPriorityLoop pid priority slots proc =
      (0, Function.update proc q { proc q with priority := priority })) ∨
    (∀ q ∈ slots, (proc q).pid ≠ pid) ∧ setPriorityLoop pid priority slots proc = (-1, proc) := by
  induction slots with
  | nil => exact Or.inr ⟨fun q hq => absurd hq List.not_mem_nil, rfl⟩
  | cons q rest ih =>
    rw [setPriorityLoop]
    by_cases hq : (proc q).pid = pid
    · rw [if_pos hq]
      exact Or.inl ⟨q, List.mem_cons_self, hq, rfl⟩
    · rw [if_neg hq]
      apply ih.imp
      · rintro ⟨r, hr, hpid, heq⟩
        exact ⟨r, List.mem_cons_of_mem _ hr, hpid, heq⟩
      · rintro ⟨hnone, heq⟩
        exact ⟨List.forall_mem_cons.mpr ⟨hq, hnone⟩, heq⟩

theorem setPriority_cases :
    (validPriority priority ∧ ∃ q, (proc q).pid = pid ∧ setPriority proc pid priority =
      (0, Function.update proc q { proc q with priority := priority })) ∨
    (¬validPriority priority ∨ ∀ q, (proc q).pid ≠ pid) ∧
      setPriority proc pid priority = (-1, proc) := by
  unfold setPriority
  by_cases hvalid : validPriority priority
  · rw [if_neg hvalid]
    apply (setPriorityLoop_cases (List.finRange nproc)).imp
    · rintro ⟨q, -, hpid, heq⟩
      exact ⟨hvalid, q, hpid, heq⟩
    · rintro ⟨hnone, heq⟩
      exact ⟨Or.inr fun q => hnone q (List.mem_finRange q), heq⟩
  · rw [if_pos (not_not.mp hvalid)]
    exact Or.inr ⟨Or.inl hvalid, rfl⟩

end Loop

variable {C : Type}

structure Pids (s : State C) : Prop where
  runs : ∀ {c i}, (s.cpu c).proc? = some i → (s.proc i).state = .running
  alone : ∀ {c c' i}, (s.cpu c).proc? = some i → (s.cpu c').proc? = some i → c = c'
  child : ∀ {i q}, (s.forking i).map Forking.child = some q → (s.proc q).state = .used
  parent : ∀ {i j q}, (s.forking i).map Forking.child = some q →
    (s.forking j).map Forking.child = some q → i = j
  next : 0 < s.nextpid
  free : ∀ {q}, (s.proc q).state = .unused → (s.proc q).pid = 0
  live : ∀ {q}, (s.proc q).state ≠ .unused → 0 < (s.proc q).pid ∧ (s.proc q).pid < s.nextpid
  unique : ∀ {q r}, (s.proc q).state ≠ .unused → (s.proc r).state ≠ .unused →
    (s.proc q).pid = (s.proc r).pid → q = r

theorem pids_initial : Pids (initial : State C) where
  runs h := by cases h
  alone h := by cases h
  child h := by cases h
  parent h := by cases h
  next := by simp [initial]
  free {q} h := by
    by_cases hq : q = initproc
    · simp [initial, hq] at h
    · simp [initial, hq, Proc.empty]
  live {q} h := by
    by_cases hq : q = initproc
    · simp [initial, hq, Proc.found]
    · simp [initial, hq, Proc.empty] at h
  unique {q r} hq hr _ := by
    have honly : ∀ q, ((initial : State C).proc q).state ≠ .unused → q = initproc := by
      intro q hq
      by_contra hne
      simp [initial, hne, Proc.empty] at hq
    rw [honly q hq, honly r hr]

section Step

variable {s t : State C}

theorem Pids.same (hs : Pids s) (hpid : ∀ q, (t.proc q).pid = (s.proc q).pid)
    (hunused : ∀ q, (t.proc q).state = .unused ↔ (s.proc q).state = .unused)
    (hnext : t.nextpid = s.nextpid) (hruns : ∀ {c i}, (t.cpu c).proc? = some i →
      (t.proc i).state = .running) (halone : ∀ {c c' i}, (t.cpu c).proc? = some i →
      (t.cpu c').proc? = some i → c = c')
    (hchild : ∀ {i q}, (t.forking i).map Forking.child = some q → (t.proc q).state = .used)
    (hparent : ∀ {i j q}, (t.forking i).map Forking.child = some q →
      (t.forking j).map Forking.child = some q → i = j) : Pids t where
  runs := hruns
  alone := halone
  child := hchild
  parent := hparent
  next := hnext ▸ hs.next
  free {q} h := (hpid q).trans (hs.free ((hunused q).mp h))
  live {q} h := by
    rw [hpid, hnext]
    exact hs.live fun hfree => h ((hunused q).mpr hfree)
  unique {q r} hq hr heq := by
    rw [hpid, hpid] at heq
    exact hs.unique (fun h => hq ((hunused q).mpr h)) (fun h => hr ((hunused r).mpr h)) heq

theorem Pids.freed (hs : Pids s) {q : Slot} (hstate : (s.proc q).state ≠ .running)
    (hproc : t.proc = Function.update s.proc q (freeproc (s.proc q))) (hcpu : t.cpu = s.cpu)
    (hnext : t.nextpid = s.nextpid) (hforking : ∀ {i r},
      (t.forking i).map Forking.child = some r →
        r ≠ q ∧ (s.forking i).map Forking.child = some r) : Pids t := by
  have hself : t.proc q = freeproc (s.proc q) := by rw [hproc, Function.update_self]
  have hother : ∀ r, r ≠ q → t.proc r = s.proc r := fun r hr => by
    rw [hproc, Function.update_of_ne hr]
  have hused : ∀ r, (t.proc r).state ≠ .unused → r ≠ q := by
    rintro r hr rfl
    rw [hself] at hr
    exact hr rfl
  constructor
  · intro c i hi
    rw [hcpu] at hi
    have hrun := hs.runs hi
    have hne : i ≠ q := fun h => hstate (h ▸ hrun)
    rw [hother i hne]
    exact hrun
  · intro c c' i hi hi'
    rw [hcpu] at hi hi'
    exact hs.alone hi hi'
  · intro i r hr
    obtain ⟨hne, hold⟩ := hforking hr
    rw [hother r hne]
    exact hs.child hold
  · intro i j r hr hr'
    exact hs.parent (hforking hr).2 (hforking hr').2
  · rw [hnext]
    exact hs.next
  · intro r hr
    by_cases hne : r = q
    · rw [hne, hself]
      rfl
    · rw [hother r hne] at hr ⊢
      exact hs.free hr
  · intro r hr
    have hne := hused r hr
    rw [hother r hne] at hr ⊢
    rw [hnext]
    exact hs.live hr
  · intro r r' hr hr' heq
    have hne := hused r hr
    have hne' := hused r' hr'
    rw [hother r hne] at hr heq
    rw [hother r' hne'] at hr' heq
    exact hs.unique hr hr' heq

theorem Pids.quiet (hs : Pids s) (hproc : ∀ q, (t.proc q).pid = (s.proc q).pid ∧
      ((t.proc q).state = (s.proc q).state ∨
        (s.proc q).state = .sleeping ∧ (t.proc q).state = .runnable))
    (hcpu : ∀ c, (t.cpu c).proc? = (s.cpu c).proc?)
    (hforking : ∀ i, (t.forking i).map Forking.child = (s.forking i).map Forking.child)
    (hnext : t.nextpid = s.nextpid) : Pids t := by
  have hkeep : ∀ q state, (s.proc q).state = state → state ≠ .sleeping →
      (t.proc q).state = state := by
    rintro q state rfl hne
    exact (hproc q).2.resolve_right fun h => hne h.1
  refine hs.same (fun q => (hproc q).1) (fun q => ?_) hnext ?_ ?_ ?_ ?_
  · rcases (hproc q).2 with heq | ⟨hold, hnew⟩
    · rw [heq]
    · rw [hold, hnew]
      decide
  · intro c i hi
    rw [hcpu] at hi
    exact hkeep i _ (hs.runs hi) (by decide)
  · intro c c' i hi hi'
    rw [hcpu] at hi hi'
    exact hs.alone hi hi'
  · intro i q hq
    rw [hforking] at hq
    exact hkeep q _ (hs.child hq) (by decide)
  · intro i j q hq hq'
    rw [hforking] at hq hq'
    exact hs.parent hq hq'

theorem Pids.dispatch (hs : Pids s) {c : C} {i : Slot} (hready : (s.proc i).state = .runnable)
    (hproc : ∀ q, (t.proc q).pid = (s.proc q).pid ∧
      (t.proc q).state = if q = i then .running else (s.proc q).state)
    (hcpu : ∀ c' j, (t.cpu c').proc? = some j → c' = c ∧ j = i ∨ (s.cpu c').proc? = some j)
    (hforking : t.forking = s.forking) (hnext : t.nextpid = s.nextpid) : Pids t := by
  have hnot : ∀ c', (s.cpu c').proc? ≠ some i := by
    intro c' hc'
    have := hs.runs hc'
    rw [hready] at this
    cases this
  refine hs.same (fun q => (hproc q).1) (fun q => ?_) hnext ?_ ?_ ?_ ?_
  · rw [(hproc q).2]
    split
    · rename_i hq
      rw [hq, hready]
      decide
    · rfl
  · intro c' j hj
    rw [(hproc j).2]
    rcases hcpu c' j hj with ⟨-, rfl⟩ | hold
    · exact if_pos rfl
    · rw [if_neg]
      · exact hs.runs hold
      · rintro rfl
        exact hnot c' hold
  · intro c₁ c₂ j hj hj'
    rcases hcpu c₁ j hj with ⟨rfl, rfl⟩ | hold
    · rcases hcpu c₂ j hj' with ⟨rfl, -⟩ | hold'
      · rfl
      · exact absurd hold' (hnot c₂)
    · rcases hcpu c₂ j hj' with ⟨-, rfl⟩ | hold'
      · exact absurd hold (hnot c₁)
      · exact hs.alone hold hold'
  · intro j q hq
    rw [hforking] at hq
    have hused := hs.child hq
    rw [(hproc q).2, if_neg]
    · exact hused
    · rintro rfl
      rw [hready] at hused
      cases hused
  · intro j k q hq hq'
    rw [hforking] at hq hq'
    exact hs.parent hq hq'

theorem Pids.leave (hs : Pids s) {c : C} {i : Slot} {state : ProcState}
    (hi : (s.cpu c).proc? = some i) (hstate : state ≠ .unused)
    (hproc : ∀ q, (t.proc q).pid = (s.proc q).pid ∧
      (t.proc q).state = if q = i then state else (s.proc q).state)
    (hcpu : ∀ c' j, (t.cpu c').proc? = some j → c' ≠ c ∧ (s.cpu c').proc? = some j)
    (hforking : t.forking = s.forking) (hnext : t.nextpid = s.nextpid) : Pids t := by
  have hrun := hs.runs hi
  refine hs.same (fun q => (hproc q).1) (fun q => ?_) hnext ?_ ?_ ?_ ?_
  · rw [(hproc q).2]
    split
    · rename_i hq
      rw [hq, hrun]
      exact ⟨fun h => absurd h hstate, fun h => by cases h⟩
    · rfl
  · intro c' j hj
    obtain ⟨hne, hold⟩ := hcpu c' j hj
    rw [(hproc j).2, if_neg]
    · exact hs.runs hold
    · rintro rfl
      exact hne (hs.alone hold hi)
  · intro c₁ c₂ j hj hj'
    exact hs.alone (hcpu c₁ j hj).2 (hcpu c₂ j hj').2
  · intro j q hq
    rw [hforking] at hq
    have hused := hs.child hq
    rw [(hproc q).2, if_neg]
    · exact hused
    · rintro rfl
      rw [hrun] at hused
      cases hused
  · intro j k q hq hq'
    rw [hforking] at hq hq'
    exact hs.parent hq hq'

theorem Pids.born (hs : Pids s) {i q : Slot} (hunused : (s.proc q).state = .unused)
    (hproc : t.proc = Function.update s.proc q ((s.proc q).found s.nextpid))
    (hcpu : t.cpu = s.cpu) (hforking : t.forking = Function.update s.forking i (some ⟨q, false⟩))
    (hnext : t.nextpid = s.nextpid + 1) : Pids t := by
  have hself : t.proc q = (s.proc q).found s.nextpid := by rw [hproc, Function.update_self]
  have hother : ∀ r, r ≠ q → t.proc r = s.proc r := fun r hr => by
    rw [hproc, Function.update_of_ne hr]
  have hchildren : ∀ {j r}, (t.forking j).map Forking.child = some r →
      j = i ∧ r = q ∨ j ≠ i ∧ (s.forking j).map Forking.child = some r := by
    intro j r hr
    rw [hforking] at hr
    by_cases hj : j = i
    · rw [hj, Function.update_self] at hr
      exact Or.inl ⟨hj, (Option.some.inj hr).symm⟩
    · rw [Function.update_of_ne hj] at hr
      exact Or.inr ⟨hj, hr⟩
  have hnotchild : ∀ {j}, (s.forking j).map Forking.child ≠ some q := by
    intro j hj
    have := hs.child hj
    rw [hunused] at this
    cases this
  constructor
  · intro c j hj
    rw [hcpu] at hj
    have hrun := hs.runs hj
    rw [hother j]
    · exact hrun
    · rintro rfl
      rw [hunused] at hrun
      cases hrun
  · intro c c' j hj hj'
    rw [hcpu] at hj hj'
    exact hs.alone hj hj'
  · intro j r hr
    rcases hchildren hr with ⟨-, rfl⟩ | ⟨-, hold⟩
    · rw [hself]
      rfl
    · rw [hother r fun h => hnotchild (h ▸ hold)]
      exact hs.child hold
  · intro j k r hr hr'
    rcases hchildren hr with ⟨rfl, rfl⟩ | ⟨-, hold⟩
    · rcases hchildren hr' with ⟨rfl, -⟩ | ⟨-, hold'⟩
      · rfl
      · exact absurd hold' hnotchild
    · rcases hchildren hr' with ⟨-, rfl⟩ | ⟨-, hold'⟩
      · exact absurd hold hnotchild
      · exact hs.parent hold hold'
  · rw [hnext]
    exact Int.lt_add_one_iff.mpr (Int.le_of_lt hs.next)
  · intro r hr
    by_cases hne : r = q
    · rw [hne, hself] at hr
      cases hr
    · rw [hother r hne] at hr ⊢
      exact hs.free hr
  · intro r hr
    rw [hnext]
    by_cases hne : r = q
    · rw [hne, hself]
      exact ⟨hs.next, Int.lt_succ _⟩
    · rw [hother r hne] at hr ⊢
      have := hs.live hr
      omega
  · intro r r' hr hr' heq
    have hlow : ∀ r, r ≠ q → (t.proc r).state ≠ .unused → (t.proc r).pid ≠ (t.proc q).pid := by
      intro r hne hr heq
      rw [hother r hne] at hr heq
      have := (hs.live hr).2
      rw [hself] at heq
      rw [heq] at this
      exact Int.lt_irrefl _ this
    by_cases hrq : r = q
    · by_cases hrq' : r' = q
      · rw [hrq, hrq']
      · rw [hrq] at heq
        exact absurd heq.symm (hlow r' hrq' hr')
    · by_cases hrq' : r' = q
      · rw [hrq'] at heq
        exact absurd heq (hlow r hrq hr)
      · rw [hother r hrq] at hr heq
        rw [hother r' hrq'] at hr' heq
        exact hs.unique hr hr' heq

theorem Pids.ready (hs : Pids s) {i : Slot} {f : Forking} (hf : s.forking i = some f)
    (hproc : t.proc = Function.update s.proc f.child { s.proc f.child with state := .runnable })
    (hcpu : t.cpu = s.cpu) (hforking : t.forking = Function.update s.forking i none)
    (hnext : t.nextpid = s.nextpid) : Pids t := by
  have hchild : (s.forking i).map Forking.child = some f.child := by rw [hf]; rfl
  have hused := hs.child hchild
  have hchildren : ∀ {j r}, (t.forking j).map Forking.child = some r →
      (s.forking j).map Forking.child = some r ∧ r ≠ f.child := by
    intro j r hr
    rw [hforking] at hr
    by_cases hj : j = i
    · rw [hj, Function.update_self] at hr
      cases hr
    · rw [Function.update_of_ne hj] at hr
      exact ⟨hr, fun h => hj (hs.parent (h ▸ hr) hchild)⟩
  have hother : ∀ r, r ≠ f.child → t.proc r = s.proc r := fun r hr => by
    rw [hproc, Function.update_of_ne hr]
  have hself : t.proc f.child = { s.proc f.child with state := .runnable } := by
    rw [hproc, Function.update_self]
  refine hs.same (fun q => ?_) (fun q => ?_) hnext ?_ ?_ ?_ ?_
  · by_cases hq : q = f.child
    · rw [hq, hself]
    · rw [hother q hq]
  · by_cases hq : q = f.child
    · rw [hq, hself, hused]
      exact ⟨fun h => (by cases h), fun h => (by cases h)⟩
    · rw [hother q hq]
  · intro c j hj
    rw [hcpu] at hj
    have hrun := hs.runs hj
    rw [hother j]
    · exact hrun
    · rintro rfl
      rw [hused] at hrun
      cases hrun
  · intro c c' j hj hj'
    rw [hcpu] at hj hj'
    exact hs.alone hj hj'
  · intro j r hr
    obtain ⟨hold, hne⟩ := hchildren hr
    rw [hother r hne]
    exact hs.child hold
  · intro j k r hr hr'
    exact hs.parent (hchildren hr).1 (hchildren hr').1

theorem Pids.fail (hs : Pids s) {i : Slot} {f : Forking} (hf : s.forking i = some f)
    (hproc : t.proc = Function.update s.proc f.child (freeproc (s.proc f.child)))
    (hcpu : t.cpu = s.cpu) (hforking : t.forking = Function.update s.forking i none)
    (hnext : t.nextpid = s.nextpid) : Pids t := by
  have hchild : (s.forking i).map Forking.child = some f.child := by rw [hf]; rfl
  refine hs.freed ?_ hproc hcpu hnext ?_
  · rw [hs.child hchild]
    decide
  · intro j r hr
    rw [hforking] at hr
    by_cases hj : j = i
    · rw [hj, Function.update_self] at hr
      cases hr
    · rw [Function.update_of_ne hj] at hr
      exact ⟨fun h => hj (hs.parent (h ▸ hr) hchild), hr⟩

theorem Pids.reap (hs : Pids s) {q : Slot} (hzombie : (s.proc q).state = .zombie)
    (hproc : t.proc = Function.update s.proc q (freeproc (s.proc q))) (hcpu : t.cpu = s.cpu)
    (hforking : t.forking = s.forking) (hnext : t.nextpid = s.nextpid) : Pids t := by
  refine hs.freed ?_ hproc hcpu hnext ?_
  · rw [hzombie]
    decide
  · intro j r hr
    rw [hforking] at hr
    refine ⟨?_, hr⟩
    rintro rfl
    have := hs.child hr
    rw [hzombie] at this
    cases this

theorem Pids.touch (hs : Pids s) {i : Slot} {p : Proc} (hpid : p.pid = (s.proc i).pid)
    (hstate : p.state = (s.proc i).state ∨ (s.proc i).state = .sleeping ∧ p.state = .runnable) :
    Pids (s.setProc i p) := by
  refine hs.quiet (fun q => ?_) (fun _ => rfl) (fun _ => rfl) rfl
  by_cases hq : q = i
  · subst hq
    simpa [State.setProc] using ⟨hpid, hstate⟩
  · simp [State.setProc, hq]

variable [DecidableEq C]

theorem Pids.scan (hs : Pids s) {c : C} {cpu : Cpu} (hscan : (s.cpu c).proc? = none)
    (hcpu : cpu.proc? = none) : Pids (s.setCpu c cpu) := by
  refine hs.quiet (fun _ => ⟨rfl, Or.inl rfl⟩) (fun c' => ?_) (fun _ => rfl) rfl
  by_cases hc : c' = c
  · subst hc
    simp [State.setCpu, hscan, hcpu]
  · simp [State.setCpu, hc]

theorem Pids.sched {s' : State C} (hs : Pids s) {c : C} {i : Slot} {highest : Int} {p : Proc}
    (hcpu : s.cpu c = .running i highest) (hproc : ∀ q, (s'.proc q).pid = (s.proc q).pid ∧
      (s'.proc q).state = (s.proc q).state) (hcpus : s'.cpu = s.cpu)
    (hforking : s'.forking = s.forking) (hnextpid : s'.nextpid = s.nextpid)
    (hpid : p.pid = (s.proc i).pid) (hstate : p.state ≠ .unused) :
    Pids (s'.sched c i highest p) := by
  refine hs.leave (show (s.cpu c).proc? = some i by rw [hcpu]; rfl) hstate (fun q => ?_)
    (fun c' j hj => ?_)
    hforking hnextpid
  · by_cases hq : q = i
    · subst hq
      simp [State.sched, State.setCpu, State.setProc, hpid]
    · simp [State.sched, State.setCpu, State.setProc, hq, hproc q]
  · by_cases hc : c' = c
    · subst hc
      simp [State.sched, State.setCpu, Cpu.proc?] at hj
    · simp only [State.sched, State.setCpu, State.setProc, Function.update_of_ne hc, hcpus] at hj
      exact ⟨hc, hj⟩

theorem Pids.taken (hs : Pids s) {c : C} {i : Slot} {highest : Int}
    (hready : (s.proc i).state = .runnable) :
    Pids ((s.setProc i (s.proc i).dispatch).setCpu c (.running i highest)) := by
  refine hs.dispatch hready (fun q => ?_) (fun c' j hj => (?_ : c' = c ∧ _ ∨ _)) rfl rfl
  · by_cases hq : q = i
    · subst hq
      simp [State.setCpu, State.setProc, Proc.dispatch]
    · simp [State.setCpu, State.setProc, hq]
  · by_cases hc : c' = c
    · subst hc
      simp only [State.setCpu, Function.update_self, Cpu.proc?, Option.some.injEq] at hj
      exact Or.inl ⟨rfl, hj.symm⟩
    · simp only [State.setCpu, State.setProc, Function.update_of_ne hc] at hj
      exact Or.inr hj

omit [DecidableEq C] in
theorem Pids.parented (hs : Pids s) {i : Slot} {f : Forking} (hf : s.forking i = some f) :
    Pids ((s.setProc f.child { s.proc f.child with parent := some i }).setForking i
      (some { f with parented := true })) := by
  refine hs.quiet (fun q => ?_) (fun _ => rfl) (fun j => ?_) rfl
  · by_cases hq : q = f.child
    · subst hq
      simp [State.setForking, State.setProc]
    · simp [State.setForking, State.setProc, hq]
  · by_cases hj : j = i
    · subst hj
      simp [State.setForking, hf]
    · simp [State.setForking, State.setProc, hj]

theorem Pids.move {a : Action C} (hs : Pids s) (h : Move s a t) : Pids t := by
  cases h with
  | look _ hcpu | chosen _ hcpu | skip _ hcpu | done _ hcpu =>
    exact hs.scan (by rw [hcpu]; rfl) rfl
  | dispatch _ hready => exact hs.taken hready
  | yield hcpu | sleep hcpu =>
    exact hs.sched hcpu (fun _ => ⟨rfl, rfl⟩) rfl rfl rfl rfl (by simp)
  | @exit c i _ _ hcpu =>
    have hsame : ∀ q, ((s.reparent i).proc q).pid = (s.proc q).pid ∧
        ((s.reparent i).proc q).state = (s.proc q).state := by
      intro q
      simp only [State.reparent]
      split <;> exact ⟨rfl, rfl⟩
    exact hs.sched hcpu hsame rfl rfl rfl (hsame i).1 (by simp)
  | wakeup =>
    unfold Proc.wakeup
    split
    · rename_i hsleeping
      exact hs.touch rfl (Or.inr ⟨hsleeping.1, rfl⟩)
    · exact hs.touch rfl (Or.inl rfl)
  | @kkill _ _ q =>
    unfold Proc.kill
    split
    · by_cases hsleeping : (s.proc q).state = .sleeping
      · exact hs.touch rfl (Or.inr ⟨hsleeping, if_pos hsleeping⟩)
      · exact hs.touch rfl (Or.inl (if_neg hsleeping))
    · exact hs.touch rfl (Or.inl rfl)
  | setPriority =>
    unfold Proc.setPriority
    split <;> exact hs.touch rfl (Or.inl rfl)
  | allocproc _ _ hunused => exact hs.born hunused rfl rfl rfl rfl
  | forkFail _ hf => exact hs.fail hf rfl rfl rfl rfl
  | forkParent _ hf => exact hs.parented hf
  | forkDone _ hf => exact hs.ready hf rfl rfl rfl rfl
  | reap _ hzombie => exact hs.reap hzombie rfl rfl rfl rfl

end Step

variable [DecidableEq C]

theorem Pids.step {s t : State C} {a : Action C} (hs : Pids s) (ha : enabled s a)
    (h : exec s a = .ok t) : Pids t := by
  obtain ⟨u, hmove, rfl⟩ := move_of_exec ha h
  have hu := hs.move hmove
  exact ⟨hu.runs, hu.alone, hu.child, hu.parent, hu.next, hu.free, hu.live, hu.unique⟩

def PidsLeft (s : State C) (_ : Action C) : Prop := s.nextpid < 2147483647

omit [DecidableEq C] in
theorem Pids.addressesLive {s : State C} (hs : Pids s) {pid priority : Int}
    (h : pid ≠ 0 ∨ ¬validPriority priority ∨ ∀ q, (s.proc q).state ≠ .unused) :
    AddressesLive s.proc pid priority := by
  have hrange : validPriority priority ↔ 0 ≤ priority ∧ priority ≤ 19 := by
    unfold validPriority
    omega
  rcases @setPriority_cases s.proc pid priority with
    ⟨hvalid, q, hq, heq⟩ | ⟨hnone, heq⟩
  · have hlive : Alive s.proc pid q := by
      refine ⟨fun hfree => ?_, hq⟩
      rcases h with hpid | hinvalid | hfull
      · exact hpid (hq ▸ hs.free hfree)
      · exact hinvalid hvalid
      · exact hfull q hfree
    refine ⟨?_, fun _ => ⟨q, hlive, fun r hr => ?_, by rw [heq]⟩, fun hne => absurd ?_ hne⟩
    · exact ⟨fun _ => ⟨hrange.mp hvalid, q, hlive⟩, fun _ => by rw [heq]⟩
    · exact hs.unique hr.1 hlive.1 (hr.2.trans hq.symm)
    · rw [heq]
  · have hfail : (setPriority s.proc pid priority).1 ≠ 0 := by
      rw [heq]
      exact (by decide : (-1 : Int) ≠ 0)
    refine ⟨⟨fun hret => absurd hret hfail, ?_⟩, fun hret => absurd hret hfail, fun _ => heq⟩
    rintro ⟨hvalid, q, hlive⟩
    exact absurd hlive.2 (hnone.resolve_left (not_not.mpr (hrange.mpr hvalid)) q)

omit [DecidableEq C] in
/-- With pid 0 and a priority in range the loop stops at a free slot if there is one. -/
theorem Pids.not_addressesLive {s : State C} (hs : Pids s) {priority : Int}
    (hvalid : validPriority priority) {q : Slot} (hfree : (s.proc q).state = .unused) :
    ¬AddressesLive s.proc 0 priority := by
  intro h
  have hret : (setPriority s.proc 0 priority).1 = 0 := by
    rcases @setPriority_cases s.proc 0 priority with ⟨-, r, -, heq⟩ | ⟨hnone, -⟩
    · rw [heq]
    · exact absurd (hs.free hfree) (hnone.resolve_left (not_not.mpr hvalid) q)
  obtain ⟨-, r, hused, hzero⟩ := h.returns.mp hret
  have := (hs.live hused).1
  omega

/-- `set_priority` finds the one process with the pid it is given, except that pid 0 with a
priority in range finds a free slot as long as there is one. -/
theorem set_priority_addresses_live {s : State C} (h : (system C).Reach PidsLeft (.ok s))
    (pid priority : Int) : AddressesLive s.proc pid priority ↔
      pid ≠ 0 ∨ ¬validPriority priority ∨ ∀ q, (s.proc q).state ≠ .unused := by
  have hs : Pids s := h.invariant_ok Pids (fun _ h => h ▸ pids_initial)
    fun _ _ _ hs ha _ hexec => hs.step ha hexec
  refine ⟨fun hlive => ?_, hs.addressesLive⟩
  by_contra hno
  push Not at hno
  obtain ⟨rfl, hvalid, q, hfree⟩ := hno
  exact hs.not_addressesLive hvalid hfree hlive

/-- Pid 0 is that of every free slot: the call succeeds, and changes a slot that no process
has. -/
theorem set_priority_zero_succeeds : (system (Fin 1)).Reachable (.ok initial) ∧
    (∀ q, ¬Alive (initial : State (Fin 1)).proc 0 q) ∧
    (setPriority (initial : State (Fin 1)).proc 0 5).1 = 0 ∧
    ((initial : State (Fin 1)).proc slotA).state = .unused ∧
    ((initial : State (Fin 1)).proc slotA).priority ≠ 5 ∧
    ((setPriority (initial : State (Fin 1)).proc 0 5).2 slotA).priority = 5 := by
  refine ⟨.init rfl, ?_, by decide +kernel, by decide, by decide, by decide +kernel⟩
  unfold Alive
  decide +kernel

section Sample

instance (s : State C) (a : Action C) : Decidable (PidsLeft s a) :=
  inferInstanceAs (Decidable (_ < _))

def observeForked (s : State (Fin 1)) : ProcState × ProcState × Int × ProcState :=
  ((s.proc initproc).state, (s.proc slotA).state, (s.proc slotA).pid, (s.proc slotB).state)

theorem forked_observed : (system (Fin 1)).observed PidsLeft observeForked initial
    (startRun ++ [.allocproc 0 slotA, .forkParent 0, .forkDone 0]) =
      some (.running, .runnable, 2, .unused) := by
  decide +kernel

end Sample

theorem set_priority_addresses_child : ∃ s : State (Fin 1),
    (system (Fin 1)).Reach PidsLeft (.ok s) ∧ Alive s.proc 2 slotA ∧
    (setPriority s.proc 2 5).1 = 0 ∧ ((setPriority s.proc 2 5).2 slotA).priority = 5 ∧
    setPriority s.proc 2 20 = (-1, s.proc) ∧ ¬AddressesLive s.proc 0 5 := by
  obtain ⟨s, hreach, hobserved⟩ := System.Reach.of_observed (.init rfl) forked_observed
  simp only [observeForked, Prod.mk.injEq] at hobserved
  obtain ⟨-, hrunnable, hpid, hfree⟩ := hobserved
  have hchild : Alive s.proc 2 slotA := ⟨by rw [hrunnable]; decide, hpid⟩
  have hfive := (set_priority_addresses_live hreach 2 5).mpr (Or.inl (by decide))
  have htwenty := (set_priority_addresses_live hreach 2 20).mpr (Or.inl (by decide))
  have hret : (setPriority s.proc 2 5).1 = 0 := hfive.returns.mpr ⟨by decide, slotA, hchild⟩
  obtain ⟨q, -, hunique, hnew⟩ := hfive.changes hret
  refine ⟨s, hreach, hchild, hret, ?_, ?_, fun hzero => ?_⟩
  · rw [hnew, hunique slotA hchild, Function.update_self]
  · apply htwenty.fails
    rw [ne_eq, htwenty.returns]
    rintro ⟨hrange, -⟩
    exact absurd hrange (by decide)
  · rcases (set_priority_addresses_live hreach 0 5).mp hzero with h | h | h
    · exact h rfl
    · exact h (by decide)
    · exact h slotB hfree

end Xv6.Sched
