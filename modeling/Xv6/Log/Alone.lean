import Xv6.Log.Effect

/-! `commit` as the only user of the buffers. What the code may rely on at each
of its calls is collected in one predicate over the calls still to be made:
which buffers it holds, that a home block only ever receives its own contents,
and only once the on-disk header lists it, and that a buffer is given up clean
or pinned. -/
namespace Xv6.Log

open Lib.Writes

variable (start : Nat)

/-- The remaining calls are safe from machine `m` with these blocks' buffers
held; `goal` gives the contents of home blocks. -/
def Safe (goal : Nat → Block) : Machine → List Nat → List Call → Prop
  | m, held, [] => held = [] ∧ m.lh = [] ∧ m.read = m.disk
  | m, held, .bread b :: rest =>
      b ∉ held ∧ Safe goal (exec start m (.bread b)) (b :: held) rest
  | m, held, .memmove dst src :: rest =>
      dst ∈ held ∧ src ∈ held ∧ (IsHome start dst → m.read src = goal dst) ∧
      Safe goal (exec start m (.memmove dst src)) held rest
  | m, held, .fillHead :: rest =>
      start ∈ held ∧ Safe goal (exec start m .fillHead) held rest
  | m, held, .bwrite b :: rest =>
      b ∈ held ∧ (IsHome start b → b ∈ m.lh ∧ readHead (m.disk start) = m.lh) ∧
      Safe goal (exec start m (.bwrite b)) held rest
  | m, held, .bunpin b :: rest =>
      b ∈ held ∧ b ∈ m.lh ∧ m.read b = m.disk b ∧ .bunpin b ∉ rest ∧ Safe goal m held rest
  | m, held, .brelse b :: rest =>
      b ∈ held ∧ (m.read b = m.disk b ∨ b ∈ m.lh ∧ .bunpin b ∈ rest) ∧
      Safe goal m (held.erase b) rest
  | m, held, .resetHead :: rest =>
      (∀ b, .bunpin b ∉ rest) ∧ Safe goal (exec start m .resetHead) held rest

variable {start} {goal : Nat → Block}

theorem disk_bwrite_self (m : Machine) (b : Nat) :
    (exec start m (.bwrite b)).disk b = m.read b := by
  simp [exec]

theorem safe_writeHead {m : Machine} {rest : List Call}
    (h : Safe start goal (run start m (writeHead start)) [] rest) :
    Safe start goal m [] (writeHead start ++ rest) := by
  have hhead : ¬IsHome start start := fun h => h.ne_start rfl
  simp only [writeHead, List.cons_append, List.nil_append, Safe, List.not_mem_nil,
    not_false_eq_true, List.mem_singleton, true_and, hhead, false_implies, List.erase_cons_head]
  exact ⟨Or.inl (by simp [disk_bwrite_self]), h⟩

theorem safe_writeLogFrom {m : Machine} {tail : Nat} {blocks : List Nat} {rest : List Call}
    (hhome : ∀ b ∈ blocks, IsHome start b) (hroom : tail + blocks.length ≤ logBlocks)
    (hpinned : ∀ b ∈ blocks, b ∈ m.lh ∧ .bunpin b ∈ rest)
    (h : Safe start goal (run start m (writeLogFrom start tail blocks)) [] rest) :
    Safe start goal m [] (writeLogFrom start tail blocks ++ rest) := by
  induction blocks generalizing m tail with
  | nil => exact h
  | cons blockno later ih =>
    rw [List.length_cons] at hroom
    have hblock := hhome blockno List.mem_cons_self
    have hslot : ¬IsHome start (start + tail + 1) := by
      unfold IsHome
      omega
    have hne : blockno ≠ start + tail + 1 := by
      rintro rfl
      exact hslot hblock
    have hrest := @ih (run start m [.bread (start + tail + 1), .bread blockno,
      .memmove (start + tail + 1) blockno, .bwrite (start + tail + 1), .brelse blockno,
      .brelse (start + tail + 1)]) (tail + 1)
      (fun b hb => hhome b (List.mem_cons_of_mem _ hb)) (by omega)
      (fun b hb => hpinned b (List.mem_cons_of_mem _ hb)) h
    obtain ⟨hlogged, hlater⟩ := hpinned blockno List.mem_cons_self
    have hpin : Call.bunpin blockno ∈ Call.brelse (start + tail + 1) ::
        (writeLogFrom start (tail + 1) later ++ rest) := by
      simp [hlater]
    simp only [writeLogFrom, List.cons_append, List.nil_append, Safe]
    refine ⟨by simp, by simpa using hne, ?_⟩
    refine ⟨by simp, by simp, fun h => absurd h hslot, ?_⟩
    refine ⟨by simp, fun h => absurd h hslot, ?_⟩
    refine ⟨by simp, Or.inr ⟨hlogged, hpin⟩, ?_⟩
    refine ⟨by simp, Or.inl (by simp [disk_bwrite_self]), ?_⟩
    simpa using hrest

theorem mem_installTransFrom_bunpin {b tail : Nat} {blocks : List Nat} :
    .bunpin b ∈ installTransFrom start false tail blocks ↔ b ∈ blocks := by
  induction blocks generalizing tail with
  | nil => simp [installTransFrom]
  | cons head later ih =>
    simp only [installTransFrom, Bool.false_eq_true, if_false, List.cons_append, List.nil_append,
      List.mem_cons, reduceCtorEq, Call.bunpin.injEq, false_or, ih]

theorem safe_installTransFrom {m : Machine} {tail : Nat} {updates : List (Nat × Block)}
    {rest : List Call} (hholds : LogHolds start m.read tail updates)
    (hhome : ∀ u ∈ updates, IsHome start u.1) (hroom : tail + updates.length ≤ logBlocks)
    (hnodup : (updates.map Prod.fst).Nodup) (hgoal : ∀ u ∈ updates, goal u.1 = u.2)
    (hlh : ∀ u ∈ updates, u.1 ∈ m.lh) (hhead : readHead (m.disk start) = m.lh)
    (hclean : ∀ b, ¬IsHome start b → m.read b = m.disk b)
    (hrest : ∀ b, .bunpin b ∉ rest)
    (h : Safe start goal
      (run start m (installTransFrom start false tail (updates.map Prod.fst))) [] rest) :
    Safe start goal m [] (installTransFrom start false tail (updates.map Prod.fst) ++ rest) := by
  induction updates generalizing m tail with
  | nil => exact h
  | cons update later ih =>
    obtain ⟨blockno, data⟩ := update
    obtain ⟨hcopy, hholds⟩ := hholds
    rw [List.length_cons] at hroom
    rw [List.map_cons, List.nodup_cons] at hnodup
    have hblock : IsHome start blockno := hhome (blockno, data) List.mem_cons_self
    have hdata : goal blockno = data := hgoal (blockno, data) List.mem_cons_self
    have hslot : ¬IsHome start (start + tail + 1) := by
      unfold IsHome
      omega
    have hne : blockno ≠ start + tail + 1 := by
      rintro rfl
      exact hslot hblock
    -- the machine after the home write differs from `m` at the home block only
    have hread : ∀ b, b ≠ blockno → (run start m [.bread (start + tail + 1), .bread blockno,
        .memmove blockno (start + tail + 1), .bwrite blockno]).read b = m.read b := by
      intro b hb
      simp [hb]
    have hdisk : ∀ b, b ≠ blockno → (run start m [.bread (start + tail + 1), .bread blockno,
        .memmove blockno (start + tail + 1), .bwrite blockno]).disk b = m.disk b := by
      intro b hb
      simp [exec, hb]
    have hlater := @ih (run start m [.bread (start + tail + 1), .bread blockno,
        .memmove blockno (start + tail + 1), .bwrite blockno]) (tail + 1)
      (hholds.congr start fun b hlow hhigh => hread b (by
        unfold IsHome at hblock
        omega))
      (fun u hu => hhome u (List.mem_cons_of_mem _ hu)) (by omega) hnodup.2
      (fun u hu => hgoal u (List.mem_cons_of_mem _ hu))
      (fun u hu => hlh u (List.mem_cons_of_mem _ hu))
      (by rw [hdisk start hblock.ne_start.symm, hhead]; rfl)
      (by
        intro b hb
        have hbne : b ≠ blockno := by
          rintro rfl
          exact hb hblock
        rw [hread b hbne, hdisk b hbne, hclean b hb])
      h
    have honce : Call.bunpin blockno ∉ installTransFrom start false (tail + 1)
        (later.map Prod.fst) ++ rest := by
      rw [List.mem_append, not_or]
      refine ⟨?_, hrest blockno⟩
      exact fun hb => hnodup.1 (mem_installTransFrom_bunpin.mp hb)
    simp only [List.map_cons, installTransFrom, Bool.false_eq_true, if_false, List.cons_append,
      List.nil_append, Safe]
    refine ⟨by simp, by simpa using hne, ?_⟩
    refine ⟨by simp, by simp, fun _ => by simp [hcopy, hdata], ?_⟩
    refine ⟨by simp, fun _ => ⟨hlh (blockno, data) List.mem_cons_self, hhead⟩, ?_⟩
    refine ⟨by simp, hlh (blockno, data) List.mem_cons_self, by simp [disk_bwrite_self],
      by simpa using honce, ?_⟩
    refine ⟨by simp, Or.inl ?_, ?_⟩
    · exact (hread _ hne.symm).trans ((hclean _ hslot).trans (hdisk _ hne.symm).symm)
    · refine ⟨by simp [hne], Or.inl (by simp [disk_bwrite_self]), ?_⟩
      simpa [hne] using hlater

theorem bunpin_mem_commit {b : Nat} {blocks : List Nat} (h : b ∈ blocks) :
    .bunpin b ∈ commit start blocks := by
  rw [commit_eq start (List.ne_nil_of_mem h)]
  simp [mem_installTransFrom_bunpin.mpr h]

/-- `commit` is safe from any machine whose buffers agree with the disk except
on the logged home blocks. -/
theorem safe_commit {m : Machine} (hnodup : m.lh.Nodup) (hhome : ∀ b ∈ m.lh, IsHome start b)
    (hroom : m.lh.length ≤ logBlocks) (hword : ∀ b ∈ m.lh, b < 2 ^ 32)
    (hgoal : ∀ b ∈ m.lh, goal b = m.read b) (hclean : ∀ b, b ∉ m.lh → m.read b = m.disk b) :
    Safe start goal m [] (commit start m.lh) := by
  by_cases hempty : m.lh = []
  · rw [hempty] at hclean ⊢
    exact ⟨rfl, hempty, funext fun b => hclean b List.not_mem_nil⟩
  -- the transaction being committed, with the contents its buffers hold
  let updates := m.lh.map fun b => (b, m.read b)
  have hkeys : updates.map Prod.fst = m.lh := by simp [updates, Function.comp_def]
  have hmem : ∀ u ∈ updates, u.1 ∈ m.lh ∧ m.read u.1 = u.2 := by
    intro u hu
    obtain ⟨b, hb, rfl⟩ := List.mem_map.mp hu
    exact ⟨hb, rfl⟩
  have hlen : updates.length = m.lh.length := by simp [updates]
  have hne : updates ≠ [] := by simpa [updates] using hempty
  have hdata : m.lh.map m.read = updates.map Prod.snd := by simp [updates, Function.comp_def]
  obtain ⟨hlog, hlogRead, hlogLh⟩ := writeLogFrom_effect start m 0 m.lh hhome (by omega)
  obtain ⟨hhead, hheadRead, hheadLh⟩ :=
    writeHead_effect start (run start m (writeLogFrom start 0 m.lh))
  obtain ⟨hwrites, hread, hlh⟩ := commit_effect start m updates hkeys.symm
    (fun u hu => (hmem u hu).2) (fun u hu => hhome _ (hmem u hu).1) (by omega) hne
  have hfinal : (run start m (commit start m.lh)).read =
      (run start m (commit start m.lh)).disk := by
    rw [hread, disk_run, hwrites]
    funext b
    apply applyAll_congr
    by_cases hb : b ∈ m.lh
    · refine Or.inl ⟨(b, m.read b), ?_, rfl⟩
      have : (b, m.read b) ∈ updates := List.mem_map_of_mem (f := fun b => (b, m.read b)) hb
      simp [commitSchedule, this]
    · exact Or.inr (hclean b hb)
  have hlast : Safe start goal (run start m (commit start m.lh)) [] [] :=
    ⟨rfl, hlh, hfinal⟩
  rw [commit_eq start hempty, run_append, run_append, run_append, run_cons] at hlast
  rw [commit_eq start hempty]
  apply safe_writeLogFrom hhome (by omega)
  · intro b hb
    exact ⟨hb, by simp [mem_installTransFrom_bunpin.mpr hb]⟩
  apply safe_writeHead
  have hnone : ∀ b, Call.bunpin b ∉ Call.resetHead :: writeHead start := by
    intro b
    simp [writeHead]
  have hstore : ∀ b, ¬IsHome start b →
      (run start (run start m (writeLogFrom start 0 m.lh)) (writeHead start)).read b =
        (run start (run start m (writeLogFrom start 0 m.lh)) (writeHead start)).disk b := by
    intro b hb
    rw [hheadRead, hlogRead, disk_run, hhead, disk_run, hlog, applyAll_cons, applyAll_nil,
      hlogRead]
    by_cases hbs : b = start
    · subst hbs
      simp
    · rw [Function.update_of_ne hbs, Function.update_of_ne hbs]
      exact applyAll_congr _ _ _ _ (Or.inr (hclean b fun hmem => hb (hhome b hmem)))
  have hholds : LogHolds start
      (run start (run start m (writeLogFrom start 0 m.lh)) (writeHead start)).read 0 updates := by
    rw [hheadRead, hlogRead, hdata]
    exact (logHolds_logCopies start _ 0 updates).update_start start
  have hdurable : readHead
      ((run start (run start m (writeLogFrom start 0 m.lh)) (writeHead start)).disk start) =
        m.lh := by
    rw [disk_run, hhead, applyAll_cons, applyAll_nil, Function.update_self, hlogLh]
    exact readHead_fillHead _ _ hroom hword
  have hkept : (run start (run start m (writeLogFrom start 0 m.lh)) (writeHead start)).lh =
      m.lh := by
    rw [hheadLh, hlogLh]
  have hinstall := @safe_installTransFrom start goal _ 0 updates _ hholds
    (fun u hu => hhome _ (hmem u hu).1) (by omega) (by rw [hkeys]; exact hnodup)
    (fun u hu => (hgoal _ (hmem u hu).1).trans (hmem u hu).2)
      (fun u hu => by rw [hkept]; exact (hmem u hu).1)
    (hdurable.trans hkept.symm) hstore hnone
  rw [hkeys] at hinstall
  apply hinstall
  refine ⟨by simp [writeHead], ?_⟩
  have hclear := safe_writeHead hlast
  rwa [List.append_nil] at hclear

end Xv6.Log
