import Xv6.Log.Effect

/-! Crash atomicity of the write-ahead log. A disk is recoverable to a goal
when redoing the updates its header names, from the copies in the log area,
gives the goal on every home block. Commit and recovery both move only between
such disks, whatever prefix of their writes survives. -/
namespace Xv6.Log

open Lib.Writes

/-- New contents for distinct home blocks, few enough for the log area. Block
numbers are 32-bit, as in `struct buf`. -/
structure Transaction (start : Nat) where
  updates : List (Nat × Block)
  nodup : (updates.map Prod.fst).Nodup
  room : updates.length ≤ logBlocks
  home : ∀ update ∈ updates, IsHome start update.1
  word : ∀ update ∈ updates, update.1 < 2 ^ 32

variable (start : Nat)

/-- The machine when `end_op` calls `commit`: every update has been made in its
buffer and passed to `log_write`. -/
def logged (m : Machine) (tx : Transaction start) : Machine :=
  tx.updates.foldl Machine.logWrite m

def transact (m : Machine) (tx : Transaction start) : Machine :=
  run start (logged start m tx) (commit start (logged start m tx).lh)

def commitWrites (m : Machine) (tx : Transaction start) : List (Nat × Block) :=
  writes start (logged start m tx) (commit start (logged start m tx).lh)

def allCommitWrites (m : Machine) : List (Transaction start) → List (Nat × Block)
  | [] => []
  | tx :: rest => commitWrites start m tx ++ allCommitWrites (transact start m tx) rest

def rebooted (disk : Disk) : Machine := { Machine.boot disk with lh := readHead (disk start) }

def recoveryWrites (disk : Disk) : List (Nat × Block) :=
  writes start (rebooted start disk) (recoverFromLog start (rebooted start disk).lh)

def recoverDisk (disk : Disk) : Disk :=
  (run start (rebooted start disk) (recoverFromLog start (rebooted start disk).lh)).disk

/-- Recovery attempts cut after the listed numbers of writes, then one that
runs to its end. -/
def recoverThrough (disk : Disk) : List Nat → Disk
  | [] => recoverDisk start disk
  | survived :: later =>
      recoverThrough (applyAll disk ((recoveryWrites start disk).take survived)) later

def interrupted (disk : Disk) : List Nat → Disk
  | [] => disk
  | survived :: later =>
      interrupted (applyAll disk ((recoveryWrites start disk).take survived)) later

/-- Does this write make a transaction durable, as the first `write_head` of
`commit` does? -/
def isCommitPoint (write : Nat × Block) : Bool :=
  write.1 == start && headN write.2 != 0

/-- The transactions whose first `write_head` is among the surviving writes.
Commits happen one after another and an empty transaction writes no header. -/
def committed (txs : List (Transaction start)) (survived : List (Nat × Block)) :
    List (Transaction start) :=
  (txs.filter fun tx => !tx.updates.isEmpty).take (survived.countP (isCommitPoint start))

def applyTransactions (disk : Disk) (txs : List (Transaction start)) : Disk :=
  applyAll disk (txs.flatMap (·.updates))

/-- Redoing the logged updates named by the header gives `goal` on home blocks. -/
def Recoverable (goal disk : Disk) : Prop :=
  ∃ updates : List (Nat × Block),
    readHead (disk start) = updates.map Prod.fst ∧
    LogHolds start disk 0 updates ∧
    updates.length ≤ logBlocks ∧
    (∀ update ∈ updates, IsHome start update.1) ∧
    ∀ b, IsHome start b → applyAll disk updates b = goal b

structure Quiescent (m : Machine) : Prop where
  lh : m.lh = []
  coherent : m.read = m.disk
  clean : headN (m.disk start) = 0

theorem LogHolds.applyAll_home {disk : Disk} {updates written : List (Nat × Block)}
    (h : LogHolds start disk 0 updates) (hroom : updates.length ≤ logBlocks)
    (hhome : ∀ update ∈ written, IsHome start update.1) :
    LogHolds start (applyAll disk written) 0 updates := by
  refine h.congr start ?_
  intro b hlow hhigh
  apply applyAll_of_forall_ne
  rintro update hmem rfl
  exact (hhome update hmem).not_logSlot hlow (by omega) hhigh

namespace Recoverable

variable {start} {goal goal' disk : Disk}

theorem congr_goal (h : Recoverable start goal disk)
    (hgoal : ∀ b, IsHome start b → goal b = goal' b) : Recoverable start goal' disk := by
  obtain ⟨updates, hhead, hholds, hroom, hhome, hredo⟩ := h
  exact ⟨updates, hhead, hholds, hroom, hhome, fun b hb => (hredo b hb).trans (hgoal b hb)⟩

theorem of_clean (hclean : headN (disk start) = 0)
    (hgoal : ∀ b, IsHome start b → disk b = goal b) : Recoverable start goal disk :=
  ⟨[], readHead_of_headN_eq_zero hclean, trivial, Nat.zero_le _, by simp, hgoal⟩

end Recoverable

theorem recoveryWrites_eq {disk : Disk} {updates : List (Nat × Block)}
    (hhead : readHead (disk start) = updates.map Prod.fst) (hholds : LogHolds start disk 0 updates)
    (hroom : updates.length ≤ logBlocks) (hhome : ∀ update ∈ updates, IsHome start update.1) :
    recoveryWrites start disk = updates ++ [(start, fillHead (disk start) [])] := by
  obtain ⟨hwrites, hread, -⟩ := installTransFrom_effect start true (rebooted start disk) 0 updates
    hholds hhome (by omega)
  have hlh : (rebooted start disk).lh = updates.map Prod.fst := hhead
  have hstart : applyAll (rebooted start disk).read updates start = disk start :=
    applyAll_home_start start _ hhome
  unfold recoveryWrites recoverFromLog installTrans
  rw [hlh, List.append_assoc, writes_append, hwrites, List.singleton_append, writes,
    (writeHead_effect start _).1, read_resetHead, hread, hstart, lh_resetHead]
  intro b h
  cases h

theorem recoverDisk_eq (disk : Disk) :
    recoverDisk start disk = applyAll disk (recoveryWrites start disk) :=
  disk_run start _ _

theorem Recoverable.take_recoveryWrites {goal disk : Disk} (h : Recoverable start goal disk)
    (survived : Nat) :
    Recoverable start goal (applyAll disk ((recoveryWrites start disk).take survived)) := by
  obtain ⟨updates, hhead, hholds, hroom, hhome, hredo⟩ := h
  rw [recoveryWrites_eq start hhead hholds hroom hhome]
  by_cases hcut : survived ≤ updates.length
  · -- the cut is among the home writes: the header still names all of them
    rw [List.take_append_of_le_length hcut]
    have htake : ∀ update ∈ updates.take survived, IsHome start update.1 :=
      fun update hmem => hhome update (List.mem_of_mem_take hmem)
    refine ⟨updates, ?_, hholds.applyAll_home start hroom htake, hroom, hhome, ?_⟩
    · rw [applyAll_home_start start _ htake, hhead]
    · intro b hb
      rw [applyAll_take_applyAll, hredo b hb]
  · -- everything was written and the header is clear
    rw [List.take_of_length_le (by simp; omega), applyAll_append]
    apply Recoverable.of_clean
    · simp
    · intro b hb
      rw [applyAll_cons, applyAll_nil, Function.update_of_ne hb.ne_start, hredo b hb]

theorem Recoverable.recoverDisk {goal disk : Disk} (h : Recoverable start goal disk) :
    (∀ b, IsHome start b → recoverDisk start disk b = goal b) ∧
    headN (Log.recoverDisk start disk start) = 0 := by
  obtain ⟨updates, hhead, hholds, hroom, hhome, hredo⟩ := h
  rw [recoverDisk_eq, recoveryWrites_eq start hhead hholds hroom hhome, applyAll_append]
  constructor
  · intro b hb
    rw [applyAll_cons, applyAll_nil, Function.update_of_ne hb.ne_start, hredo b hb]
  · simp

theorem Recoverable.recoverThrough {goal disk : Disk} (h : Recoverable start goal disk)
    (crashes : List Nat) :
    (∀ b, IsHome start b → recoverThrough start disk crashes b = goal b) ∧
    headN (Log.recoverThrough start disk crashes start) = 0 := by
  induction crashes generalizing disk with
  | nil => exact h.recoverDisk start
  | cons survived later ih => exact ih (h.take_recoveryWrites start survived)

theorem lh_logged {m : Machine} (hlh : m.lh = []) (tx : Transaction start) :
    (logged start m tx).lh = tx.updates.map Prod.fst := by
  have hfold : ∀ (updates : List (Nat × Block)) (m : Machine),
      (m.lh ++ updates.map Prod.fst).Nodup →
      (updates.foldl Machine.logWrite m).lh = m.lh ++ updates.map Prod.fst := by
    intro updates
    induction updates with
    | nil => simp
    | cons update rest ih =>
      intro m hnodup
      have hfresh : update.1 ∉ m.lh := by
        rw [List.map_cons, List.nodup_append] at hnodup
        intro hmem
        exact hnodup.2.2 _ hmem _ List.mem_cons_self rfl
      have hstep : (m.logWrite update).lh = m.lh ++ [update.1] := absorb_of_notMem hfresh
      rw [List.foldl_cons, ih _ (by simpa [hstep] using hnodup), hstep]
      simp
  have h := hfold tx.updates m (by simpa [hlh] using tx.nodup)
  rwa [hlh, List.nil_append] at h

theorem read_logged (m : Machine) (tx : Transaction start) :
    (logged start m tx).read = applyAll m.read tx.updates := by
  unfold logged
  generalize tx.updates = updates
  induction updates generalizing m with
  | nil => rfl
  | cons update rest ih =>
    have hstep : (m.logWrite update).read = Function.update m.read update.1 update.2 :=
      m.read_setBuf update.1 update.2
    rw [List.foldl_cons, ih, hstep, applyAll_cons]

theorem disk_logged (m : Machine) (tx : Transaction start) :
    (logged start m tx).disk = m.disk := by
  unfold logged
  generalize tx.updates = updates
  induction updates generalizing m with
  | nil => rfl
  | cons update rest ih => exact ih _

theorem disk_transact (m : Machine) (tx : Transaction start) :
    (transact start m tx).disk = applyAll m.disk (commitWrites start m tx) := by
  rw [← disk_logged start m tx]
  exact disk_run start _ _

def commitHead (m : Machine) (tx : Transaction start) : Block :=
  fillHead (m.disk start) (tx.updates.map Prod.fst)

theorem headN_commitHead (m : Machine) (tx : Transaction start) :
    headN (commitHead start m tx) = tx.updates.length := by
  have h := headN_fillHead (m.disk start) (tx.updates.map Prod.fst) (by simpa using tx.room)
  rwa [List.length_map] at h

theorem readHead_commitHead (m : Machine) (tx : Transaction start) :
    readHead (commitHead start m tx) = tx.updates.map Prod.fst := by
  apply readHead_fillHead
  · simpa using tx.room
  · intro b hb
    obtain ⟨update, hmem, rfl⟩ := List.mem_map.mp hb
    exact tx.word update hmem

section Commit

variable {start} {m : Machine} (hm : Quiescent start m) (tx : Transaction start)
include hm

theorem transact_effect (hne : tx.updates ≠ []) :
    commitWrites start m tx = commitSchedule start (m.disk start) tx.updates ∧
    (transact start m tx).read =
      applyAll (logged start m tx).read (commitSchedule start (m.disk start) tx.updates) ∧
    (transact start m tx).lh = [] := by
  have hstart : (logged start m tx).read start = m.disk start := by
    rw [read_logged, applyAll_home_start start _ tx.home, hm.coherent]
  have hcontents : ∀ update ∈ tx.updates, (logged start m tx).read update.1 = update.2 := by
    intro update hmem
    rw [read_logged]
    exact applyAll_of_mem _ _ tx.nodup update hmem
  have heffect := commit_effect start (logged start m tx) tx.updates (lh_logged start hm.lh tx)
    hcontents tx.home tx.room hne
  rwa [hstart] at heffect

theorem transact_of_isEmpty (hempty : tx.updates = []) :
    transact start m tx = m ∧ commitWrites start m tx = [] := by
  have hlogged : logged start m tx = m := by simp [logged, hempty]
  unfold transact commitWrites
  rw [hlogged, hm.lh]
  exact ⟨rfl, rfl⟩

omit hm in
theorem applyAll_commitSchedule_home (disk : Disk) {b : Nat} (hb : IsHome start b) :
    applyAll disk (commitSchedule start (m.disk start) tx.updates) b =
      applyAll disk tx.updates b := by
  have hlog : applyAll disk (logCopies start 0 (tx.updates.map Prod.snd)) b = disk b := by
    apply applyAll_of_forall_ne
    rintro write hwrite rfl
    have hslot := mem_logCopies start hwrite
    have hroom := tx.room
    rw [List.length_map] at hslot
    exact hb.not_logSlot hslot.1 (by omega) hslot.2
  unfold commitSchedule
  rw [applyAll_append, applyAll_cons, applyAll_append, applyAll_cons, applyAll_nil,
    Function.update_of_ne hb.ne_start]
  apply applyAll_congr
  exact Or.inr (by rw [Function.update_of_ne hb.ne_start, hlog])

theorem quiescent_transact (hne : tx.updates ≠ []) : Quiescent start (transact start m tx) := by
  obtain ⟨hwrites, hread, hlh⟩ := transact_effect hm tx hne
  refine ⟨hlh, ?_, ?_⟩
  · rw [hread, disk_transact, hwrites, read_logged, hm.coherent]
    funext b
    apply applyAll_congr
    by_cases hb : ∃ update ∈ tx.updates, update.1 = b
    · obtain ⟨update, hmem, heq⟩ := hb
      exact Or.inl ⟨update, by simp [commitSchedule, hmem], heq⟩
    · refine Or.inr (applyAll_of_forall_ne _ _ _ ?_)
      intro update hmem heq
      exact hb ⟨update, hmem, heq⟩
  · rw [disk_transact, hwrites]
    simp [commitSchedule, applyAll_append]

omit hm in
theorem countP_logCopies_take (survived : Nat) :
    ((logCopies start 0 (tx.updates.map Prod.snd)).take survived).countP (isCommitPoint start) =
      0 := by
  rw [List.countP_eq_zero]
  intro write hwrite
  have := mem_logCopies start (List.mem_of_mem_take hwrite)
  have hne : write.1 ≠ start := by omega
  simp [isCommitPoint, hne]

omit hm in
theorem countP_install_take (survived : Nat) :
    ((tx.updates ++ [(start, fillHead (commitHead start m tx) [])]).take survived).countP
      (isCommitPoint start) = 0 := by
  rw [List.countP_eq_zero]
  intro write hwrite
  rcases List.mem_append.mp (List.mem_of_mem_take hwrite) with hmem | hmem
  · simp [isCommitPoint, (tx.home write hmem).ne_start]
  · rw [List.mem_singleton.mp hmem]
    simp [isCommitPoint]

theorem recoverable_before_head (survived : Nat) (hcut : survived ≤ tx.updates.length) :
    Recoverable start m.disk (applyAll m.disk
      ((commitSchedule start (m.disk start) tx.updates).take survived)) ∧
    ((commitSchedule start (m.disk start) tx.updates).take survived).countP
      (isCommitPoint start) = 0 := by
  have htake : (commitSchedule start (m.disk start) tx.updates).take survived =
      (logCopies start 0 (tx.updates.map Prod.snd)).take survived := by
    apply List.take_append_of_le_length
    simpa [length_logCopies] using hcut
  rw [htake]
  have hkeep : ∀ b, (b = start ∨ IsHome start b) → applyAll m.disk
      ((logCopies start 0 (tx.updates.map Prod.snd)).take survived) b = m.disk b := by
    intro b hb
    apply applyAll_of_forall_ne
    rintro write hwrite rfl
    have hslot := mem_logCopies start (List.mem_of_mem_take hwrite)
    have hroom := tx.room
    rw [List.length_map] at hslot
    rcases hb with hb | hb
    · omega
    · exact hb.not_logSlot hslot.1 (by omega) hslot.2
  refine ⟨Recoverable.of_clean ?_ fun b hb => hkeep b (Or.inr hb),
    countP_logCopies_take tx survived⟩
  rw [hkeep start (Or.inl rfl), hm.clean]

omit hm in
theorem recoverable_after_head (survived : Nat) (hne : tx.updates ≠ [])
    (hcut : tx.updates.length < survived) :
    Recoverable start (applyAll m.disk tx.updates)
      (applyAll m.disk ((commitSchedule start (m.disk start) tx.updates).take survived)) ∧
    ((commitSchedule start (m.disk start) tx.updates).take survived).countP
      (isCommitPoint start) = 1 := by
  obtain ⟨installed, hinstalled⟩ : ∃ installed, survived = tx.updates.length + 1 + installed :=
    ⟨survived - (tx.updates.length + 1), by omega⟩
  have hlen : (logCopies start 0 (tx.updates.map Prod.snd)).length = tx.updates.length := by
    rw [length_logCopies, List.length_map]
  have htake : (commitSchedule start (m.disk start) tx.updates).take survived =
      logCopies start 0 (tx.updates.map Prod.snd) ++ (start, commitHead start m tx) ::
        (tx.updates ++ [(start, fillHead (commitHead start m tx) [])]).take installed := by
    have hrest : survived - tx.updates.length = installed + 1 := by omega
    unfold commitSchedule
    rw [List.take_append, List.take_of_length_le (by omega), hlen, hrest, List.take_succ_cons]
    rfl
  rw [htake]
  constructor
  · by_cases hwhole : installed ≤ tx.updates.length
    · -- the header names every update and the log holds them all
      rw [List.take_append_of_le_length hwhole, applyAll_append, applyAll_cons]
      have hsome : ∀ update ∈ tx.updates.take installed, IsHome start update.1 :=
        fun update hmem => tx.home update (List.mem_of_mem_take hmem)
      refine ⟨tx.updates, ?_, ?_, tx.room, tx.home, ?_⟩
      · rw [applyAll_home_start start _ hsome, Function.update_self]
        exact readHead_commitHead start m tx
      · exact LogHolds.applyAll_home start
          ((logHolds_logCopies start _ 0 tx.updates).update_start start) tx.room hsome
      · intro b hb
        have hall := applyAll_commitSchedule_home (m := m) tx m.disk hb
        unfold commitSchedule at hall
        rw [applyAll_append, applyAll_cons, applyAll_append, applyAll_cons, applyAll_nil,
          Function.update_of_ne hb.ne_start] at hall
        rw [applyAll_take_applyAll]
        exact hall
    · rw [List.take_of_length_le (by simp; omega)]
      apply Recoverable.of_clean
      · simp [applyAll_append]
      · intro b hb
        exact applyAll_commitSchedule_home tx m.disk hb
  · have hpoint : isCommitPoint start (start, commitHead start m tx) = true := by
      have hpos := List.length_pos_of_ne_nil hne
      simp [isCommitPoint, headN_commitHead, hne]
    have hcopies := countP_logCopies_take tx tx.updates.length
    rw [List.take_of_length_le (by omega)] at hcopies
    rw [List.countP_append, hcopies, List.countP_cons_of_pos hpoint, countP_install_take]

end Commit

/-- Any cut of the writes of consecutive commits leaves a disk recoverable to
the transactions committed by then. -/
theorem recoverable_survived {m : Machine} (hm : Quiescent start m)
    (txs : List (Transaction start)) (survived : Nat) :
    Recoverable start
      (applyTransactions start m.disk
        (committed start txs ((allCommitWrites start m txs).take survived)))
      (applyAll m.disk ((allCommitWrites start m txs).take survived)) := by
  induction txs generalizing m survived with
  | nil =>
    apply Recoverable.of_clean
    · simpa [allCommitWrites] using hm.clean
    · simp [allCommitWrites, committed, applyTransactions]
  | cons tx rest ih =>
    by_cases hempty : tx.updates = []
    · obtain ⟨hsame, hnone⟩ := transact_of_isEmpty hm tx hempty
      have hrest := ih hm survived
      simpa [allCommitWrites, committed, hsame, hnone, hempty] using hrest
    · obtain ⟨hwrites, -, -⟩ := transact_effect hm tx hempty
      have hkeep : (tx :: rest).filter (fun tx => !tx.updates.isEmpty) =
          tx :: rest.filter (fun tx => !tx.updates.isEmpty) := by
        simp [hempty]
      unfold committed
      rw [allCommitWrites, hwrites, hkeep]
      by_cases hwithin : survived ≤ (commitSchedule start (m.disk start) tx.updates).length
      · rw [List.take_append_of_le_length hwithin]
        by_cases hcut : survived ≤ tx.updates.length
        · obtain ⟨hrec, hcount⟩ := recoverable_before_head hm tx survived hcut
          simpa [hcount, applyTransactions] using hrec
        · obtain ⟨hrec, hcount⟩ :=
            recoverable_after_head (m := m) tx survived hempty (Nat.lt_of_not_le hcut)
          simpa [hcount, applyTransactions] using hrec
      · -- this commit finished; the cut falls in a later one
        obtain ⟨-, hcount⟩ := recoverable_after_head (m := m) tx
          (commitSchedule start (m.disk start) tx.updates).length hempty (by
            simp [commitSchedule, length_logCopies])
        rw [List.take_length] at hcount
        have hall : (commitSchedule start (m.disk start) tx.updates).take survived =
            commitSchedule start (m.disk start) tx.updates :=
          List.take_of_length_le (by omega)
        have hdisk : applyAll m.disk (commitSchedule start (m.disk start) tx.updates) =
            (transact start m tx).disk := by
          rw [disk_transact, hwrites]
        rw [List.take_append, hall, List.countP_append, hcount, applyAll_append, hdisk,
          Nat.add_comm, List.take_succ_cons]
        refine (ih (quiescent_transact hm tx hempty) _).congr_goal ?_
        intro b hb
        unfold applyTransactions committed
        rw [List.flatMap_cons, applyAll_append]
        apply applyAll_congr
        refine Or.inr ?_
        rw [disk_transact, hwrites, applyAll_commitSchedule_home tx m.disk hb]

theorem quiescent_boot {disk : Disk} (hclean : headN (disk start) = 0) :
    Quiescent start (Machine.boot disk) :=
  ⟨rfl, rfl, hclean⟩

/-- Crash atomicity. Boot on a disk with an empty log, commit any transactions,
lose everything after an arbitrary disk write, and recover, with recovery itself
cut any number of times: the home blocks hold exactly the transactions whose
header write survived, and the log is empty again. -/
theorem recoverThrough_committed (disk : Disk) (hclean : headN (disk start) = 0)
    (txs : List (Transaction start)) (survived : Nat) (crashes : List Nat) :
    let written := (allCommitWrites start (Machine.boot disk) txs).take survived
    let recovered := recoverThrough start (applyAll disk written) crashes
    (∀ b, IsHome start b →
      recovered b = applyTransactions start disk (committed start txs written) b) ∧
    headN (recovered start) = 0 :=
  (recoverable_survived start (quiescent_boot start hclean) txs survived).recoverThrough start
    crashes

section Steady

/-- The block has these contents, and recovery would not write to it. -/
def Steady (b : Nat) (data : Block) (disk : Disk) : Prop := disk b = data ∧
    b ∉ readHead (disk start)

variable {start} {b : Nat} {data : Block}

theorem Steady.applyAll {disk : Disk} {written : List (Nat × Block)} (h : Steady start b data disk)
    (hother : ∀ write ∈ written, write.1 ≠ b)
    (hhead : ∀ write ∈ written, write.1 = start → b ∉ readHead write.2) :
    Steady start b data (applyAll disk written) := by
  refine ⟨(applyAll_of_forall_ne _ _ _ hother).trans h.1, ?_⟩
  rcases applyAll_cases disk written start with hold | ⟨write, hmem, hkey, hvalue⟩
  · rw [hold]
    exact h.2
  · rw [hvalue]
    exact hhead write hmem hkey

variable (hb : IsHome start b)
include hb

theorem mem_commitSchedule {m : Machine} {tx : Transaction start}
    (htx : ∀ update ∈ tx.updates, update.1 ≠ b) {write : Nat × Block}
    (h : write ∈ commitSchedule start (m.disk start) tx.updates) :
    write.1 ≠ b ∧ (write.1 = start → b ∉ readHead write.2) := by
  have hnone : ∀ block, b ∉ readHead (fillHead block []) := fun block => by
    rw [readHead_of_headN_eq_zero (headN_fillHead_nil block)]
    exact List.not_mem_nil
  unfold commitSchedule at h
  simp only [List.mem_append, List.mem_cons, List.not_mem_nil, or_false] at h
  rcases h with h | rfl | h | rfl
  · have hslot := mem_logCopies start h
    have hroom := tx.room
    rw [List.length_map] at hslot
    refine ⟨?_, fun hstart => by omega⟩
    rintro rfl
    exact hb.not_logSlot hslot.1 (by omega) hslot.2
  · refine ⟨Ne.symm hb.ne_start, fun _ => ?_⟩
    show b ∉ readHead (commitHead start m tx)
    rw [readHead_commitHead]
    intro hmem
    obtain ⟨update, hupdate, heq⟩ := List.mem_map.mp hmem
    exact htx update hupdate heq
  · exact ⟨htx write h, fun hstart => absurd hstart (tx.home write h).ne_start⟩
  · exact ⟨Ne.symm hb.ne_start, fun _ => hnone _⟩

theorem mem_allCommitWrites {m : Machine} (hm : Quiescent start m) {txs : List (Transaction start)}
    (htxs : ∀ tx ∈ txs, ∀ update ∈ tx.updates, update.1 ≠ b) {write : Nat × Block}
    (h : write ∈ allCommitWrites start m txs) :
    write.1 ≠ b ∧ (write.1 = start → b ∉ readHead write.2) := by
  induction txs generalizing m with
  | nil => cases h
  | cons tx rest ih =>
    have hrest := fun other hmem => htxs other (List.mem_cons_of_mem tx hmem)
    rw [allCommitWrites, List.mem_append] at h
    by_cases hempty : tx.updates = []
    · obtain ⟨hsame, hnone⟩ := transact_of_isEmpty hm tx hempty
      rw [hsame, hnone] at h
      exact ih hm hrest (h.resolve_left List.not_mem_nil)
    · obtain ⟨hwrites, -, -⟩ := transact_effect hm tx hempty
      rw [hwrites] at h
      rcases h with h | h
      · exact mem_commitSchedule hb (htxs tx List.mem_cons_self) h
      · exact ih (quiescent_transact hm tx hempty) hrest h

theorem steady_survived {m : Machine} (hm : Quiescent start m) {txs : List (Transaction start)}
    (htxs : ∀ tx ∈ txs, ∀ update ∈ tx.updates, update.1 ≠ b) (survived : Nat) :
    Steady start b (m.disk b)
      (applyAll m.disk ((allCommitWrites start m txs).take survived)) := by
  have hclean : Steady start b (m.disk b) m.disk := by
    refine ⟨rfl, ?_⟩
    rw [readHead_of_headN_eq_zero hm.clean]
    exact List.not_mem_nil
  exact hclean.applyAll
    (fun write h => (mem_allCommitWrites hb hm htxs (List.mem_of_mem_take h)).1)
    fun write h => (mem_allCommitWrites hb hm htxs (List.mem_of_mem_take h)).2

theorem Steady.interrupted {goal disk : Disk} (h : Steady start b data disk)
    (hrec : Recoverable start goal disk) (crashes : List Nat) :
    Steady start b data (interrupted start disk crashes) := by
  induction crashes generalizing disk with
  | nil => exact h
  | cons survived later ih =>
    refine ih ?_ (hrec.take_recoveryWrites start survived)
    obtain ⟨updates, hhead, hholds, hroom, hhome, -⟩ := hrec
    have hwrites := recoveryWrites_eq start hhead hholds hroom hhome
    have hmem : ∀ write ∈ recoveryWrites start disk,
        write.1 ≠ b ∧ (write.1 = start → b ∉ readHead write.2) := by
      intro write hwrite
      rw [hwrites, List.mem_append, List.mem_singleton] at hwrite
      rcases hwrite with hwrite | rfl
      · refine ⟨?_, fun hstart => absurd hstart (hhome write hwrite).ne_start⟩
        rintro rfl
        exact h.2 (hhead ▸ List.mem_map_of_mem hwrite)
      · refine ⟨Ne.symm hb.ne_start, fun _ => ?_⟩
        rw [readHead_of_headN_eq_zero (headN_fillHead_nil _)]
        exact List.not_mem_nil
    exact h.applyAll (fun write hw => (hmem write (List.mem_of_mem_take hw)).1)
      fun write hw => (hmem write (List.mem_of_mem_take hw)).2

end Steady

theorem Recoverable.interrupted {goal disk : Disk} (h : Recoverable start goal disk)
    (crashes : List Nat) : Recoverable start goal (interrupted start disk crashes) := by
  induction crashes generalizing disk with
  | nil => exact h
  | cons survived later ih => exact ih (h.take_recoveryWrites start survived)

def sampleDisk : Disk := fun _ => Lib.Bytes.zero bsize

def sampleTransaction : Transaction 2 where
  updates := [(100, fun _ => 7)]
  nodup := by simp
  room := by decide
  home := by simp [IsHome]
  word := by simp

/-- The log copy and the header survive; the home write is redone, after one
recovery that was cut before it. -/
theorem recoverThrough_committed_sample :
    headN (sampleDisk 2) = 0 ∧
    recoverThrough 2 (applyAll sampleDisk
      ((allCommitWrites 2 (Machine.boot sampleDisk) [sampleTransaction]).take 2)) [0] 100 =
      fun _ => 7 :=
  ⟨rfl, ((recoverThrough_committed 2 sampleDisk rfl [sampleTransaction] 2 [0]).1 100
    (Or.inr (by decide))).trans rfl⟩

end Xv6.Log
