import Xv6.Log.Code

/-! What each log routine writes and what it leaves in the buffers. Reading
through the buffer cache is a store of its own: copying into a buffer updates
it at one block, while reading and writing back leave it alone. -/
namespace Xv6.Log

open Lib.Writes

variable (start : Nat)

/-- Blocks outside the log area `log.start .. log.start + LOGBLOCKS`. -/
def IsHome (blockno : Nat) : Prop := blockno < start ∨ start + logBlocks < blockno

@[simp] theorem Machine.read_boot (disk : Disk) : (Machine.boot disk).read = disk := rfl

@[simp] theorem Machine.read_setBuf (m : Machine) (blockno : Nat) (data : Block) :
    (m.setBuf blockno data).read = Function.update m.read blockno data := by
  funext other
  by_cases h : other = blockno
  · subst h
    simp [Machine.read, Machine.setBuf]
  · simp [Machine.read, Machine.setBuf, Function.update_of_ne h]

@[simp] theorem Machine.lh_setBuf (m : Machine) (blockno : Nat) (data : Block) :
    (m.setBuf blockno data).lh = m.lh := rfl

@[simp] theorem Machine.disk_setBuf (m : Machine) (blockno : Nat) (data : Block) :
    (m.setBuf blockno data).disk = m.disk := rfl

@[simp] theorem read_bread (m : Machine) (blockno : Nat) :
    (exec start m (.bread blockno)).read = m.read := by
  simp [exec]

@[simp] theorem read_memmove (m : Machine) (dst src : Nat) :
    (exec start m (.memmove dst src)).read = Function.update m.read dst (m.read src) := by
  simp [exec]

@[simp] theorem read_fillHead (m : Machine) :
    (exec start m .fillHead).read =
      Function.update m.read start (fillHead (m.read start) m.lh) := by
  simp [exec]

@[simp] theorem read_bwrite (m : Machine) (blockno : Nat) :
    (exec start m (.bwrite blockno)).read = m.read := by
  funext other
  by_cases h : other = blockno
  · subst h
    cases hcache : m.cache other <;> simp [exec, Machine.read, hcache]
  · simp [exec, Machine.read, Function.update_of_ne h]

@[simp] theorem exec_bunpin (m : Machine) (blockno : Nat) :
    exec start m (.bunpin blockno) = m := rfl

@[simp] theorem exec_brelse (m : Machine) (blockno : Nat) :
    exec start m (.brelse blockno) = m := rfl

@[simp] theorem read_resetHead (m : Machine) : (exec start m .resetHead).read = m.read := rfl

@[simp] theorem lh_resetHead (m : Machine) : (exec start m .resetHead).lh = [] := rfl

@[simp] theorem run_nil (m : Machine) : run start m [] = m := rfl

@[simp] theorem run_cons (m : Machine) (call : Call) (calls : List Call) :
    run start m (call :: calls) = run start (exec start m call) calls := rfl

theorem run_append (m : Machine) (left right : List Call) :
    run start m (left ++ right) = run start (run start m left) right := by
  simp [run]

theorem writes_append (m : Machine) (left right : List Call) :
    writes start m (left ++ right) =
      writes start m left ++ writes start (run start m left) right := by
  induction left generalizing m with
  | nil => rfl
  | cons call left ih =>
    cases call <;> simp [writes, ih]

theorem disk_run (m : Machine) (calls : List Call) :
    (run start m calls).disk = applyAll m.disk (writes start m calls) := by
  induction calls generalizing m with
  | nil => rfl
  | cons call calls ih =>
    cases call <;> simp [writes, ih, exec]

def logCopies : Nat → List Block → List (Nat × Block)
  | _, [] => []
  | tail, data :: rest => (start + tail + 1, data) :: logCopies (tail + 1) rest

def LogHolds (store : Nat → Block) : Nat → List (Nat × Block) → Prop
  | _, [] => True
  | tail, update :: rest =>
      store (start + tail + 1) = update.2 ∧ LogHolds store (tail + 1) rest

theorem mem_logCopies {tail : Nat} {contents : List Block} {write : Nat × Block}
    (h : write ∈ logCopies start tail contents) :
    start + tail < write.1 ∧ write.1 ≤ start + tail + contents.length := by
  induction contents generalizing tail with
  | nil => simp [logCopies] at h
  | cons data rest ih =>
    rw [logCopies] at h
    rw [List.length_cons]
    rcases List.mem_cons.mp h with rfl | h
    · dsimp only
      omega
    · have := ih h
      omega

theorem length_logCopies (tail : Nat) (contents : List Block) :
    (logCopies start tail contents).length = contents.length := by
  induction contents generalizing tail with
  | nil => rfl
  | cons data rest ih => simp [logCopies, ih]

theorem LogHolds.congr {left right : Nat → Block} {tail : Nat} {updates : List (Nat × Block)}
    (h : LogHolds start left tail updates)
    (hagree : ∀ b, start + tail < b → b ≤ start + tail + updates.length → right b = left b) :
    LogHolds start right tail updates := by
  induction updates generalizing tail with
  | nil => trivial
  | cons update rest ih =>
    rw [List.length_cons] at hagree
    refine ⟨(hagree _ (by omega) (by omega)).trans h.1, ih h.2 ?_⟩
    intro b hlow hhigh
    exact hagree b (by omega) (by omega)

theorem logHolds_logCopies (store : Nat → Block) (tail : Nat) (updates : List (Nat × Block)) :
    LogHolds start (applyAll store (logCopies start tail (updates.map Prod.snd))) tail updates := by
  induction updates generalizing store tail with
  | nil => trivial
  | cons update rest ih =>
    refine ⟨?_, ih _ _⟩
    rw [List.map_cons, logCopies, applyAll_cons, applyAll_of_forall_ne, Function.update_self]
    intro write hwrite
    have := mem_logCopies start hwrite
    omega

theorem writeLogFrom_effect (m : Machine) (tail : Nat) (blocks : List Nat)
    (hhome : ∀ b ∈ blocks, IsHome start b) (hroom : tail + blocks.length ≤ logBlocks) :
    writes start m (writeLogFrom start tail blocks) = logCopies start tail (blocks.map m.read) ∧
    (run start m (writeLogFrom start tail blocks)).read =
      applyAll m.read (logCopies start tail (blocks.map m.read)) ∧
    (run start m (writeLogFrom start tail blocks)).lh = m.lh := by
  induction blocks generalizing m tail with
  | nil => exact ⟨rfl, rfl, rfl⟩
  | cons blockno rest ih =>
    rw [List.length_cons] at hroom
    have hrest : ∀ b ∈ rest, IsHome start b := fun b hb => hhome b (List.mem_cons_of_mem _ hb)
    -- one iteration leaves the home blocks as they were, so the rest copies the same contents
    have hsame : rest.map (Function.update m.read (start + tail + 1) (m.read blockno)) =
        rest.map m.read := by
      apply List.map_congr_left
      intro b hb
      have := hrest b hb
      unfold IsHome at this
      exact Function.update_of_ne (by omega) _ _
    have hih := ih (run start m [.bread (start + tail + 1), .bread blockno,
      .memmove (start + tail + 1) blockno, .bwrite (start + tail + 1), .brelse blockno,
      .brelse (start + tail + 1)]) (tail + 1) hrest (by omega)
    simp only [run_cons, run_nil, exec_brelse, read_bwrite, read_memmove, read_bread,
      hsame] at hih
    obtain ⟨hwrites, hread, hlh⟩ := hih
    simp only [writeLogFrom, List.cons_append, List.nil_append, writes, run_cons, exec_brelse,
      hwrites, hread, hlh, List.map_cons, logCopies, applyAll_cons, read_memmove, read_bread,
      Function.update_self, true_and]
    rfl

theorem installTransFrom_effect (recovering : Bool) (m : Machine) (tail : Nat)
    (updates : List (Nat × Block)) (hholds : LogHolds start m.read tail updates)
    (hhome : ∀ u ∈ updates, IsHome start u.1) (hroom : tail + updates.length ≤ logBlocks) :
    writes start m (installTransFrom start recovering tail (updates.map Prod.fst)) = updates ∧
    (run start m (installTransFrom start recovering tail (updates.map Prod.fst))).read =
      applyAll m.read updates ∧
    (run start m (installTransFrom start recovering tail (updates.map Prod.fst))).lh = m.lh := by
  induction updates generalizing m tail with
  | nil => exact ⟨rfl, rfl, rfl⟩
  | cons update rest ih =>
    obtain ⟨blockno, data⟩ := update
    obtain ⟨hslot, hholds⟩ := hholds
    rw [List.length_cons] at hroom
    have hblock : IsHome start blockno := hhome (blockno, data) List.mem_cons_self
    have hafter : LogHolds start (Function.update m.read blockno data) (tail + 1) rest := by
      refine hholds.congr start ?_
      intro b hlow hhigh
      unfold IsHome at hblock
      exact Function.update_of_ne (by omega) _ _
    have hih := ih (run start m [.bread (start + tail + 1), .bread blockno,
      .memmove blockno (start + tail + 1), .bwrite blockno]) (tail + 1)
      (by simpa [run_cons, hslot] using hafter)
      (fun u hu => hhome u (List.mem_cons_of_mem _ hu)) (by omega)
    simp only [run_cons, run_nil, read_bwrite, read_memmove, read_bread, hslot] at hih
    obtain ⟨hwrites, hread, hlh⟩ := hih
    cases recovering <;>
      simp only [List.map_cons, installTransFrom, List.cons_append, List.nil_append, writes,
        run_cons, exec_brelse, exec_bunpin, hwrites, hread, hlh, applyAll_cons, read_memmove,
        read_bread, hslot, Function.update_self, reduceIte, Bool.false_eq_true, true_and] <;>
      rfl

theorem writeHead_effect (m : Machine) :
    writes start m (writeHead start) = [(start, fillHead (m.read start) m.lh)] ∧
    (run start m (writeHead start)).read =
      Function.update m.read start (fillHead (m.read start) m.lh) ∧
    (run start m (writeHead start)).lh = m.lh := by
  simp only [writeHead, writes, run_cons, run_nil, exec_brelse, read_bwrite, read_fillHead,
    read_bread, Function.update_self]
  exact ⟨rfl, rfl, rfl⟩

/-- What a nonempty `commit` writes: the log copies, the header over the old
contents of the header block, the home blocks, and the cleared header. -/
def commitSchedule (head : Block) (updates : List (Nat × Block)) : List (Nat × Block) :=
  logCopies start 0 (updates.map Prod.snd) ++ (start, fillHead head (updates.map Prod.fst)) ::
    (updates ++ [(start, fillHead (fillHead head (updates.map Prod.fst)) [])])

theorem IsHome.ne_start {start b : Nat} (h : IsHome start b) : b ≠ start := by
  unfold IsHome at h
  omega

theorem IsHome.not_logSlot {start b tail count : Nat} (h : IsHome start b)
    (hlow : start + tail < b) (hroom : tail + count ≤ logBlocks) : ¬b ≤ start + tail + count := by
  unfold IsHome at h
  omega

theorem applyAll_home_start {updates : List (Nat × Block)} (disk : Disk)
    (hhome : ∀ update ∈ updates, IsHome start update.1) :
    applyAll disk updates start = disk start :=
  applyAll_of_forall_ne _ _ _ fun update hmem => (hhome update hmem).ne_start

theorem LogHolds.update_start {disk : Disk} {updates : List (Nat × Block)} {data : Block}
    (h : LogHolds start disk 0 updates) :
    LogHolds start (Function.update disk start data) 0 updates := by
  refine h.congr start ?_
  intro b hlow _
  exact Function.update_of_ne (by omega) _ _

theorem commit_eq {blocks : List Nat} (hne : blocks ≠ []) :
    commit start blocks = writeLogFrom start 0 blocks ++ (writeHead start ++
      (installTransFrom start false 0 blocks ++ (.resetHead :: writeHead start))) := by
  unfold commit writeLog installTrans
  rw [if_pos (List.length_pos_of_ne_nil hne)]
  simp

/-- The whole of `commit`, from any machine whose header lists these updates
and whose buffers hold their contents. -/
theorem commit_effect (m : Machine) (updates : List (Nat × Block))
    (hlh : m.lh = updates.map Prod.fst) (hcontents : ∀ update ∈ updates, m.read update.1 = update.2)
    (hhome : ∀ update ∈ updates, IsHome start update.1) (hroom : updates.length ≤ logBlocks)
    (hne : updates ≠ []) :
    writes start m (commit start m.lh) = commitSchedule start (m.read start) updates ∧
    (run start m (commit start m.lh)).read =
      applyAll m.read (commitSchedule start (m.read start) updates) ∧
    (run start m (commit start m.lh)).lh = [] := by
  have hblocks : ∀ b ∈ updates.map Prod.fst, IsHome start b := by
    intro b hb
    obtain ⟨update, hmem, rfl⟩ := List.mem_map.mp hb
    exact hhome update hmem
  have hdata : (updates.map Prod.fst).map m.read = updates.map Prod.snd := by
    rw [List.map_map]
    exact List.map_congr_left hcontents
  -- write_log
  obtain ⟨hlog, hlogRead, hlogLh⟩ := writeLogFrom_effect start m 0 (updates.map Prod.fst) hblocks
    (by simpa using hroom)
  rw [hdata] at hlog hlogRead
  have hstart : (run start m (writeLogFrom start 0 (updates.map Prod.fst))).read start =
      m.read start := by
    rw [hlogRead, applyAll_of_forall_ne]
    intro write hwrite
    have := mem_logCopies start hwrite
    omega
  -- write_head
  obtain ⟨hhead, hheadRead, -⟩ := writeHead_effect start
    (run start m (writeLogFrom start 0 (updates.map Prod.fst)))
  rw [hlogLh, hlh, hstart] at hhead hheadRead
  -- install_trans
  have hholds : LogHolds start (run start (run start m
      (writeLogFrom start 0 (updates.map Prod.fst))) (writeHead start)).read 0 updates := by
    rw [hheadRead, hlogRead]
    exact (logHolds_logCopies start _ 0 updates).update_start start
  obtain ⟨hinst, hinstRead, -⟩ := installTransFrom_effect start false _ 0 updates hholds hhome
    (by simpa using hroom)
  have hlast : applyAll (run start (run start m (writeLogFrom start 0 (updates.map Prod.fst)))
      (writeHead start)).read updates start = fillHead (m.read start) (updates.map Prod.fst) := by
    rw [applyAll_home_start start _ hhome, hheadRead, Function.update_self]
  rw [hlh, commit_eq start (by simpa using hne)]
  unfold commitSchedule
  refine ⟨?_, ?_, ?_⟩
  · rw [writes_append, hlog, writes_append, hhead, writes_append, hinst, writes,
      (writeHead_effect start _).1, read_resetHead, hinstRead, hlast, lh_resetHead]
    · rfl
    · intro b h
      cases h
  · rw [run_append, run_append, run_append, run_cons, (writeHead_effect start _).2.1,
      read_resetHead, hinstRead, hlast, lh_resetHead, hheadRead, hlogRead]
    simp [applyAll_append]
  · rw [run_append, run_append, run_append, run_cons, (writeHead_effect start _).2.2, lh_resetHead]

end Xv6.Log
