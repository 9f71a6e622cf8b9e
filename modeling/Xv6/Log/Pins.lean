import Xv6.Log.Shared

/-! Logged updates survive in the cache until they are installed. The invariant
ties the pins to the in-memory header, and a running `commit` to the sequential
account of its calls. -/
namespace Xv6.Log.Shared

open Lib Bio

variable {P : Type} {start : Nat}

def Phase.role : Phase → Role
  | .outside => .outside
  | .inOp => .inOp
  | .committing _ | .committed => .committing

/-- The logged blocks that a commit under way, if any, has still to unpin. -/
def Pinned (s : State P) (b : Nat) : Prop :=
  b ∈ s.log.lh ∧ ∀ p calls, s.phase p = .committing calls → .bunpin b ∈ calls

structure Tracks (s : State P) (p : P) (m : Machine) (held : List Nat) : Prop where
  disk : m.disk = s.buffers.disk
  lh : m.lh = s.log.lh
  read : m.read = s.buffers.view
  nodup : held.Nodup
  held : ∀ b, b ∈ held ↔ s.buffers.Uses p b

structure Inv [Fintype P] (start : Nat) (s : State P) : Prop where
  buffers : s.buffers.Inv (Pinned s)
  admitted : Admitted s.log (Phase.role ∘ s.phase)
  idle : ∀ p, s.phase p = .outside ∨ s.phase p = .committed →
    s.buffers.pending p = .none ∧ ∀ b, ¬s.buffers.Uses p b
  home : ∀ p b, s.phase p = .inOp → s.buffers.Uses p b → IsHome start b ∧ b < 2 ^ 32
  latest : ∀ b, IsHome start b → s.buffers.view b = s.latest b
  nodup : s.log.lh.Nodup
  room : s.log.lh.length ≤ logBlocks
  logged : ∀ b ∈ s.log.lh, IsHome start b ∧ b < 2 ^ 32
  commit : ∀ p calls, s.phase p = .committing calls →
    ∃ m held, Tracks s p m held ∧ Safe start s.latest m held calls
  committed : ∀ p, s.phase p = .committed → s.log.lh = []

section Frames

variable [Fintype P] {s s' : State P} (hs : Inv start s) {p : P}
include hs

theorem Inv.not_committing (hp : s.phase p = .inOp) (q : P) :
    (s.phase q).role ≠ .committing := by
  intro hq
  exact hs.admitted.ne_inOp (p := q) (q := p) hq (by simp [hp, Phase.role])

theorem Inv.pinned_iff_of_inOp (hp : s.phase p = .inOp) (b : Nat) :
    Pinned s b ↔ b ∈ s.log.lh := by
  refine ⟨And.left, fun hb => ⟨hb, fun q calls hq => ?_⟩⟩
  exact absurd (by simp [hq, Phase.role]) (hs.not_committing hp q)

theorem Inv.client (hp : s.phase p = .inOp) (hphase : s'.phase = s.phase)
    (hout : s'.log.outstanding = s.log.outstanding)
    (hcomm : s'.log.committing = s.log.committing)
    (hbuffers : s'.buffers.Inv fun b => b ∈ s'.log.lh)
    (hpending : ∀ q, q ≠ p → s'.buffers.pending q = s.buffers.pending q)
    (huses : ∀ q b, s'.buffers.Uses q b →
      s.buffers.Uses q b ∨ q = p ∧ IsHome start b ∧ b < 2 ^ 32)
    (hlatest : ∀ b, IsHome start b → s'.buffers.view b = s'.latest b)
    (hnodup : s'.log.lh.Nodup) (hroom : s'.log.lh.length ≤ logBlocks)
    (hlogged : ∀ b ∈ s'.log.lh, IsHome start b ∧ b < 2 ^ 32) : Inv start s' := by
  have hnone : ∀ q calls, s'.phase q ≠ .committing calls := by
    intro q calls hq
    exact hs.not_committing hp q (by rw [← hphase, hq, Phase.role])
  constructor
  case buffers =>
    refine hbuffers.congr fun b => ?_
    exact ⟨fun hb => ⟨hb, fun q calls hq => absurd hq (hnone q calls)⟩, And.left⟩
  case admitted =>
    rw [hphase]
    refine ⟨?_, ?_, ?_⟩
    · rw [hout, hs.admitted.outstanding]
    · rw [hcomm, hs.admitted.committing]
    · rw [hcomm, hout]
      exact hs.admitted.alone
  case idle =>
    intro q hq
    rw [hphase] at hq
    have hqp : q ≠ p := by
      rintro rfl
      simp [hp] at hq
    refine ⟨(hpending q hqp).trans (hs.idle q hq).1, fun b hb => ?_⟩
    rcases huses q b hb with hold | ⟨rfl, -⟩
    · exact (hs.idle q hq).2 b hold
    · exact hqp rfl
  case home =>
    intro q b hq hb
    rw [hphase] at hq
    rcases huses q b hb with hold | ⟨-, hhome⟩
    · exact hs.home q b hq hold
    · exact hhome
  case latest => exact hlatest
  case nodup => exact hnodup
  case room => exact hroom
  case logged => exact hlogged
  case commit => exact fun q calls hq => absurd hq (hnone q calls)
  case committed =>
    intro q hq
    rw [hphase] at hq
    exact absurd (by rw [hq, Phase.role]) (hs.not_committing hp q)

theorem Inv.setBuffers {buffers : Buffers P} (hbuffers : buffers.Inv (Pinned s))
    (hview : buffers.view = s.buffers.view) (hdisk : buffers.disk = s.buffers.disk)
    (huses : ∀ q b, buffers.Uses q b ↔ s.buffers.Uses q b)
    (hpending : ∀ q, buffers.pending q = s.buffers.pending q ∨ buffers.pending q = .none) :
    Inv start { s with buffers := buffers } where
  buffers := hbuffers
  admitted := hs.admitted
  idle q hq := by
    obtain ⟨hidle, hfree⟩ := hs.idle q hq
    refine ⟨?_, fun b => (huses q b).not.mpr (hfree b)⟩
    rcases hpending q with h | h
    · exact h.trans hidle
    · exact h
  home q b hq hb := hs.home q b hq ((huses q b).mp hb)
  latest b hb := by
    rw [← hs.latest b hb]
    exact congrFun hview b
  nodup := hs.nodup
  room := hs.room
  logged := hs.logged
  commit q calls hq := by
    obtain ⟨m, held, htracks, hsafe⟩ := hs.commit q calls hq
    refine ⟨m, held, ⟨htracks.disk.trans hdisk.symm, htracks.lh, htracks.read.trans hview.symm,
      htracks.nodup, fun b => ?_⟩, hsafe⟩
    exact (htracks.held b).trans (huses q b).symm
  committed := hs.committed

variable [DecidableEq P]

theorem Inv.commitStep {call : Call} {rest : List Call} {m : Machine} {held : List Nat}
    (hp : s.phase p = .committing (call :: rest))
    (hphase : s'.phase = Function.update s.phase p (.committing rest))
    (hout : s'.log.outstanding = s.log.outstanding)
    (hcomm : s'.log.committing = s.log.committing) (hlatest : s'.latest = s.latest)
    (hbuffers : s'.buffers.Inv fun b => b ∈ s'.log.lh ∧ .bunpin b ∈ rest)
    (hpending : ∀ q, q ≠ p → s'.buffers.pending q = s.buffers.pending q)
    (huses : ∀ q b, q ≠ p → (s'.buffers.Uses q b ↔ s.buffers.Uses q b))
    (hview : ∀ b, IsHome start b → s'.buffers.view b = s.latest b)
    (hlh : s'.log.lh.Sublist s.log.lh)
    (htracks : Tracks s' p m held) (hsafe : Safe start s.latest m held rest) : Inv start s' := by
  have hrole : (Phase.role ∘ s.phase) p = .committing := by simp [hp, Phase.role]
  have hother : ∀ q, q ≠ p → s.phase q = .outside := by
    intro q hqp
    cases hq : s.phase q with
    | outside => rfl
    | inOp => exact absurd (by simp [hq, Phase.role]) (hs.admitted.ne_inOp (q := q) hrole)
    | committing _ | committed =>
      exact absurd (hs.admitted.committing_unique (p := q) (by simp [hq, Phase.role]) hrole) hqp
  have hrest : s'.phase p = .committing rest := by rw [hphase, Function.update_self]
  have houtside : ∀ q, q ≠ p → s'.phase q = .outside := by
    intro q hqp
    rw [hphase, Function.update_of_ne hqp, hother q hqp]
  constructor
  case buffers =>
    refine hbuffers.congr fun b => and_congr_right fun _ => ⟨fun hb q calls hq => ?_, fun h => ?_⟩
    · by_cases hqp : q = p
      · subst hqp
        rw [hrest] at hq
        cases hq
        exact hb
      · simp [houtside q hqp] at hq
    · exact h p rest hrest
  case admitted =>
    rw [hphase, Function.comp_update]
    exact hs.admitted.set_same hrole hout hcomm
  case idle =>
    intro q hq
    have hqp : q ≠ p := by
      rintro rfl
      simp [hrest] at hq
    obtain ⟨hidle, hfree⟩ := hs.idle q (Or.inl (hother q hqp))
    exact ⟨(hpending q hqp).trans hidle, fun b => (huses q b hqp).not.mpr (hfree b)⟩
  case home =>
    intro q b hq
    by_cases hqp : q = p
    · simp [hqp, hrest] at hq
    · simp [houtside q hqp] at hq
  case latest => rwa [hlatest]
  case nodup => exact hs.nodup.sublist hlh
  case room => exact hlh.length_le.trans hs.room
  case logged => exact fun b hb => hs.logged b (hlh.subset hb)
  case commit =>
    intro q calls hq
    by_cases hqp : q = p
    · subst hqp
      rw [hrest] at hq
      cases hq
      exact ⟨m, held, htracks, hlatest ▸ hsafe⟩
    · simp [houtside q hqp] at hq
  case committed =>
    intro q hq
    by_cases hqp : q = p
    · simp [hqp, hrest] at hq
    · simp [houtside q hqp] at hq

end Frames

section Client

variable [Fintype P] [DecidableEq P] {s s' : State P} (hs : Inv start s) {p : P} {i : BufIndex}
include hs

theorem inv_bread {b : Nat} (hp : s.phase p = .inOp) (hidle : s.buffers.pending p = .none)
    (hhome : IsHome start b ∧ b < 2 ^ 32) (h : exec start s (.bread p b) = .ok s') :
    Inv start s' := by
  simp only [exec] at h
  split at h
  · rename_i buffers hget
    cases h
    obtain ⟨hview, -⟩ := Buffers.view_get hs.buffers hget
    apply hs.client hp
    case hphase => rfl
    case hout => rfl
    case hcomm => rfl
    case hbuffers => exact (Buffers.get_inv hs.buffers hidle hget).congr (hs.pinned_iff_of_inOp hp)
    case hpending => exact fun q hqp => Buffers.pending_get hs.buffers hget hqp
    case huses =>
      intro q b' hb'
      rcases (Buffers.uses_get hs.buffers hidle hget q b').mp hb' with hold | ⟨rfl, rfl⟩
      · exact Or.inl hold
      · exact Or.inr ⟨rfl, hhome⟩
    case hlatest =>
      intro b' hb'
      rw [← hs.latest b' hb']
      exact congrFun hview b'
    case hnodup => exact hs.nodup
    case hroom => exact hs.room
    case hlogged => exact hs.logged
  · cases h

theorem inv_modify {data : Block} (hp : Editing s p i)
    (h : exec start s (.modify p i data) = .ok s') : Inv start s' := by
  obtain ⟨hphase, hidle, hlock⟩ := hp
  cases h
  apply hs.client hphase
  case hphase => rfl
  case hout => rfl
  case hcomm => rfl
  case hbuffers =>
    exact (Buffers.store_inv hs.buffers hlock).congr (hs.pinned_iff_of_inOp hphase)
  case hpending => exact fun _ _ => rfl
  case huses => exact fun q b hb => Or.inl ((Buffers.uses_store i data q b).mp hb)
  case hlatest =>
    intro b hb
    dsimp only
    rw [Buffers.view_store hs.buffers hlock]
    by_cases hbi : b = (s.buffers.cache.buf i).blockno
    · subst hbi
      simp
    · rw [Function.update_of_ne hbi, Function.update_of_ne hbi, hs.latest b hb]
  case hnodup => exact hs.nodup
  case hroom => exact hs.room
  case hlogged => exact hs.logged

theorem inv_logWrite (hp : Editing s p i) (h : exec start s (.logWrite p i) = .ok s') :
    Inv start s' := by
  obtain ⟨hphase, hidle, hlock⟩ := hp
  have hhome := hs.home p _ hphase (hs.buffers.uses_of_lock hlock)
  have hpinned := hs.pinned_iff_of_inOp hphase
  simp only [exec] at h
  split at h
  · rename_i log hlog
    obtain ⟨hroom, rfl⟩ := logWrite_ok hlog
    cases h
    apply hs.client hphase
    case hphase => rfl
    case hout => rfl
    case hcomm => rfl
    case hbuffers =>
      split
      · rename_i hmem
        refine (Buffers.settle_inv hs.buffers ((hpinned _).mpr hmem)).congr fun b => ?_
        rw [absorb_of_mem hmem]
        exact hpinned b
      · rename_i hnew
        have hpin := Buffers.pin_inv hs.buffers hlock fun h => hnew ((hpinned _).mp h)
        refine (Buffers.settle_inv hpin (Or.inr (by simp [Buffers.pin, bpin]))).congr fun b => ?_
        rw [mem_absorb, hpinned]
    case hpending =>
      intro q _
      split <;> rfl
    case huses =>
      intro q b hb
      split at hb
      · exact Or.inl hb
      · exact Or.inl ((Buffers.uses_pin i q b).mp hb)
    case hlatest =>
      intro b hb
      rw [← hs.latest b hb]
      split
      · rfl
      · exact congrFun (Buffers.view_pin i) b
    case hnodup => exact nodup_absorb hs.nodup _
    case hroom =>
      dsimp only
      by_cases hmem : (s.buffers.cache.buf i).blockno ∈ s.log.lh
      · rw [absorb_of_mem hmem]
        exact hs.room
      · rw [absorb_of_notMem hmem, List.length_append, List.length_singleton]
        exact hroom
    case hlogged =>
      intro b hb
      rcases mem_absorb.mp hb with hold | rfl
      · exact hs.logged b hold
      · exact hhome
  · cases h

theorem inv_brelse (hp : Editing s p i) (hdirty : s.buffers.dirty i = false)
    (h : exec start s (.brelse p i) = .ok s') : Inv start s' := by
  obtain ⟨hphase, hidle, hlock⟩ := hp
  have hlocked := hs.buffers.locked i (by simp [hlock])
  cases h
  apply hs.client hphase
  case hphase => rfl
  case hout => rfl
  case hcomm => rfl
  case hbuffers =>
    refine (Buffers.release_inv hs.buffers hlock hidle ?_).congr (hs.pinned_iff_of_inOp hphase)
    exact hs.buffers.clean i hlocked.1 hlocked.2 hdirty
  case hpending => exact fun q hqp => Function.update_of_ne hqp _ _
  case huses =>
    exact fun q b hb => Or.inl ((Buffers.uses_release hs.buffers hlock hidle q b).mp hb).1
  case hlatest =>
    intro b hb
    rw [← hs.latest b hb]
    exact congrFun (Buffers.view_release i p) b
  case hnodup => exact hs.nodup
  case hroom => exact hs.room
  case hlogged => exact hs.logged

theorem inv_acquiresleep (hp : s.buffers.pending p = .acquiring i)
    (hfree : (s.buffers.cache.buf i).lock = none)
    (h : exec start s (.acquiresleep p) = .ok s') : Inv start s' := by
  simp only [exec, hp] at h
  cases h
  apply hs.setBuffers
  case hbuffers => exact Buffers.acquire_inv hs.buffers hp hfree
  case hview => exact Buffers.view_acquire hs.buffers
  case hdisk => rfl
  case huses => exact Buffers.uses_acquire hp hfree
  case hpending =>
    intro q
    by_cases hqp : q = p
    · simp [Buffers.acquire, hqp]
    · simp [Buffers.acquire, hqp]

theorem inv_unref (hp : s.buffers.pending p = .releasing i)
    (h : exec start s (.unref p) = .ok s') : Inv start s' := by
  simp only [exec, hp] at h
  cases h
  apply hs.setBuffers
  case hbuffers => exact Buffers.drop_inv hs.buffers hp
  case hview => exact view_unref _ _ _
  case hdisk => rfl
  case huses => exact Buffers.uses_drop hp
  case hpending =>
    intro q
    by_cases hqp : q = p
    · simp [Buffers.drop, hqp]
    · simp [Buffers.drop, hqp]

end Client

theorem heldBuf_of_uses [DecidableEq P] {s : Buffers P} {p : P} {b : Nat} (h : s.Uses p b)
    (hidle : s.pending p = .none) :
    ∃ i, heldBuf s p b = some i ∧ (s.cache.buf i).lock = some p ∧
      (s.cache.buf i).caches rootDev b := by
  obtain ⟨i, hi, hlock⟩ := h
  simp only [hidle, reduceCtorEq, or_false] at hlock
  cases hfind : heldBuf s p b with
  | none =>
    have := List.find?_eq_none.mp hfind i (List.mem_finRange i)
    simp [hlock, hi] at this
  | some j =>
    have hj := List.find?_some hfind
    exact ⟨j, rfl, by simpa using hj⟩

section Commit

variable [Fintype P] [DecidableEq P] {s s' : State P} (hs : Inv start s) {p : P}
  {rest : List Call} {m : Machine} {held : List Nat} {b : Nat}
include hs

theorem Inv.pinned_iff_of_committing {calls : List Call} (hp : s.phase p = .committing calls)
    (b : Nat) : Pinned s b ↔ b ∈ s.log.lh ∧ .bunpin b ∈ calls := by
  refine and_congr_right fun _ => ⟨fun h => h p calls hp, fun h q other hq => ?_⟩
  have hqp : q = p := hs.admitted.committing_unique (by simp [hq, Phase.role])
    (by simp [hp, Phase.role])
  subst hqp
  rw [hp] at hq
  cases hq
  exact h

theorem Inv.keepsPins {call : Call} (hp : s.phase p = .committing (call :: rest))
    (hcall : ∀ b, call ≠ .bunpin b) (b : Nat) :
    Pinned s b ↔ b ∈ s.log.lh ∧ .bunpin b ∈ rest := by
  rw [hs.pinned_iff_of_committing hp, List.mem_cons]
  have := hcall b
  tauto

omit [DecidableEq P] in
theorem Inv.view_eq_latest_of_read {b : Nat} (hb : IsHome start b) {buffers : Buffers P}
    (hview : buffers.view = s.buffers.view) : buffers.view b = s.latest b := by
  rw [hview, hs.latest b hb]

variable (htracks : Tracks s p m held) (hidle : s.buffers.pending p = .none)
include htracks hidle

theorem inv_call_bread (hp : s.phase p = .committing (.bread b :: rest))
    (hsafe : Safe start s.latest m held (.bread b :: rest))
    (h : execCall start (s.setPhase p (.committing rest)) p (.bread b) = .ok s') :
    Inv start s' := by
  obtain ⟨hfresh, hsafe⟩ := hsafe
  simp only [execCall] at h
  split at h
  · rename_i buffers hget
    cases h
    obtain ⟨hview, hdisk⟩ := Buffers.view_get hs.buffers hget
    have huses := Buffers.uses_get hs.buffers hidle hget
    apply hs.commitStep hp
    case hphase => rfl
    case hout => rfl
    case hcomm => rfl
    case hlatest => rfl
    case hbuffers =>
      exact (Buffers.get_inv hs.buffers hidle hget).congr (hs.keepsPins hp (by simp))
    case hpending => exact fun q hqp => Buffers.pending_get hs.buffers hget hqp
    case huses => exact fun q b' hqp => (huses q b').trans (by simp [hqp])
    case hview => exact fun b' hb' => hs.view_eq_latest_of_read hb' hview
    case hlh => exact List.Sublist.refl _
    case hsafe => exact hsafe
    case htracks =>
      refine ⟨htracks.disk.trans hdisk.symm, htracks.lh, ?_,
        List.nodup_cons.mpr ⟨hfresh, htracks.nodup⟩, fun b' => ?_⟩
      · rw [read_bread, htracks.read]
        exact hview.symm
      · rw [List.mem_cons, htracks.held, or_comm]
        exact ((huses p b').trans (by simp)).symm
  · cases h

omit hidle in
theorem inv_call_store {call : Call} {dst : Nat} {data : Block} {i : BufIndex}
    (hp : s.phase p = .committing (call :: rest)) (hcall : ∀ b, call ≠ .bunpin b)
    (hlock : (s.buffers.cache.buf i).lock = some p)
    (hi : (s.buffers.cache.buf i).caches rootDev dst)
    (hdata : IsHome start dst → data = s.latest dst)
    (hsafe : Safe start s.latest (m.setBuf dst data) held rest) :
    Inv start { s.setPhase p (.committing rest) with buffers := s.buffers.store i data } := by
  have hview : (s.buffers.store i data).view = _ := Buffers.view_store hs.buffers hlock
  rw [hi.2] at hview
  apply hs.commitStep hp
  case hphase => rfl
  case hout => rfl
  case hcomm => rfl
  case hlatest => rfl
  case hbuffers => exact (Buffers.store_inv hs.buffers hlock).congr (hs.keepsPins hp hcall)
  case hpending => exact fun _ _ => rfl
  case huses => exact fun q b' _ => Buffers.uses_store i data q b'
  case hview =>
    intro b' hb'
    dsimp only
    rw [hview]
    by_cases heq : b' = dst
    · subst heq
      rw [Function.update_self, hdata hb']
    · rw [Function.update_of_ne heq, hs.latest b' hb']
  case hlh => exact List.Sublist.refl _
  case hsafe => exact hsafe
  case htracks =>
    refine ⟨htracks.disk, htracks.lh, ?_, htracks.nodup, fun b' => ?_⟩
    · rw [Machine.read_setBuf, htracks.read]
      exact hview.symm
    · exact (htracks.held b').trans (Buffers.uses_store i data p b').symm

theorem inv_call_memmove {dst src : Nat} (hp : s.phase p = .committing (.memmove dst src :: rest))
    (hsafe : Safe start s.latest m held (.memmove dst src :: rest))
    (h : execCall start (s.setPhase p (.committing rest)) p (.memmove dst src) = .ok s') :
    Inv start s' := by
  obtain ⟨hdst, hsrc, hgoal, hsafe⟩ := hsafe
  obtain ⟨i, hfindi, hlocki, hi⟩ := heldBuf_of_uses ((htracks.held dst).mp hdst) hidle
  obtain ⟨j, hfindj, hlockj, hj⟩ := heldBuf_of_uses ((htracks.held src).mp hsrc) hidle
  have hdata : (s.buffers.cache.buf j).data = m.read src := by
    rw [hs.buffers.data_eq_view hlockj, htracks.read, hj.2]
  simp only [execCall, State.setPhase, hfindi, hfindj] at h
  cases h
  rw [hdata]
  exact inv_call_store hs htracks hp (by simp) hlocki hi hgoal hsafe

theorem inv_call_fillHead (hp : s.phase p = .committing (.fillHead :: rest))
    (hsafe : Safe start s.latest m held (.fillHead :: rest))
    (h : execCall start (s.setPhase p (.committing rest)) p .fillHead = .ok s') :
    Inv start s' := by
  obtain ⟨hstart, hsafe⟩ := hsafe
  obtain ⟨i, hfind, hlock, hi⟩ := heldBuf_of_uses ((htracks.held start).mp hstart) hidle
  have hdata : fillHead (s.buffers.cache.buf i).data s.log.lh =
      fillHead (m.read start) m.lh := by
    rw [hs.buffers.data_eq_view hlock, htracks.read, htracks.lh, hi.2]
  simp only [execCall, State.setPhase, hfind] at h
  cases h
  rw [hdata]
  exact inv_call_store hs htracks hp (by simp) hlock hi
    (fun hhome => absurd rfl hhome.ne_start) hsafe

theorem inv_call_bwrite (hp : s.phase p = .committing (.bwrite b :: rest))
    (hsafe : Safe start s.latest m held (.bwrite b :: rest))
    (h : execCall start (s.setPhase p (.committing rest)) p (.bwrite b) = .ok s') :
    Inv start s' := by
  obtain ⟨hheld, -, hsafe⟩ := hsafe
  obtain ⟨i, hfind, hlock, hi⟩ := heldBuf_of_uses ((htracks.held b).mp hheld) hidle
  have hview := Buffers.view_write hs.buffers hlock
  simp only [execCall, State.setPhase, hfind] at h
  cases h
  apply hs.commitStep hp
  case hphase => rfl
  case hout => rfl
  case hcomm => rfl
  case hlatest => rfl
  case hbuffers => exact (Buffers.write_inv hs.buffers hlock).congr (hs.keepsPins hp (by simp))
  case hpending => exact fun _ _ => rfl
  case huses => exact fun _ _ _ => Iff.rfl
  case hview => exact fun b' hb' => hs.view_eq_latest_of_read hb' hview
  case hlh => exact List.Sublist.refl _
  case hsafe => exact hsafe
  case htracks =>
    refine ⟨?_, htracks.lh, ?_, htracks.nodup, htracks.held⟩
    · dsimp only [Log.exec, Buffers.write]
      rw [htracks.disk, htracks.read, hs.buffers.data_eq_view hlock, hi.2]
    · rw [read_bwrite, htracks.read]
      exact hview.symm

theorem inv_call_bunpin (hp : s.phase p = .committing (.bunpin b :: rest))
    (hsafe : Safe start s.latest m held (.bunpin b :: rest))
    (h : execCall start (s.setPhase p (.committing rest)) p (.bunpin b) = .ok s') :
    Inv start s' := by
  obtain ⟨hheld, hlogged, hclean, honce, hsafe⟩ := hsafe
  obtain ⟨i, hfind, hlock, hi⟩ := heldBuf_of_uses ((htracks.held b).mp hheld) hidle
  have hpinned := hs.pinned_iff_of_committing hp
  have hview := Buffers.view_unpin (s := s.buffers) i
  simp only [execCall, State.setPhase, hfind] at h
  cases h
  apply hs.commitStep hp
  case hphase => rfl
  case hout => rfl
  case hcomm => rfl
  case hlatest => rfl
  case hbuffers =>
    refine (Buffers.unpin_inv hs.buffers hlock ?_ ?_).congr fun b' => ?_
    · rw [hi.2]
      exact (hpinned b).mpr ⟨htracks.lh ▸ hlogged, List.mem_cons_self⟩
    · rw [hs.buffers.data_eq_view hlock, hi.2, ← htracks.read, hclean, htracks.disk]
    · rw [hpinned, hi.2, List.mem_cons, Call.bunpin.injEq]
      constructor
      · rintro ⟨⟨hmem, rfl | hb'⟩, hne⟩
        · exact absurd rfl hne
        · exact ⟨hmem, hb'⟩
      · rintro ⟨hmem, hb'⟩
        refine ⟨⟨hmem, Or.inr hb'⟩, ?_⟩
        rintro rfl
        exact honce hb'
  case hpending => exact fun _ _ => rfl
  case huses => exact fun q b' _ => Buffers.uses_unpin i q b'
  case hview => exact fun b' hb' => hs.view_eq_latest_of_read hb' hview
  case hlh => exact List.Sublist.refl _
  case hsafe => exact hsafe
  case htracks =>
    refine ⟨htracks.disk, htracks.lh, htracks.read.trans hview.symm, htracks.nodup, fun b' => ?_⟩
    exact (htracks.held b').trans (Buffers.uses_unpin i p b').symm

theorem inv_call_brelse (hp : s.phase p = .committing (.brelse b :: rest))
    (hsafe : Safe start s.latest m held (.brelse b :: rest))
    (h : execCall start (s.setPhase p (.committing rest)) p (.brelse b) = .ok s') :
    Inv start s' := by
  obtain ⟨hheld, hclean, hsafe⟩ := hsafe
  obtain ⟨i, hfind, hlock, hi⟩ := heldBuf_of_uses ((htracks.held b).mp hheld) hidle
  have huses := Buffers.uses_release hs.buffers hlock hidle
  have hview := Buffers.view_release (s := s.buffers) i p
  simp only [execCall, State.setPhase, hfind] at h
  cases h
  apply hs.commitStep hp
  case hphase => rfl
  case hout => rfl
  case hcomm => rfl
  case hlatest => rfl
  case hbuffers =>
    refine (Buffers.release_inv hs.buffers hlock hidle ?_).congr (hs.keepsPins hp (by simp))
    rw [hs.buffers.data_eq_view hlock, hi.2, ← htracks.read, ← htracks.disk,
      hs.keepsPins hp (by simp), ← htracks.lh]
    exact hclean
  case hpending => exact fun q hqp => Function.update_of_ne hqp _ _
  case huses => exact fun q b' hqp => (huses q b').trans (by simp [hqp])
  case hview => exact fun b' hb' => hs.view_eq_latest_of_read hb' hview
  case hlh => exact List.Sublist.refl _
  case hsafe => exact hsafe
  case htracks =>
    refine ⟨htracks.disk, htracks.lh, htracks.read.trans hview.symm,
      htracks.nodup.erase b, fun b' => ?_⟩
    rw [htracks.nodup.mem_erase_iff, htracks.held, huses, hi.2]
    tauto

omit hidle in
theorem inv_call_resetHead (hp : s.phase p = .committing (.resetHead :: rest))
    (hsafe : Safe start s.latest m held (.resetHead :: rest))
    (h : execCall start (s.setPhase p (.committing rest)) p .resetHead = .ok s') :
    Inv start s' := by
  obtain ⟨hnone, hsafe⟩ := hsafe
  cases h
  apply hs.commitStep hp
  case hphase => rfl
  case hout => rfl
  case hcomm => rfl
  case hlatest => rfl
  case hbuffers =>
    refine hs.buffers.congr fun b => ?_
    rw [hs.keepsPins hp (by simp)]
    simp [hnone]
  case hpending => exact fun _ _ => rfl
  case huses => exact fun _ _ _ => Iff.rfl
  case hview => exact hs.latest
  case hlh => exact List.nil_sublist _
  case hsafe => exact hsafe
  case htracks => exact ⟨htracks.disk, rfl, htracks.read, htracks.nodup, htracks.held⟩

end Commit

section Phases

variable [Fintype P] [DecidableEq P] {s s' : State P} (hs : Inv start s) {p : P}
include hs

theorem Inv.enter {phase : Phase} {log : LogState} (hlh : log.lh = s.log.lh)
    (hadmitted : Admitted log (Function.update (Phase.role ∘ s.phase) p phase.role))
    (hpinned : ∀ b, Pinned s b ↔ Pinned (s.enter p phase log) b)
    (hidle : phase = .outside ∨ phase = .committed →
      s.buffers.pending p = .none ∧ ∀ b, ¬s.buffers.Uses p b)
    (hhome : phase = .inOp → ∀ b, s.buffers.Uses p b → IsHome start b ∧ b < 2 ^ 32)
    (hcommit : ∀ calls, phase = .committing calls →
      ∃ m held, Tracks s p m held ∧ Safe start s.latest m held calls)
    (hcommitted : phase = .committed → s.log.lh = []) :
    Inv start (s.enter p phase log) := by
  have hself : (s.enter p phase log).phase p = phase := Function.update_self _ _ _
  have hother : ∀ q, q ≠ p → (s.enter p phase log).phase q = s.phase q :=
    fun q hqp => Function.update_of_ne hqp _ _
  constructor
  case buffers => exact hs.buffers.congr hpinned
  case admitted =>
    dsimp only [State.enter]
    rw [Function.comp_update]
    exact hadmitted
  case idle =>
    intro q hq
    by_cases hqp : q = p
    · subst hqp
      exact hidle (hself ▸ hq)
    · exact hs.idle q (hother q hqp ▸ hq)
  case home =>
    intro q b hq
    by_cases hqp : q = p
    · subst hqp
      exact hhome (hself ▸ hq) b
    · exact hs.home q b (hother q hqp ▸ hq)
  case latest => exact hs.latest
  case nodup =>
    dsimp only [State.enter]
    rw [hlh]
    exact hs.nodup
  case room =>
    dsimp only [State.enter]
    rw [hlh]
    exact hs.room
  case logged =>
    dsimp only [State.enter]
    rw [hlh]
    exact hs.logged
  case commit =>
    intro q calls hq
    have hold : ∃ m held, Tracks s q m held ∧ Safe start s.latest m held calls := by
      by_cases hqp : q = p
      · subst hqp
        exact hcommit calls (hself ▸ hq)
      · exact hs.commit q calls (hother q hqp ▸ hq)
    obtain ⟨m, held, htracks, hsafe⟩ := hold
    exact ⟨m, held, ⟨htracks.disk, htracks.lh.trans hlh.symm, htracks.read, htracks.nodup,
      htracks.held⟩, hsafe⟩
  case committed =>
    intro q hq
    dsimp only [State.enter]
    rw [hlh]
    by_cases hqp : q = p
    · subst hqp
      exact hcommitted (hself ▸ hq)
    · exact hs.committed q (hother q hqp ▸ hq)

theorem inv_beginOp (hp : s.phase p = .outside) (h : exec start s (.beginOp p) = .ok s') :
    Inv start s' := by
  simp only [exec] at h
  split at h
  · cases h
    exact hs
  · rename_i log hbegin
    obtain ⟨hidle, -, rfl⟩ := beginOp_eq_some hbegin
    cases h
    have hnone : ∀ q, (s.phase q).role ≠ .committing := by
      intro q hq
      have := hs.admitted.committing_of_role (p := q) hq
      simp [hidle] at this
    apply hs.enter
    case hlh => rfl
    case hadmitted => exact hs.admitted.beginOp (by simp [hp, Phase.role]) hidle
    case hpinned =>
      intro b
      refine and_congr_right fun _ => ⟨fun _ q calls hq => ?_, fun _ q calls hq => ?_⟩
      · by_cases hqp : q = p
        · simp [State.enter, hqp] at hq
        · simp only [State.enter, Function.update_of_ne hqp] at hq
          exact absurd (by simp [hq, Phase.role]) (hnone q)
      · exact absurd (by simp [hq, Phase.role]) (hnone q)
    case hidle => simp
    case hhome => exact fun _ b hb => absurd hb ((hs.idle p (Or.inl hp)).2 b)
    case hcommit => simp
    case hcommitted => simp

omit [Fintype P] [DecidableEq P] hs in
theorem not_uses {b : Nat} (hidle : s.buffers.pending p = .none)
    (hfree : ∀ i, (s.buffers.cache.buf i).lock ≠ some p) : ¬s.buffers.Uses p b := by
  rintro ⟨i, -, hlock | hpending⟩
  · exact hfree i hlock
  · simp [hidle] at hpending

theorem Inv.view_eq_disk (hp : s.phase p = .inOp) (hlast : s.log.outstanding = 1)
    (hfree : ∀ b, ¬s.buffers.Uses p b) {b : Nat} (hb : b ∉ s.log.lh) :
    s.buffers.view b = s.buffers.disk b := by
  have hrole : (Phase.role ∘ s.phase) p = .inOp := by simp [hp, Phase.role]
  have hunlocked : ∀ i, (s.buffers.cache.buf i).lock = none := by
    intro i
    cases hlock : (s.buffers.cache.buf i).lock with
    | none => rfl
    | some q =>
      have huses := hs.buffers.uses_of_lock hlock
      have hqp : q ≠ p := by
        rintro rfl
        exact hfree _ huses
      cases hq : s.phase q with
      | outside => exact absurd huses ((hs.idle q (Or.inl hq)).2 _)
      | inOp =>
        exact absurd (by simp [hq, Phase.role]) (hs.admitted.ne_inOp_of_last hrole hlast hqp)
      | committing calls => exact absurd (by simp [hq, Phase.role]) (hs.not_committing hp q)
      | committed => exact absurd (by simp [hq, Phase.role]) (hs.not_committing hp q)
  rcases sees_view s.buffers.cache s.buffers.disk b with ⟨i, hi, hvalid, hdata⟩ | hdisk
  · have hsettled : s.buffers.dirty i = false := by
      by_contra h
      exact hs.buffers.dirty i (by simpa using h) (hunlocked i)
    rcases hs.buffers.clean i hi.1 hvalid hsettled with hclean | hpin
    · rw [hi.2] at hclean
      exact hdata.symm.trans hclean
    · exact absurd (hi.2 ▸ hpin.1) hb
  · exact hdisk.symm

theorem inv_endOp (hp : s.phase p = .inOp) (hidle : s.buffers.pending p = .none)
    (hfree : ∀ i, (s.buffers.cache.buf i).lock ≠ some p)
    (h : exec start s (.endOp p) = .ok s') : Inv start s' := by
  have hrole : (Phase.role ∘ s.phase) p = .inOp := by simp [hp, Phase.role]
  have hnone : ∀ b, ¬s.buffers.Uses p b := fun b => not_uses hidle hfree
  have hcommitting := hs.admitted.not_committing hrole
  have hpinned := hs.pinned_iff_of_inOp hp
  by_cases hlast : s.log.outstanding = 1
  · simp only [exec, endOp_last hcommitting hlast] at h
    cases h
    apply hs.enter
    case hlh => rfl
    case hadmitted => exact hs.admitted.endOp_last hrole hlast
    case hpinned =>
      intro b
      rw [hpinned]
      refine ⟨fun hb => ⟨hb, fun q calls hq => ?_⟩, And.left⟩
      by_cases hqp : q = p
      · subst hqp
        simp only [State.enter, Function.update_self, Phase.committing.injEq] at hq
        exact hq ▸ bunpin_mem_commit hb
      · simp only [State.enter, Function.update_of_ne hqp] at hq
        exact absurd (by simp [hq, Phase.role]) (hs.not_committing hp q)
    case hidle => simp
    case hhome => simp
    case hcommit =>
      rintro calls ⟨⟩
      let m : Machine := ⟨s.buffers.disk, fun b => some (s.buffers.view b), s.log.lh⟩
      refine ⟨m, [], ⟨rfl, rfl, rfl, List.nodup_nil, fun b => by simp [hnone b]⟩, ?_⟩
      apply safe_commit (m := m) hs.nodup (fun b hb => (hs.logged b hb).1) hs.room
        (fun b hb => (hs.logged b hb).2)
      · exact fun b hb => (hs.latest b (hs.logged b hb).1).symm
      · exact fun b hb => hs.view_eq_disk hp hlast hnone hb
    case hcommitted => simp
  · simp only [exec, endOp_more hcommitting hlast] at h
    cases h
    apply hs.enter
    case hlh => rfl
    case hadmitted => exact hs.admitted.endOp_more hrole
    case hpinned =>
      intro b
      rw [hpinned]
      refine ⟨fun hb => ⟨hb, fun q calls hq => ?_⟩, And.left⟩
      by_cases hqp : q = p
      · simp [State.enter, hqp] at hq
      · simp only [State.enter, Function.update_of_ne hqp] at hq
        exact absurd (by simp [hq, Phase.role]) (hs.not_committing hp q)
    case hidle => exact fun _ => ⟨hidle, hnone⟩
    case hhome => simp
    case hcommit => simp
    case hcommitted => simp

theorem inv_commitReturn (hidle : s.buffers.pending p = .none)
    (hp : s.phase p = .committing []) (h : exec start s (.commitReturn p) = .ok s') :
    Inv start s' := by
  obtain ⟨m, held, htracks, hheld, hlh, -⟩ := hs.commit p [] hp
  have hempty : s.log.lh = [] := htracks.lh ▸ hlh
  cases h
  apply hs.enter
  case hlh => rfl
  case hadmitted => exact hs.admitted.set_same (by simp [hp, Phase.role]) rfl rfl
  case hpinned =>
    intro b
    simp [Pinned, State.enter, hempty]
  case hidle =>
    refine fun _ => ⟨hidle, fun b hb => ?_⟩
    have := (htracks.held b).mpr hb
    simp [hheld] at this
  case hhome => simp
  case hcommit => simp
  case hcommitted => exact fun _ => hempty

theorem inv_endCommit (hp : s.phase p = .committed)
    (h : exec start s (.endCommit p) = .ok s') : Inv start s' := by
  cases h
  apply hs.enter
  case hlh => rfl
  case hadmitted => exact hs.admitted.endCommit (by simp [hp, Phase.role])
  case hpinned =>
    intro b
    simp [Pinned, State.enter, endCommit, hs.committed p hp]
  case hidle => exact fun _ => hs.idle p (Or.inr hp)
  case hhome => simp
  case hcommit => simp
  case hcommitted => simp

end Phases

theorem inv_step [Fintype P] [DecidableEq P] {s s' : State P} {a : Action P} (hs : Inv start s)
    (ha : enabled start s a) (h : exec start s a = .ok s') : Inv start s' := by
  cases a with
  | beginOp p => exact inv_beginOp hs ha h
  | bread p b => exact inv_bread hs ha.1 ha.2.1 ha.2.2 h
  | acquiresleep p =>
    obtain ⟨i, hp, hfree⟩ := ha
    exact inv_acquiresleep hs hp hfree h
  | modify p i data => exact inv_modify hs ha h
  | logWrite p i => exact inv_logWrite hs ha h
  | brelse p i => exact inv_brelse hs ha.1 ha.2 h
  | unref p =>
    obtain ⟨i, hp⟩ := ha
    exact inv_unref hs hp h
  | endOp p => exact inv_endOp hs ha.1 ha.2.1 ha.2.2 h
  | commitCall p =>
    obtain ⟨hidle, call, rest, hp⟩ := ha
    obtain ⟨m, held, htracks, hsafe⟩ := hs.commit p _ hp
    simp only [exec, hp] at h
    cases call with
    | bread b => exact inv_call_bread hs htracks hidle hp hsafe h
    | memmove dst src => exact inv_call_memmove hs htracks hidle hp hsafe h
    | fillHead => exact inv_call_fillHead hs htracks hidle hp hsafe h
    | bwrite b => exact inv_call_bwrite hs htracks hidle hp hsafe h
    | bunpin b => exact inv_call_bunpin hs htracks hidle hp hsafe h
    | brelse b => exact inv_call_brelse hs htracks hidle hp hsafe h
    | resetHead => exact inv_call_resetHead hs htracks hp hsafe h
  | commitReturn p => exact inv_commitReturn hs ha.1 ha.2 h
  | endCommit p => exact inv_endCommit hs ha h

theorem inv_initial [Fintype P] {s : State P} (h : Initial s) : Inv start s := by
  have hfree : ∀ p b, ¬s.buffers.Uses p b := by
    intro p b
    exact not_uses (h.idle p).1 fun i => by simp [(h.unused i).2.1]
  have hview : s.buffers.view = s.latest := by
    funext b
    rw [h.latest]
    rcases sees_view s.buffers.cache s.buffers.disk b with ⟨i, hi, hvalid, hdata⟩ | hdisk
    · rw [← hi.2, ← h.clean i hi.1 hvalid, hi.2]
      exact hdata.symm
    · exact hdisk.symm
  have hpinned : ∀ b, ¬Pinned s b := by
    intro b hb
    have := hb.1
    simp [h.log] at this
  constructor
  case buffers =>
    constructor
    case wf => exact h.wf
    case refcnt =>
      intro i
      obtain ⟨hrefcnt, hlock, hpins, -⟩ := h.unused i
      simp [hrefcnt, hlock, hpins, total, Buffers.pendingCount, h.idle]
    case locked => simp [h.unused]
    case acquiring => simp [h.idle]
    case dirty => simp [h.unused]
    case clean => exact fun i hdev hvalid _ => Or.inl (h.clean i hdev hvalid)
    case pins => simp [h.unused, hpinned]
    case cached => simp [hpinned]
  case admitted =>
    have hphase : Phase.role ∘ s.phase = fun _ => Role.outside := by
      funext p
      simp [h.idle, Phase.role]
    rw [h.log, hphase]
    exact admitted_initial
  case idle => exact fun p _ => ⟨(h.idle p).1, hfree p⟩
  case home => exact fun p b hp => by simp [h.idle] at hp
  case latest => exact fun b _ => congrFun hview b
  case nodup => simp [h.log]
  case room => simp [h.log]
  case logged => simp [h.log]
  case commit => simp [h.idle]
  case committed => simp [h.log]

section Results

variable [Fintype P] [DecidableEq P] {s s' : State P} (hs : Inv start s)
include hs

omit [Fintype P] hs in
theorem disk_get {buffers buffers' : Buffers P} {p : P} {b : Nat}
    (h : buffers.get p b = .ok buffers') : buffers'.disk = buffers.disk := by
  unfold Buffers.get at h
  split at h
  · cases h
    rfl
  · cases h

omit [Fintype P] hs in
theorem disk_execCall {p : P} {call : Call} (h : execCall start s p call = .ok s')
    (hcall : ∀ b, call ≠ .bwrite b) : s'.buffers.disk = s.buffers.disk := by
  cases call with
  | bwrite b => exact absurd rfl (hcall b)
  | bread b =>
    simp only [execCall] at h
    split at h
    · rename_i buffers hget
      cases h
      exact disk_get hget
    · cases h
  | memmove dst src =>
    simp only [execCall] at h
    split at h <;> cases h <;> rfl
  | fillHead | bunpin b | brelse b =>
    simp only [execCall] at h
    split at h <;> cases h <;> rfl
  | resetHead =>
    cases h
    rfl

omit [Fintype P] hs in
theorem disk_exec {a : Action P} (h : exec start s a = .ok s') (ha : ∀ p, a ≠ .commitCall p) :
    s'.buffers.disk = s.buffers.disk := by
  cases a with
  | commitCall p => exact absurd rfl (ha p)
  | bread p b =>
    simp only [exec] at h
    split at h
    · rename_i buffers hget
      cases h
      exact disk_get hget
    · cases h
  | logWrite p i =>
    simp only [exec] at h
    split at h
    · cases h
      dsimp only [Buffers.settle]
      split <;> rfl
    · cases h
  | beginOp p | acquiresleep p | unref p | endOp p =>
    simp only [exec] at h
    split at h <;> cases h <;> rfl
  | modify p i data | brelse p i | commitReturn p | endCommit p =>
    cases h
    rfl

theorem Inv.home_write {a : Action P} {b : Nat} (ha : enabled start s a)
    (h : exec start s a = .ok s') (hb : IsHome start b)
    (hchange : s'.buffers.disk b ≠ s.buffers.disk b) :
    b ∈ s.log.lh ∧ readHead (s.buffers.disk start) = s.log.lh := by
  by_cases hcommit : ∀ p, a ≠ .commitCall p
  · exact absurd (congrFun (disk_exec h hcommit) b) hchange
  obtain ⟨p, rfl⟩ := not_forall_not.mp hcommit
  obtain ⟨hidle, call, rest, hp⟩ := ha
  obtain ⟨m, held, htracks, hsafe⟩ := hs.commit p _ hp
  simp only [exec, hp] at h
  by_cases hcall : ∀ b, call ≠ .bwrite b
  · exact absurd (congrFun (disk_execCall h hcall) b) hchange
  obtain ⟨dst, rfl⟩ := not_forall_not.mp hcall
  obtain ⟨hheld, hcommitted, -⟩ := hsafe
  obtain ⟨i, hfind, -, hi⟩ := heldBuf_of_uses ((htracks.held dst).mp hheld) hidle
  simp only [execCall, State.setPhase, hfind] at h
  cases h
  have hdst : b = dst := by
    by_contra hne
    refine hchange (Function.update_of_ne ?_ _ _)
    rwa [hi.2]
  subst hdst
  rw [← htracks.lh, ← htracks.disk]
  exact hcommitted hb

theorem Inv.committed_clean {p : P} (hp : s.phase p = .committed) (i : BufIndex) :
    s.buffers.pins i = 0 ∧ ((s.buffers.cache.buf i).dev = rootDev →
      (s.buffers.cache.buf i).valid = true →
      (s.buffers.cache.buf i).data = s.buffers.disk (s.buffers.cache.buf i).blockno) := by
  have hrole : (Phase.role ∘ s.phase) p = .committing := by simp [hp, Phase.role]
  have hnone : ¬Pinned s (s.buffers.cache.buf i).blockno := by
    intro h
    simpa [hs.committed p hp] using h.1
  have hunlocked : (s.buffers.cache.buf i).lock = none := by
    cases hlock : (s.buffers.cache.buf i).lock with
    | none => rfl
    | some q =>
      have huses := hs.buffers.uses_of_lock hlock
      cases hq : s.phase q with
      | outside => exact absurd huses ((hs.idle q (Or.inl hq)).2 _)
      | committed => exact absurd huses ((hs.idle q (Or.inr hq)).2 _)
      | inOp => exact absurd (by simp [hq, Phase.role]) (hs.admitted.ne_inOp (q := q) hrole)
      | committing calls =>
        have hqp := hs.admitted.committing_unique (p := q) (by simp [hq, Phase.role]) hrole
        simp [hqp, hp] at hq
  constructor
  · have := hs.buffers.pins i
    have : s.buffers.pins i ≠ 1 := fun h => hnone ((hs.buffers.pins i).2.mp h).2
    omega
  · intro hdev hvalid
    have hsettled : s.buffers.dirty i = false := by
      by_contra h
      exact hs.buffers.dirty i (by simpa using h) hunlocked
    exact (hs.buffers.clean i hdev hvalid hsettled).resolve_right hnone

theorem Inv.committed_disk {p : P} (hp : s.phase p = .committed) {b : Nat}
    (hb : IsHome start b) : s.buffers.disk b = s.latest b := by
  rw [← hs.latest b hb]
  rcases sees_view s.buffers.cache s.buffers.disk b with ⟨i, hi, hvalid, hdata⟩ | hdisk
  · rw [← hi.2, ← (hs.committed_clean hp i).2 hi.1 hvalid, hi.2]
    exact hdata
  · exact hdisk

omit [DecidableEq P] in
theorem Inv.pinned_buffer {b : Nat} (hb : Pinned s b) :
    ∃ i, (s.buffers.cache.buf i).caches rootDev b ∧
      (∀ j, (s.buffers.cache.buf j).caches rootDev b → j = i) ∧ s.buffers.pins i = 1 ∧
      (s.buffers.cache.buf i).valid = true ∧ (s.buffers.cache.buf i).data = s.latest b := by
  obtain ⟨i, hi, hvalid⟩ := hs.buffers.cached b hb
  have hview := hs.buffers.wf.view_of_valid s.buffers.disk hi.1 hvalid
  refine ⟨i, hi, fun j hj => hs.buffers.wf.unique j i b hj hi, ?_, hvalid, ?_⟩
  · exact (hs.buffers.pins i).2.mpr ⟨hi.1, hi.2.symm ▸ hb⟩
  · rw [← hview, hi.2]
    exact hs.latest b (hs.logged b hb.1).1

end Results

/-- Logged updates are neither lost nor written early, in every reachable state:
every block that the log has pinned has one buffer, with one pin and the latest
data; the reference counts are the pins and the users, so they never underflow;
a home block is written only when the disk's header lists the whole log; and
when `commit` has finished no pin is left, the buffers equal the disk and the
disk has the latest data. -/
theorem logged_updates_kept [Fintype P] [DecidableEq P] {s : State P}
    (h : (system P start).Reachable (.ok s)) :
    (∀ b, Pinned s b → ∃ i, (s.buffers.cache.buf i).caches rootDev b ∧
      (∀ j, (s.buffers.cache.buf j).caches rootDev b → j = i) ∧ s.buffers.pins i = 1 ∧
      (s.buffers.cache.buf i).valid = true ∧ (s.buffers.cache.buf i).data = s.latest b) ∧
    (∀ i, (s.buffers.cache.buf i).refcnt =
      s.buffers.pins i + (s.buffers.cache.buf i).lock.isSome.toNat +
        total (Buffers.pendingCount i) s.buffers.pending) ∧
    (∀ a s' b, enabled start s a → exec start s a = .ok s' → IsHome start b →
      s'.buffers.disk b ≠ s.buffers.disk b →
        b ∈ s.log.lh ∧ readHead (s.buffers.disk start) = s.log.lh) ∧
    (∀ p, s.phase p = .committed → ∀ i, s.buffers.pins i = 0 ∧
      ((s.buffers.cache.buf i).dev = rootDev → (s.buffers.cache.buf i).valid = true →
        (s.buffers.cache.buf i).data = s.buffers.disk (s.buffers.cache.buf i).blockno)) ∧
    (∀ p b, s.phase p = .committed → IsHome start b → s.buffers.disk b = s.latest b) := by
  have hs : Inv start s := h.invariant_ok (Inv start) (fun _ h => inv_initial h)
    fun _ _ _ hs ha _ hexec => inv_step hs ha hexec
  exact ⟨fun b hb => hs.pinned_buffer hb, hs.buffers.refcnt,
    fun a s' b ha hexec hb hchange => hs.home_write ha hexec hb hchange,
    fun p hp i => hs.committed_clean hp i, fun p b hp hb => hs.committed_disk hp hb⟩

section Sample

def firstBuf : BufIndex := ⟨0, Nat.succ_pos _⟩

def bootState : State (Fin 1) where
  buffers := ⟨binit, fun _ => Lib.Bytes.zero bsize, fun _ => 0, fun _ => false, fun _ => .none⟩
  log := ⟨0, false, []⟩
  phase := fun _ => .outside
  latest := fun _ => Lib.Bytes.zero bsize

theorem initial_bootState : Initial bootState where
  wf := ⟨by simp [bootState, binit], by simp [bootState, binit, Buf.caches, rootDev]⟩
  unused := by simp [bootState, binit]
  clean := by simp [bootState, binit]
  idle := by simp [bootState]
  log := rfl
  latest := rfl

def logRun : List (Action (Fin 1)) :=
  [.beginOp 0, .bread 0 40, .acquiresleep 0, .modify 0 firstBuf (Lib.Bytes.zero bsize),
    .logWrite 0 firstBuf]

def unpinRun : List (Action (Fin 1)) :=
  let bread : List (Action (Fin 1)) := [.commitCall 0, .acquiresleep 0]
  let brelse : List (Action (Fin 1)) := [.commitCall 0, .unref 0]
  logRun ++ [.brelse 0 firstBuf, .unref 0, .endOp 0] ++
    (bread ++ bread ++ [.commitCall 0, .commitCall 0] ++ brelse ++ brelse) ++
    (bread ++ [.commitCall 0, .commitCall 0] ++ brelse) ++
    (bread ++ bread ++ [.commitCall 0, .commitCall 0, .commitCall 0])

def observe (s : State (Fin 1)) : List Nat × Nat × Nat × Nat × Phase :=
  (s.log.lh, s.buffers.pins firstBuf, (s.buffers.cache.buf firstBuf).dev,
    (s.buffers.cache.buf firstBuf).blockno, s.phase 0)

def outcome (actions : List (Action (Fin 1))) : Option (List Nat × Nat × Nat × Nat × Phase) :=
  match (system (Fin 1) 2).runActions (fun _ _ => True) bootState actions with
  | some (.ok s) => some (observe s)
  | _ => none

theorem reachable_of_outcome {actions : List (Action (Fin 1))}
    {x : List Nat × Nat × Nat × Nat × Phase} (h : outcome actions = some x) :
    ∃ s, (system (Fin 1) 2).Reachable (.ok s) ∧ observe s = x := by
  unfold outcome at h
  split at h
  · rename_i s hrun
    cases h
    exact ⟨s, System.Reach.of_runActions (.init initial_bootState) hrun, rfl⟩
  · cases h

end Sample

theorem logged_updates_kept_logged : ∃ s : State (Fin 1), (system (Fin 1) 2).Reachable (.ok s) ∧
    Pinned s 40 ∧ ∃ i, (s.buffers.cache.buf i).caches rootDev 40 ∧ s.buffers.pins i = 1 := by
  obtain ⟨s, hreach, hobserve⟩ :=
    reachable_of_outcome (show outcome logRun = some ([40], 1, 1, 40, .inOp) from rfl)
  simp only [observe, Prod.mk.injEq] at hobserve
  obtain ⟨hlh, -, -, -, hphase⟩ := hobserve
  have hpinned : Pinned s 40 := by
    refine ⟨by simp [hlh], fun p calls hp => ?_⟩
    rw [Subsingleton.elim p 0, hphase] at hp
    cases hp
  obtain ⟨i, hi, -, hpins, -⟩ := (logged_updates_kept hreach).1 40 hpinned
  exact ⟨s, hreach, hpinned, i, hi, hpins⟩

/-- After its `bunpin`, a block is unpinned and still listed in the header. -/
theorem unpinned_while_logged : ∃ s : State (Fin 1), (system (Fin 1) 2).Reachable (.ok s) ∧
    40 ∈ s.log.lh ∧ ∃ i, (s.buffers.cache.buf i).caches rootDev 40 ∧ s.buffers.pins i = 0 := by
  have hrun : outcome unpinRun = some ([40], 0, 1, 40,
      .committing ([.brelse 3, .brelse 40, .resetHead] ++ writeHead 2)) := rfl
  obtain ⟨s, hreach, hobserve⟩ := reachable_of_outcome hrun
  simp only [observe, Prod.mk.injEq] at hobserve
  obtain ⟨hlh, hpins, hdev, hblockno, -⟩ := hobserve
  exact ⟨s, hreach, by simp [hlh], firstBuf, ⟨hdev, hblockno⟩, hpins⟩

end Xv6.Log.Shared
