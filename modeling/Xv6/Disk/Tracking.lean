import Xv6.Disk.Requests

/-! Every step of the driver and of the device keeps track of the requests. -/
namespace Xv6.Disk

open Lib

variable {B C : Type} [DecidableEq B] [DecidableEq C] {sector : B → Nat} {s t : State C B}
  {a : Action C B} {c : C} {pos pos' : Pos B} {b : B} {idx : Idx} {k : Nat} {e : Entry}

theorem Inv.lock_turn (hs : Inv s) (h : Turn sector s a (.ok t)) :
    Agree (fun _ (_ : Unit) pos => pos.holdsLock = true) (fun _ => t.vdiskLock) t.pos := by
  cases h with
  | enter _ hfree | wake _ hfree | intrEnter _ hfree => exact hs.lock.take_single hfree rfl
  | noDesc hpos | sleep hpos | leave hpos | intrEnd hpos =>
    exact hs.lock.drop_single (by rw [hpos]; rfl) Bool.false_ne_true
  | lockBuf | unlockBuf | consume | complete | post | publish => exact hs.lock
  | call hpos | interrupt hpos | alloc hpos | format hpos | ring hpos | index hpos | done hpos
  | free hpos | intrMore hpos | intrFetch hpos | intrClear _ hpos =>
    refine hs.lock.move fun _ => ?_
    rw [hpos]
    exact Iff.rfl

omit [DecidableEq B] [DecidableEq C] in
theorem Inv.holder (hs : Inv s) {c' : C} (hc : (s.pos c).holdsLock = true)
    (hc' : (s.pos c').holdsLock = true) : c' = c :=
  hs.lock.eq_of_holds (q := ()) hc' hc

section Buffers

omit [DecidableEq B] in
theorem bufs_update (hs : Inv s) (hpos : ∀ b, pos'.buffer = some b → s.bufLock b = some c) :
    ∀ c' b, (Function.update s.pos c pos' c').buffer = some b → s.bufLock b = some c' := by
  intro c' b
  by_cases hc : c' = c
  · subst hc
    rw [Function.update_self]
    exact hpos b
  · rw [Function.update_of_ne hc]
    exact hs.bufs c' b

theorem Inv.bufs_turn (hs : Inv s) (h : Turn sector s a (.ok t)) (c' : C) (b' : B) :
    (t.pos c').buffer = some b' → t.bufLock b' = some c' := by
  cases h with
  | @lockBuf c b hpos hfree =>
    intro hb
    have hold := hs.bufs c' b' hb
    have hne : b' ≠ b := by
      rintro rfl
      rw [hfree] at hold
      cases hold
    exact (Function.update_of_ne hne ..).trans hold
  | @unlockBuf c b hpos hheld =>
    intro hb
    have hold := hs.bufs c' b' hb
    have hne : b' ≠ b := by
      rintro rfl
      rw [hheld] at hold
      cases hold
      rw [hpos] at hb
      cases hb
    exact (Function.update_of_ne hne ..).trans hold
  | call hpos hheld =>
    refine bufs_update (s := s) hs (fun b hb => ?_) c' b'
    cases hb
    exact hheld
  | consume | complete | post | publish => exact hs.bufs c' b'
  | enter hpos | noDesc hpos | alloc hpos | format hpos | ring hpos | index hpos | sleep hpos
  | done hpos | wake hpos =>
    refine bufs_update (s := s) hs (fun b hb => hs.bufs _ b ?_) c' b'
    rw [hpos]
    exact hb
  | interrupt | free | leave | intrEnter | intrMore | intrEnd | intrFetch | intrClear =>
    refine bufs_update (s := s) hs (fun b hb => ?_) c' b'
    cases hb

end Buffers

section Chains

omit [DecidableEq B] in
theorem mem_chain_update {i : Fin num} (c' : C) :
    i ∈ (Function.update s.pos c pos' c').chain ↔
      (c' ≠ c ∧ i ∈ (s.pos c').chain) ∨ (c' = c ∧ i ∈ pos'.chain) := by
  by_cases hc : c' = c
  · subst hc
    simp
  · simp [hc]

omit [DecidableEq B] in
theorem owns_same (hs : Inv s) (hpos : (s.pos c).chain = pos'.chain) :
    Owns (fun c' i => i ∈ (Function.update s.pos c pos' c').chain)
      (fun i => s.disk.descs.free i = false) := by
  refine hs.owns.congr (fun c' i => ?_) fun _ => Iff.rfl
  rw [mem_chain_update]
  by_cases hc : c' = c
  · simp [hc, hpos]
  · simp [hc]

theorem Inv.owns_turn (hs : Inv s) (h : Turn sector s a (.ok t)) :
    Owns (fun c i => i ∈ (t.pos c).chain) (fun i => t.disk.descs.free i = false) := by
  cases h with
  | @alloc c b write idx descs hpos halloc =>
    have htook : Took s.disk.descs descs idx.toList := took_of_alloc3Desc halloc
    refine hs.owns.acquireAll (i := c) (fun i => i ∈ idx.toList) (fun i hi => ?_)
      (fun c' i => ?_) htook.free
    · rw [htook.fresh i hi]
      exact Bool.noConfusion
    · show i ∈ (Function.update s.pos c _ c').chain ↔ _
      rw [mem_chain_update]
      by_cases hc : c' = c
      · subst hc
        simp [hpos, Pos.chain]
      · simp [hc]
  | noDesc hpos halloc =>
    refine (owns_same hs (by rw [hpos]; rfl)).congr (fun _ _ => Iff.rfl) fun i => ?_
    exact ((took_of_alloc3Desc halloc).free i).trans (by simp)
  | @free c b idx k descs hpos hfree =>
    have hrequest := (hs.noted c)
    rw [hpos] at hrequest
    have hchain : (s.pos c).chain = idx.toList := by rw [hpos]; rfl
    have htaken : ∀ i ∈ idx.toList, s.disk.descs.free i = false :=
      fun i hi => hs.owns.taken_of_holds (i := c) (hchain ▸ hi)
    obtain ⟨d', heq, hfree', -⟩ := hrequest.1.written.chained.freeChain (hchain ▸ hs.nodup c) htaken
    rw [hfree] at heq
    cases heq
    refine hs.owns.releaseAll (i := c) (fun i => i ∈ idx.toList) (fun i hi => hchain ▸ hi)
      (fun c' i => ?_) hfree'
    show i ∈ (Function.update s.pos c _ c').chain ↔ _
    rw [mem_chain_update]
    by_cases hc : c' = c
    · subst hc
      rw [hchain]
      simp [Pos.chain]
    · simp [hc]
  | lockBuf | unlockBuf | consume | complete | post | publish => exact hs.owns
  | call hpos | interrupt hpos | enter hpos | format hpos | ring hpos | index hpos | sleep hpos
  | done hpos | wake hpos | leave hpos | intrEnter hpos | intrMore hpos | intrEnd hpos
  | intrFetch hpos | intrClear _ hpos => exact owns_same (s := s) hs (by rw [hpos]; rfl)

omit [DecidableEq B] in
theorem nodup_update (hs : Inv s) (hpos : pos'.chain.Nodup) (c' : C) :
    (Function.update s.pos c pos' c').chain.Nodup :=
  (Function.forall_update_iff s.pos fun _ pos => pos.chain.Nodup).2
    ⟨hpos, fun c _ => hs.nodup c⟩ c'

theorem Inv.nodup_turn (hs : Inv s) (h : Turn sector s a (.ok t)) (c' : C) :
    (t.pos c').chain.Nodup := by
  cases h with
  | alloc hpos halloc =>
    refine nodup_update (s := s) hs ?_ c'
    exact (took_of_alloc3Desc halloc).nodup
  | lockBuf | unlockBuf | consume | complete | post | publish => exact hs.nodup c'
  | @format c _ _ _ hpos | @ring c _ _ hpos | @index c _ _ hpos | @sleep c _ _ _ hpos
  | @done c _ _ _ hpos | @wake c _ _ _ hpos =>
    refine nodup_update (s := s) hs ?_ c'
    have hnodup := hs.nodup c
    rw [hpos] at hnodup
    exact hnodup
  | _ =>
    refine nodup_update (s := s) hs ?_ c'
    exact List.nodup_nil

end Chains

section Noted

omit [DecidableEq B] [DecidableEq C] in
theorem Noted.frame (h : Noted s pos)
    (hdesc : ∀ i ∈ pos.chain, t.disk.descs.desc i = s.disk.descs.desc i)
    (hinfo : ∀ i ∈ pos.chain, (t.disk.info i).b = (s.disk.info i).b)
    (hsubmitted : s.submitted <+: t.submitted) (hreported : s.dev.reported <+: t.dev.reported)
    (hkeys : ∀ k ∈ s.handledKeys, k ∈ t.handledKeys)
    (hrequest : ∀ b idx k, pos.request = some (b, idx, k) → Request s b idx k →
      (t.busy b = false ↔ k ∈ t.handledKeys) ∧
      (k ∈ t.dev.finished.map Prod.fst → (t.disk.info idx.head).status = 0))
    (hbusy : ∀ b, pos.buffer = some b → pos.request = none → t.busy b = s.busy b)
    (hlock : pos.holdsLock = true → t.disk.availRing = s.disk.availRing ∧
      t.disk.availIdx = s.disk.availIdx ∧ t.handled = s.handled) : Noted t pos := by
  have hwritten : ∀ {b idx}, pos.chain = idx.toList → Written s b idx → Written t b idx := by
    intro b idx hchain hw
    rw [hchain] at hdesc hinfo
    exact ⟨hw.chained.congr hdesc, (hinfo _ idx.head_mem).trans hw.info⟩
  have hreq : ∀ {b idx k}, pos.request = some (b, idx, k) → Request s b idx k →
      Request t b idx k := by
    intro b idx k hreq hr
    obtain ⟨hbusy', hstatus⟩ := hrequest b idx k hreq hr
    refine ⟨hwritten (Pos.request_facts (s := s) hreq).2.1 hr.written, ?_, hbusy', hstatus⟩
    obtain ⟨more, hmore⟩ := hsubmitted
    rw [← hmore, List.getElem?_append_left (List.getElem?_eq_some_iff.mp hr.head).1]
    exact hr.head
  cases pos with
  | ring b idx => exact ⟨hwritten rfl h.1, (hbusy b rfl rfl).trans h.2⟩
  | index b idx =>
    obtain ⟨hring, hidx, -⟩ := hlock rfl
    refine ⟨hwritten rfl h.1, (hbusy b rfl rfl).trans h.2.1, ?_⟩
    rw [hring, hidx]
    exact h.2.2
  | wait b idx k | asleep b idx k => exact hreq rfl h
  | free b idx k =>
    have hr := hreq rfl h.1
    exact ⟨hr, hr.busy.mpr (hkeys k (h.1.busy.mp h.2))⟩
  | intrFetch =>
    obtain ⟨-, -, hhandled⟩ := hlock rfl
    show t.handled < _
    rw [hhandled]
    exact Nat.lt_of_lt_of_le h hreported.length_le
  | intrCheck id =>
    obtain ⟨-, -, hhandled⟩ := hlock rfl
    obtain ⟨e, he, hid⟩ := h
    obtain ⟨more, hmore⟩ := hreported
    refine ⟨e, ?_, hid⟩
    rw [hhandled, ← hmore, List.getElem?_append_left (List.getElem?_eq_some_iff.mp he).1]
    exact he
  | idle | enter | alloc | format | leave | intrEnter | intrTest => trivial

omit [DecidableEq B] [DecidableEq C] in
theorem Noted.same (h : Noted s pos) (hdisk : t.disk = s.disk) (hbusy : t.busy = s.busy)
    (hposting : t.dev.posting = s.dev.posting) (hreported : t.dev.reported = s.dev.reported)
    (hsubmitted : t.submitted = s.submitted) (hhandled : t.handled = s.handled) : Noted t pos := by
  have hkeys : t.handledKeys = s.handledKeys := by
    simp only [State.handledKeys, hreported, hhandled]
  refine h.frame (fun _ _ => by rw [hdisk]) (fun _ _ => by rw [hdisk]) (by rw [hsubmitted])
    (by rw [hreported]) (fun k hk => hkeys ▸ hk) ?_ (fun _ _ _ => by rw [hbusy])
    fun _ => ⟨by rw [hdisk], by rw [hdisk], hhandled⟩
  intro b idx k hreq hr
  rw [hbusy, hkeys, hdisk, Device.finished, hposting, hreported]
  exact ⟨hr.busy, hr.status⟩

omit [DecidableEq B] [DecidableEq C] in
theorem Noted.other (h : Noted s pos)
    (hdesc : ∀ i ∈ pos.chain, t.disk.descs.desc i = s.disk.descs.desc i)
    (hinfo : ∀ i ∈ pos.chain, t.disk.info i = s.disk.info i)
    (hbusy : ∀ b, pos.buffer = some b → t.busy b = s.busy b)
    (hsubmitted : s.submitted <+: t.submitted) (hdev : t.dev = s.dev)
    (hhandled : t.handled = s.handled) (hlock : pos.holdsLock ≠ true) : Noted t pos := by
  have hkeys : t.handledKeys = s.handledKeys := by simp only [State.handledKeys, hdev, hhandled]
  refine h.frame hdesc (fun i hi => by rw [hinfo i hi]) hsubmitted (by rw [hdev])
    (fun k hk => hkeys ▸ hk) ?_ (fun b hb _ => hbusy b hb) fun hheld => absurd hheld hlock
  intro b idx k hreq hr
  obtain ⟨hbuffer, hchain, -⟩ := Pos.request_facts (s := s) hreq
  rw [hbusy b hbuffer, hkeys, hdev, hinfo _ (hchain ▸ idx.head_mem)]
  exact ⟨hr.busy, hr.status⟩

omit [DecidableEq B] in
theorem noted_update (hother : ∀ c', c' ≠ c → Noted t (s.pos c')) (hpos : Noted t pos') (c' : C) :
    Noted t (Function.update s.pos c pos' c') :=
  (Function.forall_update_iff s.pos fun _ => Noted t).2 ⟨hpos, hother⟩ c'

omit [DecidableEq B] [DecidableEq C] in
theorem Inv.bystander (hs : Inv s) (hlock : (s.pos c).holdsLock = true) {c' : C} (hc : c' ≠ c) :
    (s.pos c').holdsLock ≠ true ∧ (∀ i ∈ (s.pos c').chain, i ∉ (s.pos c).chain) ∧
      ∀ b, (s.pos c').buffer = some b → (s.pos c).buffer ≠ some b :=
  ⟨fun h => hc (hs.holder hlock h), fun _ hi hi' => hc (hs.same_context hi hi'),
    fun _ hb hb' => hc (hs.same_buffer hb hb')⟩

omit [DecidableEq B] in
theorem format_desc_of_not_mem {d : Driver B} {write : Bool} {n : Nat} {i : Fin num}
    (hi : i ∉ idx.toList) :
    (d.format b write n idx).descs.desc i = d.descs.desc i ∧
      (d.format b write n idx).info i = d.info i := by
  simp only [Idx.toList, List.mem_cons, List.not_mem_nil, or_false, not_or] at hi
  refine ⟨?_, Function.update_of_ne hi.1 ..⟩
  simp only [Driver.format]
  rw [Function.update_of_ne hi.2.2, Function.update_of_ne hi.2.1, Function.update_of_ne hi.1]

omit [DecidableEq B] in
theorem format_chained (d : Driver B) (b : B) (write : Bool) (n : Nat) (hnodup : idx.toList.Nodup) :
    Chained (d.format b write n idx).descs b idx ∧
      ((d.format b write n idx).info idx.head).b = some b := by
  obtain ⟨hhd, hhs, hds⟩ : idx.head ≠ idx.data ∧ idx.head ≠ idx.status ∧ idx.data ≠ idx.status := by
    simpa [Idx.toList, and_assoc] using hnodup
  refine ⟨⟨?_, ⟨_, dataFlags_set write, ?_⟩, ?_⟩, ?_⟩
  · simp only [Driver.format]
    rw [Function.update_of_ne hhs, Function.update_of_ne hhd, Function.update_self]
  · simp only [Driver.format]
    rw [Function.update_of_ne hds, Function.update_self]
  · simp only [Driver.format]
    rw [Function.update_self]
  · simp only [Driver.format]
    rw [Function.update_self]

omit [DecidableEq B] [DecidableEq C] in
theorem Inv.at_check (hs : Inv s) {id : UInt32} (hpos : s.pos c = .intrCheck id) :
    ∃ e c₀ b₀ idx₀, s.dev.reported[s.handled]? = some e ∧
      (s.pos c₀).request = some (b₀, idx₀, e.1) ∧ Request s b₀ idx₀ e.1 ∧ id.toNat = idx₀.head ∧
      (s.disk.info idx₀.head).status = 0 := by
  have hnoted := hs.noted c
  rw [hpos] at hnoted
  obtain ⟨e, he, rfl⟩ := hnoted
  have hdrop := mem_reported_drop he
  have hfinished : e ∈ s.dev.finished :=
    List.mem_append_right _ (List.mem_of_mem_drop hdrop)
  have hentry : e ∈ s.dev.entries := List.mem_append_right _ hfinished
  obtain ⟨c₀, b₀, idx₀, hreq, hrequest⟩ :=
    hs.serve (hs.entries.open_of_mem hentry (hs.entries.drop_not_handled hdrop))
  obtain ⟨i, hi, hid⟩ := hs.entries.head e hentry
  rw [hrequest.head, Option.some.injEq] at hi
  refine ⟨e, c₀, b₀, idx₀, he, hreq, hrequest, ?_, hrequest.status (List.mem_map_of_mem hfinished)⟩
  rw [hid, UInt16.toNat_toUInt32, toNat_toId, hi]

omit [DecidableEq B] [DecidableEq C] in
theorem Rings.used_lt (h : Rings s) (hne : s.disk.usedIdx ≠ s.disk.usedEnd) :
    s.handled < s.dev.reported.length := by
  have hle := h.used.le
  rw [List.length_map] at hle
  refine Nat.lt_of_le_of_ne hle fun heq => hne ?_
  rw [← UInt16.toNat_inj, h.usedIdx, h.usedEnd, heq]

omit [DecidableEq B] [DecidableEq C] in
theorem handledKeys_succ (busy : B → Bool) (usedIdx : UInt16)
    (he : s.dev.reported[s.handled]? = some e) :
    ({ s with
      busy := busy
      disk := { s.disk with usedIdx := usedIdx }
      handled := s.handled + 1 } : State C B).handledKeys = s.handledKeys ++ [e.1] := by
  simp only [State.handledKeys, List.take_add_one, he, Option.toList_some, List.map_append,
    List.map_cons, List.map_nil]

omit [DecidableEq C] in
theorem Inv.noted_clear (hs : Inv s) {id : UInt32} (hid : id.toNat < num)
    (hpos : s.pos c = .intrCheck id) (hb : (s.disk.info ⟨id.toNat, hid⟩).b = some b) (c' : C)
    (hc' : c' ≠ c) :
    Noted { s with
      busy := Function.update s.busy b false
      disk := { s.disk with usedIdx := s.disk.usedIdx + 1 }
      handled := s.handled + 1 } (s.pos c') := by
  obtain ⟨e, c₀, b₀, idx₀, he, hreq₀, hr₀, hhead, -⟩ := hs.at_check hpos
  obtain ⟨hbuffer₀, hchain₀, -⟩ := Pos.request_facts (s := s) hreq₀
  obtain rfl : b = b₀ := by
    have hfin : (⟨id.toNat, hid⟩ : Fin num) = idx₀.head := Fin.ext hhead
    rw [hfin, hr₀.written.info] at hb
    exact (Option.some.inj hb).symm
  have hkeys := handledKeys_succ (Function.update s.busy b false) (s.disk.usedIdx + 1) he
  refine (hs.noted c').frame (fun _ _ => rfl) (fun _ _ => rfl) (List.prefix_refl _)
    (List.prefix_refl _) (fun k hk => ?_) ?_ ?_ fun hlock => ?_
  · rw [hkeys]
    exact List.mem_append_left _ hk
  · intro b' idx k hreq hr
    obtain ⟨hbuffer, hchain, -⟩ := Pos.request_facts (s := s) hreq
    refine ⟨?_, hr.status⟩
    rw [hkeys, List.mem_append, List.mem_singleton, ← hr.busy]
    by_cases hb' : b' = b
    · subst hb'
      obtain rfl := hs.same_buffer hbuffer hbuffer₀
      rw [hreq] at hreq₀
      cases hreq₀
      simp
    · have hk : k ≠ e.1 := by
        rintro rfl
        have heq := hr.head
        rw [hr₀.head, Option.some.injEq] at heq
        obtain rfl : c' = c₀ := hs.same_context (i := idx.head) (hchain ▸ idx.head_mem)
          (hchain₀ ▸ heq ▸ idx₀.head_mem)
        rw [hreq] at hreq₀
        cases hreq₀
        exact hb' rfl
      simp [Function.update_of_ne hb', hk]
  · intro b' hbuffer hreq
    refine Function.update_of_ne ?_ ..
    rintro rfl
    obtain rfl := hs.same_buffer hbuffer hbuffer₀
    rw [hreq] at hreq₀
    cases hreq₀
  · exact absurd (hs.holder (by rw [hpos]; rfl) hlock) hc'

omit [DecidableEq B] [DecidableEq C] in
theorem Inv.noted_complete (hs : Inv s) {i : Fin num} (he : e ∈ s.dev.pending)
    (hposting : s.dev.posting = none) (hi : s.disk.descs.statusOf e.2 = some i) (c : C) :
    Noted { s with
      disk := { s.disk with
        info := Function.update s.disk.info i { s.disk.info i with status := 0 } }
      dev := { s.dev with pending := s.dev.pending.erase e, posting := some ⟨e, false⟩ } }
      (s.pos c) := by
  have hentry : e ∈ s.dev.entries := List.mem_append_left _ he
  obtain ⟨c₀, b₀, idx₀, hreq₀, hr₀⟩ := hs.serve (hs.entries.open_of_pending he)
  obtain rfl : i = idx₀.head := by
    obtain ⟨j, hj, hid⟩ := hs.entries.head e hentry
    rw [hr₀.head, Option.some.injEq] at hj
    rw [hid, ← hj, hr₀.written.chained.statusOf] at hi
    exact (Option.some.inj hi).symm
  refine (hs.noted c).frame (fun _ _ => rfl) (fun j _ => ?_) (List.prefix_refl _)
    (List.prefix_refl _) (fun _ hk => hk) ?_ (fun _ _ _ => rfl) fun _ => ⟨rfl, rfl, rfl⟩
  · by_cases hj : j = idx₀.head
    · simp [hj]
    · simp [Function.update_of_ne hj]
  · intro b idx k hreq hr
    refine ⟨hr.busy, fun hk => ?_⟩
    by_cases hj : idx.head = idx₀.head
    · simp [hj]
    · simp only [Function.update_of_ne hj]
      refine hr.status ?_
      simp only [Device.finished, Option.map_some, Option.toList_some, List.map_append,
        List.map_cons, List.map_nil, List.mem_append, List.mem_singleton] at hk
      rcases hk with rfl | hk
      · have heq := hr.head
        rw [hr₀.head, Option.some.injEq] at heq
        exact absurd heq.symm hj
      · simpa [Device.finished, hposting] using hk

omit [DecidableEq B] [DecidableEq C] in
theorem finished_publish (hposting : s.dev.posting = some ⟨e, true⟩) (k : Nat) :
    k ∈ ({ s.dev with posting := none, reported := s.dev.reported ++ [e] } : Device).finished.map
      Prod.fst ↔ k ∈ s.dev.finished.map Prod.fst := by
  simp only [Device.finished, hposting, Option.map_none, Option.map_some, Option.toList_none,
    Option.toList_some, List.nil_append, List.map_append, List.map_cons, List.map_nil,
    List.mem_append, List.mem_singleton]
  exact or_comm

theorem Inv.noted_turn (hs : Inv s) (h : Turn sector s a (.ok t)) (c' : C) :
    Noted t (t.pos c') := by
  have hat : ∀ {c pos}, s.pos c = pos → Noted s pos := fun hpos => hpos ▸ hs.noted _
  cases h with
  | lockBuf | unlockBuf | consume => exact (hs.noted c').same rfl rfl rfl rfl rfl rfl
  | call | interrupt | enter | leave | intrEnter | intrEnd =>
    refine noted_update (s := s) (fun c' _ => ?_) ?_ c'
    · exact (hs.noted c').same rfl rfl rfl rfl rfl rfl
    · trivial
  | @noDesc c _ _ _ hpos halloc | @alloc c _ _ _ _ hpos halloc =>
    have htook := took_of_alloc3Desc halloc
    refine noted_update (s := s) (fun c' hc' => ?_) ?_ c'
    · have hby := hs.bystander (by rw [hpos]; rfl) hc'
      exact (hs.noted c').other (fun i hi => htook.desc i (hs.owns.taken_of_holds hi))
        (fun _ _ => rfl) (fun _ _ => rfl) (List.prefix_refl _) rfl rfl hby.1
    · trivial
  | @format c b write idx hpos =>
    have hchain : (s.pos c).chain = idx.toList := by rw [hpos]; rfl
    refine noted_update (s := s) (fun c' hc' => ?_) ?_ c'
    · obtain ⟨hlock, hdisjoint, hbuffer⟩ := hs.bystander (by rw [hpos]; rfl) hc'
      rw [hchain] at hdisjoint
      refine (hs.noted c').other (fun i hi => (format_desc_of_not_mem (hdisjoint i hi)).1)
        (fun i hi => (format_desc_of_not_mem (hdisjoint i hi)).2) (fun b' hb' => ?_)
        (List.prefix_refl _) rfl rfl hlock
      refine Function.update_of_ne ?_ ..
      rintro rfl
      exact hbuffer b' hb' (by rw [hpos]; rfl)
    · obtain ⟨hchained, hinfo⟩ := format_chained s.disk b write (sector b)
        (hchain ▸ hs.nodup c)
      exact ⟨⟨hchained, hinfo⟩, Function.update_self ..⟩
  | @ring c b idx hpos =>
    refine noted_update (s := s) (fun c' hc' => ?_) ?_ c'
    · exact (hs.noted c').other (fun _ _ => rfl) (fun _ _ => rfl) (fun _ _ => rfl)
        (List.prefix_refl _) rfl rfl (hs.bystander (by rw [hpos]; rfl) hc').1
    · obtain ⟨hwritten, hbusy⟩ := hat hpos
      exact ⟨⟨hwritten.chained, hwritten.info⟩, hbusy, Function.update_self ..⟩
  | @index c b idx hpos =>
    refine noted_update (s := s) (fun c' hc' => ?_) ?_ c'
    · exact (hs.noted c').other (fun _ _ => rfl) (fun _ _ => rfl) (fun _ _ => rfl)
        (List.prefix_append _ _) rfl rfl (hs.bystander (by rw [hpos]; rfl) hc').1
    · obtain ⟨hwritten, hbusy, -⟩ := hat hpos
      have hnew : s.submitted.length ∉ s.dev.finished.map Prod.fst := fun hk =>
        Nat.not_lt.mpr hs.entries.le
          ((hs.entries.mem _).mp (Entries.finished_entries (s := s) hk))
      refine ⟨⟨hwritten.chained, hwritten.info⟩, by simp [State.setPos], ?_,
        fun hk => absurd hk hnew⟩
      refine ⟨fun hfree => ?_, fun hk => absurd (Entries.handled_finished (s := s) hk) hnew⟩
      exact absurd (hbusy.symm.trans hfree) Bool.noConfusion
  | sleep hpos hbusy | wake hpos hbusy =>
    refine noted_update (s := s) (fun c' _ => ?_) ?_ c'
    · exact (hs.noted c').same rfl rfl rfl rfl rfl rfl
    · have hnote := hat hpos
      exact Noted.same (s := s) hnote rfl rfl rfl rfl rfl rfl
  | done hpos hbusy =>
    refine noted_update (s := s) (fun c' _ => ?_) ?_ c'
    · exact (hs.noted c').same rfl rfl rfl rfl rfl rfl
    · have hnote : Noted s (.free _ _ _) := ⟨hat hpos, hbusy⟩
      exact hnote.same rfl rfl rfl rfl rfl rfl
  | @free c b idx k descs hpos hfree =>
    have hchain : (s.pos c).chain = idx.toList := by rw [hpos]; rfl
    obtain ⟨d', heq, -, hdesc⟩ := (hat hpos).1.written.chained.freeChain (hchain ▸ hs.nodup c)
      fun i hi => hs.owns.taken_of_holds (i := c) (hchain ▸ hi)
    rw [hfree] at heq
    cases heq
    refine noted_update (s := s) (fun c' hc' => ?_) ?_ c'
    · obtain ⟨hlock, hdisjoint, -⟩ := hs.bystander (by rw [hpos]; rfl) hc'
      rw [hchain] at hdisjoint
      refine (hs.noted c').other (fun i hi => hdesc i (hdisjoint i hi)) (fun i hi => ?_)
        (fun _ _ => rfl) (List.prefix_refl _) rfl rfl hlock
      refine Function.update_of_ne ?_ ..
      rintro rfl
      exact hdisjoint _ hi idx.head_mem
    · trivial
  | intrMore hpos hne =>
    refine noted_update (s := s) (fun c' _ => ?_) ?_ c'
    · exact (hs.noted c').same rfl rfl rfl rfl rfl rfl
    · exact hs.rings.used_lt hne
  | intrFetch hpos =>
    refine noted_update (s := s) (fun c' _ => ?_) ?_ c'
    · exact (hs.noted c').same rfl rfl rfl rfl rfl rfl
    · have hlt : s.handled < s.dev.reported.length := hat hpos
      refine ⟨s.dev.reported[s.handled], List.getElem?_eq_getElem hlt, ?_⟩
      rw [slot_eq hs.rings.usedIdx, hs.rings.used.front (by simpa using hlt), List.getElem_map]
  | @intrClear c id b hid hpos hb =>
    refine noted_update (s := s) (fun c' hc' => ?_) ?_ c'
    · exact (hs.noted_clear hid hpos hb c' hc').same rfl rfl rfl rfl rfl rfl
    · trivial
  | complete he hposting hi => exact hs.noted_complete he hposting hi c'
  | post hposting =>
    refine (hs.noted c').frame (fun _ _ => rfl) (fun _ _ => rfl) (List.prefix_refl _)
      (List.prefix_refl _) (fun _ hk => hk) ?_ (fun _ _ _ => rfl) fun _ => ⟨rfl, rfl, rfl⟩
    intro b idx k hreq hr
    refine ⟨hr.busy, fun hk => hr.status ?_⟩
    simpa [Device.finished, hposting] using hk
  | @publish e hposting =>
    have hle : s.handled ≤ s.dev.reported.length := by
      simpa using hs.rings.used.le
    have hkeys : ((s.dev.reported ++ [e]).take s.handled).map Prod.fst = s.handledKeys := by
      rw [List.take_append_of_le_length hle]
      rfl
    refine (hs.noted c').frame (fun _ _ => rfl) (fun _ _ => rfl) (List.prefix_refl _)
      (List.prefix_append _ _) (fun k hk => ?_) ?_ (fun _ _ _ => rfl) fun _ => ⟨rfl, rfl, rfl⟩
    · rwa [State.handledKeys, hkeys]
    · intro b idx k hreq hr
      rw [State.handledKeys, hkeys, finished_publish hposting]
      exact ⟨hr.busy, hr.status⟩

end Noted

section Served

omit [DecidableEq B] in
theorem served_update (hs : Inv s) (hopen : ∀ k, t.Open k → s.Open k)
    (hpos : ∀ b idx k, (s.pos c).request = some (b, idx, k) → t.Open k →
      pos'.request = some (b, idx, k)) (k : Nat) (hk : t.Open k) :
    ∃ c' b idx, (Function.update s.pos c pos' c').request = some (b, idx, k) := by
  obtain ⟨c', b, idx, hreq⟩ := hs.served k (hopen k hk)
  refine ⟨c', b, idx, ?_⟩
  by_cases hc : c' = c
  · subst hc
    rw [Function.update_self]
    exact hpos b idx k hreq hk
  · rwa [Function.update_of_ne hc]

theorem Inv.served_turn (hs : Inv s) (h : Turn sector s a (.ok t)) (k : Nat) (hk : t.Open k) :
    ∃ c b idx, (t.pos c).request = some (b, idx, k) := by
  cases h with
  | lockBuf | unlockBuf | consume | complete | post => exact hs.served k hk
  | publish hposting =>
    refine hs.served k ⟨hk.1, ?_⟩
    have hle : s.handled ≤ s.dev.reported.length := by
      simpa using hs.rings.used.le
    simpa only [State.handledKeys, List.take_append_of_le_length hle] using hk.2
  | @index c b idx hpos =>
    by_cases hlast : k = s.submitted.length
    · exact ⟨c, b, idx, by simp [State.setPos, Pos.request, hlast]⟩
    · refine served_update (s := s) hs (t := s) (fun _ => id) ?_ k ⟨?_, hk.2⟩
      · intro b idx k hreq
        rw [hpos] at hreq
        cases hreq
      · have hlt := hk.1
        simp only [State.setPos, List.length_append, List.length_singleton] at hlt
        omega
  | @intrClear c id b hid hpos hb =>
    obtain ⟨e, -, -, -, he, -⟩ := hs.at_check hpos
    have hkeys := handledKeys_succ (Function.update s.busy b false) (s.disk.usedIdx + 1) he
    refine served_update (s := s) hs (t := s) (fun _ h => h) ?_ k ⟨hk.1, fun hmem => hk.2 ?_⟩
    · intro b idx k hreq
      rw [hpos] at hreq
      cases hreq
    · exact hkeys ▸ List.mem_append_left [e.1] hmem
  | @free c b idx k' descs hpos hfree =>
    have hnote := hs.noted c
    rw [hpos] at hnote
    refine served_update (s := s) hs (t := s) (fun _ => id) ?_ k hk
    intro b' idx' k hreq hopen
    rw [hpos] at hreq
    cases hreq
    exact absurd (hnote.1.busy.mp hnote.2) hopen.2
  | sleep hpos | done hpos | wake hpos =>
    refine served_update (s := s) hs (t := s) (fun _ => id) (fun b idx k hreq _ => ?_) k hk
    rw [hpos] at hreq
    exact hreq
  | call hpos | interrupt hpos | enter hpos | noDesc hpos | alloc hpos | format hpos | ring hpos
  | leave hpos | intrEnter hpos | intrMore hpos | intrEnd hpos | intrFetch hpos =>
    refine served_update (s := s) hs (t := s) (fun _ => id) (fun b idx k hreq _ => ?_) k hk
    rw [hpos] at hreq
    cases hreq

end Served

section Device

omit [DecidableEq B] [DecidableEq C] in
theorem Entries.perm (h : Entries s) (hsubmitted : t.submitted = s.submitted)
    (hconsumed : t.dev.consumed = s.dev.consumed) (hperm : t.dev.entries.Perm s.dev.entries) :
    Entries t where
  le := by
    rw [hsubmitted, hconsumed]
    exact h.le
  nodup := (hperm.map Prod.fst).nodup_iff.mpr h.nodup
  mem k := by
    rw [(hperm.map Prod.fst).mem_iff, hconsumed]
    exact h.mem k
  head e he := by
    rw [hsubmitted]
    exact h.head e (hperm.mem_iff.mp he)

omit [DecidableEq B] [DecidableEq C] in
theorem Rings.avail_lt (h : Rings s) (hne : s.disk.availIdx ≠ UInt16.ofNat s.dev.consumed) :
    s.dev.consumed < s.submitted.length := by
  have hle := h.avail.le
  rw [List.length_map] at hle
  refine Nat.lt_of_le_of_ne hle fun heq => hne ?_
  rw [← UInt16.toNat_inj, h.availIdx, UInt16.toNat_ofNat', heq]

omit [DecidableEq B] [DecidableEq C] in
theorem Rings.front (h : Rings s) (hlt : s.dev.consumed < s.submitted.length) :
    s.disk.availRing (slot (UInt16.ofNat s.dev.consumed)) = toId s.submitted[s.dev.consumed] := by
  rw [slot_eq (UInt16.toNat_ofNat' ..), h.avail.front (by simpa using hlt), List.getElem_map]

theorem Inv.entries_turn (hs : Inv s) (h : Turn sector s a (.ok t)) : Entries t := by
  have hentries := hs.entries
  cases h with
  | index hpos =>
    refine ⟨?_, hentries.nodup, hentries.mem, fun e he => ?_⟩
    · have := hentries.le
      simp only [State.setPos, List.length_append]
      omega
    · obtain ⟨i, hi, hid⟩ := hentries.head e he
      refine ⟨i, ?_, hid⟩
      simp only [State.setPos]
      rw [List.getElem?_append_left (List.getElem?_eq_some_iff.mp hi).1]
      exact hi
  | consume hne =>
    have hlt := hs.rings.avail_lt hne
    have hperm : ∀ x, ((s.dev.pending ++ [x]) ++ s.dev.finished).Perm (x :: s.dev.entries) := by
      intro x
      rw [List.append_assoc]
      exact List.perm_middle
    refine ⟨hlt, ?_, fun k => ?_, fun e he => ?_⟩
    · refine ((hperm _).map Prod.fst).nodup_iff.mpr (List.nodup_cons.mpr ⟨?_, hentries.nodup⟩)
      exact fun hmem => Nat.lt_irrefl _ ((hentries.mem _).mp hmem)
    · refine ((hperm _).map Prod.fst).mem_iff.trans ?_
      rw [List.map_cons, List.mem_cons, hentries.mem]
      show k = s.dev.consumed ∨ _ ↔ k < s.dev.consumed + 1
      omega
    · rcases List.mem_cons.mp ((hperm _).mem_iff.mp he) with rfl | he
      · exact ⟨_, List.getElem?_eq_getElem hlt, hs.rings.front hlt⟩
      · exact hentries.head e he
  | @complete e i he hposting hi =>
    refine hentries.perm rfl rfl ?_
    simp only [Device.entries, Device.finished, hposting, Option.map_some, Option.map_none,
      Option.toList_some, Option.toList_none, List.nil_append]
    exact List.perm_middle.trans ((List.perm_cons_erase he).symm.append_right _)
  | post hposting =>
    refine hentries.perm rfl rfl ?_
    simp only [Device.entries, Device.finished, hposting, Option.map_some]
    exact List.Perm.refl _
  | publish hposting =>
    refine hentries.perm rfl rfl ?_
    simp only [Device.entries, Device.finished, hposting, Option.map_some, Option.map_none,
      Option.toList_some, Option.toList_none, List.nil_append]
    exact List.Perm.append_left _ (List.perm_append_comm)
  | _ =>
    exact ⟨hentries.le, hentries.nodup, hentries.mem, hentries.head⟩

theorem Inv.rings_turn (hs : Inv s) (h : Turn sector s a (.ok t)) : Rings t := by
  obtain ⟨havailIdx, havail, husedEnd, husedIdx, hused, hposted⟩ := hs.rings
  cases h with
  | @ring c b idx hpos =>
    refine ⟨havailIdx, ?_, husedEnd, husedIdx, hused, hposted⟩
    have hroom := hs.avail_room (c := c) (i := idx.head) (by rw [hpos]; exact idx.head_mem)
      (by rw [hpos]; rfl)
    have hwrite := havail.write (by simpa using hroom) (toId idx.head)
    rw [List.length_map] at hwrite
    rw [slot_eq havailIdx]
    exact hwrite
  | @index c b idx hpos =>
    have hnote := hs.noted c
    rw [hpos] at hnote
    have hroom := hs.avail_room (c := c) (i := idx.head) (by rw [hpos]; exact idx.head_mem)
      (by rw [hpos]; rfl)
    refine ⟨?_, ?_, husedEnd, husedIdx, hused, hposted⟩
    · simp only [State.setPos, UInt16.toNat_add, havailIdx, UInt16.toNat_one, List.length_append,
        List.length_singleton]
      omega
    · have hcell := hnote.2.2
      rw [slot_eq havailIdx] at hcell
      simp only [State.setPos, List.map_append, List.map_cons, List.map_nil]
      exact havail.publish (by simpa using hroom) (by rwa [List.length_map])
  | @intrClear c id b hid hpos hb =>
    obtain ⟨e, -, -, -, he, -⟩ := hs.at_check hpos
    refine ⟨havailIdx, havail, husedEnd, ?_, hused.pop ?_, hposted⟩
    · simp only [State.setPos, UInt16.toNat_add, husedIdx, UInt16.toNat_one]
      omega
    · rw [List.length_map]
      exact (List.getElem?_eq_some_iff.mp he).1
  | consume hne =>
    refine ⟨havailIdx, havail.pop ?_, husedEnd, husedIdx, hused, hposted⟩
    rw [List.length_map]
    exact hs.rings.avail_lt hne
  | complete he hposting hi =>
    refine ⟨havailIdx, havail, husedEnd, husedIdx, hused, fun e' he' => ?_⟩
    simp at he'
  | @post e hposting =>
    refine ⟨havailIdx, havail, husedEnd, husedIdx, ?_, fun e' he' => ?_⟩
    · have hwrite := hused.write (by simpa using hs.used_room hposting) e.2.toUInt32
      rw [List.length_map] at hwrite
      rw [slot_eq husedEnd]
      exact hwrite
    · simp only [Option.some.injEq, Posting.mk.injEq, and_true] at he'
      subst he'
      exact Function.update_self ..
  | @publish e hposting =>
    have hcell := hposted e hposting
    rw [slot_eq husedEnd] at hcell
    refine ⟨havailIdx, havail, ?_, husedIdx, ?_, fun e' he' => by cases he'⟩
    · simp only [UInt16.toNat_add, husedEnd, UInt16.toNat_one, List.length_append,
        List.length_singleton]
      omega
    · simp only [List.map_append, List.map_cons, List.map_nil]
      exact hused.publish (by simpa using hs.used_room hposting) (by rwa [List.length_map])
  | _ =>
    exact ⟨havailIdx, havail, husedEnd, husedIdx, hused, hposted⟩

end Device

section Run

theorem Inv.no_panic (hs : Inv s) {e : Panic} (h : Turn sector s a (.error e)) : False := by
  cases h with
  | allocPanic hpos halloc =>
    rcases alloc3Desc_spec s.disk.descs with ⟨d', heq, -⟩ | ⟨idx, d', heq, -⟩
    · rw [halloc] at heq
      cases heq
    · rw [halloc] at heq
      cases heq
  | @freePanic c b idx k e hpos hfree =>
    have hnote := hs.noted c
    rw [hpos] at hnote
    have hchain : (s.pos c).chain = idx.toList := by rw [hpos]; rfl
    obtain ⟨d', heq, -⟩ := hnote.1.written.chained.freeChain (hchain ▸ hs.nodup c)
      fun i hi => hs.owns.taken_of_holds (i := c) (hchain ▸ hi)
    rw [hfree] at heq
    cases heq
  | intrBounds hpos hid =>
    obtain ⟨e, c₀, b₀, idx₀, -, -, -, hhead, -⟩ := hs.at_check hpos
    have := idx₀.head.isLt
    omega
  | intrStatus hid hpos hstatus =>
    obtain ⟨e, c₀, b₀, idx₀, -, -, -, hhead, hzero⟩ := hs.at_check hpos
    refine hstatus ?_
    rw [show (⟨_, hid⟩ : Fin num) = idx₀.head from Fin.ext hhead]
    exact hzero
  | intrNull hid hpos hnull =>
    obtain ⟨e, c₀, b₀, idx₀, -, -, hr, hhead, -⟩ := hs.at_check hpos
    rw [show (⟨_, hid⟩ : Fin num) = idx₀.head from Fin.ext hhead, hr.written.info] at hnull
    cases hnull
  | @badChain e he hnone =>
    obtain ⟨c₀, b₀, idx₀, hreq, hr⟩ := hs.serve (hs.entries.open_of_pending he)
    obtain ⟨i, hi, hid⟩ := hs.entries.head e (List.mem_append_left _ he)
    rw [hr.head, Option.some.injEq] at hi
    rw [hid, ← hi, hr.written.chained.statusOf] at hnone
    cases hnone

theorem Inv.turn (hs : Inv s) {r : Except Panic (State C B)} (h : Turn sector s a r) :
    ∃ t, r = .ok t ∧ Inv t := by
  cases r with
  | error e => exact (hs.no_panic h).elim
  | ok t =>
    exact ⟨t, rfl, hs.lock_turn h, hs.bufs_turn h, hs.owns_turn h, hs.nodup_turn h,
      hs.noted_turn h, hs.served_turn h, hs.entries_turn h, hs.rings_turn h⟩

omit [DecidableEq B] [DecidableEq C] in
theorem Start.inv (hs : Start s) : Inv s where
  lock _ c := by simp [hs.vdiskLock, hs.pos, Pos.holdsLock]
  bufs c b hb := by
    rw [hs.pos] at hb
    cases hb
  owns := ⟨fun c c' i hi => by simp [hs.pos, Pos.chain] at hi,
    fun i => by simp [hs.free, hs.pos, Pos.chain]⟩
  nodup c := by
    rw [hs.pos]
    exact List.nodup_nil
  noted c := by
    rw [hs.pos]
    trivial
  served k hk := by
    have hlt := hk.1
    rw [hs.submitted] at hlt
    cases hlt
  entries := by
    refine ⟨?_, ?_, ?_, ?_⟩ <;> simp [hs.dev, Device.entries, Device.finished]
  rings := by
    refine ⟨?_, ⟨?_, ?_, ?_⟩, ?_, ?_, ⟨?_, ?_, ?_⟩, ?_⟩ <;>
      simp [hs.availIdx, hs.usedEnd, hs.usedIdx, hs.dev, hs.submitted, hs.handled]

theorem Inv.reach {r : Except Panic (State C B)} (h : (system C B sector).Reachable r) :
    ∃ s, r = .ok s ∧ Inv s := by
  refine System.Reach.invariant Inv (fun s => Start.inv) (fun s a hs henabled _ => ?_) h
  obtain ⟨r, hr⟩ := Option.isSome_iff_exists.mp henabled
  obtain ⟨t, rfl, ht⟩ := hs.turn (turn_of_act hr)
  exact ⟨t, by simp [system, hr], ht⟩

structure Tracked (s : State C B) : Prop where
  /-- A descriptor that is not free is in the chain of exactly one call, -/
  owns : Owns (fun c i => i ∈ (s.pos c).chain) (fun i => s.disk.descs.free i = false)
  /-- and a call has no chain or one of three descriptors. -/
  chains : ∀ c, (s.pos c).chain = [] ∨ (s.pos c).chain.length = 3 ∧ (s.pos c).chain.Nodup
  /-- A chain about to be freed has been reported. -/
  freed : ∀ c b idx k, s.pos c = .free b idx k →
    s.submitted[k]? = some idx.head ∧ k ∈ s.dev.reported.map Prod.fst
  /-- The buffer about to be cleared is that of the request reported, -/
  cleared : ∀ c id, s.pos c = .intrCheck id → ∃ e c' b idx, s.dev.reported[s.handled]? = some e ∧
    (s.pos c').request = some (b, idx, e.1) ∧ s.submitted[e.1]? = some idx.head ∧
    id.toNat = idx.head ∧ (s.disk.info idx.head).b = some b
  /-- and one that is clear has been reported and handled. -/
  clear : ∀ c b idx k, (s.pos c).request = some (b, idx, k) → s.busy b = false →
    k ∈ s.handledKeys
  /-- The avail ring slot written next has been consumed, -/
  availRoom : ∀ c b idx, s.pos c = .ring b idx → s.submitted.length < s.dev.consumed + num
  /-- and those not consumed hold what was submitted. -/
  avail : ∀ k (hk : k < s.submitted.length), s.dev.consumed ≤ k →
    s.disk.availRing (Fin.ofNat num k) = toId s.submitted[k]
  usedRoom : ∀ p, s.dev.posting = some p → s.dev.reported.length < s.handled + num
  used : ∀ k (hk : k < s.dev.reported.length), s.handled ≤ k →
    s.disk.usedRing (Fin.ofNat num k) = s.dev.reported[k].2.toUInt32

omit [DecidableEq B] [DecidableEq C] in
theorem Inv.chains (hs : Inv s) (c : C) :
    (s.pos c).chain = [] ∨ (s.pos c).chain.length = 3 ∧ (s.pos c).chain.Nodup := by
  have hnodup := hs.nodup c
  generalize s.pos c = pos at hnodup
  cases pos with
  | format | ring | index | wait | asleep | free => exact Or.inr ⟨rfl, hnodup⟩
  | idle | enter | alloc | leave | intrEnter | intrTest | intrFetch | intrCheck => exact Or.inl rfl

omit [DecidableEq B] [DecidableEq C] in
theorem Inv.tracked (hs : Inv s) : Tracked s where
  owns := hs.owns
  chains := hs.chains
  freed c b idx k hpos := by
    have hnote := hs.noted c
    rw [hpos] at hnote
    obtain ⟨e, he, rfl⟩ := List.mem_map.mp (hnote.1.busy.mp hnote.2)
    exact ⟨hnote.1.head, List.mem_map_of_mem (List.mem_of_mem_take he)⟩
  cleared c id hpos := by
    obtain ⟨e, c₀, b₀, idx₀, he, hreq, hr, hhead, -⟩ := hs.at_check hpos
    exact ⟨e, c₀, b₀, idx₀, he, hreq, hr.head, hhead, hr.written.info⟩
  clear c b idx k hreq hbusy := (hs.request hreq).busy.mp hbusy
  availRoom c b idx hpos :=
    hs.avail_room (c := c) (i := idx.head) (by rw [hpos]; exact idx.head_mem) (by rw [hpos]; rfl)
  avail k hk hle := by
    rw [hs.rings.avail.cell k (by simpa using hk) hle, List.getElem_map]
  usedRoom p hp := hs.used_room hp
  used k hk hle := by
    rw [hs.rings.used.cell k (by simpa using hk) hle, List.getElem_map]

/-- In any run of the driver and the device nothing panics, and every request is
kept track of. -/
theorem virtio_requests_tracked {r : Except Panic (State C B)}
    (h : (system C B sector).Reachable r) : ∃ s, r = .ok s ∧ Tracked s := by
  obtain ⟨s, hr, hs⟩ := Inv.reach h
  exact ⟨s, hr, hs.tracked⟩

end Run

section Sample

/-- A disk after `virtio_disk_init`, a process (`false`) and a handler (`true`). -/
def quietDisk : State Bool Unit where
  disk := ⟨⟨fun _ => ⟨.null, 0, 0, 0⟩, fun _ => true⟩, 0, fun _ => 0, 0, fun _ => 0, 0,
    fun _ => ⟨none, 0⟩, fun _ => ⟨false, 0⟩⟩
  busy _ := false
  vdiskLock := none
  bufLock _ := none
  pos _ := .idle
  dev := ⟨0, [], none, []⟩
  submitted := []
  handled := 0

theorem quietDisk_start : Start quietDisk :=
  ⟨fun _ => rfl, rfl, rfl, rfl, rfl, fun _ => rfl, fun _ => rfl, rfl, rfl, rfl⟩

/-- The process reads a block, up to where it frees the chain. -/
def readBlock : List (Action Bool Unit) :=
  [.lockBuf false (), .call false () false] ++ List.replicate 6 (.run false) ++
  [.consume, .complete (0, 0), .post, .publish, .interrupt true] ++
  List.replicate 5 (.run true) ++ List.replicate 2 (.run false)

theorem readBlock_observed : (system Bool Unit fun _ => 0).observed (fun _ _ => True)
    (fun s => (s.busy (), s.handled, (s.pos false).chain.length)) quietDisk readBlock =
      some (false, 1, 3) := by
  decide +kernel

end Sample

theorem virtio_requests_tracked_read : ∃ s : State Bool Unit,
    (system Bool Unit fun _ => 0).Reachable (.ok s) ∧ s.handled = 1 ∧ Tracked s := by
  obtain ⟨s, hreach, hobserved⟩ :=
    System.Reach.of_observed (.init quietDisk_start) readBlock_observed
  obtain ⟨t, hok, htracked⟩ := virtio_requests_tracked hreach
  cases hok
  simp only [Prod.mk.injEq] at hobserved
  exact ⟨s, hreach, hobserved.2.1, htracked⟩

end Xv6.Disk
