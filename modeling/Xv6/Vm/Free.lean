import Xv6.Vm.Grow

/-! `freewalk` and `uvmfree`: of an address space nothing is left but the pages
that were not part of it. -/
namespace Xv6.Vm

open Lib

variable {img : Image} {P : Protocol sig} {h : Heap} {S : Space}
  {extra : Nat → Prop}

theorem wp_forRange {n : Nat} {body : Nat → Code Unit} (J : Nat → Heap → Prop) (hstart : J 0 h)
    (hstep : ∀ x h', x < n → J x h' → wp machine P (body x) (fun _ => J (x + 1)) h') :
    wp machine P (forRange n body) (fun _ => J n) h := by
  induction n with
  | zero =>
    rw [forRange_zero]
    exact hstart
  | succ n ih =>
    rw [forRange_succ]
    exact wp_seq (ih fun x h' hx => hstep x h' (Nat.lt_succ_of_lt hx)) fun _ h' hJ =>
      hstep n h' (Nat.lt_succ_self n) hJ

section Under

def Space.Under (S : Space) (l k n : Nat) : Prop :=
  ∃ d key, d ≤ l ∧ S.table (l - d) key = some n ∧ key / 512 ^ d = k

variable {l k x n : Nat}

theorem Space.under_zero : S.Under 0 k n ↔ S.table 0 k = some n := by
  constructor
  · rintro ⟨d, key, hd, hn, rfl⟩
    obtain rfl : d = 0 := by omega
    simpa using hn
  · exact fun hn => ⟨0, k, Nat.le_refl 0, hn, by simp⟩

theorem Space.under_succ :
    S.Under (l + 1) k n ↔ S.table (l + 1) k = some n ∨ ∃ x, x < 512 ∧
      S.Under l (k * 512 + x) n := by
  constructor
  · rintro ⟨d, key, hd, hn, hkey⟩
    cases d with
    | zero =>
      left
      simpa [← hkey] using hn
    | succ d =>
      right
      rw [Nat.pow_succ, ← Nat.div_div_eq_div_mul] at hkey
      refine ⟨key / 512 ^ d % 512, Nat.mod_lt _ (by decide), d, key, by omega, ?_, ?_⟩
      · rwa [Nat.add_sub_add_right] at hn
      · rw [← hkey, Nat.div_add_mod']
  · rintro (hn | ⟨x, hx, d, key, hd, hn, hkey⟩)
    · exact ⟨0, k, Nat.zero_le _, hn, by simp⟩
    · refine ⟨d + 1, key, by omega, by rwa [Nat.add_sub_add_right], ?_⟩
      rw [Nat.pow_succ, ← Nat.div_div_eq_div_mul, hkey]
      omega

theorem Space.not_under (hl : l ≤ 2) (h : S.table l k = none) : ¬S.Under l k n := by
  induction l generalizing k with
  | zero =>
    rw [Space.under_zero, h]
    simp
  | succ l ih =>
    rw [Space.under_succ, h]
    rintro (hn | ⟨x, hx, hunder⟩)
    · cases hn
    · refine ih (by omega) ?_ hunder
      by_contra hne
      have := S.parent l _ (by omega) hne
      rw [show (k * 512 + x) / 512 = k by omega] at this
      exact this h

theorem Space.under_root : S.Under 2 0 n ↔ ∃ l k, S.table l k = some n := by
  constructor
  · rintro ⟨d, key, -, hn, -⟩
    exact ⟨_, _, hn⟩
  · rintro ⟨l, k, hn⟩
    have htop : ∀ k, S.table 2 k ≠ none → k = 0 := by
      intro k hk
      by_contra hne
      rw [S.table_root, if_neg hne] at hk
      exact hk rfl
    have hle := S.level_le hn
    refine ⟨2 - l, k, by omega, by rwa [show 2 - (2 - l) = l by omega], ?_⟩
    have hne : S.table l k ≠ none := by simp [hn]
    match l, hle with
    | 2, _ => simpa using htop k hne
    | 1, _ => simpa using htop _ (S.parent 1 k (by decide) hne)
    | 0, _ =>
      have := htop _ (S.parent 1 _ (by decide) (S.parent 0 k (by decide) hne))
      rwa [Nat.div_div_eq_div_mul] at this

def Space.Distinct (S : Space) : Prop :=
  ∀ l k l' k' n, S.table l k = some n → S.table l' k' = some n → l = l' ∧ k = k'

theorem RepBy.distinct {loose : Prop} {pool : Cell → Prop} (hrep : RepBy loose pool S extra h) :
    S.Distinct :=
  fun l k l' k' _ hn hn' => Role.table.inj (hrep.role_eq (.table l k) (.table l' k') hn hn')

variable (hdist : S.Distinct)
include hdist

theorem Space.Distinct.under_unique {k' : Nat} (hn : S.Under l k n) (hn' : S.Under l k' n) :
    k = k' := by
  obtain ⟨d, key, hd, hkey, rfl⟩ := hn
  obtain ⟨d', key', hd', hkey', rfl⟩ := hn'
  obtain ⟨hlevel, rfl⟩ := hdist _ _ _ _ _ hkey hkey'
  rw [show d = d' by omega]

theorem Space.Distinct.not_under_self (hn : S.table (l + 1) k = some n) {k' : Nat} :
    ¬S.Under l k' n := by
  rintro ⟨d, key, hd, hkey, -⟩
  have := (hdist _ _ _ _ _ hn hkey).1
  omega

end Under

open Classical in
noncomputable def erase (gone : Nat → Prop) (h : Heap) : Heap
  | .page n => if gone n then none else h (.page n)

section Erase

variable {gone gone' : Nat → Prop} {n : Nat}

theorem erase_page_of (hn : gone n) : erase gone h (.page n) = none := by
  rw [erase, if_pos hn]

theorem erase_page_of_not (hn : ¬gone n) : erase gone h (.page n) = h (.page n) := by
  rw [erase, if_neg hn]

theorem erase_erase : erase gone' (erase gone h) = erase (fun n => gone n ∨ gone' n) h := by
  funext c
  cases c with
  | page n =>
    by_cases hn : gone n <;> by_cases hn' : gone' n <;> simp [erase, hn, hn']

theorem erase_congr (hgone : ∀ n, gone n ↔ gone' n) : erase gone h = erase gone' h := by
  rw [show gone = gone' from funext fun n => propext (hgone n)]

theorem erase_false (hgone : ∀ n, ¬gone n) : erase gone h = h := by
  funext c
  cases c with
  | page n => exact erase_page_of_not (hgone n)

theorem update_erase (hn : ¬gone n) (x : Option Data) :
    Function.update (erase gone h) (.page n) x = erase gone (Function.update h (.page n) x) := by
  funext c
  by_cases hc : c = .page n
  · subst hc
    rw [Function.update_self, erase_page_of_not hn, Function.update_self]
  · rw [Function.update_of_ne hc]
    cases c with
    | page m => simp [erase, show m ≠ n from fun heq => hc (by rw [heq])]

theorem update_erase_none (x : Option Data) :
    Function.update (erase gone (Function.update h (.page n) x)) (.page n) none =
      erase (fun m => m = n ∨ gone m) h := by
  funext c
  by_cases hc : c = .page n
  · subst hc
    rw [Function.update_self, erase_page_of (Or.inl rfl)]
  · rw [Function.update_of_ne hc]
    cases c with
    | page m =>
      have hmn : m ≠ n := fun heq => hc (by rw [heq])
      by_cases hm : gone m
      · rw [erase_page_of hm, erase_page_of (Or.inr hm)]
      · rw [erase_page_of_not hm, erase_page_of_not (by tauto), Function.update_of_ne hc]

end Erase

def Space.Below (S : Space) (k x n : Nat) : Nat → Prop
  | 0 => False
  | l + 1 => ∃ y, y < x ∧ S.Under l (k * 512 + y) n

theorem Space.under_iff {l k n : Nat} :
    S.Under l k n ↔ S.table l k = some n ∨ S.Below k 512 n l := by
  cases l with
  | zero => simp [Space.under_zero, Space.Below]
  | succ l => exact Space.under_succ

section Freewalk

variable {l k n : Nat}

theorem Space.below_zero : ¬S.Below k 0 n l := by
  cases l with
  | zero => exact id
  | succ l =>
    rintro ⟨y, hy, -⟩
    omega

theorem Space.below_succ {x : Nat} :
    S.Below k (x + 1) n (l + 1) ↔ S.Below k x n (l + 1) ∨ S.Under l (k * 512 + x) n := by
  constructor
  · rintro ⟨y, hy, hn⟩
    by_cases hyx : y = x
    · exact Or.inr (hyx ▸ hn)
    · exact Or.inl ⟨y, by omega, hn⟩
  · rintro (⟨y, hy, hn⟩ | hn)
    · exact ⟨y, by omega, hn⟩
    · exact ⟨x, by omega, hn⟩

theorem Space.Distinct.not_below_self (hdist : S.Distinct) (hn : S.table l k = some n) {x : Nat} :
    ¬S.Below k x n l := by
  cases l with
  | zero => exact id
  | succ l =>
    rintro ⟨y, -, hunder⟩
    exact hdist.not_under_self hn hunder

/-- Before iteration `x`: the tables of the entries before are gone, and those
entries have been overwritten. -/
def FreeInv (S : Space) (l k n : Nat) (h : Heap) (x : Nat) (h' : Heap) : Prop :=
  ∃ data, (∀ y, x ≤ y → y < 512 → Loosely (word data y) (S.entry l (k * 512 + y))) ∧
    h' = erase (fun m => S.Below k x m l) (Function.update h (.page n) (some data))

def Stored (S : Space) (l k : Nat) (h : Heap) : Prop :=
  ∀ l' k' m, S.table l' k' = some m → S.Under l k m →
    ∃ data, h (.page m) = some data ∧
      ∀ x, x < 512 → Loosely (word data x) (S.entry l' (k' * 512 + x))

theorem Space.Distinct.erase_self (hdist : S.Distinct) (hn : S.table l k = some n) (x : Nat)
    (data : Option Data) : erase (fun m => S.Below k x m l)
      (Function.update h (.page n) data) (.page n) = data := by
  rw [erase, if_neg (hdist.not_below_self hn), Function.update_self]

section Iteration

variable {x : Nat} {h' : Heap} {next : Nat → Code Unit} (hdist : S.Distinct)
  (hn : S.table l k = some n) (hx : x < 512) (hinv : FreeInv S l k n h x h')
include hdist hn hx hinv

theorem freeEntry_skip (hzero : S.entry l (k * 512 + x) = 0)
    (hbelow : ∀ m, S.Below k (x + 1) m l ↔ S.Below k x m l) :
    wp machine P (freeEntry next n x) (fun _ => FreeInv S l k n h (x + 1)) h' := by
  obtain ⟨data, hdata, rfl⟩ := hinv
  refine wp_bind (wp_load (hdist.erase_self hn x _) ?_)
  have hvalid := (hdata x (Nat.le_refl x) hx).valid
  rw [hzero] at hvalid
  rw [hvalid, if_neg (by simp), if_neg (by simp)]
  exact ⟨data, fun y hy => hdata y (by omega), (erase_congr hbelow).symm⟩

theorem freeEntry_child {q : Nat} (hentry : S.entry l (k * 512 + x) = tableEntry (some q))
    {gone : Nat → Prop} (hbelow : ∀ m, S.Below k (x + 1) m l ↔ S.Below k x m l ∨ gone m)
    (hnext : wp machine P (next q) (fun _ h'' => h'' = erase gone h') h') :
    wp machine P (freeEntry next n x) (fun _ => FreeInv S l k n h (x + 1)) h' := by
  obtain ⟨data, hdata, rfl⟩ := hinv
  refine wp_bind (wp_load (hdist.erase_self hn x _) ?_)
  have hword := hdata x (Nat.le_refl x) hx
  rw [hentry] at hword
  have hvalid : tableEntry (some q) &&& pteV ≠ 0 := by
    rw [tableEntry_valid]
    decide
  have hinner : word data x &&& pteV ≠ 0 ∧ word data x &&& (pteR ||| pteW ||| pteX) = 0 := by
    constructor
    · rwa [hword.valid]
    · exact (hword.kind hvalid).trans (tableEntry_inner q)
  rw [if_pos hinner, hword.page hvalid, pte2pa_tableEntry]
  refine wp_seq hnext ?_
  rintro - h'' rfl
  rw [erase_erase, ← erase_congr hbelow]
  refine wp_store (hdist.erase_self hn (x + 1) _) ⟨setWord data x 0, fun y hy hlt => ?_, ?_⟩
  · rw [word_setWord_of_ne _ _ (by omega)]
    exact hdata y (by omega) hlt
  · rw [update_erase, Function.update_idem]
    exact hdist.not_below_self hn

end Iteration

theorem freewalk_of_iteration (hmem : Manages img P.pool) (hdist : S.Distinct)
    (hpool : ∀ l k n, S.table l k = some n → P.pool (.page n)) (hn : S.table l k = some n)
    (hstored : Stored S l k h)
    (hstep : ∀ x h', x < 512 → FreeInv S l k n h x h' →
      wp machine P (freeEntry (freewalk img l) n x) (fun _ => FreeInv S l k n h (x + 1)) h') :
    wp machine P (freewalk img (l + 1) n) (fun _ h' => h' = erase (S.Under l k) h) h := by
  obtain ⟨first, hfirst, hwords⟩ := hstored l k n hn (Space.under_iff.mpr (Or.inl hn))
  rw [freewalk]
  refine wp_seq (wp_forRange (FreeInv S l k n h) ?_ hstep) ?_
  · refine ⟨first, fun y _ hy => hwords y hy, ?_⟩
    rw [erase_false fun m => Space.below_zero, ← hfirst, Function.update_eq_self]
  · rintro - h' ⟨data, -, rfl⟩
    refine wp_kfree hmem (hpool _ k n hn) (by simp [hdist.erase_self hn]) ?_
    rw [update_erase_none]
    refine erase_congr fun m => ?_
    rw [Space.under_iff, hn, Option.some.injEq, eq_comm]

theorem freewalk_spec (hmem : Manages img P.pool) (hdist : S.Distinct)
    (hleaf : ∀ v, S.leaf v = 0) (hpool : ∀ l k n, S.table l k = some n → P.pool (.page n))
    (hl : l ≤ 2) (hn : S.table l k = some n) (hstored : Stored S l k h) :
    wp machine P (freewalk img (l + 1) n) (fun _ h' => h' = erase (S.Under l k) h) h := by
  induction l generalizing k n h with
  | zero =>
    refine freewalk_of_iteration hmem hdist hpool hn hstored fun x h' hx hinv => ?_
    exact freeEntry_skip hdist hn hx hinv (hleaf _) fun m => Iff.rfl
  | succ l ih =>
    refine freewalk_of_iteration hmem hdist hpool hn hstored fun x h' hx hinv => ?_
    cases hchild : S.table l (k * 512 + x) with
    | none =>
      refine freeEntry_skip hdist hn hx hinv (congrArg tableEntry hchild) fun m => ?_
      rw [Space.below_succ, or_iff_left (Space.not_under (by omega) hchild)]
    | some q =>
      refine freeEntry_child hdist hn hx hinv (congrArg tableEntry hchild)
        (fun m => Space.below_succ) (ih (by omega) hchild ?_)
      -- the child's tables have not been touched by earlier iterations
      intro l' k' m hm hunder
      obtain ⟨data, -, rfl⟩ := hinv
      have hne : (Cell.page m) ≠ .page n := by
        intro heq
        cases heq
        exact hdist.not_under_self hn hunder
      have hbelow : ¬S.Below k x m (l + 1) := by
        rintro ⟨y, hy, hother⟩
        have := hdist.under_unique hunder hother
        omega
      rw [erase, if_neg hbelow, Function.update_of_ne hne]
      exact hstored l' k' m hm (Space.under_succ.mpr (Or.inr ⟨x, hx, hunder⟩))

end Freewalk

structure Pages (pool : Cell → Prop) (extra : Nat → Prop) (h : Heap) : Prop where
  iff : ∀ c, h c ≠ none ↔ ∃ n, c = .page n ∧ extra n
  pool : ∀ n, extra n → pool (.page n)

theorem Pages.eq_empty {pool : Cell → Prop} (h' : Pages pool (fun _ => False) h) :
    h = Heaplet.empty := by
  funext c
  by_contra hne
  obtain ⟨n, -, hfalse⟩ := (h'.iff c).mp hne
  exact hfalse

theorem Pages.single {pool : Cell → Prop} {n : Nat} (hpool : pool (.page n)) (data : Data) :
    Pages pool (fun m => m = n) (Function.update Heaplet.empty (Cell.page n) (some data)) := by
  refine ⟨fun c => ?_, fun m hm => hm ▸ hpool⟩
  by_cases hc : c = .page n
  · simp [hc]
  · simp only [Function.update_of_ne hc, Heaplet.empty, ne_eq, not_true_eq_false, false_iff]
    rintro ⟨m, rfl, rfl⟩
    exact hc rfl

theorem freewalk_root (hmem : Manages img P.pool) (hrep : Rep P.pool S extra h)
    (hleaf : ∀ v, S.leaf v = 0) :
    wp machine P (freewalk img 3 S.root) (fun _ h' => Pages P.pool extra h') h := by
  have hroot : S.table 2 0 = some S.root := by rw [S.table_root, if_pos rfl]
  have hpool : ∀ l k n, S.table l k = some n → P.pool (.page n) :=
    fun l k n hn => hrep.inPool (.table l k) hn
  refine wp_mono (freewalk_spec hmem hrep.distinct hleaf hpool (Nat.le_refl 2) hroot
    fun l k m hm _ => hrep.stored hm) ?_
  rintro - h' rfl
  refine ⟨fun c => ⟨fun hc => ?_, ?_⟩, fun n hn => hrep.inPool .extra hn⟩
  · cases c with
    | page n =>
      have hunder : ¬S.Under 2 0 n := fun hunder => hc (erase_page_of hunder)
      rw [erase_page_of_not hunder] at hc
      obtain ⟨role, hrole⟩ := (hrep.owns.taken_iff n).mp hc
      cases role with
      | table l k => exact absurd (Space.under_root.mpr ⟨l, k, hrole⟩) hunder
      | user v => exact absurd (hleaf v) hrole.2.1
      | extra => exact ⟨n, rfl, hrole⟩
  · rintro ⟨n, rfl, hn⟩
    have hunder : ¬S.Under 2 0 n := by
      intro hunder
      obtain ⟨l, k, htable⟩ := Space.under_root.mp hunder
      cases hrep.role_eq (.table l k) .extra htable hn
    rw [erase_page_of_not hunder]
    exact hrep.holds_ne_none .extra hn

theorem uvmfree_spec {sz : Nat} (hmem : Manages img P.pool) (hrep : Rep P.pool S extra h)
    (hsz : npages sz ≤ userTop) (hleaf : ∀ v, S.leaf v ≠ 0 → v < npages sz) :
    wp machine P (uvmfree img S.root sz) (fun _ h' => Pages P.pool extra h') h := by
  have htop : userTop = 2 ^ 26 - 2 := rfl
  unfold uvmfree
  by_cases hpos : sz > 0
  · have hsmall : sz + pgSize ≤ 2 ^ 64 := by
      have := npages_le.mp hsz
      unfold pgSize at *
      omega
    simp only [if_pos hpos, pgRoundUp_npages hsmall,
      Nat.mul_div_cancel _ (show 0 < pgSize by decide)]
    have hunmap : wp machine P (uvmunmap img S.root (0 * pgSize) (npages sz) true) _ h :=
      uvmunmap_spec hmem hrep (by omega) (by simpa using hsz)
    rw [Nat.zero_mul] at hunmap
    refine wp_seq hunmap ?_
    rintro - h' ⟨S', hclear, hrep', -⟩
    rw [← hclear.root]
    refine freewalk_root hmem hrep' fun v => ?_
    rw [hclear.leaf, cleared]
    by_contra hne
    split at hne
    · exact hne rfl
    · have := hleaf v hne
      omega
  · simp only [if_neg hpos]
    refine freewalk_root hmem hrep fun v => ?_
    by_contra hne
    have := lt_npages.mp (hleaf v hne)
    omega

end Xv6.Vm
