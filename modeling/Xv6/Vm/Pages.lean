import Xv6.Vm.Pte

/-! User memory as an access of the kernel finds it: pages with their flags and
contents. A page below the size that is not mapped yet is a page of zeros, so
that nothing here tells when memory was allocated. -/
namespace Xv6.Vm

def heapFlags : Nat := pteR ||| pteW ||| pteU ||| pteV

abbrev UserPages := Nat → Option (Nat × Data)

/-- What an access finds when `mapped` are the pages that are mapped. -/
def look (mapped : UserPages) (sz v : Nat) : Option (Nat × Data) :=
  match mapped v with
  | some (flags, data) => if flags &&& pteU = 0 then none else some (flags, data)
  | none => if v < npages sz then some (heapFlags, filled 0) else none

def grown (pages : UserPages) (lo hi v : Nat) : Option (Nat × Data) :=
  if lo ≤ v ∧ v < hi then some (heapFlags, filled 0) else pages v

def shrunk (pages : UserPages) (lo hi v : Nat) : Option (Nat × Data) :=
  if lo ≤ v ∧ v < hi then none else pages v

/-- Read page by page; whether all the bytes were there, and those before the
first that was not. -/
def readPages (pages : UserPages) : Nat → Nat → Nat → Bool × List UInt8
  | 0, _, _ => (true, [])
  | more + 1, va, len =>
      if len = 0 then (true, [])
      else
        match pages (vpn va) with
        | none => (false, [])
        | some (_, data) =>
            let offset := va - pgRoundDown va
            let n := min (pgSize - offset) len
            let (ok, rest) := readPages pages more (pgRoundDown va + pgSize) (len - n)
            (ok, data.slice offset n ++ rest)

def readString (pages : UserPages) : Nat → Nat → Nat → Bool × List UInt8
  | 0, _, _ => (false, [])
  | more + 1, va, max =>
      if max = 0 then (false, [])
      else
        match pages (vpn va) with
        | none => (false, [])
        | some (_, data) =>
            let offset := va - pgRoundDown va
            let n := min (pgSize - offset) max
            let bytes := data.slice offset n
            if 0 ∈ bytes then (true, bytes.takeWhile (· ≠ 0) ++ [0])
            else
              let (ok, rest) := readString pages more (pgRoundDown va + pgSize) (max - n)
              (ok, bytes ++ rest)

def writePages : Nat → UserPages → Nat → List UInt8 → Bool × UserPages
  | 0, pages, _, _ => (true, pages)
  | more + 1, pages, va, src =>
      if src = [] then (true, pages)
      else
        match pages (vpn va) with
        | none => (false, pages)
        | some (flags, data) =>
            if flags &&& pteW = 0 then (false, pages)
            else
              let offset := va - pgRoundDown va
              let n := min (pgSize - offset) src.length
              let data := data.blit offset (src.take n)
              writePages more (Function.update pages (vpn va) (some (flags, data)))
                (pgRoundDown va + pgSize) (src.drop n)

variable {mapped : UserPages} {sz sz' v lo hi : Nat}

theorem grown_self (pages : UserPages) (lo : Nat) : grown pages lo lo = pages := by
  funext v
  rw [grown, if_neg (by omega)]

theorem shrunk_self {pages : UserPages} (h : hi ≤ lo) : shrunk pages lo hi = pages := by
  funext v
  rw [shrunk, if_neg (by omega)]

/-- Some pages below the size that were not mapped are now pages of zeros. -/
def Faults (sz : Nat) (touched : Nat → Prop) (pages pages' : UserPages) : Prop :=
  ∀ v, pages' v = pages v ∨
    touched v ∧ v < npages sz ∧ pages v = none ∧ pages' v = some (heapFlags, filled 0)

def Usable (write : Bool) (pages : UserPages) (v : Nat) : Prop :=
  ∃ flags data, pages v = some (flags, data) ∧ flags &&& pteU ≠ 0 ∧
    (write = true → flags &&& pteW ≠ 0)

section Faults

variable {pages pages' pages'' : UserPages} {touched touched' : Nat → Prop}

theorem Faults.refl : Faults sz touched pages pages := fun _ => Or.inl rfl

theorem Faults.mono (h : Faults sz touched pages pages') (hsub : ∀ v, touched v → touched' v) :
    Faults sz touched' pages pages' :=
  fun v => (h v).imp id fun hv => ⟨hsub v hv.1, hv.2⟩

theorem Faults.trans (h : Faults sz touched pages pages') (h' : Faults sz touched pages' pages'') :
    Faults sz touched pages pages'' := by
  intro v
  rcases h' v with heq | ⟨htouched, hv, hnone, hnew⟩
  · rw [heq]
    exact h v
  · rcases h v with heq | ⟨-, -, -, hmapped⟩
    · exact Or.inr ⟨htouched, hv, heq ▸ hnone, hnew⟩
    · rw [hmapped] at hnone
      cases hnone

theorem Faults.kept {v : Nat} {page : Nat × Data} (h : Faults sz touched pages pages')
    (hpage : pages v = some page) : pages' v = some page := by
  rcases h v with heq | ⟨-, -, hnone, -⟩
  · exact heq.trans hpage
  · rw [hpage] at hnone
    cases hnone

theorem Faults.look (h : Faults sz touched pages pages') : look pages' sz = look pages sz := by
  funext v
  rcases h v with heq | ⟨-, hv, hnone, hnew⟩
  · simp [Vm.look, heq]
  · simp [Vm.look, hnone, hnew, hv, show heapFlags &&& pteU ≠ 0 by decide]

end Faults

theorem look_write {flags : Nat} (data : Data) (huser : flags &&& pteU ≠ 0) :
    look (Function.update mapped v (some (flags, data))) sz =
      Function.update (look mapped sz) v (some (flags, data)) := by
  funext u
  by_cases huv : u = v
  · subst huv
    simp [look, huser]
  · simp [look, huv]

theorem look_of_mapped {flags : Nat} {data : Data} (h : mapped v = some (flags, data))
    (huser : flags &&& pteU ≠ 0) : look mapped sz v = some (flags, data) := by
  simp [look, h, huser]

theorem look_of_not_user {flags : Nat} {data : Data} (h : mapped v = some (flags, data))
    (huser : flags &&& pteU = 0) : look mapped sz v = none := by
  simp [look, h, huser]

theorem look_of_unmapped (h : mapped v = none) (hv : ¬v < npages sz) : look mapped sz v = none := by
  simp [look, h, hv]

theorem look_of_not_usable (h : ¬Usable false mapped v)
    (hv : ¬v < npages sz ∨ mapped v ≠ none) : look mapped sz v = none := by
  cases hmapped : mapped v with
  | none => exact look_of_unmapped hmapped (hv.resolve_right fun h => h hmapped)
  | some page =>
    refine look_of_not_user hmapped (by_contra fun huser => h ?_)
    exact ⟨_, _, hmapped, huser, by simp⟩

theorem look_reserve (hnone : ∀ u, npages sz ≤ u → mapped u = none) (hsz : sz ≤ sz') :
    look mapped sz' = grown (look mapped sz) (npages sz) (npages sz') := by
  have hmono := npages_mono hsz
  funext u
  by_cases hu : npages sz ≤ u
  · simp [look, grown, hnone u hu, hu, show ¬u < npages sz by omega]
  · cases hmapped : mapped u with
    | some page => simp [look, grown, hmapped, hu]
    | none => simp [look, grown, hmapped, hu, show u < npages sz' by omega]

theorem look_grown (hnone : ∀ u, npages sz ≤ u → mapped u = none) (hsz : sz ≤ sz') :
    look (grown mapped (npages sz) (npages sz')) sz' =
      grown (look mapped sz) (npages sz) (npages sz') := by
  rw [← look_reserve hnone hsz]
  funext u
  unfold look
  by_cases hu : npages sz ≤ u ∧ u < npages sz'
  · rw [grown, if_pos hu, hnone u hu.1]
    simp [hu.2, show heapFlags &&& pteU ≠ 0 by decide]
  · rw [grown, if_neg hu]

theorem look_shrunk (hsz : sz' ≤ sz) :
    look (shrunk mapped (npages sz') (npages sz)) sz' =
      shrunk (look mapped sz) (npages sz') (npages sz) := by
  have hmono := npages_mono hsz
  funext u
  by_cases hu : npages sz' ≤ u ∧ u < npages sz
  · simp [look, shrunk, hu]
  · simp only [look, shrunk, if_neg hu]
    cases hmapped : mapped u with
    | some page => rfl
    | none =>
      by_cases hlow : u < npages sz'
      · simp [hlow, show u < npages sz by omega]
      · simp [hlow, show ¬u < npages sz by omega]

end Xv6.Vm
