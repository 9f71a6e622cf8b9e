import Xv6.Fs.Content

/-! Directory entries: the string functions that compare and store names, and
the contents of a directory as a list of entries, a finite map from names of at
most `DIRSIZ` bytes to inode numbers. -/
namespace Xv6.Fs

open Lib

def dirsiz : Nat := 14

def direntSize : Nat := 16

/-- The bytes from a `char*` on; those after the end of the list are 0. -/
abbrev CString := List UInt8

def CString.head (s : CString) : UInt8 := List.headD s 0

def strncmp : CString → CString → Nat → Int
  | _, _, 0 => 0
  | p, q, n + 1 =>
      if p.head ≠ 0 ∧ p.head = q.head then strncmp p.tail q.tail n
      else p.head.toNat - q.head.toNat

def strncpy : CString → Nat → List UInt8
  | _, 0 => []
  | t, n + 1 =>
      if t.head ≠ 0 then t.head :: strncpy t.tail n else List.replicate (n + 1) 0

def namecmp (s t : CString) : Int := strncmp s t dirsiz

structure Dirent where
  inum : Nat
  name : CString
  deriving DecidableEq

def Dirent.read (bytes : List UInt8) : Dirent where
  inum := (bytes.getD 0 0).toNat + 256 * (bytes.getD 1 0).toNat
  name := bytes.drop 2

/-- The entry that `dirlink` fills in; `de.inum` is a `ushort`. -/
def direntBytes (inum : Nat) (name : CString) : List UInt8 :=
  UInt8.ofNat inum :: UInt8.ofNat (inum / 256) :: strncpy name dirsiz

def CString.key (s : CString) : List UInt8 := (List.take dirsiz s).takeWhile (· ≠ 0)

theorem strncmp_eq_zero (n : Nat) : ∀ s t : CString, strncmp s t n = 0 ↔
    (List.take n s).takeWhile (· ≠ 0) = (List.take n t).takeWhile (· ≠ 0) := by
  induction n with
  | zero =>
    intro s t
    simp [strncmp]
  | succ n ih =>
    intro s t
    have hnil : ∀ t : CString, t.head = 0 ↔ (List.take (n + 1) t).takeWhile (· ≠ 0) = [] := by
      intro t
      cases t with
      | nil => simp [CString.head]
      | cons c t => by_cases hc : c = 0 <;> simp [CString.head, hc]
    rw [strncmp]
    by_cases hs : s.head = 0
    · rw [(hnil s).mp hs, if_neg fun h => h.1 hs, hs, @eq_comm _ [], ← hnil t, ← UInt8.toNat_inj,
        UInt8.toNat_zero]
      omega
    · cases s with
      | nil => exact absurd rfl hs
      | cons a s =>
        have ha : a ≠ 0 := hs
        cases t with
        | nil =>
          have hpos : a.toNat ≠ 0 := fun h => ha (UInt8.toNat_inj.mp h)
          simp [CString.head, ha, hpos]
        | cons b t =>
          by_cases hab : a = b
          · subst hab
            simpa [CString.head, ha] using ih s t
          · have hne : a.toNat ≠ b.toNat := fun h => hab (UInt8.toNat_inj.mp h)
            have hsub : (a.toNat : Int) - b.toNat ≠ 0 := by omega
            by_cases hb : b = 0 <;> simp [CString.head, ha, hab, hb, hsub]
            simpa [hb] using hsub

theorem namecmp_eq_zero (s t : CString) : namecmp s t = 0 ↔ s.key = t.key :=
  strncmp_eq_zero dirsiz s t

theorem length_strncpy (n : Nat) : ∀ t : CString, (strncpy t n).length = n := by
  induction n with
  | zero =>
    intro t
    rfl
  | succ n ih =>
    intro t
    rw [strncpy]
    split <;> simp [ih]

theorem takeWhile_strncpy (n : Nat) : ∀ t : CString,
    (List.take n (strncpy t n)).takeWhile (· ≠ 0) = (List.take n t).takeWhile (· ≠ 0) := by
  induction n with
  | zero =>
    intro t
    rfl
  | succ n ih =>
    intro t
    rw [strncpy]
    cases t with
    | nil => simp [CString.head, List.replicate_succ]
    | cons c t =>
      by_cases hc : c = 0
      · simp [CString.head, hc, List.replicate_succ]
      · simpa [CString.head, hc] using ih t

theorem key_strncpy (s : CString) : CString.key (strncpy s dirsiz) = s.key :=
  takeWhile_strncpy dirsiz s

theorem length_direntBytes (inum : Nat) (name : CString) :
    (direntBytes inum name).length = direntSize := by
  simp [direntBytes, length_strncpy, dirsiz, direntSize]

theorem read_direntBytes {inum : Nat} (h : inum < 2 ^ 16) (name : CString) :
    Dirent.read (direntBytes inum name) = ⟨inum, strncpy name dirsiz⟩ := by
  have hinum : inum % 256 + 256 * (inum / 256 % 256) = inum := by omega
  simp [Dirent.read, direntBytes, hinum]

def offsets (start size : Nat) : List Nat :=
  (List.range ((size - start + direntSize - 1) / direntSize)).map (start + direntSize * ·)

def slotAt (bytes : List UInt8) (k : Nat) : Dirent :=
  .read ((bytes.drop (direntSize * k)).take direntSize)

def slots (bytes : List UInt8) : List Dirent :=
  (List.range (bytes.length / direntSize)).map (slotAt bytes)

theorem length_slots (bytes : List UInt8) : (slots bytes).length = bytes.length / direntSize := by
  simp [slots]

theorem getElem?_slots (bytes : List UInt8) (k : Nat) : (slots bytes)[k]? =
    if k < bytes.length / direntSize then some (slotAt bytes k) else none := by
  simp only [slots, List.getElem?_map]
  split <;> simp [*]

def put (es : List Dirent) (k : Nat) (de : Dirent) : List Dirent :=
  if k < es.length then es.set k de else es ++ [de]

theorem getElem?_put {es : List Dirent} {k : Nat} (hk : k ≤ es.length) (de : Dirent) (j : Nat) :
    (put es k de)[j]? = if j = k then some de else es[j]? := by
  unfold put
  by_cases hlt : k < es.length
  · rw [if_pos hlt, List.getElem?_set]
    by_cases hj : j = k
    · simp [hj, hlt]
    · simp [hj, Ne.symm hj]
  · have heq : k = es.length := by omega
    rw [if_neg hlt, heq, List.getElem?_append]
    by_cases hj : j = es.length
    · simp [hj]
    · by_cases hlt' : j < es.length
      · simp [hlt', hj]
      · have hout : es.length ≤ j := by omega
        have hpos : 0 < j - es.length := by omega
        simp [hlt', hj]
        omega

theorem length_splice {old new : List UInt8} {off : Nat} (hoff : off ≤ old.length) :
    (splice old off new).length = max old.length (off + new.length) := by
  simp only [splice, List.length_append, List.length_take, List.length_drop]
  omega

theorem slots_splice {bytes new : List UInt8} (hsize : bytes.length % direntSize = 0)
    (hnew : new.length = direntSize) {k : Nat} (hk : k ≤ bytes.length / direntSize) :
    slots (splice bytes (direntSize * k) new) = put (slots bytes) k (.read new) := by
  have hdiv := Nat.div_add_mod bytes.length direntSize
  have hoff : direntSize * k ≤ bytes.length := by
    have := Nat.mul_le_mul_left direntSize hk
    omega
  have hcount : (splice bytes (direntSize * k) new).length / direntSize =
      max (bytes.length / direntSize) (k + 1) := by
    rw [length_splice hoff, hnew]
    unfold direntSize at *
    omega
  have hslot : ∀ j, slotAt (splice bytes (direntSize * k) new) j =
      if j = k then .read new else slotAt bytes j := by
    intro j
    have hlist : ((splice bytes (direntSize * k) new).drop (direntSize * j)).take direntSize =
        if j = k then new else (bytes.drop (direntSize * j)).take direntSize := by
      apply List.ext_getElem?
      intro t
      rw [List.getElem?_take, List.getElem?_drop, getElem?_splice hoff, hnew]
      by_cases hj : j = k
      · rw [if_pos hj, hj]
        by_cases ht : t < direntSize
        · rw [if_pos ht, if_pos (by omega), Nat.add_sub_cancel_left]
        · rw [if_neg ht, List.getElem?_eq_none (by omega)]
      · rw [if_neg hj, List.getElem?_take, List.getElem?_drop]
        by_cases ht : t < direntSize
        · have hout : ¬(direntSize * k ≤ direntSize * j + t ∧
              direntSize * j + t < direntSize * k + direntSize) := by
            unfold direntSize at *
            omega
          rw [if_pos ht, if_pos ht, if_neg hout]
        · rw [if_neg ht, if_neg ht]
    unfold slotAt
    rw [hlist]
    split <;> rfl
  apply List.ext_getElem?
  intro j
  rw [getElem?_slots, hcount, hslot, getElem?_put (by rwa [length_slots]), getElem?_slots]
  by_cases hj : j = k
  · simp [hj]
  · have hiff : j < max (bytes.length / direntSize) (k + 1) ↔ j < bytes.length / direntSize := by
      omega
    simp only [hj, if_false, hiff]

def Dirent.Binds (de : Dirent) (name : CString) : Prop := de.inum ≠ 0 ∧ namecmp name de.name = 0

instance (de : Dirent) (name : CString) : Decidable (de.Binds name) :=
  inferInstanceAs (Decidable (_ ∧ _))

def index (name : CString) (es : List Dirent) : Option Nat :=
  es.findIdx? fun de => de.Binds name

def freeIndex (es : List Dirent) : Nat := es.findIdx fun de => de.inum = 0

theorem index_eq_some {name : CString} {es : List Dirent} {k : Nat} :
    index name es = some k ↔ (∃ de : Dirent, es[k]? = some de ∧ de.Binds name) ∧
      ∀ (j : Nat) (de : Dirent), j < k → es[j]? = some de → ¬de.Binds name := by
  rw [index, List.findIdx?_eq_some_iff_getElem]
  constructor
  · rintro ⟨hk, hbinds, hfirst⟩
    refine ⟨⟨_, List.getElem?_eq_getElem hk, by simpa using hbinds⟩, fun j de hj hde => ?_⟩
    obtain ⟨_, rfl⟩ := List.getElem?_eq_some_iff.mp hde
    simpa using hfirst j hj
  · rintro ⟨⟨de, hde, hbinds⟩, hfirst⟩
    obtain ⟨hk, rfl⟩ := List.getElem?_eq_some_iff.mp hde
    refine ⟨hk, by simpa using hbinds, fun j hj => ?_⟩
    simpa using hfirst j _ hj (List.getElem?_eq_getElem (by omega))

theorem index_eq_none {name : CString} {es : List Dirent} :
    index name es = none ↔ ∀ (k : Nat) (de : Dirent), es[k]? = some de → ¬de.Binds name := by
  rw [index, List.findIdx?_eq_none_iff]
  constructor
  · intro h k de hde
    simpa using h de (List.mem_of_getElem? hde)
  · intro h de hde
    obtain ⟨k, hk⟩ := List.mem_iff_getElem?.mp hde
    simpa using h k de hk

theorem index_congr {name : CString} {es es' : List Dirent}
    (h : ∀ k : Nat, (∃ de : Dirent, es[k]? = some de ∧ de.Binds name) ↔
      ∃ de : Dirent, es'[k]? = some de ∧ de.Binds name) :
    index name es = index name es' := by
  apply Option.ext
  intro k
  rw [index_eq_some, index_eq_some]
  refine and_congr (h k) (forall_congr' fun j => ?_)
  constructor
  · intro hfirst de hj hde hbinds
    obtain ⟨de', hde', hbinds'⟩ := (h j).mpr ⟨de, hde, hbinds⟩
    exact hfirst de' hj hde' hbinds'
  · intro hfirst de hj hde hbinds
    obtain ⟨de', hde', hbinds'⟩ := (h j).mp ⟨de, hde, hbinds⟩
    exact hfirst de' hj hde' hbinds'

theorem freeIndex_le (es : List Dirent) : freeIndex es ≤ es.length := List.findIdx_le_length

theorem inum_freeIndex {es : List Dirent} {de : Dirent} (h : es[freeIndex es]? = some de) :
    de.inum = 0 := by
  obtain ⟨hlt, rfl⟩ := List.getElem?_eq_some_iff.mp h
  have hfree := @List.findIdx_getElem _ (fun de => decide (Dirent.inum de = 0)) es hlt
  exact of_decide_eq_true hfree

def UniqueNames (es : List Dirent) : Prop :=
  ∀ (j k : Nat) (d e : Dirent), es[j]? = some d → es[k]? = some e → d.inum ≠ 0 → e.inum ≠ 0 →
    d.name.key = e.name.key → j = k

theorem uniqueNames_of_getD {es : List Dirent}
    (h : ∀ j, j < es.length → ∀ k, k < es.length → j = k ∨ (es.getD j ⟨0, []⟩).inum = 0 ∨
      (es.getD k ⟨0, []⟩).inum = 0 ∨
      (es.getD j ⟨0, []⟩).name.key ≠ (es.getD k ⟨0, []⟩).name.key) : UniqueNames es := by
  intro j k d e hj hk hd he hkey
  have hget : ∀ {m : Nat} {x : Dirent}, es[m]? = some x → es.getD m ⟨0, []⟩ = x := by
    intro m x hm
    rw [List.getD_eq_getElem?_getD, hm]
    rfl
  have hcases := h j (List.getElem?_eq_some_iff.mp hj).1 k (List.getElem?_eq_some_iff.mp hk).1
  rw [hget hj, hget hk] at hcases
  tauto

theorem Dirent.Binds.key {de : Dirent} {name : CString} (h : de.Binds name) :
    name.key = de.name.key :=
  (namecmp_eq_zero _ _).mp h.2

section Put

variable {es : List Dirent} {k : Nat} {de : Dirent} (hk : k ≤ es.length)
include hk

theorem index_put_of_not {name : CString} (hold : ∀ d : Dirent, es[k]? = some d → ¬d.Binds name)
    (hnew : ¬de.Binds name) : index name (put es k de) = index name es := by
  apply index_congr
  intro j
  rw [getElem?_put hk]
  by_cases hj : j = k
  · subst hj
    rw [if_pos rfl]
    constructor
    · rintro ⟨d, hd, hbinds⟩
      cases hd
      exact absurd hbinds hnew
    · rintro ⟨d, hd, hbinds⟩
      exact absurd hbinds (hold d hd)
  · rw [if_neg hj]

theorem index_put_self {name : CString} (hnone : index name es = none) (hbinds : de.Binds name) :
    index name (put es k de) = some k := by
  rw [index_eq_some]
  refine ⟨⟨de, by rw [getElem?_put hk, if_pos rfl], hbinds⟩, fun j d hj hd => ?_⟩
  rw [getElem?_put hk, if_neg (by omega)] at hd
  exact index_eq_none.mp hnone j d hd

theorem UniqueNames.put (hu : UniqueNames es)
    (hfresh : de.inum ≠ 0 → ∀ (j : Nat) (d : Dirent), j ≠ k → es[j]? = some d → d.inum ≠ 0 →
      d.name.key ≠ de.name.key) : UniqueNames (put es k de) := by
  intro i j d e hi hj hd he hkey
  rw [getElem?_put hk] at hi hj
  by_cases hik : i = k
  · by_cases hjk : j = k
    · rw [hik, hjk]
    · rw [if_pos hik] at hi
      rw [if_neg hjk] at hj
      cases hi
      exact absurd hkey.symm (hfresh hd j e hjk hj he)
  · rw [if_neg hik] at hi
    by_cases hjk : j = k
    · rw [if_pos hjk] at hj
      cases hj
      exact absurd hkey (hfresh he i d hik hi hd)
    · rw [if_neg hjk] at hj
      exact hu i j d e hi hj hd he hkey

end Put

/-- The directory as a map from names, to inode numbers and the offsets of the entries. -/
def binding (es : List Dirent) (name : CString) : Option (Nat × Nat) :=
  (index name es).map fun k => ((es.getD k ⟨0, []⟩).inum, direntSize * k)

theorem binding_eq_none {es : List Dirent} {name : CString} :
    binding es name = none ↔ index name es = none := Option.map_eq_none_iff

theorem of_binding_eq_some {es : List Dirent} {name : CString} {inum off : Nat}
    (h : binding es name = some (inum, off)) :
    ∃ (k : Nat) (de : Dirent), index name es = some k ∧ es[k]? = some de ∧ de.Binds name ∧
      de.inum = inum ∧ off = direntSize * k := by
  obtain ⟨k, hk, heq⟩ := Option.map_eq_some_iff.mp h
  obtain ⟨⟨de, hde, hbinds⟩, -⟩ := index_eq_some.mp hk
  rw [List.getD_eq_getElem?_getD, hde] at heq
  injection heq with hinum hoff
  exact ⟨k, de, hk, hde, hbinds, hinum, hoff.symm⟩

section Binding

variable {es : List Dirent} {k : Nat} {de : Dirent} {s t : CString}

theorem getD_put (hk : k ≤ es.length) (j : Nat) (d : Dirent) :
    (put es k de).getD j d = if j = k then de else es.getD j d := by
  rw [List.getD_eq_getElem?_getD, getElem?_put hk]
  split
  · rfl
  · rw [List.getD_eq_getElem?_getD]

theorem binding_put_self (hk : k ≤ es.length) (hnone : index s es = none) (hbinds : de.Binds s) :
    binding (put es k de) s = some (de.inum, direntSize * k) := by
  rw [binding, index_put_self hk hnone hbinds, Option.map_some, getD_put hk, if_pos rfl]

theorem binding_put_of_not (hk : k ≤ es.length) (hold : ∀ d : Dirent, es[k]? = some d → ¬d.Binds t)
    (hnew : ¬de.Binds t) : binding (put es k de) t = binding es t := by
  rw [binding, binding, index_put_of_not hk hold hnew]
  apply Option.map_congr
  intro j hj
  obtain ⟨⟨d, hd, hbinds⟩, -⟩ := index_eq_some.mp hj
  have hne : j ≠ k := by
    rintro rfl
    exact hold d hd hbinds
  rw [getD_put hk, if_neg hne]

theorem binding_clear (hu : UniqueNames es) (hindex : index s es = some k) (hde : de.inum = 0) :
    binding (put es k de) t = if t.key = s.key then none else binding es t := by
  obtain ⟨⟨d, hd, hbinds⟩, -⟩ := index_eq_some.mp hindex
  have hlt : k < es.length := (List.getElem?_eq_some_iff.mp hd).1
  have hnew : ¬de.Binds t := fun h => h.1 hde
  split
  · rename_i hkey
    rw [binding_eq_none, index_eq_none]
    intro j e he hbinds'
    rw [getElem?_put (Nat.le_of_lt hlt)] at he
    by_cases hj : j = k
    · rw [if_pos hj] at he
      cases he
      exact hnew hbinds'
    · rw [if_neg hj] at he
      refine hj (hu j k e d he hd hbinds'.1 hbinds.1 ?_)
      rw [← hbinds'.key, hkey, hbinds.key]
  · rename_i hkey
    refine binding_put_of_not (Nat.le_of_lt hlt) (fun e he hbinds' => hkey ?_) hnew
    rw [hd] at he
    cases he
    exact hbinds'.key.trans hbinds.key.symm

end Binding

end Xv6.Fs
