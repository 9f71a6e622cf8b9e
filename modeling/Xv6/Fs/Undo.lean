import Xv6.Fs.Image
import Xv6.Fs.Linking

/-! A call on names that fails leaves the tree as it was. -/
namespace Xv6.Fs.Names

open Lib
open Script hiding bind

variable {P : Type} {sb : Superblock} {p : P} {w w' : World P}

inductive NameCall where
  | mkdir (path : Option CString)
  | mknod (path : Option CString) (major minor : Int16)
  | link (old new : Option CString)
  | unlink (path : Option CString)

def NameCall.script : NameCall → Kernel Int
  | mkdir path => sysMkdir path
  | mknod path major minor => sysMknod path major minor
  | link old new => sysLink old new
  | unlink path => sysUnlink path

/-- A well-formed file system with nobody at work in it: no lock is held, every process has a
reference to its directory, and the directories are sound. -/
structure Orderly (sb : Superblock) (w : World P) : Prop where
  quiet : Quiet sb w.fs
  unlocked : ∀ ip, w.lock ip = none
  sound : Sound sb True w (nodes sb w.fs) []
  cwd : ∀ p, 0 < (w.fs.inode (w.cwd p)).ref

theorem Orderly.start (h : Orderly sb w) (p : P) : At sb p w False 0 (nodes sb w.fs) [] ∅ w where
  quiet := h.quiet
  nodes := rfl
  nonneg := h.quiet.nonneg
  refs ip := by simp
  old ip _ := rfl
  held x hx := by simp at hx
  ready hR := hR.elim
  locked ip hip := by simp at hip
  lock ip := by simp [h.unlocked ip]
  outstanding := (Int.add_zero _).symm
  cwd := rfl

/-- The same nodes with the same contents, the same references, no lock held, no open
transaction more, and the same current directories. -/
structure Untouched (sb : Superblock) (w w' : World P) : Prop where
  nodes : Fs.nodes sb w'.fs = Fs.nodes sb w.fs
  ref : ∀ ip, (w'.fs.inode ip).ref = (w.fs.inode ip).ref
  inum : ∀ ip, 0 < (w.fs.inode ip).ref → (w'.fs.inode ip).inum = (w.fs.inode ip).inum
  lock : ∀ ip, w'.lock ip = none
  outstanding : w'.outstanding = w.outstanding
  cwd : w'.cwd = w.cwd

theorem At.untouched (h : At sb p w False 0 (Fs.nodes sb w.fs) [] ∅ w') : Untouched sb w w' where
  nodes := h.nodes
  ref ip := by simpa using h.refs ip
  inum := h.old
  lock ip := by simpa using h.lock ip
  outstanding := by simpa using h.outstanding
  cwd := h.cwd

variable [DecidableEq P]

theorem NameCall.wp (h : Orderly sb w) (p : P) (call : NameCall) :
    Wp (act sb p) (fun _ => True) call.script
      (fun r w' => r = 0 ∨ r = -1 ∧ Untouched sb w w') w := by
  have hstart := h.start p
  have hroom : ∀ n, HasRoom (fun _ => True) w n := fun _ => Or.inl trivial
  cases call with
  | mkdir path =>
    refine (At.makeNode h.sound (hroom _) (fun _ => trivial) hstart (h.cwd p) (by decide)
      (by decide) path).mono ?_
    rintro r w' (⟨hr, h'⟩ | ⟨hr, -⟩)
    · exact Or.inr ⟨hr, h'.untouched⟩
    · exact Or.inl hr
  | mknod path major minor =>
    refine (At.makeNode h.sound (hroom _) (fun _ => trivial) hstart (h.cwd p) (by decide)
      (by decide) path).mono ?_
    rintro r w' (⟨hr, h'⟩ | ⟨hr, -⟩)
    · exact Or.inr ⟨hr, h'.untouched⟩
    · exact Or.inl hr
  | link old new =>
    refine (At.sysLink (h.cwd p) (fun _ => trivial) hstart h.sound (hroom _)
      (Or.inr fun _ => trivial) old new).mono ?_
    rintro r w' (⟨hr, h'⟩ | ⟨hr, -⟩)
    · exact Or.inr ⟨hr, h'.untouched⟩
    · exact Or.inl hr
  | unlink path =>
    refine (At.sysUnlink h.sound (fun _ => trivial) (hroom _) hstart (h.cwd p)
      (fun _ _ _ _ _ _ _ _ _ _ => ⟨fun _ => trivial, fun _ _ _ => trivial⟩) path).mono ?_
    rintro r w' (⟨hr, h'⟩ | ⟨hr, -⟩)
    · exact Or.inr ⟨hr, h'.untouched⟩
    · exact Or.inl hr

/-- A call that returns -1 has changed nothing. -/
theorem failed_call_undone (h : Orderly sb w) (p : P) (call : NameCall)
    (hrun : call.script.run (act sb p) w = .ok (-1, w')) : Untouched sb w w' := by
  rcases (call.wp h p).of_ok hrun with hzero | ⟨-, huntouched⟩
  · exact absurd hzero (by decide)
  · exact huntouched

section Sample

def smallFiles : List (Nat × Dinode) := [(2, ⟨2, 0, 0, 1, 0, fun _ => 0⟩), (1, rootDinode 48)]

def smallEntries : List UInt8 := direntBytes 1 dot ++ direntBytes 1 dotdot ++ direntBytes 2 [102]

def smallWorld : World Unit where
  fs := ⟨imageDisk smallFiles smallEntries, fun ip =>
    ⟨1, if ip = firstEntry then 1 else 0, true, rootDinode 48⟩⟩
  lock _ := none
  outstanding := 0
  cwd _ := firstEntry

theorem nodes_smallWorld : ∀ i < 64, nodes imageSuperblock smallWorld.fs i =
    if i = 1 then some ⟨1, 0, 0, 1, smallEntries⟩
    else if i = 2 then some ⟨2, 0, 0, 1, []⟩ else none := by
  decide +kernel

theorem orderly_smallWorld : Orderly imageSuperblock smallWorld := by
  have hfits : ∀ f ∈ smallFiles, f.2.Fits := by
    intro f hf
    simp only [smallFiles, List.mem_cons, List.not_mem_nil, or_false] at hf
    rcases hf with rfl | rfl
    · exact ⟨Nat.two_pow_pos 32, fun _ => Nat.two_pow_pos 32, fun _ _ => rfl⟩
    · exact fits_rootDinode (by decide)
  have hroot : imageInode smallFiles 1 = rootDinode 48 := by
    simp [imageInode, smallFiles]
  have hfirst : ∀ ip, 0 < (smallWorld.fs.inode ip).ref → ip = firstEntry := by
    intro ip hip
    by_contra hne
    simp [smallWorld, hne] at hip
  have hquiet : Quiet imageSuperblock smallWorld.fs := by
    refine @IsImage.quiet _ _ 48 _ ⟨by decide, by decide, hroot, fun f hf hne => ?_⟩ hfits
      (fun ip jp hip hjp _ => (hfirst ip hip).trans (hfirst jp hjp).symm) (fun ip => ?_)
      (fun ip _ => ⟨Nat.le_refl 1, (by decide : 1 < 64), by rw [hroot]; decide⟩)
      fun ip _ _ => hroot.symm
    · simp only [smallFiles, List.mem_cons, List.not_mem_nil, or_false] at hf
      rcases hf with rfl | rfl
      · exact ⟨rfl, rfl⟩
      · exact absurd rfl hne
    · show 0 ≤ (if ip = firstEntry then (1 : Int) else 0)
      split <;> decide
  have hnodes : ∀ i node, nodes imageSuperblock smallWorld.fs i = some node →
      i = 1 ∧ node = ⟨1, 0, 0, 1, smallEntries⟩ ∨ i = 2 ∧ node = ⟨2, 0, 0, 1, []⟩ := by
    intro i node hnode
    obtain ⟨-, hlt, -⟩ := used_of_nodes (by rw [hnode]; exact Option.some_ne_none _)
    rw [nodes_smallWorld i hlt] at hnode
    split at hnode
    · rename_i hi
      exact Or.inl ⟨hi, (Option.some.inj hnode).symm⟩
    · split at hnode
      · rename_i hi
        exact Or.inr ⟨hi, (Option.some.inj hnode).symm⟩
      · cases hnode
  have hentries : ∀ de ∈ slots smallEntries, de.inum = 1 ∨ de.inum = 2 := by decide +kernel
  refine ⟨hquiet, fun _ => rfl, ⟨?_, fun i node hnode hdir => ?_,
    fun i node de hnode hdir hde _ => ?_,
    fun i node hnode => ?_⟩, fun _ => Int.one_pos⟩
  · rw [rootIno, nodes_smallWorld _ (by decide), if_pos rfl]
    exact Option.some_ne_none _
  · rcases hnodes i node hnode with ⟨-, rfl⟩ | ⟨-, rfl⟩
    · decide +kernel
    · rfl
  · rcases hnodes i node hnode with ⟨-, rfl⟩ | ⟨-, rfl⟩
    · left
      rcases hentries de hde with h | h <;> rw [h, nodes_smallWorld _ (by decide)] <;>
        exact Option.some_ne_none _
    · exact absurd hdir (by decide)
  · rcases hnodes i node hnode with ⟨-, rfl⟩ | ⟨-, rfl⟩ <;> exact Or.inl (by decide)

end Sample

/-- Making a directory where there is a file fails. -/
theorem failed_call_undone_mkdir : ∃ w', (NameCall.mkdir (some [47, 102])).script.run
    (act imageSuperblock ()) smallWorld = .ok (-1, w') ∧
    Untouched imageSuperblock smallWorld w' := by
  have hreturns : (((NameCall.mkdir (some [47, 102])).script.run
      (act imageSuperblock ()) smallWorld).map Prod.fst).toOption = some (-1) := by
    decide +kernel
  cases hrun : (NameCall.mkdir (some [47, 102])).script.run (act imageSuperblock ()) smallWorld with
  | error e =>
    rw [hrun] at hreturns
    cases hreturns
  | ok result =>
    obtain ⟨r, w'⟩ := result
    rw [hrun] at hreturns
    cases hreturns
    exact ⟨w', rfl, failed_call_undone orderly_smallWorld () _ hrun⟩

end Xv6.Fs.Names
