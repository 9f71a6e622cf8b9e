import Xv6.Bio.Lru
import Xv6.Fs.Content
import Xv6.Sched.Table

/-! Processes that do nothing but read. Reading takes no reservation, so more of them
can sleep in `readi`, each with a buffer, than there are buffers. -/
namespace Xv6.Fs

open Lib Bio

variable {P : Type}

def bmapBlocks (d : Dinode) (bn : Nat) : List Nat :=
  if bn < nDirect then [] else [d.addrs nDirect]

def readLoopBlocks (fs : Store) (ip : Ptr) (n : Nat) : Nat → Nat → Nat → List Nat
  | 0, _, _ => []
  | fuel + 1, tot, off =>
      if tot < n then
        let bn := off / bsize
        let m := min (n - tot) (bsize - off % bsize)
        bmapBlocks (fs.inode ip).d bn ++
          (fs.inode ip).d.refs fs.disk (fileSlot bn) :: readLoopBlocks fs ip n fuel
            (tot + m) (off + m)
      else []

def readBlocks (fs : Store) (ip : Ptr) (off n : Nat) : List Nat :=
  let size := (fs.inode ip).d.size
  if off > size ∨ (off + n) % 2 ^ 32 < off then []
  else
    let n := if (off + n) % 2 ^ 32 > size then size - off else n
    readLoopBlocks fs ip n n 0 off

/-- Every process does nothing but to read from the start of its file: it gets the blocks
that `readi` gets, and has given one back before it gets the next. -/
def Reading (fs : Store) (file : P → Ptr) (n : Nat) (s : Lru P) : Lru.Action P → Prop
  | .bget p dev b =>
      dev = rootDev ∧ b ∈ readBlocks fs (file p) 0 n ∧ ∀ i, (s.cache.buf i).lock ≠ some p
  | .bpin _ | .bunpin _ => False
  | .acquire _ | .brelse _ _ | .unref _ => True

instance {P : Type} [DecidableEq P] (fs : Store) (file : P → Ptr) (n : Nat) (s : Lru P) :
    DecidablePred (Reading fs file n s)
  | .bget _ _ _ => inferInstanceAs (Decidable (_ ∧ _))
  | .bpin _ | .bunpin _ => inferInstanceAs (Decidable False)
  | .acquire _ | .brelse _ _ | .unref _ => inferInstanceAs (Decidable True)

section Crowd

def crowdPtr (p : Fin Sched.nproc) : Ptr :=
  ⟨p % 31, Nat.lt_of_lt_of_le (Nat.mod_lt p (by decide)) (by decide)⟩

/-- Thirty processes have got the buffer of their file's block, and another one asks for one. -/
def crowd : List (Lru.Action (Fin Sched.nproc)) :=
  ((List.finRange Sched.nproc).take 30).flatMap (fun p => [.bget p 1 (6 + p), .acquire p]) ++
    [.bget ⟨30, by decide⟩ 1 36]

theorem crowd_dry : ((Lru.system (Fin Sched.nproc)).runActions (Reading crowdStore crowdPtr 1)
    (Lru.fresh _) crowd).map (fun r => match r with
      | .error (.panic .bgetNoBuffers) => true
      | _ => false) = some true := by
  decide +kernel

end Crowd

/-- Each of at most `NPROC` processes reads from a file of its own, and `bget` panics. -/
theorem bget_runs_dry : ∃ sb fs, ∃ file : Fin Sched.nproc → Ptr, WellFormed sb fs ∧
    (Lru.system (Fin Sched.nproc)).Reach (Reading fs file 1) (.error (.panic .bgetNoBuffers)) := by
  refine ⟨crowdSuperblock, crowdStore, crowdPtr, wellFormed_crowdStore, ?_⟩
  obtain ⟨r, hr, hdry⟩ := Option.map_eq_some_iff.mp crowd_dry
  have hreach := System.Reach.of_runActions (.init (Lru.fresh_start _)) hr
  split at hdry
  · exact hreach
  · cases hdry

end Xv6.Fs
