import Xv6.Fs.Holding

/-! Directories and paths in the hands of a call: `dirlookup` and `dirlink` by what the
directory's node has, and the walk of `namex` through a tree whose directories are sound. -/
namespace Xv6.Fs.Names

open Lib
open Script hiding bind

variable {P : Type} {sb : Superblock} {p : P} {w₀ w : World P} {R : Prop} {tx : Int}
  {N : Nat → Option Node}
  {H H₀ : List (Ptr × Nat)} {L : Finset Ptr} {E : Failure → Prop} {D : Prop} {ip dp : Ptr}
  {i d : Nat}

/-- Directories consist of whole entries, entries name allocated inodes, and an inode without
links is there for somebody who has a reference. Where `D` holds an entry may also name an
inode that is gone: `..` of a removed directory does not keep its parent. -/
structure Sound (sb : Superblock) (D : Prop) (w₀ : World P) (N : Nat → Option Node)
    (H : List (Ptr × Nat)) : Prop where
  root : N rootIno ≠ none
  whole : ∀ i node, N i = some node → node.type = tDir → node.bytes.length % direntSize = 0
  entry : ∀ i node de, N i = some node → node.type = tDir → de ∈ slots node.bytes →
    de.inum ≠ 0 → N de.inum ≠ none ∨ D ∧ de.inum < sb.ninodes
  lasting : ∀ i node, N i = some node → node.nlink ≠ 0 ∨ InUse w₀ H i

theorem InUse.mono (h : InUse w₀ H₀ i) (hsub : H₀ ⊆ H) : InUse w₀ H i :=
  h.imp_right fun hmem => List.map_subset Prod.snd hsub hmem

theorem Sound.keeps (h : Sound sb D w₀ N H₀) (hsub : H₀ ⊆ H) (hi : N i ≠ none) :
    Lasting w₀ N H i := by
  obtain ⟨node, hnode⟩ := Option.ne_none_iff_exists'.mp hi
  exact ⟨node, hnode, (h.lasting i node hnode).imp_right fun huse => huse.mono hsub⟩

theorem HasRoom.mono {m n : Nat} (h : HasRoom E w₀ n) (hle : m ≤ n) : HasRoom E w₀ m :=
  h.imp_right fun hroom => Nat.lt_of_le_of_lt hle hroom

section Gone

/-! An entry of the table that stands for an inode that is gone can only be given back;
locking it is a panic. -/

/-- The entry is to be read from a free inode. -/
structure Doomed (sb : Superblock) (ip : Ptr) (w : World P) : Prop where
  ref : 0 < (w.fs.inode ip).ref
  unread : (w.fs.inode ip).valid = false
  unlocked : w.lock ip = none
  free : (diskInode sb w.fs.disk (w.fs.inode ip).inum).type = 0

def Dangling (sb : Superblock) (p : P) (w₀ : World P) (R : Prop) (tx : Int) (N : Nat → Option Node)
    (H : List (Ptr × Nat)) (L : Finset Ptr) (ip : Ptr) (w' : World P) : Prop :=
  ∃ w j fs', At sb p w₀ R tx N H L w ∧ TakesRef w.fs fs' ip j ∧ (w.fs.inode ip).ref = 0 ∧
    (1 ≤ j ∧ j < sb.ninodes) ∧ N j = none ∧ w' = { w with fs := fs' }

theorem Dangling.doomed (h : Dangling sb p w₀ R tx N H L ip w) : Doomed sb ip w := by
  obtain ⟨w, j, fs', hat, htakes, hzero, hrange, hgone, rfl⟩ := h
  refine ⟨?_, ?_, ?_, ?_⟩
  · have := htakes.ref
    dsimp only
    omega
  · rcases htakes.entry with ⟨hpos, -⟩ | ⟨-, hunread⟩
    · omega
    · exact hunread
  · refine (hat.lock ip).trans (if_neg fun hlock => ?_)
    have := hat.ref_pos_of_mem (hat.locked ip hlock).2
    omega
  · rw [← hat.nodes] at hgone
    have hnot : ¬Used sb w.fs j := fun hused => by
      rw [nodes_of_used hused] at hgone
      cases hgone
    have htype : (inodes sb w.fs j).type = 0 := by
      by_contra hne
      exact hnot ⟨hrange.1, hrange.2, hne⟩
    show (diskInode sb fs'.disk (fs'.inode ip).inum).type = 0
    rw [htakes.names, htakes.disk, ← hat.quiet.clean j hrange.2]
    exact htype

variable [DecidableEq P]

theorem Doomed.ilock {post : Unit → World P → Prop} (h : Doomed sb ip w)
    (haccept : E (.inode .ilockNoType)) : Wp (act sb p) E (ilock ip) post w := by
  have href := h.ref
  have hnot : ¬(w.fs.inode ip).ref < 1 := by omega
  refine wp_op_error (.ilock ip) ?_ haccept
  simp [act, hnot, h.unlocked, Fs.ilock, h.unread, h.free, Except.map, World.onStore]

theorem Dangling.iunlockput (h : Dangling sb p w₀ R tx N ((dp, d) :: H) L ip w) (hlock : dp ∈ L)
    (hkeep : Lasting w₀ N H d) :
    Wp (act sb p) E (iunlockput dp) (fun _ => Doomed sb ip) w := by
  have hdoomed := h.doomed
  obtain ⟨w, j, fs', hat, htakes, hzero, -, -, rfl⟩ := h
  have href : 0 < (w.fs.inode dp).ref := hat.ref_pos List.mem_cons_self
  have hne : dp ≠ ip := by
    rintro rfl
    omega
  have hsame : fs'.inode dp = w.fs.inode dp := htakes.other dp hne
  have hlinks := hat.nlink_of_lasting hkeep
  refine Wp.seq (Q := fun _ w' => w' = ({ w with fs := fs' } : World P).setLock dp none)
    (wp_op (.iunlock dp) () ?_ rfl) ?_
  · have hheld : ¬(w.lock dp ≠ some p ∨ (fs'.inode dp).ref < 1) := by
      rw [hat.lock dp, if_pos hlock, hsame]
      simp only [ne_eq, not_true_eq_false, false_or]
      omega
    simp only [act, hheld, if_false]
  · rintro - w' rfl
    have hnot : ¬((fs'.inode dp).ref = 1 ∧ (fs'.inode dp).valid ∧ (fs'.inode dp).d.nlink = 0) := by
      rw [hsame]
      exact fun hfree => hlinks hfree.1 hfree.2.1 hfree.2.2
    refine wp_op (.iput dp) () (s := { ({ w with fs := fs' } : World P).setLock dp none with
      fs := fs'.setInode dp { fs'.inode dp with ref := (fs'.inode dp).ref - 1 } }) ?_ ?_
    · have hnot' : ¬((fs'.inode dp).ref = 1 ∧ (fs'.inode dp).valid ∧
          (fs'.inode dp).d.nlink = 0 ∧ (none : Option P) ≠ none) := by
        rintro ⟨-, -, -, hcontra⟩
        exact hcontra rfl
      simp only [act, World.setLock, Function.update_self, hnot', if_false, Fs.iput, hnot, bind,
        Except.bind, pure, Except.pure]
      rfl
    · have hother : (fs'.setInode dp { fs'.inode dp with ref := (fs'.inode dp).ref - 1 }).inode ip =
          fs'.inode ip := by
        simp [Store.setInode, hne.symm]
      refine ⟨?_, ?_, ?_, ?_⟩
      · exact hother ▸ hdoomed.ref
      · exact hother ▸ hdoomed.unread
      · show Function.update w.lock dp none ip = none
        rw [Function.update_of_ne hne.symm]
        exact hdoomed.unlocked
      · exact hother ▸ hdoomed.free

theorem Dangling.iput (h : Dangling sb p w₀ R tx N H L ip w) :
    Wp (act sb p) E (iput ip) (fun _ => At sb p w₀ R tx N H L) w := by
  have hdoomed := h.doomed
  obtain ⟨w, j, fs', hat, htakes, -, -, -, rfl⟩ := h
  obtain ⟨-, last, heq, hrestores⟩ := @TakesRef.iput sb _ _ _ _ htakes
  have hnot : ¬((fs'.inode ip).ref = 1 ∧ (fs'.inode ip).valid ∧ (fs'.inode ip).d.nlink = 0 ∧
      w.lock ip ≠ none) := fun hfree => by
    have hunread := hfree.2.1
    rw [hdoomed.unread] at hunread
    cases hunread
  refine wp_op (.iput ip) () (s := { w with fs := last }) ?_
    (hat.stay (hrestores.quiet hat.quiet) (hrestores.nodes.trans hat.nodes) (hrestores.recount ip))
  simp only [act, hnot, if_false, heq]
  rfl

end Gone

def linked (node : Node) (name : CString) (inum : Nat) : Node :=
  let off := direntSize * freeIndex (slots node.bytes)
  { node with bytes := splice node.bytes off (direntBytes inum name) }

section Directory

variable [DecidableEq P] (h : At sb p w₀ R tx N H L w) {node : Node} (hmem : (dp, d) ∈ H)
  (hlock : dp ∈ L) (hnode : N d = some node) (htype : node.type = tDir) (name : CString)
include h hmem hlock hnode

theorem At.dirlookup (hsound : Sound sb D w₀ N H₀) (hroom : HasRoom E w₀ H.length)
    (htype : node.type = tDir) :
    Wp (act sb p) E (dirlookup dp name) (fun r w' =>
      r = none ∧ binding (slots node.bytes) name = none ∧ At sb p w₀ R tx N H L w' ∨
      ∃ ip off j, r = some (ip, off) ∧ binding (slots node.bytes) name = some (j, off) ∧
        (At sb p w₀ R tx N ((ip, j) :: H) L w' ∨
          D ∧ N j = none ∧ Dangling sb p w₀ R tx N H L ip w')) w := by
  have hread := h.reads hmem hlock hnode
  have hbytes := h.content_eq hmem hlock hnode
  have hwhole := hsound.whole d node hnode htype
  have hrun := @run_dirlookup P _ sb p w dp h.quiet.settled h.quiet.mapped (h.live hmem hlock)
    (by rw [hbytes]; exact hwhole) (hread.type.trans htype) name
  rw [hbytes] at hrun
  cases hbinding : binding (slots node.bytes) name with
  | none =>
    rw [hbinding] at hrun
    unfold Wp
    rw [hrun]
    exact Or.inl ⟨rfl, rfl, h⟩
  | some found =>
    obtain ⟨j, off⟩ := found
    rw [hbinding] at hrun
    refine Wp.congr hrun ?_
    obtain ⟨k, de, -, hde, hbinds, rfl, -⟩ := of_binding_eq_some hbinding
    by_cases hgone : N de.inum = none
    · -- an entry for an inode that is gone
      obtain ⟨hD, hlt⟩ := (hsound.entry d node de hnode htype (List.mem_of_getElem? hde)
        hbinds.1).resolve_left fun hne => hne hgone
      rcases iget_cases w.fs de.inum with ⟨hfull, hrefs⟩ | ⟨ip, fs', heq, htakes⟩
      · rcases hroom with haccept | hroom
        · exact Wp.seq (Q := fun _ _ => False)
            (wp_op_error (.iget de.inum) (by simp only [act, hfull]; rfl) haccept)
            fun _ _ hfalse => hfalse.elim
        · obtain ⟨ip, hip⟩ := h.exists_unused hroom
          exact absurd hip (hrefs ip).1
      · refine Wp.seq (Q := fun r w' => r = ip ∧ w' = { w with fs := fs' })
          (wp_op (.iget de.inum) ip (by simp only [act, heq]; rfl) ⟨rfl, rfl⟩) ?_
        rintro r _ ⟨hr, rfl⟩
        rw [hr]
        refine Or.inr ⟨ip, off, de.inum, rfl, rfl,
          Or.inr ⟨hD, hgone, w, de.inum, fs', h, htakes, ?_,
          ⟨Nat.pos_of_ne_zero hbinds.1, hlt⟩, hgone, rfl⟩⟩
        rcases htakes.entry with ⟨hpos, -⟩ | ⟨hzero, -⟩
        · -- an entry in use would stand for an allocated inode
          have hused := h.quiet.used hpos
          have hsame : (w.fs.inode ip).inum = de.inum := by
            rcases htakes.entry with ⟨-, heq⟩ | ⟨hzero, -⟩
            · rw [← htakes.names, heq]
            · omega
          rw [hsame] at hused
          rw [← h.nodes, nodes_of_used hused] at hgone
          cases hgone
        · exact hzero
    · refine Wp.seq (h.iget hgone hroom) fun ip w' h' => ?_
      exact Or.inr ⟨ip, off, de.inum, rfl, rfl, Or.inl h'⟩

theorem At.dirlink_absent {inum : Nat} (htype : node.type = tDir)
    (hwhole : node.bytes.length % direntSize = 0)
    (hname : binding (slots node.bytes) name = none) :
    Wp (act sb p) E (dirlink dp name inum) (fun r w' =>
      r = 0 ∧ At sb p w₀ R tx (Function.update N d (some (linked node name inum))) H L w' ∨
      r = -1 ∧ At sb p w₀ R tx N H L w') w := by
  have hread := h.reads hmem hlock hnode
  have hbytes := h.content_eq hmem hlock hnode
  have hrun := @run_dirlink P _ sb p w dp h.quiet.settled h.quiet.mapped (h.live hmem hlock)
    (by rw [hbytes]; exact hwhole) (hread.type.trans htype) name inum (by rw [hbytes]; exact hname)
  rw [hbytes] at hrun
  have hlen := length_direntBytes inum name
  have hfree := freeIndex_le (slots node.bytes)
  rw [length_slots] at hfree
  have hoff : direntSize * freeIndex (slots node.bytes) ≤ node.bytes.length := by
    unfold direntSize at *
    omega
  have hfit : direntSize * freeIndex (slots node.bytes) % bsize + direntSize ≤ bsize := by
    unfold direntSize bsize
    omega
  refine Wp.congr hrun (Wp.seq (h.writei hmem hlock hnode (by rw [hlen]; decide) hoff
    (by rw [hlen]; exact hfit)) fun r w' hw' => ?_)
  rw [hlen] at hw'
  rcases hw' with ⟨rfl, h'⟩ | ⟨hr, h', -⟩
  · rw [if_neg (by simp)]
    exact Or.inl ⟨rfl, h'⟩
  · rw [if_pos hr]
    exact Or.inr ⟨rfl, h'⟩

theorem At.isdirempty (hwhole : node.bytes.length % direntSize = 0) :
    Wp (act sb p) E (isdirempty dp) (fun r w' => At sb p w₀ R tx N H L w' ∧
      r = decide (∀ de ∈ (slots node.bytes).drop 2, de.inum = 0)) w := by
  have hbytes := h.content_eq hmem hlock hnode
  have hrun := @run_isdirempty P _ sb p w dp h.quiet.settled h.quiet.mapped (h.live hmem hlock)
    (by rw [hbytes]; exact hwhole)
  rw [hbytes] at hrun
  unfold Wp
  rw [hrun]
  exact ⟨h, rfl⟩

theorem At.dirlink {inum : Nat} (hsound : Sound sb D w₀ N H₀) (hsub : H₀ ⊆ H)
    (hroom : HasRoom E w₀ H.length) (htype : node.type = tDir) :
    Wp (act sb p) E (dirlink dp name inum) (fun r w' =>
      r = 0 ∧ binding (slots node.bytes) name = none ∧
        At sb p w₀ R tx (Function.update N d (some (linked node name inum))) H L w' ∨
      r = -1 ∧ At sb p w₀ R tx N H L w') w := by
  cases hbinding : binding (slots node.bytes) name with
  | none =>
    refine (h.dirlink_absent hmem hlock hnode name htype (hsound.whole d node hnode htype)
      hbinding).mono fun r w' hw' => ?_
    exact hw'.imp_left fun ⟨hr, h'⟩ => ⟨hr, rfl, h'⟩
  | some found =>
    refine Wp.seq (h.dirlookup hmem hlock hnode name hsound hroom htype) fun r w' hw' => ?_
    rcases hw' with ⟨-, hnone, -⟩ | ⟨ip, off, j, rfl, -, hcase⟩
    · rw [hnone] at hbinding
      cases hbinding
    · have hput : Wp (act sb p) E (Names.iput ip) (fun _ => At sb p w₀ R tx N H L) w' := by
        rcases hcase with h' | ⟨-, -, hdangling⟩
        · exact h'.iput (fun hip => (h.locked ip hip).2)
            (hsound.keeps hsub (h'.node_ne List.mem_cons_self))
        · exact hdangling.iput
      exact Wp.seq hput fun _ _ h'' => Or.inr ⟨rfl, h''⟩

end Directory

/-- Where a walk can end: nowhere, at an inode that the call then has a reference to, or at
one that is gone. -/
def Walked (sb : Superblock) (p : P) (D : Prop) (w₀ : World P) (R : Prop)
    (tx : Int) (N : Nat → Option Node)
    (H : List (Ptr × Nat)) (parent : Bool) (r : Option (Ptr × CString)) (w : World P) : Prop :=
  r = none ∧ At sb p w₀ R tx N H ∅ w ∨
  (∃ ip i name, r = some (ip, name) ∧ At sb p w₀ R tx N ((ip, i) :: H) ∅ w ∧
    (parent = true → ∃ node, N i = some node ∧ node.type = tDir)) ∨
  D ∧ parent = false ∧ ∃ ip name, r = some (ip, name) ∧ Doomed sb ip w

section Walk

variable [DecidableEq P] (hsound : Sound sb D w₀ N H)
  (hroom : HasRoom E w₀ (H.length + 1)) (haccept : D → E (.inode .ilockNoType))
include haccept

theorem Doomed.namexFrom (h : Doomed sb ip w) (hD : D) (parent : Bool) (es : List CString)
    (hlast : parent = true → es ≠ []) (name : CString) :
    Wp (act sb p) E (namexFrom parent es name ip) (Walked sb p D w₀ R tx N H parent) w := by
  cases es with
  | nil =>
    cases parent with
    | true => exact absurd rfl (hlast rfl)
    | false => exact Or.inr (Or.inr ⟨hD, rfl, ip, name, rfl, h⟩)
  | cons e rest => exact Wp.seq (Q := fun _ _ => False) (h.ilock (haccept hD)) fun _ _ h => h.elim

include hsound hroom

theorem At.namexFrom (parent : Bool) (es : List CString) : ∀ (name : CString) {ip : Ptr} {i : Nat}
    {w : World P}, At sb p w₀ R tx N ((ip, i) :: H) ∅ w →
    Wp (act sb p) E (namexFrom parent es name ip) (Walked sb p D w₀ R tx N H parent) w := by
  induction es with
  | nil =>
    intro name ip i w h
    have hkeep := hsound.keeps (List.Subset.refl _) (h.node_ne List.mem_cons_self)
    cases parent with
    | true =>
      refine Wp.seq (h.iput (fun hip => absurd hip (Finset.notMem_empty ip)) hkeep)
        fun _ w' h' => ?_
      exact Or.inl ⟨rfl, h'⟩
    | false => exact Or.inr (Or.inl ⟨ip, i, name, rfl, h, fun hp => Bool.noConfusion hp⟩)
  | cons e rest ih =>
    intro name ip i w h
    have hself : (ip, i) ∈ (ip, i) :: H := List.mem_cons_self
    obtain ⟨node, hnode⟩ := Option.ne_none_iff_exists'.mp (h.node_ne hself)
    have hkeep := hsound.keeps (List.Subset.refl _) (h.node_ne hself)
    have herase : (insert ip (∅ : Finset Ptr)).erase ip = ∅ :=
      Finset.erase_insert (Finset.notMem_empty ip)
    refine Wp.seq (h.ilock hself (Finset.notMem_empty ip)) fun _ w₁ h₁ => ?_
    have hlock : ip ∈ insert ip (∅ : Finset Ptr) := Finset.mem_insert_self _ _
    refine Wp.seq (h₁.load hself hlock hnode) fun x w₂ hw₂ => ?_
    obtain ⟨h₂, hx⟩ := hw₂
    have hleave : ∀ {w'}, At sb p w₀ R tx N ((ip, i) :: H) (insert ip ∅) w' →
        Wp (act sb p) E (do
          Names.iunlockput ip
          pure none) (Walked sb p D w₀ R tx N H parent) w' := fun h' =>
      Wp.seq (h'.iunlockput hlock hkeep) fun _ _ h'' => Or.inl ⟨rfl, h''.locks herase⟩
    rw [hx.type]
    split
    · exact hleave h₂
    · rename_i htype
      have htype := not_not.mp htype
      split
      · rename_i hstop
        refine Wp.seq (h₂.iunlock hlock) fun _ w₃ h₃ => ?_
        exact Or.inr (Or.inl ⟨ip, i, e, rfl, h₃.locks herase, fun _ => ⟨node, hnode, htype⟩⟩)
      · rename_i hgo
        refine Wp.seq (h₂.dirlookup hself hlock hnode e hsound hroom htype) fun r w₃ hw₃ => ?_
        rcases hw₃ with ⟨rfl, -, h₃⟩ | ⟨next, off, j, rfl, -, h₃ | ⟨hD, -, h₃⟩⟩
        · exact hleave h₃
        · refine Wp.seq ((h₃.perm (List.Perm.swap _ _ _)).iunlockput hlock
            (hsound.keeps (List.subset_cons_self _ _) (h.node_ne hself))) fun _ w₄ h₄ => ?_
          exact ih e (h₄.locks herase)
        · refine Wp.seq (h₃.iunlockput hlock hkeep) fun _ w₄ h₄ => ?_
          exact h₄.namexFrom haccept hD parent rest
            (fun hparent hnil => hgo ⟨hparent, hnil⟩) e

theorem At.namex (h : At sb p w₀ R tx N H ∅ w) (hcwd : 0 < (w₀.fs.inode (w₀.cwd p)).ref)
    (path : CString) (parent : Bool) :
    Wp (act sb p) E (namex path parent) (Walked sb p D w₀ R tx N H parent) w := by
  have hwalk := fun {ip i w'} (h' : At sb p w₀ R tx N ((ip, i) :: H) ∅ w') =>
    At.namexFrom hsound hroom haccept parent (elements (List.length path) path) [] h'
  unfold Names.namex
  dsimp only
  split
  · exact Wp.seq (h.iget hsound.root (hroom.mono (Nat.le_succ _))) fun ip w' h' => hwalk h'
  · refine Wp.seq (Q := fun ip w' => ip = w₀.cwd p ∧ w' = w)
      (wp_op .cwd (w.cwd p) rfl ⟨congrFun h.cwd p, rfl⟩) ?_
    rintro _ _ ⟨rfl, rfl⟩
    exact Wp.seq (h.idup (h.ref_pos_of_old hcwd)) fun _ w' h' => hwalk h'

theorem At.namei (h : At sb p w₀ R tx N H ∅ w) (hcwd : 0 < (w₀.fs.inode (w₀.cwd p)).ref)
    (path : CString) :
    Wp (act sb p) E (namei path) (fun r w' =>
      r = none ∧ At sb p w₀ R tx N H ∅ w' ∨
      (∃ ip i, r = some ip ∧ At sb p w₀ R tx N ((ip, i) :: H) ∅ w') ∨
      D ∧ ∃ ip, r = some ip ∧ Doomed sb ip w') w := by
  refine Wp.seq (At.namex hsound hroom haccept h hcwd path false) ?_
  rintro r w' (⟨rfl, h'⟩ | ⟨ip, i, name, rfl, h', -⟩ | ⟨hD, -, ip, name, rfl, h'⟩)
  · exact Or.inl ⟨rfl, h'⟩
  · exact Or.inr (Or.inl ⟨ip, i, rfl, h'⟩)
  · exact Or.inr (Or.inr ⟨hD, ip, rfl, h'⟩)

end Walk

end Xv6.Fs.Names
