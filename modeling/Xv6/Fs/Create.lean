import Xv6.Fs.Walk

/-! `create` by what it does to the nodes: it finds a file, makes a new node with its
name, or leaves everything as it was. -/
namespace Xv6.Fs.Names

open Lib
open Script hiding bind

variable {P : Type} {sb : Superblock} {p : P} {w₀ w : World P} {R : Prop} {tx : Int}
  {N : Nat → Option Node}
  {H : List (Ptr × Nat)} {L : Finset Ptr} {E : Failure → Prop} {D : Prop} {ip dp : Ptr} {i d : Nat}

def bare (type major minor : Int16) : Node := ⟨type, major, minor, 1, []⟩

def newNode (type major minor : Int16) (i d : Nat) : Node :=
  if type = tDir then linked (linked (bare type major minor) dot i) dotdot d
  else bare type major minor

def newParent (dnode : Node) (type : Int16) (name : CString) (i : Nat) : Node :=
  let node := linked dnode name i
  if type = tDir then { node with nlink := node.nlink + 1 } else node

def created (N : Nat → Option Node) (dnode : Node) (type major minor : Int16) (name : CString)
    (i d : Nat) : Nat → Option Node :=
  Function.update (Function.update N i (some (newNode type major minor i d))) d
    (some (newParent dnode type name i))

theorem length_linked_mod {node : Node} (h : node.bytes.length % direntSize = 0) (name : CString)
    (inum : Nat) : (linked node name inum).bytes.length % direntSize = 0 := by
  have hfree := freeIndex_le (slots node.bytes)
  rw [length_slots] at hfree
  have hoff : direntSize * freeIndex (slots node.bytes) ≤ node.bytes.length := by
    unfold direntSize at *
    omega
  unfold linked
  dsimp only
  rw [length_splice hoff, length_direntBytes]
  unfold direntSize at *
  omega

theorem slots_linked {node : Node} (h : node.bytes.length % direntSize = 0) (name : CString)
    (inum : Nat) : slots (linked node name inum).bytes =
      put (slots node.bytes) (freeIndex (slots node.bytes)) (.read (direntBytes inum name)) := by
  refine slots_splice h (length_direntBytes inum name) ?_
  have hfree := freeIndex_le (slots node.bytes)
  rwa [length_slots] at hfree

theorem name_direntBytes (inum : Nat) (name : CString) :
    (Dirent.read (direntBytes inum name)).name.key = name.key := key_strncpy name

theorem slots_bare (type major minor : Int16) : slots (bare type major minor).bytes = [] := by
  simp [slots, bare]

theorem slots_dot (type major minor : Int16) (i : Nat) :
    slots (linked (bare type major minor) dot i).bytes = [.read (direntBytes i dot)] := by
  rw [slots_linked rfl, slots_bare]
  rfl

theorem binding_dotdot (type major minor : Int16) (i : Nat) :
    binding (slots (linked (bare type major minor) dot i).bytes) dotdot = none := by
  rw [binding_eq_none, slots_dot, index, List.findIdx?_singleton, if_neg]
  rw [decide_eq_true_iff]
  rintro ⟨-, hbinds⟩
  rw [namecmp_eq_zero, name_direntBytes] at hbinds
  exact absurd hbinds (by decide)

section Entries

variable [DecidableEq P] {dnode : Node} {type major minor : Int16} {name : CString}

theorem At.createEntries
    (h : At sb p w₀ R tx (Function.update N i (some (bare type major minor))) H L w)
    (hi : (ip, i) ∈ H) (hd : (dp, d) ∈ H) (hlocki : ip ∈ L) (hlockd : dp ∈ L) (hne : d ≠ i)
    (hdnode : N d = some dnode) (htype : dnode.type = tDir)
    (hwhole : dnode.bytes.length % direntSize = 0)
    (hname : binding (slots dnode.bytes) name = none) :
    Wp (act sb p) E (createEntries dp ip name type) (fun r w' =>
      (r = false ∧ ∃ node, At sb p w₀ R tx (Function.update N i (some node)) H L w') ∨
      r = true ∧ At sb p w₀ R tx (Function.update (Function.update N i
        (some (newNode type major minor i d))) d (some (linked dnode name i))) H L w') w := by
  have hself : ∀ node, Function.update N i (some node) i = some node :=
    fun node => Function.update_self i _ N
  have hparent : ∀ node, Function.update N i (some node) d = some dnode := fun node => by
    rw [Function.update_of_ne hne, hdnode]
  -- the name in the parent directory comes last
  have hlast : ∀ {node w'}, At sb p w₀ R tx (Function.update N i (some node)) H L w' →
      node = newNode type major minor i d →
      Wp (act sb p) E (do
        let r ← Names.dirlink dp name i
        pure (decide (0 ≤ r))) (fun r w' =>
          (r = false ∧ ∃ node, At sb p w₀ R tx (Function.update N i (some node)) H L w') ∨
          r = true ∧ At sb p w₀ R tx (Function.update (Function.update N i
            (some (newNode type major minor i d))) d (some (linked dnode name i))) H L w') w' := by
    rintro node w' h' rfl
    refine Wp.seq (h'.dirlink_absent hd hlockd (hparent _) name htype hwhole hname) ?_
    rintro r w'' (⟨rfl, h''⟩ | ⟨rfl, h''⟩)
    · exact Or.inr ⟨rfl, h''⟩
    · exact Or.inl ⟨rfl, _, h''⟩
  unfold Names.createEntries
  refine Wp.seq (h.load_inum hi) ?_
  rintro x w₁ ⟨h₁, rfl⟩
  refine Wp.seq (h₁.load_inum hd) ?_
  rintro y w₂ ⟨h₂, rfl⟩
  dsimp only
  split
  · rename_i hdir
    refine Wp.seq (h₂.dirlink_absent hi hlocki (hself _) dot hdir rfl
      (by rw [slots_bare]; rfl)) ?_
    rintro r w₃ (⟨rfl, h₃⟩ | ⟨rfl, h₃⟩)
    · rw [Function.update_idem] at h₃
      refine Wp.seq (h₃.dirlink_absent hi hlocki (hself _) dotdot hdir
        (length_linked_mod rfl _ _) (binding_dotdot _ _ _ _)) ?_
      rintro r w₄ (⟨rfl, h₄⟩ | ⟨rfl, h₄⟩)
      · rw [Function.update_idem] at h₄
        exact hlast h₄ (by rw [newNode, if_pos hdir])
      · exact Or.inl ⟨rfl, _, h₄⟩
    · exact Or.inl ⟨rfl, _, h₃⟩
  · rename_i hdir
    exact hlast h₂ (by rw [newNode, if_neg hdir])

end Entries

theorem erase_pair (hip : ip ∉ ({dp} : Finset Ptr)) :
    (insert ip ({dp} : Finset Ptr)).erase dp = {ip} := by
  rw [Finset.pair_comm]
  exact Finset.erase_insert fun hmem => hip (by
    rw [Finset.mem_singleton] at hmem ⊢
    exact hmem.symm)

/-- How `create` can return: with nothing, with a file that was there, or with a new node. -/
inductive Creates (sb : Superblock) (p : P) (w₀ : World P) (R : Prop) (tx : Int)
    (N : Nat → Option Node)
    (H : List (Ptr × Nat)) (type major minor : Int16) : Option Ptr → World P → Prop where
  | none {w : World P} : At sb p w₀ R tx N H ∅ w → Creates sb p w₀ R tx N H type major minor none w
  | found {w : World P} {ip : Ptr} {i : Nat} {node : Node} : type = tFile → N i = some node →
      node.type = tFile ∨ node.type = tDevice → At sb p w₀ R tx N ((ip, i) :: H) {ip} w →
      Creates sb p w₀ R tx N H type major minor (some ip) w
  | new {w : World P} {ip : Ptr} {i d : Nat} {dnode : Node} {name : CString} :
      N i = Option.none → 1 ≤ i ∧ i < sb.ninodes → N d = some dnode →
      dnode.type = tDir → binding (slots dnode.bytes) name = Option.none →
      At sb p w₀ R tx (settle w₀ ((ip, i) :: H) (created N dnode type major minor name i d) d)
        ((ip, i) :: H) {ip} w →
      Creates sb p w₀ R tx N H type major minor (some ip) w

section Create

variable [DecidableEq P] (hsound : Sound sb D w₀ N H)
  (hroom : HasRoom E w₀ (H.length + 1)) (haccept : D → E (.inode .ilockNoType))
  {dnode : Node} {type major minor : Int16} {name : CString}
include hsound

theorem At.createNew
    (h : At sb p w₀ R tx (Function.update N i (some (.fresh type)))
      ((ip, i) :: (dp, d) :: H) {dp} w)
    (hfree : N i = none) (hrange : 1 ≤ i ∧ i < sb.ninodes) (hlast : ¬InUse w₀ ((dp, d) :: H) i)
    (hip : ip ∉ ({dp} : Finset Ptr)) (hdnode : N d = some dnode) (htype : dnode.type = tDir)
    (hname : binding (slots dnode.bytes) name = none) :
    Wp (act sb p) E (createNew dp ip name type major minor)
      (Creates sb p w₀ R tx N H type major minor) w := by
  have hi : (ip, i) ∈ (ip, i) :: (dp, d) :: H := List.mem_cons_self
  have hd : (dp, d) ∈ (ip, i) :: (dp, d) :: H := List.mem_cons_of_mem _ List.mem_cons_self
  have hlocki : ip ∈ insert ip ({dp} : Finset Ptr) := Finset.mem_insert_self _ _
  have hlockd : dp ∈ insert ip ({dp} : Finset Ptr) :=
    Finset.mem_insert_of_mem (Finset.mem_singleton_self dp)
  have hne : d ≠ i := by
    rintro rfl
    rw [hdnode] at hfree
    cases hfree
  have herasei : (insert ip ({dp} : Finset Ptr)).erase ip = {dp} := Finset.erase_insert hip
  have herased := erase_pair hip
  refine Wp.seq (h.ilock hi hip) fun _ w₁ h₁ => ?_
  refine Wp.seq (h₁.update hi hlocki (Function.update_self i _ N)) fun _ w₂ h₂ => ?_
  rw [Function.update_idem] at h₂
  refine Wp.seq (h₂.createEntries hi hd hlocki hlockd hne hdnode htype
    (hsound.whole d dnode hdnode htype) hname) ?_
  rintro r w₃ (⟨rfl, node, h₃⟩ | ⟨rfl, h₃⟩)
  · -- the new inode goes again
    refine Wp.seq (h₃.load hi hlocki (Function.update_self i _ N)) fun x w₄ hw₄ => ?_
    refine Wp.seq (hw₄.1.update hi hlocki (Function.update_self i _ N)) fun _ w₅ h₅ => ?_
    rw [Function.update_idem] at h₅
    refine Wp.seq (h₅.iunlockput_free hlocki (Function.update_self i _ N) rfl hlast)
      fun _ w₆ h₆ => ?_
    rw [Function.update_idem, ← hfree, Function.update_eq_self, herasei] at h₆
    refine Wp.seq (h₆.iunlockput (Finset.mem_singleton_self dp)
      (hsound.keeps (List.Subset.refl _) (by rw [hdnode]; exact Option.some_ne_none _))) ?_
    intro _ w₇ h₇
    exact Creates.none (h₇.locks (Finset.erase_singleton dp))
  · have hleave : ∀ {w'}, At sb p w₀ R tx (created N dnode type major minor name i d)
        ((ip, i) :: (dp, d) :: H) (insert ip {dp}) w' → Wp (act sb p) E (do
          Names.iunlockput dp
          pure (some ip)) (Creates sb p w₀ R tx N H type major minor) w' := fun h' =>
      Wp.seq ((h'.perm (List.Perm.swap _ _ _)).iunlockput_settle hlockd) fun _ _ h'' =>
        Creates.new hfree hrange hdnode htype hname (h''.locks herased)
    rw [if_pos rfl]
    dsimp only
    split
    · rename_i hdir
      refine Wp.seq (h₃.load hd hlockd (Function.update_self d _ _)) ?_
      rintro y w₄ ⟨h₄, hy⟩
      refine Wp.seq (h₄.update hd hlockd (Function.update_self d _ _)) fun _ w₅ h₅ => ?_
      rw [Function.update_idem, hy.major, hy.minor, hy.nlink] at h₅
      refine hleave ?_
      rw [created, newParent, if_pos hdir]
      exact h₅
    · rename_i hdir
      refine hleave ?_
      rw [created, newParent, if_neg hdir]
      exact h₃

include hroom haccept

theorem At.create (h : At sb p w₀ R tx N H ∅ w) (hcwd : 0 < (w₀.fs.inode (w₀.cwd p)).ref)
    (htype : type ≠ 0) (path : CString) :
    Wp (act sb p) E (create path type major minor)
      (Creates sb p w₀ R tx N H type major minor) w := by
  refine Wp.seq (h.namex hsound hroom haccept hcwd path true) ?_
  rintro r w₁ (⟨rfl, h₁⟩ | ⟨dp, d, name, rfl, h₁, hdir⟩ | ⟨-, hparent, -⟩)
  · exact Creates.none h₁
  · obtain ⟨dnode, hdnode, hdtype⟩ := hdir rfl
    have hd : (dp, d) ∈ (dp, d) :: H := List.mem_cons_self
    have hlock : dp ∈ ({dp} : Finset Ptr) := Finset.mem_singleton_self dp
    have hkeep : ∀ {H'}, H ⊆ H' → Lasting w₀ N H' d := fun hsub =>
      hsound.keeps hsub (by rw [hdnode]; exact Option.some_ne_none _)
    refine Wp.seq (h₁.ilock hd (Finset.notMem_empty dp)) fun _ w₂ h₂ => ?_
    refine Wp.seq (At.dirlookup h₂ hd hlock hdnode name hsound hroom hdtype) ?_
    rintro r w₃ (⟨rfl, hname, h₃⟩ | ⟨ip, off, j, rfl, -, h₃ | ⟨hD, -, h₃⟩⟩)
    · refine Wp.seq (h₃.ialloc htype hroom) ?_
      rintro r w₄ (⟨rfl, h₄⟩ | ⟨ip, i, rfl, hfree, hrange, hip, h₄⟩)
      · refine Wp.seq (h₄.iunlockput hlock (hkeep (List.Subset.refl _))) fun _ w₅ h₅ => ?_
        exact Creates.none (h₅.locks (Finset.erase_singleton dp))
      · exact At.createNew hsound h₄ hfree hrange (h₃.not_inUse hfree) hip hdnode hdtype hname
    · refine Wp.seq ((h₃.perm (List.Perm.swap _ _ _)).iunlockput hlock
        (hkeep (List.subset_cons_self _ _))) fun _ w₄ h₄ => ?_
      have h₄ := h₄.locks (Finset.erase_singleton dp)
      have hi : (ip, j) ∈ (ip, j) :: H := List.mem_cons_self
      obtain ⟨node, hnode⟩ := Option.ne_none_iff_exists'.mp (h₄.node_ne hi)
      refine Wp.seq (h₄.ilock hi (Finset.notMem_empty ip)) fun _ w₅ h₅ => ?_
      have hlock' : ip ∈ insert ip (∅ : Finset Ptr) := Finset.mem_insert_self _ _
      refine Wp.seq (h₅.load hi hlock' hnode) ?_
      rintro x w₆ ⟨h₆, hx⟩
      rw [hx.type]
      split
      · rename_i hfile
        exact Creates.found hfile.1 hnode hfile.2 h₆
      · refine Wp.seq (h₆.iunlockput hlock' (hsound.keeps (List.Subset.refl _) (h₄.node_ne hi))) ?_
        intro _ w₇ h₇
        exact Creates.none (h₇.locks (Finset.erase_insert (Finset.notMem_empty ip)))
    · refine Wp.seq (h₃.iunlockput hlock (hkeep (List.Subset.refl _))) fun _ w₄ h₄ => ?_
      exact Wp.seq (Q := fun _ _ => False) (h₄.ilock (haccept hD)) fun _ _ hfalse => hfalse.elim
  · cases hparent

theorem At.makeNode (h : At sb p w₀ R tx N H ∅ w) (hcwd : 0 < (w₀.fs.inode (w₀.cwd p)).ref)
    (htype : type ≠ 0) (hfile : type ≠ tFile) (path : Option CString) :
    Wp (act sb p) E (makeNode path type major minor) (fun r w' =>
      r = -1 ∧ At sb p w₀ R tx N H ∅ w' ∨
      r = 0 ∧ ∃ i d dnode name, N i = none ∧ (1 ≤ i ∧ i < sb.ninodes) ∧ N d = some dnode ∧
        dnode.type = tDir ∧ binding (slots dnode.bytes) name = none ∧
        At sb p w₀ R tx (settle w₀ H (created N dnode type major minor name i d) d) H ∅ w') w := by
  refine Wp.seq h.beginOp fun _ w₁ h₁ => ?_
  cases path with
  | none => exact h₁.finish (-1) fun _ h' => Or.inl ⟨rfl, h'⟩
  | some path =>
    refine Wp.seq (At.create hsound hroom haccept h₁ hcwd htype path) fun r w₂ hw₂ => ?_
    cases hw₂ with
    | none h₂ => exact h₂.finish (-1) fun _ h' => Or.inl ⟨rfl, h'⟩
    | found hcontra => exact absurd hcontra hfile
    | @new _ ip i d dnode name hfree hrange hdnode hdtype hname h₂ =>
      have hne : i ≠ d := by
        rintro rfl
        rw [hdnode] at hfree
        cases hfree
      rw [settle_cons hne.symm] at h₂
      have hself : settle w₀ H (created N dnode type major minor name i d) d i =
          some (newNode type major minor i d) := by
        rw [settle_of_ne hne, created, Function.update_of_ne hne, Function.update_self]
      refine Wp.seq (h₂.iunlockput (Finset.mem_singleton_self ip)
        ⟨_, hself, Or.inl (by unfold newNode; split <;> exact (by decide : (1 : Int16) ≠ 0))⟩)
        fun _ w₃ h₃ => ?_
      exact (h₃.locks (Finset.erase_singleton ip)).finish 0 fun _ h₄ =>
        Or.inr ⟨rfl, i, d, dnode, name, hfree, hrange, hdnode, hdtype, hname, h₄⟩

end Create

end Xv6.Fs.Names
