import Xv6.Fs.Create

/-! `sys_link` and `sys_unlink` by what they do to the nodes. -/
namespace Xv6.Fs.Names

open Lib
open Script hiding bind

variable {P : Type} {sb : Superblock} {p : P} {w₀ w : World P} {R : Prop} {tx : Int}
  {N : Nat → Option Node}
  {H : List (Ptr × Nat)} {L : Finset Ptr} {E : Failure → Prop} {D : Prop} {ip dp : Ptr} {i d : Nat}
  {node dnode : Node} {name : CString}

theorem Sound.retouch (h : Sound sb D w₀ N H) (hnode : N i = some node) {node' : Node}
    (ip : Ptr) (htype : node'.type = node.type) (hbytes : node'.bytes = node.bytes) :
    Sound sb D w₀ (Function.update N i (some node')) ((ip, i) :: H) := by
  have hsome : ∀ j, N j ≠ none → Function.update N i (some node') j ≠ none := by
    intro j hj
    by_cases hji : j = i
    · rw [hji, Function.update_self]
      exact Option.some_ne_none _
    · rwa [Function.update_of_ne hji]
  have hback : ∀ j x, Function.update N i (some node') j = some x →
      ∃ y, N j = some y ∧ x.type = y.type ∧ x.bytes = y.bytes := by
    intro j x hx
    by_cases hji : j = i
    · rw [hji, Function.update_self] at hx
      cases hx
      exact ⟨node, hji ▸ hnode, htype, hbytes⟩
    · rw [Function.update_of_ne hji] at hx
      exact ⟨x, hx, rfl, rfl⟩
  refine ⟨hsome _ h.root, fun j x hx hdir => ?_, fun j x de hx hdir hde hne => ?_, fun j x hx => ?_⟩
  · obtain ⟨y, hy, hxt, hxb⟩ := hback j x hx
    rw [hxb]
    exact h.whole j y hy (hxt ▸ hdir)
  · obtain ⟨y, hy, hxt, hxb⟩ := hback j x hx
    rw [hxb] at hde
    exact (h.entry j y de hy (hxt ▸ hdir) hde hne).imp_left (hsome _)
  · by_cases hji : j = i
    · exact Or.inr (Or.inr (by simp [hji]))
    · rw [Function.update_of_ne hji] at hx
      exact (h.lasting j x hx).imp_right fun huse => huse.mono (List.subset_cons_self _ _)

/-- Another link does not take a count from -1 to 0. -/
def NoWrap (N : Nat → Option Node) : Prop := ∀ i node, N i = some node → node.nlink + 1 ≠ 0

section Link

variable [DecidableEq P] (hcwd : 0 < (w₀.fs.inode (w₀.cwd p)).ref)
  (haccept : D → E (.inode .ilockNoType))
include hcwd haccept

theorem At.linkName (h : At sb p w₀ R tx N ((ip, i) :: H) ∅ w)
    (hsound : Sound sb D w₀ N ((ip, i) :: H)) (hroom : HasRoom E w₀ (H.length + 2))
    (new : CString) :
    Wp (act sb p) E (linkName ip new) (fun r w' =>
      r = false ∧ At sb p w₀ R tx N ((ip, i) :: H) ∅ w' ∨
      r = true ∧ ∃ d dnode name, N d = some dnode ∧ dnode.type = tDir ∧
        binding (slots dnode.bytes) name = none ∧
        At sb p w₀ R tx (Function.update N d (some (linked dnode name i)))
          ((ip, i) :: H) ∅ w') w := by
  refine Wp.seq (h.namex hsound hroom haccept hcwd new true) ?_
  rintro r w₁ (⟨rfl, h₁⟩ | ⟨dp, d, name, rfl, h₁, hdir⟩ | ⟨-, hparent, -⟩)
  · exact Or.inl ⟨rfl, h₁⟩
  · obtain ⟨dnode, hdnode, htype⟩ := hdir rfl
    have hd : (dp, d) ∈ (dp, d) :: (ip, i) :: H := List.mem_cons_self
    have hlock : dp ∈ insert dp (∅ : Finset Ptr) := Finset.mem_insert_self _ _
    have herase : (insert dp (∅ : Finset Ptr)).erase dp = ∅ :=
      Finset.erase_insert (Finset.notMem_empty dp)
    refine Wp.seq (h₁.ilock hd (Finset.notMem_empty dp)) fun _ w₂ h₂ => ?_
    refine Wp.seq (h₂.load_inum (List.mem_cons_of_mem _ List.mem_cons_self)) ?_
    rintro x w₃ ⟨h₃, rfl⟩
    refine Wp.seq (h₃.dirlink hd hlock hdnode name hsound
      (List.subset_cons_self _ _) hroom htype) ?_
    rintro r w₄ (⟨rfl, hname, h₄⟩ | ⟨rfl, h₄⟩)
    · have hkeep : Lasting w₀ (Function.update N d (some (linked dnode name x.inum)))
          ((ip, x.inum) :: H) d := ⟨_, Function.update_self d _ N, hsound.lasting d dnode hdnode⟩
      refine Wp.seq (h₄.iunlockput hlock hkeep) fun _ w₅ h₅ => ?_
      exact Or.inr ⟨rfl, d, dnode, name, hdnode, htype, hname, h₅.locks herase⟩
    · refine Wp.seq (h₄.iunlockput hlock (hsound.keeps (List.Subset.refl _)
        (by rw [hdnode]; exact Option.some_ne_none _))) fun _ w₅ h₅ => ?_
      exact Or.inl ⟨rfl, h₅.locks herase⟩
  · cases hparent

theorem At.sysLink (h : At sb p w₀ R tx N H ∅ w) (hsound : Sound sb D w₀ N H)
    (hroom : HasRoom E w₀ (H.length + 2)) (hwrap : NoWrap N ∨ ∀ e, E e) (old new : Option CString) :
    Wp (act sb p) E (sysLink old new) (fun r w' =>
      r = -1 ∧ At sb p w₀ R tx N H ∅ w' ∨
      r = 0 ∧ (NoWrap N → ∃ i node d dnode name, N i = some node ∧ node.type ≠ tDir ∧
        N d = some dnode ∧ dnode.type = tDir ∧ binding (slots dnode.bytes) name = none ∧
        At sb p w₀ R tx (Function.update (Function.update N i
          (some { node with nlink := node.nlink + 1 })) d
            (some (linked dnode name i))) H ∅ w')) w := by
  cases old with
  | none => exact Or.inl ⟨rfl, h⟩
  | some old =>
  cases new with
  | none => exact Or.inl ⟨rfl, h⟩
  | some new =>
  refine Wp.seq h.beginOp fun _ w₁ h₁ => ?_
  refine Wp.seq (At.namei hsound (hroom.mono (by omega)) haccept h₁ hcwd old) ?_
  rintro r w₂ (⟨rfl, h₂⟩ | ⟨ip, i, rfl, h₂⟩ | ⟨hD, ip, rfl, h₂⟩)
  · exact h₂.finish (-1) fun _ h' => Or.inl ⟨rfl, h'⟩
  · have hi : (ip, i) ∈ (ip, i) :: H := List.mem_cons_self
    have hlock : ip ∈ insert ip (∅ : Finset Ptr) := Finset.mem_insert_self _ _
    have herase : (insert ip (∅ : Finset Ptr)).erase ip = ∅ :=
      Finset.erase_insert (Finset.notMem_empty ip)
    obtain ⟨node, hnode⟩ := Option.ne_none_iff_exists'.mp (h₂.node_ne hi)
    have hkeep : Lasting w₀ N H i := hsound.keeps (List.Subset.refl _) (h₂.node_ne hi)
    refine Wp.seq (h₂.ilock hi (Finset.notMem_empty ip)) fun _ w₃ h₃ => ?_
    refine Wp.seq (h₃.load hi hlock hnode) ?_
    rintro x w₄ ⟨h₄, hx⟩
    rw [hx.type]
    split
    · refine Wp.seq (h₄.iunlockput hlock hkeep) fun _ w₅ h₅ => ?_
      exact (h₅.locks herase).finish (-1) fun _ h' => Or.inl ⟨rfl, h'⟩
    · rename_i htype
      refine Wp.seq (h₄.update hi hlock hnode) fun _ w₅ h₅ => ?_
      rw [hx.major, hx.minor, hx.nlink] at h₅
      refine Wp.seq (h₅.iunlock hlock) fun _ w₆ h₆ => ?_
      have hsound' : Sound sb D w₀ (Function.update N i
          (some { node with nlink := node.nlink + 1 })) ((ip, i) :: H) :=
        hsound.retouch hnode ip rfl rfl
      refine Wp.seq (At.linkName hcwd haccept (h₆.locks herase) hsound' hroom new) ?_
      rintro r w₇ (⟨rfl, h₇⟩ | ⟨rfl, d, dnode, name, hdnode, hdtype, hname, h₇⟩)
      · -- the count goes back
        refine Wp.seq (h₇.ilock hi (Finset.notMem_empty ip)) fun _ w₈ h₈ => ?_
        refine Wp.seq (h₈.load hi hlock (Function.update_self i _ N)) ?_
        rintro y w₉ ⟨h₉, hy⟩
        refine Wp.seq (h₉.update hi hlock (Function.update_self i _ N)) fun _ wa ha => ?_
        have hundo : node.nlink + 1 - 1 = node.nlink := by simp
        rw [Function.update_idem, hy.major, hy.minor, hy.nlink] at ha
        dsimp only at ha
        rw [hundo, ← hnode, Function.update_eq_self] at ha
        refine Wp.seq (ha.iunlockput hlock hkeep) fun _ wb hb => ?_
        exact (hb.locks herase).finish (-1) fun _ h' => Or.inl ⟨rfl, h'⟩
      · have hne : d ≠ i := by
          rintro rfl
          rw [Function.update_self] at hdnode
          cases hdnode
          exact htype hdtype
        rw [Function.update_of_ne hne] at hdnode
        by_cases hsafe : NoWrap N
        · refine Wp.seq (h₇.iput (fun hip => absurd hip (Finset.notMem_empty ip))
            ⟨_, by rw [Function.update_of_ne hne.symm, Function.update_self],
              Or.inl (hsafe i node hnode)⟩) fun _ w₈ h₈ => ?_
          exact h₈.finish 0 fun _ h' => Or.inr ⟨rfl, fun _ =>
            ⟨i, node, d, dnode, name, hnode, htype, hdnode, hdtype, hname, h'⟩⟩
        · have hany := hwrap.resolve_left hsafe
          refine Wp.seq (Q := fun _ _ => True) (Wp.trivial hany fun _ _ => trivial) fun _ w₈ _ => ?_
          refine Wp.seq (Q := fun _ _ => True) (Wp.trivial hany fun _ _ => trivial) fun _ w₉ _ => ?_
          exact Or.inr ⟨rfl, fun hno => absurd hno hsafe⟩
  · exact Wp.seq (Q := fun _ _ => False) (h₂.ilock (haccept hD)) fun _ _ hfalse => hfalse.elim

end Link

def cleared (node : Node) (k : Nat) : Node :=
  { node with bytes := splice node.bytes (direntSize * k) (List.replicate direntSize 0) }

def unlinked (w₀ : World P) (H : List (Ptr × Nat)) (N : Nat → Option Node) (dnode jnode : Node)
    (k d j : Nat) : Nat → Option Node :=
  let parent := if jnode.type = tDir then
      { cleared dnode k with nlink := dnode.nlink - 1 } else cleared dnode k
  settle w₀ H (Function.update (settle w₀ H (Function.update N d (some parent)) d) j
    (some { jnode with nlink := jnode.nlink - 1 })) j

structure Unlinks (N : Nat → Option Node) (dnode jnode : Node) (name : CString) (k d j : Nat) :
    Prop where
  index : index name (slots dnode.bytes) = some k
  entry : ∃ de, (slots dnode.bytes)[k]? = some de ∧ de.Binds name ∧ de.inum = j
  name : name.key ≠ dot.key ∧ name.key ≠ dotdot.key
  ne : j ≠ d
  node : N j = some jnode
  links : ¬jnode.nlink < 1
  empty : jnode.type = tDir → ∀ e ∈ (slots jnode.bytes).drop 2, e.inum = 0

section Unlink

variable [DecidableEq P] (hsound : Sound sb D w₀ N H) (haccept : D → E (.inode .ilockNoType))
  (hroom : HasRoom E w₀ (H.length + 1))
include hsound

omit hsound in
theorem At.unlinkPut {jnode parent : Node} {j k : Nat}
    (h : At sb p w₀ R tx (Function.update N d (some parent)) ((ip, j) :: (dp, d) :: H)
      (insert ip {dp}) w)
    (hparent : parent = if jnode.type = tDir then
      { cleared dnode k with nlink := dnode.nlink - 1 } else cleared dnode k)
    (hjnode : N j = some jnode) (hne : j ≠ d) (hip : ip ∉ ({dp} : Finset Ptr)) :
    Wp (act sb p) E (unlinkPut dp ip) (fun r w' => r = true ∧
      At sb p w₀ R tx (unlinked w₀ H N dnode jnode k d j) H ∅ w') w := by
  have hi : (ip, j) ∈ (ip, j) :: H := List.mem_cons_self
  have hlock : ip ∈ ({ip} : Finset Ptr) := Finset.mem_singleton_self ip
  have hlockd : dp ∈ insert ip ({dp} : Finset Ptr) :=
    Finset.mem_insert_of_mem (Finset.mem_singleton_self dp)
  refine Wp.seq ((h.perm (List.Perm.swap _ _ _)).iunlockput_settle hlockd) fun _ w₁ h₁ => ?_
  have h₁ := h₁.locks (erase_pair hip)
  rw [settle_cons hne.symm] at h₁
  have hj : settle w₀ H (Function.update N d (some parent)) d j = some jnode := by
    rw [settle_of_ne hne, Function.update_of_ne hne, hjnode]
  refine Wp.seq (h₁.load hi hlock hj) ?_
  rintro x w₂ ⟨h₂, hx⟩
  refine Wp.seq (h₂.update hi hlock hj) fun _ w₃ h₃ => ?_
  rw [hx.major, hx.minor, hx.nlink] at h₃
  refine Wp.seq (h₃.iunlockput_settle hlock) fun _ w₄ h₄ => ⟨rfl, ?_⟩
  rw [Finset.erase_singleton, hparent] at h₄
  exact h₄

omit hsound in
theorem At.unlinkEntry {jnode : Node} {j k : Nat}
    (h : At sb p w₀ R tx N ((ip, j) :: (dp, d) :: H) (insert ip {dp}) w)
    (hdnode : N d = some dnode) (hk : k < (slots dnode.bytes).length) (hjnode : N j = some jnode)
    (hne : j ≠ d) (hip : ip ∉ ({dp} : Finset Ptr)) :
    Wp (act sb p) E (unlinkEntry dp ip jnode.type (direntSize * k)) (fun r w' => r = true ∧
      At sb p w₀ R tx (unlinked w₀ H N dnode jnode k d j) H ∅ w') w := by
  have hd : (dp, d) ∈ (ip, j) :: (dp, d) :: H := List.mem_cons_of_mem _ List.mem_cons_self
  have hlockd : dp ∈ insert ip ({dp} : Finset Ptr) :=
    Finset.mem_insert_of_mem (Finset.mem_singleton_self dp)
  rw [length_slots] at hk
  have hzero : (List.replicate direntSize (0 : UInt8)).length = direntSize :=
    List.length_replicate
  have hinside : direntSize * k + direntSize ≤ dnode.bytes.length := by
    unfold direntSize at *
    omega
  have hfit : direntSize * k % bsize + direntSize ≤ bsize := by
    unfold direntSize bsize
    omega
  have hsize := h.length_le hd hlockd hdnode
  refine Wp.seq (h.writei hd hlockd hdnode (by rw [hzero]; decide) (by omega)
    (by rw [hzero]; exact hfit)) ?_
  rw [hzero]
  rintro r w₁ (⟨rfl, h₁⟩ | ⟨-, -, hbad⟩)
  · rw [if_neg (by simp)]
    dsimp only
    split
    · rename_i hdir
      refine Wp.seq (h₁.load hd hlockd (Function.update_self d _ N)) ?_
      rintro y w₂ ⟨h₂, hy⟩
      refine Wp.seq (h₂.update hd hlockd (Function.update_self d _ N)) fun _ w₃ h₃ => ?_
      rw [Function.update_idem, hy.major, hy.minor, hy.nlink] at h₃
      exact h₃.unlinkPut (by rw [if_pos hdir]; rfl) hjnode hne hip
    · rename_i hdir
      exact h₁.unlinkPut (by rw [if_neg hdir]; rfl) hjnode hne hip
  · -- the entry lies inside the directory
    unfold direntSize at *
    omega

theorem At.unlinkFound {jnode : Node} {j k : Nat}
    (h : At sb p w₀ R tx N ((ip, j) :: (dp, d) :: H) {dp} w) (hdnode : N d = some dnode)
    (hk : k < (slots dnode.bytes).length) (hjnode : N j = some jnode) (hne : j ≠ d)
    (hip : ip ∉ ({dp} : Finset Ptr)) (hpanic : jnode.nlink < 1 → E .unlinkNlink) :
    Wp (act sb p) E (unlinkFound dp ip (direntSize * k)) (fun r w' =>
      r = false ∧ At sb p w₀ R tx N ((dp, d) :: H) {dp} w' ∨
      r = true ∧ ¬jnode.nlink < 1 ∧
        (jnode.type = tDir → ∀ e ∈ (slots jnode.bytes).drop 2, e.inum = 0) ∧
        At sb p w₀ R tx (unlinked w₀ H N dnode jnode k d j) H ∅ w') w := by
  have hi : (ip, j) ∈ (ip, j) :: (dp, d) :: H := List.mem_cons_self
  have hlocki : ip ∈ insert ip ({dp} : Finset Ptr) := Finset.mem_insert_self _ _
  refine Wp.seq (h.ilock hi hip) fun _ w₁ h₁ => ?_
  refine Wp.seq (h₁.load hi hlocki hjnode) ?_
  rintro x w₂ ⟨h₂, hx⟩
  rw [hx.type, hx.nlink]
  split
  · rename_i hlow
    exact Wp.fail (hpanic hlow)
  · rename_i hlinks
    dsimp only
    by_cases hdir : jnode.type = tDir
    · rw [if_pos hdir]
      refine Wp.seq (h₂.isdirempty hi hlocki hjnode (hsound.whole j jnode hjnode hdir)) ?_
      rintro r w₃ ⟨h₃, rfl⟩
      by_cases hempty : ∀ e ∈ (slots jnode.bytes).drop 2, e.inum = 0
      · rw [decide_eq_true hempty]
        exact (h₃.unlinkEntry hdnode hk hjnode hne hip).mono
          fun _ _ hw => Or.inr ⟨hw.1, hlinks, fun _ => hempty, hw.2⟩
      · rw [decide_eq_false hempty]
        refine Wp.seq (h₃.iunlockput hlocki (hsound.keeps (List.subset_cons_self _ _)
          (by rw [hjnode]; exact Option.some_ne_none _))) fun _ w₄ h₄ => ?_
        exact Or.inl ⟨rfl, h₄.locks (Finset.erase_insert hip)⟩
    · rw [if_neg hdir]
      exact (h₂.unlinkEntry hdnode hk hjnode hne hip).mono
        fun _ _ hw => Or.inr ⟨hw.1, hlinks, fun hcontra => absurd hcontra hdir, hw.2⟩

include haccept hroom

theorem At.unlinkName (h : At sb p w₀ R tx N ((dp, d) :: H) {dp} w) (hdnode : N d = some dnode)
    (htype : dnode.type = tDir)
    (hpanic : ∀ (k : Nat) (de : Dirent), (slots dnode.bytes)[k]? = some de → de.Binds name →
      name.key ≠ dot.key ∧ name.key ≠ dotdot.key → (de.inum = d → E .deadlock) ∧
        ∀ jnode, N de.inum = some jnode → jnode.nlink < 1 → E .unlinkNlink) :
    Wp (act sb p) E (unlinkName dp name) (fun r w' =>
      r = false ∧ At sb p w₀ R tx N ((dp, d) :: H) {dp} w' ∨
      r = true ∧ ∃ jnode k j, Unlinks N dnode jnode name k d j ∧
        At sb p w₀ R tx (unlinked w₀ H N dnode jnode k d j) H ∅ w') w := by
  have hd : (dp, d) ∈ (dp, d) :: H := List.mem_cons_self
  have hlockd : dp ∈ ({dp} : Finset Ptr) := Finset.mem_singleton_self dp
  unfold Names.unlinkName
  split
  · exact Or.inl ⟨rfl, h⟩
  · rename_i hdots
    have hdots : name.key ≠ dot.key ∧ name.key ≠ dotdot.key := by
      rw [namecmp_eq_zero, namecmp_eq_zero, not_or] at hdots
      exact hdots
    refine Wp.seq (h.dirlookup hd hlockd hdnode name hsound hroom htype) ?_
    rintro r w₁ (⟨rfl, -, h₁⟩ | ⟨ip, off, j, rfl, hbinding, hcase⟩)
    · exact Or.inl ⟨rfl, h₁⟩
    · obtain ⟨k, de, hindex, hde, hbinds, rfl, rfl⟩ := of_binding_eq_some hbinding
      obtain ⟨hdeadlock, hnlink⟩ := hpanic k de hde hbinds hdots
      have hlt := (List.getElem?_eq_some_iff.mp hde).1
      rcases hcase with h₁ | ⟨hD, -, h₁⟩
      · have hi : (ip, de.inum) ∈ (ip, de.inum) :: (dp, d) :: H := List.mem_cons_self
        by_cases hip : ip ∈ ({dp} : Finset Ptr)
        · -- an entry of the directory for itself
          have hself : de.inum = d := by
            have hptr := Finset.mem_singleton.mp hip
            have hheld := h₁.held _ hi
            have hheldd := h₁.held (dp, d) (List.mem_cons_of_mem _ List.mem_cons_self)
            rw [hptr] at hheld
            exact hheld.symm.trans hheldd
          exact Wp.seq (Q := fun _ _ => False) (h₁.ilock_held hip (hdeadlock hself))
            fun _ _ hfalse => hfalse.elim
        · have hne : de.inum ≠ d := by
            intro heq
            have hptr := h₁.ptr_eq hi
              (heq ▸ List.mem_cons_of_mem _ List.mem_cons_self : (dp, de.inum) ∈ _)
            exact hip (by rw [hptr]; exact hlockd)
          obtain ⟨jnode, hjnode⟩ := Option.ne_none_iff_exists'.mp (h₁.node_ne hi)
          refine (At.unlinkFound hsound h₁ hdnode hlt hjnode hne hip
            (hnlink jnode hjnode)).mono ?_
          rintro r w₂ (hfalse | ⟨hr, hlinks, hempty, h₂⟩)
          · exact Or.inl hfalse
          · exact Or.inr ⟨hr, jnode, k, de.inum,
              ⟨hindex, ⟨de, hde, hbinds, rfl⟩, hdots, hne, hjnode,
              hlinks, hempty⟩, h₂⟩
      · exact Wp.seq (Q := fun _ _ => False) (h₁.doomed.ilock (haccept hD))
          fun _ _ hfalse => hfalse.elim

theorem At.sysUnlink (h : At sb p w₀ R tx N H ∅ w) (hcwd : 0 < (w₀.fs.inode (w₀.cwd p)).ref)
    (hpanic : ∀ (d : Nat) (dnode : Node) (name : CString) (k : Nat) (de : Dirent),
      N d = some dnode → dnode.type = tDir → (slots dnode.bytes)[k]? = some de → de.Binds name →
      name.key ≠ dot.key ∧ name.key ≠ dotdot.key → (de.inum = d → E .deadlock) ∧
        ∀ jnode, N de.inum = some jnode → jnode.nlink < 1 → E .unlinkNlink)
    (path : Option CString) :
    Wp (act sb p) E (sysUnlink path) (fun r w' =>
      r = -1 ∧ At sb p w₀ R tx N H ∅ w' ∨
      r = 0 ∧ ∃ d dnode jnode name k j, N d = some dnode ∧ dnode.type = tDir ∧
        Unlinks N dnode jnode name k d j ∧
        At sb p w₀ R tx (unlinked w₀ H N dnode jnode k d j) H ∅ w') w := by
  cases path with
  | none => exact Or.inl ⟨rfl, h⟩
  | some path =>
    refine Wp.seq h.beginOp fun _ w₁ h₁ => ?_
    refine Wp.seq (h₁.namex hsound hroom haccept hcwd path true) ?_
    rintro r w₂ (⟨rfl, h₂⟩ | ⟨dp, d, name, rfl, h₂, hdir⟩ | ⟨-, hparent, -⟩)
    · exact h₂.finish (-1) fun _ h' => Or.inl ⟨rfl, h'⟩
    · obtain ⟨dnode, hdnode, htype⟩ := hdir rfl
      refine Wp.seq (h₂.ilock List.mem_cons_self (Finset.notMem_empty dp)) fun _ w₃ h₃ => ?_
      refine Wp.seq (At.unlinkName hsound haccept hroom h₃ hdnode htype fun k de =>
        hpanic d dnode name k de hdnode htype) ?_
      rintro r w₄ (⟨rfl, h₄⟩ | ⟨rfl, jnode, k, j, hunlinks, h₄⟩)
      · refine Wp.seq (h₄.iunlockput (Finset.mem_singleton_self dp)
          (hsound.keeps (List.Subset.refl _) (by rw [hdnode]; exact Option.some_ne_none _)))
          fun _ w₅ h₅ => ?_
        exact (h₅.locks (Finset.erase_singleton dp)).finish (-1) fun _ h' => Or.inl ⟨rfl, h'⟩
      · exact h₄.finish 0 fun _ h' =>
          Or.inr ⟨rfl, d, dnode, jnode, name, k, j, hdnode, htype, hunlinks, h'⟩
    · cases hparent

end Unlink

end Xv6.Fs.Names
