import Mathlib.Data.Fintype.Card
import Xv6.Fs.Lookup

/-! What a system call has in its hands. In the middle of a call the world differs
from the one it started in by the references and locks the call holds and by what it
did to the nodes; each call of the inode layer changes these in a known way. -/
namespace Xv6.Fs.Names

open Lib Script

variable {P : Type}

/-- The world of a call of `p` that started in `w₀`: the nodes are `N`, the call has the
references `H` to entries and their inodes, and the locks `L`. Under `R` the inodes without
links that others have in use are read in. -/
structure At (sb : Superblock) (p : P) (w₀ : World P) (R : Prop) (tx : Int)
    (N : Nat → Option Node) (H : List (Ptr × Nat)) (L : Finset Ptr) (w : World P) : Prop where
  quiet : Quiet sb w.fs
  nodes : Fs.nodes sb w.fs = N
  nonneg : ∀ ip, 0 ≤ (w₀.fs.inode ip).ref
  refs : ∀ ip, (w.fs.inode ip).ref = (w₀.fs.inode ip).ref + ((H.map Prod.fst).count ip : Nat)
  old : ∀ ip, 0 < (w₀.fs.inode ip).ref → (w.fs.inode ip).inum = (w₀.fs.inode ip).inum
  held : ∀ h ∈ H, (w.fs.inode h.1).inum = h.2
  ready : R → ∀ ip node, 0 < (w₀.fs.inode ip).ref → N (w.fs.inode ip).inum = some node →
    node.nlink = 0 → (w.fs.inode ip).valid = true
  locked : ∀ ip ∈ L, (w.fs.inode ip).valid = true ∧ ip ∈ H.map Prod.fst
  lock : ∀ ip, w.lock ip = if ip ∈ L then some p else none
  outstanding : w.outstanding = w₀.outstanding + tx
  cwd : w.cwd = w₀.cwd

structure Reads (x : Inode) (i : Nat) (node : Node) : Prop where
  inum : x.inum = i
  type : x.d.type = node.type
  major : x.d.major = node.major
  minor : x.d.minor = node.minor
  nlink : x.d.nlink = node.nlink

def InUse (w₀ : World P) (H : List (Ptr × Nat)) (i : Nat) : Prop :=
  (∃ ip, 0 < (w₀.fs.inode ip).ref ∧ (w₀.fs.inode ip).inum = i) ∨ i ∈ H.map Prod.snd

def Lasting (w₀ : World P) (N : Nat → Option Node) (H : List (Ptr × Nat)) (i : Nat) : Prop :=
  ∃ node, N i = some node ∧ (node.nlink ≠ 0 ∨ InUse w₀ H i)

instance (w₀ : World P) (H : List (Ptr × Nat)) (i : Nat) : Decidable (InUse w₀ H i) :=
  inferInstanceAs (Decidable (_ ∨ _))

/-- The nodes when a reference to inode `i` is gone: without links and references the inode
goes too. -/
def settle (w₀ : World P) (H : List (Ptr × Nat)) (N : Nat → Option Node) (i : Nat) :
    Nat → Option Node :=
  if (∃ node, N i = some node ∧ node.nlink = 0) ∧ ¬InUse w₀ H i then Function.update N i none
  else N

theorem settle_of_ne {w₀ : World P} {H : List (Ptr × Nat)} {N : Nat → Option Node} {i j : Nat}
    (hne : j ≠ i) : settle w₀ H N i j = N j := by
  unfold settle
  split
  · rw [Function.update_of_ne hne]
  · rfl

theorem settle_cons {w₀ : World P} {H : List (Ptr × Nat)} {N : Nat → Option Node} {ip : Ptr}
    {i j : Nat} (hne : j ≠ i) : settle w₀ ((ip, i) :: H) N j = settle w₀ H N j := by
  have huse : InUse w₀ ((ip, i) :: H) j ↔ InUse w₀ H j := by
    simp [InUse, hne]
  unfold settle
  simp only [huse]

def HasRoom (E : Failure → Prop) (w₀ : World P) (n : Nat) : Prop :=
  E (.inode .igetNoInodes) ∨
    n < (Finset.univ.filter fun ip => (w₀.fs.inode ip).ref = 0).card

variable {sb : Superblock} {p : P} {w₀ w : World P} {R : Prop} {tx : Int} {N N' : Nat → Option Node}
  {H H' : List (Ptr × Nat)} {L L' : Finset Ptr} {E : Failure → Prop} {ip : Ptr} {i : Nat}

section Calls

variable [DecidableEq P]

theorem wp_op (op : Op) (r : op.Result) {s : World P} {post : op.Result → World P → Prop}
    (hact : act sb p w op = .ok (r, s)) (hpost : post r s) :
    Wp (act sb p) E (Op.perform op) post w :=
  Wp.perform (I := Op.interface) hact hpost

theorem wp_op_error (op : Op) {e : Failure} {post : op.Result → World P → Prop}
    (hact : act sb p w op = .error e) (haccept : E e) :
    Wp (act sb p) E (Op.perform op) post w :=
  Wp.perform_error (I := Op.interface) hact haccept

end Calls

namespace At

section Facts

variable (h : At sb p w₀ R tx N H L w)
include h

theorem ref_pos_of_mem (hmem : ip ∈ H.map Prod.fst) : 0 < (w.fs.inode ip).ref := by
  have hcount := List.count_pos_iff.mpr hmem
  have := h.nonneg ip
  rw [h.refs ip]
  omega

theorem ref_pos (hmem : (ip, i) ∈ H) : 0 < (w.fs.inode ip).ref :=
  h.ref_pos_of_mem (List.mem_map_of_mem hmem)

theorem ref_pos_of_old (hold : 0 < (w₀.fs.inode ip).ref) : 0 < (w.fs.inode ip).ref := by
  rw [h.refs ip]
  omega

theorem live (hmem : (ip, i) ∈ H) (hlock : ip ∈ L) : Live w.fs ip :=
  ⟨h.ref_pos hmem, (h.locked ip hlock).1⟩

theorem node_ne (hmem : (ip, i) ∈ H) : N i ≠ none := by
  have hused := h.quiet.used (h.ref_pos hmem)
  rw [h.held _ hmem] at hused
  rw [← h.nodes, nodes_of_used hused]
  exact Option.some_ne_none _

theorem ptr_eq {jp : Ptr} (hmem : (ip, i) ∈ H) (hmem' : (jp, i) ∈ H) : ip = jp :=
  h.quiet.settled.table.unique ip jp (h.ref_pos hmem) (h.ref_pos hmem')
    ((h.held _ hmem).trans (h.held _ hmem').symm)

theorem node_eq {node : Node} (hmem : (ip, i) ∈ H) (hlock : ip ∈ L) (hnode : N i = some node) :
    node = ⟨(w.fs.inode ip).d.type, (w.fs.inode ip).d.major, (w.fs.inode ip).d.minor,
      (w.fs.inode ip).d.nlink, content sb w.fs ip⟩ := by
  have hview := h.quiet.node (h.live hmem hlock)
  rw [h.held _ hmem, h.nodes, hnode] at hview
  injection hview with hview
  rw [hview, content, h.held _ hmem]

theorem reads {node : Node} (hmem : (ip, i) ∈ H) (hlock : ip ∈ L) (hnode : N i = some node) :
    Reads (w.fs.inode ip) i node := by
  rw [h.node_eq hmem hlock hnode]
  exact ⟨h.held _ hmem, rfl, rfl, rfl, rfl⟩

theorem content_eq {node : Node} (hmem : (ip, i) ∈ H) (hlock : ip ∈ L) (hnode : N i = some node) :
    content sb w.fs ip = node.bytes := by
  rw [h.node_eq hmem hlock hnode]

theorem length_le {node : Node} (hmem : (ip, i) ∈ H) (hlock : ip ∈ L) (hnode : N i = some node) :
    node.bytes.length ≤ maxFile * bsize := by
  rw [← h.content_eq hmem hlock hnode]
  exact length_content_le h.quiet.settled h.quiet.mapped (h.live hmem hlock)

theorem not_inUse (hfree : N i = none) : ¬InUse w₀ H i := by
  rintro (⟨ip, hpos, hinum⟩ | hmem)
  · have hused := h.quiet.used (h.ref_pos_of_old hpos)
    rw [h.old ip hpos, hinum] at hused
    rw [← h.nodes, nodes_of_used hused] at hfree
    cases hfree
  · obtain ⟨⟨ip, j⟩, hheld, rfl⟩ := List.mem_map.mp hmem
    exact h.node_ne hheld hfree

theorem move {fs' : Store} {k : Int} (hquiet : Quiet sb fs') (hnodes : Fs.nodes sb fs' = N')
    (hcount : Recount w.fs fs' ip k)
    (hH : ∀ jp, ((H'.map Prod.fst).count jp : Int) =
      (H.map Prod.fst).count jp + if jp = ip then k else 0)
    (hheld : ∀ x ∈ H', x ∈ H ∨ x.1 = ip ∧ (fs'.inode ip).inum = x.2)
    (hL : ∀ jp ∈ L, jp ∈ H'.map Prod.fst)
    (hlinks : ∀ jp node, 0 < (w₀.fs.inode jp).ref → N' (w.fs.inode jp).inum = some node →
      node.nlink = 0 → jp ∈ L ∨ N (w.fs.inode jp).inum = some node) :
    At sb p w₀ R tx N' H' L { w with fs := fs' } := by
  have hrefs : ∀ jp, (fs'.inode jp).ref =
      (w₀.fs.inode jp).ref + ((H'.map Prod.fst).count jp : Nat) := by
    intro jp
    have hjp := hH jp
    rw [hcount.ref jp, h.refs jp]
    split at hjp <;> rename_i hip
    · rw [if_pos hip]
      omega
    · rw [if_neg hip]
      omega
  have hpos : ∀ jp, jp ∈ H'.map Prod.fst → 0 < (fs'.inode jp).ref := by
    intro jp hjp
    have hcnt := List.count_pos_iff.mpr hjp
    have := h.nonneg jp
    rw [hrefs jp]
    omega
  have hbase : ∀ jp, 0 < (w₀.fs.inode jp).ref → 0 < (fs'.inode jp).ref := by
    intro jp hjp
    rw [hrefs jp]
    omega
  have hsame : ∀ jp, 0 < (w₀.fs.inode jp).ref → (fs'.inode jp).inum = (w.fs.inode jp).inum :=
    fun jp hjp => hcount.inum jp (h.ref_pos_of_old hjp) (hbase jp hjp)
  refine ⟨hquiet, hnodes, h.nonneg, hrefs, fun jp hjp => (hsame jp hjp).trans (h.old jp hjp),
    fun x hx => ?_, fun hR jp node hjp hnode hzero => ?_, fun jp hjp => ?_, h.lock, h.outstanding,
    h.cwd⟩
  · rcases hheld x hx with hold | ⟨heq, hinum⟩
    · exact (hcount.inum x.1 (h.ref_pos hold) (hpos x.1 (List.mem_map_of_mem hx))).trans
        (h.held x hold)
    · rw [heq]
      exact hinum
  · refine hcount.valid jp (h.ref_pos_of_old hjp) (hbase jp hjp) ?_
    dsimp only at hnode
    rw [hsame jp hjp] at hnode
    rcases hlinks jp node hjp hnode hzero with hlock | hnode
    · exact (h.locked jp hlock).1
    · exact h.ready hR jp node hjp hnode hzero
  · obtain ⟨hvalid, hmem⟩ := h.locked jp hjp
    exact ⟨hcount.valid jp (h.ref_pos_of_mem hmem) (hpos jp (hL jp hjp)) hvalid, hL jp hjp⟩

theorem stay {fs' : Store} (hquiet : Quiet sb fs') (hnodes : Fs.nodes sb fs' = N)
    (hcount : Recount w.fs fs' ip 0) : At sb p w₀ R tx N H L { w with fs := fs' } :=
  h.move hquiet hnodes hcount (fun jp => by split <;> omega) (fun _ hx => Or.inl hx)
    (fun jp hjp => (h.locked jp hjp).2) fun _ _ _ hnode _ => Or.inr hnode

theorem alter {fs' : Store} {node : Node} (hmem : (ip, i) ∈ H) (hlock : ip ∈ L)
    (hquiet : Quiet sb fs') (hnodes : Fs.nodes sb fs' = Function.update N i (some node))
    (hcount : Recount w.fs fs' ip 0) :
    At sb p w₀ R tx (Function.update N i (some node)) H L { w with fs := fs' } := by
  refine h.move hquiet hnodes hcount (fun jp => by split <;> omega) (fun _ hx => Or.inl hx)
    (fun jp hjp => (h.locked jp hjp).2) fun jp node' hjp hnode' _ => ?_
  by_cases hinum : (w.fs.inode jp).inum = i
  · left
    have heq := h.quiet.settled.table.unique jp ip (h.ref_pos_of_old hjp) (h.ref_pos hmem)
      (hinum.trans (h.held _ hmem).symm)
    rw [heq]
    exact hlock
  · rw [Function.update_of_ne hinum] at hnode'
    exact Or.inr hnode'

theorem take {fs' : Store} (hquiet : Quiet sb fs') (hnodes : Fs.nodes sb fs' = N')
    (hcount : Recount w.fs fs' ip 1) (hinum : (fs'.inode ip).inum = i)
    (hsame : ∀ j, InUse w₀ H j → N' j = N j) :
    At sb p w₀ R tx N' ((ip, i) :: H) L { w with fs := fs' } := by
  refine h.move hquiet hnodes hcount (fun jp => ?_) (fun x hx => ?_) (fun jp hjp =>
    List.mem_cons_of_mem _ (h.locked jp hjp).2) fun jp node hjp hnode _ => Or.inr ?_
  · rw [List.map_cons, List.count_cons]
    by_cases hjp : jp = ip
    · simp [hjp]
    · simp [hjp, Ne.symm hjp]
  · rcases List.mem_cons.mp hx with rfl | hx
    · exact Or.inr ⟨rfl, hinum⟩
    · exact Or.inl hx
  · rw [← hsame _ (Or.inl ⟨jp, hjp, (h.old jp hjp).symm⟩)]
    exact hnode

theorem locks (heq : L = L') : At sb p w₀ R tx N H L' w := heq ▸ h

theorem perm (hp : H.Perm H') : At sb p w₀ R tx N H' L w where
  quiet := h.quiet
  nodes := h.nodes
  nonneg := h.nonneg
  refs ip := by rw [h.refs ip, (hp.map Prod.fst).count_eq ip]
  old := h.old
  held x hx := h.held x (hp.mem_iff.mpr hx)
  ready := h.ready
  locked ip hip := ⟨(h.locked ip hip).1, ((hp.map Prod.fst).mem_iff).mp (h.locked ip hip).2⟩
  lock := h.lock
  outstanding := h.outstanding
  cwd := h.cwd

theorem exists_unused (hroom : H.length <
    (Finset.univ.filter fun ip => (w₀.fs.inode ip).ref = 0).card) :
    ∃ ip, (w.fs.inode ip).ref = 0 := by
  by_contra hnone
  have hsub : (Finset.univ.filter fun ip => (w₀.fs.inode ip).ref = 0) ⊆
      (H.map Prod.fst).toFinset := by
    intro ip hip
    rw [List.mem_toFinset]
    by_contra hmem
    have href := h.refs ip
    rw [(Finset.mem_filter.mp hip).2, List.count_eq_zero.mpr hmem] at href
    exact hnone ⟨ip, href⟩
  have hcard := Finset.card_le_card hsub
  have hlen := List.toFinset_card_le (H.map Prod.fst)
  rw [List.length_map] at hlen
  omega

end Facts

section Rules

variable [DecidableEq P] (h : At sb p w₀ R tx N H L w)
include h

theorem beginOp : Wp (act sb p) E beginOp (fun _ => At sb p w₀ R (tx + 1) N H L) w :=
  wp_op .beginOp () rfl
    ⟨h.quiet, h.nodes, h.nonneg, h.refs, h.old, h.held, h.ready, h.locked, h.lock,
      by rw [← Int.add_assoc, ← h.outstanding], h.cwd⟩

theorem endOp : Wp (act sb p) E endOp (fun _ => At sb p w₀ R (tx - 1) N H L) w :=
  wp_op .endOp () rfl
    ⟨h.quiet, h.nodes, h.nonneg, h.refs, h.old, h.held, h.ready, h.locked, h.lock,
      by rw [← Int.add_sub_assoc, ← h.outstanding], h.cwd⟩

theorem iget (hi : N i ≠ none) (hroom : HasRoom E w₀ H.length) :
    Wp (act sb p) E (iget i) (fun ip => At sb p w₀ R tx N ((ip, i) :: H) L) w := by
  rw [← h.nodes] at hi
  rcases h.quiet.iget hi with ⟨hfull, hrefs⟩ | ⟨ip, fs', heq, hquiet, hnodes, hcount, hinum⟩
  · rcases hroom with haccept | hroom
    · exact wp_op_error (.iget i) (by simp only [act, hfull]; rfl) haccept
    · obtain ⟨ip, hip⟩ := h.exists_unused hroom
      exact absurd hip (hrefs ip)
  · exact wp_op (.iget i) ip (by simp only [act, heq]; rfl)
      (h.take hquiet (hnodes.trans h.nodes) hcount hinum fun _ _ => rfl)

theorem idup (href : 0 < (w.fs.inode ip).ref) :
    Wp (act sb p) E (idup ip)
      (fun _ => At sb p w₀ R tx N ((ip, (w.fs.inode ip).inum) :: H) L) w := by
  obtain ⟨hquiet, hnodes, hcount⟩ := h.quiet.idup href
  refine wp_op (.idup ip) () rfl
    (h.take hquiet (hnodes.trans h.nodes) hcount (hcount.inum ip href ?_) fun _ _ => rfl)
  rw [hcount.ref ip, if_pos rfl]
  omega

theorem ilock_held (hlock : ip ∈ L) (haccept : E .deadlock) {post : Unit → World P → Prop} :
    Wp (act sb p) E (ilock ip) post w := by
  have href := h.ref_pos_of_mem (h.locked ip hlock).2
  have hnot : ¬(w.fs.inode ip).ref < 1 := by omega
  refine wp_op_error (.ilock ip) (e := .deadlock) ?_ haccept
  simp [act, hnot, h.lock ip, hlock]

theorem ilock (hmem : (ip, i) ∈ H) (hlock : ip ∉ L) :
    Wp (act sb p) E (Names.ilock ip) (fun _ => At sb p w₀ R tx N H (insert ip L)) w := by
  have href := h.ref_pos hmem
  have hnot : ¬(w.fs.inode ip).ref < 1 := by omega
  obtain ⟨fs', heq, hquiet, hnodes, hcount, hvalid⟩ := h.quiet.ilock href
  have hnone : w.lock ip = none := by rw [h.lock ip, if_neg hlock]
  have hmoved := h.stay hquiet (hnodes.trans h.nodes) hcount
  refine wp_op (.ilock ip) () (s := { w.setLock ip (some p) with fs := fs' }) ?_ ?_
  · simp only [act, hnot, if_false, hnone, ne_eq, not_true_eq_false, heq]
    rfl
  · refine ⟨hquiet, hmoved.nodes, h.nonneg, hmoved.refs, hmoved.old, hmoved.held, hmoved.ready,
      fun jp hjp => ?_, fun jp => ?_, h.outstanding, h.cwd⟩
    · rcases Finset.mem_insert.mp hjp with rfl | hjp
      · exact ⟨hvalid, List.mem_map_of_mem hmem⟩
      · exact hmoved.locked jp hjp
    · have hold := h.lock jp
      by_cases heq : jp = ip
      · simp [World.setLock, heq]
      · simpa [World.setLock, heq] using hold

theorem iunlock_store (hlock : ip ∈ L) :
    Wp (act sb p) E (Names.iunlock ip)
      (fun _ w' => At sb p w₀ R tx N H (L.erase ip) w' ∧ w'.fs = w.fs) w := by
  obtain ⟨-, hmem⟩ := h.locked ip hlock
  have href := h.ref_pos_of_mem hmem
  have hheld : ¬(w.lock ip ≠ some p ∨ (w.fs.inode ip).ref < 1) := by
    rw [h.lock ip, if_pos hlock]
    simp only [ne_eq, not_true_eq_false, false_or]
    omega
  refine wp_op (.iunlock ip) () (s := w.setLock ip none) (by simp only [act, hheld, if_false])
    ⟨⟨h.quiet, h.nodes, h.nonneg, h.refs, h.old, h.held, h.ready,
      fun jp hjp => h.locked jp (Finset.mem_of_mem_erase hjp), fun jp => ?_, h.outstanding,
      h.cwd⟩, rfl⟩
  have hold := h.lock jp
  by_cases heq : jp = ip
  · simp [World.setLock, heq]
  · simpa [World.setLock, heq] using hold

theorem iunlock (hlock : ip ∈ L) :
    Wp (act sb p) E (iunlock ip) (fun _ => At sb p w₀ R tx N H (L.erase ip)) w :=
  (h.iunlock_store hlock).mono fun _ _ h' => h'.1

theorem ialloc {type : Int16} (htype : type ≠ 0) (hroom : HasRoom E w₀ H.length) :
    Wp (act sb p) E (ialloc type) (fun r w' => r = none ∧ At sb p w₀ R tx N H L w' ∨
      ∃ ip i, r = some ip ∧ N i = none ∧ (1 ≤ i ∧ i < sb.ninodes) ∧ ip ∉ L ∧
        At sb p w₀ R tx (Function.update N i (some (.fresh type))) ((ip, i) :: H) L w') w := by
  rcases h.quiet.ialloc htype with ⟨hfull, hrefs⟩ | hnone |
    ⟨ip, i, fs', heq, hrange, hfree, hquiet, hnodes, hcount, hinum⟩
  · rcases hroom with haccept | hroom
    · exact wp_op_error (.ialloc type) (by simp only [act, hfull]; rfl) haccept
    · obtain ⟨ip, hip⟩ := h.exists_unused hroom
      exact absurd hip (hrefs ip)
  · exact wp_op (.ialloc type) none (by simp only [act, hnone]; rfl) (Or.inl ⟨rfl, h⟩)
  · rw [h.nodes] at hfree hnodes
    refine wp_op (.ialloc type) (some ip) (by simp only [act, heq]; rfl)
      (Or.inr ⟨ip, i, rfl, hfree, hrange, fun hlock => ?_,
        h.take hquiet hnodes hcount hinum fun j huse => ?_⟩)
    · -- an entry in use keeps its inode, and this inode was not in use
      obtain ⟨⟨jp, j⟩, hmem, rfl⟩ := List.mem_map.mp (h.locked ip hlock).2
      have hpos := h.ref_pos hmem
      have hsame := hcount.inum jp hpos (by rw [hcount.ref jp, if_pos rfl]; omega)
      rw [hinum, h.held _ hmem] at hsame
      exact h.node_ne hmem ((congrArg N hsame).symm.trans hfree)
    · refine Function.update_of_ne (fun hj => ?_) _ _
      rw [hj] at huse
      exact h.not_inUse hfree huse

theorem load_inum (hmem : (ip, i) ∈ H) : Wp (act sb p) E (Names.load ip)
    (fun x w' => At sb p w₀ R tx N H L w' ∧ x.inum = i) w :=
  wp_op (.load ip) (w.fs.inode ip) rfl ⟨h, h.held _ hmem⟩

end Rules

section Locked

variable [DecidableEq P] (h : At sb p w₀ R tx N H L w) {node : Node} (hmem : (ip, i) ∈ H)
  (hlock : ip ∈ L) (hnode : N i = some node)
include h hmem hlock hnode

theorem load : Wp (act sb p) E (load ip)
    (fun x w' => At sb p w₀ R tx N H L w' ∧ Reads x i node) w :=
  wp_op (.load ip) (w.fs.inode ip) rfl ⟨h, h.reads hmem hlock hnode⟩

theorem update {major minor nlink : Int16} :
    Wp (act sb p) E (update ip major minor nlink) (fun _ => At sb p w₀ R tx
      (Function.update N i (some { node with major := major, minor := minor, nlink := nlink }))
      H L) w := by
  obtain ⟨hinum, htype, -, -, -⟩ := h.reads hmem hlock hnode
  obtain ⟨hquiet, hnodes, hcount⟩ :=
    @Quiet.update sb w.fs ip h.quiet (h.live hmem hlock) major minor nlink
  refine wp_op (.update ip major minor nlink) () rfl (h.alter hmem hlock hquiet ?_ hcount)
  have hbytes := h.content_eq hmem hlock hnode
  rw [content, hinum] at hbytes
  rw [hnodes, hinum, htype, hbytes, h.nodes]

theorem writei {bytes : List UInt8} {off : Nat} (hpos : 0 < bytes.length)
    (hoff : off ≤ node.bytes.length) (hfit : off % bsize + bytes.length ≤ bsize) :
    Wp (act sb p) E (writei ip bytes off) (fun r w' =>
      r = bytes.length ∧ At sb p w₀ R tx
        (Function.update N i (some { node with bytes := splice node.bytes off bytes })) H L w' ∨
      r ≠ bytes.length ∧ At sb p w₀ R tx N H L w' ∧
        (maxFile * bsize < off + bytes.length ∨
          node.bytes.length ≤ off ∧ Full sb w'.fs.disk)) w := by
  obtain ⟨hinum, htype, hmajor, hminor, hnlink⟩ := h.reads hmem hlock hnode
  have hbytes := h.content_eq hmem hlock hnode
  rw [content, hinum] at hbytes
  obtain ⟨r, fs', heq, hquiet, hcount, hcase⟩ := h.quiet.writei (h.live hmem hlock) hpos
    (by rw [hinum, hbytes]; exact hoff) hfit
  rw [h.nodes, hinum, htype, hmajor, hminor, hnlink, hbytes] at hcase
  refine wp_op (.writei ip bytes off) r (by simp only [act, heq]; rfl) ?_
  rcases hcase with ⟨hr, hnodes⟩ | ⟨hr, hnodes, hfull⟩
  · exact Or.inl ⟨hr, h.alter hmem hlock hquiet hnodes hcount⟩
  · exact Or.inr ⟨hr, h.stay hquiet hnodes hcount, hfull⟩

end Locked

theorem one_lt_ref (h : At sb p w₀ R tx N ((ip, i) :: H) L w) (huse : InUse w₀ H i) :
    1 < (w.fs.inode ip).ref := by
  have hself : (w.fs.inode ip).inum = i := h.held _ List.mem_cons_self
  have hpos := h.ref_pos_of_mem (by rw [List.map_cons]; exact List.mem_cons_self)
  have hcount : (((ip, i) :: H).map Prod.fst).count ip = (H.map Prod.fst).count ip + 1 := by
    rw [List.map_cons, List.count_cons_self]
  have href := h.refs ip
  have hnonneg := h.nonneg ip
  rcases huse with ⟨jp, hjp, hinum⟩ | hmem
  · have heq := h.quiet.settled.table.unique jp ip (h.ref_pos_of_old hjp) hpos
      ((h.old jp hjp).trans (hinum.trans hself.symm))
    rw [heq] at hjp
    omega
  · obtain ⟨⟨jp, j⟩, hjp, rfl⟩ := List.mem_map.mp hmem
    have heq := h.ptr_eq (List.mem_cons_of_mem _ hjp) List.mem_cons_self
    have hpos' : 0 < (H.map Prod.fst).count jp :=
      List.count_pos_iff.mpr (List.mem_map_of_mem hjp)
    rw [heq] at hpos'
    omega

theorem finish [DecidableEq P] (h : At sb p w₀ R (tx + 1) N H L w) (r : Int)
    {post : Int → World P → Prop} (hpost : ∀ w', At sb p w₀ R tx N H L w' → post r w') :
    Wp (act sb p) E (do
      Names.endOp
      pure r) post w := by
  refine Wp.seq h.endOp fun _ w' h' => hpost w' ?_
  rwa [Int.add_sub_cancel] at h'

section Put

variable (h : At sb p w₀ R tx N ((ip, i) :: H) L w)
include h

theorem give {fs' : Store} (hlock : ip ∈ L → ip ∈ H.map Prod.fst) (hquiet : Quiet sb fs')
    (hnodes : Fs.nodes sb fs' = N')
    (hcount : Recount w.fs fs' ip (-1)) (hsame : ∀ j node, N' j = some node → N j = some node) :
    At sb p w₀ R tx N' H L { w with fs := fs' } := by
  refine h.move hquiet hnodes hcount (fun jp => ?_) (fun x hx => Or.inl (List.mem_cons_of_mem _ hx))
    (fun jp hjp => ?_) fun jp node _ hnode _ => Or.inr (hsame _ node hnode)
  · rw [List.map_cons, List.count_cons]
    by_cases hjp : jp = ip
    · simp [hjp]
    · simp [hjp, Ne.symm hjp]
  · have hmem := (h.locked jp hjp).2
    rw [List.map_cons] at hmem
    rcases List.mem_cons.mp hmem with rfl | hmem
    · exact hlock hjp
    · exact hmem

theorem nlink_of_lasting (hkeep : Lasting w₀ N H i) (hlast : (w.fs.inode ip).ref = 1)
    (hvalid : (w.fs.inode ip).valid = true) : (w.fs.inode ip).d.nlink ≠ 0 := by
  obtain ⟨node, hnode, hnlink | huse⟩ := hkeep
  · have hview := h.quiet.node ⟨h.ref_pos List.mem_cons_self, hvalid⟩
    rw [h.held _ List.mem_cons_self, h.nodes, hnode] at hview
    injection hview with hview
    rwa [hview] at hnlink
  · have := h.one_lt_ref huse
    omega

variable [DecidableEq P]

theorem iput (hlock : ip ∈ L → ip ∈ H.map Prod.fst) (hkeep : Lasting w₀ N H i) :
    Wp (act sb p) E (iput ip) (fun _ => At sb p w₀ R tx N H L) w := by
  have href : 0 < (w.fs.inode ip).ref := h.ref_pos List.mem_cons_self
  have hlinks := h.nlink_of_lasting hkeep
  obtain ⟨fs', heq, hquiet, hnodes, hcount⟩ := h.quiet.iput href hlinks
  have hnot : ¬((w.fs.inode ip).ref = 1 ∧ (w.fs.inode ip).valid ∧ (w.fs.inode ip).d.nlink = 0 ∧
      w.lock ip ≠ none) := fun hfree => hlinks hfree.1 hfree.2.1 hfree.2.2.1
  refine wp_op (.iput ip) () ?_ (h.give hlock hquiet
    (hnodes.trans h.nodes) hcount fun _ _ hnode => hnode)
  simp only [act, hnot, if_false, heq]
  rfl

theorem iunlockput (hlock : ip ∈ L) (hkeep : Lasting w₀ N H i) :
    Wp (act sb p) E (iunlockput ip) (fun _ => At sb p w₀ R tx N H (L.erase ip)) w :=
  Wp.seq (h.iunlock hlock) fun _ _ h' =>
    h'.iput (fun hmem => absurd hmem (Finset.notMem_erase _ _)) hkeep

theorem iput_free {node : Node} (hlock : ip ∉ L) (hvalid : (w.fs.inode ip).valid = true)
    (hnode : N i = some node) (hnlink : node.nlink = 0) (hlast : ¬InUse w₀ H i) :
    Wp (act sb p) E (Names.iput ip) (fun _ =>
      At sb p w₀ R tx (Function.update N i none) H L) w := by
  have hself : (w.fs.inode ip).inum = i := h.held _ List.mem_cons_self
  have hlive : Live w.fs ip := ⟨h.ref_pos List.mem_cons_self, hvalid⟩
  have hzero : (w.fs.inode ip).d.nlink = 0 := by
    have hview := h.quiet.node hlive
    rw [hself, h.nodes, hnode] at hview
    injection hview with hview
    rwa [hview] at hnlink
  have hone : (w.fs.inode ip).ref = 1 := by
    have hbase : ¬0 < (w₀.fs.inode ip).ref := fun hpos =>
      hlast (Or.inl ⟨ip, hpos, (h.old ip hpos).symm.trans hself⟩)
    have hcount : (H.map Prod.fst).count ip = 0 := by
      refine List.count_eq_zero.mpr fun hmem => ?_
      obtain ⟨⟨jp, j⟩, hjp, rfl⟩ := List.mem_map.mp hmem
      have hj := h.held _ (List.mem_cons_of_mem _ hjp)
      rw [hself] at hj
      exact hlast (Or.inr (List.mem_map.mpr ⟨_, hjp, hj.symm⟩))
    have href := h.refs ip
    rw [List.map_cons, List.count_cons_self, hcount] at href
    have := h.nonneg ip
    omega
  obtain ⟨fs', heq, hquiet, hnodes, hcount⟩ := h.quiet.iput_free hlive hone hzero
  rw [h.nodes, hself] at hnodes
  have hfree : w.lock ip = none := by rw [h.lock ip, if_neg hlock]
  refine wp_op (.iput ip) () ?_ (h.give (fun hmem => absurd hmem hlock) hquiet hnodes hcount
    fun j node' hnode' => ?_)
  · simp only [act, hfree, ne_eq, not_true_eq_false, and_false, if_false, heq]
    rfl
  · by_cases hj : j = i
    · rw [hj, Function.update_self] at hnode'
      cases hnode'
    · rwa [Function.update_of_ne hj] at hnode'

theorem iput_settle (hlock : ip ∉ L)
    (hvalid : ∀ node, N i = some node → node.nlink = 0 → (w.fs.inode ip).valid = true) :
    Wp (act sb p) E (Names.iput ip) (fun _ => At sb p w₀ R tx (settle w₀ H N i) H L) w := by
  obtain ⟨node, hnode⟩ := Option.ne_none_iff_exists'.mp (h.node_ne List.mem_cons_self)
  unfold settle
  split
  · rename_i hfree
    obtain ⟨⟨node', hnode', hnlink⟩, hlast⟩ := hfree
    exact h.iput_free hlock (hvalid node' hnode' hnlink) hnode' hnlink hlast
  · rename_i hkeep
    refine h.iput (fun hmem => absurd hmem hlock) ⟨node, hnode, ?_⟩
    by_contra hnot
    rw [not_or, not_not] at hnot
    exact hkeep ⟨⟨node, hnode, hnot.1⟩, hnot.2⟩

theorem iunlockput_free {node : Node} (hlock : ip ∈ L) (hnode : N i = some node)
    (hnlink : node.nlink = 0) (hlast : ¬InUse w₀ H i) :
    Wp (act sb p) E (Names.iunlockput ip)
      (fun _ => At sb p w₀ R tx (Function.update N i none) H (L.erase ip)) w := by
  refine Wp.seq (h.iunlock_store hlock) fun _ w' hw' => ?_
  exact hw'.1.iput_free (Finset.notMem_erase _ _) (by rw [hw'.2]; exact (h.locked ip hlock).1) hnode
    hnlink hlast

theorem iunlockput_settle (hlock : ip ∈ L) :
    Wp (act sb p) E (Names.iunlockput ip)
      (fun _ => At sb p w₀ R tx (settle w₀ H N i) H (L.erase ip)) w := by
  refine Wp.seq (h.iunlock_store hlock) fun _ w' hw' => ?_
  exact hw'.1.iput_settle (Finset.notMem_erase _ _) fun _ _ _ => by
    rw [hw'.2]
    exact (h.locked ip hlock).1

end Put

end At

end Xv6.Fs.Names
