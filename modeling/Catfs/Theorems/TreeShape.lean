import Catfs.Theorems.MetaKeeps
import Mathlib.Logic.Relation

/-! # The tree that a user sees

What `Inv` says of the dentries reachable from the root. -/

namespace Catfs

open Relation

namespace LocalMemMeta
variable {m m' : LocalMemMeta} {a b c p : Addr}

/-- Reachable from the root through the maps of children. -/
inductive Attached (m : LocalMemMeta) : Addr → Prop where
  | root : Attached m m.rootDentry
  | child {a c : Addr} {n : Str} (ha : Attached m a) (h : (m.heap a).getChild n = some c) : Attached m c

theorem Attached.mono (hroot : m'.rootDentry = m.rootDentry)
    (h : ∀ a n c, (m.heap a).getChild n = some c → (m'.heap a).getChild n = some c) (ha : Attached m a) : Attached m' a := by
  induction ha with
  | root =>
    rw [← hroot]
    exact .root
  | child _ hc ih => exact ih.child (h _ _ _ hc)

def ParentOf (m : LocalMemMeta) (a p : Addr) : Prop := (m.heap a).parent = some p

theorem Attached.allocated (hm : Inv m) (h : Attached m a) : a < m.heapNext := by
  induction h with
  | root =>
    rw [hm.root]
    exact hm.rootPos
  | child _ hc ih => exact (hm.child _ _ _ ih hc).2.1

/-- Parents are older. -/
theorem Inv.ancestor_lt (hm : Inv m) (ha : a < m.heapNext) (h : TransGen m.ParentOf a p) : p < a := by
  induction h with
  | single h => exact hm.parent _ _ ha h
  | tail _ h ih => exact Nat.lt_trans (hm.parent _ _ (Nat.lt_trans ih ha) h) ih

theorem Inv.ancestor_allocated (hm : Inv m) (ha : a < m.heapNext) (h : ReflTransGen m.ParentOf a p) : p < m.heapNext := by
  rcases reflTransGen_iff_eq_or_transGen.mp h with rfl | h
  · exact ha
  · exact Nat.lt_trans (hm.ancestor_lt ha h) ha

theorem Inv.ino_inj (hm : Inv m) (ha : a < m.heapNext) (hb : b < m.heapNext)
    (h : (m.heap a).inode.ino = (m.heap b).inode.ino) : a = b := by
  have := hm.index a ha
  rw [h, hm.index b hb] at this
  exact (Option.some.inj this).symm

/-- A well-formed tree over the index, whose inode numbers are handed out once. -/
structure WellFormed (m : LocalMemMeta) : Prop where
  rootIndexed : m.lookup ROOT_INODE_ID = some m.rootDentry
  rootNoChild : ∀ a n, a < m.heapNext → (m.heap a).getChild n ≠ some m.rootDentry
  link : ∀ a n c, Attached m a → (m.heap a).getChild n = some c → (m.heap c).name = n ∧ (m.heap c).parent = some a
  index : ∀ a, Attached m a → m.lookup (m.heap a).inode.ino = some a
  inoInj : ∀ a b, Attached m a → Attached m b → (m.heap a).inode.ino = (m.heap b).inode.ino → a = b
  inoLt : ∀ a, Attached m a → (m.heap a).inode.ino < m.nextInodeId
  acyclic : ∀ ino a, m.lookup ino = some a → ∀ x, ReflTransGen m.ParentOf a x → ¬ TransGen m.ParentOf x x
  issuedOnce : m.issued.Nodup
  issued : ∀ ino a, m.lookup ino = some a → ino ∈ m.issued

theorem Inv.wellFormed (hm : Inv m) : WellFormed m where
  rootIndexed := by
    rw [hm.root, ← hm.rootIno]
    exact hm.index 0 hm.rootPos
  rootNoChild a n ha h := by
    obtain ⟨hlt, -⟩ := hm.child _ _ _ ha h
    rw [hm.root] at hlt
    exact Nat.not_lt_zero _ hlt
  link a n c ha h := (hm.child a n c (ha.allocated hm) h).2.2
  index a ha := hm.index a (ha.allocated hm)
  inoInj a b ha hb h := hm.ino_inj (ha.allocated hm) (hb.allocated hm) h
  inoLt a ha := hm.issuedLt _ (hm.issued a (ha.allocated hm))
  acyclic ino a h x hx hc :=
    Nat.lt_irrefl _ (hm.ancestor_lt (hm.ancestor_allocated (hm.indexed _ _ h).1 hx) hc)
  issuedOnce := hm.issuedNodup
  issued ino a h := by
    obtain ⟨ha, hi⟩ := hm.indexed _ _ h
    exact hi ▸ hm.issued a ha

end LocalMemMeta

namespace MetaImpl
open LocalMemMeta

/-- Whatever requests are made and whatever the store answers, the cache is a well-formed tree. -/
theorem reachable_wellFormed {opt : MetaOpt} {m : LocalMemMeta} (h : Reachable opt m) : WellFormed m := h.inv.wellFormed

theorem reachable_wellFormed_new : WellFormed newCache := reachable_wellFormed (.new ⟨0, 0⟩)

end MetaImpl

end Catfs
