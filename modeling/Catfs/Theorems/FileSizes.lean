import Catfs.Theorems.CompleteDirs

/-! # The sizes of files

What the edits of the cache do to the sizes of the files in the tree: only an edit of a file's own attributes changes its
size, and only a new dentry is a new file. -/

namespace Catfs

open Lib MetaM LocalMemMeta
open EStateM (Result)

namespace LocalMemMeta
variable {m m' : LocalMemMeta} {a p : Addr} {n path : Str} {B : Str → Addr → Nat → Prop}

/-- `a` is a file of the tree, at `path`. -/
structure FileAt (m : LocalMemMeta) (path : Str) (a : Addr) : Prop where
  attached : Attached m a
  file : (m.heap a).isDir = false
  path : m.fullPath a = some path

/-- Every file of the tree has, at its path, a size that `B` allows. -/
def FilesHold (B : Str → Addr → Nat → Prop) (m : LocalMemMeta) : Prop :=
  ∀ path a, FileAt m path a → B path a (m.heap a).inode.size

theorem FilesHold.mono {B' : Str → Addr → Nat → Prop} (h : FilesHold B m)
    (hB : ∀ path a, FileAt m path a → ∀ size, B path a size → B' path a size) : FilesHold B' m := fun path a ha =>
  hB _ _ ha _ (h path a ha)

theorem FileAt.grow (hm : Inv m) (hg : Grow m m') (ha : Attached m a) (hfile : (m.heap a).isDir = false)
    (h : FileAt m' path a) : FileAt m path a :=
  ⟨ha, hfile, (fullPath_grow hm hg (ha.allocated hm)).symm.trans h.path⟩

theorem isDir_of_mode {d d' : Dentry} (h : d'.inode.mode = d.inode.mode) : d'.isDir = d.isDir := by
  rw [Dentry.isDir, h, Dentry.isDir]

/-- No inode changed, and no dentry came to be in the tree. -/
theorem FilesHold.same (h : FilesHold B m) (hm : Inv m) (hg : Grow m m') (hattached : ∀ a, Attached m' a → Attached m a)
    (hinode : ∀ a, (m'.heap a).inode = (m.heap a).inode) : FilesHold B m' := by
  intro path a ha
  have hfile : (m.heap a).isDir = false := (isDir_of_mode (congrArg Inode.mode (hinode a).symm)).trans ha.file
  rw [hinode a]
  exact h path a (ha.grow hm hg (hattached a ha.attached) hfile)

theorem FilesHold.swept (h : FilesHold B m) (hm : Inv m) (hs : Swept p m m') : FilesHold B m' := by
  refine h.same hm hs.grow (fun a ha => ha.mono hs.grow.root.symm fun d n c hc => ?_) hs.inode
  by_cases hv : m.Visited p d
  · exact ((hs.child d hv n c).mp hc).1
  · exact (congrArg (AList.lookup n) (hs.children d hv)).symm.trans hc

/-- Attributes of one dentry changed, whose children and kind stay. -/
theorem filesHold_set (hm : Inv m) {f : Dentry → Dentry} (hf : Mild f) (hc : ∀ d, (f d).children = d.children)
    (hdir : (f (m.heap a)).isDir = (m.heap a).isDir) (hnew : ∀ path, FileAt m path a → B path a (f (m.heap a)).inode.size)
    (hother : ∀ path b, b ≠ a → FileAt m path b → B path b (m.heap b).inode.size) : FilesHold B (m.set a f) := by
  have hg : Grow m (m.set a f) := .set hf
  have hchildren : ∀ d, ((m.set a f).heap d).children = (m.heap d).children := by
    intro d
    rw [heap_set]
    split
    · rename_i hd
      rw [hc, hd]
    · rfl
  intro path b hb
  have hb' : Attached m b := hb.attached.mono hg.root.symm fun d n c hch =>
    (congrArg (AList.lookup n) (hchildren d)).symm.trans hch
  by_cases hba : b = a
  · subst hba
    have hfile : (m.heap b).isDir = false := by
      rw [← hdir, ← hb.file, heap_set_self]
    rw [heap_set_self]
    exact hnew path (hb.grow hm hg hb' hfile)
  · have hfile := hb.file
    rw [heap_set_ne hba] at hfile ⊢
    exact hother path b hba (hb.grow hm hg hb' hfile)

/-- Flags of a dentry changed. -/
theorem FilesHold.flags (h : FilesHold B m) (hm : Inv m) {f : Dentry → Dentry} (hf : Mild f)
    (hc : ∀ d, (f d).children = d.children) (hi : ∀ d, (f d).inode = d.inode) : FilesHold B (m.set a f) := by
  refine filesHold_set hm hf hc (isDir_of_mode (congrArg Inode.mode (hi _))) (fun path ha => ?_) fun path b _ hb =>
    h path b hb
  rw [hi]
  exact h path a ha

/-- A dentry was made. -/
theorem FilesHold.link (h : FilesHold B m) (hm : Inv m) (hp : p < m.heapNext) {inode : Inode} (hi : Fresh m inode.ino)
    (hnew : (Dentry.new n inode).isDir = false → B (m.dirPrefix p ++ n) m.heapNext inode.size) :
    FilesHold B (m.link p n inode) := by
  have hm' : Inv (m.link p n inode) := hm.link hp hi
  have hwide : Widened m (m.link p n inode) := widened_link hm hp hi
  intro path a ha
  have halloc := ha.attached.allocated hm'
  rcases hwide.attached hm hm' ha.attached with hfresh | hold
  · obtain rfl : a = m.heapNext := Nat.le_antisymm (Nat.le_of_lt_succ halloc) hfresh
    have hchild : ((m.link p n inode).heap p).getChild n = some m.heapNext := by
      rw [heap_link_parent hp]
      exact AList.lookup_insert ..
    have hpath : (m.link p n inode).fullPath m.heapNext = some (m.dirPrefix p ++ n) := by
      rw [fullPath_child hm' (Nat.lt_succ_of_lt hp) hchild, dirPrefix_grow hm hwide.grow hp]
    obtain rfl : m.dirPrefix p ++ n = path := Option.some.inj (hpath.symm.trans ha.path)
    have hfile := ha.file
    rw [heap_link_new n inode hp] at hfile ⊢
    exact hnew hfile
  · have hlt := hold.allocated hm
    have hinode : ((m.link p n inode).heap a).inode = (m.heap a).inode := by
      by_cases hap : a = p
      · rw [hap, heap_link_parent hp]
      · rw [heap_link_other hlt hap]
    have hfile : (m.heap a).isDir = false := (isDir_of_mode (congrArg Inode.mode hinode.symm)).trans ha.file
    rw [hinode]
    exact h path a (ha.grow hm hwide.grow hold hfile)

theorem FilesHold.issue (h : FilesHold B m) (hm : Inv m) : FilesHold B m.issue :=
  h.same hm .issue (fun _ => attached_issue.mp) fun _ => rfl

end LocalMemMeta

end Catfs
