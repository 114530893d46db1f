import Catfs.Theorems.CacheRun

/-! # The shape of the cache

`Inv` is what holds of every allocated dentry, attached to the tree or removed from it: links go from
older to newer addresses and agree with the parent pointers, and the index is exactly the map from the
inode numbers of the dentries to their addresses. `Grow` is what no operation undoes. -/

namespace Catfs

open Lib
open EStateM (Result)

namespace LocalMemMeta

structure Inv (m : LocalMemMeta) : Prop where
  root : m.rootDentry = 0
  rootPos : 0 < m.heapNext
  rootIno : (m.heap 0).inode.ino = ROOT_INODE_ID
  child : ∀ a n c, a < m.heapNext → (m.heap a).getChild n = some c →
    a < c ∧ c < m.heapNext ∧ (m.heap c).name = n ∧ (m.heap c).parent = some a
  parent : ∀ a p, a < m.heapNext → (m.heap a).parent = some p → p < a
  index : ∀ a, a < m.heapNext → m.lookup (m.heap a).inode.ino = some a
  indexed : ∀ ino a, m.lookup ino = some a → a < m.heapNext ∧ (m.heap a).inode.ino = ino
  issued : ∀ a, a < m.heapNext → (m.heap a).inode.ino ∈ m.issued
  issuedLt : ∀ i ∈ m.issued, i < m.nextInodeId
  issuedNodup : m.issued.Nodup

structure Grow (m m' : LocalMemMeta) : Prop where
  next : m.heapNext ≤ m'.heapNext
  root : m'.rootDentry = m.rootDentry
  opt : m'.opt = m.opt
  name : ∀ a, a < m.heapNext → (m'.heap a).name = (m.heap a).name
  parent : ∀ a, a < m.heapNext → (m'.heap a).parent = (m.heap a).parent
  ino : ∀ a, a < m.heapNext → (m'.heap a).inode.ino = (m.heap a).inode.ino
  index : ∀ ino a, m.lookup ino = some a → m'.lookup ino = some a
  issued : m.issued <+: m'.issued

theorem Grow.refl (m : LocalMemMeta) : Grow m m :=
  ⟨Nat.le_refl _, rfl, rfl, fun _ _ => rfl, fun _ _ => rfl, fun _ _ => rfl, fun _ _ h => h, List.prefix_rfl⟩

theorem Grow.trans {m m' m'' : LocalMemMeta} (h : Grow m m') (h' : Grow m' m'') : Grow m m'' where
  next := Nat.le_trans h.next h'.next
  root := h'.root.trans h.root
  opt := h'.opt.trans h.opt
  name a ha := (h'.name a (Nat.lt_of_lt_of_le ha h.next)).trans (h.name a ha)
  parent a ha := (h'.parent a (Nat.lt_of_lt_of_le ha h.next)).trans (h.parent a ha)
  ino a ha := (h'.ino a (Nat.lt_of_lt_of_le ha h.next)).trans (h.ino a ha)
  index ino a ha := h'.index ino a (h.index ino a ha)
  issued := h.issued.trans h'.issued

instance : Std.Refl Grow := ⟨Grow.refl⟩
instance : IsTrans LocalMemMeta Grow := ⟨fun _ _ _ => Grow.trans⟩

variable {m m' : LocalMemMeta} {a p : Addr} {f : Dentry → Dentry} {name : Str} {inode : Inode}

/-! ### The changes to the heap -/

/-- A change that leaves the identity of a dentry and adds no child. -/
structure Mild (f : Dentry → Dentry) : Prop where
  name : ∀ d, (f d).name = d.name
  parent : ∀ d, (f d).parent = d.parent
  ino : ∀ d, (f d).inode.ino = d.inode.ino
  child : ∀ d n c, (f d).getChild n = some c → d.getChild n = some c

theorem Mild.of_children (hn : ∀ d, (f d).name = d.name) (hp : ∀ d, (f d).parent = d.parent)
    (hi : ∀ d, (f d).inode.ino = d.inode.ino) (hc : ∀ d, (f d).children = d.children) : Mild f :=
  ⟨hn, hp, hi, fun d n c h => by simpa [Dentry.getChild, hc] using h⟩

theorem Mild.synced {b : Bool} : Mild fun d => { d with synced := b } :=
  .of_children (fun _ => rfl) (fun _ => rfl) (fun _ => rfl) (fun _ => rfl)

theorem Mild.incTtl {now : Timespec} {t : Nat} : Mild (·.incTtl now t) :=
  .of_children (fun _ => rfl) (fun _ => rfl) (fun _ => rfl) (fun _ => rfl)

theorem Mild.update {size : Nat} {c t : Timespec} : Mild (·.update size c t) :=
  .of_children (fun _ => rfl) (fun _ => rfl) (fun _ => rfl) (fun _ => rfl)

theorem Mild.apply {u : InodeUpdateAttr} : Mild (InodeUpdateAttr.apply u) :=
  .of_children (fun _ => rfl) (fun _ => rfl) (fun _ => rfl) (fun _ => rfl)

theorem keepChild_children {now : Timespec} {t : Nat} {d : Dentry} : (keepChild now t d).children = d.children := by
  unfold keepChild
  dsimp only
  split <;> rfl

theorem Mild.keepChild {now : Timespec} {t : Nat} : Mild (keepChild now t) := by
  refine .of_children ?_ ?_ ?_ fun _ => keepChild_children <;> intro d <;> unfold LocalMemMeta.keepChild <;> dsimp only <;>
    split <;> rfl

theorem visit_children {now : Timespec} {t : Nat} {d : Dentry} : (visit now t d).children = d.children := by
  unfold visit
  dsimp only
  split <;> rfl

theorem Mild.visit {now : Timespec} {t : Nat} : Mild (visit now t) := by
  refine .of_children ?_ ?_ ?_ fun _ => visit_children <;> intro d <;> unfold LocalMemMeta.visit <;> dsimp only <;>
    split <;> rfl

theorem Mild.erase {name : Str} : Mild fun d => { d with children := d.children.erase name } where
  name _ := rfl
  parent _ := rfl
  ino _ := rfl
  child d n c h := by
    simp only [Dentry.getChild] at h ⊢
    by_cases hn : n = name
    · subst hn
      simp at h
    · rwa [AList.lookup_erase_ne hn] at h

theorem Grow.set (hf : Mild f) : Grow m (m.set a f) where
  next := Nat.le_refl _
  root := rfl
  opt := rfl
  name b _ := by
    rw [heap_set]
    split
    · rename_i h
      rw [hf.name, h]
    · rfl
  parent b _ := by
    rw [heap_set]
    split
    · rename_i h
      rw [hf.parent, h]
    · rfl
  ino b _ := by
    rw [heap_set]
    split
    · rename_i h
      rw [hf.ino, h]
    · rfl
  index _ _ h := h
  issued := List.prefix_rfl

theorem Inv.set (hm : Inv m) (hf : Mild f) : Inv (m.set a f) := by
  have hg : Grow m (m.set a f) := .set hf
  have hchild : ∀ b n c, ((m.set a f).heap b).getChild n = some c → (m.heap b).getChild n = some c := by
    intro b n c h
    rw [heap_set] at h
    split at h
    · rename_i hb
      exact hb ▸ hf.child _ _ _ h
    · exact h
  refine ⟨hm.root, hm.rootPos, (hg.ino 0 hm.rootPos).trans hm.rootIno, ?_, ?_, ?_, ?_, ?_, hm.issuedLt, hm.issuedNodup⟩
  · intro b n c hb h
    obtain ⟨h₁, h₂, h₃, h₄⟩ := hm.child b n c hb (hchild b n c h)
    exact ⟨h₁, h₂, (hg.name c h₂).trans h₃, (hg.parent c h₂).trans h₄⟩
  · exact fun b p hb h => hm.parent b p hb ((hg.parent b hb).symm.trans h)
  · intro b hb
    rw [hg.ino b hb]
    exact hm.index b hb
  · intro ino b h
    obtain ⟨hb, hi⟩ := hm.indexed ino b h
    exact ⟨hb, (hg.ino b hb).trans hi⟩
  · intro b hb
    rw [hg.ino b hb]
    exact hm.issued b hb

theorem Grow.issue : Grow m m.issue :=
  ⟨Nat.le_refl _, rfl, rfl, fun _ _ => rfl, fun _ _ => rfl, fun _ _ => rfl, fun _ _ h => h, List.prefix_append _ _⟩

theorem Inv.issue (hm : Inv m) : Inv m.issue where
  root := hm.root
  rootPos := hm.rootPos
  rootIno := hm.rootIno
  child := hm.child
  parent := hm.parent
  index := hm.index
  indexed := hm.indexed
  issued a ha := List.mem_append_left _ (hm.issued a ha)
  issuedLt i hi := by
    rcases List.mem_append.mp hi with hi | hi
    · exact Nat.lt_succ_of_lt (hm.issuedLt i hi)
    · rw [List.mem_singleton.mp hi]
      exact Nat.lt_succ_self _
  issuedNodup := by
    refine List.nodup_append.mpr ⟨hm.issuedNodup, List.nodup_singleton _, ?_⟩
    rintro i hi j hj rfl
    rw [List.mem_singleton.mp hj] at hi
    exact Nat.lt_irrefl _ (hm.issuedLt _ hi)

/-- An inode number that was handed out and is not in use. -/
structure Fresh (m : LocalMemMeta) (ino : InodeID) : Prop where
  issued : ino ∈ m.issued
  unused : ∀ a, a < m.heapNext → (m.heap a).inode.ino ≠ ino

theorem Inv.fresh (hm : Inv m) : Fresh m.issue m.nextInodeId where
  issued := List.mem_append_right _ (List.mem_singleton_self _)
  unused a ha h := Nat.lt_irrefl _ (hm.issuedLt _ (h ▸ hm.issued a ha))

theorem Grow.link (hm : Inv m) (hp : p < m.heapNext) (hi : Fresh m inode.ino) : Grow m (m.link p name inode) where
  next := Nat.le_succ _
  root := rfl
  opt := rfl
  name b hb := by
    by_cases h : b = p
    · rw [h, heap_link_parent hp]
    · rw [heap_link_other hb h]
  parent b hb := by
    by_cases h : b = p
    · rw [h, heap_link_parent hp]
    · rw [heap_link_other hb h]
  ino b hb := by
    by_cases h : b = p
    · rw [h, heap_link_parent hp]
    · rw [heap_link_other hb h]
  index ino b h := by
    rw [lookup_link, if_neg, h]
    rintro rfl
    obtain ⟨hb, hib⟩ := hm.indexed _ _ h
    exact hi.unused b hb hib
  issued := List.prefix_rfl

theorem Inv.link (hm : Inv m) (hp : p < m.heapNext) (hi : Fresh m inode.ino) : Inv (m.link p name inode) := by
  have hg : Grow m (m.link p name inode) := .link hm hp hi
  have hnew := heap_link_new name inode hp
  have hcases : ∀ b, b < m.heapNext + 1 → b < m.heapNext ∨ b = m.heapNext := fun b hb => Nat.lt_succ_iff_lt_or_eq.mp hb
  refine ⟨hm.root, Nat.succ_pos _, (hg.ino 0 hm.rootPos).trans hm.rootIno, ?_, ?_, ?_, ?_, ?_, hm.issuedLt, hm.issuedNodup⟩
  · intro b n c hb h
    rw [heapNext_link] at hb ⊢
    rcases hcases b hb with hb | rfl
    · have hold : (m.heap b).getChild n = some c ∨ (b = p ∧ n = name ∧ c = m.heapNext) := by
        by_cases hbp : b = p
        · rw [hbp, heap_link_parent hp] at h
          simp only [Dentry.getChild] at h ⊢
          by_cases hn : n = name
          · rw [hn, AList.lookup_insert] at h
            exact .inr ⟨hbp, hn, (Option.some.inj h).symm⟩
          · rw [AList.lookup_insert_ne hn] at h
            exact .inl (hbp ▸ h)
        · rw [heap_link_other hb hbp] at h
          exact .inl h
      rcases hold with hold | ⟨rfl, rfl, rfl⟩
      · obtain ⟨h₁, h₂, h₃, h₄⟩ := hm.child b n c hb hold
        exact ⟨h₁, Nat.lt_succ_of_lt h₂, (hg.name c h₂).trans h₃, (hg.parent c h₂).trans h₄⟩
      · rw [hnew]
        exact ⟨hp, Nat.lt_succ_self _, rfl, rfl⟩
    · rw [hnew] at h
      simp [Dentry.getChild, Dentry.new] at h
  · intro b q hb h
    rcases hcases b hb with hb | rfl
    · exact hm.parent b q hb ((hg.parent b hb).symm.trans h)
    · rw [hnew] at h
      exact Option.some.inj h ▸ hp
  · intro b hb
    rcases hcases b hb with hb | rfl
    · rw [hg.ino b hb]
      exact hg.index _ _ (hm.index b hb)
    · rw [hnew, lookup_link]
      simp [Dentry.new]
  · intro ino b h
    rw [lookup_link] at h
    split at h
    · rename_i hino
      cases h
      rw [hnew]
      exact ⟨Nat.lt_succ_self _, hino.symm⟩
    · obtain ⟨hb, hib⟩ := hm.indexed _ _ h
      exact ⟨Nat.lt_succ_of_lt hb, (hg.ino b hb).trans hib⟩
  · intro b hb
    rcases hcases b hb with hb | rfl
    · rw [hg.ino b hb]
      exact hm.issued b hb
    · rw [hnew]
      exact hi.issued

theorem Inv.new (opt : MetaOpt) (now : Timespec) : Inv (LocalMemMeta.new opt now) := by
  have hlookup : ∀ ino, (LocalMemMeta.new opt now).lookup ino = if ino = ROOT_INODE_ID then some 0 else none := by
    intro ino
    simp only [lookup, LocalMemMeta.new, Function.update_apply]
    by_cases h : ino = ROOT_INODE_ID
    · simp [h]
    · by_cases hs : ino % LOCK_COUNT = ROOT_INODE_ID % LOCK_COUNT <;> simp [h, hs]
  have hheap : (LocalMemMeta.new opt now).heap 0 = Dentry.new [] ((LocalMemMeta.new opt now).heap 0).inode := rfl
  refine ⟨rfl, Nat.one_pos, rfl, ?_, ?_, ?_, ?_, ?_, ?_, List.nodup_singleton _⟩
  · intro a n c ha h
    rw [Nat.lt_one_iff.mp ha] at h
    cases h
  · intro a p ha h
    rw [Nat.lt_one_iff.mp ha] at h
    cases h
  · intro a ha
    rw [Nat.lt_one_iff.mp ha, hlookup]
    rfl
  · intro ino a h
    rw [hlookup] at h
    split at h
    · rename_i hino
      cases h
      exact ⟨Nat.one_pos, hino.symm⟩
    · cases h
  · intro a ha
    rw [Nat.lt_one_iff.mp ha]
    exact List.mem_singleton_self _
  · intro i hi
    rw [List.mem_singleton.mp hi]
    exact Nat.lt_succ_self _

end LocalMemMeta

end Catfs
