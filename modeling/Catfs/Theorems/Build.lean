import Catfs.Theorems.CacheKeeps

/-! # The merge of a page

The nodes of a page have no children of their own, so `build_dentries` only adds children to the directory that
was listed and marks what the page names. -/

namespace Catfs

open Lib
open EStateM (Result)

namespace LocalMemMeta

variable {m m' m'' : LocalMemMeta} {a p c : Addr} {now : Timespec} {node : FTreeNode} {nodes : List FTreeNode}

/-- A listed child: what the listing says of it, and the mark. -/
def listedAs (oinfo : ObjInfo) (d : Dentry) : Dentry :=
  { d.update oinfo.size oinfo.ctime oinfo.mtime with synced := true }

def mark (d : Dentry) : Dentry := { d with synced := true }

theorem Mild.listedAs {oinfo : ObjInfo} : Mild (listedAs oinfo) :=
  .of_children (fun _ => rfl) (fun _ => rfl) (fun _ => rfl) (fun _ => rfl)

theorem set_set {f g : Dentry → Dentry} : (m.set a f).set a g = m.set a fun d => g (f d) := by
  simp [set]

/-- One node merged into the children of `p`. -/
def merge (now : Timespec) (p : Addr) (m : LocalMemMeta) (node : FTreeNode) : LocalMemMeta :=
  match (m.heap p).getChild node.name with
  | some c => m.set c (listedAs node.oinfo)
  | none => (m.issue.link p node.name (m.objInode now node.oinfo node.isDir)).set m.heapNext mark

theorem run_buildChild (hm : Inv m) (hp : p < m.heapNext) (hnode : node.children = []) :
    buildChild now p node m = .ok () (m.merge now p node) := by
  obtain ⟨name, isDir, children, oinfo⟩ := node
  obtain rfl : children = [] := hnode
  -- Marking twice is marking once.
  have hmark : ∀ (m : LocalMemMeta) c, (do
      if isDir then do
        markSynced c
        buildChildren now c []
        markSynced c
      else markSynced c : LocalM Unit) m = .ok () (m.set c mark) := by
    intro m c
    cases isDir with
    | false => rfl
    | true =>
      simp only [if_true]
      rw [bind_ok run_markSynced, buildChildren]
      refine congrArg (Result.ok ()) ?_
      exact set_set
  rw [buildChild, bind_ok run_load]
  simp only [mergeChild, merge, FTreeNode.name, FTreeNode.isDir, FTreeNode.oinfo]
  cases hc : (m.heap p).getChild name with
  | none =>
    have hcreate : createDentryFromObj now (m.heap p).inode.ino name oinfo isDir m =
        .ok m.heapNext (m.issue.link p name (m.objInode now oinfo isDir)) := run_createDentryFromObj (hm.index p hp) hp
    simp only []
    rw [bind_ok hcreate, hmark]
  | some c =>
    have hupdate : (do
        store c fun d => d.update oinfo.size oinfo.ctime oinfo.mtime
        pure c : LocalM Addr) m = .ok c (m.set c fun d => d.update oinfo.size oinfo.ctime oinfo.mtime) := rfl
    simp only []
    rw [bind_ok hupdate, hmark, set_set]
    rfl

/-! ### What a merge changes -/

/-- From `m` to `m'` the nodes `nodes` were merged into the children of `p`. -/
structure Built (p : Addr) (nodes : List FTreeNode) (m m' : LocalMemMeta) : Prop where
  alloc : p < m.heapNext
  inv : Inv m'
  grow : Grow m m'
  child : ∀ n c, (m.heap p).getChild n = some c → (m'.heap p).getChild n = some c
  listed : ∀ node ∈ nodes, ∃ c, (m'.heap p).getChild node.name = some c ∧ (m'.heap c).synced = true
  origin : ∀ n c, (m'.heap p).getChild n = some c →
    (m.heap p).getChild n = some c ∨ m.heapNext ≤ c ∧ ∃ node ∈ nodes, node.name = n
  mark : ∀ a, a < m.heapNext → (m.heap a).synced = true → (m'.heap a).synced = true
  marked : ∀ a, a < m.heapNext → a ≠ p → (m'.heap a).synced = true →
    (m.heap a).synced = true ∨ ∃ node ∈ nodes, (m.heap p).getChild node.name = some a
  others : ∀ a, a < m.heapNext → a ≠ p → (m'.heap a).children = (m.heap a).children
  same : ∀ a, a < m.heapNext → (m'.heap a).inode.mode = (m.heap a).inode.mode ∧
    (m'.heap a).complete = (m.heap a).complete ∧ (m'.heap a).ttl = (m.heap a).ttl
  size : ∀ a, a < m.heapNext → (m'.heap a).inode.size = (m.heap a).inode.size ∨
    ∃ node ∈ nodes, (m.heap p).getChild node.name = some a ∧ (m'.heap a).inode.size = node.oinfo.size
  fresh : ∀ a, m.heapNext ≤ a → a < m'.heapNext → (m'.heap a).children = ∅ ∧ (m'.heap a).complete = false ∧
    (m'.heap a).synced = true ∧ (m'.heap a).parent = some p ∧ ∃ node ∈ nodes, node.name = (m'.heap a).name ∧
      (node.oinfo.mode = none → (m'.heap a).isDir = node.isDir)

theorem Built.refl (hm : Inv m) (hp : p < m.heapNext) : Built p [] m m where
  alloc := hp
  inv := hm
  grow := .refl m
  child _ _ h := h
  listed := nofun
  origin _ _ h := .inl h
  mark _ _ h := h
  marked _ _ _ h := .inl h
  others _ _ _ := rfl
  same _ _ := ⟨rfl, rfl, rfl⟩
  size _ _ := .inl rfl
  fresh _ ha ha' := absurd ha' (Nat.not_lt.mpr ha)

theorem Built.trans {nodes' : List FTreeNode} (h : Built p nodes m m') (h' : Built p nodes' m' m'') :
    Built p (nodes ++ nodes') m m'' where
  alloc := h.alloc
  inv := h'.inv
  grow := h.grow.trans h'.grow
  child n c hc := h'.child n c (h.child n c hc)
  listed node hnode := by
    rcases List.mem_append.mp hnode with hnode | hnode
    · obtain ⟨c, hc, hs⟩ := h.listed node hnode
      exact ⟨c, h'.child _ _ hc, h'.mark c (h.inv.child p _ c h'.alloc hc).2.1 hs⟩
    · exact h'.listed node hnode
  origin n c hc := by
    rcases h'.origin n c hc with hc | ⟨hle, node, hnode, hn⟩
    · rcases h.origin n c hc with hc | ⟨hle, node, hnode, hn⟩
      · exact .inl hc
      · exact .inr ⟨hle, node, List.mem_append_left _ hnode, hn⟩
    · exact .inr ⟨Nat.le_trans h.grow.next hle, node, List.mem_append_right _ hnode, hn⟩
  mark a ha hs := h'.mark a (Nat.lt_of_lt_of_le ha h.grow.next) (h.mark a ha hs)
  marked a ha hne hs := by
    rcases h'.marked a (Nat.lt_of_lt_of_le ha h.grow.next) hne hs with hs | ⟨node, hnode, hc⟩
    · rcases h.marked a ha hne hs with hs | ⟨node, hnode, hc⟩
      · exact .inl hs
      · exact .inr ⟨node, List.mem_append_left _ hnode, hc⟩
    · rcases h.origin _ _ hc with hc | ⟨hle, -⟩
      · exact .inr ⟨node, List.mem_append_right _ hnode, hc⟩
      · exact absurd hle (Nat.not_le.mpr ha)
  others a ha hne := (h'.others a (Nat.lt_of_lt_of_le ha h.grow.next) hne).trans (h.others a ha hne)
  same a ha := by
    obtain ⟨h₁, h₂, h₃⟩ := h.same a ha
    obtain ⟨h₁', h₂', h₃'⟩ := h'.same a (Nat.lt_of_lt_of_le ha h.grow.next)
    exact ⟨h₁'.trans h₁, h₂'.trans h₂, h₃'.trans h₃⟩
  size a ha := by
    rcases h'.size a (Nat.lt_of_lt_of_le ha h.grow.next) with hs | ⟨node, hnode, hc, hs⟩
    · rcases h.size a ha with hs' | ⟨node, hnode, hc, hs'⟩
      · exact .inl (hs.trans hs')
      · exact .inr ⟨node, List.mem_append_left _ hnode, hc, hs.trans hs'⟩
    · rcases h.origin _ _ hc with hc | ⟨hle, -⟩
      · exact .inr ⟨node, List.mem_append_right _ hnode, hc, hs⟩
      · exact absurd hle (Nat.not_le.mpr ha)
  fresh a ha ha' := by
    rcases Nat.lt_or_ge a m'.heapNext with hlt | hge
    · obtain ⟨h₁, h₂, h₃, h₄, node, hnode, h₅, h₆⟩ := h.fresh a ha hlt
      obtain ⟨hmode, hcomplete, -⟩ := h'.same a hlt
      have hne : a ≠ p := by
        rintro rfl
        exact Nat.lt_irrefl _ (h.inv.parent a a hlt h₄)
      refine ⟨(h'.others a hlt hne).trans h₁, hcomplete.trans h₂, h'.mark a hlt h₃, (h'.grow.parent a hlt).trans h₄, node,
        List.mem_append_left _ hnode, h₅.trans (h'.grow.name a hlt).symm, fun hm => ?_⟩
      rw [← h₆ hm, Dentry.isDir, hmode, Dentry.isDir]
    · obtain ⟨h₁, h₂, h₃, h₄, node, hnode, h₅⟩ := h'.fresh a hge ha'
      exact ⟨h₁, h₂, h₃, h₄, node, List.mem_append_right _ hnode, h₅⟩

theorem built_update (hm : Inv m) (hp : p < m.heapNext) (hc : (m.heap p).getChild node.name = some c) :
    Built p [node] m (m.set c (listedAs node.oinfo)) := by
  obtain ⟨hpc, hcn, -, -⟩ := hm.child p _ c hp hc
  have hg : Grow m (m.set c (listedAs node.oinfo)) := .set Mild.listedAs
  have hp' : (m.set c (listedAs node.oinfo)).heap p = m.heap p := heap_set_ne (Nat.ne_of_lt hpc)
  have hcases : ∀ a, (a = c ∧ (m.set c (listedAs node.oinfo)).heap a = listedAs node.oinfo (m.heap c)) ∨
      (m.set c (listedAs node.oinfo)).heap a = m.heap a := by
    intro a
    by_cases h : a = c
    · exact .inl ⟨h, by rw [h, heap_set_self]⟩
    · exact .inr (heap_set_ne h)
  refine ⟨hp, hm.set Mild.listedAs, hg, ?_, ?_, ?_, ?_, ?_, ?_, ?_, ?_, ?_⟩
  · intro n d hd
    rw [hp']
    exact hd
  · intro node' hnode'
    rw [List.mem_singleton.mp hnode', hp']
    exact ⟨c, hc, by rw [heap_set_self]; rfl⟩
  · intro n d hd
    rw [hp'] at hd
    exact .inl hd
  · intro a _ hs
    rcases hcases a with ⟨-, h⟩ | h <;> rw [h]
    · rfl
    · exact hs
  · intro a _ _ hs
    rcases hcases a with ⟨rfl, -⟩ | h
    · exact .inr ⟨node, List.mem_singleton_self _, hc⟩
    · exact .inl (h ▸ hs)
  · intro a _ _
    rcases hcases a with ⟨rfl, h⟩ | h <;> rw [h]
    rfl
  · intro a _
    rcases hcases a with ⟨rfl, h⟩ | h <;> rw [h]
    · exact ⟨rfl, rfl, rfl⟩
    · exact ⟨rfl, rfl, rfl⟩
  · intro a _
    rcases hcases a with ⟨rfl, h⟩ | h <;> rw [h]
    · exact .inr ⟨node, List.mem_singleton_self _, hc, rfl⟩
    · exact .inl rfl
  · exact fun a ha ha' => absurd ha' (Nat.not_lt.mpr ha)

theorem objInode_isDir (name : Str) {oinfo : ObjInfo} {isDir : Bool} (h : oinfo.mode = none) :
    (Dentry.new name (m.objInode now oinfo isDir)).isDir = isDir := by
  simp only [Dentry.isDir, Dentry.new, objInode, h]
  cases isDir <;> decide

/-- The directory of a new entry. -/
theorem heap_entry_parent (name : Str) (inode : Inode) (hp : p < m.heapNext) :
    ((m.issue.link p name inode).set m.heapNext mark).heap p =
      { m.heap p with children := (m.heap p).children.insert name m.heapNext } := by
  rw [heap_set_ne (Nat.ne_of_lt hp)]
  exact heap_link_parent hp

/-- The new entry. -/
theorem heap_entry_new (name : Str) (inode : Inode) (hp : p < m.heapNext) :
    ((m.issue.link p name inode).set m.heapNext mark).heap m.heapNext =
      mark { Dentry.new name inode with parent := some p } := by
  rw [heap_set_self]
  exact congrArg mark (heap_link_new _ _ hp)

theorem built_create (hm : Inv m) (hp : p < m.heapNext) (hc : (m.heap p).getChild node.name = none) :
    Built p [node] m ((m.issue.link p node.name (m.objInode now node.oinfo node.isDir)).set m.heapNext mark) := by
  generalize hinode : m.objInode now node.oinfo node.isDir = inode
  have hfresh : Fresh m.issue inode.ino := hinode ▸ hm.fresh
  have hg : Grow m (m.issue.link p node.name inode) := Grow.issue.trans (.link hm.issue hp hfresh)
  have hm' : Inv (m.issue.link p node.name inode) := hm.issue.link hp hfresh
  have hparent := heap_entry_parent node.name inode hp
  have hnew := heap_entry_new node.name inode hp
  have hother : ∀ a, a < m.heapNext → a ≠ p → ((m.issue.link p node.name inode).set m.heapNext mark).heap a = m.heap a := by
    intro a ha hne
    rw [heap_set_ne (Nat.ne_of_lt ha)]
    exact heap_link_other ha hne
  have hchild : ∀ n d, ((m.heap p).children.insert node.name m.heapNext).lookup n = some d ↔
      (n = node.name ∧ d = m.heapNext) ∨ (n ≠ node.name ∧ (m.heap p).getChild n = some d) := by
    intro n d
    by_cases h : n = node.name
    · subst h
      simp [eq_comm]
    · simp [h, AList.lookup_insert_ne, Dentry.getChild]
  refine ⟨hp, hm'.set Mild.synced, hg.trans (.set Mild.synced), ?_, ?_, ?_, ?_, ?_, ?_, ?_, ?_, ?_⟩
  · intro n d hd
    rw [hparent]
    refine (hchild n d).mpr (.inr ⟨?_, hd⟩)
    rintro rfl
    rw [hc] at hd
    cases hd
  · intro node' hnode'
    rw [List.mem_singleton.mp hnode', hparent]
    exact ⟨m.heapNext, (hchild _ _).mpr (.inl ⟨rfl, rfl⟩), by rw [hnew]; rfl⟩
  · intro n d hd
    rw [hparent] at hd
    rcases (hchild n d).mp hd with ⟨rfl, rfl⟩ | ⟨-, hd⟩
    · exact .inr ⟨Nat.le_refl _, node, List.mem_singleton_self _, rfl⟩
    · exact .inl hd
  · intro a ha hs
    by_cases hap : a = p
    · rw [hap, hparent]
      exact hap ▸ hs
    · rw [hother a ha hap]
      exact hs
  · intro a ha hap hs
    rw [hother a ha hap] at hs
    exact .inl hs
  · intro a ha hap
    rw [hother a ha hap]
  · intro a ha
    by_cases hap : a = p
    · rw [hap, hparent]
      exact ⟨rfl, rfl, rfl⟩
    · rw [hother a ha hap]
      exact ⟨rfl, rfl, rfl⟩
  · intro a ha
    by_cases hap : a = p
    · rw [hap, hparent]
      exact .inl rfl
    · rw [hother a ha hap]
      exact .inl rfl
  · intro a ha ha'
    obtain rfl : a = m.heapNext := Nat.le_antisymm (Nat.lt_succ_iff.mp ha') ha
    rw [hnew]
    refine ⟨rfl, rfl, rfl, rfl, node, List.mem_singleton_self _, rfl, fun hmode => ?_⟩
    rw [← hinode]
    exact objInode_isDir node.name hmode

/-- The step lemma of the merge. -/
theorem built_merge (now : Timespec) (node : FTreeNode) (hm : Inv m) (hp : p < m.heapNext) : Built p [node] m (m.merge now p node) := by
  unfold merge
  split
  · exact built_update hm hp ‹_›
  · exact built_create hm hp ‹_›

/-- The loop over a page. -/
theorem run_buildChildren (now : Timespec) (hm : Inv m) (hp : p < m.heapNext) (hnodes : ∀ node ∈ nodes, node.children = []) :
    ∃ m', buildChildren now p nodes m = .ok () m' ∧ Built p nodes m m' := by
  induction nodes generalizing m with
  | nil => exact ⟨m, by rw [buildChildren]; rfl, .refl hm hp⟩
  | cons node rest ih =>
    have hstep := built_merge now node hm hp
    obtain ⟨m', hrun, hb⟩ := ih hstep.inv (Nat.lt_of_lt_of_le hp hstep.grow.next)
      fun n hn => hnodes n (List.mem_cons_of_mem _ hn)
    refine ⟨m', ?_, hstep.trans hb⟩
    rw [buildChildren, bind_ok (run_buildChild hm hp (hnodes node (List.mem_cons_self ..))), hrun]

/-- The listed directory is marked before anything is merged. -/
theorem built_mark (hm : Inv m) (hp : p < m.heapNext) : Built p [] m (m.set p mark) := by
  have hother : ∀ a, a ≠ p → (m.set p mark).heap a = m.heap a := fun a ha => heap_set_ne ha
  have hself : (m.set p mark).heap p = mark (m.heap p) := heap_set_self
  refine ⟨hp, hm.set Mild.synced, .set Mild.synced, ?_, nofun, ?_, ?_, ?_, ?_, ?_, ?_, ?_⟩
  · exact fun n c hc => by rw [hself]; exact hc
  · exact fun n c hc => .inl (by rw [hself] at hc; exact hc)
  · intro a _ hs
    by_cases hap : a = p
    · rw [hap, hself]
      rfl
    · rw [hother a hap]
      exact hs
  · exact fun a _ hap hs => .inl (hother a hap ▸ hs)
  · exact fun a _ hap => by rw [hother a hap]
  · intro a _
    by_cases hap : a = p
    · rw [hap, hself]
      exact ⟨rfl, rfl, rfl⟩
    · rw [hother a hap]
      exact ⟨rfl, rfl, rfl⟩
  · intro a _
    by_cases hap : a = p
    · rw [hap, hself]
      exact .inl rfl
    · rw [hother a hap]
      exact .inl rfl
  · exact fun a ha ha' => absurd ha' (Nat.not_lt.mpr ha)

/-- `build_dentries` for a directory that is indexed. -/
theorem run_buildDentries (now : Timespec) {pino : InodeID} (hm : Inv m) (hp : m.lookup pino = some p)
    (hnodes : ∀ node ∈ nodes, node.children = []) :
    ∃ m', buildDentries now pino nodes m = .ok () m' ∧ Built p nodes m m' := by
  have hmark := built_mark hm (hm.indexed _ _ hp).1
  obtain ⟨m', hrun, hb⟩ := run_buildChildren now hmark.inv (hm.indexed _ _ hp).1 hnodes
  refine ⟨m', ?_, hmark.trans hb⟩
  rw [buildDentries, bind_ok run_getDentry, hp]
  exact hrun

end LocalMemMeta

end Catfs
