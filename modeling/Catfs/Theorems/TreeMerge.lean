import Catfs.Theorems.Build
import Catfs.Theorems.Namespace
import Catfs.Theorems.RequestKeys

/-! # The merge of a tree

`build_dentries` merges a tree of any depth into the directory that it is given. Every node is met once, by the path to it,
and at each path the merge makes a dentry or updates the one that is there. -/

namespace Catfs

open Lib
open EStateM (Result)

namespace FTreeNode

mutual

/-- The nodes that a merge meets under a dentry at `P`, with their paths, in the order in which it meets them. -/
def namedAll (P : List Str) : List FTreeNode → List (List Str × FTreeNode)
  | [] => []
  | node :: rest => named P node ++ namedAll P rest

/-- A node, and what is below it when it is a directory. -/
def named (P : List Str) : FTreeNode → List (List Str × FTreeNode)
  | .mk name isDir children oinfo =>
    (P ++ [name], .mk name isDir children oinfo) :: if isDir then namedAll (P ++ [name]) children else []

end

mutual

/-- The children of every node have different names, as the keys of its map. -/
def KeyedAll : List FTreeNode → Prop
  | [] => True
  | node :: rest => Keyed node ∧ (∀ node' ∈ rest, node'.name ≠ node.name) ∧ KeyedAll rest

def Keyed : FTreeNode → Prop
  | .mk _ _ children _ => KeyedAll children

end

mutual

theorem namedAll_under {e : List Str × FTreeNode} : ∀ {nodes : List FTreeNode} {P : List Str}, e ∈ namedAll P nodes → P <+: e.1
  | [], _, h => by
    rw [namedAll] at h
    cases h
  | node :: rest, P, h => by
    rw [namedAll] at h
    rcases List.mem_append.mp h with h | h
    · exact (List.prefix_append P [node.name]).trans (named_under h)
    · exact namedAll_under h

/-- The paths of what is below a node begin with the path to it. -/
theorem named_under {e : List Str × FTreeNode} : ∀ {node : FTreeNode} {P : List Str}, e ∈ named P node → P ++ [node.name] <+: e.1
  | .mk name isDir children oinfo, P, h => by
    rw [named] at h
    rcases List.mem_cons.mp h with rfl | h
    · exact List.prefix_rfl
    · cases isDir with
      | false => cases h
      | true =>
        rw [if_pos rfl] at h
        exact namedAll_under h

end

end FTreeNode

open FTreeNode

namespace LocalMemMeta
variable {m m' m₀ : LocalMemMeta} {a c d p : Addr} {now : Timespec} {node : FTreeNode} {nodes : List FTreeNode}
  {es : List (List Str × FTreeNode)} {P Q : List Str} {n : Str} {inode : Inode}

/-! ### Ways through a change -/

theorem wayFrom_set {f : Dentry → Dentry} (hf : ∀ d, (f d).children = d.children) : (m.set a f).wayFrom d P = m.wayFrom d P := by
  refine walk_congr fun b n _ => ?_
  rw [heap_set]
  split
  · rename_i hb
    rw [hb, Dentry.getChild, hf, Dentry.getChild]
  · rfl

/-- A new entry of `p` adds the path to it, and no other. -/
theorem wayFrom_entry (hm : Inv m) (hd : d < m.heapNext) (hP : m.wayFrom d P = some p) (hnone : (m.heap p).getChild n = none) :
    ((m.issue.link p n inode).set m.heapNext mark).wayFrom d Q = if Q = P ++ [n] then some m.heapNext else m.wayFrom d Q := by
  have hmark : ((m.issue.link p n inode).set m.heapNext mark).wayFrom d Q = (m.issue.link p n inode).wayFrom d Q :=
    wayFrom_set fun _ => rfl
  rw [hmark, wayFrom_link hm.issue hd hP]
  by_cases hQ : Q = P ++ [n]
  · rw [if_pos (hQ ▸ List.prefix_rfl), if_pos hQ, if_pos hQ, heapNext_issue]
  · rw [if_neg hQ, if_neg hQ]
    split
    · -- Nothing was on this way before.
      rename_i hpre
      obtain ⟨R, rfl⟩ := hpre
      rw [wayFrom, walk_append, walk_concat, show Lib.walk _ d P = some p from hP, Option.bind_some, hnone]
      rfl
    · rfl

/-! ### What a merge has done so far -/

/-- From `m₀` to `m` the nodes `es` were merged under `d`, each at its path. -/
structure Merging (now : Timespec) (m₀ : LocalMemMeta) (d : Addr) (es : List (List Str × FTreeNode)) (m : LocalMemMeta) :
    Prop where
  inv : Inv m
  grow : Grow m₀ m
  next : m₀.nextInodeId ≤ m.nextInodeId
  ways : ∀ P a, m₀.wayFrom d P = some a → m.wayFrom d P = some a
  origin : ∀ P a, m.wayFrom d P = some a → m₀.wayFrom d P = none → ∃ node, (P, node) ∈ es
  updated : ∀ P node a, (P, node) ∈ es → m₀.wayFrom d P = some a →
    m.heap a = { listedAs node.oinfo (m₀.heap a) with children := (m.heap a).children }
  created : ∀ P node, (P, node) ∈ es → m₀.wayFrom d P = none → ∃ a, m.wayFrom d P = some a ∧ m₀.heapNext ≤ a ∧
    m₀.nextInodeId ≤ (m.heap a).inode.ino ∧ (m.heap a).isDir = node.isDir ∧ (m.heap a).synced = true
  made : ∀ a, m₀.heapNext ≤ a → a < m.heapNext → ∃ P node, (P, node) ∈ es ∧ m₀.wayFrom d P = none ∧ m.wayFrom d P = some a
  root : m.heap d = { mark (m₀.heap d) with children := (m.heap d).children }
  others : ∀ a, a < m₀.heapNext → a ≠ d → (∀ P node, (P, node) ∈ es → m₀.wayFrom d P ≠ some a) → m.heap a = m₀.heap a

/-- The directory is marked before anything is merged. -/
theorem Merging.start (hm : Inv m) (now : Timespec) (d : Addr) : Merging now m d [] (m.set d mark) where
  inv := hm.set Mild.synced
  grow := .set Mild.synced
  next := Nat.le_refl _
  ways P a h := by
    have hsame : (m.set d mark).wayFrom d P = m.wayFrom d P := wayFrom_set fun _ => rfl
    exact hsame.trans h
  origin P a h hnone := by
    have hsame : (m.set d mark).wayFrom d P = m.wayFrom d P := wayFrom_set fun _ => rfl
    cases (hsame.symm.trans h).symm.trans hnone
  updated _ _ _ h := by cases h
  created _ _ h := by cases h
  made a ha ha' := absurd ha' (Nat.not_lt.mpr ha)
  root := by rw [heap_set_self]
  others a _ hne _ := heap_set_ne hne

/-- A dentry that was there is on the way that it was on. -/
theorem Merging.old_way (h : Merging now m₀ d es m) (hP : m.wayFrom d P = some a) (ha : a < m₀.heapNext) : m₀.wayFrom d P = some a := by
  cases hold : m₀.wayFrom d P with
  | some b => rw [← hP, h.ways P b hold]
  | none =>
    obtain ⟨node, hnode⟩ := h.origin P a hP hold
    obtain ⟨b, hb, hnew, -⟩ := h.created P node hnode hold
    obtain rfl := Option.some.inj (hP.symm.trans hb)
    exact absurd ha (Nat.not_lt.mpr hnew)

theorem mem_concat {node' : FTreeNode} (h : (Q, node') ∈ es ++ [(P, node)]) : (Q, node') ∈ es ∨ Q = P ∧ node' = node := by
  rcases List.mem_append.mp h with h | h
  · exact .inl h
  · exact .inr (Prod.mk.inj (List.mem_singleton.mp h))

section
variable (h : Merging now m₀ d es m) (hm₀ : Inv m₀) (hd : d < m₀.heapNext) (hP : m.wayFrom d P = some p)
  (hfresh : ∀ e ∈ es, e.1 ≠ P ++ [node.name])
include h hm₀ hd hP hfresh

/-- The step over a node whose dentry is there. -/
theorem Merging.update (hc : (m.heap p).getChild node.name = some c) :
    Merging now m₀ d (es ++ [(P ++ [node.name], node)]) (m.set c (listedAs node.oinfo)) := by
  have hdm := Nat.lt_of_lt_of_le hd h.grow.next
  have hq : m.wayFrom d (P ++ [node.name]) = some c := by
    rw [wayFrom, walk_concat, show Lib.walk _ d P = some p from hP]
    exact hc
  have hq₀ : m₀.wayFrom d (P ++ [node.name]) = some c := by
    cases hold : m₀.wayFrom d (P ++ [node.name]) with
    | some b => rw [← hq, h.ways _ b hold]
    | none =>
      obtain ⟨node', hnode'⟩ := h.origin _ c hq hold
      exact absurd rfl (hfresh _ hnode')
  have hcd : c ≠ d := Nat.ne_of_gt (wayFrom_lt h.inv hdm hq)
  have hc₀ := (wayFrom_allocated hm₀ hd hq₀).1
  -- The paths met before lead to other dentries.
  have hunnamed : ∀ P' node', (P', node') ∈ es → m₀.wayFrom d P' ≠ some c := fun P' node' hmem hP' =>
    hfresh _ hmem (wayFrom_unambiguous hm₀ hd _ _ _ hP' hq₀)
  have hways : ∀ Q, (m.set c (listedAs node.oinfo)).wayFrom d Q = m.wayFrom d Q := fun Q => wayFrom_set fun _ => rfl
  exact {
    inv := h.inv.set Mild.listedAs
    grow := h.grow.trans (.set Mild.listedAs)
    next := h.next
    ways := fun Q a hQ => (hways Q).trans (h.ways Q a hQ)
    origin := fun Q a hQ hnone => by
      obtain ⟨node', hnode'⟩ := h.origin Q a ((hways Q).symm.trans hQ) hnone
      exact ⟨node', List.mem_append_left _ hnode'⟩
    updated := fun P' node' a hmem ha => by
      rcases mem_concat hmem with hmem | ⟨rfl, rfl⟩
      · have hne : a ≠ c := fun hac => hunnamed P' node' hmem (hac ▸ ha)
        rw [heap_set_ne hne]
        exact h.updated P' node' a hmem ha
      · obtain rfl := Option.some.inj (hq₀.symm.trans ha)
        rw [heap_set_self, h.others c hc₀ hcd hunnamed]
    created := fun P' node' hmem hnone => by
      rcases mem_concat hmem with hmem | ⟨rfl, rfl⟩
      · obtain ⟨a, ha, hnew, hrest⟩ := h.created P' node' hmem hnone
        have hne : a ≠ c := Nat.ne_of_gt (Nat.lt_of_lt_of_le hc₀ hnew)
        refine ⟨a, (hways P').trans ha, hnew, ?_⟩
        rw [heap_set_ne hne]
        exact hrest
      · cases hq₀.symm.trans hnone
    made := fun a ha ha' => by
      obtain ⟨P', node', hmem, hnone, hP'⟩ := h.made a ha ha'
      exact ⟨P', node', List.mem_append_left _ hmem, hnone, (hways P').trans hP'⟩
    root := by
      rw [heap_set_ne hcd.symm]
      exact h.root
    others := fun a ha hne hall => by
      have hac : a ≠ c := fun hac => hall _ node (List.mem_append_right _ (List.mem_singleton_self _)) (hac ▸ hq₀)
      rw [heap_set_ne hac]
      exact h.others a ha hne fun P' node' hmem => hall P' node' (List.mem_append_left _ hmem) }

omit hm₀ hfresh in
/-- The step over a node that has no dentry. -/
theorem Merging.create (hnamed : P = [] ∨ ∃ node, (P, node) ∈ es) (hc : (m.heap p).getChild node.name = none) :
    Merging now m₀ d (es ++ [(P ++ [node.name], node)])
      ((m.issue.link p node.name (m.objInode now node.oinfo node.isDir)).set m.heapNext mark) := by
  have hdm := Nat.lt_of_lt_of_le hd h.grow.next
  have hp := (wayFrom_allocated h.inv hdm hP).1
  have hq : m.wayFrom d (P ++ [node.name]) = none := by
    rw [wayFrom, walk_concat, show Lib.walk _ d P = some p from hP]
    exact hc
  have hq₀ : m₀.wayFrom d (P ++ [node.name]) = none := by
    cases hold : m₀.wayFrom d (P ++ [node.name]) with
    | none => rfl
    | some b => cases hq.symm.trans (h.ways _ b hold)
  obtain ⟨inode, hinode⟩ : ∃ inode, inode = m.objInode now node.oinfo node.isDir := ⟨_, rfl⟩
  have hbuilt : Built p [node] m ((m.issue.link p node.name inode).set m.heapNext mark) := by
    rw [hinode]
    exact built_create h.inv hp hc
  have hnext : ((m.issue.link p node.name inode).set m.heapNext mark).nextInodeId = m.nextInodeId + 1 := rfl
  have hcount : ((m.issue.link p node.name inode).set m.heapNext mark).heapNext = m.heapNext + 1 := rfl
  have hways : ∀ Q, ((m.issue.link p node.name inode).set m.heapNext mark).wayFrom d Q =
      if Q = P ++ [node.name] then some m.heapNext else m.wayFrom d Q := fun Q => wayFrom_entry h.inv hdm hP hc
  have hnew := heap_entry_new node.name inode hp
  have hparent := heap_entry_parent node.name inode hp
  have hother : ∀ a, a < m.heapNext → a ≠ p → ((m.issue.link p node.name inode).set m.heapNext mark).heap a = m.heap a := by
    intro a ha hap
    rw [heap_set_ne (Nat.ne_of_lt ha)]
    exact heap_link_other ha hap
  rw [← hinode]
  generalize (m.issue.link p node.name inode).set m.heapNext mark = m' at hbuilt hnext hcount hways hnew hparent hother ⊢
  -- A dentry that was there changes at most in its children.
  have hheap : ∀ a, a < m.heapNext → m'.heap a = { m.heap a with children := (m'.heap a).children } := by
    intro a ha
    by_cases hap : a = p
    · rw [hap, hparent]
    · rw [hother a ha hap]
  have hkeep : ∀ {Q a}, m.wayFrom d Q = some a → m'.wayFrom d Q = some a := by
    intro Q a hQ
    rw [hways, if_neg]
    · exact hQ
    · rintro rfl
      cases hq.symm.trans hQ
  exact {
    inv := hbuilt.inv
    grow := h.grow.trans hbuilt.grow
    next := hnext ▸ Nat.le_succ_of_le h.next
    ways := fun Q a hQ => hkeep (h.ways Q a hQ)
    origin := fun Q a hQ hnone => by
      by_cases hQP : Q = P ++ [node.name]
      · exact ⟨node, List.mem_append_right _ (List.mem_singleton.mpr (by rw [hQP]))⟩
      · rw [hways, if_neg hQP] at hQ
        obtain ⟨node', hnode'⟩ := h.origin Q a hQ hnone
        exact ⟨node', List.mem_append_left _ hnode'⟩
    updated := fun P' node' a hmem ha => by
      rcases mem_concat hmem with hmem | ⟨rfl, rfl⟩
      · rw [hheap a (wayFrom_allocated h.inv hdm (h.ways P' a ha)).1, h.updated P' node' a hmem ha]
      · cases hq₀.symm.trans ha
    created := fun P' node' hmem hnone => by
      rcases mem_concat hmem with hmem | ⟨rfl, rfl⟩
      · obtain ⟨a, ha, hle, hino, hdir, hsynced⟩ := h.created P' node' hmem hnone
        refine ⟨a, hkeep ha, hle, ?_⟩
        rw [hheap a (wayFrom_allocated h.inv hdm ha).1]
        exact ⟨hino, hdir, hsynced⟩
      · refine ⟨m.heapNext, by rw [hways, if_pos rfl], h.grow.next, ?_⟩
        rw [hnew, hinode]
        exact ⟨h.next, MetaImpl.objInode_kind, rfl⟩
    made := fun a ha ha' => by
      rcases Nat.lt_or_ge a m.heapNext with hlt | hge
      · obtain ⟨P', node', hmem, hnone, hP'⟩ := h.made a ha hlt
        exact ⟨P', node', List.mem_append_left _ hmem, hnone, hkeep hP'⟩
      · obtain rfl : a = m.heapNext := Nat.le_antisymm (Nat.lt_succ_iff.mp (Nat.lt_of_lt_of_eq ha' hcount)) hge
        exact ⟨P ++ [node.name], node, List.mem_append_right _ (List.mem_singleton_self _), hq₀, by rw [hways, if_pos rfl]⟩
    root := by rw [hheap d hdm, h.root]
    others := fun a ha hne hall => by
      have ham := Nat.lt_of_lt_of_le ha h.grow.next
      have hap : a ≠ p := by
        rintro rfl
        rcases hnamed with rfl | ⟨node', hnode'⟩
        · exact hne (Option.some.inj hP).symm
        · exact hall P node' (List.mem_append_left _ hnode') (h.old_way hP ha)
      rw [hother a ham hap]
      exact h.others a ha hne fun P' node' hmem => hall P' node' (List.mem_append_left _ hmem) }

end

/-! ### The run -/

/-- One turn of the loop: the node is merged, and after it the children of a directory. -/
theorem run_buildChild_node (now : Timespec) (name : Str) (isDir : Bool) (children : List FTreeNode) (oinfo : ObjInfo)
    (hm : Inv m) (hp : p < m.heapNext) : ∃ c, ((m.merge now p (.mk name isDir children oinfo)).heap p).getChild name = some c ∧
      buildChild now p (.mk name isDir children oinfo) m = (if isDir then do
          buildChildren now c children
          markSynced c
        else pure () : LocalM Unit) (m.merge now p (.mk name isDir children oinfo)) := by
  have hmark : ∀ (m : LocalMemMeta) c, (if isDir then do
      markSynced c
      buildChildren now c children
      markSynced c
    else markSynced c : LocalM Unit) m = (if isDir then do
      buildChildren now c children
      markSynced c
    else pure () : LocalM Unit) (m.set c mark) := by
    intro m c
    cases isDir with
    | false => rfl
    | true => exact bind_ok run_markSynced
  rw [buildChild, bind_ok run_load]
  simp only [mergeChild, merge, FTreeNode.name, FTreeNode.isDir, FTreeNode.oinfo]
  cases hc : (m.heap p).getChild name with
  | none =>
    have hcreate : createDentryFromObj now (m.heap p).inode.ino name oinfo isDir m =
        .ok m.heapNext (m.issue.link p name (m.objInode now oinfo isDir)) := run_createDentryFromObj (hm.index p hp) hp
    refine ⟨m.heapNext, ?_, ?_⟩
    · rw [heap_entry_parent name _ hp, Dentry.getChild, AList.lookup_insert]
    · simp only []
      rw [bind_ok hcreate, hmark]
  | some c =>
    have hupdate : (do
        store c fun d => d.update oinfo.size oinfo.ctime oinfo.mtime
        pure c : LocalM Addr) m = .ok c (m.set c fun d => d.update oinfo.size oinfo.ctime oinfo.mtime) := rfl
    refine ⟨c, ?_, ?_⟩
    · have hne : p ≠ c := Nat.ne_of_lt (hm.child p _ c hp hc).1
      rw [heap_set_ne hne]
      exact hc
    · simp only []
      rw [bind_ok hupdate, hmark, set_set]
      rfl

theorem set_mark (h : (m.heap a).synced = true) : m.set a mark = m := by
  have hmark : mark (m.heap a) = m.heap a := by
    unfold mark
    rw [← h]
  rw [set, hmark, Function.update_eq_self]

/-- A dentry that was merged is marked. -/
theorem Merging.synced (h : Merging now m₀ d es m) (hmem : (P, node) ∈ es) (ha : m.wayFrom d P = some a) :
    (m.heap a).synced = true := by
  cases hold : m₀.wayFrom d P with
  | some b =>
    obtain rfl := Option.some.inj ((h.ways P b hold).symm.trans ha)
    rw [h.updated P node b hmem hold]
    rfl
  | none =>
    obtain ⟨b, hb, -, -, -, hs⟩ := h.created P node hmem hold
    obtain rfl := Option.some.inj (hb.symm.trans ha)
    exact hs

theorem Merging.merge (h : Merging now m₀ d es m) (hm₀ : Inv m₀) (hd : d < m₀.heapNext) (hP : m.wayFrom d P = some p) (hnamed : P = [] ∨ ∃ node, (P, node) ∈ es)
    (hfresh : ∀ e ∈ es, e.1 ≠ P ++ [node.name]) : Merging now m₀ d (es ++ [(P ++ [node.name], node)]) (m.merge now p node) := by
  unfold LocalMemMeta.merge
  split
  · exact h.update hm₀ hd hP hfresh ‹_›
  · exact h.create hd hP hnamed ‹_›

/-- A merge of one node leaves every way. -/
theorem Built.way (h : Built p nodes m m') (hm : Inv m) (hd : d < m.heapNext) (hP : m.wayFrom d P = some a) :
    m'.wayFrom d P = some a := by
  induction P using List.reverseRecOn generalizing a with
  | nil => exact hP
  | append_singleton P n ih =>
    obtain ⟨b, hb, hc⟩ := walk_concat_some hP
    rw [wayFrom, walk_concat, show Lib.walk _ d P = some b from ih hb, Option.bind_some]
    by_cases hbp : b = p
    · exact hbp ▸ h.child n a (hbp ▸ hc)
    · rw [Dentry.getChild, h.others b (wayFrom_allocated hm hd hb).1 hbp]
      exact hc

mutual

/-- The loop over the children of the dentry at `P`, which meets no path twice. -/
theorem run_mergeAll (hm₀ : Inv m₀) (hd : d < m₀.heapNext) : ∀ (nodes : List FTreeNode) {P : List Str} {p : Addr}
    {es : List (List Str × FTreeNode)} {m : LocalMemMeta}, Merging now m₀ d es m → m.wayFrom d P = some p → (P = [] ∨ ∃ node, (P, node) ∈ es) → KeyedAll nodes →
    (∀ node ∈ nodes, ∀ e ∈ es, ¬ P ++ [node.name] <+: e.1) →
    ∃ m', buildChildren now p nodes m = .ok () m' ∧ Merging now m₀ d (es ++ namedAll P nodes) m' ∧
      ∀ Q a, m.wayFrom d Q = some a → m'.wayFrom d Q = some a
  | [], P, p, es, m, h, _, _, _, _ =>
    ⟨m, by rw [buildChildren]; rfl, by rw [namedAll, List.append_nil]; exact h, fun _ _ hQ => hQ⟩
  | node :: rest, P, p, es, m, h, hP, hnamed, hk, hfresh => by
    rw [KeyedAll] at hk
    obtain ⟨m₁, hrun₁, h₁, hways₁⟩ := run_mergeOne hm₀ hd node h hP hnamed hk.1 (hfresh node (List.mem_cons_self ..))
    have hfresh₁ : ∀ node' ∈ rest, ∀ e ∈ es ++ named P node, ¬ P ++ [node'.name] <+: e.1 := by
      intro node' hnode' e he hpre
      rcases List.mem_append.mp he with he | he
      · exact hfresh node' (List.mem_cons_of_mem _ hnode') e he hpre
      · have hsame : P ++ [node'.name] = P ++ [node.name] := by
          refine List.IsPrefix.eq_of_length (List.prefix_of_prefix_length_le hpre (named_under he) ?_) ?_ <;> simp
        exact hk.2.1 node' hnode' (List.singleton_inj.mp (List.append_cancel_left hsame))
    obtain ⟨m₂, hrun₂, h₂, hways₂⟩ := run_mergeAll hm₀ hd rest h₁ (hways₁ P p hP)
      (hnamed.imp_right fun ⟨node', hnode'⟩ => ⟨node', List.mem_append_left _ hnode'⟩) hk.2.2 hfresh₁
    refine ⟨m₂, ?_, ?_, fun Q a hQ => hways₂ Q a (hways₁ Q a hQ)⟩
    · rw [buildChildren, bind_ok hrun₁, hrun₂]
    · rw [namedAll, ← List.append_assoc]
      exact h₂

theorem run_mergeOne (hm₀ : Inv m₀) (hd : d < m₀.heapNext) : ∀ (node : FTreeNode) {P : List Str} {p : Addr}
    {es : List (List Str × FTreeNode)} {m : LocalMemMeta}, Merging now m₀ d es m → m.wayFrom d P = some p → (P = [] ∨ ∃ node, (P, node) ∈ es) → Keyed node →
    (∀ e ∈ es, ¬ P ++ [node.name] <+: e.1) →
    ∃ m', buildChild now p node m = .ok () m' ∧ Merging now m₀ d (es ++ named P node) m' ∧
      ∀ Q a, m.wayFrom d Q = some a → m'.wayFrom d Q = some a
  | .mk name isDir children oinfo, P, p, es, m, h, hP, hnamed, hk, hfresh => by
    have hdm := Nat.lt_of_lt_of_le hd h.grow.next
    have hp := (wayFrom_allocated h.inv hdm hP).1
    have hfresh₁ : ∀ e ∈ es, e.1 ≠ P ++ [(FTreeNode.mk name isDir children oinfo).name] :=
      fun e he heq => hfresh e he (heq ▸ List.prefix_rfl)
    have h₁ : Merging now m₀ d (es ++ [(P ++ [name], .mk name isDir children oinfo)])
        (m.merge now p (.mk name isDir children oinfo)) := h.merge hm₀ hd hP hnamed hfresh₁
    have hways₁ : ∀ Q a, m.wayFrom d Q = some a → (m.merge now p (.mk name isDir children oinfo)).wayFrom d Q = some a :=
      fun Q a hQ => (built_merge now _ h.inv hp).way h.inv hdm hQ
    obtain ⟨c, hc, hrun⟩ := run_buildChild_node now name isDir children oinfo h.inv hp
    have hq : (m.merge now p (.mk name isDir children oinfo)).wayFrom d (P ++ [name]) = some c := by
      rw [wayFrom, walk_concat, show Lib.walk _ d P = some p from hways₁ P p hP]
      exact hc
    cases isDir with
    | false => exact ⟨_, hrun, h₁, hways₁⟩
    | true =>
      have hmem : (P ++ [name], FTreeNode.mk name true children oinfo) ∈ es ++ [(P ++ [name], .mk name true children oinfo)] :=
        List.mem_append_right _ (List.mem_singleton_self _)
      have hfresh₂ : ∀ node ∈ children, ∀ e ∈ es ++ [(P ++ [name], FTreeNode.mk name true children oinfo)],
          ¬ P ++ [name] ++ [node.name] <+: e.1 := by
        intro node _ e he hpre
        rcases List.mem_append.mp he with he | he
        · exact hfresh e he ((List.prefix_append _ _).trans hpre)
        · rw [List.mem_singleton.mp he] at hpre
          have := hpre.length_le
          simp at this
      rw [Keyed] at hk
      obtain ⟨m₂, hrun₂, h₂, hways₂⟩ := run_mergeAll hm₀ hd children h₁ hq (.inr ⟨_, hmem⟩) hk hfresh₂
      refine ⟨m₂, ?_, ?_, fun Q a hQ => hways₂ Q a (hways₁ Q a hQ)⟩
      · rw [hrun, if_pos rfl, bind_ok hrun₂]
        exact congrArg (Result.ok ()) (set_mark (h₂.synced (List.mem_append_left _ hmem) (hways₂ _ c hq)))
      · rw [named, if_pos rfl, List.append_cons]
        exact h₂

end

/-! ### The whole merge -/

/-- What the merge of a tree under `d` makes of `m`, when `es` are the nodes of the tree with their paths. -/
structure Merged (m : LocalMemMeta) (d : Addr) (es : List (List Str × FTreeNode)) (m' : LocalMemMeta) : Prop where
  /-- The paths that were missing, and no others, are added. -/
  paths : ∀ P, (m'.wayFrom d P).isSome ↔ (m.wayFrom d P).isSome ∨ ∃ node, (P, node) ∈ es
  added : ∀ P node, (P, node) ∈ es → m.wayFrom d P = none → ∃ a, m'.wayFrom d P = some a ∧ m.heapNext ≤ a ∧
    (m'.heap a).isDir = node.isDir ∧ (m'.heap a).inode.ino ∉ m.issued ∧ m'.lookup (m'.heap a).inode.ino = some a
  only : ∀ a, m.heapNext ≤ a → a < m'.heapNext → ∃ P node, (P, node) ∈ es ∧ m.wayFrom d P = none ∧ m'.wayFrom d P = some a
  kept : ∀ a, a < m.heapNext → (m'.heap a).inode.ino = (m.heap a).inode.ino ∧ (m'.heap a).parent = (m.heap a).parent ∧
    ∀ n c, (m.heap a).getChild n = some c → (m'.heap a).getChild n = some c
  overwritten : ∀ P node a, (P, node) ∈ es → m.wayFrom d P = some a →
    (m'.heap a).inode = ((m.heap a).update node.oinfo.size node.oinfo.ctime node.oinfo.mtime).inode
  spared : ∀ a, a < m.heapNext → (∀ P node, (P, node) ∈ es → m.wayFrom d P ≠ some a) → (m'.heap a).inode = (m.heap a).inode
  synced : ∀ a, a < m'.heapNext → ((m'.heap a).synced = true ↔
    a < m.heapNext ∧ (m.heap a).synced = true ∨ a = d ∨ ∃ e ∈ es, m'.wayFrom d e.1 = some a)
  rest : ∀ a, a < m.heapNext → m'.heap a =
    { m.heap a with inode := (m'.heap a).inode, synced := (m'.heap a).synced, children := (m'.heap a).children }
  untouched : ∀ a, a < m.heapNext → a ≠ d → (∀ P node, (P, node) ∈ es → m.wayFrom d P ≠ some a) → m'.heap a = m.heap a
  index : ∀ i a, m'.lookup i = some a ↔
    m.lookup i = some a ∨ (m.heapNext ≤ a ∧ a < m'.heapNext) ∧ i = (m'.heap a).inode.ino
  root : m'.rootDentry = m.rootDentry

/-- A dentry that was there is the directory, one that a node names, or as it was. -/
theorem Merging.cases_old (h : Merging now m₀ d es m) (ha : a < m₀.heapNext) :
    a = d ∨ (∃ P node, (P, node) ∈ es ∧ m₀.wayFrom d P = some a) ∨
      a ≠ d ∧ (∀ P node, (P, node) ∈ es → m₀.wayFrom d P ≠ some a) ∧ m.heap a = m₀.heap a := by
  by_cases hroot : a = d
  · exact .inl hroot
  · by_cases hnamed : ∃ P node, (P, node) ∈ es ∧ m₀.wayFrom d P = some a
    · exact .inr (.inl hnamed)
    · have hall : ∀ P node, (P, node) ∈ es → m₀.wayFrom d P ≠ some a := fun P node hmem hP => hnamed ⟨P, node, hmem, hP⟩
      exact .inr (.inr ⟨hroot, hall, h.others a ha hroot hall⟩)

/-- A child on a way stays. -/
theorem Merging.child (h : Merging now m₀ d es m) (hP : m₀.wayFrom d P = some a) (hc : (m₀.heap a).getChild n = some c) :
    (m.heap a).getChild n = some c := by
  have hway : m₀.wayFrom d (P ++ [n]) = some c := by
    rw [wayFrom, walk_concat, show Lib.walk _ d P = some a from hP]
    exact hc
  obtain ⟨b, hb, hc'⟩ := walk_concat_some (h.ways _ c hway)
  obtain rfl := Option.some.inj ((h.ways P a hP).symm.trans hb)
  exact hc'

theorem Merging.merged (h : Merging now m₀ d es m) (hm₀ : Inv m₀) (hd : d < m₀.heapNext) : Merged m₀ d es m where
  paths P := by
    constructor
    · intro hP
      obtain ⟨a, ha⟩ := Option.isSome_iff_exists.mp hP
      cases hold : m₀.wayFrom d P with
      | some b => exact .inl rfl
      | none => exact .inr (h.origin P a ha hold)
    · rintro (hP | ⟨node, hnode⟩)
      · obtain ⟨a, ha⟩ := Option.isSome_iff_exists.mp hP
        exact Option.isSome_iff_exists.mpr ⟨a, h.ways P a ha⟩
      · cases hold : m₀.wayFrom d P with
        | some b => exact Option.isSome_iff_exists.mpr ⟨b, h.ways P b hold⟩
        | none =>
          obtain ⟨a, ha, -⟩ := h.created P node hnode hold
          exact Option.isSome_iff_exists.mpr ⟨a, ha⟩
  added P node hnode hnone := by
    obtain ⟨a, ha, hle, hino, hdir, -⟩ := h.created P node hnode hnone
    have halloc := (wayFrom_allocated h.inv (Nat.lt_of_lt_of_le hd h.grow.next) ha).1
    exact ⟨a, ha, hle, hdir, fun hmem => Nat.lt_irrefl _ (Nat.lt_of_lt_of_le (hm₀.issuedLt _ hmem) hino), h.inv.index a halloc⟩
  only := h.made
  kept a ha := by
    refine ⟨h.grow.ino a ha, h.grow.parent a ha, fun n c hc => ?_⟩
    rcases h.cases_old ha with rfl | ⟨P, node, hnode, hP⟩ | ⟨-, -, hsame⟩
    · exact h.child walk_nil hc
    · exact h.child hP hc
    · rw [hsame]
      exact hc
  overwritten P node a hnode ha := by
    rw [h.updated P node a hnode ha]
    rfl
  spared a ha hall := by
    rcases h.cases_old ha with rfl | ⟨P, node, hnode, hP⟩ | ⟨-, -, hsame⟩
    · rw [h.root]
      rfl
    · exact absurd hP (hall P node hnode)
    · rw [hsame]
  synced a ha := by
    rcases Nat.lt_or_ge a m₀.heapNext with hlt | hge
    · rcases h.cases_old hlt with rfl | ⟨P, node, hnode, hP⟩ | ⟨hne, hall, hsame⟩
      · refine iff_of_true ?_ (.inr (.inl rfl))
        rw [h.root]
        rfl
      · have hway := h.ways P a hP
        exact iff_of_true (h.synced hnode hway) (.inr (.inr ⟨_, hnode, hway⟩))
      · rw [hsame]
        constructor
        · exact fun hs => .inl ⟨hlt, hs⟩
        · rintro (⟨-, hs⟩ | rfl | ⟨e, he, hway⟩)
          · exact hs
          · exact absurd rfl hne
          · exact absurd (h.old_way hway hlt) (hall e.1 e.2 he)
    · obtain ⟨P, node, hnode, -, hway⟩ := h.made a hge ha
      exact iff_of_true (h.synced hnode hway) (.inr (.inr ⟨_, hnode, hway⟩))
  rest a ha := by
    rcases h.cases_old ha with rfl | ⟨P, node, hnode, hP⟩ | ⟨-, -, hsame⟩
    · rw [h.root]
      rfl
    · rw [h.updated P node a hnode hP]
      rfl
    · rw [hsame]
  untouched := h.others
  index i a := by
    constructor
    · intro hi
      obtain ⟨halloc, hino⟩ := h.inv.indexed i a hi
      rcases Nat.lt_or_ge a m₀.heapNext with hlt | hge
      · rw [← hino, h.grow.ino a hlt]
        exact .inl (hm₀.index a hlt)
      · exact .inr ⟨⟨hge, halloc⟩, hino.symm⟩
    · rintro (hi | ⟨⟨-, halloc⟩, rfl⟩)
      · exact h.grow.index i a hi
      · exact h.inv.index a halloc
  root := h.grow.root

end LocalMemMeta

namespace MetaImpl
open LocalMemMeta

/-- Any tree whose children are keyed by their names merges under any indexed dentry. -/
theorem build_dentries_merges {opt : MetaOpt} {m : LocalMemMeta} (h : Reachable opt m) {ino : InodeID} {d : Addr}
    (hd : m.lookup ino = some d) (now : Timespec) {nodes : List FTreeNode} (hk : KeyedAll nodes) :
    ∃ m', buildDentries now ino nodes m = .ok () m' ∧ Merged m d (namedAll [] nodes) m' := by
  have hdm := (h.inv.indexed _ _ hd).1
  obtain ⟨m', hrun, hmerging, -⟩ := run_mergeAll h.inv hdm nodes (.start h.inv now d) walk_nil (.inl rfl) hk nofun
  refine ⟨m', ?_, hmerging.merged h.inv hdm⟩
  have hget : LocalMemMeta.getDentry ino m = .ok (some d) m := congrArg (Result.ok · m) hd
  rw [buildDentries, bind_ok hget]
  dsimp only
  rw [bind_ok run_markSynced]
  exact hrun

/-- A tree of three levels. -/
def threeLevels : List FTreeNode :=
  [.mk ['a'] true [.mk ['b'] true [.mk ['f'] false [] ObjInfo.zero] ObjInfo.zero, .mk ['f'] false [] ObjInfo.zero] ObjInfo.zero]

/-- The cache has the directory `a` already. -/
def cachedDir : LocalMemMeta := lookedUpCache ['a'] (Log.holding ['a', '/', 'f'])

theorem build_dentries_merges_threeLevels : (cachedDir.heap 0).getChild ['a'] = some 1 ∧
    ∃ m', buildDentries ⟨0, 0⟩ ROOT_INODE_ID threeLevels cachedDir = .ok () m' ∧ Merged cachedDir 0 (namedAll [] threeLevels) m' := by
  have hk : KeyedAll threeLevels := by simp [threeLevels, KeyedAll, Keyed, FTreeNode.name]
  exact ⟨by decide +kernel, build_dentries_merges (reachable_lookedUpCache _ _) (by decide +kernel) ⟨0, 0⟩ hk⟩

example : (namedAll [] threeLevels).map Prod.fst = [[['a']], [['a'], ['b']], [['a'], ['b'], ['f']], [['a'], ['f']]] := by
  decide

end MetaImpl

end Catfs
