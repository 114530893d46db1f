import Catfs.Theorems.LookupListing

/-! # How a listing is cut into pages

On one page a file takes the place of a directory of its name. When the directory comes on a later page than the file,
it is merged into the entry of the file instead and takes its size away (`refresh_cut_iff`). -/

namespace Catfs

open Lib MetaM LocalMemMeta
open EStateM (Result)

/-- What a directory shows of a child. -/
structure ChildInfo where
  isDir : Bool
  size : Nat
  ctime : Timespec
  mtime : Timespec
  deriving DecidableEq, Repr

def Dentry.info (d : Dentry) : ChildInfo :=
  { isDir := d.isDir, size := d.inode.size, ctime := d.inode.ctime, mtime := d.inode.mtime }

/-- What the child has after the node was merged, given what it had before. -/
def FTreeNode.merged (now : Timespec) (node : FTreeNode) : Option ChildInfo → ChildInfo
  | none =>
    let time := if node.isDir then now else ⟨0, 0⟩
    { isDir := node.isDir, size := node.oinfo.size, ctime := time, mtime := time }
  | some info => { info with size := node.oinfo.size, ctime := node.oinfo.ctime, mtime := node.oinfo.mtime }

namespace LocalMemMeta
variable {m m' : LocalMemMeta} {p c : Addr} {n : Str} {now : Timespec} {node : FTreeNode} {nodes : List FTreeNode}

def childInfo (m : LocalMemMeta) (p : Addr) (n : Str) : Option ChildInfo := ((m.heap p).getChild n).map fun c => (m.heap c).info

theorem childInfo_congr (hchild : (m'.heap p).getChild n = (m.heap p).getChild n)
    (hinfo : ∀ c, (m.heap p).getChild n = some c → (m'.heap c).info = (m.heap c).info) : m'.childInfo p n = m.childInfo p n := by
  rw [childInfo, childInfo, hchild]
  cases hc : (m.heap p).getChild n with
  | none => rfl
  | some c => exact congrArg some (hinfo c hc)

/-! ### What a merge shows -/

variable (now) in
theorem childInfo_merge (hm : Inv m) (hp : p < m.heapNext) (hmode : node.oinfo.mode = none) :
    (m.merge now p node).childInfo p node.name = some (node.merged now (m.childInfo p node.name)) ∧
      ∀ k, k ≠ node.name → (m.merge now p node).childInfo p k = m.childInfo p k := by
  unfold merge
  cases hc : (m.heap p).getChild node.name with
  | some c =>
    dsimp only
    have hpc := (hm.child p _ c hp hc).1
    have hparent : ((m.set c (listedAs node.oinfo)).heap p) = m.heap p := heap_set_ne (Nat.ne_of_lt hpc)
    refine ⟨?_, fun k hk => childInfo_congr (congrArg (Dentry.getChild · k) hparent) fun d hd => ?_⟩
    · rw [childInfo, childInfo, hparent, hc, Option.map_some, Option.map_some, heap_set_self]
      rfl
    · have hne : d ≠ c := by
        rintro rfl
        exact hk ((hm.child p k d hp hd).2.2.1.symm.trans (hm.child p _ d hp hc).2.2.1)
      rw [heap_set_ne hne]
  | none =>
    dsimp only
    generalize hinode : m.objInode now node.oinfo node.isDir = inode
    have hparent := heap_entry_parent node.name inode hp
    have hnew := heap_entry_new node.name inode hp
    refine ⟨?_, fun k hk => childInfo_congr ?_ fun d hd => ?_⟩
    · have hchild : (((m.issue.link p node.name inode).set m.heapNext mark).heap p).getChild node.name = some m.heapNext := by
        rw [hparent]
        exact AList.lookup_insert _
      have hkind : (Dentry.new node.name (m.objInode now node.oinfo node.isDir)).isDir = node.isDir := objInode_isDir _ hmode
      have hinfo : (Dentry.new node.name (m.objInode now node.oinfo node.isDir)).info = node.merged now none := by
        rw [Dentry.info, hkind]
        rfl
      rw [childInfo, childInfo, hc, hchild, Option.map_some, hnew, ← hinode]
      exact congrArg some hinfo
    · rw [hparent]
      exact AList.lookup_insert_ne hk
    · obtain ⟨hpd, hdn, -⟩ := hm.child p k d hp hd
      rw [heap_set_ne (Nat.ne_of_lt hdn), heap_link_other (m := m.issue) hdn (Nat.ne_of_gt hpd)]
      rfl

/-- The loop over a page merges the node of each name once. -/
theorem childInfo_buildChildren (hm : Inv m) (hp : p < m.heapNext) (hflat : ∀ node ∈ nodes, node.children = [])
    (hmode : ∀ node ∈ nodes, node.oinfo.mode = none) (hnodup : (nodes.map FTreeNode.name).Nodup)
    (hrun : buildChildren now p nodes m = .ok () m') :
    (∀ node ∈ nodes, m'.childInfo p node.name = some (node.merged now (m.childInfo p node.name))) ∧
      ∀ k, (∀ node ∈ nodes, node.name ≠ k) → m'.childInfo p k = m.childInfo p k := by
  induction nodes generalizing m with
  | nil =>
    rw [buildChildren] at hrun
    obtain ⟨-, rfl⟩ := Result.ok.inj hrun
    exact ⟨fun _ h => absurd h List.not_mem_nil, fun _ _ => rfl⟩
  | cons node rest ih =>
    have hstep := built_merge now node hm hp
    obtain ⟨hself, hothers⟩ := childInfo_merge now hm hp (hmode node (List.mem_cons_self ..))
    rw [buildChildren, bind_ok (run_buildChild hm hp (hflat node (List.mem_cons_self ..)))] at hrun
    obtain ⟨hfirst, hrest⟩ := List.nodup_cons.mp hnodup
    obtain ⟨hnodes, hnone⟩ := ih hstep.inv (Nat.lt_of_lt_of_le hp hstep.grow.next)
      (fun n hn => hflat n (List.mem_cons_of_mem _ hn)) (fun n hn => hmode n (List.mem_cons_of_mem _ hn)) hrest hrun
    have hdistinct : ∀ n ∈ rest, n.name ≠ node.name := fun n hn he => hfirst (he ▸ List.mem_map_of_mem hn)
    refine ⟨fun n hn => ?_, fun k hk => ?_⟩
    · rcases List.mem_cons.mp hn with rfl | hn
      · rw [hnone _ hdistinct, hself]
      · rw [hnodes n hn, hothers _ (hdistinct n hn)]
    · rw [hnone k fun n hn => hk n (List.mem_cons_of_mem _ hn), hothers k (hk node (List.mem_cons_self ..)).symm]

theorem childInfo_mark : (m.set p mark).childInfo p n = m.childInfo p n := by
  refine childInfo_congr ?_ fun c _ => ?_
  · rw [heap_set_self]
    rfl
  · by_cases hcp : c = p
    · rw [hcp, heap_set_self]
      rfl
    · rw [heap_set_ne hcp]

theorem childInfo_buildDentries {pino : InodeID} (hm : Inv m) (hp : m.lookup pino = some p)
    (hflat : ∀ node ∈ nodes, node.children = []) (hmode : ∀ node ∈ nodes, node.oinfo.mode = none)
    (hnodup : (nodes.map FTreeNode.name).Nodup) (hrun : buildDentries now pino nodes m = .ok () m') :
    (∀ node ∈ nodes, m'.childInfo p node.name = some (node.merged now (m.childInfo p node.name))) ∧
      ∀ k, (∀ node ∈ nodes, node.name ≠ k) → m'.childInfo p k = m.childInfo p k := by
  have hmark := built_mark hm (hm.indexed _ _ hp).1
  rw [buildDentries, bind_ok run_getDentry, hp] at hrun
  obtain ⟨hnodes, hnone⟩ := childInfo_buildChildren hmark.inv (hm.indexed _ _ hp).1 hflat hmode hnodup hrun
  refine ⟨fun node hnode => ?_, fun k hk => ?_⟩
  · rw [hnodes node hnode, childInfo_mark]
  · rw [hnone k hk, childInfo_mark]

end LocalMemMeta

/-! ### What a cut shows -/

/-- Some page of the cut has both entries. -/
def Together (cut : List (List Str)) (e e' : Str) : Prop := ∃ items ∈ cut, e ∈ items ∧ e' ∈ items

instance (cut : List (List Str)) (e e' : Str) : Decidable (Together cut e e') :=
  inferInstanceAs (Decidable (∃ items ∈ cut, e ∈ items ∧ e' ∈ items))

/-- The entries name `n`, as an object or with keys under it. -/
def NamedBy (pre : Str) (entries : List Str) (n : Str) : Prop := '/' ∉ n ∧ (pre ++ n ∈ entries ∨ n ≠ [] ∧ pre ++ n ++ slash ∈ entries)

/-- What a refresh shows of the name `n` when the pages of the listing of `pre` are those of the cut. -/
def Bucket.cutInfo (b : Bucket) (pre : Str) (now : Timespec) (cut : List (List Str)) (n : Str) : Option ChildInfo :=
  if '/' ∈ n then none
  else if pre ++ n ∈ cut.flatten then
    let overwritten := n ≠ [] ∧ pre ++ n ++ slash ∈ cut.flatten ∧ ¬ Together cut (pre ++ n) (pre ++ n ++ slash)
    some { isDir := false, size := if overwritten then 0 else ((b (pre ++ n)).getD []).length, ctime := ⟨0, 0⟩, mtime := ⟨0, 0⟩ }
  else if n ≠ [] ∧ pre ++ n ++ slash ∈ cut.flatten then some { isDir := true, size := 0, ctime := now, mtime := now }
  else none

section
variable {b : Bucket} {pre n : Str} {now : Timespec} {cut : List (List Str)} {items es : List Str} {e e' : Str}

theorem together_concat : Together (cut ++ [items]) e e' ↔ Together cut e e' ∨ e ∈ items ∧ e' ∈ items := by
  simp [Together, or_and_right, exists_or]

theorem Together.mem (h : Together cut e e') : e ∈ cut.flatten ∧ e' ∈ cut.flatten := by
  obtain ⟨items, hitems, he, he'⟩ := h
  exact ⟨List.mem_flatten.mpr ⟨items, hitems, he⟩, List.mem_flatten.mpr ⟨items, hitems, he'⟩⟩

theorem mem_flatten_concat : e ∈ (cut ++ [items]).flatten ↔ e ∈ cut.flatten ∨ e ∈ items := by simp

/-- A page of a sorted listing has no entry twice, and none that comes before those of the pages before it. -/
theorem lt_of_pages (h : (cut ++ [items]).flatten.Pairwise (· < ·)) (he : e ∈ cut.flatten) (he' : e' ∈ items) : e < e' := by
  rw [List.flatten_append, List.flatten_singleton] at h
  exact (List.pairwise_append.mp h).2.2 e he e' he'

theorem namedBy_append {es es' : List Str} : NamedBy pre (es ++ es') n ↔ NamedBy pre es n ∨ NamedBy pre es' n := by
  simp only [NamedBy, List.mem_append]
  tauto

theorem cutInfo_nil : b.cutInfo pre now [] n = none := by
  simp [Bucket.cutInfo]

/-- A page that does not name `n` shows nothing new of it. -/
theorem cutInfo_unnamed (h : ¬ NamedBy pre items n) : b.cutInfo pre now (cut ++ [items]) n = b.cutInfo pre now cut n := by
  by_cases hslash : '/' ∈ n
  · rw [Bucket.cutInfo, if_pos hslash, Bucket.cutInfo, if_pos hslash]
  have hkey : pre ++ n ∉ items := fun hkey => h ⟨hslash, .inl hkey⟩
  have hdir : n = [] ∨ pre ++ n ++ slash ∉ items := or_iff_not_imp_left.mpr fun hne hdir => h ⟨hslash, .inr ⟨hne, hdir⟩⟩
  have hflat : pre ++ n ∈ (cut ++ [items]).flatten ↔ pre ++ n ∈ cut.flatten := by
    rw [mem_flatten_concat, or_iff_left hkey]
  have htogether : Together (cut ++ [items]) (pre ++ n) (pre ++ n ++ slash) ↔ Together cut (pre ++ n) (pre ++ n ++ slash) := by
    rw [together_concat, or_iff_left fun h => hkey h.1]
  rcases hdir with rfl | hdir
  · simp only [Bucket.cutInfo, hflat, ne_eq, not_true_eq_false, false_and]
  · have hflat' : pre ++ n ++ slash ∈ (cut ++ [items]).flatten ↔ pre ++ n ++ slash ∈ cut.flatten := by
      rw [mem_flatten_concat, or_iff_left hdir]
    simp only [Bucket.cutInfo, hflat, hflat', htogether]

variable (hs : (cut ++ [items]).flatten.Pairwise (· < ·)) (hn : '/' ∉ n)
include hs hn

variable (b now) in
/-- A page that names an object shows it as a file. -/
theorem cutInfo_file (hkey : pre ++ n ∈ items) : b.cutInfo pre now cut n = none ∧
    b.cutInfo pre now (cut ++ [items]) n =
      some { isDir := false, size := ((b (pre ++ n)).getD []).length, ctime := ⟨0, 0⟩, mtime := ⟨0, 0⟩ } := by
  have hold : pre ++ n ∉ cut.flatten := fun h => lt_irrefl _ (lt_of_pages hs h hkey)
  have hdir : pre ++ n ++ slash ∉ cut.flatten := fun h =>
    lt_asymm (lt_of_pages hs h hkey) (lt_append (by simp [slash]))
  constructor
  · rw [Bucket.cutInfo, if_neg hn, if_neg hold, if_neg fun h => hdir h.2]
  · rw [Bucket.cutInfo, if_neg hn, if_pos (mem_flatten_concat.mpr (.inr hkey))]
    refine congrArg some ?_
    rw [if_neg]
    rintro ⟨-, hmem, htogether⟩
    exact htogether (together_concat.mpr (.inr ⟨hkey, (mem_flatten_concat.mp hmem).resolve_left hdir⟩))

/-- A page that names the keys under `n` alone shows a directory, or takes the size of a file that is there. -/
theorem cutInfo_dir (hne : n ≠ []) (hkey : pre ++ n ∉ items) (hdir : pre ++ n ++ slash ∈ items) :
    b.cutInfo pre now (cut ++ [items]) n = some ((FTreeNode.mk n true [] ObjInfo.zero).merged now (b.cutInfo pre now cut n)) := by
  have hold : pre ++ n ++ slash ∉ cut.flatten := fun h => lt_irrefl _ (lt_of_pages hs h hdir)
  have hmem : pre ++ n ++ slash ∈ (cut ++ [items]).flatten := mem_flatten_concat.mpr (.inr hdir)
  have hapart : ¬ Together (cut ++ [items]) (pre ++ n) (pre ++ n ++ slash) := by
    rw [together_concat]
    rintro (h | h)
    · exact hold h.mem.2
    · exact hkey h.1
  by_cases hfile : pre ++ n ∈ cut.flatten
  · rw [Bucket.cutInfo, if_neg hn, if_pos (mem_flatten_concat.mpr (.inl hfile)), Bucket.cutInfo, if_neg hn, if_pos hfile]
    simp only [if_pos (show n ≠ [] ∧ _ ∧ _ from ⟨hne, hmem, hapart⟩)]
    rfl
  · have hnot : pre ++ n ∉ (cut ++ [items]).flatten := fun h => (mem_flatten_concat.mp h).elim hfile hkey
    rw [Bucket.cutInfo, if_neg hn, if_neg hnot, if_pos ⟨hne, hmem⟩, Bucket.cutInfo, if_neg hn, if_neg hfile,
      if_neg fun h => hold h.2]
    rfl

end

section
variable {b : Bucket} {pre : Str} {now : Timespec} {cut cut' : List (List Str)} (hflat : cut.flatten = cut'.flatten)
include hflat

/-- The cut changes no more than sizes. -/
theorem cutInfo_same (n : Str) : (b.cutInfo pre now cut n).map (fun info => { info with size := 0 }) =
    (b.cutInfo pre now cut' n).map fun info => { info with size := 0 } := by
  rw [Bucket.cutInfo, Bucket.cutInfo, hflat]
  split
  · rfl
  · split
    · rfl
    · rfl

variable (now) in
/-- Two cuts show the same of a name unless they part a file that is not empty from the keys under its name, and only one
    of them does. -/
theorem cutInfo_eq_iff (hes : b.Entries pre cut.flatten) : (∀ n, b.cutInfo pre now cut n = b.cutInfo pre now cut' n) ↔
    ∀ n body, n ≠ [] → '/' ∉ n → b (pre ++ n) = some body → body ≠ [] → (∃ rest, b.Holds (pre ++ n ++ slash ++ rest)) →
      (Together cut (pre ++ n) (pre ++ n ++ slash) ↔ Together cut' (pre ++ n) (pre ++ n ++ slash)) := by
  constructor
  · intro h n body hne hn hbody hnil hbelow
    have hkey : pre ++ n ∈ cut.flatten := (hes.key hn).mpr (Option.isSome_iff_exists.mpr ⟨body, hbody⟩)
    have hdir : pre ++ n ++ slash ∈ cut.flatten := (hes.dir hn).mpr hbelow
    have hinfo := h n
    rw [Bucket.cutInfo, if_neg hn, if_pos hkey, Bucket.cutInfo, if_neg hn, if_pos (hflat ▸ hkey)] at hinfo
    have hsize := congrArg ChildInfo.size (Option.some.inj hinfo)
    dsimp only at hsize
    have hlen : body.length ≠ 0 := fun h => hnil (List.length_eq_zero_iff.mp h)
    rw [hbody, ← hflat, Option.getD_some] at hsize
    simp only [ne_eq, hne, not_false_eq_true, hdir, true_and] at hsize
    by_cases h₁ : Together cut (pre ++ n) (pre ++ n ++ slash) <;> by_cases h₂ : Together cut' (pre ++ n) (pre ++ n ++ slash)
    · exact iff_of_true h₁ h₂
    · rw [if_neg (not_not.mpr h₁), if_pos h₂] at hsize
      exact absurd hsize hlen
    · rw [if_pos h₁, if_neg (not_not.mpr h₂)] at hsize
      exact absurd hsize.symm hlen
    · exact iff_of_false h₁ h₂
  · intro h n
    rw [Bucket.cutInfo, Bucket.cutInfo, ← hflat]
    by_cases hn : '/' ∈ n
    · rw [if_pos hn, if_pos hn]
    rw [if_neg hn, if_neg hn]
    by_cases hkey : pre ++ n ∈ cut.flatten
    · rw [if_pos hkey, if_pos hkey]
      obtain ⟨body, hbody⟩ := Option.isSome_iff_exists.mp ((hes.key hn).mp hkey)
      by_cases hnil : body = []
      · have hlen : ((b (pre ++ n)).getD []).length = 0 := by
          rw [hbody, hnil]
          rfl
        simp only [hlen, ite_self]
      · by_cases hdir : n ≠ [] ∧ pre ++ n ++ slash ∈ cut.flatten
        · have htogether := h n body hdir.1 hn hbody hnil ((hes.dir hn).mp hdir.2)
          simp only [htogether]
        · simp only [← and_assoc, hdir, false_and]
    · rw [if_neg hkey, if_neg hkey]

end

namespace MetaImpl
variable {σ : Type} {c : S3Client σ} {b : Bucket} {pre marker : Str} {es items : List Str} {cut done : List (List Str)}
  {r : ListObjectsResult} {m m' : LocalMemMeta} {t t' : σ} {a : Addr} {ino : InodeID} {now : Timespec} {garbage : Garbage}
  {nodes : List FTreeNode}

/-! ### A page -/

section
variable (hl : r.Lists b pre items) (hes : b.Entries pre es) (hsub : ∀ e ∈ items, e ∈ es)
include hl

theorem lists_key {n : Str} (hn : '/' ∉ n) : (∃ o ∈ r.contents, o.key = pre ++ n) ↔ pre ++ n ∈ items := by
  rw [← List.mem_map, hl.contents, List.mem_filter]
  simp [not_isPrefix hn]

theorem lists_dir {n : Str} : pre ++ n ++ slash ∈ r.commonPrefixes ↔ pre ++ n ++ slash ∈ items := by
  rw [hl.commonPrefixes, List.mem_filter]
  simp only [isPrefix_slash, and_true]

/-- The nodes of a page name what its entries name. -/
theorem nodes_named (hn : NodesFor pre r.contents r.commonPrefixes nodes) (n : Str) (hnamed : NamedBy pre items n) :
    ∃ node ∈ nodes, node.name = n := by
  obtain ⟨hslash, hkey | ⟨hne, hdir⟩⟩ := hnamed
  · obtain ⟨o, ho, hkey⟩ := (lists_key hl hslash).mpr hkey
    obtain ⟨node, hmem, he⟩ := hn.files o ho
    exact ⟨node, hmem, List.append_cancel_left (he.symm.trans hkey)⟩
  · exact hn.dirs n hne ((lists_dir hl).mpr hdir)

include hes hsub

theorem lists_under : Under pre r := by
  refine ⟨fun o ho => ?_, fun p hp => ?_⟩
  · have hmem : o.key ∈ r.contents.map S3Object.key := List.mem_map_of_mem ho
    rw [hl.contents, List.mem_filter] at hmem
    rcases (hes.mem _).mp (hsub _ hmem.1) with ⟨k, hk, hs, -⟩ | ⟨k, hk, -⟩
    · exact ⟨k, hk, hs⟩
    · have hpre : Log.isPrefix pre o.key = true := hk ▸ isPrefix_slash
      simp [hpre] at hmem
  · rw [hl.commonPrefixes, List.mem_filter] at hp
    rcases (hes.mem _).mp (hsub _ hp.1) with ⟨k, hk, hs, -⟩ | ⟨k, hk, hs, -⟩
    · have hpre : Log.isPrefix pre p = false := hk ▸ not_isPrefix hs
      simp [hpre] at hp
    · exact ⟨k, hk, hs⟩

/-- The nodes of a page: a file for each object, and a directory for each common prefix without an object of its name. -/
theorem page_nodes (g : Str → Garbage) : ∃ nodes, buildFtree pre (pageResp g r) = some nodes ∧ NodesFor pre r.contents r.commonPrefixes nodes ∧
    ∀ node ∈ nodes, '/' ∉ node.name ∧
      (node.isDir = false ∧ pre ++ node.name ∈ items ∧ node.oinfo.size = ((b (pre ++ node.name)).getD []).length ∨
        node = .mk node.name true [] ObjInfo.zero ∧ node.name ≠ [] ∧ pre ++ node.name ∉ items ∧
          pre ++ node.name ++ slash ∈ items) := by
  have hunder := lists_under hl hes hsub
  obtain ⟨nodes, hft, hn⟩ := nodesFor_page hunder g
  obtain ⟨nodes', hft', hof, -⟩ := buildFtree_some (pageUnder_page hunder g)
  obtain rfl := Option.some.inj (hft.symm.trans hft')
  refine ⟨nodes, hft, hn, fun node hnode => ?_⟩
  have hplain := plain_nodes hn hunder node hnode
  refine ⟨hplain, ?_⟩
  rcases hn.listed node hnode with ⟨hd, hne, hprefix⟩ | ⟨hd, o, ho, hkey, hsize⟩
  · refine .inr ⟨?_, hne, fun hmem => ?_, (lists_dir hl).mp hprefix⟩
    · obtain ⟨hchildren, hrest⟩ := hof node hnode
      rcases hrest with ⟨-, hzero, -⟩ | ⟨hfile, -⟩
      · cases node
        exact congr (congr (congr rfl hd) hchildren) hzero
      · rw [hd] at hfile
        cases hfile
    · obtain ⟨o, ho, hkey⟩ := (lists_key hl hplain).mpr hmem
      exact buildFtree_over (pageUnder_page hunder g) hft node hnode hd (objInfo (g o.key) o.key o.size o.lastModified)
        (List.mem_map_of_mem ho) hkey
  · have hmem := (lists_key hl hplain).mp ⟨o, ho, hkey⟩
    obtain ⟨body, hbody⟩ := Option.isSome_iff_exists.mp ((hes.key hplain).mp (hsub _ hmem))
    refine .inl ⟨hd, hmem, ?_⟩
    rw [hsize, hl.sizes o ho body (hkey ▸ hbody), hbody]
    rfl

/-- The step lemma: what the directory shows after one more page. -/
theorem childInfo_page (hm : Inv m) (ha : m.lookup ino = some a) (hs : (done ++ [items]).flatten.Pairwise (· < ·))
    {g : Str → Garbage} (hft : buildFtree pre (pageResp g r) = some nodes) (hrun : buildDentries now ino nodes m = .ok () m') {n : Str}
    (hinfo : m.childInfo a n = b.cutInfo pre now done n) : m'.childInfo a n = b.cutInfo pre now (done ++ [items]) n := by
  obtain ⟨nodes', hft', hn, hkinds⟩ := page_nodes hl hes hsub g
  obtain rfl := Option.some.inj (hft.symm.trans hft')
  obtain ⟨hnodes, hnone⟩ := childInfo_buildDentries hm ha hn.flat hn.mode (nodup_buildFtree hft) hrun
  by_cases hnode : ∃ node ∈ nodes, node.name = n
  · obtain ⟨node, hnode, rfl⟩ := hnode
    obtain ⟨hplain, hkind⟩ := hkinds node hnode
    rw [hnodes node hnode, hinfo]
    rcases hkind with ⟨hd, hkey, hsize⟩ | ⟨he, hne, hkey, hdir⟩
    · obtain ⟨hold, hnew⟩ := cutInfo_file b now hs hplain hkey
      rw [hold, hnew, FTreeNode.merged, hd, hsize]
      rfl
    · rw [cutInfo_dir hs hplain hne hkey hdir, ← he]
  · rw [hnone n fun node hmem he => hnode ⟨node, hmem, he⟩, hinfo,
      cutInfo_unnamed fun h => hnode (nodes_named hl hn n h)]

end

/-! ### A refresh -/

/-- The run lemma: the loop lists every name of the cut, and what every page keeps of the pages so far, those that remain,
    the marker, the store and the cache holds after it. -/
theorem run_refreshLoop_pages {I : List (List Str) → List (List Str) → Str → σ → LocalMemMeta → Prop} (h : c.Cuts b pre t marker cut t')
    (hes : b.Entries pre es) (hall : (done ++ cut).flatten = es) (hm : Inv m) (ha : m.lookup ino = some a) (now : Timespec)
    (garbage : Garbage) {fuel : Nat} (hfuel : cut.length ≤ fuel)
    (hpage : ∀ {done rest : List (List Str)} {items : List Str} {marker : Str} {r : ListObjectsResult} {t t₁ : σ}
      {m m' : LocalMemMeta} {nodes : List FTreeNode}, c.listObjects (pageRequest pre marker) t = .ok r t₁ →
      r.Lists b pre items → (∀ e ∈ items, e ∈ es) → (done ++ [items]).flatten.Pairwise (· < ·) → Inv m →
      m.lookup ino = some a → buildFtree pre (pageResp (c.garbage t) r) = some nodes → buildDentries now ino nodes m = .ok () m' →
      I done (items :: rest) marker t m → I (done ++ [items]) rest r.nextMarker t₁ m')
    (hI : I done cut marker t m) : ∃ nodes m',
      (refreshLoop (s3Stor c) ino pre fuel marker).run ⟨m, t, now, garbage⟩ = .ok () ⟨m', t', now, garbage⟩ ∧
      Built a nodes m m' ∧ (∀ n, NamedBy pre cut.flatten n → ∃ node ∈ nodes, node.name = n) ∧
      ∃ marker', I (done ++ cut) [] marker' t' m' := by
  induction h generalizing m done fuel with
  | @last t t' marker r items h hr hl =>
    obtain ⟨fuel, rfl⟩ : ∃ k, fuel = k + 1 := ⟨fuel - 1, by simp only [List.length_singleton] at hfuel; omega⟩
    have hsub : ∀ e ∈ items, e ∈ es := fun e he => hall ▸ mem_flatten_concat.mpr (.inr he)
    obtain ⟨nodes, hft, hn, -⟩ := page_nodes hl hes hsub (c.garbage t)
    obtain ⟨m', hbuild, hb⟩ := run_buildDentries now hm ha hn.flat
    refine ⟨nodes, m', ?_, hb, List.flatten_singleton ▸ nodes_named hl hn, ?_⟩
    · rw [run_turn h hft hbuild, hr, if_neg Bool.false_ne_true]
    · exact ⟨_, hpage h hl hsub (hall.symm ▸ hes.sorted) hm ha hft hbuild hI⟩
  | @more t t₁ t' marker r items cut h hr hl rest ih =>
    obtain ⟨fuel, rfl⟩ : ∃ k, fuel = k + 1 := ⟨fuel - 1, by simp only [List.length_cons] at hfuel; omega⟩
    have happend : done ++ items :: cut = done ++ [items] ++ cut := by simp
    rw [happend] at hall ⊢
    have hsplit : (done ++ [items]).flatten ++ cut.flatten = es := by
      rw [← hall]
      exact List.flatten_append.symm
    have hsub : ∀ e ∈ items, e ∈ es := fun e he => hsplit ▸ List.mem_append_left _ (mem_flatten_concat.mpr (.inr he))
    have hsorted : (done ++ [items]).flatten.Pairwise (· < ·) := (List.pairwise_append.mp (hsplit.symm ▸ hes.sorted)).1
    obtain ⟨nodes, hft, hn, -⟩ := page_nodes hl hes hsub (c.garbage t)
    obtain ⟨m₁, hbuild, hb⟩ := run_buildDentries now hm ha hn.flat
    have hkept := hpage h hl hsub hsorted hm ha hft hbuild hI
    obtain ⟨nodes', m', hrun, hb', hnamed', hI'⟩ :=
      ih hall hb.inv (hb.grow.index _ _ ha) (Nat.le_of_succ_le_succ hfuel) hkept
    refine ⟨nodes ++ nodes', m', ?_, hb.trans hb', fun n hnamed => ?_, hI'⟩
    · rw [run_turn h hft hbuild, hr, if_pos rfl]
      exact hrun
    · rcases namedBy_append.mp hnamed with hnamed | hnamed
      · exact (nodes_named hl hn n hnamed).imp fun node h => ⟨List.mem_append_left _ h.1, h.2⟩
      · exact (hnamed' n hnamed).imp fun node h => ⟨List.mem_append_right _ h.1, h.2⟩

/-- What the directory shows after the pages of the cut. -/
theorem run_refreshLoop_cut (h : c.Cuts b pre t marker cut t') (hes : b.Entries pre es) (hall : (done ++ cut).flatten = es)
    (hm : Inv m) (ha : m.lookup ino = some a) (now : Timespec) (garbage : Garbage) {fuel : Nat} (hfuel : cut.length ≤ fuel) :
    ∃ nodes m', (refreshLoop (s3Stor c) ino pre fuel marker).run ⟨m, t, now, garbage⟩ = .ok () ⟨m', t', now, garbage⟩ ∧
      Built a nodes m m' ∧ (∀ n, NamedBy pre cut.flatten n → ∃ node ∈ nodes, node.name = n) ∧
      ∀ n, m.childInfo a n = b.cutInfo pre now done n → m'.childInfo a n = b.cutInfo pre now (done ++ cut) n := by
  have hpages := run_refreshLoop_pages
    (I := fun pages _ _ _ m₁ => ∀ n, m.childInfo a n = b.cutInfo pre now done n → m₁.childInfo a n = b.cutInfo pre now pages n)
    h hes hall hm ha now garbage hfuel
    (fun _ hl hsub hs hm ha hft hrun hI n hn => childInfo_page hl hes hsub hm ha hs hft hrun (hI n hn)) fun _ => id
  obtain ⟨nodes, m', hrun, hb, hnamed, -, hinfo⟩ := hpages
  exact ⟨nodes, m', hrun, hb, hnamed, hinfo⟩

/-- A refresh lists every name of the cut, and shows of a name without a cached child what the cut shows. -/
theorem run_refresh_cut (hm : Inv m) (ha : a < m.heapNext) (h : c.Cuts b (m.dirPrefix a) t [] cut t')
    (hes : b.Entries (m.dirPrefix a) cut.flatten) (now : Timespec) (garbage : Garbage) {fuel : Nat}
    (hfuel : cut.length ≤ fuel) : ∃ nodes m₁ m',
      (refreshSubDentries (s3Stor c) fuel a).run ⟨m, t, now, garbage⟩ = .ok () ⟨m', t', now, garbage⟩ ∧ Built a nodes m m₁ ∧
        Swept a m₁ m' ∧ (∀ n, NamedBy (m.dirPrefix a) cut.flatten n → ∃ node ∈ nodes, node.name = n) ∧
        ∀ n, (m.heap a).getChild n = none → m'.childInfo a n = b.cutInfo (m.dirPrefix a) now cut n := by
  have hall : ([] ++ cut).flatten = cut.flatten := rfl
  obtain ⟨nodes, m₁, hrun, hb, hnamed, hinfo⟩ := run_refreshLoop_cut h hes hall hm (hm.index a ha) now garbage hfuel
  obtain ⟨m', hsweep, hs⟩ := run_clearUnsyncDentry now hb.inv (Nat.lt_of_lt_of_le ha hb.grow.next)
  refine ⟨nodes, m₁, m', ?_, hb, hs, hnamed, fun n hnone => ?_⟩
  · rw [refreshSubDentries, Prog.run_bind_ok (run_pathWithSlash hm ha), Prog.run_bind_ok run_readDentry,
      Prog.run_bind_ok hrun]
    exact run_cache_ok hsweep
  · have hstart : m.childInfo a n = b.cutInfo (m.dirPrefix a) now [] n := by
      rw [childInfo, hnone, cutInfo_nil]
      rfl
    rw [← List.nil_append cut, ← hinfo n hstart]
    -- The child was just listed, so the sweep keeps it.
    have hkept : ∀ ch, (m₁.heap a).getChild n = some ch → (m₁.heap ch).synced = true := by
      intro ch hch
      rcases hb.origin n ch hch with hold | ⟨hnew, -⟩
      · rw [hnone] at hold
        cases hold
      · have halloc := (hb.inv.child a n ch (Nat.lt_of_lt_of_le ha hb.grow.next) hch).2.1
        exact (hb.fresh ch hnew halloc).2.2.1
    refine childInfo_congr ?_ fun ch _ => ?_
    · refine Option.ext fun ch => (hs.child a .start n ch).trans ⟨And.left, fun hch => ⟨hch, hkept ch hch⟩⟩
    · rw [Dentry.info, Dentry.info, Dentry.isDir, Dentry.isDir, hs.inode]

/-- However the listing of a directory without cached children is cut into pages, a refresh gives it children of the same
    names, kinds and times. Their sizes are the same too if and only if, for each file that is not empty and shares its
    name with a directory, both cuts have the two on one page or neither has. -/
theorem refresh_cut_iff {σ' : Type} {c' : S3Client σ'} {u u' : σ'} {cut' : List (List Str)} {opt : MetaOpt}
    (hm : Reachable opt m) (ha : a < m.heapNext) (hempty : ∀ n, (m.heap a).getChild n = none)
    (hes : b.Entries (m.dirPrefix a) es) (hcut : cut.flatten = es) (hcut' : cut'.flatten = es)
    (h : c.Cuts b (m.dirPrefix a) t [] cut t') (h' : c'.Cuts b (m.dirPrefix a) u [] cut' u') (now : Timespec)
    (garbage : Garbage) {fuel : Nat} (hfuel : cut.length ≤ fuel) (hfuel' : cut'.length ≤ fuel) : ∃ m₁ m₂,
      (refreshSubDentries (s3Stor c) fuel a).run ⟨m, t, now, garbage⟩ = .ok () ⟨m₁, t', now, garbage⟩ ∧
      (refreshSubDentries (s3Stor c') fuel a).run ⟨m, u, now, garbage⟩ = .ok () ⟨m₂, u', now, garbage⟩ ∧
      (∀ n, (m₁.childInfo a n).map (fun info => { info with size := 0 }) =
        (m₂.childInfo a n).map fun info => { info with size := 0 }) ∧
      ((∀ n, m₁.childInfo a n = m₂.childInfo a n) ↔ ∀ n body, n ≠ [] → '/' ∉ n → b (m.dirPrefix a ++ n) = some body →
        body ≠ [] → (∃ rest, b.Holds (m.dirPrefix a ++ n ++ slash ++ rest)) →
          (Together cut (m.dirPrefix a ++ n) (m.dirPrefix a ++ n ++ slash) ↔
            Together cut' (m.dirPrefix a ++ n) (m.dirPrefix a ++ n ++ slash))) := by
  subst hcut
  obtain ⟨-, -, m₁, hrun, -, -, -, hinfo⟩ := run_refresh_cut hm.inv ha h hes now garbage hfuel
  obtain ⟨-, -, m₂, hrun', -, -, -, hinfo'⟩ := run_refresh_cut hm.inv ha h' (hcut'.symm ▸ hes) now garbage hfuel'
  refine ⟨m₁, m₂, hrun, hrun', fun n => ?_, ?_⟩
  · rw [hinfo n (hempty n), hinfo' n (hempty n)]
    exact cutInfo_same hcut'.symm n
  · rw [← cutInfo_eq_iff now hcut'.symm hes]
    refine forall_congr' fun n => ?_
    rw [hinfo n (hempty n), hinfo' n (hempty n)]

/-! ### A file that shares its name with a directory -/

theorem listing_lists {log : Log} {req : ListObjectsRequest} : (log.listing req).Lists log.bucket req.pre
    (page (Log.markerOf req.marker) req.maxKeys (log.entries req.pre)) where
  contents := by
    rw [Log.listing, List.map_map]
    exact List.map_id _
  commonPrefixes := rfl
  sizes o ho body hbody := by
    rw [Log.contents_object ho, Log.s3Object, hbody]
    rfl

/-- A service that answers one entry at a time. -/
def oneByOne : S3Client Log :=
  { Log.client with listObjects := fun req log => .ok (log.listing { req with maxKeys := 1 }) log }

/-- The file `x` of one byte, and the file `y` in a directory `x`. -/
def sharedName : Log := [(.putFile ['x'] [1], true), (.putFile ['x', '/', 'y'] [], true)]

theorem entries_sharedName : sharedName.bucket.Entries [] [['x'], ['x', '/']] := by
  have hentries : sharedName.entries [] = [['x'], ['x', '/']] := by decide +kernel
  rw [← hentries]
  exact Log.bucket_entries

theorem cuts_onePage : Log.client.Cuts sharedName.bucket [] sharedName [] [[['x'], ['x', '/']]] sharedName := by
  have hpage : page (Log.markerOf []) 1000 (sharedName.entries []) = [['x'], ['x', '/']] := by decide +kernel
  refine .last rfl (by decide +kernel) ?_
  rw [← hpage]
  exact listing_lists

theorem cuts_oneByOne : oneByOne.Cuts sharedName.bucket [] sharedName [] [[['x']], [['x', '/']]] sharedName := by
  have hpage : page (Log.markerOf []) 1 (sharedName.entries []) = [['x']] := by decide +kernel
  have hpage' : page (Log.markerOf ['x']) 1 (sharedName.entries []) = [['x', '/']] := by decide +kernel
  refine .more rfl (by decide +kernel) ?_ (.last rfl (by decide +kernel) ?_)
  · rw [← hpage]
    exact listing_lists
  · rw [← hpage']
    exact listing_lists

/-- On one page with the directory the file keeps its size, and on a page of its own it loses it. -/
theorem page_cut_matters : Reachable ⟨0, 0, 60⟩ newCache ∧ (∀ n, (newCache.heap 0).getChild n = none) ∧
    sharedName.bucket.Entries (newCache.dirPrefix 0) [['x'], ['x', '/']] ∧
    Log.client.Cuts sharedName.bucket (newCache.dirPrefix 0) sharedName [] [[['x'], ['x', '/']]] sharedName ∧
    oneByOne.Cuts sharedName.bucket (newCache.dirPrefix 0) sharedName [] [[['x']], [['x', '/']]] sharedName ∧
    ((endState ((refreshSubDentries (s3Stor Log.client) 2 0).run (newWorld sharedName))).cache.childInfo 0 ['x']).map ChildInfo.size =
      some 1 ∧
    ((endState ((refreshSubDentries (s3Stor oneByOne) 2 0).run (newWorld sharedName))).cache.childInfo 0 ['x']).map ChildInfo.size =
      some 0 :=
  ⟨.new ⟨0, 0⟩, fun _ => rfl, entries_sharedName, cuts_onePage, cuts_oneByOne, by decide +kernel, by decide +kernel⟩

theorem refresh_cut_iff_sharedName : ∃ m₁ m₂,
    (refreshSubDentries (s3Stor Log.client) 2 0).run (newWorld sharedName) = .ok () ⟨m₁, sharedName, ⟨0, 0⟩, noGarbage⟩ ∧
    (refreshSubDentries (s3Stor oneByOne) 2 0).run (newWorld sharedName) = .ok () ⟨m₂, sharedName, ⟨0, 0⟩, noGarbage⟩ ∧
    (m₁.childInfo 0 ['x']).map ChildInfo.isDir = (m₂.childInfo 0 ['x']).map ChildInfo.isDir := by
  have hnew : Reachable ⟨0, 0, 60⟩ newCache := .new ⟨0, 0⟩
  have hone : [[['x'], ['x', '/']]].length ≤ 2 := by decide
  have htwo : [[['x']], [['x', '/']]].length ≤ 2 := by decide
  obtain ⟨m₁, m₂, hrun, hrun', hsame, -⟩ := refresh_cut_iff hnew Nat.one_pos (fun _ => rfl) entries_sharedName rfl rfl
    cuts_onePage cuts_oneByOne ⟨0, 0⟩ noGarbage hone htwo
  refine ⟨m₁, m₂, hrun, hrun', ?_⟩
  have hkind := congrArg (Option.map ChildInfo.isDir) (hsame ['x'])
  rwa [Option.map_map, Option.map_map] at hkind

end MetaImpl

end Catfs
