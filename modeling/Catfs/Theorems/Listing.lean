import Catfs.Bucket
import Catfs.MetaImpl

/-! # The nodes of a page

What `build_ftree_from_listobjects` makes of a page: one node for each name that the page lists. -/

namespace Catfs

namespace MetaImpl

variable {pre n : Str} {resp : ListObjectsResp} {nodes : List FTreeNode} {node : FTreeNode}

/-! ### Names out of keys -/

theorem substr_name : substr (pre ++ n) pre.length (sizeSub (pre ++ n).length pre.length) = some n := by
  simp [substr, sizeSub]

theorem substr_dirname : substr (pre ++ n ++ slash) pre.length (sizeSub (sizeSub (pre ++ n ++ slash).length pre.length) 1) =
    some n := by
  have hlen : sizeSub (sizeSub (pre ++ n ++ slash).length pre.length) 1 = n.length := by
    simp [sizeSub, slash]
  rw [hlen, List.append_assoc]
  simp [substr]

theorem mem_insert {children : List FTreeNode} {node' : FTreeNode} :
    node' ∈ node.insert children ↔ node' = node ∨ node' ∈ children ∧ node'.name ≠ node.name := by
  simp [FTreeNode.insert, or_comm]

/-! ### The page -/

theorem flat_insert {children : List FTreeNode} (hnode : node.children = [])
    (h : ∀ node ∈ children, FTreeNode.children node = []) : ∀ node' ∈ node.insert children, node'.children = [] := by
  intro node' hnode'
  rcases mem_insert.mp hnode' with rfl | ⟨hmem, -⟩
  · exact hnode
  · exact h node' hmem

theorem flat_ftreeDirs {prefixes : List Str} {children : List FTreeNode} (h : ∀ node ∈ children, FTreeNode.children node = [])
    (hrun : ftreeDirs pre prefixes children = some nodes) : ∀ node ∈ nodes, node.children = [] := by
  induction prefixes generalizing children with
  | nil =>
    cases hrun
    exact h
  | cons p rest ih =>
    rw [ftreeDirs] at hrun
    obtain ⟨dirname, -, hrun⟩ := Option.bind_eq_some_iff.mp hrun
    refine ih ?_ hrun
    split
    · exact h
    · exact flat_insert rfl h

theorem flat_ftreeFiles {objs : List ObjInfo} {children : List FTreeNode} (h : ∀ node ∈ children, FTreeNode.children node = [])
    (hrun : ftreeFiles pre objs children = some nodes) : ∀ node ∈ nodes, node.children = [] := by
  induction objs generalizing children with
  | nil =>
    cases hrun
    exact h
  | cons obj rest ih =>
    rw [ftreeFiles] at hrun
    obtain ⟨filename, -, hrun⟩ := Option.bind_eq_some_iff.mp hrun
    exact ih (flat_insert rfl h) hrun

/-- A page is merged one level deep. -/
theorem flat_buildFtree (hrun : buildFtree pre resp = some nodes) : ∀ node ∈ nodes, node.children = [] := by
  obtain ⟨dirs, hdirs, hfiles⟩ := Option.bind_eq_some_iff.mp hrun
  exact flat_ftreeFiles (flat_ftreeDirs (fun _ h => absurd h List.not_mem_nil) hdirs) hfiles

theorem nodup_insert {children : List FTreeNode} (h : (children.map FTreeNode.name).Nodup) :
    ((node.insert children).map FTreeNode.name).Nodup := by
  rw [FTreeNode.insert, List.map_append, List.nodup_append]
  refine ⟨h.sublist (List.filter_sublist.map _), by simp, fun x hx y hy => ?_⟩
  obtain ⟨node', hnode', rfl⟩ := List.mem_map.mp hx
  rw [List.map_singleton, List.mem_singleton] at hy
  rw [hy]
  simpa using (List.mem_filter.mp hnode').2

theorem nodup_ftreeDirs {prefixes : List Str} {children : List FTreeNode} (h : (children.map FTreeNode.name).Nodup)
    (hrun : ftreeDirs pre prefixes children = some nodes) : (nodes.map FTreeNode.name).Nodup := by
  induction prefixes generalizing children with
  | nil =>
    cases hrun
    exact h
  | cons p rest ih =>
    rw [ftreeDirs] at hrun
    obtain ⟨dirname, -, hrun⟩ := Option.bind_eq_some_iff.mp hrun
    refine ih ?_ hrun
    split
    · exact h
    · exact nodup_insert h

theorem nodup_ftreeFiles {objs : List ObjInfo} {children : List FTreeNode} (h : (children.map FTreeNode.name).Nodup)
    (hrun : ftreeFiles pre objs children = some nodes) : (nodes.map FTreeNode.name).Nodup := by
  induction objs generalizing children with
  | nil =>
    cases hrun
    exact h
  | cons obj rest ih =>
    rw [ftreeFiles] at hrun
    obtain ⟨filename, -, hrun⟩ := Option.bind_eq_some_iff.mp hrun
    exact ih (nodup_insert h) hrun

/-- A page has one node for each name. -/
theorem nodup_buildFtree (hrun : buildFtree pre resp = some nodes) : (nodes.map FTreeNode.name).Nodup := by
  obtain ⟨dirs, hdirs, hfiles⟩ := Option.bind_eq_some_iff.mp hrun
  have hnil : (([] : List FTreeNode).map FTreeNode.name).Nodup := List.nodup_nil
  exact nodup_ftreeFiles (nodup_ftreeDirs hnil hdirs) hfiles

/-- A node that a page with the prefix `pre` gives. -/
def NodeOf (pre : Str) (resp : ListObjectsResp) (node : FTreeNode) : Prop :=
  node.children = [] ∧
    ((node.isDir = true ∧ node.oinfo = ObjInfo.zero ∧ node.name ≠ [] ∧ pre ++ node.name ++ slash ∈ resp.commonPrefixes) ∨
      (node.isDir = false ∧ node.oinfo ∈ resp.objs ∧ node.oinfo.name = pre ++ node.name))

/-- The page names what it lists, each under `pre`. -/
structure PageUnder (pre : Str) (resp : ListObjectsResp) : Prop where
  objs : ∀ obj ∈ resp.objs, ∃ n, obj.name = pre ++ n ∧ '/' ∉ n
  prefixes : ∀ p ∈ resp.commonPrefixes, ∃ n, p = pre ++ n ++ slash ∧ '/' ∉ n

theorem ftreeDirs_some {prefixes : List Str} (children : List FTreeNode) (h : ∀ p ∈ prefixes, ∃ n, p = pre ++ n ++ slash) :
    ∃ nodes, ftreeDirs pre prefixes children = some nodes ∧
      (∀ node ∈ nodes, node ∈ children ∨ (node.children = [] ∧ node.isDir = true ∧ node.oinfo = ObjInfo.zero ∧
        node.name ≠ [] ∧ pre ++ node.name ++ slash ∈ prefixes)) ∧
      (∀ node ∈ children, ∃ node' ∈ nodes, node'.name = node.name) ∧
      ∀ n, n ≠ [] → pre ++ n ++ slash ∈ prefixes → ∃ node ∈ nodes, node.name = n := by
  induction prefixes generalizing children with
  | nil => exact ⟨children, rfl, fun _ h => .inl h, fun node hn => ⟨node, hn, rfl⟩, fun n _ hp => by cases hp⟩
  | cons p rest ih =>
    obtain ⟨n, rfl⟩ := h p (List.mem_cons_self ..)
    have hrest : ∀ p ∈ rest, ∃ n, p = pre ++ n ++ slash := fun p hp => h p (List.mem_cons_of_mem _ hp)
    have hstep : ∀ children, ftreeDirs pre ((pre ++ n ++ slash) :: rest) children = ftreeDirs pre rest
        (if n = [] then children else (FTreeNode.mk n true [] ObjInfo.zero).insert children) := by
      intro children
      rw [ftreeDirs, substr_dirname]
      rfl
    rw [hstep]
    by_cases hn : n = []
    · rw [if_pos hn]
      obtain ⟨nodes, hrun, hof, hold, hall⟩ := ih children hrest
      refine ⟨nodes, hrun, fun node hnode => ?_, hold, fun k hk hp => ?_⟩
      · refine (hof node hnode).imp id ?_
        rintro ⟨h₁, h₂, h₃, h₄, h₅⟩
        exact ⟨h₁, h₂, h₃, h₄, List.mem_cons_of_mem _ h₅⟩
      · rcases List.mem_cons.mp hp with he | hp
        · rw [hn] at he
          exact absurd (List.append_cancel_left (List.append_cancel_right he)) hk
        · exact hall k hk hp
    · rw [if_neg hn]
      obtain ⟨nodes, hrun, hof, hold, hall⟩ := ih ((FTreeNode.mk n true [] ObjInfo.zero).insert children) hrest
      refine ⟨nodes, hrun, fun node hnode => ?_, fun node hnode => ?_, fun k hk hp => ?_⟩
      · rcases hof node hnode with hnode | ⟨h₁, h₂, h₃, h₄, h₅⟩
        · rcases mem_insert.mp hnode with rfl | ⟨hnode, -⟩
          · exact .inr ⟨rfl, rfl, rfl, hn, List.mem_cons_self ..⟩
          · exact .inl hnode
        · exact .inr ⟨h₁, h₂, h₃, h₄, List.mem_cons_of_mem _ h₅⟩
      · by_cases he : node.name = n
        · obtain ⟨node', hn', heq⟩ := hold (FTreeNode.mk n true [] ObjInfo.zero) (mem_insert.mpr (.inl rfl))
          exact ⟨node', hn', heq.trans he.symm⟩
        · exact hold node (mem_insert.mpr (.inr ⟨hnode, he⟩))
      · rcases List.mem_cons.mp hp with he | hp
        · have hkn : k = n := List.append_cancel_left (List.append_cancel_right he)
          obtain ⟨node', hn', heq⟩ := hold (FTreeNode.mk n true [] ObjInfo.zero) (mem_insert.mpr (.inl rfl))
          exact ⟨node', hn', heq.trans hkn.symm⟩
        · exact hall k hk hp

theorem ftreeFiles_cons {obj : ObjInfo} {rest : List ObjInfo} {children : List FTreeNode} {n : Str} (hn : obj.name = pre ++ n) :
    ftreeFiles pre (obj :: rest) children = ftreeFiles pre rest ((FTreeNode.mk n false [] obj).insert children) := by
  rw [ftreeFiles, hn, substr_name]
  rfl

theorem ftreeFiles_some {objs : List ObjInfo} (children : List FTreeNode) (h : ∀ obj ∈ objs, ∃ n, obj.name = pre ++ n) :
    ∃ nodes, ftreeFiles pre objs children = some nodes ∧
      (∀ node ∈ nodes, node ∈ children ∨ (node.children = [] ∧ node.isDir = false ∧ node.oinfo ∈ objs ∧
        node.oinfo.name = pre ++ node.name)) ∧
      (∀ node ∈ children, ∃ node' ∈ nodes, node'.name = node.name) ∧
      ∀ obj ∈ objs, ∃ node ∈ nodes, obj.name = pre ++ node.name := by
  induction objs generalizing children with
  | nil => exact ⟨children, rfl, fun _ h => .inl h, fun node hn => ⟨node, hn, rfl⟩, fun _ ho => by cases ho⟩
  | cons obj rest ih =>
    obtain ⟨n, hn⟩ := h obj (List.mem_cons_self ..)
    obtain ⟨nodes, hrun, hof, hold, hall⟩ := ih ((FTreeNode.mk n false [] obj).insert children)
      fun o ho => h o (List.mem_cons_of_mem _ ho)
    have hnew := hold (FTreeNode.mk n false [] obj) (mem_insert.mpr (.inl rfl))
    refine ⟨nodes, (ftreeFiles_cons hn).trans hrun, fun node hnode => ?_, fun node hnode => ?_, fun o ho => ?_⟩
    · rcases hof node hnode with hnode | ⟨h₁, h₂, h₃, h₄⟩
      · rcases mem_insert.mp hnode with rfl | ⟨hnode, -⟩
        · exact .inr ⟨rfl, rfl, List.mem_cons_self .., hn⟩
        · exact .inl hnode
      · exact .inr ⟨h₁, h₂, List.mem_cons_of_mem _ h₃, h₄⟩
    · by_cases he : node.name = n
      · obtain ⟨node', hn', heq⟩ := hnew
        exact ⟨node', hn', heq.trans he.symm⟩
      · exact hold node (mem_insert.mpr (.inr ⟨hnode, he⟩))
    · rcases List.mem_cons.mp ho with rfl | ho
      · obtain ⟨node', hn', heq⟩ := hnew
        exact ⟨node', hn', by rw [heq]; exact hn⟩
      · exact hall o ho

/-- A file stands for its name even when there is a directory of the name. -/
theorem ftreeFiles_over {objs : List ObjInfo} {children : List FTreeNode} (h : ∀ obj ∈ objs, ∃ n, obj.name = pre ++ n)
    (hrun : ftreeFiles pre objs children = some nodes) :
    ∀ node ∈ nodes, node.isDir = true → node ∈ children ∧ ∀ obj ∈ objs, obj.name ≠ pre ++ node.name := by
  induction objs generalizing children with
  | nil =>
    cases hrun
    exact fun node hnode _ => ⟨hnode, fun _ ho => by cases ho⟩
  | cons obj rest ih =>
    obtain ⟨n, hn⟩ := h obj (List.mem_cons_self ..)
    rw [ftreeFiles_cons hn] at hrun
    intro node hnode hdir
    obtain ⟨hmem, hrest⟩ := ih (fun o ho => h o (List.mem_cons_of_mem _ ho)) hrun node hnode hdir
    rcases mem_insert.mp hmem with rfl | ⟨hmem, hne⟩
    · cases hdir
    · refine ⟨hmem, fun o ho => ?_⟩
      rcases List.mem_cons.mp ho with rfl | ho
      · rw [hn]
        exact fun he => hne (List.append_cancel_left he).symm
      · exact hrest o ho

theorem buildFtree_over (h : PageUnder pre resp) (hrun : buildFtree pre resp = some nodes) :
    ∀ node ∈ nodes, node.isDir = true → ∀ obj ∈ resp.objs, obj.name ≠ pre ++ node.name := by
  obtain ⟨dirs, -, hfiles⟩ := Option.bind_eq_some_iff.mp hrun
  exact fun node hnode hdir => (ftreeFiles_over (fun o ho => (h.objs o ho).imp fun _ hn => hn.1) hfiles node hnode hdir).2

/-- The nodes of a page: none out of nothing, and one for each name. -/
theorem buildFtree_some (h : PageUnder pre resp) : ∃ nodes, buildFtree pre resp = some nodes ∧
    (∀ node ∈ nodes, NodeOf pre resp node) ∧ (∀ obj ∈ resp.objs, ∃ node ∈ nodes, obj.name = pre ++ node.name) ∧
    ∀ n, n ≠ [] → pre ++ n ++ slash ∈ resp.commonPrefixes → ∃ node ∈ nodes, node.name = n := by
  obtain ⟨dirs, hdirs, hdof, -, hdall⟩ := ftreeDirs_some []
    fun p hp => (h.prefixes p hp).imp fun _ hn => hn.1
  obtain ⟨nodes, hfiles, hfof, hfold, hfall⟩ := ftreeFiles_some dirs
    fun o ho => (h.objs o ho).imp fun _ hn => hn.1
  refine ⟨nodes, ?_, fun node hnode => ?_, hfall, fun n hn hp => ?_⟩
  · rw [buildFtree, hdirs]
    exact hfiles
  · rcases hfof node hnode with hnode | ⟨h₁, h₂, h₃, h₄⟩
    · rcases hdof node hnode with hnil | ⟨h₁, h₂, h₃, h₄, h₅⟩
      · cases hnil
      · exact ⟨h₁, .inl ⟨h₂, h₃, h₄, h₅⟩⟩
    · exact ⟨h₁, .inr ⟨h₂, h₃, h₄⟩⟩
  · obtain ⟨node, hnode, he⟩ := hdall n hn hp
    obtain ⟨node', hnode', he'⟩ := hfold node hnode
    exact ⟨node', hnode', he'.trans he⟩

end MetaImpl

end Catfs
