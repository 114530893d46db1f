import Catfs.Bucket
import Catfs.Theorems.Build
import Catfs.Theorems.Listing
import Catfs.Theorems.LogClient
import Catfs.Theorems.MetaKeeps
import Catfs.Theorems.Paths
import Catfs.Theorems.Survives

/-! # A refresh that runs alone

Each page is merged as it comes, and the sweep that follows removes what has no mark. Everything the pages list is
marked by then; so is whatever carried a mark from before. -/

namespace Catfs

open Lib MetaM LocalMemMeta
open EStateM (Result)

variable {σ α : Type} {c : S3Client σ} {b : Bucket} {pre : Str} {contents contents' : List S3Object}
  {commonPrefixes commonPrefixes' : List Str} {nodes nodes' : List FTreeNode}

/-! ### Nodes for a listing -/

/-- `nodes` has one node or more for each name of the listing, and none for any other name. -/
structure NodesFor (pre : Str) (contents : List S3Object) (commonPrefixes : List Str) (nodes : List FTreeNode) : Prop where
  flat : ∀ node ∈ nodes, node.children = []
  mode : ∀ node ∈ nodes, node.oinfo.mode = none
  listed : ∀ node ∈ nodes,
    (node.isDir = true ∧ node.name ≠ [] ∧ pre ++ node.name ++ slash ∈ commonPrefixes) ∨
      (node.isDir = false ∧ ∃ o ∈ contents, o.key = pre ++ node.name ∧ node.oinfo.size = o.size)
  files : ∀ o ∈ contents, ∃ node ∈ nodes, o.key = pre ++ node.name
  dirs : ∀ n, n ≠ [] → pre ++ n ++ slash ∈ commonPrefixes → ∃ node ∈ nodes, node.name = n

theorem NodesFor.append (h : NodesFor pre contents commonPrefixes nodes)
    (h' : NodesFor pre contents' commonPrefixes' nodes') :
    NodesFor pre (contents ++ contents') (commonPrefixes ++ commonPrefixes') (nodes ++ nodes') where
  flat node hn := (List.mem_append.mp hn).elim (h.flat node) (h'.flat node)
  mode node hn := (List.mem_append.mp hn).elim (h.mode node) (h'.mode node)
  listed node hn := by
    rcases List.mem_append.mp hn with hn | hn
    · refine (h.listed node hn).imp (fun ⟨hd, hne, hp⟩ => ⟨hd, hne, List.mem_append_left _ hp⟩) ?_
      exact fun ⟨hd, o, ho, hk⟩ => ⟨hd, o, List.mem_append_left _ ho, hk⟩
    · refine (h'.listed node hn).imp (fun ⟨hd, hne, hp⟩ => ⟨hd, hne, List.mem_append_right _ hp⟩) ?_
      exact fun ⟨hd, o, ho, hk⟩ => ⟨hd, o, List.mem_append_right _ ho, hk⟩
  files o ho := by
    rcases List.mem_append.mp ho with ho | ho
    · exact (h.files o ho).imp fun node hn => ⟨List.mem_append_left _ hn.1, hn.2⟩
    · exact (h'.files o ho).imp fun node hn => ⟨List.mem_append_right _ hn.1, hn.2⟩
  dirs n hne hp := by
    rcases List.mem_append.mp hp with hp | hp
    · exact (h.dirs n hne hp).imp fun node hn => ⟨List.mem_append_left _ hn.1, hn.2⟩
    · exact (h'.dirs n hne hp).imp fun node hn => ⟨List.mem_append_right _ hn.1, hn.2⟩

/-- The names of a listing are those that its bucket yields, and the empty one. -/
theorem Bucket.Listing.yields_iff (h : b.Listing pre contents commonPrefixes) {n : Str} : b.Yields pre n ↔
    n ≠ [] ∧ ((∃ o ∈ contents, o.key = pre ++ n) ∨ ('/' ∉ n ∧ pre ++ n ++ slash ∈ commonPrefixes)) := by
  refine and_congr_right fun hn => ⟨fun ⟨hs, hb⟩ => ?_, fun hl => ?_⟩
  · rcases hb with hb | hb
    · exact .inl ((h.keys _).mpr ⟨n, rfl, hs, hb⟩)
    · exact .inr ⟨hs, (h.prefixes _).mpr ⟨n, rfl, hs, hb⟩⟩
  · rcases hl with hl | ⟨hs, hl⟩
    · obtain ⟨k, hk, hs, hb⟩ := (h.keys _).mp hl
      rw [List.append_cancel_left hk]
      exact ⟨hs, .inl (List.append_cancel_left hk ▸ hb)⟩
    · obtain ⟨-, -, -, hb⟩ := (h.prefixes _).mp hl
      exact ⟨hs, .inr hb⟩

theorem NodesFor.of_yields (hn : NodesFor pre contents commonPrefixes nodes) (h : b.Listing pre contents commonPrefixes)
    {n : Str} (hy : b.Yields pre n) : ∃ node ∈ nodes, node.name = n := by
  obtain ⟨hne, ⟨o, ho, hk⟩ | ⟨-, hp⟩⟩ := h.yields_iff.mp hy
  · obtain ⟨node, hnode, hk'⟩ := hn.files o ho
    exact ⟨node, hnode, List.append_cancel_left (hk'.symm.trans hk)⟩
  · exact hn.dirs n hne hp

/-- The nodes have the names that the listing enters. -/
theorem NodesFor.enters_iff (hn : NodesFor pre contents commonPrefixes nodes) (h : b.Listing pre contents commonPrefixes)
    (n : Str) : (∃ node ∈ nodes, node.name = n) ↔ b.Enters pre n := by
  constructor
  · rintro ⟨node, hnode, rfl⟩
    by_cases hne : node.name = []
    · rcases hn.listed node hnode with ⟨-, hdir, -⟩ | ⟨-, o, ho, hk, -⟩
      · exact absurd hne hdir
      · obtain ⟨-, -, -, hb⟩ := (h.keys o.key).mp ⟨o, ho, rfl⟩
        rw [hk, hne, List.append_nil] at hb
        exact .inr ⟨hne, hb⟩
    · refine .inl (h.yields_iff.mpr ⟨hne, ?_⟩)
      rcases hn.listed node hnode with ⟨-, -, hp⟩ | ⟨-, o, ho, hk, -⟩
      · obtain ⟨k, hk, hs, -⟩ := (h.prefixes _).mp hp
        rw [List.append_cancel_left (List.append_cancel_right hk)]
        exact .inr ⟨hs, List.append_cancel_left (List.append_cancel_right hk) ▸ hp⟩
      · exact .inl ⟨o, ho, hk⟩
  · rintro (hy | ⟨rfl, hb⟩)
    · exact hn.of_yields h hy
    · obtain ⟨o, ho, hk⟩ := (h.keys pre).mpr ⟨[], (List.append_nil pre).symm, List.not_mem_nil, hb⟩
      obtain ⟨node, hnode, hk'⟩ := hn.files o ho
      have hnil : pre ++ [] = pre ++ node.name := ((List.append_nil pre).trans hk.symm).trans hk'
      exact ⟨node, hnode, (List.append_cancel_left hnil).symm⟩

theorem NodesFor.backs (hn : NodesFor pre contents commonPrefixes nodes) (h : b.Listing pre contents commonPrefixes)
    {node : FTreeNode} (hnode : node ∈ nodes) : b.Backs pre node.name := by
  rcases hn.listed node hnode with ⟨-, -, hp⟩ | ⟨-, o, ho, hk, -⟩
  · obtain ⟨-, -, -, hb⟩ := (h.prefixes _).mp hp
    exact .inr hb
  · obtain ⟨-, -, -, hb⟩ := (h.keys o.key).mp ⟨o, ho, rfl⟩
    exact .inl (hk ▸ hb)

namespace MetaImpl
variable {m m' : LocalMemMeta} {a : Addr} {ino : InodeID} {t t' : σ} {now : Timespec} {garbage : Garbage}

/-! ### Steps that run alone -/

theorem run_pathWithSlash (hm : Inv m) (ha : a < m.heapNext) :
    (pathWithSlash a : MetaM σ Str).run ⟨m, t, now, garbage⟩ = .ok (m.dirPrefix a) ⟨m, t, now, garbage⟩ :=
  run_cache_ok (run_getFullPathWithSlash hm ha)

/-! ### The pages -/

/-- A page names keys under the prefix of its request. -/
def Under (pre : Str) (r : ListObjectsResult) : Prop :=
  (∀ o ∈ r.contents, ∃ n, o.key = pre ++ n ∧ '/' ∉ n) ∧ ∀ p ∈ r.commonPrefixes, ∃ n, p = pre ++ n ++ slash ∧ '/' ∉ n

/-- The response that `S3Stor::list_objects` makes of a result, where uninitialised memory holds `g` for a key. -/
def pageResp (g : Str → Garbage) (r : ListObjectsResult) : ListObjectsResp :=
  { isTrunc := r.isTruncated
    nextMarker := r.nextMarker
    commonPrefixes := r.commonPrefixes
    objs := r.contents.map fun o => objInfo (g o.key) o.key o.size o.lastModified }

theorem run_listObjects {marker : Str} {r : ListObjectsResult} (h : c.listObjects (pageRequest pre marker) t = .ok r t') :
    (s3Stor c).listObjects { delimiter := slash, pre, max := 1000, marker } t = .ok (pageResp (c.garbage t) r) t' := by
  have ho : orServerError (c.listObjects (pageRequest pre marker)) t = .ok r t' := by rw [orServerError, h]
  exact bind_ok ho

/-- An answer of `list_objects` is a result of the client. -/
theorem of_listObjects {req : ListObjectsReq} {resp : ListObjectsResp} (h : (s3Stor c).listObjects req t = .ok resp t') :
    ∃ r, resp = pageResp (c.garbage t) r ∧
      c.listObjects { delimiter := slash, marker := req.marker, maxKeys := req.max, pre := req.pre } t = .ok r t' := by
  obtain ⟨r, t₁, hr, hresp⟩ := of_bind_ok h
  obtain ⟨rfl, rfl⟩ := Result.ok.inj hresp
  refine ⟨r, rfl, ?_⟩
  rw [orServerError] at hr
  cases hlist : c.listObjects { delimiter := slash, marker := req.marker, maxKeys := req.max, pre := req.pre } t with
  | ok r' t' => simpa [hlist] using hr
  | error e t' => simp [hlist] at hr

theorem pageUnder_page {r : ListObjectsResult} (hr : Under pre r) (g : Str → Garbage) : PageUnder pre (pageResp g r) := by
  refine ⟨fun obj hobj => ?_, hr.2⟩
  obtain ⟨o, ho, rfl⟩ := List.mem_map.mp hobj
  exact hr.1 o ho

theorem nodesFor_page {r : ListObjectsResult} (hr : Under pre r) (g : Str → Garbage) :
    ∃ nodes, buildFtree pre (pageResp g r) = some nodes ∧ NodesFor pre r.contents r.commonPrefixes nodes := by
  obtain ⟨nodes, hrun, hof, hfiles, hdirs⟩ := buildFtree_some (pageUnder_page hr g)
  have hobj : ∀ node ∈ nodes, node.isDir = true ∧ node.oinfo = ObjInfo.zero ∧ node.name ≠ [] ∧
      pre ++ node.name ++ slash ∈ r.commonPrefixes ∨ node.isDir = false ∧ ∃ o ∈ r.contents, o.key = pre ++ node.name ∧
        node.oinfo = objInfo (g o.key) o.key o.size o.lastModified := by
    intro node hnode
    refine (hof node hnode).2.imp id ?_
    rintro ⟨hd, hmem, hname⟩
    obtain ⟨o, ho, he⟩ := List.mem_map.mp hmem
    rw [← he] at hname
    exact ⟨hd, o, ho, hname, he.symm⟩
  refine ⟨nodes, hrun, fun node hnode => (hof node hnode).1, fun node hnode => ?_, fun node hnode => ?_, fun o ho => ?_,
    hdirs⟩
  · rcases hobj node hnode with ⟨-, he, -⟩ | ⟨-, o, -, -, he⟩ <;> rw [he] <;> rfl
  · refine (hobj node hnode).imp (fun ⟨hd, _, hne, hp⟩ => ⟨hd, hne, hp⟩) ?_
    rintro ⟨hd, o, ho, hk, he⟩
    exact ⟨hd, o, ho, hk, by rw [he]; rfl⟩
  · obtain ⟨node, hnode, he⟩ := hfiles _ (List.mem_map_of_mem ho)
    exact ⟨node, hnode, he⟩

theorem plain_nodes {r : ListObjectsResult} (hn : NodesFor pre r.contents r.commonPrefixes nodes) (hr : Under pre r) :
    ∀ node ∈ nodes, '/' ∉ node.name := by
  intro node hnode
  rcases hn.listed node hnode with ⟨-, -, hp⟩ | ⟨-, o, ho, hk, -⟩
  · obtain ⟨n, he, hs⟩ := hr.2 _ hp
    rw [List.append_assoc, List.append_assoc] at he
    rw [List.append_cancel_right (List.append_cancel_left he)]
    exact hs
  · obtain ⟨n, he, hs⟩ := hr.1 o ho
    rw [List.append_cancel_left (hk.symm.trans he)]
    exact hs

/-- A page of a service that shows a bucket. -/
theorem page_served {view : σ → Bucket} (hc : c.Serves view) (t : σ) (pre marker : Str) : ∃ r t',
    c.listObjects (pageRequest pre marker) t = .ok r t' ∧ view t' = view t ∧ Under pre r := by
  obtain ⟨r, t', hr, hv, hpart⟩ := hc.list t (pageRequest pre marker) rfl
  refine ⟨r, t', hr, hv, fun o ho => ?_, fun p hp => ?_⟩
  · obtain ⟨n, _, hk, hs, -⟩ := hpart.keys o ho
    exact ⟨n, hk, hs⟩
  · obtain ⟨n, hk, hs, -⟩ := hpart.prefixes p hp
    exact ⟨n, hk, hs⟩

/-- What the pages after `marker` list completes what was listed before. -/
def Remaining (c : S3Client σ) (view : σ → Bucket) (b : Bucket) (pre marker : Str) (contents : List S3Object)
    (commonPrefixes : List Str) : Prop :=
  ∀ t n contents' commonPrefixes' t', view t = b →
    c.Pages (fun t t' => view t' = view t) pre t marker n contents' commonPrefixes' t' →
    b.Listing pre (contents ++ contents') (commonPrefixes ++ commonPrefixes')

section
variable {view : σ → Bucket} {marker : Str} {r : ListObjectsResult}

theorem remaining_start (hc : c.Serves view) : Remaining c view b pre [] [] [] := by
  rintro t n contents' commonPrefixes' t' rfl hp
  exact hc.pages t pre n _ _ t' hp

theorem Remaining.last (h : Remaining c view b pre marker contents commonPrefixes) (hv : view t = b)
    (hr : c.listObjects (pageRequest pre marker) t = .ok r t') (ht : r.isTruncated = false) :
    b.Listing pre (contents ++ r.contents) (commonPrefixes ++ r.commonPrefixes) := h t _ _ _ t' hv (.last hr ht)

theorem Remaining.more (h : Remaining c view b pre marker contents commonPrefixes) (hv : view t = b) (hv' : view t' = b)
    (hr : c.listObjects (pageRequest pre marker) t = .ok r t') (ht : r.isTruncated = true) :
    Remaining c view b pre r.nextMarker (contents ++ r.contents) (commonPrefixes ++ r.commonPrefixes) := by
  intro t₂ n contents' commonPrefixes' t₃ hv₂ hp
  rw [List.append_assoc, List.append_assoc]
  exact h t _ _ _ t₃ hv (.more hr ht (hv₂.trans hv'.symm) hp)

end

/-- One turn of the loop, over a page whose tree is `nodes`. -/
theorem run_turn {marker : Str} {r : ListObjectsResult} {nodes : List FTreeNode} {m' : LocalMemMeta} {now : Timespec}
    (h : c.listObjects (pageRequest pre marker) t = .ok r t') (hft : buildFtree pre (pageResp (c.garbage t) r) = some nodes)
    (hb : LocalMemMeta.buildDentries now ino nodes m = .ok () m') (garbage : Garbage) (fuel : Nat) :
    (refreshLoop (s3Stor c) ino pre (fuel + 1) marker).run ⟨m, t, now, garbage⟩ =
      if r.isTruncated then (refreshLoop (s3Stor c) ino pre fuel r.nextMarker).run ⟨m', t', now, garbage⟩
      else .ok () ⟨m', t', now, garbage⟩ := by
  rw [refreshLoop, Prog.run_bind_ok (run_call_ok (run_listObjects h)), hft]
  dsimp only
  rw [Prog.run_bind_ok (run_cache_ok hb)]
  show (if r.isTruncated then _ else _ : MetaM σ Unit).run _ = _
  split <;> rfl

/-- One turn of the loop. -/
theorem run_page (hm : Inv m) (ha : m.lookup ino = some a) {marker : Str} {r : ListObjectsResult}
    (h : c.listObjects (pageRequest pre marker) t = .ok r t') (hr : Under pre r) (now : Timespec) (garbage : Garbage)
    (fuel : Nat) :
    ∃ nodes m', buildFtree pre (pageResp (c.garbage t) r) = some nodes ∧ NodesFor pre r.contents r.commonPrefixes nodes ∧
      Built a nodes m m' ∧ (refreshLoop (s3Stor c) ino pre (fuel + 1) marker).run ⟨m, t, now, garbage⟩ =
        if r.isTruncated then (refreshLoop (s3Stor c) ino pre fuel r.nextMarker).run ⟨m', t', now, garbage⟩
        else .ok () ⟨m', t', now, garbage⟩ := by
  obtain ⟨nodes, hft, hn⟩ := nodesFor_page hr (c.garbage t)
  obtain ⟨m', hb, hbuilt⟩ := run_buildDentries now hm ha hn.flat
  exact ⟨nodes, m', hft, hn, hbuilt, run_turn h hft hb garbage fuel⟩

/-- The loop over all the pages. -/
theorem run_refreshLoop {marker : Str} {n : Nat} (h : c.Pages Eq pre t marker n contents commonPrefixes t')
    (hm : Inv m) (ha : m.lookup ino = some a) (hunder : (∀ o ∈ contents, ∃ n, o.key = pre ++ n ∧ '/' ∉ n) ∧
      ∀ p ∈ commonPrefixes, ∃ n, p = pre ++ n ++ slash ∧ '/' ∉ n) (now : Timespec) (garbage : Garbage) {fuel : Nat}
    (hfuel : n ≤ fuel) :
    ∃ nodes m', NodesFor pre contents commonPrefixes nodes ∧ Built a nodes m m' ∧
      (refreshLoop (s3Stor c) ino pre fuel marker).run ⟨m, t, now, garbage⟩ = .ok () ⟨m', t', now, garbage⟩ := by
  induction h generalizing m fuel with
  | last h hr =>
    obtain ⟨fuel, rfl⟩ : ∃ k, fuel = k + 1 := ⟨fuel - 1, by omega⟩
    obtain ⟨nodes, m', -, hn, hb, hrun⟩ := run_page hm ha h hunder now garbage fuel
    refine ⟨nodes, m', hn, hb, ?_⟩
    rw [hrun, hr]
    rfl
  | more h hr he rest ih =>
    subst he
    obtain ⟨fuel, rfl⟩ : ∃ k, fuel = k + 1 := ⟨fuel - 1, by omega⟩
    obtain ⟨nodes, m₁, -, hn, hb, hrun⟩ := run_page hm ha h
      ⟨fun o ho => hunder.1 o (List.mem_append_left _ ho), fun p hp => hunder.2 p (List.mem_append_left _ hp)⟩ now garbage fuel
    obtain ⟨nodes', m', hn', hb', hrun'⟩ := ih hb.inv (hb.grow.index _ _ ha)
      ⟨fun o ho => hunder.1 o (List.mem_append_right _ ho), fun p hp => hunder.2 p (List.mem_append_right _ hp)⟩
      (Nat.le_of_succ_le_succ hfuel)
    refine ⟨nodes ++ nodes', m', hn.append hn', hb.trans hb', ?_⟩
    rw [hrun, hr]
    exact hrun'

theorem listing_under (hl : b.Listing pre contents commonPrefixes) : (∀ o ∈ contents, ∃ n, o.key = pre ++ n ∧ '/' ∉ n) ∧
    ∀ p ∈ commonPrefixes, ∃ n, p = pre ++ n ++ slash ∧ '/' ∉ n := by
  refine ⟨fun o ho => ?_, fun p hp => ?_⟩
  · obtain ⟨n, hk, hs, -⟩ := (hl.keys o.key).mp ⟨o, ho, rfl⟩
    exact ⟨n, hk, hs⟩
  · obtain ⟨n, hk, hs, -⟩ := (hl.prefixes p).mp hp
    exact ⟨n, hk, hs⟩

/-- A refresh whose calls all succeed merges the whole listing and sweeps. -/
theorem run_refresh {n : Nat} (hm : Inv m) (ha : a < m.heapNext)
    (hp : c.Pages Eq (m.dirPrefix a) t [] n contents commonPrefixes t')
    (hl : b.Listing (m.dirPrefix a) contents commonPrefixes) (now : Timespec) (garbage : Garbage) {fuel : Nat}
    (hfuel : n ≤ fuel) :
    ∃ nodes m₁ m', NodesFor (m.dirPrefix a) contents commonPrefixes nodes ∧ Built a nodes m m₁ ∧ Swept a m₁ m' ∧
      (refreshSubDentries (s3Stor c) fuel a).run ⟨m, t, now, garbage⟩ = .ok () ⟨m', t', now, garbage⟩ := by
  obtain ⟨nodes, m₁, hn, hb, hrun⟩ := run_refreshLoop hp hm (hm.index a ha) (listing_under hl) now garbage hfuel
  obtain ⟨m', hsweep, hs⟩ := run_clearUnsyncDentry now hb.inv (Nat.lt_of_lt_of_le ha hb.grow.next)
  refine ⟨nodes, m₁, m', hn, hb, hs, ?_⟩
  rw [refreshSubDentries, Prog.run_bind_ok (run_pathWithSlash hm ha), Prog.run_bind_ok run_readDentry,
    Prog.run_bind_ok hrun]
  exact run_cache_ok hsweep

/-- The children after a refresh: what was listed and what carried a mark. -/
theorem child_refreshed {nodes : List FTreeNode} {m₁ : LocalMemMeta} (hm : Inv m) (hb : Built a nodes m m₁)
    (hs : Swept a m₁ m') {n : Str} {ch : Addr} (hch : (m'.heap a).getChild n = some ch) :
    (∃ node ∈ nodes, node.name = n) ∨ ((m.heap a).getChild n = some ch ∧ (m.heap ch).synced = true) := by
  obtain ⟨hch, hsync⟩ := (hs.child a .start n ch).mp hch
  rcases hb.origin n ch hch with hch | ⟨-, hnode⟩
  · obtain ⟨hac, hcn, hname, -⟩ := hm.child a n ch hb.alloc hch
    rcases hb.marked ch hcn (Nat.ne_of_gt hac) hsync with hsync | ⟨node, hnode, hch'⟩
    · exact .inr ⟨hch, hsync⟩
    · have hname' := (hm.child a node.name ch hb.alloc hch').2.2.1
      exact .inl ⟨node, hnode, hname'.symm.trans hname⟩
  · exact .inl hnode

theorem listed_refreshed {nodes : List FTreeNode} {m₁ : LocalMemMeta} (hb : Built a nodes m m₁) (hs : Swept a m₁ m')
    {node : FTreeNode} (hnode : node ∈ nodes) : ∃ ch, (m'.heap a).getChild node.name = some ch ∧
      (∀ old, (m.heap a).getChild node.name = some old → ch = old) := by
  obtain ⟨ch, hch, hsync⟩ := hb.listed node hnode
  refine ⟨ch, (hs.child a .start _ _).mpr ⟨hch, hsync⟩, fun old hold => ?_⟩
  have := hb.child _ _ hold
  rw [hch] at this
  exact Option.some.inj this

theorem marked_refreshed {nodes : List FTreeNode} {m₁ : LocalMemMeta} (hm : Inv m) (hb : Built a nodes m m₁)
    (hs : Swept a m₁ m') {n : Str} {ch : Addr} (hch : (m.heap a).getChild n = some ch) (hsync : (m.heap ch).synced = true) :
    (m'.heap a).getChild n = some ch :=
  (hs.child a .start n ch).mpr ⟨hb.child n ch hch, hb.mark ch (hm.child a n ch hb.alloc hch).2.1 hsync⟩

/-! ### What a refresh leaves -/

section
variable {opt : MetaOpt} (hm : Reachable opt m) (ha : m.lookup ino = some a) {n : Nat}
  (hp : c.Pages Eq (m.dirPrefix a) t [] n contents commonPrefixes t')
  (hl : b.Listing (m.dirPrefix a) contents commonPrefixes) (now : Timespec) (garbage : Garbage) {fuel : Nat}
  (hfuel : n ≤ fuel)
include hm ha hp hl hfuel

/-- A refresh survives exactly when the sweep that ends it meets no child that is neither listed nor marked. -/
theorem refresh_survives_iff : Survives (refreshSubDentries (s3Stor c) fuel a) ⟨m, t, now, garbage⟩ ↔
    m.SweepsNothing a (b.Enters (m.dirPrefix a)) := by
  obtain ⟨halloc, -⟩ := hm.inv.indexed _ _ ha
  obtain ⟨nodes, m₁, hn, hb, hrun⟩ :=
    run_refreshLoop hp hm.inv (hm.inv.index a halloc) (listing_under hl) now garbage hfuel
  rw [survives_refresh (run_pathWithSlash hm.inv halloc) hrun, hb.nothingToSweep_iff hm.inv]
  exact SweepsNothing.congr fun k => hn.enters_iff hl k

/-- Whatever the cache held and however the listing is cut into pages, a refresh ends well, with every name that the
    bucket yields a child, under its old inode number when it had one, exactly when its sweep meets no child to remove. -/
theorem refresh_lists_iff : (∃ m', (refreshSubDentries (s3Stor c) fuel a).run ⟨m, t, now, garbage⟩ =
      .ok () ⟨m', t', now, garbage⟩ ∧ Survives (refreshSubDentries (s3Stor c) fuel a) ⟨m, t, now, garbage⟩ ∧
    ∀ name, b.Yields (m.dirPrefix a) name → ∃ ch, (m'.heap a).getChild name = some ch ∧
      ∀ old, (m.heap a).getChild name = some old → (m'.heap ch).inode.ino = (m.heap old).inode.ino) ↔
    m.SweepsNothing a (b.Enters (m.dirPrefix a)) := by
  have hsurvives := refresh_survives_iff hm ha hp hl now garbage hfuel
  refine ⟨fun ⟨m', _, h, _⟩ => hsurvives.mp h, fun h => ?_⟩
  obtain ⟨halloc, -⟩ := hm.inv.indexed _ _ ha
  obtain ⟨nodes, m₁, m', hn, hb, hs, hrun⟩ := run_refresh hm.inv halloc hp hl now garbage hfuel
  refine ⟨m', hrun, hsurvives.mpr h, fun name hy => ?_⟩
  obtain ⟨node, hnode, rfl⟩ := hn.of_yields hl hy
  obtain ⟨ch, hch, hold⟩ := listed_refreshed hb hs hnode
  refine ⟨ch, hch, fun old ho => ?_⟩
  rw [hold old ho]
  exact (hb.grow.trans hs.grow).ino old (hm.inv.child a _ old halloc ho).2.1

/-- A refresh ends well, with every child backed by the bucket, exactly when its sweep meets no child to remove and each
    child that carried a mark before it is backed. -/
theorem refresh_backed_iff : (∃ m', (refreshSubDentries (s3Stor c) fuel a).run ⟨m, t, now, garbage⟩ =
      .ok () ⟨m', t', now, garbage⟩ ∧ Survives (refreshSubDentries (s3Stor c) fuel a) ⟨m, t, now, garbage⟩ ∧
    ∀ name ch, (m'.heap a).getChild name = some ch → b.Backs (m.dirPrefix a) name) ↔
    m.SweepsNothing a (b.Enters (m.dirPrefix a)) ∧
      ∀ name ch, (m.heap a).getChild name = some ch → (m.heap ch).synced = true → b.Backs (m.dirPrefix a) name := by
  have hsurvives := refresh_survives_iff hm ha hp hl now garbage hfuel
  obtain ⟨halloc, -⟩ := hm.inv.indexed _ _ ha
  obtain ⟨nodes, m₁, m', hn, hb, hs, hrun⟩ := run_refresh hm.inv halloc hp hl now garbage hfuel
  constructor
  · rintro ⟨m'', hrun', h, hbacks⟩
    obtain rfl : m'' = m' := congrArg World.cache (Result.ok.inj (hrun'.symm.trans hrun)).2
    exact ⟨hsurvives.mp h, fun name ch hch hsync => hbacks name ch (marked_refreshed hm.inv hb hs hch hsync)⟩
  · rintro ⟨h, hbacks⟩
    refine ⟨m', hrun, hsurvives.mpr h, fun name ch hch => ?_⟩
    rcases child_refreshed hm.inv hb hs hch with ⟨node, hnode, rfl⟩ | ⟨hch, hsync⟩
    · exact hn.backs hl hnode
    · exact hbacks name ch hch hsync

end

/-! ### Entries that are gone -/

/-- A bucket with the one key `d/x`. -/
def oneKey : Log := [(.putFile ['d', '/', 'x'] [], true)]

theorem one_page (log : Log) (pre : Str) (h : (log.listing (pageRequest pre [])).isTruncated = false) :
    Log.client.Pages Eq pre log [] 1 (log.listing (pageRequest pre [])).contents
      (log.listing (pageRequest pre [])).commonPrefixes log := .last rfl h

theorem one_page_listing (log : Log) (pre : Str) (h : (log.listing (pageRequest pre [])).isTruncated = false) :
    log.bucket.Listing pre (log.listing (pageRequest pre [])).contents (log.listing (pageRequest pre [])).commonPrefixes :=
  Log.pages_listing (show Log.client.Pages _ pre log [] 1 _ _ log from .last rfl h)

/-- The cache after the root was listed over the bucket. -/
def listedRoot (log : Log) : LocalMemMeta :=
  (endState (((Request.load 1).prog ⟨0, 0, 60⟩ (s3Stor Log.client) 1).run ⟨newCache, log, ⟨0, 0⟩, noGarbage⟩)).cache

/-- The cache after the root was listed, and the bucket after its key was deleted. -/
def listedOnce : LocalMemMeta := listedRoot oneKey

def noKey : Log := oneKey ++ [(.deleteFile ['d', '/', 'x'], true)]

theorem noKey_bucket (key : Str) : ¬ noKey.bucket.Holds key := by
  by_cases h : key = []
  · rw [h, Bucket.Holds, Log.bucket_nil]
    exact Bool.false_ne_true
  · simp [noKey, oneKey, Bucket.Holds, Log.bucket, Log.object, Log.objectFrom]

/-- The root has one child, a directory with a mark and without children. -/
theorem listedOnce_spared (named : Str → Prop) : listedOnce.SweepsNothing 0 named := by
  have hroot : (listedOnce.heap 0).children.entries = [⟨['d'], 1⟩] := by decide +kernel
  have hdir : (listedOnce.heap 1).children.entries = [] := by decide +kernel
  have honly : ∀ n ch, (listedOnce.heap 0).getChild n = some ch → ch = 1 := by
    intro n ch hch
    have hmem : (⟨n, ch⟩ : Sigma fun _ : Str => Addr) ∈ (listedOnce.heap 0).children.entries := AList.mem_lookup_iff.mp hch
    rw [hroot] at hmem
    cases List.mem_singleton.mp hmem
    rfl
  have hnone : ∀ n ch, (listedOnce.heap 1).getChild n ≠ some ch := by
    intro n ch hch
    have hmem : (⟨n, ch⟩ : Sigma fun _ : Str => Addr) ∈ (listedOnce.heap 1).children.entries := AList.mem_lookup_iff.mp hch
    rw [hdir] at hmem
    cases hmem
  refine ⟨fun n ch hch => ?_, fun n ch hch _ => ?_⟩
  · rw [honly n ch hch]
    exact .inl (by decide +kernel)
  · rw [honly n ch hch]
    exact nothingToSweep_iff.mpr ⟨fun k x hx => absurd hx (hnone k x), fun k x hx => absurd hx (hnone k x)⟩

/-- A second refresh of the root, a minute later. -/
theorem refresh_lists_again : ∃ m', (refreshSubDentries (s3Stor Log.client) 1 0).run ⟨listedOnce, oneKey, ⟨61, 0⟩, noGarbage⟩ =
      .ok () ⟨m', oneKey, ⟨61, 0⟩, noGarbage⟩ ∧
    Survives (refreshSubDentries (s3Stor Log.client) 1 0) ⟨listedOnce, oneKey, ⟨61, 0⟩, noGarbage⟩ ∧
    ∀ name, oneKey.bucket.Yields (listedOnce.dirPrefix 0) name → ∃ ch, (m'.heap 0).getChild name = some ch ∧
      ∀ old, (listedOnce.heap 0).getChild name = some old → (m'.heap ch).inode.ino = (listedOnce.heap old).inode.ino := by
  have hlast : (oneKey.listing (pageRequest (listedOnce.dirPrefix 0) [])).isTruncated = false := by decide +kernel
  have hiff := refresh_lists_iff (.request (.new ⟨0, 0⟩) _ _ _ _ _ _) (show listedOnce.lookup 1 = some 0 by decide +kernel)
    (one_page oneKey _ hlast) (one_page_listing oneKey _ hlast) ⟨61, 0⟩ noGarbage (Nat.le_refl 1)
  exact hiff.mpr (listedOnce_spared _)

/-- A bucket with the one key `f`, and the bucket after its key was deleted. -/
def keyF : Log := [(.putFile ['f'] [], true)]

def noKeyF : Log := keyF ++ [(.deleteFile ['f'], true)]

theorem noKeyF_bucket (key : Str) : ¬ noKeyF.bucket.Holds key := by
  by_cases h : key = []
  · rw [h, Bucket.Holds, Log.bucket_nil]
    exact Bool.false_ne_true
  · simp [noKeyF, keyF, Bucket.Holds, Log.bucket, Log.object, Log.objectFrom]

/-- A file that was listed is gone: it carries no mark, so the sweep of the next refresh erases it under its own loop. -/
theorem gone_file_erased : Reachable ⟨0, 0, 60⟩ (listedRoot keyF) ∧
    (∃ contents commonPrefixes, Log.client.Pages Eq ((listedRoot keyF).dirPrefix 0) noKeyF [] 1 contents commonPrefixes noKeyF ∧
      noKeyF.bucket.Listing ((listedRoot keyF).dirPrefix 0) contents commonPrefixes) ∧
    ¬ Survives (refreshSubDentries (s3Stor Log.client) 1 0) ⟨listedRoot keyF, noKeyF, ⟨61, 0⟩, noGarbage⟩ := by
  have hlisted : Reachable ⟨0, 0, 60⟩ (listedRoot keyF) := .request (.new ⟨0, 0⟩) _ _ _ _ _ _
  have hlast : (noKeyF.listing (pageRequest ((listedRoot keyF).dirPrefix 0) [])).isTruncated = false := by decide +kernel
  refine ⟨hlisted, ⟨_, _, one_page _ _ hlast, one_page_listing _ _ hlast⟩, fun h => ?_⟩
  have hspares := (refresh_survives_iff hlisted (show (listedRoot keyF).lookup 1 = some 0 by decide +kernel)
    (one_page noKeyF _ hlast) (one_page_listing noKeyF _ hlast) ⟨61, 0⟩ noGarbage (Nat.le_refl 1)).mp h
  have hchild : ((listedRoot keyF).heap 0).getChild ['f'] = some 1 := by decide +kernel
  have hunmarked : ((listedRoot keyF).heap 1).synced = false := by decide +kernel
  rcases hspares.children ['f'] 1 hchild with hmark | (⟨-, -, hkey | ⟨rest, hkey⟩⟩ | ⟨hnil, -⟩)
  · rw [hunmarked] at hmark
    cases hmark
  · exact noKeyF_bucket _ hkey
  · exact noKeyF_bucket _ hkey
  · cases hnil

/-- A second refresh of the root, whose directory is still there. -/
theorem refresh_backed_again : ∃ m', (refreshSubDentries (s3Stor Log.client) 1 0).run ⟨listedOnce, oneKey, ⟨61, 0⟩, noGarbage⟩ =
      .ok () ⟨m', oneKey, ⟨61, 0⟩, noGarbage⟩ ∧
    Survives (refreshSubDentries (s3Stor Log.client) 1 0) ⟨listedOnce, oneKey, ⟨61, 0⟩, noGarbage⟩ ∧
    ∀ name ch, (m'.heap 0).getChild name = some ch → oneKey.bucket.Backs (listedOnce.dirPrefix 0) name := by
  have hlast : (oneKey.listing (pageRequest (listedOnce.dirPrefix 0) [])).isTruncated = false := by decide +kernel
  have hiff := refresh_backed_iff (.request (.new ⟨0, 0⟩) _ _ _ _ _ _) (show listedOnce.lookup 1 = some 0 by decide +kernel)
    (one_page oneKey _ hlast) (one_page_listing oneKey _ hlast) ⟨61, 0⟩ noGarbage (Nat.le_refl 1)
  refine hiff.mpr ⟨listedOnce_spared _, fun name ch hch _ => ?_⟩
  have hroot : (listedOnce.heap 0).children.entries = [⟨['d'], 1⟩] := by decide +kernel
  have hmem : (⟨name, ch⟩ : Sigma fun _ : Str => Addr) ∈ (listedOnce.heap 0).children.entries := AList.mem_lookup_iff.mp hch
  rw [hroot] at hmem
  cases List.mem_singleton.mp hmem
  refine .inr ⟨['x'], ?_⟩
  show (oneKey.bucket _).isSome = true
  decide +kernel

/-- The sweep leaves the mark of a directory, so the directory survives the next refresh though the bucket is
    empty. -/
theorem gone_dir_survives : Reachable ⟨0, 0, 60⟩ listedOnce ∧
    (∃ contents commonPrefixes, Log.client.Pages Eq (listedOnce.dirPrefix 0) noKey [] 1 contents commonPrefixes noKey ∧
      noKey.bucket.Listing (listedOnce.dirPrefix 0) contents commonPrefixes) ∧
    (let s := endState ((refreshSubDentries (s3Stor Log.client) 1 0).run ⟨listedOnce, noKey, ⟨61, 0⟩, noGarbage⟩)
     (s.cache.heap 0).getChild ['d'] = some 1) ∧
    ¬ noKey.bucket.Backs (listedOnce.dirPrefix 0) ['d'] := by
  have hlast : (noKey.listing (pageRequest (listedOnce.dirPrefix 0) [])).isTruncated = false := by decide +kernel
  refine ⟨.request (.new ⟨0, 0⟩) _ _ _ _ _ _, ⟨_, _, one_page _ _ hlast, one_page_listing _ _ hlast⟩, by decide +kernel, ?_⟩
  rintro (h | ⟨rest, h⟩)
  · exact noKey_bucket _ h
  · exact noKey_bucket _ h

end MetaImpl

end Catfs
