import Catfs.Theorems.Revalidation

/-! # The attributes of an object in the cache

Four paths take the size and the times of an object over into its entry. A lookup and a listing that make the entry leave
the times of a file at zero and set those of a directory to the clock; a listing that updates it takes everything that the
listing has, which of a directory is nothing and of a file includes the nanoseconds that nothing set; a revalidation takes
the size alone. -/

namespace Catfs

open Lib MetaM LocalMemMeta
open EStateM (Result)

/-- The objects have the times `modified`, in every answer. -/
structure S3Client.Dates {σ : Type} (c : S3Client σ) (modified : σ → Str → Nat) : Prop where
  head : ∀ t key r t', c.headObject key t = .ok r t' → r.lastModified = modified t key
  headKeeps : ∀ t key, modified (endState (c.headObject key t)) = modified t
  list : ∀ t req r t', c.listObjects req t = .ok r t' → modified t' = modified t ∧ ∀ o ∈ r.contents, o.lastModified = modified t o.key

/-- The size and both times of an object. -/
structure ChildInfo.Shows (info : ChildInfo) (size lastModified : Nat) : Prop where
  size : info.size = size
  ctime : info.ctime = ⟨lastModified, 0⟩
  mtime : info.mtime = ⟨lastModified, 0⟩

/-- The entry `n` of `p` has the size and the times of an object. -/
def LocalMemMeta.Shows (m : LocalMemMeta) (p : Addr) (n : Str) (size lastModified : Nat) : Prop :=
  ∃ info, m.childInfo p n = some info ∧ info.Shows size lastModified

theorem LocalMemMeta.shows_iff {m : LocalMemMeta} {p : Addr} {n : Str} {size lastModified : Nat} {info : ChildInfo}
    (h : m.childInfo p n = some info) : m.Shows p n size lastModified ↔ info.Shows size lastModified := by
  constructor
  · rintro ⟨info', h', hshows⟩
    obtain rfl := Option.some.inj (h.symm.trans h')
    exact hshows
  · exact fun hshows => ⟨info, h, hshows⟩

/-- When the entry that a lookup makes has the times of its object. -/
def FoundRight (isDir : Bool) (now : Timespec) (lastModified : Nat) : Prop :=
  if isDir then now = ⟨lastModified, 0⟩ else lastModified = 0

/-- The nanoseconds are 0. -/
def Garbage.WholeSeconds (g : Garbage) : Prop := g.ctime.nsec = 0 ∧ g.mtime.nsec = 0

/-- When the entry that a listing makes or updates has the size and the times of its object. It was `cached` before, the
    memory of the list entry held `g`, and `shadowed` says that the listing has a directory of the same name on a later
    page. -/
structure ListedRight (isDir : Bool) (cached shadowed : Prop) (now : Timespec) (g : Garbage) (size lastModified : Nat) :
    Prop where
  file : isDir = false → ¬ shadowed → (cached → g.WholeSeconds) ∧ (¬ cached → lastModified = 0)
  taken : isDir = false → shadowed → size = 0 ∧ lastModified = 0
  dir : isDir = true → size = 0 ∧ (cached → lastModified = 0) ∧ (¬ cached → now = ⟨lastModified, 0⟩)

/-- When a second refresh shows what the first did. The memory of the list entry held `g` and then `g'`. -/
structure ListedTwice (isDir : Bool) (cached shadowed : Prop) (now : Timespec) (g g' : Garbage) (lastModified : Nat) :
    Prop where
  updated : isDir = false → ¬ shadowed → cached → g'.ctime.nsec = g.ctime.nsec ∧ g'.mtime.nsec = g.mtime.nsec
  made : isDir = false → ¬ shadowed → ¬ cached → lastModified = 0 ∧ g'.WholeSeconds
  dir : isDir = true → cached ∨ now = ⟨0, 0⟩

/-! ### What the pages of a listing show -/

/-- The node of an object, as far as its merge depends on it. -/
def fileNode (n : Str) (g : Garbage) (size lastModified : Nat) : FTreeNode := .mk n false [] (objInfo g [] size lastModified)

def dirNode (n : Str) : FTreeNode := .mk n true [] ObjInfo.zero

/-- The listing has the name as a file and, on a later page, as a directory. -/
def Shadowed (pre n : Str) (cut : List (List Str)) : Prop :=
  n ≠ [] ∧ pre ++ n ∈ cut.flatten ∧ pre ++ n ++ slash ∈ cut.flatten ∧ ¬ Together cut (pre ++ n) (pre ++ n ++ slash)

instance (pre n : Str) (cut : List (List Str)) : Decidable (Shadowed pre n cut) :=
  inferInstanceAs (Decidable (n ≠ [] ∧ _ ∧ _ ∧ ¬ Together cut _ _))

section
variable (pre n : Str) (now : Timespec) (g : Garbage) (size lastModified : Nat)

/-- What one page makes of the entry `n`. -/
def pageShows (items : List Str) (before : Option ChildInfo) : Option ChildInfo :=
  if items.contains (pre ++ n) then some ((fileNode n g size lastModified).merged now before)
  else if n ≠ [] ∧ items.contains (pre ++ n ++ slash) then some ((dirNode n).merged now before)
  else before

/-- What the pages of the cut make of the entry `n`: as if they were one page, unless the directory comes after the file. -/
def cutShows (cut : List (List Str)) (before : Option ChildInfo) : Option ChildInfo :=
  if Shadowed pre n cut then some ((dirNode n).merged now (some ((fileNode n g size lastModified).merged now before)))
  else pageShows pre n now g size lastModified cut.flatten before

end

section
variable {pre n : Str} {now : Timespec} {g g' : Garbage} {size lastModified : Nat} {cut : List (List Str)} {items : List Str}
  {before : Option ChildInfo}

theorem pageShows_file (h : pre ++ n ∈ items) : pageShows pre n now g size lastModified items before =
    some ((fileNode n g size lastModified).merged now before) := by
  rw [pageShows, if_pos (List.contains_iff_mem.mpr h)]

theorem pageShows_dir (hkey : pre ++ n ∉ items) (hdir : n ≠ [] ∧ pre ++ n ++ slash ∈ items) :
    pageShows pre n now g size lastModified items before = some ((dirNode n).merged now before) := by
  rw [pageShows, if_neg fun h => hkey (List.contains_iff_mem.mp h), if_pos ⟨hdir.1, List.contains_iff_mem.mpr hdir.2⟩]

theorem pageShows_unnamed (hkey : pre ++ n ∉ items) (hdir : ¬ (n ≠ [] ∧ pre ++ n ++ slash ∈ items)) :
    pageShows pre n now g size lastModified items before = before := by
  rw [pageShows, if_neg fun h => hkey (List.contains_iff_mem.mp h),
    if_neg fun h => hdir ⟨h.1, List.contains_iff_mem.mp h.2⟩]

/-- What the memory held is that of the page that lists the file. -/
theorem pageShows_garbage (h : pre ++ n ∉ items) :
    pageShows pre n now g size lastModified items before = pageShows pre n now g' size lastModified items before := by
  rw [pageShows, pageShows, if_neg fun hmem => h (List.contains_iff_mem.mp hmem), if_neg fun hmem => h (List.contains_iff_mem.mp hmem)]

theorem cutShows_nil : cutShows pre n now g size lastModified [] before = before := by
  rw [cutShows, if_neg fun h => List.not_mem_nil h.2.1]
  exact pageShows_unnamed List.not_mem_nil fun h => List.not_mem_nil h.2

/-- One more page of a sorted listing. -/
theorem cutShows_concat (hs : (cut ++ [items]).flatten.Pairwise (· < ·)) :
    cutShows pre n now g size lastModified (cut ++ [items]) before =
      pageShows pre n now g size lastModified items (cutShows pre n now g size lastModified cut before) := by
  have hlater : pre ++ n < pre ++ n ++ slash := lt_append (by simp [slash])
  by_cases hkey : pre ++ n ∈ items
  · -- Neither entry was on an earlier page.
    have hold : pre ++ n ∉ cut.flatten := fun h => lt_irrefl _ (lt_of_pages hs h hkey)
    have holdDir : pre ++ n ++ slash ∉ cut.flatten := fun h => lt_asymm (lt_of_pages hs h hkey) hlater
    have hplain : ¬ Shadowed pre n (cut ++ [items]) := by
      rintro ⟨-, -, hmem, happart⟩
      exact happart (together_concat.mpr (.inr ⟨hkey, (mem_flatten_concat.mp hmem).resolve_left holdDir⟩))
    have hbefore : cutShows pre n now g size lastModified cut before = before := by
      rw [cutShows, if_neg fun h => hold h.2.1]
      exact pageShows_unnamed hold fun h => holdDir h.2
    rw [hbefore, pageShows_file hkey, cutShows, if_neg hplain, pageShows_file (mem_flatten_concat.mpr (.inr hkey))]
  have hflat : pre ++ n ∈ (cut ++ [items]).flatten ↔ pre ++ n ∈ cut.flatten := by
    rw [mem_flatten_concat, or_iff_left hkey]
  have htogether : Together (cut ++ [items]) (pre ++ n) (pre ++ n ++ slash) ↔ Together cut (pre ++ n) (pre ++ n ++ slash) := by
    rw [together_concat, or_iff_left fun h => hkey h.1]
  by_cases hdir : n ≠ [] ∧ pre ++ n ++ slash ∈ items
  · have holdDir : pre ++ n ++ slash ∉ cut.flatten := fun h => lt_irrefl _ (lt_of_pages hs h hdir.2)
    have hplain : ¬ Shadowed pre n cut := fun h => holdDir h.2.2.1
    have hmem : pre ++ n ++ slash ∈ (cut ++ [items]).flatten := mem_flatten_concat.mpr (.inr hdir.2)
    rw [pageShows_dir hkey hdir]
    by_cases hfile : pre ++ n ∈ cut.flatten
    · have hshadowed : Shadowed pre n (cut ++ [items]) :=
        ⟨hdir.1, hflat.mpr hfile, hmem, fun h => holdDir (htogether.mp h).mem.2⟩
      rw [cutShows, if_pos hshadowed, cutShows, if_neg hplain, pageShows_file hfile]
    · have hnot : pre ++ n ∉ (cut ++ [items]).flatten := fun h => hfile (hflat.mp h)
      rw [cutShows, if_neg fun h => hnot h.2.1, pageShows_dir hnot ⟨hdir.1, hmem⟩, cutShows, if_neg hplain,
        pageShows_unnamed hfile fun h => holdDir h.2]
  · have hflatDir : n ≠ [] ∧ pre ++ n ++ slash ∈ (cut ++ [items]).flatten ↔ n ≠ [] ∧ pre ++ n ++ slash ∈ cut.flatten := by
      rw [mem_flatten_concat, and_or_left, or_iff_left hdir]
    have hshadowed : Shadowed pre n (cut ++ [items]) ↔ Shadowed pre n cut := by
      unfold Shadowed
      rw [hflat, htogether]
      constructor
      · rintro ⟨hne, hfile, hmem, happart⟩
        exact ⟨hne, hfile, (hflatDir.mp ⟨hne, hmem⟩).2, happart⟩
      · rintro ⟨hne, hfile, hmem, happart⟩
        exact ⟨hne, hfile, (hflatDir.mpr ⟨hne, hmem⟩).2, happart⟩
    have hpage : pageShows pre n now g size lastModified (cut ++ [items]).flatten before =
        pageShows pre n now g size lastModified cut.flatten before := by
      by_cases hfile : pre ++ n ∈ cut.flatten
      · rw [pageShows_file hfile, pageShows_file (hflat.mpr hfile)]
      · have hnot : pre ++ n ∉ (cut ++ [items]).flatten := fun h => hfile (hflat.mp h)
        by_cases hmem : n ≠ [] ∧ pre ++ n ++ slash ∈ cut.flatten
        · rw [pageShows_dir hfile hmem, pageShows_dir hnot (hflatDir.mpr hmem)]
        · rw [pageShows_unnamed hfile hmem, pageShows_unnamed hnot fun h => hmem (hflatDir.mp h)]
    rw [pageShows_unnamed hkey hdir, cutShows, cutShows, hpage]
    simp only [hshadowed]

end

namespace MetaImpl
variable {σ : Type} {c : S3Client σ} {b : Bucket} {modified : σ → Str → Nat} {view : σ → Bucket} {opt : MetaOpt}
  {pre marker n : Str} {es items : List Str} {cut done : List (List Str)} {r : ListObjectsResult} {m m' : LocalMemMeta} {t t' : σ}
  {a p : Addr} {ino pino : InodeID} {now : Timespec} {garbage : Garbage} {nodes : List FTreeNode} {node : FTreeNode}
  {before : Option ChildInfo} {lastModified : Nat}

/-! ### A refresh -/

/-- The node of a file has what the listing has. -/
theorem file_listed (hunder : Under pre r) {g : Str → Garbage} (hft : buildFtree pre (pageResp g r) = some nodes)
    (hnode : node ∈ nodes) (hfile : node.isDir = false) : ∃ o ∈ r.contents, o.key = pre ++ node.name ∧
      node.oinfo = objInfo (g o.key) o.key o.size o.lastModified := by
  obtain ⟨nodes', hft', hof, -⟩ := buildFtree_some (pageUnder_page hunder g)
  obtain rfl := Option.some.inj (hft.symm.trans hft')
  rcases (hof node hnode).2 with ⟨hdir, -⟩ | ⟨-, hmem, hname⟩
  · cases hfile.symm.trans hdir
  · obtain ⟨o, ho, he⟩ := List.mem_map.mp hmem
    rw [← he] at hname
    exact ⟨o, ho, hname, he.symm⟩

theorem merged_file {node : FTreeNode} (hfile : node.isDir = false) {key : Str} {g : Garbage} {size : Nat}
    (hobj : node.oinfo = objInfo g key size lastModified) (n : Str) :
    node.merged now before = (fileNode n g size lastModified).merged now before := by
  cases before <;> simp only [FTreeNode.merged, hfile, hobj] <;> rfl

/-- The step lemma: what the directory shows of `n` after one more page. -/
theorem page_shows (hd : c.Dates modified) (h : c.listObjects (pageRequest pre marker) t = .ok r t') (hl : r.Lists b pre items)
    (hes : b.Entries pre es) (hsub : ∀ e ∈ items, e ∈ es) (hm : Inv m) (ha : m.lookup ino = some a) (hn : '/' ∉ n)
    (hft : buildFtree pre (pageResp (c.garbage t) r) = some nodes) (hrun : buildDentries now ino nodes m = .ok () m') :
    m'.childInfo a n = pageShows pre n now (c.garbage t (pre ++ n)) ((b (pre ++ n)).getD []).length (modified t (pre ++ n)) items (m.childInfo a n) := by
  obtain ⟨nodes', hft', hnodes, hkinds⟩ := page_nodes hl hes hsub (c.garbage t)
  obtain rfl := Option.some.inj (hft.symm.trans hft')
  obtain ⟨hnode, hnone⟩ := childInfo_buildDentries hm ha hnodes.flat hnodes.mode (nodup_buildFtree hft) hrun
  by_cases hnamed : ∃ node ∈ nodes, node.name = n
  · obtain ⟨node, hmem, rfl⟩ := hnamed
    rw [hnode node hmem]
    rcases (hkinds node hmem).2 with ⟨hfile, hkey, hsize⟩ | ⟨he, hne, hkey, hdir⟩
    · obtain ⟨o, ho, hokey, hobj⟩ := file_listed (lists_under hl hes hsub) hft hmem hfile
      have hdate : o.lastModified = modified t (pre ++ node.name) := hokey ▸ (hd.list _ _ _ _ h).2 o ho
      have hlength : o.size = ((b (pre ++ node.name)).getD []).length := by
        rw [← hsize, hobj]
        rfl
      rw [hdate, hlength, hokey] at hobj
      rw [pageShows_file hkey, merged_file hfile hobj]
    · rw [pageShows_dir hkey ⟨hne, hdir⟩, he]
      rfl
  · have hunnamed : ¬ NamedBy pre items n := fun h => hnamed (nodes_named hl hnodes n h)
    have hkey : pre ++ n ∉ items := fun h => hunnamed ⟨hn, .inl h⟩
    have hdir : ¬ (n ≠ [] ∧ pre ++ n ++ slash ∈ items) := fun h => hunnamed ⟨hn, .inr h⟩
    rw [hnone n fun node hmem he => hnamed ⟨node, hmem, he⟩, pageShows_unnamed hkey hdir]

/-- What the directory shows of `n` after the pages of the cut. -/
theorem refreshLoop_shows (hd : c.Dates modified) (h : c.Cuts b pre t marker cut t') (hes : b.Entries pre es)
    (hall : cut.flatten = es) (hm : Inv m) (ha : m.lookup ino = some a) (hn : '/' ∉ n) (now : Timespec)
    (garbage : Garbage) {fuel : Nat} (hfuel : cut.length ≤ fuel) : ∃ nodes m',
      (refreshLoop (s3Stor c) ino pre fuel marker).run ⟨m, t, now, garbage⟩ = .ok () ⟨m', t', now, garbage⟩ ∧
      Built a nodes m m' ∧ (∀ n, NamedBy pre cut.flatten n → ∃ node ∈ nodes, node.name = n) ∧ modified t' = modified t ∧
      m'.childInfo a n = cutShows pre n now (c.entryGarbage pre (pre ++ n) t marker cut) ((b (pre ++ n)).getD []).length
        (modified t (pre ++ n)) cut (m.childInfo a n) := by
  have hall : ([] ++ cut).flatten = es := hall
  -- Until its page is read, the memory of the list entry is that of a page to come.
  have hpages := run_refreshLoop_pages (I := fun pages rest marker₁ t₁ m₁ => modified t₁ = modified t ∧
    (pre ++ n ∉ pages.flatten →
      c.entryGarbage pre (pre ++ n) t₁ marker₁ rest = c.entryGarbage pre (pre ++ n) t marker cut) ∧
    m₁.childInfo a n = cutShows pre n now (c.entryGarbage pre (pre ++ n) t marker cut) ((b (pre ++ n)).getD []).length
      (modified t (pre ++ n)) pages (m.childInfo a n))
    h hes hall hm ha now garbage hfuel ?_ ⟨rfl, fun _ => rfl, cutShows_nil.symm⟩
  · obtain ⟨nodes, m', hrun, hb, hnamed, -, hkeeps, -, hinfo⟩ := hpages
    exact ⟨nodes, m', hrun, hb, hnamed, hkeeps, hinfo⟩
  rintro done rest items marker₁ r t₁ t₂ m₁ m₂ nodes hlist hl hsub hs hm₁ ha₁ hft hrun ⟨hkeeps, hgarbage, hinfo⟩
  refine ⟨((hd.list _ _ _ _ hlist).1).trans hkeeps, fun hnot => ?_, ?_⟩
  · have hkey : pre ++ n ∉ items := fun h => hnot (mem_flatten_concat.mpr (.inr h))
    rw [← hgarbage fun h => hnot (mem_flatten_concat.mpr (.inl h)), S3Client.entryGarbage,
      if_neg (mt List.contains_iff_mem.mp hkey), hlist]
  · rw [page_shows hd hlist hl hes hsub hm₁ ha₁ hn hft hrun, hinfo, congrFun hkeeps, cutShows_concat hs]
    by_cases hkey : pre ++ n ∈ items
    · -- The key is on one page only.
      have hold : pre ++ n ∉ done.flatten := fun h => lt_irrefl _ (lt_of_pages hs h hkey)
      rw [← hgarbage hold, S3Client.entryGarbage, if_pos (List.contains_iff_mem.mpr hkey)]
    · exact pageShows_garbage hkey

/-- What a refresh makes of a name that it lists. -/
theorem refresh_shows (hd : c.Dates modified) (hm : Inv m) (hp : m.lookup pino = some p)
    (h : c.Cuts b (m.dirPrefix p) t [] cut t') (hes : b.Entries (m.dirPrefix p) cut.flatten) (hn : '/' ∉ n)
    (hnamed : NamedBy (m.dirPrefix p) cut.flatten n) (now : Timespec) (garbage : Garbage) {fuel : Nat}
    (hfuel : cut.length ≤ fuel) : ∃ m',
      (refreshSubDentries (s3Stor c) fuel p).run ⟨m, t, now, garbage⟩ = .ok () ⟨m', t', now, garbage⟩ ∧ Inv m' ∧ Grow m m' ∧
      modified t' = modified t ∧ m'.childInfo p n = cutShows (m.dirPrefix p) n now
        (c.entryGarbage (m.dirPrefix p) (m.dirPrefix p ++ n) t [] cut) ((b (m.dirPrefix p ++ n)).getD []).length
        (modified t (m.dirPrefix p ++ n)) cut (m.childInfo p n) := by
  have halloc := (hm.indexed _ _ hp).1
  obtain ⟨nodes, m₁, hrun, hb, hlisted, hkeeps, hinfo⟩ :=
    refreshLoop_shows hd h hes rfl hm (hm.index p halloc) hn now garbage hfuel
  obtain ⟨m', hsweep, hs⟩ := run_clearUnsyncDentry now hb.inv (Nat.lt_of_lt_of_le halloc hb.grow.next)
  refine ⟨m', ?_, hs.inv, hb.grow.trans hs.grow, hkeeps, ?_⟩
  · rw [refreshSubDentries, Prog.run_bind_ok (run_pathWithSlash hm halloc), Prog.run_bind_ok run_readDentry,
      Prog.run_bind_ok hrun]
    exact run_cache_ok hsweep
  · rw [← hinfo]
    -- The child was just listed, so the sweep keeps it.
    obtain ⟨node, hnode, rfl⟩ := hlisted n hnamed
    obtain ⟨ch, hch, hsync⟩ := hb.listed node hnode
    refine childInfo_congr ?_ fun ch _ => ?_
    · rw [hch]
      exact (hs.child p .start _ ch).mpr ⟨hch, hsync⟩
    · rw [Dentry.info, Dentry.info, Dentry.isDir, Dentry.isDir, hs.inode]

/-! ### A lookup -/

/-- The entry that a lookup makes is the one that a listing would make of the same object. -/
theorem childInfo_found {obj : ObjInfo} (hp : p < m.heapNext) (isDir : Bool) (hmode : obj.mode = none) (timeout : Nat) :
    ((m.issue.link p n (m.objInode now obj isDir)).set m.heapNext (·.incTtl now timeout)).childInfo p n =
      some ((FTreeNode.mk n isDir [] obj).merged now none) := by
  have hkind : (Dentry.new n (m.objInode now obj isDir)).isDir = isDir := objInode_isDir n hmode
  have hparent : ((m.issue.link p n (m.objInode now obj isDir)).heap p).getChild n = some m.heapNext := by
    rw [heap_link_parent (m := m.issue) hp]
    exact AList.lookup_insert _
  have hnew := heap_link_new (m := m.issue) n (m.objInode now obj isDir) hp
  rw [heapNext_issue] at hnew
  rw [childInfo, heap_set_ne (Nat.ne_of_lt hp), hparent, Option.map_some, heap_set_self, hnew]
  refine congrArg some ?_
  show ChildInfo.mk (Dentry.new n (m.objInode now obj isDir)).isDir _ _ _ = _
  rw [hkind]
  rfl

/-- The two `HEAD` requests for an object that no other object of the path hides. -/
theorem run_getRemoteObj_object {body : List Byte} {isDir : Bool} (hc : c.Serves view) (hm : Inv m) (hp : p < m.heapNext)
    (hbody : view t (entryKey (m.dirPrefix p ++ n) isDir) = some body)
    (halone : isDir = true → ¬ (view t).Holds (m.dirPrefix p ++ n)) (now : Timespec) (garbage : Garbage) : ∃ t₁ r t',
      (t₁ = t ∨ t₁ = endState (c.headObject (m.dirPrefix p ++ n) t)) ∧
      c.headObject (entryKey (m.dirPrefix p ++ n) isDir) t₁ = .ok r t' ∧ view t' = view t ∧
      ∃ g, (getRemoteObj (s3Stor c) p n).run ⟨m, t, now, garbage⟩ =
        .ok (objInfo g [] body.length r.lastModified, true, isDir) ⟨m, t', now, garbage⟩ := by
  cases isDir with
  | false =>
    obtain ⟨r, t', hr, hlength, hview⟩ := hc.head t (m.dirPrefix p ++ n) body hbody
    refine ⟨t, r, t', .inl rfl, hr, hview, c.garbage t (m.dirPrefix p ++ n), ?_⟩
    rw [getRemoteObj, Prog.run_bind_ok (run_pathWithSlash hm hp), Prog.run_bind_ok run_headResp,
      Prog.run_bind_ok (run_headFile_present hr _ garbage), ← hlength]
    rfl
  | true =>
    have hnone : view t (m.dirPrefix p ++ n) = none := Option.not_isSome_iff_eq_none.mp (halone rfl)
    obtain ⟨msg, t₁, hr₁, hview₁⟩ := hc.headNone t _ hnone
    rw [← hview₁] at hbody
    obtain ⟨r, t', hr, hlength, hview⟩ := hc.head t₁ (m.dirPrefix p ++ n ++ slash) body hbody
    refine ⟨t₁, r, t', .inr (by rw [hr₁]; rfl), hr, hview.trans hview₁, c.garbage t₁ (m.dirPrefix p ++ n ++ slash), ?_⟩
    rw [getRemoteObj, Prog.run_bind_ok (run_pathWithSlash hm hp), Prog.run_bind_ok run_headResp,
      Prog.run_bind_ok (run_headFile_missing hr₁ garbage)]
    show (_ : MetaM σ _).run _ = _
    rw [if_neg Bool.false_ne_true, Prog.run_bind_ok (run_headFile_present hr _ garbage), ← hlength]
    rfl

section
variable {body : List Byte} {isDir : Bool} (hc : c.Serves view) (hd : c.Dates modified)
  (hbody : view t (entryKey (m.dirPrefix p ++ n) isDir) = some body)
include hc hd hbody

/-- A lookup that makes the entry shows the object. -/
theorem find_shows_iff (hm : Inv m) (hp : m.lookup pino = some p) (hno : (m.heap p).getChild n = none)
    (halone : isDir = true → ¬ (view t).Holds (m.dirPrefix p ++ n)) (now : Timespec) (garbage : Garbage) : ∃ a s,
      (findDentry opt (s3Stor c) pino n false).run ⟨m, t, now, garbage⟩ = .ok (some a) s ∧
      (s.cache.Shows p n body.length (modified t (entryKey (m.dirPrefix p ++ n) isDir)) ↔
        FoundRight isDir now (modified t (entryKey (m.dirPrefix p ++ n) isDir))) := by
  have halloc := (hm.indexed _ _ hp).1
  obtain ⟨t₁, r, t', ht₁, hr, -, g, hremote⟩ := run_getRemoteObj_object hc hm halloc hbody halone now garbage
  have hdate : r.lastModified = modified t (entryKey (m.dirPrefix p ++ n) isDir) := by
    rw [hd.head _ _ _ _ hr]
    rcases ht₁ with rfl | rfl
    · rfl
    · rw [hd.headKeeps]
  rw [hdate] at hremote
  refine ⟨_, _, run_findDentry_found hm hp hno hremote rfl, ?_⟩
  rw [shows_iff (childInfo_found halloc isDir rfl opt.dcacheTimeout)]
  cases isDir with
  | false => exact ⟨fun h => (Timespec.mk.inj h.ctime).1.symm, fun h => ⟨rfl, by rw [h]; rfl, by rw [h]; rfl⟩⟩
  | true => exact ⟨fun h => h.ctime, fun h => ⟨rfl, h, h⟩⟩

omit hd in
/-- A revalidation takes the size of the object and keeps the times of the entry. -/
theorem revalidation_shows_iff (hm : Inv m) (hp : m.lookup pino = some p) (ha : (m.heap p).getChild n = some a)
    (hkind : (m.heap a).isDir = isDir) (hexp : (m.heap a).isExpired now = true) (garbage : Garbage) : ∃ s,
      (findDentry opt (s3Stor c) pino n false).run ⟨m, t, now, garbage⟩ = .ok (some a) s ∧
      (s.cache.Shows p n body.length (modified t (entryKey (m.dirPrefix p ++ n) isDir)) ↔
        (m.heap a).inode.ctime = ⟨modified t (entryKey (m.dirPrefix p ++ n) isDir), 0⟩ ∧
        (m.heap a).inode.mtime = ⟨modified t (entryKey (m.dirPrefix p ++ n) isDir), 0⟩) := by
  have halloc := (hm.indexed _ _ hp).1
  have hkey : m.ownKey a = entryKey (m.dirPrefix p ++ n) isDir := by
    have hinv : CacheInv (⟨m, t, now, garbage⟩ : World σ) := hm
    rw [← hkind]
    exact ownKey_child hinv ha halloc
  obtain ⟨r, t', hr, hlength, -⟩ := hc.head t _ body hbody
  rw [← hkey] at hr
  refine ⟨_, run_findDentry_expired hm hp ha hexp (run_headFile_present hr _ garbage), ?_⟩
  have hinfo : (m.set a (revalidated opt now
      { exist := true, obj := objInfo (c.garbage t (m.ownKey a)) [] r.contentLength r.lastModified })).childInfo p n =
      some ⟨isDir, r.contentLength, (m.heap a).inode.ctime, (m.heap a).inode.mtime⟩ := by
    rw [childInfo, child_of_set hm halloc ha, Option.map_some, heap_set_self, Dentry.info, revalidated_isDir rfl, hkind]
    rfl
  rw [shows_iff hinfo]
  exact ⟨fun h => ⟨h.ctime, h.mtime⟩, fun h => ⟨hlength, h.1, h.2⟩⟩

end

/-! ### A listing -/

theorem shows_fileNode {size : Nat} {g : Garbage} :
    ((fileNode n g size lastModified).merged now before).Shows size lastModified ↔
      (before.isSome = true → g.WholeSeconds) ∧ (¬ before.isSome = true → lastModified = 0) := by
  cases before with
  | none =>
    refine ⟨fun h => ⟨fun hs => absurd hs Bool.false_ne_true, fun _ => (Timespec.mk.inj h.ctime).1.symm⟩, fun h => ?_⟩
    obtain rfl : lastModified = 0 := h.2 Bool.false_ne_true
    exact ⟨rfl, rfl, rfl⟩
  | some info =>
    refine ⟨fun h => ⟨fun _ => ⟨(Timespec.mk.inj h.ctime).2, (Timespec.mk.inj h.mtime).2⟩, fun hs => absurd rfl hs⟩, fun h => ?_⟩
    obtain ⟨hc, hm⟩ := h.1 rfl
    exact ⟨rfl, congrArg (Timespec.mk lastModified) hc, congrArg (Timespec.mk lastModified) hm⟩

theorem shows_dirNode {size : Nat} : ((dirNode n).merged now before).Shows size lastModified ↔
    size = 0 ∧ (before.isSome = true → lastModified = 0) ∧ (¬ before.isSome = true → now = ⟨lastModified, 0⟩) := by
  cases before with
  | none =>
    refine ⟨fun h => ⟨h.size.symm, fun hs => absurd hs Bool.false_ne_true, fun _ => h.ctime⟩, fun h => ?_⟩
    have hnow := h.2.2 Bool.false_ne_true
    exact ⟨h.1.symm, hnow, hnow⟩
  | some info =>
    refine ⟨fun h => ⟨h.size.symm, fun _ => (Timespec.mk.inj h.ctime).1.symm, fun hs => absurd rfl hs⟩, fun h => ?_⟩
    obtain rfl := h.2.1 rfl
    exact ⟨h.1.symm, rfl, rfl⟩

theorem fileNode_twice {size : Nat} {g g' : Garbage} {now' : Timespec} : (fileNode n g' size lastModified).merged now'
      (some ((fileNode n g size lastModified).merged now before)) = (fileNode n g size lastModified).merged now before ↔
    (before.isSome = true → g'.ctime.nsec = g.ctime.nsec ∧ g'.mtime.nsec = g.mtime.nsec) ∧
      (¬ before.isSome = true → lastModified = 0 ∧ g'.WholeSeconds) := by
  cases before with
  | none =>
    refine ⟨fun h => ⟨fun hs => absurd hs Bool.false_ne_true, fun _ => ?_⟩, fun h => ?_⟩
    · obtain ⟨hsec, hc⟩ := Timespec.mk.inj (congrArg ChildInfo.ctime h)
      exact ⟨hsec, hc, (Timespec.mk.inj (congrArg ChildInfo.mtime h)).2⟩
    · obtain ⟨rfl, hc, hm⟩ := h.2 Bool.false_ne_true
      show ChildInfo.mk false size ⟨0, g'.ctime.nsec⟩ ⟨0, g'.mtime.nsec⟩ = ⟨false, size, ⟨0, 0⟩, ⟨0, 0⟩⟩
      rw [hc, hm]
  | some info =>
    refine ⟨fun h => ⟨fun _ => ?_, fun hs => absurd rfl hs⟩, fun h => ?_⟩
    · exact ⟨(Timespec.mk.inj (congrArg ChildInfo.ctime h)).2, (Timespec.mk.inj (congrArg ChildInfo.mtime h)).2⟩
    · obtain ⟨hc, hm⟩ := h.1 rfl
      show ChildInfo.mk info.isDir size ⟨lastModified, g'.ctime.nsec⟩ ⟨lastModified, g'.mtime.nsec⟩ =
        ⟨info.isDir, size, ⟨lastModified, g.ctime.nsec⟩, ⟨lastModified, g.mtime.nsec⟩⟩
      rw [hc, hm]

theorem dirNode_twice {now' : Timespec} :
    (dirNode n).merged now' (some ((dirNode n).merged now before)) = (dirNode n).merged now before ↔
    before.isSome = true ∨ now = ⟨0, 0⟩ := by
  cases before with
  | none =>
    refine ⟨fun h => .inr (congrArg ChildInfo.ctime h).symm, fun h => ?_⟩
    obtain rfl : now = ⟨0, 0⟩ := h.resolve_left Bool.false_ne_true
    rfl
  | some info => exact iff_of_true rfl (.inl rfl)

section
variable {size : Nat} {isDir : Bool} {g g' : Garbage}

/-- The listing has the name as what it is. -/
structure ListsAs (pre n : Str) (isDir : Bool) (cut : List (List Str)) : Prop where
  file : isDir = false → pre ++ n ∈ cut.flatten
  dir : isDir = true → pre ++ n ∉ cut.flatten ∧ n ≠ [] ∧ pre ++ n ++ slash ∈ cut.flatten

theorem cutShows_file (h : ListsAs pre n false cut) : cutShows pre n now g size lastModified cut before =
    some (if Shadowed pre n cut then (dirNode n).merged now (some ((fileNode n g size lastModified).merged now before))
      else (fileNode n g size lastModified).merged now before) := by
  rw [cutShows, pageShows_file (h.file rfl)]
  split <;> rfl

theorem cutShows_dir (h : ListsAs pre n true cut) : cutShows pre n now g size lastModified cut before =
    some ((dirNode n).merged now before) := by
  obtain ⟨hkey, hdir⟩ := h.dir rfl
  rw [cutShows, if_neg fun h => hkey h.2.1, pageShows_dir hkey hdir]

variable (now before lastModified size g) in
/-- What a refresh makes of the entry shows the object. -/
theorem cutShows_iff (h : ListsAs pre n isDir cut) : ∃ info, cutShows pre n now g size lastModified cut before = some info ∧
    (info.Shows size lastModified ↔
      ListedRight isDir (before.isSome = true) (Shadowed pre n cut) now g size lastModified) := by
  cases isDir with
  | false =>
    refine ⟨_, cutShows_file h, ?_⟩
    split
    · rename_i hshadowed
      rw [shows_dirNode]
      exact ⟨fun h => ⟨fun _ hn => absurd hshadowed hn, fun _ _ => ⟨h.1, h.2.1 rfl⟩, nofun⟩,
        fun h => ⟨(h.taken rfl hshadowed).1, fun _ => (h.taken rfl hshadowed).2, fun hs => absurd rfl hs⟩⟩
    · rename_i hplain
      rw [shows_fileNode]
      exact ⟨fun h => ⟨fun _ _ => h, fun _ hs => absurd hs hplain, nofun⟩, fun h => h.file rfl hplain⟩
  | true =>
    refine ⟨_, cutShows_dir h, ?_⟩
    rw [shows_dirNode]
    exact ⟨fun h => ⟨nofun, nofun, fun _ => h⟩, fun h => h.dir rfl⟩

/-- A second refresh shows the same. -/
theorem cutShows_twice {cut' : List (List Str)} {now' : Timespec} (h : ListsAs pre n isDir cut) (h' : ListsAs pre n isDir cut')
    (hsame : Shadowed pre n cut' ↔ Shadowed pre n cut) :
    cutShows pre n now' g' size lastModified cut' (cutShows pre n now g size lastModified cut before) =
      cutShows pre n now g size lastModified cut before ↔
    ListedTwice isDir (before.isSome = true) (Shadowed pre n cut) now g g' lastModified := by
  cases isDir with
  | false =>
    rw [cutShows_file h, cutShows_file h']
    simp only [hsame]
    split
    · rename_i hshadowed
      refine iff_of_true (by cases before <;> rfl) ⟨fun _ hn => absurd hshadowed hn, fun _ hn => absurd hshadowed hn, ?_⟩
      exact fun hdir => absurd hdir Bool.false_ne_true
    · rename_i hplain
      rw [Option.some_inj, fileNode_twice]
      refine ⟨fun h => ⟨fun _ _ => h.1, fun _ _ => h.2, fun hdir => absurd hdir Bool.false_ne_true⟩, fun h => ?_⟩
      exact ⟨h.updated rfl hplain, h.made rfl hplain⟩
  | true =>
    rw [cutShows_dir h, cutShows_dir h', Option.some_inj, dirNode_twice]
    exact ⟨fun h => ⟨fun hf => absurd hf.symm Bool.false_ne_true, fun hf => absurd hf.symm Bool.false_ne_true, fun _ => h⟩,
      fun h => h.dir rfl⟩

end

/-- What a refresh makes of the entry of an object. -/
theorem refresh_loads {isDir : Bool} {body : List Byte} (hd : c.Dates modified) (hm : Inv m) (hp : m.lookup pino = some p)
    (hn : '/' ∉ n) (hbody : b (entryKey (m.dirPrefix p ++ n) isDir) = some body) (hlists : ListsAs (m.dirPrefix p) n isDir cut)
    (h : c.Cuts b (m.dirPrefix p) t [] cut t') (hes : b.Entries (m.dirPrefix p) cut.flatten) (now : Timespec)
    (garbage : Garbage) {fuel : Nat} (hfuel : cut.length ≤ fuel) : ∃ m',
      (refreshSubDentries (s3Stor c) fuel p).run ⟨m, t, now, garbage⟩ = .ok () ⟨m', t', now, garbage⟩ ∧ Inv m' ∧ Grow m m' ∧
      modified t' = modified t ∧ m'.childInfo p n = cutShows (m.dirPrefix p) n now
        (c.entryGarbage (m.dirPrefix p) (m.dirPrefix p ++ n) t [] cut) body.length
        (modified t (entryKey (m.dirPrefix p ++ n) isDir)) cut (m.childInfo p n) := by
  have hnamed : NamedBy (m.dirPrefix p) cut.flatten n := by
    refine ⟨hn, ?_⟩
    cases isDir with
    | false => exact .inl (hlists.file rfl)
    | true => exact .inr (hlists.dir rfl).2
  obtain ⟨m', hrun, hinv, hgrow, hkeeps, hinfo⟩ := refresh_shows hd hm hp h hes hn hnamed now garbage hfuel
  refine ⟨m', hrun, hinv, hgrow, hkeeps, ?_⟩
  cases isDir with
  | false =>
    have hlength : ((b (m.dirPrefix p ++ n)).getD []).length = body.length := by
      rw [show b (m.dirPrefix p ++ n) = some body from hbody]
      rfl
    rw [hinfo, hlength]
    rfl
  | true => rw [hinfo, cutShows_dir hlists, cutShows_dir hlists]

/-! ### All loads -/

/-- An object is shown right after a load exactly under the condition of the path that loaded it: the lookup that makes its
    entry, the lookup that revalidates it, and a refresh of its directory that returns. A second refresh of the unchanged
    bucket shows what the first did unless the first made the entry and left other times than the listing has, or the memory
    of the list entry held other nanoseconds. -/
theorem loads_show_iff (hc : c.Serves view) (hd : c.Dates modified) (hs : Reachable opt m) (hp : m.lookup pino = some p)
    (hn : '/' ∉ n) {isDir : Bool} (hne : isDir = true → n ≠ []) {body : List Byte}
    (hbody : view t (entryKey (m.dirPrefix p ++ n) isDir) = some body)
    (halone : isDir = true → ¬ (view t).Holds (m.dirPrefix p ++ n))
    (hdate : modified t (entryKey (m.dirPrefix p ++ n) isDir) = lastModified) (now : Timespec) (garbage : Garbage) :
    ((m.heap p).getChild n = none → ∃ a s,
      (findDentry opt (s3Stor c) pino n false).run ⟨m, t, now, garbage⟩ = .ok (some a) s ∧
      (s.cache.Shows p n body.length lastModified ↔ FoundRight isDir now lastModified)) ∧
    (∀ a, (m.heap p).getChild n = some a → (m.heap a).isDir = isDir → (m.heap a).isExpired now = true → ∃ s,
      (findDentry opt (s3Stor c) pino n false).run ⟨m, t, now, garbage⟩ = .ok (some a) s ∧
      (s.cache.Shows p n body.length lastModified ↔
        (m.heap a).inode.ctime = ⟨lastModified, 0⟩ ∧ (m.heap a).inode.mtime = ⟨lastModified, 0⟩)) ∧
    ∀ cut t' fuel, c.Cuts (view t) (m.dirPrefix p) t [] cut t' → (view t).Entries (m.dirPrefix p) cut.flatten →
      cut.length ≤ fuel →
      ∀ m', (refreshSubDentries (s3Stor c) fuel p).run ⟨m, t, now, garbage⟩ = .ok () ⟨m', t', now, garbage⟩ →
      (m'.Shows p n body.length lastModified ↔ ListedRight isDir ((m.childInfo p n).isSome = true)
        (Shadowed (m.dirPrefix p) n cut) now (c.entryGarbage (m.dirPrefix p) (m.dirPrefix p ++ n) t [] cut)
        body.length lastModified) ∧
      ∀ cut' t'' fuel' now', c.Cuts (view t) (m.dirPrefix p) t' [] cut' t'' → cut'.flatten = cut.flatten →
        (Shadowed (m.dirPrefix p) n cut' ↔ Shadowed (m.dirPrefix p) n cut) → cut'.length ≤ fuel' →
        ∀ m'', (refreshSubDentries (s3Stor c) fuel' p).run ⟨m', t', now', garbage⟩ = .ok () ⟨m'', t'', now', garbage⟩ →
        (m''.childInfo p n = m'.childInfo p n ↔ ListedTwice isDir ((m.childInfo p n).isSome = true)
          (Shadowed (m.dirPrefix p) n cut) now (c.entryGarbage (m.dirPrefix p) (m.dirPrefix p ++ n) t [] cut)
          (c.entryGarbage (m.dirPrefix p) (m.dirPrefix p ++ n) t' [] cut') lastModified) := by
  subst hdate
  have hm := hs.inv
  refine ⟨fun hno => find_shows_iff hc hd hbody hm hp hno halone now garbage,
    fun a ha hkind hexp => revalidation_shows_iff hc hbody hm hp ha hkind hexp garbage, ?_⟩
  intro cut t' fuel hcut hes hfuel m' hreturned
  have halloc := (hm.indexed _ _ hp).1
  have hlists : ∀ {cut : List (List Str)}, (view t).Entries (m.dirPrefix p) cut.flatten → ListsAs (m.dirPrefix p) n isDir cut := by
    intro cut hes
    refine ⟨fun hfile => ?_, fun hdir => ⟨fun hkey => halone hdir ((hes.key hn).mp hkey), hne hdir, ?_⟩⟩
    · subst hfile
      exact (hes.key hn).mpr (Option.isSome_iff_exists.mpr ⟨body, hbody⟩)
    · subst hdir
      refine (hes.dir hn).mpr ⟨[], Option.isSome_iff_exists.mpr ⟨body, ?_⟩⟩
      rw [List.append_nil]
      exact hbody
  obtain ⟨m₁, hrun, hinv, hgrow, hkeeps, hinfo⟩ := refresh_loads hd hm hp hn hbody (hlists hes) hcut hes now garbage hfuel
  obtain rfl : m' = m₁ := congrArg World.cache (Result.ok.inj (hreturned.symm.trans hrun)).2
  obtain ⟨info, hshown, hright⟩ := cutShows_iff now (m.childInfo p n)
    (modified t (entryKey (m.dirPrefix p ++ n) isDir)) body.length
    (c.entryGarbage (m.dirPrefix p) (m.dirPrefix p ++ n) t [] cut) (hlists hes)
  refine ⟨(shows_iff (hinfo.trans hshown)).trans hright,
    fun cut' t'' fuel' now' hcut' hflat hsame hfuel' m'' hreturned' => ?_⟩
  have hdirPath : m'.dirPrefix p = m.dirPrefix p := dirPrefix_grow hm hgrow halloc
  have hes' : (view t).Entries (m.dirPrefix p) cut'.flatten := hflat.symm ▸ hes
  rw [← hdirPath] at hcut' hes' hbody
  obtain ⟨m₂, hrun', -, -, -, hinfo'⟩ := refresh_loads hd hinv (hgrow.index _ _ hp) hn hbody
    (hdirPath.symm ▸ hlists (hdirPath ▸ hes')) hcut' hes' now' garbage hfuel'
  obtain rfl : m'' = m₂ := congrArg World.cache (Result.ok.inj (hreturned'.symm.trans hrun')).2
  rw [hinfo', hinfo, hkeeps, hdirPath]
  exact cutShows_twice (hlists hes) (hlists (hdirPath ▸ hes')) hsame

theorem client_dates : Log.client.Dates fun _ _ => 0 where
  head log key r log' h := by
    simp only [Log.client] at h
    split at h
    · obtain ⟨rfl, -⟩ := Result.ok.inj h
      rfl
    · cases h
  headKeeps _ _ := rfl
  list log req r log' h := by
    obtain ⟨rfl, -⟩ := Result.ok.inj h
    refine ⟨rfl, fun o ho => ?_⟩
    rw [Log.contents_object ho]
    rfl

/-- A file of one byte. -/
def oneByte : Log := [(.putFile ['f'] [1], true)]

/-- An object of the time 0. -/
theorem loads_show_iff_oneByte : ∃ a s,
    (findDentry ⟨0, 0, 60⟩ (s3Stor Log.client) ROOT_INODE_ID ['f'] false).run (newWorld oneByte) = .ok (some a) s ∧
      s.cache.Shows 0 ['f'] 1 0 := by
  have hnew : Reachable ⟨0, 0, 60⟩ newCache := .new ⟨0, 0⟩
  have hbody : oneByte.bucket (entryKey (newCache.dirPrefix 0 ++ ['f']) false) = some [1] := by decide +kernel
  have hroot : newCache.lookup ROOT_INODE_ID = some 0 := rfl
  obtain ⟨hfind, -⟩ := loads_show_iff Log.client_serves client_dates hnew hroot (by decide) (fun h => by cases h) hbody
    (fun h => by cases h) rfl ⟨0, 0⟩ noGarbage
  obtain ⟨a, s, hrun, hshows⟩ := hfind rfl
  exact ⟨a, s, hrun, hshows.mpr rfl⟩

/-- A client over objects that were last modified at 7 s, where uninitialised memory holds the nanoseconds 5. -/
def datedSeven : S3Client Log :=
  { Log.client with
    garbage := fun _ _ => { noGarbage with ctime := ⟨0, 5⟩, mtime := ⟨0, 5⟩ }
    headObject := fun key => do
      let r ← Log.client.headObject key
      return { r with lastModified := 7 }
    listObjects := fun req => do
      let r ← Log.client.listObjects req
      return { r with contents := r.contents.map fun o => { o with lastModified := 7 } } }

/-- The root after a number of refreshes, a minute apart. -/
def refreshedRoot : Nat → World Log
  | 0 => newWorld oneByte
  | k + 1 =>
    let s := refreshedRoot k
    { endState ((refreshSubDentries (s3Stor datedSeven) 1 0).run s) with now := ⟨60 * (k + 1), 0⟩ }

/-- A lookup and a first refresh give the file no times, a second refresh gives it the seconds of the object. -/
theorem file_without_times : datedSeven.headObject ['f'] oneByte = .ok ⟨1, 7⟩ oneByte ∧
    ((endState ((findDentry ⟨0, 0, 60⟩ (s3Stor datedSeven) ROOT_INODE_ID ['f'] false).run (newWorld oneByte))).cache.childInfo
      0 ['f'] = some ⟨false, 1, ⟨0, 0⟩, ⟨0, 0⟩⟩) ∧
    (refreshedRoot 1).cache.childInfo 0 ['f'] = some ⟨false, 1, ⟨0, 0⟩, ⟨0, 0⟩⟩ ∧
    (refreshedRoot 2).cache.childInfo 0 ['f'] = some ⟨false, 1, ⟨7, 5⟩, ⟨7, 5⟩⟩ :=
  ⟨rfl, by decide +kernel, by decide +kernel, by decide +kernel⟩

end MetaImpl

end Catfs
