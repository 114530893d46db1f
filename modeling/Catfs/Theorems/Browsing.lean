import Catfs.Theorems.CheckedCreate
import Catfs.Theorems.TreeNames

/-! # A mount that only looks

While nobody changes the bucket, any number of lookups and listings may run at the same time and any call may fail: each
entry of the tree stands for something in the bucket, of its kind, and a file has the size of its object
(`browsing_faithful`). -/

namespace Catfs

open Lib MetaM LocalMemMeta
open EStateM (Result)

namespace Bucket

/-- A directory at `path` has a key below it, and a file is an object of this size. -/
def Shows (b : Bucket) (path : Str) (isDir : Bool) (size : Nat) : Prop :=
  if isDir then ∃ rest, b.Holds (path ++ slash ++ rest) else ∃ body, b path = some body ∧ size = body.length

/-- No object has a key below it. -/
def Treelike (b : Bucket) : Prop := ∀ key rest, b.Holds key → ¬ b.Holds (key ++ slash ++ rest)

variable {b : Bucket} {path : Str} {isDir isDir' : Bool} {size size' : Nat}

theorem shows_dir : b.Shows path true size ↔ ∃ rest, b.Holds (path ++ slash ++ rest) := by simp [Shows]

theorem shows_file : b.Shows path false size ↔ ∃ body, b path = some body ∧ size = body.length := by simp [Shows]

theorem Shows.holds (h : b.Shows path false size) : b.Holds path := by
  obtain ⟨body, hbody, -⟩ := shows_file.mp h
  rw [Holds, hbody]
  rfl

/-- A path is either a file or a directory. -/
theorem Shows.kind (hb : b.Treelike) (h : b.Shows path isDir size) (h' : b.Shows path isDir' size') : isDir = isDir' := by
  have hapart : ∀ {s s'}, b.Shows path true s → b.Shows path false s' → False := fun hdir hfile =>
    have ⟨rest, hrest⟩ := shows_dir.mp hdir
    hb path rest hfile.holds hrest
  cases isDir <;> cases isDir'
  · rfl
  · exact (hapart h' h).elim
  · exact (hapart h h').elim
  · rfl

end Bucket

/-- What a client answers about objects and listings is so, when it answers. -/
structure S3Client.Accurate {σ : Type} (c : S3Client σ) (view : σ → Bucket) : Prop where
  head : ∀ t key r t', c.headObject key t = .ok r t' → ∃ body, view t key = some body ∧ r.contentLength = body.length
  miss : c.Misses view
  headKeeps : ∀ t key, view (endState (c.headObject key t)) = view t
  list : ∀ t req r t', req.delimiter = slash → c.listObjects req t = .ok r t' →
    (view t).PartOfListing req.pre r.contents r.commonPrefixes
  listKeeps : ∀ t req, view (endState (c.listObjects req t)) = view t

theorem Log.client_accurate : Log.client.Accurate Log.bucket where
  head t key r t' h := by
    obtain ⟨body, hbody⟩ := Option.isSome_iff_exists.mp (Log.client_confined.head t key r t' h)
    obtain ⟨r', t₁, hr, hlength, -⟩ := Log.client_serves.head t key body hbody
    obtain ⟨rfl, -⟩ := Result.ok.inj (hr.symm.trans h)
    exact ⟨body, hbody, hlength⟩
  miss := Log.client_misses
  headKeeps := Log.client_confined.headKeeps
  list := Log.client_confined.list
  listKeeps := Log.client_confined.listKeeps

namespace LocalMemMeta
variable {m m' : LocalMemMeta} {b : Bucket} {a p c : Addr} {n path : Str} {inode : Inode} {f : Dentry → Dentry} {nodes : List FTreeNode}
  {node : FTreeNode} {now : Timespec} {ino : InodeID}

/-- Every dentry but the root stands for something in the bucket. -/
structure Mirrors (b : Bucket) (m : LocalMemMeta) : Prop where
  root : (m.heap 0).isDir = true
  shows : ∀ a path, 0 < a → a < m.heapNext → m.fullPath a = some path → b.Shows path (m.heap a).isDir (m.heap a).inode.size

/-- The tree grew, and no dentry became of another kind. -/
structure Ages (m m' : LocalMemMeta) : Prop where
  inv : Inv m'
  grow : Grow m m'
  kind : ∀ a, a < m.heapNext → (m'.heap a).isDir = (m.heap a).isDir

theorem Ages.refl (hm : Inv m) : Ages m m := ⟨hm, .refl m, fun _ _ => rfl⟩

theorem Ages.trans {m'' : LocalMemMeta} (h : Ages m m') (h' : Ages m' m'') : Ages m m'' :=
  ⟨h'.inv, h.grow.trans h'.grow, fun a ha => (h'.kind a (Nat.lt_of_lt_of_le ha h.grow.next)).trans (h.kind a ha)⟩

theorem faithful_new (opt : MetaOpt) : Mirrors b (LocalMemMeta.new opt now) :=
  ⟨by simp [LocalMemMeta.new, Dentry.new, Dentry.isDir, S_IFDIR], fun _ _ ha halloc => absurd halloc (Nat.not_lt.mpr ha)⟩

/-- The dentries that were there have their sizes, or others that their objects have. -/
theorem Mirrors.ages (h : Mirrors b m) (hm : Inv m) (hages : Ages m m')
    (hsize : ∀ a path, a < m.heapNext → m.fullPath a = some path → (m'.heap a).inode.size = (m.heap a).inode.size ∨
      b.Shows path (m.heap a).isDir (m'.heap a).inode.size)
    (hnew : ∀ a path, m.heapNext ≤ a → a < m'.heapNext → m'.fullPath a = some path →
      b.Shows path (m'.heap a).isDir (m'.heap a).inode.size) : Mirrors b m' := by
  refine ⟨(hages.kind 0 hm.rootPos).trans h.root, fun a path hpos halloc hpath => ?_⟩
  by_cases ha : a < m.heapNext
  · rw [fullPath_grow hm hages.grow ha] at hpath
    rw [hages.kind a ha]
    rcases hsize a path ha hpath with hsame | hshows
    · rw [hsame]
      exact h.shows a path hpos ha hpath
    · exact hshows
  · exact hnew a path (Nat.not_lt.mp ha) halloc hpath

/-- A dentry is altered, whose kind stays. -/
theorem Mirrors.set (h : Mirrors b m) (hm : Inv m) (hf : Mild f) (hkind : (f (m.heap a)).isDir = (m.heap a).isDir)
    (hsize : ∀ path, a < m.heapNext → m.fullPath a = some path → (f (m.heap a)).inode.size = (m.heap a).inode.size ∨
      b.Shows path (m.heap a).isDir (f (m.heap a)).inode.size) : Mirrors b (m.set a f) ∧ Ages m (m.set a f) := by
  have hages : Ages m (m.set a f) := by
    refine ⟨hm.set hf, .set hf, fun d hd => ?_⟩
    rw [heap_set]
    split
    · rename_i hda
      rw [hda, hkind]
    · rfl
  refine ⟨h.ages hm hages (fun d path hd hpath => ?_) fun d path hd hd' => absurd hd' (Nat.not_lt.mpr hd), hages⟩
  rw [heap_set]
  split
  · rename_i hda
    subst hda
    exact hsize path hd hpath
  · exact .inl rfl

/-- A new dentry that stands for something in the bucket. -/
theorem Mirrors.link (h : Mirrors b m) (hm : Inv m) (hp : p < m.heapNext) (hino : inode.ino = m.nextInodeId)
    (hnew : b.Shows (m.dirPrefix p ++ n) (Dentry.new n inode).isDir inode.size) :
    Mirrors b (m.issue.link p n inode) ∧ Ages m (m.issue.link p n inode) := by
  have hfresh : Fresh m.issue inode.ino := hino ▸ hm.fresh
  have hinv : Inv (m.issue.link p n inode) := hm.issue.link hp hfresh
  have hgrow : Grow m (m.issue.link p n inode) := Grow.issue.trans (.link hm.issue hp hfresh)
  have hinode : ∀ d, d < m.heapNext → ((m.issue.link p n inode).heap d).inode = (m.heap d).inode := by
    intro d hd
    by_cases hdp : d = p
    · rw [hdp, heap_link_parent (m := m.issue) hp]
      rfl
    · rw [heap_link_other (m := m.issue) hd hdp]
      rfl
  have hages : Ages m (m.issue.link p n inode) := ⟨hinv, hgrow, fun d hd => by rw [Dentry.isDir, hinode d hd, Dentry.isDir]⟩
  refine ⟨h.ages hm hages (fun d path hd _ => .inl (by rw [hinode d hd])) fun d path hd hd' hpath => ?_, hages⟩
  obtain rfl : d = m.heapNext := Nat.le_antisymm (Nat.le_of_lt_succ hd') hd
  have hchild : ((m.issue.link p n inode).heap p).getChild n = some m.heapNext := by
    rw [heap_link_parent (m := m.issue) hp]
    exact AList.lookup_insert ..
  rw [fullPath_child hinv (Nat.lt_of_lt_of_le hp hgrow.next) hchild, dirPrefix_grow hm hgrow hp] at hpath
  obtain rfl := Option.some.inj hpath
  have heap : (m.issue.link p n inode).heap m.heapNext = { Dentry.new n inode with parent := some p } :=
    heap_link_new (m := m.issue) n inode hp
  rw [heap]
  exact hnew

/-! ### Pages -/

/-- A node that stands for something in the bucket under `pre`. -/
structure TrueNode (b : Bucket) (pre : Str) (node : FTreeNode) : Prop where
  flat : node.children = []
  mode : node.oinfo.mode = none
  shows : b.Shows (pre ++ node.name) node.isDir node.oinfo.size

variable (now) in
theorem Mirrors.merge (h : Mirrors b m) (hb : b.Treelike) (hm : Inv m) (hp : p < m.heapNext)
    (hnode : TrueNode b (m.dirPrefix p) node) : Mirrors b (m.merge now p node) ∧ Ages m (m.merge now p node) := by
  unfold LocalMemMeta.merge
  cases hc : (m.heap p).getChild node.name with
  | some c =>
    have hchild := hm.child p _ c hp hc
    have hpath := fullPath_child hm hp hc
    refine h.set hm Mild.listedAs rfl fun path halloc hpath' => .inr ?_
    obtain rfl := Option.some.inj (hpath.symm.trans hpath')
    -- the tree and the listing agree on the kind
    rw [(h.shows c _ (Nat.lt_of_le_of_lt (Nat.zero_le p) hchild.1) halloc hpath).kind hb hnode.shows]
    exact hnode.shows
  | none =>
    have hinode : (m.objInode now node.oinfo node.isDir).size = node.oinfo.size := rfl
    have hnew : b.Shows (m.dirPrefix p ++ node.name) (Dentry.new node.name (m.objInode now node.oinfo node.isDir)).isDir
        (m.objInode now node.oinfo node.isDir).size := by
      rw [objInode_isDir node.name hnode.mode, hinode]
      exact hnode.shows
    have hlink := h.link hm hp rfl hnew
    have hmark := hlink.1.set (a := m.heapNext) (f := LocalMemMeta.mark) hlink.2.inv Mild.synced rfl fun _ _ _ => .inl rfl
    exact ⟨hmark.1, hlink.2.trans hmark.2⟩

variable (now) in
theorem Mirrors.children (h : Mirrors b m) (hb : b.Treelike) (hm : Inv m) (hp : p < m.heapNext)
    (hnodes : ∀ node ∈ nodes, TrueNode b (m.dirPrefix p) node) :
    ∃ m', buildChildren now p nodes m = .ok () m' ∧ Mirrors b m' ∧ Ages m m' := by
  induction nodes generalizing m with
  | nil => exact ⟨m, rfl, h, .refl hm⟩
  | cons node rest ih =>
    have hnode := hnodes node List.mem_cons_self
    obtain ⟨hfaithful, hages⟩ := h.merge now hb hm hp hnode
    have hp' := Nat.lt_of_lt_of_le hp hages.grow.next
    obtain ⟨m', hrun, hfaithful', hages'⟩ := ih hfaithful hages.inv hp' fun node' hn => by
      rw [dirPrefix_grow hm hages.grow hp]
      exact hnodes node' (List.mem_cons_of_mem _ hn)
    refine ⟨m', ?_, hfaithful', hages.trans hages'⟩
    rw [buildChildren, bind_ok (run_buildChild hm hp hnode.flat)]
    exact hrun

variable (now) in
/-- A page of true nodes is merged. -/
theorem Mirrors.build (h : Mirrors b m) (hb : b.Treelike) (hm : Inv m) (hp : m.lookup ino = some p)
    (hnodes : ∀ node ∈ nodes, TrueNode b (m.dirPrefix p) node) :
    ∃ m', buildDentries now ino nodes m = .ok () m' ∧ Mirrors b m' ∧ Ages m m' := by
  have halloc := (hm.indexed _ _ hp).1
  obtain ⟨hmarked, hages⟩ := h.set (a := p) (f := LocalMemMeta.mark) hm Mild.synced rfl fun _ _ _ => .inl rfl
  obtain ⟨m', hrun, hfaithful, hages'⟩ := hmarked.children now hb hages.inv halloc fun node hn => by
    rw [dirPrefix_grow hm hages.grow halloc]
    exact hnodes node hn
  refine ⟨m', ?_, hfaithful, hages.trans hages'⟩
  rw [buildDentries, bind_ok run_getDentry, hp]
  exact hrun

theorem Mirrors.swept (h : Mirrors b m) (hm : Inv m) (hs : Swept p m m') : Mirrors b m' ∧ Ages m m' := by
  have hages : Ages m m' := ⟨hs.inv, hs.grow, fun a _ => by rw [Dentry.isDir, hs.inode a, Dentry.isDir]⟩
  refine ⟨h.ages hm hages (fun a _ _ _ => .inl (by rw [hs.inode a])) fun a _ ha ha' => ?_, hages⟩
  rw [hs.next] at ha'
  exact absurd ha' (Nat.not_lt.mpr ha)

/-- A directory that has keys below its children is no file. -/
theorem Mirrors.dir (hf : Mirrors b m) (hb : b.Treelike) (hm : Inv m) (hp : p < m.heapNext) {rest : Str}
    (hrest : b.Holds (m.dirPrefix p ++ rest)) : (m.heap p).isDir = true := by
  rcases Nat.eq_zero_or_pos p with rfl | hpos
  · exact hf.root
  · obtain ⟨path, hpath⟩ := fullPath_some hm hp
    cases hkind : (m.heap p).isDir with
    | true => rfl
    | false =>
      have hshows := hf.shows p path hpos hp hpath
      rw [hkind] at hshows
      have hroot : (m.heap p).isRoot ≠ true := fun h => Nat.ne_of_gt hpos ((isRoot_iff hm hp).mp h)
      rw [dirPrefix, if_neg hroot, hpath] at hrest
      exact (hb path rest hshows.holds hrest).elim

end LocalMemMeta

/-- The nodes of a page stand for something in the bucket. -/
theorem NodesFor.true_nodes {b : Bucket} {pre : Str} {contents : List S3Object} {commonPrefixes : List Str} {nodes : List FTreeNode}
    (hn : NodesFor pre contents commonPrefixes nodes) (hpart : b.PartOfListing pre contents commonPrefixes) :
    ∀ node ∈ nodes, TrueNode b pre node := by
  intro node hnode
  refine ⟨hn.flat node hnode, hn.mode node hnode, ?_⟩
  rcases hn.listed node hnode with ⟨hdir, -, hprefix⟩ | ⟨hfile, o, ho, hkey, hsize⟩
  · obtain ⟨-, -, -, hrest⟩ := hpart.prefixes _ hprefix
    rw [hdir]
    exact Bucket.shows_dir.mpr hrest
  · obtain ⟨-, body, -, -, hbody, hlength⟩ := hpart.keys o ho
    rw [hfile, ← hkey]
    exact Bucket.shows_file.mpr ⟨body, hbody, hsize.trans hlength⟩

namespace MetaImpl
variable {ι σ α : Type} {c : S3Client σ} {view : σ → Bucket} {b : Bucket} {opt : MetaOpt} {pino ino : InodeID} {n pre key : Str}
  {a p : Addr} {s s' : World σ}

/-! ### Steps that show what is there -/

/-- The bucket is still `b`, and the tree shows nothing else. -/
structure Showing (view : σ → Bucket) (b : Bucket) (s : World σ) : Prop where
  inv : CacheInv s
  view : view s.stor = b
  faithful : Mirrors b s.cache

/-- The tree changed as lookups and listings change it. -/
structure Onward (s s' : World σ) : Prop where
  before : CacheInv s
  ages : Ages s.cache s'.cache

abbrev Browses (view : σ → Bucket) (b : Bucket) (P : LocalMemMeta → Prop) (q : MetaM σ α) (Q : α → LocalMemMeta → Prop) : Prop :=
  q.Moves Onward (fun _ s s' => Showing view b s' ∧ Onward s s') (Showing view b) (fun s => P s.cache) fun r s => Q r s.cache

/-- What stays so as the tree grows and no dentry becomes of another kind. -/
abbrev Enduring (K : LocalMemMeta → Prop) : Prop := ∀ m m', m.Inv → Ages m m' → K m → K m'

theorem persists_enduring {K : LocalMemMeta → Prop} (hK : Enduring K) : Prog.Persists Onward fun s : World σ => K s.cache :=
  fun _ _ h hk => hK _ _ h.before h.ages hk

theorem enduring_const {φ : Prop} : Enduring fun _ => φ := fun _ _ _ _ h => h

theorem enduring_lasts {K : LocalMemMeta → Prop} (hK : Lasts K) : Enduring K := fun m m' hm h => hK m m' hm h.grow

section
variable {P : LocalMemMeta → Prop} {Q : α → LocalMemMeta → Prop} {l : MetaAct}

theorem browses_step {f : EStateM Err (World σ) α} (hQ : ∀ r, Enduring (Q r)) (h : ∀ s, Showing view b s → P s.cache →
    (Showing view b (endState (f s)) ∧ Ages s.cache (endState (f s)).cache) ∧ ∀ r s', f s = .ok r s' → Q r s'.cache) :
    Browses view b P (Prog.lift l f) Q := by
  refine Prog.moves_lift (fun r => persists_enduring (hQ r)) fun s hs hp => ?_
  obtain ⟨⟨hshow, hages⟩, hok⟩ := h s hs hp
  exact ⟨⟨hshow, hs.inv, hages⟩, hok⟩

/-- A step that only reads the cache. -/
theorem browses_read {f : Timespec → LocalM α} (hread : ∀ now, ReadOnly (f now)) (hQ : ∀ r, Enduring (Q r))
    (h : ∀ now m r m', m.Inv → Mirrors b m → P m → f now m = .ok r m' → Q r m) : Browses view b P (cache l f) Q := by
  refine browses_step hQ fun s hs hp => ?_
  have hsame := hread s.now s.cache
  simp only [onCache, zoom]
  cases hf : f s.now s.cache with
  | ok r m' =>
    rw [hf] at hsame
    obtain rfl : m' = s.cache := hsame
    refine ⟨⟨hs, .refl hs.inv⟩, fun r' s' hr => ?_⟩
    obtain ⟨rfl, rfl⟩ := Result.ok.inj hr
    exact h s.now _ _ _ hs.inv hs.faithful hp hf
  | error e m' =>
    rw [hf] at hsame
    obtain rfl : m' = s.cache := hsame
    exact ⟨⟨hs, .refl hs.inv⟩, fun r' s' hr => by cases hr⟩

/-- A step that looks at the cache, the clock or uninitialised memory. -/
theorem browses_look {f : World σ → α} (hP : Enduring P) :
    Browses view b P (Prog.lift l (do return f (← get))) fun _ => P := by
  refine browses_step (fun _ => hP) fun s hs hp => ⟨⟨hs, .refl hs.inv⟩, ?_⟩
  rintro r s' hr
  obtain ⟨rfl, rfl⟩ := Result.ok.inj hr
  exact hp

/-- An operation of the cache that shows nothing else. -/
theorem browses_cache {f : Timespec → LocalM α} (hQ : ∀ r, Enduring (Q r)) (h : ∀ now m, m.Inv → Mirrors b m → P m →
    (Mirrors b (endState (f now m)) ∧ Ages m (endState (f now m))) ∧ ∀ r m', f now m = .ok r m' → Q r m') :
    Browses view b P (cache l f) Q := by
  refine browses_step hQ fun s hs hp => ?_
  have hcache := h s.now s.cache hs.inv hs.faithful hp
  simp only [onCache, zoom]
  cases hf : f s.now s.cache with
  | ok r m' =>
    simp only [hf, endState_ok] at hcache
    refine ⟨⟨⟨hcache.1.2.inv, hs.view, hcache.1.1⟩, hcache.1.2⟩, fun r' s' hr => ?_⟩
    obtain ⟨rfl, rfl⟩ := Result.ok.inj hr
    exact hcache.2 _ _ rfl
  | error e m' =>
    simp only [hf, endState_error] at hcache
    exact ⟨⟨⟨hcache.1.2.inv, hs.view, hcache.1.1⟩, hcache.1.2⟩, fun r' s' hr => by cases hr⟩

/-- A call of the store that answers with `φ`. -/
theorem browses_call {f : EStateM Err σ α} {φ : α → Prop} (hkeep : ∀ t, view (endState (f t)) = view t)
    (h : ∀ t r t', view t = b → f t = .ok r t' → φ r) (hP : Enduring P) :
    Browses view b P (call l f) fun r m => φ r ∧ P m := by
  refine browses_step (fun _ m m' hm hg hk => ⟨hk.1, hP m m' hm hg hk.2⟩) fun s hs hp => ?_
  have hsame := hkeep s.stor
  simp only [zoom]
  cases hf : f s.stor with
  | ok r t =>
    rw [hf] at hsame
    refine ⟨⟨⟨hs.inv, hsame.trans hs.view, hs.faithful⟩, .refl hs.inv⟩, fun r' s' hr => ?_⟩
    obtain ⟨rfl, rfl⟩ := Result.ok.inj hr
    exact ⟨h s.stor _ _ hs.view hf, hp⟩
  | error e t =>
    rw [hf] at hsame
    exact ⟨⟨⟨hs.inv, hsame.trans hs.view, hs.faithful⟩, .refl hs.inv⟩, fun r' s' hr => by cases hr⟩

end

/-- The flags of a dentry. -/
theorem browses_incTtl {P : LocalMemMeta → Prop} (hP : Enduring P) : Browses view b P (incTtl opt a) fun _ => P := by
  refine browses_cache (fun _ => hP) fun now m hm hf hp => ?_
  obtain ⟨hfaithful, hages⟩ := hf.set (a := a) (f := (·.incTtl now opt.dcacheTimeout)) hm Mild.incTtl rfl fun _ _ _ => .inl rfl
  refine ⟨⟨hfaithful, hages⟩, fun r m' hr => ?_⟩
  obtain ⟨-, rfl⟩ := Result.ok.inj hr
  exact hP _ _ hm hages hp

theorem browses_getDentry : Browses view b (fun _ => True) (getDentry pino) fun r m => ∀ a, r = some a → DirAt pino a m := by
  refine browses_read (fun _ _ => rfl) (fun r => enduring_lasts (lasts_dirs r)) fun now m r m' hm _ _ hr a ha => ?_
  obtain ⟨rfl, -⟩ := Result.ok.inj hr
  exact ⟨ha, (hm.indexed _ _ ha).1⟩

theorem browses_pathWithSlash : Browses view b (DirAt pino p) (pathWithSlash p) fun pre m => PrefixAt pino p pre m := by
  refine browses_read (fun _ => readOnly_getFullPathWithSlash) (fun pre => enduring_lasts prefixAt_grow)
    fun now m r m' hm _ hp hr => ?_
  rw [run_getFullPathWithSlash hm hp.2] at hr
  obtain ⟨rfl, -⟩ := Result.ok.inj hr
  exact ⟨hp, rfl⟩

section
variable (hc : c.Accurate view)
include hc

/-- What `head_file` answers. -/
theorem browses_head {P : LocalMemMeta → Prop} {resp : HeadFileResp} (hP : Enduring P) :
    Browses view b P (headFile (s3Stor c) key resp) fun r m =>
      ((r.exist = true → ∃ body, b key = some body ∧ r.obj.size = body.length ∧ r.obj.mode = none) ∧
        (r.exist = false → ¬ b.Holds key)) ∧ P m := by
  refine browses_call (fun t => ?_) ?_ hP
  · have hkeep := hc.headKeeps t key
    simp only [s3Stor]
    cases hr : c.headObject key t with
    | ok r t' =>
      rw [hr] at hkeep
      exact hkeep
    | error e t' =>
      rw [hr] at hkeep
      cases e <;> exact hkeep
  · rintro t r t' rfl hr
    simp only [s3Stor] at hr
    cases hhead : c.headObject key t with
    | ok r₁ t₁ =>
      rw [hhead] at hr
      obtain ⟨rfl, -⟩ := Result.ok.inj hr
      obtain ⟨body, hbody, hlength⟩ := hc.head t key r₁ t₁ hhead
      exact ⟨fun _ => ⟨body, hbody, hlength, rfl⟩, by simp⟩
    | error e t₁ =>
      rw [hhead] at hr
      cases e with
      | notFound msg =>
        obtain ⟨rfl, -⟩ := Result.ok.inj hr
        exact ⟨by simp, fun _ => hc.miss t key msg t₁ hhead⟩
      | other msg => cases hr

/-- The object of an entry, as far as the tree shows it. -/
theorem browses_getRemoteObj : Browses view b (DirAt pino p) (getRemoteObj (s3Stor c) p n) fun r m =>
    (r.2.1 = true → r.1.mode = none ∧ b.Shows (m.dirPrefix p ++ n) r.2.2 r.1.size) ∧ DirAt pino p m := by
  refine browses_pathWithSlash.bind fun pre => ?_
  have hpre : Enduring (PrefixAt pino p pre) := enduring_lasts prefixAt_grow
  refine Prog.Moves.bind (browses_look hpre) fun resp => (browses_head hc hpre).bind fun resp => ?_
  cases hexist : resp.exist with
  | true =>
    refine Prog.moves_pure fun s hs => ⟨fun _ => ?_, hs.2.1⟩
    obtain ⟨body, hbody, hsize, hmode⟩ := hs.1.1 hexist
    rw [hs.2.2]
    exact ⟨hmode, Bucket.shows_file.mpr ⟨body, hbody, hsize⟩⟩
  | false =>
    have hdir : Browses view b (PrefixAt pino p pre) (do
        let resp ← headFile (s3Stor c) (pre ++ n ++ slash) resp
        pure (resp.obj, resp.exist, resp.exist)) fun r m =>
        (r.2.1 = true → r.1.mode = none ∧ b.Shows (m.dirPrefix p ++ n) r.2.2 r.1.size) ∧ DirAt pino p m := by
      refine (browses_head hc hpre).bind fun resp => Prog.moves_pure fun s hs => ⟨fun hexist => ?_, hs.2.1⟩
      dsimp only at hexist ⊢
      obtain ⟨body, hbody, hsize, hmode⟩ := hs.1.1 hexist
      rw [hs.2.2, hexist]
      refine ⟨hmode, Bucket.shows_dir.mpr ⟨[], ?_⟩⟩
      rw [List.append_nil, Bucket.Holds, hbody]
      rfl
    exact hdir.pre fun s hs => hs.2

/-- A call of `list_objects` that answers with `φ`. -/
theorem browses_list {l : MetaAct} {req : ListObjectsReq} {P : LocalMemMeta → Prop} {φ : ListObjectsResp → Prop} (hP : Enduring P)
    (hφ : ∀ g r, b.PartOfListing req.pre r.contents r.commonPrefixes → φ (pageResp g r)) :
    Browses view b P (call l ((s3Stor c).listObjects req)) fun resp m => φ resp ∧ P m := by
  refine browses_call (fun t => ?_) (fun t resp t' ht hr => ?_) hP
  · exact (congrArg view ((endState_bind_pure _ _ t).trans (endState_orServerError _ t))).trans (hc.listKeeps t _)
  · obtain ⟨r, rfl, hlist⟩ := of_listObjects hr
    exact hφ _ r (ht ▸ hc.list t _ r t' rfl hlist)

/-- A listing of one key. -/
theorem browses_isRemoteDirExist {P : LocalMemMeta → Prop} (hP : Enduring P) :
    Browses view b P (isRemoteDirExist (s3Stor c) key) fun r m => (r = true → ∃ rest, b.Holds (key ++ rest)) ∧ P m := by
  have hlist : Browses view b P (call (.list key []) ((s3Stor c).listObjects { delimiter := [], pre := key, max := 1, marker := [] }))
      fun resp m => (resp.objs ≠ [] → ∃ rest, b.Holds (key ++ rest)) ∧ P m := by
    refine browses_list hc hP fun _ r hpart hne => ?_
    obtain ⟨o, ho⟩ := List.exists_mem_of_ne_nil r.contents fun hnil => hne (by simp [pageResp, hnil])
    obtain ⟨rest, body, hkey, -, hbody, -⟩ := hpart.keys o ho
    refine ⟨rest, ?_⟩
    rw [← hkey, Bucket.Holds, hbody]
    rfl
  refine hlist.bind fun resp => Prog.moves_pure fun s hs => ⟨fun hexist => hs.1 fun hnil => ?_, hs.2⟩
  rw [hnil] at hexist
  cases hexist

/-! ### Lookups -/

/-- A dentry other than the root. -/
def IsDentry (a : Addr) (m : LocalMemMeta) : Prop := 0 < a ∧ a < m.heapNext

omit hc in
theorem enduring_dentry : Enduring (IsDentry a) := fun _ _ _ h hk => ⟨hk.1, Nat.lt_of_lt_of_le hk.2 h.grow.next⟩

omit hc in
/-- A dentry is made that stands for something in the bucket. -/
theorem browses_made {P : LocalMemMeta → Prop} {f : Timespec → LocalM Addr} {β : Type} (g : Addr → β) (hdir : ∀ m, P m → DirAt pino p m)
    (h : ∀ now m, m.Inv → Mirrors b m → P m → ∃ inode, inode.ino = m.nextInodeId ∧
      b.Shows (m.dirPrefix p ++ n) (Dentry.new n inode).isDir inode.size ∧ f now m = .ok m.heapNext (m.issue.link p n inode)) :
    Browses view b P (do
      let d ← cache (.insert pino n) f
      incTtl opt d
      pure (g d)) fun _ _ => True := by
  have hinsert : Browses view b P (cache (.insert pino n) f) fun _ _ => True := by
    refine browses_cache (fun _ => enduring_const) fun now m hm hf hp => ?_
    obtain ⟨inode, hino, hshows, hrun⟩ := h now m hm hf hp
    rw [hrun]
    exact ⟨hf.link hm (hdir m hp).2 hino hshows, fun _ _ _ => trivial⟩
  exact hinsert.bind fun d => (browses_incTtl enduring_const).bind fun _ => Prog.moves_pure fun _ _ => trivial

omit hc in
/-- A directory is a part of keys. -/
theorem browses_addVirtualDir (hb : b.Treelike) : Browses view b
    (fun m => (∃ rest, b.Holds (pre ++ (n ++ slash ++ rest))) ∧ PrefixAt pino p pre m) (addVirtualDir opt p n) fun _ _ => True := by
  refine .of_fact ?_
  rintro ⟨rest, hrest⟩
  have hread : Browses view b (PrefixAt pino p pre) (readDentry p) fun d m =>
      (d.isDir = true ∧ d.inode.ino = pino) ∧ PrefixAt pino p pre m := by
    refine browses_read (fun _ _ => rfl) (fun d m m' hm hg hk => ⟨hk.1, prefixAt_grow m m' hm hg.grow hk.2⟩)
      fun now m d m' hm hf hp hr => ?_
    obtain ⟨rfl, -⟩ := Result.ok.inj hr
    exact ⟨⟨hf.dir hb hm hp.1.2 (hp.2 ▸ hrest), (hm.indexed _ _ hp.1.1).2⟩, hp⟩
  refine hread.bind fun d => .of_fact ?_
  rintro ⟨hkind, hino⟩
  have hmade : Browses view b (PrefixAt pino p pre) (do
      let d ← cache (.insert pino n) fun now => do
        let inode ← LocalMemMeta.createNewInode now d.inode.mode d.inode.gid d.inode.uid
        LocalMemMeta.createDentry pino n inode
      incTtl opt d
      pure d) fun _ _ => True := by
    refine browses_made id (fun m hp => hp.1) fun now m hm _ hp => ⟨m.newInode now d.inode.mode d.inode.gid d.inode.uid, rfl, ?_, ?_⟩
    · have hnew : (Dentry.new n (m.newInode now d.inode.mode d.inode.gid d.inode.uid)).isDir = d.isDir := rfl
      rw [hnew, hkind, hp.2]
      exact Bucket.shows_dir.mpr ⟨rest, by simpa using hrest⟩
    · exact run_createDentry (m := m.issue) hp.1.1 hp.1.2
  rw [hino]
  exact hmade

theorem browses_findRemote (hb : b.Treelike) : Browses view b (fun _ => True) (findRemote opt (s3Stor c) pino n) fun _ _ => True := by
  refine browses_getDentry.bind fun parent => ?_
  cases parent with
  | none => trivial
  | some p =>
    refine Prog.Moves.pre ((browses_getRemoteObj hc (n := n)).bind ?_) fun s hs => hs p rfl
    rintro ⟨obj, exist, isDir⟩
    cases exist with
    | true =>
      have hfound : Browses view b (fun m => (obj.mode = none ∧ b.Shows (m.dirPrefix p ++ n) isDir obj.size) ∧ DirAt pino p m) (do
          let d ← cache (.insert pino n) fun now => createDentryFromObj now pino n obj isDir
          incTtl opt d
          pure (some d)) fun _ _ => True := by
        refine browses_made some (fun _ hp => hp.2) fun now m hm _ hp => ⟨m.objInode now obj isDir, rfl, ?_, ?_⟩
        · rw [objInode_isDir n hp.1.1]
          exact hp.1.2
        · exact run_createDentryFromObj hp.2.1 hp.2.2
      exact hfound.pre fun s hs => ⟨hs.1 rfl, hs.2⟩
    | false =>
      have hvirtual : Browses view b (DirAt pino p) (do
          let pre ← pathWithSlash p
          let exist ← isRemoteDirExist (s3Stor c) (pre ++ n ++ slash)
          if exist then some <$> addVirtualDir opt p n else pure none) fun _ _ => True := by
        refine browses_pathWithSlash.bind fun pre => (browses_isRemoteDirExist hc (enduring_lasts prefixAt_grow)).bind fun exist => ?_
        cases exist with
        | false => exact Prog.moves_pure fun _ _ => trivial
        | true =>
          have hdir : Browses view b (fun m => (∃ rest, b.Holds (pre ++ (n ++ slash ++ rest))) ∧ PrefixAt pino p pre m)
              (some <$> addVirtualDir opt p n) fun _ _ => True := Prog.Moves.map (browses_addVirtualDir hb)
          exact hdir.pre fun s hs => ⟨by simpa using hs.1 rfl, hs.2⟩
      exact hvirtual.pre fun s hs => hs.2

/-- What a revalidation has read: the number and the kind of a dentry, and the path of a file. -/
structure ReadAs (d : Dentry) (path : Str) (a : Addr) (m : LocalMemMeta) : Prop where
  dentry : IsDentry a m
  kind : (m.heap a).isDir = d.isDir
  ino : (m.heap a).inode.ino = d.inode.ino
  path : d.isDir = false → m.fullPath a = some path

omit hc in
theorem enduring_readAs {d : Dentry} {path : Str} : Enduring (ReadAs d path a) := by
  rintro m m' hm h ⟨ha, hkind, hino, hpath⟩
  refine ⟨enduring_dentry m m' hm h ha, (h.kind a ha.2).trans hkind, (h.grow.ino a ha.2).trans hino, fun hfile => ?_⟩
  rw [fullPath_grow hm h.grow ha.2, hpath hfile]

omit hc in
theorem browses_headKey {d : Dentry} : Browses view b (fun m => IsDentry a m ∧ (m.heap a).isDir = d.isDir ∧
    (m.heap a).inode.ino = d.inode.ino) (headKey a d.isDir) fun path m => ReadAs d path a m := by
  cases hkind : d.isDir with
  | true =>
    refine browses_read (fun _ => readOnly_getFullPathWithSlash) (fun path => enduring_readAs) fun now m r m' hm _ hp _ => ?_
    exact ⟨hp.1, hp.2.1.trans hkind.symm, hp.2.2, fun hfile => by cases hfile.symm.trans hkind⟩
  | false =>
    refine browses_read (fun _ => readOnly_getFullPath) (fun path => enduring_readAs) fun now m r m' hm _ hp hr => ?_
    obtain ⟨path, hpath⟩ := fullPath_some hm hp.1.2
    rw [run_getFullPath hpath] at hr
    obtain ⟨rfl, -⟩ := Result.ok.inj hr
    exact ⟨hp.1, hp.2.1.trans hkind.symm, hp.2.2, fun _ => hpath⟩

omit hc in
theorem isDir_headMode {obj : ObjInfo} {isDir : Bool} (h : obj.mode = none) : (headMode obj isDir &&& S_IFDIR != 0) = isDir := by
  rw [headMode, h]
  cases isDir <;> decide

omit hc in
/-- A revalidation sets the size of the object, and leaves the kind. -/
theorem browses_update {d : Dentry} {path : Str} {resp : HeadFileResp} (hfound : (!resp.exist && d.isDir) = false)
    (hyes : resp.exist = true → resp.obj.mode = none ∧
      (d.isDir = false → ∃ body, b path = some body ∧ resp.obj.size = body.length))
    (hno : resp.exist = false → d.isDir = false → ¬ b.Holds path) : Browses view b (ReadAs d path a) (updateInode d.inode.ino
      { size := some resp.obj.size, mode := some (headMode resp.obj d.isDir), uid := resp.obj.uid, gid := resp.obj.gid })
      fun _ _ => True := by
  refine browses_cache (fun _ => enduring_const) fun now m hm hf hp => ?_
  have hlookup : m.lookup d.inode.ino = some a := hp.ino ▸ hm.index a hp.dentry.2
  rw [run_updateInode hlookup]
  refine ⟨?_, fun _ _ _ => trivial⟩
  cases hexist : resp.exist with
  | false =>
    -- a file whose object is gone: the bucket still has it
    have hkind : d.isDir = false := by simpa [hexist] using hfound
    have hshows := hf.shows a path hp.dentry.1 hp.dentry.2 (hp.path hkind)
    rw [hp.kind, hkind] at hshows
    exact (hno hexist hkind hshows.holds).elim
  | true =>
    obtain ⟨hmode, hsize⟩ := hyes hexist
    refine hf.set hm Mild.apply ?_ fun path' _ hpath => .inr ?_
    · rw [hp.kind]
      exact isDir_headMode hmode
    · cases hkind : d.isDir with
      | true =>
        have hshows := hf.shows a path' hp.dentry.1 hp.dentry.2 hpath
        rw [hp.kind, hkind] at hshows ⊢
        exact Bucket.shows_dir.mpr (Bucket.shows_dir.mp hshows)
      | false =>
        obtain rfl := Option.some.inj ((hp.path hkind).symm.trans hpath)
        rw [hp.kind, hkind]
        exact Bucket.shows_file.mpr (hsize hkind)

theorem browses_revalidate : Browses view b (IsDentry a) (revalidate opt (s3Stor c) a) fun _ _ => True := by
  have hread : Browses view b (IsDentry a) (readDentry a) fun d m => IsDentry a m ∧ (m.heap a).isDir = d.isDir ∧
      (m.heap a).inode.ino = d.inode.ino := by
    refine browses_read (fun _ _ => rfl) ?_ fun now m d m' hm _ ha hr => ?_
    · rintro d m m' hm h ⟨ha, hkind, hino⟩
      exact ⟨enduring_dentry m m' hm h ha, (h.kind a ha.2).trans hkind, (h.grow.ino a ha.2).trans hino⟩
    · obtain ⟨rfl, -⟩ := Result.ok.inj hr
      exact ⟨ha, rfl, rfl⟩
  refine hread.bind fun d => browses_headKey.bind fun path => Prog.Moves.bind (browses_look enduring_readAs) fun resp =>
    (browses_head hc enduring_readAs).bind fun resp => .of_fact ?_
  rintro ⟨hyes, hno⟩
  split
  · exact (browses_incTtl enduring_readAs).bind fun _ => Prog.moves_pure fun _ _ => trivial
  · rename_i hfound
    have hupdate : Browses view b (ReadAs d path a) _ fun _ _ => True := browses_update (eq_false_of_ne_true hfound) (fun hexist => ?_)
      fun hexist _ => hno hexist
    · exact hupdate.bind fun _ => (browses_incTtl enduring_const).bind fun _ => Prog.moves_pure fun _ _ => trivial
    · obtain ⟨body, hbody, hsize, hmode⟩ := hyes hexist
      exact ⟨hmode, fun _ => ⟨body, hbody, hsize⟩⟩

theorem browses_findDentry (hb : b.Treelike) : Browses view b (fun _ => True) (findDentry opt (s3Stor c) pino n false) fun _ _ => True := by
  have hfind : Browses view b (fun _ => True) (cache (.find pino n) fun _ => LocalMemMeta.findDentry pino n) fun r m =>
      ∀ a, r = some a → IsDentry a m := by
    refine browses_read (fun _ => readOnly_findDentry) (fun r m m' hm h hk a ha => enduring_dentry m m' hm h (hk a ha))
      fun now m r m' hm _ _ hr a ha => ?_
    cases hp : m.lookup pino with
    | none =>
      rw [run_findDentry_none hp] at hr
      cases hr
    | some p =>
      rw [run_findDentry hp] at hr
      obtain ⟨rfl, -⟩ := Result.ok.inj hr
      have hchild := hm.child p _ a (hm.indexed _ _ hp).1 ha
      exact ⟨Nat.lt_of_le_of_lt (Nat.zero_le p) hchild.1, hchild.2.1⟩
  refine hfind.bind fun r => ?_
  cases r with
  | none => exact (browses_findRemote hc hb).pre fun _ _ => trivial
  | some a =>
    have hcached : Browses view b (IsDentry a) (do if ← isExpired a then revalidate opt (s3Stor c) a else pure (some a))
        fun _ _ => True :=
      Prog.Moves.bind (browses_look enduring_dentry) fun _ => .ite (browses_revalidate hc) (Prog.moves_pure fun _ _ => trivial)
    exact hcached.pre fun s hs => hs a rfl

/-! ### Listings -/

theorem browses_refreshLoop (hb : b.Treelike) (fuel : Nat) (marker : Str) :
    Browses view b (PrefixAt ino p pre) (refreshLoop (s3Stor c) ino pre fuel marker) fun _ => PrefixAt ino p pre := by
  have hpre : Enduring (PrefixAt ino p pre) := enduring_lasts prefixAt_grow
  induction fuel generalizing marker with
  | zero => trivial
  | succ fuel ih =>
    have hlist : Browses view b (PrefixAt ino p pre)
        (call (.list pre marker) ((s3Stor c).listObjects { delimiter := slash, pre, max := 1000, marker })) fun resp m =>
        (∀ nodes, buildFtree pre resp = some nodes → ∀ node ∈ nodes, TrueNode b pre node) ∧ PrefixAt ino p pre m := by
      refine browses_list hc hpre fun _ r hpart nodes hft => ?_
      obtain ⟨nodes', hft', hfor⟩ := nodesFor_page (under_part hpart) _
      obtain rfl := Option.some.inj (hft'.symm.trans hft)
      exact hfor.true_nodes hpart
    refine hlist.bind fun resp => .of_fact fun hnodes => ?_
    cases hft : buildFtree pre resp with
    | none => trivial
    | some nodes =>
      have hbuild : Browses view b (PrefixAt ino p pre)
          (cache (.build ino (nodes.map FTreeNode.name)) fun now => LocalMemMeta.buildDentries now ino nodes)
          fun _ => PrefixAt ino p pre := by
        refine browses_cache (fun _ => hpre) fun now m hm hf hp => ?_
        obtain ⟨m', hrun, hfaithful, hages⟩ := hf.build now hb hm hp.1.1 (hp.2 ▸ hnodes nodes hft)
        rw [hrun]
        refine ⟨⟨hfaithful, hages⟩, fun _ _ hr => ?_⟩
        obtain ⟨-, rfl⟩ := Result.ok.inj hr
        exact hpre m m' hm hages hp
      exact hbuild.bind fun _ => .ite (ih _) (Prog.moves_pure fun _ hs => hs)

theorem browses_loadSubDentries (hb : b.Treelike) {fuel : Nat} :
    Browses view b (fun _ => True) (loadSubDentries (s3Stor c) fuel ino) fun _ _ => True := by
  refine browses_getDentry.bind fun r => ?_
  cases r with
  | none => trivial
  | some p =>
    have hdir : Enduring (DirAt ino p) := enduring_lasts dirAt_grow
    have hlist : Browses view b (fun _ => True) (listChildren p) fun _ _ => True := by
      have hread : Browses view b (fun _ => True) (cache (.read p) fun _ => LocalMemMeta.childrenList p) fun _ _ => True :=
        browses_read (fun _ _ => rfl) (fun _ => enduring_const) fun _ _ _ _ _ _ _ _ => trivial
      exact hread.bind fun _ => Prog.moves_pure fun _ _ => trivial
    have hrefresh : Browses view b (DirAt ino p) (refreshSubDentries (s3Stor c) fuel p) fun _ _ => True := by
      refine browses_pathWithSlash.bind fun pre => ?_
      have hread : Browses view b (PrefixAt ino p pre) (readDentry p) fun d m => d.inode.ino = ino ∧ PrefixAt ino p pre m := by
        refine browses_read (fun _ _ => rfl) (fun d m m' hm h hk => ⟨hk.1, prefixAt_grow m m' hm h.grow hk.2⟩)
          fun now m d m' hm _ hp hr => ?_
        obtain ⟨rfl, -⟩ := Result.ok.inj hr
        exact ⟨(hm.indexed _ _ hp.1.1).2, hp⟩
      refine hread.bind fun d => .of_fact fun hino => ?_
      rw [hino]
      refine (browses_refreshLoop hc hb fuel []).bind fun _ => browses_cache (fun _ => enduring_const) fun now m hm hf hp => ?_
      obtain ⟨m', hrun, hswept⟩ := run_clearUnsyncDentry now hm hp.1.2
      rw [hrun]
      exact ⟨hf.swept hm hswept, fun _ _ _ => trivial⟩
    refine Prog.Moves.pre (Prog.Moves.bind (browses_look hdir) fun stale => .ite (hrefresh.bind fun _ => hlist) ?_) fun s hs => hs p rfl
    exact hlist.pre fun _ _ => trivial

end

/-- A lookup or a listing. -/
def Request.Looks : Request → Prop
  | .find _ _ => True
  | .load _ => True
  | _ => False

theorem browses_request (hc : c.Accurate view) (hb : b.Treelike) {fuel : Nat} {r : Request} (hr : r.Looks) :
    Browses view b (fun _ => True) (r.prog opt (s3Stor c) fuel) fun _ _ => True := by
  cases r with
  | find => exact Prog.Moves.map (browses_findDentry hc hb)
  | load => exact Prog.Moves.map (browses_loadSubDentries hc hb)
  | _ => exact hr.elim

variable [DecidableEq ι] {opts : ι → MetaOpt} {fuel : ι → Nat} {reqs : ι → Request} {y : Pool ι MetaAct Err (World σ) Unit}

/-- In every state that any interleaving of lookups and listings leads to, whichever calls failed, over a bucket that nobody
    changes and in which no object has a key below it: each entry of the tree but the root stands for something in the
    bucket. A directory has a key below it, and a file is an object, with its size. -/
theorem browsing_faithful (hc : c.Accurate view) (hb : (view s.stor).Treelike) (hs : CacheInv s) (hf : Mirrors (view s.stor) s.cache)
    (hreqs : ∀ i, (reqs i).Looks)
    (h : Pool.Runs (fun _ _ _ => True) (BucketStays view) (requestPool opts (s3Stor c) fuel reqs s) y) :
    Mirrors (view s.stor) y.conf.state.cache := by
  have hmoves : Pool.Moving Onward (fun _ s₁ s₂ => Showing view (view s.stor) s₂ ∧ Onward s₁ s₂) (Showing view (view s.stor))
      (fun _ _ _ => True) (requestPool opts (s3Stor c) fuel reqs s) := fun i =>
    ⟨fun _ => True, Prog.persists_true, trivial, browses_request hc hb (hreqs i)⟩
  refine (Pool.invariant (J := fun x => Showing view (view s.stor) x.state) (fun _ hx => hx) (fun _ _ _ _ _ _ h => h) ?_ hmoves
    ⟨hs, rfl, hf⟩ h).1.faithful
  intro x s' hx he
  have hcache : CacheInv s' := by
    rw [CacheInv, he.cache]
    exact hx.inv
  refine ⟨⟨hcache, he.view.trans hx.view, he.cache ▸ hx.faithful⟩, hx.inv, ?_⟩
  rw [he.cache]
  exact .refl hx.inv

/-- An object in the root and one in a directory. -/
def twoObjects : Log := [(.putFile ['f'] [1, 2], true), (.putFile ['d', '/', 'g'] [3], true)]

theorem treelike_twoObjects : (Log.bucket twoObjects).Treelike := by
  intro key rest hkey hrest
  have hkeys : twoObjects.keys = [['f'], ['d', '/', 'g']] := by decide +kernel
  have hholds : ∀ k, (Log.bucket twoObjects).Holds k → k = ['f'] ∨ k = ['d', '/', 'g'] := fun k hk => by
    simpa [hkeys] using Log.mem_keys.mpr hk
  rcases hholds key hkey with rfl | rfl <;> rcases hholds _ hrest with h | h <;> simp [slash] at h

/-- A lookup and a listing. -/
def lookAndList : Bool → Request
  | false => .find ROOT_INODE_ID ['f']
  | true => .load ROOT_INODE_ID

def bothLooks : Pool Bool MetaAct Err (World Log) Unit :=
  requestPool (fun _ => ⟨0, 0, 60⟩) (s3Stor Log.client) (fun _ => 2) lookAndList (newWorld twoObjects)

/-- The listing merges its page while the lookup is at work. -/
theorem looks_end : ∃ y, bothLooks.exec (fun _ _ _ => true) (List.replicate 4 false ++ List.replicate 8 true ++ List.replicate 3 false) =
    some y ∧ (y.threads true).value.isSome = true := (Option.any_eq_true _ _).mp (by decide +kernel)

theorem browsing_faithful_both : ∃ y, Pool.Runs (fun _ _ _ => True) (BucketStays Log.bucket) bothLooks y ∧
    Mirrors (Log.bucket twoObjects) y.conf.state.cache := by
  obtain ⟨y, hy, -⟩ := looks_end
  have hruns : Pool.Runs (fun _ _ _ => True) (BucketStays Log.bucket) (requestPool (fun _ => ⟨0, 0, 60⟩) (s3Stor Log.client)
      (fun _ => 2) lookAndList (newWorld twoObjects)) y := Pool.runs_exec (fun _ _ _ _ => trivial) hy
  have hlooks : ∀ i, (lookAndList i).Looks := fun i => by cases i <;> trivial
  exact ⟨y, hruns, browsing_faithful Log.client_accurate treelike_twoObjects
    (show CacheInv (newWorld twoObjects) from .new ⟨0, 0, 60⟩ ⟨0, 0⟩) (faithful_new _) hlooks hruns⟩

end MetaImpl

end Catfs
