import Catfs.Theorems.DirHandles
import Catfs.Theorems.Edits
import Catfs.Theorems.LookupListing
import Catfs.Theorems.RemoveDir
import Catfs.Theorems.RequestFrame

/-! # The names in the tree

A name comes from a request or from a listing. A listing cuts the names off its keys, so the object that stands for the
directory itself gives the empty name (`marker_listed`), and a key may hold any component. -/

namespace Catfs

open Lib MetaM LocalMemMeta
open EStateM (Result)

/-- A name that a directory entry may have. -/
def ProperName (n : Str) : Prop := n ≠ [] ∧ '/' ∉ n ∧ n ≠ ['.'] ∧ n ≠ ['.', '.']

/-- The listing of the directory `pre` gives proper names alone: the directory has no object of its own, and no `.` or
    `..` is in it. -/
def Bucket.ListsProper (b : Bucket) (pre : Str) : Prop :=
  ¬ b.Holds pre ∧ ¬ b.Yields pre ['.'] ∧ ¬ b.Yields pre ['.', '.']

theorem Bucket.ListsProper.name {b : Bucket} {pre n : Str} (h : b.ListsProper pre) (hn : '/' ∉ n)
    (hkey : b.Holds (pre ++ n) ∨ n ≠ [] ∧ b.Backs pre n) : ProperName n := by
  have hne : n ≠ [] := by
    rintro rfl
    rcases hkey with hkey | ⟨hne, -⟩
    · rw [List.append_nil] at hkey
      exact h.1 hkey
    · exact hne rfl
  have hyields : b.Yields pre n := by
    refine ⟨hne, hn, ?_⟩
    rcases hkey with hkey | ⟨-, hback⟩
    · exact .inl hkey
    · exact hback
  refine ⟨hne, hn, ?_, ?_⟩
  · rintro rfl
    exact h.2.1 hyields
  · rintro rfl
    exact h.2.2 hyields

namespace LocalMemMeta
variable {m m' : LocalMemMeta} {a : Addr} {e : Edit}

theorem Attached.parent (h : Attached m a) (hroot : a ≠ m.rootDentry) :
    ∃ p n, Attached m p ∧ (m.heap p).getChild n = some a := by
  cases h with
  | root => exact absurd rfl hroot
  | child hp hc => exact ⟨_, _, hp, hc⟩

/-- Every dentry in the tree but the root has a proper name. -/
def NamesProper (m : LocalMemMeta) : Prop := ∀ a, Attached m a → a ≠ m.rootDentry → ProperName (m.heap a).name

theorem NamesProper.edit (hm : Inv m) (h : NamesProper m) (hl : e.Leads m m')
    (hlink : ∀ p n inode, e = .link p n inode → Attached m p → ProperName n) : NamesProper m' := by
  obtain ⟨hinv, hgrow⟩ := hl.keeps hm
  intro a ha hroot
  have hold : a < m.heapNext → ProperName (m'.heap a).name := by
    intro halloc
    rw [hgrow.name a halloc]
    exact h a (hl.attached hm halloc ha) (hgrow.root ▸ hroot)
  cases e with
  | alter b f =>
    have halloc := ha.allocated hinv
    obtain ⟨-, -, -, rfl⟩ := id hl
    exact hold halloc
  | erase p name =>
    have halloc := ha.allocated hinv
    obtain rfl := id hl
    exact hold halloc
  | sweep p => exact hold (hl.2.next ▸ ha.allocated hinv)
  | link p name inode =>
    obtain ⟨hp, -, rfl⟩ := id hl
    rcases Nat.lt_succ_iff_lt_or_eq.mp (ha.allocated hinv) with halloc | rfl
    · exact hold halloc
    · -- The new dentry is in the tree through its parent.
      have hnew := heap_link_new (m := m.issue) name inode hp
      rw [heapNext_issue] at hnew
      have hparent : Attached (m.issue.link p name inode) p := by
        obtain ⟨b, k, hb, hc⟩ := ha.parent hroot
        obtain ⟨-, -, -, hpb⟩ := hinv.child b k _ (hb.allocated hinv) hc
        rw [heapNext_issue, hnew] at hpb
        exact Option.some.inj hpb ▸ hb
      show ProperName ((m.issue.link p name inode).heap m.heapNext).name
      rw [hnew]
      exact hlink p name inode rfl (hl.attached hm hp hparent)

end LocalMemMeta

namespace MetaImpl
variable {σ : Type} {c : S3Client σ} {view : σ → Bucket} {opt : MetaOpt} {s s' : World σ} {m : LocalMemMeta} {t : σ}
  {now : Timespec} {garbage : Garbage} {pre n : Str} {pino ino : InodeID} {p a : Addr}

/-! ### The nodes of a listing -/

theorem listObjects_served (hc : c.Serves view) {marker : Str} {resp : ListObjectsResp} {t' : σ}
    (h : (s3Stor c).listObjects { delimiter := slash, pre, max := 1000, marker } t = .ok resp t') :
    view t' = view t ∧ ∃ g r, resp = pageResp g r ∧ (view t).PartOfListing pre r.contents r.commonPrefixes := by
  obtain ⟨r, t₁, hr, hv, hpart⟩ := hc.list t (pageRequest pre marker) rfl
  obtain ⟨rfl, rfl⟩ := Result.ok.inj ((run_listObjects hr).symm.trans h)
  exact ⟨hv, _, r, rfl, hpart⟩

theorem pageFrom_served (hc : c.Serves view) {marker : Str} {resp : ListObjectsResp}
    (h : PageFrom (s3Stor c) pre marker t resp) :
    ∃ g r, resp = pageResp g r ∧ (view t).PartOfListing pre r.contents r.commonPrefixes := by
  induction h with
  | now hrun => exact (listObjects_served hc hrun).2
  | later hrun _ _ ih =>
    rw [(listObjects_served hc hrun).1] at ih
    exact ih

theorem under_part {b : Bucket} {r : ListObjectsResult} (h : b.PartOfListing pre r.contents r.commonPrefixes) : Under pre r := by
  refine ⟨fun o ho => ?_, fun d hd => ?_⟩
  · obtain ⟨k, _, hk, hs, -⟩ := h.keys o ho
    exact ⟨k, hk, hs⟩
  · obtain ⟨k, hk, hs, -⟩ := h.prefixes d hd
    exact ⟨k, hk, hs⟩

/-- A node of a listing has a name without a slash that the bucket holds: for a file an object, and for a directory a name
    that is not empty. -/
theorem listedNode_served (hc : c.Serves view) {node : FTreeNode} (h : ListedNode (s3Stor c) pre t node) :
    '/' ∉ node.name ∧ ((view t).Holds (pre ++ node.name) ∨ node.name ≠ [] ∧ (view t).Backs pre node.name) := by
  obtain ⟨resp, nodes, hpage, hft, hnode⟩ := h
  obtain ⟨g, r, rfl, hpart⟩ := pageFrom_served hc hpage
  obtain ⟨nodes', hft', hnodes⟩ := nodesFor_page (under_part hpart) _
  obtain rfl := Option.some.inj (hft.symm.trans hft')
  refine ⟨plain_nodes hnodes (under_part hpart) node hnode, ?_⟩
  rcases hnodes.listed node hnode with ⟨-, hne, hprefix⟩ | ⟨-, o, ho, hkey, -⟩
  · obtain ⟨k, hk, -, hrest⟩ := hpart.prefixes _ hprefix
    exact .inr ⟨hne, .inr hrest⟩
  · obtain ⟨k, body, hk, -, hbody, -⟩ := hpart.keys o ho
    refine .inl ?_
    rw [← hkey, Bucket.Holds, hbody]
    rfl

/-! ### Runs -/

/-- Requests name proper names, and when a directory in the tree is listed anew, the listing gives proper names. -/
def KeepsNames (view : σ → Bucket) (r : Request) (s : World σ) : Prop :=
  (∀ pino n, r.entry = some (pino, n) → ProperName n) ∧
    ∀ ino p, r = .load ino → s.Relists ino p → Attached s.cache p → (view s.stor).ListsProper (s.cache.dirPrefix p)

theorem namesProper_requests (hc : c.Serves view) (h : Requests opt (s3Stor c) (KeepsNames view) s s') (hs : CacheInv s)
    (hnames : NamesProper s.cache) : CacheInv s' ∧ NamesProper s'.cache := by
  refine (h.keeps hs hnames fun s₁ r hs₁ hr _ e m m' hm hrest hk he hl => ?_).imp id And.right
  refine hk.edit hm hl fun p n inode hlink hp => ?_
  subst hlink
  rcases Request.link_name he with ⟨pino, hentry⟩ | ⟨ino, rfl, hlists, node, rfl, hnode⟩
  · exact hr.1 pino n hentry
  · obtain ⟨hslash, hkey⟩ := listedNode_served hc hnode
    have hattached := hrest.attached hs₁ (hs₁.indexed _ _ hlists.1).1 hp
    exact (hr.2 ino p rfl hlists hattached).name hslash hkey

/-! ### An empty directory -/

variable (opt t now garbage) in
/-- A lookup of a cached directory returns it, as a directory with the children that it had. -/
theorem run_findDentry_dir (hc : c.Serves view) (hm : Inv m) (hp : m.lookup pino = some p)
    (ha : (m.heap p).getChild n = some a) (hdir : (m.heap a).isDir = true) : ∃ m' t',
      (findDentry opt (s3Stor c) pino n false).run ⟨m, t, now, garbage⟩ = .ok (some a) ⟨m', t', now, garbage⟩ ∧ Inv m' ∧
        Grow m m' ∧ (m'.heap a).isDir = true ∧ (m'.heap a).children = (m.heap a).children := by
  have halloc := (hm.child p n a (hm.indexed _ _ hp).1 ha).2.1
  have hfind : (findDentry opt (s3Stor c) pino n false).run ⟨m, t, now, garbage⟩ =
      (if (m.heap a).isExpired now then revalidate opt (s3Stor c) a else pure (some a) : MetaM σ _).run
        ⟨m, t, now, garbage⟩ := by
    rw [findDentry, Prog.run_bind_ok (run_cache_ok (LocalMemMeta.run_findDentry hp)), ha]
    rfl
  rw [hfind]
  cases (m.heap a).isExpired now with
  | false => exact ⟨m, t, rfl, hm, .refl m, hdir, rfl⟩
  | true =>
    have hkey : (headKey a (m.heap a).isDir : MetaM σ _).run ⟨m, t, now, garbage⟩ =
        .ok (m.ownKey a) ⟨m, t, now, garbage⟩ := by
      have hinv : CacheInv (⟨m, t, now, garbage⟩ : World σ) := hm
      exact run_headKey hinv halloc
    obtain ⟨resp, t₁, hhead, -, -, hmode⟩ := run_headFile m t now garbage hc (m.ownKey a) (HeadFileResp.uninit garbage)
    rw [if_pos rfl, revalidate, Prog.run_bind_ok run_readDentry, Prog.run_bind_ok hkey, Prog.run_bind_ok run_headResp,
      Prog.run_bind_ok hhead, hdir]
    cases he : resp.exist with
    | false => exact ⟨_, t₁, rfl, hm.set Mild.incTtl, .set Mild.incTtl, by rw [heap_set_self]; exact hdir, by rw [heap_set_self]; rfl⟩
    | true =>
      have hmode' : headMode resp.obj true = S_IFDIR ||| 0o755#32 := by rw [headMode, hmode he]; rfl
      have hupdate : ∀ u, (updateInode (m.heap a).inode.ino u : MetaM σ _).run ⟨m, t₁, now, garbage⟩ =
          .ok () ⟨m.set a (InodeUpdateAttr.apply u), t₁, now, garbage⟩ := fun u =>
        run_cache_ok (LocalMemMeta.run_updateInode (hm.index a halloc))
      rw [if_neg (by simp), Prog.run_bind_ok (hupdate _)]
      refine ⟨_, t₁, rfl, (hm.set Mild.apply).set Mild.incTtl, .trans (.set Mild.apply) (.set Mild.incTtl), ?_, ?_⟩
      · rw [heap_set_self, heap_set_self]
        show (headMode resp.obj true &&& S_IFDIR != 0) = true
        rw [hmode']
        decide
      · rw [heap_set_self, heap_set_self]
        rfl

/-- A directory without children can be removed. -/
theorem removes_empty (hc : c.Serves view) (hs : CacheInv s) (hp : s.cache.lookup pino = some p)
    (ha : (s.cache.heap p).getChild n = some a) (hdir : (s.cache.heap a).isDir = true)
    (hempty : (s.cache.heap a).childCount = 0) :
    ∃ s', (removeDentry opt (s3Stor c) pino n).run s = .ok () s' ∧ (s'.cache.heap p).getChild n = none := by
  obtain ⟨m', t', hfind, hm', hgrow, hdir', hchildren⟩ :=
    run_findDentry_dir opt s.stor s.now s.garbage hc hs hp ha hdir
  have halloc := (hs.child p n a (hs.indexed _ _ hp).1 ha).2.1
  obtain ⟨path, hpath⟩ := fullPath_some hm' (Nat.lt_of_lt_of_le halloc hgrow.next)
  rcases run_removeDentry_dir hc hfind hdir' hpath with ⟨hcount, -⟩ | ⟨-, hrun⟩
  · rw [Dentry.childCount, hchildren] at hcount
    exact absurd hempty hcount
  · obtain ⟨t₂, -, hrun⟩ := hrun p (hgrow.index _ _ hp)
    refine ⟨_, hrun, ?_⟩
    rw [heap_set_self]
    exact AList.lookup_erase _ _

variable (opt) in
/-- A load of a directory without children, where the listing gives proper names and the bucket yields none, leaves it
    without children. -/
theorem children_load (hc : c.Serves view) (hs : CacheInv s) (ha : s.cache.lookup ino = some a)
    (hempty : ∀ k, (s.cache.heap a).getChild k = none)
    (hproper : s.Relists ino a → (view s.stor).ListsProper (s.cache.dirPrefix a))
    (hnone : ∀ k, ¬ (view s.stor).Yields (s.cache.dirPrefix a) k) (fuel : Nat) (k : Str) :
    ((endState (((Request.load ino).prog opt (s3Stor c) fuel).run s)).cache.heap a).getChild k = none := by
  have htrail := request_edits opt (s3Stor c) hs fuel (.load ino)
  refine htrail.edits.keeps hs (K := fun m => ∀ k, (m.heap a).getChild k = none) hempty
    (fun e m m' hm hrest hk he hl => ?_) k
  have hgrow := (hrest.grow hs).2
  have ha' := hgrow.index _ _ ha
  intro k
  cases hch : (m'.heap a).getChild k with
  | none => rfl
  | some ch =>
    exfalso
    have halloc' := Nat.lt_of_lt_of_le (hm.indexed _ _ ha').1 (hl.keeps hm).2.next
    rcases hl.origin halloc' hch with ⟨-, hold⟩ | hnew
    · rw [hk k] at hold
      cases hold
    · -- Only a node of the listing makes a child.
      have hlt := ((hl.keeps hm).1.child a k ch halloc' hch).2.1
      cases he with
      | mark | update | marked =>
        obtain ⟨-, -, -, rfl⟩ := hl
        exact absurd hlt (Nat.not_lt.mpr hnew)
      | @entry m p node hp hlists hnode hnone' =>
        obtain rfl := Option.some.inj (hlists.1.symm.trans ha)
        obtain ⟨hslash, hkey⟩ := listedNode_served hc hnode
        refine hnone node.name ⟨((hproper hlists).name hslash hkey).1, hslash, ?_⟩
        rcases hkey with hkey | ⟨-, hback⟩
        · exact .inl hkey
        · exact hback
      | sweep hp =>
        rw [hl.2.next] at hlt
        exact absurd hlt (Nat.not_lt.mpr hnew)

/-- And it lists as `.` and `..`. -/
theorem lists_empty (hc : c.Serves view) (ho : c.InOrder view) (hs : CacheInv s) (ha : s.cache.lookup ino = some a)
    (hempty : ∀ k, (s.cache.heap a).getChild k = none)
    (hproper : s.Relists ino a → (view s.stor).ListsProper (s.cache.dirPrefix a))
    (hnone : ∀ k, ¬ (view s.stor).Yields (s.cache.dirPrefix a) k) : ∃ pages, ∀ fuel, pages ≤ fuel →
      ∃ s', (loadSubDentries (s3Stor c) fuel ino).run s = .ok (dots a) s' := by
  obtain ⟨es, hes⟩ := ho.entries s.stor (s.cache.dirPrefix a)
  refine ⟨es.length + 1, fun fuel hfuel => ?_⟩
  have hreturns : ∃ ds s', (loadSubDentries (s3Stor c) fuel ino).run s = .ok ds s' := by
    cases hstale : (!(s.cache.heap a).complete || (s.cache.heap a).isExpired s.now) with
    | true =>
      obtain ⟨ds, s', hrun, -⟩ := run_load_fresh s.garbage hc ho hs ha (hempty ['x']) (by decide) (by decide) hes hfuel hstale
      exact ⟨ds, s', hrun⟩
    | false =>
      obtain ⟨ds, s', hrun, -⟩ := run_load_cached c s.stor s.garbage fuel hs ha (hempty ['x']) hstale
      exact ⟨ds, s', hrun⟩
  obtain ⟨ds, s', hrun⟩ := hreturns
  refine ⟨s', ?_⟩
  obtain ⟨b, hb, rfl⟩ := load_lists hrun
  obtain rfl := Option.some.inj (ha.symm.trans hb)
  have hchildren := children_load ⟨0, 0, 0⟩ hc hs ha hempty hproper hnone fuel
  have hmap : ((fun _ => ()) <$> loadSubDentries (s3Stor c) fuel ino : MetaM σ Unit).run s = .ok () s' := Prog.run_map_ok hrun
  rw [show (Request.load ino).prog ⟨0, 0, 0⟩ (s3Stor c) fuel = (fun _ => ()) <$> loadSubDentries (s3Stor c) fuel ino from rfl,
    hmap] at hchildren
  have hnil : (s'.cache.heap a).children.entries = [] := by
    refine List.eq_nil_iff_forall_not_mem.mpr fun x hx => ?_
    have hx' : (s'.cache.heap a).getChild x.1 = some x.2 := AList.mem_lookup_iff.mpr hx
    cases (hchildren x.1).symm.trans hx'
  rw [hrun, listed, hnil]
  rfl

/-- In a run from a new mount in which no directory is listed that has an object of its own, or a component `.` or `..`
    in it, the dentries in the tree have proper names. A directory without an entry of a proper name can then be removed,
    and lists as `.` and `..` if the bucket yields nothing below it. -/
theorem names_proper (hc : c.Serves view) (ho : c.InOrder view) {start : Timespec}
    (h : Requests opt (s3Stor c) (KeepsNames view) ⟨.new opt start, t, now, garbage⟩ s) :
    (∀ a, Attached s.cache a → a ≠ s.cache.rootDentry → ProperName (s.cache.heap a).name) ∧
    ∀ pino p n a, s.cache.lookup pino = some p → Attached s.cache p → (s.cache.heap p).getChild n = some a →
      (s.cache.heap a).isDir = true → (∀ k ch, ProperName k → (s.cache.heap a).getChild k ≠ some ch) →
      (∃ s', (removeDentry opt (s3Stor c) pino n).run s = .ok () s' ∧ (s'.cache.heap p).getChild n = none) ∧
      (KeepsNames view (.load (s.cache.heap a).inode.ino) s → (∀ k, ¬ (view s.stor).Yields (s.cache.dirPrefix a) k) →
        ∃ pages, ∀ fuel, pages ≤ fuel →
          ∃ s', (loadSubDentries (s3Stor c) fuel (s.cache.heap a).inode.ino).run s = .ok (dots a) s') := by
  have hnew : NamesProper (.new opt start) := by
    intro a ha hroot
    exact absurd (Nat.lt_one_iff.mp (ha.allocated (Inv.new opt start))) hroot
  obtain ⟨hs, hnames⟩ := namesProper_requests hc h (Inv.new opt start) hnew
  refine ⟨hnames, fun pino p n a hp hattached hch hdir hproper => ?_⟩
  have halloc := (hs.child p n a (hs.indexed _ _ hp).1 hch).2.1
  have hempty : ∀ k, (s.cache.heap a).getChild k = none := by
    intro k
    cases hk : (s.cache.heap a).getChild k with
    | none => rfl
    | some ch =>
      obtain ⟨hlt, -, hname, -⟩ := hs.child a k ch halloc hk
      have hroot : ch ≠ s.cache.rootDentry := by
        rw [hs.root]
        exact Nat.ne_of_gt (Nat.zero_lt_of_lt hlt)
      exact absurd hk (hproper k ch (hname ▸ hnames ch ((hattached.child hch).child hk) hroot))
  have hcount : (s.cache.heap a).childCount = 0 := by
    refine List.length_eq_zero_iff.mpr (List.eq_nil_iff_forall_not_mem.mpr fun x hx => ?_)
    have hx' : (s.cache.heap a).getChild x.1 = some x.2 := AList.mem_lookup_iff.mpr hx
    cases (hempty x.1).symm.trans hx'
  exact ⟨removes_empty hc hs hp hch hdir hcount, fun hload hnone => lists_empty hc ho hs (hs.index a halloc) hempty
    (fun hlists => hload.2 _ a rfl hlists (hattached.child hch)) hnone⟩

theorem names_proper_newDir : (∀ a, Attached madeDir.cache a → a ≠ madeDir.cache.rootDentry → ProperName (madeDir.cache.heap a).name) ∧
    ∃ s', (removeDentry ⟨0, 0, 60⟩ (s3Stor Log.client) ROOT_INODE_ID ['d']).run madeDir = .ok () s' ∧
      (s'.cache.heap madeDir.cache.rootDentry).getChild ['d'] = none := by
  have hrun : Requests ⟨0, 0, 60⟩ (s3Stor Log.client) (KeepsNames Log.bucket) (newWorld ([] : Log)) madeDir := by
    refine .request .start 1 _ ⟨fun pino n hentry => ?_, fun ino p hload => by cases hload⟩
    obtain ⟨-, rfl⟩ := Prod.mk.inj (Option.some.inj hentry)
    exact ⟨by decide, by decide, by decide, by decide⟩
  have hroot : madeDir.cache.lookup ROOT_INODE_ID = some madeDir.cache.rootDentry := by decide +kernel
  have hchild : (madeDir.cache.heap madeDir.cache.rootDentry).getChild ['d'] = some 1 := by decide +kernel
  obtain ⟨hnames, hdirs⟩ := names_proper Log.client_serves Log.client_inOrder hrun
  refine ⟨hnames, (hdirs ROOT_INODE_ID _ ['d'] 1 hroot .root hchild (by decide +kernel) fun k ch _ hk => ?_).1⟩
  have hempty : (madeDir.cache.heap 1).children.entries = [] := by decide +kernel
  have hmem : (⟨k, ch⟩ : Sigma fun _ : Str => Addr) ∈ (madeDir.cache.heap 1).children.entries := AList.mem_lookup_iff.mp hk
  rw [hempty] at hmem
  cases hmem

/-- The names of a listing that returned. -/
def listedNames : Result Err (World σ) (List Dirent) → Option (List Str)
  | .ok ds _ => some (ds.map Dirent.name)
  | .error .. => none

def isNotEmpty : Result Err (World σ) Unit → Bool
  | .error .enotempty _ => true
  | _ => false

/-- And after it was listed. -/
def madeDirListed : World Log := endState ((loadSubDentries (s3Stor Log.client) 1 2).run madeDir)

/-- The object of a new directory is listed as its child with the empty name, and the directory cannot be removed. -/
theorem marker_listed :
    Requests ⟨0, 0, 60⟩ (s3Stor Log.client) (fun r _ => ∀ pino n, r.entry = some (pino, n) → ProperName n) (newWorld [])
      madeDirListed ∧
    (∃ ds, (loadSubDentries (s3Stor Log.client) 1 2).run madeDir = .ok ds madeDirListed ∧
      ds.map Dirent.name = [['.'], ['.', '.'], []]) ∧
    (∃ a, Attached madeDirListed.cache a ∧ a ≠ madeDirListed.cache.rootDentry ∧ (madeDirListed.cache.heap a).name = []) ∧
    ∃ s', (removeDentry ⟨0, 0, 60⟩ (s3Stor Log.client) ROOT_INODE_ID ['d']).run madeDirListed = .error .enotempty s' := by
  have hnames : listedNames ((loadSubDentries (s3Stor Log.client) 1 2).run madeDir) = some [['.'], ['.', '.'], []] := by
    decide +kernel
  obtain ⟨ds, hload, hds⟩ : ∃ ds, (loadSubDentries (s3Stor Log.client) 1 2).run madeDir = .ok ds madeDirListed ∧
      ds.map Dirent.name = [['.'], ['.', '.'], []] := by
    cases hr : (loadSubDentries (s3Stor Log.client) 1 2).run madeDir with
    | ok ds s =>
      rw [hr] at hnames
      exact ⟨ds, by rw [madeDirListed, hr]; rfl, Option.some.inj hnames⟩
    | error e s =>
      rw [hr] at hnames
      cases hnames
  have hload' : madeDirListed = endState (((Request.load 2).prog ⟨0, 0, 60⟩ (s3Stor Log.client) 1).run madeDir) := by
    have hmap : ((Request.load 2).prog ⟨0, 0, 60⟩ (s3Stor Log.client) 1).run madeDir = .ok () madeDirListed := Prog.run_map_ok hload
    rw [hmap]
    rfl
  have hdir : (madeDirListed.cache.heap madeDirListed.cache.rootDentry).getChild ['d'] = some 1 := by decide +kernel
  have hmarker : (madeDirListed.cache.heap 1).getChild [] = some 2 := by decide +kernel
  have hrefused : isNotEmpty ((removeDentry ⟨0, 0, 60⟩ (s3Stor Log.client) ROOT_INODE_ID ['d']).run madeDirListed) = true := by
    decide +kernel
  refine ⟨?_, ⟨ds, hload, hds⟩, ⟨2, .child (.child .root hdir) hmarker, by decide +kernel, by decide +kernel⟩, ?_⟩
  · rw [hload']
    refine .request (.request .start 1 _ fun pino n hentry => ?_) 1 _ fun pino n hentry => by cases hentry
    obtain ⟨-, rfl⟩ := Prod.mk.inj (Option.some.inj hentry)
    exact ⟨by decide, by decide, by decide, by decide⟩
  · cases hr : (removeDentry ⟨0, 0, 60⟩ (s3Stor Log.client) ROOT_INODE_ID ['d']).run madeDirListed with
    | ok _ s =>
      rw [hr] at hrefused
      cases hrefused
    | error e s =>
      rw [hr] at hrefused
      cases e with
      | enotempty => exact ⟨s, rfl⟩
      | _ => cases hrefused

end MetaImpl

end Catfs
