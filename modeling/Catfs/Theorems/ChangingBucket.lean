import Catfs.Theorems.ConcurrentLoad
import Catfs.Theorems.Interleaved
import Catfs.Theorems.LookupListing

/-! # A listing while the bucket changes

`load_sub_dentries` reads the listing of its directory page by page, and between two of its steps other clients may change
the bucket in any way. An entry that is in the bucket whenever a page is read is listed, and what is listed was in the
bucket when some page was read, or carried a mark before the load (`listing_regular`). -/

namespace Catfs

open Lib MetaM LocalMemMeta
open EStateM (Result)

section
variable {σ : Type} {c : S3Client σ} {view : σ → Bucket} {b : Bucket} {pre n : Str} {es : List Str} {isDir : Bool}

/-- A client that lists in order where it lists at all. -/
structure S3Client.PagesInOrder (c : S3Client σ) (view : σ → Bucket) : Prop where
  entries : ∀ t pre, ∃ es, (view t).Entries pre es
  list : ∀ t req es r t', req.delimiter = slash → 0 < req.maxKeys → (view t).Entries req.pre es →
    c.listObjects req t = .ok r t' → r.PageOf req es

theorem S3Client.InOrder.pages (ho : c.InOrder view) : c.PagesInOrder view where
  entries := ho.entries
  list t req es r t' hdelimiter hmax hes h := by
    obtain ⟨r', t₁, hr, -, hpage⟩ := ho.list t req es hdelimiter hmax hes
    obtain ⟨rfl, -⟩ := Result.ok.inj (hr.symm.trans h)
    exact hpage

/-- The listing of `pre` has the entry `n`, as an object or as a common prefix. -/
def Bucket.HasEntry (b : Bucket) (pre n : Str) : Bool → Prop
  | false => b.Holds (pre ++ n)
  | true => ∃ rest, b.Holds (pre ++ n ++ slash ++ rest)

theorem Bucket.Entries.hasEntry (h : b.Entries pre es) (hn : '/' ∉ n) :
    entryKey (pre ++ n) isDir ∈ es ↔ b.HasEntry pre n isDir := by
  cases isDir with
  | false => exact h.key hn
  | true => exact h.dir hn

end

namespace MetaImpl
variable {ι σ α : Type} {c : S3Client σ} {view : σ → Bucket} {b : Bucket} {pre n marker : Str} {es : List Str}
  {r : ListObjectsResult} {nodes : List FTreeNode} {isDir : Bool}

/-! ### The nodes of one page -/

section
variable (hpage : r.PageOf (pageRequest pre marker) es)
include hpage

theorem named_page (hn : '/' ∉ n) (hne : n ≠ []) (hnodes : NodesFor pre r.contents r.commonPrefixes nodes)
    (h : entryKey (pre ++ n) isDir ∈ page (Log.markerOf marker) 1000 es) : ∃ node ∈ nodes, node.name = n := by
  cases isDir with
  | false =>
    obtain ⟨o, ho, hkey⟩ := (page_key hpage hn).mpr h
    obtain ⟨node, hnode, hkey'⟩ := hnodes.files o ho
    exact ⟨node, hnode, List.append_cancel_left (hkey'.symm.trans hkey)⟩
  | true => exact hnodes.dirs n hne ((page_dir hpage).mpr h)

theorem backs_page (hes : b.Entries pre es) (hnodes : NodesFor pre r.contents r.commonPrefixes nodes) {node : FTreeNode}
    (h : node ∈ nodes) : b.Backs pre node.name := by
  have hslash := plain_nodes hnodes (PageOf.under hpage hes) node h
  rcases hnodes.listed node h with ⟨-, -, hprefix⟩ | ⟨-, o, ho, hkey, -⟩
  · exact .inr ((hes.dir hslash).mp (mem_of_mem_page ((page_dir hpage).mp hprefix)))
  · exact .inl ((hes.key hslash).mp (mem_of_mem_page ((page_key hpage hslash).mp ⟨o, ho, hkey⟩)))

end

/-! ### What the record says of the pages -/

/-- A page of the listing of `pre` was read from the bucket `b`. -/
def ListedFrom (view : σ → Bucket) (pre : Str) (past : List (ι × MetaAct × World σ)) (b : Bucket) : Prop :=
  ∃ e ∈ past, (∃ marker, e.2.1 = .list pre marker) ∧ view e.2.2.stor = b

section
variable {i : ι} {l : MetaAct} {x : MetaConf ι σ} {s : World σ}

theorem listedFrom_after : ListedFrom view pre (x.after i l s).past b ↔
    ListedFrom view pre x.past b ∨ (∃ marker, l = .list pre marker) ∧ view x.state.stor = b := by
  simp [ListedFrom, Conf.after, or_and_right, exists_or]

theorem listedFrom_other (hl : ∀ pre marker, l ≠ .list pre marker) :
    ListedFrom view pre (x.after i l s).past = ListedFrom view pre x.past := by
  funext b
  simp [listedFrom_after, hl]

end

/-- A load of the directory `a`, with the number `ino` and the prefix `pre`, that found the cache `before`; and a name. -/
structure Scan (σ : Type) where
  view : σ → Bucket
  a : Addr
  ino : InodeID
  pre : Str
  name : Str
  before : LocalMemMeta

namespace Scan
variable {L : Scan σ} {B : Bucket → Prop} {m m' : LocalMemMeta} {guard : Unit → MetaAct → MetaConf Unit σ → Prop}

/-- The name is a single component, and each of the buckets has it as an entry. -/
structure InEach (L : Scan σ) (B : Bucket → Prop) (isDir : Bool) : Prop where
  slash : '/' ∉ L.name
  ne : L.name ≠ []
  held : ∀ b, B b → b.HasEntry L.pre L.name isDir

/-- One of the buckets yields the name, or its entry carried a mark before. -/
def Grounded (L : Scan σ) (B : Bucket → Prop) : Prop :=
  (∃ b, B b ∧ b.Backs L.pre L.name) ∨ ∃ ch, L.before.KeptChild L.a L.name ch

/-- The cache while the pages are merged that were read from the buckets `B`. -/
structure Going (L : Scan σ) (B : Bucket → Prop) (m : LocalMemMeta) : Prop where
  inv : Inv m
  grow : Grow L.before m
  index : m.lookup L.ino = some L.a
  marked : ∀ ch, m.KeptChild L.a L.name ch → L.Grounded B

/-- A lasting entry is merged already, or comes after the marker. -/
def Ahead (L : Scan σ) (marker : Str) (B : Bucket → Prop) (m : LocalMemMeta) : Prop :=
  L.Going B m ∧ ∀ isDir, L.InEach B isDir → (∃ ch, m.KeptChild L.a L.name ch) ∨
    ∀ z, Log.markerOf marker = some z → z < entryKey (L.pre ++ L.name) isDir

/-- Every lasting entry is merged. -/
def PagesDone (L : Scan σ) (B : Bucket → Prop) (m : LocalMemMeta) : Prop :=
  L.Going B m ∧ ∀ isDir, L.InEach B isDir → ∃ ch, m.KeptChild L.a L.name ch

/-- A page after the marker was read. -/
def PageRead (L : Scan σ) (marker : Str) (resp : ListObjectsResp) (B : Bucket → Prop) (m : LocalMemMeta) : Prop :=
  L.Ahead marker B m ∧ ∃ b es g r, B b ∧ b.Entries L.pre es ∧ r.PageOf (pageRequest L.pre marker) es ∧ resp = pageResp g r

/-- The children after the sweep. -/
structure SweepDone (L : Scan σ) (B : Bucket → Prop) (m : LocalMemMeta) : Prop where
  inv : Inv m
  alloc : L.a < m.heapNext
  lasting : ∀ isDir, L.InEach B isDir → ∃ ch, (m.heap L.a).getChild L.name = some ch
  grounded : ∀ ch, (m.heap L.a).getChild L.name = some ch → L.Grounded B

/-- What the listing that is returned says of the name. -/
def Regular (L : Scan σ) (B : Bucket → Prop) (ds : List Dirent) : Prop :=
  (∀ isDir, L.InEach B isDir → ∃ d ∈ ds.drop 2, d.name = L.name) ∧ ((∃ d ∈ ds.drop 2, d.name = L.name) → L.Grounded B)

/-! ### The step lemma -/

/-- A page is merged: a lasting entry is on the page, or after its last item. -/
theorem PageRead.build {resp : ListObjectsResp} (h : L.PageRead marker resp B m) (hft : buildFtree L.pre resp = some nodes)
    (hb : Built L.a nodes m m') :
    (resp.isTrunc = true → L.Ahead resp.nextMarker B m') ∧ (resp.isTrunc = false → L.PagesDone B m') := by
  obtain ⟨⟨hgoing, hahead⟩, b, es, g, r, hbucket, hes, hpage, rfl⟩ := h
  obtain ⟨nodes', hft', hnodes⟩ := nodesFor_page (PageOf.under hpage hes) g
  obtain rfl := Option.some.inj (hft.symm.trans hft')
  have hgrounded : (∃ node ∈ nodes, node.name = L.name) → L.Grounded B := by
    rintro ⟨node, hnode, hname⟩
    exact .inl ⟨b, hbucket, hname ▸ backs_page hpage hes hnodes hnode⟩
  have hgoing' : L.Going B m' := by
    refine ⟨hb.inv, hgoing.grow.trans hb.grow, hb.grow.index _ _ hgoing.index, fun ch ⟨hch, hsync⟩ => ?_⟩
    rcases hb.origin _ ch hch with hold | ⟨-, hnode⟩
    · obtain ⟨hlt, halloc, hname, -⟩ := hgoing.inv.child L.a _ ch hb.alloc hold
      rcases hb.marked ch halloc (Nat.ne_of_gt hlt) hsync with hsync | ⟨node, hnode, hch'⟩
      · exact hgoing.marked ch ⟨hold, hsync⟩
      · have hname' := (hgoing.inv.child L.a _ ch hb.alloc hch').2.2.1
        exact hgrounded ⟨node, hnode, hname'.symm.trans hname⟩
    · exact hgrounded hnode
  have hstep : ∀ isDir, L.InEach B isDir → (∃ ch, m'.KeptChild L.a L.name ch) ∨ (pageResp g r).isTrunc = true ∧
      ∀ z, Log.markerOf (pageResp g r).nextMarker = some z → z < entryKey (L.pre ++ L.name) isDir := by
    intro isDir hlast
    rcases hahead isDir hlast with ⟨ch, hch, hsync⟩ | hlt
    · exact .inl ⟨ch, hb.child _ ch hch, hb.mark ch (hgoing.inv.child L.a _ ch hb.alloc hch).2.1 hsync⟩
    · have hmem := (hes.hasEntry hlast.slash).mpr (hlast.held b hbucket)
      rcases mem_page_or_lt hes.sorted hmem hlt with hon | ⟨htruncated, hbeyond⟩
      · obtain ⟨node, hnode, hname⟩ := named_page hpage hlast.slash hlast.ne hnodes hon
        exact .inl (hname ▸ hb.listed node hnode)
      · have htrunc : r.isTruncated = true := hpage.isTruncated.trans htruncated
        refine .inr ⟨htrunc, fun z hz => ?_⟩
        rw [Log.markerOf] at hz
        split at hz
        · cases hz
        · exact Option.some.inj hz ▸ hbeyond _ (hpage.nextMarker htrunc)
  refine ⟨fun _ => ⟨hgoing', fun isDir hlast => (hstep isDir hlast).imp id And.right⟩, fun hlastPage => ⟨hgoing', fun isDir hlast => ?_⟩⟩
  refine (hstep isDir hlast).resolve_right fun htrunc => ?_
  rw [hlastPage] at htrunc
  cases htrunc.1

theorem PagesDone.sweep (h : L.PagesDone B m) (hs : LocalMemMeta.Swept L.a m m') : L.SweepDone B m' where
  inv := hs.inv
  alloc := hs.next ▸ (h.1.inv.indexed _ _ h.1.index).1
  lasting isDir hlast := (h.2 isDir hlast).imp fun ch hch => (hs.child L.a .start _ ch).mpr hch
  grounded ch hch := h.1.marked ch ((hs.child L.a .start _ ch).mp hch)

/-! ### The program -/

/-- The surroundings leave the cache and the record alone. -/
def Rely (_ : Unit) (x y : MetaConf Unit σ) : Prop := y.past = x.past ∧ y.state.cache = x.state.cache

/-- The assertion `P` on the buckets that the pages were read from, and on the cache. -/
abbrev At (L : Scan σ) (P : (Bucket → Prop) → LocalMemMeta → Prop) (x : MetaConf Unit σ) : Prop :=
  P (ListedFrom L.view L.pre x.past) x.state.cache

variable {P Q : (Bucket → Prop) → LocalMemMeta → Prop}

theorem stable_at : Stable (Rely ()) (L.At P) := by
  rintro x y ⟨hpast, hcache⟩ h
  rw [At, hpast, hcache]
  exact h

/-- A step that reads, or changes the cache. -/
theorem sat_cache {l : MetaAct} {f : EStateM Err (World σ) α} {R : α → (Bucket → Prop) → LocalMemMeta → Prop}
    (hl : ∀ pre marker, l ≠ .list pre marker)
    (hf : ∀ B s, P B s.cache → ∀ r s', f s = .ok r s' → R r B s'.cache) :
    (Prog.lift l f).Sat guard Rely () (L.At P) fun r => L.At (R r) := by
  refine Prog.sat_alone (fun _ => stable_at) fun x hx _ r s' hr => ?_
  rw [At, listedFrom_other hl]
  exact hf _ _ hx r s' hr

theorem sat_list (hc : c.PagesInOrder L.view) (marker : Str) :
    (call (.list L.pre marker) ((s3Stor c).listObjects { delimiter := slash, pre := L.pre, max := 1000, marker }) :
      MetaM σ ListObjectsResp).Sat guard Rely () (L.At (L.Ahead marker)) fun resp => L.At (L.PageRead marker resp) := by
  refine Prog.sat_alone (fun _ => stable_at) fun x hx _ resp s' hr => ?_
  have hmono : ∀ b, ListedFrom L.view L.pre x.past b →
      ListedFrom L.view L.pre (x.after () (.list L.pre marker) s').past b := fun b h => listedFrom_after.mpr (.inl h)
  have hnow : ListedFrom L.view L.pre (x.after () (.list L.pre marker) s').past (L.view x.state.stor) :=
    listedFrom_after.mpr (.inr ⟨⟨marker, rfl⟩, rfl⟩)
  have hgrounded : L.Grounded (ListedFrom L.view L.pre x.past) →
      L.Grounded (ListedFrom L.view L.pre (x.after () (.list L.pre marker) s').past) :=
    Or.imp (fun ⟨b, hb, hback⟩ => ⟨b, hmono b hb, hback⟩) id
  obtain ⟨hgoing, hahead⟩ := hx
  have hahead' : L.Ahead marker (ListedFrom L.view L.pre (x.after () (.list L.pre marker) s').past) x.state.cache :=
    ⟨⟨hgoing.inv, hgoing.grow, hgoing.index, fun ch hch => hgrounded (hgoing.marked ch hch)⟩, fun isDir hlast =>
      hahead isDir ⟨hlast.slash, hlast.ne, fun b hb => hlast.held b (hmono b hb)⟩⟩
  obtain ⟨es, hes⟩ := hc.entries x.state.stor L.pre
  cases hlist : c.listObjects (pageRequest L.pre marker) x.state.stor with
  | ok r t' =>
    rw [zoom_ok (run_listObjects hlist)] at hr
    obtain ⟨rfl, rfl⟩ := Result.ok.inj hr
    exact ⟨hahead', _, es, _, r, hnow, hes, hc.list _ _ es r t' rfl (Nat.succ_pos _) hes hlist, rfl⟩
  | error e t' =>
    have herror : (s3Stor c).listObjects { delimiter := slash, pre := L.pre, max := 1000, marker } x.state.stor =
        .error (.serverError e.message) t' := by
      have ho : orServerError (c.listObjects (pageRequest L.pre marker)) x.state.stor = .error (.serverError e.message) t' := by
        rw [orServerError, hlist]
      exact bind_error ho
    rw [zoom_error herror] at hr
    cases hr

theorem sat_build {resp : ListObjectsResp} {ino : InodeID} (hino : ino = L.ino) (hft : buildFtree L.pre resp = some nodes) :
    (cache (.build ino (nodes.map FTreeNode.name)) fun now => buildDentries now ino nodes : MetaM σ Unit).Sat guard Rely ()
      (L.At (L.PageRead marker resp)) fun _ => L.At fun B m =>
        (resp.isTrunc = true → L.Ahead resp.nextMarker B m) ∧ (resp.isTrunc = false → L.PagesDone B m) := by
  subst hino
  refine sat_cache (by simp) fun B s hs r s' hr => ?_
  obtain ⟨m', hrun, hb⟩ := run_buildDentries s.now hs.1.1.inv hs.1.1.index (flat_buildFtree hft)
  simp only [onCache, zoom, hrun] at hr
  obtain ⟨-, rfl⟩ := Result.ok.inj hr
  exact hs.build hft hb

/-- The run lemma: after the last page every lasting entry is merged. -/
theorem sat_refreshLoop (hc : c.PagesInOrder L.view) {ino : InodeID} (hino : ino = L.ino) (fuel : Nat) (marker : Str) :
    (refreshLoop (s3Stor c) ino L.pre fuel marker).Sat guard Rely () (L.At (L.Ahead marker)) fun _ => L.At L.PagesDone := by
  induction fuel generalizing marker with
  | zero => trivial
  | succ fuel ih =>
    refine (sat_list hc marker).bind fun resp => ?_
    cases hft : buildFtree L.pre resp with
    | none => trivial
    | some nodes =>
      refine (sat_build hino hft).bind fun _ => ?_
      cases ht : resp.isTrunc with
      | true =>
        rw [if_pos rfl]
        exact (ih resp.nextMarker).pre fun x hx => hx.1 rfl
      | false =>
        rw [if_neg Bool.false_ne_true]
        exact Prog.sat_pure fun x hx => hx.2 rfl

/-- Nothing was listed, and the cache is as it was before. -/
def Unlisted (L : Scan σ) (B : Bucket → Prop) (m : LocalMemMeta) : Prop := (∀ b, ¬ B b) ∧ m = L.before

variable (hm : Inv L.before) (hindex : L.before.lookup L.ino = some L.a) (hpre : L.before.dirPrefix L.a = L.pre)
include hm hindex

theorem Unlisted.ahead (h : L.Unlisted B m) : L.Ahead [] B m := by
  obtain ⟨-, rfl⟩ := h
  exact ⟨⟨hm, .refl _, hindex, fun ch hch => .inr ⟨ch, hch⟩⟩, fun _ _ => .inr fun z hz => by cases hz⟩

include hpre

theorem sat_refresh (hc : c.PagesInOrder L.view) (fuel : Nat) :
    (refreshSubDentries (s3Stor c) fuel L.a).Sat guard Rely () (L.At L.Unlisted) fun _ => L.At L.SweepDone := by
  have halloc := (hm.indexed _ _ hindex).1
  have hpath : (pathWithSlash L.a : MetaM σ Str).Sat guard Rely () (L.At L.Unlisted) fun pre => L.At fun B m =>
      pre = L.pre ∧ L.Unlisted B m := by
    refine sat_cache (by simp) fun B s hs r s' hr => ?_
    obtain ⟨hnone, hcache⟩ := hs
    simp only [onCache, zoom, hcache, run_getFullPathWithSlash hm halloc] at hr
    obtain ⟨rfl, rfl⟩ := Result.ok.inj hr
    exact ⟨hpre, hnone, rfl⟩
  have hread : (readDentry L.a : MetaM σ Dentry).Sat guard Rely () (L.At L.Unlisted) fun d => L.At fun B m =>
      d.inode.ino = L.ino ∧ L.Unlisted B m := by
    refine sat_cache (by simp) fun B s hs r s' hr => ?_
    obtain ⟨hnone, hcache⟩ := hs
    obtain ⟨rfl, rfl⟩ := Result.ok.inj hr
    refine ⟨?_, hnone, hcache⟩
    rw [hcache]
    exact (hm.indexed _ _ hindex).2
  refine hpath.bind fun pre => Prog.Sat.of_fact ?_
  rintro rfl
  refine hread.bind fun d => Prog.Sat.of_fact fun hino => ?_
  refine ((sat_refreshLoop hc hino fuel []).pre fun x hx => hx.ahead hm hindex).bind fun _ => ?_
  refine sat_cache (by simp) fun B s hs r s' hr => ?_
  obtain ⟨m', hrun, hswept⟩ := run_clearUnsyncDentry s.now hs.1.inv (hs.1.inv.indexed _ _ hs.1.index).1
  simp only [onCache, zoom, hrun] at hr
  obtain ⟨-, rfl⟩ := Result.ok.inj hr
  exact hs.sweep hswept

theorem sat_load (hc : c.PagesInOrder L.view) (fuel : Nat) :
    (loadSubDentries (s3Stor c) fuel L.ino).Sat guard Rely () (L.At L.Unlisted) fun ds => L.At fun B _ =>
      (∃ b, B b) → L.Regular B ds := by
  have hget : (getDentry L.ino : MetaM σ _).Sat guard Rely () (L.At L.Unlisted) fun d => L.At fun B m =>
      d = some L.a ∧ L.Unlisted B m := by
    refine sat_cache (by simp) fun B s hs r s' hr => ?_
    obtain ⟨hnone, hcache⟩ := hs
    obtain ⟨rfl, rfl⟩ := Result.ok.inj hr
    exact ⟨hcache ▸ hindex, hnone, hcache⟩
  have hstale : (needsRefresh L.a : MetaM σ _).Sat guard Rely () (L.At L.Unlisted) fun _ => L.At L.Unlisted := by
    refine sat_cache (by simp) fun B s hs r s' hr => ?_
    obtain ⟨-, rfl⟩ := Result.ok.inj hr
    exact hs
  have hlist : (listChildren L.a : MetaM σ _).Sat guard Rely () (L.At L.SweepDone) fun ds => L.At fun B _ => L.Regular B ds := by
    refine Prog.Sat.bind (M := fun cs => L.At fun B _ => L.Regular B (⟨['.'], L.a⟩ :: ⟨['.', '.'], L.a⟩ :: cs))
      (sat_cache (by simp) fun B s hs r s' hr => ?_) fun cs => Prog.sat_pure fun x hx => hx
    obtain ⟨ds, hrun, hmem⟩ := mem_listed s.stor s.now s.garbage L.name hs.inv hs.alloc (P := fun _ => True)
    obtain ⟨rfl, rfl⟩ := Result.ok.inj hr
    obtain ⟨rfl, -⟩ := Result.ok.inj hrun
    simp only [and_true] at hmem
    exact ⟨fun isDir hlast => hmem.mpr (hs.lasting isDir hlast), fun h => (hmem.mp h).elim hs.grounded⟩
  have hcached : (listChildren L.a : MetaM σ _).Sat guard Rely () (L.At L.Unlisted) fun ds => L.At fun B _ =>
      (∃ b, B b) → L.Regular B ds := by
    refine Prog.Sat.bind (M := fun _ => L.At fun B _ => ∀ b, ¬ B b)
      (sat_cache (by simp) fun B s hs r s' _ => hs.1) fun cs => Prog.sat_pure fun x hx ⟨b, hb⟩ => absurd hb (hx b)
  refine hget.bind fun d => Prog.Sat.of_fact ?_
  rintro rfl
  refine hstale.bind fun stale => ?_
  cases stale with
  | true => exact ((sat_refresh hm hindex hpre hc fuel).bind fun _ => hlist).post fun ds x hx _ => hx
  | false => exact hcached

end Scan

/-! ### The load -/

/-- Other clients change the bucket in any way while a directory is listed, between any two steps of the load. Of a name of
    one component, each entry that the bucket holds whenever a page is read is listed. And a name that is listed was in the
    bucket when some page was read, or its entry carried a mark before. -/
theorem listing_regular (hc : c.PagesInOrder view) {s : World σ} (hs : CacheInv s) {ino : InodeID} {a : Addr}
    (ha : s.cache.lookup ino = some a) {fuel : Nat} {y : Pool Unit MetaAct Err (World σ) (List Dirent)}
    (h : Pool.Runs (fun _ _ _ => True) CacheStays (.start (fun _ => loadSubDentries (s3Stor c) fuel ino) s) y)
    {ds : List Dirent} (hret : y.threads () = .ret ds)
    (hlisted : ∃ b, ListedFrom view (s.cache.dirPrefix a) y.conf.past b) :
    (∀ n isDir, n ≠ [] → '/' ∉ n →
      (∀ b, ListedFrom view (s.cache.dirPrefix a) y.conf.past b → b.HasEntry (s.cache.dirPrefix a) n isDir) →
      ∃ d ∈ ds.drop 2, d.name = n) ∧
    ∀ d ∈ ds.drop 2, (∃ b, ListedFrom view (s.cache.dirPrefix a) y.conf.past b ∧ b.Backs (s.cache.dirPrefix a) d.name) ∨
      ∃ ch, s.cache.KeptChild a d.name ch := by
  have hregular : ∀ n, (⟨view, a, ino, s.cache.dirPrefix a, n, s.cache⟩ : Scan σ).Regular
      (ListedFrom view (s.cache.dirPrefix a) y.conf.past) ds := by
    intro n
    let L : Scan σ := ⟨view, a, ino, s.cache.dirPrefix a, n, s.cache⟩
    have hidle : L.At L.Unlisted ⟨[], s⟩ := by
      refine ⟨?_, rfl⟩
      rintro b ⟨e, he, -⟩
      cases he
    have hgood : Pool.Good (fun _ _ _ => True) Scan.Rely (fun _ ds => L.At fun B _ => (∃ b, B b) → L.Regular B ds)
        (Pool.start (fun _ : Unit => loadSubDentries (s3Stor c) fuel ino) s) := fun _ =>
      ⟨L.At L.Unlisted, Scan.stable_at, hidle, Scan.sat_load (show Inv L.before from hs) ha rfl hc fuel⟩
    have hsound := Pool.sound (fun _ x s' (he : CacheStays x.state s') => ⟨rfl, he⟩) hgood h hret
    exact hsound hlisted
  exact ⟨fun n isDir hne hn hheld => (hregular n).1 isDir ⟨hn, hne, hheld⟩, fun d hd => (hregular d.name).2 ⟨d, hd, rfl⟩⟩

/-- Another client puts `x` while the root of a new mount is about to be listed. -/
def putMidway : Option (Pool Unit MetaAct Err (World Log) (List Dirent)) :=
  ((Pool.start (fun _ => loadSubDentries (s3Stor Log.client) 1 ROOT_INODE_ID) (newWorld [])).exec (fun _ _ _ => true)
    (List.replicate 4 ())).bind fun x =>
      Pool.exec (fun _ _ _ => true) { x with conf := { x.conf with state := { x.conf.state with stor := plainKey } } }
        (List.replicate 4 ())

def isList (l : MetaAct) : Bool :=
  match l with
  | .list .. => true
  | _ => false

theorem listing_regular_putMidway : ∃ y ds, Pool.Runs (fun _ _ _ => True) CacheStays
    (.start (fun _ : Unit => loadSubDentries (s3Stor Log.client) 1 ROOT_INODE_ID) (newWorld [])) y ∧ y.threads () = .ret ds ∧
      ∃ d ∈ ds.drop 2, d.name = ['x'] := by
  have hrun : putMidway.any (fun y => (y.threads ()).value.isSome &&
      y.conf.past.any (fun e => decide (e.2.1 = .list [] [])) &&
      y.conf.past.all fun e => !isList e.2.1 || (e.2.2.stor.bucket ['x']).isSome) = true := by decide +kernel
  obtain ⟨y, hy, hret⟩ := (Option.any_eq_true _ _).mp hrun
  simp only [Bool.and_eq_true, List.any_eq_true, List.all_eq_true, decide_eq_true_eq] at hret
  obtain ⟨⟨hvalue, e, he, hlist⟩, hall⟩ := hret
  obtain ⟨ds, hds⟩ := Prog.of_value hvalue
  obtain ⟨x, hx, hrest⟩ := Option.bind_eq_some_iff.mp hy
  have hruns : Pool.Runs (fun _ _ _ => True) CacheStays (.start (fun _ : Unit => loadSubDentries (s3Stor Log.client) 1 ROOT_INODE_ID)
      (newWorld [])) y := by
    refine .trans (Pool.runs_exec (fun _ _ _ _ => trivial) hx) (.head (.env ?_) (Pool.runs_exec (fun _ _ _ _ => trivial) hrest))
    rfl
  have hpages : Log.client.PagesInOrder Log.bucket := Log.client_inOrder.pages
  have hregular := listing_regular hpages
    (show CacheInv (newWorld []) from .new ⟨0, 0, 60⟩ ⟨0, 0⟩) (show newCache.lookup ROOT_INODE_ID = some 0 from rfl) hruns hds
    ⟨_, e, he, ⟨[], hlist⟩, rfl⟩
  refine ⟨y, ds, hruns, hds, hregular.1 ['x'] false (by simp) (by decide) ?_⟩
  rintro b ⟨e, he, ⟨marker, hlist⟩, rfl⟩
  have hheld := hall e he
  rw [hlist] at hheld
  exact hheld

end MetaImpl

end Catfs
