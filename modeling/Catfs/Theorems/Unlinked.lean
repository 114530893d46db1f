import Catfs.Lib.Behaves
import Catfs.Theorems.CompleteDirs
import Catfs.Theorems.Effects

/-! # A name without an object

A directory has no child of a name, and the bucket no key at or below its path. The metadata layer keeps that as long as
it puts no object there itself: what it caches, it was shown. -/

namespace Catfs

open Lib MetaM LocalMemMeta
open EStateM (Result)

section
variable {σ α : Type}

/-- What the requests of a client show and change, whether they succeed or not: an answer tells of the bucket, and a
    request changes at most the object under its own key. -/
structure S3Client.Confined (c : S3Client σ) (view : σ → Bucket) : Prop where
  head : ∀ t key r t', c.headObject key t = .ok r t' → (view t).Holds key
  headKeeps : ∀ t key, view (endState (c.headObject key t)) = view t
  list : ∀ t req r t', req.delimiter = slash → c.listObjects req t = .ok r t' →
    (view t).PartOfListing req.pre r.contents r.commonPrefixes
  listKeeps : ∀ t req, view (endState (c.listObjects req t)) = view t
  get : ∀ t key first last, view (endState (c.getObject key first last t)) = view t
  put : ∀ t key body k, k ≠ key → view (endState (c.putObject key body t)) k = view t k
  delete : ∀ t key k, (view (endState (c.deleteObject key t))).Holds k → (view t).Holds k
  deleted : ∀ t key t', c.deleteObject key t = .ok () t' → ¬ (view t').Holds key
  create : ∀ t key, view (endState (c.createMultipartUpload key t)) = view t
  part : ∀ t key uploadId n body, view (endState (c.uploadPart key uploadId n body t)) = view t
  complete : ∀ t key uploadId k, k ≠ key → view (endState (c.completeMultipartUpload key uploadId t)) k = view t k

/-- The key is the path or below it. -/
def AtOrBelow (path key : Str) : Prop := key = path ∨ ∃ rest, key = path ++ slash ++ rest

theorem endState_orServerError (m : EStateM S3Error σ α) (t : σ) : endState (orServerError m t) = endState (m t) := by
  rw [orServerError]
  cases m t <;> rfl

theorem endState_bind_pure {β : Type} (m : EStateM Err σ α) (f : α → β) (t : σ) :
    endState ((do let a ← m; return f a : EStateM Err σ β) t) = endState (m t) := by
  cases hm : m t with
  | ok a s =>
    rw [bind_ok hm]
    rfl
  | error e s =>
    rw [bind_error hm]
    rfl

end

namespace MetaImpl
variable {σ α : Type} {c : S3Client σ} {view : σ → Bucket} {opt : MetaOpt}

theorem reads_confined (hc : c.Confined view) : Reads (s3Stor c) view where
  head req resp t := by
    have hkeep := hc.headKeeps t req.objKey
    simp only [s3Stor]
    cases hr : c.headObject req.objKey t with
    | ok r t' =>
      rw [hr] at hkeep
      exact hkeep
    | error e t' =>
      rw [hr] at hkeep
      cases e <;> exact hkeep
  list req t := by
    have hkeep := hc.listKeeps t { delimiter := slash, marker := req.marker, maxKeys := req.max, pre := req.pre }
    rw [← endState_orServerError] at hkeep
    exact (congrArg view (endState_bind_pure _ _ t)).trans hkeep

/-- `name` is no child of the directory `ino`, which is at `p`, and there is no object at or below its path. -/
structure Unlinked (view : σ → Bucket) (ino : InodeID) (p : Addr) (name path : Str) (s : World σ) : Prop where
  inv : CacheInv s
  dir : s.cache.lookup ino = some p
  key : s.cache.dirPrefix p ++ name = path
  child : (s.cache.heap p).getChild name = none
  bucket : ∀ key, AtOrBelow path key → ¬ (view s.stor).Holds key

variable {ino : InodeID} {p : Addr} {name path : Str}

theorem Unlinked.alloc {s : World σ} (h : Unlinked view ino p name path s) : p < s.cache.heapNext :=
  (h.inv.indexed _ _ h.dir).1

/-- The cache grew, without a child of the name, and no object came to be there. -/
theorem Unlinked.later {s s' : World σ} (h : Unlinked view ino p name path s) (hinv : CacheInv s')
    (hgrow : CacheGrow s s') (hchild : (s'.cache.heap p).getChild name = none)
    (hbucket : ∀ key, AtOrBelow path key → (view s'.stor).Holds key → (view s.stor).Holds key) :
    Unlinked view ino p name path s' where
  inv := hinv
  dir := hgrow.index _ _ h.dir
  key := (congrArg (· ++ name) (dirPrefix_grow h.inv hgrow h.alloc)).trans h.key
  child := hchild
  bucket key hkey hholds := h.bucket key hkey (hbucket key hkey hholds)

theorem Unlinked.aside {s s' : World σ} (h : Unlinked view ino p name path s) (hinv : CacheInv s') (ha : Aside view s s') :
    Unlinked view ino p name path s' :=
  h.later hinv ha.cache.grow (ha.cache.getChild.trans h.child) fun _ _ hk => ha.view ▸ hk

section
variable (view ino p name path)

/-- From a state where the name is unlinked and `P` holds, every end is one where it is unlinked, and what is returned
    has `Q`. -/
abbrev LeavesUnlinked (P : World σ → Prop) (q : MetaM σ α) (Q : α → World σ → Prop) : Prop :=
  Behaves (fun s => Unlinked view ino p name path s ∧ P s) q.run (fun a s => Unlinked view ino p name path s ∧ Q a s) fun _ s =>
    Unlinked view ino p name path s

end

variable {P : World σ → Prop} {Q : α → World σ → Prop} {L : LocalMemMeta → Prop} {q : MetaM σ α}

theorem leaves_pre {P' : World σ → Prop} (h : LeavesUnlinked view ino p name path P' q Q) (hP : ∀ s, P s → P' s) :
    LeavesUnlinked view ino p name path P q Q := Behaves.pre h fun s hs => ⟨hs.1, hP s hs.2⟩

theorem leaves_fact {φ : Prop} (h : φ → LeavesUnlinked view ino p name path P q Q) :
    LeavesUnlinked view ino p name path (fun s => φ ∧ P s) q Q := fun s hs => h hs.2.1 s ⟨hs.1, hs.2.2⟩

/-- What lasts as the cache grows still holds after any request. -/
theorem leaves_frame (ht : Tame q) (hL : ∀ m m', m.Inv → Grow m m' → L m → L m') (h : LeavesUnlinked view ino p name path P q Q) :
    LeavesUnlinked view ino p name path (fun s => P s ∧ L s.cache) q fun a s => Q a s ∧ L s.cache := by
  rintro s ⟨hs, hP, hl⟩
  obtain ⟨-, hgrow⟩ := ht.run (s := s) hs.inv
  have hq := h s ⟨hs, hP⟩
  cases hr : q.run s with
  | ok a s' =>
    rw [hr] at hq hgrow
    exact ⟨hq.1, hq.2, hL _ _ hs.inv hgrow hl⟩
  | error e s' =>
    rw [hr] at hq
    exact hq

/-! ### The steps -/

theorem leaves_quiet (hq : Quiet view q) : LeavesUnlinked view ino p name path (fun _ => True) q fun _ _ => True := by
  rintro s ⟨hs, -⟩
  obtain ⟨hinv, haside⟩ := Prog.Preserves.run hq (s := s) hs.inv
  cases hr : q.run s with
  | ok a s' =>
    rw [hr] at hinv haside
    exact ⟨hs.aside hinv haside, trivial⟩
  | error e s' =>
    rw [hr] at hinv haside
    exact hs.aside hinv haside

theorem leaves_pathWithSlash {a : Addr} : LeavesUnlinked view ino p name path (a < ·.cache.heapNext) (pathWithSlash a) fun pre _ =>
    a = p → pre ++ name = path := by
  rintro s ⟨hs, ha⟩
  rw [run_pathWithSlash hs.inv ha]
  refine ⟨hs, fun hp => ?_⟩
  rw [hp]
  exact hs.key

section
variable (hc : c.Confined view)
include hc

/-- A `HEAD` finds only keys that the bucket holds. -/
theorem leaves_headFile {key : Str} {resp : HeadFileResp} : LeavesUnlinked view ino p name path (fun _ => True)
    (headFile (s3Stor c) key resp) fun resp _ => resp.exist = true → ¬ AtOrBelow path key := by
  rintro s ⟨hs, -⟩
  have hhead : Quiet view (headFile (s3Stor c) key resp) := quiet_headFile (reads_confined hc)
  have hquiet := leaves_quiet hhead s ⟨hs, trivial⟩
  rw [headFile, call, Prog.run_lift, zoom] at hquiet ⊢
  simp only [s3Stor] at hquiet ⊢
  cases hr : c.headObject key s.stor with
  | ok r t =>
    rw [hr] at hquiet
    exact ⟨hquiet.1, fun _ hkey => hs.bucket key hkey (hc.head _ _ _ _ hr)⟩
  | error e t =>
    rw [hr] at hquiet
    cases e with
    | notFound msg => exact ⟨hquiet.1, fun h => by cases h⟩
    | other msg => exact hquiet

theorem leaves_getRemoteObj {a : Addr} {n : Str} : LeavesUnlinked view ino p name path (a < ·.cache.heapNext)
    (getRemoteObj (s3Stor c) a n) fun r _ => r.2.1 = true → a = p → n ≠ name := by
  have hresp : LeavesUnlinked view ino p name path (fun _ => True) headResp fun _ _ => True := leaves_quiet (quiet_look rfl)
  refine Prog.behaves_bind leaves_pathWithSlash fun pre => ?_
  refine leaves_pre (leaves_fact (P := fun _ => True) fun hpre => ?_) fun s hs => ⟨hs, trivial⟩
  have hbelow : ∀ n, a = p → n = name → AtOrBelow path (pre ++ n) ∧ AtOrBelow path (pre ++ n ++ slash) := by
    rintro n hp rfl
    exact ⟨.inl (hpre hp), .inr ⟨[], by rw [hpre hp, List.append_nil]⟩⟩
  refine Prog.behaves_bind hresp fun resp => Prog.behaves_bind (leaves_headFile hc) fun resp => ?_
  refine leaves_pre (leaves_fact (P := fun _ => True) fun hhead => ?_) fun s hs => ⟨hs, trivial⟩
  split
  · rename_i hexist
    exact .pure fun s hs => ⟨hs.1, fun _ hp hn => hhead hexist (hbelow n hp hn).1⟩
  · refine Prog.behaves_bind (leaves_headFile hc) fun resp => .pure fun s hs => ⟨hs.1, fun hexist hp hn => ?_⟩
    exact hs.2 hexist (hbelow n hp hn).2

/-- A listing of one key below a path. -/
theorem leaves_isRemoteDirExist {dir : Str} : LeavesUnlinked view ino p name path (fun _ => True)
    (isRemoteDirExist (s3Stor c) (dir ++ slash)) fun r _ => r = true → dir ≠ path := by
  have hlist : LeavesUnlinked view ino p name path (fun _ => True) (call (.list (dir ++ slash) [])
      ((s3Stor c).listObjects { delimiter := [], pre := dir ++ slash, max := 1, marker := [] })) fun resp _ =>
        resp.objs ≠ [] → dir ≠ path := by
    rintro s ⟨hs, -⟩
    have hquiet : Quiet view (call (.list (dir ++ slash) [])
      ((s3Stor c).listObjects { delimiter := [], pre := dir ++ slash, max := 1, marker := [] })) :=
      quiet_call rfl fun t => (reads_confined hc).list _ t
    have hleaves := leaves_quiet hquiet s ⟨hs, trivial⟩
    rw [call, Prog.run_lift, zoom] at hleaves ⊢
    simp only [s3Stor] at hleaves ⊢
    cases hr : c.listObjects { delimiter := slash, marker := [], maxKeys := 1, pre := dir ++ slash } s.stor with
    | error e t =>
      have ho : orServerError (c.listObjects { delimiter := slash, marker := [], maxKeys := 1, pre := dir ++ slash }) s.stor =
          .error (.serverError e.message) t := by rw [orServerError, hr]
      rw [bind_error ho] at hleaves ⊢
      exact hleaves
    | ok r t =>
      have ho : orServerError (c.listObjects { delimiter := slash, marker := [], maxKeys := 1, pre := dir ++ slash }) s.stor =
          .ok r t := by rw [orServerError, hr]
      rw [bind_ok ho] at hleaves ⊢
      refine ⟨hleaves.1, fun hne hdir => ?_⟩
      have hne' : r.contents ≠ [] := fun h => hne (by rw [h]; rfl)
      obtain ⟨o, ho⟩ := List.exists_mem_of_ne_nil _ hne'
      obtain ⟨n, body, hk, -, hbody, -⟩ := (hc.list _ _ _ _ rfl hr).keys o ho
      refine hs.bucket o.key (.inr ⟨n, hdir ▸ hk⟩) ?_
      rw [Bucket.Holds, hbody]
      rfl
  refine Prog.behaves_bind hlist fun resp => .pure fun s hs => ⟨hs.1, fun hr => hs.2 fun h => ?_⟩
  rw [h] at hr
  cases hr

end

/-! ### Changes of the children -/

theorem getChild_link {m : LocalMemMeta} {a b : Addr} {n k : Str} {inode : Inode} (hb : b < m.heapNext) (h : a = b → n ≠ k) :
    ((m.link a n inode).heap b).getChild k = (m.heap b).getChild k := by
  by_cases hab : a = b
  · rw [hab, heap_link_parent hb]
    exact AList.lookup_insert_ne (Ne.symm (h hab))
  · rw [heap_link_other hb (Ne.symm hab)]

/-- A dentry made for another entry. -/
theorem leaves_insert {a : Addr} {pino : InodeID} {n : Str} {f : Timespec → LocalM Addr} (hf : MakesChild pino n f)
    (hne : a = p → n ≠ name) : LeavesUnlinked view ino p name path (fun s => s.cache.lookup pino = some a) (cache (.insert pino n) f)
      fun _ _ => True := by
  rintro s ⟨hs, ha⟩
  obtain ⟨inode, hino, hrun⟩ := hf.run hs.inv ha s.now
  have halloc : a < s.cache.heapNext := (hs.inv.indexed _ _ ha).1
  have hfresh : Fresh s.cache.issue inode.ino := hino ▸ hs.inv.fresh
  rw [cache, Prog.run_lift, onCache, zoom, hrun]
  refine ⟨hs.later (hs.inv.issue.link halloc hfresh) (Grow.issue.trans (.link hs.inv.issue halloc hfresh)) ?_ fun _ _ h => h,
    trivial⟩
  exact (getChild_link (m := s.cache.issue) hs.alloc hne).trans hs.child

theorem leaves_erase {pino : InodeID} {n : Str} : LeavesUnlinked view ino p name path (fun _ => True)
    (cache (.erase pino n) fun _ => LocalMemMeta.removeDentry pino n) fun _ _ => True := by
  rintro s ⟨hs, -⟩
  rw [cache, Prog.run_lift, onCache, zoom]
  cases ha : s.cache.lookup pino with
  | some a =>
    rw [LocalMemMeta.run_removeDentry ha]
    refine ⟨hs.later (hs.inv.set Mild.erase) (.set Mild.erase) ?_ fun _ _ h => h, trivial⟩
    rw [heap_set]
    split
    · rename_i hp
      rw [← hp]
      by_cases hn : name = n
      · rw [hn]
        exact AList.lookup_erase ..
      · exact (AList.lookup_erase_ne hn).trans hs.child
    · exact hs.child
  | none =>
    rw [run_removeDentry_none ha]
    exact hs

theorem leaves_sweep {a : Addr} : LeavesUnlinked view ino p name path (a < ·.cache.heapNext)
    (cache (.sweep a) fun now => LocalMemMeta.clearUnsyncDentry now a) fun _ _ => True := by
  rintro s ⟨hs, ha⟩
  obtain ⟨m', hrun, hswept⟩ := run_clearUnsyncDentry s.now hs.inv ha
  rw [cache, Prog.run_lift, onCache, zoom, hrun]
  refine ⟨hs.later hswept.inv hswept.grow ?_ fun _ _ h => h, trivial⟩
  by_cases hv : s.cache.Visited a p
  · refine Option.eq_none_iff_forall_ne_some.mpr fun ch hch => ?_
    have hchild := ((hswept.child p hv name ch).mp hch).1
    rw [hs.child] at hchild
    cases hchild
  · exact (congrArg (AList.lookup name) (hswept.children p hv)).trans hs.child

/-- The nodes of a page are merged into a directory: into that of the name only under other names. -/
theorem leaves_build {a : Addr} {dirIno : InodeID} {nodes : List FTreeNode} (hflat : ∀ node ∈ nodes, node.children = [])
    (hne : a = p → ∀ node ∈ nodes, node.name ≠ name) : LeavesUnlinked view ino p name path (fun s => s.cache.lookup dirIno = some a)
      (cache (.build dirIno (nodes.map FTreeNode.name)) fun now => LocalMemMeta.buildDentries now dirIno nodes) fun _ _ => True := by
  rintro s ⟨hs, ha⟩
  obtain ⟨m', hrun, hb⟩ := run_buildDentries s.now hs.inv ha hflat
  rw [cache, Prog.run_lift, onCache, zoom, hrun]
  refine ⟨hs.later hb.inv hb.grow ?_ fun _ _ h => h, trivial⟩
  by_cases hap : a = p
  · refine Option.eq_none_iff_forall_ne_some.mpr fun ch hch => ?_
    rw [hap] at hb
    rcases hb.origin name ch hch with hold | ⟨-, node, hnode, hname⟩
    · rw [hs.child] at hold
      cases hold
    · exact hne hap node hnode hname
  · exact (congrArg (AList.lookup name) (hb.others p hs.alloc (Ne.symm hap))).trans hs.child

/-! ### The requests -/

theorem leaves_make {a : Addr} {pino : InodeID} {n : Str} {f : Timespec → LocalM Addr} (hf : MakesChild pino n f)
    (hne : a = p → n ≠ name) (g : Addr → α) : LeavesUnlinked view ino p name path (fun s => s.cache.lookup pino = some a) (do
      let d ← cache (.insert pino n) f
      incTtl opt d
      pure (g d) : MetaM σ _) fun _ _ => True :=
  Prog.behaves_bind (leaves_insert hf hne) fun _ => Prog.behaves_bind (leaves_quiet quiet_incTtl) fun _ => .pure fun _ hs => hs

/-- The directory `pino` is at `a`. -/
abbrev DirAt (pino : InodeID) (a : Addr) (m : LocalMemMeta) : Prop := m.lookup pino = some a ∧ a < m.heapNext

theorem dirAt_grow {pino : InodeID} {a : Addr} (m m' : LocalMemMeta) (_ : m.Inv) (hg : Grow m m') (h : DirAt pino a m) :
    DirAt pino a m' := ⟨hg.index _ _ h.1, Nat.lt_of_lt_of_le h.2 hg.next⟩

/-- And `pre` is what its children's paths begin with. -/
abbrev PrefixAt (pino : InodeID) (a : Addr) (pre : Str) (m : LocalMemMeta) : Prop := DirAt pino a m ∧ m.dirPrefix a = pre

theorem prefixAt_grow {pino : InodeID} {a : Addr} {pre : Str} (m m' : LocalMemMeta) (hm : m.Inv) (hg : Grow m m')
    (h : PrefixAt pino a pre m) : PrefixAt pino a pre m' :=
  ⟨dirAt_grow m m' hm hg h.1, (dirPrefix_grow hm hg h.1.2).trans h.2⟩

theorem leaves_getDir {a : Addr} {pino : InodeID} : LeavesUnlinked view ino p name path (fun s => DirAt pino a s.cache) (getDentry pino)
    fun r s => r = some a ∧ DirAt pino a s.cache := fun _ hs => ⟨hs.1, hs.2.1, hs.2⟩

section
variable (hc : c.Confined view) {pino : InodeID} {a : Addr} {n : Str}
include hc

/-- What is looked up at the store in the directory of the name has another name. -/
theorem leaves_findRemote : LeavesUnlinked view ino p name path (fun s => DirAt pino a s.cache) (findRemote opt (s3Stor c) pino n)
    fun r _ => ∀ d, r = some d → a = p → n ≠ name := by
  refine Prog.behaves_bind leaves_getDir fun r => leaves_fact fun hr => ?_
  rw [hr]
  have hobj : LeavesUnlinked view ino p name path (fun s => DirAt pino a s.cache) (getRemoteObj (s3Stor c) a n) fun r s =>
      (r.2.1 = true → a = p → n ≠ name) ∧ DirAt pino a s.cache :=
    leaves_pre (leaves_frame tame_getRemoteObj dirAt_grow (leaves_getRemoteObj hc)) fun s hs => ⟨hs.2, hs⟩
  refine Prog.behaves_bind hobj ?_
  rintro ⟨obj, exist, isDir⟩
  refine leaves_fact fun hexist => ?_
  have hmake : ∀ {f : Timespec → LocalM Addr} (g : Addr → Option Addr), MakesChild pino n f → (a = p → n ≠ name) →
      LeavesUnlinked view ino p name path (fun s => DirAt pino a s.cache) (do
        let d ← cache (.insert pino n) f
        incTtl opt d
        pure (g d)) fun r _ => ∀ d, r = some d → a = p → n ≠ name := fun g hf hne =>
    Behaves.post (leaves_pre (leaves_make hf hne g) fun _ hs => hs.1) (fun _ _ hs => ⟨hs.1, fun _ _ => hne⟩) fun _ _ h => h
  cases exist with
  | true => exact hmake some makes_fromObj (hexist rfl)
  | false =>
    have hpath : LeavesUnlinked view ino p name path (fun s => DirAt pino a s.cache) (pathWithSlash a) fun pre s =>
        (a = p → pre ++ name = path) ∧ DirAt pino a s.cache :=
      leaves_pre (leaves_frame tame_pathWithSlash dirAt_grow leaves_pathWithSlash) fun s hs => ⟨hs.2, hs⟩
    refine Prog.behaves_bind hpath fun pre => leaves_fact fun hpre => ?_
    have htame : Tame (isRemoteDirExist (s3Stor c) (pre ++ n ++ slash)) := tame_call.bind fun _ => tame_pure
    have hlist : LeavesUnlinked view ino p name path (fun s => DirAt pino a s.cache) (isRemoteDirExist (s3Stor c) (pre ++ n ++ slash))
        fun r s => (r = true → pre ++ n ≠ path) ∧ DirAt pino a s.cache :=
      leaves_pre (leaves_frame htame dirAt_grow (leaves_isRemoteDirExist hc)) fun s hs => ⟨trivial, hs⟩
    refine Prog.behaves_bind hlist fun exist => leaves_fact fun hbelow => ?_
    cases exist with
    | false => exact .pure fun s hs => ⟨hs.1, fun d hd => by cases hd⟩
    | true =>
      have hne : a = p → n ≠ name := by
        rintro hp rfl
        exact hbelow rfl (hpre hp)
      have hread : LeavesUnlinked view ino p name path (fun s => DirAt pino a s.cache) (readDentry a) fun d s =>
          d.inode.ino = pino ∧ DirAt pino a s.cache :=
        fun s hs => ⟨hs.1, (hs.1.inv.indexed _ _ hs.2.1).2, hs.2⟩
      have hvirtual : LeavesUnlinked view ino p name path (fun s => DirAt pino a s.cache) (addVirtualDir opt a n) fun _ _ => True := by
        refine Prog.behaves_bind hread fun d => leaves_fact fun hd => ?_
        rw [hd]
        exact leaves_pre (leaves_make makes_new hne id) fun _ hs => hs.1
      exact Prog.behaves_map (Behaves.post hvirtual (fun _ _ hs => ⟨hs.1, fun _ _ => hne⟩) fun _ _ h => h)

theorem leaves_revalidate {b : Addr} : LeavesUnlinked view ino p name path (fun _ => True) (revalidate opt (s3Stor c) b) fun _ _ => True :=
  leaves_quiet (quiet_revalidate (reads_confined hc))

theorem leaves_findDentry : LeavesUnlinked view ino p name path (fun s => DirAt pino a s.cache) (findDentry opt (s3Stor c) pino n false)
    fun r _ => ∀ d, r = some d → a = p → n ≠ name := by
  have hfind : LeavesUnlinked view ino p name path (fun s => DirAt pino a s.cache)
      (cache (.find pino n) fun _ => LocalMemMeta.findDentry pino n) fun r s =>
        (∀ d, r = some d → a = p → n ≠ name) ∧ DirAt pino a s.cache := by
    rintro s ⟨hs, ha⟩
    rw [cache, Prog.run_lift, onCache, zoom, LocalMemMeta.run_findDentry ha.1]
    refine ⟨hs, fun d hd hp hn => ?_, ha⟩
    rw [hp, hn, hs.child] at hd
    cases hd
  refine Prog.behaves_bind hfind fun r => leaves_fact fun hr => ?_
  cases r with
  | none => exact leaves_findRemote hc
  | some d =>
    have hfound : ∀ r : Option Addr, ∀ d, r = some d → a = p → n ≠ name := fun _ _ _ => hr d rfl
    have hexpired : LeavesUnlinked view ino p name path (fun s => DirAt pino a s.cache) (isExpired d) fun _ _ => True :=
      leaves_pre (leaves_quiet (quiet_look rfl)) fun _ _ => trivial
    refine Prog.behaves_bind hexpired fun _ => Prog.behaves_ite ?_ (.pure fun s hs => ⟨hs.1, hfound _⟩)
    exact Behaves.post (leaves_revalidate hc) (fun r s hs => ⟨hs.1, hfound r⟩) fun _ _ h => h

omit hc in
/-- A directory that is not known has no entries. -/
theorem run_findDentry_unknown {st : Stor σ} {s : World σ} (h : s.cache.lookup pino = none) :
    (findDentry opt st pino n false).run s = .error (.invalidInodeID pino) s := by
  have hfind : (cache (.find pino n) fun _ => LocalMemMeta.findDentry pino n : MetaM σ _).run s =
      .error (.invalidInodeID pino) s := by
    rw [cache, Prog.run_lift, onCache, zoom, run_findDentry_none h]
  rw [findDentry, Prog.run_bind_error hfind]

omit hc in
/-- A request that begins with a lookup, in any directory. -/
theorem leaves_known {f : Option Addr → MetaM σ α} (h : ∀ a, LeavesUnlinked view ino p name path (fun s => DirAt pino a s.cache ∧ P s)
    (findDentry opt (s3Stor c) pino n false >>= f) Q) :
    LeavesUnlinked view ino p name path P (findDentry opt (s3Stor c) pino n false >>= f) Q := by
  rintro s ⟨hs, hP⟩
  cases ha : s.cache.lookup pino with
  | some a => exact h a s ⟨hs, ⟨ha, (hs.inv.indexed _ _ ha).1⟩, hP⟩
  | none =>
    rw [Prog.run_bind_error (run_findDentry_unknown ha)]
    exact hs

theorem leaves_removeDentry : LeavesUnlinked view ino p name path (fun _ => True) (removeDentry opt (s3Stor c) pino n) fun _ _ => True := by
  refine leaves_known fun a => ?_
  refine Prog.behaves_bind (leaves_pre (leaves_findDentry hc) fun _ hs => hs.1) fun r => ?_
  cases r with
  | none => exact .pure fun s hs => ⟨hs.1, trivial⟩
  | some d =>
    have hdelete : ∀ key, LeavesUnlinked view ino p name path (fun _ => True) (call (.delete key) ((s3Stor c).deleteFile { objKey := key }))
        fun _ _ => True := by
      rintro key s ⟨hs, -⟩
      have hview := fun k => hc.delete s.stor key k
      have hend : endState ((s3Stor c).deleteFile { objKey := key } s.stor) = endState (c.deleteObject key s.stor) :=
        endState_orServerError _ _
      rw [← hend] at hview
      rw [call, Prog.run_lift, zoom]
      cases hr : (s3Stor c).deleteFile { objKey := key } s.stor with
      | ok u t =>
        rw [hr] at hview
        exact ⟨hs.later hs.inv (.refl _) hs.child fun k _ => hview k, trivial⟩
      | error e t =>
        rw [hr] at hview
        exact hs.later hs.inv (.refl _) hs.child fun k _ => hview k
    have hread : ∀ {β : Type} {q : MetaM σ β}, Quiet view q → LeavesUnlinked view ino p name path (fun _ => True) q fun _ _ => True :=
      fun hq => leaves_quiet hq
    refine Behaves.pre (?_ : LeavesUnlinked view ino p name path (fun _ => True) _ _) fun s hs => ⟨hs.1, trivial⟩
    exact Prog.behaves_bind (hread quiet_fullPath) fun _ => Prog.behaves_bind (hread quiet_readDentry) fun _ =>
      Prog.behaves_ite (Prog.behaves_ite (.throw fun _ hs => hs.1) (Prog.behaves_bind (hdelete _) fun _ => leaves_erase))
        (Prog.behaves_bind (hdelete _) fun _ => leaves_erase)

/-- A new entry elsewhere: its object is put under a key that is not at or below the path. -/
theorem leaves_createDentry {mode : Mode} : LeavesUnlinked view ino p name path
    (fun s => ∀ a, s.cache.lookup pino = some a → ¬ AtOrBelow path (s.cache.dirPrefix a ++ (n ++ keyEnd mode)))
    (createDentry opt (s3Stor c) pino n mode) fun _ _ => True := by
  refine leaves_known fun a => ?_
  -- The directory and its prefix last as the lookup makes the cache grow.
  have hcreate : ∀ pre, ¬ AtOrBelow path (pre ++ (n ++ keyEnd mode)) → LeavesUnlinked view ino p name path
      (fun s => PrefixAt pino a pre s.cache) (createDentry opt (s3Stor c) pino n mode) fun _ _ => True := by
    intro pre hkey
    have hne : a = p → ∀ s : World σ, Unlinked view ino p name path s → s.cache.dirPrefix a = pre → n ≠ name := by
      rintro rfl s hs hpre rfl
      refine hkey ?_
      rw [← hpre, ← List.append_assoc, hs.key, keyEnd]
      split
      · exact .inr ⟨[], by rw [List.append_nil]⟩
      · exact .inl (List.append_nil _)
    have hfind : LeavesUnlinked view ino p name path (fun s => PrefixAt pino a pre s.cache)
        (findDentry opt (s3Stor c) pino n false) fun _ s => PrefixAt pino a pre s.cache :=
      Behaves.post (leaves_pre (leaves_frame tame_findDentry prefixAt_grow (leaves_findDentry hc)) fun s hs => ⟨hs.1, hs⟩)
        (fun _ _ hs => ⟨hs.1, hs.2.2⟩) fun _ _ h => h
    refine Prog.behaves_bind hfind fun r => ?_
    cases r with
    | some d => exact .pure fun s hs => ⟨hs.1, trivial⟩
    | none =>
      have hdir : LeavesUnlinked view ino p name path (fun s => PrefixAt pino a pre s.cache) (getDentry pino)
          fun r s => r = some a ∧ PrefixAt pino a pre s.cache := fun _ hs => ⟨hs.1, hs.2.1.1, hs.2⟩
      have hnew : LeavesUnlinked view ino p name path (fun s => PrefixAt pino a pre s.cache) (newKey a n mode)
          fun key s => key = pre ++ (n ++ keyEnd mode) ∧ PrefixAt pino a pre s.cache := by
        rintro s ⟨hs, ha, hpre⟩
        rw [run_newKey hs.inv ha.2]
        exact ⟨hs, by rw [hpre], ha, hpre⟩
      have hput : ∀ req : PutFileReq, req.objKey = pre ++ (n ++ keyEnd mode) → LeavesUnlinked view ino p name path
          (fun s => PrefixAt pino a pre s.cache)
          (call (.put (pre ++ (n ++ keyEnd mode))) ((s3Stor c).putFile req))
          fun _ s => PrefixAt pino a pre s.cache := by
        rintro req hreq s ⟨hs, hdirAt⟩
        have hview := hc.put s.stor req.objKey ((req.buf.getD []).take req.size)
        rw [← endState_orServerError] at hview
        have hsame : ∀ k, AtOrBelow path k → k ≠ req.objKey := fun k hk he => hkey (hreq ▸ he ▸ hk)
        rw [call, Prog.run_lift, zoom]
        simp only [s3Stor]
        cases hr : orServerError (c.putObject req.objKey ((req.buf.getD []).take req.size)) s.stor with
        | ok u t =>
          rw [hr] at hview
          refine ⟨hs.later hs.inv (.refl _) hs.child fun k hk hholds => ?_, hdirAt⟩
          rwa [Bucket.Holds, ← hview k (hsame k hk)]
        | error e t =>
          rw [hr] at hview
          refine hs.later hs.inv (.refl _) hs.child fun k hk hholds => ?_
          rwa [Bucket.Holds, ← hview k (hsame k hk)]
      have hread : LeavesUnlinked view ino p name path (fun s => PrefixAt pino a pre s.cache) (readDentry a)
          fun _ s => PrefixAt pino a pre s.cache := fun _ hs => hs
      refine Prog.behaves_bind hdir fun r => leaves_fact fun hr => ?_
      rw [hr]
      refine (Prog.behaves_bind hnew fun key => leaves_fact fun hk => ?_ : Behaves _ (newKey a n mode >>= _).run _ _)
      rw [hk]
      refine Prog.behaves_bind hread fun d => Prog.behaves_bind (hput _ rfl) fun _ s hs => ?_
      exact leaves_insert makes_new (fun hp => hne hp s hs.1 hs.2.2) s ⟨hs.1, hs.2.1.1⟩
  rintro s ⟨hs, ha, hnot⟩
  exact hcreate _ (hnot a ha.1) s ⟨hs, ha, rfl⟩

/-- A page of the directory of the name does not list it. -/
theorem leaves_page {pre marker : Str} : LeavesUnlinked view ino p name path (fun s => PrefixAt pino a pre s.cache)
    (call (.list pre marker) ((s3Stor c).listObjects { delimiter := slash, pre, max := 1000, marker })) fun resp s =>
      (a = p → ∀ nodes, buildFtree pre resp = some nodes → ∀ node ∈ nodes, node.name ≠ name) ∧ PrefixAt pino a pre s.cache := by
  rintro s ⟨hs, ha⟩
  have hlist : Quiet view (call (.list pre marker) ((s3Stor c).listObjects { delimiter := slash, pre, max := 1000, marker })) :=
    quiet_call rfl fun t => (reads_confined hc).list _ t
  have hleaves := leaves_quiet hlist s ⟨hs, trivial⟩
  rw [call, Prog.run_lift, zoom] at hleaves ⊢
  cases hr : c.listObjects (pageRequest pre marker) s.stor with
  | error e t =>
    have ho : orServerError (c.listObjects (pageRequest pre marker)) s.stor = .error (.serverError e.message) t := by
      rw [orServerError, hr]
    have hlist : (s3Stor c).listObjects { delimiter := slash, pre, max := 1000, marker } s.stor =
        .error (.serverError e.message) t := bind_error ho
    rw [hlist] at hleaves ⊢
    exact hleaves
  | ok r t =>
    have hpart := hc.list _ _ _ _ rfl hr
    rw [run_listObjects hr] at hleaves ⊢
    refine ⟨hleaves.1, fun hp nodes hnodes node hnode hname => ?_, ha⟩
    have hpath : pre ++ node.name = path := by
      rw [hname, ← ha.2, hp]
      exact hs.key
    have hunder : Under pre r := by
      refine ⟨fun o ho => ?_, fun d hd => ?_⟩
      · obtain ⟨k, _, hk, hslash, -⟩ := hpart.keys o ho
        exact ⟨k, hk, hslash⟩
      · obtain ⟨k, hk, hslash, -⟩ := hpart.prefixes d hd
        exact ⟨k, hk, hslash⟩
    obtain ⟨nodes', hnodes', hfor⟩ := nodesFor_page hunder _
    obtain rfl : nodes' = nodes := Option.some.inj (hnodes'.symm.trans hnodes)
    rcases hfor.listed node hnode with ⟨-, -, hd⟩ | ⟨-, o, ho, hk, -⟩
    · obtain ⟨k, hk, -, rest, hholds⟩ := hpart.prefixes _ hd
      exact hs.bucket _ (.inr ⟨rest, by rw [hpath]⟩) hholds
    · obtain ⟨k, body, -, -, hbody, -⟩ := hpart.keys o ho
      refine hs.bucket o.key (.inl (hk.trans hpath)) ?_
      rw [Bucket.Holds, hbody]
      rfl

theorem leaves_refreshLoop {pre : Str} (fuel : Nat) (marker : Str) : LeavesUnlinked view ino p name path
    (fun s => PrefixAt pino a pre s.cache) (refreshLoop (s3Stor c) pino pre fuel marker) fun _ s => PrefixAt pino a pre s.cache := by
  induction fuel generalizing marker with
  | zero => exact .throw fun _ hs => hs.1
  | succ fuel ih =>
    refine Prog.behaves_bind (leaves_page hc) fun resp => leaves_fact fun hpage => ?_
    cases hft : buildFtree pre resp with
    | none => exact .throw fun _ hs => hs.1
    | some nodes =>
      have hbuild : LeavesUnlinked view ino p name path (fun s => PrefixAt pino a pre s.cache)
          (cache (.build pino (nodes.map FTreeNode.name)) fun now => LocalMemMeta.buildDentries now pino nodes) fun _ s =>
            PrefixAt pino a pre s.cache :=
        Behaves.post (leaves_pre (leaves_frame (tame_cache fun _ => kept_buildDentries) prefixAt_grow
          (leaves_build (flat_buildFtree hft) fun hp => hpage hp nodes hft)) fun s hs => ⟨hs.1.1, hs⟩)
          (fun _ _ hs => ⟨hs.1, hs.2.2⟩) fun _ _ h => h
      refine Prog.behaves_bind hbuild fun _ => Prog.behaves_ite (ih _) (.pure fun _ hs => hs)

theorem leaves_loadSubDentries {fuel : Nat} : LeavesUnlinked view ino p name path (fun _ => True)
    (loadSubDentries (s3Stor c) fuel pino) fun _ _ => True := by
  have hdir : LeavesUnlinked view ino p name path (fun _ => True) (getDentry pino) fun r s => ∀ a, r = some a → DirAt pino a s.cache :=
    fun _ hs => ⟨hs.1, fun _ ha => ⟨ha, (hs.1.inv.indexed _ _ ha).1⟩⟩
  refine Prog.behaves_bind hdir fun r => ?_
  cases r with
  | none => exact .throw fun _ hs => hs.1
  | some a =>
    have hlist : ∀ P, LeavesUnlinked view ino p name path P (listChildren a) fun _ _ => True :=
      fun P => leaves_pre (leaves_quiet quiet_listChildren) fun _ _ => trivial
    have hneeds : LeavesUnlinked view ino p name path (fun s => ∀ b, some a = some b → DirAt pino b s.cache) (needsRefresh a) fun _ s =>
        DirAt pino a s.cache := fun _ hs => ⟨hs.1, hs.2 a rfl⟩
    have hrefresh : LeavesUnlinked view ino p name path (fun s => DirAt pino a s.cache) (refreshSubDentries (s3Stor c) fuel a)
        fun _ _ => True := by
      have hpath : LeavesUnlinked view ino p name path (fun s => DirAt pino a s.cache) (pathWithSlash a) fun pre s =>
          PrefixAt pino a pre s.cache := by
        rintro s ⟨hs, ha⟩
        rw [run_pathWithSlash hs.inv ha.2]
        exact ⟨hs, ha, rfl⟩
      refine Prog.behaves_bind hpath fun pre => ?_
      have hread : LeavesUnlinked view ino p name path (fun s => PrefixAt pino a pre s.cache) (readDentry a) fun d s =>
          d.inode.ino = pino ∧ PrefixAt pino a pre s.cache := fun _ hs => ⟨hs.1, (hs.1.inv.indexed _ _ hs.2.1.1).2, hs.2⟩
      refine Prog.behaves_bind hread fun d => leaves_fact fun hd => ?_
      rw [hd]
      exact Prog.behaves_bind (leaves_refreshLoop hc fuel []) fun _ => leaves_pre leaves_sweep fun s hs => hs.1.2
    exact Prog.behaves_bind hneeds fun _ => Prog.behaves_ite (Prog.behaves_bind hrefresh fun _ => hlist _) (hlist _)

/-- The request puts an object at or below the path. -/
def Request.Creates (path : Str) (m : LocalMemMeta) : Request → Prop
  | .create pino n mode => ∃ a, m.lookup pino = some a ∧ AtOrBelow path (m.dirPrefix a ++ (n ++ keyEnd mode))
  | _ => False

/-- A request that puts nothing there leaves the name unlinked. -/
theorem leaves_request {fuel : Nat} (r : Request) : LeavesUnlinked view ino p name path (fun s => ¬ r.Creates path s.cache)
    (r.prog opt (s3Stor c) fuel) fun _ _ => True := by
  have hfind : ∀ pino n, LeavesUnlinked view ino p name path (fun _ => True) ((fun _ => ()) <$> findDentry opt (s3Stor c) pino n false)
      fun _ _ => True := fun pino n => leaves_known fun a =>
    Prog.behaves_bind (leaves_pre (leaves_findDentry hc) fun _ hs => hs.1) fun _ => .pure fun _ hs => ⟨hs.1, trivial⟩
  cases r with
  | find pino n => exact leaves_pre (hfind pino n) fun _ _ => trivial
  | create pino n mode =>
    have hcreate : LeavesUnlinked view ino p name path (fun s => ¬ (Request.create pino n mode).Creates path s.cache)
        (createDentry opt (s3Stor c) pino n mode) fun _ _ => True :=
      leaves_pre (leaves_createDentry hc) fun s hs a ha hkey => hs ⟨a, ha, hkey⟩
    exact Prog.behaves_map hcreate
  | remove pino n => exact leaves_pre (leaves_removeDentry hc) fun _ _ => trivial
  | load pino =>
    exact Prog.behaves_map (leaves_pre (leaves_loadSubDentries hc) fun _ _ => trivial)
  | updateSize pino size => exact leaves_pre (leaves_quiet quiet_updateInode) fun _ _ => trivial

end

end MetaImpl

end Catfs
