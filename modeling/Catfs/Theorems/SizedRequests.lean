import Catfs.Theorems.FileSizes
import Catfs.Theorems.HandlesInv
import Catfs.Theorems.TreeNames
import Catfs.Theorems.Unlinked

/-! # Requests on names keep the sizes of files

Unless a handle is writing it, a file in the tree has the size of its object; and a dentry whose size was set last by a
write has the size up to which the handle has written. The requests that look names up, create them and list directories
keep that. -/

namespace Catfs

open Lib MetaM LocalMemMeta
open EStateM (Result)

/-- The service of the client is a log of the calls made, which only the requests that change it extend, and it refuses
    none of them. -/
structure S3Client.OverLog (c : S3Client Log) (P : Policy) : Prop where
  serves : c.Serves Log.bucket
  head : ∀ log key, endState (c.headObject key log) = log
  list : ∀ log req, endState (c.listObjects req log) = log
  get : ∀ log key body last, log.bucket key = some body → last < body.length →
    c.getObject key 0 last log = .ok (body.take (last + 1)) log
  upload : (s3Stor c).toUploadStor = P.stor
  accepts : ∀ n, P.fails n = false

/-- There is an object under `path`. It has that length, unless a handle is `writing` it; and the size of the dentry is the
    one that is `held` there, if any. -/
structure Backed (b : Bucket) (held : Addr → Nat → Prop) (writing : Str → Prop) (path : Str) (a : Addr) (size : Nat) : Prop where
  object : b.Holds path
  held : ∀ n, held a n → size = n
  length : ¬ writing path → ∀ body, b path = some body → size = body.length

theorem Backed.free {b : Bucket} {held : Addr → Nat → Prop} {writing : Str → Prop} {path : Str} {a : Addr} {body : List Byte}
    (hb : b path = some body) (hfree : ∀ n, ¬ held a n) : Backed b held writing path a body.length where
  object := by
    rw [Bucket.Holds, hb]
    rfl
  held n h := absurd h (hfree n)
  length _ body' hb' := congrArg List.length (Option.some.inj (hb.symm.trans hb'))

/-- The page shows the object of each name that it shows as a directory, if there is one. -/
def ListObjectsResp.ShowsBoth (b : Bucket) (pre : Str) (resp : ListObjectsResp) : Prop :=
  ∀ n, pre ++ n ++ slash ∈ resp.commonPrefixes → b.Holds (pre ++ n) → ∃ obj ∈ resp.objs, obj.name = pre ++ n

namespace MetaImpl
variable {α : Type} {c : S3Client Log} {policy : Policy} {opt : MetaOpt} {held : Addr → Nat → Prop}
  {writing : Str → Prop} {log : Log} {pino ino : InodeID} {a : Addr} {n pre key : Str} {P : World Log → Prop}
  {Q : α → World Log → Prop} {q : MetaM Log α}

/-! ### Steps that change nothing -/

/-- The program leaves the cache and the log as they are. -/
abbrev Reading (q : MetaM Log α) : Prop := q.Preserves (fun _ => True) (fun _ => True) Eq

theorem reading_cache {l : MetaAct} {f : Timespec → LocalM α} (hf : ∀ now, ReadOnly (f now)) : Reading (cache l f) := by
  refine Prog.preserves_lift trivial fun s _ _ => ?_
  have hread := hf s.now s.cache
  simp only [onCache, zoom]
  cases hr : f s.now s.cache <;> rw [hr] at hread
  · exact ⟨trivial, congrArg (fun m => { s with cache := m }) hread.symm, trivial⟩
  · exact ⟨trivial, congrArg (fun m => { s with cache := m }) hread.symm⟩

theorem reading_call {l : MetaAct} {f : EStateM Err Log α} (hf : ∀ t, endState (f t) = t) : Reading (call l f) := by
  refine Prog.preserves_lift trivial fun s _ _ => ?_
  have hread := hf s.stor
  simp only [zoom]
  cases hr : f s.stor <;> rw [hr] at hread
  · exact ⟨trivial, congrArg (fun t => { s with stor := t }) hread.symm, trivial⟩
  · exact ⟨trivial, congrArg (fun t => { s with stor := t }) hread.symm⟩

theorem reading_pathWithSlash : Reading (pathWithSlash a) := reading_cache fun _ => readOnly_getFullPathWithSlash

section
variable (hc : c.OverLog policy)
include hc

theorem reading_headFile {resp : HeadFileResp} : Reading (headFile (s3Stor c) key resp) := by
  refine reading_call fun t => ?_
  have hkeep := hc.head t key
  simp only [s3Stor]
  cases hr : c.headObject key t with
  | ok r t' =>
    rw [hr] at hkeep
    exact hkeep
  | error e t' =>
    rw [hr] at hkeep
    cases e <;> exact hkeep

theorem reading_list {l : MetaAct} {req : ListObjectsReq} : Reading (call l ((s3Stor c).listObjects req)) :=
  reading_call fun t => (endState_bind_pure _ _ t).trans ((endState_orServerError _ t).trans (hc.list t _))

end

/-! ### The invariant -/

/-- The log is `log`, and every file of the tree is backed. -/
structure Sized (held : Addr → Nat → Prop) (writing : Str → Prop) (log : Log) (s : World Log) : Prop where
  inv : CacheInv s
  stor : s.stor = log
  known : ∀ a n, held a n → a < s.cache.heapNext
  files : FilesHold (Backed log.bucket held writing) s.cache

section
variable (held writing log)

/-- From a state with `P` the log and the sizes are kept, and what is returned has `Q`. -/
abbrev Sizes (P : World Log → Prop) (q : MetaM Log α) (Q : α → World Log → Prop) : Prop :=
  Behaves (fun s => Sized held writing log s ∧ P s) q.run (fun a s => Sized held writing log s ∧ Q a s) fun _ =>
    Sized held writing log

end

theorem sizes_pre {P' : World Log → Prop} (h : Sizes held writing log P' q Q) (hP : ∀ s, P s → P' s) :
    Sizes held writing log P q Q :=
  Behaves.pre h fun s hs => ⟨hs.1, hP s hs.2⟩

theorem sizes_fact {φ : Prop} (h : φ → Sizes held writing log P q Q) : Sizes held writing log (fun s => φ ∧ P s) q Q :=
  fun s hs => h hs.2.1 s ⟨hs.1, hs.2.2⟩

/-- What holds before a step that changes nothing holds after it. -/
theorem sizes_reading (hq : Reading q) : Sizes held writing log P q fun _ => P := by
  intro s hs
  have hsame := (hq.run (s := s) trivial).2
  cases hr : q.run s with
  | ok r s' =>
    rw [hr] at hsame
    obtain rfl : s = s' := hsame
    exact hs
  | error e s' =>
    rw [hr] at hsame
    obtain rfl : s = s' := hsame
    exact hs.1

theorem sizes_pathWithSlash (hP : ∀ s, P s → a < s.cache.heapNext ∧ s.cache.dirPrefix a = pre) :
    Sizes held writing log P (pathWithSlash a) fun r s => r = pre ∧ P s := by
  rintro s ⟨hs, hp⟩
  rw [run_pathWithSlash hs.inv (hP s hp).1]
  exact ⟨hs, (hP s hp).2, hp⟩

/-! ### Asking for an object -/

/-- What a `HEAD` of the key answers. -/
structure HeadOf (b : Bucket) (key : Str) (resp : HeadFileResp) : Prop where
  found : resp.exist = true → ∃ body, b key = some body ∧ resp.obj.size = body.length
  absent : resp.exist = false → ¬ b.Holds key
  mode : resp.obj.mode = none

section
variable (hc : c.OverLog policy)
include hc

theorem sizes_headFile {resp : HeadFileResp} (hmode : resp.obj.mode = none) :
    Sizes held writing log P (headFile (s3Stor c) key resp) fun resp s => HeadOf log.bucket key resp ∧ P s := by
  rintro s ⟨hs, hP⟩
  have hread : Reading (headFile (s3Stor c) key resp) := reading_headFile hc
  have hsame := (hread.run (s := s) trivial).2
  have hstor := hs.stor
  rw [headFile, call, Prog.run_lift, zoom] at hsame ⊢
  simp only [s3Stor, hstor] at hsame ⊢
  cases hk : log.bucket key with
  | some body =>
    obtain ⟨r, t', hr, hlength, -⟩ := hc.serves.head log key body hk
    rw [hr] at hsame ⊢
    refine ⟨hsame ▸ hs, ⟨fun _ => ⟨body, hk, hlength⟩, fun h => ?_, rfl⟩, hsame ▸ hP⟩
    cases h
  | none =>
    obtain ⟨msg, t', hr, -⟩ := hc.serves.headNone log key hk
    rw [hr] at hsame ⊢
    refine ⟨hsame ▸ hs, ⟨fun h => ?_, fun _ hholds => ?_, hmode⟩, hsame ▸ hP⟩
    · cases h
    · rw [Bucket.Holds, hk] at hholds
      cases hholds

/-- What the two `HEAD` requests for a name under `pre` answer. -/
structure RemoteOf (b : Bucket) (pre n : Str) (r : ObjInfo × Bool × Bool) : Prop where
  found : r.2.1 = true → r.2.2 = false → ∃ body, b (pre ++ n) = some body ∧ r.1.size = body.length
  absent : r.2.1 = false → ¬ b.Holds (pre ++ n) ∧ ¬ b.Holds (pre ++ n ++ slash)
  mode : r.1.mode = none

theorem sizes_getRemoteObj (hP : ∀ s, P s → a < s.cache.heapNext ∧ s.cache.dirPrefix a = pre) :
    Sizes held writing log P (getRemoteObj (s3Stor c) a n) fun r s => RemoteOf log.bucket pre n r ∧ P s := by
  have hresp : Sizes held writing log P headResp fun resp s => resp.obj.mode = none ∧ P s := fun _ hs => ⟨hs.1, rfl, hs.2⟩
  refine Prog.behaves_bind (sizes_pathWithSlash hP) fun r => sizes_fact fun hr => ?_
  rw [hr]
  refine Prog.behaves_bind hresp fun resp => sizes_fact fun hmode => ?_
  refine Prog.behaves_bind (sizes_headFile hc hmode) fun resp => sizes_fact fun hhead => ?_
  split
  · rename_i hexist
    refine .pure fun s hs => ⟨hs.1, ⟨fun _ _ => hhead.found hexist, fun h => ?_, hhead.mode⟩, hs.2⟩
    cases h
  · rename_i hexist
    refine Prog.behaves_bind (sizes_headFile hc hhead.mode) fun resp' => .pure fun s hs => ?_
    refine ⟨hs.1, ⟨fun h h' => ?_, fun h => ⟨?_, hs.2.1.absent h⟩, hs.2.1.mode⟩, hs.2.2⟩
    · cases (show resp'.exist = true from h).symm.trans (show resp'.exist = false from h')
    · exact hhead.absent (Bool.eq_false_iff.mpr hexist)

end

/-! ### Changes of dentries -/

theorem sizes_incTtl : Sizes held writing log P (incTtl opt a) fun _ _ => True := by
  rintro s ⟨hs, -⟩
  exact ⟨⟨hs.inv.set Mild.incTtl, hs.stor, hs.known, hs.files.flags hs.inv Mild.incTtl (fun _ => rfl) fun _ => rfl⟩, trivial⟩

/-- An operation that makes the dentry `n` of the directory `pino`: when it is a file, it has the size of its object. -/
def MakesSized (b : Bucket) (pino : InodeID) (a : Addr) (pre n : Str) (f : Timespec → LocalM Addr) : Prop :=
  ∀ now (m : LocalMemMeta), m.lookup pino = some a → a < m.heapNext → ∃ inode, inode.ino = m.nextInodeId ∧
    f now m = .ok m.heapNext (m.issue.link a n inode) ∧
    ((Dentry.new n inode).isDir = false → ∃ body, b (pre ++ n) = some body ∧ inode.size = body.length)

theorem makesSized_fromObj {b : Bucket} {obj : ObjInfo} {isDir : Bool} (hmode : obj.mode = none)
    (h : isDir = false → ∃ body, b (pre ++ n) = some body ∧ obj.size = body.length) :
    MakesSized b pino a pre n fun now => createDentryFromObj now pino n obj isDir := by
  refine fun now m ha halloc => ⟨m.objInode now obj isDir, rfl, run_createDentryFromObj ha halloc, fun hfile => h ?_⟩
  rwa [objInode_isDir n hmode] at hfile

theorem makesSized_new {b : Bucket} {mode : Mode} {gid uid : Nat}
    (h : (mode &&& S_IFDIR != 0) = false → b (pre ++ n) = some []) :
    MakesSized b pino a pre n (fun now => do
      let inode ← createNewInode now mode gid uid
      LocalMemMeta.createDentry pino n inode) := by
  refine fun now m ha halloc => ⟨m.newInode now mode gid uid, rfl, ?_, fun hfile => ⟨[], h hfile, rfl⟩⟩
  simp only [bind_ok run_createNewInode]
  exact run_createDentry (m := m.issue) ha halloc

theorem sizes_insert {l : MetaAct} {f : Timespec → LocalM Addr} (hf : MakesSized log.bucket pino a pre n f) :
    Sizes held writing log (fun s => s.cache.lookup pino = some a ∧ s.cache.dirPrefix a = pre) (cache l f)
      fun _ _ => True := by
  rintro s ⟨hs, ha, hpre⟩
  have halloc : a < s.cache.heapNext := (hs.inv.indexed _ _ ha).1
  obtain ⟨inode, hino, hrun, hback⟩ := hf s.now s.cache ha halloc
  have hfresh : Fresh s.cache.issue inode.ino := hino ▸ hs.inv.fresh
  have hfiles : FilesHold (Backed log.bucket held writing) (s.cache.issue.link a n inode) := by
    refine (hs.files.issue hs.inv).link hs.inv.issue halloc hfresh fun hfile => ?_
    obtain ⟨body, hbody, hsize⟩ := hback hfile
    rw [dirPrefix_grow hs.inv .issue halloc, hpre, hsize]
    exact Backed.free hbody fun k hk => Nat.lt_irrefl _ (hs.known _ k hk)
  have hknown : ∀ b k, held b k → b < (s.cache.issue.link a n inode).heapNext := fun b k hk =>
    Nat.lt_succ_of_lt (hs.known b k hk)
  rw [cache, Prog.run_lift, onCache, zoom, hrun]
  exact ⟨⟨hs.inv.issue.link halloc hfresh, hs.stor, hknown, hfiles⟩, trivial⟩

/-! ### Lookups -/

variable {s₀ : World Log}

/-- What is known of the state that a request starts in. -/
theorem sizes_start (h : Sized held writing log s₀ → Sizes held writing log (· = s₀) q Q) :
    Sizes held writing log (· = s₀) q Q := by
  rintro s ⟨hs, rfl⟩
  exact h hs s ⟨hs, rfl⟩

theorem sizes_getDentry : Sizes held writing log (· = s₀) (getDentry pino) fun r s => r = s₀.cache.lookup pino ∧ s = s₀ := by
  rintro s ⟨hs, rfl⟩
  exact ⟨hs, rfl, rfl⟩

theorem sizes_readDentry : Sizes held writing log (· = s₀) (readDentry a) fun d s => d = s₀.cache.heap a ∧ s = s₀ := by
  rintro s ⟨hs, rfl⟩
  exact ⟨hs, rfl, rfl⟩

theorem sizes_updateInode {u : InodeUpdateAttr} (ha : s₀.cache.lookup ino = some a)
    (hdir : (InodeUpdateAttr.apply u (s₀.cache.heap a)).isDir = (s₀.cache.heap a).isDir)
    (hnew : ∀ path, FileAt s₀.cache path a →
      Backed log.bucket held writing path a (u.size.getD (s₀.cache.heap a).inode.size)) :
    Sizes held writing log (· = s₀) (updateInode ino u) fun _ _ => True := by
  rintro s ⟨hs, rfl⟩
  rw [updateInode, cache, Prog.run_lift, onCache, zoom, run_updateInode ha]
  refine ⟨⟨hs.inv.set Mild.apply, hs.stor, hs.known, ?_⟩, trivial⟩
  exact filesHold_set hs.inv Mild.apply (fun _ => rfl) hdir hnew fun path b _ hb => hs.files path b hb

/-- The directory `pino` is at `a`, and the paths of its children begin with `pre`. -/
structure InDir (pino : InodeID) (a : Addr) (pre : Str) (m : LocalMemMeta) : Prop where
  lookup : m.lookup pino = some a
  dir : (m.heap a).isDir = true
  pre : m.dirPrefix a = pre

/-- The lookup is made in a directory. -/
def InDirectory (pino : InodeID) (m : LocalMemMeta) : Prop := ∀ p, m.lookup pino = some p → (m.heap p).isDir = true

/-- What a lookup revalidates. -/
def Revalidates (pino : InodeID) (n : Str) (s : World Log) (d : Addr) : Prop :=
  ∃ p, s.cache.lookup pino = some p ∧ (s.cache.heap p).getChild n = some d ∧ (s.cache.heap d).isExpired s.now = true

theorem sizes_make {f : Timespec → LocalM Addr} (hf : MakesSized log.bucket pino a pre n f)
    (hdir : InDir pino a pre s₀.cache) (g : Addr → α) : Sizes held writing log (· = s₀) (do
      let d ← cache (.insert pino n) f
      incTtl opt d
      pure (g d) : MetaM Log α) fun r _ => ∃ d, r = g d := by
  refine Prog.behaves_bind (sizes_pre (sizes_insert hf) ?_) fun d => Prog.behaves_bind sizes_incTtl fun _ =>
    .pure fun s hs => ⟨hs.1, d, rfl⟩
  rintro s rfl
  exact ⟨hdir.lookup, hdir.pre⟩

/-- A virtual directory has the mode of its parent, so it is no file. -/
theorem sizes_addVirtualDir (hdir : InDir pino a pre s₀.cache) :
    Sizes held writing log (· = s₀) (addVirtualDir opt a n) fun _ _ => True := by
  refine sizes_start fun hs₀ => ?_
  obtain ⟨-, hino⟩ := hs₀.inv.indexed _ _ hdir.lookup
  refine Prog.behaves_bind sizes_readDentry fun d => sizes_fact fun hd => ?_
  rw [hd, hino]
  have hmakes : MakesSized log.bucket pino a pre n (fun now => do
      let inode ← createNewInode now (s₀.cache.heap a).inode.mode (s₀.cache.heap a).inode.gid (s₀.cache.heap a).inode.uid
      LocalMemMeta.createDentry pino n inode) := makesSized_new fun hfile => by cases hfile.symm.trans hdir.dir
  exact Behaves.post (sizes_make hmakes hdir id) (fun _ _ hs => ⟨hs.1, trivial⟩) fun _ _ h => h

section
variable (hc : c.OverLog policy)
include hc

theorem sizes_findRemote (hdir : InDir pino a pre s₀.cache) : Sizes held writing log (· = s₀)
    (findRemote opt (s3Stor c) pino n) fun r s => r = none →
      s = s₀ ∧ ¬ log.bucket.Holds (pre ++ n) ∧ ¬ log.bucket.Holds (pre ++ n ++ slash) := by
  refine sizes_start fun hs₀ => ?_
  have hat : ∀ s, s = s₀ → a < s.cache.heapNext ∧ s.cache.dirPrefix a = pre := by
    rintro s rfl
    exact ⟨(hs₀.inv.indexed _ _ hdir.lookup).1, hdir.pre⟩
  refine Prog.behaves_bind sizes_getDentry fun r => sizes_fact fun hr => ?_
  rw [hr, hdir.lookup]
  refine Prog.behaves_bind (sizes_getRemoteObj hc hat) ?_
  rintro ⟨obj, exist, isDir⟩
  refine sizes_fact fun hremote => ?_
  cases exist with
  | true =>
    have hmakes : MakesSized log.bucket pino a pre n fun now => createDentryFromObj now pino n obj isDir :=
      makesSized_fromObj hremote.mode (hremote.found rfl)
    refine Behaves.post (sizes_make hmakes hdir some) (fun r s hs => ⟨hs.1, fun h => ?_⟩) fun _ _ h => h
    obtain ⟨d, hd⟩ := hs.2
    cases hd.symm.trans h
  | false =>
    refine Prog.behaves_bind (sizes_reading reading_pathWithSlash) fun pre' => ?_
    have hlist : Sizes held writing log (· = s₀) (isRemoteDirExist (s3Stor c) (pre' ++ n ++ slash)) fun _ s => s = s₀ :=
      Prog.behaves_bind (sizes_reading (reading_list hc)) fun _ => .pure fun _ hs => hs
    refine Prog.behaves_bind hlist fun exist => ?_
    cases exist with
    | false => exact .pure fun s hs => ⟨hs.1, fun _ => ⟨hs.2, hremote.absent rfl⟩⟩
    | true =>
      refine Prog.behaves_map (Behaves.post (sizes_addVirtualDir hdir) (fun d s hs => ⟨hs.1, fun h => ?_⟩) fun _ _ h => h)
      cases h

/-- An expired file gets the size of its object. -/
theorem sizes_revalidate (ha : a < s₀.cache.heapNext) (hfree : ∀ k, ¬ held a k) :
    Sizes held writing log (· = s₀) (revalidate opt (s3Stor c) a) fun r _ => r = some a := by
  refine sizes_start fun hs₀ => ?_
  have hkey : Sizes held writing log (· = s₀) (headKey a (s₀.cache.heap a).isDir) fun key s =>
      ((s₀.cache.heap a).isDir = false → s₀.cache.fullPath a = some key) ∧ s = s₀ := by
    rw [headKey]
    split
    · rename_i hdir
      refine Behaves.post (sizes_reading reading_pathWithSlash) (fun _ _ hs => ⟨hs.1, fun h => ?_, hs.2⟩) fun _ _ h => h
      cases hdir.symm.trans h
    · rintro s ⟨hs, rfl⟩
      obtain ⟨path, hpath⟩ := fullPath_some hs.inv ha
      rw [fullPath, run_cache_ok (run_getFullPath hpath)]
      exact ⟨hs, fun _ => hpath, rfl⟩
  have hresp : Sizes held writing log (· = s₀) headResp fun resp s => resp.obj.mode = none ∧ s = s₀ :=
    fun _ hs => ⟨hs.1, rfl, hs.2⟩
  have hdone : ∀ P, Sizes held writing log P (do
      incTtl opt a
      pure (some a) : MetaM Log _) fun r _ => r = some a := fun P =>
    Prog.behaves_bind (sizes_pre sizes_incTtl fun _ _ => trivial) fun _ => .pure fun _ hs => ⟨hs.1, rfl⟩
  refine Prog.behaves_bind sizes_readDentry fun d => sizes_fact fun hd => ?_
  rw [hd]
  refine Prog.behaves_bind hkey fun key => sizes_fact fun hpath => ?_
  refine Prog.behaves_bind hresp fun resp => sizes_fact fun hmode => ?_
  refine Prog.behaves_bind (sizes_headFile hc hmode) fun resp => sizes_fact fun hhead => Prog.behaves_ite (hdone _) ?_
  refine Prog.behaves_bind (sizes_updateInode (hs₀.inv.index a ha) ?_ fun path hfile => ?_) fun _ => hdone _
  · have hkind : (headMode resp.obj (s₀.cache.heap a).isDir &&& S_IFDIR != 0) = (s₀.cache.heap a).isDir := by
      rw [headMode, hhead.mode]
      cases (s₀.cache.heap a).isDir <;> decide
    exact hkind
  · obtain rfl : path = key := Option.some.inj (hfile.path.symm.trans (hpath hfile.file))
    cases hexist : resp.exist with
    | false => exact absurd (hs₀.files path a hfile).object (hhead.absent hexist)
    | true =>
      obtain ⟨body, hbody, hsize⟩ := hhead.found hexist
      exact hsize ▸ Backed.free hbody hfree

theorem sizes_findDentry (hin : InDirectory pino s₀.cache) (hfree : ∀ d, Revalidates pino n s₀ d → ∀ k, ¬ held d k) :
    Sizes held writing log (· = s₀) (findDentry opt (s3Stor c) pino n false) fun r s => r = none → s = s₀ ∧
      ∃ p pre, InDir pino p pre s₀.cache ∧ ¬ log.bucket.Holds (pre ++ n) ∧ ¬ log.bucket.Holds (pre ++ n ++ slash) := by
  refine sizes_start fun hs₀ => ?_
  cases hp : s₀.cache.lookup pino with
  | none =>
    rintro s ⟨hs, rfl⟩
    rw [run_findDentry_unknown hp]
    exact hs
  | some p =>
    obtain ⟨halloc, -⟩ := hs₀.inv.indexed _ _ hp
    have hfind : Sizes held writing log (· = s₀) (cache (.find pino n) fun _ => LocalMemMeta.findDentry pino n) fun r s =>
        r = (s₀.cache.heap p).getChild n ∧ s = s₀ := by
      rintro s ⟨hs, rfl⟩
      rw [cache, Prog.run_lift, onCache, zoom, LocalMemMeta.run_findDentry hp]
      exact ⟨hs, rfl, rfl⟩
    refine Prog.behaves_bind hfind fun r => sizes_fact fun hr => ?_
    cases r with
    | none =>
      have hdir : InDir pino p (s₀.cache.dirPrefix p) s₀.cache := ⟨hp, hin p hp, rfl⟩
      exact Behaves.post (sizes_findRemote hc hdir) (fun r s hs => ⟨hs.1, fun h => ⟨(hs.2 h).1, p, _, hdir, (hs.2 h).2⟩⟩)
        fun _ _ h => h
    | some d =>
      have hexpired : Sizes held writing log (· = s₀) (isExpired d) fun e s =>
          e = (s₀.cache.heap d).isExpired s₀.now ∧ s = s₀ := by
        rintro s ⟨hs, rfl⟩
        exact ⟨hs, rfl, rfl⟩
      refine Prog.behaves_bind hexpired fun e => sizes_fact fun he => ?_
      cases e with
      | false =>
        refine .pure fun s hs => ⟨hs.1, fun h => ?_⟩
        cases h
      | true =>
        have hrevalidate : Sizes held writing log (· = s₀) (revalidate opt (s3Stor c) d) fun r _ => r = some d :=
          sizes_revalidate hc (hs₀.inv.child p n d halloc hr.symm).2.1 (hfree d ⟨p, hp, hr.symm, he.symm⟩)
        refine Behaves.post hrevalidate (fun r s hs => ⟨hs.1, fun h => ?_⟩) fun _ _ h => h
        cases h.symm.trans hs.2

end

/-! ### New entries -/

/-- The sizes are kept, and calls that send no part were added to the log. -/
def Posted (held : Addr → Nat → Prop) (writing : Str → Prop) (log : Log) (s : World Log) : Prop :=
  ∃ new : Log, (∀ e ∈ new, ∀ id, ¬ e.1.PartOf id) ∧ Sized held writing (log ++ new) s

theorem Sized.posted {s : World Log} (h : Sized held writing log s) : Posted held writing log s := by
  refine ⟨[], fun e he => ?_, ?_⟩
  · cases he
  · rwa [List.append_nil]

theorem Posted.after_put {s : World Log} {body : List Byte} (h : Posted held writing (log ++ [(.putFile key body, true)]) s) :
    Posted held writing log s := by
  obtain ⟨new, hnew, hs⟩ := h
  refine ⟨(.putFile key body, true) :: new, fun e he id => ?_, ?_⟩
  · rcases List.mem_cons.mp he with rfl | he
    · exact fun h => h
    · exact hnew e he id
  · rwa [List.append_assoc, List.singleton_append] at hs

theorem sizes_posted (h : Sizes held writing log P q Q) : Behaves (fun s => Sized held writing log s ∧ P s) q.run
    (fun _ => Posted held writing log) fun _ => Posted held writing log :=
  Behaves.post h (fun _ _ hs => hs.1.posted) fun _ _ hs => hs.posted

section
variable (hc : c.OverLog policy)
include hc

/-- An object without data is put under a key that had none. -/
theorem run_putFile {s : World Log} {l : MetaAct} (metaData : List (Str × Str)) (hs : Sized held writing log s) (hkey : key ≠ [])
    (hnot : ¬ log.bucket.Holds key) :
    ∃ s', (call l ((s3Stor c).putFile { objKey := key, buf := none, size := 0, metaData })).run s = .ok () s' ∧
      s'.cache = s.cache ∧ Sized held writing (log ++ [(.putFile key [], true)]) s' := by
  have hcall : (s3Stor c).putFile { objKey := key, buf := none, size := 0, metaData } s.stor =
      .ok () (log ++ [(.putFile key [], true)]) := by
    rw [show (s3Stor c).putFile = policy.stor.putFile from congrArg UploadStor.putFile hc.upload, hs.stor]
    simp [Policy.stor, Policy.answer, hc.accepts]
  refine ⟨{ s with stor := log ++ [(.putFile key [], true)] }, run_call_ok hcall, rfl, hs.inv, rfl, hs.known, hs.files.mono ?_⟩
  intro path a _ size hback
  have hsame : Log.bucket (log ++ [(.putFile key [], true)]) path = log.bucket path := by
    rw [Log.bucket_putFile hkey, Bucket.put, Function.update_of_ne]
    rintro rfl
    exact hnot hback.object
  exact ⟨by rw [Bucket.Holds, hsame]; exact hback.object, hback.held, by rw [hsame]; exact hback.length⟩

theorem sizes_createDentry {mode : Mode} (hname : n ≠ []) (hin : InDirectory pino s₀.cache)
    (hfree : ∀ d, Revalidates pino n s₀ d → ∀ k, ¬ held d k) :
    Behaves (fun s => Sized held writing log s ∧ s = s₀) (createDentry opt (s3Stor c) pino n mode).run
      (fun _ => Posted held writing log) fun _ => Posted held writing log := by
  refine Prog.behaves_bind (Behaves.post (sizes_findDentry hc hin hfree) (fun _ _ h => h) fun _ _ h => h.posted) fun r => ?_
  cases r with
  | some d => exact .pure fun s hs => hs.1.posted
  | none =>
    rintro s ⟨hs, hmissing⟩
    obtain ⟨rfl, p, pre, hdir, hobj, hmarker⟩ := hmissing rfl
    obtain ⟨halloc, -⟩ := hs.inv.indexed _ _ hdir.lookup
    have hkey : pre ++ (n ++ keyEnd mode) ≠ [] := by simp [hname]
    have hnot : ¬ log.bucket.Holds (pre ++ (n ++ keyEnd mode)) := by
      rw [← List.append_assoc, keyEnd]
      split
      · exact hmarker
      · rwa [List.append_nil]
    have hget : (getDentry pino : MetaM Log _).run s = .ok (some p) s := by
      refine run_cache_ok ?_
      rw [run_getDentry, hdir.lookup]
    have hnew : (newKey p n mode : MetaM Log Str).run s = .ok (pre ++ (n ++ keyEnd mode)) s := by
      have hrun : (newKey p n mode : MetaM Log Str).run s = .ok (s.cache.dirPrefix p ++ (n ++ keyEnd mode)) s :=
        run_newKey hs.inv halloc
      rwa [hdir.pre] at hrun
    have hderef : (deref (some p) : MetaM Log Addr).run s = .ok p s := rfl
    obtain ⟨s', hput, hcache, hs'⟩ := run_putFile (l := .put (pre ++ (n ++ keyEnd mode))) hc
      [("mode".toList, charOf mode.toNat), ("uid".toList, charOf (s.cache.heap p).inode.uid),
        ("gid".toList, charOf (s.cache.heap p).inode.gid)] hs hkey hnot
    have hdir' : s'.cache.lookup pino = some p ∧ s'.cache.dirPrefix p = pre := by
      rw [hcache]
      exact ⟨hdir.lookup, hdir.pre⟩
    -- The new file has the size of its object, which has no data.
    have hmakes : MakesSized (Log.bucket (log ++ [(.putFile (pre ++ (n ++ keyEnd mode)) [], true)])) pino p pre n
        (fun now => do
          let inode ← createNewInode now mode (s.cache.heap p).inode.gid (s.cache.heap p).inode.uid
          LocalMemMeta.createDentry pino n inode) := makesSized_new fun hfile => by
      have hend : n ++ keyEnd mode = n := by rw [keyEnd, hfile, if_neg Bool.false_ne_true, List.append_nil]
      rw [Log.bucket_putFile hkey, hend, Bucket.put, Function.update_self]
    have hinsert : Behaves (fun s => Sized held writing (log ++ [(.putFile (pre ++ (n ++ keyEnd mode)) [], true)]) s ∧
        s.cache.lookup pino = some p ∧ s.cache.dirPrefix p = pre) (cache (.insert pino n) fun now => do
          let inode ← createNewInode now mode (s.cache.heap p).inode.gid (s.cache.heap p).inode.uid
          LocalMemMeta.createDentry pino n inode : MetaM Log Addr).run (fun _ => Posted held writing log)
        fun _ => Posted held writing log :=
      Behaves.post (sizes_posted (sizes_insert hmakes)) (fun _ _ h => h.after_put) fun _ _ h => h.after_put
    rw [Prog.run_bind_ok hget, Prog.run_bind_ok hderef, Prog.run_bind_ok hnew, Prog.run_bind_ok run_readDentry, Prog.run_bind_ok hput]
    exact hinsert s' ⟨hs', hdir'⟩

end

/-! ### Listings -/

/-- A node whose name is that of an object has the size of the object, and a node for a file has such a name. -/
theorem listedNode_sized (hserves : c.Serves Log.bucket) {node : FTreeNode} (h : ListedNode (s3Stor c) pre log node)
    (hboth : ∀ resp, ListedPage (s3Stor c) pre log resp → resp.ShowsBoth log.bucket pre) :
    node.oinfo.mode = none ∧ (node.isDir = false → log.bucket.Holds (pre ++ node.name)) ∧
      (log.bucket.Holds (pre ++ node.name) →
        ∃ body, log.bucket (pre ++ node.name) = some body ∧ node.oinfo.size = body.length) := by
  obtain ⟨resp, nodes, hpage, hft, hnode⟩ := h
  have hshows := hboth resp hpage
  obtain ⟨g, r, rfl, hpart⟩ := pageFrom_served hserves hpage
  have hunder := under_part hpart
  obtain ⟨nodes', hft', hnodes⟩ := nodesFor_page hunder _
  obtain rfl := Option.some.inj (hft.symm.trans hft')
  refine ⟨hnodes.mode node hnode, ?_⟩
  rcases hnodes.listed node hnode with ⟨hdir, hne, hprefix⟩ | ⟨-, o, ho, hkey, hsize⟩
  · refine ⟨fun hfile => ?_, fun hholds => ?_⟩
    · cases hdir.symm.trans hfile
    · -- The object of the name is on the page too, and a file overrides the directory.
      obtain ⟨obj, hobj, hname⟩ := hshows node.name hprefix hholds
      exact absurd hname (buildFtree_over (pageUnder_page hunder g) hft node hnode hdir obj hobj)
  · obtain ⟨-, body, -, -, hbody, hlength⟩ := hpart.keys o ho
    rw [hkey] at hbody
    exact ⟨fun _ => by rw [Bucket.Holds, hbody]; rfl, fun _ => ⟨body, hbody, hsize.trans hlength⟩⟩

/-- The store is as it was. -/
def SameStor (s s' : World Log) : Prop := s'.stor = s.stor

instance : Std.Refl SameStor := ⟨fun _ => rfl⟩

instance : IsTrans (World Log) SameStor := ⟨fun _ _ _ h h' => Eq.trans h' h⟩

/-- The program leaves the log as it is. -/
abbrev KeepsLog (q : MetaM Log α) : Prop := q.Preserves (fun _ => True) (fun _ => True) SameStor

theorem keepsLog_cache {l : MetaAct} {f : Timespec → LocalM α} : KeepsLog (cache l f) := by
  refine Prog.preserves_lift trivial fun s _ _ => ?_
  simp only [onCache, zoom]
  cases f s.now s.cache with
  | ok r m => exact ⟨trivial, rfl, trivial⟩
  | error e m => exact ⟨trivial, rfl⟩

section
variable (hc : c.OverLog policy)
include hc

theorem keepsLog_list {l : MetaAct} {req : ListObjectsReq} : KeepsLog (call l ((s3Stor c).listObjects req)) := by
  refine Prog.preserves_lift trivial fun s _ _ => ?_
  have hkeep : endState ((s3Stor c).listObjects req s.stor) = s.stor :=
    (endState_bind_pure _ _ s.stor).trans ((endState_orServerError _ s.stor).trans (hc.list s.stor _))
  simp only [zoom]
  cases hr : (s3Stor c).listObjects req s.stor with
  | ok r t =>
    rw [hr] at hkeep
    exact ⟨trivial, hkeep, trivial⟩
  | error e t =>
    rw [hr] at hkeep
    exact ⟨trivial, hkeep⟩

theorem keepsLog_refreshLoop (fuel : Nat) (marker : Str) : KeepsLog (refreshLoop (s3Stor c) ino pre fuel marker) := by
  induction fuel generalizing marker with
  | zero => trivial
  | succ fuel ih =>
    rw [refreshLoop]
    refine (keepsLog_list hc).bind fun resp => ?_
    cases buildFtree pre resp with
    | none => trivial
    | some children => exact keepsLog_cache.bind fun _ => (ih _).ite trivial

theorem keepsLog_loadSubDentries (fuel : Nat) : KeepsLog (loadSubDentries (s3Stor c) fuel ino) := by
  have hlook : ∀ (β : Type) (l : MetaAct) (f : World Log → β), KeepsLog (Prog.lift l (do return f (← get)) : MetaM Log β) :=
    fun _ _ _ => Prog.preserves_lift trivial fun _ _ _ => ⟨trivial, rfl, trivial⟩
  refine keepsLog_cache.bind fun r => ?_
  cases r with
  | none => trivial
  | some a =>
    have hlist : KeepsLog (listChildren a) := keepsLog_cache.bind fun _ => trivial
    refine (hlook _ _ _).bind fun stale => ?_
    cases stale with
    | false => exact hlist
    | true =>
      refine Prog.Preserves.bind ?_ fun _ => hlist
      exact keepsLog_cache.bind fun pre => (hlook _ _ _).bind fun d =>
        (keepsLog_refreshLoop hc fuel []).bind fun _ => keepsLog_cache

end

/-- The children of a directory that is listed anew. -/
def Relisted (ino : InodeID) (s : World Log) (d : Addr) : Prop :=
  ∃ p n, s.Relists ino p ∧ (s.cache.heap p).getChild n = some d

/-- One edit of a listing that is made anew. -/
theorem sizes_loadEdit (hserves : c.Serves Log.bucket) (hs₀ : Sized held writing log s₀) (hlists : s₀.Relists ino a)
    (hboth : ∀ resp, ListedPage (s3Stor c) (s₀.cache.dirPrefix a) log resp → resp.ShowsBoth log.bucket (s₀.cache.dirPrefix a))
    (hfree : ∀ d, Relisted ino s₀ d → ∀ k, ¬ held d k)
    {m m' : LocalMemMeta} {e : Edit} (hm : Inv m) (hrest : LocalMemMeta.Edits (LoadEdit (s3Stor c) s₀ ino) s₀.cache m)
    (hfiles : FilesHold (Backed log.bucket held writing) m)
    (hchild : ∀ k d, (m.heap a).getChild k = some d → (s₀.cache.heap a).getChild k = some d ∨ s₀.cache.heapNext ≤ d)
    (he : LoadEdit (s3Stor c) s₀ ino e m) (hl : e.Leads m m') : FilesHold (Backed log.bucket held writing) m' := by
  obtain ⟨-, hgrow⟩ := hrest.grow hs₀.inv
  have halloc₀ := (hs₀.inv.indexed _ _ hlists.1).1
  have hat : ∀ {p}, m.lookup ino = some p → p = a := fun hp =>
    Option.some.inj (hp.symm.trans (hgrow.index _ _ hlists.1))
  have hpre : m.dirPrefix a = s₀.cache.dirPrefix a := dirPrefix_grow hs₀.inv hgrow halloc₀
  cases he with
  | mark hp =>
    obtain ⟨-, hf, hc, rfl⟩ := hl
    exact hfiles.flags hm hf hc fun _ => rfl
  | marked hp hc' =>
    obtain ⟨-, hf, hc, rfl⟩ := hl
    exact hfiles.flags hm hf hc fun _ => rfl
  | sweep hp => exact hfiles.swept hm hl.2
  | @update _ p d node hp hnode hd =>
    obtain rfl := hat hp
    obtain ⟨-, hf, hc, rfl⟩ := hl
    rw [hs₀.stor] at hnode
    obtain ⟨-, -, hsize⟩ := listedNode_sized hserves hnode hboth
    refine filesHold_set hm hf hc rfl (fun path hfile => ?_) fun path b _ hb => hfiles path b hb
    have hback := hfiles path d hfile
    obtain rfl : m.dirPrefix p ++ node.name = path :=
      Option.some.inj ((fullPath_child hm (hm.indexed _ _ hp).1 hd).symm.trans hfile.path)
    rw [hpre] at hback ⊢
    obtain ⟨body, hbody, hlength⟩ := hsize hback.object
    have hunheld : ∀ k, ¬ held d k := by
      rcases hchild _ _ hd with hold | hnew
      · exact hfree d ⟨p, _, hlists, hold⟩
      · exact fun k hk => absurd (hs₀.known d k hk) (Nat.not_lt.mpr hnew)
    show Backed log.bucket held writing _ d node.oinfo.size
    exact hlength ▸ Backed.free hbody hunheld
  | @entry _ p node hp hstale hnode hnone =>
    obtain rfl := hat hp
    obtain ⟨halloc, hino, rfl⟩ := hl
    rw [hs₀.stor] at hnode
    obtain ⟨hmode, hobject, hsize⟩ := listedNode_sized hserves hnode hboth
    refine (hfiles.issue hm).link hm.issue halloc (hino ▸ hm.fresh) fun hfile => ?_
    rw [objInode_isDir node.name hmode] at hfile
    obtain ⟨body, hbody, hlength⟩ := hsize (hobject hfile)
    rw [dirPrefix_grow hm .issue halloc, hpre]
    show Backed log.bucket held writing _ m.heapNext node.oinfo.size
    exact hlength ▸ Backed.free hbody fun k hk => absurd (hs₀.known _ k hk) (Nat.not_lt.mpr hgrow.next)

section
variable (hc : c.OverLog policy)
include hc

/-- A load keeps the sizes, and the log. -/
theorem sized_load (hs₀ : Sized held writing log s₀)
    (hboth : ∀ p, s₀.Relists ino p → ∀ resp, ListedPage (s3Stor c) (s₀.cache.dirPrefix p) log resp →
      resp.ShowsBoth log.bucket (s₀.cache.dirPrefix p))
    (hfree : ∀ d, Relisted ino s₀ d → ∀ k, ¬ held d k) (fuel : Nat) :
    Sized held writing log (endState (((Request.load ino).prog opt (s3Stor c) fuel).run s₀)) := by
  have htrail := request_edits opt (s3Stor c) hs₀.inv fuel (.load ino)
  have hstor : SameStor s₀ (endState (((Request.load ino).prog opt (s3Stor c) fuel).run s₀)) :=
    (Prog.Preserves.run (keepsLog_loadSubDentries hc fuel).map trivial).2
  have hgrow := htrail.grow hs₀.inv
  refine ⟨htrail.inv, hstor.trans hs₀.stor, fun a k hk => Nat.lt_of_lt_of_le (hs₀.known a k hk) hgrow.next, ?_⟩
  cases hp : s₀.cache.lookup ino with
  | none =>
    -- A directory that is not known is not listed, and nothing is edited.
    have hsame : ∀ m, LocalMemMeta.Edits (LoadEdit (s3Stor c) s₀ ino) s₀.cache m → m = s₀.cache := by
      intro m hm
      refine hm.keeps hs₀.inv (K := (· = s₀.cache)) rfl ?_
      rintro e m₁ m₂ - - rfl he -
      cases he with
      | mark h | marked h | sweep h | update h | entry h => cases hp.symm.trans h
    rw [hsame _ htrail.edits]
    exact hs₀.files
  | some p =>
    cases hstale : (!(s₀.cache.heap p).complete || (s₀.cache.heap p).isExpired s₀.now) with
    | false =>
      have hrun : (loadSubDentries (s3Stor c) fuel ino).run s₀ = (listChildren p).run s₀ := by
        rw [loadSubDentries, Prog.run_bind_ok (run_getDentry_some hp)]
        simp only
        rw [Prog.run_bind_ok run_needsRefresh, hstale]
        rfl
      have hread : Reading (listChildren p) := (reading_cache fun _ _ => rfl).bind fun _ => trivial
      have hend : endState (((Request.load ino).prog opt (s3Stor c) fuel).run s₀) = s₀ :=
        Prog.endState_run_map.trans ((congrArg endState hrun).trans (hread.run (s := s₀) trivial).2.symm)
      rw [hend]
      exact hs₀.files
    | true =>
      have hlists : s₀.Relists ino p := ⟨hp, hstale⟩
      refine (htrail.edits.keeps hs₀.inv (K := fun m => FilesHold (Backed log.bucket held writing) m ∧ ∀ k d,
        (m.heap p).getChild k = some d → (s₀.cache.heap p).getChild k = some d ∨ s₀.cache.heapNext ≤ d)
        ⟨hs₀.files, fun _ _ h => .inl h⟩ fun e m m' hm hrest hk he hl => ?_).1
      obtain ⟨-, hg⟩ := hrest.grow hs₀.inv
      refine ⟨sizes_loadEdit hc.serves hs₀ hlists (hboth p hlists) hfree hm hrest hk.1 hk.2 he hl, fun k d hd => ?_⟩
      have halloc := (hl.keeps hm).2.next
      have halloc₀ := Nat.lt_of_lt_of_le (hs₀.inv.indexed _ _ hp).1 hg.next
      rcases hl.origin (Nat.lt_of_lt_of_le halloc₀ halloc) hd with ⟨-, hold⟩ | hnew
      · exact hk.2 k d hold
      · exact .inr (Nat.le_trans hg.next hnew)

end

/-! ### Every request -/

/-- What keeps the sizes: lookups are made in directories, new entries have a name, and no page of a listing shows as a directory
    alone a name that is an object too. -/
def Request.Steady (c : S3Client Log) (s : World Log) : Request → Prop
  | .find pino _ => InDirectory pino s.cache
  | .create pino n _ => InDirectory pino s.cache ∧ n ≠ []
  | .load ino => ∀ p, s.Relists ino p → ∀ resp, ListedPage (s3Stor c) (s.cache.dirPrefix p) s.stor resp →
      resp.ShowsBoth s.stor.bucket (s.cache.dirPrefix p)
  | .remove _ _ => False
  | .updateSize _ _ => False

/-- The request may set the size of the dentry at `d` to that of its object. -/
def Request.Resizes (s : World Log) (d : Addr) : Request → Prop
  | .find pino n => Revalidates pino n s d
  | .create pino n _ => Revalidates pino n s d
  | .load ino => Relisted ino s d
  | .remove _ _ => False
  | .updateSize _ _ => False

/-- Every steady request keeps the sizes. -/
theorem request_posted (hc : c.OverLog policy) (hs₀ : Sized held writing log s₀) (fuel : Nat) {r : Request} (hr : r.Steady c s₀)
    (hfree : ∀ d, r.Resizes s₀ d → ∀ k, ¬ held d k) :
    Posted held writing log (endState ((r.prog opt (s3Stor c) fuel).run s₀)) := by
  cases r with
  | find pino n => exact Behaves.endState (Prog.behaves_map (sizes_posted (sizes_findDentry hc hr hfree))) ⟨hs₀, rfl⟩
  | create pino n mode => exact Behaves.endState (Prog.behaves_map (sizes_createDentry hc hr.2 hr.1 hfree)) ⟨hs₀, rfl⟩
  | load ino =>
    refine (sized_load hc hs₀ (fun p hlists resp hpage => ?_) hfree fuel).posted
    rw [← hs₀.stor] at hpage ⊢
    exact hr p hlists resp hpage
  | remove | updateSize => exact hr.elim

end MetaImpl

end Catfs
