import Catfs.Lib.Prog
import Catfs.MetaLocalMem
import Catfs.Stor

/-! # The metadata requests (`src/meta/meta_impl.cpp`)

A request is a program whose atomic steps are the calls of the dentry cache and of the store. The clock and
what uninitialised memory holds stand still during a request that runs alone. -/

namespace Catfs

open Lib

structure World (σ : Type) where
  cache : LocalMemMeta
  stor : σ
  now : Timespec
  garbage : Garbage

/-- The steps of a request. A `build` carries the names that it merges. -/
inductive MetaAct where
  | find (pino : InodeID) (name : Str)
  | read (a : Addr)
  | check (a : Addr)
  | getDentry (ino : InodeID)
  | head (key : Str)
  | list (pre marker : Str)
  | put (key : Str)
  | delete (key : Str)
  | insert (pino : InodeID) (name : Str)
  | erase (pino : InodeID) (name : Str)
  | touch (a : Addr)
  | update (ino : InodeID) (updater : InodeUpdateAttr)
  | build (ino : InodeID) (names : List Str)
  | sweep (a : Addr)
  deriving DecidableEq, Repr

abbrev MetaM (σ : Type) := Prog MetaAct Err (World σ)

namespace MetaM
variable {σ α : Type}

def onCache (f : Timespec → LocalM α) : EStateM Err (World σ) α := fun s =>
  zoom World.cache (fun m s => { s with cache := m }) (f s.now) s

/-- A step on the dentry cache. -/
def cache (l : MetaAct) (f : Timespec → LocalM α) : MetaM σ α := Prog.lift l (onCache f)

/-- A call of the store. -/
def call (l : MetaAct) (f : EStateM Err σ α) : MetaM σ α :=
  Prog.lift l (zoom World.stor (fun t s => { s with stor := t }) f)

/-- `HeadFileResp resp;` -/
def headResp : MetaM σ HeadFileResp := Prog.lift (.read 0) do return HeadFileResp.uninit (← get).garbage

def readDentry (a : Addr) : MetaM σ Dentry := cache (.read a) fun _ => LocalMemMeta.load a

def isExpired (a : Addr) : MetaM σ Bool := Prog.lift (.check a) do
  let s ← get
  return (s.cache.heap a).isExpired s.now

/-- `!dentry->is_complete() || dentry->is_expired()` -/
def needsRefresh (a : Addr) : MetaM σ Bool := Prog.lift (.check a) do
  let s ← get
  return !(s.cache.heap a).complete || (s.cache.heap a).isExpired s.now

end MetaM

open MetaM

namespace MetaImpl
variable {σ : Type}

/-- `get_full_path_with_slash` -/
def pathWithSlash (a : Addr) : MetaM σ Str := cache (.read a) fun _ => LocalMemMeta.getFullPathWithSlash a

def fullPath (a : Addr) : MetaM σ Str := cache (.read a) fun _ => LocalMemMeta.getFullPath a

def getDentry (ino : InodeID) : MetaM σ (Option Addr) := cache (.getDentry ino) fun _ => LocalMemMeta.getDentry ino

/-- A pointer that the code follows without a check. -/
def deref (d : Option Addr) : MetaM σ Addr :=
  match d with
  | some a => pure a
  | none => Prog.fail .nullDeref

/-- `d->inc_ttl(opt.dcache_timeout)` -/
def incTtl (opt : MetaOpt) (a : Addr) : MetaM σ Unit :=
  cache (.touch a) fun now => LocalMemMeta.store a (·.incTtl now opt.dcacheTimeout)

def headFile (st : Stor σ) (key : Str) (resp : HeadFileResp) : MetaM σ HeadFileResp :=
  call (.head key) (st.headFile { objKey := key } resp)

/-- The object of the file or directory `name` in `parent`, whether it exists and whether it is a directory. -/
def getRemoteObj (st : Stor σ) (parent : Addr) (name : Str) : MetaM σ (ObjInfo × Bool × Bool) := do
  let pre ← pathWithSlash parent
  let resp ← headResp
  let resp ← headFile st (pre ++ name) resp
  if resp.exist then pure (resp.obj, true, false)
  else do
    let resp ← headFile st (pre ++ name ++ slash) resp
    pure (resp.obj, resp.exist, resp.exist)

def isRemoteDirExist (st : Stor σ) (path : Str) : MetaM σ Bool := do
  let resp ← call (.list path []) (st.listObjects { delimiter := [], pre := path, max := 1, marker := [] })
  pure (!resp.objs.isEmpty)

/-- A dentry for a directory that is only a part of keys. -/
def addVirtualDir (opt : MetaOpt) (parent : Addr) (name : Str) : MetaM σ Addr := do
  let p ← readDentry parent
  let d ← cache (.insert p.inode.ino name) fun now => do
    let inode ← LocalMemMeta.createNewInode now p.inode.mode p.inode.gid p.inode.uid
    LocalMemMeta.createDentry p.inode.ino name inode
  incTtl opt d
  pure d

/-- The branch of `find_dentry` for a name that is not cached. -/
def findRemote (opt : MetaOpt) (st : Stor σ) (pino : InodeID) (name : Str) : MetaM σ (Option Addr) := do
  match ← getDentry pino with
  | none => Prog.fail (.invalidInodeID pino)
  | some parent =>
    let (obj, exist, isDir) ← getRemoteObj st parent name
    if exist then do
      let d ← cache (.insert pino name) fun now => LocalMemMeta.createDentryFromObj now pino name obj isDir
      incTtl opt d
      pure (some d)
    else do
      let pre ← pathWithSlash parent
      let exist ← isRemoteDirExist st (pre ++ name ++ slash)
      if exist then some <$> addVirtualDir opt parent name
      else pure none

/-- The mode that a revalidation sets. -/
def headMode (obj : ObjInfo) (isDir : Bool) : Mode :=
  match obj.mode with
  | some mode => mode &&& 0o777#32
  | none => if isDir then S_IFDIR ||| 0o755#32 else 0o644#32

def updateInode (ino : InodeID) (updater : InodeUpdateAttr) : MetaM σ Unit :=
  cache (.update ino updater) fun _ => LocalMemMeta.updateInode ino updater

/-- The key whose `HEAD` revalidates the dentry `a`. -/
def headKey (a : Addr) (isDir : Bool) : MetaM σ Str := if isDir then pathWithSlash a else fullPath a

/-- The branch of `find_dentry` for an expired dentry. -/
def revalidate (opt : MetaOpt) (st : Stor σ) (a : Addr) : MetaM σ (Option Addr) := do
  let d ← readDentry a
  let path ← headKey a d.isDir
  let resp ← headResp
  let resp ← headFile st path resp
  if !resp.exist && d.isDir then do
    incTtl opt a
    pure (some a)
  else do
    updateInode d.inode.ino
      { size := some resp.obj.size, mode := some (headMode resp.obj d.isDir), uid := resp.obj.uid, gid := resp.obj.gid }
    incTtl opt a
    pure (some a)

def findDentry (opt : MetaOpt) (st : Stor σ) (pino : InodeID) (name : Str) (onlyLocal : Bool) :
    MetaM σ (Option Addr) := do
  match ← cache (.find pino name) fun _ => LocalMemMeta.findDentry pino name with
  | none => if onlyLocal then pure none else findRemote opt st pino name
  | some a => if ← isExpired a then revalidate opt st a else pure (some a)

/-- The key under which a file `name` of `parent` is stored. -/
def fileKey (parent : Addr) (isRoot : Bool) (name : Str) : MetaM σ Str :=
  if isRoot then pure name else do
    let path ← fullPath parent
    pure (path ++ slash ++ name)

/-- The key of the object for the new entry `name` of `parent`. -/
def newKey (parent : Addr) (name : Str) (mode : Mode) : MetaM σ Str := do
  let p ← readDentry parent
  let key ← fileKey parent p.isRoot name
  pure (if mode &&& S_IFDIR != 0 then key ++ slash else key)

/-- An integer assigned to a `std::string` becomes one character. -/
def charOf (n : Nat) : Str := [Char.ofNat (n % 256)]

def createDentry (opt : MetaOpt) (st : Stor σ) (pino : InodeID) (name : Str) (mode : Mode) : MetaM σ Addr := do
  match ← findDentry opt st pino name false with
  | some d => pure d
  | none =>
    let parent ← deref (← getDentry pino)
    let key ← newKey parent name mode
    let p ← readDentry parent
    let metaData := [("mode".toList, charOf mode.toNat), ("uid".toList, charOf p.inode.uid), ("gid".toList, charOf p.inode.gid)]
    call (.put key) (st.putFile { objKey := key, buf := none, size := 0, metaData })
    cache (.insert pino name) fun now => do
      let inode ← LocalMemMeta.createNewInode now mode p.inode.gid p.inode.uid
      LocalMemMeta.createDentry pino name inode

def removeDentry (opt : MetaOpt) (st : Stor σ) (pino : InodeID) (name : Str) : MetaM σ Unit := do
  match ← findDentry opt st pino name false with
  | none => pure ()
  | some a =>
    let path ← fullPath a
    let d ← readDentry a
    if d.isDir then
      if d.childCount ≠ 0 then Prog.fail .enotempty
      else do
        call (.delete (path ++ slash)) (st.deleteFile { objKey := path ++ slash })
        cache (.erase pino name) fun _ => LocalMemMeta.removeDentry pino name
    else do
      call (.delete path) (st.deleteFile { objKey := path })
      cache (.erase pino name) fun _ => LocalMemMeta.removeDentry pino name

/-! ### Listing a directory -/

/-- The nodes of the common prefixes, added to `children`. -/
def ftreeDirs (reqPrefix : Str) : List Str → List FTreeNode → Option (List FTreeNode)
  | [], children => some children
  | pre :: rest, children => do
    let dirname ← substr pre reqPrefix.length (sizeSub (sizeSub pre.length reqPrefix.length) 1)
    ftreeDirs reqPrefix rest
      (if dirname = [] then children else (FTreeNode.mk dirname true [] ObjInfo.zero).insert children)

/-- The nodes of the objects, added to `children`. -/
def ftreeFiles (reqPrefix : Str) : List ObjInfo → List FTreeNode → Option (List FTreeNode)
  | [], children => some children
  | obj :: rest, children => do
    let filename ← substr obj.name reqPrefix.length (sizeSub obj.name.length reqPrefix.length)
    ftreeFiles reqPrefix rest ((FTreeNode.mk filename false [] obj).insert children)

/-- The children of the root that `build_ftree_from_listobjects` fills, or none when it throws. -/
def buildFtree (reqPrefix : Str) (resp : ListObjectsResp) : Option (List FTreeNode) := do
  ftreeFiles reqPrefix resp.objs (← ftreeDirs reqPrefix resp.commonPrefixes [])

/-- The loop over the pages, for at most `fuel` turns. -/
def refreshLoop (st : Stor σ) (ino : InodeID) (pre : Str) : Nat → Str → MetaM σ Unit
  | 0, _ => Prog.fail .diverge
  | fuel + 1, marker => do
    let resp ← call (.list pre marker) (st.listObjects { delimiter := slash, pre, max := 1000, marker })
    match buildFtree pre resp with
    | none => Prog.fail .outOfRange
    | some children => do
      cache (.build ino (children.map FTreeNode.name)) fun now => LocalMemMeta.buildDentries now ino children
      if resp.isTrunc then refreshLoop st ino pre fuel resp.nextMarker else pure ()

def refreshSubDentries (st : Stor σ) (fuel : Nat) (a : Addr) : MetaM σ Unit := do
  let pre ← pathWithSlash a
  let d ← readDentry a
  refreshLoop st d.inode.ino pre fuel []
  cache (.sweep a) fun now => LocalMemMeta.clearUnsyncDentry now a

def listChildren (a : Addr) : MetaM σ (List Dirent) := do
  let children ← cache (.read a) fun _ => LocalMemMeta.childrenList a
  pure (⟨['.'], a⟩ :: ⟨['.', '.'], a⟩ :: children)

def loadSubDentries (st : Stor σ) (fuel : Nat) (ino : InodeID) : MetaM σ (List Dirent) := do
  match ← getDentry ino with
  | none => Prog.fail .enoent
  | some a =>
    if ← needsRefresh a then do
      refreshSubDentries st fuel a
      listChildren a
    else listChildren a

def updateInodeSize (ino : InodeID) (size : Nat) : MetaM σ Unit :=
  updateInode ino { size := some size, mode := none, uid := none, gid := none }

/-- The requests that FUSE makes of the metadata layer. -/
inductive Request where
  | find (pino : InodeID) (name : Str)
  | create (pino : InodeID) (name : Str) (mode : Mode)
  | remove (pino : InodeID) (name : Str)
  | load (ino : InodeID)
  | updateSize (ino : InodeID) (size : Nat)
  deriving DecidableEq, Repr

/-- The request, with at most `fuel` pages for a listing and its answer dropped. -/
def Request.prog (opt : MetaOpt) (st : Stor σ) (fuel : Nat) : Request → MetaM σ Unit
  | .find pino name => (fun _ => ()) <$> findDentry opt st pino name false
  | .create pino name mode => (fun _ => ()) <$> createDentry opt st pino name mode
  | .remove pino name => removeDentry opt st pino name
  | .load ino => (fun _ => ()) <$> loadSubDentries st fuel ino
  | .updateSize ino size => updateInodeSize ino size

end MetaImpl

end Catfs
