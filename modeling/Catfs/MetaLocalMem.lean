import Catfs.Lib.Exec
import Catfs.Types
import Mathlib.Logic.Function.Basic

/-! # The dentry cache (`src/meta/meta_local_mem.cpp`)

The dentries live in a heap that only grows: an address is never reused, and the record of a removed
dentry stays as it was. -/

namespace Catfs

/-- `heap` holds the dentries with addresses below `heapNext`. `dentryIndex` is the array of 64 maps, an
    absent entry being a null pointer. `issued` records the inode numbers that were handed out. -/
structure LocalMemMeta where
  opt : MetaOpt
  nextInodeId : InodeID
  rootDentry : Addr
  dentryIndex : Nat → InodeID → Option Addr
  heap : Addr → Dentry
  heapNext : Addr
  issued : List InodeID

abbrev LocalM := EStateM Err LocalMemMeta

/-- Which attributes `update_inode` sets. -/
structure InodeUpdateAttr where
  size : Option Nat
  mode : Option Mode
  uid : Option Nat
  gid : Option Nat
  deriving DecidableEq, Repr

def LOCK_COUNT : Nat := 64

namespace LocalMemMeta

/-! ### Dentries in the heap -/

/-- `*d` -/
def load (a : Addr) : LocalM Dentry := do return (← get).heap a

/-- A change to the dentry at `a`. -/
def set (m : LocalMemMeta) (a : Addr) (f : Dentry → Dentry) : LocalMemMeta :=
  { m with heap := Function.update m.heap a (f (m.heap a)) }

def store (a : Addr) (f : Dentry → Dentry) : LocalM Unit := modify (·.set a f)

/-- `new Dentry(...)` -/
def alloc (m : LocalMemMeta) (d : Dentry) : LocalMemMeta :=
  { m with heap := Function.update m.heap m.heapNext d, heapNext := m.heapNext + 1 }

/-- The loop of `get_full_path`, for at most `fuel` turns. -/
def pathLoop (m : LocalMemMeta) : Nat → Option Addr → Str → Option Str
  | _, none, fullpath => some fullpath
  | 0, some _, _ => none
  | fuel + 1, some p, fullpath =>
    if (m.heap p).isRoot then some fullpath
    else pathLoop m fuel (m.heap p).parent ((m.heap p).name ++ slash ++ fullpath)

/-- `get_full_path`, none when the chain of parents does not end. -/
def fullPath (m : LocalMemMeta) (a : Addr) : Option Str :=
  if (m.heap a).isRoot then some []
  else m.pathLoop m.heapNext (m.heap a).parent (m.heap a).name

def getFullPath (a : Addr) : LocalM Str := do
  match (← get).fullPath a with
  | some path => pure path
  | none => throw .diverge

def getFullPathWithSlash (a : Addr) : LocalM Str := do
  if (← load a).isRoot then pure []
  else do
    let path ← getFullPath a
    pure (path ++ slash)

def addChild (parent : Addr) (name : Str) (inode : Inode) : LocalM Addr := do
  let child := (← get).heapNext
  modify (·.alloc { Dentry.new name inode with parent := some parent })
  store parent fun d => { d with children := d.children.insert name child }
  pure child

/-- Erasing a name that is not there does nothing, as in the source. -/
def removeChild (parent : Addr) (name : Str) : LocalM Unit :=
  store parent fun d => { d with children := d.children.erase name }

def childrenList (a : Addr) : LocalM (List Dirent) := do
  let m ← get
  pure ((m.heap a).children.entries.map fun e => { name := (m.heap e.2).name, inode := e.2 })

/-! ### The index and the inodes -/

def lookup (m : LocalMemMeta) (ino : InodeID) : Option Addr := m.dentryIndex (ino % LOCK_COUNT) ino

/-- `dentry_index[ino % LOCK_COUNT][ino] = a` -/
def setIndex (m : LocalMemMeta) (ino : InodeID) (a : Addr) : LocalMemMeta :=
  let shard := ino % LOCK_COUNT
  { m with dentryIndex := Function.update m.dentryIndex shard (Function.update (m.dentryIndex shard) ino (some a)) }

def saveDentryIndex (a : Addr) : LocalM Unit := modify fun m => m.setIndex (m.heap a).inode.ino a

def getDentry (ino : InodeID) : LocalM (Option Addr) := do return (← get).lookup ino

/-- `get_dentry`, with the check that most callers make. -/
def getParent (pino : InodeID) : LocalM Addr := do
  match ← getDentry pino with
  | some parent => pure parent
  | none => throw (.invalidInodeID pino)

def getNextInodeId : LocalM InodeID := do
  let ino := (← get).nextInodeId
  modify fun m => { m with nextInodeId := m.nextInodeId + 1, issued := m.issued ++ [ino] }
  pure ino

def updateInode (ino : InodeID) (updater : InodeUpdateAttr) : LocalM Unit := do
  let a ← getParent ino
  store a fun d => { d with inode := { d.inode with
    size := updater.size.getD d.inode.size
    mode := updater.mode.getD d.inode.mode
    uid := updater.uid.getD d.inode.uid
    gid := updater.gid.getD d.inode.gid } }

def addChildForDentry (parent : Addr) (name : Str) (inode : Inode) : LocalM Addr := do
  let child ← addChild parent name inode
  saveDentryIndex child
  pure child

def createDentry (pino : InodeID) (name : Str) (inode : Inode) : LocalM Addr := do
  let parent ← getParent pino
  addChildForDentry parent name inode

def findDentry (pino : InodeID) (name : Str) : LocalM (Option Addr) := do
  let parent ← getParent pino
  return (← load parent).getChild name

/-- The permission bits of `perm` in the mode `mode`. -/
def withPerm (mode perm : Mode) : Mode := (mode &&& ~~~0o777#32) ||| (perm &&& 0o777#32)

def obj2inode (now : Timespec) (obj : ObjInfo) (isDir : Bool) : LocalM Inode := do
  let ino ← getNextInodeId
  let opt := (← get).opt
  let mode := if isDir then S_IFDIR ||| 0o766#32 else S_IFREG ||| 0o644#32
  let time := if isDir then now else ⟨0, 0⟩
  pure {
    ino, size := obj.size, ctime := time, mtime := time
    uid := obj.uid.getD opt.uid
    gid := obj.gid.getD opt.gid
    mode := (obj.mode.map (withPerm mode)).getD mode }

def createDentryFromObj (now : Timespec) (pino : InodeID) (name : Str) (obj : ObjInfo) (isDir : Bool) : LocalM Addr := do
  let parent ← getParent pino
  let inode ← obj2inode now obj isDir
  addChildForDentry parent name inode

def removeDentry (pino : InodeID) (name : Str) : LocalM Unit := do
  let parent ← getParent pino
  removeChild parent name

/-- `remove_child` frees the dentry of the source, from which the inode is read after that as it was, and the inode, which
    the new dentry then points to: `freed` is what the memory of the inode holds by then. -/
def rename (freed : Inode) (srcPino : InodeID) (srcName : Str) (dstPino : InodeID) (dstName : Str) : LocalM Unit := do
  let srcParent ← getParent srcPino
  let dstParent ← getParent dstPino
  match (← load srcParent).getChild srcName with
  | none => pure ()
  | some _ => do
    removeChild srcParent srcName
    let _ ← addChildForDentry dstParent dstName freed

def createNewInode (now : Timespec) (mode : Mode) (gid uid : Nat) : LocalM Inode := do
  let ino ← getNextInodeId
  pure { ino, size := 0, ctime := now, mtime := now, mode, uid, gid }

/-- The constructor `LocalMemMeta(opt)`. -/
def new (opt : MetaOpt) (now : Timespec) : LocalMemMeta :=
  let inode : Inode :=
    { ino := ROOT_INODE_ID, size := 0, ctime := now, mtime := now, mode := S_IFDIR ||| 0o766#32, uid := opt.uid,
      gid := opt.uid }
  { opt
    nextInodeId := ROOT_INODE_ID + 1
    rootDentry := 0
    dentryIndex := Function.update (fun _ _ => none) (ROOT_INODE_ID % LOCK_COUNT)
      (Function.update (fun _ => none) ROOT_INODE_ID (some 0))
    heap := Function.update (fun _ => default) 0 (Dentry.new [] inode)
    heapNext := 1
    issued := [ROOT_INODE_ID] }

/-! ### Merging a listing -/

/-- The child of `p` named `name`, created or updated from `oinfo`. -/
def mergeChild (now : Timespec) (p : Dentry) (name : Str) (isDir : Bool) (oinfo : ObjInfo) : LocalM Addr := do
  match p.getChild name with
  | none => createDentryFromObj now p.inode.ino name oinfo isDir
  | some child => do
    store child (·.update oinfo.size oinfo.ctime oinfo.mtime)
    pure child

def markSynced (a : Addr) : LocalM Unit := store a fun d => { d with synced := true }

mutual

/-- The loop of the function `build` inside `build_dentries`. -/
def buildChildren (now : Timespec) (parent : Addr) : List FTreeNode → LocalM Unit
  | [] => pure ()
  | child :: rest => do
    buildChild now parent child
    buildChildren now parent rest

/-- One turn of that loop. -/
def buildChild (now : Timespec) (parent : Addr) : FTreeNode → LocalM Unit
  | .mk name isDir children oinfo => do
    let p ← load parent
    let child ← mergeChild now p name isDir oinfo
    if isDir then do
      markSynced child
      buildChildren now child children
      markSynced child
    else markSynced child

end

def buildDentries (now : Timespec) (pino : InodeID) (children : List FTreeNode) : LocalM Unit := do
  match ← getDentry pino with
  | none => throw .nullDeref
  | some parent => do
    markSynced parent
    buildChildren now parent children

/-! ### The sweep -/

/-- What the sweep does to a child that stays: its mark is reset and its ttl extended. -/
def keepChild (now : Timespec) (timeout : Nat) (d : Dentry) : Dentry :=
  let d := { d with synced := false }.incTtl now timeout
  if d.isDir && d.childCount != 0 then { d with complete := true } else d

/-- The loop over the children of `a`, as they were when it began. It returns the directories to push. In the source
    `remove_child` erases the entry on which the loop stands, and the next turn begins from an iterator that is no longer
    valid, so there a process that comes to a child without a mark need not survive; the loop here goes on to the child
    that came next. -/
def sweepChildren (now : Timespec) (a : Addr) : List (Sigma fun _ : Str => Addr) → LocalM (List Addr)
  | [] => pure []
  | ⟨_, c⟩ :: rest => do
    let child ← load c
    if child.synced then do
      let opt := (← get).opt
      store c (keepChild now opt.dcacheTimeout)
      let pushed ← sweepChildren now a rest
      pure (if child.isDir then c :: pushed else pushed)
    else do
      removeChild a child.name
      sweepChildren now a rest

/-- What the sweep does to a dentry it takes from the queue, before the loop over its children. -/
def visit (now : Timespec) (timeout : Nat) (d : Dentry) : Dentry :=
  let d := { d with synced := true }.incTtl now timeout
  if d.childCount != 0 then { d with complete := true } else d

/-- The loop over the queue, for at most `fuel` turns. -/
def sweepLoop (now : Timespec) : Nat → List Addr → LocalM Unit
  | _, [] => pure ()
  | 0, _ :: _ => throw .diverge
  | fuel + 1, a :: queue => do
    let opt := (← get).opt
    store a (visit now opt.dcacheTimeout)
    let d ← load a
    let pushed ← sweepChildren now a d.children.entries
    sweepLoop now fuel (queue ++ pushed)

/-- The queue only ever holds each dentry once, so the size of the heap bounds the turns. -/
def clearUnsyncDentry (now : Timespec) (parent : Addr) : LocalM Unit := do
  let m ← get
  sweepLoop now m.heapNext [parent]

end LocalMemMeta

end Catfs
