import Catfs.Fs

/-! # The FUSE handlers (`src/fs/fsa.cpp`, `src/fs/fs_dir.cpp`)

A handler answers its request with `fuse_reply_*` calls, which are recorded. An exception that none of its `catch`
clauses takes leaves it. -/

namespace Catfs

open Lib

def EIO : Nat := 5
def ENOTEMPTY : Nat := 39

/-- The classes derived from `std::exception`. -/
def Err.isStdException : Err → Bool
  | .invalidInodeID _ | .serverError _ | .enotempty | .enoent | .enotdir | .outOfRange => true
  | .string _ | .cstr _ | .int _ | .pastEnd | .nullDeref | .diverge => false

/-- What `fuse_add_direntry` and `fuse_add_direntry_plus` are given. -/
structure FuseEntry where
  name : Str
  attr : Inode
  off : Nat
  deriving DecidableEq, Repr

/-- The calls `fuse_reply_err`, `fuse_reply_entry` and so on; a buffer of directory entries is told from one of
    bytes. -/
inductive FuseReply where
  | err (code : Nat)
  | entry (inode : Inode)
  | attr (inode : Inode)
  | opened (hno : HandleID)
  | created (inode : Inode) (hno : HandleID)
  | buf (data : List Byte)
  | dir (entries : List FuseEntry)
  | write (count : Nat)
  deriving DecidableEq, Repr

structure OpenDir where
  ino : InodeID
  hno : HandleID
  dentries : List Dirent
  deriving DecidableEq, Repr

/-- `catfs`, its member `open_dirs` apart, and the replies made so far. -/
structure FuseAdapter (σ : Type) where
  catfs : CatFS σ
  openDirs : HandleID → Option OpenDir
  replies : List FuseReply

abbrev FuseM (σ : Type) := EStateM Err (FuseAdapter σ)

/-- The size of one entry in a buffer, as libfuse computes it from the name. -/
structure DirentSize where
  direntry : Str → Nat
  direntryPlus : Str → Nat

namespace FuseAdapter

section
variable {σ α : Type}

def onCatfs (m : FsM σ α) : FuseM σ α := zoom FuseAdapter.catfs (fun fs s => { s with catfs := fs }) m

def reply (r : FuseReply) : FuseM σ Unit := modify fun s => { s with replies := s.replies ++ [r] }

/-- `*dentry->inode` -/
def inodeOf (a : Addr) : FuseM σ Inode := do return ((← get).catfs.world.cache.heap a).inode

/-- `try { body } catch ...`: every `catch` clause replies with an error code. -/
def catching (clauses : Err → Option Nat) (body : FuseM σ Unit) : FuseM σ Unit := fun s =>
  match body s with
  | .ok () s' => .ok () s'
  | .error e s' =>
    match clauses e with
    | some code => reply (.err code) s'
    | none => .error e s'

/-- `catch (std::exception &e)` -/
def catchStd (e : Err) : Option Nat := if e.isStdException then some EIO else none

/-- `catch (types::ERR_ENOENT &e)`, then `catch (std::exception &e)` -/
def catchEnoent (e : Err) : Option Nat := if e = .enoent then some ENOENT else catchStd e

/-- `catch (types::ERR_ENOTEMPTY &e)`, then `catch (std::exception &e)` -/
def catchEnotempty (e : Err) : Option Nat := if e = .enotempty then some ENOTEMPTY else catchStd e

/-! ### Open directories -/

def setDentries (s : FuseAdapter σ) (hno : HandleID) (dentries : List Dirent) : FuseAdapter σ :=
  { s with openDirs := Function.update s.openDirs hno ((s.openDirs hno).map fun dir => { dir with dentries }) }

def opendir (ino : InodeID) : FuseM σ HandleID := do
  match ← onCatfs (CatFS.runMeta (MetaImpl.getDentry ino)) with
  | none => throw .enoent
  | some a =>
    let hno ← onCatfs CatFS.getNextHandleId
    let inode ← inodeOf a
    modify fun s => { s with openDirs := Function.update s.openDirs hno (some { ino := inode.ino, hno, dentries := [] }) }
    pure hno

/-- `meta->load_sub_dentries(open_dir->ino, open_dir->dentries)`. The entries `.` and `..` are pushed before the
    directory is listed, so they stay when the listing throws. -/
def loadDentries (st : Stor σ) (fuel : Nat) (hno : HandleID) (dir : OpenDir) : FuseM σ (List Dirent) := fun s =>
  match onCatfs (CatFS.runMeta (MetaImpl.loadSubDentries st fuel dir.ino)) s with
  | .ok dentries s' => .ok dentries (s'.setDentries hno dentries)
  | .error e s' =>
    match s.catfs.world.cache.lookup dir.ino with
    | some a => .error e (s'.setDentries hno [⟨['.'], a⟩, ⟨['.', '.'], a⟩])
    | none => .error e s'

/-- The range from `begin() + off` on, of at most `size` entries; none when it does not lie inside the vector or ends
    before it begins. -/
def slice (dentries : List Dirent) (off size : Nat) : Option (List Dirent) :=
  if dentries.length < off then none
  else if dentries.length ≤ u64 (off + size) then some (dentries.drop off)
  else if u64 (off + size) < off then none
  else some ((dentries.drop off).take (u64 (off + size) - off))

/-- `ret.assign(begin, end)` -/
def assign (dentries : List Dirent) (off size : Nat) : FuseM σ (List Dirent) :=
  match slice dentries off size with
  | some ret => pure ret
  | none => throw .pastEnd

def readDir (st : Stor σ) (fuel : Nat) (hno : HandleID) (off size : Nat) : FuseM σ (List Dirent) := do
  match (← get).openDirs hno with
  | none => throw (.cstr "hno is not valid".toList)
  | some dir =>
    let dentries ← if dir.dentries = [] then loadDentries st fuel hno dir else pure dir.dentries
    assign dentries off size

def releaseDir (hno : HandleID) : FuseM σ Unit :=
  modify fun s => { s with openDirs := Function.update s.openDirs hno none }

/-! ### The handlers -/

variable (opt : MetaOpt) (st : Stor σ)

def lookup (parent : InodeID) (name : Str) : FuseM σ Unit := catching catchStd do
  match ← onCatfs (CatFS.runMeta (MetaImpl.findDentry opt st parent name false)) with
  | none => reply (.err ENOENT)
  | some a => do
    let inode ← inodeOf a
    reply (.entry inode)

/-- `catfs->lookup_inode(ino)` -/
def lookupInode (ino : InodeID) : FuseM σ (Option Inode) := do
  match ← onCatfs (CatFS.runMeta (MetaImpl.getDentry ino)) with
  | none => pure none
  | some a => some <$> inodeOf a

def getattr (ino : InodeID) : FuseM σ Unit := catching catchStd do
  match ← lookupInode ino with
  | none => reply (.err ENOENT)
  | some inode => reply (.attr inode)

def mkdir (parent : InodeID) (name : Str) (mode : Mode) : FuseM σ Unit := catching catchStd do
  let a ← onCatfs (CatFS.runMeta (MetaImpl.createDentry opt st parent name (mode ||| S_IFDIR)))
  let inode ← inodeOf a
  reply (.entry inode)

def unlink (parent : InodeID) (name : Str) : FuseM σ Unit := catching catchStd do
  onCatfs (CatFS.runMeta (MetaImpl.removeDentry opt st parent name))
  reply (.err 0)

def rmdir (parent : InodeID) (name : Str) : FuseM σ Unit := catching catchEnotempty do
  onCatfs (CatFS.runMeta (MetaImpl.removeDentry opt st parent name))
  reply (.err 0)

/-- `hasWrote` is what the memory of the new file holds. -/
def openHandler (ino : InodeID) (hasWrote : Bool) : FuseM σ Unit := catching catchEnoent do
  let hno ← onCatfs (CatFS.openfile ino hasWrote)
  reply (.opened hno)

def create (parent : InodeID) (name : Str) (mode : Mode) (hasWrote : Bool) : FuseM σ Unit := catching catchStd do
  let a ← onCatfs (CatFS.runMeta (MetaImpl.createDentry opt st parent name mode))
  let inode ← inodeOf a
  let hno ← onCatfs (CatFS.openfile inode.ino hasWrote)
  let inode ← inodeOf a
  reply (.created inode hno)

def read (hno : HandleID) (off size : Nat) : FuseM σ Unit := catching catchStd do
  let data ← onCatfs (CatFS.readfile st hno off size)
  reply (.buf data)

def write (hno : HandleID) (off : Nat) (data : List Byte) : FuseM σ Unit := catching catchStd do
  let n ← onCatfs (CatFS.writefile st hno off data)
  reply (.write (u64 (toInt n)))

/-- The loop `for (auto buf : in_buf->buf)`; `offset` and `res` are the variables of that name. -/
def writeBufs (hno : HandleID) : List (List Byte) → (offset res : Nat) → FuseM σ Nat
  | [], _, res => pure res
  | buf :: bufs, offset, res => do
    let n ← onCatfs (CatFS.writefile st hno offset buf)
    writeBufs hno bufs (u64 (offset + toInt n)) (u64 (res + toInt n))

/-- The member `buf` of a `fuse_bufvec` is an array of one element. -/
def writeBuf (hno : HandleID) (off : Nat) (buf : List Byte) : FuseM σ Unit := catching catchStd do
  let res ← writeBufs st hno [buf] off 0
  reply (.write res)

def flush (_hno : HandleID) : FuseM σ Unit := reply (.err 0)

def release (hno : HandleID) : FuseM σ Unit := catching catchStd do
  onCatfs (CatFS.releaseFile st hno)
  reply (.err 0)

def opendirHandler (ino : InodeID) : FuseM σ Unit := catching catchEnoent do
  let hno ← opendir ino
  reply (.opened hno)

/-- The loop that fills the buffer, which has room for `rem` bytes; `attr` is what it gives of an inode. -/
def fillEntries (entsize : Str → Nat) (attr : Addr → Inode) (off : Nat) : List Dirent → (rem idx : Nat) → List FuseEntry
  | [], _, _ => []
  | d :: rest, rem, idx =>
    if rem < entsize d.name then []
    else { name := d.name, attr := attr d.inode, off := off + idx + 1 } ::
      fillEntries entsize attr off rest (rem - entsize d.name) (idx + 1)

def readdir (size : DirentSize) (fuel : Nat) (hno : HandleID) (limit off : Nat) : FuseM σ Unit := catching catchStd do
  let dirents ← readDir st fuel hno off limit
  let heap := (← get).catfs.world.cache.heap
  reply (.dir (fillEntries size.direntry
    (fun a => { Inode.new with ino := (heap a).inode.ino, mode := (heap a).inode.mode }) off
    (dirents.filter fun d => d.name != ['.'] && d.name != ['.', '.']) limit 0))

def readdirplus (size : DirentSize) (fuel : Nat) (hno : HandleID) (limit off : Nat) : FuseM σ Unit := catching catchStd do
  let dirents ← readDir st fuel hno off limit
  let heap := (← get).catfs.world.cache.heap
  reply (.dir (fillEntries size.direntryPlus (fun a => (heap a).inode) off dirents limit 0))

def releasedir (hno : HandleID) : FuseM σ Unit := releaseDir hno

end

end FuseAdapter

/-- The requests that the handlers take. -/
inductive FuseReq where
  | lookup (parent : InodeID) (name : Str)
  | getattr (ino : InodeID)
  | mkdir (parent : InodeID) (name : Str) (mode : Mode)
  | unlink (parent : InodeID) (name : Str)
  | rmdir (parent : InodeID) (name : Str)
  | openfile (ino : InodeID) (hasWrote : Bool)
  | create (parent : InodeID) (name : Str) (mode : Mode) (hasWrote : Bool)
  | read (hno : HandleID) (off size : Nat)
  | write (hno : HandleID) (off : Nat) (data : List Byte)
  | writeBuf (hno : HandleID) (off : Nat) (buf : List Byte)
  | release (hno : HandleID)
  | opendir (ino : InodeID)
  | readdir (hno : HandleID) (limit off : Nat)
  | readdirplus (hno : HandleID) (limit off : Nat)
  | releasedir (hno : HandleID)
  deriving DecidableEq, Repr

open FuseAdapter in
/-- The handler of the request, with at most `fuel` pages for a listing. -/
def FuseReq.handler {σ : Type} (opt : MetaOpt) (st : Stor σ) (size : DirentSize) (fuel : Nat) : FuseReq → FuseM σ Unit
  | .lookup parent name => FuseAdapter.lookup opt st parent name
  | .getattr ino => FuseAdapter.getattr ino
  | .mkdir parent name mode => FuseAdapter.mkdir opt st parent name mode
  | .unlink parent name => FuseAdapter.unlink opt st parent name
  | .rmdir parent name => FuseAdapter.rmdir opt st parent name
  | .openfile ino hasWrote => openHandler ino hasWrote
  | .create parent name mode hasWrote => FuseAdapter.create opt st parent name mode hasWrote
  | .read hno off size => FuseAdapter.read st hno off size
  | .write hno off data => FuseAdapter.write st hno off data
  | .writeBuf hno off buf => FuseAdapter.writeBuf st hno off buf
  | .release hno => FuseAdapter.release st hno
  | .opendir ino => opendirHandler ino
  | .readdir hno limit off => FuseAdapter.readdir st size fuel hno limit off
  | .readdirplus hno limit off => FuseAdapter.readdirplus st size fuel hno limit off
  | .releasedir hno => FuseAdapter.releasedir hno

end Catfs
