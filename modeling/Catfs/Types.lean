import Mathlib.Algebra.Order.Ring.Int
import Mathlib.Data.List.AList

/-! # The types of `src/types` and `src/util`

A `std::string` is a list of characters and a buffer a list of bytes. 64-bit ids and sizes are natural
numbers. A `Dentry *` is the address of a `Dentry` in the heap of `LocalMemMeta`; the `Inode` a dentry
points to is allocated for that dentry alone, so it is a field of it. -/

namespace Catfs

abbrev Str := List Char
abbrev Byte := UInt8
abbrev InodeID := Nat
abbrev HandleID := Nat
abbrev Addr := Nat
abbrev Mode := BitVec 32

def S_IFMT : Mode := 0o170000#32
def S_IFDIR : Mode := 0o040000#32
def S_IFREG : Mode := 0o100000#32

def ROOT_INODE_ID : InodeID := 1

structure Timespec where
  sec : Nat
  nsec : Nat
  deriving DecidableEq, Repr

/-- The exceptions of `src/types/errors.h` and the other values the code throws. The last three are not
    exceptions: an iterator past the end is used, a null pointer is followed, or a loop ran out of the steps the
    model gives it. -/
inductive Err where
  | invalidInodeID (ino : InodeID)
  | serverError (msg : Str)
  | enotempty
  | enoent
  | enotdir
  | outOfRange
  | string (msg : Str)
  | cstr (msg : Str)
  | int (code : Nat)
  | pastEnd
  | nullDeref
  | diverge
  deriving DecidableEq, Repr

def ENOENT : Nat := 2

/-- The value of an integer as a `uint64_t`. -/
def u64 (n : Int) : Nat := (n % 2 ^ 64).toNat

/-- `a - b` for two lengths, which are a `size_t` in the source and not bounded here. -/
def sizeSub (a b : Nat) : Nat := if b ≤ a then a - b else 2 ^ 64 - (b - a)

def slash : Str := ['/']

/-- `std::string::substr`, or none when it throws `std::out_of_range`. -/
def substr (s : Str) (pos count : Nat) : Option Str :=
  if s.length < pos then none else some ((s.drop pos).take count)

structure Inode where
  ino : InodeID
  size : Nat
  ctime : Timespec
  mtime : Timespec
  mode : Mode
  uid : Nat
  gid : Nat
  deriving DecidableEq, Repr

/-- `new Inode()`: every field is zero. -/
def Inode.new : Inode :=
  { ino := 0, size := 0, ctime := ⟨0, 0⟩, mtime := ⟨0, 0⟩, mode := 0, uid := 0, gid := 0 }

/-- `complete` is the bit `D_COMPLETE` of `flags`. -/
structure Dentry where
  name : Str
  parent : Option Addr
  inode : Inode
  ttl : Timespec
  complete : Bool
  synced : Bool
  children : AList fun _ : Str => Addr

/-- The constructor `Dentry(name, inode)`. -/
def Dentry.new (name : Str) (inode : Inode) : Dentry :=
  { name, parent := none, inode, ttl := ⟨0, 0⟩, complete := false, synced := false, children := ∅ }

instance : Inhabited Dentry := ⟨Dentry.new [] Inode.new⟩

namespace Dentry

def isRoot (d : Dentry) : Bool := d.inode.ino == ROOT_INODE_ID

def isDir (d : Dentry) : Bool := d.inode.mode &&& S_IFDIR != 0

def getChild (d : Dentry) (name : Str) : Option Addr := d.children.lookup name

def childCount (d : Dentry) : Nat := d.children.entries.length

def isExpired (d : Dentry) (now : Timespec) : Bool :=
  if d.ttl.sec = now.sec then d.ttl.nsec < now.nsec else d.ttl.sec < now.sec

def incTtl (d : Dentry) (now : Timespec) (duration : Nat) : Dentry :=
  { d with ttl := { now with sec := now.sec + duration } }

def update (d : Dentry) (size : Nat) (ctime mtime : Timespec) : Dentry :=
  { d with inode := { d.inode with size, ctime, mtime } }

end Dentry

/-- The inode of a `Dirent` is the one of the dentry at `inode`. -/
structure Dirent where
  name : Str
  inode : Addr
  deriving DecidableEq, Repr

structure ObjInfo where
  name : Str
  size : Nat
  ctime : Timespec
  mtime : Timespec
  uid : Option Nat
  gid : Option Nat
  mode : Option Mode
  deriving DecidableEq, Repr

/-- `ObjInfo{}`, as `make_shared<FTreeNode>` value-initialises it. -/
def ObjInfo.zero : ObjInfo :=
  { name := [], size := 0, ctime := ⟨0, 0⟩, mtime := ⟨0, 0⟩, uid := none, gid := none, mode := none }

/-- What the members without an initialiser hold after a declaration such as `HeadFileResp resp;`. -/
structure Garbage where
  exist : Bool
  size : Nat
  ctime : Timespec
  mtime : Timespec
  deriving DecidableEq, Repr

/-- Memory that was zero. -/
def noGarbage : Garbage := { exist := false, size := 0, ctime := ⟨0, 0⟩, mtime := ⟨0, 0⟩ }

/-- `ObjInfo obj;` -/
def ObjInfo.uninit (g : Garbage) : ObjInfo :=
  { ObjInfo.zero with size := g.size, ctime := g.ctime, mtime := g.mtime }

/-- The children of a node are keyed by their names, so the map is the list of its values. -/
inductive FTreeNode where
  | mk (name : Str) (isDir : Bool) (children : List FTreeNode) (oinfo : ObjInfo)

namespace FTreeNode

def name : FTreeNode → Str | mk n _ _ _ => n
def isDir : FTreeNode → Bool | mk _ d _ _ => d
def children : FTreeNode → List FTreeNode | mk _ _ c _ => c
def oinfo : FTreeNode → ObjInfo | mk _ _ _ o => o

/-- `children[node->name] = node` -/
def insert (node : FTreeNode) (children : List FTreeNode) : List FTreeNode :=
  children.filter (fun n => n.name != node.name) ++ [node]

end FTreeNode

/-- A file that is being read or written (`RTFile`). -/
structure RTFile where
  path : Str
  size : Nat
  deriving DecidableEq, Repr

structure MetaOpt where
  gid : Nat
  uid : Nat
  dcacheTimeout : Nat
  deriving DecidableEq, Repr

end Catfs
