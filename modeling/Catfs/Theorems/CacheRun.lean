import Catfs.MetaLocalMem

/-! # Runs of the cache's operations

Each operation as an equation of its run, over the changes to the heap and the index that it makes. -/

namespace Catfs

open Lib
open EStateM (Result)

namespace LocalMemMeta
variable {m : LocalMemMeta} {a b p : Addr} {f : Dentry → Dentry} {name : Str} {inode : Inode}

/-! ### The heap and the index -/

theorem heap_set : (m.set a f).heap b = if b = a then f (m.heap a) else m.heap b := by
  simp only [set, Function.update_apply]

@[simp] theorem heap_set_self : (m.set a f).heap a = f (m.heap a) := by simp [heap_set]

theorem heap_set_ne (h : b ≠ a) : (m.set a f).heap b = m.heap b := by simp [heap_set, h]

@[simp] theorem heapNext_set : (m.set a f).heapNext = m.heapNext := rfl
@[simp] theorem lookup_set {ino : InodeID} : (m.set a f).lookup ino = m.lookup ino := rfl
@[simp] theorem opt_set : (m.set a f).opt = m.opt := rfl

theorem lookup_setIndex {ino ino' : InodeID} :
    (m.setIndex ino a).lookup ino' = if ino' = ino then some a else m.lookup ino' := by
  simp only [lookup, setIndex, Function.update_apply]
  by_cases h : ino' = ino
  · simp [h]
  · by_cases hs : ino' % LOCK_COUNT = ino % LOCK_COUNT <;> simp [h, hs]

/-- A new dentry for `inode`, linked under `p` and indexed. -/
def link (m : LocalMemMeta) (p : Addr) (name : Str) (inode : Inode) : LocalMemMeta :=
  ((m.alloc { Dentry.new name inode with parent := some p }).set p fun d =>
    { d with children := d.children.insert name m.heapNext }).setIndex inode.ino m.heapNext

/-- The next inode number handed out. -/
def issue (m : LocalMemMeta) : LocalMemMeta :=
  { m with nextInodeId := m.nextInodeId + 1, issued := m.issued ++ [m.nextInodeId] }

@[simp] theorem heap_issue : m.issue.heap = m.heap := rfl
@[simp] theorem heapNext_issue : m.issue.heapNext = m.heapNext := rfl
@[simp] theorem lookup_issue {ino : InodeID} : m.issue.lookup ino = m.lookup ino := rfl
@[simp] theorem opt_issue : m.issue.opt = m.opt := rfl

theorem heap_link_new (name : Str) (inode : Inode) (hp : p < m.heapNext) :
    (m.link p name inode).heap m.heapNext = { Dentry.new name inode with parent := some p } := by
  simp [link, setIndex, alloc, heap_set, Nat.ne_of_gt hp]

theorem heap_link_parent (hp : p < m.heapNext) :
    (m.link p name inode).heap p = { m.heap p with children := (m.heap p).children.insert name m.heapNext } := by
  simp [link, setIndex, alloc, Nat.ne_of_lt hp]

theorem heap_link_other (h : b < m.heapNext) (hb : b ≠ p) : (m.link p name inode).heap b = m.heap b := by
  simp [link, setIndex, alloc, heap_set, hb, Nat.ne_of_lt h]

@[simp] theorem heapNext_link : (m.link p name inode).heapNext = m.heapNext + 1 := rfl
@[simp] theorem opt_link : (m.link p name inode).opt = m.opt := rfl

theorem lookup_link {ino : InodeID} :
    (m.link p name inode).lookup ino = if ino = inode.ino then some m.heapNext else m.lookup ino :=
  lookup_setIndex

/-! ### The operations -/

@[simp] theorem run_load : load a m = .ok (m.heap a) m := rfl
@[simp] theorem run_store : store a f m = .ok () (m.set a f) := rfl
@[simp] theorem run_getDentry {ino : InodeID} : getDentry ino m = .ok (m.lookup ino) m := rfl
@[simp] theorem run_getNextInodeId : getNextInodeId m = .ok m.nextInodeId m.issue := rfl
@[simp] theorem run_markSynced : markSynced a m = .ok () (m.set a fun d => { d with synced := true }) := rfl
@[simp] theorem run_removeChild : removeChild a name m =
    .ok () (m.set a fun d => { d with children := d.children.erase name }) := rfl

theorem run_getParent {ino : InodeID} : getParent ino m = match m.lookup ino with
    | some p => .ok p m
    | none => .error (.invalidInodeID ino) m := by
  rw [getParent, bind_ok run_getDentry]
  cases m.lookup ino <;> rfl

theorem run_addChildForDentry (hp : p < m.heapNext) :
    addChildForDentry p name inode m = .ok m.heapNext (m.link p name inode) := by
  have h : (((m.alloc { Dentry.new name inode with parent := some p }).set p fun d =>
      { d with children := d.children.insert name m.heapNext }).heap m.heapNext).inode.ino = inode.ino := by
    simp [alloc, heap_set, Nat.ne_of_gt hp, Dentry.new]
  show Result.ok _ (LocalMemMeta.setIndex _ _ _) = _
  rw [link, ← h]

/-- The inode that `create_new_inode` returns. -/
def newInode (m : LocalMemMeta) (now : Timespec) (mode : Mode) (gid uid : Nat) : Inode :=
  { ino := m.nextInodeId, size := 0, ctime := now, mtime := now, mode, uid, gid }

@[simp] theorem run_createNewInode {now : Timespec} {mode : Mode} {gid uid : Nat} :
    createNewInode now mode gid uid m = .ok (m.newInode now mode gid uid) m.issue := rfl

/-- The inode that `obj2inode` returns. -/
def objInode (m : LocalMemMeta) (now : Timespec) (obj : ObjInfo) (isDir : Bool) : Inode :=
  let mode := if isDir then S_IFDIR ||| 0o766#32 else S_IFREG ||| 0o644#32
  let time := if isDir then now else ⟨0, 0⟩
  { ino := m.nextInodeId, size := obj.size, ctime := time, mtime := time
    uid := obj.uid.getD m.opt.uid
    gid := obj.gid.getD m.opt.gid
    mode := (obj.mode.map (withPerm mode)).getD mode }

@[simp] theorem run_obj2inode {now : Timespec} {obj : ObjInfo} {isDir : Bool} :
    obj2inode now obj isDir m = .ok (m.objInode now obj isDir) m.issue := rfl

theorem run_createDentry {pino : InodeID} (h : m.lookup pino = some p) (hp : p < m.heapNext) :
    createDentry pino name inode m = .ok m.heapNext (m.link p name inode) := by
  have hg : getParent pino m = .ok p m := by rw [run_getParent, h]
  rw [createDentry, bind_ok hg, run_addChildForDentry hp]

theorem run_createDentry_none {pino : InodeID} (h : m.lookup pino = none) :
    createDentry pino name inode m = .error (.invalidInodeID pino) m := by
  have hg : getParent pino m = .error (.invalidInodeID pino) m := by rw [run_getParent, h]
  rw [createDentry, bind_error hg]

theorem run_createDentryFromObj {now : Timespec} {pino : InodeID} {obj : ObjInfo} {isDir : Bool}
    (h : m.lookup pino = some p) (hp : p < m.heapNext) :
    createDentryFromObj now pino name obj isDir m =
      .ok m.heapNext (m.issue.link p name (m.objInode now obj isDir)) := by
  have hg : getParent pino m = .ok p m := by rw [run_getParent, h]
  rw [createDentryFromObj, bind_ok hg, bind_ok run_obj2inode, run_addChildForDentry (m := m.issue) hp]
  rfl

theorem run_createDentryFromObj_none {now : Timespec} {pino : InodeID} {obj : ObjInfo} {isDir : Bool}
    (h : m.lookup pino = none) :
    createDentryFromObj now pino name obj isDir m = .error (.invalidInodeID pino) m := by
  have hg : getParent pino m = .error (.invalidInodeID pino) m := by rw [run_getParent, h]
  rw [createDentryFromObj, bind_error hg]

theorem run_findDentry {pino : InodeID} (h : m.lookup pino = some p) :
    findDentry pino name m = .ok ((m.heap p).getChild name) m := by
  have hg : getParent pino m = .ok p m := by rw [run_getParent, h]
  rw [findDentry, bind_ok hg]
  rfl

theorem run_findDentry_none {pino : InodeID} (h : m.lookup pino = none) :
    findDentry pino name m = .error (.invalidInodeID pino) m := by
  have hg : getParent pino m = .error (.invalidInodeID pino) m := by rw [run_getParent, h]
  rw [findDentry, bind_error hg]

theorem run_removeDentry {pino : InodeID} (h : m.lookup pino = some p) :
    removeDentry pino name m = .ok () (m.set p fun d => { d with children := d.children.erase name }) := by
  have hg : getParent pino m = .ok p m := by rw [run_getParent, h]
  rw [removeDentry, bind_ok hg, run_removeChild]

theorem run_removeDentry_none {pino : InodeID} (h : m.lookup pino = none) :
    removeDentry pino name m = .error (.invalidInodeID pino) m := by
  have hg : getParent pino m = .error (.invalidInodeID pino) m := by rw [run_getParent, h]
  rw [removeDentry, bind_error hg]

/-- The change that `update_inode` makes to a dentry. -/
def InodeUpdateAttr.apply (u : InodeUpdateAttr) (d : Dentry) : Dentry :=
  { d with inode := { d.inode with
      size := u.size.getD d.inode.size
      mode := u.mode.getD d.inode.mode
      uid := u.uid.getD d.inode.uid
      gid := u.gid.getD d.inode.gid } }

theorem run_updateInode {ino : InodeID} {u : InodeUpdateAttr} (h : m.lookup ino = some a) :
    updateInode ino u m = .ok () (m.set a (InodeUpdateAttr.apply u)) := by
  have hg : getParent ino m = .ok a m := by rw [run_getParent, h]
  rw [updateInode, bind_ok hg]
  rfl

theorem run_updateInode_none {ino : InodeID} {u : InodeUpdateAttr} (h : m.lookup ino = none) :
    updateInode ino u m = .error (.invalidInodeID ino) m := by
  have hg : getParent ino m = .error (.invalidInodeID ino) m := by rw [run_getParent, h]
  rw [updateInode, bind_error hg]

end LocalMemMeta

end Catfs
