import Catfs.Theorems.CacheInv

/-! # The cache's operations keep its shape

Each operation, whether it returns or throws and whatever it is given. -/

namespace Catfs

open Lib

namespace LocalMemMeta

/-- `f` keeps the shape of the cache. -/
abbrev Kept {α : Type} (f : LocalM α) : Prop := Keeps Inv Grow (fun _ => True) f (fun _ _ => True)

variable {α β : Type} {now : Timespec} {a : Addr} {name : Str}

theorem kept_bind {f : LocalM α} {g : α → LocalM β} (hf : Kept f) (hg : ∀ a, Kept (g a)) : Kept (f >>= g) :=
  Keeps.bind hf hg

theorem kept_pure {x : α} : Kept (pure x) := Keeps.pure fun _ _ _ => trivial

theorem kept_throw {e : Err} : Kept (throw e : LocalM α) := Keeps.throw

theorem kept_get : Kept get := fun m hm _ => ⟨hm, .refl m, trivial⟩

theorem kept_load : Kept (load a) := fun m hm _ => ⟨hm, .refl m, trivial⟩

theorem kept_store {f : Dentry → Dentry} (hf : Mild f) : Kept (store a f) := fun _ hm _ => ⟨hm.set hf, .set hf, trivial⟩

theorem kept_getDentry {ino : InodeID} : Kept (getDentry ino) := fun m hm _ => ⟨hm, .refl m, trivial⟩

theorem kept_getParent {ino : InodeID} : Kept (getParent ino) := by
  refine kept_bind kept_getDentry fun d => ?_
  cases d with
  | none => exact kept_throw
  | some p => exact kept_pure

theorem kept_getFullPath : Kept (getFullPath a) := by
  refine kept_bind kept_get fun m => ?_
  split
  · exact kept_pure
  · exact kept_throw

theorem kept_getFullPathWithSlash : Kept (getFullPathWithSlash a) :=
  kept_bind kept_load fun _ => .ite (fun _ => kept_pure) fun _ => kept_bind kept_getFullPath fun _ => kept_pure

theorem kept_childrenList : Kept (childrenList a) := kept_bind kept_get fun _ => kept_pure

theorem kept_findDentry {pino : InodeID} : Kept (findDentry pino name) :=
  kept_bind kept_getParent fun _ => kept_bind kept_load fun _ => kept_pure

theorem kept_updateInode {ino : InodeID} {u : InodeUpdateAttr} : Kept (updateInode ino u) :=
  kept_bind kept_getParent fun _ => kept_store Mild.apply

theorem kept_removeChild : Kept (removeChild a name) := kept_store Mild.erase

theorem kept_removeDentry {pino : InodeID} : Kept (removeDentry pino name) :=
  kept_bind kept_getParent fun _ => kept_removeChild

theorem kept_markSynced : Kept (markSynced a) := kept_store Mild.synced

/-- A number is handed out and used for the new dentry in one step. -/
theorem kept_createDentryFromObj {pino : InodeID} {obj : ObjInfo} {isDir : Bool} :
    Kept (createDentryFromObj now pino name obj isDir) := by
  intro m hm _
  cases h : m.lookup pino with
  | none =>
    rw [run_createDentryFromObj_none h]
    exact ⟨hm, .refl m⟩
  | some p =>
    have hp := (hm.indexed _ _ h).1
    rw [run_createDentryFromObj h hp]
    exact ⟨hm.issue.link hp hm.fresh, Grow.issue.trans (.link hm.issue hp hm.fresh), trivial⟩

/-- `create_dentry(pino, name, create_new_inode(mode, gid, uid))` -/
theorem kept_createNew {pino : InodeID} {mode : Mode} {gid uid : Nat} :
    Kept (do
      let inode ← createNewInode now mode gid uid
      createDentry pino name inode) := by
  intro m hm _
  rw [bind_ok run_createNewInode]
  cases h : m.lookup pino with
  | none =>
    have hg : getParent pino m.issue = .error (.invalidInodeID pino) m.issue := by
      rw [run_getParent, lookup_issue, h]
    rw [createDentry, bind_error hg]
    exact ⟨hm.issue, .issue⟩
  | some p =>
    have hp := (hm.indexed _ _ h).1
    rw [run_createDentry (m := m.issue) h hp]
    exact ⟨hm.issue.link hp hm.fresh, Grow.issue.trans (.link hm.issue hp hm.fresh), trivial⟩

/-! ### The merge -/

theorem kept_mergeChild {p : Dentry} {isDir : Bool} {oinfo : ObjInfo} : Kept (mergeChild now p name isDir oinfo) := by
  unfold mergeChild
  split
  · exact kept_createDentryFromObj
  · exact kept_bind (kept_store Mild.update) fun _ => kept_pure

mutual

theorem kept_buildChildren (parent : Addr) : (children : List FTreeNode) → Kept (buildChildren now parent children)
  | [] => by
    rw [buildChildren]
    exact kept_pure
  | child :: rest => by
    rw [buildChildren]
    exact kept_bind (kept_buildChild parent child) fun _ => kept_buildChildren parent rest

theorem kept_buildChild (parent : Addr) : (node : FTreeNode) → Kept (buildChild now parent node)
  | .mk name isDir children oinfo => by
    rw [buildChild]
    refine kept_bind kept_load fun p => kept_bind kept_mergeChild fun child => .ite (fun _ => ?_) fun _ => kept_markSynced
    exact kept_bind kept_markSynced fun _ => kept_bind (kept_buildChildren child children) fun _ => kept_markSynced

end

theorem kept_buildDentries {pino : InodeID} {children : List FTreeNode} : Kept (buildDentries now pino children) := by
  refine kept_bind kept_getDentry fun d => ?_
  cases d with
  | none => exact kept_throw
  | some parent => exact kept_bind kept_markSynced fun _ => kept_buildChildren parent children

/-! ### The sweep -/

theorem kept_sweepChildren (entries : List (Sigma fun _ : Str => Addr)) : Kept (sweepChildren now a entries) := by
  induction entries with
  | nil => exact kept_pure
  | cons e rest ih =>
    refine kept_bind kept_load fun child => .ite (fun _ => ?_) fun _ => kept_bind kept_removeChild fun _ => ih
    exact kept_bind kept_get fun _ => kept_bind (kept_store Mild.keepChild) fun _ => kept_bind ih fun _ => kept_pure

theorem kept_sweepLoop (fuel : Nat) (queue : List Addr) : Kept (sweepLoop now fuel queue) := by
  induction fuel generalizing queue with
  | zero =>
    cases queue with
    | nil => exact kept_pure
    | cons => exact kept_throw
  | succ fuel ih =>
    cases queue with
    | nil => exact kept_pure
    | cons a queue =>
      exact kept_bind kept_get fun _ => kept_bind (kept_store Mild.visit) fun _ => kept_bind kept_load fun _ =>
        kept_bind (kept_sweepChildren _) fun _ => ih _

theorem kept_clearUnsyncDentry : Kept (clearUnsyncDentry now a) := kept_bind kept_get fun _ => kept_sweepLoop _ _

end LocalMemMeta

end Catfs
